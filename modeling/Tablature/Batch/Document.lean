import Tablature.Batch.FieldToken
import Tablature.Table

/-!
# Batch/Document — documents that describe many tables

A document is a JSON object with a list of tables, and defaults for all of them. Its entries stay
as they are until they are asked for: `Document.entry` checks one and reduces it to tokens, so that
a bad entry is no fault of the entries before it.
-/

namespace Tablature.Batch

open Json (Value)

/-- A batch document. -/
structure Document where
  outDir : Option String
  onDelete : Option Action
  onUpdate : Option Action
  tables : List Value

/-- An entry of a document, reduced to tokens. -/
structure Entry where
  name : String
  version : UInt32
  stamps : Bool
  tokens : List String
deriving DecidableEq, Repr

/-- The default action under a name. -/
def defaultAction (members : Members) (name label : String) :
    Except DocumentFault (Option Action) :=
  match members.get? [name] with
  | none => .ok none
  | some (.string s) =>
    match Action.ofText? s.toList with
    | some action => .ok (some action)
    | none => .error (.defaultAction label s)
  | some _ => .error (.defaultActionNotString label)

/-- The name of an entry, if it has one that is an identifier. -/
def entryName? (members : Members) : Option String := do
  let text ← (← members.get? ["name"]) |> string?
  if isIdentifier (Text.trim text.toList) then some (Text.strip text) else none

/-- The name of an entry, which it has to have. -/
def requiredName (members : Members) : Except DocumentFault String :=
  match members.get? ["name"], entryName? members with
  | none, _ => .error .tableNameMissing
  | some _, none => .error .tableNameInvalid
  | some _, some name => .ok name

/-- The fields of the table `name`. -/
def entryFields (name : String) (members : Members) : Except DocumentFault (List Value) :=
  match members.get? ["fields", "columns"] with
  | none => .error (.fieldsMissing name)
  | some (.array fields) => .ok fields
  | some _ => .error (.fieldsNotArray name)

/-- The version of an entry, 1 if it gives none. -/
def entryVersion (members : Members) : Except DocumentFault UInt32 :=
  match members.get? ["version"] with
  | none => .ok 1
  | some (.number (.integer n)) =>
    if 1 ≤ n ∧ n < UInt32.size then .ok (UInt32.ofNat n.toNat) else .error .badVersion
  | some _ => .error .badVersion

/-- The fields of an entry, and what it says apart from them. -/
structure EntryFrame where
  name : String
  version : UInt32
  stamps : Bool
  fields : List Value

/-- An entry's own parts, checked; its fields are left as they are. -/
def entryFrame (value : Value) : Except DocumentFault EntryFrame :=
  match members? value with
  | none => .error .entryNotObject
  | some members => do
    let name ← requiredName members
    let fields ← entryFields name members
    let stamps ← members.flag ["stamps"] "stamps"
    let version ← entryVersion members
    return ⟨name, version, stamps, fields⟩

/-- The tokens of fields of table `t`, of which the first is field `f`. -/
def fieldTokens (t f : Nat) : List Value → Except Error (List String)
  | [] => .ok []
  | field :: fields => do
    let token ← fieldToken t f field
    let tokens ← fieldTokens t (f + 1) fields
    return token :: tokens

/-- The entry of a value at a position of the document. -/
def entryOf (t : Nat) (value : Value) : Except Error Entry := do
  let frame ← (entryFrame value).mapError (.document (some t) none)
  let tokens ← fieldTokens t 0 frame.fields
  return ⟨frame.name, frame.version, frame.stamps, tokens⟩

namespace Document

/-- The document of a JSON value. -/
def ofValue (root : Value) : Except DocumentFault Document :=
  match members? root with
  | none => .error .notObject
  | some members => do
    let tables ← match members.get? ["tables"] with
      | none => .error .tablesMissing
      | some (.array tables) => .ok tables
      | some _ => .error .tablesNotArray
    let outDir ← match members.get? ["outdir"] with
      | some (.string s) => .ok (some s)
      | some _ => .error .outDirNotString
      | none => .ok none
    let onDelete ← defaultAction members "defaultondelete" "defaultOnDelete"
    let onUpdate ← defaultAction members "defaultonupdate" "defaultOnUpdate"
    return ⟨outDir, onDelete, onUpdate, tables⟩

/-- The document of a text. -/
def parse (text : String) : Except Error Document :=
  Except.mapError (.document none none) <|
    match Value.parse text with
    | none => .error .notJson
    | some root => ofValue root

/-- The names of all entries that have one, in the order of the entries. -/
def declared (d : Document) : List String :=
  d.tables.filterMap fun v => (members? v).bind entryName?

/-- The names of all entries that have one, each once, in increasing order. -/
def declaredSorted (d : Document) : List String :=
  d.declared.eraseDups.mergeSort (fun a b => decide (a ≤ b))

/-- The entry at a position. -/
def entry (d : Document) (t : Nat) : Except Error Entry :=
  match d.tables[t]? with
  | none => .error (.document (some t) none .noEntry)
  | some value => entryOf t value

end Document

end Tablature.Batch
