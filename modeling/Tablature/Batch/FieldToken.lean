import Tablature.Batch.Members
import Tablature.Field.Head
import Tablature.Text.Scan

/-!
# Batch/FieldToken — a field object as a field token

    {name, type?, notnull?, unique?, index?, pk?, autoincrement?, default?, fk?}

becomes

    name[:type][!+^#~][->table[(column)]][,ondelete=..][,onupdate=..][,defer][,default=..]

Every part is checked before it is written, in the order of the token.
-/

namespace Tablature.Batch

open Json (Value)

/-- The flags a field object may set: names, label, symbol. -/
def fieldFlags : List (List String × String × Char) :=
  [(["notnull"], "notnull", '!'), (["unique"], "unique", '+'), (["index"], "index", '^'),
    (["pk", "primary", "primarykey"], "pk", '#'),
    (["autoincrement", "ai"], "autoincrement", '~')]

/-- The symbols of the flags that are set. -/
def flagSymbols (members : Members) :
    List (List String × String × Char) → Except DocumentFault (List Char)
  | [] => .ok []
  | (names, label, symbol) :: flags => do
    let on ← members.flag names label
    let symbols ← flagSymbols members flags
    return if on then symbol :: symbols else symbols

/-- A name in a reference, which has to be an identifier. -/
def referenceName (role : ReferenceRole) (name : List Char) : Except DocumentFault String :=
  if isIdentifier name then .ok (String.ofList name)
  else .error (.referenceName role (String.ofList name))

/-- A reference in a document: its target, and the attributes it adds. -/
structure ReferenceParts where
  table : String
  column : Option String
  attributes : List String
deriving DecidableEq, Repr

/-- A text less the closing parenthesis at its end. -/
def dropClosing? (cs : List Char) : Option (List Char) :=
  match cs.reverse with
  | ')' :: rest => some rest.reverse
  | _ => none

/-- A reference written as a text: `table` or `table(column)`. -/
def referenceOfText (text : List Char) : Except DocumentFault ReferenceParts :=
  match Text.cutAt '(' text with
  | some (table, rest) =>
    match dropClosing? rest with
    | none => .error (.referenceUnclosed (String.ofList text))
    | some column => do
      return ⟨← referenceName .table table, some (← referenceName .column column), []⟩
  | none => do return ⟨← referenceName .table text, none, []⟩

/-- The attribute for an action of a reference, if it names one. -/
def actionAttribute (members : Members) (label : String) :
    Except DocumentFault (List String) :=
  match members.get? [label] with
  | none => .ok []
  | some (.string s) =>
    match Action.ofText? s.toList with
    | some action => .ok [label ++ "=" ++ action.word]
    | none => .error (.unknownAction s)
  | some _ => .error (.referenceActionNotString label)

/-- The table of a reference, which it has to name. -/
def referenceTable (members : Members) : Except DocumentFault String :=
  match members.get? ["table"] with
  | some (.string s) => referenceName .table (Text.trim s.toList)
  | _ => .error .referenceTableMissing

/-- The column of a reference, if it names one. -/
def referenceColumn (members : Members) : Except DocumentFault (Option String) :=
  match members.get? ["column"] with
  | some (.string s) => (referenceName .column (Text.trim s.toList)).map some
  | some _ => .error .referenceColumnNotString
  | none => .ok none

/-- A reference written as an object. -/
def referenceOfMembers (members : Members) : Except DocumentFault ReferenceParts := do
  let table ← referenceTable members
  let column ← referenceColumn members
  let onDelete ← actionAttribute members "ondelete"
  let onUpdate ← actionAttribute members "onupdate"
  let deferred ← members.flag ["deferred", "deferrable", "defer"] "deferred"
  return ⟨table, column, onDelete ++ onUpdate ++ (if deferred then ["defer"] else [])⟩

/-- The reference that a value describes. -/
def referenceParts : Value → Except DocumentFault ReferenceParts
  | .string s => referenceOfText (Text.trim s.toList)
  | .object members => referenceOfMembers members
  | other => .error (.referenceShape other.compact)

/-- The name of a field. -/
def fieldName (members : Members) : Except DocumentFault String :=
  match members.get? ["name"] with
  | some (.string s) =>
    if isIdentifier (Text.trim s.toList) then .ok (Text.strip s)
    else .error (.fieldNameInvalid (Value.string s).compact)
  | some other => .error (.fieldNameInvalid other.compact)
  | none => .error .fieldNameMissing

/-- The type part of a token, if the field has a type. -/
def typePart (name : String) (members : Members) : Except DocumentFault String :=
  match members.get? ["type"] with
  | some (.string s) =>
    if Field.isTypeName (Text.trim s.toList) then .ok (":" ++ Text.strip s)
    else .error (.notTypeName name (Value.string s).compact)
  | some other => .error (.notTypeName name other.compact)
  | none => .ok ""

/-- The target part of a token and the attributes that go with it, if the field has a reference. -/
def referencePart (members : Members) : Except DocumentFault (String × List String) :=
  match members.get? ["fk", "foreignkey", "references"] with
  | some v => do
    let parts ← referenceParts v
    let column := match parts.column with
      | some c => "(" ++ c ++ ")"
      | none => ""
    return ("->" ++ parts.table ++ column, parts.attributes)
  | none => .ok ("", [])

/-- The expression of a default, if its value is a scalar. -/
def defaultExpr : Value → Except DocumentFault String
  | .string s => .ok s
  | .number n => .ok n.render
  | .bool b => .ok (if b then "1" else "0")
  | other => .error (.defaultNotScalar other.compact)

/-- The attribute of a default, if the field has one. A comma in it that would divide the token is
refused. -/
def defaultPart (name : String) (members : Members) : Except DocumentFault (List String) :=
  match members.get? ["default"] with
  | some v => do
    let expr ← defaultExpr v
    if (Text.split expr.toList).length > 1 then throw (.looseComma name)
    return ["default=" ++ expr]
  | none => .ok []

/-- A field object as a token, if each of its parts can be written. -/
def encodeField (value : Value) : Except DocumentFault String :=
  match members? value with
  | none => .error .fieldNotObject
  | some members => do
    let name ← fieldName members
    let type ← typePart name members
    let flags ← flagSymbols members fieldFlags
    let (target, attributes) ← referencePart members
    let default ← defaultPart name members
    return name ++ type ++ String.ofList flags ++ target
      ++ String.join ((attributes ++ default).map ("," ++ ·))

/-- The token of field `f` of table `t` of a document. A fault is reported with both positions. -/
def fieldToken (t f : Nat) (value : Value) : Except Error String :=
  (encodeField value).mapError (.document (some t) (some f))

end Tablature.Batch
