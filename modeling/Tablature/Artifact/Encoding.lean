import Tablature.Artifact
import Tablature.Json.Printer

/-!
# Artifact/Encoding — artifacts as files

* `Artifact.encode` — the text of an artifact's file: an object with the members `table`,
  `version`, `createSQL` and `extraSQL`, printed on lines, and a line end;
* `Artifact.decode?` — the artifact of a file's text: such an object in any order and layout, or an
  array of the same three or four values.

Members of other names are passed over unread; a member of the four comes once. `extraSQL` may be
missing.
-/

namespace Tablature.Artifact

open Json (Piece Source Value)

/-- The members of an artifact's object, in the order of the file. -/
def toValue (a : Artifact) : Value :=
  .object
    [("table", .string a.table),
      ("version", .number (.integer a.version.toNat)),
      ("createSQL", .string a.createSql),
      ("extraSQL", .array (a.extraSql.map .string))]

/-- The text of an artifact's file. -/
def encode (a : Artifact) : String := a.toValue.pretty ++ "\n"

/-! ## Reading -/

/-- The text a source spells, if it is a string. -/
def text? : Source → Option String
  | .string pieces => (Json.decode? pieces).map String.ofList
  | _ => none

/-- The version a source spells: an integer of 32 bits. -/
def version? : Source → Option UInt32
  | .number n =>
    match n.integer? with
    | some (.ofNat v) => if v < UInt32.size then some (.ofNat v) else none
    | _ => none
  | _ => none

/-- The texts a source spells, if it is an array of strings. -/
def texts? : Source → Option (List String)
  | .array items => items.mapM text?
  | _ => none

/-- The values of the members read so far. -/
structure Partial where
  table : Option String := none
  version : Option UInt32 := none
  createSql : Option String := none
  extraSql : Option (List String) := none

namespace Partial

/-- A member that has no value yet, with the value that a source spells. -/
def fill {α : Type} (old : Option α) (value : Option α) : Option (Option α) :=
  match old, value with
  | none, some v => some (some v)
  | _, _ => none

/-- What is known after one more member. -/
def add (p : Partial) (member : List Piece × Source) : Option Partial := do
  let name ← Json.decode? member.1
  if name = "table".toList then return { p with table := ← fill p.table (text? member.2) }
  else if name = "version".toList then
    return { p with version := ← fill p.version (version? member.2) }
  else if name = "createSQL".toList then
    return { p with createSql := ← fill p.createSql (text? member.2) }
  else if name = "extraSQL".toList then
    return { p with extraSql := ← fill p.extraSql (texts? member.2) }
  else return p

/-- The artifact, once its members are there. -/
def finish? (p : Partial) : Option Artifact := do
  return { table := ← p.table
           version := ← p.version
           createSql := ← p.createSql
           extraSql := p.extraSql.getD [] }

end Partial

/-- The artifact a source spells. -/
def ofSource? : Source → Option Artifact
  | .object members => do (← members.foldlM Partial.add {}).finish?
  | .array [table, version, createSql] => do
    return ⟨← text? table, ← version? version, ← text? createSql, []⟩
  | .array [table, version, createSql, extraSql] => do
    return ⟨← text? table, ← version? version, ← text? createSql, ← texts? extraSql⟩
  | _ => none

/-- The artifact of a file's text. A container opens with a character of the text, so that the
text's length bounds the depth. -/
def decode? (text : String) : Option Artifact :=
  (Source.parse text.toList.length text.toList).bind ofSource?

end Tablature.Artifact
