import Tablature.Field.Attribute
import Tablature.Field.Head
import Tablature.Text.Scan

/-!
# Field/Token — what one field token says

    token := "^" identifier | head ("," attribute)*

A token is a column, or only asks for an index on a column declared elsewhere. `Field.ofToken`
reads one; blanks around it do not count, and the commas that divide it are those outside quotes
and parentheses.
-/

namespace Tablature

/-- What a field token says. -/
inductive Field where
  | column (column : Column)
  /-- An index on a column of the table. -/
  | indexOn (column : String)
deriving DecidableEq, Repr

namespace Field

/-- Is a token that starts with `^` an index directive? It is when it has no type, attribute or
arrow. -/
def isDirective (text : List Char) : Bool :=
  text.all fun c => !(c == ':' || c == ',' || c == '>')

/-- An automatic key has to be the primary key, of class integer. -/
def checkAutoIncrement (c : Column) : Except Error Unit :=
  if c.constraints.autoIncrement && !(c.constraints.primaryKey && c.storage.isInteger) then
    .error (.constraint c.name (.autoIncrement c.storage.sql c.constraints.primaryKey))
  else .ok ()

/-- The column of a head with attributes. A column without type is text, or an integer if it is an
automatic key. -/
def assemble (head : Head) (attributes : List Attribute) : Column :=
  let (constraints, reference) :=
    attributes.foldl Attribute.apply (head.constraints, head.reference)
  { name := head.name
    storage := head.storage.getD (if constraints.autoIncrement then .integer else .text)
    constraints := constraints
    reference := reference }

/-- The column that a token's pieces spell. -/
def readColumn (pieces : List Char × List (List Char)) : Except FieldFault Column := do
  let head ← readHead pieces.1
  let attributes ← Attribute.readAll head.reference.isSome pieces.2
  return assemble head attributes

/-- What a trimmed token says. -/
def ofTrimmed (text : List Char) : Except Error Field :=
  let located {α : Type} (r : Except FieldFault α) : Except Error α :=
    r.mapError (.field (String.ofList text))
  match text with
  | [] => located (.error .empty)
  | c :: rest =>
    if c == '^' && isDirective text then do
      let name ← located (complete .indexColumn (readIdentifier rest))
      return .indexOn (String.ofList name)
    else do
      let column ← located (readColumn (Text.Scan.top.pieces text))
      checkAutoIncrement column
      return .column column

/-- What a field token says. -/
def ofToken (token : String) : Except Error Field := ofTrimmed (Text.trim token.toList)

end Field

end Tablature
