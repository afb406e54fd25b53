import Tablature.Text.Blank

/-!
# Storage — storage classes and the type names that stand for them

Every type name resolves: the aliases of `aliases` to one of five classes, whatever their letter
case, and any other name to itself in upper case (`Storage.other`), so that types of a particular
engine pass through.
-/

namespace Tablature

/-- The storage class of a column. -/
inductive Storage where
  | integer
  | text
  | real
  | numeric
  | blob
  /-- A type that no alias names, as it is written in the statement. -/
  | other (sql : String)
deriving DecidableEq, Repr

namespace Storage

/-- The aliases, in lower case. -/
def aliases : List (List Char × Storage) :=
  [("int".toList, integer), ("integer".toList, integer), ("bool".toList, integer),
    ("text".toList, text), ("string".toList, text), ("datetime".toList, text),
    ("timestamp".toList, text), ("real".toList, real), ("float".toList, real),
    ("number".toList, numeric), ("numeric".toList, numeric), ("blob".toList, blob)]

/-- The class a type name stands for, blanks around it aside. -/
def ofAlias (name : List Char) : Storage :=
  let word := Text.trim name
  match aliases.lookup (Text.lower word) with
  | some storage => storage
  | none => other (String.ofList (Text.upper word))

/-- The spelling of a class in a statement. -/
def sql : Storage → String
  | integer => "INTEGER"
  | text => "TEXT"
  | real => "REAL"
  | numeric => "NUMERIC"
  | blob => "BLOB"
  | other sql => sql

/-- Is this the class that an automatic key needs? -/
def isInteger : Storage → Bool
  | integer => true
  | _ => false

end Storage

end Tablature
