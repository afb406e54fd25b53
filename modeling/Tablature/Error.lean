import Tablature.Action

/-!
# Error — what can go wrong, and the words for it

Each fault is a cause with the data its message needs; the wording is in the `message` functions
and nowhere else. An `Error` says where a fault was met: in a field token, on a column, in an entry
of a document, at a path.
-/

namespace Tablature

/-- The message about a text that names no action. -/
def unknownActionMessage (text : String) : String :=
  "unknown referential action '" ++ text ++ "' (expected one of: " ++ Action.words ++ ")"

/-! ## Field tokens -/

/-- A part of a field token that has a form of its own. -/
inductive FieldPart where
  | indexColumn
  | definition
  | target
  | inlineReference
deriving DecidableEq, Repr

/-- What a message calls a part. -/
def FieldPart.label : FieldPart → String
  | indexColumn => "index column"
  | definition => "column definition"
  | target => "reference target"
  | inlineReference => "fk(table.column)"

/-- Why a field token cannot be read. -/
inductive FieldFault where
  | empty
  | invalid (part : FieldPart)
  | unexpected (rest : String) (part : FieldPart)
  | twoReferences
  | emptyAttribute
  | valueRefused (key : String)
  | defaultMissing
  | actionMissing (key : String)
  | unknownAction (text : String)
  | referenceMissing (key : String)
  | unknownAttribute (key : String)
deriving DecidableEq, Repr

/-- The wording of a fault in a field token. -/
def FieldFault.message : FieldFault → String
  | empty => "empty field token"
  | invalid part => "invalid " ++ part.label
  | unexpected rest part => "unexpected '" ++ rest ++ "' in " ++ part.label
  | twoReferences => "use either fk(...) or '->', not both"
  | emptyAttribute => "empty attribute"
  | valueRefused key => "attribute '" ++ key ++ "' does not take a value"
  | defaultMissing => "default needs an expression"
  | actionMissing key => key ++ " needs an action"
  | unknownAction text => unknownActionMessage text
  | referenceMissing key => key ++ " requires a foreign key"
  | unknownAttribute key => "unknown attribute '" ++ key ++ "'"

/-! ## Columns of a table -/

/-- Why columns that can be read cannot stand together. -/
inductive ConstraintFault where
  /-- An automatic key of another storage class, or one that is no primary key. -/
  | autoIncrement (storage : String) (primaryKey : Bool)
  | manyPrimaryKeys
  | repeatedColumn
  | unknownIndexColumn (table : String)
deriving DecidableEq, Repr

/-- The wording of a fault on a column. -/
def ConstraintFault.message : ConstraintFault → String
  | autoIncrement storage primaryKey =>
    "AUTOINCREMENT requires an INTEGER PRIMARY KEY (got " ++ storage
      ++ (if primaryKey then "" else " without PRIMARY KEY") ++ ")"
  | manyPrimaryKeys => "only one column may be the primary key"
  | repeatedColumn => "column is defined more than once"
  | unknownIndexColumn table => "index requested on unknown column of '" ++ table ++ "'"

/-! ## Arguments and settings -/

/-- Why an argument or a setting is refused. -/
inductive ArgumentFault where
  | tableName (name : String)
  | versionZero
  /-- A text for the option or setting `what` that names no action. -/
  | unknownAction (what : String) (text : String)
  /-- Settings that are no TOML, or of which a known one has another type. -/
  | badSettings
  /-- A fault of the settings kept at a path. -/
  | inFile (path : String) (fault : ArgumentFault)
deriving DecidableEq, Repr

/-- The wording of a fault in an argument. -/
def ArgumentFault.message : ArgumentFault → String
  | tableName name => "table name '" ++ name ++ "' is not a valid identifier"
  | versionZero => "schema version must be at least 1"
  | unknownAction what text => what ++ ": " ++ unknownActionMessage text
  | badSettings => "TOML parse error"
  | inFile path fault => path ++ ": " ++ fault.message

/-! ## Documents -/

/-- The role of a name in a document's reference. -/
inductive ReferenceRole where
  | table
  | column
deriving DecidableEq, Repr

/-- What a message calls a role. -/
def ReferenceRole.label : ReferenceRole → String
  | table => "table"
  | column => "column"

/-- Why a batch document, an entry or a field of it is refused. A refused value is kept as the
compact text that a message shows. -/
inductive DocumentFault where
  | notJson
  | notObject
  | tablesMissing
  | tablesNotArray
  | outDirNotString
  | defaultAction (label : String) (text : String)
  | defaultActionNotString (label : String)
  | noEntry
  | entryNotObject
  | tableNameMissing
  | tableNameInvalid
  | fieldsMissing (table : String)
  | fieldsNotArray (table : String)
  | notBoolean (label : String) (got : String)
  | badVersion
  | fieldNotObject
  | fieldNameMissing
  | fieldNameInvalid (got : String)
  | notTypeName (field : String) (got : String)
  | defaultNotScalar (got : String)
  | looseComma (field : String)
  | referenceShape (got : String)
  | referenceUnclosed (text : String)
  | referenceName (role : ReferenceRole) (text : String)
  | referenceTableMissing
  | referenceColumnNotString
  | referenceActionNotString (label : String)
  | unknownAction (text : String)
deriving DecidableEq, Repr

/-- The wording of a fault in a document. -/
def DocumentFault.message : DocumentFault → String
  | notJson => "invalid JSON"
  | notObject => "document must be a JSON object"
  | tablesMissing => "missing 'tables'"
  | tablesNotArray => "'tables' must be an array"
  | outDirNotString => "'outDir' must be a string"
  | defaultAction label text => "'" ++ label ++ "': " ++ unknownActionMessage text
  | defaultActionNotString label => "'" ++ label ++ "' must be a string"
  | noEntry => "no such table entry"
  | entryNotObject => "table entry must be an object"
  | tableNameMissing => "table is missing 'name'"
  | tableNameInvalid => "'name' must be an identifier string"
  | fieldsMissing table => "table '" ++ table ++ "' is missing 'fields'"
  | fieldsNotArray table => "'fields' of '" ++ table ++ "' must be an array"
  | notBoolean label got => "'" ++ label ++ "' must be a boolean, got " ++ got
  | badVersion => "'version' must be an integer >= 1"
  | fieldNotObject => "field entry must be an object"
  | fieldNameMissing => "field is missing 'name'"
  | fieldNameInvalid got => "'name' must be an identifier, got " ++ got
  | notTypeName field got => "'type' of '" ++ field ++ "' is not a type name: " ++ got
  | defaultNotScalar got => "'default' must be a scalar, got " ++ got
  | looseComma field => "'default' of '" ++ field ++ "' has an unquoted comma"
  | referenceShape got => "'fk' must be a string or object, got " ++ got
  | referenceUnclosed text => "fk '" ++ text ++ "' is missing ')'"
  | referenceName role text => "fk " ++ role.label ++ " '" ++ text ++ "' is not an identifier"
  | referenceTableMissing => "fk is missing 'table'"
  | referenceColumnNotString => "fk 'column' must be a string"
  | referenceActionNotString label => "fk '" ++ label ++ "' must be a string"
  | unknownAction text => unknownActionMessage text

/-! ## Files -/

/-- Why a file or directory cannot be used. -/
inductive FileFault where
  | notFound
  | alreadyExists
  | notDirectory
  | isDirectory
  | invalidArgument
  | nameTooLong
  | tooManyLinks
  /-- A path with a NUL character in it. -/
  | nulInPath
  | notUtf8
  /-- A text that does not decode to an artifact. -/
  | invalidData
deriving DecidableEq, Repr

/-- The wording of a fault of the file system. -/
def FileFault.message : FileFault → String
  | notFound => "No such file or directory (os error 2)"
  | alreadyExists => "File exists (os error 17)"
  | notDirectory => "Not a directory (os error 20)"
  | isDirectory => "Is a directory (os error 21)"
  | invalidArgument => "Invalid argument (os error 22)"
  | nameTooLong => "File name too long (os error 36)"
  | tooManyLinks => "Too many levels of symbolic links (os error 40)"
  | nulInPath => "file name contained an unexpected NUL byte"
  | notUtf8 => "stream did not contain valid UTF-8"
  | invalidData => "<invalid data>"

/-! ## Errors -/

/-- A fault and where it was met. -/
inductive Error where
  | argument (fault : ArgumentFault)
  | field (token : String) (fault : FieldFault)
  | constraint (column : String) (fault : ConstraintFault)
  | collision (table : String) (path : String)
  /-- In a document: in one of its entries, and in a field of that entry. -/
  | document (table field : Option Nat) (fault : DocumentFault)
  | file (path : String) (fault : FileFault)
deriving DecidableEq, Repr

namespace Error

/-- Where in a document a fault is, as its message says it. -/
def place : Option Nat → Option Nat → String
  | some t, some f => " (table #" ++ toString t ++ ", field #" ++ toString f ++ ")"
  | some t, none => " (table #" ++ toString t ++ ")"
  | none, some f => " (field #" ++ toString f ++ ")"
  | none, none => ""

/-- The message of an error. -/
def message : Error → String
  | argument fault => "Invalid argument: " ++ fault.message
  | field token fault => "Malformed field spec '" ++ token ++ "': " ++ fault.message
  | constraint column fault => "Invalid constraint on '" ++ column ++ "': " ++ fault.message
  | collision table path =>
    "Table '" ++ table ++ "' already exists at " ++ path
      ++ ". Use --force or set GLYPH_FORCE=1 to overwrite"
  | document t f fault => "Malformed config" ++ place t f ++ ": " ++ fault.message
  | file path fault => "File system error at " ++ path ++ ": " ++ fault.message

end Error

end Tablature
