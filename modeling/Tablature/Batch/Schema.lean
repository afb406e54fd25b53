import Tablature.Batch.Document

/-!
# Batch/Schema — the JSON Schema of batch documents

The schema is a value like any other; it is printed with `Json.Value.pretty`, its members in
order of their names.
-/

namespace Tablature.Batch.Schema

open Json (Value)

/-- A schema of a type and more. -/
def typed (type : String) (more : List (String × Value)) : Value :=
  Value.ofMembers (("type", .string type) :: more)

/-- A schema of a type and nothing more. -/
def plain (type : String) : Value := typed type []

/-- A list of strings. -/
def strings (items : List String) : Value := .array (items.map .string)

/-- An object that needs some members and describes more. -/
def record (required : List String) (properties : List (String × Value)) : Value :=
  typed "object" [("required", strings required), ("properties", Value.ofMembers properties)]

/-- A referential action. -/
def action : Value := typed "string" [("enum", strings (Action.all.map Action.word))]

/-- A reference: a text, or an object. -/
def reference : Value :=
  Value.ofMembers
    [("oneOf", .array
      [plain "string",
        record ["table"]
          [("table", plain "string"),
            ("column", typed "string" [("default", .string Reference.defaultColumn)]),
            ("onDelete", action), ("onUpdate", action), ("deferred", plain "boolean")]])]

/-- A field of a table. -/
def field : Value :=
  record ["name"]
    [("name", typed "string" [("pattern", .string "^[A-Za-z_][A-Za-z0-9_]*$")]),
      ("type", plain "string"), ("notnull", plain "boolean"), ("unique", plain "boolean"),
      ("index", plain "boolean"), ("pk", plain "boolean"), ("autoincrement", plain "boolean"),
      ("default", Value.ofMembers [("type", strings ["string", "number", "boolean"])]),
      ("fk", reference)]

/-- A table of a document. -/
def table : Value :=
  record ["name", "fields"]
    [("name", plain "string"),
      ("version", typed "integer" [("minimum", .number (.integer 1))]),
      ("stamps",
        typed "boolean" [("description", .string "Append created_at, updated_at, deleted_at")]),
      ("fields",
        typed "array"
          [("description", .string "Also accepted as 'columns'"), ("items", field)])]

/-- A batch document. -/
def document : Value :=
  Value.ofMembers
    [("$schema", .string "https://json-schema.org/draft/2020-12/schema"),
      ("title", .string "glyph batch document"),
      ("type", .string "object"),
      ("required", strings ["tables"]),
      ("properties", Value.ofMembers
        [("outDir",
            typed "string" [("description", .string "Directory artifacts are written to")]),
          ("defaultOnDelete", action), ("defaultOnUpdate", action),
          ("tables", typed "array" [("items", table)])])]

end Tablature.Batch.Schema
