import Tablature.Artifact
import Tablature.Field.Token

/-!
# Table — tables built from field tokens, and their statements

* `Table.build` — a table from its name, its tokens and options;
* `Table.sql`, `Table.artifact` — the statement that creates it, and its compiled form;
* `Table.referenced` — the tables it refers to.

A built table has exactly one primary key: the declared one, or a surrogate `id` in front. Index
statements are kept once each, in the order in which they are first asked for: flags, then
directives, then references.
-/

namespace Tablature

/-- How a table is built. -/
structure Options where
  version : UInt32 := 1
  /-- Add the columns of `Column.stamps`. -/
  stamps : Bool := false
  /-- The action of references that name none. -/
  onDelete : Option Action := none
  onUpdate : Option Action := none
  /-- Index the columns that are references. -/
  referenceIndex : Bool := true
deriving DecidableEq, Repr

/-- A table with its columns and the statements that go with it. -/
structure Table where
  name : String
  version : UInt32
  columns : List Column
  /-- Index statements, each once, in the order in which they were asked for. -/
  statements : List String
deriving DecidableEq, Repr

namespace Table

/-! ## Statements -/

/-- The statement for an index on a column. -/
def indexSql (table column : String) : String :=
  "CREATE INDEX IF NOT EXISTS idx_" ++ table ++ "_" ++ column ++ " ON " ++ table
    ++ "(" ++ column ++ ");"

/-- The statement for the index on a column that is a reference. -/
def referenceIndexSql (table column : String) : String :=
  "CREATE INDEX IF NOT EXISTS idx_" ++ table ++ "_" ++ column ++ "_fk ON " ++ table
    ++ "(" ++ column ++ ");"

/-- The statement that creates a table, with a line for each column. -/
def sql (t : Table) : String :=
  "CREATE TABLE IF NOT EXISTS " ++ t.name ++ " (\n"
    ++ ",\n".intercalate (t.columns.map fun c => "    " ++ c.sql) ++ "\n);"

/-- The compiled form of a table. -/
def artifact (t : Table) : Artifact where
  table := t.name
  version := t.version
  createSql := t.sql
  extraSql := t.statements

/-- A list with one item more, unless it holds that item already. -/
def insertNew (items : List String) (item : String) : List String :=
  if item ∈ items then items else items ++ [item]

/-- A list with more items, each kept once. -/
def insertAll (items : List String) (more : List String) : List String := more.foldl insertNew items

/-! ## Views -/

/-- The first column of a name. -/
def find? (t : Table) (name : String) : Option Column := t.columns.find? (·.name == name)

/-- The first primary key. -/
def primaryKey? (t : Table) : Option Column := t.columns.find? (·.constraints.primaryKey)

/-- The tables that columns refer to, the table itself left out, each once, in column order. -/
def referenced (t : Table) : List String :=
  insertAll [] ((t.columns.filterMap fun c => c.reference.map (·.table)).filter (· != t.name))

/-! ## Building -/

/-- What the tokens say, up to the first that cannot be read. -/
def readFields : List String → Except Error (List Field)
  | [] => .ok []
  | token :: tokens => do
    let field ← Field.ofToken token
    let fields ← readFields tokens
    return field :: fields

/-- The columns that fields declare, with the options' actions where they name none. -/
def declaredColumns (opts : Options) (fields : List Field) : List Column :=
  fields.filterMap fun
    | .column c =>
      some { c with reference := c.reference.map (·.withDefaults opts.onDelete opts.onUpdate) }
    | .indexOn _ => none

/-- The columns that index directives name. -/
def directives (fields : List Field) : List String :=
  fields.filterMap fun
    | .column _ => none
    | .indexOn name => some name

/-- All columns of a table: a surrogate key if none is declared, the declared ones, the stamps. -/
def allColumns (opts : Options) (declared : List Column) : List Column :=
  (if declared.any (·.constraints.primaryKey) then [] else [Column.surrogate])
    ++ declared ++ (if opts.stamps then Column.stamps else [])

/-- At most one column may be a primary key. -/
def checkPrimaryKey (declared : List Column) : Except Error Unit :=
  let keys := declared.filter (·.constraints.primaryKey)
  if keys.length ≤ 1 then .ok ()
  else .error (.constraint (", ".intercalate (keys.map (·.name))) .manyPrimaryKeys)

/-- The first name that repeats an earlier one. -/
def firstRepeat? (seen : List String) : List String → Option String
  | [] => none
  | name :: names => if name ∈ seen then some name else firstRepeat? (name :: seen) names

/-- Columns have different names. -/
def checkNames (columns : List Column) : Except Error Unit :=
  match firstRepeat? [] (columns.map (·.name)) with
  | some name => .error (.constraint name .repeatedColumn)
  | none => .ok ()

/-- Index directives name columns of the table. -/
def checkDirectives (table : String) (columns : List Column) (names : List String) :
    Except Error Unit :=
  match names.find? fun name => columns.all (·.name != name) with
  | some name => .error (.constraint name (.unknownIndexColumn table))
  | none => .ok ()

/-- The index statements that flags, directives and references ask for, in this order. -/
def requested (table : String) (opts : Options) (columns : List Column) (names : List String) :
    List String :=
  (columns.filter (·.constraints.index)).map (indexSql table ·.name)
    ++ names.map (indexSql table ·)
    ++ (if opts.referenceIndex then
          (columns.filter (·.reference.isSome)).map (referenceIndexSql table ·.name)
        else [])

/-- The table of a name, tokens and options. -/
def build (name : String) (tokens : List String) (opts : Options) : Except Error Table := do
  if !isIdentifier name.toList then throw (.argument (.tableName name))
  if opts.version = 0 then throw (.argument .versionZero)
  let fields ← readFields tokens
  let declared := declaredColumns opts fields
  checkPrimaryKey declared
  let columns := allColumns opts declared
  checkNames columns
  checkDirectives name columns (directives fields)
  return { name := name
           version := opts.version
           columns := columns
           statements := insertAll [] (requested name opts columns (directives fields)) }

/-- The compiled form of the table of a name, tokens and options. -/
def compile (name : String) (tokens : List String) (opts : Options) : Except Error Artifact :=
  (build name tokens opts).map artifact

/-! ## Stubs -/

/-- The table that stands in for one that is referred to and not defined: its key only. -/
def stub (name : String) : Table where
  name := name
  version := 1
  columns := [Column.surrogate]
  statements := []

end Table

end Tablature
