import Tablature.Action
import Tablature.Storage

/-!
# Column — columns of a table and the clause that declares one

* `Constraints` — the flags of a column and its default; which spelling set a flag, and in which
  order, is gone;
* `Reference` — the foreign key of a column;
* `Column.sql` — the clause, with its parts in one fixed order:

      name type [PRIMARY KEY] [AUTOINCREMENT] [UNIQUE] [NOT NULL] [REFERENCES ..] [DEFAULT ..]
-/

namespace Tablature

/-- A yes-or-no constraint of a column. -/
inductive Flag where
  | notNull
  | unique
  | index
  | primaryKey
  | autoIncrement
deriving DecidableEq, Repr

/-- The constraints of a column. -/
structure Constraints where
  notNull : Bool := false
  unique : Bool := false
  index : Bool := false
  primaryKey : Bool := false
  autoIncrement : Bool := false
  /-- The expression after `DEFAULT`. -/
  defaultExpr : Option String := none
deriving DecidableEq, Repr

namespace Constraints

/-- No constraint at all. -/
def empty : Constraints := {}

/-- The constraints with one flag more. -/
def set (c : Constraints) : Flag → Constraints
  | .notNull => { c with notNull := true }
  | .unique => { c with unique := true }
  | .index => { c with index := true }
  | .primaryKey => { c with primaryKey := true }
  | .autoIncrement => { c with autoIncrement := true }

/-- Is a flag set? -/
def has (c : Constraints) : Flag → Bool
  | .notNull => c.notNull
  | .unique => c.unique
  | .index => c.index
  | .primaryKey => c.primaryKey
  | .autoIncrement => c.autoIncrement

/-- The constraints that a run of flags sets. -/
def ofFlags (flags : List Flag) : Constraints := flags.foldl set empty

/-- Flags of either side; of two defaults the second counts. -/
def union (a b : Constraints) : Constraints where
  notNull := a.notNull || b.notNull
  unique := a.unique || b.unique
  index := a.index || b.index
  primaryKey := a.primaryKey || b.primaryKey
  autoIncrement := a.autoIncrement || b.autoIncrement
  defaultExpr := b.defaultExpr.or a.defaultExpr

@[simp] theorem has_set (c : Constraints) (f g : Flag) :
    (c.set f).has g = (f == g || c.has g) := by
  cases f <;> cases g <;> rfl

@[simp] theorem defaultExpr_set (c : Constraints) (f : Flag) :
    (c.set f).defaultExpr = c.defaultExpr := by
  cases f <;> rfl

end Constraints

/-- A foreign key: the column it points to, and what happens on changes there. -/
structure Reference where
  table : String
  column : String
  onDelete : Option Action := none
  onUpdate : Option Action := none
  deferred : Bool := false
deriving DecidableEq, Repr

namespace Reference

/-- The column a reference points to when it names none. -/
def defaultColumn : String := "id"

/-- A reference to a table, and to `id` there unless a column is named. -/
def ofTable (table : String) (column : Option String) : Reference where
  table := table
  column := column.getD defaultColumn

/-- The reference with actions for the changes it says nothing about. -/
def withDefaults (r : Reference) (onDelete onUpdate : Option Action) : Reference :=
  { r with onDelete := r.onDelete.or onDelete, onUpdate := r.onUpdate.or onUpdate }

/-- The clause of a foreign key. -/
def sql (r : Reference) : String :=
  "REFERENCES " ++ r.table ++ "(" ++ r.column ++ ")"
    ++ (match r.onDelete with | some a => " ON DELETE " ++ a.sql | none => "")
    ++ (match r.onUpdate with | some a => " ON UPDATE " ++ a.sql | none => "")
    ++ (if r.deferred then " DEFERRABLE INITIALLY DEFERRED" else "")

end Reference

/-- A column of a table. -/
structure Column where
  name : String
  storage : Storage
  constraints : Constraints := .empty
  reference : Option Reference := none
deriving DecidableEq, Repr

namespace Column

/-- The key that a table without one is given. -/
def surrogate : Column where
  name := "id"
  storage := .integer
  constraints := { primaryKey := true, autoIncrement := true }

/-- The columns that record when a row came, changed and went. -/
def stamps : List Column :=
  [{ name := "created_at", storage := .text, constraints := { notNull := true } },
    { name := "updated_at", storage := .text, constraints := { notNull := true } },
    { name := "deleted_at", storage := .text }]

/-- The parts of a column's clause, in order. -/
def parts (c : Column) : List String :=
  [c.name, c.storage.sql]
    ++ (if c.constraints.primaryKey then ["PRIMARY KEY"] else [])
    ++ (if c.constraints.autoIncrement then ["AUTOINCREMENT"] else [])
    ++ (if c.constraints.unique then ["UNIQUE"] else [])
    ++ (if c.constraints.notNull then ["NOT NULL"] else [])
    ++ (match c.reference with | some r => [r.sql] | none => [])
    ++ (match c.constraints.defaultExpr with | some e => ["DEFAULT " ++ e] | none => [])

/-- The clause that declares a column. -/
def sql (c : Column) : String := " ".intercalate c.parts

end Column

end Tablature
