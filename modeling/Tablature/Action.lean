import Tablature.Text.Blank

/-!
# Action — what happens to a reference when its target row goes or changes

`Action.ofText?` reads an action with any letter case, blanks around it, and spaces, `_` and `-`
inside it: `SET NULL`, `set_null` and `setnull` are one action.
-/

namespace Tablature

/-- A referential action. -/
inductive Action where
  | cascade
  | restrict
  | setNull
  | setDefault
  | noAction
deriving DecidableEq, Repr

namespace Action

/-- All actions, in the order in which they are listed to the user. -/
def all : List Action := [cascade, restrict, setNull, setDefault, noAction]

/-- The word for an action in tokens and documents. -/
def word : Action → String
  | cascade => "cascade"
  | restrict => "restrict"
  | setNull => "setnull"
  | setDefault => "setdefault"
  | noAction => "noaction"

/-- The spelling of an action in a statement. -/
def sql : Action → String
  | cascade => "CASCADE"
  | restrict => "RESTRICT"
  | setNull => "SET NULL"
  | setDefault => "SET DEFAULT"
  | noAction => "NO ACTION"

/-- The letters of an action's spelling: blanks at the ends, spaces, `_`, `-` and letter case do
not count. -/
def folded (text : List Char) : List Char :=
  Text.lower ((Text.trim text).filter fun c => !(c == ' ' || c == '_' || c == '-'))

/-- The action a text names. -/
def ofText? (text : List Char) : Option Action :=
  all.find? fun a => a.word.toList == folded text

/-- The words for the actions, as messages list them. -/
def words : String := ", ".intercalate (all.map word)

end Action

end Tablature
