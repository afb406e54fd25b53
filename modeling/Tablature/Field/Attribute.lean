import Tablature.Column
import Tablature.Error
import Tablature.Text.Cut

/-!
# Field/Attribute — the attributes after a token's head

    attribute := key | key "=" value | "=" value

Keys are read in any letter case. A flag takes no value; a default and an action need one; what
follows `defer` is not looked at. The attributes of a reference are refused on a column without
one. `Attribute.read` says what a text asks for, `Attribute.apply` does it.
-/

namespace Tablature

/-- The flag a key stands for. -/
def Flag.ofKey? (key : String) : Option Flag :=
  List.lookup key
    [("notnull", .notNull), ("nn", .notNull), ("!", .notNull),
      ("unique", .unique), ("u", .unique), ("+", .unique),
      ("index", .index), ("idx", .index), ("^", .index),
      ("pk", .primaryKey), ("primary", .primaryKey), ("#", .primaryKey),
      ("ai", .autoIncrement), ("autoincrement", .autoIncrement), ("~", .autoIncrement)]

namespace Field

/-- What an attribute asks for. -/
inductive Attribute where
  | flag (flag : Flag)
  | defaultTo (expr : String)
  | onDelete (action : Action)
  | onUpdate (action : Action)
  | deferred
deriving DecidableEq, Repr

namespace Attribute

/-- Key and value of a trimmed attribute. An attribute that starts with `=` is a default. -/
def keyValue (text : List Char) : String × Option (List Char) :=
  match Text.cutAt '=' text with
  | some ([], value) => ("default", some (Text.trim value))
  | some (key, value) =>
    (String.ofList (Text.lower (Text.trim key)), some (Text.trim value))
  | none => (String.ofList (Text.lower text), none)

/-- The action a key's value names; the value is there, then it is an action, then the column has
a reference to act on. -/
def readAction (referenced : Bool) (key : String) (value : Option (List Char)) :
    Except FieldFault Action :=
  match value.filter (!·.isEmpty) with
  | none => .error (.actionMissing key)
  | some text =>
    match Action.ofText? text with
    | none => .error (.unknownAction (String.ofList text))
    | some action => if referenced then .ok action else .error (.referenceMissing key)

/-- What a key and its value ask for, on a column with or without a reference. -/
def ofKeyValue (referenced : Bool) (key : String) (value : Option (List Char)) :
    Except FieldFault Attribute :=
  match Flag.ofKey? key with
  | some f => if value.isSome then .error (.valueRefused key) else .ok (.flag f)
  | none =>
    if key = "default" ∨ key = "def" then
      match value.filter (!·.isEmpty) with
      | some expr => .ok (.defaultTo (String.ofList expr))
      | none => .error .defaultMissing
    else if key = "ondelete" then (readAction referenced key value).map onDelete
    else if key = "onupdate" then (readAction referenced key value).map onUpdate
    else if key = "defer" ∨ key = "deferrable" then
      if referenced then .ok deferred else .error (.referenceMissing key)
    else .error (.unknownAttribute key)

/-- What the text between two commas asks for. -/
def read (referenced : Bool) (text : List Char) : Except FieldFault Attribute :=
  let text := Text.trim text
  if text.isEmpty then .error .emptyAttribute
  else ofKeyValue referenced (keyValue text).1 (keyValue text).2

/-- A column's constraints and reference after an attribute. -/
def apply (c : Constraints × Option Reference) : Attribute → Constraints × Option Reference
  | flag f => (c.1.set f, c.2)
  | defaultTo expr => ({ c.1 with defaultExpr := some expr }, c.2)
  | onDelete action => (c.1, c.2.map fun r => { r with onDelete := some action })
  | onUpdate action => (c.1, c.2.map fun r => { r with onUpdate := some action })
  | deferred => (c.1, c.2.map fun r => { r with deferred := true })

/-- The attributes of a token, up to the first that cannot be read. -/
def readAll (referenced : Bool) : List (List Char) → Except FieldFault (List Attribute)
  | [] => .ok []
  | text :: texts => do
    let first ← read referenced text
    let others ← readAll referenced texts
    return first :: others

end Attribute

end Field

end Tablature
