import Tablature.Error
import Tablature.Json.Printer

/-!
# Batch/Members — looking up the members of a document's objects

Names of members are compared in their normal form: ASCII lower case, without `_` and `-`. If
several members of an object have one normal form, the last in order counts, `null` or not. A
member that is `null` is as good as missing.
-/

namespace Tablature.Batch

open Json (Value)

/-- The normal form of a member's name. -/
def normalName (name : String) : String :=
  String.ofList (Text.lower (name.toList.filter fun c => !(c == '_' || c == '-')))

/-- The members of an object, as they are looked up. -/
abbrev Members : Type := List (String × Value)

namespace Members

/-- The value of the last member of a normal form. -/
def find? (members : Members) (name : String) : Option Value :=
  members.foldl (fun found m => if normalName m.1 = name then some m.2 else found) none

/-- The value of the first of some names that is there and not `null`. -/
def get? (members : Members) (names : List String) : Option Value :=
  names.findSome? fun name => (members.find? name).filter (!·.isNull)

/-- The flag under some names; a missing one is not set. -/
def flag (members : Members) (names : List String) (label : String) :
    Except DocumentFault Bool :=
  match members.get? names with
  | none => .ok false
  | some (.bool b) => .ok b
  | some other => .error (.notBoolean label other.compact)

end Members

/-- The members of a value that is an object. -/
def members? : Value → Option Members
  | .object members => some members
  | _ => none

/-- The text of a value that is a string. -/
def string? : Value → Option String
  | .string s => some s
  | _ => none

end Tablature.Batch
