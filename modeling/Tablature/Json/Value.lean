import Tablature.Json.Source

/-!
# Json/Value — JSON values

A value has its numbers computed and its texts decoded; the members of an object are in increasing
order of their names, each name once: of a repeated name the last value counts.

`Value.parse` reads a text whose containers are nested at most `maxDepth` deep.
-/

namespace Tablature.Json

/-- A JSON value. -/
inductive Value where
  | null
  | bool (value : Bool)
  | number (number : Number)
  | string (text : String)
  | array (items : List Value)
  | object (members : List (String × Value))

namespace Value

mutual

/-- Whether two values are the same. -/
def decEq : (v w : Value) → Decidable (v = w)
  | null, null => isTrue rfl
  | bool a, bool b => decidable_of_iff (a = b) (by rw [bool.injEq])
  | number a, number b => decidable_of_iff (a = b) (by rw [number.injEq])
  | string a, string b => decidable_of_iff (a = b) (by rw [string.injEq])
  | array xs, array ys =>
    match decEqItems xs ys with
    | isTrue h => isTrue (congrArg array h)
    | isFalse h => isFalse fun e => h (array.inj e)
  | object ms, object ns =>
    match decEqMembers ms ns with
    | isTrue h => isTrue (congrArg object h)
    | isFalse h => isFalse fun e => h (object.inj e)
  | null, bool _ | null, number _ | null, string _ | null, array _ | null, object _
  | bool _, null | bool _, number _ | bool _, string _ | bool _, array _ | bool _, object _
  | number _, null | number _, bool _ | number _, string _ | number _, array _
  | number _, object _ | string _, null | string _, bool _ | string _, number _
  | string _, array _ | string _, object _ | array _, null | array _, bool _
  | array _, number _ | array _, string _ | array _, object _ | object _, null
  | object _, bool _ | object _, number _ | object _, string _ | object _, array _ =>
    isFalse nofun

/-- Whether two lists of items are the same. -/
def decEqItems : (xs ys : List Value) → Decidable (xs = ys)
  | [], [] => isTrue rfl
  | [], _ :: _ | _ :: _, [] => isFalse nofun
  | x :: xs, y :: ys =>
    match decEq x y, decEqItems xs ys with
    | isTrue h, isTrue h' => isTrue (h ▸ h' ▸ rfl)
    | isFalse h, _ => isFalse fun e => h (List.cons.inj e).1
    | _, isFalse h => isFalse fun e => h (List.cons.inj e).2

/-- Whether two lists of members are the same. -/
def decEqMembers : (ms ns : List (String × Value)) → Decidable (ms = ns)
  | [], [] => isTrue rfl
  | [], _ :: _ | _ :: _, [] => isFalse nofun
  | (k, v) :: ms, (l, w) :: ns =>
    match decEq v w, decEqMembers ms ns with
    | isTrue h, isTrue h' => decidable_of_iff (k = l) (by simp [h, h'])
    | isFalse h, _ => isFalse fun e => h (Prod.mk.inj (List.cons.inj e).1).2
    | _, isFalse h => isFalse fun e => h (List.cons.inj e).2

end

instance : DecidableEq Value := decEq

/-- Members with one more, in its place by name; a member of that name gives way. -/
def insertMember (name : String) (value : Value) : List (String × Value) → List (String × Value)
  | [] => [(name, value)]
  | (n, v) :: members =>
    if name < n then (name, value) :: (n, v) :: members
    else if name = n then (name, value) :: members
    else (n, v) :: insertMember name value members

/-- The object of some members, in order of their names. -/
def ofMembers (members : List (String × Value)) : Value :=
  .object (members.foldl (fun ms m => insertMember m.1 m.2 ms) [])

/-- Is this `null`? -/
def isNull : Value → Bool
  | null => true
  | _ => false

mutual

/-- The value a source stands for, if its numbers are in range and its texts decode. -/
def ofSource? : Source → Option Value
  | .null => some null
  | .bool b => some (bool b)
  | .number n => n.number?.map number
  | .string pieces => (decode? pieces).map fun cs => string (String.ofList cs)
  | .array items => (ofItems? items).map array
  | .object members => (ofSourceMembers? members).map ofMembers

/-- The values of the items of an array. -/
def ofItems? : List Source → Option (List Value)
  | [] => some []
  | item :: items => do
    let first ← ofSource? item
    let others ← ofItems? items
    return first :: others

/-- The names and values of the members of an object, as they are written. -/
def ofSourceMembers? : List (List Piece × Source) → Option (List (String × Value))
  | [] => some []
  | (pieces, source) :: members => do
    let name ← decode? pieces
    let value ← ofSource? source
    let others ← ofSourceMembers? members
    return (String.ofList name, value) :: others

end

/-- How deep the containers of a text may be nested. -/
def maxDepth : Nat := 127

/-- The value of a JSON text. -/
def parse (text : String) : Option Value := (Source.parse maxDepth text.toList).bind ofSource?

end Value

end Tablature.Json
