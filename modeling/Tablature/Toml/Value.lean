import Tablature.Toml.Scalar

/-!
# Toml/Value — values and tables

A table remembers how it came to be, for that decides who may add to it:

* `header` — named by a header of its own;
* `implied` — named only on the way to another header: a later header may still name it;
* `dotted` — named only by keys with dots: more such keys may add to it, headers may not name it;
* `inline` — written as a value: complete as it is.

`Body.insertKey` adds a value under a key with dots, `readValue` reads a value.
-/

namespace Tablature.Toml

/-- How a table came to be. -/
inductive Origin where
  | header
  | implied
  | dotted
  | inline
deriving DecidableEq, Repr

/-- A value. -/
inductive Value where
  | string (text : String)
  | boolean (value : Bool)
  | integer (n : Int)
  | float (spelling : String)
  | moment (spelling : String)
  | array (items : List Value)
  | table (origin : Origin) (entries : List (String × Value))
  /-- Tables that share a header in double brackets, each by its entries. -/
  | tables (bodies : List (List (String × Value)))

/-- A table being filled. -/
structure Body where
  origin : Origin
  entries : List (String × Value)

namespace Body

/-- The value under a key. -/
def get? (b : Body) (key : String) : Option Value := b.entries.lookup key

/-- The table with a value under a key. -/
def set (b : Body) (key : String) (v : Value) : Body :=
  { b with entries := (key, v) :: b.entries.filter (·.1 != key) }

/-- The table as a value. -/
def toValue (b : Body) : Value := .table b.origin b.entries

/-- The table with the one at the end of a path changed. Tables that are missing on the way are
made, dotted or implied; of tables that share a header the last is meant. Keys with dots do not
reach into a table with a header of its own. -/
def modify (dotted : Bool) (f : Body → Option Body) : List String → Body → Option Body
  | [], b => f b
  | key :: path, b =>
    match b.get? key with
    | none => do
      let child ← modify dotted f path ⟨if dotted then .dotted else .implied, []⟩
      return b.set key child.toValue
    | some (.table origin entries) => do
      if origin = .inline ∨ (dotted ∧ origin = .header) then none
      let child ← modify dotted f path ⟨origin, entries⟩
      return b.set key child.toValue
    | some (.tables bodies) => do
      let last ← bodies.getLast?
      let child ← modify dotted f path ⟨.header, last⟩
      return b.set key (.tables (bodies.dropLast ++ [child.entries]))
    | some _ => none

/-- The table with a new value under a key with dots. A key is set once, and only keys with dots
add to a table that they have made. -/
def insertKey (path : List String) (key : String) (v : Value) (b : Body) : Option Body :=
  b.modify true (fun b =>
    if (b.origin == .dotted) == path.isEmpty || (b.get? key).isSome then none
    else some (b.set key v)) path

end Body

/-- A number, a date or a time. -/
def readNumber (cs : List Char) : Option (Value × List Char) :=
  ((readMoment cs).map fun p => (.moment p.1, p.2))
    <|> ((readDecimalFloat cs).map fun p => (.float p.1, p.2))
    <|> ((readSpecialFloat cs).map fun p => (.float p.1, p.2))
    <|> ((readInteger cs).map fun p => (.integer p.1, p.2))

/-- A value that holds no other. -/
def readScalar : Reader Value
  | [] => none
  | c :: cs =>
    if c = '"' ∨ c = '\'' then
      (readString (c :: cs)).map fun p => (.string (String.ofList p.1), p.2)
    else
      match c :: cs with
      | 't' :: 'r' :: 'u' :: 'e' :: rest => some (.boolean true, rest)
      | 'f' :: 'a' :: 'l' :: 's' :: 'e' :: rest => some (.boolean false, rest)
      | all => readNumber all

/-- The items of an array up to its closing bracket; a comma may follow the last. The bound is one
more than the length of the text. -/
def readItems (value : Reader Value) : Nat → Reader (List Value)
  | 0, _ => none
  | bound + 1, cs =>
    match skipLines cs.length cs with
    | ']' :: rest => some ([], rest)
    | cs => do
      let (first, cs) ← value cs
      match skipLines cs.length cs with
      | ',' :: cs =>
        let (others, rest) ← readItems value bound cs
        return (first :: others, rest)
      | ']' :: rest => return ([first], rest)
      | _ => none

/-- A key, an equals sign and a value. -/
def readKeyValue (value : Reader Value) : Reader ((List String × String) × Value) := fun cs => do
  let (key, cs) ← readKey cs
  let cs ← after? '=' cs
  let (v, rest) ← value (skipBlanks cs)
  return ((key, v), rest)

/-- The entries of an inline table up to its closing brace. The bound is one more than the length
of the text. -/
def readEntries (value : Reader Value) : Nat → Body → Reader Body
  | 0, _, _ => none
  | bound + 1, body, cs => do
    let ((key, v), cs) ← readKeyValue value cs
    let body ← body.insertKey key.1 key.2 v
    match skipBlanks cs with
    | ',' :: cs => readEntries value bound body cs
    | '\x7d' :: rest => return (body, rest)
    | _ => none

/-- An inline table after its opening brace. -/
def readInlineTable (value : Reader Value) : Reader Value := fun cs =>
  match skipBlanks cs with
  | '\x7d' :: rest => some (.table .inline [], rest)
  | cs => (readEntries value (cs.length + 1) ⟨.inline, []⟩ cs).map fun p => (p.1.toValue, p.2)

/-- A value with arrays and inline tables nested up to a depth. -/
def readValue : Nat → Reader Value
  | 0, cs => readScalar cs
  | depth + 1, cs =>
    match cs with
    | '[' :: cs =>
      (readItems (readValue depth) (cs.length + 1) cs).map fun p => (.array p.1, p.2)
    | '\x7b' :: cs => readInlineTable (readValue depth) cs
    | cs => readScalar cs

end Tablature.Toml
