import Tablature.Column
import Tablature.Error
import Tablature.Identifier
import Tablature.Text.Cut

/-!
# Field/Head — the part of a field token before its attributes

A head is a column's definition, then perhaps an arrow and the target of a reference:

    definition := identifier flag* [":" type flag*]
    type       := word ["(" text without ")" ")"]
    arrow      := "->" | ">"
    target     := identifier ["(" identifier ")"]
    inline     := identifier ["." identifier]        -- the text inside fk(...)

Each reader takes the longest match at the front and returns the rest; `complete` asks that nothing
is left.
-/

namespace Tablature

/-- The flag a symbol stands for. -/
def Flag.ofSymbol? : Char → Option Flag
  | '!' => some .notNull
  | '+' => some .unique
  | '^' => some .index
  | '#' => some .primaryKey
  | '~' => some .autoIncrement
  | _ => none

namespace Field

/-- The column and type of a head, and the flags on either. -/
structure Definition where
  name : List Char
  typeName : Option (List Char)
  flags : List Flag
deriving DecidableEq, Repr

/-- The flags at the front of a text. -/
def readFlags : List Char → List Flag × List Char
  | [] => ([], [])
  | c :: cs =>
    match Flag.ofSymbol? c with
    | some f => (f :: (readFlags cs).1, (readFlags cs).2)
    | none => ([], c :: cs)

/-- The text between an opening parenthesis at the front and the next closing one. -/
def readParenthesis : List Char → Option (List Char × List Char)
  | '(' :: cs =>
    match cs.dropWhile (· != ')') with
    | _ :: rest => some (cs.takeWhile (· != ')'), rest)
    | [] => none
  | _ => none

/-- A type name at the front: a word, and a parenthesis right after it. -/
def readTypeName (cs : List Char) : Option (List Char × List Char) :=
  let word := cs.takeWhile isNameChar
  let rest := cs.dropWhile isNameChar
  if word.isEmpty then none
  else
    match readParenthesis rest with
    | some (body, rest) => some (word ++ '(' :: (body ++ [')']), rest)
    | none => some (word, rest)

/-- Is the whole text a type name? -/
def isTypeName (cs : List Char) : Bool :=
  match readTypeName cs with
  | some (_, []) => true
  | _ => false

/-- A definition at the front. A colon that no type follows is left over. -/
def readDefinition (cs : List Char) : Option (Definition × List Char) := do
  let (name, cs) ← readIdentifier cs
  let (flags, cs) := readFlags cs
  match cs with
  | ':' :: typed =>
    match readTypeName typed with
    | some (typeName, typed) =>
      let (typeFlags, rest) := readFlags typed
      some (⟨name, some typeName, flags ++ typeFlags⟩, rest)
    | none => some (⟨name, none, flags⟩, cs)
  | _ => some (⟨name, none, flags⟩, cs)

/-- A reference target at the front: a table, and a column in parentheses. -/
def readTarget (cs : List Char) : Option ((List Char × Option (List Char)) × List Char) := do
  let (table, cs) ← readIdentifier cs
  match cs with
  | '(' :: inner =>
    match readIdentifier inner with
    | some (column, ')' :: rest) => some ((table, some column), rest)
    | _ => some ((table, none), cs)
  | _ => some ((table, none), cs)

/-- An inline reference at the front: a table, and a column after a dot. -/
def readInline (cs : List Char) : Option ((List Char × Option (List Char)) × List Char) := do
  let (table, cs) ← readIdentifier cs
  match cs with
  | '.' :: inner =>
    match readIdentifier inner with
    | some (column, rest) => some ((table, some column), rest)
    | none => some ((table, none), cs)
  | _ => some ((table, none), cs)

/-- The trimmed text inside `fk(...)`, for a type name of that form in any letter case. -/
def inlineBody? : List Char → Option (List Char)
  | f :: k :: cs =>
    if f.toLower = 'f' ∧ k.toLower = 'k' then
      match readParenthesis cs with
      | some (body, []) => some (Text.trim body)
      | _ => none
    else none
  | _ => none

/-- The texts around the leftmost `->`. -/
def cutLongArrow : List Char → Option (List Char × List Char)
  | [] => none
  | '-' :: '>' :: cs => some ([], cs)
  | c :: cs => (cutLongArrow cs).map fun p => (c :: p.1, p.2)

/-- The texts around the arrow of a head: `->` if it has one, else `>`. -/
def cutArrow (head : List Char) : Option (List Char × List Char) :=
  (cutLongArrow head).or (Text.cutAt '>' head)

/-- The result of a reader that has to use up its text. -/
def complete {α : Type} (part : FieldPart) : Option (α × List Char) → Except FieldFault α
  | some (value, []) => .ok value
  | some (_, rest) => .error (.unexpected (String.ofList rest) part)
  | none => .error (.invalid part)

/-- A reference from the names that were read. -/
def referenceOf (names : List Char × Option (List Char)) : Reference :=
  .ofTable (String.ofList names.1) (names.2.map String.ofList)

/-- What a head says of a column, its attributes not yet read. The storage class is left open
where the head names neither type nor target. -/
structure Head where
  name : String
  storage : Option Storage
  constraints : Constraints
  reference : Option Reference
deriving DecidableEq, Repr

/-- The head a text spells. A reference is either inline or behind an arrow; without a type it
makes an integer column. -/
def readHead (text : List Char) : Except FieldFault Head := do
  let cut := cutArrow text
  let d ← complete .definition (readDefinition ((cut.map (·.1)).getD text))
  let head (storage : Option Storage) (reference : Option Reference) : Head :=
    ⟨String.ofList d.name, storage, .ofFlags d.flags, reference⟩
  match cut, d.typeName with
  | some (_, target), typeName =>
    if (typeName.bind inlineBody?).isSome then throw .twoReferences
    let names ← complete .target (readTarget (Text.trim target))
    return head (some ((typeName.map Storage.ofAlias).getD .integer)) (some (referenceOf names))
  | none, some typeName =>
    match inlineBody? typeName with
    | some body =>
      let names ← complete .inlineReference (readInline body)
      return head (some .integer) (some (referenceOf names))
    | none => return head (some (Storage.ofAlias typeName)) none
  | none, none => return head none none

end Field

end Tablature
