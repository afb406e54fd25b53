import Tablature.Json.Number
import Tablature.Json.Text

/-!
# Json/Source — JSON text as it is spelled

A `Source` is the tree of a JSON text with numerals and literals as they are spelled, members in
their order and repeated names kept. Which number or text a spelling stands for is a later
question, so a source can also be passed over unread.

`Source.parse` reads a whole text in which containers are nested up to a given depth. Blanks are
space, tab, line feed and carriage return.
-/

namespace Tablature.Json

/-- A JSON text as it is spelled. -/
inductive Source where
  | null
  | bool (value : Bool)
  | number (numeral : Numeral)
  | string (pieces : List Piece)
  | array (items : List Source)
  | object (members : List (List Piece × Source))

namespace Source

/-- A function that reads something at the front of a text and returns the rest. -/
abbrev Reader (α : Type) : Type := List Char → Option (α × List Char)

/-- A blank between the parts of a JSON text. -/
def isBlank (c : Char) : Bool := c == ' ' || c == '\t' || c == '\n' || c == '\r'

/-- A text less its leading blanks. -/
def skipBlanks (cs : List Char) : List Char := cs.dropWhile isBlank

/-- The text after a given word. -/
def afterWord? : List Char → List Char → Option (List Char)
  | [], cs => some cs
  | w :: ws, c :: cs => if c = w then afterWord? ws cs else none
  | _ :: _, [] => none

/-- A value that is no container. -/
def readScalar : Reader Source
  | '"' :: cs => (readPieces cs).map fun p => (.string p.1, p.2)
  | 'n' :: cs => (afterWord? "ull".toList cs).map fun rest => (.null, rest)
  | 't' :: cs => (afterWord? "rue".toList cs).map fun rest => (.bool true, rest)
  | 'f' :: cs => (afterWord? "alse".toList cs).map fun rest => (.bool false, rest)
  | cs => (Numeral.read cs).map fun p => (.number p.1, p.2)

/-- Items up to a closing character, with commas between them. Each item is at least one character
long, so that the length of the text bounds their number. -/
def readItems {α : Type} (item : Reader α) (close : Char) : Nat → Reader (List α)
  | 0, _ => none
  | bound + 1, cs => do
    let (first, cs) ← item cs
    match skipBlanks cs with
    | [] => none
    | c :: cs =>
      if c = ',' then
        let (others, rest) ← readItems item close bound cs
        return (first :: others, rest)
      else if c = close then return ([first], cs)
      else none

/-- The items of a container after its opening character. -/
def readContainer {α : Type} (item : Reader α) (close : Char) (cs : List Char) :
    Option (List α × List Char) :=
  match skipBlanks cs with
  | [] => none
  | c :: rest =>
    if c = close then some ([], rest) else readItems item close (c :: rest).length (c :: rest)

/-- A member of an object: a name, a colon and a value. -/
def readMember (value : Reader Source) : Reader (List Piece × Source) := fun cs =>
  match skipBlanks cs with
  | '"' :: cs => do
    let (name, cs) ← readPieces cs
    match skipBlanks cs with
    | ':' :: cs =>
      let (v, rest) ← value cs
      return ((name, v), rest)
    | _ => none
  | _ => none

/-- A value with containers nested up to a depth, after blanks. -/
def readValue : Nat → Reader Source
  | 0, cs => readScalar (skipBlanks cs)
  | depth + 1, cs =>
    match skipBlanks cs with
    | '[' :: cs => (readContainer (readValue depth) ']' cs).map fun p => (.array p.1, p.2)
    | '\x7b' :: cs =>
      (readContainer (readMember (readValue depth)) '\x7d' cs).map fun p => (.object p.1, p.2)
    | cs => readScalar cs

/-- The source of a whole text with containers nested up to a depth. -/
def parse (depth : Nat) (cs : List Char) : Option Source :=
  match readValue depth cs with
  | some (source, rest) => if (skipBlanks rest).isEmpty then some source else none
  | none => none

end Source

end Tablature.Json
