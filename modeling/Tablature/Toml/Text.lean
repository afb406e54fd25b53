import Tablature.Json.Text

/-!
# Toml/Text — blanks, comments, line ends, strings and keys

Strings come in four kinds: basic and literal, on one line or on several. A basic string has
escapes; a string on several lines drops a line end right after its opening quotes, and may end in
up to two quotes more than close it. Line ends inside a string count as one line feed.

Each reader takes what it reads at the front of a text and returns the rest.
-/

namespace Tablature.Toml

/-- A function that reads something at the front of a text and returns the rest. -/
abbrev Reader (α : Type) : Type := List Char → Option (α × List Char)

/-- A blank on a line. -/
def isBlank (c : Char) : Bool := c == ' ' || c == '\t'

/-- A text less its leading blanks. -/
def skipBlanks (cs : List Char) : List Char := cs.dropWhile isBlank

/-- A character beyond ASCII. -/
def isBeyondAscii (c : Char) : Bool := 0x80 ≤ c.toNat

/-- A character that may stand in a comment and, quotes and backslash aside, in a string: no
control character but the tab. -/
def isPrintable (c : Char) : Bool :=
  c == '\t' || (0x20 ≤ c.toNat && c.toNat ≤ 0x7E) || isBeyondAscii c

/-- The text after a line end: a line feed, with or without a carriage return. -/
def afterLineEnd? : List Char → Option (List Char)
  | '\n' :: cs => some cs
  | '\r' :: '\n' :: cs => some cs
  | _ => none

/-- The text after a comment, if there is one. -/
def skipComment : List Char → List Char
  | '#' :: cs => cs.dropWhile isPrintable
  | cs => cs

/-- The text after the end of a statement: blanks, a comment, and the end of the line or of all. -/
def afterStatement? (cs : List Char) : Option (List Char) :=
  match skipComment (skipBlanks cs) with
  | [] => some []
  | cs => afterLineEnd? cs

/-- The text after blanks, comments and line ends, as they may stand between the items of an
array. The bound is the length of the text. -/
def skipLines : Nat → List Char → List Char
  | 0, cs => cs
  | bound + 1, cs =>
    match afterLineEnd? (skipComment (skipBlanks cs)) with
    | some rest => skipLines bound rest
    | none => skipBlanks cs

/-- The text after blanks and line ends. The bound is the length of the text. -/
def skipBlankLines : Nat → List Char → List Char
  | 0, cs => cs
  | bound + 1, cs =>
    match afterLineEnd? (skipBlanks cs) with
    | some rest => skipBlankLines bound rest
    | none => skipBlanks cs

/-! ## Strings -/

/-- The character of a hexadecimal code, if there is one. -/
def codePoint? (digits : List Char) : Option Char := do
  let code ← digits.foldlM (fun n d => (Json.hexValue? d).map (16 * n + ·)) 0
  if h : code.isValidChar then some (Char.ofNatAux code h) else none

/-- The character of an escape, after its backslash. -/
def readEscape : Reader (List Char)
  | 'b' :: cs => some (['\x08'], cs)
  | 't' :: cs => some (['\t'], cs)
  | 'n' :: cs => some (['\n'], cs)
  | 'f' :: cs => some (['\x0c'], cs)
  | 'r' :: cs => some (['\r'], cs)
  | '"' :: cs => some (['"'], cs)
  | '\\' :: cs => some (['\\'], cs)
  | 'u' :: cs =>
    if cs.length < 4 then none else (codePoint? (cs.take 4)).map fun c => ([c], cs.drop 4)
  | 'U' :: cs =>
    if cs.length < 8 then none else (codePoint? (cs.take 8)).map fun c => ([c], cs.drop 8)
  | _ => none

/-- A stretch of a basic string on one line. -/
def basicChunk : Reader (List Char)
  | [] => none
  | c :: cs => if c = '\\' then readEscape cs else if isPrintable c then some ([c], cs) else none

/-- A stretch of a literal string on one line. -/
def literalChunk : Reader (List Char)
  | [] => none
  | c :: cs => if isPrintable c then some ([c], cs) else none

/-- A stretch of a string on several lines: a line end, or what stands on one line. -/
def onLines (chunk : Reader (List Char)) : Reader (List Char) := fun cs =>
  match afterLineEnd? cs with
  | some rest => some (['\n'], rest)
  | none => chunk cs

/-- A stretch of a basic string on several lines. A backslash at the end of a line drops the line
end and all blanks and line ends after it. -/
def basicLinesChunk : Reader (List Char)
  | '\\' :: cs =>
    match afterLineEnd? (skipBlanks cs) with
    | some rest => some ([], skipBlankLines rest.length rest)
    | none => readEscape cs
  | cs => onLines basicChunk cs

/-- The end of a string on one line. -/
def closeLine (quote : Char) : Reader (List Char)
  | [] => none
  | c :: cs => if c = quote then some ([], cs) else none

/-- The end of a string on several lines: three quotes, and before them up to two that belong to
the string. -/
def closeLines (quote : Char) (cs : List Char) : Option (List Char × List Char) :=
  let run := (cs.takeWhile (· == quote)).length
  if run < 3 then none
  else
    let inside := min (run - 3) 2
    some (List.replicate inside quote, cs.drop (inside + 3))

/-- A string up to its end, from stretches that are at least one character long. The bound is one
more than the length of the text. -/
def readBody (close chunk : Reader (List Char)) : Nat → Reader (List Char)
  | 0, _ => none
  | bound + 1, cs =>
    match close cs with
    | some result => some result
    | none => do
      let (first, cs) ← chunk cs
      let (others, rest) ← readBody close chunk bound cs
      return (first ++ others, rest)

/-- A string on one line, after its quote. -/
def readLine (quote : Char) (chunk : Reader (List Char)) : Reader (List Char) := fun cs =>
  readBody (closeLine quote) chunk (cs.length + 1) cs

/-- A string on several lines, after its three quotes. -/
def readLines (quote : Char) (chunk : Reader (List Char)) : Reader (List Char) := fun cs =>
  let cs := (afterLineEnd? cs).getD cs
  readBody (closeLines quote) chunk (cs.length + 1) cs

/-- A string on one line, of either kind. -/
def readQuoted : Reader (List Char)
  | '"' :: cs => readLine '"' basicChunk cs
  | '\'' :: cs => readLine '\'' literalChunk cs
  | _ => none

/-- A string of any kind. -/
def readString : Reader (List Char)
  | '"' :: '"' :: '"' :: cs => readLines '"' basicLinesChunk cs
  | '\'' :: '\'' :: '\'' :: cs => readLines '\'' (onLines literalChunk) cs
  | cs => readQuoted cs

/-! ## Keys -/

/-- A character of a key that is not quoted. -/
def isKeyChar (c : Char) : Bool := c.isAlphanum || c == '_' || c == '-'

/-- A key without dots. -/
def readSimpleKey (cs : List Char) : Option (String × List Char) :=
  match cs with
  | [] => none
  | c :: _ =>
    if c = '"' ∨ c = '\'' then (readQuoted cs).map fun p => (String.ofList p.1, p.2)
    else
      let word := cs.takeWhile isKeyChar
      if word.isEmpty then none else some (String.ofList word, cs.dropWhile isKeyChar)

/-- The parts of a key between its dots, with blanks around each. The bound is one more than the
length of the text. -/
def readKeyParts : Nat → Reader (List String)
  | 0, _ => none
  | bound + 1, cs => do
    let (first, cs) ← readSimpleKey (skipBlanks cs)
    match skipBlanks cs with
    | '.' :: cs =>
      let (others, rest) ← readKeyParts bound cs
      return (first :: others, rest)
    | rest => return ([first], rest)

/-- How deep keys and values may be nested. -/
def maxDepth : Nat := 79

/-- A key: the parts before its last, and its last. -/
def readKey (cs : List Char) : Option ((List String × String) × List Char) := do
  let (parts, rest) ← readKeyParts (cs.length + 1) cs
  let last ← parts.getLast?
  if parts.length ≤ maxDepth then some ((parts.dropLast, last), rest) else none

end Tablature.Toml
