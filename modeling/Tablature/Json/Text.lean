/-!
# Json/Text — string literals

* `quote` — the literal of a text: quote, backslash and control characters are escaped, every other
  character stands for itself;
* `readPieces` — the pieces of a literal up to its closing quote: characters, and 16-bit units
  written `\uXXXX`;
* `decode?` — the text that pieces spell; a high surrogate has to be followed by a low one.
-/

namespace Tablature.Json

/-- A piece of a string literal. -/
inductive Piece where
  | char (c : Char)
  /-- A 16-bit unit, written with four hexadecimal digits. -/
  | unit (u : Nat)
deriving DecidableEq, Repr

/-- The value of a hexadecimal digit. -/
def hexValue? (c : Char) : Option Nat :=
  if '0' ≤ c ∧ c ≤ '9' then some (c.toNat - '0'.toNat)
  else if 'a' ≤ c ∧ c ≤ 'f' then some (c.toNat - 'a'.toNat + 10)
  else if 'A' ≤ c ∧ c ≤ 'F' then some (c.toNat - 'A'.toNat + 10)
  else none

/-- The unit that four hexadecimal digits spell. -/
def hexUnit? (a b c d : Char) : Option Nat := do
  return (((← hexValue? a) * 16 + (← hexValue? b)) * 16 + (← hexValue? c)) * 16 + (← hexValue? d)

/-- The lower-case hexadecimal digit of a value below 16. -/
def hexDigit (n : Nat) : Char :=
  if n < 10 then Char.ofNat ('0'.toNat + n) else Char.ofNat ('a'.toNat + (n - 10))

/-- The character that a one-letter escape stands for. -/
def unescape? : Char → Option Char
  | '"' => some '"'
  | '\\' => some '\\'
  | '/' => some '/'
  | 'b' => some '\x08'
  | 'f' => some '\x0c'
  | 'n' => some '\n'
  | 'r' => some '\r'
  | 't' => some '\t'
  | _ => none

/-- A character as it is written in a literal. -/
def escapeChar (c : Char) : List Char :=
  if c = '"' then ['\\', '"']
  else if c = '\\' then ['\\', '\\']
  else if c = '\x08' then ['\\', 'b']
  else if c = '\x0c' then ['\\', 'f']
  else if c = '\n' then ['\\', 'n']
  else if c = '\r' then ['\\', 'r']
  else if c = '\t' then ['\\', 't']
  else if c.toNat < 0x20 then
    ['\\', 'u', '0', '0', hexDigit (c.toNat / 16), hexDigit (c.toNat % 16)]
  else [c]

/-- A text as it is written between the quotes of a literal. -/
def escape (cs : List Char) : List Char := cs.flatMap escapeChar

/-- The literal of a text. -/
def quote (cs : List Char) : List Char := '"' :: (escape cs ++ ['"'])

/-- The pieces of a literal after its opening quote, and what follows its closing one. A control
character has to be escaped. -/
def readPieces : List Char → Option (List Piece × List Char)
  | [] => none
  | '"' :: cs => some ([], cs)
  | '\\' :: 'u' :: a :: b :: c :: d :: cs => do
    let u ← hexUnit? a b c d
    let (pieces, rest) ← readPieces cs
    return (.unit u :: pieces, rest)
  | '\\' :: c :: cs => do
    let c ← unescape? c
    let (pieces, rest) ← readPieces cs
    return (.char c :: pieces, rest)
  | c :: cs => do
    if c.toNat < 0x20 ∨ c = '\\' then none
    else
      let (pieces, rest) ← readPieces cs
      return (.char c :: pieces, rest)

/-- A unit that starts a surrogate pair. -/
def isHighSurrogate (u : Nat) : Bool := 0xD800 ≤ u && u ≤ 0xDBFF

/-- A unit that ends a surrogate pair. -/
def isLowSurrogate (u : Nat) : Bool := 0xDC00 ≤ u && u ≤ 0xDFFF

/-- The character of a surrogate pair. -/
def pairChar (high low : Nat) : Char :=
  Char.ofNat (0x10000 + (high - 0xD800) * 0x400 + (low - 0xDC00))

/-- The text that pieces spell. -/
def decode? : List Piece → Option (List Char)
  | [] => some []
  | .char c :: pieces => (decode? pieces).map (c :: ·)
  | .unit u :: .unit v :: pieces =>
    if isHighSurrogate u then
      if isLowSurrogate v then (decode? pieces).map (pairChar u v :: ·) else none
    else if isLowSurrogate u then none
    else (decode? (.unit v :: pieces)).map (Char.ofNat u :: ·)
  | .unit u :: pieces =>
    if isHighSurrogate u || isLowSurrogate u then none
    else (decode? pieces).map (Char.ofNat u :: ·)

end Tablature.Json
