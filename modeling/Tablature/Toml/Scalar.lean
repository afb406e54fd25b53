import Tablature.Toml.Text

/-!
# Toml/Scalar — numbers, dates and times

Digits may be divided by single underscores. Integers have 64 bits; floats and moments are kept as
they are spelled, once they are known to be in range.
-/

namespace Tablature.Toml

/-- Digits of a class, with single underscores between them, which are left out. -/
def readDigitsAfter (isDigit : Char → Bool) : List Char → Option (List Char × List Char)
  | [] => some ([], [])
  | '_' :: c :: cs =>
    if isDigit c then (readDigitsAfter isDigit cs).map fun p => (c :: p.1, p.2) else none
  | ['_'] => none
  | c :: cs =>
    if isDigit c then (readDigitsAfter isDigit cs).map fun p => (c :: p.1, p.2)
    else some ([], c :: cs)

/-- Digits of a class, at least one. -/
def readDigits (isDigit : Char → Bool) : Reader (List Char)
  | [] => none
  | c :: cs =>
    if isDigit c then (readDigitsAfter isDigit cs).map fun p => (c :: p.1, p.2) else none

/-- A sign, if there is one. -/
def readSign : List Char → Option Char × List Char
  | '+' :: cs => (some '+', cs)
  | '-' :: cs => (some '-', cs)
  | cs => (none, cs)

/-- Decimal digits, a zero in front only alone. -/
def readDecimal : Reader (List Char)
  | '0' :: cs => some (['0'], cs)
  | cs => readDigits Char.isDigit cs

/-- The value of digits in a base. -/
def valueOf (base : Nat) (digits : List Char) : Nat :=
  digits.foldl (fun n d => base * n + (Json.hexValue? d).getD 0) 0

/-- The greatest integer, of 63 bits. -/
def maxInteger : Nat := 9223372036854775807

/-- A number of a base after the letter that marks it, up to the greatest. -/
def readBase (base : Nat) (isDigit : Char → Bool) (cs : List Char) : Option (Int × List Char) := do
  let (digits, rest) ← readDigits isDigit cs
  if valueOf base digits ≤ maxInteger then some ((valueOf base digits : Int), rest) else none

/-- An integer of 64 bits: decimal with a sign, or hexadecimal, octal or binary without. -/
def readInteger : List Char → Option (Int × List Char)
  | '0' :: 'x' :: cs => readBase 16 (fun c => (Json.hexValue? c).isSome) cs
  | '0' :: 'o' :: cs => readBase 8 (fun c => '0' ≤ c && c ≤ '7') cs
  | '0' :: 'b' :: cs => readBase 2 (fun c => c == '0' || c == '1') cs
  | cs => do
    let (sign, cs) := readSign cs
    let (digits, rest) ← readDecimal cs
    let value : Int := if sign = some '-' then -(valueOf 10 digits : Int) else valueOf 10 digits
    if -(maxInteger : Int) - 1 ≤ value ∧ value ≤ maxInteger then some (value, rest) else none

/-! ## Floats -/

/-- The digits after a point, if there is one. -/
def readFraction : List Char → Option (Option (List Char) × List Char)
  | '.' :: cs => (readDigits Char.isDigit cs).map fun p => (some p.1, p.2)
  | cs => some (none, cs)

/-- The sign and digits of an exponent, if there is one. -/
def readExponent : List Char → Option (Option (Option Char × List Char) × List Char)
  | [] => some (none, [])
  | e :: cs =>
    if e = 'e' ∨ e = 'E' then do
      let (sign, cs) := readSign cs
      let (digits, rest) ← readDigits Char.isDigit cs
      some (some (sign, digits), rest)
    else some (none, e :: cs)

/-- Does a decimal, digits times a power of ten, round to a finite double? -/
def isFinite (digits : List Char) (exponent : Int) : Bool :=
  let n := valueOf 10 digits
  let magnitude := ((toString n).length : Int) + exponent
  if n = 0 ∨ magnitude < 300 then true
  else if magnitude > 320 then false
  else n * Nat.pow 10 exponent.toNat
    < (Nat.pow 2 1024 - Nat.pow 2 970) * Nat.pow 10 (-exponent).toNat

/-- A float with a point or an exponent. A positive one has to be finite. -/
def readDecimalFloat (cs : List Char) : Option (String × List Char) := do
  let (sign, cs) := readSign cs
  let (whole, cs) ← readDecimal cs
  let (fraction, cs) ← readFraction cs
  let (exponent, rest) ← readExponent cs
  if fraction.isNone ∧ exponent.isNone then none
  let shift : Int := match exponent with
    | some (some '-', digits) => -(valueOf 10 digits : Int)
    | some (_, digits) => valueOf 10 digits
    | none => 0
  let places := fraction.getD []
  if sign = some '-' ∨ isFinite (whole ++ places) (shift - places.length) then
    some (String.ofList (sign.toList ++ whole
      ++ (match fraction with | some f => '.' :: f | none => [])
      ++ (match exponent with | some (s, e) => 'e' :: (s.toList ++ e) | none => [])), rest)
  else none

/-- An infinity or a number that is none, with or without a sign. -/
def readSpecialFloat (cs : List Char) : Option (String × List Char) :=
  let (sign, rest) := readSign cs
  match rest with
  | 'i' :: 'n' :: 'f' :: rest => some (String.ofList (sign.toList ++ "inf".toList), rest)
  | 'n' :: 'a' :: 'n' :: rest => some (String.ofList (sign.toList ++ "nan".toList), rest)
  | _ => none

/-! ## Dates and times -/

/-- A number of so many digits within a range. -/
def readField (width low high : Nat) (cs : List Char) : Option (Nat × List Char) :=
  let digits := cs.take width
  let value := valueOf 10 digits
  if digits.length = width ∧ digits.all Char.isDigit ∧ low ≤ value ∧ value ≤ high then
    some (value, cs.drop width)
  else none

/-- The text after a given character. -/
def after? (c : Char) : List Char → Option (List Char)
  | [] => none
  | d :: cs => if d = c then some cs else none

/-- The days of a month. -/
def daysIn (year month : Nat) : Nat :=
  if month = 2 then
    if year % 4 = 0 ∧ (year % 100 ≠ 0 ∨ year % 400 = 0) then 29 else 28
  else if month = 4 ∨ month = 6 ∨ month = 9 ∨ month = 11 then 30
  else 31

/-- The text after a date. -/
def afterDate? (cs : List Char) : Option (List Char) := do
  let (year, cs) ← readField 4 0 9999 cs
  let cs ← after? '-' cs
  let (month, cs) ← readField 2 1 12 cs
  let cs ← after? '-' cs
  let (_, rest) ← readField 2 1 (daysIn year month) cs
  return rest

/-- The text after the fraction of a second, if there is one. -/
def afterSecondFraction? : List Char → Option (List Char)
  | '.' :: cs =>
    if (cs.takeWhile Char.isDigit).isEmpty then none else some (cs.dropWhile Char.isDigit)
  | cs => some cs

/-- The text after a time of the day. -/
def afterTime? (cs : List Char) : Option (List Char) := do
  let (_, cs) ← readField 2 0 23 cs
  let cs ← after? ':' cs
  let (_, cs) ← readField 2 0 59 cs
  let cs ← after? ':' cs
  let (_, cs) ← readField 2 0 60 cs
  some ((afterSecondFraction? cs).getD cs)

/-- The text after an offset from universal time, if there is one. -/
def afterOffset? : List Char → Option (List Char)
  | [] => some []
  | c :: cs =>
    if c = 'Z' ∨ c = 'z' then some cs
    else if c = '+' ∨ c = '-' then do
      let (_, cs) ← readField 2 0 23 cs
      let cs ← after? ':' cs
      let (_, rest) ← readField 2 0 59 cs
      return rest
    else some (c :: cs)

/-- The text after a date, a time, or both with or without an offset. -/
def afterMoment? (cs : List Char) : Option (List Char) :=
  match afterDate? cs with
  | none => afterTime? cs
  | some rest =>
    match rest with
    | [] => some []
    | c :: below =>
      if c = 'T' ∨ c = 't' ∨ c = ' ' then
        match afterTime? below with
        | some rest => afterOffset? rest
        | none => some (c :: below)
      else some (c :: below)

/-- A moment, as it is spelled. -/
def readMoment (cs : List Char) : Option (String × List Char) :=
  (afterMoment? cs).map fun rest => (String.ofList (cs.take (cs.length - rest.length)), rest)

end Tablature.Toml
