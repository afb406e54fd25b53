import Tablature.Decimal.Layout

/-!
# Json/Number — numerals and the numbers they stand for

A numeral is kept as it is spelled: sign, digits, fraction, exponent. The number it stands for is

* an integer, if it has neither fraction nor exponent and lies between `-2⁶³` and `2⁶⁴ - 1`; a
  minus sign before zero makes a double;
* else a double, computed from the digits that fit into 64 bits: what they leave out only moves the
  exponent, and the rest is one multiplication or division by a power of ten.

A numeral too large for a double stands for nothing.
-/

namespace Tablature.Json

/-- A number. -/
inductive Number where
  | integer (n : Int)
  | double (x : Float)
deriving DecidableEq, Repr

/-- Doubles are written positionally from `10⁻⁵` up to `10¹⁶`. -/
def numberLayout : Decimal.Layout where
  plainFrom := -5
  plainTo := 15

/-- The text of a number. -/
def Number.render : Number → String
  | integer n => toString n
  | double x => numberLayout.render x

/-- A numeral as it is spelled. -/
structure Numeral where
  negative : Bool
  whole : List Char
  /-- The digits after the point; none if there is no point. -/
  fraction : List Char
  /-- The sign and the digits of the exponent. -/
  exponent : Option (Bool × List Char)
deriving DecidableEq, Repr

namespace Numeral

/-- The value of a decimal digit. -/
def digit (c : Char) : Nat := c.toNat - '0'.toNat

/-- The digits of a text, and what follows. -/
def readDigits (cs : List Char) : List Char × List Char :=
  (cs.takeWhile Char.isDigit, cs.dropWhile Char.isDigit)

/-- The digits before the point: a zero alone, or digits that start with another. -/
def readWhole : List Char → Option (List Char × List Char)
  | [] => none
  | '0' :: cs =>
    match cs with
    | [] => some (['0'], [])
    | c :: rest => if c.isDigit then none else some (['0'], c :: rest)
  | c :: cs => if c.isDigit then some (readDigits (c :: cs)) else none

/-- The digits after a point; without a point there are none. -/
def readFraction : List Char → Option (List Char × List Char)
  | '.' :: cs => if (readDigits cs).1.isEmpty then none else some (readDigits cs)
  | cs => some ([], cs)

/-- The exponent after an `e` of either case, with an optional sign. -/
def readExponent : List Char → Option (Option (Bool × List Char) × List Char)
  | [] => some (none, [])
  | e :: cs =>
    if e = 'e' ∨ e = 'E' then
      let (negative, cs) := match cs with
        | '+' :: cs => (false, cs)
        | '-' :: cs => (true, cs)
        | cs => (false, cs)
      if (readDigits cs).1.isEmpty then none
      else some (some (negative, (readDigits cs).1), (readDigits cs).2)
    else some (none, e :: cs)

/-- A numeral at the front, and the rest. -/
def read (cs : List Char) : Option (Numeral × List Char) := do
  let (negative, cs) := match cs with
    | '-' :: cs => (true, cs)
    | cs => (false, cs)
  let (whole, cs) ← readWhole cs
  let (fraction, cs) ← readFraction cs
  let (exponent, cs) ← readExponent cs
  return (⟨negative, whole, fraction, exponent⟩, cs)

/-- The digits appended to a number while it stays within a limit, and those left over. -/
def absorb (limit : Nat) : Nat → List Char → Nat × List Char
  | n, [] => (n, [])
  | n, d :: ds =>
    if 10 * n + digit d ≤ limit then absorb limit (10 * n + digit d) ds else (n, d :: ds)

/-- The greatest number of 64 bits. -/
def maxSignificand : Nat := UInt64.size - 1

/-- The greatest exponent that is computed with; beyond it a number is out of range or zero. -/
def maxExponent : Nat := 2147483647

/-- The double nearest to a power of ten. -/
def powerOfTen (n : Nat) : Float := Float.ofScientific 1 false n

/-- A double divided by `10 ^ n`, in steps that a double can hold. -/
def scaleDown (x : Float) (n : Nat) : Float :=
  if n ≤ 308 then x / powerOfTen n
  else if x == 0 then x
  else scaleDown (x / powerOfTen 308) (n - 308)
termination_by n
decreasing_by omega

/-- A significand times a power of ten, unless it is too large for a double. -/
def scale? (significand : Nat) (exponent : Int) : Option Float :=
  let x := significand.toUInt64.toFloat
  if exponent < 0 then some (scaleDown x exponent.natAbs)
  else if exponent ≤ 308 then
    let y := x * powerOfTen exponent.toNat
    if y.isInf then none else some y
  else if x == 0 then some x
  else none

/-- The double of a numeral's magnitude. -/
def magnitude? (n : Numeral) : Option Float :=
  let (whole, dropped) := absorb maxSignificand 0 n.whole
  let (significand, unused) := absorb maxSignificand whole n.fraction
  let shift : Int := (dropped.length : Int) - ((n.fraction.length : Int) - unused.length)
  match n.exponent with
  | none => scale? significand shift
  | some (negative, digits) =>
    let (e, tooLong) := absorb maxExponent 0 digits
    if tooLong.isEmpty then scale? significand (if negative then shift - e else shift + e)
    else if significand ≠ 0 ∧ !negative then none
    else some 0

/-- The magnitude of the least negative integer, of 64 bits. -/
def maxNegated : Nat := 9223372036854775808

/-- The integer of a numeral that has neither fraction nor exponent and is in range. -/
def integer? (n : Numeral) : Option Int :=
  match n.fraction, n.exponent, absorb maxSignificand 0 n.whole with
  | [], none, (value, []) =>
    if !n.negative then some value
    else if 0 < value ∧ value ≤ maxNegated then some (-(value : Int))
    else none
  | _, _, _ => none

/-- The number a numeral stands for. -/
def number? (n : Numeral) : Option Number :=
  match n.integer? with
  | some value => some (.integer value)
  | none => n.magnitude?.map fun x => .double (if n.negative then -x else x)

end Numeral

end Tablature.Json
