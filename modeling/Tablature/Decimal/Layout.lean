import Tablature.Decimal.Shortest

/-!
# Decimal/Layout — how a number is written

A `Layout` says which numbers are written positionally and which with an exponent; `Layout.render`
writes a double by it, with the fewest digits that identify it.
-/

namespace Tablature.Decimal

/-- The decisions of a written form. The exponent of a number is that of its leading digit. -/
structure Layout where
  /-- The least exponent that is written positionally. -/
  plainFrom : Int
  /-- The greatest exponent that is written positionally. -/
  plainTo : Int
deriving DecidableEq, Repr

namespace Layout

/-- A decimal written positionally, always with a point and a digit after it. -/
def positional (digits : String) (exponent : Int) : String :=
  let width : Int := digits.length
  if exponent < 0 then
    "0." ++ "".pushn '0' (-exponent - 1).toNat ++ digits
  else if exponent + 1 < width then
    let whole := (exponent + 1).toNat
    String.ofList (digits.toList.take whole) ++ "." ++ String.ofList (digits.toList.drop whole)
  else
    digits.pushn '0' (exponent + 1 - width).toNat ++ ".0"

/-- A decimal written with an exponent, its sign always shown. -/
def scientific (digits : String) (exponent : Int) : String :=
  let tail := digits.toList.drop 1
  String.ofList (digits.toList.take 1)
    ++ (if tail.isEmpty then "" else "." ++ String.ofList tail)
    ++ "e" ++ (if exponent < 0 then "-" else "+") ++ toString exponent.natAbs

/-- A decimal by a layout. -/
def write (layout : Layout) (d : Value) : String :=
  let digits := toString d.digits
  let exponent := d.exponent + digits.length - 1
  if layout.plainFrom ≤ exponent ∧ exponent ≤ layout.plainTo then positional digits exponent
  else scientific digits exponent

/-- A finite double by a layout; zero keeps its sign. -/
def render (layout : Layout) (x : Float) : String :=
  let bits := x.toBits
  let sign := if bits.toNat / Nat.pow 2 63 = 1 then "-" else ""
  let b := Binary.ofBits bits
  sign ++ (if b.m = 0 then "0.0" else layout.write b.shortest)

end Layout

end Tablature.Decimal
