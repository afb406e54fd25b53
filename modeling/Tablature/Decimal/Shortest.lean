/-!
# Decimal/Shortest — the fewest digits that name a binary number

A positive number `m · 2 ^ q` with a significand of 53 bits stands for the reals that round to it:
those between the midpoints to its two neighbours, the midpoints included iff `m` is even. Of the
decimals `d · 10 ^ g` among them the one with the largest `g` has the fewest digits; of two on one
grid the nearer is taken, and of two equally near the even one.

All comparisons are exact. In units of `2 ^ (q - 2)` the number is `4 m`, the upper midpoint
`4 m + 2` and the lower one `4 m - 2`, or `4 m - 1` where the binade below is finer.
-/

namespace Tablature.Decimal

/-- A positive binary number `m · 2 ^ q`, and whether the neighbour below it is at half the
distance of the one above. -/
structure Binary where
  m : Nat
  q : Int
  finerBelow : Bool
deriving DecidableEq, Repr

/-- A decimal `digits · 10 ^ exponent`. -/
structure Value where
  digits : Nat
  exponent : Int
deriving DecidableEq, Repr

namespace Binary

/-- The magnitude of a finite double, from its bits. -/
def ofBits (bits : UInt64) : Binary :=
  let fraction : Nat := bits.toNat % Nat.pow 2 52
  let biased : Nat := bits.toNat / Nat.pow 2 52 % Nat.pow 2 11
  if biased = 0 then ⟨fraction, -1074, false⟩
  else ⟨fraction + Nat.pow 2 52, (biased : Int) - 1075, fraction == 0 && biased != 1⟩

/-- The point of the grid `10 ^ g` next to the number that still rounds to it. -/
def onGrid? (x : Binary) (g : Int) : Option Nat :=
  let a := Nat.pow 2 (x.q - 2).toNat * Nat.pow 10 (-g).toNat
  let b := Nat.pow 2 (2 - x.q).toNat * Nat.pow 10 g.toNat
  let value := 4 * x.m * a
  let low := (4 * x.m - if x.finerBelow then 1 else 2) * a
  let high := (4 * x.m + 2) * a
  let inside (d : Nat) : Bool :=
    if x.m % 2 == 0 then low ≤ d * b && d * b ≤ high else low < d * b && d * b < high
  let d := value / b
  match inside d, inside (d + 1) with
  | true, true =>
    let below := value - d * b
    let above := (d + 1) * b - value
    if below < above then some d
    else if above < below then some (d + 1)
    else if d % 2 == 0 then some d else some (d + 1)
  | true, false => some d
  | false, true => some (d + 1)
  | false, false => none

/-- The first grid, from `10 ^ g` downwards, on which a point rounds to the number. -/
def search (x : Binary) : Nat → Int → Value
  | 0, g => ⟨(x.onGrid? g).getD 0, g⟩
  | steps + 1, g =>
    match x.onGrid? g with
    | some d => ⟨d, g⟩
    | none => x.search steps (g - 1)

/-- The decimal of fewest digits that rounds to the number. The search starts above its leading
digit; seventeen digits are always enough. -/
def shortest (x : Binary) : Value :=
  x.search 24 ((((Nat.log2 x.m : Nat) : Int) + x.q) * 30103 / 100000 + 2)

end Binary

end Tablature.Decimal
