/-!
# Text/Cut — the texts around a character

`cutAt` divides a text at the leftmost of a character: an arrow, an equals sign, a parenthesis.
-/

namespace Tablature.Text

/-- The texts around the leftmost `x`. -/
def cutAt (x : Char) : List Char → Option (List Char × List Char)
  | [] => none
  | c :: cs => if c = x then some ([], cs) else (cutAt x cs).map fun p => (c :: p.1, p.2)

theorem cutAt_append {x : Char} {a : List Char} (ha : x ∉ a) (b : List Char) :
    cutAt x (a ++ x :: b) = some (a, b) := by
  induction a with
  | nil => simp [cutAt]
  | cons c a ih =>
    have hc : c ≠ x := fun e => ha (by simp [e])
    have htail : x ∉ a := fun e => ha (by simp [e])
    simp [cutAt, hc, ih htail]

theorem cutAt_eq_none {x : Char} {cs : List Char} (h : x ∉ cs) : cutAt x cs = none := by
  induction cs with
  | nil => rfl
  | cons c cs ih =>
    have hc : c ≠ x := fun e => h (by simp [e])
    simp [cutAt, hc, ih fun e => h (by simp [e])]

end Tablature.Text
