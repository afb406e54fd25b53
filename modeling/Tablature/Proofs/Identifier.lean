import Tablature.Identifier
import Tablature.Proofs.Text.Blank

/-!
# Proofs/Identifier — the characters of an identifier, and that it is read whole

An identifier holds no blank and nothing that quotes, brackets or divides; what is read as one is
one (`isIdentifier_of_readIdentifier`), and before a rest that does not go on with it nothing else
is read (`readIdentifier_append`).
-/

namespace Tablature

open Text (Stops stops_cons stops_nil)

theorem isNameChar_of_isNameStart {c : Char} (h : isNameStart c) : isNameChar c := by
  simp only [isNameStart, isNameChar, Char.isAlphanum, Bool.or_eq_true] at h ⊢
  exact h.imp_left .inl

/-- Letter case makes no difference to being a letter. -/
theorem isNameChar_of_toLower {c : Char} (h : isNameChar c.toLower) : isNameChar c := by
  unfold Char.toLower at h
  split at h
  · next hupper =>
    have halpha : c.isAlpha = true := Bool.or_eq_true_iff.mpr (.inl (decide_eq_true hupper))
    simp [isNameChar, Char.isAlphanum, halpha]
  · exact h

/-- All characters of an identifier are those of a name. -/
theorem isNameChar_of_mem_identifier {name : List Char} (h : isIdentifier name) :
    ∀ c ∈ name, isNameChar c := by
  cases name with
  | nil => simp
  | cons c cs =>
    simp only [isIdentifier, Bool.and_eq_true, List.all_eq_true] at h
    intro x hx
    rcases List.mem_cons.mp hx with rfl | hx
    · exact isNameChar_of_isNameStart h.1
    · exact h.2 x hx

/-- No character of a name is a blank. -/
theorem isBlank_of_isNameChar {c : Char} (h : isNameChar c) : Text.isBlank c = false := by
  change (((decide (c.val ≥ 'A'.val ∧ c.val ≤ 'Z'.val) || (c.val ≥ 'a'.val && c.val ≤ 'z'.val)) ||
    (c.val ≥ '0'.val && c.val ≤ '9'.val)) || c == '_') = true at h
  simp only [Bool.or_eq_true, Bool.and_eq_true, decide_eq_true_eq, beq_iff_eq] at h
  simp only [Text.isBlank, Text.blankRanges, List.any_cons, List.any_nil, Bool.or_false,
    Bool.or_eq_false_iff, Bool.and_eq_false_iff, decide_eq_false_iff_not]
  have hval : c.toNat = c.val.toNat := rfl
  rcases h with h | rfl
  · simp only [ge_iff_le, UInt32.le_iff_toNat_le, Char.reduceVal, UInt32.reduceToNat] at h
    omega
  · decide

/-- An identifier starts with a letter or an underscore. -/
theorem exists_cons_of_identifier {name : List Char} (h : isIdentifier name) :
    ∃ c cs, name = c :: cs ∧ isNameStart c := by
  cases name with
  | nil => simp [isIdentifier] at h
  | cons c cs =>
    simp only [isIdentifier, Bool.and_eq_true] at h
    exact ⟨c, cs, rfl, h.1⟩

theorem exists_concat_of_nameChars {cs : List Char} (hne : cs ≠ []) (h : ∀ c ∈ cs, isNameChar c) :
    ∃ a c, cs = a ++ [c] ∧ Text.isBlank c = false := by
  refine ⟨cs.dropLast, cs.getLast hne, (List.dropLast_concat_getLast hne).symm, ?_⟩
  exact isBlank_of_isNameChar (h _ (List.getLast_mem hne))

/-- An identifier ends, and not with a blank. -/
theorem exists_concat_of_identifier {name : List Char} (h : isIdentifier name) :
    ∃ a c, name = a ++ [c] ∧ Text.isBlank c = false := by
  refine exists_concat_of_nameChars ?_ (isNameChar_of_mem_identifier h)
  rintro rfl
  simp [isIdentifier] at h

/-- **An identifier is read whole** before a rest that does not go on with it. -/
theorem readIdentifier_append {name rest : List Char} (hn : isIdentifier name)
    (hr : Stops isNameChar rest) : readIdentifier (name ++ rest) = some (name, rest) := by
  cases name with
  | nil => simp [isIdentifier] at hn
  | cons c cs =>
    simp only [isIdentifier, Bool.and_eq_true, List.all_eq_true] at hn
    simp [readIdentifier, hn.1, Text.takeWhile_append_of_stops hn.2 hr,
      Text.dropWhile_append_of_stops hn.2 hr]

/-- What is read as an identifier is one. -/
theorem isIdentifier_of_readIdentifier {cs name rest : List Char}
    (h : readIdentifier cs = some (name, rest)) : isIdentifier name := by
  cases cs with
  | nil => simp [readIdentifier] at h
  | cons c cs =>
    by_cases hc : isNameStart c = true
    · simp only [readIdentifier, hc, if_true, Option.some.injEq, Prod.mk.injEq] at h
      obtain ⟨rfl, -⟩ := h
      simp [isIdentifier, hc]
    · simp [readIdentifier, hc] at h

end Tablature
