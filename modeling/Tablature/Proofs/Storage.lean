import Tablature.Proofs.Text.Blank
import Tablature.Storage

/-!
# Proofs/Storage — a type name comes to a class, and the spelling of the class to the same class

    " VarChar(8) "   ↦   VARCHAR(8)   ↦   VARCHAR(8)
    "Bool"           ↦   INTEGER      ↦   INTEGER

A type name is looked up in lower case and kept in upper case, so the two cases have to agree
(`Text.lower_upper`, `Text.upper_lower`) and neither may touch the blanks at the ends
(`Text.trim_map`).  The rest is in the table of aliases: it has every class under the spelling that
statements use (`Storage.ofAlias_sql_ofAlias`), and what it does not have is not spelled like a
class.
-/

namespace Tablature

/-! ## Letter case

A change of case forgets any change before it.  It makes no blank and takes none away, so that it
can be exchanged with trimming. -/

/-- The letters from a code on. -/
def letters (first : Nat) : List Char := (List.range' first 26).map Char.ofNat

/-- The letters that upper case changes. -/
abbrev lowerLetters : List Char := letters 97

/-- The letters that lower case changes. -/
abbrev upperLetters : List Char := letters 65

/-- A character whose code is among 26 from a first one is one of these letters. -/
theorem mem_letters {first : Nat} {c : Char} (h : first ≤ c.toNat ∧ c.toNat < first + 26) :
    c ∈ letters first := by
  refine List.mem_map.mpr ⟨c.toNat, ?_, Char.ofNat_toNat c⟩
  exact List.mem_range'.mpr ⟨c.toNat - first, by omega, by omega⟩

/-- Only lower-case letters change to upper case. -/
theorem toUpper_eq_self_or_mem (c : Char) : c.toUpper = c ∨ c ∈ lowerLetters := by
  by_cases hc : 'a'.val ≤ c.val ∧ c.val ≤ 'z'.val
  · have hrange : 97 ≤ c.toNat ∧ c.toNat ≤ 122 := by
      simpa [UInt32.le_iff_toNat_le] using hc
    exact .inr (mem_letters (by omega))
  · exact .inl (dif_neg hc)

/-- Only upper-case letters change to lower case. -/
theorem toLower_eq_self_or_mem (c : Char) : c.toLower = c ∨ c ∈ upperLetters := by
  by_cases hc : 'A'.val ≤ c.val ∧ c.val ≤ 'Z'.val
  · have hrange : 65 ≤ c.toNat ∧ c.toNat ≤ 90 := by
      simpa [UInt32.le_iff_toNat_le] using hc
    exact .inr (mem_letters (by omega))
  · exact .inl (dif_neg hc)

/-- What upper case leaves alone in `a` to `z`, it leaves alone in every character. -/
theorem toUpper_eq_of_lowerLetters {α : Type} (f : Char → α)
    (h : lowerLetters.map (fun c => f c.toUpper) = lowerLetters.map f) (c : Char) :
    f c.toUpper = f c := by
  rcases toUpper_eq_self_or_mem c with hc | hc
  · rw [hc]
  · exact List.map_inj_left.mp h c hc

/-- What lower case leaves alone in `A` to `Z`, it leaves alone in every character. -/
theorem toLower_eq_of_upperLetters {α : Type} (f : Char → α)
    (h : upperLetters.map (fun c => f c.toLower) = upperLetters.map f) (c : Char) :
    f c.toLower = f c := by
  rcases toLower_eq_self_or_mem c with hc | hc
  · rw [hc]
  · exact List.map_inj_left.mp h c hc

namespace Text

/-- Lower case forgets a change to upper case. -/
theorem lower_upper (cs : List Char) : lower (upper cs) = lower cs := by
  rw [lower, upper, lower, List.map_map]
  exact List.map_congr_left fun c _ => toUpper_eq_of_lowerLetters Char.toLower (by decide) c

theorem upper_upper (cs : List Char) : upper (upper cs) = upper cs := by
  rw [upper, upper, List.map_map]
  exact List.map_congr_left fun c _ => toUpper_eq_of_lowerLetters Char.toUpper (by decide) c

theorem upper_lower (cs : List Char) : upper (lower cs) = upper cs := by
  rw [upper, lower, upper, List.map_map]
  exact List.map_congr_left fun c _ => toLower_eq_of_upperLetters Char.toUpper (by decide) c

section Map

variable {g : Char → Char}

/-- A change of characters that respects blanks goes past trimming at the start. -/
theorem trimStart_map (hg : ∀ c, isBlank (g c) = isBlank c) (cs : List Char) :
    trimStart (cs.map g) = (trimStart cs).map g := by
  have hblank : isBlank ∘ g = isBlank := funext hg
  rw [trimStart, List.dropWhile_map, hblank]
  rfl

/-- **A change of characters that keeps the blanks** goes past trimming. -/
theorem trim_map (hg : ∀ c, isBlank (g c) = isBlank c) (cs : List Char) :
    trim (cs.map g) = (trim cs).map g := by
  simp only [trim, trimEnd, trimStart_map hg, ← List.map_reverse]

end Map

/-- Trimming and upper case can be exchanged. -/
theorem trim_upper (cs : List Char) : trim (upper cs) = upper (trim cs) :=
  trim_map (fun c => toUpper_eq_of_lowerLetters isBlank (by decide) c) cs

theorem trim_lower (cs : List Char) : trim (lower cs) = lower (trim cs) :=
  trim_map (fun c => toLower_eq_of_upperLetters isBlank (by decide) c) cs

end Text

/-! ## Storage classes -/

namespace Storage

theorem mem_aliases_of_lookup {word : List Char} {storage : Storage}
    (h : aliases.lookup word = some storage) : (word, storage) ∈ aliases := by
  obtain ⟨before, after, hsplit, -⟩ := List.lookup_eq_some_iff.mp h
  exact hsplit ▸ List.mem_append_right before List.mem_cons_self

/-- An alias stands for the class it has in the table. -/
theorem ofAlias_of_lookup_eq_some {name : List Char} {storage : Storage}
    (h : aliases.lookup (Text.lower (Text.trim name)) = some storage) : ofAlias name = storage := by
  simp only [ofAlias, h]

/-- A name that is no alias is kept, trimmed and in upper case. -/
theorem ofAlias_of_lookup_eq_none {name : List Char}
    (h : aliases.lookup (Text.lower (Text.trim name)) = none) :
    ofAlias name = other (String.ofList (Text.upper (Text.trim name))) := by
  simp only [ofAlias, h]

/-- **The spelling of a class is an alias of it**: no type but its own is spelled like a class. -/
theorem ofAlias_sql_ofAlias (name : List Char) :
    ofAlias (ofAlias name).sql.toList = ofAlias name := by
  have halias : ∀ entry ∈ aliases, ofAlias entry.2.sql.toList = entry.2 := by decide
  cases hlook : aliases.lookup (Text.lower (Text.trim name)) with
  | some storage =>
    rw [ofAlias_of_lookup_eq_some hlook]
    exact halias (_, storage) (mem_aliases_of_lookup hlook)
  | none =>
    have hword : Text.trim (Text.upper (Text.trim name)) = Text.upper (Text.trim name) := by
      rw [Text.trim_upper, Text.trim_trim]
    have hlook' : aliases.lookup (Text.lower (Text.trim (Text.upper (Text.trim name)))) = none := by
      rw [hword, Text.lower_upper, hlook]
    rw [ofAlias_of_lookup_eq_none hlook, sql, String.toList_ofList,
      ofAlias_of_lookup_eq_none hlook', hword, Text.upper_upper]

/-- **Only the trimmed name in lower case counts.** -/
theorem ofAlias_congr {a b : List Char}
    (h : Text.lower (Text.trim a) = Text.lower (Text.trim b)) : ofAlias a = ofAlias b := by
  have hupper : Text.upper (Text.trim a) = Text.upper (Text.trim b) := by
    rw [← Text.upper_lower, h, Text.upper_lower]
  simp only [ofAlias, h, hupper]

/-- **Blanks around a name do not count.** -/
theorem ofAlias_padded (name : List Char) {before after : List Char}
    (h : ∀ c ∈ before ++ after, Text.isBlank c) :
    ofAlias (before ++ name ++ after) = ofAlias name := by
  refine ofAlias_congr (congrArg Text.lower (Text.trim_padded name ?_ ?_))
  · exact fun c hc => h c (List.mem_append_left after hc)
  · exact fun c hc => h c (List.mem_append_right before hc)

/-- **Letter case does not count.** -/
theorem ofAlias_of_lower_eq {a b : List Char} (h : Text.lower a = Text.lower b) :
    ofAlias a = ofAlias b :=
  ofAlias_congr (by rw [← Text.trim_lower, h, Text.trim_lower])

/-- **Type names are resolved to one canonical name each.** To resolve the spelling of a class
changes nothing; letter case and the blanks around a name do not count; two names with one spelling
are one class; and a type that is none of the five classes is not spelled like one. -/
theorem ofAlias_canonical :
    (∀ name, ofAlias (ofAlias name).sql.toList = ofAlias name) ∧
    (∀ name variant before after, Text.lower variant = Text.lower name →
      (∀ c ∈ before ++ after, Text.isBlank c) →
        ofAlias (before ++ variant ++ after) = ofAlias name) ∧
    (∀ a b, (ofAlias a).sql = (ofAlias b).sql → ofAlias a = ofAlias b) ∧
    ∀ name spelling, ofAlias name = other spelling →
      ∀ storage ∈ [integer, text, real, numeric, blob], spelling ≠ storage.sql := by
  have hinj : ∀ a b, (ofAlias a).sql = (ofAlias b).sql → ofAlias a = ofAlias b := fun a b h => by
    rw [← ofAlias_sql_ofAlias a, h, ofAlias_sql_ofAlias]
  refine ⟨ofAlias_sql_ofAlias, fun name variant before after hcase hblank => ?_, hinj, ?_⟩
  · rw [ofAlias_padded variant hblank, ofAlias_of_lower_eq hcase]
  · rintro name spelling hname storage hmem rfl
    have hclass : ∀ storage ∈ [integer, text, real, numeric, blob],
        ofAlias storage.sql.toList = storage ∧ ∀ spelling, storage ≠ other spelling := by
      simp only [List.forall_mem_cons, List.not_mem_nil, false_implies, implies_true, and_true]
      exact ⟨⟨by decide, nofun⟩, ⟨by decide, nofun⟩, ⟨by decide, nofun⟩, ⟨by decide, nofun⟩,
        by decide, nofun⟩
    obtain ⟨hself, hnot⟩ := hclass storage hmem
    -- the class has the spelling of `name`, so `name` is that class
    have hsame : ofAlias name = ofAlias storage.sql.toList :=
      hinj _ _ (by rw [hself, hname]; rfl)
    exact hnot _ (hself.symm.trans (hsame.symm.trans hname))

/-- Another letter case between blanks that are no spaces, an alias beside the class it stands for,
and a type that only starts like a class. -/
theorem ofAlias_canonical_integer :
    Text.lower "vArChAr(8)".toList = Text.lower "VarChar(8)".toList ∧
    (∀ c ∈ "\t\u3000".toList ++ "\u0085".toList, Text.isBlank c) ∧
    ofAlias ("\t\u3000".toList ++ "vArChAr(8)".toList ++ "\u0085".toList) =
      ofAlias "VarChar(8)".toList ∧
    (ofAlias "Bool".toList).sql = (ofAlias " integer".toList).sql ∧
    ofAlias "Bool".toList = ofAlias " integer".toList ∧
    ofAlias "integer(8)".toList = other "INTEGER(8)" ∧
    integer ∈ [integer, text, real, numeric, blob] ∧ "INTEGER(8)" ≠ integer.sql := by
  obtain ⟨-, hcase, hinj, hother⟩ := ofAlias_canonical
  have hblank : ∀ c ∈ "\t\u3000".toList ++ "\u0085".toList, Text.isBlank c :=
    List.all_eq_true.mp (by decide)
  exact ⟨by decide, hblank, hcase _ _ _ _ (by decide) hblank, by decide,
    hinj _ _ (by decide), by decide, by decide,
    hother "integer(8)".toList _ (by decide) _ (by decide)⟩

end Storage

end Tablature
