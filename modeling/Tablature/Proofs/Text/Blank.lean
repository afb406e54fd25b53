import Mathlib.Data.List.TakeWhile
import Tablature.Text.Blank

/-!
# Proofs/Text/Blank — where a reader stops, and what trimming leaves

* `takeWhile_append_of_stops`, `dropWhile_append_of_stops` — a reader of a class takes a text of
  that class and nothing of a rest that stops it;
* `trim_append_cons` — trimming a text with a character in it that is no blank leaves all before
  that character and trims only what follows;
* `trim_of_ends` — a text with no blank at either end is left as it is.
-/

namespace Tablature.Text

/-! ## Readers of a class

A reader takes characters of a class from the front and leaves the rest.  A text of the class is
taken whole before a rest that starts with another character. -/

/-- A text that a reader of the class `p` takes nothing of. -/
def Stops (p : Char → Bool) (cs : List Char) : Prop := ∀ c ∈ cs.head?, p c = false

@[simp] theorem stops_nil (p : Char → Bool) : Stops p [] := by simp [Stops]

@[simp] theorem stops_cons {p : Char → Bool} {c : Char} {cs : List Char} :
    Stops p (c :: cs) ↔ p c = false := by simp [Stops]

/-- **A text of the class is taken whole** before a rest that stops it. -/
theorem takeWhile_append_of_stops {p : Char → Bool} {a b : List Char} (ha : ∀ c ∈ a, p c)
    (hb : Stops p b) : (a ++ b).takeWhile p = a := by
  rw [List.takeWhile_append_of_pos ha]
  cases b with
  | nil => simp
  | cons c b => simp [stops_cons.mp hb]

/-- What is left then is the rest. -/
theorem dropWhile_append_of_stops {p : Char → Bool} {a b : List Char} (ha : ∀ c ∈ a, p c)
    (hb : Stops p b) : (a ++ b).dropWhile p = b := by
  rw [List.dropWhile_append_of_pos ha]
  cases b with
  | nil => rfl
  | cons c b => simp [stops_cons.mp hb]

/-- What a reader leaves stops it. -/
theorem stops_dropWhile (p : Char → Bool) (cs : List Char) : Stops p (cs.dropWhile p) := by
  intro c hc
  have h := List.head?_dropWhile_not p cs
  rw [Option.mem_def.mp hc] at h
  simpa using h

/-! ## Blanks at the ends

Trimming takes blanks from the ends and keeps what is between them; all that follows comes from the
two ends of a text that starts and ends without a blank (`trim_of_ends`). -/

theorem trimStart_of_stops {cs : List Char} (h : Stops isBlank cs) : trimStart cs = cs :=
  dropWhile_append_of_stops (a := []) (by simp) h

/-- **Trimming the end goes no further than a character that is no blank.** -/
theorem trimEnd_append_cons (a b : List Char) {c : Char} (hc : isBlank c = false) :
    trimEnd (a ++ c :: b) = a ++ c :: trimEnd b := by
  have hrev : (a ++ c :: b).reverse = b.reverse ++ c :: a.reverse := by simp
  rw [trimEnd, trimStart, hrev, List.dropWhile_append]
  split
  · next h =>
    have hb : trimEnd b = [] := by
      simpa [trimEnd, trimStart] using h
    simp [hb, hc]
  · simp [trimEnd, trimStart]

/-- A text that starts without a blank is trimmed behind a character that is none. -/
theorem trim_append_cons {a b : List Char} {c : Char} (ha : Stops isBlank (a ++ [c]))
    (hc : isBlank c = false) : trim (a ++ c :: b) = a ++ c :: trimEnd b := by
  have hstart : Stops isBlank (a ++ c :: b) := by
    cases a with
    | nil => simpa using hc
    | cons x a => simpa using ha
  rw [trim, trimStart_of_stops hstart, trimEnd_append_cons a b hc]

/-- Trimming a text with a character in it that is no blank trims the start of what is before and
the end of what follows. -/
theorem trim_append_cons_eq (a b : List Char) {c : Char} (hc : isBlank c = false) :
    trim (a ++ c :: b) = trimStart a ++ c :: trimEnd b := by
  have hstart : trimStart (a ++ c :: b) = trimStart a ++ c :: b := by
    rw [trimStart, List.dropWhile_append]
    split
    · next h => simp [trimStart, List.isEmpty_iff.mp h, hc]
    · rfl
  rw [trim, hstart, trimEnd_append_cons _ _ hc]

/-- A text is blank all over, or has a first character that is not. -/
theorem blank_or_exists (cs : List Char) :
    (∀ c ∈ cs, isBlank c) ∨
      ∃ a c b, cs = a ++ c :: b ∧ (∀ x ∈ a, isBlank x) ∧ isBlank c = false := by
  rcases hd : cs.dropWhile isBlank with _ | ⟨c, b⟩
  · left
    exact List.dropWhile_eq_nil_iff.mp hd
  · right
    have hc := stops_dropWhile isBlank cs
    rw [hd, stops_cons] at hc
    refine ⟨cs.takeWhile isBlank, c, b, ?_, fun _ => List.mem_takeWhile_imp, hc⟩
    rw [← hd, List.takeWhile_append_dropWhile]

theorem trimStart_of_blank {cs : List Char} (h : ∀ c ∈ cs, isBlank c) : trimStart cs = [] :=
  List.dropWhile_eq_nil_iff.mpr h

theorem trimEnd_of_blank {cs : List Char} (h : ∀ c ∈ cs, isBlank c) : trimEnd cs = [] := by
  rw [trimEnd, trimStart_of_blank (by simpa using h), List.reverse_nil]

theorem trim_of_blank {cs : List Char} (h : ∀ c ∈ cs, isBlank c) : trim cs = [] := by
  rw [trim, trimStart_of_blank h]
  rfl

/-- **The blanks before the first other character and those after the last are what goes.** -/
theorem trim_blank_append_cons {a b : List Char} {c : Char} (ha : ∀ x ∈ a, isBlank x)
    (hc : isBlank c = false) : trim (a ++ c :: b) = c :: trimEnd b := by
  have hstart : trimStart (a ++ c :: b) = c :: b := dropWhile_append_of_stops ha (by simpa using hc)
  rw [trim, hstart]
  exact trimEnd_append_cons [] b hc

theorem trimEnd_trimEnd (cs : List Char) : trimEnd (trimEnd cs) = trimEnd cs := by
  have h : Stops isBlank (trimStart cs.reverse) := stops_dropWhile isBlank cs.reverse
  rw [trimEnd, trimEnd, List.reverse_reverse, trimStart_of_stops h]

theorem trimEnd_of_trim {cs : List Char} (h : trim cs = cs) : trimEnd cs = cs := by
  rw [← h, trim, trimEnd_trimEnd]

/-- Blanks behind a text do not count at its end. -/
theorem trimEnd_append_blank (cs : List Char) {blanks : List Char} (h : ∀ c ∈ blanks, isBlank c) :
    trimEnd (cs ++ blanks) = trimEnd cs := by
  have hrev : ∀ c ∈ blanks.reverse, isBlank c := by simpa using h
  rw [trimEnd, trimStart, List.reverse_append, List.dropWhile_append_of_pos hrev]
  rfl

/-- **Blanks around a text make no difference to what trimming leaves of it.** -/
theorem trim_padded (cs : List Char) {before after : List Char} (hbefore : ∀ c ∈ before, isBlank c)
    (hafter : ∀ c ∈ after, isBlank c) : trim (before ++ cs ++ after) = trim cs := by
  rcases blank_or_exists cs with h | ⟨a, c, b, rfl, ha, hc⟩
  · rw [trim_of_blank h, trim_of_blank]
    intro c hmem
    simp only [List.mem_append] at hmem
    rcases hmem with (hmem | hmem) | hmem
    · exact hbefore c hmem
    · exact h c hmem
    · exact hafter c hmem
  · have hshape : before ++ (a ++ c :: b) ++ after = before ++ a ++ c :: (b ++ after) := by simp
    have hfront : ∀ x ∈ before ++ a, isBlank x := fun x hx =>
      (List.mem_append.mp hx).elim (hbefore x) (ha x)
    rw [hshape, trim_blank_append_cons hfront hc, trim_blank_append_cons ha hc,
      trimEnd_append_blank b hafter]

theorem trim_blank_append {blanks : List Char} (h : ∀ c ∈ blanks, isBlank c) (cs : List Char) :
    trim (blanks ++ cs) = trim cs := by
  have hpadded := trim_padded cs h (nofun : ∀ c ∈ [], isBlank c)
  rwa [List.append_nil] at hpadded

theorem exists_trimEnd_append (cs : List Char) : ∃ blanks, cs = trimEnd cs ++ blanks := by
  obtain ⟨front, hfront⟩ := List.dropWhile_suffix (l := cs.reverse) isBlank
  refine ⟨front.reverse, ?_⟩
  rw [trimEnd, trimStart, ← List.reverse_append, hfront, List.reverse_reverse]

theorem trimStart_isSuffix (cs : List Char) : trimStart cs <:+ cs := List.dropWhile_suffix isBlank

theorem trimEnd_isPrefix (cs : List Char) : trimEnd cs <+: cs := by
  obtain ⟨blanks, hblanks⟩ := exists_trimEnd_append cs
  exact ⟨blanks, hblanks.symm⟩

/-- **What is trimmed are blanks before and blanks after.** -/
theorem exists_trim_append (cs : List Char) :
    ∃ before after, cs = before ++ trim cs ++ after ∧ ∀ c ∈ before ++ after, isBlank c := by
  have hend : ∀ cs : List Char, trimEnd cs ++ (cs.reverse.takeWhile isBlank).reverse = cs := by
    intro cs
    rw [trimEnd, trimStart, ← List.reverse_append, List.takeWhile_append_dropWhile,
      List.reverse_reverse]
  refine ⟨cs.takeWhile isBlank, ((trimStart cs).reverse.takeWhile isBlank).reverse, ?_, ?_⟩
  · rw [List.append_assoc, trim, hend, trimStart, List.takeWhile_append_dropWhile]
  · intro c hc
    rcases List.mem_append.mp hc with hc | hc
    · exact List.mem_takeWhile_imp hc
    · exact List.mem_takeWhile_imp (List.mem_reverse.mp hc)

/-- The end of a text is that of its last part, unless there is nothing of it. -/
theorem trimEnd_append_eq_self {a b : List Char} (ha : b = [] → trimEnd a = a)
    (hb : trimEnd b = b) : trimEnd (a ++ b) = a ++ b := by
  cases b with
  | nil => simpa using ha rfl
  | cons c b =>
    rcases List.eq_nil_or_concat (c :: b) with hnil | ⟨init, last, hlast⟩
    · exact nomatch hnil
    have hblank : isBlank last = false := by
      rw [hlast, List.concat_eq_append] at hb
      by_contra hblank
      have hone : ∀ x ∈ [last], isBlank x := by simpa using hblank
      have hlength := (trimEnd_isPrefix init).length_le
      rw [trimEnd_append_blank init hone] at hb
      have := congrArg List.length hb
      rw [List.length_append, List.length_singleton] at this
      omega
    rw [hlast, List.concat_eq_append, ← List.append_assoc]
    exact trimEnd_append_cons (a ++ init) [] hblank

/-- **Trimming leaves a text as it is** if it leaves the start of what is before a character and the
end of what follows it. -/
theorem trim_append_cons_eq_self_iff {a b : List Char} {c : Char} (hc : isBlank c = false) :
    trim (a ++ c :: b) = a ++ c :: b ↔ trimStart a = a ∧ trimEnd b = b := by
  rw [trim_append_cons_eq a b hc]
  refine ⟨fun h => ?_, fun ⟨ha, hb⟩ => by rw [ha, hb]⟩
  have ha := (trimStart_isSuffix a).length_le
  have hb := (trimEnd_isPrefix b).length_le
  have hlength := congrArg List.length h
  simp only [List.length_append, List.length_cons] at hlength
  obtain ⟨ha, hb⟩ := List.append_inj h (by omega)
  exact ⟨ha, (List.cons.inj hb).2⟩

theorem mem_of_mem_trim {c : Char} {cs : List Char} (h : c ∈ trim cs) : c ∈ cs :=
  (trimStart_isSuffix cs).subset ((trimEnd_isPrefix (trimStart cs)).subset h)

@[simp] theorem trim_trimStart (cs : List Char) : trim (trimStart cs) = trim cs := by
  have h : Stops isBlank (trimStart cs) := stops_dropWhile isBlank cs
  rw [trim, trimStart_of_stops h, trim]

@[simp] theorem trim_trimEnd (cs : List Char) : trim (trimEnd cs) = trim cs := by
  rcases blank_or_exists cs with h | ⟨a, c, b, rfl, ha, hc⟩
  · rw [trimEnd_of_blank h, trim_of_blank h, trim_nil]
  · rw [trimEnd_append_cons a b hc, trim_blank_append_cons ha hc, trim_blank_append_cons ha hc,
      trimEnd_trimEnd]

/-- **Trimming is done in one step.** -/
@[simp] theorem trim_trim (cs : List Char) : trim (trim cs) = trim cs := by
  rcases blank_or_exists cs with h | ⟨a, c, b, rfl, ha, hc⟩
  · rw [trim_of_blank h, trim_nil]
  · rw [trim_blank_append_cons ha hc]
    exact (trim_blank_append_cons (a := []) (by simp) hc).trans (by rw [trimEnd_trimEnd])

/-- **Nothing goes of a text with no blank at either end.** -/
theorem trim_of_ends {a : List Char} {c : Char} (ha : Stops isBlank (a ++ [c]))
    (hc : isBlank c = false) : trim (a ++ [c]) = a ++ [c] :=
  (trim_append_cons (b := []) ha hc).trans rfl

end Tablature.Text
