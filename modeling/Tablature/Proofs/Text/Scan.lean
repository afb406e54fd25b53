import Tablature.Proofs.Text.Blank
import Tablature.Text.Scan

/-!
# Proofs/Text/Scan — which commas divide a text

* `Scan.pieces_append`, `Scan.pieces_append_comma` — a text without a cut is one piece, and the
  comma after it divides exactly when the scan is back at the top;
* `Scan.Still` — the texts that leave every scan where it is, inside quotes or not, and
  `Scan.Inert`, those of them that have no comma either;
* `Scan.Contained` — the texts that a scan takes whole and leaves at the top, which are the pieces
  of what commas join them to, blanks at the end aside (`Scan.exists_pieces_trimEnd`).
-/

namespace Tablature.Text

/-! ## Commas at the top

A scan of a text goes through quotes and parentheses, and a comma divides the text where none of
them is open.  A text that leaves the scan as it was in any sound state can be put anywhere
(`Still`), and if it has no comma at the top either, without dividing anything (`Inert`). -/

namespace Scan

/-- A text without a comma is one piece, wherever its scan starts. -/
theorem pieces_of_no_comma (s : Scan) {cs : List Char} (h : ',' ∉ cs) : s.pieces cs = (cs, []) := by
  induction cs generalizing s with
  | nil => rfl
  | cons c cs ih =>
    have hc : s.cuts c = false := by
      have : c ≠ ',' := fun e => h (by simp [e])
      simp [cuts, this]
    have hcs : ',' ∉ cs := fun e => h (by simp [e])
    simp [pieces, hc, ih (s.step c) hcs]

/-- **A text without a cut only lengthens the first piece** of what follows it. -/
theorem pieces_append {s : Scan} {a : List Char} (ha : (s.pieces a).2 = []) (b : List Char) :
    s.pieces (a ++ b) = (a ++ ((s.run a).pieces b).1, ((s.run a).pieces b).2) := by
  induction a generalizing s with
  | nil => rfl
  | cons c a ih =>
    by_cases hc : s.cuts c = true
    · simp [pieces, hc] at ha
    · simp only [pieces, hc, Bool.false_eq_true, if_false] at ha
      simp only [List.cons_append, pieces, hc, Bool.false_eq_true, if_false, run_cons, ih ha]

theorem pieces_eq_of_uncut {s : Scan} {a : List Char} (ha : (s.pieces a).2 = []) :
    s.pieces a = (a, []) := by
  simpa [pieces] using pieces_append ha []

/-- A text is not divided if neither of its halves is, the second from where the first has left the
scan. -/
theorem uncut_append {s : Scan} {a b : List Char} (ha : (s.pieces a).2 = [])
    (hb : ((s.run a).pieces b).2 = []) : (s.pieces (a ++ b)).2 = [] := by
  rw [pieces_append ha]
  exact hb

/-- The front of a text without a cut has none. -/
theorem uncut_of_append {s : Scan} {a b : List Char} (h : (s.pieces (a ++ b)).2 = []) :
    (s.pieces a).2 = [] := by
  induction a generalizing s with
  | nil => rfl
  | cons c a ih =>
    by_cases hc : s.cuts c = true
    · simp [pieces, hc] at h
    · simp only [List.cons_append, pieces, hc, Bool.false_eq_true, if_false] at h ⊢
      exact ih h

/-- So has its end, from where the front leaves the scan. -/
theorem uncut_right_of_append {s : Scan} {a b : List Char} (h : (s.pieces (a ++ b)).2 = []) :
    ((s.run a).pieces b).2 = [] := by
  rwa [pieces_append (uncut_of_append h)] at h

/-- **A comma divides at the top**: before it the text so far, after it a new scan. -/
theorem pieces_append_comma {a : List Char} (ha : (top.pieces a).2 = []) (htop : top.run a = top)
    (b : List Char) :
    top.pieces (a ++ ',' :: b) = (a, (top.pieces b).1 :: (top.pieces b).2) := by
  rw [pieces_append ha, htop]
  have hcut : top.cuts ',' = true := by decide
  have hstep : top.step ',' = top := by decide
  simp [pieces, hcut, hstep]

/-- **A comma elsewhere stays in the first piece.** -/
theorem pieces_append_inner_comma {a : List Char} (ha : (top.pieces a).2 = [])
    (htop : top.run a ≠ top) (b : List Char) :
    ∃ x, (top.pieces (a ++ ',' :: b)).1 = a ++ ',' :: x := by
  rw [pieces_append ha]
  have hcut : (top.run a).cuts ',' = false := by simp [cuts, htop]
  exact ⟨(((top.run a).step ',').pieces b).1, by simp [pieces, hcut]⟩

/-- A character that neither quotes nor brackets. -/
def isPlain (c : Char) : Bool := c != '\'' && c != '"' && c != '(' && c != ')'

/-- A character is plain if it neither quotes nor is a parenthesis. -/
theorem isPlain_iff {c : Char} :
    isPlain c = true ↔ c ≠ '\'' ∧ c ≠ '"' ∧ c ≠ '(' ∧ c ≠ ')' := by
  simp [isPlain, and_assoc]

/-- Outside quotes, such characters leave a scan where it is. -/
theorem run_of_plain {s : Scan} {cs : List Char} (hs : s.quote = none) (h : ∀ c ∈ cs, isPlain c) :
    s.run cs = s := by
  induction cs with
  | nil => rfl
  | cons c cs ih =>
    have hc : s.step c = s := by
      have := h c (by simp)
      simp only [isPlain, Bool.and_eq_true, bne_iff_ne] at this
      simp [step, hs, this]
    rw [run_cons, hc]
    exact ih fun x hx => h x (by simp [hx])

theorem run_top_of_plain {cs : List Char} (h : ∀ c ∈ cs, isPlain c) : top.run cs = top :=
  run_of_plain rfl h

/-- The character that ends the quotation a scan stands in is one of the two quotes. -/
def Sound (s : Scan) : Prop := ∀ q ∈ s.quote, q = '\'' ∨ q = '"'

theorem sound_top : top.Sound := by simp [Sound, top]

/-- A sound state stays sound with one more character. -/
theorem Sound.step {s : Scan} (hs : s.Sound) (c : Char) : (s.step c).Sound := by
  unfold Scan.step
  split
  · split
    · simp [Sound]
    · exact hs
  · split
    · next hc => simpa [Sound] using hc
    · split
      · exact hs
      · split <;> exact hs

/-- **Every state that a scan reaches from a sound one is sound.** -/
theorem Sound.run {s : Scan} (hs : s.Sound) (cs : List Char) : (s.run cs).Sound := by
  induction cs generalizing s with
  | nil => exact hs
  | cons c cs ih => exact ih (hs.step c)

/-- A quotation goes on until the quote that ends it. -/
theorem run_of_quoted {s : Scan} {q : Char} {cs : List Char} (hs : s.quote = some q)
    (hq : q ∉ cs) : s.run cs = s := by
  induction cs with
  | nil => rfl
  | cons c cs ih =>
    obtain ⟨hc, hcs⟩ := List.ne_and_not_mem_of_not_mem_cons hq
    have hstep : s.step c = s := by simp [Scan.step, hs, hc.symm]
    rw [run_cons, hstep]
    exact ih hcs

/-- A text that leaves every scan where it is, inside quotes and parentheses or not. -/
def Still (cs : List Char) : Prop := ∀ s : Scan, s.Sound → s.run cs = s

/-- Two texts that keep a scan do so together. -/
theorem Still.append {a b : List Char} (ha : Still a) (hb : Still b) : Still (a ++ b) := by
  intro s hs
  rw [run_append, ha s hs, hb s hs]

/-- Quotes aside, a text is still if it leaves a scan outside them where it is. -/
theorem still_of_unquoted {cs : List Char} (hq : '\'' ∉ cs ∧ '"' ∉ cs)
    (h : ∀ s : Scan, s.quote = none → s.run cs = s) : Still cs := by
  intro s hs
  cases hquote : s.quote with
  | none => exact h s hquote
  | some q =>
    refine run_of_quoted hquote ?_
    rcases hs q hquote with rfl | rfl
    · exact hq.1
    · exact hq.2

/-- A plain text keeps a scan. -/
theorem still_of_plain {cs : List Char} (h : ∀ c ∈ cs, isPlain c) : Still cs :=
  still_of_unquoted ⟨fun hm => absurd (h _ hm) (by decide), fun hm => absurd (h _ hm) (by decide)⟩
    fun _ hs => run_of_plain hs h

theorem still_of_blank {cs : List Char} (h : ∀ c ∈ cs, isBlank c) : Still cs := by
  refine still_of_plain fun c hc => isPlain_iff.mpr ⟨?_, ?_, ?_, ?_⟩ <;>
    · rintro rfl
      exact absurd (h _ hc) (by decide)

/-- To trim a text does not change where it leaves a scan. -/
theorem run_trim {s : Scan} (hs : s.Sound) (cs : List Char) : s.run (trim cs) = s.run cs := by
  obtain ⟨before, after, hcs, hblank⟩ := exists_trim_append cs
  have hbefore := still_of_blank fun c hc => hblank c (List.mem_append_left after hc)
  have hafter := still_of_blank fun c hc => hblank c (List.mem_append_right before hc)
  have hrun := congrArg s.run hcs
  rw [run_append, run_append, hbefore s hs, hafter _ (hs.run _)] at hrun
  exact hrun.symm

/-- A text without a cut has none when it is trimmed. -/
theorem uncut_trim {cs : List Char} (h : (top.pieces cs).2 = []) :
    (top.pieces (trim cs)).2 = [] := by
  obtain ⟨before, after, hcs, hblank⟩ := exists_trim_append cs
  have hbefore := still_of_blank fun c hc => hblank c (List.mem_append_left after hc)
  rw [hcs] at h
  have hcut := uncut_right_of_append (uncut_of_append h)
  rwa [hbefore _ sound_top] at hcut

/-- **A parenthesis around a plain text keeps a scan**: what it opens it closes. -/
theorem still_parenthesis {body : List Char} (h : ∀ c ∈ body, isPlain c) :
    Still ('(' :: (body ++ [')'])) := by
  have hquotes : ∀ q : Char, isPlain q = false → q ∉ body := fun q hq hm => by
    simp [h q hm] at hq
  refine still_of_unquoted ?_ fun s hs => ?_
  · simp [hquotes '\'' (by decide), hquotes '"' (by decide)]
  · obtain ⟨quote, depth⟩ := s
    obtain rfl : quote = none := hs
    have hopen : step ⟨none, depth⟩ '(' = ⟨none, depth + 1⟩ := rfl
    have hclose : step ⟨none, depth + 1⟩ ')' = ⟨none, depth⟩ := rfl
    rw [run_cons, hopen, run_append, run_of_plain rfl h, run_cons, hclose, run_nil]

/-- A text that no scan sees anything of: it leaves every scan where it is and has no comma. -/
structure Inert (cs : List Char) : Prop where
  still : Still cs
  comma : ',' ∉ cs

/-- Two inert texts are inert together. -/
theorem Inert.append {a b : List Char} (ha : Inert a) (hb : Inert b) : Inert (a ++ b) :=
  ⟨ha.still.append hb.still, by simp [ha.comma, hb.comma]⟩

theorem Inert.uncut {cs : List Char} (h : Inert cs) (s : Scan) : (s.pieces cs).2 = [] := by
  rw [pieces_of_no_comma s h.comma]

/-- In front of a text it changes nothing: the scan is where it was when the text starts. -/
theorem Inert.run_append {a : List Char} (ha : Inert a) {s : Scan} (hs : s.Sound) (b : List Char) :
    s.run (a ++ b) = s.run b := by
  rw [Scan.run_append, ha.still s hs]

/-- An inert text before another leaves that one as divided as it was. -/
theorem Inert.uncut_append {a b : List Char} (ha : Inert a) {s : Scan} (hs : s.Sound)
    (hb : (s.pieces b).2 = []) : (s.pieces (a ++ b)).2 = [] := by
  refine Scan.uncut_append (ha.uncut s) ?_
  rwa [ha.still s hs]

theorem inert_of_plain {cs : List Char} (h : ∀ c ∈ cs, isPlain c ∧ c ≠ ',') : Inert cs :=
  ⟨still_of_plain fun c hc => (h c hc).1, fun hmem => (h _ hmem).2 rfl⟩

/-- A check of plainness, for texts that are given. -/
theorem inert_of_all {cs : List Char} (h : (cs.all fun c => isPlain c && c != ',') = true) :
    Inert cs :=
  inert_of_plain fun c hc => by simpa using List.all_eq_true.mp h c hc

theorem inert_of_blank {cs : List Char} (h : ∀ c ∈ cs, isBlank c) : Inert cs :=
  ⟨still_of_blank h, fun hmem => absurd (h _ hmem) (by decide)⟩

/-- **A parenthesis around a plain text without a comma is inert.** -/
theorem inert_parenthesis {body : List Char} (h : ∀ c ∈ body, isPlain c ∧ c ≠ ',') :
    Inert ('(' :: (body ++ [')'])) := by
  refine ⟨still_parenthesis fun c hc => (h c hc).1, fun hmem => ?_⟩
  have hbody : ',' ∈ body := by simpa using hmem
  exact (h _ hbody).2 rfl

/-- Texts, each after a comma. -/
def commaTexts (texts : List (List Char)) : List Char := texts.flatMap (',' :: ·)

@[simp] theorem commaTexts_nil : commaTexts [] = [] := rfl

@[simp] theorem commaTexts_cons (t : List Char) (ts : List (List Char)) :
    commaTexts (t :: ts) = ',' :: (t ++ commaTexts ts) := rfl

/-- Attributes are put one behind the other. -/
theorem commaTexts_append (ts ts' : List (List Char)) :
    commaTexts (ts ++ ts') = commaTexts ts ++ commaTexts ts' :=
  List.flatMap_append

/-- **Texts after commas are the pieces**, if the scan is back at the top after each but the
last. -/
theorem pieces_append_commaTexts {a : List Char} {texts : List (List Char)}
    (ha : (top.pieces a).2 = []) (htexts : ∀ t ∈ texts, (top.pieces t).2 = [])
    (htop : ∀ t ∈ (a :: texts).dropLast, top.run t = top) :
    top.pieces (a ++ commaTexts texts) = (a, texts) := by
  induction texts generalizing a with
  | nil => simpa using pieces_eq_of_uncut ha
  | cons t ts ih =>
    have hrun : top.run a = top := htop a (by simp)
    have hrest : top.pieces (t ++ commaTexts ts) = (t, ts) := by
      refine ih (htexts t (by simp)) (fun x hx => htexts x (by simp [hx])) fun x hx => htop x ?_
      rw [List.dropLast_cons_of_ne_nil (by simp)]
      exact List.mem_cons_of_mem a hx
    rw [commaTexts_cons, pieces_append_comma ha hrun, hrest]

/-- Under a parenthesis that is not closed nothing is cut, and it stays open. -/
theorem uncut_of_unclosed {s : Scan} {cs : List Char} (hs : 0 < s.depth) (h : ')' ∉ cs) :
    (s.pieces cs).2 = [] ∧ 0 < (s.run cs).depth := by
  induction cs generalizing s with
  | nil => exact ⟨rfl, hs⟩
  | cons c cs ih =>
    have hc : s.cuts c = false := by
      have : s ≠ top := fun e => by simp [e, top] at hs
      simp [cuts, this]
    have hstep : 0 < (s.step c).depth := by
      have : c ≠ ')' := fun e => h (by simp [e])
      unfold step
      split
      · split <;> exact hs
      · simp only [this, if_false]
        split
        · exact hs
        · split
          · exact Nat.succ_pos _
          · exact hs
    simpa [pieces, hc] using ih hstep fun e => h (by simp [e])

/-! ## Contained texts

A text that is not divided and leaves nothing open can be written between commas: it comes back as
one piece, up to the blanks at its end. -/

/-- A text that no comma divides and that leaves no quote and no parenthesis open. -/
structure Contained (cs : List Char) : Prop where
  uncut : (top.pieces cs).2 = []
  run : top.run cs = top

/-- Two contained texts are contained together. -/
theorem Contained.append {a b : List Char} (ha : Contained a) (hb : Contained b) :
    Contained (a ++ b) := by
  refine ⟨uncut_append ha.uncut ?_, ?_⟩
  · rw [ha.run]
    exact hb.uncut
  · rw [run_append, ha.run, hb.run]

theorem contained_of_plain {cs : List Char} (h : ∀ c ∈ cs, isPlain c) (hcomma : ',' ∉ cs) :
    Contained cs := by
  refine ⟨?_, run_top_of_plain h⟩
  rw [pieces_of_no_comma top hcomma]

/-- A parenthesis is contained, commas in it or not, if nothing in it quotes or brackets. -/
theorem contained_parenthesis {body : List Char} (h : ∀ c ∈ body, isPlain c) :
    Contained ('(' :: (body ++ [')'])) := by
  have hclose : ')' ∉ body := fun hmem => absurd (h _ hmem) (by decide)
  have hcut : top.cuts '(' = false := by decide
  have hopen : 0 < (top.step '(').depth := by decide
  constructor
  · simp only [pieces, hcut, Bool.false_eq_true, if_false]
    refine uncut_append (uncut_of_unclosed hopen hclose).1 ?_
    rw [pieces_of_no_comma _ (by decide)]
  · rw [run_cons, run_append, run_of_plain (by decide) h]
    decide

/-- A contained text is not divided, trimmed or not. -/
theorem uncut_trimEnd {cs : List Char} (h : Contained cs) : (top.pieces (trimEnd cs)).2 = [] := by
  obtain ⟨blanks, hblanks⟩ := exists_trimEnd_append cs
  exact uncut_of_append (hblanks ▸ h.uncut)

/-- **Contained texts after commas are the pieces**, also when the end is trimmed: then the last of
them has lost the blanks at its end. -/
theorem exists_pieces_trimEnd {a : List Char} {texts : List (List Char)} (ha : Contained a)
    (htexts : ∀ t ∈ texts, Contained t) :
    ∃ first others, top.pieces (trimEnd (a ++ commaTexts texts)) = (first, others) ∧
      (first = a ∨ first = trimEnd a) ∧ others.map trim = texts.map trim := by
  rcases List.eq_nil_or_concat texts with rfl | ⟨init, t, rfl⟩
  · refine ⟨trimEnd a, [], ?_, .inr rfl, rfl⟩
    rw [commaTexts_nil, List.append_nil]
    exact pieces_eq_of_uncut (uncut_trimEnd ha)
  · rw [List.concat_eq_append] at htexts ⊢
    have htrim : trimEnd (a ++ commaTexts (init ++ [t])) =
        a ++ commaTexts (init ++ [trimEnd t]) := by
      have := trimEnd_append_cons (a ++ commaTexts init) t (c := ',') (by decide)
      simpa [commaTexts_append] using this
    refine ⟨a, init ++ [trimEnd t], ?_, .inl rfl, by simp⟩
    rw [htrim]
    refine pieces_append_commaTexts ha.uncut (fun x hx => ?_) fun x hx => ?_
    · rcases List.mem_append.mp hx with hx | hx
      · exact (htexts x (by simp [hx])).uncut
      · rw [List.mem_singleton.mp hx]
        exact uncut_trimEnd (htexts t (by simp))
    · rw [← List.cons_append, List.dropLast_concat] at hx
      rcases List.mem_cons.mp hx with rfl | hx
      · exact ha.run
      · exact (htexts x (by simp [hx])).run

end Scan

end Tablature.Text
