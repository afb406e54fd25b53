import Mathlib.Data.List.Induction
import Mathlib.Data.String.Basic
import Tablature.Proofs.Text.Scan

/-!
# Proofs/Text/Split — a text divided at its commas, and put together again

    a,f(b,c),'d,e'   ↦   a   f(b,c)   'd,e'

The one law is `Scan.splitFrom_append`: the last piece of a text goes on into the first piece of
what follows it, which is scanned from where the text leaves the scan.  It decides what becomes of a
comma between two texts: at the top it divides (`split_append_comma`), elsewhere it is one more
character of a piece (`split_append_inner_comma`).

The pieces themselves are whole, since they are scanned from the top, where the comma before them
stood; for the same reason all of them but the last leave a scan at the top
(`run_of_mem_dropLast_split`).  So texts that commas join are told apart again exactly if each of
them but the last leaves a scan at the top (`map_trim_split_iff`).

* `Scan.balance` — parentheses opened less those closed; the depth of a scan is the largest balance
  of an end of the text (`Scan.exists_balance_eq_depth`), which for the empty end is 0;
* `Scan.ranges` — the pieces as ranges of bytes, with both ends between two characters
  (`Scan.isSlice_ranges`).
-/

namespace Tablature.Text

namespace Scan

variable {s : Scan} {c : Char} {cs : List Char}

/-! ## Composition

The last piece of one text and the first of the next are one. -/

/-- The pieces of a text scanned from a given state, as one list. -/
def splitFrom (s : Scan) (cs : List Char) : List (List Char) := (s.pieces cs).1 :: (s.pieces cs).2

theorem splitFrom_ne_nil (s : Scan) (cs : List Char) : s.splitFrom cs ≠ [] := nofun

@[simp] theorem splitFrom_nil (s : Scan) : s.splitFrom [] = [[]] := rfl

theorem splitFrom_cons_of_cuts (h : s.cuts c = true) :
    s.splitFrom (c :: cs) = [] :: (s.step c).splitFrom cs := by
  simp [splitFrom, pieces, h]

theorem splitFrom_cons (h : s.cuts c = false) :
    s.splitFrom (c :: cs) = ((s.step c).splitFrom cs).modifyHead (c :: ·) := by
  simp [splitFrom, pieces, h]

/-- **The last piece of a text goes on into the first piece of what follows it.** -/
theorem splitFrom_append (s : Scan) (a b : List Char) :
    s.splitFrom (a ++ b) = (s.splitFrom a).dropLast ++
      ((s.run a).splitFrom b).modifyHead ((s.splitFrom a).getLast (s.splitFrom_ne_nil a) ++ ·) := by
  induction a generalizing s with
  | nil => rfl
  | cons c a ih =>
    have hne := (s.step c).splitFrom_ne_nil a
    cases hc : s.cuts c with
    | true =>
      simp only [List.cons_append, splitFrom_cons_of_cuts hc, run_cons, ih,
        List.dropLast_cons_of_ne_nil hne, List.getLast_cons hne]
    | false =>
      simp only [List.cons_append, splitFrom_cons hc, run_cons, ih]
      obtain ⟨p, ps, hp⟩ := List.exists_cons_of_ne_nil hne
      obtain ⟨q, qs, hq⟩ := List.exists_cons_of_ne_nil (((s.step c).run a).splitFrom_ne_nil b)
      simp only [hp, hq]
      -- the character goes in front of the first piece, which may be the last one too
      cases ps with
      | nil => simp
      | cons r rs => simp

/-! ## The pieces of a text -/

/-- Nothing of a text is lost. -/
theorem pieces_fst_append_commaTexts (s : Scan) (cs : List Char) :
    (s.pieces cs).1 ++ commaTexts (s.pieces cs).2 = cs := by
  induction cs generalizing s with
  | nil => rfl
  | cons c cs ih =>
    cases hc : s.cuts c with
    | true =>
      have hcomma : c = ',' := by
        simp only [cuts, Bool.and_eq_true, beq_iff_eq] at hc
        exact hc.2
      simp only [pieces, hc, if_true, List.nil_append, commaTexts_cons, ih]
      rw [hcomma]
    | false => simp [pieces, hc, ih]

theorem step_eq_top_of_cuts (h : s.cuts c = true) : s = top ∧ s.step c = top := by
  simp only [cuts, Bool.and_eq_true, beq_iff_eq] at h
  obtain ⟨rfl, rfl⟩ := h
  exact ⟨rfl, rfl⟩

/-- **No piece has a cut**: the first none from where the text is scanned, the others none from the
top. -/
theorem uncut_pieces (s : Scan) (cs : List Char) :
    (s.pieces (s.pieces cs).1).2 = [] ∧ ∀ p ∈ (s.pieces cs).2, (top.pieces p).2 = [] := by
  induction cs generalizing s with
  | nil => exact ⟨rfl, nofun⟩
  | cons c cs ih =>
    obtain ⟨hfirst, hothers⟩ := ih (s.step c)
    cases hc : s.cuts c with
    | true =>
      simp only [pieces, hc, if_true, List.mem_cons, forall_eq_or_imp]
      rw [(step_eq_top_of_cuts hc).2] at hfirst hothers ⊢
      exact ⟨trivial, hfirst, hothers⟩
    | false =>
      simp only [pieces, hc, Bool.false_eq_true, if_false]
      exact ⟨hfirst, hothers⟩

/-- **All pieces but the last leave a scan at the top, and the last leaves it where the text
does.** -/
theorem run_pieces (s : Scan) (cs : List Char) :
    ((s.pieces cs).2 = [] ∧ s.run (s.pieces cs).1 = s.run cs) ∨
      ∃ init last, (s.pieces cs).2 = init ++ [last] ∧ s.run (s.pieces cs).1 = top ∧
        (∀ p ∈ init, top.run p = top) ∧ top.run last = s.run cs := by
  induction cs generalizing s with
  | nil => exact .inl ⟨rfl, rfl⟩
  | cons c cs ih =>
    cases hc : s.cuts c with
    | true =>
      obtain ⟨rfl, hstep⟩ := step_eq_top_of_cuts hc
      right
      simp only [pieces, hc, if_true, run_cons, run_nil, hstep, true_and]
      rcases ih top with ⟨hnil, hrun⟩ | ⟨init, last, hsplit, hfirst, hinit, hrun⟩
      · exact ⟨[], _, by rw [hnil]; rfl, List.forall_mem_nil _, hrun⟩
      · exact ⟨_ :: init, last, by rw [hsplit]; rfl, List.forall_mem_cons.mpr ⟨hfirst, hinit⟩, hrun⟩
    | false =>
      simp only [pieces, hc, Bool.false_eq_true, if_false, run_cons]
      exact ih (s.step c)

end Scan

/-- What `List.intercalate` puts between texts is what `commaTexts` puts before each but the
first. -/
theorem intercalate_comma (t : List Char) (ts : List (List Char)) :
    [','].intercalate (t :: ts) = t ++ Scan.commaTexts ts := by
  induction ts generalizing t with
  | nil => simp
  | cons u us ih => simp [List.intercalate_cons_cons, ih]

theorem split_ne_nil (cs : List Char) : split cs ≠ [] := nofun

/-- **Commas between the pieces of a text give it back.** -/
theorem intercalate_split (cs : List Char) : [','].intercalate (split cs) = cs :=
  (intercalate_comma _ _).trans (Scan.top.pieces_fst_append_commaTexts cs)

theorem split_eq_singleton_iff {cs : List Char} :
    split cs = [cs] ↔ (Scan.top.pieces cs).2 = [] := by
  refine ⟨fun h => (List.cons.inj h).2, fun h => ?_⟩
  rw [split, Scan.pieces_eq_of_uncut h]

/-- **Whole texts that leave a scan at the top, each but the last, are the pieces** of what commas
make of them. -/
theorem split_intercalate {texts : List (List Char)} (hne : texts ≠ [])
    (hwhole : ∀ t ∈ texts, split t = [t])
    (htop : ∀ t ∈ texts.dropLast, Scan.top.run t = Scan.top) :
    split ([','].intercalate texts) = texts := by
  obtain ⟨t, ts, rfl⟩ := List.exists_cons_of_ne_nil hne
  have huncut : ∀ u ∈ t :: ts, (Scan.top.pieces u).2 = [] := fun u hu =>
    split_eq_singleton_iff.mp (hwhole u hu)
  rw [intercalate_comma, split, Scan.pieces_append_commaTexts (huncut t List.mem_cons_self)
    (fun u hu => huncut u (List.mem_cons_of_mem t hu)) htop]

/-- **A piece is its own only piece.** -/
theorem split_of_mem_split {cs p : List Char} (h : p ∈ split cs) : split p = [p] := by
  obtain ⟨hfirst, hothers⟩ := Scan.top.uncut_pieces cs
  rw [split_eq_singleton_iff]
  rcases List.mem_cons.mp h with rfl | h
  · exact hfirst
  · exact hothers p h

/-- **The last piece leaves a scan where the text does.** -/
theorem run_getLast_split (cs : List Char) :
    Scan.top.run ((split cs).getLast (split_ne_nil cs)) = Scan.top.run cs := by
  rcases Scan.top.run_pieces cs with ⟨hnil, hrun⟩ | ⟨init, last, hsplit, -, -, hrun⟩
  · simpa [split, hnil] using hrun
  · simpa [split, hsplit] using hrun

/-- **The pieces before the last leave a scan at the top.** -/
theorem run_of_mem_dropLast_split {cs p : List Char} (h : p ∈ (split cs).dropLast) :
    Scan.top.run p = Scan.top := by
  rcases Scan.top.run_pieces cs with ⟨hnil, -⟩ | ⟨init, last, hsplit, hfirst, hinit, -⟩
  · simp [split, hnil] at h
  · rw [split, hsplit, ← List.cons_append, List.dropLast_concat] at h
    rcases List.mem_cons.mp h with rfl | h
    · exact hfirst
    · exact hinit p h

/-- So do all pieces of a text that does. -/
theorem run_of_mem_split {cs p : List Char} (hcs : Scan.top.run cs = Scan.top) (h : p ∈ split cs) :
    Scan.top.run p = Scan.top := by
  rw [← List.dropLast_concat_getLast (split_ne_nil cs)] at h
  rcases List.mem_append.mp h with h | h
  · exact run_of_mem_dropLast_split h
  · rw [List.mem_singleton.mp h, run_getLast_split, hcs]

/-! ## A comma between two texts

What a comma does depends on the first text alone, and on where it leaves the scan. -/

/-- **At the top a comma divides**, and the texts on both sides are divided by themselves. -/
theorem split_append_comma {a : List Char} (h : Scan.top.run a = Scan.top) (b : List Char) :
    split (a ++ ',' :: b) = split a ++ split b := by
  have hcut : Scan.top.cuts ',' = true := by decide
  have hstep : Scan.top.step ',' = Scan.top := by decide
  have hcomma : Scan.top.splitFrom (',' :: b) = [] :: split b := by
    rw [Scan.splitFrom_cons_of_cuts hcut, hstep]
    rfl
  calc split (a ++ ',' :: b)
      = (split a).dropLast ++ (Scan.top.splitFrom (',' :: b)).modifyHead
          ((split a).getLast (split_ne_nil a) ++ ·) := by
        rw [← h]
        exact Scan.top.splitFrom_append a (',' :: b)
    _ = (split a).dropLast ++ [(split a).getLast (split_ne_nil a)] ++ split b := by
        simp [hcomma]
    _ = split a ++ split b := by rw [List.dropLast_concat_getLast]

/-- **Elsewhere it does not**: the last piece of the text before the comma goes on with it. -/
theorem split_append_inner_comma {a : List Char} (h : Scan.top.run a ≠ Scan.top) (b : List Char) :
    ∃ x rest, split (a ++ ',' :: b) =
      (split a).dropLast ++ ((split a).getLast (split_ne_nil a) ++ ',' :: x) :: rest := by
  have hcut : (Scan.top.run a).cuts ',' = false := by simp [Scan.cuts, h]
  refine ⟨(((Scan.top.run a).step ',').pieces b).1, (((Scan.top.run a).step ',').pieces b).2, ?_⟩
  refine (Scan.top.splitFrom_append a (',' :: b)).trans ?_
  rw [Scan.splitFrom_cons hcut]
  rfl

/-- Blanks in front of a text are blanks in front of its first piece. -/
theorem map_trim_split_blank_append {blanks : List Char} (h : ∀ c ∈ blanks, isBlank c)
    (cs : List Char) : (split (blanks ++ cs)).map trim = (split cs).map trim := by
  have hinert := Scan.inert_of_blank h
  rw [split, split, Scan.pieces_append (hinert.uncut _), hinert.still _ Scan.sound_top,
    List.map_cons, List.map_cons, trim_blank_append h]

/-- A text with a comma more is longer, however it is trimmed. -/
theorem trim_append_comma_ne (a b : List Char) : trim (a ++ ',' :: b) ≠ trim a := by
  intro h
  have hle := (trimEnd_isPrefix (trimStart a)).length_le
  rw [trim_append_cons_eq a b (by decide), trim] at h
  have hlength := congrArg List.length h
  rw [List.length_append, List.length_cons] at hlength
  omega

/-- **Texts that commas join are told apart**, blanks after the commas aside, exactly if each but
the last leaves a scan at the top. -/
theorem map_trim_split_iff {sep : List Char} (hsep : ∀ c ∈ sep, isBlank c)
    {texts : List (List Char)} (hne : texts ≠ []) (h : ∀ t ∈ texts, (Scan.top.pieces t).2 = []) :
    (split ((',' :: sep).intercalate texts)).map trim = texts.map trim ↔
      ∀ t ∈ texts.dropLast, Scan.top.run t = Scan.top := by
  induction texts with
  | nil => exact absurd rfl hne
  | cons t ts ih =>
    have ht : split t = [t] := split_eq_singleton_iff.mpr (h t List.mem_cons_self)
    cases ts with
    | nil => simp [ht]
    | cons u us =>
      have hshape : (',' :: sep).intercalate (t :: u :: us) =
          t ++ ',' :: (sep ++ (',' :: sep).intercalate (u :: us)) := by
        rw [List.intercalate_cons_cons, List.append_assoc, List.cons_append]
      rw [hshape, List.dropLast_cons_of_ne_nil (by simp), List.forall_mem_cons]
      by_cases htop : Scan.top.run t = Scan.top
      · rw [split_append_comma htop, ht, List.singleton_append, List.map_cons, List.map_cons,
          List.cons_inj_right, map_trim_split_blank_append hsep,
          ih (by simp) fun x hx => h x (List.mem_cons_of_mem t hx), and_iff_right htop]
      · obtain ⟨x, rest, hx⟩ := split_append_inner_comma htop
          (sep ++ (',' :: sep).intercalate (u :: us))
        simp only [ht, List.dropLast_singleton, List.nil_append, List.getLast_singleton] at hx
        -- the first piece goes on past the comma
        refine iff_of_false (fun heq => ?_) fun hall => htop hall.1
        rw [hx] at heq
        exact trim_append_comma_ne t x (List.cons.inj heq).1

/-! ## Depth

A parenthesis that closes nothing is not counted, so that the depth is not simply the balance. -/

namespace Scan

/-- What a character adds to the open parentheses: nothing inside quotes. -/
def rise (s : Scan) (c : Char) : ℤ :=
  match s.quote with
  | some _ => 0
  | none => if c = '(' then 1 else if c = ')' then -1 else 0

/-- The parentheses that a text opens outside quotes, less those that it closes. -/
def balance : Scan → List Char → ℤ
  | _, [] => 0
  | s, c :: cs => s.rise c + (s.step c).balance cs

theorem balance_append (s : Scan) (a b : List Char) :
    s.balance (a ++ b) = s.balance a + (s.run a).balance b := by
  induction a generalizing s with
  | nil => simp [balance]
  | cons c a ih =>
    simp only [List.cons_append, balance, ih, run_cons]
    omega

/-- **One step**: the depth follows the balance, but not below 0. -/
theorem depth_step (s : Scan) (c : Char) : ((s.step c).depth : ℤ) = max 0 (s.depth + s.rise c) := by
  obtain ⟨quote, depth⟩ := s
  cases quote with
  | some q => by_cases hq : c = q <;> simp [step, rise, hq]
  | none =>
    by_cases hquote : c = '\'' ∨ c = '"'
    · rcases hquote with rfl | rfl <;> simp [step, rise]
    by_cases hopen : c = '('
    · subst hopen
      change ((depth + 1 : ℕ) : ℤ) = max 0 ((depth : ℤ) + 1)
      omega
    by_cases hclose : c = ')'
    · subst hclose
      change ((depth - 1 : ℕ) : ℤ) = max 0 ((depth : ℤ) + -1)
      omega
    simp [step, rise, hquote, hopen, hclose]

/-- No end of a text rises higher than the scan is deep. -/
theorem add_balance_le_depth (s : Scan) (cs : List Char) :
    s.depth + s.balance cs ≤ (s.run cs).depth := by
  induction cs generalizing s with
  | nil => simp [balance]
  | cons c cs ih =>
    have hrest := ih (s.step c)
    have hstep := s.depth_step c
    rw [run_cons, balance]
    omega

/-- **The depth is the balance of some end of the text**: what goes before does not count, because
a closing parenthesis that finds nothing to close is forgotten. -/
theorem exists_balance_eq_depth (cs : List Char) :
    ∃ a b, cs = a ++ b ∧ (top.run a).balance b = (top.run cs).depth := by
  induction cs using List.reverseRecOn with
  | nil => exact ⟨[], [], rfl, rfl⟩
  | append_singleton cs c ih =>
    obtain ⟨a, b, rfl, hbalance⟩ := ih
    have hstep := (top.run (a ++ b)).depth_step c
    have hrun : top.run (a ++ b ++ [c]) = (top.run (a ++ b)).step c := run_append _ _ _
    by_cases hneg : (top.run (a ++ b)).depth + (top.run (a ++ b)).rise c < 0
    · refine ⟨a ++ b ++ [c], [], by simp, ?_⟩
      rw [hrun, hstep, balance]
      omega
    · refine ⟨a, b ++ [c], by simp, ?_⟩
      have hlast : ((top.run a).run b).balance [c] = (top.run (a ++ b)).rise c := by
        simp [balance, run_append]
      rw [balance_append, hlast, hbalance, hrun, hstep]
      omega

/-! ## Bytes

A piece is a range of the bytes of the text, and both of its ends are boundaries of characters. -/

/-- The pieces of a text as ranges of its bytes. The piece that the scan is in starts at `start`,
and the next character at `i`. -/
def ranges : Scan → Nat → Nat → List Char → List (Nat × Nat)
  | _, start, i, [] => [(start, i)]
  | s, start, i, c :: cs =>
    if s.cuts c then (start, i) :: ranges (s.step c) (i + 1) (i + c.utf8Size) cs
    else ranges (s.step c) start (i + c.utf8Size) cs

end Scan

/-- A range of bytes that begins and ends between two characters of a string, and what it holds. -/
structure IsSlice (s : String) (range : Nat × Nat) (piece : List Char) : Prop where
  start : (⟨range.1⟩ : String.Pos.Raw).IsValid s
  stop : (⟨range.2⟩ : String.Pos.Raw).IsValid s
  extract : String.Pos.Raw.extract s ⟨range.1⟩ ⟨range.2⟩ = String.ofList piece

theorem isValid_utf8Len (a b : List Char) :
    (⟨String.utf8Len a⟩ : String.Pos.Raw).IsValid (String.ofList (a ++ b)) := by
  rw [String.Pos.Raw.isValid_iff_exists_append]
  exact ⟨String.ofList a, String.ofList b, String.ofList_append, by simp⟩

theorem isSlice_append (a piece b : List Char) :
    IsSlice (String.ofList (a ++ piece ++ b)) (String.utf8Len a, String.utf8Len (a ++ piece))
      piece where
  start := by
    rw [List.append_assoc]
    exact isValid_utf8Len a (piece ++ b)
  stop := isValid_utf8Len (a ++ piece) b
  extract := by
    rw [String.utf8Len_append]
    exact String.extract_of_valid a piece b

/-- With `taken` of the piece the scan is in already behind it, and `before` behind that. -/
theorem Scan.isSlice_ranges_append (s : Scan) (before taken cs : List Char) :
    List.Forall₂ (IsSlice (String.ofList (before ++ taken ++ cs)))
      (s.ranges (String.utf8Len before) (String.utf8Len (before ++ taken)) cs)
      ((s.splitFrom cs).modifyHead (taken ++ ·)) := by
  induction cs generalizing s before taken with
  | nil => simpa [ranges] using isSlice_append before taken []
  | cons c cs ih =>
    have hsize : String.utf8Len (before ++ taken) + c.utf8Size =
        String.utf8Len (before ++ taken ++ [c]) := by simp [Nat.add_assoc]
    cases hc : s.cuts c with
    | true =>
      have hcomma : c = ',' := by
        simp only [cuts, Bool.and_eq_true, beq_iff_eq] at hc
        exact hc.2
      have hone : String.utf8Len (before ++ taken) + 1 =
          String.utf8Len (before ++ taken ++ [c]) := by
        rw [← hsize, hcomma]
        rfl
      rw [ranges, if_pos hc, splitFrom_cons_of_cuts hc, hsize, hone]
      refine .cons (by simpa using isSlice_append before taken (c :: cs)) ?_
      have hrest := ih (s.step c) (before ++ taken ++ [c]) []
      have hid : ((s.step c).splitFrom cs).modifyHead ([] ++ ·) = (s.step c).splitFrom cs := rfl
      rw [hid] at hrest
      simpa using hrest
    | false =>
      rw [ranges, hc, splitFrom_cons hc, hsize]
      have hrest := ih (s.step c) before (taken ++ [c])
      simpa [List.modifyHead_modifyHead, Function.comp_def] using hrest

/-- **The pieces of a string are slices of it**, whatever its characters take in bytes. -/
theorem Scan.isSlice_ranges (s : String) :
    List.Forall₂ (IsSlice s) (top.ranges 0 0 s.toList) (split s.toList) := by
  have h := top.isSlice_ranges_append [] [] s.toList
  simpa [splitFrom, split] using h

/-! ## The whole of it -/

/-- **Dividing loses nothing, and agrees with putting texts together.** The pieces of a string give
it back, are whole, and are slices of it; a comma between two texts divides exactly if the first
leaves a scan at the top; and the depth that decides this never falls below 0, where a closing
parenthesis finds nothing to close. -/
theorem split_joins_and_composes :
    (∀ s : String, split s.toList ≠ [] ∧ [','].intercalate (split s.toList) = s.toList ∧
      (∀ p ∈ split s.toList, split p = [p]) ∧
      List.Forall₂ (IsSlice s) (Scan.top.ranges 0 0 s.toList) (split s.toList)) ∧
    (∀ a b, Scan.top.run a = Scan.top → split (a ++ ',' :: b) = split a ++ split b) ∧
    (∀ a b, Scan.top.run a ≠ Scan.top → ∃ x rest, split (a ++ ',' :: b) =
      (split a).dropLast ++ ((split a).getLast (split_ne_nil a) ++ ',' :: x) :: rest) ∧
    ∀ cs, (∀ a b, cs = a ++ b → (Scan.top.run a).balance b ≤ (Scan.top.run cs).depth) ∧
      ∃ a b, cs = a ++ b ∧ (Scan.top.run a).balance b = (Scan.top.run cs).depth := by
  refine ⟨fun s => ⟨split_ne_nil _, intercalate_split _, fun p hp => split_of_mem_split hp,
    Scan.isSlice_ranges s⟩, fun a b h => split_append_comma h b,
    fun a b h => split_append_inner_comma h b, fun cs => ⟨?_, Scan.exists_balance_eq_depth cs⟩⟩
  rintro a b rfl
  have h := (Scan.top.run a).add_balance_le_depth b
  rw [Scan.run_append]
  omega

/-- A text with both kinds of quote and a parenthesis too many, before more of the same; and one
that is left inside a quotation. -/
theorem split_joins_and_composes_prix :
    "'é,\"'".toList ∈ split "prix),'é,\"'".toList ∧ split "'é,\"'".toList = ["'é,\"'".toList] ∧
    Scan.top.run "prix),'é,\"'".toList = Scan.top ∧
    split ("prix),'é,\"'".toList ++ ',' :: "(à,".toList) =
      split "prix),'é,\"'".toList ++ split "(à,".toList ∧
    Scan.top.run "prix,('é".toList ≠ Scan.top ∧
    (∃ x rest, split ("prix,('é".toList ++ ',' :: "à),b".toList) =
      ["prix".toList] ++ ("('é".toList ++ ',' :: x) :: rest) ∧
    "))(".toList = "))".toList ++ "(".toList ∧
    (Scan.top.run "))".toList).balance "(".toList ≤ (Scan.top.run "))(".toList).depth := by
  obtain ⟨hstring, htop, hinner, hdepth⟩ := split_joins_and_composes
  refine ⟨by decide, (hstring "prix),'é,\"'").2.2.1 _ (by decide), by decide,
    htop _ _ (by decide), by decide, hinner _ _ (by decide), by decide,
    (hdepth _).1 _ _ (by decide)⟩

end Tablature.Text
