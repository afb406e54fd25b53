import Tablature.Proofs.Field.Head

/-!
# Proofs/Field/Reading — a text has one head at most, and when it has one

Definitions are read greedily, so that a text starts with one definition at most that a rest stops
(`definitionText_unique`).  From this follow

* `headText_before_comma` and `headText_arrow_before_comma` — a head that starts with a definition,
  perhaps with an arrow and a target, and then a comma, is these and nothing more;
* `exists_headText_iff` and `exists_headText_arrow_iff` — which definitions make a head, alone and
  before a target.
-/

namespace Tablature

open Text (Stops stops_cons stops_nil)

namespace Field

/-! ## One reading

What a token goes on with after its head is a comma, if anything.  A comma stops a definition and a
target, so a text that starts with one has no head beyond it. -/

/-- The end of a token, or a comma and more. -/
def CommaOrEnd (rest : List Char) : Prop := rest = [] ∨ ∃ cs, rest = ',' :: cs

/-- A comma stops every reader of a class that it is not in. -/
theorem CommaOrEnd.stops {p : Char → Bool} (hp : p ',' = false) {rest : List Char}
    (h : CommaOrEnd rest) : Stops p rest := by
  rcases h with rfl | ⟨cs, rfl⟩
  · exact stops_nil p
  · exact stops_cons.mpr hp

/-- **A text starts with one definition**, if each is before a rest that stops it. -/
theorem definitionText_unique {d d' : Definition} {text text' rest rest' : List Char}
    (h : DefinitionText d text) (h' : DefinitionText d' text')
    (hr : Stops definitionGoesOn rest) (hr' : Stops definitionGoesOn rest')
    (he : text ++ rest = text' ++ rest') : d = d' ∧ text = text' ∧ rest = rest' := by
  have hread := readDefinition_append h hr
  rw [he, readDefinition_append h' hr'] at hread
  obtain ⟨rfl, rfl⟩ := Prod.mk.inj (Option.some.inj hread)
  exact ⟨rfl, List.append_cancel_right he, rfl⟩

/-- What an arrow leaves to its left is before a rest that stops a definition. -/
theorem ArrowCut.exists_rest {text left right : List Char} (h : ArrowCut text left right) :
    ∃ rest, text = left ++ rest ∧ Stops definitionGoesOn rest ∧
      (rest = '-' :: '>' :: right ∨ rest = '>' :: right) := by
  cases h with
  | long => exact ⟨_, rfl, stops_cons.mpr (by decide), .inl rfl⟩
  | short => exact ⟨_, rfl, stops_cons.mpr (by decide), .inr rfl⟩

/-- Left of the cut there is no `->`. -/
theorem ArrowCut.not_infix_left {text left right : List Char} (h : ArrowCut text left right) :
    ¬ ['-', '>'] <:+: left := by
  cases h with
  | long hl => exact hl
  | short ht => exact fun hinf => ht (hinf.trans (List.prefix_append left _).isInfix)

/-- **A head that starts with a definition and then a comma is that definition and no more.** -/
theorem headText_before_comma {d : Definition} {text rest : List Char} {head : Head}
    (hd : DefinitionText d text) (hr : CommaOrEnd rest) (h : HeadText (text ++ rest) head) :
    rest = [] ∧ head.name = String.ofList d.name ∧ head.constraints = .ofFlags d.flags ∧
      ((d.typeName = none ∧ head.storage = none ∧ head.reference = none) ∨
        (∃ type, d.typeName = some type ∧ (∀ body, ¬ InlineType type body) ∧
          head.storage = some (.ofAlias type) ∧ head.reference = none) ∨
        ∃ type body names, d.typeName = some type ∧ InlineType type body ∧
          InlineText names (Text.trim body) ∧ head.storage = some .integer ∧
          head.reference = some (referenceOf names)) := by
  have hstop : Stops definitionGoesOn rest := hr.stops (by decide)
  have huniq : ∀ d', DefinitionText d' (text ++ rest) → d' = d ∧ rest = [] := by
    intro d' hd'
    obtain ⟨rfl, -, hnil⟩ := definitionText_unique hd' hd (stops_nil _) hstop (List.append_nil _)
    exact ⟨rfl, hnil.symm⟩
  cases h with
  | untyped _ hd' ht =>
    obtain ⟨rfl, hnil⟩ := huniq _ hd'
    exact ⟨hnil, rfl, rfl, .inl ⟨ht, rfl, rfl⟩⟩
  | typed _ hd' ht hi =>
    obtain ⟨rfl, hnil⟩ := huniq _ hd'
    exact ⟨hnil, rfl, rfl, .inr (.inl ⟨_, ht, hi, rfl, rfl⟩)⟩
  | inline _ hd' ht hi hn =>
    obtain ⟨rfl, hnil⟩ := huniq _ hd'
    exact ⟨hnil, rfl, rfl, .inr (.inr ⟨_, _, _, ht, hi, hn, rfl, rfl⟩)⟩
  | arrow ha hd' =>
    -- the arrow would have to stand where the comma is
    obtain ⟨rest', he, hstop', hrest'⟩ := ha.exists_rest
    obtain ⟨-, -, rfl⟩ := definitionText_unique hd hd' hstop hstop' he
    rcases hr with rfl | ⟨cs, rfl⟩ <;> rcases hrest' with h | h <;> simp at h

/-- A target has no blank at either end, so that trimming it with a comma and more after it leaves
it and the comma. -/
theorem trim_target_append {names : List Char × Option (List Char)} {target rest : List Char}
    (hn : TargetText names target) (hr : CommaOrEnd rest) :
    ∃ rest', CommaOrEnd rest' ∧ (rest' = [] → rest = []) ∧
      Text.trim (target ++ rest) = target ++ rest' := by
  have hstart : ∀ cs, Stops Text.isBlank (target ++ cs) := by
    intro cs
    obtain ⟨c, cs', hc, hblank⟩ := hn.exists_cons
    rw [hc]
    exact stops_cons.mpr hblank
  rcases hr with rfl | ⟨cs, rfl⟩
  · refine ⟨[], .inl rfl, fun _ => rfl, ?_⟩
    rw [List.append_nil]
    exact hn.trim_eq (List.forall_mem_singleton.mpr (by decide))
  · refine ⟨',' :: Text.trimEnd cs, .inr ⟨_, rfl⟩, nofun, ?_⟩
    exact Text.trim_append_cons (hstart _) (by decide)

/-- **A head that starts with a definition, an arrow and a target, and then a comma, is these and
no more.** -/
theorem headText_arrow_before_comma {d : Definition} {names : List Char × Option (List Char)}
    {text target rest : List Char} {head : Head} (hd : DefinitionText d text)
    (hn : TargetText names target) (hr : CommaOrEnd rest)
    (h : HeadText (text ++ '-' :: '>' :: (target ++ rest)) head) :
    rest = [] ∧ head.name = String.ofList d.name ∧ head.constraints = .ofFlags d.flags ∧
      (∀ type ∈ d.typeName, ∀ body, ¬ InlineType type body) ∧
      head.storage = some ((d.typeName.map Storage.ofAlias).getD .integer) ∧
      head.reference = some (referenceOf names) := by
  have hstop : Stops definitionGoesOn ('-' :: '>' :: (target ++ rest)) :=
    stops_cons.mpr (by decide)
  cases h with
  | untyped ha => simp at ha
  | typed ha => simp at ha
  | inline ha => simp at ha
  | @arrow left right d' names' ha hd' hi hn' =>
    obtain ⟨rest', he, hstop', hrest'⟩ := ha.exists_rest
    obtain ⟨rfl, -, rfl⟩ := definitionText_unique hd hd' hstop hstop' he
    have hright : right = target ++ rest := by
      rcases hrest' with h | h
      · simpa using h.symm
      · simp at h
    obtain ⟨cs, hcs, hnil, htrim⟩ := trim_target_append hn hr
    have hread := readTarget_append hn (hcs.stops (p := typeGoesOn) (by decide))
    rw [← htrim, ← hright, readTarget_eq_some_iff.mpr hn'] at hread
    obtain ⟨rfl, rfl⟩ := Prod.mk.inj (Option.some.inj hread)
    exact ⟨hnil rfl, rfl, rfl, hi, rfl, rfl⟩

/-! ## Which definitions make a head

An arrow in a definition can only stand in the parenthesis of its type. -/

/-- A pair of characters does not begin in a text that misses the first. -/
theorem infix_append_of_notMem_left {x y : Char} {a b : List Char} (hx : x ∉ a) :
    [x, y] <:+: a ++ b ↔ [x, y] <:+: b := by
  refine ⟨fun h => ?_, fun h => h.trans (List.suffix_append a b).isInfix⟩
  induction a with
  | nil => exact h
  | cons c a ih =>
    obtain ⟨hc, ha⟩ := List.ne_and_not_mem_of_not_mem_cons hx
    rcases List.infix_cons_iff.mp h with hpre | hinf
    · exact absurd (List.cons_prefix_cons.mp hpre).1 hc
    · exact ih ha hinf

/-- A pair of characters does not end in a text that misses the second. -/
theorem infix_append_of_notMem_right {x y : Char} {a b : List Char} (hy : y ∉ b) :
    [x, y] <:+: a ++ b ↔ [x, y] <:+: a := by
  have h := infix_append_of_notMem_left (x := y) (y := x) (a := b.reverse) (b := a.reverse)
    (by simpa using hy)
  rwa [← List.reverse_append, show [y, x] = [x, y].reverse from rfl, List.reverse_infix,
    List.reverse_infix] at h

/-- A character that is no symbol is in no run of flags. -/
theorem notMem_symbols {c : Char} (hc : isSymbol c = false) (flags : List Flag) :
    c ∉ symbols flags := by
  intro hmem
  obtain ⟨f, -, rfl⟩ := List.mem_map.mp hmem
  simp [isSymbol] at hc

theorem notMem_identifier {c : Char} {name : List Char} (hn : isIdentifier name)
    (hc : isNameChar c = false) : c ∉ name :=
  fun hmem => by simp [isNameChar_of_mem_identifier hn c hmem] at hc

/-- A `>` in a definition is one in its type. -/
theorem mem_arrow_iff_of_definitionText {d : Definition} {text : List Char}
    (hd : DefinitionText d text) : '>' ∈ text ↔ ∃ type ∈ d.typeName, '>' ∈ type := by
  have hsymbols : ∀ flags, '>' ∉ symbols flags := notMem_symbols (by decide)
  have hname : ∀ {name}, isIdentifier name → '>' ∉ name := fun hn =>
    notMem_identifier hn (by decide)
  cases hd with
  | bare hn => simp [hname hn, hsymbols]
  | typed hn ht => simp [hname hn, hsymbols]

/-- A `->` in a definition is one in its type. -/
theorem infix_arrow_iff_of_definitionText {d : Definition} {text : List Char}
    (hd : DefinitionText d text) :
    ['-', '>'] <:+: text ↔ ∃ type ∈ d.typeName, ['-', '>'] <:+: type := by
  have hdash : ∀ flags, '-' ∉ symbols flags := notMem_symbols (by decide)
  have hname : ∀ {name}, isIdentifier name → '-' ∉ name := fun hn =>
    notMem_identifier hn (by decide)
  cases hd with
  | @bare name flags hn =>
    have hfree : '-' ∉ name ++ symbols flags := by simp [hname hn, hdash]
    simpa using fun h : ['-', '>'] <:+: name ++ symbols flags => hfree (h.subset (by simp))
  | @typed name type flags typeFlags hn ht =>
    have hfront : '-' ∉ name ++ symbols flags ++ [':'] := by simp [hname hn, hdash]
    have hshape : name ++ symbols flags ++ ':' :: (type ++ symbols typeFlags) =
        name ++ symbols flags ++ [':'] ++ (type ++ symbols typeFlags) := by simp
    have hback : '>' ∉ symbols typeFlags := notMem_symbols (by decide) typeFlags
    rw [hshape, infix_append_of_notMem_left hfront, infix_append_of_notMem_right hback]
    simp

/-- **A definition is a head** exactly if no arrow cuts it and a reference in it has names. -/
theorem exists_headText_iff {d : Definition} {text : List Char} (hd : DefinitionText d text) :
    (∃ head, HeadText text head) ↔
      (∀ type ∈ d.typeName, '>' ∉ type) ∧
        ∀ type ∈ d.typeName, ∀ body, InlineType type body →
          ∃ names, InlineText names (Text.trim body) := by
  have harrow : '>' ∉ text ↔ ∀ type ∈ d.typeName, '>' ∉ type := by
    rw [mem_arrow_iff_of_definitionText hd]
    simp
  have huniq : ∀ {d'}, DefinitionText d' text → d' = d := fun hd' =>
    (definitionText_unique hd' hd (stops_nil _) (stops_nil _) rfl).1
  rw [← harrow]
  constructor
  · rintro ⟨head, h⟩
    cases h with
    | untyped ha hd' ht =>
      obtain rfl := huniq hd'
      exact ⟨ha, by simp [ht]⟩
    | typed ha hd' ht hi =>
      obtain rfl := huniq hd'
      exact ⟨ha, fun type he body hb => absurd hb (Option.mem_unique he ht ▸ hi body)⟩
    | inline ha hd' ht hi hn =>
      obtain rfl := huniq hd'
      refine ⟨ha, fun type he body hb => ?_⟩
      obtain rfl := Option.mem_unique he ht
      exact ⟨_, hb.unique hi ▸ hn⟩
    | arrow ha hd' =>
      -- the definition goes on past the cut, but the one on its left does not
      obtain ⟨rest, he, hstop, hrest⟩ := ha.exists_rest
      obtain ⟨-, -, rfl⟩ := definitionText_unique hd hd' (stops_nil _) hstop
        ((List.append_nil _).trans he)
      simp at hrest
  · rintro ⟨ha, hi⟩
    cases ht : d.typeName with
    | none => exact ⟨_, .untyped ha hd ht⟩
    | some type =>
      by_cases hinline : ∃ body, InlineType type body
      · obtain ⟨body, hbody⟩ := hinline
        obtain ⟨names, hn⟩ := hi type ht body hbody
        exact ⟨_, .inline ha hd ht hbody hn⟩
      · exact ⟨_, .typed ha hd ht (not_exists.mp hinline)⟩

/-- **A definition with a target behind an arrow is a head** exactly if no arrow comes before that
one and its type is no reference. -/
theorem exists_headText_arrow_iff {d : Definition} {names : List Char × Option (List Char)}
    {text target : List Char} (hd : DefinitionText d text) (hn : TargetText names target) :
    (∃ head, HeadText (text ++ '-' :: '>' :: target) head) ↔
      (∀ type ∈ d.typeName, ¬ ['-', '>'] <:+: type) ∧
        ∀ type ∈ d.typeName, ∀ body, ¬ InlineType type body := by
  have harrow : ¬ ['-', '>'] <:+: text ↔ ∀ type ∈ d.typeName, ¬ ['-', '>'] <:+: type := by
    rw [infix_arrow_iff_of_definitionText hd]
    simp
  have htrim : Text.trim target = target :=
    hn.trim_eq (List.forall_mem_singleton.mpr (by decide))
  rw [← harrow]
  constructor
  · rintro ⟨head, h⟩
    obtain ⟨-, -, -, hi, -⟩ :=
      headText_arrow_before_comma hd hn (.inl rfl) (by rwa [List.append_nil])
    refine ⟨?_, hi⟩
    cases h with
    | untyped ha => simp at ha
    | typed ha => simp at ha
    | inline ha => simp at ha
    | arrow ha hd' =>
      obtain ⟨rest, he, hstop, -⟩ := ha.exists_rest
      obtain ⟨-, rfl, -⟩ := definitionText_unique hd hd' (stops_cons.mpr (by decide)) hstop he
      exact ha.not_infix_left
  · rintro ⟨ha, hi⟩
    exact ⟨_, .arrow (.long ha) hd hi (by rwa [htrim])⟩

end Field

end Tablature
