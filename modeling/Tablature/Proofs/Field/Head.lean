import Tablature.Proofs.Field.Definition

/-!
# Proofs/Field/Head — the grammar of heads, and that the readers read exactly it

A head is a definition, perhaps with a reference:

    NamesText       identifier [opening identifier closing]
    InlineType      "fk(" text without ")" ")", in any letter case
    ArrowCut        the leftmost "->", or without one the leftmost ">"
    HeadText        a definition, perhaps with a reference inline or behind an arrow

As for definitions, each reader of a part takes a text of the grammar whole before a rest that it
could not go on with, and `readHead_eq_ok_iff` is the grammar of a whole head.
-/

namespace Tablature

open Text (Stops stops_cons stops_nil)

namespace Field

/-! ## References -/

/-- The texts that name a table and perhaps a column of it, the column between `opening` and
`closing`. -/
inductive NamesText (opening : Char) (closing : List Char) :
    List Char × Option (List Char) → List Char → Prop
  | table {table : List Char} (ht : isIdentifier table) :
    NamesText opening closing (table, none) table
  | column {table column : List Char} (ht : isIdentifier table) (hc : isIdentifier column) :
    NamesText opening closing (table, some column) (table ++ opening :: (column ++ closing))

/-- The target of an arrow: `table` or `table(column)`. -/
abbrev TargetText := NamesText '(' [')']

/-- The text inside `fk(...)`: `table` or `table.column`. -/
abbrev InlineText := NamesText '.' []

/-- Names of a reference start, and not with a blank. -/
theorem NamesText.exists_cons {opening : Char} {closing : List Char}
    {names : List Char × Option (List Char)} {text : List Char}
    (h : NamesText opening closing names text) :
    ∃ c cs, text = c :: cs ∧ Text.isBlank c = false := by
  have hid : ∀ name : List Char, isIdentifier name →
      ∃ c cs, name = c :: cs ∧ Text.isBlank c = false := by
    intro name hn
    obtain ⟨c, cs, rfl, hc⟩ := exists_cons_of_identifier hn
    exact ⟨c, cs, rfl, isBlank_of_isNameChar (isNameChar_of_isNameStart hc)⟩
  cases h with
  | table ht => exact hid _ ht
  | column ht hc =>
    obtain ⟨c, cs, rfl, hc⟩ := hid _ ht
    exact ⟨c, _, rfl, hc⟩

/-- They end, and not with a blank either. -/
theorem NamesText.exists_concat {opening : Char} {closing : List Char}
    {names : List Char × Option (List Char)} {text : List Char}
    (h : NamesText opening closing names text)
    (hclosing : ∀ c ∈ closing, Text.isBlank c = false) :
    ∃ a c, text = a ++ [c] ∧ Text.isBlank c = false := by
  cases h with
  | table ht => exact exists_concat_of_identifier ht
  | @column table column ht hcolumn =>
    rcases List.eq_nil_or_concat closing with rfl | ⟨init, c, rfl⟩
    · obtain ⟨a, c, rfl, hc⟩ := exists_concat_of_identifier hcolumn
      exact ⟨table ++ opening :: a, c, by simp, hc⟩
    · exact ⟨table ++ opening :: (column ++ init), c, by simp, hclosing c (by simp)⟩

/-- The names of a reference have no blank at either end. -/
theorem NamesText.trim_eq {opening : Char} {closing : List Char}
    {names : List Char × Option (List Char)} {text : List Char}
    (h : NamesText opening closing names text)
    (hclosing : ∀ c ∈ closing, Text.isBlank c = false) : Text.trim text = text := by
  obtain ⟨x, xs, hx, hblank⟩ := h.exists_cons
  obtain ⟨a, c, rfl, hc⟩ := h.exists_concat hclosing
  exact Text.trim_of_ends (hx ▸ stops_cons.mpr hblank) hc

/-- **A target is read whole** before a rest that cannot go on with it. -/
theorem readTarget_append {names : List Char × Option (List Char)} {text rest : List Char}
    (hn : TargetText names text) (hr : Stops typeGoesOn rest) :
    readTarget (text ++ rest) = some (names, rest) := by
  cases hn with
  | @table table ht =>
    have hstop : Stops isNameChar rest := fun c hc => isNameChar_of_not_typeGoesOn (hr c hc)
    simp only [readTarget, readIdentifier_append ht hstop, Option.bind_eq_bind, Option.bind_some]
    split
    · simp [typeGoesOn] at hr
    · rfl
  | @column table column ht hc =>
    have hopen : Stops isNameChar ('(' :: (column ++ ')' :: rest)) := by
      rw [stops_cons]
      decide
    have hclose : Stops isNameChar (')' :: rest) := by
      rw [stops_cons]
      decide
    have hshape : table ++ '(' :: (column ++ [')']) ++ rest =
        table ++ '(' :: (column ++ ')' :: rest) := by
      simp
    simp only [hshape, readTarget, readIdentifier_append ht hopen, Option.bind_eq_bind,
      Option.bind_some, readIdentifier_append hc hclose]

/-- A text that is read as an identifier names a table. -/
theorem NamesText.of_table {opening : Char} {closing cs table : List Char}
    (ht : readIdentifier cs = some (table, [])) : NamesText opening closing (table, none) cs := by
  have hcs := append_of_readIdentifier ht
  rw [List.append_nil] at hcs
  exact hcs ▸ .table (isIdentifier_of_readIdentifier ht)

/-- Two identifiers, read around the opening character, name a table and a column. -/
theorem NamesText.of_column {opening : Char} {closing cs table inner column : List Char}
    (ht : readIdentifier cs = some (table, opening :: inner))
    (hc : readIdentifier inner = some (column, closing)) :
    NamesText opening closing (table, some column) cs := by
  rw [← append_of_readIdentifier ht, ← append_of_readIdentifier hc]
  exact .column (isIdentifier_of_readIdentifier ht) (isIdentifier_of_readIdentifier hc)

/-- **A whole text is a target exactly when the grammar says so.** -/
theorem readTarget_eq_some_iff {names : List Char × Option (List Char)} {cs : List Char} :
    readTarget cs = some (names, []) ↔ TargetText names cs := by
  constructor
  · intro h
    cases hid : readIdentifier cs with
    | none => simp [readTarget, hid] at h
    | some p =>
      simp only [readTarget, hid, Option.bind_eq_bind, Option.bind_some] at h
      split at h
      · next inner hp =>
        split at h
        · next column rest hcol =>
          obtain ⟨rfl, rfl⟩ := Prod.mk.inj (Option.some.inj h)
          exact .of_column (hid.trans (by rw [← hp])) hcol
        · simp [hp] at h
      · obtain ⟨rfl, hp⟩ := Prod.mk.inj (Option.some.inj h)
        exact .of_table (hid.trans (by rw [← hp]))
  · intro h
    have := readTarget_append h (stops_nil typeGoesOn)
    rwa [List.append_nil] at this

/-- **So is the text of an inline reference.** -/
theorem readInline_eq_some_iff {names : List Char × Option (List Char)} {cs : List Char} :
    readInline cs = some (names, []) ↔ InlineText names cs := by
  constructor
  · intro h
    cases hid : readIdentifier cs with
    | none => simp [readInline, hid] at h
    | some p =>
      simp only [readInline, hid, Option.bind_eq_bind, Option.bind_some] at h
      split at h
      · next inner hp =>
        split at h
        · next column rest hcol =>
          obtain ⟨rfl, rfl⟩ := Prod.mk.inj (Option.some.inj h)
          exact .of_column (hid.trans (by rw [← hp])) hcol
        · simp [hp] at h
      · obtain ⟨rfl, hp⟩ := Prod.mk.inj (Option.some.inj h)
        exact .of_table (hid.trans (by rw [← hp]))
  · intro h
    cases h with
    | table ht =>
      have := readIdentifier_append ht (stops_nil isNameChar)
      rw [List.append_nil] at this
      simp [readInline, this]
    | @column table column ht hc =>
      have hdot : Stops isNameChar ('.' :: (column ++ [])) := by
        rw [stops_cons]
        decide
      simp only [readInline, readIdentifier_append ht hdot, Option.bind_eq_bind, Option.bind_some,
        readIdentifier_append hc (stops_nil isNameChar)]

/-- A type of the form `fk(body)`, in any letter case. -/
def InlineType (type body : List Char) : Prop :=
  ∃ f k, type = f :: k :: '(' :: (body ++ [')']) ∧ f.toLower = 'f' ∧ k.toLower = 'k' ∧ ')' ∉ body

/-- An inline reference has one text. -/
theorem InlineType.unique {type body body' : List Char} (h : InlineType type body)
    (h' : InlineType type body') : body = body' := by
  obtain ⟨f, k, rfl, -⟩ := h
  obtain ⟨f', k', he, -⟩ := h'
  simp only [List.cons.injEq] at he
  exact List.append_cancel_right he.2.2.2

/-- A type is looked into exactly if it is an inline reference, and its text is trimmed. -/
theorem inlineBody?_eq_some_iff {type inner : List Char} :
    inlineBody? type = some inner ↔ ∃ body, InlineType type body ∧ inner = Text.trim body := by
  constructor
  · intro h
    unfold inlineBody? at h
    split at h
    · next f k cs =>
      split at h
      · next hfk =>
        split at h
        · next body hp =>
          obtain ⟨rfl, hb⟩ := append_of_readParenthesis hp
          obtain rfl := Option.some.inj h
          exact ⟨body, ⟨f, k, rfl, hfk.1, hfk.2, hb⟩, rfl⟩
        · simp at h
      · simp at h
    · simp at h
  · rintro ⟨body, ⟨f, k, rfl, hf, hk, hb⟩, rfl⟩
    simp [inlineBody?, hf, hk, readParenthesis_append hb []]

/-- Other types are not looked into. -/
theorem inlineBody?_eq_none_iff {type : List Char} :
    inlineBody? type = none ↔ ∀ body, ¬ InlineType type body := by
  constructor
  · intro h body hb
    have := inlineBody?_eq_some_iff.mpr ⟨body, hb, rfl⟩
    simp [h] at this
  · intro h
    cases hi : inlineBody? type with
    | none => rfl
    | some inner =>
      obtain ⟨body, hb, -⟩ := inlineBody?_eq_some_iff.mp hi
      exact absurd hb (h body)

/-! ## Arrows

A head is cut at its leftmost arrow, and a long arrow goes before a short one wherever it stands. -/

/-- Two texts around the arrow of a text: the leftmost `->`, or without one the leftmost `>`. -/
inductive ArrowCut : List Char → List Char → List Char → Prop
  | long {left right : List Char} (hl : ¬ ['-', '>'] <:+: left) :
    ArrowCut (left ++ '-' :: '>' :: right) left right
  | short {left right : List Char} (ht : ¬ ['-', '>'] <:+: left ++ '>' :: right) (hl : '>' ∉ left) :
    ArrowCut (left ++ '>' :: right) left right

/-- **A definition before an arrow of either length is cut there**, if there is no other `>`. -/
theorem arrowCut_of_definitionText {d : Definition} {left right : List Char} (long : Bool)
    (hd : DefinitionText d left) (hl : '>' ∉ left) (hr : '>' ∉ right) :
    ArrowCut (left ++ ((if long then ['-', '>'] else ['>']) ++ right)) left right := by
  cases long with
  | true => exact .long fun h => hl (h.subset (by simp))
  | false =>
    refine .short ?_ hl
    rintro ⟨a, b, he⟩
    -- the only `>` is that of the arrow, so a `-` before it would end the definition
    have hshape : a ++ ['-'] ++ '>' :: b = left ++ '>' :: right := by simpa using he
    have ha : '>' ∉ a ++ ['-'] := by
      intro hmem
      have hcount := congrArg (List.count '>') hshape
      simp only [List.count_append, List.count_cons_self, List.count_eq_zero.mpr hl,
        List.count_eq_zero.mpr hr] at hcount
      have hpos : 0 < (a ++ ['-']).count '>' := List.count_pos_iff.mpr hmem
      rw [List.count_append] at hpos
      omega
    have hleft : a ++ ['-'] = left := by
      have hcut := Text.cutAt_append ha b
      rw [hshape, Text.cutAt_append hl right] at hcut
      exact (Prod.mk.inj (Option.some.inj hcut)).1.symm
    obtain ⟨x, c, hx, hc⟩ := exists_concat_of_definitionText hd
    obtain rfl : '-' = c := by
      rw [← hleft] at hx
      exact (List.append_inj' hx rfl).2 |> List.cons.inj |>.1
    exact absurd hc (by decide)

/-- Past a character that starts no `->`, the leftmost one is that of the rest. -/
theorem cutLongArrow_cons {c : Char} {cs : List Char} (h : ¬ ['-', '>'] <+: c :: cs) :
    cutLongArrow (c :: cs) = (cutLongArrow cs).map fun p => (c :: p.1, p.2) := by
  refine cutLongArrow.eq_3 c cs fun cs' hc hcs => h ?_
  subst hc hcs
  exact ⟨cs', rfl⟩

/-- **A long arrow is found where no other comes before it.** -/
theorem cutLongArrow_append {left : List Char} (hl : ¬ ['-', '>'] <:+: left) (right : List Char) :
    cutLongArrow (left ++ '-' :: '>' :: right) = some (left, right) := by
  induction left with
  | nil => rfl
  | cons c left ih =>
    obtain ⟨hpre, htail⟩ := not_or.mp (mt List.infix_cons_iff.mpr hl)
    have hstart : ¬ ['-', '>'] <+: c :: (left ++ '-' :: '>' :: right) := by
      intro hp
      rw [List.cons_prefix_cons] at hp
      obtain ⟨rfl, hp⟩ := hp
      -- the second character is one of `left`, or the `-` of the arrow
      cases left with
      | nil => simp at hp
      | cons x left =>
        rw [List.cons_append, List.cons_prefix_cons] at hp
        obtain ⟨rfl, -⟩ := hp
        exact hpre ⟨left, rfl⟩
    rw [List.cons_append, cutLongArrow_cons hstart, ih htail]
    rfl

/-- Either there is no long arrow, or it is cut at the leftmost. -/
theorem cutLongArrow_spec (cs : List Char) :
    (cutLongArrow cs = none ∧ ¬ ['-', '>'] <:+: cs) ∨
      ∃ left right, cutLongArrow cs = some (left, right) ∧ cs = left ++ '-' :: '>' :: right ∧
        ¬ ['-', '>'] <:+: left := by
  induction cs with
  | nil =>
    left
    simp [cutLongArrow]
  | cons c cs ih =>
    by_cases hstart : ['-', '>'] <+: c :: cs
    · right
      obtain ⟨right, hright⟩ := hstart
      refine ⟨[], right, ?_, hright.symm, by simp⟩
      rw [← hright]
      rfl
    · rw [cutLongArrow_cons hstart]
      rcases ih with ⟨hnone, hinf⟩ | ⟨left, right, hsome, rfl, hinf⟩
      · left
        refine ⟨by rw [hnone]; rfl, fun h => ?_⟩
        exact (List.infix_cons_iff.mp h).elim hstart hinf
      · right
        refine ⟨c :: left, right, by rw [hsome]; rfl, rfl, fun h => ?_⟩
        rcases List.infix_cons_iff.mp h with hp | hi
        · exact hstart (hp.trans (List.prefix_append (c :: left) ('-' :: '>' :: right)))
        · exact hinf hi

/-- **The arrow of a text is found where the grammar puts it.** -/
theorem cutArrow_eq_some_iff {cs left right : List Char} :
    cutArrow cs = some (left, right) ↔ ArrowCut cs left right := by
  constructor
  · intro h
    rcases cutLongArrow_spec cs with ⟨hnone, hinf⟩ | ⟨l, r, hsome, rfl, hinf⟩
    · rw [cutArrow, hnone, Option.none_or] at h
      by_cases hmem : '>' ∈ cs
      · obtain ⟨l, r, rfl, hl⟩ := List.eq_append_cons_of_mem hmem
        rw [Text.cutAt_append hl] at h
        obtain ⟨rfl, rfl⟩ := Prod.mk.inj (Option.some.inj h)
        exact .short hinf hl
      · simp [Text.cutAt_eq_none hmem] at h
    · rw [cutArrow, hsome, Option.some_or] at h
      obtain ⟨rfl, rfl⟩ := Prod.mk.inj (Option.some.inj h)
      exact .long hinf
  · intro h
    cases h with
    | long hl => rw [cutArrow, cutLongArrow_append hl, Option.some_or]
    | short ht hl =>
      rcases cutLongArrow_spec (left ++ '>' :: right) with ⟨hnone, -⟩ | ⟨l, r, -, hcs, -⟩
      · rw [cutArrow, hnone, Option.none_or, Text.cutAt_append hl]
      · exact absurd ⟨l, r, by rw [hcs]; simp⟩ ht

/-- A text is not cut exactly if it has no `>`. -/
theorem cutArrow_eq_none_iff {cs : List Char} : cutArrow cs = none ↔ '>' ∉ cs := by
  constructor
  · intro h hmem
    obtain ⟨l, r, rfl, hl⟩ := List.eq_append_cons_of_mem hmem
    rw [cutArrow, Option.or_eq_none_iff, Text.cutAt_append hl] at h
    simp at h
  · intro h
    rcases cutLongArrow_spec cs with ⟨hnone, -⟩ | ⟨l, r, -, rfl, -⟩
    · rw [cutArrow, hnone, Option.none_or, Text.cutAt_eq_none h]
    · simp at h

/-! ## Heads

The cut decides between two forms: without an arrow the text is a definition, whose type may be a
reference; with one, it is a definition and a target. -/

/-- The texts of heads. Without an arrow there is no `>` in it; a reference is either inline, in
place of a type, or behind an arrow. -/
inductive HeadText : List Char → Head → Prop
  | untyped {text : List Char} {d : Definition} (ha : '>' ∉ text) (hd : DefinitionText d text)
    (ht : d.typeName = none) :
    HeadText text ⟨String.ofList d.name, none, .ofFlags d.flags, none⟩
  | typed {text type : List Char} {d : Definition} (ha : '>' ∉ text) (hd : DefinitionText d text)
    (ht : d.typeName = some type) (hi : ∀ body, ¬ InlineType type body) :
    HeadText text ⟨String.ofList d.name, some (.ofAlias type), .ofFlags d.flags, none⟩
  | inline {text type body : List Char} {d : Definition} {names : List Char × Option (List Char)}
    (ha : '>' ∉ text) (hd : DefinitionText d text) (ht : d.typeName = some type)
    (hi : InlineType type body) (hn : InlineText names (Text.trim body)) :
    HeadText text
      ⟨String.ofList d.name, some .integer, .ofFlags d.flags, some (referenceOf names)⟩
  | arrow {text left right : List Char} {d : Definition} {names : List Char × Option (List Char)}
    (ha : ArrowCut text left right) (hd : DefinitionText d left)
    (hi : ∀ type ∈ d.typeName, ∀ body, ¬ InlineType type body)
    (hn : TargetText names (Text.trim right)) :
    HeadText text
      ⟨String.ofList d.name, some ((d.typeName.map Storage.ofAlias).getD .integer),
        .ofFlags d.flags, some (referenceOf names)⟩

/-- What is read as a head is one. -/
theorem headText_of_readHead {text : List Char} {head : Head} (h : readHead text = .ok head) :
    HeadText text head := by
  obtain ⟨d, hd, h⟩ := bind_eq_ok_iff.mp h
  rw [complete_eq_ok_iff, readDefinition_eq_some_iff] at hd
  cases hcut : cutArrow text with
  | none =>
    have ha := cutArrow_eq_none_iff.mp hcut
    simp only [hcut, Option.map_none, Option.getD_none] at h hd
    cases ht : d.typeName with
    | none =>
      simp only [ht] at h
      exact Except.ok.inj h ▸ .untyped ha hd ht
    | some type =>
      simp only [ht] at h
      cases hi : inlineBody? type with
      | none =>
        simp only [hi] at h
        exact Except.ok.inj h ▸ .typed ha hd ht (inlineBody?_eq_none_iff.mp hi)
      | some inner =>
        simp only [hi] at h
        obtain ⟨body, hb, rfl⟩ := inlineBody?_eq_some_iff.mp hi
        obtain ⟨names, hn, h⟩ := bind_eq_ok_iff.mp h
        rw [complete_eq_ok_iff, readInline_eq_some_iff] at hn
        exact Except.ok.inj h ▸ .inline ha hd ht hb hn
  | some p =>
    obtain ⟨left, right⟩ := p
    have ha := cutArrow_eq_some_iff.mp hcut
    simp only [hcut, Option.map_some, Option.getD_some] at h hd
    by_cases hi : (d.typeName.bind inlineBody?).isSome = true
    · simp only [hi, if_true] at h
      exact nomatch h
    · simp only [hi, if_false, Bool.false_eq_true] at h
      obtain ⟨names, hn, h⟩ := bind_eq_ok_iff.mp h
      rw [complete_eq_ok_iff, readTarget_eq_some_iff] at hn
      refine Except.ok.inj h ▸ .arrow ha hd (fun type ht body hb => hi ?_) hn
      rw [Option.mem_def.mp ht, Option.bind_some, inlineBody?_eq_some_iff.mpr ⟨body, hb, rfl⟩]
      rfl

/-- A head is read as what it spells. -/
theorem readHead_of_headText {text : List Char} {head : Head} (h : HeadText text head) :
    readHead text = .ok head := by
  cases h with
  | @untyped d ha hd ht =>
    have hread := readDefinition_eq_some_iff.mpr hd
    simp only [readHead, cutArrow_eq_none_iff.mpr ha, Option.map_none, Option.getD_none, hread,
      complete]
    simp only [bind, Except.bind, ht]
    rfl
  | @typed type d ha hd ht hi =>
    have hread := readDefinition_eq_some_iff.mpr hd
    have hbody := inlineBody?_eq_none_iff.mpr hi
    simp only [readHead, cutArrow_eq_none_iff.mpr ha, Option.map_none, Option.getD_none, hread,
      complete]
    simp only [bind, Except.bind, ht, hbody]
    rfl
  | @inline type body d names ha hd ht hi hn =>
    have hread := readDefinition_eq_some_iff.mpr hd
    have hbody := inlineBody?_eq_some_iff.mpr ⟨body, hi, rfl⟩
    simp only [readHead, cutArrow_eq_none_iff.mpr ha, Option.map_none, Option.getD_none, hread,
      complete]
    simp only [bind, Except.bind, ht, hbody, readInline_eq_some_iff.mpr hn]
    rfl
  | @arrow left right d names ha hd hi hn =>
    have hread := readDefinition_eq_some_iff.mpr hd
    have hbody : (d.typeName.bind inlineBody?).isSome = false := by
      cases ht : d.typeName with
      | none => rfl
      | some type => simp [inlineBody?_eq_none_iff.mpr (hi type ht)]
    simp only [readHead, cutArrow_eq_some_iff.mpr ha, Option.map_some, Option.getD_some, hread,
      complete]
    simp only [bind, Except.bind, hbody, readTarget_eq_some_iff.mpr hn]
    rfl

/-- **Heads are read exactly as the grammar says.** -/
theorem readHead_eq_ok_iff {text : List Char} {head : Head} :
    readHead text = .ok head ↔ HeadText text head :=
  ⟨headText_of_readHead, readHead_of_headText⟩

end Field

end Tablature
