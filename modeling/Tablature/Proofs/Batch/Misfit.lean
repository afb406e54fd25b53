import Tablature.Proofs.Batch.Entry

/-!
# Proofs/Batch/Misfit — which field objects become tokens that cannot be read

Every part of a field object is checked before it is written, but for less than the grammar of
tokens asks.  `Misfit` says of the members alone, without their token, where the checks fall short:

    default           may be blank, but a token's default needs an expression
    type              may be `fk(...)` beside a reference, or around a text that names none
    type              may have an arrow or an open quote or parenthesis in its parenthesis

`malformed_iff_misfit` says that these are all: of the objects that become a token, the misfits are
those whose token is malformed.  A token is read part by part (`Fits`): the head is one, the
attributes are divided from it, and the default has an expression.  Of the text before the
attributes only the type can move a scan of the token (`run_head`) or hold an arrow.

A field that is refused is refused with its position.  A misfit passes, and is met only when its
token is read, where positions are no longer known.
-/

namespace Tablature.Batch

open Json (Value)
open Tablature.Field (InlineType InlineText HeadText Attribute)

/-! ## Misfits

What an object can say that passes every check and still makes a token that is not read, in terms of
the members alone. -/

/-- A reference with neither actions nor a later check. -/
def IsBare (r : Reference) : Prop := r.onDelete = none ∧ r.onUpdate = none ∧ r.deferred = false

/-- An object says something that is written as an attribute: a default, or what becomes of its
reference. -/
def Members.SaysAttributes (members : Members) : Prop :=
  members.get? ["default"] ≠ none ∨
    ∃ v r, members.get? ["fk", "foreignkey", "references"] = some v ∧ SaysReference v r ∧ ¬ IsBare r

/-- An object has a member for its reference. -/
def Members.HasReference (members : Members) : Prop :=
  members.get? ["fk", "foreignkey", "references"] ≠ none

/-- The members of a field object that fits no token. -/
inductive Misfit (members : Members) : Prop
  | blankDefault {v : Value} {e : String} (hv : members.get? ["default"] = some v)
    (he : ScalarText v e) (hb : Text.trim e.toList = []) : Misfit members
  | unclosedType {type : List Char} (ht : members.SaysType (some type))
    (hs : Text.Scan.top.run type ≠ Text.Scan.top) (ha : members.SaysAttributes) : Misfit members
  | arrowInType {type : List Char} (hr : ¬ members.HasReference)
    (ht : members.SaysType (some type)) (ha : '>' ∈ type) : Misfit members
  | namelessInline {type body : List Char} (hr : ¬ members.HasReference)
    (ht : members.SaysType (some type)) (hi : InlineType type body)
    (hn : ∀ names, ¬ InlineText names (Text.trim body)) : Misfit members
  | earlierArrow {type : List Char} (hr : members.HasReference)
    (ht : members.SaysType (some type)) (ha : ['-', '>'] <:+: type) : Misfit members
  | twoReferences {type body : List Char} (hr : members.HasReference)
    (ht : members.SaysType (some type)) (hi : InlineType type body) : Misfit members

/-- A token that the grammar does not have. -/
def Malformed (token : String) : Prop :=
  ∃ text fault, Field.ofToken token = .error (.field text fault)

/-! ## An object says one thing

The members are looked up, and a look-up finds one value; so there is no more than one type, action,
flag or text that they say. -/

/-- An object says one type. -/
theorem Members.SaysType.unique {members : Members} {a b : Option (List Char)}
    (ha : members.SaysType a) (hb : members.SaysType b) : a = b := by
  rcases ha with ⟨hget, rfl⟩ | ⟨s, hget, rfl⟩ <;> rcases hb with ⟨hget', rfl⟩ | ⟨s', hget', rfl⟩ <;>
    simp_all

theorem Members.SaysAction.unique {members : Members} {name : String} {a b : Option Action}
    (ha : members.SaysAction name a) (hb : members.SaysAction name b) : a = b := by
  rcases ha with ⟨hget, rfl⟩ | ⟨s, x, hget, hx, rfl⟩ <;>
    rcases hb with ⟨hget', rfl⟩ | ⟨s', x', hget', hx', rfl⟩ <;> simp_all

theorem Members.SaysFlag.unique {members : Members} {names : List String} {a b : Bool}
    (ha : members.SaysFlag names a) (hb : members.SaysFlag names b) : a = b := by
  rcases ha with hget | ⟨hget, rfl⟩ <;> rcases hb with hget' | ⟨hget', rfl⟩ <;> simp_all

theorem ScalarText.unique {v : Value} {a b : String} (ha : ScalarText v a) (hb : ScalarText v b) :
    a = b := by
  cases ha <;> cases hb <;> rfl

/-- Of what a reference says, its attributes are said but once. -/
theorem SaysReference.isBare_iff {v : Value} {r r' : Reference} (h : SaysReference v r)
    (h' : SaysReference v r') : IsBare r ↔ IsBare r' := by
  cases h with
  | text => cases h' with | text => simp [IsBare, Field.referenceOf, Reference.ofTable]
  | object _ _ hd hu hf =>
    cases h' with
    | object _ _ hd' hu' hf' => rw [IsBare, IsBare, hd.unique hd', hu.unique hu', hf.unique hf']

/-! ## The parts of a token, as the members say them -/

/-- A reference that a token spells without attributes is bare. -/
theorem isBare_amend_iff {as : List Attribute} {texts : List String}
    (hw : List.Forall₂ ReferenceAttribute as texts) (names : List Char × Option (List Char)) :
    IsBare (Attribute.amend as (Field.referenceOf names)) ↔ as = [] := by
  cases hw with
  | nil => simp [IsBare, Attribute.amend, Field.referenceOf, Reference.ofTable]
  | cons h _ =>
    cases h <;>
      simp [IsBare, Attribute.amend, Attribute.last?_cons, Attribute.deleteAction?,
        Attribute.updateAction?]

namespace TokenParts

variable {members : Members} (p : TokenParts members)

/-- The type of a token is the one that the members say. -/
theorem mem_type_iff {type : List Char} : type ∈ p.type ↔ members.SaysType (some type) := by
  constructor
  · intro h
    exact Option.mem_def.mp h ▸ p.saysType
  · exact fun h => p.saysType.unique h

/-- A token has a target exactly if the object has a member for a reference. -/
theorem exists_names_iff : (∃ n, p.names = some n) ↔ members.HasReference := by
  rcases p.saysReference with ⟨hn, -, hget⟩ | ⟨v, n, hn, hget, -⟩ <;>
    simp [Members.HasReference, hn, hget]

theorem names_eq_none_iff : p.names = none ↔ ¬ members.HasReference := by
  rw [← p.exists_names_iff, ← Option.ne_none_iff_exists', not_not]

/-- The default of a token is blank exactly if the object's is. -/
theorem exists_blank_default_iff :
    (∃ e ∈ p.default, Text.trim e.toList = []) ↔
      ∃ v e, members.get? ["default"] = some v ∧ ScalarText v e ∧ Text.trim e.toList = [] := by
  rcases p.saysDefault with ⟨hget, hd⟩ | ⟨v, e, hget, he, hd⟩
  · simp [hget, hd]
  · have hmem : ∀ e', e' ∈ p.default ↔ e' = e := by simp [hd, eq_comm]
    simp only [hmem, exists_eq_left]
    constructor
    · exact fun hb => ⟨v, e, hget, he, hb⟩
    · rintro ⟨v', e', hget', he', hb⟩
      obtain rfl := Option.some.inj (hget.symm.trans hget')
      exact he'.unique he ▸ hb

/-- A token has no attributes of a reference exactly if the object's reference is bare. -/
theorem attributes_eq_nil_iff :
    p.attributes = [] ↔ ¬ ∃ v r, members.get? ["fk", "foreignkey", "references"] = some v ∧
      SaysReference v r ∧ ¬ IsBare r := by
  rcases p.saysReference with ⟨-, hnil, hget⟩ | ⟨v, n, -, hget, hsaid⟩
  · simp [hnil, hget]
  · rw [← isBare_amend_iff p.isWritten n]
    simp only [hget, Option.some.injEq, exists_and_left, exists_eq_left']
    constructor
    · rintro hbare ⟨r, hr, hnot⟩
      exact hnot ((hsaid.isBare_iff hr).mp hbare)
    · intro h
      by_contra hnot
      exact h ⟨_, hsaid, hnot⟩

/-- A token has no commas of its own exactly if the members ask for no attribute. -/
theorem texts_eq_nil_iff (trimmed : List Char → List Char) :
    p.texts trimmed = [] ↔ ¬ members.SaysAttributes := by
  have hdefault : p.default = none ↔ members.get? ["default"] = none := by
    rcases p.saysDefault with ⟨hget, hd⟩ | ⟨v, e, hget, -, hd⟩ <;> simp [hget, hd]
  have hwritten : p.attributeTexts = [] ↔ p.attributes = [] := by
    have hlength := p.isWritten.length_eq
    rw [← List.length_eq_zero_iff, ← hlength, List.length_eq_zero_iff]
  rw [Members.SaysAttributes, not_or, not_not, ← hdefault, ← p.attributes_eq_nil_iff, ← hwritten]
  cases hd : p.default <;> simp [texts, hd]

end TokenParts

/-! ## What a scan sees of the head

The name, the flags and the target are inert; only a type moves a scan, by the quotes and
parentheses in it. -/

/-- **Only the type moves a scan** of the text before the attributes. -/
theorem TokenParts.run_head {members : Members} (p : TokenParts members) :
    Text.Scan.top.run p.head = Text.Scan.top.run (p.type.getD []) := by
  rw [head, Text.Scan.run_append, p.definitionText.run_eq Text.Scan.sound_top,
    p.inert_arrow.still _ (Text.Scan.sound_top.run _)]

/-! ## Which tokens are read -/

namespace TokenParts

variable {members : Members} (p : TokenParts members)

/-- The parts make a token that is read. -/
structure Fits : Prop where
  divided : p.texts Text.trimEnd = [] ∨ Text.Scan.top.run p.head = Text.Scan.top
  head : ∃ head, HeadText p.head head
  default : ∀ e ∈ p.default, Text.trim e.toList ≠ []

/-- **A token is read as a column** exactly if its parts fit. -/
theorem exists_readColumn_iff :
    (∃ c, Field.readColumn (Text.Scan.top.pieces
      (p.head ++ Text.Scan.commaTexts (p.texts Text.trimEnd))) = .ok c) ↔ p.Fits := by
  have hreads : ∀ {head}, HeadText p.head head → p.names.isSome = true →
      head.reference.isSome = true := fun h =>
    (p.readsHead_of_headText (.inl rfl) (by rwa [List.append_nil])).2.2.2.isSome_reference
  constructor
  · rintro ⟨c, hc⟩
    obtain ⟨first, others, head, as, hsplit, hhead, has, -⟩ := Field.readColumn_eq_ok_iff.mp hc
    obtain ⟨rfl, rfl⟩ := List.cons.inj hsplit
    have hdivided := p.run_top_of_headText hhead
    rw [p.pieces_token hdivided] at hhead has
    exact ⟨hdivided, ⟨head, hhead⟩, ((p.forall₂_texts_iff (hreads hhead)).mp has).2⟩
  · rintro ⟨hdivided, ⟨head, hhead⟩, hdefault⟩
    have has := (p.forall₂_texts_iff (hreads hhead)).mpr ⟨rfl, hdefault⟩
    refine ⟨_, Field.readColumn_eq_ok_iff.mpr ⟨p.head, p.texts Text.trimEnd, head, _, ?_, hhead,
      has, Field.denotes_iff.mpr rfl⟩⟩
    rw [Text.split, p.pieces_token hdivided]

/-- A token is malformed exactly if its parts do not fit. -/
theorem malformed_iff_not_fits {token : String}
    (h : token.toList = p.head ++ Text.Scan.commaTexts (p.texts id)) :
    Malformed token ↔ ¬ p.Fits := by
  obtain ⟨c, cs, hname, hc⟩ := exists_cons_of_identifier p.isName
  obtain ⟨rest, hrest⟩ :
      ∃ rest, p.head ++ Text.Scan.commaTexts (p.texts Text.trimEnd) = c :: rest := by
    simp [head, definition, hname]
  have hd : (c == '^' && Field.isDirective (c :: rest)) = false := by
    have hne : c ≠ '^' := fun e => absurd (e ▸ hc) (by decide)
    simp [hne]
  rw [Malformed, Field.ofToken, h, p.trim_token, ← p.exists_readColumn_iff, hrest]
  exact Field.exists_ofTrimmed_eq_field_iff hd

/-! ## Misfits are what does not fit

Each condition of `Fits`, said of the members, rules out some of the ways to be a misfit. -/

/-- Without a target the definition is the whole head. -/
theorem exists_headText_of_no_names (hn : p.names = none) :
    (∃ head, HeadText p.head head) ↔
      (∀ type ∈ p.type, '>' ∉ type) ∧
        ∀ type ∈ p.type, ∀ body, InlineType type body →
          ∃ names, InlineText names (Text.trim body) := by
  rw [head, hn, arrowChars, List.append_nil]
  exact Field.exists_headText_iff p.definitionText

/-- With a target the head goes on with an arrow. -/
theorem exists_headText_of_names {n : List Char × Option (List Char)} (hn : p.names = some n) :
    (∃ head, HeadText p.head head) ↔
      (∀ type ∈ p.type, ¬ ['-', '>'] <:+: type) ∧
        ∀ type ∈ p.type, ∀ body, ¬ InlineType type body := by
  rw [head, hn, arrowChars]
  exact Field.exists_headText_arrow_iff p.definitionText (p.isTarget n hn)

variable {p}

/-- What fits is no misfit. -/
theorem Fits.not_misfit (h : p.Fits) : ¬ Misfit members := by
  intro hm
  cases hm with
  | blankDefault hv he hb =>
    obtain ⟨e, hmem, hblank⟩ := p.exists_blank_default_iff.mpr ⟨_, _, hv, he, hb⟩
    exact h.default e hmem hblank
  | unclosedType ht hs ha =>
    rcases h.divided with hnil | htop
    · exact (p.texts_eq_nil_iff _).mp hnil ha
    · rw [p.run_head, p.mem_type_iff.mpr ht] at htop
      exact hs htop
  | arrowInType hr ht ha =>
    have hhead := (p.exists_headText_of_no_names (p.names_eq_none_iff.mpr hr)).mp h.head
    exact hhead.1 _ (p.mem_type_iff.mpr ht) ha
  | namelessInline hr ht hi hn =>
    have hhead := (p.exists_headText_of_no_names (p.names_eq_none_iff.mpr hr)).mp h.head
    obtain ⟨names, hinline⟩ := hhead.2 _ (p.mem_type_iff.mpr ht) _ hi
    exact hn names hinline
  | earlierArrow hr ht ha =>
    obtain ⟨n, hn⟩ := p.exists_names_iff.mpr hr
    exact ((p.exists_headText_of_names hn).mp h.head).1 _ (p.mem_type_iff.mpr ht) ha
  | twoReferences hr ht hi =>
    obtain ⟨n, hn⟩ := p.exists_names_iff.mpr hr
    exact ((p.exists_headText_of_names hn).mp h.head).2 _ (p.mem_type_iff.mpr ht) _ hi

/-- **What is no misfit fits**, each condition by the way that is ruled out. -/
theorem fits_of_not_misfit (h : ¬ Misfit members) : p.Fits where
  divided := by
    by_contra hopen
    obtain ⟨hne, htop⟩ := not_or.mp hopen
    have hsays : members.SaysAttributes := by
      by_contra hnot
      exact hne ((p.texts_eq_nil_iff _).mpr hnot)
    rw [p.run_head] at htop
    cases ht : p.type with
    | none => simp [ht] at htop
    | some type => exact h (.unclosedType (p.mem_type_iff.mp ht) (by simpa [ht] using htop) hsays)
  head := by
    cases hn : p.names with
    | none =>
      have hr := p.names_eq_none_iff.mp hn
      refine (p.exists_headText_of_no_names hn).mpr
        ⟨fun type ht ha => ?_, fun type ht body hi => ?_⟩
      · exact h (.arrowInType hr (p.mem_type_iff.mp ht) ha)
      · by_contra hnone
        exact h (.namelessInline hr (p.mem_type_iff.mp ht) hi (not_exists.mp hnone))
    | some n =>
      have hr := p.exists_names_iff.mp ⟨n, hn⟩
      refine (p.exists_headText_of_names hn).mpr ⟨fun type ht ha => ?_, fun type ht body hi => ?_⟩
      · exact h (.earlierArrow hr (p.mem_type_iff.mp ht) ha)
      · exact h (.twoReferences hr (p.mem_type_iff.mp ht) hi)
  default := by
    intro e hmem hb
    obtain ⟨v, e', hv, he, hblank⟩ := p.exists_blank_default_iff.mp ⟨e, hmem, hb⟩
    exact h (.blankDefault hv he hblank)

end TokenParts

/-- **The misfits are the objects whose tokens are malformed.** -/
theorem malformed_iff_misfit {members : Members} {token : String}
    (h : encodeField (.object members) = .ok token) : Malformed token ↔ Misfit members := by
  obtain ⟨p, htoken⟩ := exists_parts_of_encodeField h
  rw [p.malformed_iff_not_fits htoken, not_iff_comm]
  exact ⟨TokenParts.fits_of_not_misfit, TokenParts.Fits.not_misfit⟩

/-! ## What becomes of a field -/

/-- **What becomes of a field.** An object that passes the checks becomes a token, wherever it is,
which is malformed exactly if the object is a misfit; every other field is refused with its
position, and so is its entry if the document gets that far. -/
theorem encoded_or_refused (field : Value) :
    (∃ members token, field = .object members ∧ Passes members ∧
      (∀ t f, fieldToken t f field = .ok token) ∧ (Malformed token ↔ Misfit members)) ∨
    (∀ members, field = .object members → ¬ Passes members) ∧
      ∃ fault, ∀ t f : Nat,
        fieldToken t f field = .error (.document (some t) (some f) fault) ∧
          ∀ d : Document, d.ReadsField t f field →
            d.entry t = .error (.document (some t) (some f) fault) := by
  cases h : encodeField field with
  | ok token =>
    left
    obtain ⟨members, rfl⟩ : ∃ members, field = .object members := by
      cases field with
      | object members => exact ⟨members, rfl⟩
      | _ => exact nomatch h
    exact ⟨members, token, rfl, passes_of_encodeField h, fun t f => fieldToken_eq_ok_iff.mpr h,
      malformed_iff_misfit h⟩
  | error fault =>
    right
    have hrefused : ∀ t f, fieldToken t f field = .error (.document (some t) (some f) fault) :=
      fun t f => fieldToken_eq_error_iff.mpr ⟨fault, h, rfl⟩
    refine ⟨?_, fault, fun t f => ⟨hrefused t f, fun d hd => ?_⟩⟩
    · rintro members rfl hpasses
      obtain ⟨token, htoken⟩ := hpasses.exists_encodeField
      exact nomatch h.symm.trans htoken
    · exact Document.entry_of_refused hd (hrefused t f)

/-- A field whose default is empty. -/
def emptyDefault : Members := [("name", .string "a"), ("default", .string "")]

/-- It is encoded, and its token is malformed. -/
theorem malformed_emptyDefault :
    fieldToken 0 0 (.object emptyDefault) = .ok "a,default=" ∧ Misfit emptyDefault ∧
      Malformed "a,default=" := by
  have htoken : fieldToken 0 0 (.object emptyDefault) = .ok "a,default=" := rfl
  have hmisfit : Misfit emptyDefault := .blankDefault rfl (.string "") rfl
  rcases encoded_or_refused (.object emptyDefault) with
    ⟨members, token, he, -, ht, hiff⟩ | ⟨-, fault, ht⟩
  · obtain rfl := Value.object.inj he
    obtain rfl := Except.ok.inj (htoken.symm.trans (ht 0 0))
    exact ⟨htoken, hmisfit, hiff.mpr hmisfit⟩
  · exact nomatch htoken.symm.trans (ht 0 0).1

end Tablature.Batch
