import Tablature.Proofs.Batch.TokenParts

/-!
# Proofs/Batch/FieldToken — a field object and the token it becomes say the same

`describes_of_fieldToken`: whenever an object becomes a token and the token is read back, it is read
as the column that the object describes (`Describes`).

What is read is a head and attributes.  A type that leaves a quote or a parenthesis open shields the
commas after it; but then the head goes on past a comma, and no head does
(`headText_before_comma`).  A type with an arrow in it is cut there, and what stands before the cut
is no definition.  So the token is divided where it was put together, each part is read back as it
was written, and the parts say what the members say.
-/

namespace Tablature

namespace Batch

open Json (Value)
open Tablature.Field (InlineType InlineText HeadText Attribute)

namespace TokenParts

variable {members : Members} (p : TokenParts members)

/-! ## What is read back -/

/-- The attribute of the default, if there is one. -/
def defaultAttribute : List Attribute :=
  p.default.toList.map fun e => .defaultTo (Text.strip e)

/-- **The text of a default is read** as that default, unless it is blank. -/
theorem attributeText_default_iff {referenced : Bool} {e : String} {a : Attribute} :
    Attribute.AttributeText referenced
        (Text.trim ("default".toList ++ '=' :: Text.trimEnd e.toList)) a ↔
      a = .defaultTo (Text.strip e) ∧ Text.trim e.toList ≠ [] := by
  have htrim : Text.trim ("default".toList ++ '=' :: Text.trimEnd e.toList) =
      "default".toList ++ '=' :: Text.trimEnd e.toList := by
    have hstart : Text.Stops Text.isBlank ("default".toList ++ ['=']) :=
      Text.stops_cons.mpr (by decide)
    rw [Text.trim_append_cons hstart (by decide), Text.trimEnd_trimEnd]
  constructor
  · intro h
    rw [Attribute.attributeText_iff (Text.trim_trim _), htrim,
      Attribute.keyValue_append (by decide), Text.trim_trimEnd] at h
    generalize hkey : (if "default".toList = [] then "default" else
      Attribute.keyOf "default".toList) = key at h
    generalize hvalue : some (Text.trim e.toList) = value at h
    have hkey' : key = "default" := hkey.symm.trans (by decide)
    cases h.2 with
    | flag => simp at hvalue
    | defaultTo _ he =>
      rw [← Option.some.inj hvalue] at he ⊢
      exact ⟨rfl, he⟩
    | onDelete => simp at hkey'
    | onUpdate => simp at hkey'
    | deferred _ hk => simp [hkey'] at hk
  · rintro ⟨rfl, hne⟩
    rw [htrim, Text.strip, ← Text.trim_trimEnd]
    exact .defaultTo (by decide) (.inr (by decide)) (by rwa [Text.trim_trimEnd])

/-- What is read from the text of an attribute of a reference is that attribute. -/
theorem eq_of_referenceAttribute {a b : Attribute} {text : String} (h : ReferenceAttribute a text)
    (hb : Attribute.AttributeText true (Text.trim text.toList) b) : b = a := by
  have hread := Attribute.read_eq_ok_iff.mpr hb
  rw [h.read] at hread
  exact (Except.ok.inj hread).symm

/-- Texts that start with the attributes of a reference are read as these and more. -/
theorem forall₂_written_iff {referenced : Bool} {bs as : List Attribute} {texts : List String}
    {rest : List (List Char)} (hr : bs ≠ [] → referenced = true)
    (hw : List.Forall₂ ReferenceAttribute bs texts) :
    List.Forall₂ (fun t a => Attribute.AttributeText referenced (Text.trim t) a)
        (texts.map String.toList ++ rest) as ↔
      ∃ ds, as = bs ++ ds ∧
        List.Forall₂ (fun t a => Attribute.AttributeText referenced (Text.trim t) a) rest ds := by
  induction hw generalizing as with
  | nil => simp
  | cons hb _ ih =>
    obtain rfl : referenced = true := hr (by simp)
    constructor
    · intro h
      obtain ⟨a, as', ha, h', rfl⟩ := List.forall₂_cons_left_iff.mp h
      obtain ⟨ds, rfl, hds⟩ := (ih fun _ => rfl).mp h'
      obtain rfl := eq_of_referenceAttribute hb ha
      exact ⟨ds, rfl, hds⟩
    · rintro ⟨ds, rfl, hds⟩
      exact .cons (Attribute.read_eq_ok_iff.mp hb.read) ((ih fun _ => rfl).mpr ⟨ds, rfl, hds⟩)

/-- **The attributes that are read are those that were written**; they are read unless the default
is blank. -/
theorem forall₂_texts_iff {referenced : Bool} {as : List Attribute}
    (hr : p.names.isSome = true → referenced = true) :
    List.Forall₂ (fun t a => Attribute.AttributeText referenced (Text.trim t) a)
        (p.texts Text.trimEnd) as ↔
      as = p.attributes ++ p.defaultAttribute ∧ ∀ e ∈ p.default, Text.trim e.toList ≠ [] := by
  have hattributes : p.attributes ≠ [] → referenced = true := by
    intro hne
    rcases p.saysReference with ⟨-, hnil, -⟩ | ⟨v, n, hn, -⟩
    · exact absurd hnil hne
    · exact hr (by simp [hn])
  rw [texts, forall₂_written_iff hattributes p.isWritten, defaultAttribute]
  cases p.default with
  | none => simp
  | some e =>
    simp only [Option.toList_some, List.map_singleton, List.forall₂_cons_left_iff,
      List.forall₂_nil_left_iff, attributeText_default_iff, Option.mem_some_iff, forall_eq']
    constructor
    · rintro ⟨_, rfl, _, _, ⟨rfl, he⟩, rfl, rfl⟩
      exact ⟨rfl, he⟩
    · rintro ⟨rfl, he⟩
      exact ⟨_, rfl, _, _, ⟨rfl, he⟩, rfl, rfl⟩

/-- What a head that is read from the token's definition and target says of its type and
reference. -/
inductive ReadsHead (head : Field.Head) : Prop
  | untyped (hn : p.names = none) (ht : p.type = none) (hs : head.storage = none)
    (hr : head.reference = none) : ReadsHead head
  | typed {type : List Char} (hn : p.names = none) (ht : p.type = some type)
    (hi : ∀ body, ¬ InlineType type body) (hs : head.storage = some (.ofAlias type))
    (hr : head.reference = none) : ReadsHead head
  | inline {type body : List Char} {names : List Char × Option (List Char)} (hn : p.names = none)
    (ht : p.type = some type) (hi : InlineType type body) (hb : InlineText names (Text.trim body))
    (hs : head.storage = some .integer) (hr : head.reference = some (Field.referenceOf names)) :
    ReadsHead head
  | arrow {names : List Char × Option (List Char)} (hn : p.names = some names)
    (hi : ∀ type ∈ p.type, ∀ body, ¬ InlineType type body)
    (hs : head.storage = some ((p.type.map Storage.ofAlias).getD .integer))
    (hr : head.reference = some (Field.referenceOf names)) : ReadsHead head

/-- **What stands before the attributes is the whole head**, and says what the parts say. -/
theorem readsHead_of_headText {rest : List Char} {head : Field.Head} (hrest : Field.CommaOrEnd rest)
    (h : HeadText (p.head ++ rest) head) :
    rest = [] ∧ head.name = String.ofList p.name ∧ head.constraints = .ofFlags p.flags ∧
      p.ReadsHead head := by
  have hdef := p.definitionText
  unfold TokenParts.head at h
  cases hn : p.names with
  | none =>
    rw [hn, arrowChars, List.append_nil] at h
    obtain ⟨hnil, hname, hflags, hcases⟩ := Field.headText_before_comma hdef hrest h
    refine ⟨hnil, hname, hflags, ?_⟩
    rcases hcases with
      ⟨ht, hs, hr⟩ | ⟨type, ht, hi, hs, hr⟩ | ⟨type, body, names, ht, hi, hb, hs, hr⟩
    · exact .untyped hn ht hs hr
    · exact .typed hn ht hi hs hr
    · exact .inline hn ht hi hb hs hr
  | some names =>
    rw [hn, arrowChars, List.append_assoc, List.cons_append, List.cons_append] at h
    obtain ⟨hnil, hname, hflags, hi, hs, hr⟩ :=
      Field.headText_arrow_before_comma hdef (p.isTarget names hn) hrest h
    exact ⟨hnil, hname, hflags, .arrow hn hi hs hr⟩

/-- A head with an arrow in it has a reference. -/
theorem ReadsHead.isSome_reference {p : TokenParts members} {head : Field.Head}
    (h : p.ReadsHead head) (hn : p.names.isSome = true) : head.reference.isSome = true := by
  cases h with
  | arrow _ _ _ hr => simp [hr]
  | untyped hnone => simp [hnone] at hn
  | typed hnone => simp [hnone] at hn
  | inline hnone => simp [hnone] at hn

/-- If the first piece is a head, the attributes were divided from it. -/
theorem run_top_of_headText {head : Field.Head}
    (h : HeadText
      (Text.Scan.top.pieces (p.head ++ Text.Scan.commaTexts (p.texts Text.trimEnd))).1 head) :
    p.texts Text.trimEnd = [] ∨ Text.Scan.top.run p.head = Text.Scan.top := by
  by_contra hopen
  obtain ⟨x, hx⟩ := p.exists_inner_comma hopen
  obtain ⟨hnil, -⟩ := p.readsHead_of_headText (.inr ⟨x, rfl⟩) (hx ▸ h)
  simp at hnil

/-- **The column that is read is that of the head and the attributes that were written.** -/
theorem exists_head_of_columnText {c : Column}
    (h : Field.ColumnText (p.head ++ Text.Scan.commaTexts (p.texts Text.trimEnd)) c) :
    ∃ head, head.name = String.ofList p.name ∧ head.constraints = .ofFlags p.flags ∧
      p.ReadsHead head ∧ Field.Denotes head (p.attributes ++ p.defaultAttribute) c := by
  obtain ⟨first, others, head, as, hsplit, hhead, has, hc⟩ := h.parts
  obtain ⟨rfl, rfl⟩ := List.cons.inj hsplit
  have hpieces := p.pieces_token (p.run_top_of_headText hhead)
  rw [hpieces] at hhead has
  obtain ⟨-, hname, hflags, hreads⟩ :=
    p.readsHead_of_headText (.inl rfl) (by rwa [List.append_nil])
  refine ⟨head, hname, hflags, hreads, ?_⟩
  rwa [((p.forall₂_texts_iff hreads.isSome_reference).mp has).1] at hc

/-! ## What the attributes of a token leave alone -/

/-- No attribute of a token is a flag. -/
theorem flag_notMem_attributes (f : Flag) :
    Attribute.flag f ∉ p.attributes ++ p.defaultAttribute := by
  have hwritten : ∀ {as : List Attribute} {texts : List String},
      List.Forall₂ ReferenceAttribute as texts → Attribute.flag f ∉ as := by
    intro as texts hw
    induction hw with
    | nil => simp
    | cons h _ ih => cases h <;> simpa using ih
  have hdefault : Attribute.flag f ∉ p.defaultAttribute := by
    cases hd : p.default <;> simp [defaultAttribute, hd]
  simpa [hdefault] using hwritten p.isWritten

/-- The default of the attributes is the object's. -/
theorem last?_expr?_attributes :
    Attribute.last? Attribute.expr? (p.attributes ++ p.defaultAttribute) =
      p.default.map Text.strip := by
  have hwritten : ∀ {as : List Attribute} {texts : List String},
      List.Forall₂ ReferenceAttribute as texts → as.filterMap Attribute.expr? = [] := by
    intro as texts hw
    induction hw with
    | nil => rfl
    | cons h _ ih => cases h <;> simpa [Attribute.expr?] using ih
  rw [Attribute.last?, List.filterMap_append, hwritten p.isWritten]
  cases hd : p.default <;> simp [defaultAttribute, hd, Attribute.expr?]

/-- The default does not amend the reference. -/
theorem amend_attributes (r : Reference) :
    Attribute.amend (p.attributes ++ p.defaultAttribute) r = Attribute.amend p.attributes r := by
  cases hd : p.default <;>
    simp [defaultAttribute, hd, Attribute.amend, Attribute.last?, Attribute.deleteAction?,
      Attribute.updateAction?]

/-! ## The column an object describes -/

variable {p} {head : Field.Head} {c : Column}

/-- The storage class that is read is the one the members say. -/
theorem saysStorage_of_denotes (hh : p.ReadsHead head)
    (h : Field.Denotes head (p.attributes ++ p.defaultAttribute) c) : SaysStorage c p.type := by
  have hreference := h.reference
  have hstorage := h.storage
  cases hh with
  | untyped hn ht hs hr =>
    rw [hr, Option.map_none] at hreference
    rw [hs, Option.getD_none] at hstorage
    exact ht ▸ .untyped (by simpa [hreference] using hstorage)
  | typed hn ht hi hs hr =>
    rw [hs, Option.getD_some] at hstorage
    exact ht ▸ .typed hi hstorage
  | inline hn ht hi hb hs hr =>
    rw [hs, Option.getD_some] at hstorage
    exact ht ▸ .inline hi hstorage
  | arrow hn hi hs hr =>
    rw [hr, Option.map_some] at hreference
    rw [hs, Option.getD_some] at hstorage
    cases ht : p.type with
    | none => exact .untyped (by simpa [hreference, ht] using hstorage)
    | some type => exact .typed (hi type ht) (by simpa [ht] using hstorage)

/-- The reference that is read is the one the members say. -/
theorem saysFieldReference_of_denotes (hh : p.ReadsHead head)
    (h : Field.Denotes head (p.attributes ++ p.defaultAttribute) c) :
    SaysFieldReference members p.type c.reference := by
  have hreference := h.reference
  -- without a target in the token the object has no member for it
  have hmember : p.names = none → p.attributes = [] ∧
      members.get? ["fk", "foreignkey", "references"] = none := by
    intro hn
    rcases p.saysReference with ⟨-, hnil, hget⟩ | ⟨v, n, hn', -⟩
    · exact ⟨hnil, hget⟩
    · simp [hn] at hn'
  cases hh with
  | untyped hn ht hs hr =>
    rw [hr, Option.map_none] at hreference
    exact hreference ▸ .none (hmember hn).2 (by simp [ht])
  | typed hn ht hi hs hr =>
    rw [hr, Option.map_none] at hreference
    exact hreference ▸ .none (hmember hn).2 (by simpa [ht] using hi)
  | inline hn ht hi hb hs hr =>
    have hamend : Attribute.amend [] = id := by
      funext r
      simp [Attribute.amend]
    rw [hr, Option.map_some, p.amend_attributes, (hmember hn).1, hamend] at hreference
    exact hreference ▸ .inline (hmember hn).2 ht hi hb
  | arrow hn hi hs hr =>
    rw [hr, Option.map_some, p.amend_attributes] at hreference
    rcases p.saysReference with ⟨hn', -⟩ | ⟨v, n, hn', hget, hsays⟩
    · simp [hn] at hn'
    · obtain rfl := Option.some.inj (hn.symm.trans hn')
      exact hreference ▸ .member hget hsays

/-- **A column made of the parts that an object gives its token is the column it describes.** -/
theorem describes_of_denotes (hname : head.name = String.ofList p.name)
    (hflags : head.constraints = .ofFlags p.flags) (hh : p.ReadsHead head)
    (h : Field.Denotes head (p.attributes ++ p.defaultAttribute) c) : Describes members c where
  name := by
    obtain ⟨s, hget, hs⟩ := p.saysName
    exact ⟨s, hget, by rw [h.name, hname, hs]⟩
  flag f := by
    have hf : c.constraints.has f = decide (f ∈ p.flags) := by
      rw [Bool.eq_iff_iff, h.flag f, hflags, Constraints.has_ofFlags, decide_eq_true_iff]
      exact or_iff_left (p.flag_notMem_attributes f)
    exact hf ▸ p.saysFlag f
  defaultExpr := by
    have he := h.defaultExpr
    rw [p.last?_expr?_attributes, hflags, Constraints.defaultExpr_ofFlags, Option.or_none] at he
    rcases p.saysDefault with ⟨hget, hd⟩ | ⟨v, e, hget, hv, hd⟩
    · exact .inl ⟨hget, by simpa [hd] using he⟩
    · exact .inr ⟨v, e, hget, hv, by simpa [hd] using he⟩
  type := ⟨p.type, p.saysType, saysStorage_of_denotes hh h, saysFieldReference_of_denotes hh h⟩

end TokenParts

/-- A field's token does not depend on where the field is. -/
theorem fieldToken_eq_ok_iff {t f : Nat} {value : Value} {token : String} :
    fieldToken t f value = .ok token ↔ encodeField value = .ok token :=
  mapError_eq_ok_iff

/-- **What is wrong with a field is reported where the field is.** -/
theorem fieldToken_eq_error_iff {t f : Nat} {value : Value} {e : Error} :
    fieldToken t f value = .error e ↔
      ∃ fault, encodeField value = .error fault ∧ .document (some t) (some f) fault = e :=
  mapError_eq_error_iff

/-- **No field is misread.** A value that becomes a token is an object, and if the token is read,
it is read as the column that the object describes. -/
theorem describes_of_fieldToken {t f : Nat} {value : Value} {token : String} {field : Field}
    (ht : fieldToken t f value = .ok token) (hf : Field.ofToken token = .ok field) :
    ∃ members c, value = .object members ∧ field = .column c ∧ Describes members c := by
  rw [fieldToken_eq_ok_iff] at ht
  obtain ⟨members, rfl⟩ : ∃ members, value = .object members := by
    cases value with
    | object members => exact ⟨members, rfl⟩
    | _ => exact nomatch ht
  obtain ⟨p, htoken⟩ := exists_parts_of_encodeField ht
  rw [Field.ofToken, htoken, p.trim_token] at hf
  obtain ⟨c, rfl⟩ : ∃ c, field = .column c := by
    cases field with
    | column c => exact ⟨c, rfl⟩
    | indexOn name =>
      -- a directive starts with `^`, a token with a letter of a name
      have hshape := (Field.ofTrimmed_eq_indexOn_iff.mp hf).shape
      obtain ⟨x, xs, hname, hx⟩ := exists_cons_of_identifier p.isName
      simp only [TokenParts.head, TokenParts.definition, hname, List.cons_append,
        List.cons.injEq] at hshape
      rw [hshape.1] at hx
      exact absurd hx (by decide)
  obtain ⟨head, hname, hflags, hreads, hc⟩ :=
    p.exists_head_of_columnText (Field.ofTrimmed_eq_column_iff.mp hf)
  exact ⟨members, c, rfl, rfl, TokenParts.describes_of_denotes hname hflags hreads hc⟩

/-- A field with a comma and a quote in its type, and an arrow, a comma and an `=` in its
default. -/
def quotedField : Members :=
  [("name", .string " price "), ("type", .string "numeric(10,'a,b')"), ("not_null", .bool true),
    ("references", .object [("table", .string "users"), ("on_delete", .string "Cascade"),
      ("deferred", .bool true)]),
    ("default", .string "'-> , =' ")]

/-- The column it describes. -/
def quotedColumn : Column where
  name := "price"
  storage := .other "NUMERIC(10,'A,B')"
  constraints := { notNull := true, defaultExpr := some "'-> , ='" }
  reference :=
    some { table := "users", column := "id", onDelete := some .cascade, deferred := true }

/-- The column of a field with commas, quotes and arrows in its free texts. -/
theorem describes_quotedColumn :
    fieldToken 0 0 (.object quotedField) =
        .ok "price:numeric(10,'a,b')!->users,ondelete=cascade,defer,default='-> , =' " ∧
      Field.ofToken "price:numeric(10,'a,b')!->users,ondelete=cascade,defer,default='-> , =' " =
        .ok (.column quotedColumn) ∧
      Describes quotedField quotedColumn := by
  have ht : fieldToken 0 0 (.object quotedField) =
      .ok "price:numeric(10,'a,b')!->users,ondelete=cascade,defer,default='-> , =' " := rfl
  have hf :
      Field.ofToken "price:numeric(10,'a,b')!->users,ondelete=cascade,defer,default='-> , =' " =
        .ok (.column quotedColumn) := rfl
  obtain ⟨members, c, hvalue, hfield, h⟩ := describes_of_fieldToken ht hf
  obtain rfl := Value.object.inj hvalue
  obtain rfl := Field.column.inj hfield
  exact ⟨ht, hf, h⟩

end Batch

end Tablature
