import Tablature.Proofs.Batch.Describes
import Tablature.Proofs.Field.Reading
import Tablature.Proofs.Field.Scan

/-!
# Proofs/Batch/TokenParts — how a field's token is made, and how it is divided

A token is a definition, perhaps a target, and attributes after commas: `TokenParts` has these parts
with what the members of the object say of them, and `exists_parts_of_encodeField` gives them for
every token.  The texts in a token are free only inside the parenthesis of a type and in the
default, and the default comes last, so that a token is divided where it was put together
(`pieces_token`), unless a type leaves a quote or a parenthesis open.
-/

namespace Tablature

namespace Batch

open Json (Value)
open Tablature.Field (TargetText TypeText DefinitionText Attribute symbols)

/-! ## The shape of a token -/

/-- The parts that the members of a field object give its token, and what the members say. -/
structure TokenParts (members : Members) where
  name : List Char
  type : Option (List Char)
  flags : List Flag
  names : Option (List Char × Option (List Char))
  attributes : List Attribute
  attributeTexts : List String
  default : Option String
  isName : isIdentifier name
  isType : ∀ text ∈ type, TypeText text
  isTarget : ∀ n ∈ names, TargetText n (targetChars n)
  isWritten : List.Forall₂ ReferenceAttribute attributes attributeTexts
  uncut : ∀ e ∈ default, (Text.Scan.top.pieces e.toList).2 = []
  saysName : ∃ s, members.get? ["name"] = some (.string s) ∧ String.ofList name = Text.strip s
  saysType : members.SaysType type
  saysFlag : ∀ f : Flag, members.SaysFlag f.memberNames (decide (f ∈ flags))
  saysReference :
    names = none ∧ attributes = [] ∧ members.get? ["fk", "foreignkey", "references"] = none ∨
      ∃ v n, names = some n ∧ members.get? ["fk", "foreignkey", "references"] = some v ∧
        SaysReference v (Attribute.amend attributes (Field.referenceOf n))
  saysDefault : members.get? ["default"] = none ∧ default = none ∨
    ∃ v e, members.get? ["default"] = some v ∧ ScalarText v e ∧ default = some e

namespace TokenParts

variable {members : Members} (p : TokenParts members)

/-- The definition of the column. -/
def definition : List Char := p.name ++ (typeChars p.type ++ symbols p.flags)

/-- All that comes before the attributes. -/
def head : List Char := p.definition ++ arrowChars p.names

/-- The attributes; `trimmed` says what is left of the default. -/
def texts (trimmed : List Char → List Char) : List (List Char) :=
  p.attributeTexts.map String.toList ++
    p.default.toList.map fun e => "default".toList ++ '=' :: trimmed e.toList

end TokenParts

/-- **A token is a definition, a target and attributes after commas.** -/
theorem exists_parts_of_encodeField {members : Members} {token : String}
    (h : encodeField (.object members) = .ok token) :
    ∃ p : TokenParts members, token.toList = p.head ++ Text.Scan.commaTexts (p.texts id) := by
  obtain ⟨name, hname, h⟩ := bind_eq_ok_iff.mp h
  obtain ⟨type, htype, h⟩ := bind_eq_ok_iff.mp h
  obtain ⟨cs, hflags, h⟩ := bind_eq_ok_iff.mp h
  obtain ⟨⟨target, attributes⟩, hreference, h⟩ := bind_eq_ok_iff.mp h
  obtain ⟨default, hdefault, h⟩ := bind_eq_ok_iff.mp h
  obtain rfl := Except.ok.inj h
  obtain ⟨hid, s, hs, rfl⟩ := exists_of_fieldName hname
  obtain ⟨ty, hty, htyText, htyChars⟩ := exists_of_typePart htype
  obtain ⟨on, rfl, -, hon⟩ := exists_of_flagSymbols (by decide) (fieldFlags_eq ▸ hflags)
  obtain ⟨names, as, htarget, hnames, has, hsay⟩ := exists_of_referencePart hreference
  have hjoin : ∀ l : List String,
      (String.join (l.map ("," ++ ·))).toList = Text.Scan.commaTexts (l.map String.toList) := by
    intro l
    induction l with
    | nil => rfl
    | cons a l ih => simpa [Text.Scan.commaTexts] using ih
  have hsays : ∃ s', members.get? ["name"] = some (.string s') ∧
      String.ofList (Text.strip s).toList = Text.strip s' := ⟨s, hs, by rw [String.ofList_toList]⟩
  obtain ⟨default, rfl, huncut, hsaysDefault⟩ := exists_of_defaultPart hdefault
  refine ⟨⟨(Text.strip s).toList, ty, on, names, as, attributes, default, hid, htyText, hnames, has,
    huncut, hsays, hty, fun f => hon f (by cases f <;> simp), hsay, hsaysDefault⟩, ?_⟩
  simp only [String.toList_append, String.toList_ofList, htyChars, htarget, hjoin,
    TokenParts.head, TokenParts.definition, TokenParts.texts]
  simp [Function.comp_def]

/-! ## How a token is divided

The only free texts before the attributes are the name, the target and what a type has in its
parenthesis; of these only the last can hold a comma, and it stands under a parenthesis. -/

namespace TokenParts

variable {members : Members} (p : TokenParts members)

/-- The name, the type and the flags make a definition. -/
theorem definitionText : DefinitionText ⟨p.name, p.type, p.flags⟩ p.definition := by
  unfold definition
  cases htype : p.type with
  | none => exact .bare p.isName
  | some type =>
    have htyped : DefinitionText ⟨p.name, some type, [] ++ p.flags⟩
        (p.name ++ symbols [] ++ ':' :: (type ++ symbols p.flags)) :=
      .typed p.isName (p.isType type htype)
    simpa [typeChars] using htyped

/-- An arrow and its target are inert. -/
theorem inert_arrow : Text.Scan.Inert (arrowChars p.names) := by
  cases hn : p.names with
  | none => exact Text.Scan.inert_of_all rfl
  | some n =>
    have harrow : Text.Scan.Inert ['-', '>'] := Text.Scan.inert_of_all (by decide)
    exact harrow.append (Field.inert_of_targetText (p.isTarget n hn))

/-- The text before the attributes has no comma at the top. -/
theorem uncut_head : (Text.Scan.top.pieces p.head).2 = [] :=
  Text.Scan.uncut_append p.definitionText.uncut (p.inert_arrow.uncut _)

end TokenParts

/-- A text whose last character is no blank. -/
def EndsPlain (cs : List Char) : Prop := ∃ a c, cs = a ++ [c] ∧ Text.isBlank c = false

theorem EndsPlain.append {cs : List Char} (h : EndsPlain cs) (a : List Char) :
    EndsPlain (a ++ cs) := by
  obtain ⟨b, c, rfl, hc⟩ := h
  exact ⟨a ++ b, c, by simp, hc⟩

/-- The attributes of a reference hold nothing that quotes, brackets, divides or is blank. -/
theorem ReferenceAttribute.chars {a : Attribute} {text : String} (h : ReferenceAttribute a text) :
    text.toList ≠ [] ∧
      ∀ c ∈ text.toList, Text.Scan.isPlain c ∧ c ≠ ',' ∧ Text.isBlank c = false := by
  have hall : text.toList.isEmpty = false ∧
      text.toList.all (fun c => Text.Scan.isPlain c && c != ',' && !Text.isBlank c) = true := by
    cases h with
    | onDelete a => cases a <;> exact ⟨rfl, rfl⟩
    | onUpdate a => cases a <;> exact ⟨rfl, rfl⟩
    | deferred => exact ⟨rfl, rfl⟩
  refine ⟨by simpa using hall.1, fun c hc => ?_⟩
  simpa [and_assoc] using List.all_eq_true.mp hall.2 c hc

theorem ReferenceAttribute.endsPlain {a : Attribute} {text : String}
    (h : ReferenceAttribute a text) : EndsPlain text.toList := by
  obtain ⟨hne, hchars⟩ := h.chars
  exact ⟨text.toList.dropLast, text.toList.getLast hne,
    (List.dropLast_concat_getLast hne).symm, (hchars _ (List.getLast_mem hne)).2.2⟩

/-- **An attribute of a reference is read back as what it was written for.** -/
theorem ReferenceAttribute.read {a : Attribute} {text : String} (h : ReferenceAttribute a text) :
    Attribute.read true text.toList = .ok a := by
  cases h with
  | onDelete a => cases a <;> rfl
  | onUpdate a => cases a <;> rfl
  | deferred => rfl

namespace TokenParts

variable {members : Members} (p : TokenParts members)

/-- The text before the attributes does not end with a blank. -/
theorem endsPlain_head : EndsPlain p.head := by
  have hdefinition : EndsPlain p.definition := by
    obtain ⟨a, c, he, hc⟩ := Field.exists_concat_of_definitionText p.definitionText
    exact ⟨a, c, he, Field.isBlank_of_endsDefinition hc⟩
  unfold head
  cases hn : p.names with
  | none => simpa [arrowChars] using hdefinition
  | some n =>
    have htarget : EndsPlain (targetChars n) :=
      (p.isTarget n hn).exists_concat (List.forall_mem_singleton.mpr (by decide))
    exact (htarget.append ['-', '>']).append p.definition

theorem stops_head (rest : List Char) : Text.Stops Text.isBlank (p.head ++ rest) := by
  obtain ⟨c, cs, hname, hc⟩ := exists_cons_of_identifier p.isName
  have hblank := isBlank_of_isNameChar (isNameChar_of_isNameStart hc)
  simp [head, definition, hname, hblank]

/-- A reference's attribute among the texts of a token. -/
theorem exists_of_mem_attributeTexts {text : String} (h : text ∈ p.attributeTexts) :
    ∃ a, ReferenceAttribute a text := by
  have hall : ∀ {as : List Attribute} {texts : List String},
      List.Forall₂ ReferenceAttribute as texts →
        ∀ text ∈ texts, ∃ a, ReferenceAttribute a text := by
    intro as texts hw
    induction hw with
    | nil => simp
    | cons h _ ih =>
      intro text hmem
      rcases List.mem_cons.mp hmem with rfl | hmem
      · exact ⟨_, h⟩
      · exact ih text hmem
  exact hall p.isWritten text h

/-- **Only the default is trimmed**, and it only at its end. -/
theorem trim_token : Text.trim (p.head ++ Text.Scan.commaTexts (p.texts id)) =
    p.head ++ Text.Scan.commaTexts (p.texts Text.trimEnd) := by
  unfold texts
  cases p.default with
  | none =>
    have hends : EndsPlain
        (p.head ++ Text.Scan.commaTexts (p.attributeTexts.map String.toList)) := by
      rcases List.eq_nil_or_concat p.attributeTexts with hnil | ⟨ts, t, hts⟩
      · simpa [hnil] using p.endsPlain_head
      · obtain ⟨a, ha⟩ : ∃ a, ReferenceAttribute a t :=
          p.exists_of_mem_attributeTexts (by simp [hts])
        rw [hts, List.concat_eq_append, List.map_append, Text.Scan.commaTexts_append]
        refine (EndsPlain.append ?_ _).append _
        simpa using ha.endsPlain.append [',']
    obtain ⟨a, c, he, hc⟩ := hends
    have hstart := p.stops_head (Text.Scan.commaTexts (p.attributeTexts.map String.toList))
    simp only [Option.toList_none, List.map_nil, List.append_nil]
    rw [he] at hstart ⊢
    exact Text.trim_of_ends hstart hc
  | some e =>
    have hshape : ∀ cs, p.head ++ Text.Scan.commaTexts (p.attributeTexts.map String.toList ++
        ["default".toList ++ '=' :: cs]) = (p.head ++ (Text.Scan.commaTexts
          (p.attributeTexts.map String.toList) ++ ',' :: "default".toList)) ++ '=' :: cs := by
      intro cs
      simp [Text.Scan.commaTexts_append]
    simp only [Option.toList_some, List.map_cons, List.map_nil, id_eq, hshape]
    refine Text.trim_append_cons ?_ (by decide)
    rw [List.append_assoc]
    exact p.stops_head _

/-- No attribute of a token is divided. -/
theorem uncut_texts : ∀ t ∈ p.texts Text.trimEnd, (Text.Scan.top.pieces t).2 = [] := by
  intro t ht
  rcases List.mem_append.mp ht with ht | ht
  · obtain ⟨text, hmem, rfl⟩ := List.mem_map.mp ht
    obtain ⟨a, ha⟩ := p.exists_of_mem_attributeTexts hmem
    rw [Text.Scan.pieces_of_no_comma _ fun hc => (ha.chars.2 _ hc).2.1 rfl]
  · obtain ⟨e, hmem, rfl⟩ := List.mem_map.mp ht
    have hkey : Text.Scan.top.run ("default".toList ++ ['=']) = Text.Scan.top := by decide
    obtain ⟨blanks, hblanks⟩ := Text.exists_trimEnd_append e.toList
    have he := p.uncut e (by simpa using hmem)
    rw [hblanks] at he
    rw [show "default".toList ++ '=' :: Text.trimEnd e.toList =
      ("default".toList ++ ['=']) ++ Text.trimEnd e.toList by simp]
    refine Text.Scan.uncut_append (by decide) ?_
    rw [hkey]
    exact Text.Scan.uncut_of_append he

/-- After every attribute but the default, which is the last, a scan is back at the top. -/
theorem run_top_of_mem_dropLast {t : List Char} (h : t ∈ (p.texts Text.trimEnd).dropLast) :
    Text.Scan.top.run t = Text.Scan.top := by
  have hmem : t ∈ p.attributeTexts.map String.toList := by
    unfold texts at h
    cases hd : p.default with
    | none =>
      rw [hd, Option.toList_none, List.map_nil, List.append_nil] at h
      exact List.dropLast_subset _ h
    | some e =>
      rw [hd, Option.toList_some, List.map_singleton, List.dropLast_concat] at h
      exact h
  obtain ⟨text, htext, rfl⟩ := List.mem_map.mp hmem
  obtain ⟨a, ha⟩ := p.exists_of_mem_attributeTexts htext
  exact Text.Scan.run_top_of_plain fun c hc => (ha.chars.2 c hc).1

/-- The attributes are divided from the head unless it leaves a quote or a parenthesis open. -/
theorem pieces_token
    (hfree : p.texts Text.trimEnd = [] ∨ Text.Scan.top.run p.head = Text.Scan.top) :
    Text.Scan.top.pieces (p.head ++ Text.Scan.commaTexts (p.texts Text.trimEnd)) =
      (p.head, p.texts Text.trimEnd) := by
  refine Text.Scan.pieces_append_commaTexts p.uncut_head p.uncut_texts fun t ht => ?_
  by_cases hne : p.texts Text.trimEnd = []
  · simp [hne] at ht
  · rw [List.dropLast_cons_of_ne_nil hne] at ht
    rcases List.mem_cons.mp ht with rfl | ht
    · exact hfree.resolve_left hne
    · exact p.run_top_of_mem_dropLast ht

/-- If it leaves one open, the first piece goes on past a comma. -/
theorem exists_inner_comma
    (hopen : ¬ (p.texts Text.trimEnd = [] ∨ Text.Scan.top.run p.head = Text.Scan.top)) :
    ∃ x, (Text.Scan.top.pieces (p.head ++ Text.Scan.commaTexts (p.texts Text.trimEnd))).1 =
      p.head ++ ',' :: x := by
  obtain ⟨hne, htop⟩ := not_or.mp hopen
  obtain ⟨t, ts, hts⟩ := List.exists_cons_of_ne_nil hne
  rw [hts, Text.Scan.commaTexts_cons]
  exact Text.Scan.pieces_append_inner_comma p.uncut_head htop _

end TokenParts

end Batch

end Tablature
