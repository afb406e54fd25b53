import Tablature.Batch.Document
import Tablature.Proofs.Batch.FieldToken

/-!
# Proofs/Batch/FieldCheck — which field objects become tokens

`Passes` says what is asked of a field object: that each of its members says something of the kind
that a token has a part for.  `exists_fieldToken_iff`: nothing else is asked, so an object becomes a
token exactly if it passes.  From left to right this is the shape of a token (`TokenParts`); from
right to left there is one lemma for each part, by what its member says.
-/

namespace Tablature.Batch

open Json (Value)
open Tablature.Field (TargetText TypeText Attribute)

/-- Each part of a field object passes the check that is made of it. -/
structure Passes (members : Members) : Prop where
  name : ∃ s, members.get? ["name"] = some (.string s) ∧ isIdentifier (Text.trim s.toList)
  type : ∃ type, members.SaysType type ∧ ∀ text ∈ type, TypeText text
  flag : ∀ f : Flag, ∃ on, members.SaysFlag f.memberNames on
  reference : ∀ v, members.get? ["fk", "foreignkey", "references"] = some v →
    ∃ r, SaysReference v r ∧ isIdentifier r.table.toList ∧ isIdentifier r.column.toList
  default : ∀ v, members.get? ["default"] = some v →
    ∃ e, ScalarText v e ∧ (Text.Scan.top.pieces e.toList).2 = []

/-! ## What an object says, it is encoded with

One lemma for each part of a token, in the order in which they are written: where the members say
what the part asks for, the part is written and does not fail. -/

/-- What an object says of a flag is read, under whatever label a fault would have. -/
theorem flag_of_saysFlag {members : Members} {names : List String} {on : Bool} (label : String)
    (h : members.SaysFlag names on) : members.flag names label = .ok on := by
  rcases h with hget | ⟨hget, rfl⟩ <;> simp [Members.flag, hget]

/-- The symbols of a field's flags are written if the object says of each row whether it is set. -/
theorem exists_flagSymbols {members : Members} {rows : List (List String × String × Char)}
    (h : ∀ row ∈ rows, ∃ on, members.SaysFlag row.1 on) :
    ∃ cs, flagSymbols members rows = .ok cs := by
  induction rows with
  | nil => exact ⟨[], rfl⟩
  | cons row rows ih =>
    obtain ⟨on, hon⟩ := h row (by simp)
    obtain ⟨cs, hcs⟩ := ih fun r hr => h r (by simp [hr])
    exact exists_bind_eq_ok (flag_of_saysFlag row.2.1 hon) (exists_bind_eq_ok hcs ⟨_, rfl⟩)

theorem referenceName_of_identifier (role : ReferenceRole) {name : List Char}
    (h : isIdentifier name) : referenceName role name = .ok (String.ofList name) := if_pos h

/-- **The text of a target is a reference**: it is cut where the grammar has its parenthesis. -/
theorem exists_referenceOfText {names : List Char × Option (List Char)} {text : List Char}
    (h : TargetText names text) : ∃ parts, referenceOfText text = .ok parts := by
  cases h with
  | table ht =>
    have hcut : Text.cutAt '(' text = none :=
      Text.cutAt_eq_none (Field.notMem_identifier ht (by decide))
    rw [referenceOfText, hcut]
    exact exists_bind_eq_ok (referenceName_of_identifier .table ht) ⟨_, rfl⟩
  | @column table column ht hc =>
    have hcut := Text.cutAt_append (Field.notMem_identifier ht (by decide : isNameChar '(' = false))
      (column ++ [')'])
    have hclose : dropClosing? (column ++ [')']) = some column := dropClosing?_eq_some_iff.mpr rfl
    simp only [referenceOfText, hcut, hclose]
    exact exists_bind_eq_ok (referenceName_of_identifier .table ht)
      (exists_bind_eq_ok (referenceName_of_identifier .column hc) ⟨_, rfl⟩)

/-- An action that an object names, or none, is written as an attribute. -/
theorem exists_actionAttribute {members : Members} {label : String} {action : Option Action}
    (h : members.SaysAction label action) : ∃ texts, actionAttribute members label = .ok texts := by
  rcases h with ⟨hget, rfl⟩ | ⟨s, a, hget, ha, rfl⟩
  · exact ⟨[], by simp [actionAttribute, hget]⟩
  · exact ⟨[label ++ "=" ++ a.word], by simp [actionAttribute, hget, ha]⟩

/-- The column of a reference is written if it is an identifier, given or not. -/
theorem exists_referenceColumn {members : Members} {column : String}
    (h : members.get? ["column"] = none ∧ column = "id" ∨
      ∃ s, members.get? ["column"] = some (.string s) ∧ column = Text.strip s)
    (hid : isIdentifier column.toList) : ∃ col, referenceColumn members = .ok col := by
  rcases h with ⟨hget, -⟩ | ⟨s, hget, rfl⟩
  · exact ⟨none, by rw [referenceColumn, hget]⟩
  · rw [Text.toList_strip] at hid
    rw [referenceColumn, hget]
    exact ⟨_, map_eq_ok_iff.mpr ⟨_, referenceName_of_identifier .column hid, rfl⟩⟩

/-- **A value that says which reference it is becomes one** if the names of it are identifiers. -/
theorem exists_referenceParts {v : Value} {r : Reference} (h : SaysReference v r)
    (ht : isIdentifier r.table.toList) (hc : isIdentifier r.column.toList) :
    ∃ parts, referenceParts v = .ok parts := by
  cases h with
  | text hn => exact exists_referenceOfText hn
  | @object members _ table column onDelete onUpdate deferred =>
    obtain ⟨s, hget, hs⟩ := table
    rw [hs, Text.toList_strip] at ht
    have htable : referenceTable members = .ok (Text.strip s) := by
      rw [referenceTable, hget]
      exact referenceName_of_identifier .table ht
    obtain ⟨col, hcolumn⟩ := exists_referenceColumn column hc
    obtain ⟨deletes, hdeletes⟩ := exists_actionAttribute onDelete
    obtain ⟨updates, hupdates⟩ := exists_actionAttribute onUpdate
    have hdeferred := flag_of_saysFlag "deferred" deferred
    exact exists_bind_eq_ok htable <| exists_bind_eq_ok hcolumn <| exists_bind_eq_ok hdeletes <|
      exists_bind_eq_ok hupdates <| exists_bind_eq_ok hdeferred ⟨_, rfl⟩

/-- The member of a reference, if there is one, is written as a target with its attributes. -/
theorem exists_referencePart {members : Members}
    (h : ∀ v, members.get? ["fk", "foreignkey", "references"] = some v →
      ∃ r, SaysReference v r ∧ isIdentifier r.table.toList ∧ isIdentifier r.column.toList) :
    ∃ part, referencePart members = .ok part := by
  unfold referencePart
  cases hget : members.get? ["fk", "foreignkey", "references"] with
  | none => exact ⟨_, rfl⟩
  | some v =>
    obtain ⟨r, hr, ht, hc⟩ := h v hget
    obtain ⟨parts, hparts⟩ := exists_referenceParts hr ht hc
    exact exists_bind_eq_ok hparts ⟨_, rfl⟩

/-- A type that the grammar has is written. -/
theorem exists_typePart {members : Members} {type : Option (List Char)} (name : String)
    (h : members.SaysType type) (ht : ∀ text ∈ type, TypeText text) :
    ∃ part, typePart name members = .ok part := by
  rcases h with ⟨hget, -⟩ | ⟨s, hget, rfl⟩
  · exact ⟨"", by simp [typePart, hget]⟩
  · have htype := Field.isTypeName_iff.mpr (ht _ rfl)
    exact ⟨":" ++ Text.strip s, by simp [typePart, hget, htype]⟩

theorem defaultExpr_of_scalarText {v : Value} {e : String} (h : ScalarText v e) :
    defaultExpr v = .ok e := by
  cases h <;> rfl

/-- A default is written if it is a scalar whose text no comma would divide. -/
theorem exists_defaultPart {members : Members} (name : String)
    (h : ∀ v, members.get? ["default"] = some v →
      ∃ e, ScalarText v e ∧ (Text.Scan.top.pieces e.toList).2 = []) :
    ∃ texts, defaultPart name members = .ok texts := by
  unfold defaultPart
  cases hget : members.get? ["default"] with
  | none => exact ⟨[], rfl⟩
  | some v =>
    obtain ⟨e, he, huncut⟩ := h v hget
    have hlength : ¬ (Text.split e.toList).length > 1 := by simp [Text.split, huncut]
    refine exists_bind_eq_ok (defaultExpr_of_scalarText he) ⟨["default=" ++ e], ?_⟩
    rw [if_neg hlength]
    rfl

/-- The names in a target are identifiers, and attributes do not change them. -/
theorem isIdentifier_of_targetText {names : List Char × Option (List Char)} {target : List Char}
    (h : TargetText names target) (as : List Attribute) :
    isIdentifier (Attribute.amend as (Field.referenceOf names)).table.toList ∧
      isIdentifier (Attribute.amend as (Field.referenceOf names)).column.toList := by
  cases h with
  | table ht =>
    have hdefault : isIdentifier Reference.defaultColumn.toList := by decide
    exact ⟨by simpa [Attribute.amend, Field.referenceOf, Reference.ofTable] using ht, hdefault⟩
  | column ht hc => simp [Attribute.amend, Field.referenceOf, Reference.ofTable, ht, hc]

/-- **An object that is encoded passes**: what its token was made of says so. -/
theorem passes_of_encodeField {members : Members} {token : String}
    (h : encodeField (.object members) = .ok token) : Passes members := by
  obtain ⟨p, -⟩ := exists_parts_of_encodeField h
  refine ⟨?_, ⟨p.type, p.saysType, p.isType⟩, fun f => ⟨_, p.saysFlag f⟩, ?_, ?_⟩
  · obtain ⟨s, hget, hs⟩ := p.saysName
    refine ⟨s, hget, ?_⟩
    rw [← Text.toList_strip, ← hs, String.toList_ofList]
    exact p.isName
  · intro v hget
    rcases p.saysReference with ⟨-, -, hnone⟩ | ⟨v', n, hn, hget', hr⟩
    · simp [hget] at hnone
    · obtain rfl := Option.some.inj (hget.symm.trans hget')
      exact ⟨_, hr, isIdentifier_of_targetText (p.isTarget n hn) p.attributes⟩
  · intro v hget
    rcases p.saysDefault with ⟨hnone, -⟩ | ⟨v', e, hget', he, hd⟩
    · simp [hget] at hnone
    · obtain rfl := Option.some.inj (hget.symm.trans hget')
      exact ⟨e, he, p.uncut e hd⟩

/-- **An object that passes is encoded**, as each part of its token is written. -/
theorem Passes.exists_encodeField {members : Members} (h : Passes members) :
    ∃ token, encodeField (.object members) = .ok token := by
  obtain ⟨s, hget, hid⟩ := h.name
  have hname : fieldName members = .ok (Text.strip s) := by simp [fieldName, hget, hid]
  obtain ⟨type, htype, htext⟩ := h.type
  obtain ⟨part, hpart⟩ := exists_typePart (Text.strip s) htype htext
  obtain ⟨cs, hcs⟩ : ∃ cs, flagSymbols members fieldFlags = .ok cs := by
    refine exists_flagSymbols fun row hrow => ?_
    rw [fieldFlags_eq] at hrow
    obtain ⟨f, -, rfl⟩ := List.mem_map.mp hrow
    exact h.flag f
  obtain ⟨target, htarget⟩ := exists_referencePart h.reference
  obtain ⟨texts, htexts⟩ := exists_defaultPart (Text.strip s) h.default
  exact exists_bind_eq_ok hname <| exists_bind_eq_ok hpart <| exists_bind_eq_ok hcs <|
    exists_bind_eq_ok htarget <| exists_bind_eq_ok htexts ⟨_, rfl⟩

/-- **An object becomes a token** exactly if each of its parts passes its check. -/
theorem exists_fieldToken_iff {t f : Nat} {members : Members} :
    (∃ token, fieldToken t f (.object members) = .ok token) ↔ Passes members := by
  simp only [fieldToken_eq_ok_iff]
  exact ⟨fun ⟨_, h⟩ => passes_of_encodeField h, Passes.exists_encodeField⟩

end Tablature.Batch
