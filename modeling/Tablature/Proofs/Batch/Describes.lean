import Tablature.Batch.FieldToken
import Tablature.Proofs.Field.Grammar

/-!
# Proofs/Batch/Describes — the column that a field object describes

`Describes` states, member by member, which column a field object describes; it mentions neither
tokens nor their grammar.  The rest of the module reads the writer of tokens backwards, one part at
a time: where a part is written, the lemma for it names what the members say and the text that was
written for it.
-/

namespace Tablature

/-- The names of the member that sets a flag. -/
def Flag.memberNames : Flag → List String
  | .notNull => ["notnull"]
  | .unique => ["unique"]
  | .index => ["index"]
  | .primaryKey => ["pk", "primary", "primarykey"]
  | .autoIncrement => ["autoincrement", "ai"]

namespace Batch

open Json (Value)
open Tablature.Field (InlineType InlineText TargetText TypeText Attribute symbols)

/-! ## What an object describes -/

/-- An object says of a flag whether it is set; one that says nothing leaves it unset. -/
def Members.SaysFlag (members : Members) (names : List String) (on : Bool) : Prop :=
  members.get? names = some (.bool on) ∨ members.get? names = none ∧ on = false

/-- An object names an action, or none. -/
def Members.SaysAction (members : Members) (name : String) (action : Option Action) : Prop :=
  members.get? [name] = none ∧ action = none ∨
    ∃ s a, members.get? [name] = some (.string s) ∧ Action.ofText? s.toList = some a ∧
      action = some a

/-- An object names a type, or none. -/
def Members.SaysType (members : Members) (type : Option (List Char)) : Prop :=
  members.get? ["type"] = none ∧ type = none ∨
    ∃ s, members.get? ["type"] = some (.string s) ∧ type = some (Text.trim s.toList)

/-- The text of a scalar. -/
inductive ScalarText : Value → String → Prop
  | string (s : String) : ScalarText (.string s) s
  | number (n : Json.Number) : ScalarText (.number n) n.render
  | yes : ScalarText (.bool true) "1"
  | no : ScalarText (.bool false) "0"

/-- A value describes a reference: as the text of a target, or as an object. -/
inductive SaysReference : Value → Reference → Prop
  | text {s : String} {names : List Char × Option (List Char)}
    (hn : TargetText names (Text.trim s.toList)) :
    SaysReference (.string s) (Field.referenceOf names)
  | object {members : Members} {r : Reference}
    (table : ∃ s, members.get? ["table"] = some (.string s) ∧ r.table = Text.strip s)
    (column : members.get? ["column"] = none ∧ r.column = "id" ∨
      ∃ s, members.get? ["column"] = some (.string s) ∧ r.column = Text.strip s)
    (onDelete : members.SaysAction "ondelete" r.onDelete)
    (onUpdate : members.SaysAction "onupdate" r.onUpdate)
    (deferred : members.SaysFlag ["deferred", "deferrable", "defer"] r.deferred) :
    SaysReference (.object members) r

/-- The reference of a field: its own member says it, or without one a type `fk(...)`. -/
inductive SaysFieldReference (members : Members) (type : Option (List Char)) :
    Option Reference → Prop
  | member {v : Value} {r : Reference}
    (hv : members.get? ["fk", "foreignkey", "references"] = some v) (hr : SaysReference v r) :
    SaysFieldReference members type (some r)
  | inline {text body : List Char} {names : List Char × Option (List Char)}
    (hv : members.get? ["fk", "foreignkey", "references"] = none) (ht : type = some text)
    (hi : InlineType text body) (hn : InlineText names (Text.trim body)) :
    SaysFieldReference members type (some (Field.referenceOf names))
  | none (hv : members.get? ["fk", "foreignkey", "references"] = none)
    (hi : ∀ text ∈ type, ∀ body, ¬ InlineType text body) : SaysFieldReference members type none

/-- The storage class of a field: integer for a type `fk(...)`, else what the type stands for; a
field without type is an integer if it is a reference or an automatic key, and text if not. -/
inductive SaysStorage (c : Column) : Option (List Char) → Prop
  | inline {text body : List Char} (hi : InlineType text body) (hs : c.storage = .integer) :
    SaysStorage c (some text)
  | typed {text : List Char} (hi : ∀ body, ¬ InlineType text body)
    (hs : c.storage = .ofAlias text) : SaysStorage c (some text)
  | untyped (hs : c.storage =
      if c.reference.isSome ∨ c.constraints.autoIncrement then .integer else .text) :
    SaysStorage c none

/-- The members of a field object describe a column. -/
structure Describes (members : Members) (c : Column) : Prop where
  name : ∃ s, members.get? ["name"] = some (.string s) ∧ c.name = Text.strip s
  flag : ∀ f : Flag, members.SaysFlag f.memberNames (c.constraints.has f)
  defaultExpr : members.get? ["default"] = none ∧ c.constraints.defaultExpr = none ∨
    ∃ v e, members.get? ["default"] = some v ∧ ScalarText v e ∧
      c.constraints.defaultExpr = some (Text.strip e)
  type : ∃ type, members.SaysType type ∧ SaysStorage c type ∧
    SaysFieldReference members type c.reference

/-! ## The parts of a token

A token is put together from parts, each made from a few members; one that is written tells what
these members are. -/

/-- A flag that was read is what the object says of it. -/
theorem saysFlag_of_flag {members : Members} {names : List String} {label : String} {on : Bool}
    (h : members.flag names label = .ok on) : members.SaysFlag names on := by
  unfold Members.flag at h
  split at h
  · next hget => exact .inr ⟨hget, (Except.ok.inj h).symm⟩
  · next b hget => exact .inl (Except.ok.inj h ▸ hget)
  · simp at h

/-- The name of a token is an identifier, the object's without the blanks around it. -/
theorem exists_of_fieldName {members : Members} {name : String} (h : fieldName members = .ok name) :
    isIdentifier name.toList ∧
      ∃ s, members.get? ["name"] = some (.string s) ∧ name = Text.strip s := by
  unfold fieldName at h
  split at h
  · next s hget =>
    split at h
    · next hid =>
      obtain rfl := Except.ok.inj h
      exact ⟨by simpa using hid, s, hget, rfl⟩
    · simp at h
  · simp at h
  · simp at h

/-- The text of a type part. -/
def typeChars : Option (List Char) → List Char
  | none => []
  | some type => ':' :: type

/-- The type of a token is one of the grammar, the object's without the blanks around it. -/
theorem exists_of_typePart {members : Members} {name part : String}
    (h : typePart name members = .ok part) :
    ∃ type, members.SaysType type ∧ (∀ text ∈ type, TypeText text) ∧
      part.toList = typeChars type := by
  unfold typePart at h
  split at h
  · next s hget =>
    split at h
    · next ht =>
      obtain rfl := Except.ok.inj h
      refine ⟨some (Text.trim s.toList), .inr ⟨s, hget, rfl⟩, ?_, by simp [typeChars]⟩
      intro text he
      exact Option.mem_some.mp he ▸ Field.isTypeName_iff.mp ht
    · simp at h
  · simp at h
  · next hget =>
    obtain rfl := Except.ok.inj h
    exact ⟨none, .inl ⟨hget, rfl⟩, by simp, rfl⟩

/-- The row of a flag in the table of a field's flags. -/
def flagRow (f : Flag) : List String × String × Char :=
  (f.memberNames, f.memberNames.headD "", f.symbol)

/-- The flags that are written are those that are set. -/
theorem exists_of_flagSymbols {members : Members} {fs : List Flag} (hfs : fs.Nodup)
    {cs : List Char} (h : flagSymbols members (fs.map flagRow) = .ok cs) :
    ∃ on, cs = symbols on ∧ on ⊆ fs ∧
      ∀ f ∈ fs, members.SaysFlag f.memberNames (decide (f ∈ on)) := by
  induction fs generalizing cs with
  | nil => exact ⟨[], (Except.ok.inj h).symm, by simp, by simp⟩
  | cons g fs ih =>
    obtain ⟨hg, hfs⟩ := List.nodup_cons.mp hfs
    obtain ⟨b, hb, h⟩ := bind_eq_ok_iff.mp h
    obtain ⟨cs', hcs, h⟩ := bind_eq_ok_iff.mp h
    obtain ⟨on, rfl, hsub, hsays⟩ := ih hfs hcs
    have hgon : g ∉ on := fun e => hg (hsub e)
    have hflag := saysFlag_of_flag hb
    obtain rfl := Except.ok.inj h
    cases b with
    | true =>
      refine ⟨g :: on, rfl, List.cons_subset_cons g hsub, ?_⟩
      rintro f hf
      rcases List.mem_cons.mp hf with rfl | hf
      · simpa using hflag
      · have hne : f ≠ g := fun e => hg (e ▸ hf)
        simpa [hne] using hsays f hf
    | false =>
      refine ⟨on, rfl, fun _ hx => List.mem_cons_of_mem g (hsub hx), ?_⟩
      rintro f hf
      rcases List.mem_cons.mp hf with rfl | hf
      · simpa [hgon] using hflag
      · exact hsays f hf

/-- The table of a field's flags, as rows of the five flags. -/
theorem fieldFlags_eq :
    fieldFlags = [Flag.notNull, .unique, .index, .primaryKey, .autoIncrement].map flagRow := rfl

/-- How the attributes of a reference are written. -/
inductive ReferenceAttribute : Attribute → String → Prop
  | onDelete (a : Action) : ReferenceAttribute (.onDelete a) ("ondelete=" ++ a.word)
  | onUpdate (a : Action) : ReferenceAttribute (.onUpdate a) ("onupdate=" ++ a.word)
  | deferred : ReferenceAttribute .deferred "defer"

/-- The text of a target. -/
def targetChars (names : List Char × Option (List Char)) : List Char :=
  names.1 ++ match names.2 with
    | some column => '(' :: (column ++ [')'])
    | none => []

/-- The names that a target is made of. -/
def ReferenceParts.names (parts : ReferenceParts) : List Char × Option (List Char) :=
  (parts.table.toList, parts.column.map String.toList)

/-- **An action that was written is the one that the object names.** -/
theorem exists_of_actionAttribute {members : Members} {label : String} {texts : List String}
    (h : actionAttribute members label = .ok texts) :
    ∃ action, members.SaysAction label action ∧
      texts = action.toList.map fun a => label ++ "=" ++ a.word := by
  unfold actionAttribute at h
  split at h
  · next hget => exact ⟨none, .inl ⟨hget, rfl⟩, (Except.ok.inj h).symm⟩
  · next s hget =>
    split at h
    · next a ha => exact ⟨some a, .inr ⟨s, a, hget, ha, rfl⟩, (Except.ok.inj h).symm⟩
    · simp at h
  · simp at h

/-- A name of a reference that passes its check is an identifier. -/
theorem eq_of_referenceName {role : ReferenceRole} {cs : List Char} {name : String}
    (h : referenceName role cs = .ok name) : isIdentifier cs ∧ name = String.ofList cs := by
  unfold referenceName at h
  split at h
  · next hid => exact ⟨hid, (Except.ok.inj h).symm⟩
  · simp at h

/-- A parenthesis at the end is dropped, and nothing else. -/
theorem dropClosing?_eq_some_iff {cs body : List Char} :
    dropClosing? cs = some body ↔ cs = body ++ [')'] := by
  unfold dropClosing?
  split
  · next rest hrev =>
    have hcs : cs = rest.reverse ++ [')'] := by
      rw [← List.reverse_reverse cs, hrev, List.reverse_cons]
    simp [hcs]
  · next hrev =>
    refine ⟨nofun, fun h => absurd ?_ (hrev body.reverse)⟩
    simp [h]

/-- A reference written as a text is the target it spells. -/
theorem exists_of_referenceOfText {text : List Char} {parts : ReferenceParts}
    (h : referenceOfText text = .ok parts) :
    TargetText parts.names text ∧ text = targetChars parts.names ∧ parts.attributes = [] := by
  unfold referenceOfText at h
  split at h
  · next table rest hcut =>
    split at h
    · simp at h
    · next column hclose =>
      obtain ⟨t, ht, h⟩ := bind_eq_ok_iff.mp h
      obtain ⟨c, hc, h⟩ := bind_eq_ok_iff.mp h
      obtain rfl := Except.ok.inj h
      obtain ⟨hti, rfl⟩ := eq_of_referenceName ht
      obtain ⟨hci, rfl⟩ := eq_of_referenceName hc
      obtain rfl := dropClosing?_eq_some_iff.mp hclose
      have hmem : '(' ∈ text := by
        by_contra hno
        simp [Text.cutAt_eq_none hno] at hcut
      obtain ⟨a, b, rfl, ha⟩ := List.eq_append_cons_of_mem hmem
      rw [Text.cutAt_append ha] at hcut
      obtain ⟨rfl, rfl⟩ := Prod.mk.inj (Option.some.inj hcut)
      simp only [ReferenceParts.names, targetChars, Option.map_some, String.toList_ofList, and_true]
      exact .column hti hci
  · obtain ⟨t, ht, h⟩ := bind_eq_ok_iff.mp h
    obtain rfl := Except.ok.inj h
    obtain ⟨hti, rfl⟩ := eq_of_referenceName ht
    simp only [ReferenceParts.names, targetChars, Option.map_none, String.toList_ofList,
      List.append_nil, and_true]
    exact .table hti

/-- The attributes that an object's reference is written with. -/
def referenceAttributes (onDelete onUpdate : Option Action) (deferred : Bool) : List Attribute :=
  onDelete.toList.map .onDelete ++ onUpdate.toList.map .onUpdate ++
    (if deferred then [.deferred] else [])

/-- The names of a target are the table and the column of its reference. -/
theorem ReferenceParts.referenceOf_names (parts : ReferenceParts) :
    Field.referenceOf parts.names = .ofTable parts.table parts.column := by
  obtain ⟨table, _ | column, attributes⟩ := parts <;> simp [Field.referenceOf, names]

/-- The attributes that a reference is written with set its actions and its check. -/
theorem amend_referenceAttributes (onDelete onUpdate : Option Action) (deferred : Bool)
    (table : String) (column : Option String) :
    Attribute.amend (referenceAttributes onDelete onUpdate deferred) (.ofTable table column) =
      { Reference.ofTable table column with
        onDelete := onDelete, onUpdate := onUpdate, deferred := deferred } := by
  cases onDelete <;> cases onUpdate <;> cases deferred <;> rfl

/-- The table of a reference is an identifier that the object has. -/
theorem exists_of_referenceTable {members : Members} {table : String}
    (h : referenceTable members = .ok table) :
    isIdentifier table.toList ∧
      ∃ s, members.get? ["table"] = some (.string s) ∧ table = Text.strip s := by
  unfold referenceTable at h
  split at h
  · next s hget =>
    obtain ⟨hid, rfl⟩ := eq_of_referenceName h
    exact ⟨by simpa using hid, s, hget, rfl⟩
  · simp at h

/-- Its column is one too, or is left to the default. -/
theorem exists_of_referenceColumn {members : Members} {column : Option String}
    (h : referenceColumn members = .ok column) :
    (∀ c ∈ column, isIdentifier c.toList) ∧
      (members.get? ["column"] = none ∧ column = none ∨
        ∃ s, members.get? ["column"] = some (.string s) ∧ column = some (Text.strip s)) := by
  unfold referenceColumn at h
  split at h
  · next s hget =>
    obtain ⟨c, hc, rfl⟩ := map_eq_ok_iff.mp h
    obtain ⟨hid, rfl⟩ := eq_of_referenceName hc
    exact ⟨by simpa using hid, .inr ⟨s, hget, rfl⟩⟩
  · simp at h
  · next hget =>
    obtain rfl := Except.ok.inj h
    exact ⟨by simp, .inl ⟨hget, rfl⟩⟩

/-- **Identifiers make a target.** -/
theorem ReferenceParts.targetText {parts : ReferenceParts} (ht : isIdentifier parts.table.toList)
    (hc : ∀ c ∈ parts.column, isIdentifier c.toList) :
    TargetText parts.names (targetChars parts.names) := by
  obtain ⟨table, _ | column, attributes⟩ := parts
  · rw [targetChars, ReferenceParts.names, Option.map_none, List.append_nil]
    exact .table ht
  · exact .column ht (hc column rfl)

/-- A reference written as an object: its names make a target, and its actions and flag are written
as attributes. -/
theorem exists_of_referenceOfMembers {members : Members} {parts : ReferenceParts}
    (h : referenceOfMembers members = .ok parts) :
    ∃ as, TargetText parts.names (targetChars parts.names) ∧
      List.Forall₂ ReferenceAttribute as parts.attributes ∧
      SaysReference (.object members) (Attribute.amend as (Field.referenceOf parts.names)) := by
  unfold referenceOfMembers at h
  obtain ⟨table, htable, h⟩ := bind_eq_ok_iff.mp h
  obtain ⟨column, hcolumn, h⟩ := bind_eq_ok_iff.mp h
  obtain ⟨deletes, hdeletes, h⟩ := bind_eq_ok_iff.mp h
  obtain ⟨updates, hupdates, h⟩ := bind_eq_ok_iff.mp h
  obtain ⟨deferred, hdeferred, h⟩ := bind_eq_ok_iff.mp h
  obtain rfl := Except.ok.inj h
  obtain ⟨onDelete, hod, rfl⟩ := exists_of_actionAttribute hdeletes
  obtain ⟨onUpdate, hou, rfl⟩ := exists_of_actionAttribute hupdates
  obtain ⟨htid, s, hs, rfl⟩ := exists_of_referenceTable htable
  obtain ⟨hcid, hcsay⟩ := exists_of_referenceColumn hcolumn
  refine ⟨referenceAttributes onDelete onUpdate deferred, ReferenceParts.targetText htid hcid,
    ?_, ?_⟩
  · refine List.rel_append (List.rel_append ?_ ?_) ?_
    · cases onDelete with
      | none => exact .nil
      | some a => exact .cons (.onDelete a) .nil
    · cases onUpdate with
      | none => exact .nil
      | some a => exact .cons (.onUpdate a) .nil
    · cases deferred with
      | false => exact .nil
      | true => exact .cons .deferred .nil
  · rw [ReferenceParts.referenceOf_names, amend_referenceAttributes]
    refine .object ⟨s, hs, rfl⟩ ?_ hod hou (saysFlag_of_flag hdeferred)
    rcases hcsay with ⟨hget, rfl⟩ | ⟨c, hget, rfl⟩
    · exact .inl ⟨hget, rfl⟩
    · exact .inr ⟨c, hget, rfl⟩

/-- A reference that was written is what its value says, as a text or as an object. -/
theorem exists_of_referenceParts {v : Value} {parts : ReferenceParts}
    (h : referenceParts v = .ok parts) :
    ∃ as, TargetText parts.names (targetChars parts.names) ∧
      List.Forall₂ ReferenceAttribute as parts.attributes ∧
      SaysReference v (Attribute.amend as (Field.referenceOf parts.names)) := by
  unfold referenceParts at h
  split at h
  · next s =>
    obtain ⟨hn, htext, has⟩ := exists_of_referenceOfText h
    refine ⟨[], htext ▸ hn, has ▸ .nil, ?_⟩
    have hamend : Attribute.amend [] (Field.referenceOf parts.names) =
        Field.referenceOf parts.names := by
      simp [Attribute.amend]
    rw [hamend]
    exact .text hn
  · exact exists_of_referenceOfMembers h
  · simp at h

/-- The text of a target part. -/
def arrowChars : Option (List Char × Option (List Char)) → List Char
  | none => []
  | some names => '-' :: '>' :: targetChars names

/-- The target part of a token is an arrow and a target, and its attributes are those of the
reference. -/
theorem exists_of_referencePart {members : Members} {target : String} {attributes : List String}
    (h : referencePart members = .ok (target, attributes)) :
    ∃ names as, target.toList = arrowChars names ∧
      (∀ n ∈ names, TargetText n (targetChars n)) ∧
      List.Forall₂ ReferenceAttribute as attributes ∧
      (names = none ∧ as = [] ∧ members.get? ["fk", "foreignkey", "references"] = none ∨
        ∃ v n, names = some n ∧ members.get? ["fk", "foreignkey", "references"] = some v ∧
          SaysReference v (Attribute.amend as (Field.referenceOf n))) := by
  unfold referencePart at h
  split at h
  · next v hget =>
    obtain ⟨parts, hparts, h⟩ := bind_eq_ok_iff.mp h
    obtain ⟨rfl, rfl⟩ := Prod.mk.inj (Except.ok.inj h)
    obtain ⟨as, hn, has, hsay⟩ := exists_of_referenceParts hparts
    refine ⟨some parts.names, as, ?_, by simpa using hn, has, .inr ⟨v, _, rfl, hget, hsay⟩⟩
    cases hc : parts.column <;> simp [arrowChars, targetChars, ReferenceParts.names, hc]
  · next hget =>
    obtain ⟨rfl, rfl⟩ := Prod.mk.inj (Except.ok.inj h)
    exact ⟨none, [], rfl, by simp, .nil, .inl ⟨rfl, rfl, hget⟩⟩

/-- The text of a default is that of a scalar. -/
theorem scalarText_of_defaultExpr {v : Value} {e : String} (h : defaultExpr v = .ok e) :
    ScalarText v e := by
  unfold defaultExpr at h
  split at h
  · exact Except.ok.inj h ▸ .string _
  · exact Except.ok.inj h ▸ .number _
  · next b =>
    cases b with
    | true => exact Except.ok.inj h ▸ .yes
    | false => exact Except.ok.inj h ▸ .no
  · simp at h

/-- The default of a token has no comma that would divide it. -/
theorem exists_of_defaultPart {members : Members} {name : String} {texts : List String}
    (h : defaultPart name members = .ok texts) :
    ∃ default : Option String, texts = default.toList.map ("default=" ++ ·) ∧
      (∀ e ∈ default, (Text.Scan.top.pieces e.toList).2 = []) ∧
      (members.get? ["default"] = none ∧ default = none ∨
        ∃ v e, members.get? ["default"] = some v ∧ ScalarText v e ∧ default = some e) := by
  unfold defaultPart at h
  split at h
  · next v hget =>
    obtain ⟨e, he, h⟩ := bind_eq_ok_iff.mp h
    by_cases hcut : (Text.split e.toList).length > 1
    · simp only [hcut, if_true] at h
      exact nomatch h
    · simp only [hcut, if_false] at h
      have huncut : (Text.Scan.top.pieces e.toList).2 = [] := by simpa [Text.split] using hcut
      exact ⟨some e, (Except.ok.inj h).symm, by simpa using huncut,
        .inr ⟨v, e, hget, scalarText_of_defaultExpr he, rfl⟩⟩
  · next hget => exact ⟨none, (Except.ok.inj h).symm, by simp, .inl ⟨hget, rfl⟩⟩

end Batch

end Tablature
