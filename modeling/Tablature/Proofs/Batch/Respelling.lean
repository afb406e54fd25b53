import Tablature.Batch.Run
import Tablature.Proofs.Batch.Edits

/-!
# Proofs/Batch/Respelling — documents are read up to the spelling of their members

Every part of the loader looks members up and goes on with what it finds.  Look-ups in objects that
differ by spelling see alike values (`Respelled.rel_get?`), so that every part gives the same result
on both sides or fails on both (`Agree`); `parse_respelled` says so of the whole of it.
-/

namespace Tablature.Batch

open Json (Value)

variable {reads : Reads} {ms ms' : Members} {c : String} {names : List String} {v v' : Value}

/-! ## Results that agree

Of two spellings both are read or both are refused, though not with the same words; so results are
compared by what they give, and errors by their place at most. -/

/-- Two results agree: values that are related on both sides, or errors that are. -/
inductive Agree {ε α : Type} (E : ε → ε → Prop) (S : α → α → Prop) :
    Except ε α → Except ε α → Prop
  | ok {a a' : α} (h : S a a') : Agree E S (.ok a) (.ok a')
  | error {e e' : ε} (h : E e e') : Agree E S (.error e) (.error e')

/-- The same value on both sides, or an error on both. -/
abbrev Agrees {ε α : Type} : Except ε α → Except ε α → Prop := Agree Any Eq

section Agree

variable {ε ε' α β : Type} {E : ε → ε → Prop} {E' : ε' → ε' → Prop} {P : α → α → Prop}
  {Q : β → β → Prop} {x x' : Except ε α}

/-- A result agrees with itself. -/
theorem Agree.same (x : Except ε α) : Agrees x x := by
  cases x with
  | ok a => exact .ok rfl
  | error e => exact .error trivial

/-- Results that agree are both values or both errors. -/
theorem Agree.elim (h : Agree E P x x') :
    (∃ a a', x = .ok a ∧ x' = .ok a' ∧ P a a') ∨
      ∃ e e', x = .error e ∧ x' = .error e' ∧ E e e' := by
  cases h with
  | ok h => exact .inl ⟨_, _, rfl, rfl, h⟩
  | error h => exact .inr ⟨_, _, rfl, rfl, h⟩

/-- **Sequences agree if their steps do.** -/
theorem Agree.bind {f f' : α → Except ε β} (h : Agree E P x x')
    (hf : ∀ a a', P a a' → Agree E Q (f a) (f' a')) : Agree E Q (x >>= f) (x' >>= f') := by
  cases h with
  | ok ha => exact hf _ _ ha
  | error he => exact .error he

theorem Agree.bind_eq {f f' : α → Except ε β} (h : Agree E Eq x x')
    (hf : ∀ a, Agree E Q (f a) (f' a)) : Agree E Q (x >>= f) (x' >>= f') :=
  h.bind fun a _ ha => ha ▸ hf a

/-- Results agree after their errors have been mapped alike. -/
theorem Agree.mapError {g : ε → ε'} (h : Agree E P x x') (hg : ∀ e e', E e e' → E' (g e) (g e')) :
    Agree E' P (x.mapError g) (x'.mapError g) := by
  cases h with
  | ok ha => exact .ok ha
  | error he => exact .error (hg _ _ he)

end Agree

/-- A value with items or members. -/
inductive IsContainer : Value → Prop
  | array (items : List Value) : IsContainer (.array items)
  | object (members : Members) : IsContainer (.object members)

/-- A part of an object that is read from the member of some names, and refused if this is a
container. -/
structure ReadsScalar {α : Type} (names : List String) (f : Members → Except DocumentFault α) :
    Prop where
  congr : ∀ ms ms', ms.get? names = ms'.get? names → f ms = f ms'
  refuses : ∀ ms v, IsContainer v → ms.get? names = some v → ∃ e, f ms = .error e

/-- **What is read from a scalar agrees** on objects in which the look-up sees alike values. -/
theorem ReadsScalar.agrees {α : Type} {f : Members → Except DocumentFault α}
    (hf : ReadsScalar names f) (h : Option.Rel AlikeScalar (ms.get? names) (ms'.get? names)) :
    Agrees (f ms) (f ms') := by
  have hsame : ms.get? names = ms'.get? names → Agrees (f ms) (f ms') := fun he =>
    hf.congr ms ms' he ▸ .same (f ms)
  have hrefused : ∀ {v v'}, ms.get? names = some v → ms'.get? names = some v' → IsContainer v →
      IsContainer v' → Agrees (f ms) (f ms') := by
    intro v v' hv hv' hc hc'
    obtain ⟨e, he⟩ := hf.refuses ms v hc hv
    obtain ⟨e', he'⟩ := hf.refuses ms' v' hc' hv'
    rw [he, he']
    exact .error trivial
  generalize hv : ms.get? names = o at h hsame
  generalize hv' : ms'.get? names = o' at h hsame
  cases h with
  | none => exact hsame rfl
  | some h =>
    cases h with
    | null | bool | number | string => exact hsame rfl
    | array => exact hrefused hv hv' (.array _) (.array _)
    | object => exact hrefused hv hv' (.object _) (.object _)

/-- **What depends on scalars alone is the same after respelling.** -/
theorem ReadsScalar.respelled {α : Type} {f : Members → Except DocumentFault α}
    (hf : ReadsScalar names f) (h : Respelled normalName reads ms ms')
    (hS : ∀ name ∈ names, reads name = some AlikeScalar) : Agrees (f ms) (f ms') :=
  hf.agrees (h.rel_get?_names (fun hv => AlikeBy.isNull_eq hv) hS)

/-! ## Fields

A part of a token that is made from scalars depends on them and on nothing else (`ReadsScalar`); the
parts are then put together as they are read. -/

/-- A flag is read from the first of its names that the object has. -/
theorem readsScalar_flag (names : List String) (label : String) :
    ReadsScalar names (·.flag names label) where
  congr ms ms' h := by simp only [Members.flag, h]
  refuses ms v hv h := by cases hv <;> exact ⟨_, by simp only [Members.flag, h]; rfl⟩

theorem readsScalar_fieldName : ReadsScalar ["name"] fieldName where
  congr ms ms' h := by simp only [fieldName, h]
  refuses ms v hv h := by cases hv <;> exact ⟨_, by simp only [fieldName, h]; rfl⟩

theorem readsScalar_typePart (name : String) : ReadsScalar ["type"] (typePart name) where
  congr ms ms' h := by simp only [typePart, h]
  refuses ms v hv h := by cases hv <;> exact ⟨_, by simp only [typePart, h]; rfl⟩

theorem readsScalar_defaultPart (name : String) : ReadsScalar ["default"] (defaultPart name) where
  congr ms ms' h := by simp only [defaultPart, h]
  refuses ms v hv h := by cases hv <;> exact ⟨_, by simp only [defaultPart, h]; rfl⟩

theorem readsScalar_actionAttribute (label : String) :
    ReadsScalar [label] (actionAttribute · label) where
  congr ms ms' h := by simp only [actionAttribute, h]
  refuses ms v hv h := by cases hv <;> exact ⟨_, by simp only [actionAttribute, h]; rfl⟩

theorem readsScalar_referenceTable : ReadsScalar ["table"] referenceTable where
  congr ms ms' h := by simp only [referenceTable, h]
  refuses ms v hv h := by cases hv <;> exact ⟨_, by simp only [referenceTable, h]; rfl⟩

theorem readsScalar_referenceColumn : ReadsScalar ["column"] referenceColumn where
  congr ms ms' h := by simp only [referenceColumn, h]
  refuses ms v hv h := by cases hv <;> exact ⟨_, by simp only [referenceColumn, h]; rfl⟩

/-- A reference that is an object is encoded alike after respelling. -/
theorem agrees_referenceOfMembers (h : Respelled normalName referenceReads ms ms') :
    Agrees (referenceOfMembers ms) (referenceOfMembers ms') := by
  unfold referenceOfMembers
  refine (readsScalar_referenceTable.respelled h (by simp [referenceReads])).bind_eq fun table => ?_
  refine (readsScalar_referenceColumn.respelled h (by simp [referenceReads])).bind_eq
    fun column => ?_
  refine ((readsScalar_actionAttribute _).respelled h (by simp [referenceReads])).bind_eq
    fun onDelete => ?_
  refine ((readsScalar_actionAttribute _).respelled h (by simp [referenceReads])).bind_eq
    fun onUpdate => ?_
  refine ((readsScalar_flag _ _).respelled h (by simp [referenceReads])).bind_eq fun deferred => ?_
  exact .same _

/-- A reference is encoded alike, as a text or as an object. -/
theorem agrees_referenceParts (h : AlikeReference v v') :
    Agrees (referenceParts v) (referenceParts v') := by
  cases h with
  | string s => exact .same _
  | object h => exact agrees_referenceOfMembers h
  | null | bool | number | array => exact .error trivial

/-- The target of a field is the same after respelling. -/
theorem agrees_referencePart (h : Respelled normalName fieldReads ms ms') :
    Agrees (referencePart ms) (referencePart ms') := by
  have hget : Option.Rel AlikeReference (ms.get? ["fk", "foreignkey", "references"])
      (ms'.get? ["fk", "foreignkey", "references"]) :=
    h.rel_get?_names (fun hv => AlikeBy.isNull_eq hv) (by simp [fieldReads])
  unfold referencePart
  generalize ms.get? ["fk", "foreignkey", "references"] = o at hget
  generalize ms'.get? ["fk", "foreignkey", "references"] = o' at hget
  cases hget with
  | none => exact .same _
  | some hv => exact (agrees_referenceParts hv).bind_eq fun parts => .same _

/-- The flags of a field are the same after respelling. -/
theorem agrees_flagSymbols (h : Respelled normalName fieldReads ms ms')
    {flags : List (List String × String × Char)}
    (hS : ∀ row ∈ flags, ∀ name ∈ row.1, fieldReads name = some AlikeScalar) :
    Agrees (flagSymbols ms flags) (flagSymbols ms' flags) := by
  induction flags with
  | nil => exact .same _
  | cons row flags ih =>
    obtain ⟨names, label, symbol⟩ := row
    have hrow := hS _ List.mem_cons_self
    refine ((readsScalar_flag names label).respelled h hrow).bind_eq fun on => ?_
    refine (ih fun row hrow => hS row (List.mem_cons_of_mem _ hrow)).bind_eq fun symbols => ?_
    exact .same _

/-- **Alike fields have one token**, or none. -/
theorem agrees_encodeField (h : AlikeField v v') : Agrees (encodeField v) (encodeField v') := by
  cases h with
  | null | bool | number | string | array => exact .error trivial
  | object h =>
    unfold encodeField
    dsimp only [members?]
    refine (readsScalar_fieldName.respelled h (by simp [fieldReads])).bind_eq fun name => ?_
    refine ((readsScalar_typePart name).respelled h (by simp [fieldReads])).bind_eq fun type => ?_
    refine (agrees_flagSymbols h (by simp [fieldReads, fieldFlags])).bind_eq fun flags => ?_
    refine (agrees_referencePart h).bind_eq fun parts => ?_
    refine ((readsScalar_defaultPart name).respelled h (by simp [fieldReads])).bind_eq
      fun default => ?_
    exact .same _

/-! ## Tables

The members of a table are looked up like those of a field, but that `columns` is another word for
`fields` (`tableKey`). -/

/-- A scalar member of a table is found alike, whatever its name is spelled like. -/
theorem Respelled.rel_scalar (h : Respelled tableKey tableReads ms ms')
    (hc : c ∈ ["name", "stamps", "version"]) :
    Option.Rel AlikeScalar (ms.get? [c]) (ms'.get? [c]) := by
  have hfields : c ≠ "fields" := by rintro rfl; simp at hc
  have hcolumns : c ≠ "columns" := by rintro rfl; simp at hc
  refine h.rel_get? ?_ (fun hv => AlikeBy.isNull_eq hv) (tableKey_eq_iff hfields hcolumns)
  rw [tableReads, if_neg hfields, if_pos hc]

/-- Two spellings of a table declare the same name. -/
theorem entryName?_eq (h : Respelled tableKey tableReads ms ms') :
    entryName? ms = entryName? ms' := by
  have hget := h.rel_scalar (c := "name") (by simp)
  unfold entryName?
  generalize ms.get? ["name"] = o at hget
  generalize ms'.get? ["name"] = o' at hget
  cases hget with
  | none => rfl
  | some hv => cases hv <;> rfl

theorem readsScalar_requiredName : ReadsScalar ["name"] requiredName where
  congr ms ms' h := by simp only [requiredName, entryName?, h]
  refuses ms v hv h := by cases hv <;> exact ⟨_, by simp only [requiredName, entryName?, h]; rfl⟩

theorem readsScalar_entryVersion : ReadsScalar ["version"] entryVersion where
  congr ms ms' h := by simp only [entryVersion, h]
  refuses ms v hv h := by cases hv <;> exact ⟨_, by simp only [entryVersion, h]; rfl⟩

/-- The fields of two spellings of a table are alike, one by one. -/
theorem agree_entryFields (h : Respelled tableKey tableReads ms ms') (name : String) :
    Agree Any (List.Forall₂ AlikeField) (entryFields name ms) (entryFields name ms') := by
  have hget : Option.Rel AlikeFields (ms.get? ["fields", "columns"])
      (ms'.get? ["fields", "columns"]) :=
    h.rel_get? rfl (fun hv => AlikeBy.isNull_eq hv) tableKey_eq_fields_iff
  unfold entryFields
  generalize ms.get? ["fields", "columns"] = o at hget
  generalize ms'.get? ["fields", "columns"] = o' at hget
  cases hget with
  | none => exact .error trivial
  | some hv =>
    cases hv with
    | array h => exact .ok h
    | null | bool | number | string | object => exact .error trivial

/-- Two frames that differ in their fields at most, and in these by spelling. -/
structure AlikeFrame (frame frame' : EntryFrame) : Prop where
  name : frame.name = frame'.name
  version : frame.version = frame'.version
  stamps : frame.stamps = frame'.stamps
  fields : List.Forall₂ AlikeField frame.fields frame'.fields

/-- **Two spellings of a table say the same of themselves.** -/
theorem agree_entryFrame (h : AlikeTable v v') :
    Agree Any AlikeFrame (entryFrame v) (entryFrame v') := by
  cases h with
  | null | bool | number | string | array => exact .error trivial
  | object h =>
    unfold entryFrame
    dsimp only [members?]
    refine (readsScalar_requiredName.agrees (h.rel_scalar (by simp))).bind_eq fun name => ?_
    refine (agree_entryFields h name).bind fun fields fields' hfields => ?_
    refine ((readsScalar_flag _ _).agrees (h.rel_scalar (by simp))).bind_eq fun stamps => ?_
    refine (readsScalar_entryVersion.agrees (h.rel_scalar (by simp))).bind_eq fun version => ?_
    exact .ok ⟨rfl, rfl, rfl, hfields⟩

/-- Two errors about the same place of a document. -/
def SamePlace (e e' : Error) : Prop :=
  ∃ table field fault fault', e = .document table field fault ∧ e' = .document table field fault'

/-- **Alike fields have the same tokens**, or the same of them is the first without one. -/
theorem agree_fieldTokens {fields fields' : List Value} (h : List.Forall₂ AlikeField fields fields')
    (t f : Nat) : Agree SamePlace Eq (fieldTokens t f fields) (fieldTokens t f fields') := by
  induction h generalizing f with
  | nil => exact .ok rfl
  | cons hv _ ih =>
    unfold fieldTokens fieldToken
    refine ((agrees_encodeField hv).mapError fun e e' _ => ⟨_, _, e, e', rfl, rfl⟩).bind_eq
      fun token => ?_
    exact (ih (f + 1)).bind_eq fun tokens => .ok rfl

/-- **Alike tables are the same entry**, or are refused at the same place. -/
theorem agree_entryOf (h : AlikeTable v v') (t : Nat) :
    Agree SamePlace Eq (entryOf t v) (entryOf t v') := by
  unfold entryOf
  refine ((agree_entryFrame h).mapError fun e e' _ => ⟨_, _, e, e', rfl, rfl⟩).bind
    fun frame frame' hframe => ?_
  refine (agree_fieldTokens hframe.fields t 0).bind_eq fun tokens => ?_
  rw [hframe.name, hframe.version, hframe.stamps]
  exact .ok rfl

/-! ## Documents -/

theorem readsScalar_defaultAction (name label : String) :
    ReadsScalar [name] (defaultAction · name label) where
  congr ms ms' h := by simp only [defaultAction, h]
  refuses ms v hv h := by cases hv <;> exact ⟨_, by simp only [defaultAction, h]; rfl⟩

namespace Document

/-- Two documents that differ in their tables at most, and in these by spelling. -/
structure Alike (d d' : Document) : Prop where
  outDir : d.outDir = d'.outDir
  onDelete : d.onDelete = d'.onDelete
  onUpdate : d.onUpdate = d'.onUpdate
  tables : List.Forall₂ AlikeTable d.tables d'.tables

/-- **Two spellings of a document are both read or both refused.** -/
theorem agree_ofValue (h : AlikeDocument v v') : Agree Any Alike (ofValue v) (ofValue v') := by
  cases h with
  | null | bool | number | string | array => exact .error trivial
  | @object ms ms' h =>
    have htables : Option.Rel AlikeTables (ms.get? ["tables"]) (ms'.get? ["tables"]) :=
      h.rel_get?_names (fun hv => AlikeBy.isNull_eq hv) (by simp [documentReads])
    have houtDir : Option.Rel AlikeScalar (ms.get? ["outdir"]) (ms'.get? ["outdir"]) :=
      h.rel_get?_names (fun hv => AlikeBy.isNull_eq hv) (by simp [documentReads])
    have hactions : ∀ {tables tables' : List Value} (outDir : Option String),
        List.Forall₂ AlikeTable tables tables' → Agree Any Alike
          (do
            let onDelete ← defaultAction ms "defaultondelete" "defaultOnDelete"
            let onUpdate ← defaultAction ms "defaultonupdate" "defaultOnUpdate"
            return ⟨outDir, onDelete, onUpdate, tables⟩)
          (do
            let onDelete ← defaultAction ms' "defaultondelete" "defaultOnDelete"
            let onUpdate ← defaultAction ms' "defaultonupdate" "defaultOnUpdate"
            return ⟨outDir, onDelete, onUpdate, tables'⟩) := by
      intro tables tables' outDir htables
      refine ((readsScalar_defaultAction _ _).respelled h
        (by simp [documentReads])).bind_eq fun onDelete => ?_
      refine ((readsScalar_defaultAction _ _).respelled h
        (by simp [documentReads])).bind_eq fun onUpdate => ?_
      exact .ok ⟨rfl, rfl, rfl, htables⟩
    unfold ofValue
    dsimp only [members?]
    generalize ms.get? ["tables"] = o at htables
    generalize ms'.get? ["tables"] = o' at htables
    generalize ms.get? ["outdir"] = p at houtDir
    generalize ms'.get? ["outdir"] = p' at houtDir
    cases htables with
    | none => exact .error trivial
    | some hv =>
      cases hv with
      | null | bool | number | string | object => exact .error trivial
      | array htables =>
        cases houtDir with
        | none => exact hactions none htables
        | some hv =>
          cases hv with
          | string s => exact hactions (some s) htables
          | null | bool | number | array | object => exact .error trivial

variable {d d' : Document}

/-- The tables of two documents that are alike are alike, position by position. -/
theorem Alike.rel_tables (h : Alike d d') (t : Nat) :
    Option.Rel AlikeTable d.tables[t]? d'.tables[t]? := by
  have htables := h.tables
  generalize d.tables = tables at htables
  generalize d'.tables = tables' at htables
  induction htables generalizing t with
  | nil => exact .none
  | cons hv _ ih =>
    cases t with
    | zero => exact .some hv
    | succ t => simpa using ih t

/-- Alike documents declare the same tables. -/
theorem Alike.declared_eq (h : Alike d d') : d.declared = d'.declared := by
  have hname : ∀ {v v'}, AlikeTable v v' →
      (members? v).bind entryName? = (members? v').bind entryName? := by
    intro v v' hv
    cases hv with
    | null | bool | number | string | array => rfl
    | object h => exact entryName?_eq h
  have htables := h.tables
  unfold declared
  generalize d.tables = tables at htables
  generalize d'.tables = tables' at htables
  induction htables with
  | nil => rfl
  | cons hv _ ih => rw [List.filterMap_cons, List.filterMap_cons, hname hv, ih]

/-- **Alike documents have the same entries**, or refuse them at the same place. -/
theorem Alike.agree_entry (h : Alike d d') (t : Nat) :
    Agree SamePlace Eq (d.entry t) (d'.entry t) := by
  have hget := h.rel_tables t
  unfold entry
  generalize d.tables[t]? = o at hget
  generalize d'.tables[t]? = o' at hget
  cases hget with
  | none => exact .error ⟨_, _, _, _, rfl, rfl⟩
  | some hv => exact agree_entryOf hv t

/-! ## Runs -/

/-- Two runs have the same effect: the same tree, and the same tables or an error. -/
def SameEffect {α : Type} (r r' : EStateM.Result Error FileTree α) : Prop :=
  (∃ a t, r = .ok a t ∧ r' = .ok a t) ∨ ∃ e e' t, r = .error e t ∧ r' = .error e' t

/-- A run has the same effect as itself. -/
theorem SameEffect.refl {α : Type} (r : EStateM.Result Error FileTree α) : SameEffect r r := by
  cases r with
  | ok a t => exact .inl ⟨a, t, rfl, rfl⟩
  | error e t => exact .inr ⟨e, e, t, rfl, rfl⟩

section

variable (store : Store) (base : Options) (force : Force)

/-- **The entries of documents that are alike have the same effect.** -/
theorem Alike.runEntry (h : Alike d d') (done : List Generated) (t : Nat) (tree : FileTree) :
    SameEffect (d.runEntry store base force done t tree)
      (d'.runEntry store base force done t tree) := by
  unfold Document.runEntry
  rcases (h.agree_entry t).elim with ⟨e, e', he, he', rfl⟩ | ⟨e, e', he, he', -⟩
  · have hoptions : d.entryOptions base e = d'.entryOptions base e := by
      unfold entryOptions
      rw [h.onDelete, h.onUpdate]
    have hpending : d.pending done e.name = d'.pending done e.name := by
      unfold pending
      rw [h.declared_eq]
    rw [he, he']
    dsimp only
    rw [hoptions, hpending]
    exact .refl _
  · rw [he, he']
    exact .inr ⟨e, e', tree, rfl, rfl⟩

/-- **Runs of alike documents go through the same trees**, entry by entry. -/
theorem Alike.runFrom (h : Alike d d') (count t : Nat) (done : List Generated) (tree : FileTree) :
    SameEffect (d.runFrom store base force count t done tree)
      (d'.runFrom store base force count t done tree) := by
  induction count generalizing t done tree with
  | zero => exact .refl _
  | succ count ih =>
    unfold Document.runFrom
    rcases h.runEntry store base force done t tree with
      ⟨g, tree', hr, hr'⟩ | ⟨e, e', tree', hr, hr'⟩
    · rw [hr, hr']
      exact ih (t + 1) (done ++ [g]) tree'
    · rw [hr, hr']
      exact .inr ⟨e, e', _, rfl, rfl⟩

end

/-- **Batch documents are read up to spelling.** Of two texts whose values differ by the spelling of
names and by members that do not count, both are documents or neither is.  The two documents have
the same directory, actions and declared tables and the same number of tables; each entry is the
same in both, or refused in both at the same table and field; and a run of one does to every tree
what a run of the other does. -/
theorem parse_respelled {text text' : String} (htext : Value.parse text = some v)
    (htext' : Value.parse text' = some v') (h : AlikeDocument v v') :
    (∃ e e', parse text = .error e ∧ parse text' = .error e') ∨
      ∃ d d', parse text = .ok d ∧ parse text' = .ok d' ∧ d.outDir = d'.outDir ∧
        d.onDelete = d'.onDelete ∧ d.onUpdate = d'.onUpdate ∧
        d.tables.length = d'.tables.length ∧ d.declared = d'.declared ∧
        (∀ t, (∃ entry, d.entry t = .ok entry ∧ d'.entry t = .ok entry) ∨
          ∃ table field fault fault', d.entry t = .error (.document table field fault) ∧
            d'.entry t = .error (.document table field fault')) ∧
        ∀ store base force tree,
          SameEffect (d.run store base force tree) (d'.run store base force tree) := by
  have hparse : Agree Any Alike (parse text) (parse text') := by
    unfold parse
    rw [htext, htext']
    exact (agree_ofValue h).mapError fun _ _ _ => trivial
  rcases hparse.elim with ⟨d, d', hd, hd', h⟩ | ⟨e, e', he, he', -⟩
  · refine .inr ⟨d, d', hd, hd', h.outDir, h.onDelete, h.onUpdate, h.tables.length_eq,
      h.declared_eq, fun t => ?_, fun store base force tree => ?_⟩
    · rcases (h.agree_entry t).elim with ⟨entry, _, he, he', rfl⟩ | ⟨_, _, he, he', hplace⟩
      · exact .inl ⟨entry, he, he'⟩
      · obtain ⟨table, field, fault, fault', rfl, rfl⟩ := hplace
        exact .inr ⟨table, field, fault, fault', he, he'⟩
    · rw [run, run, ← h.tables.length_eq]
      exact h.runFrom store base force d.tables.length 0 [] tree
  · exact .inl ⟨e, e', he, he'⟩

/-- A table with one field, which refers to another table. -/
def plain : Value :=
  .object [("tables", .array [.object [
    ("fields", .array [.object [("fk", .object [("table", .string "users")]),
      ("name", .string "by")]]),
    ("name", .string "posts")]])]

/-- The same with other names, and more members that nobody looks up or that are `null`. -/
def fancy : Value :=
  .object [("Tables", .array [.object [
    ("COLUMNS", .array [.object [("Name", .string "by"),
      ("fk", .object [("TABLE", .string "users"), ("note", .null)]), ("type", .null)]]),
    ("_name", .string "posts")]]), ("author", .string "-")]

/-- The two values are alike as documents. -/
theorem alikeDocument_fancy : AlikeDocument plain fancy := by
  have hreference : AlikeReference (.object [("table", .string "users")])
      (.object [("TABLE", .string "users"), ("note", .null)]) := by
    refine .object ⟨by decide +kernel, by decide +kernel, ?_⟩
    exact .respell_to (S := AlikeScalar) "table" rfl rfl (by simp [referenceReads]) (.string _)
      (.add (.inr rfl) .nil)
  have hfield : AlikeField
      (.object [("fk", .object [("table", .string "users")]), ("name", .string "by")])
      (.object [("Name", .string "by"),
        ("fk", .object [("TABLE", .string "users"), ("note", .null)]), ("type", .null)]) := by
    refine .object ⟨by decide +kernel, by decide +kernel, ?_⟩
    -- with a capital letter, the name comes first
    refine .reorder (List.Perm.swap _ _ _) ?_ (List.Perm.refl _)
    refine .respell_to (S := AlikeScalar) "name" rfl rfl (by simp [fieldReads]) (.string _) ?_
    refine .respell_to (S := AlikeReference) "fk" rfl rfl (by simp [fieldReads]) hreference ?_
    exact .add (.inr rfl) .nil
  have hfields : AlikeFields (.array [_]) (.array [_]) := .array (.cons hfield .nil)
  refine .object ⟨by decide +kernel, by decide +kernel, ?_⟩
  refine .respell_to (S := AlikeTables) "tables" rfl rfl rfl ?_ (.add (.inl ?_) .nil)
  · refine .array (.cons (.object ⟨by decide +kernel, by decide +kernel, ?_⟩) .nil)
    refine .respell_to (S := AlikeFields) "fields" rfl rfl rfl hfields ?_
    exact .respell_to (S := AlikeScalar) "name" rfl rfl rfl (.string _) .nil
  · rfl

/-- Their texts are different, and are read and run alike. -/
theorem parse_respelled_fancy :
    plain.compact ≠ fancy.compact ∧ ∃ d d', parse plain.compact = .ok d ∧
      parse fancy.compact = .ok d' ∧ d.declared = d'.declared ∧
      (∃ entry, d.entry 0 = .ok entry ∧ d'.entry 0 = .ok entry) ∧
      ∀ store base force tree,
        SameEffect (d.run store base force tree) (d'.run store base force tree) := by
  have hplain : Value.parse plain.compact = some plain := by decide +kernel
  have hfancy : Value.parse fancy.compact = some fancy := by decide +kernel
  have hentry : ((parse plain.compact).bind (·.entry 0)).isOk = true := by
    rw [parse, hplain]
    decide +kernel
  refine ⟨by decide +kernel, ?_⟩
  rcases parse_respelled hplain hfancy alikeDocument_fancy with
    ⟨e, e', he, -⟩ | ⟨d, d', hd, hd', -, -, -, -, hdeclared, hentries, hrun⟩
  · rw [he] at hentry
    exact nomatch hentry
  · refine ⟨d, d', hd, hd', hdeclared, (hentries 0).resolve_right ?_, hrun⟩
    rintro ⟨table, field, fault, fault', he, -⟩
    rw [hd] at hentry
    change (d.entry 0).isOk = true at hentry
    rw [he] at hentry
    exact nomatch hentry

end Document

end Tablature.Batch
