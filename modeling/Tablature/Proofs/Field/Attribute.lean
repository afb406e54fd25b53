import Mathlib.Data.List.Forall2
import Tablature.Field.Attribute
import Tablature.Field.Token
import Tablature.Proofs.Bind
import Tablature.Proofs.Text.Scan

/-!
# Proofs/Field/Attribute — the grammar of attributes, and what a list of them makes of a column

* `AttributeText` — which trimmed texts ask for what; `read_eq_ok_iff` says that they are read so;
* `Denotes` — the column that a head and its attributes describe, part by part: a flag is set if
  any of them sets it, and of several defaults or actions the last counts.  `denotes_iff` says that
  `assemble` makes exactly this column.
-/

namespace Tablature

/-! ## Keys -/

/-- The keys of a flag, in lower case. -/
def Flag.keys : Flag → List String
  | .notNull => ["notnull", "nn", "!"]
  | .unique => ["unique", "u", "+"]
  | .index => ["index", "idx", "^"]
  | .primaryKey => ["pk", "primary", "#"]
  | .autoIncrement => ["ai", "autoincrement", "~"]

/-- A flag is read from its keys and from no other. -/
theorem Flag.ofKey?_eq_some_iff {key : String} {f : Flag} :
    Flag.ofKey? key = some f ↔ key ∈ f.keys := by
  constructor
  · intro h
    obtain ⟨l₁, l₂, hl, -⟩ := List.lookup_eq_some_iff.mp h
    have hmem : (key, f) ∈ _ := hl ▸ List.mem_append_right l₁ (List.mem_cons_self (l := l₂))
    simp only [List.mem_cons, Prod.mk.injEq, List.not_mem_nil, or_false] at hmem
    rcases hmem with ⟨rfl, rfl⟩ | ⟨rfl, rfl⟩ | ⟨rfl, rfl⟩ | ⟨rfl, rfl⟩ | ⟨rfl, rfl⟩ | ⟨rfl, rfl⟩ |
      ⟨rfl, rfl⟩ | ⟨rfl, rfl⟩ | ⟨rfl, rfl⟩ | ⟨rfl, rfl⟩ | ⟨rfl, rfl⟩ | ⟨rfl, rfl⟩ | ⟨rfl, rfl⟩ |
      ⟨rfl, rfl⟩ | ⟨rfl, rfl⟩ <;> simp [Flag.keys]
  · intro h
    cases f <;> simp only [Flag.keys, List.mem_cons, List.not_mem_nil, or_false] at h <;>
      rcases h with rfl | rfl | rfl <;> rfl

/-- Constraints with the same flags and the same default are the same. -/
theorem Constraints.ext_has {a b : Constraints} (h : ∀ f, a.has f = b.has f)
    (hd : a.defaultExpr = b.defaultExpr) : a = b := by
  obtain ⟨a₁, a₂, a₃, a₄, a₅, a₆⟩ := a
  obtain ⟨b₁, b₂, b₃, b₄, b₅, b₆⟩ := b
  obtain rfl : a₁ = b₁ := h .notNull
  obtain rfl : a₂ = b₂ := h .unique
  obtain rfl : a₃ = b₃ := h .index
  obtain rfl : a₄ = b₄ := h .primaryKey
  obtain rfl : a₅ = b₅ := h .autoIncrement
  obtain rfl : a₆ = b₆ := hd
  rfl

/-- A run of flags sets each flag in it and nothing else. -/
theorem Constraints.has_ofFlags (flags : List Flag) (f : Flag) :
    (Constraints.ofFlags flags).has f = true ↔ f ∈ flags := by
  have hfold : ∀ c : Constraints,
      (flags.foldl Constraints.set c).has f = true ↔ c.has f = true ∨ f ∈ flags := by
    induction flags with
    | nil => simp
    | cons g flags ih =>
      intro c
      rw [List.foldl_cons, ih, Constraints.has_set, List.mem_cons, Bool.or_eq_true, beq_iff_eq,
        eq_comm (a := f), or_assoc, or_left_comm]
  have hempty : Constraints.empty.has f = false := by cases f <;> rfl
  simp [Constraints.ofFlags, hfold, hempty]

/-- Flags set no default. -/
theorem Constraints.defaultExpr_ofFlags (flags : List Flag) :
    (Constraints.ofFlags flags).defaultExpr = none := by
  have hfold : ∀ c : Constraints, (flags.foldl Constraints.set c).defaultExpr = c.defaultExpr := by
    induction flags with
    | nil => exact fun c => rfl
    | cons g flags ih => exact fun c => (ih (c.set g)).trans (Constraints.defaultExpr_set c g)
  exact hfold Constraints.empty

namespace Field

namespace Attribute

/-- The key a text spells: blanks around it and letter case do not count. -/
def keyOf (cs : List Char) : String := String.ofList (Text.lower (Text.trim cs))

/-- The trimmed texts of attributes, on a column with or without a reference. What comes before the
first `=` is the key; a flag has no `=`, and what follows the one of `defer` does not count. -/
inductive AttributeText (referenced : Bool) : List Char → Attribute → Prop
  | flag {text : List Char} {f : Flag} (hk : keyOf text ∈ f.keys) (he : '=' ∉ text) :
    AttributeText referenced text (.flag f)
  | defaultTo {key value : List Char} (he : '=' ∉ key)
    (hk : key = [] ∨ keyOf key ∈ ["default", "def"]) (hv : Text.trim value ≠ []) :
    AttributeText referenced (key ++ '=' :: value) (.defaultTo (String.ofList (Text.trim value)))
  | onDelete {key value : List Char} {action : Action} (hr : referenced = true) (he : '=' ∉ key)
    (hk : keyOf key = "ondelete") (ha : Action.ofText? (Text.trim value) = some action) :
    AttributeText referenced (key ++ '=' :: value) (.onDelete action)
  | onUpdate {key value : List Char} {action : Action} (hr : referenced = true) (he : '=' ∉ key)
    (hk : keyOf key = "onupdate") (ha : Action.ofText? (Text.trim value) = some action) :
    AttributeText referenced (key ++ '=' :: value) (.onUpdate action)
  | deferred {key ignored : List Char} (hr : referenced = true) (he : '=' ∉ key)
    (hk : keyOf key ∈ ["defer", "deferrable"]) (hi : ignored = [] ∨ ∃ cs, ignored = '=' :: cs) :
    AttributeText referenced (key ++ ignored) .deferred

/-! ## Reading

An attribute is cut at its first `=`; a text without one is a key alone, and one that begins with it
is a default. -/

/-- What a key and its value ask for, on a column with or without a reference. -/
inductive Asks (referenced : Bool) : String → Option (List Char) → Attribute → Prop
  | flag {key : String} {f : Flag} (hk : key ∈ f.keys) : Asks referenced key none (.flag f)
  | defaultTo {key : String} {expr : List Char} (hk : key ∈ ["default", "def"]) (he : expr ≠ []) :
    Asks referenced key (some expr) (.defaultTo (String.ofList expr))
  | onDelete {text : List Char} {action : Action} (hr : referenced = true)
    (ha : Action.ofText? text = some action) :
    Asks referenced "ondelete" (some text) (.onDelete action)
  | onUpdate {text : List Char} {action : Action} (hr : referenced = true)
    (ha : Action.ofText? text = some action) :
    Asks referenced "onupdate" (some text) (.onUpdate action)
  | deferred {key : String} {value : Option (List Char)} (hr : referenced = true)
    (hk : key ∈ ["defer", "deferrable"]) : Asks referenced key value .deferred

/-- The empty text names no action. -/
theorem ofText?_nil : Action.ofText? [] = none := by decide

/-- An action is read where there is a reference, from a value that names it. -/
theorem readAction_eq_ok_iff {referenced : Bool} {key : String} {value : Option (List Char)}
    {action : Action} :
    readAction referenced key value = .ok action ↔
      referenced = true ∧ ∃ text, value = some text ∧ Action.ofText? text = some action := by
  unfold readAction
  rcases value with _ | text
  · simp
  · by_cases ht : text = []
    · subst ht
      have hf : Option.filter (fun x => !x.isEmpty) (some ([] : List Char)) = none := rfl
      rw [hf]
      simp [ofText?_nil]
    · have hf : Option.filter (fun x => !x.isEmpty) (some text) = some text := by simp [ht]
      rw [hf]
      cases ha : Action.ofText? text with
      | none => simp [ha]
      | some a => cases referenced <;> simp [ha]

/-- What is read of a key and a value is what they ask for. -/
theorem asks_of_ofKeyValue {referenced : Bool} {key : String} {value : Option (List Char)}
    {a : Attribute} (h : ofKeyValue referenced key value = .ok a) :
    Asks referenced key value a := by
  unfold ofKeyValue at h
  split at h
  · next f hf =>
    cases value with
    | none =>
      obtain rfl := Except.ok.inj h
      exact .flag (Flag.ofKey?_eq_some_iff.mp hf)
    | some v => simp at h
  split at h
  · next hk =>
    split at h
    · next expr he =>
      obtain rfl := Except.ok.inj h
      obtain ⟨rfl, hne⟩ := Option.filter_eq_some_iff.mp he
      exact .defaultTo (by simpa using hk) (by simpa using hne)
    · simp at h
  split at h
  · next hk =>
    obtain ⟨action, ha, rfl⟩ := map_eq_ok_iff.mp h
    obtain ⟨hr, text, rfl, ht⟩ := readAction_eq_ok_iff.mp ha
    exact hk ▸ .onDelete hr ht
  split at h
  · next hk =>
    obtain ⟨action, ha, rfl⟩ := map_eq_ok_iff.mp h
    obtain ⟨hr, text, rfl, ht⟩ := readAction_eq_ok_iff.mp ha
    exact hk ▸ .onUpdate hr ht
  split at h
  · next hk =>
    split at h
    · next hr =>
      obtain rfl := Except.ok.inj h
      exact .deferred hr (by simpa using hk)
    · simp at h
  · simp at h

/-- What they ask for is read. -/
theorem ofKeyValue_of_asks {referenced : Bool} {key : String} {value : Option (List Char)}
    {a : Attribute} (h : Asks referenced key value a) :
    ofKeyValue referenced key value = .ok a := by
  cases h with
  | flag hk =>
    rw [ofKeyValue, Flag.ofKey?_eq_some_iff.mpr hk]
    rfl
  | @defaultTo key expr hk he =>
    have hf : Option.filter (fun x => !x.isEmpty) (some expr) = some expr := by simp [he]
    have hkey : Flag.ofKey? key = none := by
      rcases List.mem_pair.mp hk with rfl | rfl <;> rfl
    simp only [ofKeyValue, hkey, hf, if_pos (List.mem_pair.mp hk)]
  | @onDelete text action hr ha =>
    have hkey : Flag.ofKey? "ondelete" = none := rfl
    have hread : readAction referenced "ondelete" (some text) = .ok action :=
      readAction_eq_ok_iff.mpr ⟨hr, text, rfl, ha⟩
    simp [ofKeyValue, hkey, hread, Except.map]
  | @onUpdate text action hr ha =>
    have hkey : Flag.ofKey? "onupdate" = none := rfl
    have hread : readAction referenced "onupdate" (some text) = .ok action :=
      readAction_eq_ok_iff.mpr ⟨hr, text, rfl, ha⟩
    simp [ofKeyValue, hkey, hread, Except.map]
  | deferred hr hk =>
    rcases List.mem_pair.mp hk with rfl | rfl
    · have hkey : Flag.ofKey? "defer" = none := rfl
      simp [ofKeyValue, hkey, hr]
    · have hkey : Flag.ofKey? "deferrable" = none := rfl
      simp [ofKeyValue, hkey, hr]

/-- **A key and a value are read exactly as they ask.** -/
theorem ofKeyValue_eq_ok_iff {referenced : Bool} {key : String} {value : Option (List Char)}
    {a : Attribute} : ofKeyValue referenced key value = .ok a ↔ Asks referenced key value a :=
  ⟨asks_of_ofKeyValue, ofKeyValue_of_asks⟩

/-- A text is cut at the `=` behind its key. -/
theorem keyValue_append {key : List Char} (he : '=' ∉ key) (value : List Char) :
    keyValue (key ++ '=' :: value) =
      (if key = [] then "default" else keyOf key, some (Text.trim value)) := by
  unfold keyValue
  rw [Text.cutAt_append he]
  cases key with
  | nil => rfl
  | cons c key => rfl

theorem keyValue_of_no_equals {text : List Char} (ht : Text.trim text = text) (he : '=' ∉ text) :
    keyValue text = (keyOf text, none) := by
  rw [keyValue, Text.cutAt_eq_none he, keyOf, ht]

theorem ne_nil_of_keyOf {key : List Char} (h : keyOf key ≠ "") : key ≠ [] := by
  rintro rfl
  exact h rfl

/-- The text of an attribute asks for it with its key and value. -/
theorem asks_of_attributeText {referenced : Bool} {text : List Char} {a : Attribute}
    (ht : Text.trim text = text) (h : AttributeText referenced text a) :
    text ≠ [] ∧ Asks referenced (keyValue text).1 (keyValue text).2 a := by
  cases h with
  | @flag text f hk he =>
    have hne : text ≠ [] := ne_nil_of_keyOf fun hkey => by
      rw [hkey] at hk
      cases f <;> simp [Flag.keys] at hk
    rw [keyValue_of_no_equals ht he]
    exact ⟨hne, .flag hk⟩
  | @defaultTo key value he hk hv =>
    rw [keyValue_append he]
    refine ⟨by simp, .defaultTo ?_ hv⟩
    rcases hk with rfl | hk
    · simp
    · split
      · simp
      · exact hk
  | @onDelete key value action hr he hk ha =>
    have hne : key ≠ [] := ne_nil_of_keyOf (by simp [hk])
    rw [keyValue_append he, if_neg hne, hk]
    exact ⟨by simp, .onDelete hr ha⟩
  | @onUpdate key value action hr he hk ha =>
    have hne : key ≠ [] := ne_nil_of_keyOf (by simp [hk])
    rw [keyValue_append he, if_neg hne, hk]
    exact ⟨by simp, .onUpdate hr ha⟩
  | @deferred key ignored hr he hk hi =>
    have hne : key ≠ [] := ne_nil_of_keyOf fun hkey => by simp [hkey] at hk
    rcases hi with rfl | ⟨cs, rfl⟩
    · rw [List.append_nil] at ht ⊢
      rw [keyValue_of_no_equals ht he]
      exact ⟨hne, .deferred hr hk⟩
    · rw [keyValue_append he, if_neg hne]
      exact ⟨by simp, .deferred hr hk⟩

/-- A text with `=` spells what its key and value ask for. -/
theorem attributeText_of_asks_append {referenced : Bool} {key value : List Char} {a : Attribute}
    (he : '=' ∉ key) (h : Asks referenced (keyValue (key ++ '=' :: value)).1
      (keyValue (key ++ '=' :: value)).2 a) : AttributeText referenced (key ++ '=' :: value) a := by
  rw [keyValue_append he] at h
  generalize hkey : (if key = [] then "default" else keyOf key) = k at h
  generalize hvalue : some (Text.trim value) = v at h
  have hk : key = [] ∧ k = "default" ∨ keyOf key = k := by
    split at hkey
    · next hnil => exact .inl ⟨hnil, hkey.symm⟩
    · exact .inr hkey
  cases h with
  | flag => simp at hvalue
  | defaultTo hd hv =>
    obtain rfl := Option.some.inj hvalue
    exact .defaultTo he (hk.imp And.left fun e => by rwa [e]) hv
  | onDelete hr ha =>
    obtain rfl := Option.some.inj hvalue
    exact .onDelete hr he (hk.resolve_left (by simp)) ha
  | onUpdate hr ha =>
    obtain rfl := Option.some.inj hvalue
    exact .onUpdate hr he (hk.resolve_left (by simp)) ha
  | deferred hr hd =>
    refine .deferred hr he ?_ (.inr ⟨value, rfl⟩)
    rcases hk with ⟨-, rfl⟩ | hk
    · simp at hd
    · exact hk ▸ hd

/-- A text without `=` spells what its key alone asks for. -/
theorem attributeText_of_asks_none {referenced : Bool} {text : List Char} {a : Attribute}
    (he : '=' ∉ text) (h : Asks referenced (keyOf text) none a) :
    AttributeText referenced text a := by
  generalize hkey : keyOf text = k at h
  generalize hvalue : (none : Option (List Char)) = v at h
  cases h with
  | flag hf => exact .flag (hkey ▸ hf) he
  | defaultTo => simp at hvalue
  | onDelete => simp at hvalue
  | onUpdate => simp at hvalue
  | deferred hr hd =>
    have := AttributeText.deferred hr he (hkey ▸ hd) (.inl rfl)
    rwa [List.append_nil] at this

/-- A trimmed text asks for what its key and value ask for. -/
theorem attributeText_iff {referenced : Bool} {text : List Char} {a : Attribute}
    (ht : Text.trim text = text) :
    AttributeText referenced text a ↔
      text ≠ [] ∧ Asks referenced (keyValue text).1 (keyValue text).2 a := by
  refine ⟨asks_of_attributeText ht, fun ⟨hne, h⟩ => ?_⟩
  by_cases hmem : '=' ∈ text
  · obtain ⟨key, value, rfl, he⟩ := List.eq_append_cons_of_mem hmem
    exact attributeText_of_asks_append he h
  · rw [keyValue_of_no_equals ht hmem] at h
    exact attributeText_of_asks_none hmem h

/-- **An attribute is read exactly as the grammar says.** -/
theorem read_eq_ok_iff {referenced : Bool} {text : List Char} {a : Attribute} :
    read referenced text = .ok a ↔ AttributeText referenced (Text.trim text) a := by
  rw [attributeText_iff (Text.trim_trim text), ← ofKeyValue_eq_ok_iff, read]
  split
  · next h => simp [List.isEmpty_iff.mp h]
  · next h => simp [mt List.isEmpty_iff.mpr h]

/-- **Attributes are read one by one.** -/
theorem readAll_eq_ok_iff {referenced : Bool} {texts : List (List Char)} {as : List Attribute} :
    readAll referenced texts = .ok as ↔
      List.Forall₂ (fun text a => AttributeText referenced (Text.trim text) a) texts as := by
  induction texts generalizing as with
  | nil =>
    rw [List.forall₂_nil_left_iff, readAll]
    exact ⟨fun h => (Except.ok.inj h).symm, fun h => h ▸ rfl⟩
  | cons text texts ih =>
    rw [List.forall₂_cons_left_iff, readAll, bind_eq_ok_iff]
    constructor
    · rintro ⟨a, ha, h⟩
      obtain ⟨others, ho, h⟩ := bind_eq_ok_iff.mp h
      exact ⟨a, others, read_eq_ok_iff.mp ha, ih.mp ho, (Except.ok.inj h).symm⟩
    · rintro ⟨a, others, ha, ho, rfl⟩
      exact ⟨a, read_eq_ok_iff.mpr ha, bind_eq_ok_iff.mpr ⟨others, ih.mpr ho, rfl⟩⟩

/-! ## What attributes make of a column

Attributes are applied in their order: flags add up, and of defaults and actions the last one
counts. -/

/-- The last of the things that `pick` finds in attributes. -/
def last? {α : Type} (pick : Attribute → Option α) (as : List Attribute) : Option α :=
  (as.filterMap pick).getLast?

/-- The expression of a default. -/
def expr? : Attribute → Option String
  | defaultTo e => some e
  | _ => none

/-- The action on deletion. -/
def deleteAction? : Attribute → Option Action
  | onDelete a => some a
  | _ => none

/-- The action on a change. -/
def updateAction? : Attribute → Option Action
  | onUpdate a => some a
  | _ => none

@[simp] theorem last?_nil {α : Type} (pick : Attribute → Option α) : last? pick [] = none := rfl

/-- The last of some things is one behind the first, or else the first itself. -/
theorem last?_cons {α : Type} (pick : Attribute → Option α) (a : Attribute) (as : List Attribute) :
    last? pick (a :: as) = (last? pick as).or (pick a) := by
  cases ha : pick a with
  | none => simp [last?, ha]
  | some x =>
    simp only [last?, List.filterMap_cons, ha, List.getLast?_cons]
    cases (as.filterMap pick).getLast? <;> rfl

/-- **Flags add up**: a column has one if it had it or an attribute sets it. -/
theorem has_foldl_apply (as : List Attribute) (c : Constraints × Option Reference) (f : Flag) :
    (as.foldl apply c).1.has f = true ↔ c.1.has f = true ∨ .flag f ∈ as := by
  induction as generalizing c with
  | nil => simp
  | cons a as ih =>
    rw [List.foldl_cons, ih]
    cases a with
    | flag g =>
      simp only [apply, Constraints.has_set, Bool.or_eq_true, beq_iff_eq, List.mem_cons,
        flag.injEq, eq_comm (a := f)]
      tauto
    | defaultTo e =>
      have : ({ c.1 with defaultExpr := some e } : Constraints).has f = c.1.has f := by
        cases f <;> rfl
      simp [apply, this]
    | _ => simp [apply]

/-- **The last default counts.** -/
theorem defaultExpr_foldl_apply (as : List Attribute) (c : Constraints × Option Reference) :
    (as.foldl apply c).1.defaultExpr = (last? expr? as).or c.1.defaultExpr := by
  induction as generalizing c with
  | nil => simp
  | cons a as ih =>
    rw [List.foldl_cons, ih, last?_cons, Option.or_assoc]
    cases a <;> simp [apply, expr?]

/-- The reference of a column after attributes. -/
def amend (as : List Attribute) (r : Reference) : Reference :=
  { r with
    onDelete := (last? deleteAction? as).or r.onDelete
    onUpdate := (last? updateAction? as).or r.onUpdate
    deferred := r.deferred || as.contains .deferred }

/-- A reference is amended by all attributes, and none of them makes one. -/
theorem reference_foldl_apply (as : List Attribute) (c : Constraints × Option Reference) :
    (as.foldl apply c).2 = c.2.map (amend as) := by
  induction as generalizing c with
  | nil =>
    have : amend [] = id := by
      funext r
      simp [amend]
    simp [this]
  | cons a as ih =>
    rw [List.foldl_cons, ih]
    cases hc : c.2 with
    | none => cases a <;> simp [apply, hc]
    | some r =>
      cases a <;>
        simp [apply, hc, amend, last?_cons, deleteAction?, updateAction?]

end Attribute

/-- The column that a head and its attributes describe. A flag is set if the head or an attribute
sets it; of several defaults or actions the last counts; a column without type is text, or an
integer if it is an automatic key. -/
structure Denotes (head : Head) (attributes : List Attribute) (c : Column) : Prop where
  name : c.name = head.name
  storage : c.storage = head.storage.getD (if c.constraints.autoIncrement then .integer else .text)
  flag : ∀ f, c.constraints.has f = true ↔ head.constraints.has f = true ∨ .flag f ∈ attributes
  defaultExpr : c.constraints.defaultExpr =
    (Attribute.last? Attribute.expr? attributes).or head.constraints.defaultExpr
  reference : c.reference = head.reference.map (Attribute.amend attributes)

/-- **A head and its attributes are assembled to the column they describe**, and to no other. -/
theorem denotes_iff {head : Head} {attributes : List Attribute} {c : Column} :
    Denotes head attributes c ↔ c = assemble head attributes := by
  constructor
  · intro h
    have hc : c.constraints =
        (attributes.foldl Attribute.apply (head.constraints, head.reference)).1 := by
      refine Constraints.ext_has (fun f => ?_) ?_
      · rw [Bool.eq_iff_iff, h.flag f, Attribute.has_foldl_apply]
      · rw [h.defaultExpr, Attribute.defaultExpr_foldl_apply]
    obtain ⟨name, storage, constraints, reference⟩ := c
    simp only [assemble, Column.mk.injEq]
    refine ⟨h.name, ?_, hc, ?_⟩
    · rw [← hc]
      exact h.storage
    · rw [Attribute.reference_foldl_apply]
      exact h.reference
  · rintro rfl
    exact ⟨rfl, rfl, fun f => Attribute.has_foldl_apply attributes _ f,
      Attribute.defaultExpr_foldl_apply attributes _, Attribute.reference_foldl_apply attributes _⟩

end Field

end Tablature
