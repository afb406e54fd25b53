import Tablature.Proofs.Field.Grammar
import Tablature.Table

/-!
# Proofs/Table — the names in a table that was built

`build_eq_ok_iff` says which tables are built: the checks, in their order, and what is then put
together.  Whatever the tokens, the name of a built table and the tables it refers to are
identifiers (`isIdentifier_of_build`, `isIdentifier_of_mem_referenced`): a reference is only ever
read from the grammar of targets.
-/

namespace Tablature

open Tablature.Field (Head HeadText NamesText ColumnText)

/-! ## References of a field -/

/-- The table of a reference is an identifier. -/
theorem Field.NamesText.isIdentifier_table {opening : Char} {closing : List Char}
    {names : List Char × Option (List Char)} {text : List Char}
    (h : NamesText opening closing names text) : isIdentifier names.1 := by
  cases h with
  | table ht => exact ht
  | column ht hc => exact ht

/-- Its column is one too, given or not. -/
theorem Field.NamesText.isIdentifier_column {opening : Char} {closing : List Char}
    {names : List Char × Option (List Char)} {text : List Char}
    (h : NamesText opening closing names text) :
    isIdentifier (Field.referenceOf names).column.toList := by
  cases h with
  | table ht => exact (by decide : isIdentifier Reference.defaultColumn.toList)
  | column ht hc => simpa [Field.referenceOf, Reference.ofTable] using hc

/-- The reference of a head names identifiers. -/
theorem Field.HeadText.isIdentifier_reference {text : List Char} {head : Head} {r : Reference}
    (h : HeadText text head) (hr : head.reference = some r) :
    isIdentifier r.table.toList ∧ isIdentifier r.column.toList := by
  have hnames : ∀ {opening closing text} {names : List Char × Option (List Char)},
      NamesText opening closing names text → some (Field.referenceOf names) = some r →
        isIdentifier r.table.toList ∧ isIdentifier r.column.toList := by
    intro opening closing text names hn he
    obtain rfl := Option.some.inj he
    refine ⟨?_, hn.isIdentifier_column⟩
    simpa [Field.referenceOf, Reference.ofTable] using hn.isIdentifier_table
  cases h with
  | untyped => simp at hr
  | typed => simp at hr
  | inline ha hd ht hi hn => exact hnames hn hr
  | arrow ha hd hi hn => exact hnames hn hr

/-- **The table and the column that a column refers to are identifiers.** -/
theorem Field.isIdentifier_of_ofToken {token : String} {c : Column} {r : Reference}
    (h : Field.ofToken token = .ok (.column c)) (hr : c.reference = some r) :
    isIdentifier r.table.toList ∧ isIdentifier r.column.toList := by
  obtain ⟨first, others, head, as, -, hhead, -, hc⟩ := (ofTrimmed_eq_column_iff.mp h).parts
  have hreference := hc.reference
  rw [hr] at hreference
  obtain ⟨r₀, hr₀, rfl⟩ := Option.map_eq_some_iff.mp hreference.symm
  show isIdentifier r₀.table.toList ∧ isIdentifier r₀.column.toList
  exact hhead.isIdentifier_reference hr₀

namespace Table

/-! ## Lists -/

/-- Two lists related item by item: each item of the second has one of the first. -/
theorem exists_of_mem_right {α β : Type} {R : α → β → Prop} :
    ∀ {xs : List α} {ys : List β} {y : β}, List.Forall₂ R xs ys → y ∈ ys → ∃ x ∈ xs, R x y
  | _, _, _, .cons h hs, hy => by
    rcases List.mem_cons.mp hy with rfl | hy
    · exact ⟨_, by simp, h⟩
    · obtain ⟨x, hx, hxy⟩ := exists_of_mem_right hs hy
      exact ⟨x, by simp [hx], hxy⟩

/-- Inserted items and those that were there, and no others. -/
theorem mem_insertAll {items more : List String} {x : String} :
    x ∈ insertAll items more ↔ x ∈ items ∨ x ∈ more := by
  induction more generalizing items with
  | nil => simp [insertAll]
  | cons y more ih =>
    have hstep : insertAll items (y :: more) = insertAll (insertNew items y) more := rfl
    rw [hstep, ih, List.mem_cons, ← or_assoc]
    refine or_congr_left ?_
    unfold insertNew
    split
    · next hy => exact ⟨.inl, fun h => h.elim id fun e => e ▸ hy⟩
    · simp

/-! ## Tables -/

/-- The columns of a table that some fields describe. -/
abbrev columnsOf (opts : Options) (fields : List Field) : List Column :=
  allColumns opts (declaredColumns opts fields)

/-- The table that some fields describe. -/
abbrev ofFields (name : String) (opts : Options) (fields : List Field) : Table where
  name := name
  version := opts.version
  columns := columnsOf opts fields
  statements := insertAll [] (requested name opts (columnsOf opts fields) (directives fields))

/-- **A table is built exactly when every check passes**, and then it is the one that its fields
describe. -/
theorem build_eq_ok_iff {name : String} {tokens : List String} {opts : Options} {table : Table} :
    build name tokens opts = .ok table ↔
      isIdentifier name.toList ∧ opts.version ≠ 0 ∧ ∃ fields, readFields tokens = .ok fields ∧
        checkPrimaryKey (declaredColumns opts fields) = .ok () ∧
        checkNames (columnsOf opts fields) = .ok () ∧
        checkDirectives name (columnsOf opts fields) (directives fields) = .ok () ∧
        table = ofFields name opts fields := by
  dsimp only [build]
  constructor
  · intro h
    split at h
    · exact nomatch h
    · next hid =>
      split at h
      · exact nomatch h
      · next hversion =>
        obtain ⟨fields, hfields, h⟩ := bind_eq_ok_iff.mp h
        obtain ⟨_, hkey, h⟩ := bind_eq_ok_iff.mp h
        obtain ⟨_, hnames, h⟩ := bind_eq_ok_iff.mp h
        obtain ⟨_, hdirectives, h⟩ := bind_eq_ok_iff.mp h
        exact ⟨by simpa using hid, hversion, fields, hfields, hkey, hnames, hdirectives,
          (Except.ok.inj h).symm⟩
  · rintro ⟨hid, hversion, fields, hfields, hkey, hnames, hdirectives, rfl⟩
    rw [if_neg (by simpa using hid), if_neg hversion]
    exact bind_eq_ok_iff.mpr ⟨fields, hfields, bind_eq_ok_iff.mpr ⟨(), hkey,
      bind_eq_ok_iff.mpr ⟨(), hnames, bind_eq_ok_iff.mpr ⟨(), hdirectives, rfl⟩⟩⟩⟩

/-- What can be said of a table that was built. -/
theorem of_build {name : String} {tokens : List String} {opts : Options} {table : Table}
    (h : build name tokens opts = .ok table) :
    isIdentifier name.toList ∧ table.name = name ∧ ∃ fields, readFields tokens = .ok fields ∧
      table.columns = allColumns opts (declaredColumns opts fields) := by
  obtain ⟨hid, -, fields, hfields, -, -, -, rfl⟩ := build_eq_ok_iff.mp h
  exact ⟨hid, rfl, fields, hfields, rfl⟩

theorem name_eq_of_build {name : String} {tokens : List String} {opts : Options} {table : Table}
    (h : build name tokens opts = .ok table) : table.name = name :=
  (of_build h).2.1

theorem isIdentifier_of_build {name : String} {tokens : List String} {opts : Options}
    {table : Table} (h : build name tokens opts = .ok table) : isIdentifier table.name.toList := by
  obtain ⟨hid, rfl, -⟩ := of_build h
  exact hid

/-- **Tokens are read one by one.** -/
theorem readFields_eq_ok_iff {tokens : List String} {fields : List Field} :
    readFields tokens = .ok fields ↔
      List.Forall₂ (fun token field => Field.ofToken token = .ok field) tokens fields := by
  induction tokens generalizing fields with
  | nil =>
    rw [List.forall₂_nil_left_iff, readFields]
    exact ⟨fun h => (Except.ok.inj h).symm, fun h => h ▸ rfl⟩
  | cons token tokens ih =>
    rw [List.forall₂_cons_left_iff, readFields, bind_eq_ok_iff]
    constructor
    · rintro ⟨field, hfield, h⟩
      obtain ⟨others, hothers, h⟩ := bind_eq_ok_iff.mp h
      exact ⟨field, others, hfield, ih.mp hothers, (Except.ok.inj h).symm⟩
    · rintro ⟨field, others, hfield, hothers, rfl⟩
      exact ⟨field, hfield, bind_eq_ok_iff.mpr ⟨others, ih.mpr hothers, rfl⟩⟩

/-- A field that was read comes from a token. -/
theorem exists_token_of_readFields {tokens : List String} {fields : List Field} {field : Field}
    (h : readFields tokens = .ok fields) (hm : field ∈ fields) :
    ∃ token ∈ tokens, Field.ofToken token = .ok field := by
  obtain ⟨token, hmem, htoken⟩ := exists_of_mem_right (readFields_eq_ok_iff.mp h) hm
  exact ⟨token, hmem, htoken⟩

/-- The columns with a reference are declared ones. -/
theorem exists_field_of_reference {opts : Options} {fields : List Field} {c : Column}
    {r : Reference} (hc : c ∈ allColumns opts (declaredColumns opts fields))
    (hr : c.reference = some r) :
    ∃ c₀ r₀, Field.column c₀ ∈ fields ∧ c₀.reference = some r₀ ∧ r.table = r₀.table := by
  have hdeclared : c ∈ declaredColumns opts fields := by
    unfold allColumns at hc
    rcases List.mem_append.mp hc with hc | hc
    · rcases List.mem_append.mp hc with hc | hc
      · split at hc
        · simp at hc
        · obtain rfl := List.mem_singleton.mp hc
          simp [Column.surrogate] at hr
      · exact hc
    · split at hc
      · simp only [Column.stamps, List.mem_cons, List.not_mem_nil, or_false] at hc
        rcases hc with rfl | rfl | rfl <;> simp at hr
      · simp at hc
  obtain ⟨field, hmem, hfield⟩ := List.mem_filterMap.mp hdeclared
  cases field with
  | indexOn name => simp at hfield
  | column c₀ =>
    obtain rfl := Option.some.inj hfield
    obtain ⟨r₀, hr₀, rfl⟩ := Option.map_eq_some_iff.mp hr
    exact ⟨c₀, r₀, hmem, hr₀, rfl⟩

/-- **The tables that a built table refers to are identifiers.** -/
theorem isIdentifier_of_mem_referenced {name u : String} {tokens : List String} {opts : Options}
    {table : Table} (h : build name tokens opts = .ok table) (hu : u ∈ table.referenced) :
    isIdentifier u.toList := by
  obtain ⟨-, -, fields, hfields, hcolumns⟩ := of_build h
  unfold referenced at hu
  rw [mem_insertAll, List.mem_filter, List.mem_filterMap] at hu
  obtain ⟨c, hc, hu⟩ := (hu.resolve_left (by simp)).1
  obtain ⟨r, hr, rfl⟩ := Option.map_eq_some_iff.mp hu
  obtain ⟨c₀, r₀, hmem, hr₀, htable⟩ := exists_field_of_reference (hcolumns ▸ hc) hr
  obtain ⟨token, -, htoken⟩ := exists_token_of_readFields hfields hmem
  exact htable ▸ (Field.isIdentifier_of_ofToken htoken hr₀).1

end Table

end Tablature
