import Tablature.Proofs.Table

/-!
# Proofs/Table/Invariant — what holds of every table that was built

What is known of a built table comes from three places:

* each token is read by itself, so each column is sound by itself (`Column.IsSound`): its names are
  identifiers, an automatic key is an integer primary key, a default is a trimmed text;
* the columns that a table adds of its own, a key and the stamps, are sound too;
* the checks at the end compare all columns with each other, the added ones included.

`BuiltFrom` is the whole of it, together with which columns there are and in which order; and
`builtFrom_of_build` says that it holds of every table that `build` returns.
-/

namespace Tablature

/-! ## Columns by themselves -/

/-- What holds of a column, whichever table it is in. -/
structure Column.IsSound (c : Column) : Prop where
  name : isIdentifier c.name.toList
  autoIncrement : c.constraints.autoIncrement = true →
    c.constraints.primaryKey = true ∧ c.storage = .integer
  reference : ∀ r ∈ c.reference, isIdentifier r.table.toList ∧ isIdentifier r.column.toList
  defaultExpr : ∀ e ∈ c.constraints.defaultExpr, e ≠ "" ∧ Text.strip e = e

theorem Column.isSound_surrogate : Column.surrogate.IsSound where
  name := by decide
  autoIncrement := fun _ => ⟨rfl, rfl⟩
  reference := nofun
  defaultExpr := nofun

theorem Column.isSound_stamps : ∀ c ∈ Column.stamps, c.IsSound := by
  have hstamp : ∀ name notNull, isIdentifier name.toList →
      Column.IsSound { name, storage := .text, constraints := { notNull } } :=
    fun _ _ hname => ⟨hname, nofun, nofun, nofun⟩
  simp only [Column.stamps, List.mem_cons, List.not_mem_nil, or_false]
  rintro c (rfl | rfl | rfl)
  · exact hstamp _ _ (by decide)
  · exact hstamp _ _ (by decide)
  · exact hstamp _ _ (by decide)

namespace Field

open Attribute (AttributeText)

theorem DefinitionText.isIdentifier_name {d : Definition} {text : List Char}
    (h : DefinitionText d text) : isIdentifier d.name := by
  cases h with
  | bare hn => exact hn
  | typed hn => exact hn

theorem HeadText.isIdentifier_name {text : List Char} {head : Head} (h : HeadText text head) :
    isIdentifier head.name.toList := by
  cases h with
  | untyped _ hd => simpa using hd.isIdentifier_name
  | typed _ hd => simpa using hd.isIdentifier_name
  | inline _ hd => simpa using hd.isIdentifier_name
  | arrow _ hd => simpa using hd.isIdentifier_name

/-- A head gives no default. -/
theorem HeadText.defaultExpr_eq_none {text : List Char} {head : Head} (h : HeadText text head) :
    head.constraints.defaultExpr = none := by
  cases h <;> exact Constraints.defaultExpr_ofFlags _

/-- The expression of a default is what is left of its text, which is something, without the blanks
around it. -/
theorem Attribute.AttributeText.strip_expr {referenced : Bool} {text : List Char} {e : String}
    (h : AttributeText referenced text (.defaultTo e)) : e ≠ "" ∧ Text.strip e = e := by
  cases h with
  | @defaultTo key value he hk hv =>
    have hne : String.ofList (Text.trim value) ≠ "" := by simpa using hv
    refine ⟨hne, ?_⟩
    rw [Text.strip, String.toList_ofList, Text.trim_trim]

/-- The last of what `pick` finds in attributes is found in one of them. -/
theorem Attribute.exists_of_last? {α : Type} {pick : Attribute → Option α} {as : List Attribute}
    {x : α} (h : last? pick as = some x) : ∃ a ∈ as, pick a = some x :=
  List.mem_filterMap.mp (List.mem_of_getLast? h)

/-- **The default of a column** is given by one of its attributes. -/
theorem Denotes.exists_default {first : List Char} {others : List (List Char)} {head : Head}
    {as : List Attribute} {c : Column} (hc : Denotes head as c) (hhead : HeadText first head)
    (has : List.Forall₂ (fun t a => AttributeText head.reference.isSome (Text.trim t) a) others as)
    {e : String} (he : c.constraints.defaultExpr = some e) :
    ∃ text ∈ others, AttributeText head.reference.isSome (Text.trim text) (.defaultTo e) := by
  rw [hc.defaultExpr, hhead.defaultExpr_eq_none, Option.or_none] at he
  obtain ⟨a, ha, hpick⟩ := Attribute.exists_of_last? he
  obtain ⟨text, hmem, htext⟩ := Table.exists_of_mem_right has ha
  cases a with
  | defaultTo e' => exact ⟨text, hmem, Option.some.inj hpick ▸ htext⟩
  | _ => exact nomatch hpick

/-- It is a trimmed text that is not empty. -/
theorem ColumnText.strip_defaultExpr {text : List Char} {c : Column} (h : ColumnText text c)
    {e : String} (he : c.constraints.defaultExpr = some e) : e ≠ "" ∧ Text.strip e = e := by
  obtain ⟨first, others, head, as, -, hhead, has, hc⟩ := h.parts
  obtain ⟨text, -, htext⟩ := hc.exists_default hhead has he
  exact htext.strip_expr

/-- **A column that is read from a token is sound.** -/
theorem isSound_of_ofToken {token : String} {c : Column} (h : ofToken token = .ok (.column c)) :
    c.IsSound := by
  have htext := ofTrimmed_eq_column_iff.mp h
  obtain ⟨first, others, head, as, -, hhead, -, hc⟩ := htext.parts
  exact
    { name := hc.name ▸ hhead.isIdentifier_name
      autoIncrement := htext.autoIncrement
      reference := fun r hr => isIdentifier_of_ofToken h hr
      defaultExpr := fun e he => htext.strip_defaultExpr he }

/-- The column of a field that is one. -/
def column? : Field → Option Column
  | .column c => some c
  | .indexOn _ => none

end Field

/-! ## Actions from the options

The options fill in what a reference leaves open, and nothing else. -/

/-- A reference with the actions it leaves open filled in, and its own ones kept. -/
structure Reference.Fills (opts : Options) (r filled : Reference) : Prop where
  table : filled.table = r.table
  column : filled.column = r.column
  onDelete : filled.onDelete = r.onDelete.or opts.onDelete
  onUpdate : filled.onUpdate = r.onUpdate.or opts.onUpdate
  deferred : filled.deferred = r.deferred

/-- A column with its reference filled in, and all else as it was. -/
structure Column.Fills (opts : Options) (c filled : Column) : Prop where
  name : filled.name = c.name
  storage : filled.storage = c.storage
  constraints : filled.constraints = c.constraints
  reference : Option.Rel (Reference.Fills opts) c.reference filled.reference

theorem Column.Fills.isSound {opts : Options} {c filled : Column} (hf : c.Fills opts filled)
    (h : c.IsSound) : filled.IsSound where
  name := hf.name ▸ h.name
  autoIncrement := by
    rw [hf.constraints, hf.storage]
    exact h.autoIncrement
  reference r hr := by
    have hrel := hf.reference
    rw [Option.mem_def.mp hr] at hrel
    cases hc : c.reference with
    | none =>
      rw [hc] at hrel
      exact nomatch hrel
    | some r₀ =>
      rw [hc] at hrel
      cases hrel with
      | some hfills =>
        rw [hfills.table, hfills.column]
        exact h.reference r₀ hc
  defaultExpr := hf.constraints ▸ h.defaultExpr

namespace Table

variable {name : String} {tokens : List String} {opts : Options} {fields : List Field}
  {table : Table}

/-- **No column is lost, none comes twice, and they keep their order**; only open actions are
filled in. -/
theorem fills_declaredColumns (opts : Options) (fields : List Field) :
    List.Forall₂ (Column.Fills opts) (fields.filterMap Field.column?)
      (declaredColumns opts fields) := by
  induction fields with
  | nil => exact .nil
  | cons field fields ih =>
    cases field with
    | indexOn name => exact ih
    | column c =>
      refine .cons ⟨rfl, rfl, rfl, ?_⟩ ih
      cases hr : c.reference with
      | none => exact .none
      | some r => exact .some ⟨rfl, rfl, rfl, rfl, rfl⟩

/-- A filled column is a key if the column is. -/
theorem any_primaryKey_of_fills {cs cs' : List Column}
    (h : List.Forall₂ (Column.Fills opts) cs cs') :
    cs'.any (·.constraints.primaryKey) = cs.any (·.constraints.primaryKey) := by
  induction h with
  | nil => rfl
  | cons hc _ ih => rw [List.any_cons, List.any_cons, ih, hc.constraints]

/-! ## Columns together -/

/-- One primary key at most passes. -/
theorem checkPrimaryKey_eq_ok_iff {declared : List Column} :
    checkPrimaryKey declared = .ok () ↔ declared.countP (·.constraints.primaryKey) ≤ 1 := by
  rw [List.countP_eq_length_filter]
  dsimp only [checkPrimaryKey]
  split <;> simp_all

theorem firstRepeat?_eq_none_iff {seen names : List String} :
    firstRepeat? seen names = none ↔ names.Nodup ∧ ∀ n ∈ names, n ∉ seen := by
  induction names generalizing seen with
  | nil => simp [firstRepeat?]
  | cons name names ih =>
    by_cases hseen : name ∈ seen
    · simp [firstRepeat?, hseen]
    · rw [firstRepeat?, if_neg hseen, ih, List.nodup_cons]
      constructor
      · rintro ⟨hnodup, hnew⟩
        refine ⟨⟨fun hm => hnew name hm (by simp), hnodup⟩, ?_⟩
        rintro n (_ | ⟨_, hn⟩)
        · exact hseen
        · exact fun hm => hnew n hn (by simp [hm])
      · rintro ⟨⟨hname, hnodup⟩, hnew⟩
        refine ⟨hnodup, fun n hn hm => ?_⟩
        rcases List.mem_cons.mp hm with rfl | hm
        · exact hname hn
        · exact hnew n (by simp [hn]) hm

/-- Names that do not repeat pass. -/
theorem checkNames_eq_ok_iff {columns : List Column} :
    checkNames columns = .ok () ↔ (columns.map (·.name)).Nodup := by
  have hrepeat : firstRepeat? [] (columns.map (·.name)) = none ↔ (columns.map (·.name)).Nodup := by
    simp [firstRepeat?_eq_none_iff]
  unfold checkNames
  rw [← hrepeat]
  cases firstRepeat? [] (columns.map (·.name)) <;> simp

/-- Directives that name columns of the table pass. -/
theorem checkDirectives_eq_ok_iff {columns : List Column} {names : List String} :
    checkDirectives name columns names = .ok () ↔ ∀ n ∈ names, ∃ c ∈ columns, c.name = n := by
  have hfind : (names.find? fun n => columns.all (·.name != n)) = none ↔
      ∀ n ∈ names, ∃ c ∈ columns, c.name = n := by
    simp [List.find?_eq_none]
  unfold checkDirectives
  rw [← hfind]
  cases hf : names.find? fun n => columns.all (·.name != n) <;> simp

/-- **A table has exactly one primary key**, if its tokens declare at most one. -/
theorem countP_primaryKey_allColumns {declared : List Column}
    (h : declared.countP (·.constraints.primaryKey) ≤ 1) :
    (allColumns opts declared).countP (·.constraints.primaryKey) = 1 := by
  have hstamps :
      (if opts.stamps then Column.stamps else []).countP (·.constraints.primaryKey) = 0 := by
    split <;> rfl
  rw [allColumns, List.countP_append, List.countP_append, hstamps, Nat.add_zero]
  split
  · next hany =>
    have hpos : 0 < declared.countP (·.constraints.primaryKey) := by
      simpa [List.countP_pos_iff] using hany
    rw [List.countP_nil]
    omega
  · next hany =>
    have hzero : declared.countP (·.constraints.primaryKey) = 0 := by
      simpa [List.countP_eq_zero] using hany
    rw [hzero]
    rfl

/-- **Where a column comes from**: the table adds it of its own, or a token declares it. -/
theorem exists_origin_of_mem_columns (h : readFields tokens = .ok fields) {c : Column}
    (hc : c ∈ columnsOf opts fields) :
    c ∈ Column.surrogate :: Column.stamps ∨
      ∃ token ∈ tokens, ∃ c₀, Field.ofToken token = .ok (.column c₀) ∧ c₀.Fills opts c := by
  rcases List.mem_append.mp hc with hc | hc
  · rcases List.mem_append.mp hc with hc | hc
    · split at hc
      · simp at hc
      · exact .inl (List.mem_singleton.mp hc ▸ List.mem_cons_self)
    · obtain ⟨c₀, hc₀, hfills⟩ := exists_of_mem_right (fills_declaredColumns opts fields) hc
      obtain ⟨field, hfield, hcolumn⟩ := List.mem_filterMap.mp hc₀
      obtain ⟨token, hmem, htoken⟩ := exists_token_of_readFields h hfield
      cases field with
      | indexOn n => exact nomatch hcolumn
      | column c₁ =>
        obtain rfl := Option.some.inj hcolumn
        exact .inr ⟨token, hmem, _, htoken, hfills⟩
  · split at hc
    · exact .inl (List.mem_cons_of_mem _ hc)
    · simp at hc

/-- **All columns of a table are sound**, the added ones included. -/
theorem isSound_of_mem_columns (h : readFields tokens = .ok fields) :
    ∀ c ∈ columnsOf opts fields, c.IsSound := by
  intro c hc
  rcases exists_origin_of_mem_columns h hc with hc | ⟨token, -, c₀, htoken, hfills⟩
  · rcases List.mem_cons.mp hc with rfl | hc
    · exact Column.isSound_surrogate
    · exact Column.isSound_stamps c hc
  · exact hfills.isSound (Field.isSound_of_ofToken htoken)

/-- **Each index statement is about a column of the table.** -/
theorem exists_column_of_mem_requested {columns : List Column} {names : List String}
    (hnames : ∀ n ∈ names, ∃ c ∈ columns, c.name = n) {statement : String}
    (h : statement ∈ requested name opts columns names) :
    ∃ c ∈ columns,
      statement = indexSql name c.name ∨ statement = referenceIndexSql name c.name := by
  simp only [requested, List.mem_append, List.mem_map, List.mem_filter] at h
  rcases h with (⟨c, ⟨hc, -⟩, rfl⟩ | ⟨n, hn, rfl⟩) | h
  · exact ⟨c, hc, .inl rfl⟩
  · obtain ⟨c, hc, rfl⟩ := hnames n hn
    exact ⟨c, hc, .inl rfl⟩
  · split at h
    · obtain ⟨c, hc, rfl⟩ := List.mem_map.mp h
      exact ⟨c, (List.mem_filter.mp hc).1, .inr rfl⟩
    · simp at h

/-! ## Tables -/

/-- A table that was built from a name, tokens and options. -/
structure BuiltFrom (name : String) (tokens : List String) (opts : Options) (table : Table) :
    Prop where
  name_eq : table.name = name
  name : isIdentifier table.name.toList
  version_eq : table.version = opts.version
  version : 1 ≤ table.version
  /-- A key if no token declares one, the columns of the tokens, and the stamps if asked for. -/
  columns : ∃ fields own,
    List.Forall₂ (fun token field => Field.ofToken token = .ok field) tokens fields ∧
    List.Forall₂ (Column.Fills opts) (fields.filterMap Field.column?) own ∧
    table.columns =
      (if (fields.filterMap Field.column?).any (·.constraints.primaryKey) then []
        else [Column.surrogate])
      ++ own ++ (if opts.stamps then Column.stamps else [])
  sound : ∀ c ∈ table.columns, c.IsSound
  distinct : (table.columns.map (·.name)).Nodup
  primaryKey : table.columns.countP (·.constraints.primaryKey) = 1
  statements : ∀ s ∈ table.statements, ∃ c ∈ table.columns,
    s = indexSql table.name c.name ∨ s = referenceIndexSql table.name c.name

/-- **Every table that is built satisfies the invariant of tables.** -/
theorem builtFrom_of_build (h : build name tokens opts = .ok table) :
    BuiltFrom name tokens opts table := by
  obtain ⟨hid, hversion, fields, hfields, hkey, hnames, hdirectives, rfl⟩ := build_eq_ok_iff.mp h
  have hfills := fills_declaredColumns opts fields
  have hone : (1 : UInt32) ≤ opts.version := by
    rw [UInt32.le_iff_toNat_le]
    exact Nat.one_le_iff_ne_zero.mpr fun hz => hversion (UInt32.toNat_inj.mp hz)
  exact
    { name_eq := rfl
      name := hid
      version_eq := rfl
      version := hone
      columns := by
        refine ⟨fields, _, readFields_eq_ok_iff.mp hfields, hfills, ?_⟩
        rw [← any_primaryKey_of_fills hfills]
        rfl
      sound := isSound_of_mem_columns hfields
      distinct := checkNames_eq_ok_iff.mp hnames
      primaryKey := countP_primaryKey_allColumns (checkPrimaryKey_eq_ok_iff.mp hkey)
      statements := fun s hs => exists_column_of_mem_requested
        (checkDirectives_eq_ok_iff.mp hdirectives) ((mem_insertAll.mp hs).resolve_left (by simp)) }

/-- Comments without a key of their own: a reference that leaves an action open, an index on a
column that a later token declares, and a default. -/
def commentTokens : List String :=
  ["author:fk(users)!,ondelete=cascade", "^body", "body,= 'n/a' "]

/-- Options with stamps, and actions for the references that leave them open. -/
def commentOptions : Options where
  stamps := true
  onDelete := some .restrict
  onUpdate := some .setNull

theorem builtFrom_comments :
    ∃ table, build "comments" commentTokens commentOptions = .ok table ∧
      BuiltFrom "comments" commentTokens commentOptions table := by
  have hok : (build "comments" commentTokens commentOptions).isOk = true := by decide +kernel
  obtain ⟨table, htable⟩ := exists_of_isOk hok
  exact ⟨table, htable, builtFrom_of_build htable⟩

end Table

end Tablature
