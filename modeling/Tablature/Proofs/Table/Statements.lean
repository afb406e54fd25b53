import Tablature.Proofs.Table.Faults

/-!
# Proofs/Table/Statements — the index statements of a compiled table

A table collects its statements from flags, directives and references, in this order, and keeps
each once.  `statesIndexes_of_compile` says which they are: the list of all that is asked for, less
later repeats; and what follows for the reader of an artifact:

* a column gets one plain index, however often and in whatever way it is asked for;
* it makes no difference but to the order whether a flag or a directive asks for it;
* the index of a reference is never taken for a plain one.

The last rests on the texts alone: a plain statement names its column twice and so does that of a
reference, with three characters more (`indexSql_ne_referenceIndexSql`).
-/

namespace Tablature

/-- The column without its index flag, which its clause does not show. -/
def Column.unindexed (c : Column) : Column :=
  { c with constraints := { c.constraints with index := false } }

/-- The index flag has no part in a column's text. -/
@[simp] theorem Column.sql_unindexed (c : Column) : c.unindexed.sql = c.sql := rfl

/-- The column that a directive names. -/
def Field.directive? : Field → Option String
  | .column _ => none
  | .indexOn name => some name

namespace Table

variable {name : String} {tokens tokens' : List String} {opts : Options} {fields : List Field}
  {a : Artifact}

/-! ## Items kept once -/

/-- **Inserted items come after those that were there**, new ones only and each where it comes
first. -/
theorem insertAll_eq (items more : List String) :
    insertAll items more = items ++ (more.filter (· ∉ items)).eraseDups := by
  induction more generalizing items with
  | nil => simp [insertAll]
  | cons item more ih =>
    have hstep : insertAll items (item :: more) = insertAll (insertNew items item) more := rfl
    rw [hstep, ih, insertNew]
    by_cases hitem : item ∈ items
    · simp [hitem]
    · have hfilter : (more.filter (· ∉ items ++ [item])) =
          (more.filter (· ∉ items)).filter fun b => !b == item := by
        rw [List.filter_filter]
        refine List.filter_congr fun b _ => ?_
        by_cases hb : b = item <;> simp [hb]
      rw [if_neg hitem, List.filter_cons_of_pos (by simpa using hitem), List.eraseDups_cons,
        hfilter, List.append_assoc]
      rfl

/-- Inserting keeps a list without repeats. -/
theorem nodup_insertAll {items : List String} (h : items.Nodup) (more : List String) :
    (insertAll items more).Nodup := by
  induction more generalizing items with
  | nil => exact h
  | cons item more ih =>
    refine ih ?_
    unfold insertNew
    split
    · exact h
    · next hitem =>
      refine List.nodup_append.mpr ⟨h, by simp, fun x hx y hy he => hitem ?_⟩
      rwa [← List.mem_singleton.mp hy, ← he]

/-! ## The texts of statements

A statement is told from the column it names, and statements of the two kinds never meet. -/

/-- Both statements name the column twice, between texts that depend on the table alone. -/
theorem exists_toList_eq (table : String) : ∃ front mid back : List Char,
    (∀ n, (indexSql table n).toList = front ++ (n.toList ++ (mid ++ (n.toList ++ back)))) ∧
      ∀ n, (referenceIndexSql table n).toList =
        front ++ (n.toList ++ ("_fk".toList ++ (mid ++ (n.toList ++ back)))) := by
  have hending : "_fk ON " = "_fk" ++ " ON " := by decide
  refine ⟨("CREATE INDEX IF NOT EXISTS idx_" ++ table ++ "_").toList,
    (" ON " ++ table ++ "(").toList, ");".toList, fun n => ?_, fun n => ?_⟩
  · unfold indexSql
    simp only [String.toList_append, List.append_assoc]
  · unfold referenceIndexSql
    rw [hending]
    simp only [String.toList_append, List.append_assoc]

/-- **A plain index is never that of a reference**: the lengths of their statements differ by an
odd number. -/
theorem indexSql_ne_referenceIndexSql (table n m : String) :
    indexSql table n ≠ referenceIndexSql table m := by
  obtain ⟨front, mid, back, hplain, hreference⟩ := exists_toList_eq table
  intro h
  have hlength := congrArg List.length (congrArg String.toList h)
  rw [hplain, hreference] at hlength
  have hending : "_fk".toList.length = 3 := by decide
  simp only [List.length_append, hending] at hlength
  omega

/-- **Plain statements of one table are told apart by their columns.** -/
theorem indexSql_injective (table : String) : Function.Injective (indexSql table) := by
  obtain ⟨front, mid, back, hplain, -⟩ := exists_toList_eq table
  intro n m h
  have hlist := congrArg String.toList h
  rw [hplain, hplain, List.append_cancel_left_eq] at hlist
  have hlength : n.toList.length = m.toList.length := by
    have := congrArg List.length hlist
    simp only [List.length_append] at this
    omega
  exact String.toList_inj.mp (List.append_inj_left hlist hlength)

/-! ## What is asked for

The columns that are indexed, read off the tokens: those flagged or named by a directive, and those
that refer to other tables. -/

/-- Tokens ask for a plain index on a column, by a flag or by a directive. -/
inductive AsksIndex (tokens : List String) (n : String) : Prop
  | flag {token : String} {c : Column} (htoken : token ∈ tokens)
    (h : Field.ofToken token = .ok (.column c)) (hindex : c.constraints.index = true)
    (hn : c.name = n)
  | directive {token : String} (htoken : token ∈ tokens)
    (h : Field.ofToken token = .ok (.indexOn n))

/-- The names of the columns that are references. -/
def referenceNames (tokens : List String) : List String :=
  ((columnsRead tokens).filter (·.reference.isSome)).map (·.name)

/-- The columns named by directives, as a filter over all fields. -/
theorem directives_eq (fields : List Field) :
    directives fields = fields.filterMap Field.directive? := by
  refine List.filterMap_congr fun field _ => ?_
  cases field <;> rfl

/-- A directive among the fields that are read is that of a token. -/
theorem mem_directives_iff {n : String} : n ∈ directives (fieldsRead tokens) ↔
    ∃ token ∈ tokens, Field.ofToken token = .ok (.indexOn n) := by
  rw [directives_eq, List.mem_filterMap]
  constructor
  · rintro ⟨field, hfield, hn⟩
    obtain ⟨token, htoken, hread⟩ := List.mem_filterMap.mp hfield
    cases field with
    | column c => exact nomatch hn
    | indexOn m =>
      obtain rfl := Option.some.inj hn
      exact ⟨token, htoken, toOption_eq_some_iff.mp hread⟩
  · rintro ⟨token, htoken, hread⟩
    exact ⟨.indexOn n, List.mem_filterMap.mpr ⟨token, htoken, toOption_eq_some_iff.mpr hread⟩, rfl⟩

/-- What asks for an index are the flagged columns and the directives, in these two lists. -/
theorem asksIndex_iff {n : String} : AsksIndex tokens n ↔
    n ∈ ((columnsRead tokens).filter (·.constraints.index)).map (·.name) ∨
      n ∈ directives (fieldsRead tokens) := by
  rw [mem_directives_iff, List.mem_map]
  constructor
  · rintro (⟨htoken, h, hindex, hn⟩ | ⟨htoken, h⟩)
    · exact .inl ⟨_, List.mem_filter.mpr ⟨mem_columnsRead.mpr ⟨_, htoken, h⟩, hindex⟩, hn⟩
    · exact .inr ⟨_, htoken, h⟩
  · rintro (⟨c, hc, hn⟩ | ⟨token, htoken, h⟩)
    · obtain ⟨hread, hindex⟩ := List.mem_filter.mp hc
      obtain ⟨token, htoken, h⟩ := mem_columnsRead.mp hread
      exact .flag htoken h hindex hn
    · exact .directive htoken h

/-- **The columns that have a flag or a reference** are declared by tokens, if the added ones have
neither. -/
theorem map_name_filter_columnsOf {p : Column → Bool}
    (hp : ∀ {c c'}, Column.Fills opts c c' → p c' = p c) (hsurrogate : p Column.surrogate = false)
    (hstamps : Column.stamps.filter p = []) (tokens : List String) :
    ((columnsOf opts (fieldsRead tokens)).filter p).map (·.name) =
      ((columnsRead tokens).filter p).map (·.name) := by
  have hdeclared := map_name_of_fills (filter_of_fills hp (fills_declaredColumns opts
    (fieldsRead tokens)))
  have hfront : ∀ b : Bool, (if b then [] else [Column.surrogate]).filter p = [] := by
    intro b
    cases b <;> simp [hsurrogate]
  have hback : (if opts.stamps then Column.stamps else []).filter p = [] := by
    split
    · exact hstamps
    · rfl
  rw [columnsOf, allColumns, List.filter_append, List.filter_append, hfront, hback,
    List.nil_append, List.append_nil, hdeclared]
  rfl

/-- Filling in defaults makes no column a reference, and unmakes none. -/
theorem isSome_reference_of_fills {c c' : Column} (h : c.Fills opts c') :
    c'.reference.isSome = c.reference.isSome := by
  have hrel := h.reference
  generalize c.reference = r, c'.reference = r' at hrel ⊢
  cases hrel <;> rfl

/-- **What a table states is what its tokens ask for.** -/
theorem mem_requested_iff {s : String} :
    s ∈ requested name opts (columnsOf opts (fieldsRead tokens)) (directives (fieldsRead tokens)) ↔
      (∃ n, AsksIndex tokens n ∧ indexSql name n = s) ∨
        opts.referenceIndex = true ∧ ∃ n ∈ referenceNames tokens, referenceIndexSql name n = s := by
  have hflags : ((columnsOf opts (fieldsRead tokens)).filter (·.constraints.index)).map (·.name) =
      ((columnsRead tokens).filter (·.constraints.index)).map (·.name) :=
    map_name_filter_columnsOf (fun hc => congrArg Constraints.index hc.constraints) rfl rfl tokens
  have hreferences : ((columnsOf opts (fieldsRead tokens)).filter (·.reference.isSome)).map
      (·.name) = referenceNames tokens :=
    map_name_filter_columnsOf isSome_reference_of_fills rfl rfl tokens
  have hnames : ∀ (f : String → String) (cs : List Column),
      s ∈ cs.map (fun c => f c.name) ↔ ∃ n ∈ cs.map (·.name), f n = s := by
    intro f cs
    rw [← List.mem_map, List.map_map]
    rfl
  unfold requested
  rw [List.mem_append, List.mem_append, hnames, hflags, List.mem_map]
  refine or_congr ?_ ?_
  · simp only [asksIndex_iff, or_and_right, exists_or]
  · split
    · next h => rw [hnames, hreferences, and_iff_right h]
    · next h => simp [h]

/-! ## Compiled tables -/

/-- **Tokens that all read are read as a list.** -/
theorem readFields_eq_ok (h : ∀ token ∈ tokens, ∃ field, Field.ofToken token = .ok field) :
    readFields tokens = .ok (fieldsRead tokens) := by
  cases hread : readFields tokens with
  | ok fields => rw [fieldsRead_eq hread]
  | error e =>
    obtain ⟨before, token, after, rfl, -, herror⟩ := readFields_eq_error_iff.mp hread
    obtain ⟨field, hfield⟩ := h token (by simp)
    exact nomatch hfield.symm.trans herror

/-- **A table is compiled exactly when every check passes**, and then its artifact is that of the
table which its fields describe. -/
theorem compile_eq_ok_iff : compile name tokens opts = .ok a ↔
    isIdentifier name.toList ∧ opts.version ≠ 0 ∧
      (∀ token ∈ tokens, ∃ field, Field.ofToken token = .ok field) ∧
      (keyNames tokens).length ≤ 1 ∧ (columnNames tokens opts).Nodup ∧
      (∀ n ∈ directives (fieldsRead tokens), n ∈ columnNames tokens opts) ∧
      a = (ofFields name opts (fieldsRead tokens)).artifact := by
  have hkeys : checkPrimaryKey (declaredColumns opts (fieldsRead tokens)) = .ok () ↔
      (keyNames tokens).length ≤ 1 := by
    rw [checkPrimaryKey_eq_ok_iff, List.countP_eq_length_filter, length_keys]
  have hnames : checkNames (columnsOf opts (fieldsRead tokens)) = .ok () ↔
      (columnNames tokens opts).Nodup := by
    rw [checkNames_eq_ok_iff, map_name_columnsOf]
  have hdirectives : checkDirectives name (columnsOf opts (fieldsRead tokens))
      (directives (fieldsRead tokens)) = .ok () ↔
      ∀ n ∈ directives (fieldsRead tokens), n ∈ columnNames tokens opts := by
    simp only [checkDirectives_eq_ok_iff, ← map_name_columnsOf, List.mem_map]
  rw [compile, map_eq_ok_iff, ← hkeys, ← hnames, ← hdirectives]
  constructor
  · rintro ⟨table, hbuild, rfl⟩
    obtain ⟨hid, hversion, fields, hfields, hkey, hname, hdirective, rfl⟩ :=
      build_eq_ok_iff.mp hbuild
    obtain rfl := fieldsRead_eq hfields
    refine ⟨hid, hversion, fun token htoken => ?_, hkey, hname, hdirective, rfl⟩
    obtain ⟨field, -, hfield⟩ := exists_of_mem_right (readFields_eq_ok_iff.mp hfields).flip htoken
    exact ⟨field, hfield⟩
  · rintro ⟨hid, hversion, hread, hkey, hname, hdirective, rfl⟩
    exact ⟨_, build_eq_ok_iff.mpr ⟨hid, hversion, _, readFields_eq_ok hread, hkey, hname,
      hdirective, rfl⟩, rfl⟩

/-- **A statement of a compiled table is one that was asked for**: a plain one by flag or directive,
one for references by the options. -/
theorem mem_extraSql_iff (h : compile name tokens opts = .ok a) {s : String} :
    s ∈ a.extraSql ↔ (∃ n, AsksIndex tokens n ∧ indexSql name n = s) ∨
      opts.referenceIndex = true ∧ ∃ n ∈ referenceNames tokens, referenceIndexSql name n = s := by
  obtain ⟨-, -, -, -, -, -, rfl⟩ := compile_eq_ok_iff.mp h
  change s ∈ insertAll [] _ ↔ _
  rw [mem_insertAll, ← mem_requested_iff]
  simp

/-- No statement of a compiled table comes twice. -/
theorem nodup_extraSql (h : compile name tokens opts = .ok a) : a.extraSql.Nodup := by
  obtain ⟨-, -, -, -, -, -, rfl⟩ := compile_eq_ok_iff.mp h
  exact nodup_insertAll List.nodup_nil _

/-! ## A flag or a directive

Two lists of tokens with the same columns up to the index flag have the same text of a table; that
they ask for the same indexes makes the statements the same up to their order. -/

/-- The column with the actions of the options where its reference names none. -/
def filled (opts : Options) (c : Column) : Column :=
  { c with reference := c.reference.map (·.withDefaults opts.onDelete opts.onUpdate) }

/-- The columns that a table declares are those read, with the options filled in. -/
theorem declaredColumns_eq (opts : Options) (tokens : List String) :
    declaredColumns opts (fieldsRead tokens) = (columnsRead tokens).map (filled opts) := by
  rw [columnsRead, List.map_filterMap]
  refine List.filterMap_congr fun field _ => ?_
  cases field <;> rfl

/-- Without their index flags the columns of a table are those of the unindexed ones. -/
theorem map_unindexed_columnsOf (opts : Options) (tokens : List String) :
    (columnsOf opts (fieldsRead tokens)).map Column.unindexed =
      allColumns opts (((columnsRead tokens).map Column.unindexed).map (filled opts)) := by
  have hstamps : (if opts.stamps then Column.stamps else []).map Column.unindexed =
      if opts.stamps then Column.stamps else [] := by
    split <;> rfl
  have hany : ((columnsRead tokens).map (filled opts)).any (·.constraints.primaryKey) =
      (((columnsRead tokens).map Column.unindexed).map (filled opts)).any
        (·.constraints.primaryKey) := by
    simp only [List.any_map]
    rfl
  rw [columnsOf, declaredColumns_eq, allColumns, allColumns, ← hany, List.map_append,
    List.map_append, hstamps]
  congr 2
  · split <;> rfl
  · rw [List.map_map, List.map_map]
    rfl

/-- Columns that differ by index flags alone. -/
def SameColumns (tokens tokens' : List String) : Prop :=
  (columnsRead tokens').map Column.unindexed = (columnsRead tokens).map Column.unindexed

/-- The same columns have the same names, also of those that any test but the index flag picks. -/
theorem SameColumns.map_name_filter (h : SameColumns tokens tokens') {p : Column → Bool}
    (hp : ∀ c : Column, p c.unindexed = p c) :
    ((columnsRead tokens').filter p).map (·.name) =
      ((columnsRead tokens).filter p).map (·.name) := by
  have hunindexed : ∀ cs : List Column,
      ((cs.map Column.unindexed).filter p).map (·.name) = (cs.filter p).map (·.name) := by
    intro cs
    rw [List.filter_map, List.map_map]
    exact congrArg _ (List.filter_congr fun c _ => hp c)
  rw [← hunindexed, h, hunindexed]

/-- The same columns give a table the same names of columns. -/
theorem SameColumns.columnNames_eq (h : SameColumns tokens tokens') (opts : Options) :
    columnNames tokens' opts = columnNames tokens opts := by
  have hkeys : keyNames tokens' = keyNames tokens := h.map_name_filter fun _ => rfl
  have hnames : (columnsRead tokens').map (·.name) = (columnsRead tokens).map (·.name) := by
    simpa using h.map_name_filter (p := fun _ => true) fun _ => rfl
  rw [columnNames, columnNames, hkeys, hnames]

/-- **The same columns make the same text of a table.** -/
theorem SameColumns.sql_eq (h : SameColumns tokens tokens') (name : String) (opts : Options) :
    (ofFields name opts (fieldsRead tokens')).sql =
      (ofFields name opts (fieldsRead tokens)).sql := by
  have hlines : ∀ cs : List Column, (cs.map fun c => "    " ++ c.sql) =
      (cs.map Column.unindexed).map fun c => "    " ++ c.sql := by
    intro cs
    simp only [List.map_map, Function.comp_def, Column.sql_unindexed]
  unfold sql
  rw [hlines, hlines (columnsOf opts (fieldsRead tokens)), map_unindexed_columnsOf,
    map_unindexed_columnsOf, h]

/-- **Who asks for an index makes no difference but to the order**: tokens with the same columns
that ask for the same indexes give the same table. -/
theorem exists_compile_of_sameColumns (h : compile name tokens opts = .ok a)
    (hread : ∀ token ∈ tokens', ∃ field, Field.ofToken token = .ok field)
    (hcolumns : SameColumns tokens tokens')
    (hasks : ∀ n, AsksIndex tokens' n ↔ AsksIndex tokens n) :
    ∃ a', compile name tokens' opts = .ok a' ∧ a'.table = a.table ∧ a'.version = a.version ∧
      a'.createSql = a.createSql ∧ a'.extraSql.Perm a.extraSql := by
  obtain ⟨hid, hversion, -, hkey, hnames, hdirectives, ha⟩ := compile_eq_ok_iff.mp h
  have hkeys : keyNames tokens' = keyNames tokens := hcolumns.map_name_filter fun _ => rfl
  have hreferences : referenceNames tokens' = referenceNames tokens :=
    hcolumns.map_name_filter fun _ => rfl
  have hdirectives' : ∀ n ∈ directives (fieldsRead tokens'), n ∈ columnNames tokens' opts := by
    intro n hn
    rw [hcolumns.columnNames_eq]
    rcases (hasks n).mp (asksIndex_iff.mpr (.inr hn)) with ⟨htoken, hc, -, hn⟩ | ⟨htoken, hn⟩
    · exact hasColumn_iff.mp (.declared htoken hc hn)
    · exact hdirectives n (mem_directives_iff.mpr ⟨_, htoken, hn⟩)
  have hcompile : compile name tokens' opts =
      .ok (ofFields name opts (fieldsRead tokens')).artifact :=
    compile_eq_ok_iff.mpr ⟨hid, hversion, hread, hkeys ▸ hkey,
      (hcolumns.columnNames_eq opts).symm ▸ hnames, hdirectives', rfl⟩
  refine ⟨_, hcompile, ?_, ?_, ?_, ?_⟩
  · rw [ha]
    rfl
  · rw [ha]
    rfl
  · rw [ha]
    exact hcolumns.sql_eq name opts
  · rw [List.perm_ext_iff_of_nodup (nodup_extraSql hcompile) (nodup_extraSql h)]
    intro s
    simp only [mem_extraSql_iff hcompile, mem_extraSql_iff h, hasks, hreferences]

/-- An index flag is taken from the token of a column, and a directive for that column is put in
anywhere. -/
inductive MovesFlag (tokens tokens' : List String) : Prop
  | intro {before after front rest : List String} {token token' directive : String} {c : Column}
    (htokens : tokens = before ++ token :: after)
    (hcolumn : Field.ofToken token = .ok (.column c)) (hindex : c.constraints.index = true)
    (hcolumn' : Field.ofToken token' = .ok (.column c.unindexed))
    (hdirective : Field.ofToken directive = .ok (.indexOn c.name))
    (hplace : before ++ token' :: after = front ++ rest)
    (htokens' : tokens' = front ++ directive :: rest)

/-- Columns are read from tokens in their order. -/
theorem columnsRead_append (front rest : List String) :
    columnsRead (front ++ rest) = columnsRead front ++ columnsRead rest := by
  simp only [columnsRead, fieldsRead, List.filterMap_append]

/-- A token that is a column puts it first. -/
theorem columnsRead_cons_column {token : String} {c : Column}
    (h : Field.ofToken token = .ok (.column c)) (rest : List String) :
    columnsRead (token :: rest) = c :: columnsRead rest := by
  rw [columnsRead, fieldsRead, List.filterMap_cons, h]
  rfl

theorem columnsRead_cons_directive {token n : String} (h : Field.ofToken token = .ok (.indexOn n))
    (rest : List String) : columnsRead (token :: rest) = columnsRead rest := by
  rw [columnsRead, fieldsRead, List.filterMap_cons, h]
  rfl

/-- A flag that moves leaves the columns as they were, up to the flag itself. -/
theorem MovesFlag.sameColumns (h : MovesFlag tokens tokens') : SameColumns tokens tokens' := by
  obtain ⟨rfl, hcolumn, -, hcolumn', hdirective, hplace, rfl⟩ := h
  have hcolumns := congrArg columnsRead hplace
  rw [columnsRead_append, columnsRead_cons_column hcolumn', columnsRead_append] at hcolumns
  unfold SameColumns
  rw [columnsRead_append, columnsRead_cons_directive hdirective, ← hcolumns, columnsRead_append,
    columnsRead_cons_column hcolumn, List.map_append, List.map_append, List.map_cons, List.map_cons]
  rfl

/-- What two lists of tokens ask for, one of them does. -/
theorem asksIndex_append {front rest : List String} {n : String} :
    AsksIndex (front ++ rest) n ↔ AsksIndex front n ∨ AsksIndex rest n := by
  constructor
  · rintro (⟨htoken, h, hindex, hn⟩ | ⟨htoken, h⟩) <;> rcases List.mem_append.mp htoken with ht | ht
    · exact .inl (.flag ht h hindex hn)
    · exact .inr (.flag ht h hindex hn)
    · exact .inl (.directive ht h)
    · exact .inr (.directive ht h)
  · rintro ((⟨ht, h, hindex, hn⟩ | ⟨ht, h⟩) | (⟨ht, h, hindex, hn⟩ | ⟨ht, h⟩))
    · exact .flag (List.mem_append_left _ ht) h hindex hn
    · exact .directive (List.mem_append_left _ ht) h
    · exact .flag (List.mem_append_right _ ht) h hindex hn
    · exact .directive (List.mem_append_right _ ht) h

/-- A column asks for its own index, by its flag. -/
theorem asksIndex_column {token n : String} {c : Column}
    (h : Field.ofToken token = .ok (.column c)) :
    AsksIndex [token] n ↔ c.constraints.index = true ∧ c.name = n := by
  constructor
  · rintro (⟨ht, h', hindex, hn⟩ | ⟨ht, h'⟩) <;> obtain rfl := List.mem_singleton.mp ht
    · obtain rfl := Field.column.inj (Except.ok.inj (h.symm.trans h'))
      exact ⟨hindex, hn⟩
    · exact nomatch Except.ok.inj (h.symm.trans h')
  · rintro ⟨hindex, hn⟩
    exact .flag (List.mem_singleton_self _) h hindex hn

/-- A directive asks for the index of the column it names. -/
theorem asksIndex_directive {token n m : String} (h : Field.ofToken token = .ok (.indexOn m)) :
    AsksIndex [token] n ↔ m = n := by
  constructor
  · rintro (⟨ht, h', -, -⟩ | ⟨ht, h'⟩) <;> obtain rfl := List.mem_singleton.mp ht
    · exact nomatch Except.ok.inj (h.symm.trans h')
    · exact Field.indexOn.inj (Except.ok.inj (h.symm.trans h'))
  · rintro rfl
    exact .directive (List.mem_singleton_self _) h

/-- **A flag that moves asks for the same indexes.** -/
theorem MovesFlag.asksIndex_iff (h : MovesFlag tokens tokens') (n : String) :
    AsksIndex tokens' n ↔ AsksIndex tokens n := by
  obtain @⟨before, after, front, rest, token, token', directive, c, rfl, hcolumn, hindex, hcolumn',
    hdirective, hplace, rfl⟩ := h
  have hasks : AsksIndex front n ∨ AsksIndex rest n ↔ AsksIndex before n ∨ AsksIndex after n := by
    rw [← asksIndex_append, ← hplace, List.append_cons, asksIndex_append, asksIndex_append,
      asksIndex_column hcolumn']
    simp [Column.unindexed]
  rw [List.append_cons, asksIndex_append, asksIndex_append, asksIndex_directive hdirective,
    or_right_comm, hasks, List.append_cons, asksIndex_append, asksIndex_append,
    asksIndex_column hcolumn, or_right_comm, and_iff_right hindex]

/-- Tokens that all read still do after a flag has moved. -/
theorem MovesFlag.exists_field (h : MovesFlag tokens tokens')
    (hread : ∀ token ∈ tokens, ∃ field, Field.ofToken token = .ok field) :
    ∀ token ∈ tokens', ∃ field, Field.ofToken token = .ok field := by
  obtain @⟨before, after, front, rest, token, token', directive, c, rfl, -, -, hcolumn',
    hdirective, hplace, rfl⟩ := h
  intro u hu
  have hmem : u = directive ∨ u ∈ before ++ token' :: after := by
    rw [hplace, List.mem_append]
    simpa [or_left_comm] using hu
  rcases hmem with rfl | hu
  · exact ⟨_, hdirective⟩
  · rcases List.mem_append.mp hu with hu | hu
    · exact hread u (List.mem_append_left _ hu)
    · rcases List.mem_cons.mp hu with rfl | hu
      · exact ⟨_, hcolumn'⟩
      · exact hread u (List.mem_append_right _ (List.mem_cons_of_mem _ hu))

/-! ## The statements of a table -/

/-- **What the statements of a compiled table are**, and what follows from it. -/
structure StatesIndexes (name : String) (tokens : List String) (opts : Options) (a : Artifact) :
    Prop where
  /-- All that flags, directives and references ask for, less later repeats. -/
  statements : ∃ table fields, build name tokens opts = .ok table ∧ a = table.artifact ∧
    List.Forall₂ (fun token field => Field.ofToken token = .ok field) tokens fields ∧
    a.extraSql = ((table.columns.filter (·.constraints.index)).map (indexSql name ·.name)
      ++ (fields.filterMap Field.directive?).map (indexSql name)
      ++ (if opts.referenceIndex then
            (table.columns.filter (·.reference.isSome)).map (referenceIndexSql name ·.name)
          else [])).eraseDups
  nodup : a.extraSql.Nodup
  /-- A column that is asked for gets one plain index. -/
  once : ∀ n, AsksIndex tokens n → a.extraSql.count (indexSql name n) = 1
  only : ∀ n, indexSql name n ∈ a.extraSql → AsksIndex tokens n
  /-- A flag is as good as a directive. -/
  moved : ∀ tokens', MovesFlag tokens tokens' → ∃ a', compile name tokens' opts = .ok a' ∧
    a'.table = a.table ∧ a'.version = a.version ∧ a'.createSql = a.createSql ∧
    a'.extraSql.Perm a.extraSql
  /-- No statement is both plain and that of a reference. -/
  apart : ∀ n m, indexSql name n ≠ referenceIndexSql name m

/-- **The statements of a compiled table are those that are asked for**, each once and in the order
in which they are first asked for. -/
theorem statesIndexes_of_compile (h : compile name tokens opts = .ok a) :
    StatesIndexes name tokens opts a where
  statements := by
    obtain ⟨table, hbuild, rfl⟩ := map_eq_ok_iff.mp h
    obtain ⟨-, -, fields, hfields, -, -, -, rfl⟩ := build_eq_ok_iff.mp hbuild
    refine ⟨_, fields, hbuild, rfl, readFields_eq_ok_iff.mp hfields, ?_⟩
    change insertAll [] (requested _ _ _ (directives fields)) = _
    rw [insertAll_eq, directives_eq]
    simp only [List.not_mem_nil, not_false_eq_true, decide_true, List.filter_true, List.nil_append]
    rfl
  nodup := nodup_extraSql h
  once n hn := by
    rw [(nodup_extraSql h).count, if_pos]
    exact (mem_extraSql_iff h).mpr (.inl ⟨n, hn, rfl⟩)
  only n hn := by
    rcases (mem_extraSql_iff h).mp hn with ⟨m, hm, he⟩ | ⟨-, m, -, he⟩
    · exact indexSql_injective name he ▸ hm
    · exact absurd he.symm (indexSql_ne_referenceIndexSql name n m)
  moved tokens' hmoves := by
    obtain ⟨-, -, hread, -⟩ := compile_eq_ok_iff.mp h
    exact exists_compile_of_sameColumns h (hmoves.exists_field hread) hmoves.sameColumns
      hmoves.asksIndex_iff
  apart := indexSql_ne_referenceIndexSql name

/-- A reference that a flag and two directives ask an index for. -/
def flaggedTokens : List String := ["author^->users", "^author", "title", "^author"]

/-- The same with a third directive in place of the flag. -/
def unflaggedTokens : List String := ["author->users", "^author", "title", "^author", "^author"]

/-- The author's flag moves behind the other tokens. -/
theorem movesFlag_flaggedTokens : MovesFlag flaggedTokens unflaggedTokens := by
  let c : Column :=
    { name := "author", storage := .integer, constraints := { index := true },
      reference := some { table := "users", column := "id" } }
  have hcolumn : Field.ofToken "author^->users" = .ok (.column c) := by decide +kernel
  have hcolumn' : Field.ofToken "author->users" = .ok (.column c.unindexed) := by decide +kernel
  have hdirective : Field.ofToken "^author" = .ok (.indexOn c.name) := by decide +kernel
  exact @MovesFlag.intro _ _ [] _ _ [] _ _ _ c rfl hcolumn rfl hcolumn' hdirective
    (List.append_nil _).symm rfl

theorem statesIndexes_posts :
    ∃ a a', compile "posts" flaggedTokens {} = .ok a ∧ StatesIndexes "posts" flaggedTokens {} a ∧
      compile "posts" unflaggedTokens {} = .ok a' ∧ a'.extraSql.Perm a.extraSql ∧
      a.extraSql = [indexSql "posts" "author", referenceIndexSql "posts" "author"] := by
  have hsql : (compile "posts" flaggedTokens {}).map (·.extraSql) =
      .ok [indexSql "posts" "author", referenceIndexSql "posts" "author"] := by decide +kernel
  obtain ⟨a, ha, hextra⟩ := map_eq_ok_iff.mp hsql
  have hstates := statesIndexes_of_compile ha
  obtain ⟨a', ha', -, -, -, hperm⟩ := hstates.moved _ movesFlag_flaggedTokens
  exact ⟨a, a', ha, hstates, ha', hperm, hextra⟩

end Table

end Tablature
