import Mathlib.Data.Nat.Find
import Tablature.Proofs.Table.Invariant

/-!
# Proofs/Table/Faults — which tables are refused, and with which error

`Fault` lists what can be wrong with a table, each fault by itself and numbered in the order in
which it is looked for.  `build` fails exactly if there is one, with the error of the first
(`error_iff_first_fault`).

The engine is `checks`: the same list as `build` goes through, but with each check made of the
tokens that can be read, so that it has an answer whatever the checks before it say.  One lemma for
each fault reads the answer of its check.
-/

namespace Tablature.Table

variable {name : String} {tokens : List String} {opts : Options} {e : Error}

/-! ## What tokens ask for

What can be read of the tokens, whether the rest can be read or not: the checks see nothing else
once all tokens have been read. -/

/-- The fields of the tokens that can be read. -/
def fieldsRead (tokens : List String) : List Field :=
  tokens.filterMap fun token => (Field.ofToken token).toOption

/-- The columns that tokens declare. -/
def columnsRead (tokens : List String) : List Column := (fieldsRead tokens).filterMap Field.column?

/-- The names of the columns that tokens declare as primary keys. -/
def keyNames (tokens : List String) : List String :=
  ((columnsRead tokens).filter (·.constraints.primaryKey)).map (·.name)

/-- The names of all columns in their order: a key if no token declares one, the columns of the
tokens, and the stamps if they are asked for. -/
def columnNames (tokens : List String) (opts : Options) : List String :=
  (if keyNames tokens = [] then ["id"] else []) ++ (columnsRead tokens).map (·.name)
    ++ (if opts.stamps then ["created_at", "updated_at", "deleted_at"] else [])

/-- A table has a column of a name: one that a token declares, wherever that token stands, the key
that is added where none is declared, or a stamp. -/
inductive HasColumn (tokens : List String) (opts : Options) (n : String) : Prop
  | declared {token : String} {c : Column} (htoken : token ∈ tokens)
    (h : Field.ofToken token = .ok (.column c)) (hn : c.name = n)
  | key (h : ∀ token ∈ tokens, ∀ c, Field.ofToken token = .ok (.column c) →
      c.constraints.primaryKey = false) (hn : n = "id")
  | stamp (h : opts.stamps = true) (hn : n = "created_at" ∨ n = "updated_at" ∨ n = "deleted_at")

/-- **What can be wrong with a table**, in the order in which it is looked for, and the error that
says so. -/
inductive Fault (name : String) (tokens : List String) (opts : Options) : Nat → Error → Prop
  /-- The table has no proper name. -/
  | name (h : ¬ isIdentifier name.toList) : Fault name tokens opts 0 (.argument (.tableName name))
  | version (h : opts.version = 0) : Fault name tokens opts 1 (.argument .versionZero)
  /-- A token cannot be read; the leftmost one counts. -/
  | token {before after : List String} {token : String} {e : Error}
    (htokens : tokens = before ++ token :: after)
    (hbefore : ∀ u ∈ before, ∃ field, Field.ofToken u = .ok field)
    (h : Field.ofToken token = .error e) : Fault name tokens opts 2 e
  /-- Several tokens declare a primary key. -/
  | primaryKeys (h : 1 < (keyNames tokens).length) :
    Fault name tokens opts 3 (.constraint (", ".intercalate (keyNames tokens)) .manyPrimaryKeys)
  /-- A column repeats the name of an earlier one; the earliest such column counts. -/
  | repeated {before after : List String} {n : String}
    (hnames : columnNames tokens opts = before ++ n :: after) (hbefore : before.Nodup)
    (h : n ∈ before) : Fault name tokens opts 4 (.constraint n .repeatedColumn)
  /-- An index directive names no column; the first one counts. -/
  | directive {before after : List String} {n : String}
    (hnames : directives (fieldsRead tokens) = before ++ n :: after)
    (hbefore : ∀ m ∈ before, HasColumn tokens opts m) (h : ¬ HasColumn tokens opts n) :
    Fault name tokens opts 5 (.constraint n (.unknownIndexColumn name))

/-- What is kept of a token is its field. -/
theorem toOption_eq_some_iff {token : String} {field : Field} :
    (Field.ofToken token).toOption = some field ↔ Field.ofToken token = .ok field := by
  cases Field.ofToken token <;> simp [Except.toOption]

/-- A column that is read is that of a token. -/
theorem mem_columnsRead {c : Column} :
    c ∈ columnsRead tokens ↔ ∃ token ∈ tokens, Field.ofToken token = .ok (.column c) := by
  constructor
  · intro h
    obtain ⟨field, hfield, hcolumn⟩ := List.mem_filterMap.mp h
    obtain ⟨token, htoken, hread⟩ := List.mem_filterMap.mp hfield
    refine ⟨token, htoken, ?_⟩
    cases field with
    | indexOn n => exact nomatch hcolumn
    | column c' =>
      obtain rfl := Option.some.inj hcolumn
      exact toOption_eq_some_iff.mp hread
  · rintro ⟨token, htoken, hread⟩
    exact List.mem_filterMap.mpr ⟨.column c,
      List.mem_filterMap.mpr ⟨token, htoken, toOption_eq_some_iff.mpr hread⟩, rfl⟩

/-- There is no key exactly if no column is one. -/
theorem keyNames_eq_nil_iff :
    keyNames tokens = [] ↔ ∀ c ∈ columnsRead tokens, c.constraints.primaryKey = false := by
  simp [keyNames]

/-- A table has the columns that its tokens declare and those that are added. -/
theorem hasColumn_iff {n : String} : HasColumn tokens opts n ↔ n ∈ columnNames tokens opts := by
  have hdeclared : n ∈ (columnsRead tokens).map (·.name) ↔
      ∃ token ∈ tokens, ∃ c, Field.ofToken token = .ok (.column c) ∧ c.name = n := by
    simp only [List.mem_map, mem_columnsRead]
    exact ⟨fun ⟨c, ⟨token, ht, h⟩, hn⟩ => ⟨token, ht, c, h, hn⟩,
      fun ⟨token, ht, c, h, hn⟩ => ⟨c, ⟨token, ht, h⟩, hn⟩⟩
  have hkey : keyNames tokens = [] ↔ ∀ token ∈ tokens, ∀ c,
      Field.ofToken token = .ok (.column c) → c.constraints.primaryKey = false := by
    simp only [keyNames_eq_nil_iff, mem_columnsRead]
    exact ⟨fun h token ht c hc => h c ⟨token, ht, hc⟩, fun h c ⟨token, ht, hc⟩ => h token ht c hc⟩
  rw [columnNames, List.mem_append, List.mem_append, hdeclared]
  constructor
  · rintro (⟨ht, h, hn⟩ | ⟨h, rfl⟩ | ⟨h, hn⟩)
    · exact .inl (.inr ⟨_, ht, _, h, hn⟩)
    · exact .inl (.inl (by simp [hkey.mpr h]))
    · exact .inr (by simpa [h] using hn)
  · rintro ((h | ⟨token, ht, c, h, hn⟩) | h)
    · split at h
      · next hnone => exact .key (hkey.mp hnone) (List.mem_singleton.mp h)
      · simp at h
    · exact .declared ht h hn
    · split at h
      · next hstamps => exact .stamp hstamps (by simpa using h)
      · simp at h

/-! ## Reading tokens -/

/-- Where all tokens can be read, these are their fields. -/
theorem fieldsRead_eq {fields : List Field} (h : readFields tokens = .ok fields) :
    fieldsRead tokens = fields := by
  have hread := readFields_eq_ok_iff.mp h
  clear h
  induction hread with
  | nil => rfl
  | @cons token field tokens fields hfield _ ih =>
    rw [fieldsRead, List.filterMap_cons, toOption_eq_some_iff.mpr hfield]
    exact congrArg (field :: ·) ih

/-- **Tokens cannot be read** because of the leftmost of them that cannot. -/
theorem readFields_eq_error_iff :
    readFields tokens = .error e ↔ ∃ before token after, tokens = before ++ token :: after ∧
      (∀ u ∈ before, ∃ field, Field.ofToken u = .ok field) ∧ Field.ofToken token = .error e := by
  induction tokens with
  | nil => simp [readFields]
  | cons token tokens ih =>
    rw [readFields, bind_eq_error_iff]
    constructor
    · rintro (h | ⟨field, hfield, h⟩)
      · exact ⟨[], token, tokens, rfl, by simp, h⟩
      · rcases bind_eq_error_iff.mp h with h | ⟨_, -, h⟩
        · obtain ⟨before, bad, after, rfl, hbefore, hbad⟩ := ih.mp h
          exact ⟨token :: before, bad, after, rfl,
            List.forall_mem_cons.mpr ⟨⟨field, hfield⟩, hbefore⟩, hbad⟩
        · cases h
    · rintro ⟨before, bad, after, htokens, hbefore, hbad⟩
      cases before with
      | nil =>
        obtain ⟨rfl, rfl⟩ := List.cons.inj htokens
        exact .inl hbad
      | cons first before =>
        obtain ⟨rfl, rfl⟩ := List.cons.inj htokens
        obtain ⟨⟨field, hfield⟩, hbefore⟩ := List.forall_mem_cons.mp hbefore
        refine .inr ⟨field, hfield, bind_eq_error_iff.mpr (.inl ?_)⟩
        exact ih.mpr ⟨before, bad, after, rfl, hbefore, hbad⟩

/-! ## The checks of columns -/

/-- Filling in defaults leaves the names of columns. -/
theorem map_name_of_fills {cs cs' : List Column} (h : List.Forall₂ (Column.Fills opts) cs cs') :
    cs'.map (·.name) = cs.map (·.name) := by
  induction h with
  | nil => rfl
  | cons hc _ ih => rw [List.map_cons, List.map_cons, ih, hc.name]

/-- What a selection takes of filled columns, it takes of the columns, if it does not see the
difference. -/
theorem filter_of_fills {p : Column → Bool} (hp : ∀ {c c'}, Column.Fills opts c c' → p c' = p c)
    {cs cs' : List Column} (h : List.Forall₂ (Column.Fills opts) cs cs') :
    List.Forall₂ (Column.Fills opts) (cs.filter p) (cs'.filter p) := by
  induction h with
  | nil => exact .nil
  | cons hc _ ih =>
    rw [List.filter_cons, List.filter_cons, hp hc]
    split
    · exact .cons hc ih
    · exact ih

/-- The names of a table's columns, read off the tokens. -/
theorem map_name_columnsOf (tokens : List String) (opts : Options) :
    (columnsOf opts (fieldsRead tokens)).map (·.name) = columnNames tokens opts := by
  have hfills := fills_declaredColumns opts (fieldsRead tokens)
  have hkey : keyNames tokens = [] ↔
      (declaredColumns opts (fieldsRead tokens)).any (·.constraints.primaryKey) = false := by
    rw [any_primaryKey_of_fills hfills, keyNames_eq_nil_iff, columnsRead, List.any_eq_false]
    simp only [Bool.not_eq_true]
  have hstamps : (if opts.stamps then Column.stamps else []).map (·.name) =
      if opts.stamps then ["created_at", "updated_at", "deleted_at"] else [] := by
    split <;> rfl
  unfold columnNames
  rw [columnsOf, allColumns, List.map_append, List.map_append, map_name_of_fills hfills,
    hstamps]
  congr 2
  by_cases hnone : keyNames tokens = []
  · rw [if_pos hnone, hkey.mp hnone]
    rfl
  · rw [if_neg hnone, (Bool.not_eq_false _).mp (mt hkey.mpr hnone)]
    rfl

/-- The keys that are declared, by their names. -/
theorem map_name_keys (tokens : List String) (opts : Options) :
    ((declaredColumns opts (fieldsRead tokens)).filter (·.constraints.primaryKey)).map (·.name) =
      keyNames tokens :=
  map_name_of_fills (filter_of_fills (fun hc => congrArg Constraints.primaryKey hc.constraints)
    (fills_declaredColumns opts (fieldsRead tokens)))

/-- There are as many keys as columns that are declared one. -/
theorem length_keys (tokens : List String) (opts : Options) :
    ((declaredColumns opts (fieldsRead tokens)).filter (·.constraints.primaryKey)).length =
      (keyNames tokens).length := by
  rw [← map_name_keys tokens opts, List.length_map]

/-- **The check of the primary key fails with the fault of a second key.** -/
theorem checkPrimaryKey_eq_error_iff :
    checkPrimaryKey (declaredColumns opts (fieldsRead tokens)) = .error e ↔
      Fault name tokens opts 3 e := by
  dsimp only [checkPrimaryKey]
  rw [map_name_keys, length_keys]
  constructor
  · intro h
    split at h
    · exact nomatch h
    · next hmany =>
      obtain rfl := Except.error.inj h
      exact .primaryKeys (Nat.lt_of_not_le hmany)
  · rintro (_ | _ | _ | h)
    exact if_neg (Nat.not_le.mpr h)

/-- **The first name that repeats an earlier one**, after names that differ. -/
theorem firstRepeat?_eq_some_iff {seen names : List String} {n : String} :
    firstRepeat? seen names = some n ↔ ∃ before after, names = before ++ n :: after ∧
      before.Nodup ∧ (∀ m ∈ before, m ∉ seen) ∧ (n ∈ before ∨ n ∈ seen) := by
  induction names generalizing seen with
  | nil => simp [firstRepeat?]
  | cons first names ih =>
    rw [firstRepeat?]
    by_cases hseen : first ∈ seen
    · rw [if_pos hseen, Option.some.injEq]
      constructor
      · rintro rfl
        exact ⟨[], names, rfl, List.nodup_nil, by simp, .inr hseen⟩
      · rintro ⟨before, after, hnames, -, hnew, -⟩
        cases before with
        | nil => exact (List.cons.inj hnames).1
        | cons m before =>
          obtain ⟨rfl, -⟩ := List.cons.inj hnames
          exact absurd hseen (hnew _ List.mem_cons_self)
    · rw [if_neg hseen, ih]
      constructor
      · rintro ⟨before, after, rfl, hnodup, hnew, hn⟩
        have hfirst : first ∉ before := fun hm => hnew first hm List.mem_cons_self
        refine ⟨first :: before, after, rfl, List.nodup_cons.mpr ⟨hfirst, hnodup⟩, ?_, ?_⟩
        · exact List.forall_mem_cons.mpr
            ⟨hseen, fun m hm hms => hnew m hm (List.mem_cons_of_mem _ hms)⟩
        · simpa [or_assoc, or_left_comm] using hn
      · rintro ⟨before, after, hnames, hnodup, hnew, hn⟩
        cases before with
        | nil =>
          obtain ⟨rfl, -⟩ := List.cons.inj hnames
          exact absurd (hn.resolve_left (by simp)) hseen
        | cons m before =>
          obtain ⟨rfl, rfl⟩ := List.cons.inj hnames
          obtain ⟨hfirst, hnodup⟩ := List.nodup_cons.mp hnodup
          refine ⟨before, after, rfl, hnodup, fun m hm hms => ?_, ?_⟩
          · rcases List.mem_cons.mp hms with rfl | hms
            · exact hfirst hm
            · exact hnew m (List.mem_cons_of_mem _ hm) hms
          · simpa [or_assoc, or_left_comm] using hn

/-- **The check of names fails with the fault of a name that comes twice.** -/
theorem checkNames_eq_error_iff :
    checkNames (columnsOf opts (fieldsRead tokens)) = .error e ↔ Fault name tokens opts 4 e := by
  have hrepeat : ∀ n, firstRepeat? [] (columnNames tokens opts) = some n ↔
      ∃ before after, columnNames tokens opts = before ++ n :: after ∧ before.Nodup ∧
        n ∈ before := by
    simp [firstRepeat?_eq_some_iff]
  unfold checkNames
  rw [map_name_columnsOf]
  constructor
  · intro h
    split at h
    · next n hn =>
      obtain rfl := Except.error.inj h
      obtain ⟨before, after, hnames, hnodup, hmem⟩ := (hrepeat n).mp hn
      exact .repeated hnames hnodup hmem
    · exact nomatch h
  · rintro (_ | _ | _ | _ | ⟨hnames, hnodup, hmem⟩)
    rw [(hrepeat _).mpr ⟨_, _, hnames, hnodup, hmem⟩]

/-- **The check of directives fails with the fault of a column that is not there.** -/
theorem checkDirectives_eq_error_iff :
    checkDirectives name (columnsOf opts (fieldsRead tokens)) (directives (fieldsRead tokens)) =
      .error e ↔ Fault name tokens opts 5 e := by
  have hnone : ∀ n, ((columnsOf opts (fieldsRead tokens)).all (·.name != n)) = true ↔
      ¬ HasColumn tokens opts n := by
    intro n
    rw [hasColumn_iff, ← map_name_columnsOf]
    simp
  have hfind : ∀ n, ((directives (fieldsRead tokens)).find? fun n =>
      (columnsOf opts (fieldsRead tokens)).all (·.name != n)) = some n ↔
      ∃ before after, directives (fieldsRead tokens) = before ++ n :: after ∧
        (∀ m ∈ before, HasColumn tokens opts m) ∧ ¬ HasColumn tokens opts n := by
    intro n
    rw [List.find?_eq_some_iff_append, hnone]
    have hbefore : ∀ m, ((!(columnsOf opts (fieldsRead tokens)).all (·.name != m)) = true) ↔
        HasColumn tokens opts m := by
      intro m
      rw [Bool.not_eq_true', ← Bool.not_eq_true, hnone, not_not]
    constructor
    · rintro ⟨hn, before, after, hnames, h⟩
      exact ⟨before, after, hnames, fun m hm => (hbefore m).mp (h m hm), hn⟩
    · rintro ⟨before, after, hnames, h, hn⟩
      exact ⟨hn, before, after, hnames, fun m hm => (hbefore m).mpr (h m hm)⟩
  unfold checkDirectives
  constructor
  · intro h
    split at h
    · next n hn =>
      obtain rfl := Except.error.inj h
      obtain ⟨before, after, hnames, hbefore, hn⟩ := (hfind n).mp hn
      exact .directive hnames hbefore hn
    · exact nomatch h
  · rintro (_ | _ | _ | _ | _ | ⟨hnames, hbefore, hn⟩)
    rw [(hfind _).mpr ⟨_, _, hnames, hbefore, hn⟩]

/-! ## Building

The checks are run in a fixed order up to the first that fails, so that the first fault is the
error. -/

/-- The checks of a table in their order, each made of what can be read of its tokens. -/
def checks (name : String) (tokens : List String) (opts : Options) : List (Except Error Unit) :=
  [if isIdentifier name.toList then .ok () else .error (.argument (.tableName name)),
    if opts.version = 0 then .error (.argument .versionZero) else .ok (),
    (readFields tokens).map fun _ => (),
    checkPrimaryKey (declaredColumns opts (fieldsRead tokens)),
    checkNames (columnsOf opts (fieldsRead tokens)),
    checkDirectives name (columnsOf opts (fieldsRead tokens)) (directives (fieldsRead tokens))]

/-- **A fault is what the check at its place says.** -/
theorem fault_iff_getElem? {k : Nat} :
    Fault name tokens opts k e ↔ (checks name tokens opts)[k]? = some (.error e) := by
  match k with
  | 0 =>
    change _ ↔ some (if isIdentifier name.toList then Except.ok () else _) = some (.error e)
    rw [Option.some.injEq]
    constructor
    · rintro ⟨h⟩
      exact if_neg h
    · intro h
      split at h
      · exact nomatch h
      · next hid => exact Except.error.inj h ▸ .name hid
  | 1 =>
    change _ ↔ some (if opts.version = 0 then _ else Except.ok ()) = some (.error e)
    rw [Option.some.injEq]
    constructor
    · rintro (_ | h)
      exact if_pos h
    · intro h
      split at h
      · next hzero => exact Except.error.inj h ▸ .version hzero
      · exact nomatch h
  | 2 =>
    have hmap : (readFields tokens).map (fun _ => ()) = .error e ↔
        readFields tokens = .error e := by
      cases readFields tokens <;> simp [Except.map]
    change _ ↔ some ((readFields tokens).map fun _ => ()) = some (.error e)
    rw [Option.some.injEq, hmap, readFields_eq_error_iff]
    constructor
    · rintro (_ | _ | ⟨htokens, hbefore, h⟩)
      exact ⟨_, _, _, htokens, hbefore, h⟩
    · rintro ⟨before, token, after, htokens, hbefore, h⟩
      exact .token htokens hbefore h
  | 3 => exact checkPrimaryKey_eq_error_iff.symm.trans (Option.some.injEq _ _).to_iff.symm
  | 4 => exact checkNames_eq_error_iff.symm.trans (Option.some.injEq _ _).to_iff.symm
  | 5 => exact checkDirectives_eq_error_iff.symm.trans (Option.some.injEq _ _).to_iff.symm
  | k + 6 => exact ⟨nofun, nofun⟩

/-- **Checks fail with the first of them that does.** -/
theorem forM_eq_error_iff {checks : List (Except Error Unit)} :
    checks.forM id = .error e ↔ ∃ k : Nat, checks[k]? = some (.error e) ∧
      ∀ j < k, ∀ e', checks[j]? ≠ some (.error e') := by
  induction checks with
  | nil => simp [List.forM, pure, Except.pure]
  | cons check checks ih =>
    have hcons : (check :: checks).forM id = check >>= fun _ => checks.forM id := rfl
    rw [hcons, bind_eq_error_iff]
    constructor
    · rintro (rfl | ⟨_, rfl, h⟩)
      · exact ⟨0, rfl, by simp⟩
      · obtain ⟨k, hk, hbefore⟩ := ih.mp h
        refine ⟨k + 1, hk, fun j hj e' => ?_⟩
        cases j with
        | zero => simp
        | succ j => exact hbefore j (Nat.lt_of_succ_lt_succ hj) e'
    · rintro ⟨k, hk, hbefore⟩
      cases k with
      | zero => exact .inl (Option.some.inj hk)
      | succ k =>
        cases check with
        | error e' => exact absurd rfl (hbefore 0 k.succ_pos e')
        | ok u =>
          refine .inr ⟨u, rfl, ih.mpr ⟨k, hk, fun j hj => ?_⟩⟩
          exact hbefore (j + 1) (Nat.succ_lt_succ hj)

/-- `build` makes these checks, and no others. -/
theorem build_eq_forM (name : String) (tokens : List String) (opts : Options) :
    build name tokens opts = (checks name tokens opts).forM id >>= fun _ =>
      .ok (ofFields name opts (fieldsRead tokens)) := by
  simp only [build, checks, List.forM_eq_forM, List.forM_cons, List.forM_nil, id_eq, bind_assoc,
    pure_bind]
  by_cases hid : isIdentifier name.toList
  · by_cases hversion : opts.version = 0
    · simp only [hid, hversion]
      rfl
    · cases hread : readFields tokens with
      | error fault =>
        simp only [hid, hversion]
        rfl
      | ok fields =>
        obtain rfl := fieldsRead_eq hread
        simp only [hid, hversion]
        rfl
  · simp only [hid]
    rfl

/-- **Which tables are refused, and with which error**: those that have a fault, with the error of
the first one. -/
theorem error_iff_first_fault (name : String) (tokens : List String) (opts : Options) :
    (∀ e, build name tokens opts = .error e ↔ ∃ k, Fault name tokens opts k e ∧
      ∀ j < k, ∀ e', ¬ Fault name tokens opts j e') ∧
      ((∃ e, build name tokens opts = .error e) ↔ ∃ k e, Fault name tokens opts k e) := by
  have hfirst : ∀ e, build name tokens opts = .error e ↔ ∃ k, Fault name tokens opts k e ∧
      ∀ j < k, ∀ e', ¬ Fault name tokens opts j e' := by
    intro e
    simp only [fault_iff_getElem?]
    rw [build_eq_forM, bind_eq_error_iff, ← forM_eq_error_iff]
    exact or_iff_left nofun
  refine ⟨hfirst, fun ⟨e, he⟩ => ?_, fun h => ?_⟩
  · obtain ⟨k, hk, -⟩ := (hfirst e).mp he
    exact ⟨k, e, hk⟩
  · classical
    obtain ⟨e, he⟩ := Nat.find_spec h
    exact ⟨e, (hfirst e).mpr ⟨_, he, fun j hj e' hj' => Nat.find_min h hj ⟨e', hj'⟩⟩⟩

end Tablature.Table
