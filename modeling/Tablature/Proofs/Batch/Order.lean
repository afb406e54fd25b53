import Mathlib.Data.List.Perm.Basic
import Tablature.Proofs.Batch.Run
import Tablature.Proofs.Store.Reorder

/-!
# Proofs/Batch/Order — the order of the entries does not matter

Which stubs an entry writes, which it leaves to later entries and which it finds there all depend on
the order of the entries.  The tables do not: an entry is read and built by itself, wherever it
stands (`exists_builds_of_perm`).  Of the writes it is enough to know that

* a declared table is never given a stub before its own entry has come (`pairwise_plan`), so that
  its entry finds what was there at the start;
* a table that nobody declares has a stub in the plan exactly when some entry refers to it
  (`stub_mem_plan_iff`).

By the first the writes succeed in any order, and by the second they leave the same
(`exists_steps_of_perm`).  `run_of_perm` is about whole runs; the exception is a forced run whose
last file has replaced the link that the store's directory is reached by, which can only come last.
-/

namespace Tablature

/-- **Of artifacts of different names, the last of a name is the one of that name.** -/
theorem lastNamed_eq_some_iff {artifacts : List Artifact} {name : String} {a : Artifact}
    (h : (artifacts.map (·.table)).Nodup) :
    lastNamed name artifacts = some a ↔ a ∈ artifacts ∧ a.table = name := by
  induction artifacts with
  | nil => simp [lastNamed]
  | cons b artifacts ih =>
    rw [List.map_cons, List.nodup_cons] at h
    rw [lastNamed_cons, Option.or_eq_some_iff, ih h.2, lastNamed_eq_none_iff]
    by_cases hb : b.table = name
    · subst hb
      have hother : ∀ c ∈ artifacts, c.table ≠ b.table := fun c hc he =>
        h.1 (List.mem_map.mpr ⟨c, hc, he⟩)
      constructor
      · rintro (⟨ha, he⟩ | ⟨-, ha⟩)
        · exact absurd he (hother a ha)
        · obtain rfl : b = a := by simpa using ha
          exact ⟨List.mem_cons_self, rfl⟩
      · rintro ⟨ha, he⟩
        rcases List.mem_cons.mp ha with rfl | ha
        · exact .inr ⟨hother, by simp⟩
        · exact absurd he (hother a ha)
    · have hne : a.table = name → a ≠ b := fun he hab => hb (hab ▸ he)
      simp only [hb, if_false, reduceCtorEq, and_false, or_false, List.mem_cons]
      constructor
      · rintro ⟨ha, he⟩
        exact ⟨.inr ha, he⟩
      · rintro ⟨ha, he⟩
        exact ⟨ha.resolve_left (hne he), he⟩

/-- Where names do not repeat, the order of artifacts does not matter for the last of a name. -/
theorem lastNamed_of_perm {artifacts artifacts' : List Artifact} (hperm : artifacts'.Perm artifacts)
    (h : (artifacts.map (·.table)).Nodup) (name : String) :
    lastNamed name artifacts' = lastNamed name artifacts := by
  have h' : (artifacts'.map (·.table)).Nodup := (hperm.map _).nodup_iff.mpr h
  ext a
  rw [lastNamed_eq_some_iff h', lastNamed_eq_some_iff h, hperm.mem_iff]

namespace Batch

open Json (Value)

/-- An entry is read alike at every position. -/
theorem entryOf_eq_ok {i : Nat} {v : Value} {e : Entry} (h : entryOf i v = .ok e) (j : Nat) :
    entryOf j v = .ok e := by
  unfold entryOf at h ⊢
  obtain ⟨frame, hframe, h⟩ := bind_eq_ok_iff.mp h
  obtain ⟨tokens, htokens, h⟩ := bind_eq_ok_iff.mp h
  rw [mapError_eq_ok_iff] at hframe
  rw [fieldTokens_eq_ok_iff] at htokens
  exact bind_eq_ok_iff.mpr ⟨frame, mapError_eq_ok_iff.mpr hframe,
    bind_eq_ok_iff.mpr ⟨tokens, fieldTokens_eq_ok_iff.mpr htokens, h⟩⟩

namespace Document

variable {d : Document} {store : Store} {base : Options} {force : Force} {t t' t₁ : FileTree}
  {gs : List Generated} {loc : Location} {tables tables' : List Table} {table : Table}
  {declared declared' done : List String} {values : List Value} {n : String}

/-! ## Tables of reordered entries

An entry is read and built from its own value, so that the tables of reordered entries are the
tables in that order. -/

/-- The document with its entries replaced. -/
def withTables (d : Document) (values : List Value) : Document := { d with tables := values }

/-- The table of an entry, wherever it stands. -/
def tableOf (d : Document) (base : Options) (v : Value) : Except Error Table :=
  entryOf 0 v >>= fun e => Table.build e.name e.tokens (d.entryOptions base e)

theorem tableAt_eq_ok_iff {i : Nat} :
    d.tableAt base i = .ok table ↔ ∃ v, d.tables[i]? = some v ∧ d.tableOf base v = .ok table := by
  unfold tableAt tableOf entry
  cases hv : d.tables[i]? with
  | none => simp [bind_eq_ok_iff]
  | some v =>
    simp only [bind_eq_ok_iff, Option.some.injEq, exists_eq_left']
    exact ⟨fun ⟨e, he, hb⟩ => ⟨e, entryOf_eq_ok he 0, hb⟩,
      fun ⟨e, he, hb⟩ => ⟨e, entryOf_eq_ok he i, hb⟩⟩

theorem forall₂_iff_builds :
    List.Forall₂ (fun v table => d.tableOf base v = .ok table) d.tables tables ↔
      d.Builds base tables ∧ tables.length = d.tables.length := by
  rw [List.forall₂_iff_get]
  constructor
  · rintro ⟨hlength, h⟩
    refine ⟨fun i table hi => ?_, hlength.symm⟩
    obtain ⟨hlt, rfl⟩ := List.getElem?_eq_some_iff.mp hi
    exact tableAt_eq_ok_iff.mpr
      ⟨_, List.getElem?_eq_getElem (hlength ▸ hlt), h i (hlength ▸ hlt) hlt⟩
  · rintro ⟨hb, hlength⟩
    refine ⟨hlength.symm, fun i hv hlt => ?_⟩
    obtain ⟨v, hget, htable⟩ := tableAt_eq_ok_iff.mp (hb i _ (List.getElem?_eq_getElem hlt))
    obtain rfl := Option.some.inj ((List.getElem?_eq_getElem hv).symm.trans hget)
    exact htable

/-- **Entries in another order build the same tables in that order.** -/
theorem exists_builds_of_perm (hb : d.Builds base tables)
    (hlength : tables.length = d.tables.length) (hperm : values.Perm d.tables) :
    ∃ tables', (d.withTables values).Builds base tables' ∧ tables'.length = values.length ∧
      tables'.Perm tables := by
  obtain ⟨tables', hall, hperm'⟩ :=
    List.perm_comp_forall₂ hperm (forall₂_iff_builds.mpr ⟨hb, hlength⟩)
  have hall' : List.Forall₂ (fun v table => (d.withTables values).tableOf base v = .ok table)
      (d.withTables values).tables tables' := hall
  obtain ⟨hb', hlength'⟩ := forall₂_iff_builds.mp hall'
  exact ⟨tables', hb', hlength', hperm'⟩

/-- The last table is that of the last entry. -/
theorem Builds.exists_getLast? (hb : d.Builds base (tables ++ [table]))
    (hlength : (tables ++ [table]).length = d.tables.length) :
    ∃ v, d.tables.getLast? = some v ∧ d.tableOf base v = .ok table := by
  rw [List.getLast?_eq_getElem?, ← hlength]
  exact tableAt_eq_ok_iff.mp (hb _ _ (by simp))

/-! ## Plans of reordered tables

Two plans of the same tables, in different orders, have the same tables in them and the same stubs
of tables that nobody declares. -/

/-- **No task of a plan is about a table that the plan writes later.** -/
theorem pairwise_plan (hnodup : (done ++ tables.map (·.name)).Nodup)
    (hsub : tables.map (·.name) ⊆ declared) :
    (plan declared done tables).Pairwise Task.MayPrecede := by
  induction tables generalizing done with
  | nil => exact .nil
  | cons table tables ih =>
    rw [List.map_cons, List.append_cons] at hnodup
    rw [List.map_cons, List.cons_subset] at hsub
    refine List.pairwise_append.mpr ⟨?_, ih hnodup hsub.2, ?_⟩
    · -- after the table itself there are only stubs
      refine List.pairwise_cons.mpr ⟨fun y hy a he => ?_, List.pairwise_map.mpr ?_⟩
      · obtain ⟨u, -, rfl⟩ := List.mem_map.mp hy
        exact nomatch he
      · exact List.pairwise_of_forall fun _ _ _ he => nomatch he
    · rintro x hx y hy a rfl
      obtain ⟨later, hlater, he | ⟨u, -, he⟩⟩ := exists_of_mem_plan hy
      · obtain rfl := Task.table.inj he
        have hnew : later.name ∉ done ++ [table.name] := fun hin =>
          (List.nodup_append.mp hnodup).2.2 _ hin _ (List.mem_map_of_mem hlater) rfl
        rw [List.mem_append, List.mem_singleton, not_or] at hnew
        rcases List.mem_cons.mp hx with rfl | hx
        · exact Ne.symm hnew.2
        · obtain ⟨u, hu, rfl⟩ := List.mem_map.mp hx
          rintro rfl
          refine absurd (mem_elsewhere.mpr ?_) (of_decide_eq_true (List.mem_filter.mp hu).2)
          exact ⟨hsub.2 (List.mem_map_of_mem hlater), hnew.2, hnew.1⟩
      · exact nomatch he

/-- A table is stubbed with another exactly if that one refers to it and it is not written
elsewhere. -/
theorem stub_mem_tasks {elsewhere : List String} :
    .stub n ∈ table.tasks elsewhere ↔ n ∈ table.referenced ∧ n ∉ elsewhere := by
  simp [Table.tasks]

/-- **Which tables that are not written have a stub in the plan**: those that nobody declares and
some table refers to. -/
theorem stub_mem_plan_iff (hn : n ∉ tables.map (·.name)) (hdone : n ∉ done) :
    .stub n ∈ plan declared done tables ↔
      n ∉ declared ∧ ∃ table ∈ tables, n ∈ table.referenced := by
  induction tables generalizing done with
  | nil => simp [plan]
  | cons table tables ih =>
    rw [List.map_cons, List.mem_cons, not_or] at hn
    have hdone' : n ∉ done ++ [table.name] := by simp [hdone, hn.1]
    have helsewhere : n ∉ elsewhere declared done table.name ↔ n ∉ declared := by
      simp [mem_elsewhere, hn.1, hdone]
    rw [plan, List.mem_append, stub_mem_tasks, helsewhere, ih hn.2 hdone']
    simp only [List.mem_cons, exists_eq_or_imp]
    tauto

theorem nodup_artifacts (h : (tables.map (·.name)).Nodup) :
    ((tables.map (·.artifact)).map (·.table)).Nodup := by
  rwa [List.map_map]

/-- **Plans of reordered tables leave the same at every table.** -/
theorem settled_plan_of_perm (hdeclared : ∀ n, n ∈ declared' ↔ n ∈ declared)
    (hperm : tables'.Perm tables) (hnodup : (tables.map (·.name)).Nodup) (name : String)
    (before : Option Node) :
    settled name (plan declared' [] tables') before =
      settled name (plan declared [] tables) before := by
  unfold settled
  rw [tables_plan, tables_plan, lastNamed_of_perm (hperm.map _) (nodup_artifacts hnodup)]
  cases hlast : lastNamed name (tables.map (·.artifact)) with
  | some a => rfl
  | none =>
    have hn : name ∉ tables.map (·.name) := by
      intro hn
      obtain ⟨table, hm, rfl⟩ := List.mem_map.mp hn
      exact lastNamed_eq_none_iff.mp hlast _ (List.mem_map_of_mem hm) rfl
    have hn' : name ∉ tables'.map (·.name) := fun hm => hn ((hperm.map _).mem_iff.mp hm)
    have hstub : Task.stub name ∈ plan declared' [] tables' ↔
        Task.stub name ∈ plan declared [] tables := by
      rw [stub_mem_plan_iff hn' List.not_mem_nil, stub_mem_plan_iff hn List.not_mem_nil, hdeclared]
      simp only [hperm.mem_iff]
    simp only [hstub]

/-- **The tasks of reordered tables are about the same tables.** -/
theorem exists_task_of_perm (hdeclared : ∀ n, n ∈ declared' ↔ n ∈ declared)
    (hperm : tables'.Perm tables) {task : Task} (h : task ∈ plan declared' [] tables') :
    ∃ task' ∈ plan declared [] tables, task'.name = task.name := by
  by_cases hn : task.name ∈ tables.map (·.name)
  · exact exists_task_of_mem_map hn
  · have hn' : task.name ∉ tables'.map (·.name) := fun hm => hn ((hperm.map _).mem_iff.mp hm)
    obtain ⟨table, hm, u, hu, rfl⟩ := stub_of_mem_plan h fun table hm he =>
      hn' (List.mem_map.mpr ⟨table, hm, he⟩)
    have hundeclared := ((stub_mem_plan_iff hn' List.not_mem_nil).mp h).1
    rw [Task.name_stub, hdeclared] at hundeclared
    exact ⟨_, stub_mem_plan (hperm.mem_iff.mp hm) hu hundeclared, rfl⟩

/-- **The plan of reordered tables succeeds too and leaves the same**, where the store's directory
is still there at the end. -/
theorem exists_steps_of_perm (hdeclared : ∀ n, n ∈ declared' ↔ n ∈ declared)
    (hperm : tables'.Perm tables) (hnodup : (tables.map (·.name)).Nodup)
    (hsub : tables.map (·.name) ⊆ declared)
    (h : store.Steps force loc (plan declared [] tables) t t') (hl : store.LiesAt t' loc) :
    ∃ u, store.Steps force loc (plan declared' [] tables') t u ∧ FileTree.SameAs t' u := by
  have hnodup' : (tables'.map (·.name)).Nodup := (hperm.map _).nodup_iff.mpr hnodup
  have hsub' : tables'.map (·.name) ⊆ declared' := fun n hm =>
    (hdeclared n).mpr (hsub ((hperm.map _).mem_iff.mp hm))
  have htables :
      Task.tables (plan declared' [] tables') ⊆ Task.tables (plan declared [] tables) := by
    rw [tables_plan, tables_plan]
    exact (hperm.map _).subset
  obtain ⟨u, hu⟩ := h.exists_reordered hl (pairwise_plan hnodup hsub) (pairwise_plan hnodup' hsub')
    (fun task hm => by
      obtain ⟨task', hm', hname⟩ := exists_task_of_perm hdeclared hperm hm
      exact hname ▸ h.fits hm') htables
  exact ⟨u, hu, h.sameAs hu (settled_plan_of_perm hdeclared hperm hnodup)⟩

/-! ## A last table that nothing comes after

The write that cuts off the directory can only be the last of a plan, and then it is that of the
last table. -/

/-- A plan that ends with a table ends with its last one, and leaves no stub to be written then. -/
theorem elsewhere_of_plan_concat {front : List Task} {a : Artifact}
    (h : plan declared [] (tables ++ [table]) = front ++ [.table a]) :
    ∀ u ∈ table.referenced, u ∈ elsewhere declared (tables.map (·.name)) table.name := by
  rw [plan_concat, List.nil_append, Table.tasks] at h
  rcases List.eq_nil_or_concat
      (table.referenced.filter (· ∉ elsewhere declared (tables.map (·.name)) table.name)) with
    hnil | ⟨us, u, hus⟩
  · intro u hu
    simpa using List.filter_eq_nil_iff.mp hnil u hu
  · rw [hus, List.concat_eq_append, List.map_append, ← List.cons_append, ← List.append_assoc] at h
    obtain ⟨-, he⟩ := List.append_inj' h rfl
    cases List.head_eq_of_cons_eq he

theorem plan_concat_of_elsewhere
    (h : ∀ u ∈ table.referenced, u ∈ elsewhere declared (tables.map (·.name)) table.name) :
    plan declared [] (tables ++ [table]) =
      plan declared [] tables ++ [.table table.artifact] := by
  have hnil :
      table.referenced.filter (· ∉ elsewhere declared (tables.map (·.name)) table.name) = [] :=
    List.filter_eq_nil_iff.mpr fun u hu => by simpa using h u hu
  rw [plan_concat, List.nil_append, Table.tasks, hnil, List.map_nil]

/-- **A last table that nothing comes after can stay the last**, wherever the store's directory is
then: the tables before it may be reordered. -/
theorem exists_steps_of_perm_before (hdeclared : ∀ n, n ∈ declared' ↔ n ∈ declared)
    (hperm : tables'.Perm tables) (hnodup : (tables.map (·.name)).Nodup)
    (hsub : tables.map (·.name) ⊆ declared)
    (helsewhere : ∀ u ∈ table.referenced, u ∈ elsewhere declared (tables.map (·.name)) table.name)
    (h : store.Steps force loc (plan declared [] (tables ++ [table])) t t') :
    ∃ u, store.Steps force loc (plan declared' [] (tables' ++ [table])) t u ∧
      FileTree.SameAs t' u := by
  have helsewhere' : ∀ u ∈ table.referenced,
      u ∈ elsewhere declared' (tables'.map (·.name)) table.name := fun u hu => by
    have hu' := helsewhere u hu
    rwa [mem_elsewhere, ← hdeclared, ← (hperm.map _).mem_iff, ← mem_elsewhere] at hu'
  rw [plan_concat_of_elsewhere helsewhere] at h
  rw [plan_concat_of_elsewhere helsewhere']
  obtain ⟨t₂, t₃, hfront, hl, hput, hend⟩ := h.split
  cases hend
  obtain ⟨u, hu, hsame⟩ := exists_steps_of_perm hdeclared hperm hnodup hsub hfront hl
  obtain ⟨u', hput', hsame'⟩ := hput.exists_of_sameAs hsame
  have hfits : store.Fits (Task.table table.artifact).name := h.fits (by simp)
  exact ⟨u', hu.append (.cons (hl.of_sameAs hsame) hfits hput' (.nil u')), hsame'⟩

/-! ## Runs of reordered entries -/

/-- **A run that succeeds is a plan that succeeds.** -/
theorem exists_steps_of_run (h : d.run store base force t = .ok gs t') (hne : d.tables ≠ []) :
    ∃ tables t₁ loc, tables ≠ [] ∧ d.Builds base tables ∧ tables.length = d.tables.length ∧
      gs.map (·.artifact) = tables.map (·.artifact) ∧
      FileTree.makeDirs store.dir t = .ok () t₁ ∧
      store.Steps force loc (plan d.declared [] tables) t₁ t' := by
  obtain ⟨hran, hgs⟩ := run_eq_ok_iff.mp h
  obtain ⟨tables, hb, hg, -, hwrites⟩ := exists_plan_of_ran hran
  have hlength : tables.length = d.tables.length := by
    rw [← hgs]
    simpa using (congrArg List.length hg).symm
  have hne' : tables ≠ [] := by
    rintro rfl
    exact hne (List.length_eq_zero_iff.mp hlength.symm)
  obtain ⟨t₁, loc, hm, hsteps⟩ := (Store.writes_iff_steps (plan_ne_nil hne') fun task hmem =>
    hb.isIdentifier_of_mem_plan hmem).mp hwrites
  exact ⟨tables, t₁, loc, hne', hb, hlength, hg, hm, hsteps⟩

/-- **A plan that succeeds at the store's directory is a run that succeeds.** -/
theorem exists_run_of_steps (hne : tables ≠ []) (hb : d.Builds base tables)
    (hlength : tables.length = d.tables.length)
    (hm : FileTree.makeDirs store.dir t = .ok () t₁)
    (h : store.Steps force loc (plan d.declared [] tables) t₁ t') :
    ∃ gs, d.run store base force t = .ok gs t' ∧
      gs.map (·.artifact) = tables.map (·.artifact) := by
  have hwrites : store.Writes force (plan d.declared [] tables) t t' :=
    (Store.writes_iff_steps (plan_ne_nil hne) fun task hmem =>
      hb.isIdentifier_of_mem_plan hmem).mpr ⟨t₁, loc, hm, h⟩
  obtain ⟨gs, hran, hg⟩ := exists_ran_of_plan hb hwrites
  have hgs : gs.length = tables.length := by simpa using congrArg List.length hg
  exact ⟨gs, run_eq_ok_iff.mpr ⟨hran, hgs.trans hlength⟩, hg⟩

/-- A run gives the same artifacts and leaves the same tree. -/
def Agrees (d : Document) (store : Store) (base : Options) (force : Force) (t : FileTree)
    (gs : List Generated) (t' : FileTree) : Prop :=
  ∃ gs' u, d.run store base force t = .ok gs' u ∧
    (gs'.map (·.artifact)).Perm (gs.map (·.artifact)) ∧ FileTree.SameAs t' u

/-- The tables of differently named entries, in two orders. -/
structure Reorders (d : Document) (base : Options) (values : List Value)
    (tables tables' : List Table) : Prop where
  ne_nil : tables ≠ []
  distinct : d.declared.Nodup
  builds : d.Builds base tables
  length : tables.length = d.tables.length
  builds' : (d.withTables values).Builds base tables'
  length' : tables'.length = values.length
  perm : tables'.Perm tables

namespace Reorders

theorem declared_eq (h : d.Reorders base values tables tables') :
    d.declared = tables.map (·.name) :=
  h.builds.declared_eq h.length

theorem mem_declared (h : d.Reorders base values tables tables') (n : String) :
    n ∈ (d.withTables values).declared ↔ n ∈ d.declared := by
  rw [h.builds'.declared_eq h.length', h.declared_eq, (h.perm.map _).mem_iff]

theorem nodup_names (h : d.Reorders base values tables tables') : (tables.map (·.name)).Nodup :=
  h.declared_eq ▸ h.distinct

theorem names_subset (h : d.Reorders base values tables tables') :
    tables.map (·.name) ⊆ d.declared :=
  h.declared_eq ▸ List.Subset.refl _

/-- **A plan of the reordered entries that leaves the same tree is a run that agrees.** -/
theorem agrees (h : d.Reorders base values tables tables')
    (hg : gs.map (·.artifact) = tables.map (·.artifact))
    (hm : FileTree.makeDirs store.dir t = .ok () t₁)
    (hu : ∃ u, store.Steps force loc (plan (d.withTables values).declared [] tables') t₁ u ∧
      FileTree.SameAs t' u) : (d.withTables values).Agrees store base force t gs t' := by
  obtain ⟨u, hu, hsame⟩ := hu
  have hne : tables' ≠ [] := by
    rintro rfl
    exact h.ne_nil (List.nil_perm.mp h.perm)
  obtain ⟨gs', hrun, hg'⟩ := exists_run_of_steps hne h.builds' h.length' hm hu
  refine ⟨gs', u, hrun, ?_, hsame⟩
  rw [hg, hg']
  exact h.perm.map _

/-- **The last table is the same in both orders, if the last entry is.** -/
theorem exists_concat (h : d.Reorders base values tables tables')
    (hlast : values.getLast? = d.tables.getLast?) :
    ∃ init init' table, tables = init ++ [table] ∧ tables' = init' ++ [table] ∧
      init'.Perm init := by
  obtain ⟨init, table, rfl⟩ := (List.eq_nil_or_concat' tables).resolve_left h.ne_nil
  obtain ⟨init', table', rfl⟩ := (List.eq_nil_or_concat' tables').resolve_left fun hnil =>
    h.ne_nil (List.nil_perm.mp (hnil ▸ h.perm))
  obtain ⟨v, hv, hv'⟩ := h.builds.exists_getLast? h.length
  obtain ⟨w, hw, hw'⟩ := h.builds'.exists_getLast? h.length'
  obtain rfl : w = v := Option.some.inj (hw.symm.trans (hlast.trans hv))
  obtain rfl : table' = table := Except.ok.inj (hw'.symm.trans hv')
  exact ⟨init, init', table', rfl, rfl, (List.perm_append_right_iff [table']).mp h.perm⟩

end Reorders

/-- Without entries there is nothing to reorder. -/
theorem agrees_of_no_tables (hd : d.tables = []) (h : d.run store base force t = .ok gs t')
    (hvalues : values = []) : (d.withTables values).Agrees store base force t gs t' := by
  obtain ⟨hran, hlength⟩ := run_eq_ok_iff.mp h
  obtain rfl : gs = [] := List.length_eq_zero_iff.mp (by rw [hlength, hd]; rfl)
  obtain ⟨-, rfl⟩ := Ran.unique hran .start rfl
  exact ⟨[], t', run_eq_ok_iff.mpr ⟨.start, by rw [hvalues]; rfl⟩, .refl _, .refl t'⟩

/-- The artifact of the last table that a run has written, if that was its last task. -/
theorem exists_getLast?_of_plan (hg : gs.map (·.artifact) = tables.map (·.artifact))
    {front : List Task} {a : Artifact}
    (hplan : plan declared [] tables = front ++ [.table a]) :
    ∃ g, gs.getLast? = some g ∧ g.artifact = a := by
  have hlast : (gs.map (·.artifact)).getLast? = some a := by
    rw [hg, ← tables_plan, hplan, Task.tables_append]
    exact List.getLast?_concat
  rw [List.getLast?_map] at hlast
  exact Option.map_eq_some_iff.mp hlast

/-- **The order of the entries does not matter.** If a document of differently named entries runs,
then so do its entries in any other order, with the same artifacts, and the tree at the end is the
same; except where a forced run has replaced, by the file of its last entry, a link that the store's
directory is reached by, and the last entry is another one now. -/
theorem run_of_perm (hnodup : d.declared.Nodup) (hperm : values.Perm d.tables)
    (h : d.run store base force t = .ok gs t') :
    (d.withTables values).Agrees store base force t gs t' ∨
      store.IsBlockedIn t' ∧ force.isSet = true ∧ values.getLast? ≠ d.tables.getLast? ∧
        ∃ t₁ l g target, FileTree.makeDirs store.dir t = .ok () t₁ ∧ gs.getLast? = some g ∧
          t₁.Names (store.pathFor g.artifact.table) l ∧ t₁.get? l = some (.link target) := by
  by_cases hd : d.tables = []
  · exact .inl (agrees_of_no_tables hd h (List.perm_nil.mp (hd ▸ hperm)))
  obtain ⟨tables, t₁, loc, hne, hb, hlength, hg, hm, hsteps⟩ := exists_steps_of_run h hd
  obtain ⟨tables', hb', hlength', hperm'⟩ := exists_builds_of_perm hb hlength hperm
  have hr : d.Reorders base values tables tables' :=
    ⟨hne, hnodup, hb, hlength, hb', hlength', hperm'⟩
  have hl : store.LiesAt t₁ loc := hsteps.liesAt (plan_ne_nil hne)
  rcases hsteps.liesAt_or_replaced hl with
    hl' | ⟨hblocked, hforce, front, a, target, hplan, hlink⟩
  · exact .inl (hr.agrees hg hm
      (exists_steps_of_perm hr.mem_declared hperm' hr.nodup_names hr.names_subset hsteps hl'))
  by_cases hlast : values.getLast? = d.tables.getLast?
  · -- the file that blocks the store is still the last to be written
    left
    have hnames := hr.nodup_names
    have hsub := hr.names_subset
    obtain ⟨init, init', table, rfl, rfl, hinit⟩ := hr.exists_concat hlast
    rw [List.map_append] at hnames hsub
    exact hr.agrees hg hm (exists_steps_of_perm_before hr.mem_declared hinit
      (List.nodup_append.mp hnames).1 (List.append_subset.mp hsub).1
      (elsewhere_of_plan_concat hplan) hsteps)
  · obtain ⟨g, hg', rfl⟩ := exists_getLast?_of_plan hg hplan
    have htask : Task.table g.artifact ∈ plan d.declared [] tables := by simp [hplan]
    have hid : isIdentifier g.artifact.table.toList := hb.isIdentifier_of_mem_plan htask
    have hfits := hsteps.fits htask
    exact .inr ⟨hblocked, hforce, hlast, t₁, _, g, target, hm, hg', hl.names hid hfits, hlink⟩

/-- Users refer to themselves and to orders, and orders to users and to items, which nobody
declares. -/
def market : Document where
  outDir := none
  onDelete := some .cascade
  onUpdate := none
  tables :=
    [.object [("name", .string "users"), ("fields", .array
        [.object [("name", .string "parent"), ("fk", .string "users")],
          .object [("name", .string "latest"), ("fk", .string "orders")]])],
      .object [("name", .string "orders"), ("fields", .array
        [.object [("name", .string "user"), ("fk", .string "users")],
          .object [("name", .string "item"), ("type", .string "fk(items)")]])]]

/-- The market, in its own order and backwards. -/
theorem run_of_perm_market :
    ∃ gs t', market.run ⟨"db"⟩ {} {} bareTree = .ok gs t' ∧
      (market.withTables market.tables.reverse).Agrees ⟨"db"⟩ {} {} bareTree gs t' := by
  obtain ⟨gs, t', hrun, -⟩ : ∃ gs t', market.run ⟨"db"⟩ {} {} bareTree = .ok gs t' ∧ true = true :=
    exists_ok_of_check (fun _ _ => true) (by decide +kernel)
  refine ⟨gs, t', hrun, ?_⟩
  rcases run_of_perm (by decide) (List.reverse_perm _) hrun with hagrees | ⟨-, hforce, -⟩
  · exact hagrees
  · exact nomatch hforce

/-- Two tables that refer to nothing, the one with the name of the link last. -/
def pair : Document where
  outDir := none
  onDelete := none
  onUpdate := none
  tables :=
    [.object [("name", .string "posts"), ("fields", .array [])],
      .object [("name", .string "users"), ("fields", .array [])]]

/-- **The last entry can be the one that must come last**: it replaces the link that the store's
directory is reached by, and nothing can be written after it. -/
theorem exists_order_that_fails :
    pair.declared.Nodup ∧ pair.tables.reverse.Perm pair.tables ∧
      (∃ gs t', pair.run ⟨"users.json"⟩ {} { flag := true } loopTree = .ok gs t') ∧
      ∃ e t', (pair.withTables pair.tables.reverse).run ⟨"users.json"⟩ {} { flag := true }
        loopTree = .error e t' := by
  refine ⟨by decide, List.reverse_perm _, ?_, ?_⟩
  · obtain ⟨gs, t', hrun, -⟩ := exists_ok_of_check
      (r := pair.run ⟨"users.json"⟩ {} { flag := true } loopTree) (fun _ _ => true)
      (by decide +kernel)
    exact ⟨gs, t', hrun⟩
  · obtain ⟨e, t', hrun, -⟩ := exists_error_of_check
      (r := (pair.withTables pair.tables.reverse).run ⟨"users.json"⟩ {} { flag := true } loopTree)
      (fun _ _ => true) (by decide +kernel)
    exact ⟨e, t', hrun⟩

end Document

end Batch

end Tablature
