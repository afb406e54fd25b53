import Tablature.Proofs.Batch.Abort
import Tablature.Proofs.Store.Script

/-!
# Proofs/Batch/Script — a run, told as writes

The tasks of a run are those of its plan.  A run stops at an entry that has no table, or at a task
of an entry; before this come the plan of the entries that are done and the entry's own first tasks,
and after it the stubs that are missing are tried.  `follows_run` says that a run goes these ways
and no other.
-/

namespace Tablature.Batch.Document

variable {d : Document} {store : Store} {base : Options} {force : Force} {t t' : FileTree}
  {done : List Generated} {tables : List Table} {e : Error}

/-! ## Runs that fail -/

/-- **An entry fails** if it has no table, and else with the first of the table's tasks that
fails. -/
theorem runEntry_eq_error_iff {i : Nat} :
    d.runEntry store base force done i t = .error e t' ↔
      (d.tableAt base i = .error e ∧ t' = t) ∨ ∃ table, d.tableAt base i = .ok table ∧
        store.FailsIn force
          (table.tasks (elsewhere d.declared (done.map (·.artifact.table)) table.name)) e t t' := by
  unfold runEntry tableAt
  cases d.entry i with
  | error e' =>
    change (EStateM.Result.error e' t = .error e t') ↔ (Except.error e' = .error e ∧ _) ∨
      ∃ table, Except.error e' = .ok table ∧ _
    simp [eq_comm]
  | ok entry =>
    change store.generate _ _ _ _ _ t = _ ↔ (Table.build _ _ _ = .error e ∧ _) ∨
      ∃ table, Table.build _ _ _ = .ok table ∧ _
    rw [Store.generate_eq_error_iff, pending_eq]
    refine or_congr Iff.rfl (exists_congr fun table => and_congr_right fun hb => ?_)
    rw [Table.name_eq_of_build hb]

/-- **A run fails** at the entry after those that have been run, if that one does. -/
theorem run_eq_error_iff : d.run store base force t = .error e t' ↔
    ∃ done t₁ t₂, d.Ran store base force t done t₁ ∧ done.length < d.tables.length ∧
      d.runEntry store base force done done.length t₁ = .error e t₂ ∧
      t' = stubUnwritten store done t₂ := by
  refine ⟨exists_of_run_error, ?_⟩
  rintro ⟨done, t₁, t₂, hran, hlt, hfail, rfl⟩
  obtain ⟨count, hcount⟩ : ∃ count, d.tables.length = done.length + (count + 1) :=
    ⟨d.tables.length - done.length - 1, by omega⟩
  rw [run, hcount, hran.runFrom_eq, runFrom_succ, hfail]

/-- The stubs that a failed run tries are those that its plan left to later entries. -/
theorem stubUnwritten_eq_tryAll (force : Force)
    (hg : done.map (·.artifact) = tables.map (·.artifact))
    (hd : done.flatMap (·.stubs.deferred) = deferrals d.declared [] tables) (t : FileTree) :
    stubUnwritten store done t = store.tryAll force (missing d.declared tables) t := by
  rw [stubUnwritten, stubMissing_eq_tryAll force done, hd, map_table_eq hg, missing]

/-! ## The script of a run

The script is told from the document and the options; the tree only decides which of its ways is
taken. -/

/-- The first entries build one list of tables. -/
theorem Builds.eq_of_length {tables' : List Table} (h : d.Builds base tables)
    (h' : d.Builds base tables') (hlength : tables'.length = tables.length) : tables' = tables := by
  refine List.ext_getElem hlength fun i hi' hi => ?_
  have ht := h i _ (List.getElem?_eq_getElem hi)
  have ht' := h' i _ (List.getElem?_eq_getElem hi')
  exact Except.ok.inj (ht'.symm.trans ht)

/-- A run stops at an entry that has no table, or at a task of an entry. -/
inductive Halts (d : Document) (base : Options) : List Task → Stop → List Task → Prop
  | unbuilt {tables : List Table} {e : Error} (hb : d.Builds base tables)
    (hlt : tables.length < d.tables.length) (h : d.tableAt base tables.length = .error e) :
    Halts d base (plan d.declared [] tables) (.fault e) (missing d.declared tables)
  | unwritten {tables : List Table} {table : Table} {front back : List Task} {task : Task}
    (hb : d.Builds base tables) (hlt : tables.length < d.tables.length)
    (h : d.tableAt base tables.length = .ok table)
    (htasks : table.tasks (elsewhere d.declared (tables.map (·.name)) table.name) =
      front ++ task :: back) :
    Halts d base (plan d.declared [] tables ++ front) (.task task) (missing d.declared tables)

/-- The script of a run. -/
def script (d : Document) (base : Options) : Script (List Artifact) where
  ends tasks artifacts := ∃ tables, d.Builds base tables ∧ tables.length = d.tables.length ∧
    tasks = plan d.declared [] tables ∧ artifacts = tables.map (·.artifact)
  halts := d.Halts base

/-- **A run that succeeds goes through the whole plan.** -/
theorem run_ok_iff_script {artifacts : List Artifact} :
    (∃ gs, d.run store base force t = .ok gs t' ∧ gs.map (·.artifact) = artifacts) ↔
      ∃ tasks, (d.script base).ends tasks artifacts ∧ store.Writes force tasks t t' := by
  constructor
  · rintro ⟨gs, hrun, rfl⟩
    obtain ⟨hran, hlength⟩ := run_eq_ok_iff.mp hrun
    obtain ⟨tables, hb, hg, -, hwrites⟩ := exists_plan_of_ran hran
    have htables : gs.length = tables.length := by simpa using congrArg List.length hg
    exact ⟨_, ⟨tables, hb, htables ▸ hlength, rfl, hg⟩, hwrites⟩
  · rintro ⟨tasks, ⟨tables, hb, hlength, rfl, rfl⟩, hwrites⟩
    obtain ⟨gs, hran, hg⟩ := exists_ran_of_plan hb hwrites
    have htables : gs.length = tables.length := by simpa using congrArg List.length hg
    exact ⟨gs, run_eq_ok_iff.mpr ⟨hran, htables.trans hlength⟩, hg⟩

/-- The entries of a script's run that are done. -/
theorem exists_halts_of_run_error (h : d.run store base force t = .error e t') :
    ∃ front stop repair t₁ t₂, d.Halts base front stop repair ∧ store.Writes force front t t₁ ∧
      store.Fails force stop e t₁ t₂ ∧ t' = store.tryAll force repair t₂ := by
  obtain ⟨done, t₁, t₂, hran, hlt, hfail, rfl⟩ := run_eq_error_iff.mp h
  obtain ⟨tables, hb, hg, hd, hwrites⟩ := exists_plan_of_ran hran
  have hlength : done.length = tables.length := by simpa using congrArg List.length hg
  rw [stubUnwritten_eq_tryAll force hg hd]
  rw [runEntry_eq_error_iff, map_table_eq hg] at hfail
  rw [hlength] at hlt hfail
  rcases hfail with ⟨he, rfl⟩ | ⟨table, htable, front, task, back, t₃, htasks, hfront, hfail⟩
  · exact ⟨_, .fault e, _, t₂, t₂, .unbuilt hb hlt he, hwrites, ⟨rfl, rfl⟩, rfl⟩
  · exact ⟨_, .task task, _, t₃, t₂, .unwritten hb hlt htable htasks, hwrites.append hfront,
      hfail, rfl⟩

/-- A run goes on to an entry that fails. -/
theorem run_eq_error_of_plan {t₁ t₂ : FileTree} (hb : d.Builds base tables)
    (hlt : tables.length < d.tables.length)
    (hwrites : store.Writes force (plan d.declared [] tables) t t₁)
    (h : (d.tableAt base tables.length = .error e ∧ t₂ = t₁) ∨
      ∃ table, d.tableAt base tables.length = .ok table ∧ store.FailsIn force
        (table.tasks (elsewhere d.declared (tables.map (·.name)) table.name)) e t₁ t₂) :
    d.run store base force t =
      .error e (store.tryAll force (missing d.declared tables) t₂) := by
  obtain ⟨done, hran, hg⟩ := exists_ran_of_plan hb hwrites
  have hlength : done.length = tables.length := by simpa using congrArg List.length hg
  obtain ⟨tables', hb', hg', hd, -⟩ := exists_plan_of_ran hran
  have hlength' : tables'.length = tables.length := by
    rw [← hlength]
    simpa using (congrArg List.length hg').symm
  obtain rfl := hb.eq_of_length hb' hlength'
  refine run_eq_error_iff.mpr ⟨done, t₁, t₂, hran, hlength ▸ hlt, ?_, ?_⟩
  · rwa [runEntry_eq_error_iff, map_table_eq hg, hlength]
  · exact (stubUnwritten_eq_tryAll force hg hd t₂).symm

/-- **A run goes the ways of its script**, and no other. -/
theorem follows_run (d : Document) (store : Store) (base : Options) (force : Force) :
    store.Follows force (fun gs : List Generated => gs.map (·.artifact))
      (d.run store base force) (d.script base) where
  ok_iff := run_ok_iff_script
  error_iff := by
    refine ⟨exists_halts_of_run_error, ?_⟩
    rintro ⟨front, stop, repair, t₁, t₂, hhalts, hwrites, hfail, rfl⟩
    cases hhalts with
    | unbuilt hb hlt h =>
      obtain ⟨rfl, rfl⟩ := hfail
      exact run_eq_error_of_plan hb hlt hwrites (.inl ⟨h, rfl⟩)
    | unwritten hb hlt h htasks =>
      obtain ⟨t₃, hplan, hfront⟩ := hwrites.exists_mid
      exact run_eq_error_of_plan hb hlt hplan (.inr ⟨_, h, _, _, _, t₁, htasks, hfront, hfail⟩)

/-- A plan that starts with a task starts with an entry, and a run can stop there. -/
theorem Builds.halts_first {task : Task} {tasks : List Task} (hb : d.Builds base tables)
    (h : plan d.declared [] tables = task :: tasks) : d.Halts base [] (.task task) [] := by
  cases tables with
  | nil => exact nomatch h
  | cons table tables =>
    have htable : d.tableAt base 0 = .ok table := hb 0 table rfl
    have hlt : 0 < d.tables.length := Nat.lt_of_lt_of_le (Nat.succ_pos _) hb.length_le
    have hempty : d.Builds base [] := by simp [Builds]
    obtain rfl := List.head_eq_of_cons_eq h
    exact .unwritten hempty hlt htable (List.nil_append _).symm

/-- The tasks before a failure are of identifiers, those of the entry that fails included. -/
theorem Builds.isIdentifier_of_mem_append {table : Table} {front rest : List Task}
    (hb : d.Builds base tables) (h : d.tableAt base tables.length = .ok table)
    (htasks : table.tasks (elsewhere d.declared (tables.map (·.name)) table.name) = front ++ rest)
    {task : Task} (hm : task ∈ plan d.declared [] tables ++ (front ++ rest)) :
    isIdentifier task.name.toList := by
  have hplan : plan d.declared [] (tables ++ [table]) =
      plan d.declared [] tables ++ (front ++ rest) := by
    rw [plan_concat, List.nil_append, htasks]
  exact (builds_concat.mpr ⟨hb, h⟩).isIdentifier_of_mem_plan (hplan ▸ hm)

/-- Without a write there is nothing that could be missing. -/
theorem missing_eq_nil_of_plan {declared : List String} (h : plan declared [] tables = []) :
    missing declared tables = [] := by
  cases tables with
  | nil => rfl
  | cons table tables => exact absurd h (plan_ne_nil (List.cons_ne_nil _ _))

theorem stub_of_mem_missing {declared : List String} {task : Task}
    (h : task ∈ missing declared tables) : ∃ n, task = .stub n := by
  obtain ⟨n, -, rfl⟩ := List.mem_map.mp h
  exact ⟨n, rfl⟩

/-- **The script of a run is regular**, so that all that holds of regular scripts holds of runs. -/
theorem isRegular_script (d : Document) (base : Options) : (d.script base).IsRegular where
  isIdentifier_of_ends := by
    rintro tasks artifacts ⟨tables, hb, -, rfl, -⟩ task hm
    exact hb.isIdentifier_of_mem_plan hm
  isIdentifier_of_halts := by
    rintro front stop repair (⟨hb, -, -⟩ | ⟨hb, -, h, htasks⟩) task hm
    · exact hb.isIdentifier_of_mem hm
    · rw [List.append_assoc, List.mem_append, List.mem_append] at hm
      rcases hm with hm | hm | hm
      · exact hb.isIdentifier_of_mem_plan hm
      · exact hb.isIdentifier_of_mem_append h htasks (by simp [hm])
      · exact hb.isIdentifier_of_mem (List.mem_append_right _ hm)
  isIdentifier_of_stop := by
    rintro front task repair (_ | ⟨hb, -, h, htasks⟩)
    exact hb.isIdentifier_of_mem_append h htasks (by simp)
  stub_of_halts := by
    intro front stop repair h task hm
    cases h with
    | unbuilt => exact stub_of_mem_missing hm
    | unwritten => exact stub_of_mem_missing hm
  repair_eq_nil := by
    intro front stop repair h hfront
    cases h with
    | unbuilt => exact missing_eq_nil_of_plan hfront
    | unwritten => exact missing_eq_nil_of_plan (List.append_eq_nil_iff.mp hfront).1
  halts_of_ends := by
    rintro task tasks artifacts ⟨tables, hb, -, htasks, -⟩
    exact hb.halts_first htasks.symm
  halts_of_halts := by
    intro front stop repair task tasks h hfront
    cases h with
    | unbuilt hb hlt h => exact hb.halts_first hfront
    | @unwritten tables table front back last hb hlt h htasks =>
      have hplan : plan d.declared [] (tables ++ [table]) = task :: (tasks ++ last :: back) := by
        rw [plan_concat, List.nil_append, htasks, ← List.append_assoc, hfront, List.cons_append]
      exact (builds_concat.mpr ⟨hb, h⟩).halts_first hplan

end Tablature.Batch.Document
