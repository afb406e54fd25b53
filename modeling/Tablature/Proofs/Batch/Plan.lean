import Mathlib.Data.List.Induction
import Tablature.Batch.Run
import Tablature.Proofs.Batch.Entry
import Tablature.Proofs.Bind
import Tablature.Proofs.Store.Writes
import Tablature.Proofs.Table

/-!
# Proofs/Batch/Plan — a run as a sequence of writes

Which stubs an entry writes depends on the tables that are still to come, and so on the entries
before it; but only on their names.  So the writes of a run can be told from its tables alone,
before any is made: `plan`.  `exists_plan_of_ran` and `exists_ran_of_plan` say that the first
entries of a document run exactly when they build and their plan succeeds.
-/

namespace Tablature

/-! ## One table

Generating a table succeeds exactly if its tasks do: the table itself, and then a stub for each
table it refers to and that is not written elsewhere. -/

/-- The writes for a table, where some tables are written elsewhere. -/
def Table.tasks (table : Table) (elsewhere : List String) : List Task :=
  .table table.artifact :: (table.referenced.filter (· ∉ elsewhere)).map .stub

namespace Store

variable {s : Store} {force : Force} {t t' : FileTree} {elsewhere : List String}

/-- Sequences of writes are put together. -/
theorem Writes.append {front back : List Task} {t₁ : FileTree} (h : s.Writes force front t t₁)
    (h' : s.Writes force back t₁ t') : s.Writes force (front ++ back) t t' := by
  induction h with
  | nil t => exact h'
  | cons h hs ih => exact .cons h (ih h')

/-- A sequence of writes can be cut anywhere. -/
theorem Writes.exists_mid {front back : List Task} (h : s.Writes force (front ++ back) t t') :
    ∃ t₁, s.Writes force front t t₁ ∧ s.Writes force back t₁ t' := by
  induction front generalizing t with
  | nil => exact ⟨t, .nil t, h⟩
  | cons task front ih =>
    cases h with
    | cons h hs =>
      obtain ⟨t₁, hfront, hback⟩ := ih hs
      exact ⟨t₁, .cons h hfront, hback⟩

/-- **Stubs are written for the tables that are not elsewhere**, and those that are elsewhere are
reported. -/
theorem writes_of_stubAll (force : Force) {targets : List String} {report : StubReport}
    (h : s.stubAll elsewhere targets t = .ok report t') :
    report.deferred = targets.filter (· ∈ elsewhere) ∧
      s.Writes force ((targets.filter (· ∉ elsewhere)).map .stub) t t' := by
  induction targets generalizing t report with
  | nil =>
    obtain ⟨rfl, rfl⟩ := EStateM.Result.ok.inj h
    exact ⟨rfl, .nil t⟩
  | cons target targets ih =>
    unfold stubAll at h
    by_cases hmem : target ∈ elsewhere
    · rw [if_pos hmem] at h
      obtain ⟨rest, t₁, hrest, h⟩ := run_bind_eq_ok_iff.mp h
      obtain ⟨rfl, rfl⟩ := EStateM.Result.ok.inj h
      obtain ⟨hdeferred, hwrites⟩ := ih hrest
      exact ⟨by simp [hmem, hdeferred], by simpa [hmem] using hwrites⟩
    · rw [if_neg hmem] at h
      obtain ⟨o, t₁, hwrite, h⟩ := run_bind_eq_ok_iff.mp h
      obtain ⟨rest, t₂, hrest, h⟩ := run_bind_eq_ok_iff.mp h
      obtain ⟨hreport, rfl⟩ := EStateM.Result.ok.inj h
      obtain ⟨hdeferred, hwrites⟩ := ih hrest
      constructor
      · rw [← hreport]
        split <;> simp [hmem, hdeferred]
      · simp only [hmem, not_false_eq_true, decide_true, List.filter_cons_of_pos, List.map_cons]
        exact .cons hwrite hwrites

/-- **Where the stubs can be written, they are**, and a report is given. -/
theorem exists_stubAll_of_writes {targets : List String}
    (h : s.Writes force ((targets.filter (· ∉ elsewhere)).map .stub) t t') :
    ∃ report, s.stubAll elsewhere targets t = .ok report t' := by
  induction targets generalizing t with
  | nil =>
    cases h
    exact ⟨{}, rfl⟩
  | cons target targets ih =>
    unfold stubAll
    by_cases hmem : target ∈ elsewhere
    · rw [if_pos hmem]
      obtain ⟨rest, hrest⟩ := ih (by simpa [hmem] using h)
      exact ⟨_, run_bind_eq_ok_iff.mpr ⟨rest, t', hrest, rfl⟩⟩
    · rw [if_neg hmem]
      simp only [hmem, not_false_eq_true, decide_true, List.filter_cons_of_pos,
        List.map_cons] at h
      cases h with
      | @cons _ _ _ t₁ _ o hwrite hs =>
        obtain ⟨rest, hrest⟩ := ih hs
        exact ⟨_, run_bind_eq_ok_iff.mpr ⟨o, t₁, hwrite,
          run_bind_eq_ok_iff.mpr ⟨rest, t', hrest, rfl⟩⟩⟩

/-- **A table that is generated is built, and then its writes succeed.** -/
theorem exists_of_generate {name : String} {tokens : List String} {opts : Options} {g : Generated}
    (h : s.generate name tokens opts force elsewhere t = .ok g t') :
    ∃ table, Table.build name tokens opts = .ok table ∧ g.artifact = table.artifact ∧
      g.stubs.deferred = table.referenced.filter (· ∈ elsewhere) ∧
      s.Writes force (table.tasks elsewhere) t t' := by
  unfold generate at h
  cases hbuild : Table.build name tokens opts with
  | error e =>
    rw [hbuild] at h
    exact nomatch h
  | ok table =>
    rw [hbuild] at h
    obtain ⟨o, t₁, hwrite, h⟩ := run_bind_eq_ok_iff.mp h
    obtain ⟨report, t₂, hstubs, h⟩ := run_bind_eq_ok_iff.mp h
    obtain ⟨rfl, rfl⟩ := EStateM.Result.ok.inj h
    obtain ⟨hdeferred, hwrites⟩ := writes_of_stubAll force hstubs
    exact ⟨table, rfl, rfl, hdeferred, .cons hwrite hwrites⟩

/-- **A table is generated where its tasks succeed.** -/
theorem exists_generate_of_writes {name : String} {tokens : List String} {opts : Options}
    {table : Table} (hb : Table.build name tokens opts = .ok table)
    (h : s.Writes force (table.tasks elsewhere) t t') :
    ∃ g, s.generate name tokens opts force elsewhere t = .ok g t' := by
  unfold generate
  rw [hb]
  cases h with
  | @cons _ _ _ t₁ _ o hwrite hs =>
    obtain ⟨report, hstubs⟩ := exists_stubAll_of_writes hs
    exact ⟨_, run_bind_eq_ok_iff.mpr ⟨o, t₁, hwrite,
      run_bind_eq_ok_iff.mpr ⟨report, t', hstubs, rfl⟩⟩⟩

end Store

namespace Batch.Document

variable {d : Document} {store : Store} {base : Options} {force : Force} {t t' : FileTree}
  {done gs : List Generated} {g : Generated}

/-! ## The table of an entry

Entries are read and built without a look at the tree, so that the tables of a document are known
before it is run. -/

/-- The table of the entry at a position. -/
def tableAt (d : Document) (base : Options) (i : Nat) : Except Error Table :=
  d.entry i >>= fun e => Table.build e.name e.tokens (d.entryOptions base e)

/-- The table of an entry is built from its tokens, under its name. -/
theorem exists_of_tableAt {i : Nat} {table : Table} (h : d.tableAt base i = .ok table) :
    ∃ e, d.entry i = .ok e ∧ e.name = table.name ∧
      Table.build e.name e.tokens (d.entryOptions base e) = .ok table := by
  obtain ⟨e, he, hb⟩ := bind_eq_ok_iff.mp h
  exact ⟨e, he, (Table.name_eq_of_build hb).symm, hb⟩

/-- The tables of the first entries. -/
def Builds (d : Document) (base : Options) (tables : List Table) : Prop :=
  ∀ i table, tables[i]? = some table → d.tableAt base i = .ok table

/-- One more entry builds one more table. -/
theorem builds_concat {tables : List Table} {table : Table} :
    d.Builds base (tables ++ [table]) ↔
      d.Builds base tables ∧ d.tableAt base tables.length = .ok table := by
  constructor
  · intro h
    refine ⟨fun i table' hi => h i table' ?_, h _ _ (by simp)⟩
    rwa [List.getElem?_append_left (List.getElem?_eq_some_iff.mp hi).1]
  · rintro ⟨h, hlast⟩ i table' hi
    rw [List.getElem?_append] at hi
    split at hi
    · exact h i table' hi
    · next hlt =>
      obtain ⟨hzero, he⟩ := List.getElem?_eq_some_iff.mp hi
      rw [List.length_singleton] at hzero
      rw [List.getElem_singleton] at he
      obtain rfl : i = tables.length := by omega
      exact he ▸ hlast

theorem Builds.exists_of_mem {tables : List Table} {table : Table} (h : d.Builds base tables)
    (hm : table ∈ tables) : ∃ i, d.tableAt base i = .ok table := by
  obtain ⟨i, hi⟩ := List.getElem?_of_mem hm
  exact ⟨i, h i table hi⟩

/-- **The first entries declare the names of their tables.** -/
theorem Builds.declared_take {tables : List Table} (h : d.Builds base tables) :
    (d.tables.take tables.length).filterMap (fun v => (members? v).bind entryName?) =
      tables.map (·.name) := by
  induction tables using List.reverseRecOn with
  | nil => rfl
  | append_singleton tables table ih =>
    obtain ⟨hbuilds, hlast⟩ := builds_concat.mp h
    obtain ⟨e, he, hname, -⟩ := exists_of_tableAt hlast
    obtain ⟨v, hv, hdeclared⟩ := exists_of_entry he
    rw [List.length_append, List.length_singleton, List.take_add_one, hv, List.filterMap_append,
      ih hbuilds, List.map_append, Option.toList_some, List.filterMap_cons, hdeclared, hname]
    rfl

/-- A document whose entries all build declares their tables and no other. -/
theorem Builds.declared_eq {tables : List Table} (h : d.Builds base tables)
    (hlength : tables.length = d.tables.length) : d.declared = tables.map (·.name) := by
  rw [← h.declared_take, hlength, List.take_length]
  rfl

/-! ## Plans -/

/-- The tables that are still to come: declared, and neither done nor being done. -/
def elsewhere (declared done : List String) (name : String) : List String :=
  declared.filter fun n => n != name && !done.contains n

/-- A table is to come if it is declared, and neither done nor being done. -/
theorem mem_elsewhere {declared done : List String} {name u : String} :
    u ∈ elsewhere declared done name ↔ u ∈ declared ∧ u ≠ name ∧ u ∉ done := by
  simp [elsewhere]

/-- What is pending in a run is what is still to come, by the names that are done. -/
theorem pending_eq (d : Document) (done : List Generated) (name : String) :
    d.pending done name = elsewhere d.declared (done.map (·.artifact.table)) name := by
  simp only [pending, elsewhere, isDone_eq_decide, List.contains_eq_mem]

/-- The writes for some tables, after those that are done. -/
def plan (declared : List String) : (done : List String) → List Table → List Task
  | _, [] => []
  | done, table :: tables =>
    table.tasks (elsewhere declared done table.name) ++ plan declared (done ++ [table.name]) tables

/-- The tables that are left to entries still to come. -/
def deferrals (declared : List String) : (done : List String) → List Table → List String
  | _, [] => []
  | done, table :: tables =>
    table.referenced.filter (· ∈ elsewhere declared done table.name) ++
      deferrals declared (done ++ [table.name]) tables

/-- The plan of one more table goes on with its tasks, where those before it are done. -/
theorem plan_concat (declared done : List String) (tables : List Table) (table : Table) :
    plan declared done (tables ++ [table]) = plan declared done tables ++
      table.tasks (elsewhere declared (done ++ tables.map (·.name)) table.name) := by
  induction tables generalizing done with
  | nil => simp [plan]
  | cons first tables ih => simp [plan, ih]

/-- One more table leaves those it refers to and that are still to come. -/
theorem deferrals_concat (declared done : List String) (tables : List Table) (table : Table) :
    deferrals declared done (tables ++ [table]) = deferrals declared done tables ++
      table.referenced.filter
        (· ∈ elsewhere declared (done ++ tables.map (·.name)) table.name) := by
  induction tables generalizing done with
  | nil => simp [deferrals]
  | cons first tables ih => simp [deferrals, ih]

/-! ## Runs

A run is followed entry by entry: `Ran` holds of the entries that have been run, `Builds` of their
tables, and the plan is what they have written. -/

/-- The first entries have been run, one after another. -/
inductive Ran (d : Document) (store : Store) (base : Options) (force : Force) (t : FileTree) :
    List Generated → FileTree → Prop
  | start : Ran d store base force t [] t
  | entry {done : List Generated} {g : Generated} {t₁ t₂ : FileTree}
    (h : Ran d store base force t done t₁)
    (hg : d.runEntry store base force done done.length t₁ = .ok g t₂) :
    Ran d store base force t (done ++ [g]) t₂

/-- Every entry that has been run was run after those before it. -/
theorem Ran.exists_of_lt (h : d.Ran store base force t done t') {i : Nat} (hi : i < done.length) :
    ∃ front t₁ g t₂, d.Ran store base force t front t₁ ∧ front.length = i ∧
      d.runEntry store base force front front.length t₁ = .ok g t₂ := by
  induction h with
  | start => exact absurd hi (Nat.not_lt_zero i)
  | @entry done g t₁ t₂ h hg ih =>
    by_cases hlast : i < done.length
    · exact ih hlast
    · refine ⟨done, t₁, g, t₂, h, ?_, hg⟩
      rw [List.length_append, List.length_singleton] at hi
      omega

/-- **There is one way to run the first entries.** -/
theorem Ran.unique {done' : List Generated} {t₁ : FileTree} (h : d.Ran store base force t done t₁)
    (h' : d.Ran store base force t done' t') (hlength : done.length = done'.length) :
    done = done' ∧ t₁ = t' := by
  induction h generalizing done' t' with
  | start =>
    cases h' with
    | start => exact ⟨rfl, rfl⟩
    | entry => simp at hlength
  | @entry done g t₁ t₂ h hg ih =>
    cases h' with
    | start => simp at hlength
    | @entry done' g' t₁' t₂' h' hg' =>
      obtain ⟨rfl, rfl⟩ := ih h' (by simpa using hlength)
      obtain ⟨rfl, rfl⟩ := EStateM.Result.ok.inj (hg.symm.trans hg')
      exact ⟨rfl, rfl⟩

/-- One entry of a run, and then the rest or the stubs that are missing. -/
theorem runFrom_succ (count i : Nat) (done : List Generated) (t : FileTree) :
    d.runFrom store base force (count + 1) i done t =
      match d.runEntry store base force done i t with
      | .ok g t' => d.runFrom store base force count (i + 1) (done ++ [g]) t'
      | .error e t' => .error e (stubUnwritten store done t') :=
  rfl

/-- **A run goes on from the entries that have been run.** -/
theorem Ran.runFrom_eq (h : d.Ran store base force t done t') (count : Nat) :
    d.runFrom store base force (done.length + count) 0 [] t =
      d.runFrom store base force count done.length done t' := by
  induction h generalizing count with
  | start => rw [List.length_nil, Nat.zero_add]
  | @entry done g t₁ t₂ h hg ih =>
    rw [List.length_append, List.length_singleton, Nat.add_assoc, Nat.add_comm 1 count, ih,
      runFrom_succ, hg]

/-- Where the rest of a run succeeds, all of its entries have been run. -/
theorem ran_of_runFrom {count : Nat} (hran : d.Ran store base force t done t')
    {t₂ : FileTree} (h : d.runFrom store base force count done.length done t' = .ok gs t₂) :
    d.Ran store base force t gs t₂ ∧ gs.length = done.length + count := by
  induction count generalizing done t' with
  | zero =>
    obtain ⟨rfl, rfl⟩ := EStateM.Result.ok.inj h
    exact ⟨hran, rfl⟩
  | succ count ih =>
    rw [runFrom_succ] at h
    split at h
    · next g t₁ hg =>
      have hlength : done.length + 1 = (done ++ [g]).length := by simp
      rw [hlength] at h
      obtain ⟨hgs, hl⟩ := ih (hran.entry hg) h
      exact ⟨hgs, by omega⟩
    · simp at h

/-- Where the rest of a run fails, some more entries have been run, and the next has failed. -/
theorem exists_of_runFrom_error {count : Nat} {t₁ : FileTree}
    (hran : d.Ran store base force t done t₁)
    {e : Error} (h : d.runFrom store base force count done.length done t₁ = .error e t') :
    ∃ done' t₂ t₃, d.Ran store base force t done' t₂ ∧ done'.length < done.length + count ∧
      d.runEntry store base force done' done'.length t₂ = .error e t₃ ∧
      t' = stubUnwritten store done' t₃ := by
  induction count generalizing done t₁ with
  | zero => exact nomatch h
  | succ count ih =>
    rw [runFrom_succ] at h
    split at h
    · next g t₂ hg =>
      have hlength : done.length + 1 = (done ++ [g]).length := by simp
      rw [hlength] at h
      obtain ⟨done', t₂, t₃, hran', hlt, hfail⟩ := ih (hran.entry hg) h
      exact ⟨done', t₂, t₃, hran', by omega, hfail⟩
    · next e' t₂ hg =>
      obtain ⟨rfl, rfl⟩ := EStateM.Result.error.inj h
      exact ⟨done, t₁, t₂, hran, by omega, hg, rfl⟩

/-- **A run that succeeds has run all entries.** -/
theorem run_eq_ok_iff : d.run store base force t = .ok gs t' ↔
    d.Ran store base force t gs t' ∧ gs.length = d.tables.length := by
  constructor
  · intro h
    obtain ⟨hran, hlength⟩ := ran_of_runFrom .start h
    exact ⟨hran, by simpa using hlength⟩
  · rintro ⟨hran, hlength⟩
    have := hran.runFrom_eq 0
    rw [Nat.add_zero, hlength] at this
    exact this

/-- **A run that fails has run some entries, and failed at the next.** -/
theorem exists_of_run_error {e : Error} (h : d.run store base force t = .error e t') :
    ∃ done t₁ t₂, d.Ran store base force t done t₁ ∧ done.length < d.tables.length ∧
      d.runEntry store base force done done.length t₁ = .error e t₂ ∧
      t' = stubUnwritten store done t₂ := by
  simpa using exists_of_runFrom_error .start h

/-- **An entry that has been run has written the tasks of its table.** -/
theorem exists_of_runEntry {i : Nat}
    (h : d.runEntry store base force done i t = .ok g t') :
    ∃ table, d.tableAt base i = .ok table ∧ g.artifact = table.artifact ∧
      g.stubs.deferred = table.referenced.filter
        (· ∈ elsewhere d.declared (done.map (·.artifact.table)) table.name) ∧
      store.Writes force
        (table.tasks (elsewhere d.declared (done.map (·.artifact.table)) table.name)) t t' := by
  unfold runEntry at h
  cases he : d.entry i with
  | error e =>
    rw [he] at h
    exact nomatch h
  | ok entry =>
    rw [he] at h
    obtain ⟨table, hbuild, hartifact, hdeferred, hwrites⟩ := Store.exists_of_generate h
    have hname := Table.name_eq_of_build hbuild
    rw [pending_eq, ← hname] at hdeferred hwrites
    exact ⟨table, bind_eq_ok_iff.mpr ⟨entry, he, hbuild⟩, hartifact, hdeferred, hwrites⟩

/-- **An entry is run where the tasks of its table succeed.** -/
theorem exists_runEntry_of_writes {i : Nat} {table : Table} (hb : d.tableAt base i = .ok table)
    (h : store.Writes force
      (table.tasks (elsewhere d.declared (done.map (·.artifact.table)) table.name)) t t') :
    ∃ g, d.runEntry store base force done i t = .ok g t' := by
  obtain ⟨entry, he, hname, hbuild⟩ := exists_of_tableAt hb
  unfold runEntry
  rw [he]
  simp only
  rw [pending_eq, hname]
  rw [hname] at hbuild
  exact Store.exists_generate_of_writes hbuild h

/-- The names of what has been run are those of its tables. -/
theorem map_table_eq {tables : List Table}
    (h : done.map (·.artifact) = tables.map (·.artifact)) :
    done.map (·.artifact.table) = tables.map (·.name) := by
  have hnames := congrArg (List.map Artifact.table) h
  rwa [List.map_map, List.map_map] at hnames

/-- **Entries that have been run have built, and their plan succeeded.** -/
theorem exists_plan_of_ran (h : d.Ran store base force t done t') :
    ∃ tables, d.Builds base tables ∧ done.map (·.artifact) = tables.map (·.artifact) ∧
      done.flatMap (·.stubs.deferred) = deferrals d.declared [] tables ∧
      store.Writes force (plan d.declared [] tables) t t' := by
  induction h with
  | start => exact ⟨[], by simp [Builds], rfl, rfl, .nil t⟩
  | @entry done g t₁ t₂ h hg ih =>
    obtain ⟨tables, hbuilds, hartifacts, hdeferred, hwrites⟩ := ih
    obtain ⟨table, htable, hartifact, hdefer, hwrites'⟩ := exists_of_runEntry hg
    have hnames := map_table_eq hartifacts
    have hlength : done.length = tables.length := by
      simpa using congrArg List.length hartifacts
    rw [hnames] at hdefer hwrites'
    rw [hlength] at htable
    refine ⟨tables ++ [table], builds_concat.mpr ⟨hbuilds, htable⟩, ?_, ?_, ?_⟩
    · rw [List.map_append, List.map_append, hartifacts, List.map_singleton, hartifact,
        List.map_singleton]
    · rw [List.flatMap_append, hdeferred, deferrals_concat, List.flatMap_singleton, hdefer,
        List.nil_append]
    · rw [plan_concat, List.nil_append]
      exact hwrites.append hwrites'

/-- **Entries that build, and whose plan succeeds, are run.** -/
theorem exists_ran_of_plan {tables : List Table} (hb : d.Builds base tables)
    (h : store.Writes force (plan d.declared [] tables) t t') :
    ∃ done, d.Ran store base force t done t' ∧
      done.map (·.artifact) = tables.map (·.artifact) := by
  induction tables using List.reverseRecOn generalizing t' with
  | nil =>
    cases h
    exact ⟨[], .start, rfl⟩
  | append_singleton tables table ih =>
    obtain ⟨hbuilds, htable⟩ := builds_concat.mp hb
    rw [plan_concat, List.nil_append] at h
    obtain ⟨t₁, hfront, hback⟩ := h.exists_mid
    obtain ⟨done, hran, hartifacts⟩ := ih hbuilds hfront
    have hlength : done.length = tables.length := by
      simpa using congrArg List.length hartifacts
    rw [← hlength] at htable
    rw [← map_table_eq hartifacts] at hback
    obtain ⟨g, hg⟩ := exists_runEntry_of_writes htable hback
    obtain ⟨table', htable', hartifact, -⟩ := exists_of_runEntry hg
    obtain rfl := Except.ok.inj (htable.symm.trans htable')
    refine ⟨done ++ [g], hran.entry hg, ?_⟩
    rw [List.map_append, List.map_append, hartifacts, List.map_singleton, hartifact,
      List.map_singleton]

end Batch.Document

end Tablature
