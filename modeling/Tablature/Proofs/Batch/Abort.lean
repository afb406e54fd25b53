import Tablature.Proofs.Batch.Run
import Tablature.Proofs.Store.Ahead
import Tablature.Proofs.Store.Generate

/-!
# Proofs/Batch/Abort — a run that fails leaves what its first entries alone would

A run that fails at an entry has left the tables that later entries declare without stubs, and
writes these stubs at the end.  A run of the entries before it alone would have written them at
once.  So the two make the same writes in different orders:

    plan of all names, then the stubs that are missing   |   plan of the first names

The second follows the first write by write, with more stubs in its tree at every point (`Ahead`);
these are of tables that no entry before the failure writes, so they are never in the way.  What is
there at the end does not depend on the order (`settled`), and `run_take_of_abort` puts it together.
-/

namespace Tablature

open FileTree (SameAs)

namespace Batch.Document

variable {d : Document} {store : Store} {base : Options} {force : Force} {t t' u u' : FileTree}
  {loc : Location} {tables : List Table} {all front done : List String}

/-! ## Two plans

The plan of the run that fails, with the stubs that it writes in the end, and the plan of the first
entries alone make the same writes, but for their order. -/

/-- **Plans, followed ahead**: that of the first names is a step ahead of that of all names, by the
stubs of late tables, which `rest` makes up for. -/
theorem exists_steps_plan {rest : List Task} (hsub : front ⊆ all) (hdone : done ⊆ front)
    (htables : ∀ table ∈ tables, table.name ∈ front)
    (hrest : ∀ n ∈ deferrals all done tables, n ∉ front → .stub n ∈ rest)
    (h : Store.Ahead loc (fun n => n ∈ all ∧ n ∉ front) t u)
    (hs : store.Steps force loc (plan all done tables ++ rest) t t') :
    ∃ t₁ u₁, store.Steps force loc rest t₁ t' ∧
      Store.Ahead loc (fun n => n ∈ all ∧ n ∉ front) t₁ u₁ ∧
      store.Steps force loc (plan front done tables) u u₁ := by
  induction tables generalizing done t u with
  | nil => exact ⟨t, u, hs, h, .nil u⟩
  | cons table tables ih =>
    have hname : table.name ∈ front := htables table (by simp)
    rw [plan, List.append_assoc, Table.tasks, List.cons_append] at hs
    cases hs with
    | cons hl hf hp hs =>
      have hnow : ¬ ((Task.table table.artifact).name ∈ all ∧
          (Task.table table.artifact).name ∉ front) := fun hlate => hlate.2 hname
      obtain ⟨u₁, hput, h₁⟩ := h.exists_puts hnow hp
      have hstubs : ∀ n ∈ table.referenced, n ∈ elsewhere all done table.name →
          n ∉ elsewhere front done table.name → (n ∈ all ∧ n ∉ front) ∧
            .stub n ∈ plan all (done ++ [table.name]) tables ++ rest := by
        intro n hn hall hfront
        obtain ⟨hmem, hne, hnew⟩ := mem_elsewhere.mp hall
        have hlate : n ∉ front := fun hin => hfront (mem_elsewhere.mpr ⟨hin, hne, hnew⟩)
        refine ⟨⟨hmem, hlate⟩, List.mem_append_right _ (hrest n ?_ hlate)⟩
        exact List.mem_append_left _ (List.mem_filter.mpr ⟨hn, by simpa using hall⟩)
      have hsame : ∀ n ∈ table.referenced, n ∉ elsewhere all done table.name →
          n ∉ elsewhere front done table.name ∧ ¬ (n ∈ all ∧ n ∉ front) := by
        intro n hn hall
        constructor
        · intro hfront
          obtain ⟨hmem, hne, hnew⟩ := mem_elsewhere.mp hfront
          exact hall (mem_elsewhere.mpr ⟨hsub hmem, hne, hnew⟩)
        · rintro ⟨hmem, hlate⟩
          exact hall (mem_elsewhere.mpr
            ⟨hmem, fun e => hlate (e ▸ hname), fun hin => hlate (hdone hin)⟩)
      obtain ⟨t₂, u₂, hs₂, h₂, hu₂⟩ := h₁.exists_steps_stubs hstubs hsame hs
      have hdone' : done ++ [table.name] ⊆ front := by
        rw [List.append_subset]
        exact ⟨hdone, by simpa using hname⟩
      obtain ⟨t₃, u₃, hs₃, h₃, hu₃⟩ := ih hdone' (fun x hx => htables x (by simp [hx]))
        (fun n hn => hrest n (List.mem_append_right _ hn)) h₂ hs₂
      exact ⟨t₃, u₃, hs₃, h₃, .cons (h.liesAt hl) hf hput (hu₂.append hu₃)⟩

/-- **A table that is referred to is stubbed at once or left to another entry.** -/
theorem mem_plan_or_mem_deferrals {declared : List String} {table : Table} {n : String}
    (hm : table ∈ tables) (hn : n ∈ table.referenced) :
    .stub n ∈ plan declared done tables ∨ n ∈ deferrals declared done tables := by
  induction tables generalizing done with
  | nil => simp at hm
  | cons x tables ih =>
    rcases List.mem_cons.mp hm with rfl | hm
    · by_cases he : n ∈ elsewhere declared done table.name
      · exact .inr (List.mem_append_left _ (List.mem_filter.mpr ⟨hn, by simpa using he⟩))
      · exact .inl (List.mem_append_left _ (by simp [Table.tasks, hn, he]))
    · exact (ih hm).imp (List.mem_append_right _) (List.mem_append_right _)

/-- Only tables that are referred to are left to others. -/
theorem exists_of_mem_deferrals {declared : List String} {n : String}
    (h : n ∈ deferrals declared done tables) : ∃ table ∈ tables, n ∈ table.referenced := by
  induction tables generalizing done with
  | nil => simp [deferrals] at h
  | cons table tables ih =>
    rcases List.mem_append.mp h with h | h
    · exact ⟨table, by simp, (List.mem_filter.mp h).1⟩
    · obtain ⟨table', hm, hn⟩ := ih h
      exact ⟨table', by simp [hm], hn⟩

/-- The stubs that are missing after the first entries. -/
def missing (all : List String) (tables : List Table) : List Task :=
  ((deferrals all [] tables).filter (· ∉ tables.map (·.name))).map .stub

theorem tables_missing : Task.tables (missing all tables) = [] := Task.tables_map_stub _

/-- All tasks of a plan are of identifiers, and so are the stubs that are missing. -/
theorem Builds.isIdentifier_of_mem (hb : d.Builds base tables) {task : Task}
    (h : task ∈ plan all [] tables ++ missing all tables) : isIdentifier task.name.toList := by
  rcases List.mem_append.mp h with h | h
  · exact hb.isIdentifier_of_mem_plan h
  · obtain ⟨n, hn, rfl⟩ := List.mem_map.mp h
    obtain ⟨table, hm, hn⟩ := exists_of_mem_deferrals (List.mem_filter.mp hn).1
    obtain ⟨i, hi⟩ := hb.exists_of_mem hm
    obtain ⟨e, -, -, hbuild⟩ := exists_of_tableAt hi
    exact Table.isIdentifier_of_mem_referenced hbuild hn

/-- **A table that the first entries do not write has a stub in one plan if it has one in the
other.** -/
theorem stub_mem_iff {n : String} (hn : n ∉ tables.map (·.name)) :
    .stub n ∈ plan all [] tables ++ missing all tables ↔
      .stub n ∈ plan (tables.map (·.name)) [] tables := by
  have hreferred : ∀ {declared}, Task.stub n ∈ plan declared [] tables →
      ∃ table ∈ tables, n ∈ table.referenced := by
    intro declared hmem
    obtain ⟨table, hm, he | ⟨m, hm', he⟩⟩ := exists_of_mem_plan hmem
    · exact nomatch he
    · exact ⟨table, hm, Task.stub.inj he ▸ hm'⟩
  constructor
  · intro hmem
    obtain ⟨table, hm, hn'⟩ : ∃ table ∈ tables, n ∈ table.referenced := by
      rcases List.mem_append.mp hmem with hmem | hmem
      · exact hreferred hmem
      · obtain ⟨m, hm, he⟩ := List.mem_map.mp hmem
        exact Task.stub.inj he ▸ exists_of_mem_deferrals (List.mem_filter.mp hm).1
    exact stub_mem_plan hm hn' hn
  · intro hmem
    obtain ⟨table, hm, hn'⟩ := hreferred hmem
    refine List.mem_append.mpr ((mem_plan_or_mem_deferrals hm hn').imp_right fun hdefer => ?_)
    exact List.mem_map.mpr ⟨n, List.mem_filter.mpr ⟨hdefer, by simpa using hn⟩, rfl⟩

/-- **The two plans leave the same.** -/
theorem sameAs_of_plans (hs : store.Steps force loc (plan all [] tables ++ missing all tables) t t')
    (hu : store.Steps force loc (plan (tables.map (·.name)) [] tables) t u') :
    SameAs t' u' := by
  refine ⟨hu.here_eq.trans hs.here_eq.symm, fun l => ?_⟩
  by_cases hl : ∃ n, l = artifactAt loc n
  · obtain ⟨n, rfl⟩ := hl
    rw [hs.get?_artifactAt, hu.get?_artifactAt]
    unfold settled
    rw [Task.tables_append, tables_plan, tables_plan, tables_missing, List.append_nil]
    cases hlast : lastNamed n (tables.map (·.artifact)) with
    | some a => rfl
    | none =>
      have hn : n ∉ tables.map (·.name) := by
        intro hn
        obtain ⟨table, hm, rfl⟩ := List.mem_map.mp hn
        exact lastNamed_eq_none_iff.mp hlast _ (List.mem_map_of_mem hm) rfl
      simp only [stub_mem_iff hn]
  · have hne : ∀ task : Task, l ≠ artifactAt loc task.name := fun task he => hl ⟨_, he⟩
    rw [hs.get?_of_ne fun task _ => hne task, hu.get?_of_ne fun task _ => hne task]

/-! ## Runs that meet no fault of the file system

A run may fail because an entry is wrong or because its table's place is taken, and still write
every stub.  Only a fault of the file system keeps a stub from being written, and such runs are left
out. -/

/-- Is each stub of some tables that were not written written now, without a fault? -/
def stubsQuiet (store : Store) (done : List Generated) (t : FileTree) : List String → Bool
  | [] => true
  | target :: targets =>
    if isDone done target then stubsQuiet store done t targets
    else
      match store.writeStub target t with
      | .ok _ t' => stubsQuiet store done t' targets
      | .error _ _ => false

-- stated here since the equations that unfolding would make look into the write itself
theorem stubMissing_cons (store : Store) (done : List Generated) (t : FileTree) (target : String)
    (targets : List String) :
    stubMissing store done t (target :: targets) =
      if isDone done target then stubMissing store done t targets
      else
        match store.writeStub target t with
        | .ok _ t' => stubMissing store done t' targets
        | .error _ t' => stubMissing store done t' targets := by
  rfl

theorem stubsQuiet_cons (store : Store) (done : List Generated) (t : FileTree) (target : String)
    (targets : List String) :
    stubsQuiet store done t (target :: targets) =
      if isDone done target then stubsQuiet store done t targets
      else
        match store.writeStub target t with
        | .ok _ t' => stubsQuiet store done t' targets
        | .error _ _ => false := by
  rfl

/-- Do so many entries from a position on, and the stubs after a failure, meet no fault of the file
system? -/
def quietFrom (d : Document) (store : Store) (base : Options) (force : Force) :
    (count i : Nat) → (done : List Generated) → FileTree → Bool
  | 0, _, _, _ => true
  | count + 1, i, done, t =>
    match d.runEntry store base force done i t with
    | .ok g t' => d.quietFrom store base force count (i + 1) (done ++ [g]) t'
    | .error (.file _ _) _ => false
    | .error _ t' => stubsQuiet store done t' (done.flatMap (·.stubs.deferred))

/-- Does a run meet no fault of the file system? -/
def isQuiet (d : Document) (store : Store) (base : Options) (force : Force) (t : FileTree) : Bool :=
  d.quietFrom store base force d.tables.length 0 [] t

/-- Entries that have been run met no fault, so that only those that follow are asked. -/
theorem Ran.quietFrom_eq {done : List Generated} (h : d.Ran store base force t done t')
    (count : Nat) :
    d.quietFrom store base force (done.length + count) 0 [] t =
      d.quietFrom store base force count done.length done t' := by
  induction h generalizing count with
  | start => rw [List.length_nil, Nat.zero_add]
  | @entry done g t₁ t₂ h hg ih =>
    rw [List.length_append, List.length_singleton, Nat.add_assoc, Nat.add_comm 1 count, ih,
      quietFrom, hg]

/-- A run that meets no fault fails for another reason, and then writes its stubs quietly. -/
theorem of_quietFrom_error {count i : Nat} {done : List Generated} {e : Error}
    (h : d.runEntry store base force done i t = .error e t')
    (hq : d.quietFrom store base force (count + 1) i done t = true) :
    (∀ path fault, e ≠ .file path fault) ∧
      stubsQuiet store done t' (done.flatMap (·.stubs.deferred)) = true := by
  rw [quietFrom, h] at hq
  cases e with
  | file path fault => exact nomatch hq
  | _ => exact ⟨nofun, hq⟩

/-- **The stubs of tables that were not written are tasks**: they are tried one after another, and
if they meet no fault, all of them succeed. -/
theorem stubMissing_tasks (force : Force) (done : List Generated) (targets : List String)
    (t : FileTree) :
    stubMissing store done t targets =
        store.tryAll force ((targets.filter (· ∉ done.map (·.artifact.table))).map .stub) t ∧
      (stubsQuiet store done t targets = true →
        store.Writes force ((targets.filter (· ∉ done.map (·.artifact.table))).map .stub) t
          (stubMissing store done t targets)) := by
  induction targets generalizing t with
  | nil => exact ⟨rfl, fun _ => .nil t⟩
  | cons target targets ih =>
    rw [stubMissing_cons, stubsQuiet_cons, isDone_eq_decide]
    by_cases hd : target ∈ done.map (·.artifact.table)
    · rw [decide_eq_true hd, List.filter_cons_of_neg (by simpa using hd)]
      exact ih t
    · rw [decide_eq_false hd, List.filter_cons_of_pos (by simpa using hd), List.map_cons,
        Store.tryAll]
      change _ = store.tryAll force _ (treeAfter (store.writeStub target t)) ∧ _
      cases hw : store.writeStub target t with
      | ok o t₁ =>
        obtain ⟨htried, hwrites⟩ := ih t₁
        exact ⟨htried, fun hq => .cons hw (hwrites hq)⟩
      | error e t₁ => exact ⟨(ih t₁).1, nofun⟩

/-- The stubs that are missing are tried one after another. -/
theorem stubMissing_eq_tryAll (force : Force) (done : List Generated) (targets : List String)
    (t : FileTree) :
    stubMissing store done t targets =
      store.tryAll force ((targets.filter (· ∉ done.map (·.artifact.table))).map .stub) t :=
  (stubMissing_tasks force done targets t).1

/-- Stubs that meet no fault are written one after another. -/
theorem writes_of_stubsQuiet (force : Force) {done : List Generated} {targets : List String}
    (h : stubsQuiet store done t targets = true) :
    store.Writes force ((targets.filter (· ∉ done.map (·.artifact.table))).map .stub) t
      (stubMissing store done t targets) :=
  (stubMissing_tasks force done targets t).2 h

/-! ## An entry that fails -/

/-- **An entry that fails without a fault of the file system** has written nothing.  At most it has
made the store's directory, and found that its table's place there is taken. -/
theorem of_runEntry_error {done : List Generated} {i : Nat} {e : Error}
    (h : d.runEntry store base force done i t = .error e t')
    (he : ∀ path fault, e ≠ .file path fault) :
    t' = t ∨ FileTree.makeDirs store.dir t = .ok () t' ∧
      ∃ loc table, store.LiesAt t' loc ∧ t'.get? (artifactAt loc table) ≠ none := by
  unfold runEntry at h
  cases hentry : d.entry i with
  | error e' =>
    rw [hentry] at h
    exact .inl (EStateM.Result.error.inj h).2.symm
  | ok entry =>
    rw [hentry] at h
    rcases Store.of_generate_error h he with ⟨-, rfl⟩ | ⟨table, hbuild, hwrite⟩
    · exact .inl rfl
    · obtain ⟨-, hm, loc, hl, hget⟩ :=
        Store.taken_of_write_error (Table.isIdentifier_of_build hbuild) hwrite he
      exact .inr ⟨hm, loc, _, hl, hget⟩

/-! ## The first entries alone

The document that is cut before the entry that fails builds the same tables and declares no later
ones. -/

/-- The document of the first entries. -/
def take (d : Document) (k : Nat) : Document := { d with tables := d.tables.take k }

/-- The first entries build the same tables without the rest of the document. -/
theorem Builds.take (hb : d.Builds base tables) : (d.take tables.length).Builds base tables := by
  intro i table hi
  have hlt : i < tables.length := (List.getElem?_eq_some_iff.mp hi).1
  have hentry : (d.take tables.length).entry i = d.entry i := by
    unfold entry Document.take
    rw [List.getElem?_take_of_lt hlt]
  rw [← hb i table hi, tableAt, tableAt, hentry]
  rfl

/-- There are no more tables than entries. -/
theorem Builds.length_le (hb : d.Builds base tables) : tables.length ≤ d.tables.length := by
  cases hlast : tables.getLast? with
  | none => simp [List.getLast?_eq_none_iff.mp hlast]
  | some table =>
    obtain ⟨front, rfl⟩ := List.getLast?_eq_some_iff.mp hlast
    obtain ⟨e, he, -⟩ := exists_of_tableAt (builds_concat.mp hb).2
    obtain ⟨v, hv, -⟩ := exists_of_entry he
    have hlt := (List.getElem?_eq_some_iff.mp hv).1
    rw [List.length_append, List.length_singleton]
    omega

/-- The first entries declare the tables they build, and no other. -/
theorem Builds.declared_take_eq (hb : d.Builds base tables) :
    (d.take tables.length).declared = tables.map (·.name) := by
  refine hb.take.declared_eq ?_
  simp [Document.take, hb.length_le]

theorem Builds.map_name_subset (hb : d.Builds base tables) : tables.map (·.name) ⊆ d.declared := by
  rw [← hb.declared_take]
  exact (List.Sublist.filterMap _ (List.take_sublist _ _)).subset

/-- **The plan of the first entries alone succeeds where that of all entries, and then the stubs
that are missing, do**; and it leaves the same. -/
theorem exists_run_take (hb : d.Builds base tables)
    (h : store.Writes force (plan d.declared [] tables ++ missing d.declared tables) t t')
    (hne : tables ≠ []) :
    ∃ gs u, (d.take tables.length).run store base force t = .ok gs u ∧
      gs.map (·.artifact) = tables.map (·.artifact) ∧ SameAs t' u := by
  have hid : ∀ task ∈ plan d.declared [] tables ++ missing d.declared tables,
      isIdentifier task.name.toList := fun task => hb.isIdentifier_of_mem
  obtain ⟨t₀, loc, hm, hsteps⟩ :=
    (Store.writes_iff_steps (List.append_ne_nil_of_left_ne_nil (plan_ne_nil hne) _) hid).mp h
  have hrest : ∀ n ∈ deferrals d.declared [] tables, n ∉ tables.map (·.name) →
      Task.stub n ∈ missing d.declared tables := fun n hn hnew =>
    List.mem_map.mpr ⟨n, List.mem_filter.mpr ⟨hn, by simpa using hnew⟩, rfl⟩
  obtain ⟨t₁, u, -, -, hu⟩ := exists_steps_plan hb.map_name_subset (List.nil_subset _)
    (fun table hmem => List.mem_map_of_mem hmem) hrest (Store.Ahead.refl t₀) hsteps
  have hwrites : store.Writes force (plan (d.take tables.length).declared [] tables) t u := by
    rw [hb.declared_take_eq]
    exact (Store.writes_iff_steps (plan_ne_nil hne)
      fun task hm => hb.isIdentifier_of_mem_plan hm).mpr ⟨t₀, loc, hm, hu⟩
  obtain ⟨gs, hran, hgs⟩ := exists_ran_of_plan hb.take hwrites
  refine ⟨gs, u, run_eq_ok_iff.mpr ⟨hran, ?_⟩, hgs, sameAs_of_plans hsteps hu⟩
  have hlength : gs.length = tables.length := by simpa using congrArg List.length hgs
  rw [hlength, Document.take, List.length_take, Nat.min_eq_left hb.length_le]

/-- **A run that fails at its first entry** leaves the tree as it was, or with the directories on
the way to a store whose path goes up. -/
theorem sameAs_of_first_error {e : Error}
    (h : d.runEntry store base force [] 0 t = .error e t')
    (he : ∀ path fault, e ≠ .file path fault) :
    SameAs t' t ∨
      ".." ∈ Path.stepsOf store.dir.toList ∧ FileTree.makeDirs store.dir t = .ok () t' := by
  rcases of_runEntry_error h he with rfl | ⟨hm, loc, table, ⟨p, hp, hl⟩, hget⟩
  · exact .inl (SameAs.refl t')
  · by_cases hup : ".." ∈ Path.stepsOf store.dir.toList
    · exact .inr ⟨hup, hm⟩
    · -- what is found in the store's directory shows that this is not new
      have hmakes := FileTree.makes_of_makeDirs hp (Path.steps_of_ofDir hp ▸ hup) hm hl
      obtain rfl := hmakes.eq_of_below hget
      exact .inl (SameAs.refl t')

/-- **An entry after others that fails** leaves the tree as it was: the store's directory has been
made before. -/
theorem eq_of_later_error {i : Nat} {done : List Generated} {e : Error} {tasks : List Task}
    (hne : tasks ≠ []) (hid : ∀ task ∈ tasks, isIdentifier task.name.toList)
    (hw : store.Writes force tasks u t) (h : d.runEntry store base force done i t = .error e t')
    (he : ∀ path fault, e ≠ .file path fault) : t' = t := by
  rcases of_runEntry_error h he with hsame | ⟨hm, -⟩
  · exact hsame
  · obtain ⟨t₀, loc, -, hsteps⟩ := (Store.writes_iff_steps hne hid).mp hw
    rcases hsteps.liesAt_or_replaced (hsteps.liesAt hne) with hl | ⟨⟨p, hp, hblocked⟩, -⟩
    · exact (EStateM.Result.ok.inj (hl.makeDirs_eq.symm.trans hm)).2.symm
    · obtain ⟨fault, hno⟩ := FileTree.makeDirs_of_blocked hp hblocked
      exact nomatch hno.symm.trans hm

/-- A run that meets no fault of the file system fails for another reason, and writes all the stubs
that are missing. -/
theorem Ran.of_isQuiet {done : List Generated} {e : Error} {t₁ t₂ : FileTree}
    (hran : d.Ran store base force t done t₁) (hlt : done.length < d.tables.length)
    (h : d.runEntry store base force done done.length t₁ = .error e t₂)
    (hq : d.isQuiet store base force t = true) :
    (∀ path fault, e ≠ .file path fault) ∧
      stubsQuiet store done t₂ (done.flatMap (·.stubs.deferred)) = true := by
  obtain ⟨count, hcount⟩ : ∃ count, d.tables.length = done.length + (count + 1) :=
    ⟨d.tables.length - done.length - 1, by omega⟩
  rw [isQuiet, hcount, hran.quietFrom_eq] at hq
  exact of_quietFrom_error h hq

/-- **A run that fails leaves what its first entries alone would leave.** Here an entry fails before
its table is written, and no write meets a fault of the file system. Then the entries before it, as
a document of their own, run from the same tree to the same artifacts and the same tree at the end.
The one exception is a failure at the very first entry, in a store whose path goes up: the
directories that were made on the way there stay. -/
theorem run_take_of_abort {e : Error}
    (h : d.run store base force t = .error e t') (hq : d.isQuiet store base force t = true) :
    ∃ done t₁ t₂, d.Ran store base force t done t₁ ∧ done.length < d.tables.length ∧
      d.runEntry store base force done done.length t₁ = .error e t₂ ∧
      ∃ gs u, (d.take done.length).run store base force t = .ok gs u ∧
        gs.map (·.artifact) = done.map (·.artifact) ∧
        (SameAs t' u ∨ done = [] ∧ ".." ∈ Path.stepsOf store.dir.toList ∧ u = t ∧
          FileTree.makeDirs store.dir t = .ok () t') := by
  obtain ⟨done, t₁, t₂, hran, hlt, hfail, rfl⟩ := exists_of_run_error h
  refine ⟨done, t₁, t₂, hran, hlt, hfail, ?_⟩
  obtain ⟨he, hstubs⟩ := hran.of_isQuiet hlt hfail hq
  obtain ⟨tables, hb, hartifacts, hdeferred, hwrites⟩ := exists_plan_of_ran hran
  have hlength : done.length = tables.length := by simpa using congrArg List.length hartifacts
  by_cases hne : tables = []
  · subst hne
    obtain rfl := List.length_eq_zero_iff.mp hlength
    cases hwrites
    refine ⟨[], t, run_eq_ok_iff.mpr ⟨.start, rfl⟩, rfl, ?_⟩
    exact (sameAs_of_first_error hfail he).imp id fun ⟨hup, hm⟩ => ⟨rfl, hup, rfl, hm⟩
  · obtain rfl : t₂ = t₁ := eq_of_later_error (plan_ne_nil hne)
      (fun task hmem => hb.isIdentifier_of_mem_plan hmem) hwrites hfail he
    have hmissing := writes_of_stubsQuiet force hstubs
    rw [hdeferred, map_table_eq hartifacts] at hmissing
    obtain ⟨gs, u, hrun, hgs, hsame⟩ := exists_run_take hb (hwrites.append hmissing) hne
    rw [stubUnwritten, hdeferred, hlength, hartifacts]
    exact ⟨gs, u, hrun, hgs, .inl hsame⟩

/-- Orders refer to users, whose fields are no list. -/
def brokenShop : Document where
  outDir := none
  onDelete := none
  onUpdate := none
  tables :=
    [.object [("name", .string "orders"), ("fields", .array
        [.object [("name", .string "user"), ("fk", .string "users")],
          .object [("name", .string "item"), ("type", .string "fk(items)")]])],
      .object [("name", .string "users"), ("fields", .string "none")]]

/-- A shop whose second entry is broken leaves what its first alone would. -/
theorem run_take_brokenShop :
    ∃ e t', brokenShop.run ⟨"db"⟩ {} {} bareTree = .error e t' ∧
      brokenShop.isQuiet ⟨"db"⟩ {} {} bareTree = true ∧
      ∃ (done gs : List Generated) (u : FileTree),
        (brokenShop.take done.length).run ⟨"db"⟩ {} {} bareTree = .ok gs u ∧
          gs.map (·.artifact) = done.map (·.artifact) ∧ SameAs t' u := by
  have hquiet : brokenShop.isQuiet ⟨"db"⟩ {} {} bareTree = true := by decide +kernel
  obtain ⟨e, t', hrun, -⟩ : ∃ e t',
      brokenShop.run ⟨"db"⟩ {} {} bareTree = .error e t' ∧ true = true :=
    exists_error_of_check (fun _ _ => true) (by decide +kernel)
  obtain ⟨done, t₁, t₂, -, -, -, gs, u, htake, hgs, hsame | ⟨-, hup, -⟩⟩ :=
    run_take_of_abort hrun hquiet
  · exact ⟨e, t', hrun, hquiet, done, gs, u, htake, hgs, hsame⟩
  · exact absurd hup (by decide)

/-- **A run that fails may leave a directory that its first entries alone would not.** There are no
entries before the first; but the way to the store leads through a directory that has the name of
the artifact, and this is made before its place is found to be taken. -/
theorem exists_abort_leaving_directory :
    ∃ e t', users.run ⟨"users.json/.."⟩ {} {} bareTree = .error e t' ∧
      users.isQuiet ⟨"users.json/.."⟩ {} {} bareTree = true ∧
      (users.take 0).run ⟨"users.json/.."⟩ {} {} bareTree = .ok [] bareTree ∧
      ¬ SameAs t' bareTree := by
  obtain ⟨e, t', hrun, hdir⟩ : ∃ e t',
      users.run ⟨"users.json/.."⟩ {} {} bareTree = .error e t' ∧
        decide (t'.get? ["work", "users.json"] = some .dir) = true :=
    exists_error_of_check (fun _ t' => decide (t'.get? ["work", "users.json"] = some .dir))
      (by decide +kernel)
  refine ⟨e, t', hrun, by decide +kernel, rfl, fun hsame => ?_⟩
  have hget := hsame.2 ["work", "users.json"]
  rw [of_decide_eq_true hdir] at hget
  exact absurd hget (by decide)

end Batch.Document

end Tablature
