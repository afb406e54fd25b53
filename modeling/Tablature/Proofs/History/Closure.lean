import Tablature.Proofs.History

/-!
# Proofs/History/Closure — nothing that was written refers to what is missing

A table refers to other tables, and perhaps to itself.  When its artifact is written, each of these
is there already, or is given a stub, or is left to a later entry of the same document; and if that
entry never comes, it is given a stub after all.

So a call that meets no fault of the file system makes its writes for all that its tables need
(`Call.exists_closedTasks`), or writes nothing.  No later call takes an entry away: it adds to the
store's directory, or replaces in place.  `targets_present` follows by induction along the calls.

There is one way to lose the entries without removing them: a forced table in the place of a link
that the store's directory is reached by.  From then on no write gets to the store
(`Call.after_of_isBlockedIn`), and the entries are where they were (`Call.CutsOff`).
-/

namespace Tablature

open FileTree (Grows)

/-! ## What a table needs -/

namespace Table

/-- The tables that a table needs: those its columns refer to, and itself. -/
def Needs (table : Table) (u : String) : Prop :=
  u = table.name ∨ ∃ c ∈ table.columns, ∃ r ∈ c.reference, r.table = u

instance (table : Table) (u : String) : Decidable (table.Needs u) :=
  inferInstanceAs (Decidable (u = table.name ∨ ∃ c ∈ table.columns, ∃ r ∈ c.reference, r.table = u))

theorem Needs.eq_or_mem {table : Table} {u : String} (h : table.Needs u) :
    u = table.name ∨ u ∈ table.referenced := by
  rcases h with rfl | ⟨c, hc, r, hr, rfl⟩
  · exact .inl rfl
  · by_cases hself : r.table = table.name
    · exact .inl hself
    · right
      rw [referenced, mem_insertAll]
      refine .inr (List.mem_filter.mpr ⟨List.mem_filterMap.mpr ⟨c, hc, ?_⟩, by simpa using hself⟩)
      rw [Option.mem_def.mp hr]
      rfl

/-- The writes for a table with nothing elsewhere are for all that it needs. -/
theorem exists_task_of_needs {table : Table} {u : String} (h : table.Needs u) :
    ∃ task ∈ table.tasks [], task.name = u := by
  rcases h.eq_or_mem with rfl | hu
  · exact ⟨.table table.artifact, by simp [tasks], rfl⟩
  · exact ⟨.stub u, by simp [tasks, hu], rfl⟩

end Table

/-! ## Calls that meet no fault of the file system

Such a call makes the writes for all that its tables need, the stubs after a failure included, or it
writes nothing. -/

/-- Does a job write tables, and leave none of their references to others? -/
def Job.isClosing : Job → Bool
  | .generate _ _ _ _ elsewhere => elsewhere.isEmpty
  | .ensureStubs _ _ => false
  | .batch _ _ _ => true

/-- A run gets to an entry and writes the artifact of its table. -/
def Batch.Document.WritesTable (d : Document) (store : Store) (base : Options) (force : Force)
    (t : FileTree) (table : Table) : Prop :=
  ∃ done t₁ o t₂, d.Ran store base force t done t₁ ∧ d.tableAt base done.length = .ok table ∧
    store.write table.artifact (.primary force) t₁ = .ok o t₂

namespace Call

/-- Does a call meet no fault of the file system? -/
def isQuiet (c : Call) (t : FileTree) : Bool :=
  match c.job with
  | .generate name tokens opts force elsewhere =>
    match c.store.generate name tokens opts force elsewhere t with
    | .error (.file _ _) _ => false
    | _ => true
  | .ensureStubs table elsewhere =>
    match c.store.ensureStubs table elsewhere t with
    | .error (.file _ _) _ => false
    | _ => true
  | .batch d base force => d.isQuiet c.store base force t

/-- A call writes the artifact of a table that it was asked for. -/
def Wrote (c : Call) (t : FileTree) (table : Table) : Prop :=
  match c.job with
  | .generate name tokens opts force _ => Table.build name tokens opts = .ok table ∧
      ∃ o t₁, c.store.write table.artifact (.primary force) t = .ok o t₁
  | .ensureStubs _ _ => False
  | .batch d base force => d.WritesTable c.store base force t table

end Call

/-- The writes of a call: they all succeed, or there are none, and at most the store's directory is
made; and there is one for each table that a table written by it needs. -/
structure ClosedTasks (s : Store) (force : Force) (wrote : Table → Prop) (t t' : FileTree)
    (tasks : List Task) : Prop where
  isIdentifier : ∀ task ∈ tasks, isIdentifier task.name.toList
  writes : s.Writes force tasks t t' ∨ tasks = [] ∧ FileTree.makeDirs s.dir t = .ok () t'
  closed : ∀ table, wrote table → ∀ u, table.Needs u → ∃ task ∈ tasks, task.name = u

theorem Store.isIdentifier_of_mem_tasks {name : String} {tokens : List String} {opts : Options}
    {table : Table} {elsewhere : List String} (hb : Table.build name tokens opts = .ok table)
    {task : Task} (hm : task ∈ table.tasks elsewhere) : isIdentifier task.name.toList := by
  rcases List.mem_cons.mp hm with rfl | hm
  · exact Table.isIdentifier_of_build hb
  · obtain ⟨u, hu, rfl⟩ := List.mem_map.mp hm
    exact Table.isIdentifier_of_mem_referenced hb (List.mem_filter.mp hu).1

/-- **Generating a table**, with nothing elsewhere. -/
theorem Store.exists_closedTasks_generate {s : Store} {name : String} {tokens : List String}
    {opts : Options} {force : Force} {t : FileTree}
    (hq : ∀ path fault t', s.generate name tokens opts force [] t ≠ .error (.file path fault) t') :
    ∃ tasks, ClosedTasks s force
      (fun table => Table.build name tokens opts = .ok table ∧
        ∃ o t₁, s.write table.artifact (.primary force) t = .ok o t₁)
      t (treeAfter (s.generate name tokens opts force [] t)) tasks := by
  cases hrun : s.generate name tokens opts force [] t with
  | ok g t' =>
    obtain ⟨table, hb, -, -, hwrites⟩ := exists_of_generate hrun
    refine ⟨table.tasks [], fun task => isIdentifier_of_mem_tasks hb, .inl hwrites, ?_⟩
    rintro table' ⟨hb', -⟩ u hu
    obtain rfl := Except.ok.inj (hb.symm.trans hb')
    exact Table.exists_task_of_needs hu
  | error e t' =>
    have he : ∀ path fault, e ≠ .file path fault := by
      rintro path fault rfl
      exact hq path fault t' hrun
    rcases of_generate_error hrun he with ⟨⟨e', hb⟩, rfl⟩ | ⟨table, hb, hw⟩
    · refine ⟨[], by simp, .inl (.nil t'), ?_⟩
      rintro table ⟨hb', -⟩
      exact nomatch hb.symm.trans hb'
    · obtain ⟨-, hm, -⟩ := taken_of_write_error (Table.isIdentifier_of_build hb) hw he
      refine ⟨[], by simp, .inr ⟨rfl, hm⟩, ?_⟩
      rintro table' ⟨hb', o, t₁, hw'⟩
      obtain rfl := Except.ok.inj (hb.symm.trans hb')
      exact nomatch hw.symm.trans hw'

namespace Batch.Document

variable {d : Document} {store : Store} {base : Options} {force : Force} {t t₁ t₂ : FileTree}
  {done : List Generated} {tables : List Table} {table : Table}

/-- **Where a run fails without a fault of the file system, the table has not been written.** -/
theorem Ran.length_lt_of_write {done' : List Generated} {t₁' t₂' : FileTree} {e : Error}
    {o : Outcome} (h : d.Ran store base force t done t₁)
    (hfail : d.runEntry store base force done done.length t₁ = .error e t₂)
    (he : ∀ path fault, e ≠ .file path fault) (h' : d.Ran store base force t done' t₁')
    (htable : d.tableAt base done'.length = .ok table)
    (hw : store.write table.artifact (.primary force) t₁' = .ok o t₂') :
    done'.length < done.length := by
  by_contra hle
  rcases Nat.lt_or_eq_of_le (Nat.not_lt.mp hle) with hlt | heq
  · obtain ⟨front, t₀, g, t₃, hfront, hlength, hg⟩ := h'.exists_of_lt hlt
    obtain ⟨rfl, rfl⟩ := hfront.unique h hlength
    exact nomatch hg.symm.trans hfail
  · obtain ⟨rfl, rfl⟩ := h.unique h' heq
    obtain ⟨entry, hentry, -, hb⟩ := exists_of_tableAt htable
    unfold runEntry at hfail
    rw [hentry] at hfail
    rcases Store.of_generate_error hfail he with ⟨⟨e', hb'⟩, -⟩ | ⟨table', hb', hw'⟩
    · exact nomatch hb.symm.trans hb'
    · obtain rfl := Except.ok.inj (hb.symm.trans hb')
      exact nomatch hw.symm.trans hw'

/-- So the tables that have been written are those of the entries that are done. -/
theorem Ran.mem_tables_of_writesTable {e : Error} (h : d.Ran store base force t done t₁)
    (hfail : d.runEntry store base force done done.length t₁ = .error e t₂)
    (he : ∀ path fault, e ≠ .file path fault) (hb : d.Builds base tables)
    (hlength : done.length = tables.length) (hw : d.WritesTable store base force t table) :
    table ∈ tables := by
  obtain ⟨done', t₁', o, t₂', hran', htable, hw⟩ := hw
  have hlt := hlength ▸ h.length_lt_of_write hfail he hran' htable hw
  have hat := hb _ _ (List.getElem?_eq_getElem hlt)
  exact Except.ok.inj (htable.symm.trans hat) ▸ List.getElem_mem hlt

/-- **What the first entries need is written by their plan, or missing after it.** -/
theorem exists_task_of_needs {all : List String} {u : String} (hm : table ∈ tables)
    (hu : table.Needs u) : ∃ task ∈ plan all [] tables ++ missing all tables, task.name = u := by
  have hplan : ∀ {n}, n ∈ tables.map (·.name) →
      ∃ task ∈ plan all [] tables ++ missing all tables, task.name = n := by
    intro n hn
    obtain ⟨task, htask, hname⟩ := exists_task_of_mem_map hn
    exact ⟨task, List.mem_append_left _ htask, hname⟩
  rcases hu.eq_or_mem with rfl | hu
  · exact hplan (List.mem_map_of_mem hm)
  · by_cases hn : u ∈ tables.map (·.name)
    · exact hplan hn
    · refine ⟨.stub u, List.mem_append.mpr ?_, rfl⟩
      refine (mem_plan_or_mem_deferrals hm hu).imp_right fun hdefer => ?_
      exact List.mem_map.mpr ⟨u, List.mem_filter.mpr ⟨hdefer, by simpa using hn⟩, rfl⟩

/-- **A run that succeeds** has its plan as writes. -/
theorem exists_closedTasks_of_run {gs : List Generated}
    (hrun : d.run store base force t = .ok gs t₁) :
    ∃ tasks, ClosedTasks store force (d.WritesTable store base force t) t t₁ tasks := by
  obtain ⟨hran, hlength⟩ := run_eq_ok_iff.mp hrun
  obtain ⟨tables, hb, hg, -, hwrites⟩ := exists_plan_of_ran hran
  have hlength : tables.length = d.tables.length := by
    rw [← hlength]
    simpa using (congrArg List.length hg).symm
  refine ⟨plan d.declared [] tables, fun task => hb.isIdentifier_of_mem_plan, .inl hwrites, ?_⟩
  rintro table ⟨done, t₂, o, t₃, -, htable, -⟩ u hu
  refine hb.exists_task hlength ?_
  obtain ⟨entry, hentry, hname, -⟩ := exists_of_tableAt htable
  rcases hu.eq_or_mem with rfl | hu
  · exact .inl (hname ▸ mem_declared_of_entry hentry)
  · exact .inr ⟨_, table, htable, hu⟩

/-- **A run that fails** has the plan of its first entries, and stubs for what is missing after it.
If it fails at the very first, there are no writes. -/
theorem exists_closedTasks_of_run_error {e : Error} (hq : d.isQuiet store base force t = true)
    (hrun : d.run store base force t = .error e t₁) :
    ∃ tasks, ClosedTasks store force (d.WritesTable store base force t) t t₁ tasks := by
  obtain ⟨done, t₂, t₃, hran, hlt, hfail, rfl⟩ := exists_of_run_error hrun
  obtain ⟨he, hstubs⟩ := hran.of_isQuiet hlt hfail hq
  obtain ⟨tables, hb, hg, hdeferred, hwrites⟩ := exists_plan_of_ran hran
  have hlength : done.length = tables.length := by simpa using congrArg List.length hg
  have hmem : ∀ table, d.WritesTable store base force t table → table ∈ tables := fun table =>
    hran.mem_tables_of_writesTable hfail he hb hlength
  by_cases hne : tables = []
  · subst hne
    obtain rfl := List.length_eq_zero_iff.mp hlength
    cases hwrites
    refine ⟨[], by simp, ?_, fun table hw => nomatch hmem table hw⟩
    rcases of_runEntry_error hfail he with rfl | ⟨hm, -⟩
    · exact .inl (.nil t₃)
    · exact .inr ⟨rfl, hm⟩
  · obtain rfl : t₃ = t₂ := eq_of_later_error (plan_ne_nil hne)
      (fun task hm => hb.isIdentifier_of_mem_plan hm) hwrites hfail he
    have hmissing := writes_of_stubsQuiet force hstubs
    rw [hdeferred, map_table_eq hg] at hmissing
    refine ⟨plan d.declared [] tables ++ missing d.declared tables,
      fun task => hb.isIdentifier_of_mem, .inl ?_,
      fun table hw u hu => exists_task_of_needs (hmem table hw) hu⟩
    rw [stubUnwritten, hdeferred]
    exact hwrites.append hmissing

end Batch.Document

namespace Call

variable {c : Call} {t : FileTree} {loc : Location} {u : String}

/-- **A call that meets no fault of the file system** makes its writes for all that its tables need,
or none. -/
theorem exists_closedTasks (hc : c.job.isClosing = true) (hq : c.isQuiet t = true) :
    ∃ tasks, ClosedTasks c.store c.job.force (c.Wrote t) t (c.after t) tasks := by
  obtain ⟨store, job⟩ := c
  cases job with
  | generate name tokens opts force elsewhere =>
    obtain rfl : elsewhere = [] := List.isEmpty_iff.mp hc
    refine Store.exists_closedTasks_generate fun path fault t' he => ?_
    change store.generate name tokens opts force [] t = _ at he
    simp [isQuiet, he] at hq
  | ensureStubs table elsewhere => exact nomatch hc
  | batch d base force =>
    cases hrun : d.run store base force t with
    | ok gs t' =>
      simp only [after, hrun, treeAfter_ok]
      exact Batch.Document.exists_closedTasks_of_run hrun
    | error e t' =>
      simp only [after, hrun, treeAfter_error]
      exact Batch.Document.exists_closedTasks_of_run_error hq hrun

/-! ## The store's directory during calls

A call changes the way to a store only by putting a file in the place of a link, and this cuts the
store off for good. -/

/-- A call cuts off the artifacts of a store, the one of `u` among them: it is forced, and puts a
file in the place of a link that the store's directory is reached by. -/
def CutsOff (c : Call) (u : String) (loc : Location) (t : FileTree) : Prop :=
  c.job.force.isSet = true ∧ ∃ t₁ n target bytes,
    FileTree.makeDirs c.store.dir t = .ok () t₁ ∧
    t₁.Names (c.store.pathFor u) (artifactAt loc u) ∧
    t₁.Names (c.store.pathFor n) (artifactAt loc n) ∧
    t₁.get? (artifactAt loc n) = some (.link target) ∧
    (c.after t).get? (artifactAt loc n) = some (.file bytes) ∧ c.store.IsBlockedIn (c.after t)

/-- **After its writes, the store's directory is where it was, or it is cut off.** -/
theorem liesAt_or_cutsOff {tasks : List Task} {t₁ : FileTree}
    (hm : FileTree.makeDirs c.store.dir t = .ok () t₁) (hl : c.store.LiesAt t₁ loc)
    (hid : ∀ task ∈ tasks, isIdentifier task.name.toList)
    (hs : c.store.Steps c.job.force loc tasks t₁ (c.after t)) (hu : isIdentifier u.toList)
    (hf : c.store.Fits u) : c.store.LiesAt (c.after t) loc ∨ c.CutsOff u loc t := by
  rcases hs.liesAt_or_replaced hl with hl' | ⟨hblocked, hforce, front, a, target, rfl, hlink⟩
  · exact .inl hl'
  · have hmem : Task.table a ∈ front ++ [.table a] := by simp
    have hidA : isIdentifier a.table.toList := hid _ hmem
    have hfits : c.store.Fits (Task.table a).name := hs.fits hmem
    refine .inr ⟨hforce, t₁, a.table, target, a.encode.toUTF8, hm, hl.names hu hf,
      hl.names hidA hfits, hlink, ?_, hblocked⟩
    rw [hs.get?_artifactAt, settled_concat_table]
    rfl

/-- **A call that writes a table** leaves something at the location of every table that it needs. -/
theorem exists_of_wrote {table : Table} (hc : c.job.isClosing = true) (hq : c.isQuiet t = true)
    (hw : c.Wrote t table) (hu : table.Needs u) :
    ∃ loc, isIdentifier u.toList ∧ c.store.Fits u ∧
      (c.after t).get? (artifactAt loc u) ≠ none ∧
      (c.store.LiesAt (c.after t) loc ∨ c.CutsOff u loc t) := by
  obtain ⟨tasks, hid, hwrites, hclosed⟩ := exists_closedTasks hc hq
  obtain ⟨task, hmem, rfl⟩ := hclosed table hw u hu
  have hne : tasks ≠ [] := List.ne_nil_of_mem hmem
  have hwrites := hwrites.resolve_right fun h => hne h.1
  obtain ⟨t₁, loc, hm, hsteps⟩ := (Store.writes_iff_steps hne hid).mp hwrites
  have hfits := hsteps.fits hmem
  refine ⟨loc, hid task hmem, hfits, ?_, ?_⟩
  · rw [hsteps.get?_artifactAt]
    exact settled_ne_none (.inr ⟨task, hmem, rfl⟩)
  · exact liesAt_or_cutsOff hm (hsteps.liesAt hne) hid hsteps (hid task hmem) hfits

/-- **A later call** leaves something where there was something, in a directory that it gets to. -/
theorem there_of_liesAt (hc : c.job.isClosing = true) (hq : c.isQuiet t = true)
    (hl : c.store.LiesAt t loc) (hu : isIdentifier u.toList) (hf : c.store.Fits u)
    (hthere : t.get? (artifactAt loc u) ≠ none) :
    (c.after t).get? (artifactAt loc u) ≠ none ∧
      (c.store.LiesAt (c.after t) loc ∨ c.CutsOff u loc t) := by
  obtain ⟨tasks, hid, hwrites | ⟨-, hm⟩, -⟩ := exists_closedTasks hc hq
  · have hsteps := Store.steps_of_writes hid hl hwrites
    constructor
    · rw [hsteps.get?_artifactAt]
      exact settled_ne_none (.inl hthere)
    · exact liesAt_or_cutsOff hl.makeDirs_eq hl hid hsteps hu hf
  · obtain ⟨-, he⟩ := EStateM.Result.ok.inj (hl.makeDirs_eq.symm.trans hm)
    rw [← he]
    exact ⟨hthere, .inl hl⟩

/-- **Once a file stands in the way of its store, a call writes nothing.** -/
theorem after_of_isBlockedIn (hc : c.job.isClosing = true) (hq : c.isQuiet t = true)
    (h : c.store.IsBlockedIn t) : c.after t = t := by
  obtain ⟨tasks, hid, hwrites | ⟨-, hm⟩, -⟩ := exists_closedTasks hc hq
  · generalize c.after t = t' at hwrites
    cases hwrites with
    | nil => rfl
    | @cons task _ _ _ _ o hw hs =>
      obtain ⟨path, fault, he⟩ :=
        Store.error_of_isBlockedIn (hid task (by simp)) h (task.policy c.job.force)
      exact nomatch he.symm.trans hw
  · obtain ⟨p, hp, hblocked⟩ := h
    obtain ⟨fault, he⟩ := FileTree.makeDirs_of_blocked hp hblocked
    exact nomatch he.symm.trans hm

end Call

/-! ## Histories

By induction along the calls: what was written stays, unless a call has cut off the store. -/

/-- Do some calls, one after the other, meet no fault of the file system? -/
def quietAll : List Call → FileTree → Bool
  | [], _ => true
  | c :: calls, t => c.isQuiet t && quietAll calls (c.after t)

/-- One of some calls writes the artifact of a table. -/
def WroteIn (calls : List Call) (t : FileTree) (table : Table) : Prop :=
  ∃ front c back, calls = front ++ c :: back ∧ c.Wrote (afterAll front t) table

theorem afterAll_append (front back : List Call) (t : FileTree) :
    afterAll (front ++ back) t = afterAll back (afterAll front t) := by
  induction front generalizing t with
  | nil => rfl
  | cons c front ih => exact ih (c.after t)

theorem quietAll_append (front back : List Call) (t : FileTree) :
    quietAll (front ++ back) t = (quietAll front t && quietAll back (afterAll front t)) := by
  induction front generalizing t with
  | nil => rfl
  | cons c front ih => simp only [List.cons_append, quietAll, ih, afterAll, Bool.and_assoc]

section Kept

variable {s : Store} {u : String} {loc : Location} {t : FileTree} {calls : List Call} {c : Call}

/-- After some calls the artifact of `u` is there, in a directory that the store leads to, or that
one of the calls has cut off. -/
structure Kept (s : Store) (u : String) (loc : Location) (t : FileTree) (calls : List Call) :
    Prop where
  there : (afterAll calls t).get? (artifactAt loc u) ≠ none
  reach : s.LiesAt (afterAll calls t) loc ∨ s.IsBlockedIn (afterAll calls t) ∧
    ∃ front c back, calls = front ++ c :: back ∧ c.CutsOff u loc (afterAll front t)

theorem afterAll_concat (calls : List Call) (c : Call) (t : FileTree) :
    afterAll (calls ++ [c]) t = c.after (afterAll calls t) :=
  afterAll_append calls [c] t

theorem kept_concat (hthere : (c.after (afterAll calls t)).get? (artifactAt loc u) ≠ none)
    (hreach : c.store.LiesAt (c.after (afterAll calls t)) loc ∨
      c.CutsOff u loc (afterAll calls t)) : Kept c.store u loc t (calls ++ [c]) := by
  constructor
  · rwa [afterAll_concat]
  · rw [afterAll_concat]
    refine hreach.imp_right fun h => ⟨?_, calls, c, [], rfl, h⟩
    obtain ⟨-, t₁, n, target, bytes, -, -, -, -, -, hblocked⟩ := h
    exact hblocked

/-- **One more call keeps what is kept.** -/
theorem Kept.concat (h : Kept c.store u loc t calls) (hc : c.job.isClosing = true)
    (hq : c.isQuiet (afterAll calls t) = true) (hu : isIdentifier u.toList)
    (hf : c.store.Fits u) : Kept c.store u loc t (calls ++ [c]) := by
  rcases h.reach with hl | ⟨hblocked, front, c', back, rfl, hcut⟩
  · obtain ⟨hthere, hreach⟩ := Call.there_of_liesAt hc hq hl hu hf h.there
    exact kept_concat hthere hreach
  · have hafter := (afterAll_concat _ c t).trans (Call.after_of_isBlockedIn hc hq hblocked)
    refine ⟨?_, .inr ⟨?_, front, c', back ++ [c], by simp, hcut⟩⟩
    · rw [hafter]
      exact h.there
    · rw [hafter]
      exact hblocked

/-- **Any number of calls keep what is kept.** -/
theorem Kept.append {back : List Call} (h : Kept s u loc t calls) (hu : isIdentifier u.toList)
    (hf : s.Fits u) (hs : ∀ c ∈ back, c.store = s ∧ c.job.isClosing = true)
    (hq : quietAll back (afterAll calls t) = true) : Kept s u loc t (calls ++ back) := by
  induction back generalizing calls with
  | nil => simpa using h
  | cons c back ih =>
    obtain ⟨rfl, hc⟩ := hs c (by simp)
    obtain ⟨hqc, hqback⟩ := Bool.and_eq_true_iff.mp hq
    rw [List.append_cons]
    refine ih (h.concat hc hqc hu hf) (fun c hmem => hs c (by simp [hmem])) ?_
    rwa [afterAll_concat]

end Kept

/-- **Nothing that was written refers to what is missing.** Some calls on one store, each for a
table with nothing elsewhere or for a document, succeed or fail in any order, and meet no fault of
the file system. Then for each table that any of them wrote, all that it needs is there at the end:
at the path of its artifact, or, if one of the calls has put a file in the place of a link that the
store's directory is reached by, where that path led before. -/
theorem targets_present {s : Store} {calls : List Call} {t : FileTree} {table : Table} {u : String}
    (hs : ∀ c ∈ calls, c.store = s ∧ c.job.isClosing = true) (hq : quietAll calls t = true)
    (hw : WroteIn calls t table) (hu : table.Needs u) :
    ∃ loc, (afterAll calls t).get? (artifactAt loc u) ≠ none ∧
      ((afterAll calls t).Names (s.pathFor u) (artifactAt loc u) ∨
        s.IsBlockedIn (afterAll calls t) ∧
          ∃ front c back, calls = front ++ c :: back ∧ c.CutsOff u loc (afterAll front t)) := by
  obtain ⟨front, c, back, rfl, hw⟩ := hw
  obtain ⟨rfl, hc⟩ := hs c (by simp)
  rw [quietAll_append, quietAll, Bool.and_eq_true, Bool.and_eq_true] at hq
  obtain ⟨-, hqc, hqback⟩ := hq
  obtain ⟨loc, hid, hfits, hthere, hreach⟩ := Call.exists_of_wrote hc hqc hw hu
  have hkept : Kept c.store u loc t (front ++ [c] ++ back) := by
    refine (kept_concat hthere hreach).append hid hfits (fun c hmem => hs c (by simp [hmem])) ?_
    rwa [afterAll_concat]
  rw [← List.append_cons] at hkept
  exact ⟨loc, hkept.there, hkept.reach.imp_left fun hl => hl.names hid hfits⟩

/-- A table that is generated is written; so for a single call it is enough that it succeeds. -/
theorem Call.exists_wrote {s : Store} {name : String} {tokens : List String} {opts : Options}
    {force : Force} {t t' : FileTree} {g : Generated} {u : String}
    (h : s.generate name tokens opts force [] t = .ok g t')
    (hu : (match Table.build name tokens opts with
      | .ok table => decide (table.Needs u)
      | .error _ => false) = true) :
    ∃ table, Wrote ⟨s, .generate name tokens opts force []⟩ t table ∧ table.Needs u := by
  obtain ⟨table, hb, -, -, hwrites⟩ := Store.exists_of_generate h
  cases hwrites with
  | cons hw hs =>
    rw [hb] at hu
    exact ⟨table, ⟨hb, _, _, hw⟩, of_decide_eq_true hu⟩

/-- Orders refer to users; then a document fails, because there are orders; then the stub of the
users is replaced by a table. -/
def shopCalls : List Call :=
  [⟨⟨"db"⟩, .generate "orders" ["user->users"] {} {} []⟩,
    ⟨⟨"db"⟩, .batch Batch.Document.brokenShop {} {}⟩,
    ⟨⟨"db"⟩, .generate "users" ["boss->users"] {} { flag := true } []⟩]

theorem users_present :
    quietAll shopCalls bareTree = true ∧
      ∃ table loc, WroteIn shopCalls bareTree table ∧ table.Needs "users" ∧
        (afterAll shopCalls bareTree).get? (artifactAt loc "users") ≠ none := by
  have hquiet : quietAll shopCalls bareTree = true := by decide +kernel
  have hcalls : ∀ c ∈ shopCalls, c.store = ⟨"db"⟩ ∧ c.job.isClosing = true := by
    simp [shopCalls, Job.isClosing]
  obtain ⟨g, t', hrun, -⟩ : ∃ g t', (⟨"db"⟩ : Store).generate "orders" ["user->users"] {} {} []
      bareTree = .ok g t' ∧ true = true :=
    exists_ok_of_check (fun _ _ => true) (by decide +kernel)
  obtain ⟨table, hwrote, hneeds⟩ := Call.exists_wrote (u := "users") hrun (by decide +kernel)
  have hin : WroteIn shopCalls bareTree table := ⟨[], _, _, rfl, hwrote⟩
  obtain ⟨loc, hthere, -⟩ := targets_present hcalls hquiet hin hneeds
  exact ⟨hquiet, table, loc, hin, hneeds, hthere⟩

/-- A table that refers to itself, in a store that is reached by a link with the artifact's name. -/
def selfCall : Call := ⟨⟨"users.json"⟩, .generate "users" ["parent->users"] {} { flag := true } []⟩

/-- **What a table needs may be out of reach by its path**: here the table is written and needs
itself, and its file takes the place of the link that the store's directory is reached by. -/
theorem exists_write_losing_its_target :
    selfCall.job.isClosing = true ∧ quietAll [selfCall] loopTree = true ∧
      ∃ table, WroteIn [selfCall] loopTree table ∧ table.Needs "users" ∧
        ¬ ∃ l, (afterAll [selfCall] loopTree).Names
          (selfCall.store.pathFor "users") l := by
  obtain ⟨g, t', hrun, -⟩ : ∃ g t', (⟨"users.json"⟩ : Store).generate "users" ["parent->users"] {}
      { flag := true } [] loopTree = .ok g t' ∧ true = true :=
    exists_ok_of_check (fun _ _ => true) (by decide +kernel)
  obtain ⟨table, hwrote, hneeds⟩ := Call.exists_wrote (u := "users") hrun (by decide +kernel)
  refine ⟨rfl, by decide +kernel, table, ⟨[], _, [], rfl, hwrote⟩, hneeds, ?_⟩
  rintro ⟨l, q, hq, hplace⟩
  have hnone : ((Path.ofText (selfCall.store.pathFor "users")).bind
      (afterAll [selfCall] loopTree).placeOf).isOk = false := by decide +kernel
  rw [hq] at hnone
  simp [Except.bind, hplace, Except.isOk, Except.toBool] at hnone

end Tablature
