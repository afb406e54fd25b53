import Tablature.Proofs.Batch.Plan

/-!
# Proofs/Batch/Run — what a run that succeeds leaves

The plan of a run says which stubs are written when; none of this matters in the end.  At the
location of each table the run leaves one of three things (`LeavesStore`):

* the artifact of the last entry of that name, if there is one;
* for a table that is only referred to, what was there, or else a stub;
* at any other location what was there, apart from the directories on the way to the store's own.

Paths are told by the locations they name once the store's directory has been made.  They name the
same at the end, with one exception: a forced run may replace a link that the store's directory
itself is reached by.  After such a write no other can succeed, so it is that of the last entry.
-/

namespace Tablature

theorem Store.LiesAt.names {s : Store} {t : FileTree} {loc : Location} {table : String}
    (h : s.LiesAt t loc) (hid : isIdentifier table.toList) (hf : s.Fits table) :
    t.Names (s.pathFor table) (artifactAt loc table) :=
  Store.placeOf_pathFor hid h hf

namespace Batch.Document

variable {d : Document} {store : Store} {base : Options} {force : Force} {t t' t₁ : FileTree}
  {gs : List Generated} {loc : Location} {tables : List Table} {declared done : List String}

/-! ## What is in a plan -/

/-- A task of a plan is one of its tables, or a stub of what a table refers to. -/
theorem exists_of_mem_plan {task : Task} (h : task ∈ plan declared done tables) :
    ∃ table ∈ tables, task = .table table.artifact ∨ ∃ u ∈ table.referenced, task = .stub u := by
  induction tables generalizing done with
  | nil => simp [plan] at h
  | cons table tables ih =>
    rcases List.mem_append.mp h with h | h
    · refine ⟨table, by simp, ?_⟩
      rcases List.mem_cons.mp h with rfl | h
      · exact .inl rfl
      · obtain ⟨u, hu, rfl⟩ := List.mem_map.mp h
        exact .inr ⟨u, (List.mem_filter.mp hu).1, rfl⟩
    · obtain ⟨table', hm, h⟩ := ih h
      exact ⟨table', by simp [hm], h⟩

/-- The tables of a plan are its tables, in their order. -/
theorem tables_plan : Task.tables (plan declared done tables) = tables.map (·.artifact) := by
  induction tables generalizing done with
  | nil => rfl
  | cons table tables ih => simp [plan, Table.tasks, ih]

/-- A plan writes its tables. -/
theorem exists_task_of_mem_map {n : String} (hn : n ∈ tables.map (·.name)) :
    ∃ task ∈ plan declared done tables, task.name = n := by
  obtain ⟨table, hm, rfl⟩ := List.mem_map.mp hn
  have hmem : table.artifact ∈ Task.tables (plan declared done tables) :=
    tables_plan ▸ List.mem_map_of_mem hm
  exact ⟨_, Task.table_mem_of_mem_tables hmem, rfl⟩

theorem plan_ne_nil (h : tables ≠ []) : plan declared done tables ≠ [] := by
  obtain ⟨table, tables, rfl⟩ := List.exists_cons_of_ne_nil h
  simp [plan, Table.tasks]

/-- **A table that nobody declares is given a stub wherever it is referred to.** -/
theorem stub_mem_plan {table : Table} {u : String} (hm : table ∈ tables)
    (hu : u ∈ table.referenced) (hd : u ∉ declared) : .stub u ∈ plan declared done tables := by
  induction tables generalizing done with
  | nil => simp at hm
  | cons first tables ih =>
    refine List.mem_append.mpr ?_
    rcases List.mem_cons.mp hm with rfl | hm
    · have he : u ∉ elsewhere declared done table.name := fun hin =>
        hd (List.mem_filter.mp hin).1
      simp [Table.tasks, hu, he]
    · exact .inr (ih hm)

/-- All tasks of a plan are of identifiers. -/
theorem Builds.isIdentifier_of_mem_plan (hb : d.Builds base tables) {task : Task}
    (h : task ∈ plan declared done tables) : isIdentifier task.name.toList := by
  obtain ⟨table, hm, htask⟩ := exists_of_mem_plan h
  obtain ⟨i, hi⟩ := hb.exists_of_mem hm
  obtain ⟨e, -, -, hbuild⟩ := exists_of_tableAt hi
  rcases htask with rfl | ⟨u, hu, rfl⟩
  · exact Table.isIdentifier_of_build hbuild
  · exact Table.isIdentifier_of_mem_referenced hbuild hu

/-- The tables of a plan's tasks are declared, and its other names referred to. -/
theorem stub_of_mem_plan {task : Task} (h : task ∈ plan declared done tables)
    (hn : ∀ table ∈ tables, table.name ≠ task.name) :
    ∃ table ∈ tables, ∃ u ∈ table.referenced, task = .stub u := by
  obtain ⟨table, hm, rfl | ⟨u, hu, rfl⟩⟩ := exists_of_mem_plan h
  · exact absurd rfl (hn table hm)
  · exact ⟨table, hm, u, hu, rfl⟩

/-! ## What a run leaves -/

/-- The artifacts of a run: one for each entry, in their order, compiled with the actions of the
document before those of the run. -/
def Compiles (d : Document) (base : Options) (gs : List Generated) : Prop :=
  gs.length = d.tables.length ∧ ∀ i g, gs[i]? = some g →
    ∃ e, d.entry i = .ok e ∧ g.artifact.table = e.name ∧
      Table.compile e.name e.tokens (d.entryOptions base e) = .ok g.artifact

/-- The table of some entry refers to a table. -/
def Refers (d : Document) (base : Options) (u : String) : Prop :=
  ∃ i table, d.tableAt base i = .ok table ∧ u ∈ table.referenced

/-- What a run leaves of a tree `t`, whose store lies at `loc` once its directory has been made. -/
structure LeavesStore (d : Document) (base : Options) (gs : List Generated) (loc : Location)
    (t t' : FileTree) : Prop where
  table : ∀ n ∈ d.declared, ∃ a, lastNamed n (gs.map (·.artifact)) = some a ∧
    t'.get? (artifactAt loc n) = some (.file a.encode.toUTF8)
  stub : ∀ u, d.Refers base u → u ∉ d.declared → t.get? (artifactAt loc u) = none →
    t'.get? (artifactAt loc u) = some (.file (Table.stub u).artifact.encode.toUTF8)
  other : ∀ l, (∀ n ∈ d.declared, l ≠ artifactAt loc n) →
    (∀ u, d.Refers base u → u ∉ d.declared → t.get? l = none → l ≠ artifactAt loc u) →
    t'.get? l = t.get? l ∨ t.get? l = none ∧ t'.get? l = some .dir ∧ l <+: loc
  here : t'.here = t.here

theorem Builds.refers_iff (hb : d.Builds base tables) (hlength : tables.length = d.tables.length)
    {u : String} : d.Refers base u ↔ ∃ table ∈ tables, u ∈ table.referenced := by
  constructor
  · rintro ⟨i, table, hi, hu⟩
    obtain ⟨e, he, -⟩ := exists_of_tableAt hi
    obtain ⟨v, hv, -⟩ := exists_of_entry he
    have hlt : i < tables.length := hlength ▸ (List.getElem?_eq_some_iff.mp hv).1
    have htable : d.tableAt base i = .ok tables[i] := hb i _ (List.getElem?_eq_getElem hlt)
    obtain rfl := Except.ok.inj (hi.symm.trans htable)
    exact ⟨_, List.getElem_mem hlt, hu⟩
  · rintro ⟨table, hm, hu⟩
    obtain ⟨i, hi⟩ := hb.exists_of_mem hm
    exact ⟨i, table, hi, hu⟩

theorem Builds.compiles (hb : d.Builds base tables) (hlength : tables.length = d.tables.length)
    (hg : gs.map (·.artifact) = tables.map (·.artifact)) : d.Compiles base gs := by
  have hgs : gs.length = tables.length := by simpa using congrArg List.length hg
  refine ⟨hgs.trans hlength, fun i g hi => ?_⟩
  have hlt : i < tables.length := hgs ▸ (List.getElem?_eq_some_iff.mp hi).1
  obtain ⟨e, he, hname, hbuild⟩ := exists_of_tableAt (hb i _ (List.getElem?_eq_getElem hlt))
  have hartifact : g.artifact = tables[i].artifact := by
    have := congrArg (·[i]?) hg
    simpa [hi, hlt] using this
  refine ⟨e, he, ?_, ?_⟩
  · rw [hartifact, hname]
    rfl
  · rw [hartifact, Table.compile, hbuild]
    rfl

/-- A run has an artifact of a name exactly when the name is declared. -/
theorem Builds.lastNamed_eq_none_iff (hb : d.Builds base tables)
    (hlength : tables.length = d.tables.length)
    (hg : gs.map (·.artifact) = tables.map (·.artifact)) {n : String} :
    lastNamed n (gs.map (·.artifact)) = none ↔ n ∉ d.declared := by
  rw [Tablature.lastNamed_eq_none_iff, hg, hb.declared_eq hlength, List.mem_map]
  constructor
  · rintro h ⟨table, hm, rfl⟩
    exact h table.artifact (List.mem_map_of_mem hm) rfl
  · rintro h a ha rfl
    obtain ⟨table, hm, rfl⟩ := List.mem_map.mp ha
    exact h ⟨table, hm, rfl⟩

/-- What tasks leave at the location of a table, seen from before the store's directory was made. -/
theorem get?_artifactAt_of_steps (hm : FileTree.Makes t loc t₁) {tasks : List Task}
    (h : store.Steps force loc tasks t₁ t') (n : String) :
    t'.get? (artifactAt loc n) = settled n tasks (t.get? (artifactAt loc n)) := by
  have hbefore : t₁.get? (artifactAt loc n) = t.get? (artifactAt loc n) := hm.get?_below _
  rw [h.get?_artifactAt, hbefore]

/-- **What a plan leaves of a table that is only referred to**: what was there, or a stub. -/
theorem get?_undeclared_of_steps (hb : d.Builds base tables)
    (hlength : tables.length = d.tables.length)
    (hg : gs.map (·.artifact) = tables.map (·.artifact)) (hm : FileTree.Makes t loc t₁)
    (h : store.Steps force loc (plan d.declared [] tables) t₁ t') {u : String}
    (hu : d.Refers base u) (hd : u ∉ d.declared) :
    t'.get? (artifactAt loc u) = (t.get? (artifactAt loc u)).or (some (Task.stub u).node) := by
  obtain ⟨table, hmem, hu⟩ := (hb.refers_iff hlength).mp hu
  have hin : Task.stub u ∈ plan d.declared [] tables := stub_mem_plan hmem hu hd
  rw [get?_artifactAt_of_steps hm h, settled, tables_plan, ← hg,
    (hb.lastNamed_eq_none_iff hlength hg).mpr hd]
  exact if_pos hin

/-- **What a plan leaves**, if it succeeds from where the store's directory has been made. -/
theorem leavesStore_of_steps (hb : d.Builds base tables)
    (hlength : tables.length = d.tables.length)
    (hg : gs.map (·.artifact) = tables.map (·.artifact)) (hm : FileTree.Makes t loc t₁)
    (h : store.Steps force loc (plan d.declared [] tables) t₁ t') :
    d.LeavesStore base gs loc t t' where
  table n hn := by
    obtain ⟨a, ha⟩ : ∃ a, lastNamed n (gs.map (·.artifact)) = some a := by
      rw [← Option.ne_none_iff_exists', Ne, hb.lastNamed_eq_none_iff hlength hg]
      exact not_not_intro hn
    refine ⟨a, ha, ?_⟩
    rw [get?_artifactAt_of_steps hm h, settled, tables_plan, ← hg, ha]
    rfl
  stub u hu hd hnone := by
    rw [get?_undeclared_of_steps hb hlength hg hm h hu hd, hnone]
    rfl
  other l hl hu := by
    by_cases htask : ∃ task ∈ plan d.declared [] tables, l = artifactAt loc task.name
    · -- a task of an undeclared table is a stub, and changes nothing where there was something
      obtain ⟨task, hmem, rfl⟩ := htask
      have hn : task.name ∉ d.declared := fun hn => hl _ hn rfl
      obtain ⟨table, htable, u, hu', rfl⟩ := stub_of_mem_plan hmem fun table htable he =>
        hn (hb.declared_eq hlength ▸ List.mem_map.mpr ⟨table, htable, he⟩)
      have hrefers : d.Refers base u := (hb.refers_iff hlength).mpr ⟨table, htable, hu'⟩
      cases hget : t.get? (artifactAt loc u) with
      | none => exact absurd rfl (hu u hrefers hn hget)
      | some node =>
        left
        rw [Task.name_stub, get?_undeclared_of_steps hb hlength hg hm h hrefers hn, hget]
        rfl
    · rw [h.get?_of_ne fun task hmem he => htask ⟨task, hmem, he⟩]
      exact hm.get?_or l
  here := by rw [h.here_eq, hm.here_eq]

/-- The tables that a document is about: those it declares and those they refer to. -/
def Mentions (d : Document) (base : Options) (n : String) : Prop :=
  n ∈ d.declared ∨ d.Refers base n

/-- A table that the document mentions has a task in its plan. -/
theorem Builds.exists_task (hb : d.Builds base tables) (hlength : tables.length = d.tables.length)
    {n : String} (hn : d.Mentions base n) : ∃ task ∈ plan d.declared [] tables, task.name = n := by
  by_cases hd : n ∈ d.declared
  · exact exists_task_of_mem_map (hb.declared_eq hlength ▸ hd)
  · obtain ⟨table, hm, hu⟩ := (hb.refers_iff hlength).mp (hn.resolve_left hd)
    exact ⟨_, stub_mem_plan hm hu hd, rfl⟩

/-- **What a run that succeeds leaves**, for a store whose path never goes up: the artifacts of its
entries, the last one of each name at the location of its table, stubs where there was nothing, and
all else as it was. The paths of the tables name their locations from when the store's directory has
been made to the end, unless the last entry's file has replaced a link and now stands in the way of
the store's directory. -/
theorem leavesStore_of_run (hup : ".." ∉ Path.stepsOf store.dir.toList)
    (h : d.run store base force t = .ok gs t') :
    d.Compiles base gs ∧
      (d.tables = [] ∧ t' = t ∨
        ∃ t₁ loc, FileTree.makeDirs store.dir t = .ok () t₁ ∧ d.LeavesStore base gs loc t t' ∧
          (∀ n, d.Mentions base n → t₁.Names (store.pathFor n) (artifactAt loc n)) ∧
          ((∀ n, d.Mentions base n → t'.Names (store.pathFor n) (artifactAt loc n)) ∨
            store.IsBlockedIn t' ∧ force.isSet = true ∧ ∃ g target, gs.getLast? = some g ∧
              t.get? (artifactAt loc g.artifact.table) = some (.link target))) := by
  obtain ⟨hran, hgs⟩ := run_eq_ok_iff.mp h
  obtain ⟨tables, hb, hg, -, hwrites⟩ := exists_plan_of_ran hran
  have hlength : tables.length = d.tables.length := by
    have := congrArg List.length hg
    simp only [List.length_map] at this
    omega
  refine ⟨hb.compiles hlength hg, ?_⟩
  have hid : ∀ task ∈ plan d.declared [] tables, isIdentifier task.name.toList :=
    fun task hm => hb.isIdentifier_of_mem_plan hm
  by_cases hne : tables = []
  · subst hne
    cases hwrites
    exact .inl ⟨List.length_eq_zero_iff.mp hlength.symm, rfl⟩
  · right
    obtain ⟨t₁, loc, hm, hsteps⟩ := (Store.writes_iff_steps (plan_ne_nil hne) hid).mp hwrites
    have hl : store.LiesAt t₁ loc := hsteps.liesAt (plan_ne_nil hne)
    obtain ⟨p, hp, hleads⟩ := hl
    have hmakes : FileTree.Makes t loc t₁ :=
      FileTree.makes_of_makeDirs hp (Path.steps_of_ofDir hp ▸ hup) hm hleads
    have hnames : ∀ {t₂}, store.LiesAt t₂ loc → ∀ n, d.Mentions base n →
        t₂.Names (store.pathFor n) (artifactAt loc n) := by
      intro t₂ hl n hn
      obtain ⟨task, htask, rfl⟩ := hb.exists_task hlength hn
      exact hl.names (hid task htask) (hsteps.fits htask)
    refine ⟨t₁, loc, hm, leavesStore_of_steps hb hlength hg hmakes hsteps,
      hnames ⟨p, hp, hleads⟩, ?_⟩
    rcases hsteps.liesAt_or_replaced ⟨p, hp, hleads⟩ with
      hl' | ⟨hblocked, hforce, front, a, target, htasks, hlink⟩
    · exact .inl (hnames hl')
    · have hlast : (gs.map (·.artifact)).getLast? = some a := by
        rw [hg, ← tables_plan, htasks, Task.tables_append]
        exact List.getLast?_concat
      rw [List.getLast?_map] at hlast
      obtain ⟨g, hg', rfl⟩ := Option.map_eq_some_iff.mp hlast
      refine .inr ⟨hblocked, hforce, g, target, hg', ?_⟩
      rw [← hlink]
      exact (hmakes.get?_below _).symm

/-- Orders refer to users, who come later, and to items, which nobody declares; users are declared
twice. -/
def shop : Document where
  outDir := none
  onDelete := some .cascade
  onUpdate := none
  tables :=
    [.object [("name", .string "orders"), ("fields", .array
        [.object [("name", .string "user"), ("fk", .string "users")],
          .object [("name", .string "item"), ("type", .string "fk(items)")]])],
      .object [("name", .string "users"), ("fields", .array [])],
      .object [("name", .string "users"), ("version", .number (.integer 2)),
        ("columns", .array [])]]

/-- The orders are a link that leads nowhere. -/
def shopTree : FileTree where
  nodes := [(["work"], .dir), (["work", "db"], .dir), (["work", "db", "orders.json"], .link "gone")]
  here := ["work"]
  nested := by decide
  here_dir := by decide

/-- What a forced run of the shop leaves, with a table of each kind. -/
theorem leavesStore_shop :
    ∃ gs t', shop.run ⟨"db"⟩ {} { env := true } shopTree = .ok gs t' ∧ shop.Compiles {} gs ∧
      ∃ loc, shop.LeavesStore {} gs loc shopTree t' := by
  have hup : ".." ∉ Path.stepsOf (⟨"db"⟩ : Store).dir.toList := by decide
  obtain ⟨gs, t', hrun, -⟩ : ∃ gs t',
      shop.run ⟨"db"⟩ {} { env := true } shopTree = .ok gs t' ∧ true = true :=
    exists_ok_of_check (fun _ _ => true) (by decide +kernel)
  obtain ⟨hcompiles, ⟨hnil, -⟩ | ⟨t₁, loc, -, hleaves, -⟩⟩ := leavesStore_of_run hup hrun
  · exact nomatch hnil
  · exact ⟨gs, t', hrun, hcompiles, loc, hleaves⟩

/-- One table, in a store that is reached by a link to where it lies. -/
def users : Document where
  outDir := none
  onDelete := none
  onUpdate := none
  tables := [.object [("name", .string "users"), ("fields", .array [])]]

/-- **A path need not hold what was written to it**: here the run succeeds, and the file it writes
takes the place of the link that the store's directory is reached by. -/
theorem exists_run_blocking_its_store :
    ".." ∉ Path.stepsOf (⟨"users.json"⟩ : Store).dir.toList ∧
      "users" ∈ users.declared ∧
      ∃ gs t', users.run ⟨"users.json"⟩ {} { flag := true } loopTree = .ok gs t' ∧
        ¬ ∃ text, t'.readText ((⟨"users.json"⟩ : Store).pathFor "users") = .ok text := by
  refine ⟨by decide, by decide, ?_⟩
  obtain ⟨gs, t', hrun, hcheck⟩ : ∃ gs t',
      users.run ⟨"users.json"⟩ {} { flag := true } loopTree = .ok gs t' ∧
        (t'.readText ((⟨"users.json"⟩ : Store).pathFor "users")).isOk = false :=
    exists_ok_of_check
      (fun _ t' => !(t'.readText ((⟨"users.json"⟩ : Store).pathFor "users")).isOk)
      (by decide +kernel) |>.imp fun gs h => h.imp fun t' h => ⟨h.1, by simpa using h.2⟩
  refine ⟨gs, t', hrun, ?_⟩
  rintro ⟨text, htext⟩
  simp [htext, Except.isOk, Except.toBool] at hcheck

end Batch.Document

end Tablature
