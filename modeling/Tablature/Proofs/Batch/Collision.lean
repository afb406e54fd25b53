import Tablature.Proofs.Batch.Abort
import Tablature.Proofs.Batch.Order

/-!
# Proofs/Batch/Collision — what an entry can collide with

Without force an entry is refused if anything stands at the place of its table.  In a run this could
be a stub that an entry before it asked for.  It never is: a table that the document declares is
left to its own entry, and after that entry there is nothing for a stub to do.  So the place of a
declared table holds the artifact of the last entry of that name, or what was there at the start
(`get?_declared_of_steps`), and `collision_iff` says when the next entry is refused.
-/

namespace Tablature

namespace Store

variable {s : Store} {t t' : FileTree} {loc l : Location} {a : Artifact} {force : Force}

theorem settle_refuse_of_ne_none {present : Bool}
    (h : t.get? (artifactAt loc a.table) ≠ none) :
    s.settle a .refuse present loc t = .error (.collision a.table (s.pathFor a.table)) t := by
  obtain ⟨node, hnode⟩ := Option.ne_none_iff_exists'.mp h
  simp [settle, hnode]

/-- **A table is refused exactly when its place is taken**, in the store's directory once this has
been made. -/
theorem write_eq_collision_iff (hid : isIdentifier a.table.toList) (hforce : force.isSet = false)
    {name path : String} :
    s.write a (.primary force) t = .error (.collision name path) t' ↔
      (name = a.table ∧ path = s.pathFor a.table) ∧ FileTree.makeDirs s.dir t = .ok () t' ∧
        ∃ loc, s.LiesAt t' loc ∧ s.Fits a.table ∧ t'.get? (artifactAt loc a.table) ≠ none := by
  have hpolicy : Policy.primary force = .refuse := by simp [Policy.primary, hforce]
  rw [hpolicy]
  constructor
  · intro h
    obtain ⟨t₁, loc, hm, hl, hf, hsettle⟩ := exists_of_write hid h (by simp)
    obtain ⟨rfl, hget, -⟩ := taken_of_settle_error hsettle.symm
    rw [settle_refuse_of_ne_none hget] at hsettle
    obtain ⟨hname, hpath⟩ := Error.collision.inj (EStateM.Result.error.inj hsettle).1
    exact ⟨⟨hname, hpath⟩, hm, loc, hl, hf, hget⟩
  · rintro ⟨⟨rfl, rfl⟩, hm, loc, hl, hf, hget⟩
    rw [write_eq_settle hid hm hl hf, settle_refuse_of_ne_none hget]

/-- **A table collides by its own write**: its stubs give way. -/
theorem generate_eq_collision_iff {name n path : String} {tokens : List String} {opts : Options}
    {elsewhere : List String} {table : Table} (hb : Table.build name tokens opts = .ok table) :
    s.generate name tokens opts force elsewhere t = .error (.collision n path) t' ↔
      s.write table.artifact (.primary force) t = .error (.collision n path) t' := by
  constructor
  · intro h
    rcases of_generate_error h (by simp) with ⟨⟨e, he⟩, -⟩ | ⟨table', hb', hw⟩
    · exact nomatch hb.symm.trans he
    · obtain rfl := Except.ok.inj (hb.symm.trans hb')
      exact hw
  · intro h
    unfold generate
    rw [hb]
    exact run_bind_eq_error_iff.mpr (.inl h)

/-- Without force the store's directory stays where it is. -/
theorem Steps.liesAt_of_unforced {tasks : List Task} (hforce : force.isSet = false)
    (hl : s.LiesAt t loc) (h : Steps s force loc tasks t t') : s.LiesAt t' loc :=
  (h.liesAt_or_replaced hl).resolve_right fun hr => by simp [hforce] at hr

end Store

namespace Batch.Document

variable {d : Document} {store : Store} {base : Options} {force : Force} {t t' t₁ t₂ : FileTree}
  {done : List Generated} {loc : Location} {tables : List Table} {n : String}

/-! ## The place of a declared table

Only entries of its name count at the place of a declared table: before the first of them no stub of
it is asked for, and after it a stub gives way. -/

/-- **What a plan leaves of a declared table**: its last artifact, or what was there. A stub is
never written in its place. -/
theorem get?_declared_of_steps (hm : FileTree.Makes t loc t₁)
    (h : store.Steps force loc (plan d.declared [] tables) t₁ t') (hn : n ∈ d.declared) :
    t'.get? (artifactAt loc n) =
      ((lastNamed n (tables.map (·.artifact))).map fun a => (Task.table a).node).or
        (t.get? (artifactAt loc n)) := by
  rw [get?_artifactAt_of_steps hm h, settled, tables_plan]
  cases hlast : lastNamed n (tables.map (·.artifact)) with
  | some a => rfl
  | none =>
    have hnone : n ∉ tables.map (·.name) := by
      intro hmem
      obtain ⟨table, hm, rfl⟩ := List.mem_map.mp hmem
      exact lastNamed_eq_none_iff.mp hlast _ (List.mem_map_of_mem hm) rfl
    have hstub : Task.stub n ∉ plan d.declared [] tables := fun hmem =>
      ((stub_mem_plan_iff hnone List.not_mem_nil).mp hmem).1 hn
    exact if_neg hstub

/-- Entries that have been run without force leave the store's directory where it is. -/
theorem Ran.liesAt (hforce : force.isSet = false) (h : d.Ran store base force t done t₁)
    (hl : store.LiesAt t loc) : store.LiesAt t₁ loc := by
  obtain ⟨tables, hb, -, -, hwrites⟩ := exists_plan_of_ran h
  have hsteps := Store.steps_of_writes (fun task => hb.isIdentifier_of_mem_plan) hl hwrites
  exact hsteps.liesAt_of_unforced hforce hl

/-- The plan of entries that have been run without force, up to a tree in which the store's
directory has been made. -/
structure RanTo (d : Document) (store : Store) (base : Options) (force : Force) (loc : Location)
    (t t₂ : FileTree) (done : List Generated) (tables : List Table) (t₀ : FileTree) : Prop where
  builds : d.Builds base tables
  artifacts : done.map (·.artifact) = tables.map (·.artifact)
  makes : FileTree.Makes t loc t₀
  liesAt : store.LiesAt t₀ loc
  steps : store.Steps force loc (plan d.declared [] tables) t₀ t₂

/-- **Entries that have been run, seen from the store's directory**, which the next entry makes if
there are none. -/
theorem Ran.exists_ranTo (hup : ".." ∉ Path.stepsOf store.dir.toList)
    (hforce : force.isSet = false) (h : d.Ran store base force t done t₁)
    (hm : FileTree.makeDirs store.dir t₁ = .ok () t₂) (hl : store.LiesAt t₂ loc) :
    ∃ tables t₀, RanTo d store base force loc t t₂ done tables t₀ := by
  have hmakes : ∀ {t₀}, FileTree.makeDirs store.dir t = .ok () t₀ → store.LiesAt t₀ loc →
      FileTree.Makes t loc t₀ := by
    rintro t₀ hm₀ ⟨p, hp, hleads⟩
    exact FileTree.makes_of_makeDirs hp (Path.steps_of_ofDir hp ▸ hup) hm₀ hleads
  obtain ⟨tables, hb, hg, -, hwrites⟩ := exists_plan_of_ran h
  by_cases hne : tables = []
  · subst hne
    cases hwrites
    exact ⟨[], t₂, hb, hg, hmakes hm hl, hl, .nil t₂⟩
  · obtain ⟨t₀, loc₀, hm₀, hsteps⟩ := (Store.writes_iff_steps (plan_ne_nil hne)
      fun task => hb.isIdentifier_of_mem_plan).mp hwrites
    have hl₀ := hsteps.liesAt (plan_ne_nil hne)
    have hl₁ := hsteps.liesAt_of_unforced hforce hl₀
    obtain ⟨-, rfl⟩ := EStateM.Result.ok.inj (hl₁.makeDirs_eq.symm.trans hm)
    obtain rfl := hl.unique hl₁
    exact ⟨tables, t₀, hb, hg, hmakes hm₀ hl₀, hl₀, hsteps⟩

/-- **Where something stands at the place of a declared table**, it was there at the start, and its
path named it; or it is the artifact of an entry. -/
theorem RanTo.of_get? {t₀ : FileTree} (h : RanTo d store base force loc t t₂ done tables t₀)
    (hn : n ∈ d.declared) (hget : t₂.get? (artifactAt loc n) ≠ none) :
    (store.LiesAt t loc ∧ t.get? (artifactAt loc n) ≠ none ∧
        t₂.get? (artifactAt loc n) = t.get? (artifactAt loc n)) ∨
      ∃ g ∈ done, g.artifact.table = n ∧
        t₂.get? (artifactAt loc n) = some (.file g.artifact.encode.toUTF8) := by
  have hwhole := get?_declared_of_steps h.makes h.steps hn
  rw [← h.artifacts] at hwhole
  cases hlast : lastNamed n (done.map (·.artifact)) with
  | none =>
    rw [hlast] at hwhole
    have hsame : t₂.get? (artifactAt loc n) = t.get? (artifactAt loc n) := hwhole
    rw [hsame] at hget
    have hbelow : t₀.get? (artifactAt loc n) ≠ none := by
      rwa [artifactAt, h.makes.get?_below]
    have heq := h.makes.eq_of_below hbelow
    exact .inl ⟨heq ▸ h.liesAt, hget, hsame⟩
  | some a =>
    rw [hlast] at hwhole
    have hmem := List.mem_of_getLast? hlast
    rw [List.mem_filter, List.mem_map, beq_iff_eq] at hmem
    obtain ⟨⟨g, hg, rfl⟩, hname⟩ := hmem
    exact .inr ⟨g, hg, hname, hwhole⟩

/-- The artifact of an entry is the last of its name, or another one is. -/
theorem RanTo.get?_ne_none {t₀ : FileTree} (h : RanTo d store base force loc t t₂ done tables t₀)
    (hn : n ∈ d.declared)
    (ht : t.get? (artifactAt loc n) ≠ none ∨ ∃ g ∈ done, g.artifact.table = n) :
    t₂.get? (artifactAt loc n) ≠ none := by
  rw [get?_declared_of_steps h.makes h.steps hn, ← h.artifacts]
  cases hlast : lastNamed n (done.map (·.artifact)) with
  | some a => exact nofun
  | none =>
    refine ht.resolve_right ?_
    rintro ⟨g, hg, hname⟩
    exact lastNamed_eq_none_iff.mp hlast _ (List.mem_map_of_mem hg) hname

/-! ## Entries of one name -/

/-- What has been run has the name of its entry. -/
theorem Ran.exists_entry_iff (h : d.Ran store base force t done t₁) :
    (∃ g ∈ done, g.artifact.table = n) ↔
      ∃ i < done.length, ∃ e, d.entry i = .ok e ∧ e.name = n := by
  obtain ⟨tables, hb, hg, -, -⟩ := exists_plan_of_ran h
  have hnames := map_table_eq hg
  have hlength : done.length = tables.length := by simpa using congrArg List.length hg
  have hmem : (∃ g ∈ done, g.artifact.table = n) ↔ n ∈ tables.map (·.name) := by
    rw [← hnames, List.mem_map]
  rw [hmem, List.mem_map, hlength]
  constructor
  · rintro ⟨table, htable, rfl⟩
    obtain ⟨i, hi⟩ := List.getElem?_of_mem htable
    obtain ⟨e, he, hname, -⟩ := exists_of_tableAt (hb i table hi)
    exact ⟨i, (List.getElem?_eq_some_iff.mp hi).1, e, he, hname⟩
  · rintro ⟨i, hi, e, he, rfl⟩
    obtain ⟨e', he', hname, -⟩ := exists_of_tableAt (hb i _ (List.getElem?_eq_getElem hi))
    obtain rfl := Except.ok.inj (he.symm.trans he')
    exact ⟨_, List.getElem_mem hi, hname.symm⟩

/-- **What is in the way of the next entry**, if anything is: an entry of its name has been run, or
its path named something at the start. -/
theorem Ran.exists_taken (hup : ".." ∉ Path.stepsOf store.dir.toList)
    (hforce : force.isSet = false) (h : d.Ran store base force t done t₁)
    (hid : isIdentifier n.toList) (hn : n ∈ d.declared)
    (ht : (∃ l, t.Names (store.pathFor n) l ∧ t.get? l ≠ none) ∨
      ∃ g ∈ done, g.artifact.table = n) :
    ∃ loc, store.LiesAt t₁ loc ∧ store.Fits n ∧ t₁.get? (artifactAt loc n) ≠ none := by
  rcases ht with ⟨l, hnames, hget⟩ | ⟨g, hg, hname⟩
  · obtain ⟨loc, hl, hfits, rfl⟩ := Store.exists_of_names hid hnames
    have hl₁ := h.liesAt hforce hl
    obtain ⟨tables, t₀, hran⟩ := h.exists_ranTo hup hforce hl₁.makeDirs_eq hl₁
    exact ⟨loc, hl₁, hfits, hran.get?_ne_none hn (.inl hget)⟩
  · obtain ⟨tables, hb, hgs, -, hwrites⟩ := exists_plan_of_ran h
    have hmem : g.artifact ∈ Task.tables (plan d.declared [] tables) := by
      rw [tables_plan, ← hgs]
      exact List.mem_map_of_mem hg
    have htask := Task.table_mem_of_mem_tables hmem
    obtain ⟨t₀, loc, -, hsteps⟩ := (Store.writes_iff_steps (List.ne_nil_of_mem htask)
      fun task => hb.isIdentifier_of_mem_plan).mp hwrites
    have hfits : store.Fits (Task.table g.artifact).name := hsteps.fits htask
    have hl₁ := hsteps.liesAt_of_unforced hforce (hsteps.liesAt (List.ne_nil_of_mem htask))
    obtain ⟨tables, t₀, hran⟩ := h.exists_ranTo hup hforce hl₁.makeDirs_eq hl₁
    exact ⟨loc, hl₁, hname ▸ hfits, hran.get?_ne_none hn (.inr ⟨g, hg, hname⟩)⟩

/-! ## Collisions -/

theorem runEntry_eq_collision_iff {i : Nat} {e : Entry} {table : Table} {path : String}
    (hforce : force.isSet = false) (he : d.entry i = .ok e)
    (hb : Table.build e.name e.tokens (d.entryOptions base e) = .ok table) :
    d.runEntry store base force done i t = .error (.collision n path) t' ↔
      (n = e.name ∧ path = store.pathFor e.name) ∧ FileTree.makeDirs store.dir t = .ok () t' ∧
        ∃ loc, store.LiesAt t' loc ∧ store.Fits e.name ∧
          t'.get? (artifactAt loc e.name) ≠ none := by
  have hname : table.artifact.table = e.name := Table.name_eq_of_build hb
  have hid : isIdentifier table.artifact.table.toList := Table.isIdentifier_of_build hb
  unfold runEntry
  rw [he]
  dsimp only
  rw [Store.generate_eq_collision_iff hb, Store.write_eq_collision_iff hid hforce, hname]

/-- **A run never collides with its own stubs.** In a run without force, on a store whose path never
goes up, the next entry that is well formed and builds is refused exactly when something was at its
path at the start, or an entry before it has its name. What stands in its way then is what was there
at the start, or the artifact of such an entry. -/
theorem collision_iff {e : Entry} {table : Table}
    (hup : ".." ∉ Path.stepsOf store.dir.toList) (hforce : force.isSet = false)
    (hran : d.Ran store base force t done t₁) (he : d.entry done.length = .ok e)
    (hb : Table.build e.name e.tokens (d.entryOptions base e) = .ok table) :
    ((∃ n path t₂,
        d.runEntry store base force done done.length t₁ = .error (.collision n path) t₂) ↔
      (∃ l, t.Names (store.pathFor e.name) l ∧ t.get? l ≠ none) ∨
        ∃ i < done.length, ∃ e', d.entry i = .ok e' ∧ e'.name = e.name) ∧
    ∀ n path t₂,
      d.runEntry store base force done done.length t₁ = .error (.collision n path) t₂ →
        n = e.name ∧ path = store.pathFor e.name ∧ ∃ l, t₂.Names path l ∧
          ((t.Names path l ∧ t.get? l ≠ none ∧ t₂.get? l = t.get? l) ∨
            ∃ g ∈ done, g.artifact.table = e.name ∧
              t₂.get? l = some (.file g.artifact.encode.toUTF8)) := by
  have hid : isIdentifier e.name.toList :=
    Table.name_eq_of_build hb ▸ Table.isIdentifier_of_build hb
  have hdeclared := mem_declared_of_entry he
  have hway : ∀ n path t₂,
      d.runEntry store base force done done.length t₁ = .error (.collision n path) t₂ →
        n = e.name ∧ path = store.pathFor e.name ∧ ∃ l, t₂.Names path l ∧
          ((t.Names path l ∧ t.get? l ≠ none ∧ t₂.get? l = t.get? l) ∨
            ∃ g ∈ done, g.artifact.table = e.name ∧
              t₂.get? l = some (.file g.artifact.encode.toUTF8)) := by
    intro n path t₂ h
    obtain ⟨⟨rfl, rfl⟩, hm, loc, hl, hfits, hget⟩ := (runEntry_eq_collision_iff hforce he hb).mp h
    obtain ⟨tables, t₀, hto⟩ := hran.exists_ranTo hup hforce hm hl
    refine ⟨rfl, rfl, _, hl.names hid hfits, ?_⟩
    exact (hto.of_get? hdeclared hget).imp_left fun ⟨hl₀, hrest⟩ =>
      ⟨hl₀.names hid hfits, hrest⟩
  refine ⟨⟨?_, fun ht => ?_⟩, hway⟩
  · rintro ⟨n, path, t₂, h⟩
    obtain ⟨-, rfl, l, -, ⟨hnames, hget, -⟩ | ⟨g, hg, hname, -⟩⟩ := hway n path t₂ h
    · exact .inl ⟨l, hnames, hget⟩
    · exact .inr (hran.exists_entry_iff.mp ⟨g, hg, hname⟩)
  · obtain ⟨loc, hl, hfits, hget⟩ := hran.exists_taken hup hforce hid hdeclared
      (ht.imp_right hran.exists_entry_iff.mpr)
    exact ⟨_, _, t₁, (runEntry_eq_collision_iff hforce he hb).mpr
      ⟨⟨rfl, rfl⟩, hl.makeDirs_eq, loc, hl, hfits, hget⟩⟩

/-- The users that orders refer to are left to their entry, which runs; the second one of that name
is refused. -/
theorem collision_of_shop :
    ∃ done t₁, shop.Ran ⟨"db"⟩ {} {} bareTree done t₁ ∧ done.length = 2 ∧
      ∃ n path t₂, shop.runEntry ⟨"db"⟩ {} {} done done.length t₁ =
        .error (.collision n path) t₂ := by
  have hup : ".." ∉ Path.stepsOf (⟨"db"⟩ : Store).dir.toList := by decide
  obtain ⟨done, t₁, hrun, -⟩ := exists_ok_of_check
    (r := shop.runFrom ⟨"db"⟩ {} {} 2 0 [] bareTree) (fun _ _ => true) (by decide +kernel)
  obtain ⟨hran, hlength⟩ := ran_of_runFrom .start hrun
  have hlength : done.length = 2 := hlength
  have hentry : shop.entry done.length = .ok ⟨"users", 2, false, []⟩ := by
    rw [hlength]
    rfl
  obtain ⟨table, htable⟩ := exists_of_isOk
    (x := Table.build "users" [] (shop.entryOptions {} ⟨"users", 2, false, []⟩))
    (by decide +kernel)
  refine ⟨done, t₁, hran, hlength, ?_⟩
  refine (collision_iff hup rfl hran hentry htable).1.mpr (.inr ⟨1, ?_, ?_⟩)
  · rw [hlength]
    exact Nat.one_lt_two
  · exact ⟨⟨"users", 1, false, []⟩, rfl, rfl⟩

end Batch.Document

end Tablature
