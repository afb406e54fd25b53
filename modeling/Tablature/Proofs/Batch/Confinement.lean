import Tablature.Proofs.Batch.Script
import Tablature.Proofs.History.Closure

/-!
# Proofs/Batch/Confinement — what is written stays in the store's directory

A store makes a path of any text.  That no artifact is ever written outside of its directory rests
on the names that reach it: all of them are identifiers, and so the name of a file is one step below
the directory, whatever the texts that a table or a document is read from.

An action that follows a script has made directories at most, or some of the script's tasks have
succeeded and there is nothing else that it did (`Follows.exists_writes`): a write that fails after
one that succeeded leaves the tree alone.  What succeeded is seen from the store's directory, so
that all that changes are entries of it (`confines_of_writes`).
-/

namespace Tablature

theorem Table.needs_of_mem_referenced {table : Table} {u : String} (h : u ∈ table.referenced) :
    table.Needs u := by
  rw [referenced, mem_insertAll, List.mem_filter, List.mem_filterMap] at h
  obtain ⟨c, hc, hu⟩ := (h.resolve_left List.not_mem_nil).1
  obtain ⟨r, hr, rfl⟩ := Option.map_eq_some_iff.mp hu
  exact .inr ⟨c, hc, r, hr, rfl⟩

/-- The tasks of a table are about tables that it needs. -/
theorem Table.needs_of_mem_tasks {table : Table} {elsewhere : List String} {task : Task}
    (h : task ∈ table.tasks elsewhere) : table.Needs task.name := by
  rcases List.mem_cons.mp h with rfl | h
  · exact .inl rfl
  · obtain ⟨u, hu, rfl⟩ := List.mem_map.mp h
    exact needs_of_mem_referenced (List.mem_filter.mp hu).1

namespace Store

variable {s : Store} {force : Force} {t t' t₁ : FileTree} {e : Error} {task : Task}
  {tasks front repair : List Task} {loc : Location} {names : String → Prop}

/-! ## Changes in a store -/

/-- An entry is a new directory on the way to the store's own. -/
def IsPaved (s : Store) (t t' : FileTree) (l : Location) : Prop :=
  t.get? l = none ∧ t'.get? l = some .dir ∧ ∃ p, Path.ofDir s.dir = .ok p ∧
    (treeAfter (FileTree.makeDirs s.dir t)).OnTheWay p.absolute p.normalSteps l

/-- An entry is the artifact of a table: it lies in the store's directory itself, once this has been
made, and the path of the table leads there. -/
def IsStored (s : Store) (n : String) (t t' : FileTree) (l : Location) : Prop :=
  ∃ (t₁ : FileTree) (loc : Location) (a : Artifact), FileTree.makeDirs s.dir t = .ok () t₁ ∧
    s.LiesAt t₁ loc ∧ l = loc ++ [n ++ ".json"] ∧ t₁.Names (s.pathFor n) l ∧ a.table = n ∧
    t'.get? l = some (.file a.encode.toUTF8)

/-- **All changes are confined to a store**: new directories on the way to its own, and artifacts of
tables with a name that is an identifier and one of the given names. -/
structure Confines (s : Store) (names : String → Prop) (t t' : FileTree) : Prop where
  here : t'.here = t.here
  get?_or : ∀ l, t'.get? l = t.get? l ∨ s.IsPaved t t' l ∨
    ∃ n, names n ∧ isIdentifier n.toList ∧ s.IsStored n t t' l

theorem Confines.refl (s : Store) (names : String → Prop) (t : FileTree) : s.Confines names t t :=
  ⟨rfl, fun _ => .inl rfl⟩

/-- Making the store's directory changes nothing else. -/
theorem confines_makeDirs (s : Store) (names : String → Prop) (t : FileTree) :
    s.Confines names t (treeAfter (FileTree.makeDirs s.dir t)) := by
  cases hp : Path.ofDir s.dir with
  | ok p =>
    have hpaves := FileTree.paves_makeDirs hp t
    refine ⟨hpaves.here, fun l => (hpaves.get?_or l).imp_right fun ⟨hnone, hdir, hway⟩ => ?_⟩
    exact .inl ⟨hnone, hdir, p, hp, hway⟩
  | error fault =>
    rw [FileTree.makeDirs_of_ofDir_error hp, treeAfter_error]
    exact .refl s names t

/-- **Writes that succeed are confined to the store.** -/
theorem confines_of_writes (hne : tasks ≠ [])
    (hid : ∀ task ∈ tasks, isIdentifier task.name.toList) (hn : ∀ task ∈ tasks, names task.name)
    (h : s.Writes force tasks t t') : s.Confines names t t' := by
  obtain ⟨t₁, loc, hm, hsteps⟩ := (writes_iff_steps hne hid).mp h
  have hl := hsteps.liesAt hne
  have hmade := confines_makeDirs s names t
  rw [hm] at hmade
  refine ⟨hsteps.here_eq.trans hmade.here, fun l => ?_⟩
  rcases hsteps.get?_or l with hsame | ⟨task, hmem, rfl, hnode⟩
  · unfold IsPaved IsStored
    rw [hsame]
    exact hmade.get?_or l
  · exact .inr (.inr ⟨task.name, hn task hmem, hid task hmem, t₁, loc, task.artifact, hm, hl, rfl,
      hl.names (hid task hmem) (hsteps.fits hmem), rfl, hnode⟩)

/-! ## Actions that follow a script

An action is taken to the tasks that succeeded, and the names of these tasks are known from its
script. -/

/-- **A write that fails after others have succeeded leaves the tree as it is.** -/
theorem Writes.eq_of_write_error (h : s.Writes force front t t₁) (hne : front ≠ [])
    (hid : ∀ task ∈ front, isIdentifier task.name.toList) {a : Artifact} {policy : Policy}
    (he : s.write a policy t₁ = .error e t') : t' = t₁ := by
  rcases tree_of_write_error he with hsame | hmade
  · exact hsame
  · rw [hmade, treeAfter_makeDirs_of_writes hne hid h]

/-- Of the tasks that are tried after others have succeeded, some succeed, and that is all. -/
theorem Writes.exists_tryAll (h : s.Writes force front t t₁) (hne : front ≠ [])
    (hid : ∀ task ∈ front ++ repair, isIdentifier task.name.toList) :
    ∃ more ⊆ repair, s.Writes force (front ++ more) t (s.tryAll force repair t₁) := by
  induction repair generalizing front t₁ with
  | nil => exact ⟨[], List.Subset.refl _, by simpa [tryAll] using h⟩
  | cons task repair ih =>
    rw [tryAll]
    cases hw : s.write task.artifact (task.policy force) t₁ with
    | ok o t₂ =>
      have hfront : s.Writes force (front ++ [task]) t t₂ := h.append (.cons hw (.nil t₂))
      obtain ⟨more, hsub, hmore⟩ := ih hfront (by simp) (by simpa using hid)
      refine ⟨task :: more, List.cons_subset_cons task hsub, ?_⟩
      simpa using hmore
    | error e t₂ =>
      obtain rfl := h.eq_of_write_error hne (fun x hx => hid x (by simp [hx])) hw
      obtain ⟨more, hsub, hmore⟩ := ih h hne fun x hx => hid x (by
        rcases List.mem_append.mp hx with hx | hx <;> simp [hx])
      exact ⟨more, List.Subset.trans hsub (List.subset_cons_self task repair), hmore⟩

end Store

/-- Tasks of a script, the first of which succeed: those up to its end, or those up to where it
stops and what is tried then. -/
def Script.Offers {β : Type} (script : Script β) (s : Store) (force : Force) (t : FileTree)
    (tasks : List Task) : Prop :=
  (∃ b t₁, script.ends tasks b ∧ s.Writes force tasks t t₁) ∨
    ∃ front stop repair t₁, script.halts front stop repair ∧ s.Writes force front t t₁ ∧
      tasks ⊆ front ++ repair

namespace Store

variable {s : Store} {force : Force} {t : FileTree} {α β : Type} {view : α → β}
  {action : FileM Error α} {script : Script β} {names : String → Prop}

/-- Where some tasks of a script have succeeded and it stops, there is nothing but tasks of it that
have succeeded: a write that fails then leaves the tree alone. -/
theorem exists_writes_of_halts (hr : script.IsRegular) {front repair : List Task} {stop : Stop}
    {e : Error} {t₁ t₂ : FileTree} (hne : front ≠ []) (hhalts : script.halts front stop repair)
    (hwrites : s.Writes force front t t₁) (hfail : s.Fails force stop e t₁ t₂) :
    ∃ tasks, tasks ≠ [] ∧ (∀ task ∈ tasks, isIdentifier task.name.toList) ∧
      script.Offers s force t tasks ∧ s.Writes force tasks t (s.tryAll force repair t₂) := by
  have hid := hr.isIdentifier_of_halts hhalts
  obtain rfl : t₂ = t₁ := by
    cases stop with
    | fault e' => exact hfail.2
    | task task => exact hwrites.eq_of_write_error hne (hr.isIdentifier_of_front hhalts) hfail
  obtain ⟨more, hsub, hmore⟩ := hwrites.exists_tryAll hne hid
  have hall : front ++ more ⊆ front ++ repair := List.append_subset.mpr
    ⟨List.subset_append_left front repair,
      List.Subset.trans hsub (List.subset_append_right front repair)⟩
  exact ⟨front ++ more, by simp [hne], fun x hx => hid x (hall hx),
    .inr ⟨front, stop, repair, t₂, hhalts, hwrites, hall⟩, hmore⟩

/-- **What an action that follows a script can do to a tree**: nothing, make the store's directory,
or have tasks of the script succeed. -/
theorem Follows.exists_writes (h : s.Follows force view action script) (hr : script.IsRegular)
    (t : FileTree) :
    treeAfter (action t) = t ∨ treeAfter (action t) = treeAfter (FileTree.makeDirs s.dir t) ∨
      ∃ tasks, tasks ≠ [] ∧ (∀ task ∈ tasks, isIdentifier task.name.toList) ∧
        script.Offers s force t tasks ∧ s.Writes force tasks t (treeAfter (action t)) := by
  cases hresult : action t with
  | ok a t' =>
    obtain ⟨tasks, hends, hwrites⟩ := h.ok_iff.mp ⟨a, hresult, rfl⟩
    by_cases hne : tasks = []
    · subst hne
      cases hwrites
      exact .inl rfl
    · exact .inr (.inr ⟨tasks, hne, hr.isIdentifier_of_ends hends,
        .inl ⟨_, _, hends, hwrites⟩, hwrites⟩)
  | error e t' =>
    obtain ⟨front, stop, repair, t₁, t₂, hhalts, hwrites, hfail, rfl⟩ := h.error_iff.mp hresult
    by_cases hne : front = []
    · obtain rfl := hr.repair_eq_nil hhalts hne
      subst hne
      cases hwrites
      cases stop with
      | fault e' => exact .inl hfail.2
      | task task => exact (tree_of_write_error hfail).imp_right .inl
    · exact .inr (.inr (exists_writes_of_halts hr hne hhalts hwrites hfail))

/-- **An action that follows a script is confined to the store**, and to the names of the script's
tasks. -/
theorem Follows.confines (h : s.Follows force view action script) (hr : script.IsRegular)
    (hn : ∀ {tasks}, script.Offers s force t tasks → ∀ task ∈ tasks, names task.name) :
    s.Confines names t (treeAfter (action t)) := by
  rcases h.exists_writes hr t with hsame | hmade | ⟨tasks, hne, hid, hoffers, hwrites⟩
  · rw [hsame]
    exact .refl s names t
  · rw [hmade]
    exact confines_makeDirs s names t
  · exact confines_of_writes hne hid (hn hoffers) hwrites

/-! ## Tables and documents -/

theorem exists_needs_of_offers {name : String} {tokens : List String} {opts : Options}
    {elsewhere : List String} {tasks : List Task}
    (h : (generateScript name tokens opts elsewhere).Offers s force t tasks) {task : Task}
    (hm : task ∈ tasks) :
    ∃ table, Table.build name tokens opts = .ok table ∧ table.Needs task.name := by
  rcases h with ⟨a, t₁, ⟨table, hb, rfl, -⟩, -⟩ | ⟨front, stop, repair, t₁, hhalts, -, hsub⟩
  · exact ⟨table, hb, Table.needs_of_mem_tasks hm⟩
  · have hm := hsub hm
    cases hhalts with
    | unbuilt hb => exact nomatch hm
    | unwritten hb htasks =>
      rw [List.append_nil] at hm
      exact ⟨_, hb, Table.needs_of_mem_tasks (htasks ▸ List.mem_append_left _ hm)⟩

end Store

namespace Batch.Document

variable {d : Document} {store : Store} {base : Options} {force : Force} {t t₁ : FileTree}
  {tables : List Table} {table : Table}

/-- The table of an entry that a run gets to needs a table. -/
def Needs (d : Document) (store : Store) (base : Options) (force : Force) (t : FileTree)
    (n : String) : Prop :=
  ∃ done t₁ table, d.Ran store base force t done t₁ ∧ d.tableAt base done.length = .ok table ∧
    table.Needs n

/-- Tables whose plan succeeds are those of entries that a run gets to. -/
theorem Builds.needs (hb : d.Builds base tables)
    (h : store.Writes force (plan d.declared [] tables) t t₁) (hm : table ∈ tables) {n : String}
    (hn : table.Needs n) : d.Needs store base force t n := by
  obtain ⟨done, hran, hg⟩ := exists_ran_of_plan hb h
  have hlength : done.length = tables.length := by simpa using congrArg List.length hg
  obtain ⟨i, hi⟩ := List.getElem?_of_mem hm
  have hlt : i < done.length := hlength ▸ (List.getElem?_eq_some_iff.mp hi).1
  obtain ⟨front, t₂, -, -, hfront, rfl, -⟩ := hran.exists_of_lt hlt
  exact ⟨front, t₂, table, hfront, hb _ table hi, hn⟩

theorem Builds.needs_next (hb : d.Builds base tables)
    (h : store.Writes force (plan d.declared [] tables) t t₁)
    (htable : d.tableAt base tables.length = .ok table) {n : String} (hn : table.Needs n) :
    d.Needs store base force t n := by
  obtain ⟨done, hran, hg⟩ := exists_ran_of_plan hb h
  have hlength : done.length = tables.length := by simpa using congrArg List.length hg
  exact ⟨done, t₁, table, hran, hlength ▸ htable, hn⟩

/-- A task of a plan, or a stub that is missing after it, is about a table that one of its tables
needs. -/
theorem exists_needs_of_mem {declared : List String} {task : Task}
    (h : task ∈ plan declared [] tables ++ missing declared tables) :
    ∃ table ∈ tables, table.Needs task.name := by
  rcases List.mem_append.mp h with h | h
  · obtain ⟨table, hm, rfl | ⟨u, hu, rfl⟩⟩ := exists_of_mem_plan h
    · exact ⟨table, hm, .inl rfl⟩
    · exact ⟨table, hm, Table.needs_of_mem_referenced hu⟩
  · obtain ⟨n, hn, rfl⟩ := List.mem_map.mp h
    obtain ⟨table, hm, hu⟩ := exists_of_mem_deferrals (List.mem_filter.mp hn).1
    exact ⟨table, hm, Table.needs_of_mem_referenced hu⟩

theorem needs_of_offers {tasks : List Task} (h : (d.script base).Offers store force t tasks)
    {task : Task} (hm : task ∈ tasks) : d.Needs store base force t task.name := by
  rcases h with ⟨artifacts, t₁, ⟨tables, hb, -, rfl, -⟩, hwrites⟩ |
    ⟨front, stop, repair, t₁, hhalts, hwrites, hsub⟩
  · obtain ⟨table, htable, hn⟩ := exists_needs_of_mem (List.mem_append_left _ hm)
    exact hb.needs hwrites htable hn
  · have hm := hsub hm
    cases hhalts with
    | unbuilt hb hlt h =>
      obtain ⟨table, htable, hn⟩ := exists_needs_of_mem hm
      exact hb.needs hwrites htable hn
    | @unwritten tables table front back last hb hlt h htasks =>
      obtain ⟨t₂, hplan, -⟩ := hwrites.exists_mid
      rw [List.append_assoc, List.mem_append, List.mem_append] at hm
      by_cases hfront : task ∈ front
      · have htask := htasks ▸ List.mem_append_left (last :: back) hfront
        exact hb.needs_next hplan h (Table.needs_of_mem_tasks htask)
      · have hrest : task ∈ plan d.declared [] tables ++ missing d.declared tables := by
          rw [List.mem_append]
          tauto
        obtain ⟨table, htable, hn⟩ := exists_needs_of_mem hrest
        exact hb.needs hplan htable hn

/-- **Nothing is written outside of the store's directory.** Whatever the texts that a table or a
document is read from, and whatever becomes of the call: all that generating a table or running a
document changes are artifacts in the store's directory itself, each of a table that was built or of
one that it refers to, at the path of that name, which is an identifier; and new directories on the
way to the store's own. -/
theorem confines_generate_and_run (s : Store) (force : Force) (t : FileTree) :
    (∀ (name : String) (tokens : List String) (opts : Options) (elsewhere : List String),
      s.Confines (fun n => ∃ table, Table.build name tokens opts = .ok table ∧ table.Needs n) t
        (treeAfter (s.generate name tokens opts force elsewhere t))) ∧
      ∀ (d : Document) (base : Options),
        s.Confines (d.Needs s base force t) t (treeAfter (d.run s base force t)) := by
  constructor
  · intro name tokens opts elsewhere
    exact (s.follows_generate name tokens opts force elsewhere).confines
      (Store.isRegular_generateScript name tokens opts elsewhere)
      fun hoffers _ hm => Store.exists_needs_of_offers hoffers hm
  · intro d base
    exact (d.follows_run s base force).confines (d.isRegular_script base)
      fun hoffers _ hm => needs_of_offers hoffers hm

end Batch.Document

end Tablature
