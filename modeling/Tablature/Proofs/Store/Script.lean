import Tablature.Proofs.Store.Generate

/-!
# Proofs/Store/Script — actions told as writes, without a tree

What an action on a store writes, and in which order, depends on its arguments alone; the tree only
decides how far it gets.  So the ways that it can go can be told beforehand: a `Script` says which
tasks lead to which result, and after which tasks the action can stop and what it tries then.
`Follows` says that these are all the ways, and that each of them is taken where the tree allows it.

Here the script of generating a table: its tasks, up to the first that fails.
-/

namespace Tablature

/-- Where an action stops before its end: at an error of its own, or at a task that fails. -/
inductive Stop where
  | fault (e : Error)
  | task (task : Task)

/-- The ways an action can go. -/
structure Script (β : Type) where
  /-- After some tasks it ends, with a result. -/
  ends : List Task → β → Prop
  /-- After some tasks it stops, and then others are tried. -/
  halts : List Task → Stop → List Task → Prop

namespace Store

variable {s : Store} {force : Force} {t t' t₁ : FileTree} {e : Error} {task : Task}
  {tasks : List Task} {elsewhere targets : List String}

/-- What stops an action, and the tree then. -/
def Fails (s : Store) (force : Force) : Stop → Error → FileTree → FileTree → Prop
  | .fault e', e, t, t' => e = e' ∧ t' = t
  | .task task, e, t, t' => s.write task.artifact (task.policy force) t = .error e t'

/-- An action goes the ways of a script, as far as the tree allows it; of its result we look at a
view. -/
structure Follows {α β : Type} (s : Store) (force : Force) (view : α → β) (action : FileM Error α)
    (script : Script β) : Prop where
  ok_iff : ∀ {t t' b}, (∃ a, action t = .ok a t' ∧ view a = b) ↔
    ∃ tasks, script.ends tasks b ∧ s.Writes force tasks t t'
  error_iff : ∀ {t t' e}, action t = .error e t' ↔
    ∃ front stop repair t₁ t₂, script.halts front stop repair ∧ s.Writes force front t t₁ ∧
      s.Fails force stop e t₁ t₂ ∧ t' = s.tryAll force repair t₂

end Store

/-- What scripts have in common: their tasks are of identifiers, what is tried in the end are stubs,
and there are none of these if nothing was written; and an action that starts with a task can stop
there. -/
structure Script.IsRegular {β : Type} (script : Script β) : Prop where
  isIdentifier_of_ends : ∀ {tasks b}, script.ends tasks b →
    ∀ task ∈ tasks, isIdentifier task.name.toList
  isIdentifier_of_halts : ∀ {front stop repair}, script.halts front stop repair →
    ∀ task ∈ front ++ repair, isIdentifier task.name.toList
  isIdentifier_of_stop : ∀ {front task repair}, script.halts front (.task task) repair →
    isIdentifier task.name.toList
  stub_of_halts : ∀ {front stop repair}, script.halts front stop repair →
    ∀ task ∈ repair, ∃ n, task = .stub n
  repair_eq_nil : ∀ {front stop repair}, script.halts front stop repair → front = [] → repair = []
  halts_of_ends : ∀ {task tasks b}, script.ends (task :: tasks) b → script.halts [] (.task task) []
  halts_of_halts : ∀ {front stop repair task tasks}, script.halts front stop repair →
    front = task :: tasks → script.halts [] (.task task) []

namespace Script.IsRegular

variable {β : Type} {script : Script β} {front repair : List Task} {stop : Stop}

/-- The tasks before a failure are of identifiers. -/
theorem isIdentifier_of_front (hr : script.IsRegular) (h : script.halts front stop repair) :
    ∀ task ∈ front, isIdentifier task.name.toList :=
  fun task hm => hr.isIdentifier_of_halts h task (List.mem_append_left repair hm)

/-- So are those that are tried after it. -/
theorem isIdentifier_of_repair (hr : script.IsRegular) (h : script.halts front stop repair) :
    ∀ task ∈ repair, isIdentifier task.name.toList :=
  fun task hm => hr.isIdentifier_of_halts h task (List.mem_append_right front hm)

/-- So is the one that fails. -/
theorem isIdentifier_of_stops (hr : script.IsRegular) (h : script.halts front stop repair) :
    ∀ task, stop = .task task → isIdentifier task.name.toList := by
  rintro task rfl
  exact hr.isIdentifier_of_stop h

end Script.IsRegular

namespace Store

variable {s : Store} {force : Force} {t t' t₁ : FileTree} {e : Error} {task : Task}
  {tasks : List Task} {elsewhere targets : List String} {name : String} {tokens : List String}
  {opts : Options}

/-! ## Where generating a table fails -/

/-- **Generating a table fails** if it does not build, and else with the first of its tasks that
fails. -/
theorem generate_eq_error_iff :
    s.generate name tokens opts force elsewhere t = .error e t' ↔
      (Table.build name tokens opts = .error e ∧ t' = t) ∨
        ∃ table, Table.build name tokens opts = .ok table ∧
          s.FailsIn force (table.tasks elsewhere) e t t' := by
  unfold generate
  cases hb : Table.build name tokens opts with
  | error e' =>
    change (EStateM.Result.error e' t = .error e t') ↔ _
    simp [eq_comm]
  | ok table =>
    have htasks : s.FailsIn force (table.tasks elsewhere) e t t' ↔
        ∃ table', Except.ok table = (.ok table' : Except Error Table) ∧
          s.FailsIn force (table'.tasks elsewhere) e t t' := by
      simp
    simp only [reduceCtorEq, false_and, false_or]
    rw [← htasks, Table.tasks, failsIn_cons, run_bind_eq_error_iff]
    refine or_congr Iff.rfl (exists_congr fun o => exists_congr fun t₁ => and_congr Iff.rfl ?_)
    rw [← stubAll_eq_error_iff force]
    exact run_bind_pure_eq_error_iff

/-! ## The script of a table -/

/-- Generating a table stops where it does not build, or at one of its tasks. -/
inductive GenerateHalts (name : String) (tokens : List String) (opts : Options)
    (elsewhere : List String) : List Task → Stop → List Task → Prop
  | unbuilt {e : Error} (h : Table.build name tokens opts = .error e) :
    GenerateHalts name tokens opts elsewhere [] (.fault e) []
  | unwritten {table : Table} {front back : List Task} {task : Task}
    (h : Table.build name tokens opts = .ok table)
    (htasks : table.tasks elsewhere = front ++ task :: back) :
    GenerateHalts name tokens opts elsewhere front (.task task) []

/-- The script of generating a table. -/
def generateScript (name : String) (tokens : List String) (opts : Options)
    (elsewhere : List String) : Script Artifact where
  ends tasks a := ∃ table, Table.build name tokens opts = .ok table ∧
    tasks = table.tasks elsewhere ∧ a = table.artifact
  halts := GenerateHalts name tokens opts elsewhere

/-- **Generating a table goes the ways of its script**, and no other. -/
theorem follows_generate (s : Store) (name : String) (tokens : List String) (opts : Options)
    (force : Force) (elsewhere : List String) :
    s.Follows force Generated.artifact (s.generate name tokens opts force elsewhere)
      (generateScript name tokens opts elsewhere) where
  ok_iff := by
    intro t t' a
    constructor
    · rintro ⟨g, hg, rfl⟩
      obtain ⟨table, hb, hartifact, -, hwrites⟩ := exists_of_generate hg
      exact ⟨_, ⟨table, hb, rfl, hartifact⟩, hwrites⟩
    · rintro ⟨tasks, ⟨table, hb, rfl, rfl⟩, hwrites⟩
      obtain ⟨g, hg⟩ := exists_generate_of_writes hb hwrites
      obtain ⟨table', hb', hartifact, -⟩ := exists_of_generate hg
      obtain rfl := Except.ok.inj (hb.symm.trans hb')
      exact ⟨g, hg, hartifact⟩
  error_iff := by
    intro t t' e
    rw [generate_eq_error_iff]
    constructor
    · rintro (⟨hb, rfl⟩ | ⟨table, hb, front, task, back, t₁, htasks, hwrites, hfail⟩)
      · exact ⟨[], .fault e, [], t', t', .unbuilt hb, .nil t', ⟨rfl, rfl⟩, rfl⟩
      · exact ⟨front, .task task, [], t₁, t', .unwritten hb htasks, hwrites, hfail, rfl⟩
    · rintro ⟨front, stop, repair, t₁, t₂, hhalts, hwrites, hfail, rfl⟩
      cases hhalts with
      | unbuilt hb =>
        obtain ⟨rfl, rfl⟩ := hfail
        cases hwrites
        exact .inl ⟨hb, rfl⟩
      | unwritten hb htasks =>
        exact .inr ⟨_, hb, front, _, _, t₁, htasks, hwrites, hfail⟩

/-- The script of a table is regular. -/
theorem isRegular_generateScript (name : String) (tokens : List String) (opts : Options)
    (elsewhere : List String) : (generateScript name tokens opts elsewhere).IsRegular where
  isIdentifier_of_ends := by
    rintro tasks a ⟨table, hb, rfl, -⟩ task hm
    exact isIdentifier_of_mem_front hb (List.Subset.refl _) hm
  isIdentifier_of_halts h := by
    cases h with
    | unbuilt hb => simp
    | unwritten hb htasks =>
      intro task hm
      rw [List.append_nil] at hm
      exact isIdentifier_of_mem_front hb (List.Subset.refl _) (htasks ▸ List.mem_append_left _ hm)
  isIdentifier_of_stop := by
    intro front task repair h
    cases h with
    | @unwritten table _ back _ hb htasks =>
      have hm : task ∈ table.tasks elsewhere := by simp [htasks]
      exact isIdentifier_of_mem_front hb (List.Subset.refl _) hm
  stub_of_halts h := by cases h <;> simp
  repair_eq_nil h _ := by cases h <;> rfl
  halts_of_ends := by
    rintro task tasks a ⟨table, hb, htasks, -⟩
    exact .unwritten hb (htasks.symm.trans (List.nil_append _).symm)
  halts_of_halts h hfront := by
    cases h with
    | unbuilt hb => exact nomatch hfront
    | unwritten hb htasks =>
      rw [hfront, List.cons_append] at htasks
      exact .unwritten hb (htasks.trans (List.nil_append _).symm)

end Store

end Tablature
