import Tablature.Generate
import Tablature.Proofs.Store.Write

/-!
# Proofs/Store/Writes — what a sequence of writes leaves

A run asks a store for one write after another: a table, which is refused or replaces what is there,
or a stub, which gives way.  `Writes` is such a sequence in which every write succeeds, and `Steps`
the same seen from the store's directory: `writes_iff_steps` says that after the directory has been
made they are one thing.  A sequence that ends at a task that fails is `FailsIn`.

* `Steps.get?_artifactAt`, `Steps.get?_of_ne` — what is there at the end: the last table of a name;
  without one, what was there before, or a stub if nothing was;
* `Steps.liesAt_or_replaced` — the directory is where it was, unless the very last write was a
  forced table in the place of a link.
-/

namespace Tablature

open FileTree (Grows)

/-- A write that a run asks for. -/
inductive Task where
  | table (a : Artifact)
  | stub (name : String)
deriving DecidableEq

namespace Task

/-- The artifact that is written. -/
def artifact : Task → Artifact
  | table a => a
  | stub name => (Table.stub name).artifact

/-- What is done about an artifact that is there. -/
def policy (force : Force) : Task → Policy
  | table _ => .primary force
  | stub _ => .stub

/-- The table that is written. -/
def name (task : Task) : String := task.artifact.table

/-- The file that is written. -/
def node (task : Task) : Node := .file task.artifact.encode.toUTF8

@[simp] theorem name_table (a : Artifact) : (table a).name = a.table := rfl

@[simp] theorem name_stub (n : String) : (stub n).name = n := rfl

/-- The tables among tasks. -/
def tables (tasks : List Task) : List Artifact :=
  tasks.filterMap fun
    | table a => some a
    | stub _ => none

@[simp] theorem tables_nil : tables [] = [] := rfl

@[simp] theorem tables_table (a : Artifact) (tasks : List Task) :
    tables (table a :: tasks) = a :: tables tasks := rfl

@[simp] theorem tables_stub (n : String) (tasks : List Task) :
    tables (stub n :: tasks) = tables tasks := rfl

@[simp] theorem tables_append (front back : List Task) :
    tables (front ++ back) = tables front ++ tables back :=
  List.filterMap_append

@[simp] theorem tables_map_stub (names : List String) : tables (names.map stub) = [] := by
  induction names with
  | nil => rfl
  | cons n names ih => exact ih

/-- A table among those of some tasks is one of the tasks. -/
theorem table_mem_of_mem_tables {a : Artifact} {tasks : List Task} (h : a ∈ tables tasks) :
    table a ∈ tasks := by
  obtain ⟨task, hmem, he⟩ := List.mem_filterMap.mp h
  cases task with
  | table b => exact Option.some.inj he ▸ hmem
  | stub n => exact nomatch he

end Task

/-- The last artifact of a name. -/
def lastNamed (name : String) (artifacts : List Artifact) : Option Artifact :=
  (artifacts.filter (·.table == name)).getLast?

/-- The last artifact of a name is one behind the first, or else the first itself. -/
theorem lastNamed_cons (name : String) (a : Artifact) (artifacts : List Artifact) :
    lastNamed name (a :: artifacts) =
      (lastNamed name artifacts).or (if a.table = name then some a else none) := by
  by_cases ha : a.table = name
  · simp only [lastNamed, List.filter_cons, ha, beq_self_eq_true, if_true, List.getLast?_cons]
    cases (artifacts.filter (·.table == name)).getLast? <;> rfl
  · simp [lastNamed, ha]

/-- There is no last artifact of a name exactly if there is none of it. -/
theorem lastNamed_eq_none_iff {name : String} {artifacts : List Artifact} :
    lastNamed name artifacts = none ↔ ∀ a ∈ artifacts, a.table ≠ name := by
  simp [lastNamed]

/-- What tasks leave at the location of a table, where there was `before`: the last table of that
name; without one, a stub only where there was nothing. -/
def settled (name : String) (tasks : List Task) (before : Option Node) : Option Node :=
  match lastNamed name (Task.tables tasks) with
  | some a => some (Task.table a).node
  | none => if .stub name ∈ tasks then before.or (some (Task.stub name).node) else before

/-- **What tasks leave can be told one task at a time.** -/
theorem settled_cons (name : String) (task : Task) (tasks : List Task) (before : Option Node) :
    settled name (task :: tasks) before = settled name tasks (settled name [task] before) := by
  unfold settled
  cases task with
  | table a =>
    rw [Task.tables_table, Task.tables_table, lastNamed_cons, lastNamed_cons]
    cases lastNamed name (Task.tables tasks) with
    | some b => rfl
    | none => by_cases ha : a.table = name <;> simp [ha, lastNamed]
  | stub n =>
    rw [Task.tables_stub, Task.tables_stub]
    cases lastNamed name (Task.tables tasks) with
    | some b => rfl
    | none =>
      by_cases hn : n = name
      · subst hn
        by_cases hm : Task.stub n ∈ tasks <;> cases before <;> simp [hm, lastNamed]
      · simp [Ne.symm hn, lastNamed]

/-- **Where there was something, or where a task is, there is something.** -/
theorem settled_ne_none {name : String} {tasks : List Task} {before : Option Node}
    (h : before ≠ none ∨ ∃ task ∈ tasks, task.name = name) : settled name tasks before ≠ none := by
  unfold settled
  cases hlast : lastNamed name (Task.tables tasks) with
  | some a => simp
  | none =>
    rcases h with h | ⟨task, hmem, hname⟩
    · obtain ⟨node, rfl⟩ := Option.ne_none_iff_exists'.mp h
      split <;> simp
    · cases task with
      | table a =>
        have ha : a ∈ Task.tables tasks := List.mem_filterMap.mpr ⟨_, hmem, rfl⟩
        exact absurd hname (lastNamed_eq_none_iff.mp hlast a ha)
      | stub n =>
        obtain rfl : n = name := hname
        rw [if_pos hmem]
        cases before <;> simp

/-- The last task is what stays, if it is a table. -/
theorem settled_concat_table (tasks : List Task) (a : Artifact) (before : Option Node) :
    settled a.table (tasks ++ [.table a]) before = some (Task.table a).node := by
  have hlast : lastNamed a.table (Task.tables (tasks ++ [.table a])) = some a := by
    simp [lastNamed]
  rw [settled, hlast]

namespace Store

variable {s : Store} {force : Force} {loc : Location} {task : Task} {tasks : List Task}
  {t t' t₁ : FileTree} {e : Error}

/-! ## Sequences of writes

The writes of a sequence change the tree one after another.  Each makes the store's directory first;
once it is there it stays where it is, so that the sequence can be seen from that one location. -/

/-- Tasks that all succeed, one after another. -/
inductive Writes (s : Store) (force : Force) : List Task → FileTree → FileTree → Prop
  | nil (t : FileTree) : Writes s force [] t t
  | cons {task : Task} {tasks : List Task} {t t₁ t₂ : FileTree} {o : Outcome}
    (h : s.write task.artifact (task.policy force) t = .ok o t₁) (hs : Writes s force tasks t₁ t₂) :
    Writes s force (task :: tasks) t t₂

/-- What one task does at the location of its artifact, if it succeeds. -/
inductive Puts (force : Force) (loc : Location) : Task → FileTree → FileTree → Prop
  | new {task : Task} {t : FileTree} (h : t.get? (artifactAt loc task.name) = none) :
    Puts force loc task t (t.set (artifactAt loc task.name) task.node)
  | forced {a : Artifact} {t : FileTree} {node : Node} (hf : force.isSet = true)
    (h : t.get? (artifactAt loc a.table) = some node) (hn : node ≠ .dir) :
    Puts force loc (.table a) t (t.set (artifactAt loc a.table) (Task.table a).node)
  | kept {name : String} {t : FileTree} (h : t.get? (artifactAt loc name) ≠ none) :
    Puts force loc (.stub name) t t

/-- Tasks that all succeed, seen from the store's directory. -/
inductive Steps (s : Store) (force : Force) (loc : Location) :
    List Task → FileTree → FileTree → Prop
  | nil (t : FileTree) : Steps s force loc [] t t
  | cons {task : Task} {tasks : List Task} {t t₁ t₂ : FileTree} (hl : s.LiesAt t loc)
    (hf : s.Fits task.name) (hp : Puts force loc task t t₁) (hs : Steps s force loc tasks t₁ t₂) :
    Steps s force loc (task :: tasks) t t₂

/-- What succeeds at a location puts its task there. -/
theorem puts_of_settle {present : Bool} {o : Outcome}
    (h : s.settle task.artifact (task.policy force) present loc t = .ok o t') :
    Puts force loc task t t' := by
  unfold settle at h
  cases hget : t.get? (artifactAt loc task.artifact.table) with
  | none =>
    simp only [hget] at h
    obtain ⟨-, rfl⟩ := EStateM.Result.ok.inj h
    exact .new hget
  | some node =>
    cases task with
    | stub name =>
      simp only [hget, Task.policy, Policy.stub] at h
      obtain ⟨-, rfl⟩ := EStateM.Result.ok.inj h
      exact .kept (by simp [show t.get? (artifactAt loc name) = some node from hget])
    | table a =>
      cases hforce : force.isSet with
      | false => simp [hget, Task.policy, Policy.primary, hforce] at h
      | true =>
        simp only [hget, Task.policy, Policy.primary, hforce, if_true] at h
        cases node with
        | dir => simp at h
        | file bytes =>
          obtain ⟨-, rfl⟩ := EStateM.Result.ok.inj h
          exact .forced hforce hget (by simp)
        | link target =>
          obtain ⟨-, rfl⟩ := EStateM.Result.ok.inj h
          exact .forced hforce hget (by simp)

/-- A task that can be put at a location succeeds there. -/
theorem exists_settle_of_puts (h : Puts force loc task t t') (present : Bool) :
    ∃ o, s.settle task.artifact (task.policy force) present loc t = .ok o t' := by
  unfold settle
  cases h with
  | new h =>
    rw [show t.get? (artifactAt loc task.artifact.table) = none from h]
    exact ⟨_, rfl⟩
  | @forced a _ node hf h hn =>
    have hpolicy : (Task.table a).policy force = .replace := by
      simp [Task.policy, Policy.primary, hf]
    rw [show t.get? (artifactAt loc (Task.table a).artifact.table) = some node from h, hpolicy]
    cases node with
    | dir => exact absurd rfl hn
    | file bytes => exact ⟨_, rfl⟩
    | link target => exact ⟨_, rfl⟩
  | @kept name _ h =>
    obtain ⟨node, hnode⟩ := Option.ne_none_iff_exists'.mp h
    rw [show t.get? (artifactAt loc (Task.stub name).artifact.table) = some node from hnode]
    cases node with
    | dir => exact ⟨_, rfl⟩
    | file bytes => exact ⟨_, rfl⟩
    | link target => exact ⟨_, rfl⟩

/-- **One write that succeeds**, after the store's directory has been made. -/
theorem exists_write_iff (hid : isIdentifier task.name.toList) :
    (∃ o, s.write task.artifact (task.policy force) t = .ok o t') ↔
      ∃ t₁ loc, FileTree.makeDirs s.dir t = .ok () t₁ ∧ s.LiesAt t₁ loc ∧ s.Fits task.name ∧
        Puts force loc task t₁ t' := by
  constructor
  · rintro ⟨o, h⟩
    obtain ⟨t₁, loc, hm, hl, hf, hsettle⟩ := exists_of_write hid h nofun
    exact ⟨t₁, loc, hm, hl, hf, puts_of_settle hsettle.symm⟩
  · rintro ⟨t₁, loc, hm, hl, hf, hp⟩
    rw [write_eq_settle hid hm hl hf]
    exact exists_settle_of_puts hp _

/-! ## Tasks up to one that fails

An action that writes one task after another fails with the first that does, and the tree then has
what the tasks before it have written. -/

/-- One of some tasks fails, after those before it have succeeded. -/
def FailsIn (s : Store) (force : Force) (tasks : List Task) (e : Error) (t t' : FileTree) : Prop :=
  ∃ front task back t₁, tasks = front ++ task :: back ∧ s.Writes force front t t₁ ∧
    s.write task.artifact (task.policy force) t₁ = .error e t'

/-- Without tasks none fails. -/
theorem not_failsIn_nil : ¬ s.FailsIn force [] e t t' := by
  rintro ⟨front, task, back, t₁, h, -⟩
  simp at h

/-- **Either the first task fails, or it succeeds and one of the others fails.** -/
theorem failsIn_cons : s.FailsIn force (task :: tasks) e t t' ↔
    s.write task.artifact (task.policy force) t = .error e t' ∨
      ∃ o t₁, s.write task.artifact (task.policy force) t = .ok o t₁ ∧
        s.FailsIn force tasks e t₁ t' := by
  constructor
  · rintro ⟨front, last, back, t₁, htasks, hwrites, hfail⟩
    cases hwrites with
    | nil =>
      obtain ⟨rfl, -⟩ := List.cons.inj htasks
      exact .inl hfail
    | cons h hs =>
      obtain ⟨rfl, hrest⟩ := List.cons.inj htasks
      exact .inr ⟨_, _, h, _, last, back, t₁, hrest, hs, hfail⟩
  · rintro (h | ⟨o, t₁, h, front, last, back, t₂, rfl, hwrites, hfail⟩)
    · exact ⟨[], task, tasks, t, rfl, .nil t, h⟩
    · exact ⟨task :: front, last, back, t₂, rfl, .cons h hwrites, hfail⟩

/-! ## The directory during a sequence

A task puts a file in the directory and none in its way, unless the file takes the place of a link
that the directory is reached by. -/

/-- A task leaves the working directory. -/
theorem Puts.here_eq (h : Puts force loc task t t') : t'.here = t.here := by
  cases h with
  | new h => exact FileTree.here_set t _ _
  | forced hf h hn => exact FileTree.here_set t _ _
  | kept h => rfl

/-- **A task leaves the store's directory where it is, or replaces a link on the way to it.** -/
theorem Puts.liesAt_or (hl : s.LiesAt t loc) (h : Puts force loc task t t') :
    s.LiesAt t' loc ∨ s.IsBlockedIn t' ∧ force.isSet = true ∧
      ∃ a target, task = .table a ∧ t.get? (artifactAt loc a.table) = some (.link target) := by
  cases h with
  | new h => exact .inl (hl.of_grows (FileTree.grows_set h _) (FileTree.here_set t _ _))
  | kept h => exact .inl hl
  | @forced a _ node hf h hn =>
    rcases hl.set (artifactAt loc a.table) a.encode.toUTF8 with hl | ⟨hblocked, target, ht⟩
    · exact .inl hl
    · exact .inr ⟨hblocked, hf, a, target, rfl, ht⟩

/-- Sequences of tasks are put together. -/
theorem Steps.append {front back : List Task} (h : Steps s force loc front t t₁)
    (h' : Steps s force loc back t₁ t') : Steps s force loc (front ++ back) t t' := by
  induction h with
  | nil t => exact h'
  | cons hl hf hp hs ih => exact .cons hl hf hp (ih h')

/-- **While the store's directory leads to a location, all writes are seen from there.** -/
theorem steps_of_writes (hid : ∀ task ∈ tasks, isIdentifier task.name.toList)
    (hl : s.LiesAt t loc) (h : Writes s force tasks t t') : Steps s force loc tasks t t' := by
  induction h with
  | nil t => exact .nil t
  | @cons task tasks t t₁ t₂ o h hs ih =>
    obtain ⟨t₀, loc', hm, hl', hf, hp⟩ :=
      (exists_write_iff (hid task (by simp))).mp ⟨o, h⟩
    obtain ⟨-, rfl⟩ := EStateM.Result.ok.inj (hl.makeDirs_eq.symm.trans hm)
    obtain rfl := hl.unique hl'
    refine .cons hl hf hp ?_
    rcases hp.liesAt_or hl with hl₁ | ⟨hblocked, -⟩
    · exact ih (fun task hmem => hid task (by simp [hmem])) hl₁
    · -- a blocked store takes no more writes, so this one was the last
      cases hs with
      | nil => exact .nil t₁
      | @cons next _ _ _ _ o' h' _ =>
        obtain ⟨path, fault, he⟩ :=
          error_of_isBlockedIn (hid next (by simp)) hblocked (next.policy force)
        exact nomatch he.symm.trans h'

/-- Tasks that succeed at the store's directory are writes that succeed. -/
theorem writes_of_steps (hid : ∀ task ∈ tasks, isIdentifier task.name.toList)
    (h : Steps s force loc tasks t t') : Writes s force tasks t t' := by
  induction h with
  | nil t => exact .nil t
  | @cons task tasks t t₁ t₂ hl hf hp hs ih =>
    obtain ⟨o, h⟩ :=
      (exists_write_iff (hid task (by simp))).mpr ⟨t, loc, hl.makeDirs_eq, hl, hf, hp⟩
    exact .cons h (ih fun task hmem => hid task (by simp [hmem]))

/-- **A sequence of writes that succeed is one seen from the store's directory**, once this has been
made. -/
theorem writes_iff_steps (hne : tasks ≠ []) (hid : ∀ x ∈ tasks, isIdentifier x.name.toList) :
    Writes s force tasks t t' ↔
      ∃ t₁ loc, FileTree.makeDirs s.dir t = .ok () t₁ ∧ Steps s force loc tasks t₁ t' := by
  obtain ⟨task, tasks, rfl⟩ := List.exists_cons_of_ne_nil hne
  have hwrite : ∀ {t₁ loc}, FileTree.makeDirs s.dir t = .ok () t₁ → s.LiesAt t₁ loc →
      ∀ {t₂}, (∃ o, s.write task.artifact (task.policy force) t = .ok o t₂) ↔
        ∃ o, s.write task.artifact (task.policy force) t₁ = .ok o t₂ := by
    intro t₁ loc hm hl t₂
    rw [exists_write_iff (hid task (by simp)), exists_write_iff (hid task (by simp))]
    have hm' := hl.makeDirs_eq
    constructor
    · rintro ⟨t₀, loc', hm₀, h⟩
      obtain ⟨-, rfl⟩ := EStateM.Result.ok.inj (hm.symm.trans hm₀)
      exact ⟨t₁, loc', hm', h⟩
    · rintro ⟨t₀, loc', hm₀, h⟩
      obtain ⟨-, rfl⟩ := EStateM.Result.ok.inj (hm'.symm.trans hm₀)
      exact ⟨t₁, loc', hm, h⟩
  constructor
  · intro h
    cases h with
    | @cons _ _ _ t₂ _ o h hs =>
      obtain ⟨t₁, loc, hm, hl, hf, hp⟩ := (exists_write_iff (hid task (by simp))).mp ⟨o, h⟩
      obtain ⟨o', h'⟩ := (hwrite hm hl).mp ⟨o, h⟩
      exact ⟨t₁, loc, hm, steps_of_writes hid hl (.cons h' hs)⟩
  · rintro ⟨t₁, loc, hm, h⟩
    cases h with
    | cons hl hf hp hs =>
      cases writes_of_steps hid (.cons hl hf hp hs) with
      | @cons _ _ _ t₂ _ o h' hs' =>
        obtain ⟨o', h⟩ := (hwrite hm hl).mpr ⟨o, h'⟩
        exact .cons h hs'

/-- The store lies at the location that its tasks are seen from. -/
theorem Steps.liesAt (h : Steps s force loc tasks t t') (hne : tasks ≠ []) : s.LiesAt t loc := by
  cases h with
  | nil => exact absurd rfl hne
  | cons hl hf hp hs => exact hl

/-- The path and the name of a task that succeeds fit. -/
theorem Steps.fits (h : Steps s force loc tasks t t') (hm : task ∈ tasks) : s.Fits task.name := by
  induction h with
  | nil t => simp at hm
  | cons hl hf hp hs ih =>
    rcases List.mem_cons.mp hm with rfl | hm
    · exact hf
    · exact ih hm

/-! ## What is there at the end

At a location of a table only its own tasks count, in their order (`settled`); everything else is as
it was. -/

/-- A task leaves all locations but its own. -/
theorem Puts.get?_of_ne {l : Location} (h : Puts force loc task t t')
    (hl : l ≠ artifactAt loc task.name) : t'.get? l = t.get? l := by
  cases h with
  | new h => exact FileTree.get?_set_of_ne hl
  | forced hf h hn => exact FileTree.get?_set_of_ne hl
  | kept h => rfl

/-- **What one task leaves at the location of a table.** -/
theorem Puts.get?_artifactAt (hl : s.LiesAt t loc) (h : Puts force loc task t t') (name : String) :
    t'.get? (artifactAt loc name) = settled name [task] (t.get? (artifactAt loc name)) := by
  by_cases hname : task.name = name
  · subst hname
    cases h with
    | @new task _ h =>
      rw [FileTree.get?_set_self (hl.admits fun he => nomatch h.symm.trans he), h]
      cases task <;> simp [settled, lastNamed]
    | @forced a _ node hf h hn =>
      have hdir : t.get? (artifactAt loc a.table) ≠ some .dir := fun he =>
        hn (Option.some.inj (h.symm.trans he))
      rw [Task.name_table, FileTree.get?_set_self (hl.admits fun he => absurd he hdir)]
      simp [settled, lastNamed]
    | @kept n _ h =>
      obtain ⟨node, hnode⟩ := Option.ne_none_iff_exists'.mp h
      simp [settled, lastNamed, hnode]
  · rw [h.get?_of_ne fun e => hname (artifactAt_inj e).symm]
    cases task with
    | table a =>
      have ha : a.table ≠ name := hname
      simp [settled, lastNamed, ha]
    | stub n =>
      have hn : name ≠ n := fun e => hname e.symm
      simp [settled, lastNamed, hn]

/-- **What tasks leave at the location of a table.** -/
theorem Steps.get?_artifactAt (h : Steps s force loc tasks t t') (name : String) :
    t'.get? (artifactAt loc name) = settled name tasks (t.get? (artifactAt loc name)) := by
  induction h with
  | nil t => simp [settled, lastNamed]
  | cons hl hf hp hs ih => rw [ih, hp.get?_artifactAt hl, ← settled_cons]

/-- **Tasks change nothing elsewhere.** -/
theorem Steps.get?_of_ne {l : Location} (h : Steps s force loc tasks t t')
    (hl : ∀ task ∈ tasks, l ≠ artifactAt loc task.name) : t'.get? l = t.get? l := by
  induction h with
  | nil t => rfl
  | cons _ hf hp hs ih =>
    rw [ih fun task hmem => hl task (by simp [hmem]), hp.get?_of_ne (hl _ (by simp))]

theorem Steps.here_eq (h : Steps s force loc tasks t t') : t'.here = t.here := by
  induction h with
  | nil t => rfl
  | cons _ hf hp hs ih => rw [ih, hp.here_eq]

/-- A link that is there after a task was there before. -/
theorem Puts.link_of_link {l : Location} {target : String} (h : Puts force loc task t t')
    (hl : t'.get? l = some (.link target)) : t.get? l = some (.link target) := by
  by_cases he : l = artifactAt loc task.name
  · subst he
    cases h with
    | new h | forced hf h hn =>
      rw [FileTree.get?_set] at hl
      split at hl
      · exact nomatch hl
      · exact hl
    | kept h => exact hl
  · rwa [h.get?_of_ne he] at hl

/-- **The store's directory is where it was**, unless the very last write was that of a forced table
in the place of a link. -/
theorem Steps.liesAt_or_replaced (hl : s.LiesAt t loc) (h : Steps s force loc tasks t t') :
    s.LiesAt t' loc ∨ s.IsBlockedIn t' ∧ force.isSet = true ∧
      ∃ front a target, tasks = front ++ [.table a] ∧
        t.get? (artifactAt loc a.table) = some (.link target) := by
  induction h with
  | nil t => exact .inl hl
  | @cons task tasks t t₁ t₂ _ hf hp hs ih =>
    rcases hp.liesAt_or hl with hl₁ | ⟨hblocked, hforce, a, target, rfl, hlink⟩
    · rcases ih hl₁ with hl₂ | ⟨hblocked, hforce, front, a, target, rfl, hlink⟩
      · exact .inl hl₂
      · exact .inr ⟨hblocked, hforce, task :: front, a, target, rfl, hp.link_of_link hlink⟩
    · cases hs with
      | nil => exact .inr ⟨hblocked, hforce, [], a, target, rfl, hlink⟩
      | cons hl₁ _ _ _ => exact absurd hl₁ hblocked.not_liesAt

end Store

end Tablature
