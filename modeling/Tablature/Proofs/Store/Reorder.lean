import Mathlib.Data.List.Induction
import Tablature.Proofs.Store.Frame

/-!
# Proofs/Store/Reorder — tasks that succeed in one order and in another

Whether a task succeeds depends on what stands at the location of its table, and on the store's
directory.  Where no task comes before a table of its own name (`Task.MayPrecede`), a table finds
what was there at the start, whatever the order; and a stub is content with anything.  As for the
directory: tasks put files only, so what leads there at the end has led there all the time
(`Steps.frames`).

`Steps.exists_reordered` draws this together: if tasks have succeeded and have left the directory
where it is, then the same tables succeed in any such order, among whatever stubs.
-/

namespace Tablature

open FileTree (Frames SameAs)

/-- A task may come before another: it is not about the table that the other writes. -/
def Task.MayPrecede (first second : Task) : Prop := ∀ a, second = .table a → first.name ≠ a.table

namespace Store

variable {s : Store} {force : Force} {loc l : Location} {task : Task} {tasks tasks' : List Task}
  {t t' u : FileTree} {node : Node} {a : Artifact}

/-! ## One task among others

Whether a task succeeds depends on what is at its own location then, and the tasks before it leave
that alone unless they are of the same table. -/

/-- A sequence of tasks, taken apart at one of them. -/
theorem Steps.split {front back : List Task}
    (h : Steps s force loc (front ++ task :: back) t t') :
    ∃ u u', Steps s force loc front t u ∧ s.LiesAt u loc ∧ Puts force loc task u u' ∧
      Steps s force loc back u' t' := by
  induction front generalizing t with
  | nil =>
    cases h with
    | cons hl hf hp hs => exact ⟨t, _, .nil t, hl, hp, hs⟩
  | cons first front ih =>
    cases h with
    | cons hl hf hp hs =>
      obtain ⟨u, u', hfront, hrest⟩ := ih hs
      exact ⟨u, u', .cons hl hf hp hfront, hrest⟩

/-- Tasks of other tables leave alone what is at the location of a table. -/
theorem Steps.get?_of_forall_ne {name : String} (h : Steps s force loc tasks t t')
    (hn : ∀ task ∈ tasks, task.name ≠ name) :
    t'.get? (artifactAt loc name) = t.get? (artifactAt loc name) :=
  h.get?_of_ne fun task hm he => hn task hm (artifactAt_inj he).symm

/-- A table can be put where there is this. -/
def Ready (force : Force) (before : Option Node) : Prop :=
  before = none ∨ force.isSet = true ∧ ∃ node, before = some node ∧ node ≠ .dir

/-- A table that succeeds was ready. -/
theorem Puts.ready (h : Puts force loc (.table a) t t') :
    Ready force (t.get? (artifactAt loc a.table)) := by
  cases h with
  | new h => exact .inl h
  | forced hf h hn => exact .inr ⟨hf, _, h, hn⟩

/-- A table that is ready succeeds. -/
theorem exists_puts_table (h : Ready force (t.get? (artifactAt loc a.table))) :
    ∃ t', Puts force loc (.table a) t t' := by
  rcases h with hnone | ⟨hf, node, hsome, hdir⟩
  · exact ⟨_, .new hnone⟩
  · exact ⟨_, .forced hf hsome hdir⟩

/-- A stub always succeeds. -/
theorem exists_puts_stub (force : Force) (loc : Location) (name : String) (t : FileTree) :
    ∃ t', Puts force loc (.stub name) t t' := by
  by_cases h : t.get? (artifactAt loc name) = none
  · exact ⟨_, .new h⟩
  · exact ⟨t, .kept h⟩

/-- **A table finds what was there at the start.** -/
theorem Steps.ready (h : Steps s force loc tasks t t') (hfirst : tasks.Pairwise Task.MayPrecede)
    (ha : a ∈ Task.tables tasks) : Ready force (t.get? (artifactAt loc a.table)) := by
  obtain ⟨front, back, rfl⟩ := List.append_of_mem (Task.table_mem_of_mem_tables ha)
  obtain ⟨u, u', hfront, -, hput, -⟩ := h.split
  have hne : ∀ task ∈ front, task.name ≠ a.table := fun task hm =>
    (List.pairwise_append.mp hfirst).2.2 task hm _ List.mem_cons_self a rfl
  rw [← hfront.get?_of_forall_ne hne]
  exact hput.ready

/-! ## The directory in another order

Tasks put files; so what is no file at the end was there from the start, and no order of the tasks
puts it away. -/

/-- What is no file was there before a task. -/
theorem Puts.get?_of_not_file (h : Puts force loc task t t') (hl : t'.get? l = some node)
    (hn : ∀ bytes, node ≠ .file bytes) : t.get? l = some node := by
  by_cases he : l = artifactAt loc task.name
  · subst he
    cases h with
    | new | forced =>
      rw [FileTree.get?_set] at hl
      split at hl
      · exact absurd (Option.some.inj hl).symm (hn _)
      · exact hl
    | kept h => exact hl
  · rwa [h.get?_of_ne he] at hl

/-- What is no file was there before any tasks. -/
theorem Steps.get?_of_not_file (h : Steps s force loc tasks t t') (hl : t'.get? l = some node)
    (hn : ∀ bytes, node ≠ .file bytes) : t.get? l = some node := by
  induction h with
  | nil t => exact hl
  | cons _ _ hp _ ih => exact hp.get?_of_not_file (ih hl) hn

/-- A table that was written is a file. -/
theorem Steps.exists_file (h : Steps s force loc tasks t t') (ha : a ∈ Task.tables tasks) :
    ∃ bytes, t'.get? (artifactAt loc a.table) = some (.file bytes) := by
  rw [h.get?_artifactAt, settled]
  cases hlast : lastNamed a.table (Task.tables tasks) with
  | some b => exact ⟨_, rfl⟩
  | none => exact absurd rfl (lastNamed_eq_none_iff.mp hlast a ha)

/-- **The directories and links that tasks leave are there whichever tables of theirs are written
first.** -/
theorem Steps.frames (h : Steps s force loc tasks t t') (hu : Steps s force loc tasks' t u)
    (hsub : Task.tables tasks' ⊆ Task.tables tasks) : Frames t' u := by
  intro l node hl hn
  rcases hu.get?_of_some (h.get?_of_not_file hl hn) with hkept | ⟨-, a, ha, rfl⟩
  · exact hkept
  · obtain ⟨bytes, hfile⟩ := h.exists_file (hsub ha)
    exact absurd (Option.some.inj (hl.symm.trans hfile)) (hn bytes)

/-- A store lies where it lay if its directories and links are still there. -/
theorem LiesAt.of_frames (h : s.LiesAt t loc) (hf : Frames t t') (hh : t'.here = t.here) :
    s.LiesAt t' loc := by
  obtain ⟨p, hp, hl⟩ := h
  refine ⟨p, hp, ?_⟩
  unfold FileTree.Leads
  rw [FileTree.start_eq_of_here hh]
  exact FileTree.walkLinks_of_frames hf hl

/-- After fewer tables the store still lies where it lies after all of them. -/
theorem Steps.liesAt_of_subset (h : Steps s force loc tasks t t') (hl : s.LiesAt t' loc)
    (hu : Steps s force loc tasks' t u) (hsub : Task.tables tasks' ⊆ Task.tables tasks) :
    s.LiesAt u loc :=
  hl.of_frames (h.frames hu hsub) (hu.here_eq.trans h.here_eq.symm)

/-! ## All tasks in another order -/

/-- **Tasks whose tables have succeeded in one order succeed in another**, if the directory is still
there at the end. -/
theorem Steps.exists_reordered (h : Steps s force loc tasks t t') (hl : s.LiesAt t' loc)
    (hfirst : tasks.Pairwise Task.MayPrecede) (hfirst' : tasks'.Pairwise Task.MayPrecede)
    (hfits : ∀ task ∈ tasks', s.Fits task.name)
    (hsub : Task.tables tasks' ⊆ Task.tables tasks) : ∃ u, Steps s force loc tasks' t u := by
  induction tasks' using List.reverseRecOn with
  | nil => exact ⟨t, .nil t⟩
  | append_singleton front task ih =>
    rw [Task.tables_append, List.append_subset] at hsub
    obtain ⟨hfront, -, hbefore⟩ := List.pairwise_append.mp hfirst'
    obtain ⟨u, hu⟩ := ih hfront (fun x hx => hfits x (List.mem_append_left _ hx)) hsub.1
    have hlies : s.LiesAt u loc := h.liesAt_of_subset hl hu hsub.1
    obtain ⟨u', hput⟩ : ∃ u', Puts force loc task u u' := by
      cases task with
      | stub name => exact exists_puts_stub force loc name u
      | table a =>
        have hready := h.ready hfirst (hsub.2 List.mem_cons_self)
        refine exists_puts_table ?_
        rwa [hu.get?_of_forall_ne fun x hx => hbefore x hx _ List.mem_cons_self a rfl]
    exact ⟨u', hu.append (.cons hlies (hfits task (by simp)) hput (.nil u'))⟩

/-- **Tasks that leave the same at every table leave the same tree.** -/
theorem Steps.sameAs (h : Steps s force loc tasks t t') (hu : Steps s force loc tasks' t u)
    (hsettled : ∀ name before, settled name tasks' before = settled name tasks before) :
    SameAs t' u := by
  refine ⟨hu.here_eq.trans h.here_eq.symm, fun l => ?_⟩
  by_cases hl : ∃ name, l = artifactAt loc name
  · obtain ⟨name, rfl⟩ := hl
    rw [h.get?_artifactAt, hu.get?_artifactAt, hsettled]
  · have hne : ∀ task : Task, l ≠ artifactAt loc task.name := fun task he => hl ⟨_, he⟩
    rw [h.get?_of_ne fun task _ => hne task, hu.get?_of_ne fun task _ => hne task]

/-- **A task does the same in trees that are the same.** -/
theorem Puts.exists_of_sameAs (hp : Puts force loc task t t') (h : SameAs t u) :
    ∃ u', Puts force loc task u u' ∧ SameAs t' u' := by
  cases hp with
  | new hnone => exact ⟨_, .new ((h.2 _).trans hnone), h.set _ _⟩
  | forced hf hsome hd => exact ⟨_, .forced hf ((h.2 _).trans hsome) hd, h.set _ _⟩
  | kept hsome => exact ⟨u, .kept fun hnone => hsome ((h.2 _).symm.trans hnone), h⟩

theorem LiesAt.of_sameAs (hl : s.LiesAt t loc) (h : SameAs t u) : s.LiesAt u loc :=
  hl.of_grows (fun l _ hn => (h.2 l).trans hn) h.1

end Store

end Tablature
