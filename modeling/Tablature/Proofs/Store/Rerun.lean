import Tablature.Proofs.FileTree.Remake
import Tablature.Proofs.Store.Reorder
import Tablature.Proofs.Store.Script

/-!
# Proofs/Store/Rerun — a forced action, done a second time

The second time an action starts from a tree that is full of what it wrote the first time.  It does
the same again, write by write, for two reasons:

* whether a forced task succeeds does not depend on the files in the store's directory, and these
  are all that tasks change (`exists_steps_again`, `write_error_congr`);
* what tasks leave at the location of a table does not change when they are done again
  (`settled_settled`).

So an action that follows a script gives the same answer and leaves the same tree
(`Follows.repeats`).  What can keep it from doing so is the store's directory.  The first time may
have put a file in the place of a link that the directory is reached by; or it could not make the
directory, on a path that goes up, and then the second time may meet another fault.
-/

namespace Tablature

open FileTree (SameAs)

/-- **Tasks that are done again leave what they left.** -/
theorem settled_settled (name : String) (tasks : List Task) (before : Option Node) :
    settled name tasks (settled name tasks before) = settled name tasks before := by
  unfold settled
  cases lastNamed name (Task.tables tasks) with
  | some a => rfl
  | none =>
    by_cases hm : Task.stub name ∈ tasks
    · cases before <;> simp [hm]
    · simp [hm]

namespace Store

variable {s : Store} {force : Force} {t t' t₁ u : FileTree} {loc l : Location} {e : Error}
  {task : Task} {tasks front repair : List Task} {a : Artifact} {policy : Policy}

/-! ## Writes that fail again

Apart from the store's directory a write fails for its path or for a directory in its place, and
neither goes away. -/

/-- A write whose path or name does not fit fails alike wherever the store's directory is there. -/
theorem write_of_not_fits (hid : isIdentifier a.table.toList) (hf : ¬ s.Fits a.table)
    (policy : Policy) :
    ∃ e, ∀ {t t₁ loc}, FileTree.makeDirs s.dir t = .ok () t₁ → s.LiesAt t₁ loc →
      s.write a policy t = .error e t₁ := by
  obtain ⟨fault, hne, hput⟩ := put_of_not_fits hid hf (policy = .replace)
  refine ⟨.file (s.pathFor a.table) fault, fun {t t₁ loc} hm hl => ?_⟩
  have hpr : s.present a.table t = false := by
    rw [Bool.eq_false_iff]
    intro hpr
    obtain ⟨-, -, hfits, -⟩ := exists_of_present hid hpr
    exact hf hfits
  rw [write, hpr, if_neg (by simp), commit, makeDir, hm]
  simp [hput hl, hne]

/-- What fails at a location, unless it is refused, finds a directory there. -/
theorem dir_of_settle_error {present : Bool} (hp : policy ≠ .refuse)
    (h : s.settle a policy present loc t = .error e t') :
    t' = t ∧ policy = .replace ∧ t.get? (artifactAt loc a.table) = some .dir ∧
      e = .file (s.pathFor a.table) .isDirectory := by
  unfold settle at h
  split at h
  · exact nomatch h
  · rename_i hget
    obtain ⟨rfl, rfl⟩ := EStateM.Result.error.inj h
    exact ⟨rfl, rfl, hget, rfl⟩
  · exact nomatch h
  · exact absurd rfl hp
  · exact nomatch h

/-- **A write that fails fails alike** wherever the store's directory is there, and a directory
where it was in the way. -/
theorem write_error_congr (hid : isIdentifier a.table.toList) (hp : policy ≠ .refuse)
    (hm : FileTree.makeDirs s.dir t = .ok () t₁) (hl : s.LiesAt t₁ loc)
    (h : s.write a policy t = .error e t') :
    t' = t₁ ∧ ∀ {u}, s.LiesAt u loc →
      (t₁.get? (artifactAt loc a.table) = some .dir → u.get? (artifactAt loc a.table) = some .dir) →
      s.write a policy u = .error e u := by
  by_cases hf : s.Fits a.table
  · rw [write_eq_settle hid hm hl hf] at h
    obtain ⟨rfl, rfl, hdir, rfl⟩ := dir_of_settle_error hp h
    refine ⟨rfl, fun hlu hsame => ?_⟩
    rw [write_eq_settle hid hlu.makeDirs_eq hlu hf]
    simp [settle, hsame hdir]
  · obtain ⟨e', hw⟩ := write_of_not_fits hid hf policy
    obtain ⟨rfl, rfl⟩ := EStateM.Result.error.inj ((hw hm hl).symm.trans h)
    exact ⟨rfl, fun hlu _ => hw hlu.makeDirs_eq hlu⟩

theorem policy_ne_refuse (hforce : force.isSet = true) (task : Task) :
    task.policy force ≠ .refuse := by
  cases task <;> simp [Task.policy, Policy.primary, Policy.stub, hforce]

/-- **A first write that fails fails again**, and leaves the tree alone then. -/
theorem write_again (hid : isIdentifier a.table.toList) (hp : policy ≠ .refuse)
    (h : s.write a policy t = .error e t') :
    s.write a policy t' = .error e t' ∨
      ∃ fault fault', e = .file s.dir fault ∧ s.write a policy t' = .error (.file s.dir fault') t' ∧
        (".." ∉ Path.stepsOf s.dir.toList → fault' = fault) := by
  cases hm : FileTree.makeDirs s.dir t with
  | ok _ t₁ =>
    obtain ⟨loc, hl⟩ := exists_liesAt_of_makeDirs hm
    obtain ⟨rfl, hagain⟩ := write_error_congr hid hp hm hl h
    exact .inl (hagain hl id)
  | error fault t₁ =>
    have hfail := write_of_makeDirs_error hid hm policy
    obtain ⟨rfl, rfl⟩ := EStateM.Result.error.inj (hfail.symm.trans h)
    obtain ⟨-, fault', hm', hsame⟩ := FileTree.makeDirs_again hm
    exact .inr ⟨fault, fault', rfl, write_of_makeDirs_error hid hm' policy, hsame⟩

/-! ## Tasks that succeed again

The second time each task finds the file that it has left there the first time, and puts it there
again. -/

theorem Puts.dir_of_dir (h : Puts force loc task t t') (hl : t.get? l = some .dir) :
    t'.get? l = some .dir := by
  by_cases he : l = artifactAt loc task.name
  · subst he
    cases h with
    | new hnone => simp [hnone] at hl
    | forced hf hsome hn => exact absurd (Option.some.inj (hsome.symm.trans hl)) hn
    | kept hsome => exact hl
  · rw [h.get?_of_ne he, hl]

/-- Tasks leave every directory. -/
theorem Steps.dir_of_dir (h : Steps s force loc tasks t t') (hl : t.get? l = some .dir) :
    t'.get? l = some .dir := by
  induction h with
  | nil t => exact hl
  | cons _ _ hp _ ih => exact ih (hp.dir_of_dir hl)

/-- A file stays a file. -/
theorem Puts.file_of_file (h : Puts force loc task t t') {l : Location}
    (hl : ∃ bytes, t.get? l = some (.file bytes)) : ∃ bytes, t'.get? l = some (.file bytes) := by
  obtain ⟨bytes, hbytes⟩ := hl
  rcases h.get?_or l with hsame | ⟨-, hnode⟩
  · exact ⟨bytes, hsame.trans hbytes⟩
  · exact ⟨_, hnode⟩

/-- A forced table that finds a file, or a stub, succeeds and cuts nothing off. -/
theorem exists_puts_again (hforce : force.isSet = true) (hl : s.LiesAt u loc)
    (hfile : ∀ a, task = .table a → ∃ bytes, u.get? (artifactAt loc a.table) = some (.file bytes)) :
    ∃ u₁, Puts force loc task u u₁ ∧ s.LiesAt u₁ loc := by
  obtain ⟨u₁, hput⟩ : ∃ u₁, Puts force loc task u u₁ := by
    cases task with
    | stub n => exact exists_puts_stub force loc n u
    | table a =>
      obtain ⟨bytes, hbytes⟩ := hfile a rfl
      exact exists_puts_table (.inr ⟨hforce, _, hbytes, by simp⟩)
  refine ⟨u₁, hput, (hput.liesAt_or hl).resolve_right ?_⟩
  rintro ⟨-, -, a, target, rfl, hlink⟩
  obtain ⟨bytes, hbytes⟩ := hfile a rfl
  simp [hlink] at hbytes

/-- **Forced tasks succeed where each table finds a file**, and the store's directory stays where it
is. -/
theorem exists_steps_again (hforce : force.isSet = true) (hl : s.LiesAt u loc)
    (hfits : ∀ task ∈ tasks, s.Fits task.name)
    (hfile : ∀ a ∈ Task.tables tasks,
      ∃ bytes, u.get? (artifactAt loc a.table) = some (.file bytes)) :
    ∃ u', Steps s force loc tasks u u' ∧ s.LiesAt u' loc := by
  induction tasks generalizing u with
  | nil => exact ⟨u, .nil u, hl⟩
  | cons task tasks ih =>
    have hfirst : ∀ a, task = .table a →
        ∃ bytes, u.get? (artifactAt loc a.table) = some (.file bytes) := by
      rintro a rfl
      exact hfile a List.mem_cons_self
    obtain ⟨u₁, hput, hl₁⟩ := exists_puts_again hforce hl hfirst
    have hrest : ∀ a ∈ Task.tables tasks, a ∈ Task.tables (task :: tasks) := fun a ha =>
      Task.tables_append [task] tasks ▸ List.mem_append_right _ ha
    obtain ⟨u', hsteps, hl'⟩ := ih hl₁ (fun x hx => hfits x (List.mem_cons_of_mem task hx))
      fun a ha => hput.file_of_file (hfile a (hrest a ha))
    exact ⟨u', .cons hl (hfits task List.mem_cons_self) hput hsteps, hl'⟩

/-- **Tasks that are done again leave the same tree.** -/
theorem Steps.sameAs_again (h : Steps s force loc tasks t t') (h' : Steps s force loc tasks t' u) :
    SameAs t' u := by
  refine ⟨h'.here_eq, fun l => ?_⟩
  by_cases hl : ∃ name, l = artifactAt loc name
  · obtain ⟨name, rfl⟩ := hl
    rw [h'.get?_artifactAt, h.get?_artifactAt, settled_settled]
  · exact h'.get?_of_ne fun task _ he => hl ⟨_, he⟩

/-! ## Tasks that are tried -/

/-- **Of the stubs that are tried, those succeed whose path and name fit**, wherever the store's
directory is there. -/
theorem exists_fitting (force : Force) (loc : Location)
    (hstub : ∀ task ∈ repair, ∃ n, task = .stub n)
    (hid : ∀ task ∈ repair, isIdentifier task.name.toList) :
    ∃ fitting, Task.tables fitting = [] ∧
      ∀ {u}, s.LiesAt u loc → Steps s force loc fitting u (s.tryAll force repair u) := by
  induction repair with
  | nil => exact ⟨[], rfl, fun {u} _ => .nil u⟩
  | cons task repair ih =>
    obtain ⟨n, rfl⟩ := hstub task List.mem_cons_self
    have hidn := hid _ List.mem_cons_self
    obtain ⟨fitting, htables, hsteps⟩ := ih (fun x hx => hstub x (List.mem_cons_of_mem _ hx))
      fun x hx => hid x (List.mem_cons_of_mem _ hx)
    by_cases hf : s.Fits n
    · refine ⟨.stub n :: fitting, htables, fun {u} hl => ?_⟩
      obtain ⟨u₁, hput⟩ := exists_puts_stub force loc n u
      obtain ⟨o, hw⟩ := (exists_write_iff hidn).mpr ⟨u, loc, hl.makeDirs_eq, hl, hf, hput⟩
      rw [tryAll, hw, treeAfter_ok]
      refine .cons hl hf hput (hsteps ((hput.liesAt_or hl).resolve_right ?_))
      rintro ⟨-, -, a, target, he, -⟩
      exact nomatch he
    · refine ⟨fitting, htables, fun {u} hl => ?_⟩
      obtain ⟨e, hw⟩ := write_of_not_fits hidn hf ((Task.stub n).policy force)
      rw [tryAll, hw hl.makeDirs_eq hl, treeAfter_error]
      exact hsteps hl

/-- Where a file stands in the way of the store's directory, nothing comes of what is tried. -/
theorem tryAll_of_isBlockedIn (h : s.IsBlockedIn t)
    (hid : ∀ task ∈ repair, isIdentifier task.name.toList) : s.tryAll force repair t = t := by
  induction repair with
  | nil => rfl
  | cons task repair ih =>
    obtain ⟨fault, hw⟩ := exists_write_of_isBlockedIn (hid task List.mem_cons_self) h
      (task.policy force)
    rw [tryAll, hw, treeAfter_error]
    exact ih fun x hx => hid x (List.mem_cons_of_mem task hx)

/-! ## Actions done again -/

/-- A file has been put in the place of a link that the store's directory is reached by: the path of
an artifact named the link when the directory had been made, and now the file stands in the way. -/
def CutOff (s : Store) (t t' : FileTree) : Prop :=
  ∃ t₁ n l target bytes, FileTree.makeDirs s.dir t = .ok () t₁ ∧ t₁.Names (s.pathFor n) l ∧
    t₁.get? l = some (.link target) ∧ t'.get? l = some (.file bytes) ∧ s.IsBlockedIn t'

/-- The answer of an action: its error, or a view of its result. -/
def answer {α β : Type} (view : α → β) : EStateM.Result Error FileTree α → Except Error β
  | .ok a _ => .ok (view a)
  | .error e _ => .error e

/-- **An action on a store repeats itself.** Done a second time it leaves the same tree, and it
gives the same answer; except that it fails at the store's directory, if this has been cut off the
first time, or if the directory, on a path that goes up, could not be made the first time either. -/
structure Repeats {α β : Type} (s : Store) (view : α → β) (action : FileM Error α)
    (t : FileTree) : Prop where
  tree : SameAs (treeAfter (action t)) (treeAfter (action (treeAfter (action t))))
  answer : answer view (action (treeAfter (action t))) = answer view (action t) ∨
    (s.CutOff t (treeAfter (action t)) ∧
      ∃ fault, answer view (action (treeAfter (action t))) = .error (.file s.dir fault)) ∨
    ".." ∈ Path.stepsOf s.dir.toList ∧ ∃ fault fault',
      answer view (action t) = .error (.file s.dir fault) ∧
        answer view (action (treeAfter (action t))) = .error (.file s.dir fault')

theorem liesAt_or_cutOff (hm : FileTree.makeDirs s.dir t = .ok () t₁) (hl : s.LiesAt t₁ loc)
    (hid : ∀ task ∈ tasks, isIdentifier task.name.toList) (h : Steps s force loc tasks t₁ t') :
    s.LiesAt t' loc ∨ s.CutOff t t' := by
  rcases h.liesAt_or_replaced hl with hl' | ⟨hblocked, -, front, a, target, rfl, hlink⟩
  · exact .inl hl'
  · have hmem : Task.table a ∈ front ++ [.table a] := by simp
    have hida : isIdentifier a.table.toList := hid _ hmem
    have hfits : s.Fits (Task.table a).name := h.fits hmem
    refine .inr ⟨t₁, a.table, _, target, a.encode.toUTF8, hm, placeOf_pathFor hida hl hfits,
      hlink, ?_, hblocked⟩
    rw [h.get?_artifactAt, settled_concat_table]
    rfl

section Actions

variable {α β : Type} {view : α → β} {action : FileM Error α} {script : Script β}

/-- **An action that starts with a task fails at once, if the store has been cut off.** -/
theorem Follows.repeats_of_cutOff (h : s.Follows force view action script) (hr : script.IsRegular)
    (hfirst : script.halts [] (.task task) []) (hcut : s.CutOff t (treeAfter (action t))) :
    s.Repeats view action t := by
  obtain ⟨-, -, -, -, -, -, -, -, -, hblocked⟩ := id hcut
  obtain ⟨fault, hw⟩ := exists_write_of_isBlockedIn (hr.isIdentifier_of_stop hfirst) hblocked
    (task.policy force)
  have hagain : action (treeAfter (action t)) = .error (.file s.dir fault) (treeAfter (action t)) :=
    h.error_iff.mpr ⟨[], .task task, [], _, _, hfirst, .nil _, hw, rfl⟩
  refine ⟨?_, .inr (.inl ⟨hcut, fault, by rw [hagain]; rfl⟩)⟩
  rw [hagain]
  exact .refl _

/-- An action that does the same and leaves the same. -/
theorem repeats_of_ok {a a' : α} (h : action t = .ok a t') (h' : action t' = .ok a' u)
    (hview : view a' = view a) (hsame : SameAs t' u) : s.Repeats view action t := by
  have hafter : treeAfter (action t) = t' := by rw [h]; rfl
  constructor
  · rw [hafter, h']
    exact hsame
  · rw [hafter, h, h']
    exact .inl (congrArg Except.ok hview)

theorem repeats_of_error (h : action t = .error e t') (h' : action t' = .error e u)
    (hsame : SameAs t' u) : s.Repeats view action t := by
  have hafter : treeAfter (action t) = t' := by rw [h]; rfl
  constructor
  · rw [hafter, h']
    exact hsame
  · rw [hafter, h, h']
    exact .inl rfl

/-- **An action that has succeeded succeeds again.** -/
theorem Follows.repeats_of_ends (h : s.Follows force view action script) (hr : script.IsRegular)
    (hforce : force.isSet = true) {a : α} (hresult : action t = .ok a t') :
    s.Repeats view action t := by
  obtain ⟨tasks, hends, hwrites⟩ := h.ok_iff.mp ⟨a, hresult, rfl⟩
  have hid := hr.isIdentifier_of_ends hends
  cases tasks with
  | nil =>
    cases hwrites
    exact repeats_of_ok hresult hresult rfl (.refl t)
  | cons task tasks =>
    obtain ⟨t₁, loc, hm, hsteps⟩ := (writes_iff_steps (List.cons_ne_nil _ _) hid).mp hwrites
    have hl := hsteps.liesAt (List.cons_ne_nil _ _)
    rcases liesAt_or_cutOff hm hl hid hsteps with hl' | hcut
    · obtain ⟨u, hu, -⟩ := exists_steps_again hforce hl' (fun x => hsteps.fits)
        fun b => hsteps.exists_file
      obtain ⟨a', hagain, hview⟩ := h.ok_iff.mpr ⟨_, hends, writes_of_steps hid hu⟩
      exact repeats_of_ok hresult hagain hview (hsteps.sameAs_again hu)
    · refine h.repeats_of_cutOff hr (hr.halts_of_ends hends) ?_
      rwa [hresult]

/-- **An action that has stopped before it wrote anything stops again.** -/
theorem Follows.repeats_of_halts_nil (h : s.Follows force view action script)
    (hr : script.IsRegular) (hforce : force.isSet = true) {stop : Stop}
    (hhalts : script.halts [] stop []) (hfail : s.Fails force stop e t t') :
    s.Repeats view action t := by
  have hresult : action t = .error e t' :=
    h.error_iff.mpr ⟨[], stop, [], t, t', hhalts, .nil t, hfail, rfl⟩
  have hstop : ∀ {e'}, s.Fails force stop e' t' t' → action t' = .error e' t' := fun hfail' =>
    h.error_iff.mpr ⟨[], stop, [], t', t', hhalts, .nil t', hfail', rfl⟩
  cases stop with
  | fault e' =>
    obtain ⟨rfl, rfl⟩ := hfail
    exact repeats_of_error hresult hresult (.refl t')
  | task task =>
    rcases write_again (hr.isIdentifier_of_stop hhalts) (policy_ne_refuse hforce task) hfail with
      hagain | ⟨fault, fault', rfl, hagain, hfault⟩
    · exact repeats_of_error hresult (hstop hagain) (.refl t')
    · by_cases hup : ".." ∈ Path.stepsOf s.dir.toList
      · have hafter : treeAfter (action t) = t' := by rw [hresult]; rfl
        constructor
        · rw [hafter, hstop hagain]
          exact .refl t'
        · rw [hafter, hresult, hstop hagain]
          exact .inr (.inr ⟨hup, fault, fault', rfl, rfl⟩)
      · obtain rfl := hfault hup
        exact repeats_of_error hresult (hstop hagain) (.refl t')

/-- What stops an action stops it again, where the store's directory and the directories in it are
there. -/
theorem fails_again (hforce : force.isSet = true) {stop : Stop}
    (hid : ∀ task, stop = .task task → isIdentifier task.name.toList) (hl : s.LiesAt t loc)
    (hfail : s.Fails force stop e t t') (hlu : s.LiesAt u loc)
    (hdirs : ∀ l, t.get? l = some .dir → u.get? l = some .dir) :
    t' = t ∧ s.Fails force stop e u u := by
  cases stop with
  | fault e' => exact ⟨hfail.2, hfail.1, rfl⟩
  | task task =>
    obtain ⟨rfl, hagain⟩ := write_error_congr (hid task rfl) (policy_ne_refuse hforce task)
      hl.makeDirs_eq hl hfail
    exact ⟨rfl, hagain hlu (hdirs _)⟩

theorem eq_of_fails_of_isBlockedIn {stop : Stop}
    (hid : ∀ task, stop = .task task → isIdentifier task.name.toList) (h : s.IsBlockedIn t)
    (hfail : s.Fails force stop e t t') : t' = t := by
  cases stop with
  | fault e' => exact hfail.2
  | task task =>
    obtain ⟨fault, hw⟩ := exists_write_of_isBlockedIn (hid task rfl) h (task.policy force)
    exact (EStateM.Result.error.inj (hw.symm.trans hfail)).2.symm

/-- An action that has cut its store off stops at once the second time. -/
theorem Follows.repeats_of_halts_cutOff (h : s.Follows force view action script)
    (hr : script.IsRegular) (hne : front ≠ []) {stop : Stop}
    (hhalts : script.halts front stop repair) (hwrites : s.Writes force front t t₁)
    (hfail : s.Fails force stop e t₁ t') (hcut : s.CutOff t t₁) : s.Repeats view action t := by
  have hresult : action t = .error e (s.tryAll force repair t') :=
    h.error_iff.mpr ⟨front, stop, repair, t₁, t', hhalts, hwrites, hfail, rfl⟩
  obtain ⟨-, -, -, -, -, -, -, -, -, hblocked⟩ := id hcut
  obtain rfl := eq_of_fails_of_isBlockedIn (hr.isIdentifier_of_stops hhalts) hblocked hfail
  rw [tryAll_of_isBlockedIn hblocked (hr.isIdentifier_of_repair hhalts)] at hresult
  obtain ⟨task, tasks, rfl⟩ := List.exists_cons_of_ne_nil hne
  refine h.repeats_of_cutOff hr (hr.halts_of_halts hhalts rfl) ?_
  rwa [hresult]

/-- **An action that has stopped after some writes stops again after the same.** -/
theorem Follows.repeats_of_halts (h : s.Follows force view action script) (hr : script.IsRegular)
    (hforce : force.isSet = true) (hne : front ≠ []) {stop : Stop}
    (hhalts : script.halts front stop repair) (hwrites : s.Writes force front t t₁)
    (hfail : s.Fails force stop e t₁ t') : s.Repeats view action t := by
  have hids := hr.isIdentifier_of_stops hhalts
  have hidf := hr.isIdentifier_of_front hhalts
  obtain ⟨t₀, loc, hm, hsteps⟩ := (writes_iff_steps hne hidf).mp hwrites
  rcases liesAt_or_cutOff hm (hsteps.liesAt hne) hidf hsteps with hl | hcut
  · obtain ⟨rfl, -⟩ := fails_again hforce hids hl hfail hl fun _ => id
    obtain ⟨fitting, htables, hfitting⟩ :=
      exists_fitting force loc (hr.stub_of_halts hhalts) (hr.isIdentifier_of_repair hhalts)
    have htry := hfitting hl
    have hall := hsteps.append htry
    have hend : s.LiesAt (s.tryAll force repair t') loc := by
      refine (htry.liesAt_or_replaced hl).resolve_right ?_
      rintro ⟨-, -, init, a, target, rfl, -⟩
      simp at htables
    -- the same writes again, from the tree at the end of the first time
    obtain ⟨u, hu, hlu⟩ := exists_steps_again hforce hend (fun x => hsteps.fits) fun a ha =>
      hall.exists_file (Task.tables_append front fitting ▸ List.mem_append_left _ ha)
    obtain ⟨-, hfail'⟩ := fails_again hforce hids hl hfail hlu fun l hd =>
      hu.dir_of_dir (htry.dir_of_dir hd)
    have hresult := h.error_iff.mpr ⟨front, stop, repair, _, _, hhalts, hwrites, hfail, rfl⟩
    have hagain := h.error_iff.mpr
      ⟨front, stop, repair, u, u, hhalts, writes_of_steps hidf hu, hfail', rfl⟩
    exact repeats_of_error hresult hagain (hall.sameAs_again (hu.append (hfitting hlu)))
  · exact h.repeats_of_halts_cutOff hr hne hhalts hwrites hfail hcut

/-- **A forced action that follows a script repeats itself.** -/
theorem Follows.repeats (h : s.Follows force view action script) (hr : script.IsRegular)
    (hforce : force.isSet = true) : s.Repeats view action t := by
  cases hresult : action t with
  | ok a t' => exact h.repeats_of_ends hr hforce hresult
  | error e t' =>
    obtain ⟨front, stop, repair, t₁, t₂, hhalts, hwrites, hfail, -⟩ := h.error_iff.mp hresult
    by_cases hne : front = []
    · obtain rfl := hr.repair_eq_nil hhalts hne
      subst hne
      cases hwrites
      exact h.repeats_of_halts_nil hr hforce hhalts hfail
    · exact h.repeats_of_halts hr hforce hne hhalts hwrites hfail

end Actions

end Store

end Tablature
