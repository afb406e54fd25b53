import Tablature.Proofs.Store.Writes

/-!
# Proofs/Store/Frame — what writes leave alone, whether they succeed or fail

Only a forced write can change what is in a tree.  Making directories adds to a tree, and so does a
file that may replace nothing; an action that fails has done one of these at most, so that what it
leaves is a larger tree (`grows_write`, `grows_of_write_error`, `grows_stubAll`, `grows_tryAll`).

Of a sequence of writes that succeed, seen from the store's directory, `Steps.get?_or` says that an
entry is as it was or the artifact of a task, and `Steps.get?_of_some` what can become of one that
was there: it stays, or it is replaced by a forced table at the table's own location.
-/

namespace Tablature

open FileTree (Grows)

/-- The tree that an action leaves, whether it succeeds or fails. -/
def treeAfter {ε α : Type} : EStateM.Result ε FileTree α → FileTree
  | .ok _ t => t
  | .error _ t => t

@[simp] theorem treeAfter_ok {ε α : Type} (a : α) (t : FileTree) :
    treeAfter (.ok a t : EStateM.Result ε FileTree α) = t := rfl

@[simp] theorem treeAfter_error {ε α : Type} (e : ε) (t : FileTree) :
    treeAfter (.error e t : EStateM.Result ε FileTree α) = t := rfl

namespace FileTree

variable {t t' t'' : FileTree}

/-- A tree has grown by nothing from itself. -/
theorem Grows.refl (t : FileTree) : Grows t t := fun _ _ h => h

theorem Grows.trans (h : Grows t t') (h' : Grows t' t'') : Grows t t'' :=
  fun l n hl => h' l n (h l n hl)

/-- Actions that add to a tree, one after the other, add to it. -/
theorem grows_bind {ε α β : Type} {x : FileM ε α} {f : α → FileM ε β}
    (hx : ∀ t, Grows t (treeAfter (x t))) (hf : ∀ a t, Grows t (treeAfter (f a t)))
    (t : FileTree) : Grows t (treeAfter ((x >>= f) t)) := by
  change Grows t (treeAfter (EStateM.bind x f t))
  have hfirst := hx t
  unfold EStateM.bind
  cases h : x t with
  | ok a t₁ =>
    rw [h] at hfirst
    exact hfirst.trans (hf a t₁)
  | error e t₁ =>
    rw [h] at hfirst
    exact hfirst

/-! ## Directories -/

/-- One new directory adds to a tree. -/
theorem grows_of_makeDir {p : Path} (h : t.makeDir p = .ok t') : Grows t t' := by
  obtain ⟨l, -, hnone, rfl⟩ := makeDir_eq_ok_iff.mp h
  exact grows_set hnone .dir

/-- So does one that may be there already. -/
theorem grows_makeDirOnce (p : Path) (t : FileTree) : Grows t (treeAfter (makeDirOnce p t)) := by
  unfold makeDirOnce
  split
  · next hmake => exact grows_of_makeDir hmake
  · split <;> exact .refl t

/-- So does one whose parents are made first. -/
theorem grows_makeDirBelow {above : FileM FileFault Unit}
    (ha : ∀ t, Grows t (treeAfter (above t))) (p : Path) (t : FileTree) :
    Grows t (treeAfter (makeDirBelow above p t)) := by
  have habove := ha t
  unfold makeDirBelow
  split
  · next hmake => exact grows_of_makeDir hmake
  · split
    · next t₁ h =>
      rw [h] at habove
      exact habove.trans (grows_makeDirOnce p t₁)
    · next h =>
      rw [h] at habove
      exact habove
  · split <;> exact .refl t

/-- So do all directories along some steps. -/
theorem grows_makeSteps (absolute : Bool) : ∀ (steps : List String) (t : FileTree),
    Grows t (treeAfter (makeSteps absolute steps t))
  | [], t => .refl t
  | _ :: above, t => grows_makeDirBelow (grows_makeSteps absolute above) _ t

/-- **Making a directory adds to a tree**, also where it fails half way. -/
theorem grows_makeDirs (text : String) (t : FileTree) :
    Grows t (treeAfter (makeDirs text t)) := by
  unfold makeDirs
  split
  · exact .refl t
  · split
    · exact .refl t
    · exact grows_makeDirBelow (grows_makeSteps _ _) _ t

/-! ## Files -/

/-- **A file that may replace nothing adds to a tree.** -/
theorem grows_place (text : String) (bytes : ByteArray) (t : FileTree) :
    Grows t (treeAfter (place false text bytes t)) := by
  unfold place
  split
  · exact .refl t
  · split
    · exact .refl t
    · split
      · next hnone => exact grows_set hnone _
      · exact .refl t
      · exact .refl t

/-- A file that is not put in place changes nothing. -/
theorem eq_of_place_error {mayReplace : Bool} {text : String} {bytes : ByteArray}
    {fault : FileFault} (h : place mayReplace text bytes t = .error fault t') : t' = t := by
  unfold place at h
  repeat' split at h
  all_goals first
    | exact (EStateM.Result.error.inj h).2.symm
    | exact nomatch h

end FileTree

namespace Store

variable {s : Store} {force : Force} {loc l : Location} {task : Task} {tasks : List Task}
  {t t' : FileTree} {a : Artifact} {policy : Policy} {node : Node}

/-! ## One write

A write looks first, makes the directory and puts the file; only the last of these can change what
is there. -/

/-- **What a commit can do**: fail to make the store's directory, put the file in place, or leave it
at the directory. -/
theorem commit_cases (s : Store) (a : Artifact) (policy : Policy) (present : Bool)
    (t : FileTree) :
    (∃ e t₁, FileTree.makeDirs s.dir t = .error e t₁ ∧
        treeAfter (s.commit a policy present t) = t₁) ∨
      ∃ t₁, FileTree.makeDirs s.dir t = .ok () t₁ ∧
        ((∃ t₂ o, s.put a (policy = .replace) t₁ = .ok () t₂ ∧
            s.commit a policy present t = .ok o t₂) ∨
          treeAfter (s.commit a policy present t) = t₁) := by
  unfold commit makeDir
  cases hm : FileTree.makeDirs s.dir t with
  | error fault t₁ => exact .inl ⟨fault, t₁, rfl, rfl⟩
  | ok u t₁ =>
    refine .inr ⟨t₁, rfl, ?_⟩
    dsimp only
    cases hput : s.put a (policy = .replace) t₁ with
    | ok u t₂ => exact .inl ⟨t₂, _, rfl, rfl⟩
    | error fault t₂ =>
      right
      obtain rfl : t₂ = t₁ := FileTree.eq_of_place_error hput
      dsimp only
      split
      · cases s.taken a policy <;> rfl
      · rfl

/-- **A write that may replace nothing adds to a tree.** -/
theorem grows_write (s : Store) (a : Artifact) (hp : policy ≠ .replace) (t : FileTree) :
    Grows t (treeAfter (s.write a policy t)) := by
  unfold write
  split
  · cases s.taken a policy <;> exact .refl t
  · have hdir := FileTree.grows_makeDirs s.dir t
    rcases s.commit_cases a policy (s.present a.table t) t with
      ⟨e, t₁, hm, he⟩ | ⟨t₁, hm, ⟨t₂, o, hput, he⟩ | he⟩
    · rw [he]
      rwa [hm] at hdir
    · rw [he]
      rw [hm] at hdir
      have hplace := FileTree.grows_place (s.pathFor a.table) a.encode.toUTF8 t₁
      rw [put, decide_eq_false hp] at hput
      rw [hput] at hplace
      exact hdir.trans hplace
    · rw [he]
      rwa [hm] at hdir

/-- **A write that fails has only added to a tree**, forced or not. -/
theorem grows_of_write_error {e : Error} (h : s.write a policy t = .error e t') : Grows t t' := by
  by_cases hp : policy = .replace
  · have hcommit : s.commit a policy (s.present a.table t) t = .error e t' := by
      rw [← h, write, if_neg fun hn => hn.2 hp]
    have hdir := FileTree.grows_makeDirs s.dir t
    rcases s.commit_cases a policy (s.present a.table t) t with
      ⟨e', t₁, hm, he⟩ | ⟨t₁, hm, ⟨t₂, o, -, he⟩ | he⟩
    · rw [hcommit] at he
      rwa [hm, treeAfter_error, ← he] at hdir
    · cases hcommit.symm.trans he
    · rw [hcommit] at he
      rwa [hm, treeAfter_ok, ← he] at hdir
  · have hgrows := s.grows_write a hp t
    rwa [h] at hgrows

/-! ## Stubs -/

/-- **A stub only adds to a tree.** -/
theorem grows_writeStub (s : Store) (target : String) (t : FileTree) :
    Grows t (treeAfter (s.writeStub target t)) := by
  have hstub : Policy.stub ≠ .replace := by decide
  unfold writeStub
  exact s.grows_write _ hstub t

/-- **Stubs only add to a tree**, whatever becomes of them. -/
theorem grows_stubAll (s : Store) (elsewhere targets : List String) (t : FileTree) :
    Grows t (treeAfter (s.stubAll elsewhere targets t)) := by
  induction targets generalizing t with
  | nil => exact .refl t
  | cons target targets ih =>
    unfold stubAll
    split
    · refine FileTree.grows_bind ih (fun report t => ?_) t
      exact .refl t
    · refine FileTree.grows_bind (s.grows_writeStub target) (fun outcome t => ?_) t
      refine FileTree.grows_bind ih (fun report t => ?_) t
      exact .refl t

/-! ## Tasks that are tried

When a run has failed, the stubs that are still missing are tried one after another, and one that
cannot be written keeps no other from being tried. -/

/-- The tree after some tasks, whether they succeed or fail. -/
def tryAll (s : Store) (force : Force) : List Task → FileTree → FileTree
  | [], t => t
  | task :: tasks, t =>
    s.tryAll force tasks (treeAfter (s.write task.artifact (task.policy force) t))

/-- Stubs that are tried only add to a tree. -/
theorem grows_tryAll (s : Store) (force : Force) (names : List String) (t : FileTree) :
    Grows t (s.tryAll force (names.map .stub) t) := by
  induction names generalizing t with
  | nil => exact .refl t
  | cons name names ih => exact (s.grows_writeStub name t).trans (ih _)

/-! ## Writes that succeed

Seen from the store's directory a task touches one location, that of its own artifact. -/

/-- A task that succeeds changes nothing but its own artifact. -/
theorem Puts.get?_or (h : Puts force loc task t t') (l : Location) :
    t'.get? l = t.get? l ∨ l = artifactAt loc task.name ∧ t'.get? l = some task.node := by
  by_cases hl : l = artifactAt loc task.name
  · subst hl
    cases h with
    | new | forced =>
      rw [FileTree.get?_set]
      split
      · exact .inr ⟨rfl, rfl⟩
      · exact .inl rfl
    | kept hsome => exact .inl rfl
  · exact .inl (h.get?_of_ne hl)

/-- **An entry that tasks change is the artifact of one of them.** -/
theorem Steps.get?_or (h : Steps s force loc tasks t t') (l : Location) :
    t'.get? l = t.get? l ∨
      ∃ task ∈ tasks, l = artifactAt loc task.name ∧ t'.get? l = some task.node := by
  induction h with
  | nil t => exact .inl rfl
  | @cons task tasks t t₁ t₂ _ _ hp _ ih =>
    rcases ih with hsame | ⟨task', hm, hl⟩
    · rw [hsame]
      exact (hp.get?_or l).imp_right fun hl => ⟨task, List.mem_cons_self, hl⟩
    · exact .inr ⟨task', List.mem_cons_of_mem task hm, hl⟩

/-- What was there stays, unless a forced table takes its place. -/
theorem Puts.get?_of_some (h : Puts force loc task t t') (hl : t.get? l = some node) :
    t'.get? l = some node ∨
      force.isSet = true ∧ ∃ a, task = .table a ∧ l = artifactAt loc a.table := by
  by_cases he : l = artifactAt loc task.name
  · cases h with
    | new hnone => simp [he, hnone] at hl
    | forced hf => exact .inr ⟨hf, _, rfl, he⟩
    | kept => exact .inl hl
  · rw [h.get?_of_ne he]
    exact .inl hl

/-- **What becomes of an entry**: it stays, unless a forced table is written to its location. -/
theorem Steps.get?_of_some (h : Steps s force loc tasks t t') (hl : t.get? l = some node) :
    t'.get? l = some node ∨
      force.isSet = true ∧ ∃ a ∈ Task.tables tasks, l = artifactAt loc a.table := by
  induction h with
  | nil t => exact .inl hl
  | @cons task tasks t t₁ t₂ _ _ hp _ ih =>
    rcases hp.get?_of_some hl with hl | ⟨hf, a, rfl, he⟩
    · refine (ih hl).imp_right fun ⟨hf, a, ha, he⟩ => ⟨hf, a, ?_, he⟩
      cases task with
      | table b => exact List.mem_cons_of_mem b ha
      | stub n => exact ha
    · exact .inr ⟨hf, a, by simp, he⟩

end Store

end Tablature
