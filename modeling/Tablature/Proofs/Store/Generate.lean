import Tablature.Proofs.Batch.Plan
import Tablature.Proofs.Store.Frame

/-!
# Proofs/Store/Generate — what a table that is not generated leaves

Generating a table makes the store's directory, writes the table, and then stubs one by one; each of
these can fail, and nothing is taken back.

* Up to the write of the table itself, a failure leaves every file and link as it was, with new
  directories on the way to the store's own at most: `FileTree.Paves`.  For this no look at the
  outcome is needed, since each step of making a directory adds directories on its way only.
* A stub that cannot be written leaves the table and the stubs before it.  There is a directory by
  then, or a file in its way, so nothing more is made.

`paves_or_stub_of_generate_error` says that there is no third case, and the second one needs a fault
of the file system.
-/

namespace Tablature

namespace FileTree

variable {t t' t'' : FileTree} {p : Path} {absolute : Bool} {steps steps' : List String}
  {l : Location}

/-! ## Directories on the way

What making a directory can add is told by its path alone: where the first of its steps lead, and
nothing else. -/

/-- The first of some steps lead to a directory. -/
def OnTheWay (t : FileTree) (absolute : Bool) (steps : List String) (l : Location) : Prop :=
  ∃ front, front <+: steps ∧ t.Leads ⟨absolute, front, false⟩ l

/-- A tree has become another by new directories on the way along some steps, and by nothing
else. -/
structure Paves (absolute : Bool) (steps : List String) (t t' : FileTree) : Prop where
  here : t'.here = t.here
  get?_or : ∀ l, t'.get? l = t.get? l ∨
    t.get? l = none ∧ t'.get? l = some .dir ∧ t'.OnTheWay absolute steps l

/-- What is on the way along some steps is on the way along more. -/
theorem OnTheWay.mono (h : t.OnTheWay absolute steps l) (hs : steps <+: steps') :
    t.OnTheWay absolute steps' l := by
  obtain ⟨front, hfront, hl⟩ := h
  exact ⟨front, hfront.trans hs, hl⟩

theorem OnTheWay.of_grows (h : t.OnTheWay absolute steps l) (hg : Grows t t')
    (hh : t'.here = t.here) : t'.OnTheWay absolute steps l := by
  obtain ⟨front, hfront, hl⟩ := h
  exact ⟨front, hfront, hl.of_grows hg hh⟩

namespace Paves

theorem refl (absolute : Bool) (steps : List String) (t : FileTree) : Paves absolute steps t t :=
  ⟨rfl, fun _ => .inl rfl⟩

/-- New directories only add to a tree. -/
theorem grows (h : Paves absolute steps t t') : Grows t t' := by
  intro l n hl
  rcases h.get?_or l with he | ⟨hnone, -⟩
  · rw [he, hl]
  · simp [hnone] at hl

/-- New directories along some steps are new directories along more. -/
theorem mono (h : Paves absolute steps t t') (hs : steps <+: steps') :
    Paves absolute steps' t t' :=
  ⟨h.here, fun l => (h.get?_or l).imp_right fun ⟨hnone, hdir, hway⟩ => ⟨hnone, hdir, hway.mono hs⟩⟩

/-- New directories upon new directories. -/
theorem trans (h : Paves absolute steps t t') (h' : Paves absolute steps t' t'') :
    Paves absolute steps t t'' := by
  refine ⟨h'.here.trans h.here, fun l => ?_⟩
  rcases h.get?_or l with he | ⟨hnone, hdir, hway⟩
  · rw [← he]
    exact h'.get?_or l
  · exact .inr ⟨hnone, h'.grows l _ hdir, hway.of_grows h'.grows h'.here⟩

end Paves

/-- Where a path leads is on the way along some steps. -/
def EndsOn (p : Path) (absolute : Bool) (steps : List String) : Prop :=
  ∀ {t : FileTree} {l : Location}, t.Leads p l → t.OnTheWay absolute steps l

/-- A new directory at the end of the steps. -/
theorem paves_of_makeDir (hp : EndsOn p absolute steps)
    (h : t.makeDir p = .ok t') : Paves absolute steps t t' := by
  obtain ⟨front, name, loc, -, -, -, hnone, rfl, hleads⟩ := leads_of_makeDir h
  refine ⟨here_set t _ _, fun l => ?_⟩
  rw [get?_set]
  split
  · next hl =>
    obtain ⟨rfl, -⟩ := hl
    exact .inr ⟨hnone, rfl, hp hleads⟩
  · exact .inl rfl

/-- The same for a directory that may be there already. -/
theorem paves_makeDirOnce (hp : EndsOn p absolute steps)
    (t : FileTree) : Paves absolute steps t (treeAfter (makeDirOnce p t)) := by
  unfold makeDirOnce
  split
  · next hmake => exact paves_of_makeDir hp hmake
  · split <;> exact .refl absolute steps t

/-- The same for a directory whose parents are made first. -/
theorem paves_makeDirBelow {above : FileM FileFault Unit}
    (hp : EndsOn p absolute steps)
    (ha : ∀ t, Paves absolute steps t (treeAfter (above t))) (t : FileTree) :
    Paves absolute steps t (treeAfter (makeDirBelow above p t)) := by
  have habove := ha t
  unfold makeDirBelow
  split
  · next hmake => exact paves_of_makeDir hp hmake
  · split
    · next t₁ h =>
      rw [h] at habove
      exact habove.trans (paves_makeDirOnce hp t₁)
    · next h =>
      rw [h] at habove
      exact habove
  · split <;> exact .refl absolute steps t

/-- The same for all directories along some steps, each below those before it. -/
theorem paves_makeSteps (absolute : Bool) : ∀ (steps : List String) (t : FileTree),
    Paves absolute steps.reverse t (treeAfter (makeSteps absolute steps t))
  | [], t => .refl absolute [] t
  | name :: above, t => by
    refine paves_makeDirBelow (fun hl => ⟨_, List.prefix_refl _, hl⟩) (fun t => ?_) t
    refine (paves_makeSteps absolute above t).mono ?_
    rw [List.reverse_cons]
    exact List.prefix_append above.reverse [name]

/-- Normal steps are the steps of a path but for dots. -/
theorem filter_normalSteps (p : Path) :
    p.normalSteps.filter (· != ".") = p.steps.filter (· != ".") := by
  unfold Path.normalSteps
  split
  · next hsteps => simp [hsteps]
  · simp

/-- **Making a directory adds directories on the way to it, and nothing else**, also where it fails
half way. -/
theorem paves_makeDirs {text : String} (hp : Path.ofDir text = .ok p) (t : FileTree) :
    Paves p.absolute p.normalSteps t (treeAfter (makeDirs text t)) := by
  rcases makeDirs_of_ofDir (t := t) hp with ⟨-, -, hmake⟩ | hmake
  · rw [hmake]
    exact .refl p.absolute p.normalSteps t
  · rw [hmake]
    refine paves_makeDirBelow (fun {t l} hl => ?_) (fun t => ?_) t
    · have hnormal := walkLinks_congr_dots (t := t) (filter_normalSteps p) maxLinks (t.start p) l
      exact ⟨p.normalSteps, List.prefix_refl _, hnormal.mpr hl⟩
    · have hsteps := paves_makeSteps p.absolute p.parentSteps.reverse t
      rw [List.reverse_reverse] at hsteps
      exact hsteps.mono (List.dropLast_prefix p.normalSteps)

end FileTree

namespace Store

variable {s : Store} {force : Force} {t t' t₁ : FileTree} {a : Artifact} {policy : Policy}
  {e : Error} {tasks : List Task} {elsewhere targets : List String}

/-! ## One write that fails

The file comes last, and is not there if the write fails; so the directories are all that the write
can have made. -/

/-- **A write that fails leaves the tree as it was, or with the directory made.** -/
theorem tree_of_write_error (h : s.write a policy t = .error e t') :
    t' = t ∨ t' = treeAfter (FileTree.makeDirs s.dir t) := by
  unfold write at h
  split at h
  · split at h
    · exact nomatch h
    · exact .inl (EStateM.Result.error.inj h).2.symm
  · right
    rcases s.commit_cases a policy (s.present a.table t) t with
      ⟨e', t₁, hm, he⟩ | ⟨t₁, hm, ⟨t₂, o, -, he⟩ | he⟩
    · rw [hm, treeAfter_error, ← he, h, treeAfter_error]
    · exact nomatch h.symm.trans he
    · rw [hm, treeAfter_ok, ← he, h, treeAfter_error]

/-- **A write that fails leaves every file and link as it was**, and new directories on the way to
the store's own at most. -/
theorem paves_of_write_error (h : s.write a policy t = .error e t') :
    t' = t ∨ ∃ p, Path.ofDir s.dir = .ok p ∧
      FileTree.Paves p.absolute p.normalSteps t t' := by
  rcases tree_of_write_error h with rfl | rfl
  · exact .inl rfl
  · cases hp : Path.ofDir s.dir with
    | ok p => exact .inr ⟨p, rfl, FileTree.paves_makeDirs hp t⟩
    | error fault => exact .inl (by rw [FileTree.makeDirs_of_ofDir_error hp, treeAfter_error])

/-- **After a write that succeeds no directory is made**: the store's own is there, or a file stands
in its way. -/
theorem treeAfter_makeDirs_of_writes (hne : tasks ≠ [])
    (hid : ∀ task ∈ tasks, isIdentifier task.name.toList) (h : s.Writes force tasks t t') :
    treeAfter (FileTree.makeDirs s.dir t') = t' := by
  obtain ⟨t₁, loc, -, hsteps⟩ := (writes_iff_steps hne hid).mp h
  rcases hsteps.liesAt_or_replaced (hsteps.liesAt hne) with hl | ⟨⟨p, hp, hblocked⟩, -⟩
  · rw [hl.makeDirs_eq, treeAfter_ok]
  · obtain ⟨fault, hm⟩ := FileTree.makeDirs_of_blocked hp hblocked
    rw [hm, treeAfter_error]

/-! ## A table that is not generated

The table comes first and its stubs after it, and what was written before a failure stays. -/

/-- **Stubs fail with one that fails.** -/
theorem stubAll_eq_error_iff (force : Force) :
    s.stubAll elsewhere targets t = .error e t' ↔
      s.FailsIn force ((targets.filter (· ∉ elsewhere)).map .stub) e t t' := by
  induction targets generalizing t with
  | nil => exact iff_of_false (fun h => by cases h) not_failsIn_nil
  | cons target targets ih =>
    unfold stubAll
    by_cases hmem : target ∈ elsewhere
    · have hdrop : (target :: targets).filter (· ∉ elsewhere) = targets.filter (· ∉ elsewhere) := by
        simp [hmem]
      rw [if_pos hmem, hdrop, ← ih]
      exact run_bind_pure_eq_error_iff
    · have hkeep : (target :: targets).filter (· ∉ elsewhere) =
          target :: targets.filter (· ∉ elsewhere) := by
        simp [hmem]
      rw [if_neg hmem, hkeep, List.map_cons, failsIn_cons, run_bind_eq_error_iff]
      refine or_congr Iff.rfl (exists_congr fun o => exists_congr fun t₁ => and_congr Iff.rfl ?_)
      rw [← ih]
      exact run_bind_pure_eq_error_iff

/-- **Stubs are written one by one, up to the first that cannot be.** -/
theorem exists_of_stubAll_error (force : Force)
    (h : s.stubAll elsewhere targets t = .error e t') :
    ∃ front u back t₁, targets = front ++ u :: back ∧ u ∉ elsewhere ∧
      s.Writes force ((front.filter (· ∉ elsewhere)).map .stub) t t₁ ∧
      s.writeStub u t₁ = .error e t' := by
  obtain ⟨written, task, left, t₁, htasks, hwrites, hfail⟩ := (stubAll_eq_error_iff force).mp h
  -- the targets are cut where the task that fails comes from
  obtain ⟨kept, rest, hkept, rfl, hrest⟩ := List.map_eq_append_iff.mp htasks
  obtain ⟨u, rest, rfl, rfl, -⟩ := List.map_eq_cons_iff.mp hrest
  obtain ⟨front, back, rfl, rfl, hback⟩ := List.filter_eq_append_iff.mp hkept
  obtain ⟨skipped, back, rfl, hskipped, hu, -⟩ := List.filter_eq_cons_iff.mp hback
  refine ⟨front ++ skipped, u, back, t₁, by simp, by simpa using hu, ?_, hfail⟩
  rwa [List.filter_append, List.filter_eq_nil_iff.mpr hskipped, List.append_nil]

/-- A stub is never refused: only a fault of the file system keeps it from being written. -/
theorem file_of_writeStub_error {u : String} (hid : isIdentifier u.toList)
    (h : s.writeStub u t = .error e t') : ∃ path fault, e = .file path fault := by
  by_contra hno
  have hid' : isIdentifier (Table.stub u).artifact.table.toList := hid
  exact (taken_of_write_error hid' h fun path fault he => hno ⟨path, fault, he⟩).1 rfl

/-- Stubs fail only by a fault of the file system. -/
theorem file_of_stubAll_error (hid : ∀ target ∈ targets, isIdentifier target.toList)
    (h : s.stubAll elsewhere targets t = .error e t') : ∃ path fault, e = .file path fault := by
  obtain ⟨front, u, back, t₁, rfl, -, -, hstub⟩ := exists_of_stubAll_error {} h
  exact file_of_writeStub_error (hid u (by simp)) hstub

/-- The tasks of a generated table that come before a stub. -/
theorem isIdentifier_of_mem_front {name : String} {tokens : List String} {opts : Options}
    {table : Table} (hb : Table.build name tokens opts = .ok table) {front : List String}
    (hf : front ⊆ table.referenced) {task : Task}
    (hm : task ∈ .table table.artifact :: (front.filter (· ∉ elsewhere)).map Task.stub) :
    isIdentifier task.name.toList := by
  rcases List.mem_cons.mp hm with rfl | hm
  · exact Table.isIdentifier_of_build hb
  · obtain ⟨u, hu, rfl⟩ := List.mem_map.mp hm
    exact Table.isIdentifier_of_mem_referenced hb (hf (List.mem_filter.mp hu).1)

/-- **A table that is not generated, for a reason other than a fault of the file system**, does not
build, or its own write fails. -/
theorem of_generate_error {name : String} {tokens : List String} {opts : Options}
    (h : s.generate name tokens opts force elsewhere t = .error e t')
    (he : ∀ path fault, e ≠ .file path fault) :
    (∃ e', Table.build name tokens opts = .error e') ∧ t' = t ∨
      ∃ table, Table.build name tokens opts = .ok table ∧
        s.write table.artifact (.primary force) t = .error e t' := by
  unfold generate at h
  cases hbuild : Table.build name tokens opts with
  | error e' =>
    rw [hbuild] at h
    exact .inl ⟨⟨e', rfl⟩, (EStateM.Result.error.inj h).2.symm⟩
  | ok table =>
    rw [hbuild] at h
    refine .inr ⟨table, rfl, ?_⟩
    rcases run_bind_eq_error_iff.mp h with h | ⟨o, t₁, -, h⟩
    · exact h
    · rcases run_bind_eq_error_iff.mp h with h | ⟨report, t₂, -, h⟩
      · obtain ⟨path, fault, rfl⟩ :=
          file_of_stubAll_error (fun target => Table.isIdentifier_of_mem_referenced hbuild) h
        exact absurd rfl (he path fault)
      · exact nomatch h

/-- **What a table that is not generated leaves.** Either every file and link is as it was, with new
directories on the way to the store's own at most; or the table has been built and written, then the
stubs of the tables it refers to up to one that met a fault of the file system, and that is what is
left. -/
theorem paves_or_stub_of_generate_error {name : String} {tokens : List String} {opts : Options}
    (h : s.generate name tokens opts force elsewhere t = .error e t') :
    (t' = t ∨ ∃ p, Path.ofDir s.dir = .ok p ∧
        FileTree.Paves p.absolute p.normalSteps t t') ∨
      ∃ table front u back, Table.build name tokens opts = .ok table ∧
        table.referenced = front ++ u :: back ∧ u ∉ elsewhere ∧
        s.Writes force (.table table.artifact :: (front.filter (· ∉ elsewhere)).map .stub) t t' ∧
        s.writeStub u t' = .error e t' ∧ ∃ path fault, e = .file path fault := by
  unfold generate at h
  cases hbuild : Table.build name tokens opts with
  | error e' =>
    rw [hbuild] at h
    exact .inl (.inl (EStateM.Result.error.inj h).2.symm)
  | ok table =>
    rw [hbuild] at h
    rcases run_bind_eq_error_iff.mp h with h | ⟨o, t₁, hwrite, h⟩
    · exact .inl (paves_of_write_error h)
    · rcases run_bind_eq_error_iff.mp h with h | ⟨report, t₂, -, h⟩
      · right
        obtain ⟨front, u, back, t₂, hreferenced, hu, hstubs, hstub⟩ :=
          exists_of_stubAll_error force h
        have hwrites : s.Writes force
            (.table table.artifact :: (front.filter (· ∉ elsewhere)).map .stub) t t₂ :=
          .cons hwrite hstubs
        have hfront : front ⊆ table.referenced := hreferenced ▸ List.subset_append_left front _
        have hmade := treeAfter_makeDirs_of_writes (List.cons_ne_nil _ _)
          (fun task hm => isIdentifier_of_mem_front hbuild hfront hm) hwrites
        obtain rfl : t' = t₂ := by
          rcases tree_of_write_error hstub with he | he
          · exact he
          · exact he.trans hmade
        have hidu : isIdentifier u.toList :=
          Table.isIdentifier_of_mem_referenced hbuild (by simp [hreferenced])
        exact ⟨table, front, u, back, rfl, hreferenced, hu, hwrites, hstub,
          file_of_writeStub_error hidu hstub⟩
      · exact nomatch h

/-- **A table is left behind wherever it refers to one whose artifact has no path or name that
fits**: it is written, and generating it fails all the same. -/
theorem exists_generate_error_of_not_fits {name u : String} {tokens : List String} {opts : Options}
    {table : Table} {o : Outcome} (hb : Table.build name tokens opts = .ok table)
    (hw : s.write table.artifact (.primary force) t = .ok o t₁) (hu : u ∈ table.referenced)
    (he : u ∉ elsewhere) (hf : ¬ s.Fits u) :
    ∃ e t', s.generate name tokens opts force elsewhere t = .error e t' ∧ FileTree.Grows t₁ t' := by
  have hgrows := s.grows_stubAll elsewhere table.referenced t₁
  cases hstubs : s.stubAll elsewhere table.referenced t₁ with
  | ok report t₂ =>
    obtain ⟨-, hwrites⟩ := writes_of_stubAll force hstubs
    have hmem : Task.stub u ∈ (table.referenced.filter (· ∉ elsewhere)).map .stub :=
      List.mem_map_of_mem (List.mem_filter.mpr ⟨hu, by simpa using he⟩)
    obtain ⟨t₀, loc, -, hsteps⟩ := (writes_iff_steps (List.ne_nil_of_mem hmem)
      fun task hm => isIdentifier_of_mem_front hb (List.Subset.refl _)
        (List.mem_cons_of_mem _ hm)).mp hwrites
    exact absurd (hsteps.fits hmem) hf
  | error e t₂ =>
    rw [hstubs] at hgrows
    refine ⟨e, t₂, ?_, hgrows⟩
    unfold generate
    rw [hb]
    exact run_bind_eq_error_iff.mpr
      (.inr ⟨o, t₁, hw, run_bind_eq_error_iff.mpr (.inl hstubs)⟩)

/-- Posts refer to users. -/
def postTokens : List String := ["author->users"]

/-- The store is reached by a link that has the name of the posts' artifact. -/
def postTree : FileTree where
  nodes := [(["work"], .dir), (["work", "posts.json"], .link ".")]
  here := ["work"]
  nested := by decide
  here_dir := by decide

/-- The posts replace the link, and then their users cannot be written. -/
theorem stub_of_generate_posts :
    ∃ e t' table front u back,
      (⟨"posts.json"⟩ : Store).generate "posts" postTokens {} { flag := true } [] postTree =
        .error e t' ∧
      Table.build "posts" postTokens {} = .ok table ∧ table.referenced = front ++ u :: back ∧
      (⟨"posts.json"⟩ : Store).Writes { flag := true }
        (.table table.artifact :: (front.filter (· ∉ [])).map .stub) postTree t' ∧
      t'.get? ["work", "posts.json"] ≠ postTree.get? ["work", "posts.json"] := by
  obtain ⟨e, t', hgen, hcheck⟩ := exists_error_of_check
    (r := (⟨"posts.json"⟩ : Store).generate "posts" postTokens {} { flag := true } [] postTree)
    (fun _ t' => decide (t'.get? ["work", "posts.json"] ≠ some (.link "."))) (by decide +kernel)
  have hchanged := of_decide_eq_true hcheck
  rcases paves_or_stub_of_generate_error hgen with (rfl | ⟨p, -, hpaves⟩) | hstub
  · exact absurd rfl hchanged
  · exact absurd (hpaves.grows ["work", "posts.json"] _ rfl) hchanged
  · obtain ⟨table, front, u, back, hbuild, hreferenced, -, hwrites, -⟩ := hstub
    exact ⟨e, t', table, front, u, back, hgen, hbuild, hreferenced, hwrites, hchanged⟩

end Store

end Tablature
