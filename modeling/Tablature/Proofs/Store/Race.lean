import Mathlib.Logic.Function.Basic
import Tablature.Proofs.Store.Writer

/-!
# Proofs/Store/Race — writers that race for one path

Between the steps of a writer others can take theirs.  A `Race` is a tree with the phase that each
writer has reached, and a schedule says who moves next; a writer that has finished stays where it
is.  Any number of writers can have looked before the first file is there.

* `Race.Sound` — what links the phases to the path, in every state that a race can reach;
* `Race.creates_once` — of any number of writers, at most one creates the file, and it is the file
  that the path holds from then on.
-/

namespace Tablature

namespace Store

/-! ## A race -/

/-- Writers with what they have made of a tree so far. -/
structure Race (ι : Type) where
  tree : FileTree
  phase : ι → Phase

namespace Race

variable {ι : Type} [DecidableEq ι] {s : Store} {table : String} {writers : ι → Writer table}
  {t : FileTree} {x : Race ι} {i j : ι}

/-- The state in which every writer has been called. -/
def start (t : FileTree) : Race ι := ⟨t, fun _ => .called⟩

/-- One writer takes a step. -/
def advance (s : Store) (writers : ι → Writer table) (x : Race ι) (i : ι) : Race ι :=
  let next := (writers i).step s (x.phase i) x.tree
  ⟨next.2, Function.update x.phase i next.1⟩

/-- Where a race is after some steps, in the order of a schedule. -/
def run (s : Store) (writers : ι → Writer table) (t : FileTree) (schedule : List ι) : Race ι :=
  schedule.foldl (advance s writers) (start t)

/-- A writer has finished, with this result. -/
def Finished (x : Race ι) (i : ι) (result : Except Error Outcome) : Prop :=
  x.phase i = .done result

/-- The file of an artifact is new, and this writer has put it there. -/
def Created (x : Race ι) (i : ι) : Prop := x.Finished i (.ok .created)

instance (x : Race ι) (i : ι) (result : Except Error Outcome) : Decidable (x.Finished i result) :=
  inferInstanceAs (Decidable (x.phase i = .done result))

instance (x : Race ι) (i : ι) : Decidable (x.Created i) :=
  inferInstanceAs (Decidable (x.Finished i (.ok .created)))

/-- **A writer that no other comes between does what a write does**, in three steps. -/
theorem exists_run_alone (s : Store) (writers : ι → Writer table) (t : FileTree) (i : ι) :
    ∃ result, (run s writers t [i, i, i]).Finished i result ∧
      s.write (writers i).artifact (writers i).policy t =
        Writer.resultOf result (run s writers t [i, i, i]).tree := by
  obtain ⟨phase₁, t₁, phase₂, t₂, result, t₃, h₁, h₂, h₃, hwrite⟩ := (writers i).exists_steps s t
  have hrun : run s writers t [i, i, i] =
      ⟨t₃, Function.update (start t : Race ι).phase i (.done result)⟩ := by
    simp [run, advance, start, h₁, h₂, h₃]
  refine ⟨result, ?_, ?_⟩
  · rw [hrun]
    exact Function.update_self i _ _
  · rw [hrun, hwrite]

/-! ## What every race keeps

`Sound` holds at the start and is kept by each step, whoever takes it; so it holds after every
schedule. -/

/-- What links the phases of a race to the tree it started from and to the path. -/
structure Sound (s : Store) (writers : ι → Writer table) (t : FileTree) (x : Race ι) : Prop where
  grows : FileTree.Grows t x.tree
  here_eq : x.tree.here = t.here
  created : ∀ i, x.Created i → (∀ node, ¬ t.Holds (s.pathFor table) node) ∧
    x.tree.Holds (s.pathFor table) (writers i).node
  unique : ∀ i j, x.Created i → x.Created j → i = j
  finished : ∀ i result, x.Finished i result → result = .ok .created ∨
    Writer.IsFileError result ∨
    result = (writers i).beaten s ∧ ∃ node, x.tree.Holds (s.pathFor table) node
  /-- The tree is the one at the start, with the store's directory at most, up to the first file
  or fault. -/
  changed : (∃ i result, x.Finished i result ∧
      (result = .ok .created ∨ Writer.IsFileError result)) ∨
    x.tree = t ∨ FileTree.makeDirs s.dir t = .ok () x.tree

omit [DecidableEq ι] in
theorem sound_start (s : Store) (writers : ι → Writer table) (t : FileTree) :
    Sound s writers t (start t) where
  grows := .refl t
  here_eq := rfl
  created _ h := nomatch h
  unique _ _ h := nomatch h
  finished _ _ h := nomatch h
  changed := .inr (.inl rfl)

theorem finished_advance {result : Except Error Outcome} :
    (advance s writers x i).Finished j result ↔
      if j = i then ((writers i).step s (x.phase i) x.tree).1 = .done result
      else x.Finished j result := by
  unfold Finished advance
  by_cases hj : j = i
  · simp [hj]
  · simp [hj, Function.update_of_ne]

/-- **A finished writer stays finished.** -/
theorem Finished.advance {result : Except Error Outcome} (h : x.Finished j result) (i : ι) :
    (advance s writers x i).Finished j result := by
  rw [finished_advance]
  split
  · next hj =>
    have hmove := (writers i).moves_step s (x.phase i) x.tree
    rw [Finished, hj] at h
    rw [h] at hmove ⊢
    exact hmove.of_done.1
  · exact h

theorem moves_of_finished {result : Except Error Outcome}
    (h : (advance s writers x i).Finished j result) :
    x.Finished j result ∨ j = i ∧ Writer.Moves s (writers i) x.tree (x.phase i) (.done result)
      (advance s writers x i).tree := by
  rw [finished_advance] at h
  split at h
  · next hj => exact .inr ⟨hj, h ▸ (writers i).moves_step s (x.phase i) x.tree⟩
  · exact .inl h

theorem created_of_advance (h : (advance s writers x i).Created j) :
    x.Created j ∨ j = i ∧ (∀ node, ¬ x.tree.Holds (s.pathFor table) node) ∧
      (advance s writers x i).tree.Holds (s.pathFor table) (writers i).node := by
  rcases moves_of_finished h with hold | ⟨rfl, hmove⟩
  · exact .inl hold
  · exact hmove.created.imp_right fun hnew => ⟨rfl, hnew⟩

/-- **What links phases, tree and path is kept by every step.** -/
theorem Sound.advance (h : Sound s writers t x) (i : ι) :
    Sound s writers t (advance s writers x i) := by
  have hmove : Writer.Moves s (writers i) x.tree (x.phase i) _ (Race.advance s writers x i).tree :=
    (writers i).moves_step s (x.phase i) x.tree
  obtain ⟨hgrows, hhere⟩ := hmove.grows
  refine ⟨h.grows.trans hgrows, hhere.trans h.here_eq, ?_, ?_, ?_, ?_⟩
  · intro j hj
    rcases created_of_advance hj with hold | ⟨rfl, hvacant, hnode⟩
    · exact (h.created j hold).imp_right fun hnode => hnode.of_grows hgrows hhere
    · exact ⟨fun node hnode => hvacant node (hnode.of_grows h.grows h.here_eq), hnode⟩
  · -- who creates finds nothing, but a creator before it has left something
    intro j k hj hk
    rcases created_of_advance hj with hj | ⟨hji, hvacant, -⟩ <;>
      rcases created_of_advance hk with hk | ⟨hki, hvacant', -⟩
    · exact h.unique j k hj hk
    · exact absurd (h.created j hj).2 (hvacant' _)
    · exact absurd (h.created k hk).2 (hvacant _)
    · exact hji.trans hki.symm
  · intro j result hj
    have hold : x.Finished j result → result = .ok .created ∨ Writer.IsFileError result ∨
        result = (writers j).beaten s ∧
          ∃ node, (Race.advance s writers x i).tree.Holds (s.pathFor table) node := fun hj =>
      (h.finished j result hj).imp_right fun hj => hj.imp_right fun ⟨hbeaten, node, hnode⟩ =>
        ⟨hbeaten, node, hnode.of_grows hgrows hhere⟩
    rcases moves_of_finished hj with hj | ⟨rfl, hmove⟩
    · exact hold hj
    · exact hmove.finished.elim hold id
  · rcases h.changed with ⟨j, result, hj, hresult⟩ | htree
    · exact .inl ⟨j, result, hj.advance i, hresult⟩
    · rcases hmove.changed with hsame | hm | ⟨result, hi, hresult⟩
      · exact .inr (hsame ▸ htree)
      · rcases htree with htree | htree
        · exact .inr (.inr (htree ▸ hm))
        · -- the directory is there, so that it is not made again
          obtain ⟨loc, hl⟩ := exists_liesAt_of_makeDirs htree
          obtain ⟨-, hsame⟩ := EStateM.Result.ok.inj (hl.makeDirs_eq.symm.trans hm)
          exact .inr (.inr (hsame ▸ htree))
      · exact .inl ⟨i, result, finished_advance.mpr (by rwa [if_pos rfl]), hresult⟩

/-- **Every state that a race can reach is sound.** -/
theorem sound_run (s : Store) (writers : ι → Writer table) (t : FileTree) (schedule : List ι) :
    Sound s writers t (run s writers t schedule) := by
  have hfrom : ∀ x, Sound s writers t x →
      Sound s writers t (schedule.foldl (Race.advance s writers) x) := by
    induction schedule with
    | nil => exact fun x h => h
    | cons i schedule ih => exact fun x h => ih _ (h.advance i)
  exact hfrom _ (sound_start s writers t)

omit [DecidableEq ι] in
/-- **A vacant path gets its file**, if nobody meets a fault: who finishes without creating it has
found something there, and nothing but a creator's file can be what it found. -/
theorem Sound.exists_created (h : Sound s writers t x) (i : ι) (hvacant : s.Vacant table t)
    (hall : ∀ i, ∃ result, x.Finished i result ∧ ¬ Writer.IsFileError result) :
    ∃ j, x.Created j := by
  have hfault : ∀ {j result}, x.Finished j result → ¬ Writer.IsFileError result := by
    intro j result hj
    obtain ⟨result', hj', hnot⟩ := hall j
    obtain rfl := Phase.done.inj (hj.symm.trans hj')
    exact hnot
  rcases h.changed with ⟨j, result, hj, rfl | hfile⟩ | htree
  · exact ⟨j, hj⟩
  · exact absurd hfile (hfault hj)
  · obtain ⟨result, hi, hnot⟩ := hall i
    rcases h.finished i result hi with rfl | hfile | ⟨-, node, hnode⟩
    · exact ⟨i, hi⟩
    · exact absurd hfile hnot
    · rcases htree with htree | hm
      · exact absurd (htree ▸ hnode) (hvacant node).1
      · exact absurd hnode ((hvacant node).2 _ hm)

/-! ## One creator -/

/-- What holds of a race at every point of a schedule. -/
structure CreatesOnce (s : Store) (writers : ι → Writer table) (t : FileTree)
    (schedule : List ι) : Prop where
  at_most_one : ∀ i j, (run s writers t schedule).Created i → (run s writers t schedule).Created j →
    i = j
  /-- From the moment of creation on, the path holds the file of the creator and nothing else. -/
  holds : ∀ i later, (run s writers t schedule).Created i →
    ∀ node, (run s writers t (schedule ++ later)).tree.Holds (s.pathFor table) node ↔
      node = .file (writers i).artifact.encode.toUTF8
  others : ∀ i result, (run s writers t schedule).Finished i result → ¬ Writer.IsFileError result →
    result = .ok .created ∨
      (writers i).policy = .refuse ∧ result = .error (.collision table (s.pathFor table)) ∨
      (writers i).policy = .keep ∧ result = .ok .kept
  exactly_one : Nonempty ι → s.Vacant table t →
    (∀ i, ∃ result, (run s writers t schedule).Finished i result ∧ ¬ Writer.IsFileError result) →
    ∃! i, (run s writers t schedule).Created i
  /-- What was at the path at the start stays there, and where the path led it leads. -/
  occupied : ∀ node, t.Holds (s.pathFor table) node →
    (∀ i, ¬ (run s writers t schedule).Created i) ∧
      (run s writers t schedule).tree.Holds (s.pathFor table) node ∧
      ∀ spot, t.resolve (s.pathFor table) = .ok spot →
        (run s writers t schedule).tree.resolve (s.pathFor table) = .ok spot

theorem Finished.run {result : Except Error Outcome} {schedule : List ι}
    (h : (run s writers t schedule).Finished i result) (later : List ι) :
    (run s writers t (schedule ++ later)).Finished i result := by
  rw [Race.run, List.foldl_append]
  change Finished (List.foldl _ (Race.run s writers t schedule) later) i result
  generalize Race.run s writers t schedule = x at h
  induction later generalizing x with
  | nil => exact h
  | cons j later ih => exact ih _ (h.advance j)

/-- **Racing writers create a table once.** Alone, a writer does in three steps what a write does.
Of any number of writers of one table, whose steps come in any order, at most one creates the
file; it is exactly one if the path was vacant and all finish without a fault of the file system.
All others find a collision or keep what is there, the path holds the creator's file from then on,
and what it held before the race it holds for good.

That a path is vacant says that it holds nothing, for a table with a proper name in a store whose
own path never goes up. -/
theorem creates_once (s : Store) (writers : ι → Writer table) (t : FileTree) :
    (∀ i, ∃ result, (run s writers t [i, i, i]).Finished i result ∧
      s.write (writers i).artifact (writers i).policy t =
        Writer.resultOf result (run s writers t [i, i, i]).tree) ∧
      (∀ schedule, CreatesOnce s writers t schedule) ∧
      ∀ p, isIdentifier table.toList → Path.ofDir s.dir = .ok p → ".." ∉ p.steps →
        (s.Vacant table t ↔ ∀ node, ¬ t.Holds (s.pathFor table) node) := by
  refine ⟨exists_run_alone s writers t, fun schedule => ?_, fun p hid hp hup =>
    ⟨fun h node => (h node).1, vacant_of_not_holds hid hp hup⟩⟩
  have hsound := sound_run s writers t schedule
  refine ⟨hsound.unique, ?_, ?_, ?_, ?_⟩
  · intro i later hi node
    have hnode := ((sound_run s writers t (schedule ++ later)).created i (hi.run later)).2
    exact ⟨fun h => h.unique hnode, fun h => h ▸ hnode⟩
  · intro i result hi herror
    rcases hsound.finished i result hi with hcreated | hfile | ⟨rfl, -⟩
    · exact .inl hcreated
    · exact absurd hfile herror
    · exact .inr (writers i).beaten_cases
  · rintro ⟨i⟩ hvacant hall
    obtain ⟨j, hj⟩ := hsound.exists_created i hvacant hall
    exact ⟨j, hj, fun k hk => hsound.unique k j hk hj⟩
  · intro node hnode
    exact ⟨fun i hi => (hsound.created i hi).1 node hnode,
      hnode.of_grows hsound.grows hsound.here_eq,
      fun spot hspot => FileTree.resolve_of_grows hsound.grows hsound.here_eq hspot⟩

/-- Two writers of one table, of which one keeps what is there. -/
def rivals (refuses : Bool) : Writer "users" where
  artifact := ⟨"users", if refuses then 2 else 1, "CREATE TABLE users (id);", []⟩
  policy := if refuses then .refuse else .keep
  table_eq := rfl
  yields := by cases refuses <;> decide

/-- Both look and see nothing; the second to make the directory is the first with its file. -/
theorem creates_once_rivals :
    let race := run ⟨"db"⟩ rivals bareTree
      [false, true, false, true, true, false]
    (∃! i, race.Created i) ∧ race.Created true ∧ race.Finished false (.ok .kept) ∧
      ∀ node, race.tree.Holds "db/users.json" node ↔
        node = .file (rivals true).artifact.encode.toUTF8 := by
  intro race
  have htrue : race.Created true := by decide +kernel
  have hfalse : race.Finished false (.ok .kept) := by decide +kernel
  obtain ⟨-, hraces, hvacant⟩ := creates_once ⟨"db"⟩ rivals bareTree
  have honce := hraces [false, true, false, true, true, false]
  refine ⟨honce.exactly_one ⟨true⟩ ?_ ?_, htrue, hfalse, honce.holds true [] htrue⟩
  · refine (hvacant ⟨false, ["db"], false⟩ (by decide) ?_ ?_).mpr ?_
    · decide +kernel
    · decide
    · rintro node ⟨l, ⟨q, hq, hplace⟩, -⟩
      have hnone : (Path.ofText ((⟨"db"⟩ : Store).pathFor "users")).bind
          bareTree.placeOf = .error .notFound := by
        decide +kernel
      rw [hq] at hnone
      exact nomatch hplace.symm.trans hnone
  · intro i
    cases i with
    | false => exact ⟨_, hfalse, fun ⟨_, _, h⟩ => nomatch h⟩
    | true => exact ⟨_, htrue, fun ⟨_, _, h⟩ => nomatch h⟩

end Race

end Store

end Tablature
