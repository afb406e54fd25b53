import Tablature.Proofs.Store.Holds

/-!
# Proofs/Store/Writer — a write, step by step

A write is not one step: it looks whether the path is taken, makes the store's directory, and then
puts the file in place where nothing is by then.  `Writer.step` is one of these steps and
`Writer.exists_steps` says that the three together are a write; `Writer.Moves` is all that one step
can do, and `Writer.moves_step` says that there is nothing else.

What is said of a step here holds of any tree, and so whatever others have done to the tree since
the step before.
-/

namespace Tablature

namespace Store

/-! ## One writer -/

/-- A call that writes an artifact of a table and replaces nothing. -/
structure Writer (table : String) where
  artifact : Artifact
  policy : Policy
  table_eq : artifact.table = table
  yields : policy ≠ .replace

/-- How far a call has come. -/
inductive Phase where
  /-- It has not looked yet. -/
  | called
  /-- It has seen nothing at the path. -/
  | clear
  /-- It has made the store's directory. -/
  | ready
  | done (result : Except Error Outcome)
deriving DecidableEq

namespace Writer

variable {s : Store} {table : String} {t t' : FileTree} {phase phase' : Phase}

/-- What a writer reports if it finds its path taken. -/
def beaten (w : Writer table) (s : Store) : Except Error Outcome := s.taken w.artifact w.policy

/-- What a writer puts in place. -/
def node (w : Writer table) : Node := .file w.artifact.encode.toUTF8

/-- Where a writer is after it has tried to make the store's directory. -/
def afterDir : EStateM.Result Error FileTree Unit → Phase × FileTree
  | .ok _ t => (.ready, t)
  | .error e t => (.done (.error e), t)

/-- Where a writer is after it has tried to put its file where nothing is. -/
def afterPut (s : Store) (w : Writer table) :
    EStateM.Result FileFault FileTree Unit → Phase × FileTree
  | .ok _ t => (.done (.ok .created), t)
  | .error fault t =>
    if fault = .alreadyExists then (.done (w.beaten s), t)
    else (.done (.error (.file (s.pathFor table) fault)), t)

/-- One step of a writer. -/
def step (s : Store) (w : Writer table) : Phase → FileTree → Phase × FileTree
  | .called, t => if s.present table t then (.done (w.beaten s), t) else (.clear, t)
  | .clear, t => afterDir (s.makeDir t)
  | .ready, t => w.afterPut s (s.put w.artifact false t)
  | .done result, t => (.done result, t)

/-- What a writer reports is a fault of the file system. -/
def IsFileError (result : Except Error Outcome) : Prop :=
  ∃ path fault, result = .error (.file path fault)

/-- What a result and a tree say together. -/
def resultOf (result : Except Error Outcome) (t : FileTree) :
    EStateM.Result Error FileTree Outcome :=
  match result with
  | .ok outcome => .ok outcome t
  | .error e => .error e t

/-- **Three steps of a writer are a write**: the look, the directory, and the file. -/
theorem exists_steps (s : Store) (w : Writer table) (t : FileTree) :
    ∃ phase₁ t₁ phase₂ t₂ result t₃, w.step s .called t = (phase₁, t₁) ∧
      w.step s phase₁ t₁ = (phase₂, t₂) ∧ w.step s phase₂ t₂ = (.done result, t₃) ∧
      s.write w.artifact w.policy t = resultOf result t₃ := by
  by_cases hpresent : s.present table t = true
  · have hfirst : w.step s .called t = (.done (w.beaten s), t) := if_pos hpresent
    refine ⟨_, t, _, t, w.beaten s, t, hfirst, rfl, rfl, ?_⟩
    rw [write, w.table_eq, if_pos ⟨hpresent, w.yields⟩]
    rfl
  · have hfirst : w.step s .called t = (.clear, t) := if_neg hpresent
    have hwrite : s.write w.artifact w.policy t =
        s.commit w.artifact w.policy (s.present table t) t := by
      rw [write, w.table_eq, if_neg fun h => hpresent h.1]
    rw [hwrite, commit, decide_eq_false w.yields]
    cases hm : s.makeDir t with
    | error e t₁ =>
      have hsecond : w.step s .clear t = (.done (.error e), t₁) := by
        simp only [step, hm, afterDir]
      exact ⟨_, t, _, t₁, .error e, t₁, hfirst, hsecond, rfl, rfl⟩
    | ok u t₁ =>
      have hsecond : w.step s .clear t = (.ready, t₁) := by simp only [step, hm, afterDir]
      dsimp only
      cases hput : s.put w.artifact false t₁ with
      | ok u t₂ =>
        refine ⟨_, t, _, t₁, .ok .created, t₂, hfirst, hsecond, ?_, ?_⟩
        · simp only [step, hput, afterPut]
        · dsimp only
          rw [if_neg fun h => w.yields h.1]
          rfl
      | error fault t₂ =>
        by_cases hfault : fault = .alreadyExists
        · refine ⟨_, t, _, t₁, w.beaten s, t₂, hfirst, hsecond, ?_, ?_⟩
          · simp only [step, hput, afterPut, hfault, if_true]
          · dsimp only
            rw [if_pos ⟨w.yields, hfault⟩]
            rfl
        · refine ⟨_, t, _, t₁, .error (.file (s.pathFor table) fault), t₂, hfirst, hsecond, ?_, ?_⟩
          · simp only [step, hput, afterPut, hfault, if_false]
          · dsimp only
            rw [if_neg fun h => hfault h.2, w.table_eq]
            rfl

/-- All that a step of a writer can do. -/
inductive Moves (s : Store) (w : Writer table) (t : FileTree) : Phase → Phase → FileTree → Prop
  | sees {node : Node} (hnode : t.Holds (s.pathFor table) node) :
    Moves s w t .called (.done (w.beaten s)) t
  | misses : Moves s w t .called .clear t
  | makes {t' : FileTree} (hm : FileTree.makeDirs s.dir t = .ok () t') :
    Moves s w t .clear .ready t'
  | makesNot {t' : FileTree} {fault : FileFault}
    (hm : FileTree.makeDirs s.dir t = .error fault t') :
    Moves s w t .clear (.done (.error (.file s.dir fault))) t'
  | creates {t' : FileTree} (hvacant : ∀ node, ¬ t.Holds (s.pathFor table) node)
    (hg : FileTree.Grows t t') (hh : t'.here = t.here) (hnode : t'.Holds (s.pathFor table) w.node) :
    Moves s w t .ready (.done (.ok .created)) t'
  | yields {node : Node} (hnode : t.Holds (s.pathFor table) node) :
    Moves s w t .ready (.done (w.beaten s)) t
  | fails (fault : FileFault) :
    Moves s w t .ready (.done (.error (.file (s.pathFor table) fault))) t
  | rests (result : Except Error Outcome) : Moves s w t (.done result) (.done result) t

theorem moves_step (s : Store) (w : Writer table) (phase : Phase) (t : FileTree) :
    Moves s w t phase (w.step s phase t).1 (w.step s phase t).2 := by
  have hend := s.endsInName_pathFor table
  cases phase with
  | called =>
    by_cases hpresent : s.present table t = true
    · obtain ⟨node, hnode⟩ := FileTree.exists_holds_of_exists hend hpresent
      simpa only [step, hpresent, if_true] using Moves.sees hnode
    · simpa [step, hpresent] using Moves.misses
  | clear =>
    cases hm : FileTree.makeDirs s.dir t with
    | ok u t' => simpa only [step, makeDir, hm, afterDir] using Moves.makes hm
    | error fault t' => simpa only [step, makeDir, hm, afterDir] using Moves.makesNot hm
  | ready =>
    cases hput : s.put w.artifact false t with
    | ok u t' =>
      simp only [step, hput, afterPut]
      rw [put, w.table_eq] at hput
      obtain ⟨hvacant, hg, hh, hnode⟩ := FileTree.holds_of_place hput
      exact .creates hvacant hg hh hnode
    | error fault t' =>
      obtain rfl : t' = t := FileTree.eq_of_place_error hput
      by_cases hfault : fault = .alreadyExists
      · simp only [step, hput, afterPut, hfault, if_true]
        rw [put, w.table_eq, hfault] at hput
        obtain ⟨node, hnode⟩ := FileTree.exists_holds_of_place hend hput
        exact .yields hnode
      · simpa only [step, hput, afterPut, hfault, if_false] using Moves.fails fault
  | done result => exact .rests result

/-- A step only adds to a tree. -/
theorem Moves.grows {w : Writer table} (h : Moves s w t phase phase' t') :
    FileTree.Grows t t' ∧ t'.here = t.here := by
  have hdirs := And.intro (FileTree.grows_makeDirs s.dir t) (FileTree.here_makeDirs s.dir t)
  cases h with
  | makes hm => simpa [hm] using hdirs
  | makesNot hm => simpa [hm] using hdirs
  | creates _ hg hh _ => exact ⟨hg, hh⟩
  | sees | misses | yields | fails | rests => exact ⟨.refl t, rfl⟩

theorem Moves.of_done {w : Writer table} {result : Except Error Outcome}
    (h : Moves s w t (.done result) phase' t') : phase' = .done result ∧ t' = t := by
  cases h with
  | rests => exact ⟨rfl, rfl⟩

theorem beaten_ne_created (w : Writer table) : w.beaten s ≠ .ok .created :=
  fun h => nomatch kept_of_taken h

/-- What a writer reports of a path that is taken depends on its policy. -/
theorem beaten_cases (w : Writer table) :
    w.policy = .refuse ∧ w.beaten s = .error (.collision table (s.pathFor table)) ∨
      w.policy = .keep ∧ w.beaten s = .ok .kept := by
  unfold beaten taken
  rw [w.table_eq]
  cases hp : w.policy with
  | refuse => exact .inl ⟨rfl, rfl⟩
  | replace => exact absurd hp w.yields
  | keep => exact .inr ⟨rfl, rfl⟩

/-- **A writer creates where nothing is**, and then the path holds its file. -/
theorem Moves.created {w : Writer table} (h : Moves s w t phase (.done (.ok .created)) t') :
    phase = .done (.ok .created) ∨
      (∀ node, ¬ t.Holds (s.pathFor table) node) ∧ t'.Holds (s.pathFor table) w.node := by
  generalize hr : (.ok .created : Except Error Outcome) = result at h
  cases h with
  | sees | yields => exact absurd hr.symm w.beaten_ne_created
  | makesNot | fails => exact nomatch hr
  | creates hvacant _ _ hnode => exact .inr ⟨hvacant, hnode⟩
  | rests => exact .inl rfl

/-- **What a writer can finish with**: its own file, a fault of the file system, or finding that the
path holds something. -/
theorem Moves.finished {w : Writer table} {result : Except Error Outcome}
    (h : Moves s w t phase (.done result) t') :
    phase = .done result ∨ result = .ok .created ∨ IsFileError result ∨
      result = w.beaten s ∧ ∃ node, t'.Holds (s.pathFor table) node := by
  cases h with
  | sees hnode | yields hnode => exact .inr (.inr (.inr ⟨rfl, _, hnode⟩))
  | makesNot => exact .inr (.inr (.inl ⟨_, _, rfl⟩))
  | fails => exact .inr (.inr (.inl ⟨_, _, rfl⟩))
  | creates => exact .inr (.inl rfl)
  | rests => exact .inl rfl

/-- **What a step can change**: nothing, or it makes the store's directory, or the writer is done
with a fault or with its file in place. -/
theorem Moves.changed {w : Writer table} (h : Moves s w t phase phase' t') :
    t' = t ∨ FileTree.makeDirs s.dir t = .ok () t' ∨
      ∃ result, phase' = .done result ∧ (result = .ok .created ∨ IsFileError result) := by
  cases h with
  | makes hm => exact .inr (.inl hm)
  | makesNot => exact .inr (.inr ⟨_, rfl, .inr ⟨_, _, rfl⟩⟩)
  | creates => exact .inr (.inr ⟨_, rfl, .inl rfl⟩)
  | sees | misses | yields | fails | rests => exact .inl rfl

end Writer

end Store

end Tablature
