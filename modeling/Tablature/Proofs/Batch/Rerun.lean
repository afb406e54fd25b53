import Tablature.Proofs.Batch.Script
import Tablature.Proofs.Store.Rerun

/-!
# Proofs/Batch/Rerun — forced calls repeat themselves

Generating a table and running a document both follow a script, so that by force each of them does
the same a second time as it did the first time, whether it succeeds or fails (`forced_repeats`).
The two exceptions are real: `exists_rerun_with_another_answer`.
-/

namespace Tablature.Batch.Document

open FileTree (SameAs)

/-- **A forced call repeats itself.** Whether it succeeds or fails, generating a table or running a
document a second time leaves the same tree, byte for byte, and gives the same artifacts or the same
error. The exceptions are a store that the first call has cut off by putting a file in the place of
a link on the way to its directory, and one whose directory, on a path that goes up, could not be
made; then the second call fails at the directory. -/
theorem forced_repeats {force : Force} {t : FileTree} (hforce : force.isSet = true) (s : Store) :
    (∀ (name : String) (tokens : List String) (opts : Options) (elsewhere : List String),
      s.Repeats Generated.artifact (s.generate name tokens opts force elsewhere) t) ∧
      ∀ (d : Document) (base : Options),
        s.Repeats (fun gs : List Generated => gs.map (·.artifact)) (d.run s base force) t := by
  constructor
  · intro name tokens opts elsewhere
    exact (s.follows_generate name tokens opts force elsewhere).repeats
      (Store.isRegular_generateScript name tokens opts elsewhere) hforce
  · intro d base
    exact (d.follows_run s base force).repeats (d.isRegular_script base) hforce

/-- Orders are written, users are no table, and the stub of the users is written at the end: the run
fails alike the second time. -/
theorem repeats_brokenShop :
    ∃ e t' t'', brokenShop.run ⟨"db"⟩ {} { flag := true } bareTree = .error e t' ∧
      brokenShop.run ⟨"db"⟩ {} { flag := true } t' = .error e t'' ∧ SameAs t' t'' := by
  obtain ⟨e, t', hrun, hdir⟩ := exists_error_of_check
    (r := brokenShop.run ⟨"db"⟩ {} { flag := true } bareTree)
    (fun _ t' => t'.isDirPath ⟨false, ["db"], false⟩) (by decide +kernel)
  obtain ⟨loc, hloc⟩ := FileTree.isDirPath_iff.mp hdir
  have hlies : (⟨"db"⟩ : Store).LiesAt t' loc := ⟨_, rfl, hloc⟩
  have hforce : Force.isSet { flag := true } = true := rfl
  obtain ⟨hsame, hanswer⟩ := (forced_repeats (t := bareTree) hforce ⟨"db"⟩).2 brokenShop {}
  rw [hrun] at hsame hanswer
  rcases hanswer with hanswer | ⟨⟨-, -, -, -, -, -, -, -, -, hblocked⟩, -⟩ | ⟨hup, -⟩
  · cases hagain : brokenShop.run ⟨"db"⟩ {} { flag := true } t' with
    | ok gs t'' =>
      rw [treeAfter_error, hagain] at hanswer
      exact nomatch hanswer
    | error e' t'' =>
      rw [treeAfter_error, hagain] at hanswer hsame
      obtain rfl := Except.error.inj hanswer
      exact ⟨e', t', t'', hrun, hagain, hsame⟩
  · exact absurd hlies hblocked.not_liesAt
  · exact absurd hup (by decide)

/-- A file where the path to a store would go. -/
def fileTree : FileTree where
  nodes := [(["work"], .dir), (["work", "file"], .file "text".toUTF8)]
  here := ["work"]
  nested := by decide
  here_dir := by decide

/-- **A forced call need not give the same answer again.** The first run replaces the link that its
store is reached by; it succeeds, and then fails. The second one cannot make its store's directory,
but leaves another one on the way; by that it comes to another fault the second time. -/
theorem exists_rerun_with_another_answer :
    Store.answer (fun gs : List Generated => gs.map (·.artifact))
          (users.run ⟨"users.json"⟩ {} { flag := true }
            (treeAfter (users.run ⟨"users.json"⟩ {} { flag := true } loopTree))) ≠
        Store.answer (fun gs : List Generated => gs.map (·.artifact))
          (users.run ⟨"users.json"⟩ {} { flag := true } loopTree) ∧
      Store.answer (fun gs : List Generated => gs.map (·.artifact))
          (users.run ⟨"x/../file/c"⟩ {} { flag := true }
            (treeAfter (users.run ⟨"x/../file/c"⟩ {} { flag := true } fileTree))) ≠
        Store.answer (fun gs : List Generated => gs.map (·.artifact))
          (users.run ⟨"x/../file/c"⟩ {} { flag := true } fileTree) :=
  ⟨by decide +kernel, by decide +kernel⟩

end Tablature.Batch.Document
