import Tablature.Batch.Document
import Tablature.Generate

/-!
# Batch/Run — all tables of a document into a store

Entries are run in their order, up to the first that fails. A reference to a table that a later
entry defines is left to that entry; if the run fails first, such tables are given stubs after all,
so that what was written refers to nothing that is missing.
-/

namespace Tablature.Batch.Document

/-- Has a table been written? -/
def isDone (done : List Generated) (name : String) : Bool := done.any (·.artifact.table == name)

@[simp] theorem isDone_eq_decide (done : List Generated) (name : String) :
    isDone done name = decide (name ∈ done.map (·.artifact.table)) := by
  rw [Bool.eq_iff_iff]
  simp [isDone]

/-- The options of an entry: the document's actions go before those of the run. -/
def entryOptions (d : Document) (base : Options) (e : Entry) : Options where
  version := e.version
  stamps := e.stamps
  onDelete := d.onDelete.or base.onDelete
  onUpdate := d.onUpdate.or base.onUpdate
  referenceIndex := base.referenceIndex

/-- The tables that entries still to come define. -/
def pending (d : Document) (done : List Generated) (name : String) : List String :=
  d.declared.filter fun n => n != name && !isDone done n

/-- Runs the entry at a position. -/
def runEntry (d : Document) (store : Store) (base : Options) (force : Force)
    (done : List Generated) (t : Nat) : FileM Error Generated :=
  match d.entry t with
  | .error e => throw e
  | .ok entry =>
    store.generate entry.name entry.tokens (d.entryOptions base entry) force
      (d.pending done entry.name)

/-- The tree after a stub for each of some tables that were not written; a stub that cannot be
written is passed over. -/
def stubMissing (store : Store) (done : List Generated) (tree : FileTree) :
    List String → FileTree
  | [] => tree
  | target :: targets =>
    if isDone done target then stubMissing store done tree targets
    else
      match store.writeStub target tree with
      | .ok _ tree' => stubMissing store done tree' targets
      | .error _ tree' => stubMissing store done tree' targets

/-- The tree after stubs for all tables that were left to entries which never came. -/
def stubUnwritten (store : Store) (done : List Generated) (tree : FileTree) : FileTree :=
  stubMissing store done tree (done.flatMap (·.stubs.deferred))

/-- Runs so many entries from a position on. -/
def runFrom (d : Document) (store : Store) (base : Options) (force : Force) :
    (count t : Nat) → (done : List Generated) → FileM Error (List Generated)
  | 0, _, done => pure done
  | count + 1, t, done => fun tree =>
    match d.runEntry store base force done t tree with
    | .ok g tree' => d.runFrom store base force count (t + 1) (done ++ [g]) tree'
    | .error e tree' => .error e (stubUnwritten store done tree')

/-- Runs all entries. -/
def run (d : Document) (store : Store) (base : Options) (force : Force) :
    FileM Error (List Generated) :=
  d.runFrom store base force d.tables.length 0 []

/-- The document of the file at a path. -/
def ofFile (path : String) (t : FileTree) : Except Error Document :=
  match t.readText path with
  | .error fault => .error (.file path fault)
  | .ok text => parse text

end Tablature.Batch.Document
