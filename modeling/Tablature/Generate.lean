import Tablature.Store
import Tablature.Table

/-!
# Generate — one table into the store, with stubs for what it refers to

* `Store.ensureStubs` — a stub for every table that is referred to and not there; tables defined
  elsewhere are left to be written then;
* `Store.generate` — a table from its tokens, its artifact, its stubs.
-/

namespace Tablature

/-- What became of the tables that a table refers to. -/
structure StubReport where
  /-- The paths of new stubs. -/
  created : List String := []
  /-- The tables that were there. -/
  existing : List String := []
  /-- The tables that are defined elsewhere. -/
  deferred : List String := []
deriving DecidableEq, Repr

/-- What generating a table did. -/
structure Generated where
  artifact : Artifact
  path : String
  outcome : Outcome
  stubs : StubReport
deriving DecidableEq, Repr

namespace Store

/-- Writes the stub of a table, unless something is there. -/
def writeStub (s : Store) (table : String) : FileM Error Outcome :=
  s.write (Table.stub table).artifact Policy.stub

/-- Stubs for some tables, in order, up to the first that cannot be written. -/
def stubAll (s : Store) (elsewhere : List String) : List String → FileM Error StubReport
  | [] => pure {}
  | target :: targets =>
    if target ∈ elsewhere then do
      let report ← s.stubAll elsewhere targets
      return { report with deferred := target :: report.deferred }
    else do
      let outcome ← s.writeStub target
      let report ← s.stubAll elsewhere targets
      return if outcome = .kept then { report with existing := target :: report.existing }
        else { report with created := s.pathFor target :: report.created }

/-- Stubs for the tables that a table refers to. -/
def ensureStubs (s : Store) (table : Table) (elsewhere : List String) : FileM Error StubReport :=
  s.stubAll elsewhere table.referenced

/-- Builds a table, writes its artifact, and then the stubs it needs. -/
def generate (s : Store) (name : String) (tokens : List String) (opts : Options) (force : Force)
    (elsewhere : List String) : FileM Error Generated :=
  match Table.build name tokens opts with
  | .error e => throw e
  | .ok table => do
    let outcome ← s.write table.artifact (Policy.primary force)
    let stubs ← s.ensureStubs table elsewhere
    return ⟨table.artifact, s.pathFor name, outcome, stubs⟩

end Store

end Tablature
