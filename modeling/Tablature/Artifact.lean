/-!
# Artifact — the compiled form of a table

An artifact is what is kept of a table: the statement that creates it and the statements that go
with it. How it is written to a file and read back is in `Artifact/Encoding`.
-/

namespace Tablature

/-- A compiled table. -/
structure Artifact where
  table : String
  version : UInt32
  createSql : String
  extraSql : List String
deriving DecidableEq, Repr

end Tablature
