import Tablature.Artifact.Encoding
import Tablature.FileTree.Change

/-!
# Store — artifacts in a directory, and when one may be overwritten

The artifact of a table is the file `<table>.json` of the store's directory. A write has two steps:
`Store.present` asks whether the path leads anywhere, and `Store.commit` puts the whole file in
place at once. Under `refuse` and `keep` a commit gives way to anything that is there by then, a
link that leads nowhere included.

Tables that are asked for are refused or, if forced, replaced; stubs are kept as they are.
-/

namespace Tablature

/-- What a write does about an artifact that is there. -/
inductive Policy where
  | refuse
  | replace
  | keep
deriving DecidableEq, Repr

/-- What a write did. -/
inductive Outcome where
  | created
  | replaced
  | kept
deriving DecidableEq, Repr

/-- The wish to overwrite, from the command line and from the environment. -/
structure Force where
  flag : Bool := false
  env : Bool := false
deriving DecidableEq, Repr

namespace Force

/-- Does the value of an environment variable say yes? -/
def truthy (value : Option String) : Bool :=
  match value with
  | none => false
  | some v =>
    ["1".toList, "true".toList, "yes".toList, "on".toList].contains
      (Text.lower (Text.trim v.toList))

/-- The wish that the environment expresses. -/
def ofEnv (value : Option String) : Force where
  flag := false
  env := truthy value

/-- The wish with the command line's flag. -/
def withFlag (f : Force) (flag : Bool) : Force := { f with flag := f.flag || flag }

/-- Is overwriting asked for? -/
def isSet (f : Force) : Bool := f.flag || f.env

end Force

namespace Policy

/-- The policy for a table that is asked for. -/
def primary (force : Force) : Policy := if force.isSet then replace else refuse

/-- The policy for stubs, forced or not. -/
def stub : Policy := keep

end Policy

/-- A directory of artifacts. -/
structure Store where
  dir : String
deriving DecidableEq, Repr

namespace Store

/-- The path of a table's artifact. -/
def pathFor (s : Store) (table : String) : String := Path.join s.dir (table ++ ".json")

/-- Does the path of a table's artifact lead anywhere? -/
def present (s : Store) (table : String) (t : FileTree) : Bool := t.exists? (s.pathFor table)

/-- Puts a file of the store in place. -/
def put (s : Store) (a : Artifact) (mayReplace : Bool) : FileM FileFault Unit :=
  FileTree.place mayReplace (s.pathFor a.table) a.encode.toUTF8

/-- Makes the store's directory. -/
def makeDir (s : Store) : FileM Error Unit := fun t =>
  match FileTree.makeDirs s.dir t with
  | .ok _ t' => .ok () t'
  | .error fault t' => .error (.file s.dir fault) t'

/-- The outcome of finding that the path of an artifact is taken. -/
def taken (s : Store) (a : Artifact) (policy : Policy) : Except Error Outcome :=
  if policy = .keep then .ok .kept else .error (.collision a.table (s.pathFor a.table))

/-- The second step of a write: the directory, then the file in one step. What is there by then is
replaced only under `replace`; `present` says what the first step saw. -/
def commit (s : Store) (a : Artifact) (policy : Policy) (present : Bool) : FileM Error Outcome :=
  fun t =>
    match s.makeDir t with
    | .error e t' => .error e t'
    | .ok _ t' =>
      match s.put a (policy = .replace) t' with
      | .ok _ t'' => .ok (if policy = .replace ∧ present then .replaced else .created) t''
      | .error fault t'' =>
        if policy ≠ .replace ∧ fault = .alreadyExists then
          match s.taken a policy with
          | .ok outcome => .ok outcome t''
          | .error e => .error e t''
        else .error (.file (s.pathFor a.table) fault) t''

/-- Writes an artifact under a policy. -/
def write (s : Store) (a : Artifact) (policy : Policy) : FileM Error Outcome := fun t =>
  if s.present a.table t ∧ policy ≠ .replace then
    match s.taken a policy with
    | .ok outcome => .ok outcome t
    | .error e => .error e t
  else s.commit a policy (s.present a.table t) t

/-- The artifact of a table. -/
def read (s : Store) (table : String) (t : FileTree) : Except Error Artifact :=
  match t.readText (s.pathFor table) with
  | .error fault => .error (.file (s.pathFor table) fault)
  | .ok text =>
    match Artifact.decode? text with
    | some a => .ok a
    | none => .error (.file (s.pathFor table) .invalidData)

end Store

end Tablature
