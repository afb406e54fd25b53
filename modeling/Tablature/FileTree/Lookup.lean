import Tablature.FileTree.Basic

/-!
# FileTree/Lookup — where a path leads

A look-up goes from directory to directory, step by step, and follows the links it meets, at most
`maxLinks` of them. It ends at a directory or a file, or with the fault of the first step that
cannot be taken: a name that is too long, that is not there, or that lies below a file.

* `FileTree.resolve` — where a path text leads;
* `FileTree.placeOf` — the location a path names for a new entry: links are followed up to its last
  step and not there;
* `FileTree.readText`, `FileTree.exists`, `FileTree.isDir`, `FileTree.isFile` — what programs ask.
-/

namespace Tablature

namespace FileTree

/-- Where a look-up ends. -/
inductive Spot where
  | dir (loc : Location)
  | file (loc : Location) (bytes : ByteArray)

/-- The greatest length of a name, in bytes. -/
def maxNameBytes : Nat := 255

/-- How many links one look-up follows. -/
def maxLinks : Nat := 40

/-- The end of some steps from a directory; `follow` goes on from a link in a directory, with the
steps that are left. -/
def walk (t : FileTree) (follow : Location → String → List String → Except FileFault Spot) :
    Location → List String → Except FileFault Spot
  | loc, [] => .ok (.dir loc)
  | loc, name :: rest =>
    if name = "." then walk t follow loc rest
    else if name = ".." then walk t follow loc.dropLast rest
    else if name.utf8ByteSize > maxNameBytes then .error .nameTooLong
    else
      match t.get? (loc ++ [name]) with
      | none => .error .notFound
      | some .dir => walk t follow (loc ++ [name]) rest
      | some (.file bytes) =>
        if rest.isEmpty then .ok (.file (loc ++ [name]) bytes) else .error .notDirectory
      | some (.link target) => follow loc target rest

/-- The end of some steps from a directory, with at most so many links followed. -/
def walkLinks (t : FileTree) : Nat → Location → List String → Except FileFault Spot
  | 0 => walk t fun _ _ _ => .error .tooManyLinks
  | links + 1 => walk t fun loc target rest =>
    match Path.ofText target with
    | .error fault => .error fault
    | .ok p => walkLinks t links (if p.absolute then [] else loc) (p.lookupSteps ++ rest)

/-- The directory a path starts from. -/
def start (t : FileTree) (p : Path) : Location := if p.absolute then [] else t.here

/-- Where a path leads. -/
def resolvePath (t : FileTree) (p : Path) : Except FileFault Spot :=
  t.walkLinks maxLinks (t.start p) p.lookupSteps

/-- Where a path text leads. -/
def resolve (t : FileTree) (text : String) : Except FileFault Spot :=
  (Path.ofText text).bind t.resolvePath

/-- Does a path lead anywhere? -/
def exists? (t : FileTree) (text : String) : Bool :=
  match t.resolve text with
  | .ok _ => true
  | .error _ => false

/-- Does a path lead to a directory? -/
def isDirPath (t : FileTree) (p : Path) : Bool :=
  match t.resolvePath p with
  | .ok (.dir _) => true
  | _ => false

/-- Does a path text lead to a file? -/
def isFile (t : FileTree) (text : String) : Bool :=
  match t.resolve text with
  | .ok (.file _ _) => true
  | _ => false

/-- The text of the file that a path leads to. -/
def readText (t : FileTree) (text : String) : Except FileFault String :=
  match t.resolve text with
  | .error fault => .error fault
  | .ok (.dir _) => .error .isDirectory
  | .ok (.file _ bytes) =>
    match String.fromUTF8? bytes with
    | some content => .ok content
    | none => .error .notUtf8

/-- The location that a path names for a new entry. A path that ends in `.` or `..` names a
directory that is there already. -/
def placeOf (t : FileTree) (p : Path) : Except FileFault Location :=
  match t.walkLinks maxLinks (t.start p) p.steps.dropLast with
  | .error fault => .error fault
  | .ok (.file _ _) => .error .notDirectory
  | .ok (.dir loc) =>
    match p.steps.getLast? with
    | none => .error .alreadyExists
    | some name =>
      if name = "." ∨ name = ".." then .error .alreadyExists
      else if name.utf8ByteSize > maxNameBytes then .error .nameTooLong
      else .ok (loc ++ [name])

end FileTree

end Tablature
