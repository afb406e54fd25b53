import Tablature.FileTree.Lookup

/-!
# FileTree/Change — new directories and files

Changes are actions on a tree that can fail; what was changed before a failure stays changed.

* `FileTree.makeDirs` — a directory and all that is missing above it;
* `FileTree.place` — a whole file at a path in one step, over what is there or only where nothing
  is.
-/

namespace Tablature

/-- An action on a file tree. -/
abbrev FileM (ε : Type) : Type → Type := EStateM ε FileTree

namespace FileTree

/-- The tree with a new directory. -/
def makeDir (t : FileTree) (p : Path) : Except FileFault FileTree :=
  match t.placeOf p with
  | .error fault => .error fault
  | .ok loc =>
    match t.get? loc with
    | some _ => .error .alreadyExists
    | none => .ok (t.set loc .dir)

/-- Makes a directory; one that is there already will do. -/
def makeDirOnce (p : Path) : FileM FileFault Unit := fun t =>
  match t.makeDir p with
  | .ok t' => .ok () t'
  | .error fault => if t.isDirPath p then .ok () t else .error fault t

/-- Makes a directory, after what is missing above it. -/
def makeDirBelow (above : FileM FileFault Unit) (p : Path) : FileM FileFault Unit := fun t =>
  match t.makeDir p with
  | .ok t' => .ok () t'
  | .error .notFound =>
    match above t with
    | .ok _ t' => makeDirOnce p t'
    | .error fault t' => .error fault t'
  | .error fault => if t.isDirPath p then .ok () t else .error fault t

/-- Makes the directory of some steps, the last one first, and all above it. -/
def makeSteps (absolute : Bool) : List String → FileM FileFault Unit
  | [] => pure ()
  | name :: above =>
    makeDirBelow (makeSteps absolute above) ⟨absolute, (name :: above).reverse, false⟩

/-- Makes the directory of a path text and all that is missing above it. The empty text is the
working directory, which is there. -/
def makeDirs (text : String) : FileM FileFault Unit := fun t =>
  if text.isEmpty then .ok () t
  else
    match Path.ofText text with
    | .error fault => .error fault t
    | .ok p => makeDirBelow (makeSteps p.absolute p.parentSteps.reverse) p t

/-- The fault of a path text that spells no path, for a file that is put there. Where it may replace
something, a NUL in the text is an invalid argument and not a fault of its own. -/
def placeFault (mayReplace : Bool) : FileFault → FileFault
  | .nulInPath => if mayReplace then .invalidArgument else .nulInPath
  | fault => fault

/-- Puts a file at a path in one step. It takes the place of a file or a link, if it may, and never
that of a directory. -/
def place (mayReplace : Bool) (text : String) (bytes : ByteArray) : FileM FileFault Unit := fun t =>
  match Path.ofText text with
  | .error fault => .error (placeFault mayReplace fault) t
  | .ok p =>
    match t.placeOf p with
    | .error fault => .error fault t
    | .ok loc =>
      match t.get? loc with
      | none => .ok () (t.set loc (.file bytes))
      | some .dir => .error (if mayReplace then .isDirectory else .alreadyExists) t
      | some _ =>
        if mayReplace then .ok () (t.set loc (.file bytes)) else .error .alreadyExists t

end FileTree

end Tablature
