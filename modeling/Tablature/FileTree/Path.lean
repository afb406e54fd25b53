import Tablature.Error

/-!
# FileTree/Path — path texts and their steps

A path is a list of steps between slashes, from the root or from the working directory; `.` and
`..` are steps like any other. A slash at the end asks for a directory.

* `Path.ofText` — the path a text spells;
* `Path.join` — the text of a name below a directory;
* `Path.parentSteps` — the steps to the directory above.
-/

namespace Tablature

/-- A path. -/
structure Path where
  /-- Does it start at the root? -/
  absolute : Bool
  steps : List String
  /-- Does it end in a slash? -/
  slash : Bool
deriving DecidableEq, Repr

namespace Path

/-- The texts between slashes. -/
def cutSlashes : List Char → List (List Char)
  | [] => [[]]
  | c :: cs =>
    if c = '/' then [] :: cutSlashes cs
    else
      match cutSlashes cs with
      | [] => [[c]]
      | part :: parts => (c :: part) :: parts

/-- The greatest length of a path's text, in bytes. -/
def maxTextBytes : Nat := 4095

/-- Does the path of a text start at the root? -/
def startsAtRoot (text : String) : Bool := text.toList.head? == some '/'

/-- The path a text spells. The empty text leads nowhere. -/
def ofText (text : String) : Except FileFault Path :=
  let cs := text.toList
  if cs.contains '\x00' then .error .nulInPath
  else if text.isEmpty then .error .notFound
  else if text.utf8ByteSize > maxTextBytes then .error .nameTooLong
  else .ok
    { absolute := startsAtRoot text
      steps := (cutSlashes cs).filterMap fun part =>
        if part.isEmpty then none else some (String.ofList part)
      slash := cs.getLast? == some '/' }

/-- The steps of a look-up: a slash at the end is one more step, to the directory itself. -/
def lookupSteps (p : Path) : List String := if p.slash then p.steps ++ ["."] else p.steps

/-- The steps without those that stay in place; a relative path keeps a `.` it starts with. -/
def normalSteps (p : Path) : List String :=
  match p.absolute, p.steps with
  | false, "." :: steps => "." :: steps.filter (· != ".")
  | _, steps => steps.filter (· != ".")

/-- The steps to the directory above. -/
def parentSteps (p : Path) : List String := p.normalSteps.dropLast

/-- The text of a name below a directory. A name that starts at the root stands alone. -/
def join (dir name : String) : String :=
  if startsAtRoot name then name
  else if dir.isEmpty || dir.toList.getLast? == some '/' then dir ++ name
  else dir ++ "/" ++ name

end Path

end Tablature
