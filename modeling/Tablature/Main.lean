import Tablature.Command.Run

/-!
# Main — the program on the files there are

The command is carried out on a tree of what is known of the files: the settings and the document
it reads. `settle` looks at each location where it would put something new; if something is there,
that becomes known and the command starts over. Then the differences are made on disk.
-/

namespace Tablature.Command

/-- The text of a location. -/
def locationText (loc : Location) : String := "/" ++ "/".intercalate loc

/-- What is on disk at a location, links followed. -/
def probe (loc : Location) : IO (Option Node) := do
  try
    return some (.file (← IO.FS.readBinFile (locationText loc)))
  catch
    | .noFileOrDirectory .. => return none
    | _ => return some .dir

/-- A tree that knows the locations from a directory down to the end of some steps. -/
def look (t : FileTree) : Location → List String → IO FileTree
  | _, [] => return t
  | loc, "." :: steps => look t loc steps
  | loc, ".." :: steps => look t loc.dropLast steps
  | loc, name :: steps => do
    match ← probe (loc ++ [name]) with
    | some .dir => look (t.set (loc ++ [name]) .dir) (loc ++ [name]) steps
    | some node => return t.set (loc ++ [name]) node
    | none => return t

/-- A tree that knows where a path leads. -/
def lookAt (t : FileTree) (path : String) : IO FileTree :=
  match Path.ofText path with
  | .ok p => look t (t.start p) p.steps
  | .error _ => return t

/-- What a tree has and another has not. -/
def differences (before after : FileTree) : List (Location × Node) :=
  after.nodes.filter fun (loc, node) => before.get? loc ≠ some node

/-- Carries out a command on a tree that knows all that matters to it. -/
partial def settle (env : Environment) (arguments : List String) (t : FileTree) :
    IO (Response × FileTree × FileTree) := do
  let (response, after) := run env arguments t
  let found ← (differences t after).filterMapM fun (loc, _) => do
    if (t.get? loc).isSome then return none
    return (← probe loc).map (loc, ·)
  if found.isEmpty then return (response, t, after)
  settle env arguments (found.foldr (fun (loc, node) t => t.set loc node) t)

/-- Makes a difference on disk. A file that was there is replaced in one step. -/
def apply (before : FileTree) (loc : Location) : Node → IO Unit
  | .dir => IO.FS.createDir (locationText loc)
  | .file bytes => do
    if (before.get? loc).isSome then
      let staged := locationText loc ++ ".new"
      IO.FS.writeBinFile staged bytes
      IO.FS.rename staged (locationText loc)
    else
      let handle ← IO.FS.Handle.mk (locationText loc) .writeNew
      handle.write bytes
  | .link _ => return

/-- The paths that a command reads. -/
def readPaths (env : Environment) (arguments : List String) : List String :=
  let document := match Invocation.ofArguments arguments with
    | .ok (.batch request) => [request.path]
    | _ => []
  Settings.fileName :: (env.configDir.map Settings.userPath).toList ++ document

/-- What the environment of the process says. -/
def environment : IO Environment := do
  return { force := ← IO.getEnv "GLYPH_FORCE"
           inColour :=
             Style.inColour (← IO.getEnv "CLICOLOR_FORCE") (← IO.getEnv "NO_COLOR")
               (← IO.getEnv "CLICOLOR") (← (← IO.getStdout).isTty)
           configDir :=
             Settings.configDir (← IO.getEnv "XDG_CONFIG_HOME") (← IO.getEnv "HOME") }

end Tablature.Command

open Tablature Command in
def main (arguments : List String) : IO UInt32 := do
  let env ← environment
  let here ← IO.FS.realPath "."
  let start ← lookAt .empty here.toString
  let known ← (readPaths env arguments).foldlM lookAt
    (start.goTo ((here.toString.splitOn "/").filter (· ≠ "")))
  let (response, before, after) ← settle env arguments known
  for (loc, node) in (differences before after).reverse do
    apply before loc node
  IO.print response.stdout
  if let some failure := response.failure then
    IO.eprintln (failure.line env.inColour)
  return response.exit.toUInt32
