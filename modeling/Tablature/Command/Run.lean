import Tablature.Batch.Run
import Tablature.Batch.Schema
import Tablature.Command.Arguments
import Tablature.Command.Report
import Tablature.Settings

/-!
# Command/Run — carrying out a command line

`Command.run` is the whole program: from the environment, the arguments and a file tree to what is
printed, the exit code and the tree afterwards. Settings are read by the commands that write, before
anything else.
-/

namespace Tablature.Command

/-- What a command takes from its environment. -/
structure Environment where
  /-- The variable that asks for overwriting. -/
  force : Option String := none
  inColour : Bool := false
  /-- The user's configuration directory. -/
  configDir : Option String := none
deriving DecidableEq, Repr

/-- An error, and what was being done. -/
structure Failure where
  context : Option String := none
  error : Error
deriving DecidableEq, Repr

/-- What a command answers. -/
structure Response where
  exit : Nat
  stdout : String
  failure : Option Failure
deriving DecidableEq, Repr

namespace Failure

/-- The message of a failure: what was being done, the error, and its cause in the file system
once more. -/
def message (f : Failure) : String :=
  (match f.context with | some c => c ++ ": " | none => "")
    ++ f.error.message
    ++ (match f.error with | .file _ fault => ": " ++ fault.message | _ => "")

/-- The line that reports a failure. -/
def line (inColour : Bool) (f : Failure) : String :=
  Report.paint inColour (.bold .red) "Error:" ++ " " ++ f.message

end Failure

/-- An answer without failure. -/
def Response.ok (stdout : String) : Response := ⟨0, stdout, none⟩

/-- An answer with a failure, after what was printed before it. -/
def Response.failed (stdout : String) (failure : Failure) : Response := ⟨1, stdout, some failure⟩

/-- The options for a table: the command line goes before the settings. -/
def createOptions (request : CreateRequest) (settings : Settings) : Except Error Options := do
  let onDelete ← Settings.actionOf "--onDelete" request.onDelete
  let onDeleteDefault ← settings.defaultOnDelete
  let onUpdate ← Settings.actionOf "--onUpdate" request.onUpdate
  let onUpdateDefault ← settings.defaultOnUpdate
  return { version := request.version.getD 1
           stamps := request.stamps
           onDelete := onDelete.or onDeleteDefault
           onUpdate := onUpdate.or onUpdateDefault
           referenceIndex := settings.referenceIndex && !request.noReferenceIndex }

/-- Lifts a result to an action on the tree. -/
def lift {α : Type} : Except Error α → FileM Failure α
  | .ok a => pure a
  | .error e => throw { error := e }

/-- An action on the tree whose errors are failures. -/
def reporting {α : Type} (action : FileM Error α) : FileM Failure α := fun t =>
  match action t with
  | .ok a t' => .ok a t'
  | .error e t' => .error { error := e } t'

/-- Creates a table, or only shows its statements. -/
def runCreate (env : Environment) (request : CreateRequest) : FileM Failure String := do
  let settings ← lift (Settings.load env.configDir (← get))
  let opts ← lift (createOptions request settings)
  if request.dryRun then
    let table ← lift (Table.build request.name request.tokens opts)
    return Report.statements env.inColour table
  else
    let store : Store := ⟨request.dir.getD settings.outDir⟩
    let force := (Force.ofEnv env.force).withFlag request.force
    let g ← reporting (store.generate request.name request.tokens opts force [])
    return Report.generated env.inColour g

/-- The options for all tables of a document. -/
def batchOptions (request : BatchRequest) (settings : Settings) : Except Error Options := do
  let onDelete ← settings.defaultOnDelete
  let onUpdate ← settings.defaultOnUpdate
  return { onDelete := onDelete
           onUpdate := onUpdate
           referenceIndex := settings.referenceIndex && !request.noReferenceIndex }

/-- Carries out a document. -/
def runBatch (env : Environment) (request : BatchRequest) : FileM Failure String := do
  let settings ← lift (Settings.load env.configDir (← get))
  let document ← match Batch.Document.ofFile request.path (← get) with
    | .ok d => pure d
    | .error e => throw { context := some ("loading " ++ request.path), error := e }
  let store : Store := ⟨(request.dir.or document.outDir).getD settings.outDir⟩
  let base ← lift (batchOptions request settings)
  let force := (Force.ofEnv env.force).withFlag request.force
  let tables ← reporting (document.run store base force)
  return Report.batch env.inColour tables store.dir

/-- Explains a token. -/
def runExplain (env : Environment) (token : String) : Response :=
  let start := Report.token env.inColour token
  match Field.ofToken token with
  | .ok field => .ok (start ++ Report.field env.inColour field)
  | .error e => .failed start { error := e }

/-- The answer of an action on the tree. -/
def respond (action : FileM Failure String) (t : FileTree) : Response × FileTree :=
  match action t with
  | .ok stdout t' => (.ok stdout, t')
  | .error failure t' => (.failed "" failure, t')

/-- Carries out what is asked for. -/
def invoke (env : Environment) (invocation : Invocation) (t : FileTree) : Response × FileTree :=
  match invocation with
  | .intro => (.ok (Report.intro env.inColour), t)
  | .schema => (.ok (Batch.Schema.document.pretty ++ "\n"), t)
  | .create request => respond (runCreate env request) t
  | .batch request => respond (runBatch env request) t
  | .explain token => (runExplain env token, t)
  | .symbols => (.ok (Report.symbols env.inColour), t)

/-- Carries out a command line. -/
def run (env : Environment) (arguments : List String) (t : FileTree) : Response × FileTree :=
  match Invocation.ofArguments arguments with
  | .ok invocation => invoke env invocation t
  | .error .usage => (⟨2, "", none⟩, t)
  | .error .version => (.ok Report.version, t)
  | .error .help => (.ok (Report.intro env.inColour), t)

end Tablature.Command
