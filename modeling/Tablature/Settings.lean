import Tablature.FileTree.Lookup
import Tablature.Toml.Document

/-!
# Settings — what a project sets for all of its tables

Settings are a TOML text with the keys `out_dir`, `fk_index`, `on_delete` and `on_update`, all
optional; other keys do not matter. They are looked for in the working directory and then in the
user's configuration directory.
-/

namespace Tablature

/-- Settings. The actions are kept as they are spelled. -/
structure Settings where
  /-- Where artifacts are kept. -/
  outDir : String := "schemas"
  /-- Index the columns that are references. -/
  referenceIndex : Bool := true
  onDelete : Option String := none
  onUpdate : Option String := none
deriving DecidableEq, Repr

namespace Settings

/-- The action that the option or setting `what` names. -/
def actionOf (what : String) : Option String → Except Error (Option Action)
  | none => .ok none
  | some text =>
    match Action.ofText? text.toList with
    | some action => .ok (some action)
    | none => .error (.argument (.unknownAction what text))

/-- The action on deletes, where a reference names none. -/
def defaultOnDelete (s : Settings) : Except Error (Option Action) := actionOf "on_delete" s.onDelete

/-- The action on updates, where a reference names none. -/
def defaultOnUpdate (s : Settings) : Except Error (Option Action) := actionOf "on_update" s.onUpdate

/-- The text under a key; `none` if what is there is no string. -/
def text? (entries : List (String × Toml.Value)) (key : String) : Option (Option String) :=
  match entries.lookup key with
  | none => some none
  | some (.string s) => some (some s)
  | some _ => none

/-- The truth value under a key; `none` if what is there is none. -/
def boolean? (entries : List (String × Toml.Value)) (key : String) : Option (Option Bool) :=
  match entries.lookup key with
  | none => some none
  | some (.boolean b) => some (some b)
  | some _ => none

/-- The settings of a TOML document, if the known keys have values of their types. -/
def ofEntries? (entries : List (String × Toml.Value)) : Option Settings := do
  let defaults : Settings := {}
  return { outDir := (← text? entries "out_dir").getD defaults.outDir
           referenceIndex := (← boolean? entries "fk_index").getD defaults.referenceIndex
           onDelete := ← text? entries "on_delete"
           onUpdate := ← text? entries "on_update" }

/-- The settings of a text. Their actions are checked here, before they are used. -/
def parse (text : String) : Except Error Settings :=
  match (Toml.parse text).bind ofEntries? with
  | none => .error (.argument .badSettings)
  | some settings => do
    let _ ← settings.defaultOnDelete
    let _ ← settings.defaultOnUpdate
    return settings

/-- The settings of the file at a path. -/
def ofFile (path : String) (t : FileTree) : Except Error Settings :=
  match t.readText path with
  | .error fault => .error (.file path fault)
  | .ok text =>
    (parse text).mapError fun
      | .argument fault => .argument (.inFile path fault)
      | e => e

/-- The name of a project's settings file. -/
def fileName : String := "glyph.toml"

/-- The user's configuration directory: the one that is configured, if it starts at the root, and
otherwise `.config` in the home directory, wherever that starts. A home without a name is none. -/
def configDir (configured home : Option String) : Option String :=
  (configured.filter Path.startsAtRoot).or
    ((home.filter (!·.isEmpty)).map (Path.join · ".config"))

/-- The path of a user's settings file below the configuration directory. -/
def userPath (configDir : String) : String :=
  Path.join (Path.join configDir "glyph") "config.toml"

/-- The settings in force: those of the first file there is, or the defaults. -/
def load (configDir : Option String) (t : FileTree) : Except Error Settings :=
  match (fileName :: (configDir.map userPath).toList).find? t.isFile with
  | some path => ofFile path t
  | none => .ok {}

end Settings

end Tablature
