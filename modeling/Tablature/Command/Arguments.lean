import Tablature.Store

/-!
# Command/Arguments — what a command line asks for

A command line is a run of levels: the program, a command, a command of that command. Each level
has switches, with or without a value, and words. `Grammar.scan` reads one level from left to right
and stops at the name of a command below it; `Invocation.ofArguments` reads all levels.

* a switch is `--long`, `--long=value`, `--long value`, or a letter after one dash, where letters
  can be put together;
* a value after a blank may not start with a dash, unless it is just a dash;
* after `--` everything is a word;
* a switch is given at most once on a level;
* a value or word that is not of its kind is refused where it stands.

Whatever is not read this way is a usage error; the version and help are shown as soon as they are
asked for. The command `help` takes the names that lead to a command.
-/

namespace Tablature.Command

/-- Why a command line is not carried out. -/
inductive Stop where
  | usage
  | version
  | help
deriving DecidableEq, Repr

/-- What a value or a word has to be. -/
inductive Kind where
  | text
  /-- A path, which may not be empty. -/
  | path
  /-- A number of 32 bits. -/
  | word32
deriving DecidableEq, Repr

/-- A number of 32 bits, with or without a sign. -/
def word32? (text : List Char) : Option UInt32 :=
  let (negative, digits) := match text with
    | '-' :: ds => (true, ds)
    | '+' :: ds => (false, ds)
    | ds => (false, ds)
  let value := digits.foldl (fun n d => 10 * n + (d.toNat - '0'.toNat)) 0
  if digits.isEmpty ∨ !digits.all Char.isDigit then none
  else if value < UInt32.size ∧ (!negative ∨ value = 0) then some (.ofNat value)
  else none

/-- Is a text of a kind? -/
def Kind.accepts : Kind → String → Bool
  | text, _ => true
  | path, s => !s.isEmpty
  | word32, s => (word32? s.toList).isSome

/-- A switch of a level. -/
structure Switch where
  name : String
  otherNames : List String := []
  letter : Option Char := none
  /-- What its value has to be, if it takes one. -/
  value : Option Kind := none
  /-- What the switch does as soon as it is met. -/
  stops : Option Stop := none
deriving DecidableEq, Repr

/-- What may stand on a level. -/
structure Grammar where
  switches : List Switch
  commands : List String := []
  /-- How many words there may be, if there is a limit. -/
  maxWords : Option Nat := some 0
  words : Kind := .text
deriving DecidableEq, Repr

/-- What stands on a level. -/
structure Given where
  flags : List String := []
  values : List (String × String) := []
  words : List String := []
  /-- The command below, and its arguments. -/
  below : Option (String × List String) := none
deriving DecidableEq, Repr

namespace Given

/-- Was a switch given? -/
def has (g : Given) (name : String) : Bool := g.flags.contains name || (g.values.lookup name).isSome

/-- The value of a switch. -/
def value? (g : Given) (name : String) : Option String := g.values.lookup name

/-- One more word, if there may be one and it is of the kind. -/
def addWord (grammar : Grammar) (g : Given) (word : String) : Except Stop Given :=
  if grammar.maxWords.all (g.words.length < ·) && grammar.words.accepts word then
    .ok { g with words := g.words ++ [word] }
  else .error .usage

/-- One more switch without value. -/
def addFlag (g : Given) (s : Switch) : Except Stop Given :=
  match s.stops with
  | some stop => .error stop
  | none => if g.has s.name then .error .usage else .ok { g with flags := s.name :: g.flags }

/-- One more switch with its value, if the value is of the kind. -/
def addValue (g : Given) (s : Switch) (value : String) : Except Stop Given :=
  if !g.has s.name && s.value.any (·.accepts value) then
    .ok { g with values := (s.name, value) :: g.values }
  else .error .usage

end Given

namespace Grammar

/-- The switch of a long name. -/
def byName? (grammar : Grammar) (name : String) : Option Switch :=
  grammar.switches.find? fun s => s.name == name || s.otherNames.contains name

/-- The switch of a letter. -/
def byLetter? (grammar : Grammar) (letter : Char) : Option Switch :=
  grammar.switches.find? (·.letter == some letter)

/-- A level with the switches of some letters. -/
def scanLetters (grammar : Grammar) (g : Given) : List Char → Except Stop Given
  | [] => .ok g
  | letter :: letters =>
    match grammar.byLetter? letter with
    | none => .error .usage
    | some s => do
      let g ← g.addFlag s
      grammar.scanLetters g letters

/-- The texts around the first equals sign. -/
def cutEquals : List Char → List Char × Option (List Char)
  | [] => ([], none)
  | c :: cs =>
    if c = '=' then ([], some cs)
    else
      let p := cutEquals cs
      (c :: p.1, p.2)

/-- Where a scan stands: at any argument, before the value of a switch, or after `--`. -/
inductive Mode where
  | anything
  | valueOf (s : Switch)
  | words
deriving DecidableEq, Repr

/-- Reads the arguments of a level. -/
def scan (grammar : Grammar) : Mode → Given → List String → Except Stop Given
  | .valueOf _, _, [] => .error .usage
  | _, g, [] => .ok g
  | mode, g, argument :: rest =>
    match mode with
    | .words => do
      let g ← g.addWord grammar argument
      grammar.scan .words g rest
    | .valueOf s =>
      match argument.toList with
      | '-' :: _ :: _ => .error .usage
      | _ => do
        let g ← g.addValue s argument
        grammar.scan .anything g rest
    | .anything =>
      if grammar.commands.contains argument then .ok { g with below := some (argument, rest) }
      else
        match argument.toList with
        | '-' :: '-' :: [] => grammar.scan .words g rest
        | '-' :: '-' :: long =>
          let (name, value) := cutEquals long
          match grammar.byName? (String.ofList name), value with
          | none, _ => .error .usage
          | some s, none =>
            if s.value.isSome then grammar.scan (.valueOf s) g rest
            else do
              let g ← g.addFlag s
              grammar.scan .anything g rest
          | some s, some value => do
            let g ← g.addValue s (String.ofList value)
            grammar.scan .anything g rest
        | '-' :: c :: letters => do
          let g ← grammar.scanLetters g (c :: letters)
          grammar.scan .anything g rest
        | _ => do
          let g ← g.addWord grammar argument
          grammar.scan .anything g rest

/-- Reads a level from its start. -/
def read (grammar : Grammar) (arguments : List String) : Except Stop Given :=
  grammar.scan .anything {} arguments

end Grammar

/-! ## The levels -/

/-- More is logged. It may be given on every level. -/
def verbose : Switch := { name := "verbose", letter := some 'v' }

/-- Help on a level. -/
def help : Switch := { name := "help", letter := some 'h', stops := some .help }

/-- The program itself. -/
def program : Grammar where
  switches :=
    [{ name := "print-json-schema" }, verbose,
      { name := "version", letter := some 'V', stops := some .version }, help]
  commands := ["create", "from-json", "explain", "symbols", "help"]

/-- The command that creates something. -/
def create : Grammar where
  switches := [verbose, help]
  commands := ["table", "help"]

/-- A name and field tokens, for one table. -/
def createTable : Grammar where
  switches :=
    [verbose, help, { name := "dir", value := some .path }, { name := "stamps" },
      { name := "onDelete", otherNames := ["on-delete"], value := some .text },
      { name := "onUpdate", otherNames := ["on-update"], value := some .text },
      { name := "force", letter := some 'f' }, { name := "no-fk-index" }, { name := "dry-run" },
      { name := "schema-version", value := some .word32 }]
  maxWords := none

/-- The path of a document, for all of its tables. -/
def fromJson : Grammar where
  switches :=
    [verbose, help, { name := "dir", value := some .path },
      { name := "force", letter := some 'f' }, { name := "no-fk-index" }]
  maxWords := some 1
  words := .path

/-- One field token to explain. -/
def explain : Grammar where
  switches := [verbose, help]
  maxWords := some 1

/-- The reference of flags and attributes. -/
def symbols : Grammar where
  switches := [verbose, help]

/-- The commands below a command. -/
def commandsOf (name : String) : List String := if name = "create" then create.commands else []

/-- What `help` comes to, given the names that lead from some commands to another. -/
def helpOn (commands : List String) : List String → Stop
  | [] => .help
  | name :: names => if commands.contains name then helpOn (commandsOf name) names else .usage

/-! ## What is asked for -/

/-- A table to create. -/
structure CreateRequest where
  name : String
  tokens : List String
  dir : Option String
  stamps : Bool
  onDelete : Option String
  onUpdate : Option String
  force : Bool
  noReferenceIndex : Bool
  dryRun : Bool
  version : Option UInt32
deriving DecidableEq, Repr

/-- A document to carry out. -/
structure BatchRequest where
  path : String
  dir : Option String
  force : Bool
  noReferenceIndex : Bool
deriving DecidableEq, Repr

/-- What a command line asks for. -/
inductive Invocation where
  | intro
  | schema
  | create (request : CreateRequest)
  | batch (request : BatchRequest)
  | explain (token : String)
  | symbols
deriving DecidableEq, Repr

namespace Invocation

/-- What `create table` asks for. -/
def ofCreateTable (arguments : List String) : Except Stop Invocation := do
  let g ← createTable.read arguments
  match g.words with
  | [] => throw .usage
  | name :: tokens =>
    return .create
      { name := name
        tokens := tokens
        dir := g.value? "dir"
        stamps := g.has "stamps"
        onDelete := g.value? "onDelete"
        onUpdate := g.value? "onUpdate"
        force := g.has "force"
        noReferenceIndex := g.has "no-fk-index"
        dryRun := g.has "dry-run"
        version := (g.value? "schema-version").bind (word32? ·.toList) }

/-- What `create` asks for. -/
def ofCreate (arguments : List String) : Except Stop Invocation := do
  match (← Command.create.read arguments).below with
  | some ("table", rest) => ofCreateTable rest
  | some (_, rest) => throw (helpOn Command.create.commands rest)
  | none => throw .usage

/-- What `from-json` asks for. -/
def ofFromJson (arguments : List String) : Except Stop Invocation := do
  let g ← fromJson.read arguments
  match g.words with
  | [path] => return .batch ⟨path, g.value? "dir", g.has "force", g.has "no-fk-index"⟩
  | _ => throw .usage

/-- What `explain` asks for. -/
def ofExplain (arguments : List String) : Except Stop Invocation := do
  match (← Command.explain.read arguments).words with
  | [token] => return .explain token
  | _ => throw .usage

/-- What a command and its arguments ask for. -/
def ofCommand (name : String) (arguments : List String) : Except Stop Invocation :=
  match name with
  | "create" => ofCreate arguments
  | "from-json" => ofFromJson arguments
  | "explain" => ofExplain arguments
  | "symbols" => (Command.symbols.read arguments).map fun _ => .symbols
  | _ => .error (helpOn program.commands arguments)

/-- What a command line asks for. The schema goes before any command, which still has to be well
formed. -/
def ofArguments (arguments : List String) : Except Stop Invocation := do
  let g ← program.read arguments
  let invocation ← match g.below with
    | none => .ok intro
    | some (name, rest) => ofCommand name rest
  return if g.has "print-json-schema" then schema else invocation

end Invocation

end Tablature.Command
