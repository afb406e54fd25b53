import Tablature.Command.Style
import Tablature.Generate

/-!
# Command/Report — what commands print

Each function gives the whole text of a report, line ends included; the first argument says whether
it is in colour.
-/

namespace Tablature.Command.Report

/-- A text in a style. -/
def paint (inColour : Bool) (style : Style) (text : String) : String := style.paint inColour text 0

/-- What became of a table, and the stubs that came with it. -/
def generated (inColour : Bool) (g : Generated) : String :=
  let verb := match g.outcome with
    | .created => "Created"
    | .replaced => "Replaced"
    | .kept => "Kept"
  paint inColour (.plain .green) "✓" ++ " " ++ verb ++ " "
    ++ paint inColour (.bold .cyan) g.artifact.table ++ " → " ++ g.path ++ "\n"
    ++ String.join (g.stubs.created.map fun path =>
      "  " ++ paint inColour (.plain .yellow) "+" ++ " stub " ++ path ++ "\n")

/-- What became of a document. -/
def batch (inColour : Bool) (tables : List Generated) (dir : String) : String :=
  String.join (tables.map (generated inColour))
    ++ paint inColour (.plain .green) "✓" ++ " "
    ++ paint inColour (.plain .cyan) (toString tables.length)
    ++ " table(s) written to " ++ dir ++ "\n"

/-- The statements of a table. -/
def statements (inColour : Bool) (t : Table) : String :=
  paint inColour (.bold .green) "Generated SQL:" ++ "\n"
    ++ String.join ((t.sql :: t.statements).map fun sql =>
      paint inColour (.plain .white) sql ++ "\n")

/-! ## Tokens -/

/-- The token that is explained. -/
def token (inColour : Bool) (text : String) : String :=
  paint inColour .dimmed "Token:" ++ " " ++ paint inColour (.plain .yellow) text ++ "\n\n"

/-- A line with a label. -/
def labelled (inColour : Bool) (label : String) (style : Style) (text : String) : String :=
  "  " ++ paint inColour .dimmed label ++ " " ++ paint inColour style text ++ "\n"

/-- The words for the flags that are set. -/
def flagWords (c : Constraints) : List String :=
  [(c.primaryKey, "primary key"), (c.autoIncrement, "autoincrement"), (c.unique, "unique"),
    (c.notNull, "not null"), (c.index, "index")].filterMap fun p => if p.1 then some p.2 else none

/-- What a field says. -/
def field (inColour : Bool) : Field → String
  | .indexOn column =>
    paint inColour (.bold .green) "Index directive" ++ "\n"
      ++ labelled inColour "Column:" (.plain .white) column ++ "\n"
      ++ "  " ++ paint inColour (.plain .white) (Table.indexSql "<table>" column) ++ "\n"
  | .column c =>
    let words := flagWords c.constraints
    paint inColour (.bold .green) "Column" ++ "\n"
      ++ labelled inColour "Name:" (.plain .white) c.name
      ++ labelled inColour "Type:" (.plain .cyan) c.storage.sql
      ++ (if words.isEmpty then ""
          else labelled inColour "Flags:" (.plain .yellow) (", ".intercalate words))
      ++ (match c.constraints.defaultExpr with
          | some e => labelled inColour "Default:" (.plain .yellow) e
          | none => "")
      ++ (match c.reference with
          | some r => labelled inColour "References:" (.plain .cyan) r.sql
          | none => "")
      ++ "\n" ++ paint inColour (.bold .green) "Column clause:" ++ "\n"
      ++ "  " ++ paint inColour (.plain .white) c.sql ++ "\n"

/-! ## Reference tables -/

/-- The flags: symbol, name, what they add to a statement. -/
def flagRows : List (String × String × String) :=
  [("!", "NotNull", "NOT NULL"), ("+", "Unique", "UNIQUE"),
    ("^", "Index", "CREATE INDEX idx_<table>_<col>"), ("#", "PrimaryKey", "PRIMARY KEY"),
    ("~", "AutoIncrement", "AUTOINCREMENT")]

/-- The attributes: keys, what they add to a statement. -/
def attributeRows : List (String × String) :=
  [("notnull | nn | !", "NOT NULL"), ("unique | u | +", "UNIQUE"),
    ("index | idx | ^", "CREATE INDEX idx_<table>_<col>"), ("pk | primary | #", "PRIMARY KEY"),
    ("ai | autoincrement | ~", "AUTOINCREMENT"),
    ("default=<expr> | def=<expr> | =<expr>", "DEFAULT <expr>"),
    ("ondelete=<action>", "ON DELETE <action>"), ("onupdate=<action>", "ON UPDATE <action>"),
    ("defer | deferrable", "DEFERRABLE INITIALLY DEFERRED")]

/-- The forms of a reference: token, what they add to a statement. -/
def referenceRows : List (String × String) :=
  [("col->table", "REFERENCES table(id)"), ("col>table(c)", "REFERENCES table(c)"),
    ("col:fk(table.c)", "INTEGER REFERENCES table(c)"), ("^col", "CREATE INDEX on col")]

/-- A title. -/
def title (inColour : Bool) (text : String) : String := paint inColour (.bold .cyan) text ++ "\n"

/-- A line across. -/
def rule (inColour : Bool) : String := paint inColour .dimmed ("".pushn '─' 48) ++ "\n"

/-- A row of two columns. -/
def row (inColour : Bool) (r : String × String) : String :=
  (Style.plain .cyan).paint inColour r.1 24 ++ " " ++ paint inColour (.plain .white) r.2 ++ "\n"

/-- All flags, attributes and forms of a reference. -/
def symbols (inColour : Bool) : String :=
  title inColour "Short flags"
    ++ (Style.bold .white).paint inColour "Symbol" 8 ++ " "
    ++ (Style.bold .white).paint inColour "Name" 15 ++ " "
    ++ paint inColour (.bold .white) "SQL" ++ "\n"
    ++ rule inColour
    ++ String.join (flagRows.map fun r =>
      (Style.bold .cyan).paint inColour r.1 8 ++ " "
        ++ (Style.plain .yellow).paint inColour r.2.1 15 ++ " "
        ++ paint inColour .dimmed r.2.2 ++ "\n")
    ++ "\n" ++ title inColour "Long attributes" ++ rule inColour
    ++ String.join (attributeRows.map (row inColour))
    ++ "\n" ++ title inColour "References" ++ rule inColour
    ++ String.join (referenceRows.map (row inColour))

/-- What the program is, for a command line that asks for nothing. -/
def intro (inColour : Bool) : String :=
  paint inColour (.bold .cyan) "glyph: symbolic table definitions" ++ "\n\n"
    ++ "Usage: glyph create table <NAME> [FIELDS]...\n\n" ++ "Try: glyph --help\n"

/-- The name and version of the program. -/
def version : String := "glyph 0.3.0\n"

end Tablature.Command.Report
