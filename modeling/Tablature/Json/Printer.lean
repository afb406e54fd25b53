import Tablature.Json.Value

/-!
# Json/Printer — JSON values as text

* `Value.compact` — without any blanks;
* `Value.pretty` — an item or member a line, two spaces deeper than its container; an empty
  container stays on its line.
-/

namespace Tablature.Json.Value

/-- The literal of a string. -/
def literal (s : String) : String := String.ofList (quote s.toList)

/-- The text of a value that is no container. -/
def scalarText : Value → String
  | null => "null"
  | bool true => "true"
  | bool false => "false"
  | number n => n.render
  | string s => literal s
  | array _ => ""
  | object _ => ""

mutual

/-- The text of a value, without blanks. -/
def compact : Value → String
  | array items => "[" ++ compactItems items ++ "]"
  | object members => "\x7b" ++ compactMembers members ++ "\x7d"
  | v => v.scalarText

/-- The texts of items, with commas between them. -/
def compactItems : List Value → String
  | [] => ""
  | [v] => compact v
  | v :: vs => compact v ++ "," ++ compactItems vs

/-- The texts of members, with commas between them. -/
def compactMembers : List (String × Value) → String
  | [] => ""
  | [(name, v)] => literal name ++ ":" ++ compact v
  | (name, v) :: ms => literal name ++ ":" ++ compact v ++ "," ++ compactMembers ms

end

/-- The start of a line at a depth. -/
def newLine (depth : Nat) : String := "\n".pushn ' ' (2 * depth)

mutual

/-- The text of a value at a depth, a line for each item and member. -/
def prettyAt (depth : Nat) : Value → String
  | array [] => "[]"
  | array (v :: vs) => "[" ++ prettyItems (depth + 1) (v :: vs) ++ newLine depth ++ "]"
  | object [] => "\x7b\x7d"
  | object (m :: ms) => "\x7b" ++ prettyMembers (depth + 1) (m :: ms) ++ newLine depth ++ "\x7d"
  | v => v.scalarText

/-- The lines of items. -/
def prettyItems (depth : Nat) : List Value → String
  | [] => ""
  | [v] => newLine depth ++ prettyAt depth v
  | v :: vs => newLine depth ++ prettyAt depth v ++ "," ++ prettyItems depth vs

/-- The lines of members. -/
def prettyMembers (depth : Nat) : List (String × Value) → String
  | [] => ""
  | [(name, v)] => newLine depth ++ literal name ++ ": " ++ prettyAt depth v
  | (name, v) :: ms =>
    newLine depth ++ literal name ++ ": " ++ prettyAt depth v ++ "," ++ prettyMembers depth ms

end

/-- The text of a value, a line for each item and member. -/
def pretty (v : Value) : String := v.prettyAt 0

end Tablature.Json.Value
