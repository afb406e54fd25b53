import Tablature.Toml.Value

/-!
# Toml/Document — whole documents

A document is a run of statements, a line each: an entry, the header of a table, or the header of
one more table in a list. Entries go to the table of the last header, which joins the document when
the next header or the end comes.
-/

namespace Tablature.Toml

/-- A statement. -/
inductive Statement where
  | entry (path : List String) (key : String) (value : Value)
  | header (path : List String) (key : String)
  | listHeader (path : List String) (key : String)

/-- A document while its statements are read. -/
structure Draft where
  root : Body
  /-- The table that entries go to. -/
  current : Body
  /-- The header of that table: its path, its key, and whether it is one of a list. -/
  heading : Option (List String × String × Bool)

namespace Draft

/-- The document before its first statement. -/
def start : Draft := ⟨⟨.header, []⟩, ⟨.header, []⟩, none⟩

/-- The document with the current table in its place. -/
def close (d : Draft) : Option Body :=
  match d.heading with
  | none => some d.current
  | some (path, key, isList) =>
    d.root.modify false (fun parent =>
      if isList then
        match parent.get? key with
        | none => some (parent.set key (.tables [d.current.entries]))
        | some (.tables bodies) =>
          some (parent.set key (.tables (bodies ++ [d.current.entries])))
        | some _ => none
      else
        match parent.get? key with
        | none => some (parent.set key d.current.toValue)
        | some _ => none) path

/-- The table that a header of a key opens in the table above it: a new one, or one that was only
implied so far. -/
def opened? (parent : Body) (key : String) : Option Body :=
  match parent.get? key with
  | none => some ⟨.header, []⟩
  | some (.table .implied entries) => some ⟨.header, entries⟩
  | some _ => none

/-- The table at the end of a path, empty if it is missing. -/
def bodyAt? : List String → Body → Option Body
  | [], b => some b
  | key :: path, b =>
    match b.get? key with
    | none => some ⟨.implied, []⟩
    | some (.table .inline _) => none
    | some (.table origin entries) => bodyAt? path ⟨origin, entries⟩
    | some (.tables bodies) => bodies.getLast?.bind fun last => bodyAt? path ⟨.header, last⟩
    | some _ => none

/-- The document without what is under a key of the table at a path. -/
def remove (path : List String) (key : String) (root : Body) : Option Body :=
  root.modify false
    (fun parent => some { parent with entries := parent.entries.filter (·.1 != key) }) path

/-- The document after one more statement. -/
def add (d : Draft) : Statement → Option Draft
  | .entry path key v => do
    let current ← d.current.insertKey path key v
    return { d with current := current }
  | .header path key => do
    let root ← d.close
    let body ← opened? (← bodyAt? path root) key
    return ⟨← remove path key root, body, some (path, key, false)⟩
  | .listHeader path key => do
    let root ← d.close
    let root ← root.modify false (fun parent =>
      match parent.get? key with
      | none => some parent
      | some (.tables _) => some parent
      | some _ => none) path
    return ⟨root, ⟨.header, []⟩, some (path, key, true)⟩

end Draft

/-- A statement up to the end of its line. -/
def readStatement (cs : List Char) : Option (Statement × List Char) :=
  match cs with
  | '[' :: '[' :: cs => do
    let (key, cs) ← readKey cs
    let cs ← after? ']' cs
    let cs ← after? ']' cs
    let rest ← afterStatement? cs
    return (.listHeader key.1 key.2, rest)
  | '[' :: cs => do
    let (key, cs) ← readKey cs
    let cs ← after? ']' cs
    let rest ← afterStatement? cs
    return (.header key.1 key.2, rest)
  | cs => do
    let ((key, v), cs) ← readKeyValue (readValue maxDepth) cs
    let rest ← afterStatement? cs
    return (.entry key.1 key.2 v, rest)

/-- The document of the statements of a text. The bound is one more than the length of the text. -/
def readStatements : Nat → Draft → List Char → Option Body
  | 0, _, _ => none
  | bound + 1, draft, cs =>
    match skipLines cs.length cs with
    | [] => draft.close
    | '#' :: cs => if (cs.dropWhile isPrintable).isEmpty then draft.close else none
    | cs => do
      let (statement, rest) ← readStatement cs
      let draft ← draft.add statement
      readStatements bound draft rest

/-- The entries of a document. A byte order mark in front does not count. -/
def parse (text : String) : Option (List (String × Value)) :=
  let cs := match text.toList with
    | '\uFEFF' :: cs => cs
    | cs => cs
  (readStatements (cs.length + 1) .start cs).map (·.entries)

end Tablature.Toml
