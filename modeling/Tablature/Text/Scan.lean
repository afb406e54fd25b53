/-!
# Text/Scan — commas outside quotes and parentheses

A text is scanned from left to right; the state of the scan is the quote it stands in, if any, and
the number of parentheses open around it.

* `Scan.step` — how one character moves the state;
* `Scan.pieces` — the text cut at every comma that is met at the top, the first piece apart from
  the others: a text always has at least one;
* `split` — the same as one list.

A quote shields everything up to the same quote, the other kind of quote included; a closing
parenthesis with nothing to close is no error.
-/

namespace Tablature.Text

/-- Where a scan stands: inside which quote, and under how many parentheses. -/
structure Scan where
  /-- The quote that closes the quotation the scan stands in. -/
  quote : Option Char
  /-- Parentheses that are open. -/
  depth : Nat
deriving DecidableEq, Repr

namespace Scan

/-- Outside all quotes and parentheses, as every scan starts. -/
def top : Scan := ⟨none, 0⟩

/-- The state after one more character. -/
def step (s : Scan) (c : Char) : Scan :=
  match s.quote with
  | some q => if c = q then { s with quote := none } else s
  | none =>
    if c = '\'' ∨ c = '"' then { s with quote := some c }
    else if c = '(' then { s with depth := s.depth + 1 }
    else if c = ')' then { s with depth := s.depth - 1 }
    else s

/-- The state after a whole text. -/
def run (s : Scan) (cs : List Char) : Scan := cs.foldl step s

/-- A comma met at the top divides two pieces. -/
def cuts (s : Scan) (c : Char) : Bool := s == top && c == ','

/-- The pieces of a text scanned from a given state: the first, and those after each cut. -/
def pieces : Scan → List Char → List Char × List (List Char)
  | _, [] => ([], [])
  | s, c :: cs =>
    let next := pieces (s.step c) cs
    if s.cuts c then ([], next.1 :: next.2) else (c :: next.1, next.2)

@[simp] theorem run_nil (s : Scan) : s.run [] = s := rfl

@[simp] theorem run_cons (s : Scan) (c : Char) (cs : List Char) :
    s.run (c :: cs) = (s.step c).run cs := rfl

theorem run_append (s : Scan) (a b : List Char) : s.run (a ++ b) = (s.run a).run b := by
  simp [run]

end Scan

/-- The pieces of a text between its commas at the top. -/
def split (cs : List Char) : List (List Char) :=
  let p := Scan.top.pieces cs
  p.1 :: p.2

end Tablature.Text
