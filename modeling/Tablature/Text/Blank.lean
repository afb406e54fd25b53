/-!
# Text/Blank — which characters are blank, and texts without them at their ends

* `isBlank` — the characters of the Unicode property `White_Space`, as a table of ranges;
* `trim` — a text less the blanks at both ends;
* `lower`, `upper` — letter case of ASCII letters; every other character stays as it is.

Texts are lists of characters here; `strip` is `trim` on a string.
-/

namespace Tablature.Text

/-- The ranges of `White_Space`, in increasing order, both ends included. -/
def blankRanges : List (Nat × Nat) :=
  [(0x09, 0x0D), (0x20, 0x20), (0x85, 0x85), (0xA0, 0xA0), (0x1680, 0x1680), (0x2000, 0x200A),
    (0x2028, 0x2029), (0x202F, 0x202F), (0x205F, 0x205F), (0x3000, 0x3000)]

/-- A blank character. -/
def isBlank (c : Char) : Bool :=
  blankRanges.any fun r => r.1 ≤ c.toNat && c.toNat ≤ r.2

/-- A text less its leading blanks. -/
def trimStart (cs : List Char) : List Char := cs.dropWhile isBlank

/-- A text less its trailing blanks. -/
def trimEnd (cs : List Char) : List Char := (trimStart cs.reverse).reverse

/-- A text less the blanks at both ends. -/
def trim (cs : List Char) : List Char := trimEnd (trimStart cs)

/-- A string less the blanks at both ends. -/
def strip (s : String) : String := String.ofList (trim s.toList)

/-- A text with its ASCII letters in lower case. -/
def lower (cs : List Char) : List Char := cs.map Char.toLower

/-- A text with its ASCII letters in upper case. -/
def upper (cs : List Char) : List Char := cs.map Char.toUpper

@[simp] theorem trim_nil : trim [] = [] := rfl

@[simp] theorem toList_strip (s : String) : (strip s).toList = trim s.toList := by simp [strip]

@[simp] theorem length_lower (cs : List Char) : (lower cs).length = cs.length := by simp [lower]

@[simp] theorem length_upper (cs : List Char) : (upper cs).length = cs.length := by simp [upper]

end Tablature.Text
