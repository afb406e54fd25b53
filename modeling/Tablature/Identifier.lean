/-!
# Identifier — names of tables and columns

An identifier is an ASCII letter or `_`, then ASCII letters, digits and `_`.

* `isIdentifier` — the test on a whole text;
* `readIdentifier` — the longest identifier a text starts with, and what follows it.
-/

namespace Tablature

/-- A character an identifier may start with. -/
def isNameStart (c : Char) : Bool := c.isAlpha || c == '_'

/-- A character an identifier may go on with. -/
def isNameChar (c : Char) : Bool := c.isAlphanum || c == '_'

/-- Is the whole text an identifier? -/
def isIdentifier : List Char → Bool
  | [] => false
  | c :: cs => isNameStart c && cs.all isNameChar

/-- The longest identifier at the front, and the rest. -/
def readIdentifier : List Char → Option (List Char × List Char)
  | [] => none
  | c :: cs =>
    if isNameStart c then some (c :: cs.takeWhile isNameChar, cs.dropWhile isNameChar) else none

/-- Nothing is lost by reading an identifier. -/
theorem append_of_readIdentifier {cs name rest : List Char}
    (h : readIdentifier cs = some (name, rest)) : name ++ rest = cs := by
  cases cs with
  | nil => simp [readIdentifier] at h
  | cons c cs =>
    simp only [readIdentifier] at h
    split at h
    · cases h
      simp
    · simp at h

end Tablature
