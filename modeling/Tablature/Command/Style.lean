/-!
# Command/Style — colours on a terminal

A style is switched on before a text and reset after it. A reset inside the text switches the style
on again, and padding belongs to the text.
-/

namespace Tablature.Command

/-- A colour. -/
inductive Colour where
  | red
  | green
  | yellow
  | cyan
  | white
deriving DecidableEq, Repr

/-- The code of a colour. -/
def Colour.code : Colour → String
  | red => "31"
  | green => "32"
  | yellow => "33"
  | cyan => "36"
  | white => "37"

/-- How a text is shown. -/
inductive Style where
  | plain (colour : Colour)
  | bold (colour : Colour)
  | dimmed
deriving DecidableEq, Repr

namespace Style

/-- What switches a style on. -/
def start : Style → String
  | plain colour => "\x1b[" ++ colour.code ++ "m"
  | bold colour => "\x1b[1;" ++ colour.code ++ "m"
  | dimmed => "\x1b[2m"

/-- What switches all styles off. -/
def reset : String := "\x1b[0m"

/-- A text with a style switched on again after each reset in it. -/
def resume (start : List Char) : List Char → List Char
  | '\x1b' :: '[' :: '0' :: 'm' :: cs => reset.toList ++ start ++ resume start cs
  | c :: cs => c :: resume start cs
  | [] => []

/-- A text, filled up with blanks to a width. -/
def pad (width : Nat) (text : String) : String := text.pushn ' ' (width - text.length)

/-- A text in a style and filled up to a width, in colour or not. -/
def paint (inColour : Bool) (style : Style) (text : String) (width : Nat) : String :=
  if inColour then
    style.start ++ pad width (String.ofList (resume style.start.toList text.toList)) ++ reset
  else pad width text

/-- Are colours shown? They can be asked for and refused by the environment; otherwise they are for
terminals. -/
def inColour (force noColour wish : Option String) (terminal : Bool) : Bool :=
  if (force.map (· != "0")) == some true then true
  else if noColour.isSome then false
  else (wish.map (· != "0")).getD true && terminal

end Style

end Tablature.Command
