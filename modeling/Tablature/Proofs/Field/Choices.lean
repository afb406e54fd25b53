import Tablature.Proofs.Field.Head
import Tablature.Proofs.Field.Attribute

/-!
# Proofs/Field/Choices — the choices that a token leaves to its writer

One column can be written in many ways:

    author:int!->users     author:fk(users.id), NN     author!:Integer>users(id)

`Spelling` lists the choices there are: where the flags stand, how the type is spelled, which of
the three forms a reference has, the texts of the attributes and their order, the blanks.
`Spelling.token` is the token; `Agrees` says that two spellings come to the same: one name, one
storage class, one target, the same flags, and the same last default and actions.  Of the choices,
the column depends on nothing but these (`column_eq_of_agrees`).
-/

namespace Tablature.Field

open Attribute (AttributeText)
open Text.Scan (Contained)

/-! ## Choices -/

/-- A type after a colon, with the flags on it. Nothing in it quotes, it has one parenthesis at
most and no arrow, and it is no reference. -/
structure TypePart where
  text : List Char
  flags : List Flag := []
  isType : TypeText text
  unquoted : '\'' ∉ text ∧ '"' ∉ text
  notNested : text.count '(' ≤ 1
  noArrow : '>' ∉ text
  notInline : ∀ body, ¬ InlineType text body

/-- The target of a reference, with the blanks around it. -/
structure TargetPart where
  table : List Char
  /-- The column of that table; `id` if none is written. -/
  column : Option (List Char) := none
  before : List Char := []
  after : List Char := []
  isTable : isIdentifier table
  isColumn : ∀ c ∈ column, isIdentifier c
  blank : ∀ c ∈ before ++ after, Text.isBlank c

/-- What follows the name and its flags: a type or none, then perhaps a reference, either inline or
behind an arrow. -/
inductive Form where
  | plain (type : Option TypePart)
  /-- `fk(...)` in any letter case, with flags. -/
  | inline (word : List Char) (isWord : Text.lower word = ['f', 'k']) (target : TargetPart)
    (flags : List Flag)
  /-- An arrow, `->` or `>`. -/
  | arrow (type : Option TypePart) (long : Bool) (target : TargetPart)

namespace Form

/-- The class that the form names. A reference without a type, or in place of one, makes an
integer. -/
def storage : Form → Option Storage
  | plain type => type.map fun ty => .ofAlias ty.text
  | inline .. => some .integer
  | arrow type _ _ => some ((type.map fun ty => .ofAlias ty.text).getD .integer)

/-- The reference that the form names, its actions open. -/
def target : Form → Option Reference
  | plain _ => none
  | inline _ _ target _ => some (referenceOf (target.table, target.column))
  | arrow _ _ target => some (referenceOf (target.table, target.column))

/-- The flags on the type. -/
def flags : Form → List Flag
  | plain type => (type.map (·.flags)).getD []
  | inline _ _ _ flags => flags
  | arrow type _ _ => (type.map (·.flags)).getD []

end Form

/-- An attribute as it stands between two commas, and what it asks for. -/
structure AttributePart (referenced : Bool) where
  text : List Char
  asks : Attribute
  isAttribute : AttributeText referenced (Text.trim text) asks
  contained : Contained text

/-- One way to write a column. -/
structure Spelling where
  name : List Char
  /-- The flags on the name. -/
  flags : List Flag := []
  form : Form
  attributes : List (AttributePart form.target.isSome) := []
  before : List Char := []
  after : List Char := []
  isName : isIdentifier name
  blank : ∀ c ∈ before ++ after, Text.isBlank c

/-! ## Texts -/

/-- The text of a type, if there is one. -/
def typeText : Option TypePart → List Char
  | none => []
  | some type => ':' :: (type.text ++ symbols type.flags)

/-- The names of a target, the column between `opening` and `closing`, and the blanks around. -/
def TargetPart.text (opening : Char) (closing : List Char) (t : TargetPart) : List Char :=
  t.before ++ (t.table ++ (t.column.map fun c => opening :: (c ++ closing)).getD []) ++ t.after

/-- The text of a form. -/
def Form.text : Form → List Char
  | plain type => typeText type
  | inline word _ target flags =>
    ':' :: ((word ++ '(' :: (target.text '.' [] ++ [')'])) ++ symbols flags)
  | arrow type long target =>
    typeText type ++ ((if long then ['-', '>'] else ['>']) ++ target.text '(' [')'])

namespace Spelling

/-- The text before the attributes. -/
def headText (s : Spelling) : List Char := s.name ++ symbols s.flags ++ s.form.text

/-- The token. -/
def token (s : Spelling) : String :=
  String.ofList (s.before ++ (s.headText ++ Text.Scan.commaTexts (s.attributes.map (·.text)))
    ++ s.after)

/-! ## What a spelling comes to -/

/-- What its attributes ask for, in their order. -/
def asked (s : Spelling) : List Attribute := s.attributes.map (·.asks)

/-- A flag is set on the name, on the type or by an attribute. -/
def Sets (s : Spelling) (f : Flag) : Prop :=
  f ∈ s.flags ∨ f ∈ s.form.flags ∨ .flag f ∈ s.asked

instance (s : Spelling) (f : Flag) : Decidable (s.Sets f) :=
  inferInstanceAs (Decidable (f ∈ s.flags ∨ f ∈ s.form.flags ∨ .flag f ∈ s.asked))

/-- **Two spellings come to the same**: name, type, target and flags, and of several defaults or
actions the last. -/
structure Agrees (a b : Spelling) : Prop where
  name : a.name = b.name
  storage : a.form.storage = b.form.storage
  target : a.form.target = b.form.target
  flags : ∀ f, a.Sets f ↔ b.Sets f
  defaultExpr : Attribute.last? Attribute.expr? a.asked = Attribute.last? Attribute.expr? b.asked
  onDelete : Attribute.last? Attribute.deleteAction? a.asked =
    Attribute.last? Attribute.deleteAction? b.asked
  onUpdate : Attribute.last? Attribute.updateAction? a.asked =
    Attribute.last? Attribute.updateAction? b.asked
  deferred : .deferred ∈ a.asked ↔ .deferred ∈ b.asked

/-- The head of the name and its flags with a form. -/
def headWith (s : Spelling) (form : Form) : Head :=
  ⟨String.ofList s.name, form.storage, .ofFlags (s.flags ++ form.flags), form.target⟩

/-- The head of a spelling. -/
def head (s : Spelling) : Head := s.headWith s.form

/-- The column of a spelling. -/
def column (s : Spelling) : Column := assemble s.head s.asked

/-- **A flag is set by the head or by an attribute** exactly if the spelling sets it anywhere. -/
theorem has_head (s : Spelling) (f : Flag) :
    s.head.constraints.has f = true ∨ .flag f ∈ s.asked ↔ s.Sets f := by
  simp only [head, headWith, Constraints.has_ofFlags, List.mem_append, Sets, or_assoc]

/-- **The column depends on what the spellings come to and on nothing else.** -/
theorem column_eq_of_agrees {a b : Spelling} (h : a.Agrees b) : a.column = b.column := by
  have ha : Denotes a.head a.asked a.column := denotes_iff.mpr rfl
  have hamend : Attribute.amend a.asked = Attribute.amend b.asked := by
    funext r
    have hdeferred : a.asked.contains .deferred = b.asked.contains .deferred := by
      rw [Bool.eq_iff_iff, List.contains_iff_mem, List.contains_iff_mem, h.deferred]
    simp only [Attribute.amend, h.onDelete, h.onUpdate, hdeferred]
  have hb : Denotes b.head b.asked a.column := by
    refine ⟨?_, ?_, fun f => ?_, ?_, ?_⟩
    · rw [ha.name, head, head, headWith, headWith, h.name]
    · rw [ha.storage, head, head, headWith, headWith, h.storage]
    · rw [ha.flag f, has_head, has_head, h.flags f]
    · rw [ha.defaultExpr, h.defaultExpr]
      simp only [head, headWith, Constraints.defaultExpr_ofFlags]
    · rw [ha.reference, hamend, head, head, headWith, headWith, h.target]
  exact denotes_iff.mp hb

end Spelling

end Tablature.Field
