import Tablature.Field.Head
import Tablature.Proofs.Bind
import Tablature.Proofs.Identifier

/-!
# Proofs/Field/Definition — the grammar of definitions, and that the readers read exactly it

A definition is what stands before the arrow of a head, or all of it:

    TypeText        word ["(" text without ")" ")"]
    DefinitionText  identifier flag* [":" type flag*]

The grammar is stated apart from the readers, as relations between a text and what it spells.  A
reader is greedy and returns what it leaves.  Each has one lemma with an arbitrary rest: a text of
the grammar, before a rest it could not go on with, is taken whole.  So a text has one reading, and
`readDefinition_eq_some_iff` is the grammar with nothing left.
-/

namespace Tablature

open Text (Stops stops_cons stops_nil)

/-! ## Flags -/

/-- The symbol of a flag. -/
def Flag.symbol : Flag → Char
  | .notNull => '!'
  | .unique => '+'
  | .index => '^'
  | .primaryKey => '#'
  | .autoIncrement => '~'

@[simp] theorem Flag.ofSymbol?_symbol (f : Flag) : Flag.ofSymbol? f.symbol = some f := by
  cases f <;> rfl

/-- A flag is read from its symbol alone. -/
theorem Flag.eq_symbol_of_ofSymbol? {c : Char} {f : Flag} (h : Flag.ofSymbol? c = some f) :
    c = f.symbol := by
  unfold Flag.ofSymbol? at h
  split at h <;> simp at h <;> subst h <;> rfl

/-- Is a character the symbol of a flag? -/
def isSymbol (c : Char) : Bool := (Flag.ofSymbol? c).isSome

namespace Field

/-- The text of a run of flags. -/
def symbols (flags : List Flag) : List Char := flags.map Flag.symbol

@[simp] theorem symbols_nil : symbols [] = [] := rfl

@[simp] theorem symbols_cons (f : Flag) (flags : List Flag) :
    symbols (f :: flags) = f.symbol :: symbols flags := rfl

/-- **A run of flags is read whole** before a rest that no symbol starts. -/
theorem readFlags_append (flags : List Flag) {rest : List Char} (hr : Stops isSymbol rest) :
    readFlags (symbols flags ++ rest) = (flags, rest) := by
  induction flags with
  | nil =>
    cases rest with
    | nil => rfl
    | cons c rest =>
      have hc : Flag.ofSymbol? c = none := by simpa [isSymbol] using hr
      simp [readFlags, hc]
  | cons f flags ih => simp [readFlags, ih]

/-- What the reader of flags takes and what it leaves are the text. -/
theorem symbols_append_readFlags (cs : List Char) :
    symbols (readFlags cs).1 ++ (readFlags cs).2 = cs := by
  induction cs with
  | nil => rfl
  | cons c cs ih =>
    cases hc : Flag.ofSymbol? c with
    | none => simp [readFlags, hc]
    | some f => simp [readFlags, ih, Flag.eq_symbol_of_ofSymbol? hc]

/-! ## Types -/

/-- A word: letters, digits and `_`, at least one of them. -/
def IsWord (cs : List Char) : Prop := cs ≠ [] ∧ ∀ c ∈ cs, isNameChar c

/-- The texts of types: a word, and perhaps a parenthesis right after it. -/
inductive TypeText : List Char → Prop
  | word {word : List Char} (hw : IsWord word) : TypeText word
  | applied {word body : List Char} (hw : IsWord word) (hb : ')' ∉ body) :
    TypeText (word ++ '(' :: (body ++ [')']))

/-- A parenthesis is read up to the first that closes one. -/
theorem readParenthesis_append {body : List Char} (hb : ')' ∉ body) (rest : List Char) :
    readParenthesis ('(' :: (body ++ ')' :: rest)) = some (body, rest) := by
  have hall : ∀ c ∈ body, (c != ')') = true := by
    intro c hc
    simpa using fun e : c = ')' => hb (e ▸ hc)
  have hstop : Stops (· != ')') (')' :: rest) := by simp
  simp [readParenthesis, Text.takeWhile_append_of_stops hall hstop,
    Text.dropWhile_append_of_stops hall hstop]

/-- What is read as a parenthesis is one. -/
theorem append_of_readParenthesis {cs body rest : List Char}
    (h : readParenthesis cs = some (body, rest)) :
    cs = '(' :: (body ++ ')' :: rest) ∧ ')' ∉ body := by
  unfold readParenthesis at h
  split at h
  · next cs =>
    split at h
    · next c tail hd =>
      obtain ⟨rfl, rfl⟩ := Prod.mk.inj (Option.some.inj h)
      have hc : c = ')' := by
        have := Text.stops_dropWhile (· != ')') cs
        rw [hd, stops_cons] at this
        simpa using this
      subst hc
      have hsplit : cs.takeWhile (· != ')') ++ ')' :: tail = cs := by
        rw [← hd, List.takeWhile_append_dropWhile]
      refine ⟨by rw [hsplit], fun hmem => ?_⟩
      simpa using List.mem_takeWhile_imp hmem
    · simp at h
  · simp at h

/-- A type can go on with such a character. -/
def typeGoesOn (c : Char) : Bool := isNameChar c || c == '('

theorem isNameChar_of_not_typeGoesOn {c : Char} (h : typeGoesOn c = false) :
    isNameChar c = false := by
  simp only [typeGoesOn, Bool.or_eq_false_iff] at h
  exact h.1

/-- **A type is read whole** before a rest that starts neither with a letter of a word nor with a
parenthesis. -/
theorem readTypeName_append {type rest : List Char} (ht : TypeText type)
    (hr : Stops typeGoesOn rest) : readTypeName (type ++ rest) = some (type, rest) := by
  cases ht with
  | word hw =>
    have hstop : Stops isNameChar rest := fun c hc => isNameChar_of_not_typeGoesOn (hr c hc)
    have hparen : readParenthesis rest = none := by
      unfold readParenthesis
      split
      · simp [typeGoesOn] at hr
      · rfl
    simp [readTypeName, Text.takeWhile_append_of_stops hw.2 hstop,
      Text.dropWhile_append_of_stops hw.2 hstop, hparen, hw.1]
  | @applied word body hw hb =>
    have hstop : Stops isNameChar ('(' :: (body ++ ')' :: rest)) := by
      rw [stops_cons]
      decide
    have hshape : word ++ '(' :: (body ++ [')']) ++ rest =
        word ++ '(' :: (body ++ ')' :: rest) := by
      simp
    rw [hshape]
    simp [readTypeName, Text.takeWhile_append_of_stops hw.2 hstop,
      Text.dropWhile_append_of_stops hw.2 hstop, readParenthesis_append hb, hw.1]

/-- What is read as a type is one, and the rest is left. -/
theorem typeText_of_readTypeName {cs type rest : List Char}
    (h : readTypeName cs = some (type, rest)) : TypeText type ∧ cs = type ++ rest := by
  unfold readTypeName at h
  by_cases hw : (cs.takeWhile isNameChar).isEmpty = true
  · simp [hw] at h
  · have hword : IsWord (cs.takeWhile isNameChar) :=
      ⟨by simpa using hw, fun _ => List.mem_takeWhile_imp⟩
    simp only [hw, Bool.false_eq_true, if_false] at h
    split at h
    · next body rest' hp =>
      obtain ⟨rfl, rfl⟩ := Prod.mk.inj (Option.some.inj h)
      obtain ⟨hd, hb⟩ := append_of_readParenthesis hp
      refine ⟨.applied hword hb, ?_⟩
      have := List.takeWhile_append_dropWhile (p := isNameChar) (l := cs)
      rw [hd] at this
      simpa using this.symm
    · obtain ⟨rfl, rfl⟩ := Prod.mk.inj (Option.some.inj h)
      exact ⟨.word hword, List.takeWhile_append_dropWhile.symm⟩

/-- **A whole text is a type exactly when the grammar says so.** -/
theorem isTypeName_iff {cs : List Char} : isTypeName cs = true ↔ TypeText cs := by
  constructor
  · intro h
    unfold isTypeName at h
    split at h
    · next type hread =>
      obtain ⟨ht, hcs⟩ := typeText_of_readTypeName hread
      simpa [hcs] using ht
    · simp at h
  · intro h
    have := readTypeName_append h (stops_nil typeGoesOn)
    rw [List.append_nil] at this
    simp [isTypeName, this]

/-! ## Definitions

A name, its flags and perhaps a type with more flags; what a definition can go on with and what it
can end with is all that others need to know of it. -/

/-- The texts of definitions: a name with flags, and perhaps a type with flags. -/
inductive DefinitionText : Definition → List Char → Prop
  | bare {name : List Char} {flags : List Flag} (hn : isIdentifier name) :
    DefinitionText ⟨name, none, flags⟩ (name ++ symbols flags)
  | typed {name type : List Char} {flags typeFlags : List Flag} (hn : isIdentifier name)
    (ht : TypeText type) :
    DefinitionText ⟨name, some type, flags ++ typeFlags⟩
      (name ++ symbols flags ++ ':' :: (type ++ symbols typeFlags))

/-- A definition can go on with such a character. -/
def definitionGoesOn (c : Char) : Bool := typeGoesOn c || isSymbol c || c == ':'

/-- No name and no type goes on with a flag. -/
theorem Flag.typeGoesOn_symbol (f : Flag) : typeGoesOn f.symbol = false := by
  cases f <;> decide

theorem Flag.isNameChar_symbol (f : Flag) : isNameChar f.symbol = false :=
  isNameChar_of_not_typeGoesOn (Flag.typeGoesOn_symbol f)

/-- A run of flags, or the end of one, before a rest that stops a definition. -/
theorem stops_symbols_append {p : Char → Bool} (hp : ∀ f : Flag, p f.symbol = false)
    (flags : List Flag) {rest : List Char} (hr : Stops p rest) :
    Stops p (symbols flags ++ rest) := by
  cases flags with
  | nil => exact hr
  | cons f flags => simpa using hp f

/-- What stops a definition stops every reader of a part of it. -/
theorem stops_of_stops_definition {p : Char → Bool} (hp : ∀ c, p c → definitionGoesOn c)
    {rest : List Char} (hr : Stops definitionGoesOn rest) : Stops p rest := by
  intro c hc
  cases h : p c with
  | false => rfl
  | true => rw [← hr c hc, hp c h]

/-- **A definition is read whole** before a rest that cannot go on with it: a text that starts
with two definitions, each before such a rest, starts with one. -/
theorem readDefinition_append {d : Definition} {text rest : List Char} (hd : DefinitionText d text)
    (hr : Stops definitionGoesOn rest) : readDefinition (text ++ rest) = some (d, rest) := by
  have hsym : Stops isSymbol rest :=
    stops_of_stops_definition (fun c h => by simp [definitionGoesOn, h]) hr
  have hname : Stops isNameChar rest :=
    stops_of_stops_definition (fun c h => by simp [definitionGoesOn, typeGoesOn, h]) hr
  cases hd with
  | @bare name flags hn =>
    have hid : readIdentifier (name ++ (symbols flags ++ rest)) =
        some (name, symbols flags ++ rest) :=
      readIdentifier_append hn (stops_symbols_append Flag.isNameChar_symbol flags hname)
    rw [List.append_assoc]
    unfold readDefinition
    simp only [hid, readFlags_append flags hsym, Option.bind_eq_bind, Option.bind_some]
    split
    · simp [definitionGoesOn] at hr
    · rfl
  | @typed name type flags typeFlags hn ht =>
    have hcolon : Stops isNameChar (':' :: (type ++ (symbols typeFlags ++ rest))) := by
      rw [stops_cons]
      decide
    have hcolon' : Stops isSymbol (':' :: (type ++ (symbols typeFlags ++ rest))) := by
      rw [stops_cons]
      decide
    have htype : readTypeName (type ++ (symbols typeFlags ++ rest)) =
        some (type, symbols typeFlags ++ rest) := by
      refine readTypeName_append ht (stops_symbols_append Flag.typeGoesOn_symbol typeFlags ?_)
      exact stops_of_stops_definition (fun c h => by simp [definitionGoesOn, h]) hr
    have hid := readIdentifier_append hn (stops_symbols_append Flag.isNameChar_symbol flags hcolon)
    have hshape : name ++ symbols flags ++ ':' :: (type ++ symbols typeFlags) ++ rest =
        name ++ (symbols flags ++ ':' :: (type ++ (symbols typeFlags ++ rest))) := by
      simp
    rw [hshape]
    unfold readDefinition
    simp only [hid, readFlags_append flags hcolon', Option.bind_eq_bind, Option.bind_some, htype,
      readFlags_append typeFlags hsym]

/-- What is read as a definition with nothing left is one. -/
theorem definitionText_of_readDefinition {d : Definition} {cs : List Char}
    (h : readDefinition cs = some (d, [])) : DefinitionText d cs := by
  unfold readDefinition at h
  cases hid : readIdentifier cs with
  | none => simp [hid] at h
  | some p =>
    obtain ⟨name, rest⟩ := p
    have hn := isIdentifier_of_readIdentifier hid
    have hcs := append_of_readIdentifier hid
    have hflags := symbols_append_readFlags rest
    simp only [hid, Option.bind_eq_bind, Option.bind_some] at h
    split at h
    · next typed hrest =>
      split at h
      · next type rest' hty =>
        obtain ⟨ht, htyped⟩ := typeText_of_readTypeName hty
        have htf := symbols_append_readFlags rest'
        obtain ⟨rfl, hnil⟩ := Prod.mk.inj (Option.some.inj h)
        rw [hnil, List.append_nil] at htf
        have hshape : cs = name ++ symbols (readFlags rest).1 ++
            ':' :: (type ++ symbols (readFlags rest').1) := by
          rw [htf, ← htyped, ← hrest, List.append_assoc, hflags, hcs]
        exact hshape ▸ .typed hn ht
      · obtain ⟨-, hnil⟩ := Prod.mk.inj (Option.some.inj h)
        simp [hrest] at hnil
    · obtain ⟨rfl, hnil⟩ := Prod.mk.inj (Option.some.inj h)
      rw [hnil, List.append_nil] at hflags
      have hshape : cs = name ++ symbols (readFlags rest).1 := by rw [hflags, hcs]
      exact hshape ▸ .bare hn

/-- A definition can end with such a character. -/
def endsDefinition (c : Char) : Bool := isNameChar c || isSymbol c || c == ')'

/-- No definition ends with a blank. -/
theorem isBlank_of_endsDefinition {c : Char} (h : endsDefinition c) : Text.isBlank c = false := by
  simp only [endsDefinition, Bool.or_eq_true, beq_iff_eq] at h
  rcases h with (h | h) | rfl
  · exact isBlank_of_isNameChar h
  · obtain ⟨f, hf⟩ := Option.isSome_iff_exists.mp h
    rw [Flag.eq_symbol_of_ofSymbol? hf]
    cases f <;> decide
  · decide

/-- Flags behind a text that ends like a definition end like one. -/
theorem exists_concat_append_symbols {text : List Char} (flags : List Flag)
    (h : ∃ a c, text = a ++ [c] ∧ endsDefinition c) :
    ∃ a c, text ++ symbols flags = a ++ [c] ∧ endsDefinition c := by
  rcases List.eq_nil_or_concat flags with rfl | ⟨fs, f, rfl⟩
  · simpa using h
  · refine ⟨text ++ symbols fs, f.symbol, by simp [symbols], ?_⟩
    cases f <;> decide

/-- **What a definition ends with**: a letter, a flag or a parenthesis, so neither a blank nor a
part of an arrow. -/
theorem exists_concat_of_definitionText {d : Definition} {text : List Char}
    (h : DefinitionText d text) : ∃ a c, text = a ++ [c] ∧ endsDefinition c := by
  have hword : ∀ {cs : List Char}, IsWord cs → ∃ a c, cs = a ++ [c] ∧ endsDefinition c := by
    intro cs hcs
    refine ⟨cs.dropLast, cs.getLast hcs.1, (List.dropLast_concat_getLast hcs.1).symm, ?_⟩
    simp [endsDefinition, hcs.2 _ (List.getLast_mem hcs.1)]
  cases h with
  | bare hn =>
    obtain ⟨c, cs, rfl, -⟩ := exists_cons_of_identifier hn
    exact exists_concat_append_symbols _ (hword ⟨by simp, isNameChar_of_mem_identifier hn⟩)
  | @typed name type flags typeFlags hn ht =>
    obtain ⟨a, c, he, hc⟩ : ∃ a c, type ++ symbols typeFlags = a ++ [c] ∧ endsDefinition c := by
      refine exists_concat_append_symbols typeFlags ?_
      cases ht with
      | word hw => exact hword hw
      | @applied word body hw hb => exact ⟨word ++ '(' :: body, ')', by simp, by decide⟩
    exact ⟨name ++ symbols flags ++ ':' :: a, c, by simp [he], hc⟩

theorem complete_eq_ok_iff {α : Type} {part : FieldPart} {r : Option (α × List Char)} {a : α} :
    complete part r = .ok a ↔ r = some (a, []) := by
  unfold complete
  split <;> simp_all

/-- **A whole text is a definition exactly when the grammar says so.** -/
theorem readDefinition_eq_some_iff {d : Definition} {cs : List Char} :
    readDefinition cs = some (d, []) ↔ DefinitionText d cs := by
  refine ⟨definitionText_of_readDefinition, fun h => ?_⟩
  have := readDefinition_append h (stops_nil definitionGoesOn)
  rwa [List.append_nil] at this

end Field

end Tablature
