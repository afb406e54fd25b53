import Mathlib.Data.List.Forall2
import Tablature.Json.Printer
import Tablature.Proofs.Json.Literal

/-!
# Proofs/Json/Printer — printed values are read back

`Source.Reads` is what a text and its reader owe each other: the text is taken whole, whatever
blanks come before it and whatever comes after it that does not go on with a numeral.  Literals and
digits are read so, and then containers of what is read so: `Source.reads_array` and
`Source.reads_object`, for the layout in lines that the printer gives them.

`Value.toList_prettyAt_array` and its companions say that this is the layout.
-/

namespace Tablature.Json

open Text (Stops stops_cons)
open Numeral (goesOn)

namespace Source

variable {α : Type}

/-- A reader takes a text whole and gives `x`, whatever blanks stand before it, and whatever comes
after it that does not go on with a numeral. -/
structure Reads (read : Reader α) (text : List Char) (x : α) : Prop where
  start : ∃ c cs, text = c :: cs ∧ isBlank c = false ∧ c ≠ ']' ∧ c ≠ '\x7d'
  read_eq : ∀ {blanks rest}, (∀ c ∈ blanks, isBlank c = true) → Stops goesOn rest →
    read (blanks ++ (text ++ rest)) = some (x, rest)

/-- Blanks before a text that starts with none are skipped, and no more. -/
theorem skipBlanks_append {blanks cs : List Char} (hb : ∀ c ∈ blanks, isBlank c = true)
    (hc : Stops isBlank cs) : skipBlanks (blanks ++ cs) = cs :=
  Text.dropWhile_append_of_stops hb hc

theorem Reads.stops {read : Reader α} {text : List Char} {x : α} (h : Reads read text x)
    (rest : List Char) : Stops isBlank (text ++ rest) := by
  obtain ⟨c, cs, rfl, hc, -⟩ := h.start
  exact stops_cons.mpr hc

/-! ## Scalars

Literals, texts and numbers are told by their first character, which is none of those that open or
close a container. -/

/-- A scalar is read wherever a value is, at any depth. -/
theorem reads_of_readScalar {c : Char} {cs : List Char} {x : Source} (depth : Nat)
    (hstart : isBlank c = false ∧ c ∉ ['[', ']', '\x7b', '\x7d'])
    (h : ∀ {rest}, Stops goesOn rest → readScalar (c :: cs ++ rest) = some (x, rest)) :
    Reads (readValue depth) (c :: cs) x where
  start := ⟨c, cs, rfl, hstart.1, by simp_all, by simp_all⟩
  read_eq {blanks rest} hb hr := by
    have hskip : skipBlanks (blanks ++ (c :: cs ++ rest)) = c :: (cs ++ rest) :=
      skipBlanks_append hb (stops_cons.mpr hstart.1)
    cases depth with
    | zero =>
      rw [readValue, hskip]
      exact h hr
    | succ depth =>
      rw [readValue, hskip]
      split
      · next he => simp_all
      · next he => simp_all
      · exact h hr

/-- **The literal of a text is read as its pieces.** -/
theorem reads_quote (depth : Nat) (cs : List Char) :
    Reads (readValue depth) (quote cs) (.string (pieces cs)) := by
  refine reads_of_readScalar depth (by decide) fun {rest} _ => ?_
  have hshape : '"' :: (escape cs ++ ['"']) ++ rest = '"' :: (escape cs ++ '"' :: rest) := by simp
  rw [hshape, readScalar, readPieces_escape]
  rfl

/-- A digit is no other character. -/
theorem ne_of_isDigit {c : Char} (hc : c.isDigit = true) (d : Char) (hd : d.isDigit = false) :
    c ≠ d := by
  rintro rfl
  exact absurd hc (by simp [hd])

/-- A scalar that starts with a digit is a number. -/
theorem readScalar_of_isDigit {c : Char} (hc : c.isDigit = true) (cs : List Char) :
    readScalar (c :: cs) = (Numeral.read (c :: cs)).map fun p => (.number p.1, p.2) := by
  rw [readScalar]
  · exact fun _ he => ne_of_isDigit hc '"' rfl (List.cons.inj he).1
  · exact fun _ he => ne_of_isDigit hc 'n' rfl (List.cons.inj he).1
  · exact fun _ he => ne_of_isDigit hc 't' rfl (List.cons.inj he).1
  · exact fun _ he => ne_of_isDigit hc 'f' rfl (List.cons.inj he).1

/-- **The digits of a number are read as its numeral.** -/
theorem reads_toDigits (depth n : Nat) :
    Reads (readValue depth) (Nat.toDigits 10 n) (.number (.ofNat n)) := by
  obtain ⟨c, cs, hcs⟩ := List.exists_cons_of_ne_nil (Nat.toDigits_ne_nil (n := n) (b := 10))
  have hc : c.isDigit = true := Numeral.isDigit_of_mem_toDigits c (by rw [hcs]; simp)
  have hne := ne_of_isDigit hc
  have hstart : isBlank c = false ∧ c ∉ ['[', ']', '\x7b', '\x7d'] := by
    simp [isBlank, hne ' ' rfl, hne '\t' rfl, hne '\n' rfl, hne '\r' rfl, hne '[' rfl, hne ']' rfl,
      hne '\x7b' rfl, hne '\x7d' rfl]
  rw [hcs]
  refine reads_of_readScalar depth hstart fun hr => ?_
  rw [List.cons_append, readScalar_of_isDigit hc, ← List.cons_append, ← hcs,
    Numeral.read_toDigits n hr]
  rfl

/-! ## Containers

Arrays and objects are printed in the same layout, `body`, and read by the same reader of items; the
depth only says how far lines are indented. -/

/-- The start of a line at a depth, as characters. -/
def indent (depth : Nat) : List Char := '\n' :: List.replicate (2 * depth) ' '

/-- The start of a line is blank. -/
theorem isBlank_of_mem_indent (depth : Nat) : ∀ c ∈ indent depth, isBlank c = true := by
  intro c hc
  rcases List.mem_cons.mp hc with rfl | hc
  · decide
  · rw [List.eq_of_mem_replicate hc]
    decide

/-- More items of a container, each after a comma and on a line of its own. -/
def moreItems (depth : Nat) (texts : List (List Char)) : List Char :=
  texts.flatMap fun text => ',' :: (indent depth ++ text)

/-- The text of a container after its opening character: a line for each item, and one for the
closing character; an empty container is closed at once. -/
def body (depth : Nat) (close : Char) : List (List Char) → List Char
  | [] => [close]
  | text :: texts =>
    indent (depth + 1) ++ (text ++ (moreItems (depth + 1) texts ++ (indent depth ++ [close])))

section Items

variable {item : Reader α} {close : Char} {text rest : List Char} {texts : List (List Char)} {x : α}
  {xs : List α}

/-- The last item is followed by what closes the container. -/
theorem readItems_last {cs more : List Char} (hcomma : close ≠ ',') (h : item cs = some (x, more))
    (hmore : skipBlanks more = close :: rest) (bound : Nat) :
    readItems item close (bound + 1) cs = some ([x], rest) := by
  simp [readItems, h, hmore, hcomma]

/-- Every other item is followed by a comma and more. -/
theorem readItems_comma {cs more : List Char} (h : item cs = some (x, ',' :: more)) {bound : Nat}
    (hmore : readItems item close bound more = some (xs, rest)) :
    readItems item close (bound + 1) cs = some (x :: xs, rest) := by
  have hskip : skipBlanks (',' :: more) = ',' :: more := rfl
  simp [readItems, h, hskip, hmore]

/-- **Items on lines of their own are read one by one**, up to the closing character. -/
theorem readItems_lines (depth : Nat) (hclose : isBlank close = false ∧ close ≠ ',')
    (hx : Reads item text x) (hxs : List.Forall₂ (Reads item) texts xs) {blanks : List Char}
    (hb : ∀ c ∈ blanks, isBlank c = true) {bound : Nat} (hbound : texts.length ≤ bound) :
    readItems item close (bound + 1) (blanks ++ (text ++
        (moreItems (depth + 1) texts ++ (indent depth ++ close :: rest)))) =
      some (x :: xs, rest) := by
  induction hxs generalizing text x blanks bound with
  | nil =>
    have hend : skipBlanks (indent depth ++ close :: rest) = close :: rest :=
      skipBlanks_append (isBlank_of_mem_indent depth) (stops_cons.mpr hclose.1)
    exact readItems_last hclose.2 (hx.read_eq hb (stops_cons.mpr (by decide))) hend bound
  | @cons text' x' texts xs hx' _ ih =>
    have hshape : moreItems (depth + 1) (text' :: texts) ++ (indent depth ++ close :: rest) =
        ',' :: (indent (depth + 1) ++ (text' ++
          (moreItems (depth + 1) texts ++ (indent depth ++ close :: rest)))) := by
      simp [moreItems]
    obtain ⟨bound, rfl⟩ := Nat.exists_eq_add_of_le' (Nat.le_trans (Nat.le_add_left 1 _) hbound)
    rw [hshape]
    exact readItems_comma (hx.read_eq hb (stops_cons.mpr (by decide)))
      (ih hx' (isBlank_of_mem_indent _) (Nat.le_of_succ_le_succ hbound))

/-- There are no more items than characters, so that the reader's bound is never reached. -/
theorem length_le_moreItems (depth : Nat) (texts : List (List Char)) :
    texts.length ≤ (moreItems depth texts).length := by
  induction texts with
  | nil => simp
  | cons text texts ih =>
    simp only [moreItems, List.flatMap_cons, List.length_append, List.length_cons] at ih ⊢
    omega

/-- **The items of a container are read**, each as it is read alone. -/
theorem readContainer_body (depth : Nat) (hclose : close = ']' ∨ close = '\x7d')
    (h : List.Forall₂ (Reads item) texts xs) :
    readContainer item close (body depth close texts ++ rest) = some (xs, rest) := by
  have hblank : isBlank close = false ∧ close ≠ ',' := by
    rcases hclose with rfl | rfl <;> decide
  cases h with
  | nil => simp [readContainer, body, skipBlanks, hblank.1]
  | @cons text x texts xs hx hxs =>
    have hshape : body depth close (text :: texts) ++ rest = indent (depth + 1) ++ (text ++
        (moreItems (depth + 1) texts ++ (indent depth ++ close :: rest))) := by
      simp [body]
    obtain ⟨c, cs, rfl, hc, hne⟩ := hx.start
    have hfirst : c ≠ close := by
      rcases hclose with rfl | rfl
      · exact hne.1
      · exact hne.2
    have hlength := length_le_moreItems (depth + 1) texts
    rw [hshape, readContainer, skipBlanks_append (isBlank_of_mem_indent _) (hx.stops _)]
    simp only [List.cons_append, hfirst, if_false, List.length_cons]
    have hnone : ∀ b ∈ ([] : List Char), isBlank b = true := by simp
    refine readItems_lines depth hblank hx hxs hnone ?_
    simp only [List.length_append]
    omega

end Items

/-- **The lines of an array are read as its items.** -/
theorem reads_array (depth level : Nat) {texts : List (List Char)} {items : List Source}
    (h : List.Forall₂ (Reads (readValue depth)) texts items) :
    Reads (readValue (depth + 1)) ('[' :: body level ']' texts) (.array items) where
  start := ⟨'[', _, rfl, by decide, by decide, by decide⟩
  read_eq {blanks rest} hb _ := by
    have hskip : skipBlanks (blanks ++ ('[' :: body level ']' texts ++ rest)) =
        '[' :: (body level ']' texts ++ rest) :=
      skipBlanks_append hb (stops_cons.mpr (by decide))
    rw [readValue, hskip]
    simp [readContainer_body level (.inl rfl) h]

/-- A member of an object: its name and the text of its value. -/
def memberText (name text : List Char) : List Char := quote name ++ [':', ' '] ++ text

/-- A name and a value, as they are read in an object. -/
theorem reads_member {value : Reader Source} {text : List Char} {x : Source}
    (h : Reads value text x) (name : List Char) :
    Reads (readMember value) (memberText name text) (pieces name, x) where
  start := ⟨'"', _, rfl, by decide, by decide, by decide⟩
  read_eq {blanks rest} hb hr := by
    have hshape : memberText name text ++ rest =
        '"' :: (escape name ++ '"' :: ':' :: ([' '] ++ (text ++ rest))) := by
      simp [memberText, quote]
    have hspace : ∀ c ∈ [' '], isBlank c = true := by simp [isBlank]
    rw [hshape, readMember, skipBlanks_append hb (stops_cons.mpr (by decide))]
    simp only [readPieces_escape, Option.bind_eq_bind, Option.bind_some]
    have hcolon : ∀ cs, skipBlanks (':' :: cs) = ':' :: cs := fun _ => rfl
    rw [hcolon]
    simp only [h.read_eq hspace hr, Option.bind_some]
    rfl

/-- **The lines of an object are read as its members.** -/
theorem reads_object (depth level : Nat) {texts : List (List Char)}
    {members : List (List Piece × Source)}
    (h : List.Forall₂ (Reads (readMember (readValue depth))) texts members) :
    Reads (readValue (depth + 1)) ('\x7b' :: body level '\x7d' texts) (.object members) where
  start := ⟨'\x7b', _, rfl, by decide, by decide, by decide⟩
  read_eq {blanks rest} hb _ := by
    have hskip : skipBlanks (blanks ++ ('\x7b' :: body level '\x7d' texts ++ rest)) =
        '\x7b' :: (body level '\x7d' texts ++ rest) :=
      skipBlanks_append hb (stops_cons.mpr (by decide))
    rw [readValue, hskip]
    simp [readContainer_body level (.inr rfl) h]

/-- **A text that is read whole is parsed**, also with a line end after it. -/
theorem parse_of_reads {depth : Nat} {text : List Char} {x : Source}
    (h : Reads (readValue depth) text x) : parse depth (text ++ ['\n']) = some x := by
  have hnone : ∀ b ∈ ([] : List Char), isBlank b = true := by simp
  have hread : readValue depth (text ++ ['\n']) = some (x, ['\n']) :=
    h.read_eq hnone (stops_cons.mpr (by decide))
  have hrest : (skipBlanks ['\n']).isEmpty = true := by decide
  rw [parse, hread]
  exact if_pos hrest

end Source

/-! ## What is printed -/

namespace Value

open Source (indent moreItems body memberText)

theorem toList_pushn (s : String) (c : Char) (n : Nat) :
    (s.pushn c n).toList = s.toList ++ List.replicate n c := by
  induction n with
  | zero => exact (List.append_nil s.toList).symm
  | succ n ih =>
    have hpush : s.pushn c (n + 1) = (s.pushn c n).push c := rfl
    rw [hpush, String.toList_push, ih, List.append_assoc, ← List.replicate_succ']

theorem toList_newLine (depth : Nat) : (newLine depth).toList = indent depth :=
  toList_pushn "\n" ' ' (2 * depth)

/-- The text of a member at a depth, as characters. -/
def memberAt (depth : Nat) (m : String × Value) : List Char :=
  memberText m.1.toList (m.2.prettyAt depth).toList

/-- The items of an array in lines, as characters. -/
theorem toList_prettyItems (depth : Nat) (v : Value) (vs : List Value) :
    (prettyItems depth (v :: vs)).toList = indent depth ++ ((v.prettyAt depth).toList ++
      moreItems depth (vs.map fun v => (v.prettyAt depth).toList)) := by
  induction vs generalizing v with
  | nil => simp [prettyItems, toList_newLine, moreItems]
  | cons w vs ih => simp [prettyItems, toList_newLine, ih, moreItems]

/-- The members of an object in lines, as characters. -/
theorem toList_prettyMembers (depth : Nat) (m : String × Value) (ms : List (String × Value)) :
    (prettyMembers depth (m :: ms)).toList =
      indent depth ++ (memberAt depth m ++ moreItems depth (ms.map (memberAt depth))) := by
  induction ms generalizing m with
  | nil => simp [prettyMembers, toList_newLine, moreItems, memberAt, memberText, literal]
  | cons n ms ih =>
    simp [prettyMembers, toList_newLine, ih, moreItems, memberAt, memberText, literal]

/-- **An array is printed with a line for each item.** -/
theorem toList_prettyAt_array (depth : Nat) (vs : List Value) :
    ((array vs).prettyAt depth).toList =
      '[' :: body depth ']' (vs.map fun v => (v.prettyAt (depth + 1)).toList) := by
  cases vs with
  | nil => simp [prettyAt, body]
  | cons v vs => simp [prettyAt, toList_prettyItems, toList_newLine, body]

/-- **An object is printed with a line for each member.** -/
theorem toList_prettyAt_object (depth : Nat) (ms : List (String × Value)) :
    ((object ms).prettyAt depth).toList =
      '\x7b' :: body depth '\x7d' (ms.map (memberAt (depth + 1))) := by
  cases ms with
  | nil => simp [prettyAt, body]
  | cons m ms => simp [prettyAt, toList_prettyMembers, toList_newLine, body]

theorem toList_prettyAt_string (depth : Nat) (s : String) :
    ((string s).prettyAt depth).toList = quote s.toList := by
  simp [prettyAt, scalarText, literal]

theorem toList_prettyAt_natCast (depth n : Nat) :
    ((number (.integer n)).prettyAt depth).toList = Nat.toDigits 10 n := by
  have hrender : (Number.integer n).render = Nat.repr n := rfl
  simp [prettyAt, scalarText, hrender, Nat.toList_repr]

end Value

end Tablature.Json
