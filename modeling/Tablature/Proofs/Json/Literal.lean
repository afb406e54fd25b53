import Tablature.Json.Number
import Tablature.Json.Text
import Tablature.Proofs.Text.Blank

/-!
# Proofs/Json/Literal — literals and numerals are read back as they are printed

* `readPieces_escape` and `decode?_pieces` — the literal of a text is read up to its closing quote,
  and its pieces spell that text;
* `Numeral.read_toDigits` and `Numeral.integer?_ofNat` — the digits of a number are read as one
  numeral, and it stands for that number.

What follows is arbitrary, as long as it does not go on with the digits.
-/

namespace Tablature.Json

open Text (Stops stops_cons)

/-! ## String literals

A text is written piece by piece, and read piece by piece: an escape, a unit or the character
itself. -/

/-- The piece that a character is written as: a unit, if it is a control character without a letter
of its own. -/
def pieceOf (c : Char) : Piece :=
  if c.toNat < 0x20 ∧ c ∉ ['\x08', '\x0c', '\n', '\r', '\t'] then .unit c.toNat else .char c

/-- The pieces of the literal of a text. -/
def pieces (cs : List Char) : List Piece := cs.map pieceOf

/-- An escape by a letter is one piece. -/
theorem readPieces_letter {e c : Char} (h : unescape? e = some c) (cs : List Char) :
    readPieces ('\\' :: e :: cs) = (readPieces cs).map fun p => (.char c :: p.1, p.2) := by
  have he : e ≠ 'u' := by
    rintro rfl
    exact nomatch h
  rw [readPieces, h]
  · cases readPieces cs <;> rfl
  · exact fun _ _ _ _ _ he' => absurd he' he

/-- An escape by four digits is one piece. -/
theorem readPieces_unit {a b c d : Char} {u : Nat} (h : hexUnit? a b c d = some u)
    (cs : List Char) :
    readPieces ('\\' :: 'u' :: a :: b :: c :: d :: cs) =
      (readPieces cs).map fun p => (.unit u :: p.1, p.2) := by
  rw [readPieces, h]
  cases readPieces cs <;> rfl

/-- Any other character stands for itself. -/
theorem readPieces_plain {c : Char} (hc : ¬ c.toNat < 0x20) (hq : c ≠ '"') (hb : c ≠ '\\')
    (cs : List Char) :
    readPieces (c :: cs) = (readPieces cs).map fun p => (.char c :: p.1, p.2) := by
  rw [readPieces, if_neg (by simp [hc, hb])]
  · cases readPieces cs <;> rfl
  · exact hq
  · exact fun _ _ _ _ _ he => absurd he hb
  · exact fun _ _ he => absurd he hb

/-- A hexadecimal digit has the value it was made of. -/
theorem hexValue?_hexDigit : ∀ n < 16, hexValue? (hexDigit n) = some n := by decide

/-- The unit of a control character. -/
theorem hexUnit?_control {n : Nat} (h : n < 0x20) :
    hexUnit? '0' '0' (hexDigit (n / 16)) (hexDigit (n % 16)) = some n := by
  have hzero : hexValue? '0' = some 0 := by decide
  rw [hexUnit?, hzero, hexValue?_hexDigit _ (by omega), hexValue?_hexDigit _ (by omega)]
  simp only [Option.pure_def, Option.bind_eq_bind, Option.bind_some, Option.some.injEq]
  omega

/-- How a character is written: by a letter, as a unit, or as itself. -/
theorem escapeChar_cases (c : Char) :
    (∃ e, unescape? e = some c ∧ escapeChar c = ['\\', e] ∧ pieceOf c = .char c) ∨
      (c.toNat < 0x20 ∧ pieceOf c = .unit c.toNat ∧
        escapeChar c = ['\\', 'u', '0', '0', hexDigit (c.toNat / 16), hexDigit (c.toNat % 16)]) ∨
      ¬ c.toNat < 0x20 ∧ c ≠ '"' ∧ c ≠ '\\' ∧ escapeChar c = [c] ∧ pieceOf c = .char c := by
  by_cases hletter : c ∈ ['"', '\\', '\x08', '\x0c', '\n', '\r', '\t']
  · left
    simp only [List.mem_cons, List.not_mem_nil, or_false] at hletter
    rcases hletter with rfl | rfl | rfl | rfl | rfl | rfl | rfl
    all_goals exact ⟨_, rfl, rfl, rfl⟩
  · right
    simp only [List.mem_cons, List.not_mem_nil, or_false, not_or] at hletter
    by_cases hc : c.toNat < 0x20
    · exact .inl ⟨hc, by simp [pieceOf, hc, hletter], by simp [escapeChar, hc, hletter]⟩
    · refine .inr ⟨hc, hletter.1, hletter.2.1, ?_, ?_⟩
      · simp [escapeChar, hc, hletter]
      · simp [pieceOf, hc]

/-- **A character is read back as the piece it is written as.** -/
theorem readPieces_escapeChar (c : Char) (cs : List Char) :
    readPieces (escapeChar c ++ cs) = (readPieces cs).map fun p => (pieceOf c :: p.1, p.2) := by
  rcases escapeChar_cases c with ⟨e, he, hc, hp⟩ | ⟨hlt, hp, hc⟩ | ⟨hlt, hq, hb, hc, hp⟩
  · rw [hc, hp]
    exact readPieces_letter he cs
  · rw [hc, hp]
    exact readPieces_unit (hexUnit?_control hlt) cs
  · rw [hc, hp]
    exact readPieces_plain hlt hq hb cs

/-- **The literal of a text is read up to its closing quote.** -/
theorem readPieces_escape (cs rest : List Char) :
    readPieces (escape cs ++ '"' :: rest) = some (pieces cs, rest) := by
  induction cs with
  | nil => rfl
  | cons c cs ih =>
    have hshape : escape (c :: cs) ++ '"' :: rest = escapeChar c ++ (escape cs ++ '"' :: rest) := by
      simp [escape]
    rw [hshape, readPieces_escapeChar, ih]
    rfl

/-- A unit below the blank is the control character of that code. -/
theorem decode?_unit {u : Nat} (hu : u < 0x20) (ps : List Piece) :
    decode? (.unit u :: ps) = (decode? ps).map (Char.ofNat u :: ·) := by
  have hhigh : isHighSurrogate u = false := by simp [isHighSurrogate]; omega
  have hlow : isLowSurrogate u = false := by simp [isLowSurrogate]; omega
  cases ps with
  | nil => simp [decode?, hhigh, hlow]
  | cons p ps => cases p <;> simp [decode?, hhigh, hlow]

/-- **The pieces of a text spell it.** -/
theorem decode?_pieces (cs : List Char) : decode? (pieces cs) = some cs := by
  induction cs with
  | nil => rfl
  | cons c cs ih =>
    by_cases hc : c.toNat < 0x20 ∧ c ∉ ['\x08', '\x0c', '\n', '\r', '\t']
    · have hpiece : pieces (c :: cs) = .unit c.toNat :: pieces cs := by simp [pieces, pieceOf, hc]
      rw [hpiece, decode?_unit hc.1, ih, Char.ofNat_toNat]
      rfl
    · have hpiece : pieces (c :: cs) = .char c :: pieces cs := by
        rw [pieces, List.map_cons, pieceOf, if_neg hc, pieces]
      rw [hpiece, decode?, ih]
      rfl

/-! ## Numerals -/

namespace Numeral

/-- The numeral of a number, as it is printed. -/
def ofNat (n : Nat) : Numeral := ⟨false, Nat.toDigits 10 n, [], none⟩

/-- A character that a numeral can go on with. -/
def goesOn (c : Char) : Bool := c.isDigit || c == '.' || c == 'e' || c == 'E'

/-- A number has digits only. -/
theorem isDigit_of_mem_toDigits {n : Nat} : ∀ c ∈ Nat.toDigits 10 n, c.isDigit = true :=
  fun _ => Nat.isDigit_of_mem_toDigits (by decide) (by decide)

/-- **Only the digits of zero start with a zero.** -/
theorem exists_toDigits_eq_cons {n : Nat} (hn : n ≠ 0) :
    ∃ c cs, Nat.toDigits 10 n = c :: cs ∧ c ≠ '0' := by
  induction n using Nat.strongRecOn with
  | ind n ih =>
    by_cases hlt : n < 10
    · have hdigit : ∀ d < 10, d ≠ 0 → Nat.digitChar d ≠ '0' := by decide
      exact ⟨_, [], Nat.toDigits_of_lt_base hlt, hdigit n hlt hn⟩
    · obtain ⟨c, cs, hcs, hc⟩ := ih (n / 10) (by omega) (by omega)
      rw [Nat.toDigits_of_base_le (by decide) (by omega), hcs]
      exact ⟨c, _, rfl, hc⟩

/-- **Digits are read whole** before a rest that starts with none. -/
theorem readDigits_append {digits rest : List Char} (hd : ∀ c ∈ digits, c.isDigit = true)
    (hr : Stops Char.isDigit rest) : readDigits (digits ++ rest) = (digits, rest) := by
  rw [readDigits, Text.takeWhile_append_of_stops hd hr, Text.dropWhile_append_of_stops hd hr]

/-- The digits of a number are read as a whole part: there is no zero before another digit. -/
theorem readWhole_toDigits (n : Nat) {rest : List Char} (hr : Stops Char.isDigit rest) :
    readWhole (Nat.toDigits 10 n ++ rest) = some (Nat.toDigits 10 n, rest) := by
  by_cases hn : n = 0
  · subst hn
    cases rest with
    | nil => rfl
    | cons c rest => simp [readWhole, stops_cons.mp hr]
  · obtain ⟨c, cs, hcs, hc⟩ := exists_toDigits_eq_cons hn
    have hdigits : ∀ x ∈ c :: cs, x.isDigit = true := hcs ▸ isDigit_of_mem_toDigits
    rw [hcs, List.cons_append, readWhole, if_pos (hdigits c (by simp)), ← List.cons_append,
      readDigits_append hdigits hr]
    exact hc

/-- What does not go on with a numeral has neither a fraction nor an exponent. -/
theorem readFraction_of_stops {rest : List Char} (hr : Stops goesOn rest) :
    readFraction rest = some ([], rest) := by
  cases rest with
  | nil => rfl
  | cons c rest =>
    have hc : c ≠ '.' := fun he => absurd (stops_cons.mp hr) (by simp [he, goesOn])
    rw [readFraction]
    exact fun _ he => hc (List.cons.inj he).1

/-- Where no numeral goes on there is no exponent. -/
theorem readExponent_of_stops {rest : List Char} (hr : Stops goesOn rest) :
    readExponent rest = some (none, rest) := by
  cases rest with
  | nil => rfl
  | cons c rest =>
    have hc : ¬ (c = 'e' ∨ c = 'E') := by
      rintro (rfl | rfl)
      · exact absurd (stops_cons.mp hr) (by decide)
      · exact absurd (stops_cons.mp hr) (by decide)
    unfold readExponent
    exact if_neg hc

/-- **The digits of a number are read as one numeral**, before a rest that does not go on with
it. -/
theorem read_toDigits (n : Nat) {rest : List Char} (hr : Stops goesOn rest) :
    read (Nat.toDigits 10 n ++ rest) = some (ofNat n, rest) := by
  have hdigit : Stops Char.isDigit rest := fun c hc => by
    have hgoes := hr c hc
    simp only [goesOn, Bool.or_eq_false_iff] at hgoes
    exact hgoes.1.1.1
  have hsign : ∀ cs, Nat.toDigits 10 n ++ rest ≠ '-' :: cs := by
    intro cs he
    obtain ⟨c, ds, hds⟩ := List.exists_cons_of_ne_nil (Nat.toDigits_ne_nil (n := n) (b := 10))
    have hc : c.isDigit = true := isDigit_of_mem_toDigits c (by rw [hds]; simp)
    rw [hds] at he
    rw [(List.cons.inj he).1] at hc
    exact absurd hc (by decide)
  unfold read
  split
  next negative cs hcs =>
  split at hcs
  · next cs' he => exact absurd he (hsign cs')
  · obtain ⟨rfl, rfl⟩ := Prod.mk.inj hcs
    rw [readWhole_toDigits n hdigit]
    simp only [Option.bind_eq_bind, Option.bind_some, readFraction_of_stops hr,
      readExponent_of_stops hr]
    rfl

/-! ## The number of a numeral -/

/-- One more digit is taken in as long as the number stays within the limit. -/
theorem absorb_concat {limit start m : Nat} {ds : List Char} {d : Char}
    (h : absorb limit start ds = (m, [])) (hd : 10 * m + digit d ≤ limit) :
    absorb limit start (ds ++ [d]) = (10 * m + digit d, []) := by
  induction ds generalizing start with
  | nil =>
    obtain ⟨rfl, -⟩ := Prod.mk.inj h
    exact if_pos hd
  | cons c ds ih =>
    by_cases hc : 10 * start + digit c ≤ limit
    · rw [absorb, if_pos hc] at h
      rw [List.cons_append, absorb, if_pos hc]
      exact ih h
    · rw [absorb, if_neg hc] at h
      exact nomatch (Prod.mk.inj h).2

/-- **The digits of a number add up to it.** -/
theorem absorb_toDigits {limit n : Nat} (h : n ≤ limit) :
    absorb limit 0 (Nat.toDigits 10 n) = (n, []) := by
  have hvalue : ∀ d < 10, digit (Nat.digitChar d) = d := by decide
  induction n using Nat.strongRecOn with
  | ind n ih =>
    by_cases hlt : n < 10
    · rw [Nat.toDigits_of_lt_base hlt, absorb, hvalue n hlt]
      simp [h, absorb]
    · have hmod : digit (Nat.digitChar (n % 10)) = n % 10 := hvalue _ (by omega)
      have hsum : 10 * (n / 10) + n % 10 = n := Nat.div_add_mod n 10
      rw [Nat.toDigits_of_base_le (by decide) (by omega),
        absorb_concat (ih (n / 10) (by omega) (by omega)) (by omega), hmod, hsum]

/-- **The numeral of a number of 64 bits stands for it.** -/
theorem integer?_ofNat {n : Nat} (h : n ≤ maxSignificand) :
    (ofNat n).integer? = some (n : Int) := by
  rw [integer?, ofNat, absorb_toDigits h]
  rfl

end Numeral

end Tablature.Json
