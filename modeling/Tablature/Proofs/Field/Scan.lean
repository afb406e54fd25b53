import Tablature.Proofs.Field.Grammar
import Tablature.Proofs.Storage

/-!
# Proofs/Field/Scan — what a scan sees of a token

    price : numeric(10,'a,b') ! -> users(id) , default = f(x)
            ^^^^^^^^^^^^^^^^^                            ^^^^

Names, flags and targets are inert; the free texts are the parenthesis of a type and the expression
of a default.  So a head leaves a scan where its type does (`DefinitionText.run_eq`), which is where
the class in the statement does (`HeadText.run_eq`): letter case is nothing that a scan sees.  And
the attribute that gives a default leaves it where the expression does
(`AttributeText.run_expr`).
-/

namespace Tablature

open Text (Scan)
open Text.Scan (Inert inert_of_plain inert_of_all inert_parenthesis isPlain top)

/-! ## Letter case -/

namespace Text.Scan

/-- A change of characters that only touches plain ones is not seen. -/
theorem run_map {g : Char → Char} (hg : ∀ c, g c = c ∨ isPlain (g c) ∧ isPlain c) {s : Scan}
    (hs : s.Sound) (cs : List Char) : s.run (cs.map g) = s.run cs := by
  induction cs generalizing s with
  | nil => rfl
  | cons c cs ih =>
    have hstep : s.step (g c) = s.step c := by
      rcases hg c with hc | ⟨hc, hc'⟩
      · rw [hc]
      · have hstill : ∀ x, isPlain x → s.run [x] = s := fun x hx =>
          still_of_plain (by simpa using hx) s hs
        exact (hstill _ hc).trans (hstill _ hc').symm
    rw [List.map_cons, run_cons, run_cons, hstep, ih (hs.step c)]

/-- Upper case changes nothing for a scan. -/
theorem run_upper {s : Scan} (hs : s.Sound) (cs : List Char) : s.run (upper cs) = s.run cs := by
  have hletters : (lowerLetters.all fun c => isPlain c.toUpper && isPlain c) = true := by decide
  refine run_map (fun c => (toUpper_eq_self_or_mem c).imp_right fun hc => ?_) hs cs
  simpa using List.all_eq_true.mp hletters c hc

/-- Nor does lower case. -/
theorem run_lower {s : Scan} (hs : s.Sound) (cs : List Char) : s.run (lower cs) = s.run cs := by
  have hletters : (upperLetters.all fun c => isPlain c.toLower && isPlain c) = true := by decide
  refine run_map (fun c => (toLower_eq_self_or_mem c).imp_right fun hc => ?_) hs cs
  simpa using List.all_eq_true.mp hletters c hc

end Text.Scan

namespace Field

/-! ## Names, flags and targets -/

/-- What names are made of neither quotes nor brackets nor divides. -/
theorem plain_of_isNameChar {c : Char} (h : isNameChar c) : isPlain c ∧ c ≠ ',' := by
  have hne : ∀ x, isNameChar x = false → c ≠ x := by
    rintro x hx rfl
    simp [h] at hx
  exact ⟨Scan.isPlain_iff.mpr ⟨hne _ (by decide), hne _ (by decide), hne _ (by decide),
    hne _ (by decide)⟩, hne _ (by decide)⟩

theorem inert_of_nameChars {cs : List Char} (h : ∀ c ∈ cs, isNameChar c) : Inert cs :=
  inert_of_plain fun c hc => plain_of_isNameChar (h c hc)

theorem inert_of_identifier {name : List Char} (h : isIdentifier name) : Inert name :=
  inert_of_nameChars (isNameChar_of_mem_identifier h)

theorem inert_symbols (flags : List Flag) : Inert (symbols flags) := by
  refine inert_of_plain fun c hc => ?_
  obtain ⟨f, -, rfl⟩ := List.mem_map.mp hc
  cases f <;> decide

/-- **Targets are inert**: what their parenthesis opens it closes. -/
theorem inert_of_targetText {names : List Char × Option (List Char)} {target : List Char}
    (h : TargetText names target) : Inert target := by
  cases h with
  | table ht => exact inert_of_identifier ht
  | column ht hc =>
    refine (inert_of_identifier ht).append (inert_parenthesis fun c hmem => ?_)
    exact plain_of_isNameChar (isNameChar_of_mem_identifier hc c hmem)

/-- The text of an inline reference is inert. -/
theorem inert_of_inlineText {names : List Char × Option (List Char)} {text : List Char}
    (h : InlineText names text) : Inert text := by
  cases h with
  | table ht => exact inert_of_identifier ht
  | @column table column ht hc =>
    have hdot : Inert ['.'] := inert_of_all (by decide)
    simpa using (inert_of_identifier ht).append (hdot.append (inert_of_identifier hc))

/-! ## Types

A type may leave a quote open in its parenthesis, but no comma in it is at the top. -/

/-- **No comma cuts a type**: those in its parenthesis are under it. -/
theorem TypeText.uncut {type : List Char} (h : TypeText type) : (top.pieces type).2 = [] := by
  cases h with
  | word hw => exact (inert_of_nameChars hw.2).uncut _
  | @applied word body hw hb =>
    have hword := inert_of_nameChars hw.2
    have hshape : word ++ '(' :: (body ++ [')']) = word ++ (('(' :: body) ++ [')']) := by simp
    have hcut : top.cuts '(' = false := by decide
    have hopen : 0 < (top.step '(').depth := by decide
    rw [hshape]
    refine hword.uncut_append Scan.sound_top ?_
    refine Scan.uncut_append ?_ (by rw [Scan.pieces_of_no_comma _ (by decide)])
    simpa [Scan.pieces, hcut] using (Scan.uncut_of_unclosed hopen hb).1

/-- **The class of a type leaves a scan where the type does.** -/
theorem run_sql_ofAlias (type : List Char) :
    top.run (Storage.ofAlias type).sql.toList = top.run type := by
  have halias : ∀ entry ∈ Storage.aliases,
      top.run entry.1 = top ∧ top.run entry.2.sql.toList = top := by decide
  cases hlook : Storage.aliases.lookup (Text.lower (Text.trim type)) with
  | some storage =>
    obtain ⟨hword, hsql⟩ := halias (_, storage) (Storage.mem_aliases_of_lookup hlook)
    rw [Scan.run_lower Scan.sound_top, Scan.run_trim Scan.sound_top] at hword
    rw [Storage.ofAlias_of_lookup_eq_some hlook, hsql, hword]
  | none =>
    rw [Storage.ofAlias_of_lookup_eq_none hlook, Storage.sql, String.toList_ofList,
      Scan.run_upper Scan.sound_top, Scan.run_trim Scan.sound_top]

/-- A reference in place of a type leaves a scan where it was. -/
theorem InlineType.run_eq {type body : List Char} {names : List Char × Option (List Char)}
    (h : InlineType type body) (hn : InlineText names (Text.trim body)) : top.run type = top := by
  obtain ⟨f, k, rfl, hf, hk, -⟩ := h
  have hletters : Inert [f, k] := inert_of_nameChars (by
    simpa using ⟨isNameChar_of_toLower (hf ▸ by decide), isNameChar_of_toLower (hk ▸ by decide)⟩)
  have hopen : (⟨none, 1⟩ : Scan).Sound := nofun
  have hbody : (⟨none, 1⟩ : Scan).run body = ⟨none, 1⟩ := by
    rw [← Scan.run_trim hopen, (inert_of_inlineText hn).still _ hopen]
  calc top.run ([f, k] ++ '(' :: (body ++ [')']))
      = ((⟨none, 1⟩ : Scan).run body).run [')'] := by
        rw [hletters.run_append Scan.sound_top, Scan.run_cons, Scan.run_append]
        rfl
    _ = top := by
        rw [hbody]
        rfl

/-! ## Definitions and heads

Around its type a definition is inert, so that a scan sees the type alone. -/

/-- A definition is its type, if it has one, between inert texts. -/
theorem DefinitionText.exists_around {d : Definition} {text : List Char}
    (h : DefinitionText d text) :
    ∃ front back, Inert front ∧ Inert back ∧ text = front ++ (d.typeName.getD [] ++ back) := by
  cases h with
  | @bare name flags hn =>
    exact ⟨_, [], (inert_of_identifier hn).append (inert_symbols flags), inert_of_all rfl,
      by simp⟩
  | @typed name type flags typeFlags hn ht =>
    have hcolon : Inert [':'] := inert_of_all (by decide)
    exact ⟨_, _, ((inert_of_identifier hn).append (inert_symbols flags)).append hcolon,
      inert_symbols typeFlags, by simp⟩

/-- **Of a definition a scan sees the type.** -/
theorem DefinitionText.run_eq {d : Definition} {text : List Char} (h : DefinitionText d text)
    {s : Scan} (hs : s.Sound) : s.run text = s.run (d.typeName.getD []) := by
  obtain ⟨front, back, hfront, hback, rfl⟩ := h.exists_around
  rw [hfront.run_append hs, Scan.run_append, hback.still _ (hs.run _)]

/-- **No comma cuts a definition.** -/
theorem DefinitionText.uncut {d : Definition} {text : List Char} (h : DefinitionText d text) :
    (top.pieces text).2 = [] := by
  have htype : (top.pieces (d.typeName.getD [])).2 = [] := by
    cases h with
    | bare => rfl
    | typed _ ht => exact ht.uncut
  obtain ⟨front, back, hfront, hback, rfl⟩ := h.exists_around
  exact hfront.uncut_append Scan.sound_top (Scan.uncut_append htype (hback.uncut _))

/-- An arrow and a target leave a scan where what is before them does. -/
theorem ArrowCut.run_eq {text left right : List Char} {names : List Char × Option (List Char)}
    (h : ArrowCut text left right) (hn : TargetText names (Text.trim right)) :
    top.run text = top.run left := by
  have hright : ∀ s : Scan, s.Sound → s.run right = s := fun s hs => by
    rw [← Scan.run_trim hs, (inert_of_targetText hn).still s hs]
  have hsound := Scan.sound_top.run left
  have harrow : ∀ arrow : List Char, Inert arrow →
      top.run (left ++ (arrow ++ right)) = top.run left := fun arrow hi => by
    rw [Scan.run_append, Scan.run_append, hi.still _ hsound, hright _ hsound]
  cases h with
  | long => exact harrow ['-', '>'] (inert_of_all (by decide))
  | short => exact harrow ['>'] (inert_of_all (by decide))

/-- **A head leaves a scan where its class does**, and without a class where it was. -/
theorem HeadText.run_eq {text : List Char} {head : Head} (h : HeadText text head) :
    top.run text = top.run ((head.storage.map (·.sql.toList)).getD []) := by
  cases h with
  | untyped _ hd ht => rw [hd.run_eq Scan.sound_top, ht]; rfl
  | typed _ hd ht =>
    rw [hd.run_eq Scan.sound_top, ht]
    exact (run_sql_ofAlias _).symm
  | inline _ hd ht hi hn =>
    rw [hd.run_eq Scan.sound_top, ht]
    exact hi.run_eq hn
  | @arrow left right d _ ha hd _ hn =>
    have hinteger : top.run Storage.integer.sql.toList = top := by decide
    rw [ha.run_eq hn, hd.run_eq Scan.sound_top]
    cases d.typeName with
    | none => exact hinteger.symm
    | some type => exact (run_sql_ofAlias type).symm

/-! ## Defaults -/

namespace Attribute

/-- The key of a default leaves a scan where it was. -/
theorem run_key_default {key : List Char} (h : key = [] ∨ keyOf key ∈ ["default", "def"]) :
    top.run key = top := by
  rcases h with rfl | h
  · rfl
  · have hkey : top.run (keyOf key).toList = top.run key := by
      rw [keyOf, String.toList_ofList, Scan.run_lower Scan.sound_top, Scan.run_trim Scan.sound_top]
    rw [← hkey]
    rcases List.mem_pair.mp h with h | h <;> rw [h] <;> decide

/-- **Of a default a scan sees the expression**: it leaves the scan where the attribute does, and
has no cut if the attribute has none. -/
theorem AttributeText.run_expr {referenced : Bool} {text : List Char} {e : String}
    (h : AttributeText referenced (Text.trim text) (.defaultTo e)) :
    top.run e.toList = top.run text ∧
      ((top.pieces text).2 = [] → (top.pieces e.toList).2 = []) := by
  generalize htext : Text.trim text = trimmed at h
  cases h with
  | @defaultTo key value he hk hv =>
    have hkey : top.run (key ++ ['=']) = top := by
      rw [Scan.run_append, run_key_default hk]
      decide
    rw [List.append_cons] at htext
    rw [String.toList_ofList, Scan.run_trim Scan.sound_top]
    refine ⟨?_, fun huncut => ?_⟩
    · rw [← Scan.run_trim Scan.sound_top text, htext, Scan.run_append, hkey]
    · have hvalue := Scan.uncut_right_of_append (htext ▸ Scan.uncut_trim huncut)
      rw [hkey] at hvalue
      exact Scan.uncut_trim hvalue

end Attribute

end Field

end Tablature
