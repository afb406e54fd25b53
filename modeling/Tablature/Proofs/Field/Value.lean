import Tablature.Proofs.Field.Grammar
import Tablature.Proofs.Text.Split

/-!
# Proofs/Field/Value — the attributes that take no value

    nn           NOT NULL               defer           DEFERRABLE INITIALLY DEFERRED
    nn=false     refused                defer=false     DEFERRABLE INITIALLY DEFERRED

Neither the flags nor `defer` take a value, but only the flags ask whether they were given one.
`Attribute.read_flag_value` and `Attribute.read_defer` say so of one attribute: the first is always
the same fault, the second reads the key as if it stood alone.  A token is refused if one of its
attributes is, and is read the same if one of them is replaced by one that is read the same
(`Attribute.readAll_replace`); to replace an attribute in a token is to replace a piece of its text
(`split_replaced`).
-/

namespace Tablature

open Text (Stops stops_cons stops_nil)

namespace Field

/-- The texts after a token's head, each between two commas. -/
def attributeTexts (token : String) : List (List Char) :=
  (Text.split (Text.trim token.toList)).tail

/-! ## One attribute -/

namespace Attribute

/-- The key of an attribute: what is before its first `=`, or all of it. -/
def keyIn (text : List Char) : String := keyOf (text.takeWhile (· != '='))

theorem keyIn_append {key rest : List Char} (he : '=' ∉ key) (hr : Stops (· != '=') rest) :
    keyIn (key ++ rest) = keyOf key := by
  have hkey : ∀ c ∈ key, (c != '=') = true := fun c hc => by
    simpa using fun e : c = '=' => he (e ▸ hc)
  rw [keyIn, Text.takeWhile_append_of_stops hkey hr]

theorem keyIn_of_no_equals {text : List Char} (he : '=' ∉ text) : keyIn text = keyOf text := by
  have h := keyIn_append he (stops_nil _)
  rwa [List.append_nil] at h

/-- **Key and value of a text**, the blanks around it aside: there is a value if there is a `=`. -/
theorem exists_keyValue_trim {text : List Char} (hk : keyIn text ≠ "") :
    ∃ value, keyValue (Text.trim text) = (keyIn text, value) ∧ (value.isSome ↔ '=' ∈ text) := by
  by_cases he : '=' ∈ text
  · obtain ⟨key, value, rfl, hkey⟩ := List.eq_append_cons_of_mem he
    rw [keyIn_append hkey (stops_cons.mpr rfl)] at hk ⊢
    have hstart : '=' ∉ Text.trimStart key := fun h => hkey (List.dropWhile_subset _ h)
    have htrim : keyOf (Text.trimStart key) = keyOf key := by rw [keyOf, Text.trim_trimStart, keyOf]
    have hne : Text.trimStart key ≠ [] := ne_nil_of_keyOf (htrim ▸ hk)
    refine ⟨some (Text.trim (Text.trimEnd value)), ?_, by simp⟩
    rw [Text.trim_append_cons_eq key value (by decide), keyValue_append hstart, if_neg hne, htrim]
  · have htrim : '=' ∉ Text.trim text := fun h => he (Text.mem_of_mem_trim h)
    refine ⟨none, ?_, by simp [he]⟩
    rw [keyValue_of_no_equals (Text.trim_trim text) htrim, keyIn_of_no_equals he, keyOf,
      Text.trim_trim, keyOf]

/-- What is asked for is decided by the key and the value. -/
theorem exists_read_eq {text : List Char} (referenced : Bool) (hk : keyIn text ≠ "") :
    ∃ value, read referenced text = ofKeyValue referenced (keyIn text) value ∧
      (value.isSome ↔ '=' ∈ text) := by
  obtain ⟨value, hvalue, hsome⟩ := exists_keyValue_trim hk
  refine ⟨value, ?_, hsome⟩
  have hne : Text.trim text ≠ [] := by
    intro hnil
    rw [hnil] at hvalue
    exact hk (Prod.mk.inj hvalue).1.symm
  simp only [read, hvalue, List.isEmpty_iff, hne, if_false]

/-- **A flag with a value is refused**, whatever the value. -/
theorem read_flag_value {text : List Char} {f : Flag} (referenced : Bool)
    (hk : keyIn text ∈ f.keys) (he : '=' ∈ text) :
    read referenced text = .error (.valueRefused (keyIn text)) := by
  have hne : keyIn text ≠ "" := fun h => by
    rw [h] at hk
    cases f <;> simp [Flag.keys] at hk
  obtain ⟨value, hread, hsome⟩ := exists_read_eq referenced hne
  rw [hread, ofKeyValue, Flag.ofKey?_eq_some_iff.mpr hk]
  simp only [hsome.mpr he, if_true]

/-- **A value after `defer` is not looked at**: the text is read as its key alone. -/
theorem read_defer {text : List Char} (referenced : Bool)
    (hk : keyIn text ∈ ["defer", "deferrable"]) :
    read referenced text = read referenced (keyIn text).toList := by
  have hne : keyIn text ≠ "" := fun h => by simp [h] at hk
  obtain ⟨value, hread, -⟩ := exists_read_eq referenced hne
  rw [hread]
  rcases List.mem_pair.mp hk with hk | hk <;> rw [hk] <;> rfl

/-! ## All attributes of a token -/

theorem exists_read_of_readAll {referenced : Bool} {texts : List (List Char)} {as : List Attribute}
    {text : List Char} (h : readAll referenced texts = .ok as) (hm : text ∈ texts) :
    ∃ a, read referenced text = .ok a := by
  induction texts generalizing as with
  | nil => simp at hm
  | cons t ts ih =>
    obtain ⟨a, ha, hrest⟩ := bind_eq_ok_iff.mp h
    obtain ⟨others, hothers, -⟩ := bind_eq_ok_iff.mp hrest
    rcases List.mem_cons.mp hm with rfl | hm
    · exact ⟨a, ha⟩
    · exact ih hothers hm

/-- Of an attribute among others only counts what it is read as. -/
theorem readAll_replace {referenced : Bool} {x y : List Char}
    (h : read referenced x = read referenced y) (before after : List (List Char)) :
    readAll referenced (before ++ x :: after) = readAll referenced (before ++ y :: after) := by
  induction before with
  | nil => simp only [List.nil_append, readAll, h]
  | cons t ts ih => simp only [List.cons_append, readAll, ih]

end Attribute

open Attribute (keyIn)

/-! ## Tokens with attributes

A token with a comma is a column, so that its pieces decide what becomes of it. -/

/-- A text with a comma is no index directive. -/
theorem ofTrimmed_of_comma {text : List Char} (h : ',' ∈ text) :
    ofTrimmed text = (do
      let column ← (readColumn (Text.Scan.top.pieces text)).mapError (.field (String.ofList text))
      checkAutoIncrement column
      return .column column) := by
  have hd : isDirective text = false := by
    rw [Bool.eq_false_iff, Ne, isDirective_iff]
    exact fun hfree => hfree.2.1 h
  cases text with
  | nil => simp at h
  | cons c rest =>
    simp only [ofTrimmed, hd, Bool.and_false, Bool.false_eq_true, if_false]

/-- An attribute is there only after a comma. -/
theorem comma_mem_of_mem_tail_split {cs text : List Char} (h : text ∈ (Text.split cs).tail) :
    ',' ∈ cs := by
  by_contra hfree
  simp [Text.split, Text.Scan.pieces_of_no_comma _ hfree] at h

/-- **A token is malformed if one of its attributes cannot be read**, on whichever column. -/
theorem exists_ofToken_eq_error {token : String} {text : List Char}
    (hm : text ∈ attributeTexts token)
    (h : ∀ referenced a, Attribute.read referenced text ≠ .ok a) :
    ∃ fault, ofToken token = .error (.field (Text.strip token) fault) := by
  have hcomma := comma_mem_of_mem_tail_split hm
  rw [ofToken, ofTrimmed_of_comma hcomma]
  cases hread : readColumn (Text.Scan.top.pieces (Text.trim token.toList)) with
  | error fault => exact ⟨fault, rfl⟩
  | ok column =>
    obtain ⟨head, -, hrest⟩ := bind_eq_ok_iff.mp hread
    obtain ⟨as, has, -⟩ := bind_eq_ok_iff.mp hrest
    obtain ⟨a, ha⟩ := Attribute.exists_read_of_readAll has hm
    exact absurd ha (h _ a)

/-! ## A token with an attribute replaced

Putting a piece of a text in another's place leaves the other pieces, if the new one leaves the scan
as that one did. -/

section Replaced

variable {t x y first p : List Char} {before after : List (List Char)}

theorem mem_of_mem_replaced (h : p ∈ first :: (before ++ y :: after)) :
    p = y ∨ p ∈ first :: (before ++ x :: after) := by
  simp only [List.mem_cons, List.mem_append] at h ⊢
  tauto

theorem mem_of_mem_dropLast_replaced (h : p ∈ (first :: (before ++ y :: after)).dropLast) :
    p = y ∨ p ∈ (first :: (before ++ x :: after)).dropLast := by
  rw [← List.cons_append, List.dropLast_append_of_ne_nil (by simp)] at h ⊢
  cases after with
  | nil => exact .inr (by simpa using h)
  | cons u us =>
    simp only [List.dropLast_cons_of_ne_nil (List.cons_ne_nil u us), List.mem_append,
      List.mem_cons] at h ⊢
    tauto

theorem intercalate_replaced (first x : List Char) (before after : List (List Char)) :
    [','].intercalate (first :: (before ++ x :: after)) =
      (first ++ Text.Scan.commaTexts before) ++ ',' :: (x ++ Text.Scan.commaTexts after) := by
  rw [Text.intercalate_comma, Text.Scan.commaTexts_append, Text.Scan.commaTexts_cons,
    List.append_assoc]

/-- The text stays trimmed if what comes in ends with no blank. -/
theorem trim_replaced (ht : Text.trim t = t)
    (hsplit : Text.split t = first :: (before ++ x :: after)) (hend : Text.trimEnd y = y) :
    Text.trim ([','].intercalate (first :: (before ++ y :: after))) =
      [','].intercalate (first :: (before ++ y :: after)) := by
  rw [← Text.intercalate_split t, hsplit, intercalate_replaced,
    Text.trim_append_cons_eq_self_iff (by decide)] at ht
  rw [intercalate_replaced, Text.trim_append_cons_eq_self_iff (by decide)]
  refine ⟨ht.1, ?_⟩
  -- the end of the text is that of the piece only if no other piece follows
  cases after with
  | nil => simpa using hend
  | cons u us =>
    have hu := ht.2
    rw [Text.Scan.commaTexts_cons, Text.trimEnd_append_cons _ _ (by decide)] at hu ⊢
    rw [(List.cons.inj (List.append_cancel_left hu)).2]

/-- **To replace a piece of a text is to replace it in the text**, if what comes in is whole and
leaves a scan at the top. -/
theorem split_replaced (hsplit : Text.split t = first :: (before ++ x :: after))
    (hy : Text.Scan.Contained y) :
    Text.split ([','].intercalate (first :: (before ++ y :: after))) =
      first :: (before ++ y :: after) := by
  refine Text.split_intercalate (by simp) (fun p hp => ?_) fun p hp => ?_
  · rcases mem_of_mem_replaced hp with rfl | hmem
    · exact Text.split_eq_singleton_iff.mpr hy.uncut
    · exact Text.split_of_mem_split (hsplit ▸ hmem)
  · rcases mem_of_mem_dropLast_replaced hp with rfl | hmem
    · exact hy.run
    · exact Text.run_of_mem_dropLast_split (hsplit ▸ hmem)

end Replaced

/-- A token that is divided says what its pieces say. -/
theorem ofToken_eq_ok_iff_readColumn {token : String} {first : List Char}
    {others : List (List Char)} (hsplit : Text.split (Text.trim token.toList) = first :: others)
    (hne : others ≠ []) {field : Field} :
    ofToken token = .ok field ↔ ∃ column, readColumn (first, others) = .ok column ∧
      checkAutoIncrement column = .ok () ∧ .column column = field := by
  obtain ⟨text, htext⟩ := List.exists_mem_of_ne_nil others hne
  have hcomma : ',' ∈ Text.trim token.toList := by
    refine comma_mem_of_mem_tail_split (?_ : text ∈ (Text.split (Text.trim token.toList)).tail)
    rwa [hsplit, List.tail_cons]
  have hpieces : Text.Scan.top.pieces (Text.trim token.toList) = (first, others) := by
    obtain ⟨hfirst, hothers⟩ := List.cons.inj hsplit
    rw [← hfirst, ← hothers]
  simp only [ofToken, ofTrimmed_of_comma hcomma, hpieces, bind_eq_ok_iff, mapError_eq_ok_iff]
  refine exists_congr fun column => and_congr_right fun _ => ⟨?_, ?_⟩
  · rintro ⟨_, hcheck, h⟩
    exact ⟨hcheck, Except.ok.inj h⟩
  · rintro ⟨hcheck, rfl⟩
    exact ⟨(), hcheck, rfl⟩

/-- **What follows the `=` of `defer` makes no difference**: the token says what it says without. -/
theorem ofToken_dropped_value {token : String} {first text : List Char}
    {before after : List (List Char)}
    (hsplit : Text.split (Text.trim token.toList) = first :: (before ++ text :: after))
    (hk : keyIn text ∈ ["defer", "deferrable"]) (field : Field) :
    ofToken token = .ok field ↔
      ofToken (String.ofList ([','].intercalate
        (first :: (before ++ (keyIn text).toList :: after)))) = .ok field := by
  have hy : Text.Scan.Contained (keyIn text).toList ∧
      Text.trimEnd (keyIn text).toList = (keyIn text).toList := by
    rcases List.mem_pair.mp hk with hk | hk <;> rw [hk] <;>
      exact ⟨⟨by decide, by decide⟩, by decide⟩
  have hsplit' := split_replaced hsplit hy.1
  rw [← trim_replaced (Text.trim_trim _) hsplit hy.2,
    ← String.toList_ofList (l := [','].intercalate _)] at hsplit'
  rw [ofToken_eq_ok_iff_readColumn hsplit (by simp), ofToken_eq_ok_iff_readColumn hsplit' (by simp)]
  simp only [readColumn, Attribute.readAll_replace (Attribute.read_defer _ hk)]

/-! ## All keys that take no value -/

/-- **A flag with a value is refused, a value of `defer` is not looked at.** A token that gives a
flag a value is malformed, whatever the value and wherever it stands, so no column comes from one;
with the value of a `defer` dropped, key and all other texts kept, a token says the same. -/
theorem valueless_keys (token : String) :
    (∀ text ∈ attributeTexts token, ∀ f : Flag, keyIn text ∈ f.keys → '=' ∈ text →
      ∃ fault, ofToken token = .error (.field (Text.strip token) fault)) ∧
    (∀ c, ofToken token = .ok (.column c) → ∀ text ∈ attributeTexts token, ∀ f : Flag,
      keyIn text ∈ f.keys → '=' ∉ text) ∧
    ∀ first before text after,
      Text.split (Text.trim token.toList) = first :: (before ++ text :: after) →
      keyIn text ∈ ["defer", "deferrable"] → ∀ field, ofToken token = .ok field ↔
        ofToken (String.ofList ([','].intercalate
          (first :: (before ++ (keyIn text).toList :: after)))) = .ok field := by
  have hflag : ∀ text ∈ attributeTexts token, ∀ f : Flag, keyIn text ∈ f.keys → '=' ∈ text →
      ∃ fault, ofToken token = .error (.field (Text.strip token) fault) := by
    intro text hm f hk he
    refine exists_ofToken_eq_error hm fun referenced a ha => ?_
    rw [Attribute.read_flag_value referenced hk he] at ha
    exact nomatch ha
  refine ⟨hflag, fun c hc text hm f hk he => ?_,
    fun first before text after hsplit hk => ofToken_dropped_value hsplit hk⟩
  obtain ⟨fault, hfault⟩ := hflag text hm f hk he
  exact nomatch hc.symm.trans hfault

/-- A column whose `NOT NULL` is given a value, the column without it, and a reference that is
deferred although its `defer` says `false`. -/
theorem valueless_keys_false :
    (∃ fault, ofToken "a:int, NN = false ,u" = .error (.field "a:int, NN = false ,u" fault)) ∧
    (∃ c, ofToken "a:int, NN ,u" = .ok (.column c) ∧ keyIn " NN ".toList ∈ Flag.notNull.keys ∧
      '=' ∉ " NN ".toList) ∧
    ofToken "a->t,u, Defer = false" = .ok (.column {
      name := "a", storage := .integer, constraints := { unique := true },
      reference := some { table := "t", column := "id", deferred := true } }) := by
  have hstrip : Text.strip "a:int, NN = false ,u" = "a:int, NN = false ,u" := by decide
  let nonNull : Column :=
    { name := "a", storage := .integer, constraints := { notNull := true, unique := true } }
  have hnonNull : ofToken "a:int, NN ,u" = .ok (.column nonNull) := by decide
  refine ⟨?_, ⟨nonNull, hnonNull, by decide, ?_⟩, ?_⟩
  · have h := (valueless_keys "a:int, NN = false ,u").1 " NN = false ".toList (by decide) .notNull
      (by decide) (by decide)
    rwa [hstrip] at h
  · exact (valueless_keys "a:int, NN ,u").2.1 _ hnonNull _ (by decide) .notNull (by decide)
  · refine ((valueless_keys "a->t,u, Defer = false").2.2 "a->t".toList ["u".toList]
      " Defer = false".toList [] (by decide) (by decide) _).mpr ?_
    decide

end Field

end Tablature
