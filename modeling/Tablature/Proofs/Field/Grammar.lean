import Tablature.Proofs.Field.Attribute
import Tablature.Proofs.Field.Head

/-!
# Proofs/Field/Grammar — field tokens are read exactly as their grammar says

    token := "^" identifier | head ("," attribute)*

`ColumnText` puts the grammars of heads and attributes together, with the two conditions on a
column as a whole: attributes of a reference need one, and an automatic key is an integer primary
key.  `ofToken_eq_ok_iff` is the equivalence, for index directives and for columns; it also says
which column a token is, because `Denotes` leaves no part of it open.
-/

namespace Tablature.Field

open Attribute (AttributeText)

/-- The trimmed texts of columns. They are divided at the commas outside quotes and parentheses:
first the head, then the attributes, each read without the blanks around it. -/
structure ColumnText (text : List Char) (c : Column) : Prop where
  parts : ∃ first others head attributes,
    Text.split text = first :: others ∧ HeadText first head ∧
      List.Forall₂ (fun t a => AttributeText head.reference.isSome (Text.trim t) a)
        others attributes ∧
      Denotes head attributes c
  autoIncrement : c.constraints.autoIncrement = true →
    c.constraints.primaryKey = true ∧ c.storage = .integer

/-- The trimmed texts of index directives. -/
structure DirectiveText (text : List Char) (column : String) : Prop where
  shape : text = '^' :: column.toList
  plain : ':' ∉ text ∧ ',' ∉ text ∧ '>' ∉ text
  column : isIdentifier column.toList

/-! ## Columns -/

/-- A definition starts with the first character of a name. -/
theorem exists_nameStart_of_definitionText {d : Definition} {text : List Char}
    (h : DefinitionText d text) : ∃ c cs, text = c :: cs ∧ isNameStart c := by
  cases h with
  | bare hn =>
    obtain ⟨c, cs, rfl, hc⟩ := exists_cons_of_identifier hn
    exact ⟨c, _, rfl, hc⟩
  | typed hn ht =>
    obtain ⟨c, cs, rfl, hc⟩ := exists_cons_of_identifier hn
    exact ⟨c, _, rfl, hc⟩

/-- A head starts as an identifier does. -/
theorem exists_nameStart_of_headText {text : List Char} {head : Head} (h : HeadText text head) :
    ∃ c cs, text = c :: cs ∧ isNameStart c := by
  cases h with
  | untyped _ hd => exact exists_nameStart_of_definitionText hd
  | typed _ hd => exact exists_nameStart_of_definitionText hd
  | inline _ hd => exact exists_nameStart_of_definitionText hd
  | arrow ha hd =>
    obtain ⟨c, cs, rfl, hc⟩ := exists_nameStart_of_definitionText hd
    cases ha with
    | long => exact ⟨c, _, rfl, hc⟩
    | short => exact ⟨c, _, rfl, hc⟩

/-- So a column's text is not empty and starts with no `^`. -/
theorem ColumnText.exists_cons {text : List Char} {c : Column} (h : ColumnText text c) :
    ∃ x rest, text = x :: rest ∧ x ≠ '^' := by
  obtain ⟨first, others, head, as, hsplit, hhead, -⟩ := h.parts
  obtain ⟨x, xs, rfl, hx⟩ := exists_nameStart_of_headText hhead
  cases text with
  | nil => simp [Text.split, Text.Scan.pieces] at hsplit
  | cons y rest =>
    have hxy : y = x := by
      simp only [Text.split, Text.Scan.pieces, List.cons.injEq] at hsplit
      split at hsplit
      · simp at hsplit
      · exact (List.cons.inj hsplit.1).1
    refine ⟨y, rest, rfl, ?_⟩
    rintro rfl
    rw [← hxy] at hx
    exact absurd hx (by decide)

/-- A column may count up if it is an integer and the primary key. -/
theorem checkAutoIncrement_eq_ok_iff {c : Column} :
    checkAutoIncrement c = .ok () ↔
      (c.constraints.autoIncrement = true →
        c.constraints.primaryKey = true ∧ c.storage = .integer) := by
  have hint : c.storage.isInteger = true ↔ c.storage = .integer := by
    cases c.storage <;> simp [Storage.isInteger]
  unfold checkAutoIncrement
  rw [← hint]
  cases c.constraints.autoIncrement <;> cases c.constraints.primaryKey <;>
    cases c.storage.isInteger <;> simp

/-- **A divided token is read as a column exactly when its head and attributes are.** -/
theorem readColumn_eq_ok_iff {text : List Char} {c : Column} :
    readColumn (Text.Scan.top.pieces text) = .ok c ↔
      ∃ first others head attributes,
        Text.split text = first :: others ∧ HeadText first head ∧
          List.Forall₂ (fun t a => AttributeText head.reference.isSome (Text.trim t) a)
            others attributes ∧
          Denotes head attributes c := by
  rw [readColumn, bind_eq_ok_iff]
  constructor
  · rintro ⟨head, hhead, h⟩
    obtain ⟨as, has, h⟩ := bind_eq_ok_iff.mp h
    exact ⟨_, _, head, as, rfl, readHead_eq_ok_iff.mp hhead, Attribute.readAll_eq_ok_iff.mp has,
      denotes_iff.mpr (Except.ok.inj h).symm⟩
  · rintro ⟨first, others, head, as, hsplit, hhead, has, hc⟩
    obtain ⟨rfl, rfl⟩ := List.cons.inj hsplit
    refine ⟨head, readHead_eq_ok_iff.mpr hhead, bind_eq_ok_iff.mpr ⟨as, ?_, ?_⟩⟩
    · exact Attribute.readAll_eq_ok_iff.mpr has
    · rw [denotes_iff.mp hc]
      rfl

/-! ## Tokens -/

/-- What begins like a directive is one if it has no colon, comma or arrow. -/
theorem isDirective_iff {text : List Char} :
    isDirective text = true ↔ ':' ∉ text ∧ ',' ∉ text ∧ '>' ∉ text := by
  simp only [isDirective, List.all_eq_true, Bool.not_eq_true', Bool.or_eq_false_iff,
    beq_eq_false_iff_ne]
  constructor
  · intro h
    exact ⟨fun hc => (h _ hc).1.1 rfl, fun hc => (h _ hc).1.2 rfl, fun hc => (h _ hc).2 rfl⟩
  · rintro ⟨h₁, h₂, h₃⟩ c hc
    exact ⟨⟨fun e => h₁ (e ▸ hc), fun e => h₂ (e ▸ hc)⟩, fun e => h₃ (e ▸ hc)⟩

/-- A token that is an index directive by its form: what follows the `^` is the column. -/
theorem ofTrimmed_of_directive {rest : List Char} (hd : isDirective ('^' :: rest) = true)
    {field : Field} :
    ofTrimmed ('^' :: rest) = .ok field ↔
      isIdentifier rest ∧ field = .indexOn (String.ofList rest) := by
  have hcond : (('^' : Char) == '^' && isDirective ('^' :: rest)) = true := by rw [hd]; rfl
  simp only [ofTrimmed, hcond, if_true, bind_eq_ok_iff, mapError_eq_ok_iff, complete_eq_ok_iff]
  constructor
  · rintro ⟨name, hname, h⟩
    have hrest := append_of_readIdentifier hname
    rw [List.append_nil] at hrest
    exact ⟨hrest ▸ isIdentifier_of_readIdentifier hname, hrest ▸ (Except.ok.inj h).symm⟩
  · rintro ⟨hid, rfl⟩
    have := readIdentifier_append hid (Text.stops_nil isNameChar)
    rw [List.append_nil] at this
    exact ⟨rest, this, rfl⟩

/-- Any other token is a column, if it is anything. -/
theorem ofTrimmed_of_not_directive {c : Char} {rest : List Char}
    (hd : (c == '^' && isDirective (c :: rest)) = false) {field : Field} :
    ofTrimmed (c :: rest) = .ok field ↔
      ∃ column, ColumnText (c :: rest) column ∧ field = .column column := by
  simp only [ofTrimmed, hd, Bool.false_eq_true, if_false, bind_eq_ok_iff, mapError_eq_ok_iff,
    readColumn_eq_ok_iff]
  constructor
  · rintro ⟨column, hparts, u, hcheck, h⟩
    exact ⟨column, ⟨hparts, checkAutoIncrement_eq_ok_iff.mp hcheck⟩, (Except.ok.inj h).symm⟩
  · rintro ⟨column, hcolumn, rfl⟩
    exact ⟨column, hcolumn.parts, (), checkAutoIncrement_eq_ok_iff.mpr hcolumn.autoIncrement, rfl⟩

/-- It is malformed exactly if its pieces are read as no column: what is asked of a column as a
whole is no matter of its text. -/
theorem exists_ofTrimmed_eq_field_iff {c : Char} {rest : List Char}
    (hd : (c == '^' && isDirective (c :: rest)) = false) :
    (∃ text fault, ofTrimmed (c :: rest) = .error (.field text fault)) ↔
      ¬ ∃ column, readColumn (Text.Scan.top.pieces (c :: rest)) = .ok column := by
  simp only [ofTrimmed, hd, Bool.false_eq_true, if_false, bind_eq_error_iff, mapError_eq_ok_iff,
    mapError_eq_error_iff]
  constructor
  · rintro ⟨text, fault, ⟨e, he, -⟩ | ⟨column, hcolumn, hcheck | ⟨_, -, h⟩⟩⟩ ⟨column', hcolumn'⟩
    · exact nomatch he.symm.trans hcolumn'
    · unfold checkAutoIncrement at hcheck
      split at hcheck <;> exact nomatch hcheck
    · exact nomatch h
  · intro h
    cases hread : readColumn (Text.Scan.top.pieces (c :: rest)) with
    | error fault => exact ⟨_, fault, .inl ⟨fault, rfl, rfl⟩⟩
    | ok column => exact absurd ⟨column, hread⟩ h

/-- **A token is read as a column exactly when the grammar says so.** -/
theorem ofTrimmed_eq_column_iff {text : List Char} {column : Column} :
    ofTrimmed text = .ok (.column column) ↔ ColumnText text column := by
  constructor
  · intro h
    cases text with
    | nil => exact nomatch h
    | cons c rest =>
      cases hd : c == '^' && isDirective (c :: rest) with
      | true =>
        simp only [Bool.and_eq_true, beq_iff_eq] at hd
        obtain ⟨rfl, hd⟩ := hd
        exact nomatch ((ofTrimmed_of_directive hd).mp h).2
      | false =>
        obtain ⟨column', hcolumn, he⟩ := (ofTrimmed_of_not_directive hd).mp h
        exact Field.column.inj he ▸ hcolumn
  · intro h
    obtain ⟨c, rest, rfl, hc⟩ := h.exists_cons
    have hd : (c == '^' && isDirective (c :: rest)) = false := by simp [hc]
    exact (ofTrimmed_of_not_directive hd).mpr ⟨column, h, rfl⟩

/-- **A token is read as a directive exactly when the grammar says so.** -/
theorem ofTrimmed_eq_indexOn_iff {text : List Char} {column : String} :
    ofTrimmed text = .ok (.indexOn column) ↔ DirectiveText text column := by
  constructor
  · intro h
    cases text with
    | nil => exact nomatch h
    | cons c rest =>
      cases hd : c == '^' && isDirective (c :: rest) with
      | true =>
        simp only [Bool.and_eq_true, beq_iff_eq] at hd
        obtain ⟨rfl, hd⟩ := hd
        obtain ⟨hid, he⟩ := (ofTrimmed_of_directive hd).mp h
        obtain rfl := Field.indexOn.inj he
        exact ⟨by simp, isDirective_iff.mp hd, by simpa using hid⟩
      | false =>
        obtain ⟨column', -, he⟩ := (ofTrimmed_of_not_directive hd).mp h
        exact nomatch he
  · rintro ⟨rfl, hplain, hid⟩
    exact (ofTrimmed_of_directive (isDirective_iff.mpr hplain)).mpr ⟨hid, by simp⟩

/-- **Field tokens are read exactly as their grammar says.** A token is an index directive if,
trimmed, it is `^` and an identifier, and a column if it is the text of one; every other token is
refused. -/
theorem ofToken_eq_ok_iff (token : String) (field : Field) :
    ofToken token = .ok field ↔
      match field with
      | .indexOn name => DirectiveText (Text.trim token.toList) name
      | .column c => ColumnText (Text.trim token.toList) c := by
  cases field with
  | indexOn name => exact ofTrimmed_eq_indexOn_iff
  | column c => exact ofTrimmed_eq_column_iff

end Tablature.Field
