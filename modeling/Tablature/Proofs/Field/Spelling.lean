import Tablature.Proofs.Field.Choices
import Tablature.Proofs.Table

/-!
# Proofs/Field/Spelling — how a token is spelled does not change what it says

A spelling is divided at the commas between its parts and nowhere else, because each part closes
what it opens (`contained_headText`).  So it is read as the head and the attributes that were
chosen, and assembled to one column, `Spelling.column` (`ofToken_token`); and spellings that come to
the same (`Spelling.Agrees`) come to one column.
-/

namespace Tablature.Field

open Attribute (AttributeText)
open Text.Scan (Contained)

/-! ## The parts of a head

Outside the parentheses of a type and of a target, a head is made of characters that neither quote,
nor bracket, nor divide, nor stand in an arrow. -/

/-- A character that a head has outside parentheses and arrows. -/
def isHeadChar (c : Char) : Bool :=
  isNameChar c || isSymbol c || Text.isBlank c || c == ':' || c == '.'

/-- The characters of heads are plain. -/
theorem isPlain_of_isHeadChar {c : Char} (h : isHeadChar c) : Text.Scan.isPlain c := by
  refine Text.Scan.isPlain_iff.mpr ⟨?_, ?_, ?_, ?_⟩ <;> rintro rfl <;> exact absurd h (by decide)

/-- Names are made of them. -/
theorem isHeadChar_of_mem_nameChars {cs : List Char} (h : ∀ c ∈ cs, isNameChar c) :
    ∀ c ∈ cs, isHeadChar c :=
  fun c hc => by simp [isHeadChar, h c hc]

/-- So are blanks. -/
theorem isHeadChar_of_mem_blanks {cs : List Char} (h : ∀ c ∈ cs, Text.isBlank c) :
    ∀ c ∈ cs, isHeadChar c :=
  fun c hc => by simp [isHeadChar, h c hc]

/-- So are flags. -/
theorem isHeadChar_of_mem_symbols {flags : List Flag} : ∀ c ∈ symbols flags, isHeadChar c := by
  intro c hc
  obtain ⟨f, -, rfl⟩ := List.mem_map.mp hc
  simp [isHeadChar, isSymbol]

/-- A text of such characters is contained. -/
theorem contained_of_isHeadChar {cs : List Char} (h : ∀ c ∈ cs, isHeadChar c) : Contained cs :=
  Text.Scan.contained_of_plain (fun c hc => isPlain_of_isHeadChar (h c hc))
    fun hmem => absurd (h _ hmem) (by decide)

theorem contained_colon : Contained [':'] :=
  contained_of_isHeadChar (by simp [isHeadChar])

/-- There is no arrow in a text of the characters of a head. -/
theorem arrow_notMem_of_isHeadChar {cs : List Char} (h : ∀ c ∈ cs, isHeadChar c) : '>' ∉ cs :=
  fun hmem => absurd (h _ hmem) (by decide)

/-- **A type is contained**, with the blanks and flags around it. -/
theorem TypePart.contained (type : TypePart) : Contained type.text := by
  obtain ⟨text, flags, isType, unquoted, notNested, -, -⟩ := type
  cases isType with
  | word hw => exact contained_of_isHeadChar (isHeadChar_of_mem_nameChars hw.2)
  | @applied word body hw hb =>
    have hopen : '(' ∉ body := by
      rw [List.count_append, List.count_cons_self, List.count_append] at notNested
      exact List.count_eq_zero.mp (by omega)
    have hplain : ∀ c ∈ body, Text.Scan.isPlain c := by
      intro c hc
      refine Text.Scan.isPlain_iff.mpr ⟨?_, ?_, ?_, ?_⟩
      · rintro rfl
        exact unquoted.1 (by simp [hc])
      · rintro rfl
        exact unquoted.2 (by simp [hc])
      · rintro rfl
        exact hopen hc
      · rintro rfl
        exact hb hc
    exact (contained_of_isHeadChar (isHeadChar_of_mem_nameChars hw.2)).append
      (Text.Scan.contained_parenthesis hplain)

/-- So is one that may be missing. -/
theorem contained_typeText (type : Option TypePart) : Contained (typeText type) := by
  cases type with
  | none => exact contained_of_isHeadChar (by simp [typeText])
  | some type =>
    exact contained_colon.append
      (type.contained.append (contained_of_isHeadChar isHeadChar_of_mem_symbols))

/-- There is no arrow in a type. -/
theorem arrow_notMem_typeText (type : Option TypePart) : '>' ∉ typeText type := by
  cases type with
  | none => simp [typeText]
  | some type =>
    have hflags : '>' ∉ symbols type.flags := arrow_notMem_of_isHeadChar isHeadChar_of_mem_symbols
    simp [typeText, type.noArrow, hflags]

/-! ## References -/

/-- The name of inline references is a word, in any letter case. -/
theorem isWord_of_lower {word : List Char} (h : Text.lower word = ['f', 'k']) : IsWord word := by
  refine ⟨?_, fun c hc => isNameChar_of_toLower ?_⟩
  · rintro rfl
    exact nomatch h
  · have hmem : c.toLower ∈ ['f', 'k'] := h ▸ List.mem_map_of_mem hc
    rcases List.mem_pair.mp hmem with he | he <;> rw [he] <;> decide

/-- In any letter case it makes an inline reference. -/
theorem inlineType_of_lower {word body : List Char} (h : Text.lower word = ['f', 'k'])
    (hb : ')' ∉ body) : InlineType (word ++ '(' :: (body ++ [')'])) body := by
  obtain ⟨f, rest, rfl, hf, hrest⟩ := List.map_eq_cons_iff.mp h
  obtain ⟨k, rest, rfl, hk, hnil⟩ := List.map_eq_cons_iff.mp hrest
  obtain rfl := List.map_eq_nil_iff.mp hnil
  exact ⟨f, k, rfl, hf, hk, hb⟩

namespace TargetPart

variable (t : TargetPart)

theorem isBlank_before : ∀ c ∈ t.before, Text.isBlank c := fun c hc => t.blank c (by simp [hc])

theorem isBlank_after : ∀ c ∈ t.after, Text.isBlank c := fun c hc => t.blank c (by simp [hc])

/-- The names without the blanks around them. -/
theorem namesText (opening : Char) (closing : List Char) :
    NamesText opening closing (t.table, t.column)
      (t.table ++ (t.column.map fun c => opening :: (c ++ closing)).getD []) := by
  cases hc : t.column with
  | none => simpa using NamesText.table t.isTable
  | some c => exact .column t.isTable (t.isColumn c hc)

/-- **The blanks around a target do not count.** -/
theorem namesText_trim {opening : Char} {closing : List Char}
    (hclosing : ∀ c ∈ closing, Text.isBlank c = false) :
    NamesText opening closing (t.table, t.column) (Text.trim (t.text opening closing)) := by
  have hnames := t.namesText opening closing
  rw [text, Text.trim_padded _ t.isBlank_before t.isBlank_after, hnames.trim_eq hclosing]
  exact hnames

/-- Inside a parenthesis. -/
theorem isHeadChar_of_mem_text : ∀ c ∈ t.text '.' [], isHeadChar c := by
  have htable := isHeadChar_of_mem_nameChars (isNameChar_of_mem_identifier t.isTable)
  intro c hc
  simp only [text, List.append_nil, List.mem_append] at hc
  rcases hc with (hc | hc | hc) | hc
  · exact isHeadChar_of_mem_blanks t.isBlank_before c hc
  · exact htable c hc
  · cases hcolumn : t.column with
    | none => simp [hcolumn] at hc
    | some column =>
      have hid := isNameChar_of_mem_identifier (t.isColumn column hcolumn)
      rw [hcolumn, Option.map_some, Option.getD_some] at hc
      rcases List.mem_cons.mp hc with rfl | hc
      · decide
      · exact isHeadChar_of_mem_nameChars hid c hc
  · exact isHeadChar_of_mem_blanks t.isBlank_after c hc

/-- After an arrow. -/
theorem contained_text : Contained (t.text '(' [')']) := by
  have htable := isHeadChar_of_mem_nameChars (isNameChar_of_mem_identifier t.isTable)
  have hcolumn : Contained ((t.column.map fun c => '(' :: (c ++ [')'])).getD []) := by
    cases hc : t.column with
    | none => exact contained_of_isHeadChar (by simp)
    | some column =>
      have hid := isNameChar_of_mem_identifier (t.isColumn column hc)
      exact Text.Scan.contained_parenthesis fun c hc =>
        isPlain_of_isHeadChar (isHeadChar_of_mem_nameChars hid c hc)
  have hbefore := contained_of_isHeadChar (isHeadChar_of_mem_blanks t.isBlank_before)
  have hafter := contained_of_isHeadChar (isHeadChar_of_mem_blanks t.isBlank_after)
  exact (hbefore.append ((contained_of_isHeadChar htable).append hcolumn)).append hafter

/-- There is no arrow in a target. -/
theorem arrow_notMem_text : '>' ∉ t.text '(' [')'] := by
  have hbefore := arrow_notMem_of_isHeadChar (isHeadChar_of_mem_blanks t.isBlank_before)
  have hafter := arrow_notMem_of_isHeadChar (isHeadChar_of_mem_blanks t.isBlank_after)
  have hid : ∀ {name : List Char}, isIdentifier name → '>' ∉ name := fun h =>
    arrow_notMem_of_isHeadChar (isHeadChar_of_mem_nameChars (isNameChar_of_mem_identifier h))
  cases hc : t.column with
  | none => simp [text, hc, hbefore, hafter, hid t.isTable]
  | some column => simp [text, hc, hbefore, hafter, hid t.isTable, hid (t.isColumn column hc)]

end TargetPart

/-! ## Heads -/

namespace Spelling

variable (s : Spelling)

/-- The part of a head before an arrow, or all of it. -/
theorem definitionText (type : Option TypePart) :
    DefinitionText ⟨s.name, type.map (·.text), s.flags ++ (type.map (·.flags)).getD []⟩
      (s.name ++ symbols s.flags ++ typeText type) := by
  cases type with
  | none => simpa [typeText] using DefinitionText.bare s.isName
  | some type => exact .typed s.isName type.isType

/-- There is no arrow in a name and its flags. -/
theorem arrow_notMem_name : '>' ∉ s.name ++ symbols s.flags := by
  have hname := isHeadChar_of_mem_nameChars (isNameChar_of_mem_identifier s.isName)
  rw [List.mem_append, not_or]
  exact ⟨arrow_notMem_of_isHeadChar hname, arrow_notMem_of_isHeadChar isHeadChar_of_mem_symbols⟩

/-- Nor is there one in a definition. -/
theorem arrow_notMem_definition (type : Option TypePart) :
    '>' ∉ s.name ++ symbols s.flags ++ typeText type := fun hmem =>
  (List.mem_append.mp hmem).elim s.arrow_notMem_name (arrow_notMem_typeText type)

/-- **Without a reference the head is a definition.** -/
theorem headText_plain (type : Option TypePart) :
    HeadText (s.name ++ symbols s.flags ++ (Form.plain type).text) (s.headWith (.plain type)) := by
  cases type with
  | none => exact .untyped (s.arrow_notMem_definition none) (s.definitionText none) rfl
  | some type =>
    exact .typed (s.arrow_notMem_definition (some type)) (s.definitionText (some type)) rfl
      type.notInline

/-- **With an inline reference the head is a definition** whose type it is. -/
theorem headText_inline {word : List Char} (isWord : Text.lower word = ['f', 'k'])
    (target : TargetPart) (flags : List Flag) :
    HeadText (s.name ++ symbols s.flags ++ (Form.inline word isWord target flags).text)
      (s.headWith (.inline word isWord target flags)) := by
  have hbody := target.isHeadChar_of_mem_text
  have hclose : ')' ∉ target.text '.' [] := fun hmem => absurd (hbody _ hmem) (by decide)
  have hword := isWord_of_lower isWord
  have harrow : '>' ∉ (Form.inline word isWord target flags).text := by
    simp [Form.text, arrow_notMem_of_isHeadChar (isHeadChar_of_mem_nameChars hword.2),
      arrow_notMem_of_isHeadChar hbody, arrow_notMem_of_isHeadChar isHeadChar_of_mem_symbols]
  have hd := @DefinitionText.typed s.name _ s.flags flags s.isName (.applied hword hclose)
  refine .inline (fun hmem => (List.mem_append.mp hmem).elim s.arrow_notMem_name harrow) hd rfl
    (inlineType_of_lower isWord hclose) ?_
  exact target.namesText_trim (by simp)

/-- **With an arrow the head is a definition and a target.** -/
theorem headText_arrow (type : Option TypePart) (long : Bool) (target : TargetPart) :
    HeadText (s.name ++ symbols s.flags ++ (Form.arrow type long target).text)
      (s.headWith (.arrow type long target)) := by
  have hcut := arrowCut_of_definitionText long (s.definitionText type)
    (s.arrow_notMem_definition type) target.arrow_notMem_text
  have hinline : ∀ t ∈ type.map (·.text), ∀ body, ¬ InlineType t body := by
    intro t ht
    obtain ⟨type, -, rfl⟩ := Option.map_eq_some_iff.mp ht
    exact type.notInline
  have htarget : TargetText (target.table, target.column) (Text.trim (target.text '(' [')'])) :=
    target.namesText_trim (List.forall_mem_singleton.mpr (by decide))
  rw [List.append_assoc] at hcut
  have hhead := HeadText.arrow hcut (s.definitionText type) hinline htarget
  cases type <;> exact hhead

/-- **A spelling is the text of its head.** -/
theorem headText_head : HeadText s.headText s.head := by
  unfold headText head
  cases s.form with
  | plain type => exact s.headText_plain type
  | inline word isWord target flags => exact s.headText_inline isWord target flags
  | arrow type long target => exact s.headText_arrow type long target

/-- **A spelling closes what it opens** before its attributes begin. -/
theorem contained_headText : Contained s.headText := by
  have hname := isHeadChar_of_mem_nameChars (isNameChar_of_mem_identifier s.isName)
  have hsymbols : ∀ flags, Contained (symbols flags) := fun flags =>
    contained_of_isHeadChar isHeadChar_of_mem_symbols
  refine ((contained_of_isHeadChar hname).append (hsymbols s.flags)).append ?_
  cases s.form with
  | plain type => exact contained_typeText type
  | inline word isWord target flags =>
    have hword := isHeadChar_of_mem_nameChars (isWord_of_lower isWord).2
    have hparenthesis := Text.Scan.contained_parenthesis fun c hc =>
      isPlain_of_isHeadChar (target.isHeadChar_of_mem_text c hc)
    exact contained_colon.append
      (((contained_of_isHeadChar hword).append hparenthesis).append (hsymbols flags))
  | arrow type long target =>
    have harrow : Contained (if long then ['-', '>'] else ['>']) := by
      cases long <;> exact ⟨by decide, by decide⟩
    exact (contained_typeText type).append (harrow.append target.contained_text)

/-! ## Tokens

Blanks around a token are dropped, those in it stand where the reader drops them, and the commas
divide it into what the choices have put together. -/

/-- The blanks around a token do not count, and of those in it only the ones at the end. -/
theorem trim_token : Text.trim s.token.toList =
    Text.trimEnd (s.headText ++ Text.Scan.commaTexts (s.attributes.map (·.text))) := by
  obtain ⟨c, cs, hcs, hc⟩ := exists_nameStart_of_headText s.headText_head
  have hbefore : ∀ c ∈ s.before, Text.isBlank c := fun c hc => s.blank c (by simp [hc])
  have hafter : ∀ c ∈ s.after, Text.isBlank c := fun c hc => s.blank c (by simp [hc])
  have hstart : Text.Stops Text.isBlank
      (s.headText ++ Text.Scan.commaTexts (s.attributes.map (·.text))) := by
    rw [hcs]
    exact Text.stops_cons.mpr (isBlank_of_isNameChar (isNameChar_of_isNameStart hc))
  rw [token, String.toList_ofList, Text.trim_padded _ hbefore hafter, Text.trim,
    Text.trimStart_of_stops hstart]

end Spelling

/-- Trimming a text at its end leaves it cut where it was. -/
theorem ArrowCut.trimEnd {text left right : List Char} (h : ArrowCut text left right) :
    ArrowCut (Text.trimEnd text) left (Text.trimEnd right) := by
  have hblank : Text.isBlank '>' = false := by decide
  cases h with
  | long hl =>
    have := Text.trimEnd_append_cons (left ++ ['-']) right hblank
    simp only [List.append_assoc, List.cons_append, List.nil_append] at this
    rw [this]
    exact .long hl
  | short ht hl =>
    obtain ⟨blanks, hblanks⟩ := Text.exists_trimEnd_append (left ++ '>' :: right)
    rw [Text.trimEnd_append_cons left right hblank] at hblanks ⊢
    exact .short (fun hi => ht (hblanks ▸ hi.trans (List.prefix_append _ blanks).isInfix)) hl

/-- Blanks at the end of a head do not count: they can only stand behind the target of an arrow. -/
theorem HeadText.trimEnd {text : List Char} {head : Head} (h : HeadText text head) :
    HeadText (Text.trimEnd text) head := by
  have hdefinition : ∀ {d : Definition}, DefinitionText d text → Text.trimEnd text = text := by
    intro d hd
    obtain ⟨a, c, rfl, hc⟩ := exists_concat_of_definitionText hd
    exact Text.trimEnd_append_cons a [] (isBlank_of_endsDefinition hc)
  cases h with
  | untyped ha hd ht =>
    rw [hdefinition hd]
    exact .untyped ha hd ht
  | typed ha hd ht hi =>
    rw [hdefinition hd]
    exact .typed ha hd ht hi
  | inline ha hd ht hi hn =>
    rw [hdefinition hd]
    exact .inline ha hd ht hi hn
  | arrow ha hd hi hn => exact .arrow ha.trimEnd hd hi (by rwa [Text.trim_trimEnd])

/-- The blanks around attributes do not count. -/
theorem Attribute.readAll_map_trim (referenced : Bool) (texts : List (List Char)) :
    readAll referenced (texts.map Text.trim) = readAll referenced texts := by
  induction texts with
  | nil => rfl
  | cons text texts ih => rw [List.map_cons, readAll, readAll, ih, read, read, Text.trim_trim]

/-- A text that starts like a name is read as a column if it can be, up to the check on counting
up. -/
theorem ofTrimmed_of_readColumn {text : List Char} {c : Column} {x : Char} {rest : List Char}
    (htext : text = x :: rest) (hx : isNameStart x)
    (h : readColumn (Text.Scan.top.pieces text) = .ok c) :
    ofTrimmed text = (checkAutoIncrement c).map fun _ => .column c := by
  subst htext
  have hd : (x == '^' && isDirective (x :: rest)) = false := by
    have : x ≠ '^' := by
      rintro rfl
      exact absurd hx (by decide)
    simp [this]
  have hbind : ∀ r : Except Error Unit,
      (do r; return Field.column c) = r.map fun _ => Field.column c := by
    intro r
    cases r <;> rfl
  simp only [ofTrimmed, hd, Bool.false_eq_true, if_false, h]
  exact hbind (checkAutoIncrement c)

namespace Spelling

variable (s : Spelling)

/-- **The attributes are read as what they ask for.** -/
theorem readAll_texts :
    Attribute.readAll s.head.reference.isSome (s.attributes.map (·.text)) = .ok s.asked := by
  rw [Attribute.readAll_eq_ok_iff, asked, List.forall₂_map_left_iff, List.forall₂_map_right_iff,
    List.forall₂_same]
  exact fun part _ => part.isAttribute

/-- **A spelling is read as the column it comes to**, if an automatic key is an integer primary key
in it. -/
theorem ofToken_token : ofToken s.token = (checkAutoIncrement s.column).map fun _ =>
    .column s.column := by
  have hcontained : ∀ t ∈ s.attributes.map (·.text), Contained t := by
    intro t ht
    obtain ⟨part, -, rfl⟩ := List.mem_map.mp ht
    exact part.contained
  obtain ⟨first, others, hpieces, hfirst, hothers⟩ :=
    Text.Scan.exists_pieces_trimEnd s.contained_headText hcontained
  have hhead : HeadText first s.head := by
    rcases hfirst with rfl | rfl
    · exact s.headText_head
    · exact s.headText_head.trimEnd
  have hread : readColumn (first, others) = .ok s.column := by
    have hattributes : Attribute.readAll s.head.reference.isSome others = .ok s.asked := by
      rw [← Attribute.readAll_map_trim, hothers, Attribute.readAll_map_trim, s.readAll_texts]
    simp only [readColumn, readHead_of_headText hhead, hattributes, bind, Except.bind]
    rfl
  obtain ⟨x, xs, hxs, hx⟩ := exists_nameStart_of_headText s.headText_head
  have hblank := isBlank_of_isNameChar (isNameChar_of_isNameStart hx)
  have htext : Text.trimEnd (s.headText ++ Text.Scan.commaTexts (s.attributes.map (·.text))) =
      x :: Text.trimEnd (xs ++ Text.Scan.commaTexts (s.attributes.map (·.text))) := by
    rw [hxs]
    exact Text.trimEnd_append_cons [] _ hblank
  rw [ofToken, trim_token]
  exact ofTrimmed_of_readColumn htext hx (hpieces ▸ hread)

end Spelling

/-! ## Tables -/

/-- Of a token, only what it says goes into a table. -/
theorem readFields_replace {a b : String} (h : ofToken a = ofToken b) (before after : List String) :
    Table.readFields (before ++ a :: after) = Table.readFields (before ++ b :: after) := by
  induction before with
  | nil => simp only [List.nil_append, Table.readFields, h]
  | cons token before ih => simp only [List.cons_append, Table.readFields, ih]

namespace Spelling

/-- **How a token is spelled makes no difference.** Two spellings that come to the same are read as
one column, or refused alike because of an automatic key that is no integer primary key; and in the
place of one another they lead to the same compiled table. -/
theorem sameResult_of_agrees {a b : Spelling} (h : a.Agrees b) :
    (∃ c, (ofToken a.token = .ok (.column c) ∧ ofToken b.token = .ok (.column c)) ∨
      ∃ fault, ofToken a.token = .error (.constraint c.name fault) ∧
        ofToken b.token = .error (.constraint c.name fault)) ∧
    ∀ name before after opts, Table.compile name (before ++ a.token :: after) opts =
      Table.compile name (before ++ b.token :: after) opts := by
  have hcolumn := column_eq_of_agrees h
  have htoken : ofToken a.token = ofToken b.token := by
    rw [ofToken_token, ofToken_token, hcolumn]
  constructor
  · refine ⟨b.column, ?_⟩
    rw [htoken, ofToken_token, and_self]
    unfold checkAutoIncrement
    split
    · exact .inr ⟨_, rfl, rfl⟩
    · exact .inl rfl
  · intro name before after opts
    simp only [Table.compile, Table.build, readFields_replace htoken before after]

/-- `author:int!->users` … -/
def arrowSpelling : Spelling where
  name := "author".toList
  form := .arrow
    (some ⟨"int".toList, [.notNull], .word ⟨by decide, by simp [isNameChar]⟩, by decide, by decide,
      by decide, inlineBody?_eq_none_iff.mp (by decide)⟩)
    true ⟨"users".toList, none, [], [], by decide, by simp, by simp⟩
  isName := by decide
  blank := by simp

/-- … and ` author:FK( users.id ), NN `. -/
def inlineSpelling : Spelling where
  name := "author".toList
  form := .inline "FK".toList (by decide)
    ⟨"users".toList, some "id".toList, [' '], [' '], by decide, by decide,
      List.all_eq_true.mp (by decide)⟩ []
  attributes := [⟨" NN".toList, .flag .notNull, .flag (by decide) (by decide),
    ⟨by decide, by decide⟩⟩]
  before := [' ']
  after := [' ']
  isName := by decide
  blank := List.all_eq_true.mp (by decide)

/-- Both tokens of the author say the same. -/
theorem agrees_author : arrowSpelling.Agrees inlineSpelling where
  name := rfl
  storage := by decide
  target := by decide
  flags f := by cases f <;> decide
  defaultExpr := rfl
  onDelete := rfl
  onUpdate := rfl
  deferred := by decide

/-- In a table, both stand for the same column. -/
theorem sameResult_author :
    arrowSpelling.token = "author:int!->users" ∧
      inlineSpelling.token = " author:FK( users.id ), NN " ∧
      arrowSpelling.Agrees inlineSpelling ∧
      Table.compile "posts" ["title", "author:int!->users"] {} =
        Table.compile "posts" ["title", " author:FK( users.id ), NN "] {} :=
  ⟨rfl, rfl, agrees_author, (sameResult_of_agrees agrees_author).2 "posts" ["title"] [] {}⟩

end Spelling

end Tablature.Field
