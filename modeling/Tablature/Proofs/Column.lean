import Tablature.Proofs.Storage
import Tablature.Proofs.Table.Invariant

/-!
# Proofs/Column — a clause tells everything of its column but the index

    name type [PRIMARY KEY] [AUTOINCREMENT] [UNIQUE] [NOT NULL] [REFERENCES ..] [DEFAULT ..]

A clause runs its parts together, with nothing but their order and their keywords to tell them
apart; the parenthesis of a type and the default are free texts, and `DEFAULT` is also the end of
an action. It can be taken apart from the left all the same:

* a name and a type are read whole before what follows them, as in a token;
* no keyword starts another (`Apart`), so it shows at once whether an optional part is there
  (`part_append_inj`), and no action starts another;
* the default is all that is left.

`sql_eq_iff` is the result. For storage classes it needs that a type that is spelled like a class
is the class (`ofAlias_sql_ofAlias`).
-/

namespace Tablature

open Text (Stops)

/-! ## Types -/

namespace Field

/-- **A type in upper case is a type**: no letter changes into a parenthesis. -/
theorem TypeText.upper {type : List Char} (h : TypeText type) : TypeText (Text.upper type) := by
  have hword : ∀ {word : List Char}, IsWord word → IsWord (Text.upper word) := by
    intro word hw
    refine ⟨by simpa [Text.upper] using hw.1, ?_⟩
    simp only [Text.upper, List.forall_mem_map]
    intro c hc
    rw [toUpper_eq_of_lowerLetters isNameChar (by decide) c]
    exact hw.2 c hc
  cases h with
  | word hw => exact .word (hword hw)
  | @applied word body hw hb =>
    have hbody : ')' ∉ Text.upper body := by
      simp only [Text.upper, List.mem_map, not_exists, not_and]
      intro c hc hparen
      have heq := toUpper_eq_of_lowerLetters (· == ')') (by decide) c
      rw [hparen] at heq
      exact hb (eq_of_beq heq.symm ▸ hc)
    have happ : Text.upper (word ++ '(' :: (body ++ [')'])) =
        Text.upper word ++ '(' :: (Text.upper body ++ [')']) := by
      simp [Text.upper]
    rw [happ]
    exact .applied (hword hw) hbody

/-- Types are not empty. -/
theorem TypeText.ne_nil {type : List Char} (h : TypeText type) : type ≠ [] := by
  cases h with
  | word hw => exact hw.1
  | applied hw => simp

/-- No blank is at the end of a type. -/
theorem TypeText.trim_eq {type : List Char} (h : TypeText type) : Text.trim type = type := by
  have hstart : ∀ {word : List Char} (rest : List Char), IsWord word →
      Stops Text.isBlank (word ++ rest) := by
    intro word rest hw
    obtain ⟨c, cs, rfl⟩ := List.exists_cons_of_ne_nil hw.1
    exact Text.stops_cons.mpr (isBlank_of_isNameChar (hw.2 c List.mem_cons_self))
  cases h with
  | word hw =>
    obtain ⟨init, c, hsplit, hc⟩ := exists_concat_of_nameChars hw.1 hw.2
    rw [hsplit]
    exact Text.trim_of_ends (hsplit ▸ List.append_nil type ▸ hstart [] hw) hc
  | @applied word body hw hb =>
    have hshape : word ++ '(' :: (body ++ [')']) = (word ++ '(' :: body) ++ [')'] := by simp
    rw [hshape]
    exact Text.trim_of_ends (hshape ▸ hstart _ hw) (by decide)

/-- The spelling of a storage class is a type. -/
theorem TypeText.sql_ofAlias {type : List Char} (h : TypeText type) :
    TypeText (Storage.ofAlias type).sql.toList := by
  have halias : ∀ entry ∈ Storage.aliases, isTypeName entry.2.sql.toList = true := by decide
  cases hlook : Storage.aliases.lookup (Text.lower (Text.trim type)) with
  | some storage =>
    rw [Storage.ofAlias_of_lookup_eq_some hlook]
    exact isTypeName_iff.mp (halias (_, storage) (Storage.mem_aliases_of_lookup hlook))
  | none =>
    rw [Storage.ofAlias_of_lookup_eq_none hlook, Storage.sql, String.toList_ofList, h.trim_eq]
    exact h.upper

/-- The class a head gives is that of a type. -/
theorem HeadText.exists_type {text : List Char} {head : Head} {storage : Storage}
    (h : HeadText text head) (hs : head.storage = some storage) :
    ∃ type, TypeText type ∧ storage = .ofAlias type := by
  have hdefinition : ∀ {d : Definition} {text type : List Char}, DefinitionText d text →
      d.typeName = some type → TypeText type := by
    intro d text type hd ht
    cases hd with
    | bare hn => exact nomatch ht
    | typed hn htype => exact Option.some.inj ht ▸ htype
  have hinteger : ∃ type, TypeText type ∧ Storage.integer = .ofAlias type :=
    ⟨"int".toList, isTypeName_iff.mp (by decide), by decide⟩
  cases h with
  | untyped => exact nomatch hs
  | typed _ hd ht => exact ⟨_, hdefinition hd ht, (Option.some.inj hs).symm⟩
  | inline => exact Option.some.inj hs ▸ hinteger
  | @arrow _ _ d _ _ hd =>
    obtain rfl := Option.some.inj hs
    cases ht : d.typeName with
    | none => exact hinteger
    | some type => exact ⟨type, hdefinition hd ht, rfl⟩

end Field

/-! ## Optional parts

A clause goes on with parts that may be missing, each behind its own keyword.  They are read one by
one: a part whose keyword starts no later one, and is started by none, is there in both of two equal
texts or in neither. -/

namespace Clause

/-- An optional part of a clause: nothing, or a keyword and what it takes. -/
def part {α : Type} (key : String) (text : α → List Char) : Option α → List Char
  | none => []
  | some a => key.toList ++ text a

/-- A part that is a keyword by itself. -/
def mark (key : String) (p : Bool) : List Char :=
  part key (fun _ : Unit => []) (if p then some () else none)

/-- What is left of a clause when only parts with some of the keywords can follow. -/
def Begins (keys : List String) (rest : List Char) : Prop :=
  rest = [] ∨ ∃ key ∈ keys, key.toList <+: rest

/-- A keyword that starts none of the others, and that none of them starts. -/
def Apart (key : String) (keys : List String) : Prop :=
  key.toList ≠ [] ∧ ∀ other ∈ keys, ¬ key.toList <+: other.toList ∧ ¬ other.toList <+: key.toList

instance (key : String) (keys : List String) : Decidable (Apart key keys) :=
  inferInstanceAs (Decidable (_ ∧ _))

section Parts

variable {α : Type} {key : String} {keys : List String} {text : α → List Char} {x y : List Char}

/-- A part that is there begins with its keyword. -/
theorem isPrefix_part (a : α) (x : List Char) : key.toList <+: part key text (some a) ++ x := by
  rw [part, List.append_assoc]
  exact List.prefix_append _ _

theorem Begins.cons (h : Begins keys x) : Begins (key :: keys) x :=
  h.imp_right fun ⟨other, hmem, hprefix⟩ => ⟨other, List.mem_cons_of_mem key hmem, hprefix⟩

/-- A part before what may follow is what may follow with one keyword more. -/
theorem begins_part (o : Option α) (hx : Begins keys x) :
    Begins (key :: keys) (part key text o ++ x) := by
  cases o with
  | none => exact hx.cons
  | some a => exact .inr ⟨key, List.mem_cons_self, isPrefix_part a x⟩

variable (key) in
theorem begins_mark (p : Bool) (hx : Begins keys x) : Begins (key :: keys) (mark key p ++ x) :=
  begins_part _ hx

/-- Such a rest goes on with no word and opens no parenthesis. -/
theorem Begins.stops (h : Begins keys x) (hkeys : ∀ key ∈ keys, key.toList.head? = some ' ') :
    Stops Field.typeGoesOn x := by
  rcases h with rfl | ⟨key, hmem, rest, rfl⟩
  · exact Text.stops_nil _
  · obtain ⟨tail, htail⟩ := List.head?_eq_some_iff.mp (hkeys key hmem)
    rw [htail]
    exact Text.stops_cons.mpr (by decide)

/-- A keyword apart from those that can follow is not what follows. -/
theorem Apart.not_isPrefix (hkey : Apart key keys) (hx : Begins keys x) : ¬ key.toList <+: x := by
  intro hprefix
  rcases hx with rfl | ⟨other, hmem, hother⟩
  · exact hkey.1 (List.prefix_nil.mp hprefix)
  · rcases List.prefix_or_prefix_of_prefix hprefix hother with h | h
    · exact (hkey.2 other hmem).1 h
    · exact (hkey.2 other hmem).2 h

variable (keys) in
/-- **Whether a part is there shows, and so does what it takes**, if that can be told apart from
what follows. -/
theorem part_append_inj (hkey : Apart key keys) (hx : Begins keys x) (hy : Begins keys y)
    {o o' : Option α}
    (htext : ∀ a ∈ o, ∀ a' ∈ o', text a ++ x = text a' ++ y → a = a' ∧ x = y)
    (h : part key text o ++ x = part key text o' ++ y) : o = o' ∧ x = y := by
  cases o with
  | none =>
    cases o' with
    | none => exact ⟨rfl, h⟩
    | some a' =>
      have hx' : x = part key text (some a') ++ y := h
      exact absurd (hx' ▸ isPrefix_part a' y) (hkey.not_isPrefix hx)
  | some a =>
    cases o' with
    | none =>
      have hy' : y = part key text (some a) ++ x := h.symm
      exact absurd (hy' ▸ isPrefix_part a x) (hkey.not_isPrefix hy)
    | some a' =>
      simp only [part, List.append_assoc, List.append_cancel_left_eq] at h
      obtain ⟨rfl, hxy⟩ := htext a rfl a' rfl h
      exact ⟨rfl, hxy⟩

variable (keys) in
/-- **A keyword by itself can be told** from what may follow it. -/
theorem mark_append_inj (hkey : Apart key keys) (hx : Begins keys x) (hy : Begins keys y)
    {p p' : Bool} (h : mark key p ++ x = mark key p' ++ y) : p = p' ∧ x = y := by
  have hnothing : ∀ a a' : Unit, [] ++ x = [] ++ y → a = a' ∧ x = y :=
    fun _ _ hrest => ⟨rfl, hrest⟩
  obtain ⟨hp, hxy⟩ := part_append_inj keys hkey hx hy (fun a _ a' _ => hnothing a a') h
  refine ⟨?_, hxy⟩
  cases p <;> cases p' <;> simp at hp ⊢

end Parts

end Clause

/-! ## References -/

open Clause

/-- **No action starts another**, so an action is read whole before any rest. -/
theorem Action.sql_append_inj {a b : Action} {x y : List Char}
    (h : a.sql.toList ++ x = b.sql.toList ++ y) : a = b ∧ x = y := by
  have hapart : ∀ a ∈ all, ∀ b ∈ all, a.sql.toList <+: b.sql.toList → a = b := by decide
  have hall : ∀ a : Action, a ∈ all := fun a => by cases a <;> decide
  have hab : a = b := by
    have ha : a.sql.toList <+: b.sql.toList ++ y := h ▸ List.prefix_append _ _
    rcases List.prefix_or_prefix_of_prefix ha (List.prefix_append _ _) with hp | hp
    · exact hapart a (hall a) b (hall b) hp
    · exact (hapart b (hall b) a (hall a) hp).symm
  subst hab
  exact ⟨rfl, List.append_cancel_left h⟩

namespace Reference

/-- What follows the target of a reference. -/
def changes (r : Reference) : List Char :=
  part " ON DELETE " (fun a : Action => a.sql.toList) r.onDelete
    ++ (part " ON UPDATE " (fun a : Action => a.sql.toList) r.onUpdate
      ++ mark " DEFERRABLE INITIALLY DEFERRED" r.deferred)

/-- What follows the keyword of a reference. -/
def text (r : Reference) : List Char :=
  r.table.toList ++ '(' :: (r.column.toList ++ [')']) ++ r.changes

/-- What a reference is written as, with its parts. -/
theorem toList_sql (r : Reference) : r.sql.toList = "REFERENCES ".toList ++ r.text := by
  have hsql : r.sql = "REFERENCES " ++ r.table ++ "(" ++ r.column ++ ")"
      ++ (r.onDelete.elim "" fun a => " ON DELETE " ++ a.sql)
      ++ (r.onUpdate.elim "" fun a => " ON UPDATE " ++ a.sql)
      ++ (if r.deferred then " DEFERRABLE INITIALLY DEFERRED" else "") := by
    obtain ⟨table, column, onDelete, onUpdate, deferred⟩ := r
    cases onDelete <;> cases onUpdate <;> rfl
  rw [hsql, text, changes, mark]
  cases r.onDelete <;> cases r.onUpdate <;> cases r.deferred <;> simp [part]

variable {r r' : Reference} {x y : List Char}

/-- Behind the target come its actions and its check, and then a default at most. -/
theorem begins_changes (r : Reference) (hx : Begins [" DEFAULT "] x) :
    Begins [" ON DELETE ", " ON UPDATE ", " DEFERRABLE INITIALLY DEFERRED", " DEFAULT "]
      (r.changes ++ x) := by
  rw [changes, List.append_assoc, List.append_assoc]
  exact begins_part _ (begins_part _ (begins_mark _ _ hx))

/-- **The actions and the check of a reference can be told apart**, whatever default follows. -/
theorem changes_append_inj (hx : Begins [" DEFAULT "] x) (hy : Begins [" DEFAULT "] y)
    (h : r.changes ++ x = r'.changes ++ y) :
    r.onDelete = r'.onDelete ∧ r.onUpdate = r'.onUpdate ∧ r.deferred = r'.deferred ∧ x = y := by
  simp only [changes, List.append_assoc] at h
  obtain ⟨hdelete, h⟩ := part_append_inj
    [" ON UPDATE ", " DEFERRABLE INITIALLY DEFERRED", " DEFAULT "] (by decide)
    (begins_part _ (begins_mark _ _ hx)) (begins_part _ (begins_mark _ _ hy))
    (fun _ _ _ _ => Action.sql_append_inj) h
  obtain ⟨hupdate, h⟩ := part_append_inj
    [" DEFERRABLE INITIALLY DEFERRED", " DEFAULT "] (by decide)
    (begins_mark _ _ hx) (begins_mark _ _ hy) (fun _ _ _ _ => Action.sql_append_inj) h
  obtain ⟨hdeferred, h⟩ := mark_append_inj [" DEFAULT "] (by decide) hx hy h
  exact ⟨hdelete, hupdate, hdeferred, h⟩

/-- **A reference is read whole** before a default, or at the end. -/
theorem text_append_inj (hr : isIdentifier r.table.toList ∧ isIdentifier r.column.toList)
    (hr' : isIdentifier r'.table.toList ∧ isIdentifier r'.column.toList)
    (hx : Begins [" DEFAULT "] x) (hy : Begins [" DEFAULT "] y)
    (h : r.text ++ x = r'.text ++ y) : r = r' ∧ x = y := by
  have hread : ∀ {r : Reference} {x : List Char}, Begins [" DEFAULT "] x →
      isIdentifier r.table.toList ∧ isIdentifier r.column.toList →
      Field.readTarget (r.text ++ x) =
        some ((r.table.toList, some r.column.toList), r.changes ++ x) := by
    intro r x hx hr
    rw [text, List.append_assoc]
    exact Field.readTarget_append (.column hr.1 hr.2)
      ((r.begins_changes hx).stops (by decide))
  have htarget := (hread hx hr).symm.trans (h ▸ hread hy hr')
  simp only [Option.some.injEq, Prod.mk.injEq, String.toList_inj] at htarget
  obtain ⟨⟨htable, hcolumn⟩, hchanges⟩ := htarget
  obtain ⟨hdelete, hupdate, hdeferred, hxy⟩ := changes_append_inj hx hy hchanges
  obtain ⟨table, column, onDelete, onUpdate, deferred⟩ := r
  obtain ⟨table', column', onDelete', onUpdate', deferred'⟩ := r'
  simp only at htable hcolumn hdelete hupdate hdeferred
  subst htable hcolumn hdelete hupdate hdeferred
  exact ⟨rfl, hxy⟩

end Reference

/-! ## Clauses

What a clause shows of a column comes in a fixed order, the default last, so that its free text ends
the clause. -/

/-- Texts with a blank before each. -/
def spaced (texts : List String) : List Char := texts.flatMap fun t => ' ' :: t.toList

@[simp] theorem spaced_nil : spaced [] = [] := rfl

@[simp] theorem spaced_cons (t : String) (texts : List String) :
    spaced (t :: texts) = ' ' :: (t.toList ++ spaced texts) := by simp [spaced]

@[simp] theorem spaced_append (a b : List String) : spaced (a ++ b) = spaced a ++ spaced b :=
  List.flatMap_append

/-- Texts with blanks between them are the first one, and the others with a blank before each. -/
theorem toList_intercalate_cons (first : String) (others : List String) :
    (" ".intercalate (first :: others)).toList = first.toList ++ spaced others := by
  induction others generalizing first with
  | nil => simp
  | cons next others ih => simp [String.intercalate_cons_cons, ih]

theorem spaced_word (word : String) {key : String} (hkey : key.toList = ' ' :: word.toList)
    (p : Bool) : spaced (if p then [word] else []) = mark key p := by
  cases p <;> simp [mark, part, hkey]

namespace Column

/-- What follows the type in a clause. -/
def tail (c : Column) : List Char :=
  mark " PRIMARY KEY" c.constraints.primaryKey
    ++ (mark " AUTOINCREMENT" c.constraints.autoIncrement
      ++ (mark " UNIQUE" c.constraints.unique
        ++ (mark " NOT NULL" c.constraints.notNull
          ++ (part " REFERENCES " Reference.text c.reference
            ++ part " DEFAULT " String.toList c.constraints.defaultExpr))))

/-- A clause is its name, its type and its tail. -/
theorem toList_sql (c : Column) :
    c.sql.toList = c.name.toList ++ ' ' :: (c.storage.sql.toList ++ c.tail) := by
  have hparts : c.sql.toList = c.name.toList ++ spaced (c.parts.drop 1) := by
    rw [sql, ← toList_intercalate_cons]
    rfl
  rw [hparts, parts, tail, ← spaced_word "PRIMARY KEY" (by decide),
    ← spaced_word "AUTOINCREMENT" (by decide),
    ← spaced_word "UNIQUE" (by decide), ← spaced_word "NOT NULL" (by decide)]
  cases c.reference <;> cases c.constraints.defaultExpr <;> simp [part, Reference.toList_sql]

variable {c c' : Column}

/-- The name is read off the front of a clause … -/
theorem readIdentifier_sql (hc : c.IsSound) :
    readIdentifier c.sql.toList =
      some (c.name.toList, ' ' :: (c.storage.sql.toList ++ c.tail)) := by
  rw [toList_sql]
  exact readIdentifier_append hc.name (Text.stops_cons.mpr (by decide))

theorem begins_default (o : Option String) :
    Begins [" DEFAULT "] (part " DEFAULT " String.toList o) :=
  List.append_nil (part " DEFAULT " String.toList o) ▸ begins_part o (.inl rfl : Begins [] [])

/-- The last parts are the reference and the default. -/
theorem begins_reference (c : Column) :
    Begins [" REFERENCES ", " DEFAULT "]
      (part " REFERENCES " Reference.text c.reference
        ++ part " DEFAULT " String.toList c.constraints.defaultExpr) :=
  begins_part _ (begins_default _)

/-- The parts behind the type, in their order. -/
theorem begins_tail (c : Column) :
    Begins [" PRIMARY KEY", " AUTOINCREMENT", " UNIQUE", " NOT NULL", " REFERENCES ", " DEFAULT "]
      c.tail :=
  begins_mark _ _ (begins_mark _ _ (begins_mark _ _ (begins_mark _ _ (begins_reference c))))

/-- **The parts behind the type can be told apart.** -/
theorem eq_of_tail_eq (hc : c.IsSound) (hc' : c'.IsSound) (h : c.tail = c'.tail) :
    c.constraints.notNull = c'.constraints.notNull ∧
      c.constraints.unique = c'.constraints.unique ∧
      c.constraints.primaryKey = c'.constraints.primaryKey ∧
      c.constraints.autoIncrement = c'.constraints.autoIncrement ∧
      c.constraints.defaultExpr = c'.constraints.defaultExpr ∧ c.reference = c'.reference := by
  have hnotNull (c : Column) :=
    begins_mark " NOT NULL" c.constraints.notNull (begins_reference c)
  have hunique (c : Column) := begins_mark " UNIQUE" c.constraints.unique (hnotNull c)
  have hauto (c : Column) := begins_mark " AUTOINCREMENT" c.constraints.autoIncrement (hunique c)
  simp only [tail] at h
  obtain ⟨hprimaryKey, h⟩ := mark_append_inj _ (by decide) (hauto c) (hauto c') h
  obtain ⟨hautoIncrement, h⟩ := mark_append_inj _ (by decide) (hunique c) (hunique c') h
  obtain ⟨hu, h⟩ := mark_append_inj _ (by decide) (hnotNull c) (hnotNull c') h
  obtain ⟨hnn, h⟩ := mark_append_inj _ (by decide) (begins_reference c) (begins_reference c') h
  obtain ⟨href, h⟩ := part_append_inj _ (by decide) (begins_default _) (begins_default _)
    (fun r hr r' hr' => Reference.text_append_inj (hc.reference r hr) (hc'.reference r' hr')
      (begins_default _) (begins_default _)) h
  have hlast : ∀ e e' : String, e.toList ++ [] = e'.toList ++ [] →
      e = e' ∧ ([] : List Char) = [] := by
    intro e e' he
    rw [List.append_nil, List.append_nil] at he
    exact ⟨String.toList_inj.mp he, rfl⟩
  have hdefault : c.constraints.defaultExpr = c'.constraints.defaultExpr :=
    (part_append_inj [] (by decide) (.inl rfl) (.inl rfl)
      (fun e _ e' _ => hlast e e') (congrArg (· ++ []) h)).1
  exact ⟨hnn, hu, hprimaryKey, hautoIncrement, hdefault, href⟩

/-- … and the type off what the name leaves. -/
theorem readTypeName_sql (ht : Field.TypeText c.storage.sql.toList) :
    Field.readTypeName (c.storage.sql.toList ++ c.tail) =
      some (c.storage.sql.toList, c.tail) :=
  Field.readTypeName_append ht ((begins_tail c).stops (by decide))

/-- **The class of a column from a token** is that of a type. -/
theorem exists_type_of_ofToken {token : String} (h : Field.ofToken token = .ok (.column c)) :
    ∃ type, Field.TypeText type ∧ c.storage = .ofAlias type := by
  obtain ⟨first, others, head, as, -, hhead, -, hc⟩ := (Field.ofTrimmed_eq_column_iff.mp h).parts
  rw [hc.storage]
  cases hs : head.storage with
  | some storage => exact hhead.exists_type hs
  | none =>
    rw [Option.getD_none]
    split
    · exact ⟨"int".toList, Field.isTypeName_iff.mp (by decide), by decide⟩
    · exact ⟨"text".toList, Field.isTypeName_iff.mp (by decide), by decide⟩

/-- **A clause tells everything of its column but the index.** Two columns from tokens have the
same clause exactly if they agree in name, storage class, every constraint that a clause shows,
default and reference. -/
theorem sql_eq_iff {token token' : String} (h : Field.ofToken token = .ok (.column c))
    (h' : Field.ofToken token' = .ok (.column c')) :
    c.sql = c'.sql ↔
      c.name = c'.name ∧ c.storage = c'.storage ∧
      c.constraints.notNull = c'.constraints.notNull ∧
      c.constraints.unique = c'.constraints.unique ∧
      c.constraints.primaryKey = c'.constraints.primaryKey ∧
      c.constraints.autoIncrement = c'.constraints.autoIncrement ∧
      c.constraints.defaultExpr = c'.constraints.defaultExpr ∧ c.reference = c'.reference := by
  have hsound := Field.isSound_of_ofToken h
  have hsound' := Field.isSound_of_ofToken h'
  constructor
  · intro hsql
    -- the name and the type are read off the front of the two equal texts
    have hname := (readIdentifier_sql hsound).symm.trans (hsql ▸ readIdentifier_sql hsound')
    simp only [Option.some.injEq, Prod.mk.injEq, List.cons.injEq, true_and,
      String.toList_inj] at hname
    obtain ⟨type, htype, hstorage⟩ := exists_type_of_ofToken h
    obtain ⟨type', htype', hstorage'⟩ := exists_type_of_ofToken h'
    have hread := (readTypeName_sql (hstorage ▸ htype.sql_ofAlias)).symm.trans
      (hname.2 ▸ readTypeName_sql (hstorage' ▸ htype'.sql_ofAlias))
    simp only [Option.some.injEq, Prod.mk.injEq] at hread
    refine ⟨hname.1, ?_, eq_of_tail_eq hsound hsound' hread.2⟩
    rw [hstorage, hstorage', ← Storage.ofAlias_sql_ofAlias type,
      ← Storage.ofAlias_sql_ofAlias type', ← hstorage, ← hstorage', hread.1]
  · rintro ⟨hname, hstorage, hnn, hu, hpk, hai, hdefault, href⟩
    simp only [sql, parts, hname, hstorage, hnn, hu, hpk, hai, hdefault, href]

/-- A column whose default and whose action both end like a keyword, with or without index. -/
def size (index : Bool) : Column where
  name := "size"
  storage := .other "VARCHAR(8)"
  constraints := { notNull := true, index, defaultExpr := some "NOT NULL" }
  reference := some { table := "shop", column := "code", onDelete := some .setDefault }

/-- A default and an action that end like a keyword are told from it, and the index is not shown. -/
theorem agree_size :
    (size true).sql =
      "size VARCHAR(8) NOT NULL REFERENCES shop(code) ON DELETE SET DEFAULT DEFAULT NOT NULL" ∧
    (size true).name = (size false).name ∧ (size true).storage = (size false).storage ∧
    (size true).constraints.notNull = (size false).constraints.notNull ∧
    (size true).constraints.unique = (size false).constraints.unique ∧
    (size true).constraints.primaryKey = (size false).constraints.primaryKey ∧
    (size true).constraints.autoIncrement = (size false).constraints.autoIncrement ∧
    (size true).constraints.defaultExpr = (size false).constraints.defaultExpr ∧
    (size true).reference = (size false).reference := by
  have hindexed : Field.ofToken "size:varchar(8)!^>shop(code),ondelete=SET DEFAULT,=NOT NULL" =
      .ok (.column (size true)) := by decide
  have hplain : Field.ofToken "size!:VarChar(8)-> shop(code), = NOT NULL, ondelete = setdefault" =
      .ok (.column (size false)) := by decide
  exact ⟨by decide, (sql_eq_iff hindexed hplain).mp (by decide)⟩

end Column

end Tablature
