import Tablature.Proofs.Column
import Tablature.Proofs.Field.Scan
import Tablature.Proofs.Text.Split

/-!
# Proofs/Table/Body — the clauses of a statement, told apart again

    CREATE TABLE IF NOT EXISTS t (
        id INTEGER PRIMARY KEY AUTOINCREMENT,   one piece
        a TEXT DEFAULT f(x, 'y, z'),            one piece
        b TEXT DEFAULT it's,                    one piece together with ..
        c NUMERIC(10,2)                         .. this clause
    );

Two texts of a column come from its token as they stand, in quotes, parentheses or neither: the
type and the default.  Neither has a comma at the top, because a token is divided there as well
(`Column.IsWhole`), but nothing asks that they close what they open (`Column.IsClosed`).  All else
in a clause is inert.  So a clause is one piece by itself, and the comma after it divides exactly if
its column is closed: the clauses are the pieces if all columns but the last are closed, and only
then.  A token that leaves no quote and no parenthesis open declares a closed column.
-/

namespace Tablature

open Text (Scan)
open Text.Scan (Inert inert_of_all inert_of_blank top)
open Tablature.Field (Head HeadText Denotes Attribute TypeText inert_of_identifier)
open Clause

/-! ## The free texts of a column

Type and default are the only texts of a column that a scan can see anything of. -/

/-- A column whose type and default leave no quote and no parenthesis open. -/
structure Column.IsClosed (c : Column) : Prop where
  storage : top.run c.storage.sql.toList = top
  defaultExpr : ∀ e ∈ c.constraints.defaultExpr, top.run e.toList = top

/-- A column whose type and default no comma cuts, where a default is only behind a type that leaves
nothing open. -/
structure Column.IsWhole (c : Column) : Prop where
  type : TypeText c.storage.sql.toList
  storage : c.constraints.defaultExpr ≠ none → top.run c.storage.sql.toList = top
  defaultExpr : ∀ e ∈ c.constraints.defaultExpr, (top.pieces e.toList).2 = []

namespace Field

variable {token : String} {c : Column}

/-- The class of a column leaves a scan where the head of its token does. -/
theorem Denotes.run_storage {first : List Char} {head : Head} {as : List Attribute}
    (hc : Denotes head as c) (hhead : HeadText first head) :
    top.run c.storage.sql.toList = top.run first := by
  rw [hhead.run_eq, hc.storage]
  cases head.storage with
  | some storage => rfl
  | none =>
    rw [Option.getD_none]
    split <;> decide

/-- **A column from a token is whole**: a head with attributes behind it ends at the top. -/
theorem isWhole_of_ofToken (h : ofToken token = .ok (.column c)) : c.IsWhole := by
  obtain ⟨type, htype, hstorage⟩ := Column.exists_type_of_ofToken h
  obtain ⟨first, others, head, as, hsplit, hhead, has, hc⟩ := (ofTrimmed_eq_column_iff.mp h).parts
  refine ⟨hstorage ▸ htype.sql_ofAlias, fun hdefault => ?_, fun e he => ?_⟩
  · obtain ⟨e, he⟩ := Option.ne_none_iff_exists'.mp hdefault
    obtain ⟨text, hmem, -⟩ := hc.exists_default hhead has he
    have hfirst : first ∈ (Text.split (Text.trim token.toList)).dropLast := by
      rw [hsplit, List.dropLast_cons_of_ne_nil (List.ne_nil_of_mem hmem)]
      exact List.mem_cons_self
    rw [hc.run_storage hhead, Text.run_of_mem_dropLast_split hfirst]
  · obtain ⟨text, hmem, htext⟩ := hc.exists_default hhead has he
    have hpiece : text ∈ Text.split (Text.trim token.toList) :=
      hsplit ▸ List.mem_cons_of_mem first hmem
    exact htext.run_expr.2 (Text.split_eq_singleton_iff.mp (Text.split_of_mem_split hpiece))

/-- **A token that leaves nothing open declares a closed column.** -/
theorem isClosed_of_ofToken (h : ofToken token = .ok (.column c))
    (htop : top.run token.toList = top) : c.IsClosed := by
  obtain ⟨first, others, head, as, hsplit, hhead, has, hc⟩ := (ofTrimmed_eq_column_iff.mp h).parts
  have hpiece : ∀ p ∈ first :: others, top.run p = top := fun p hp => by
    rw [← hsplit] at hp
    rw [← Scan.run_trim Scan.sound_top] at htop
    exact Text.run_of_mem_split htop hp
  refine ⟨?_, fun e he => ?_⟩
  · rw [hc.run_storage hhead, hpiece first List.mem_cons_self]
  · obtain ⟨text, hmem, htext⟩ := hc.exists_default hhead has he
    rw [htext.run_expr.1, hpiece text (List.mem_cons_of_mem first hmem)]

end Field

namespace Column

/-- The columns that a table adds of its own are whole and closed. -/
theorem isWhole_and_isClosed_of_own {c : Column} (hc : c ∈ surrogate :: stamps) :
    c.IsWhole ∧ c.IsClosed := by
  have hown : ∀ c ∈ surrogate :: stamps, Field.isTypeName c.storage.sql.toList ∧
      top.run c.storage.sql.toList = top ∧ c.constraints.defaultExpr = none := by decide
  obtain ⟨htype, hstorage, hdefault⟩ := hown c hc
  exact ⟨⟨Field.isTypeName_iff.mp htype, fun _ => hstorage, by simp [hdefault]⟩,
    ⟨hstorage, by simp [hdefault]⟩⟩

variable {opts : Options} {c filled : Column}

theorem Fills.isWhole (hf : c.Fills opts filled) (h : c.IsWhole) : filled.IsWhole where
  type := hf.storage ▸ h.type
  storage := by
    rw [hf.storage, hf.constraints]
    exact h.storage
  defaultExpr := hf.constraints ▸ h.defaultExpr

theorem Fills.isClosed (hf : c.Fills opts filled) (h : c.IsClosed) : filled.IsClosed where
  storage := hf.storage ▸ h.storage
  defaultExpr := hf.constraints ▸ h.defaultExpr

end Column

/-! ## Clauses -/

namespace Clause

section Parts

variable {α : Type} {key : String} {text : α → List Char} {o : Option α}

theorem inert_part (hkey : Inert key.toList) (htext : ∀ a ∈ o, Inert (text a)) :
    Inert (part key text o) := by
  cases o with
  | none => exact inert_of_all rfl
  | some a => exact hkey.append (htext a rfl)

theorem inert_mark (hkey : Inert key.toList) (p : Bool) : Inert (mark key p) :=
  inert_part hkey fun _ _ => inert_of_all rfl

theorem trimEnd_part (htext : ∀ a ∈ o, text a ≠ [] ∧ Text.trimEnd (text a) = text a) :
    Text.trimEnd (part key text o) = part key text o := by
  cases o with
  | none => rfl
  | some a =>
    exact Text.trimEnd_append_eq_self (fun hnil => absurd hnil (htext a rfl).1) (htext a rfl).2

theorem trimEnd_mark (hkey : Text.trimEnd key.toList = key.toList) (p : Bool) :
    Text.trimEnd (mark key p) = mark key p := by
  cases p with
  | false => rfl
  | true => simpa [mark, part] using hkey

end Parts

end Clause

/-- Nothing in a reference is seen by a scan: it names identifiers and actions. -/
theorem Reference.inert_text {r : Reference}
    (hr : isIdentifier r.table.toList ∧ isIdentifier r.column.toList) : Inert r.text := by
  have haction : ∀ a : Action, Inert a.sql.toList := fun a => by
    cases a <;> exact inert_of_all (by decide)
  have htarget : Inert (r.table.toList ++ '(' :: (r.column.toList ++ [')'])) :=
    Field.inert_of_targetText (.column hr.1 hr.2)
  refine htarget.append ((inert_part (inert_of_all (by decide)) fun a _ => haction a).append
    ((inert_part (inert_of_all (by decide)) fun a _ => haction a).append
      (inert_mark (inert_of_all (by decide)) _)))

/-- No blank is at the end of a reference. -/
theorem Reference.trimEnd_text {r : Reference}
    (hr : isIdentifier r.table.toList ∧ isIdentifier r.column.toList) :
    Text.trimEnd r.text = r.text := by
  have haction : ∀ a : Action, a.sql.toList ≠ [] ∧ Text.trimEnd a.sql.toList = a.sql.toList :=
    fun a => by cases a <;> decide
  have htarget : Text.trimEnd (r.table.toList ++ '(' :: (r.column.toList ++ [')'])) =
      r.table.toList ++ '(' :: (r.column.toList ++ [')']) :=
    Text.trimEnd_of_trim ((Field.NamesText.column hr.1 hr.2).trim_eq
      (List.forall_mem_singleton.mpr (by decide)))
  have hchanges : Text.trimEnd r.changes = r.changes :=
    Text.trimEnd_append_eq_self (fun _ => trimEnd_part fun a _ => haction a)
      (Text.trimEnd_append_eq_self (fun _ => trimEnd_part fun a _ => haction a)
        (trimEnd_mark (by decide) _))
  exact Text.trimEnd_append_eq_self (fun _ => htarget) hchanges

namespace Column

variable {c : Column}

/-- What is between the type and the default is inert. -/
theorem exists_tail_eq (hc : c.IsSound) :
    ∃ front, Inert front ∧
      c.tail = front ++ part " DEFAULT " String.toList c.constraints.defaultExpr := by
  have hkey : ∀ key : String, (key.toList.all fun x => Scan.isPlain x && x != ',') = true → ∀ p,
      Inert (mark key p) := fun key h p => inert_mark (inert_of_all h) p
  have hreference : Inert (part " REFERENCES " Reference.text c.reference) :=
    inert_part (inert_of_all (by decide)) fun r hr => Reference.inert_text (hc.reference r hr)
  refine ⟨_, ((hkey " PRIMARY KEY" (by decide) c.constraints.primaryKey).append
    ((hkey " AUTOINCREMENT" (by decide) c.constraints.autoIncrement).append
      ((hkey " UNIQUE" (by decide) c.constraints.unique).append
        ((hkey " NOT NULL" (by decide) c.constraints.notNull).append hreference)))), ?_⟩
  simp only [tail, List.append_assoc]

/-- **No comma cuts a clause.** -/
theorem uncut_sql (hc : c.IsSound) (hw : c.IsWhole) : (top.pieces c.sql.toList).2 = [] := by
  obtain ⟨front, hfront, htail⟩ := exists_tail_eq hc
  have hname : Inert (c.name.toList ++ [' ']) :=
    (inert_of_identifier hc.name).append (inert_of_all (by decide))
  rw [toList_sql, List.append_cons, htail]
  refine hname.uncut_append Scan.sound_top (Scan.uncut_append hw.type.uncut ?_)
  refine hfront.uncut_append (Scan.sound_top.run _) ?_
  cases he : c.constraints.defaultExpr with
  | none => rfl
  | some e =>
    have hkey : Inert " DEFAULT ".toList := inert_of_all (by decide)
    rw [part, hw.storage (by simp [he])]
    exact hkey.uncut_append Scan.sound_top (hw.defaultExpr e he)

/-- **A clause leaves a scan at the top** exactly if its column is closed. -/
theorem run_sql_iff (hc : c.IsSound) (hw : c.IsWhole) :
    top.run c.sql.toList = top ↔ c.IsClosed := by
  obtain ⟨front, hfront, htail⟩ := exists_tail_eq hc
  have hname : Inert (c.name.toList ++ [' ']) :=
    (inert_of_identifier hc.name).append (inert_of_all (by decide))
  have hstorage := Scan.sound_top.run c.storage.sql.toList
  rw [toList_sql, List.append_cons, htail, hname.run_append Scan.sound_top, Scan.run_append,
    hfront.run_append hstorage]
  cases he : c.constraints.defaultExpr with
  | none =>
    rw [part, Scan.run_nil]
    exact ⟨fun h => ⟨h, by simp [he]⟩, IsClosed.storage⟩
  | some e =>
    have hkey : Inert " DEFAULT ".toList := inert_of_all (by decide)
    have htop := hw.storage (by simp [he])
    rw [part, htop, hkey.run_append Scan.sound_top]
    exact ⟨fun h => ⟨htop, by simpa [he] using h⟩, fun h => h.defaultExpr e he⟩

/-- No blank is at the end of what follows the type. -/
theorem trimEnd_tail (hc : c.IsSound) : Text.trimEnd c.tail = c.tail := by
  have hreference : ∀ r ∈ c.reference, r.text ≠ [] ∧ Text.trimEnd r.text = r.text := fun r hr =>
    ⟨by simp [Reference.text], Reference.trimEnd_text (hc.reference r hr)⟩
  have hdefault : ∀ e ∈ c.constraints.defaultExpr, e.toList ≠ [] ∧
      Text.trimEnd e.toList = e.toList := by
    intro e he
    obtain ⟨hne, hstrip⟩ := hc.defaultExpr e he
    refine ⟨by simpa using hne, Text.trimEnd_of_trim ?_⟩
    rw [← Text.toList_strip, hstrip]
  have hmark : ∀ key : String, Text.trimEnd key.toList = key.toList → ∀ p x, Text.trimEnd x = x →
      Text.trimEnd (mark key p ++ x) = mark key p ++ x := fun key hkey p x hx =>
    Text.trimEnd_append_eq_self (fun _ => trimEnd_mark hkey p) hx
  exact hmark _ (by decide) _ _ (hmark _ (by decide) _ _ (hmark _ (by decide) _ _
    (hmark _ (by decide) _ _ (Text.trimEnd_append_eq_self (fun _ => trimEnd_part hreference)
      (trimEnd_part hdefault)))))

/-- **No blank is at either end of a clause.** -/
theorem trim_sql (hc : c.IsSound) (hw : c.IsWhole) : Text.trim c.sql.toList = c.sql.toList := by
  obtain ⟨x, name, hname, hx⟩ := exists_cons_of_identifier hc.name
  have hblank : Text.isBlank x = false := isBlank_of_isNameChar (isNameChar_of_isNameStart hx)
  have hstart : Text.trimStart c.sql.toList = c.sql.toList := by
    rw [toList_sql, hname]
    exact Text.trimStart_of_stops (Text.stops_cons.mpr hblank)
  have hend : Text.trimEnd (c.storage.sql.toList ++ c.tail) = c.storage.sql.toList ++ c.tail :=
    Text.trimEnd_append_eq_self (fun _ => Text.trimEnd_of_trim hw.type.trim_eq) (trimEnd_tail hc)
  have hne : c.storage.sql.toList ++ c.tail ≠ [] :=
    List.append_ne_nil_of_left_ne_nil hw.type.ne_nil _
  rw [Text.trim, hstart, toList_sql, List.append_cons]
  exact Text.trimEnd_append_eq_self (fun hnil => absurd hnil hne) hend

/-- The blanks before a clause. -/
def indent : List Char := [' ', ' ', ' ', ' ']

/-- The line of a column in a statement. -/
def line (c : Column) : List Char := indent ++ c.sql.toList

theorem isBlank_of_mem_indent : ∀ x ∈ indent, Text.isBlank x := List.all_eq_true.mp (by decide)

theorem trim_line (hc : c.IsSound) (hw : c.IsWhole) : Text.trim c.line = c.sql.toList := by
  rw [line, Text.trim_blank_append isBlank_of_mem_indent, trim_sql hc hw]

theorem uncut_line (hc : c.IsSound) (hw : c.IsWhole) : (top.pieces c.line).2 = [] :=
  (inert_of_blank isBlank_of_mem_indent).uncut_append Scan.sound_top (uncut_sql hc hw)

theorem run_line_iff (hc : c.IsSound) (hw : c.IsWhole) : top.run c.line = top ↔ c.IsClosed := by
  rw [line, (inert_of_blank isBlank_of_mem_indent).run_append Scan.sound_top, run_sql_iff hc hw]

end Column

/-! ## Statements

The lines of a statement are its clauses with commas between them, and a scan divides them again
where it is at the top. -/

namespace Table

variable {name : String} {tokens : List String} {opts : Options} {table : Table}

/-- The lines of the columns stand between the parentheses of a statement. -/
theorem toList_sql (t : Table) : t.sql.toList =
    ("CREATE TABLE IF NOT EXISTS " ++ t.name ++ " (\n").toList ++
      ",\n".toList.intercalate (t.columns.map Column.line) ++ "\n);".toList := by
  have hindent : "    ".toList = Column.indent := by decide
  have hline : String.toList ∘ (fun c : Column => "    " ++ c.sql) = Column.line := by
    funext c
    rw [Function.comp_apply, String.toList_append, hindent, Column.line]
  unfold sql
  rw [String.toList_append, String.toList_append, String.toList_intercalate, List.map_map, hline]

/-- **Lines of sound and whole columns are told apart** exactly if all but the last are closed. -/
theorem split_lines_iff {columns : List Column} (hne : columns ≠ [])
    (hcolumns : ∀ c ∈ columns, c.IsSound ∧ c.IsWhole) :
    (Text.split (",\n".toList.intercalate (columns.map Column.line))).map Text.trim =
      columns.map (·.sql.toList) ↔ ∀ c ∈ columns.dropLast, c.IsClosed := by
  have hsep : ",\n".toList = ',' :: ['\n'] := by decide
  have hbreak : ∀ x ∈ ['\n'], Text.isBlank x := List.forall_mem_singleton.mpr (by decide)
  have htrim : (columns.map Column.line).map Text.trim = columns.map (·.sql.toList) := by
    rw [List.map_map]
    refine List.map_congr_left fun c hc => ?_
    rw [Function.comp_apply, Column.trim_line (hcolumns c hc).1 (hcolumns c hc).2]
  have huncut : ∀ t ∈ columns.map Column.line, (top.pieces t).2 = [] :=
    List.forall_mem_map.mpr fun c hc => Column.uncut_line (hcolumns c hc).1 (hcolumns c hc).2
  have hlines := Text.map_trim_split_iff hbreak (mt List.map_eq_nil_iff.mp hne) huncut
  rw [htrim, ← List.map_dropLast, List.forall_mem_map] at hlines
  rw [hsep, hlines]
  refine forall₂_congr fun c hc => ?_
  have hmem := hcolumns c (List.dropLast_subset _ hc)
  exact Column.run_line_iff hmem.1 hmem.2

/-- **All columns of a table are whole**, the added ones included. -/
theorem isWhole_of_build (h : build name tokens opts = .ok table) :
    ∀ c ∈ table.columns, c.IsWhole := by
  obtain ⟨-, -, fields, hfields, -, -, -, rfl⟩ := build_eq_ok_iff.mp h
  intro c hc
  rcases exists_origin_of_mem_columns hfields hc with hc | ⟨token, -, c₀, htoken, hfills⟩
  · exact (Column.isWhole_and_isClosed_of_own hc).1
  · exact hfills.isWhole (Field.isWhole_of_ofToken htoken)

/-- **All of them are closed if the tokens leave nothing open.** -/
theorem isClosed_of_build (h : build name tokens opts = .ok table)
    (htop : ∀ token ∈ tokens, top.run token.toList = top) : ∀ c ∈ table.columns, c.IsClosed := by
  obtain ⟨-, -, fields, hfields, -, -, -, rfl⟩ := build_eq_ok_iff.mp h
  intro c hc
  rcases exists_origin_of_mem_columns hfields hc with hc | ⟨token, hmem, c₀, htoken, hfills⟩
  · exact (Column.isWhole_and_isClosed_of_own hc).2
  · exact hfills.isClosed (Field.isClosed_of_ofToken htoken (htop token hmem))

/-- **The clauses of the columns are the pieces of the body**, each between blanks, exactly if all
columns but the last are closed; they are if no token leaves a quote or a parenthesis open. -/
theorem clauses_of_split_body (h : build name tokens opts = .ok table) {body : List Char}
    (hbody : table.sql.toList =
      ("CREATE TABLE IF NOT EXISTS " ++ table.name ++ " (\n").toList ++ body ++ "\n);".toList) :
    ((Text.split body).map Text.trim = table.columns.map (·.sql.toList) ↔
      ∀ c ∈ table.columns.dropLast, c.IsClosed) ∧
    ((∀ token ∈ tokens, top.run token.toList = top) →
      (Text.split body).map Text.trim = table.columns.map (·.sql.toList)) := by
  have hne : table.columns ≠ [] := fun hnil => by
    simpa [hnil] using (builtFrom_of_build h).primaryKey
  obtain rfl : body = ",\n".toList.intercalate (table.columns.map Column.line) := by
    rw [toList_sql, List.append_cancel_right_eq, List.append_cancel_left_eq] at hbody
    exact hbody.symm
  have hiff := split_lines_iff hne fun c hc =>
    ⟨(builtFrom_of_build h).sound c hc, isWhole_of_build h c hc⟩
  exact ⟨hiff, fun htop => hiff.mpr fun c hc =>
    isClosed_of_build h htop c (List.dropLast_subset _ hc)⟩

/-- Tokens with commas in their free texts, and nothing left open. -/
def closedTokens : List String := ["sku:varchar(8,'it''s'),=f('a, (b', c)", "price:decimal(10,2)!"]

/-- Tokens the first of which leaves a quote open. -/
def openTokens : List String := ["a:text,=it's", "b:text"]

/-- The table of `openTokens`. -/
def openTable : Table where
  name := "t"
  version := 1
  columns := [Column.surrogate,
    { name := "a", storage := .text, constraints := { defaultExpr := some "it's" } },
    { name := "b", storage := .text }]
  statements := []

/-- The clauses of closed tokens are told apart; an open quote takes the next column with it. -/
theorem clauses_of_split_body_open :
    (∃ table body, build "t" closedTokens { stamps := true } = .ok table ∧
      table.sql.toList =
        ("CREATE TABLE IF NOT EXISTS " ++ table.name ++ " (\n").toList ++ body ++ "\n);".toList ∧
      (∀ token ∈ closedTokens, top.run token.toList = top) ∧
      (Text.split body).map Text.trim = table.columns.map (·.sql.toList)) ∧
    ∃ body, build "t" openTokens {} = .ok openTable ∧
      openTable.sql.toList =
        ("CREATE TABLE IF NOT EXISTS " ++ openTable.name ++ " (\n").toList ++ body ++
          "\n);".toList ∧
      (Text.split body).map Text.trim ≠ openTable.columns.map (·.sql.toList) := by
  constructor
  · have hok : (build "t" closedTokens { stamps := true }).isOk = true := by decide +kernel
    have htop : ∀ token ∈ closedTokens, top.run token.toList = top := by decide
    obtain ⟨table, htable⟩ := exists_of_isOk hok
    exact ⟨table, _, htable, toList_sql table, htop,
      (clauses_of_split_body htable (toList_sql table)).2 htop⟩
  · have hbuild : build "t" openTokens {} = .ok openTable := by decide +kernel
    refine ⟨_, hbuild, toList_sql openTable, fun heq => ?_⟩
    have hclosed := (clauses_of_split_body hbuild (toList_sql openTable)).1.mp heq
    have hquote := (hclosed _ (List.mem_cons_of_mem _ List.mem_cons_self)).defaultExpr "it's" rfl
    exact absurd hquote (by decide)

end Table

end Tablature
