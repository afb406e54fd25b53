import Tablature.Proofs.Table.Invariant

/-!
# Proofs/Table/IndexNames — which statements create one and the same index

A database knows an index by its name alone, and a second statement that creates an index of that
name does nothing.  Names are joined from the names of tables and columns, in which the joining
character may stand too; so different indexes can have one name, and `nameOf_eq_iff` says exactly
which:

    table   column              table     column
    T       c, as a reference   T         c_fk
    T       x_c                 T_x       c

where each side of the second line may be a reference.  All other statements, of one table or of
several, create indexes of different names.
-/

namespace Tablature

/-- An index on a column of a table, for a reference or not. -/
structure Index where
  table : String
  column : String
  forReference : Bool
deriving DecidableEq

namespace Index

variable {i j : Index}

/-- What an index adds to the name of its table. -/
def label (i : Index) : String := if i.forReference then i.column ++ "_fk" else i.column

/-- The name of an index. -/
def name (i : Index) : String := "idx_" ++ i.table ++ "_" ++ i.label

/-- The statement that creates an index. -/
def sql (i : Index) : String :=
  if i.forReference then Table.referenceIndexSql i.table i.column
  else Table.indexSql i.table i.column

/-- The words before the name of an index. -/
def createWords : String := "CREATE INDEX IF NOT EXISTS "

/-- The name of the index that a statement creates: the word after the first five. -/
def nameOf (statement : String) : String :=
  String.ofList ((statement.toList.drop createWords.length).takeWhile (· != ' '))

/-! ## Statements and names

A statement is a fixed form around a name, which is a table and a column joined by `_`; no name has
a blank in it, so that the name can be read back. -/

/-- **The name stands between the words that create an index and the table.** -/
theorem sql_eq (i : Index) :
    i.sql = createWords ++ i.name ++ " ON " ++ (i.table ++ "(" ++ i.column ++ ");") := by
  obtain ⟨table, column, forReference⟩ := i
  have hwords : createWords ++ "idx_" = "CREATE INDEX IF NOT EXISTS idx_" := by decide
  have hending : "_fk" ++ " ON " = "_fk ON " := by decide
  cases forReference with
  | false =>
    change Table.indexSql table column = _
    unfold Table.indexSql
    simp only [name, label, ← hwords, Bool.false_eq_true, if_false, String.append_assoc]
  | true =>
    change Table.referenceIndexSql table column = _
    unfold Table.referenceIndexSql
    simp only [name, label, ← hwords, ← hending, if_true, String.append_assoc]

/-- The parts of an index are identifiers. -/
structure IsSound (i : Index) : Prop where
  table : isIdentifier i.table.toList
  column : isIdentifier i.column.toList

/-- There is no blank in an identifier. -/
theorem space_not_mem_of_identifier {cs : List Char} (h : isIdentifier cs) : ' ' ∉ cs :=
  fun hm => absurd (isNameChar_of_mem_identifier h ' ' hm) (by decide)

theorem IsSound.space_not_mem_name (h : i.IsSound) : ' ' ∉ i.name.toList := by
  have htable := space_not_mem_of_identifier h.table
  have hcolumn := space_not_mem_of_identifier h.column
  unfold name label
  split <;> simp [htable, hcolumn]

/-- **The name of an index is found in its statement.** -/
theorem IsSound.nameOf_sql (h : i.IsSound) : nameOf i.sql = i.name := by
  have hstatement : i.sql.toList = createWords.toList ++ (i.name.toList ++
      ' ' :: ("ON ".toList ++ (i.table ++ "(" ++ i.column ++ ");").toList)) := by
    simp [sql_eq]
  have hdrop : ∀ cs : List Char, (createWords.toList ++ cs).drop createWords.length = cs :=
    fun cs => List.drop_left' rfl
  have hname : ∀ c ∈ i.name.toList, (c != ' ') = true := fun c hc =>
    bne_iff_ne.mpr fun he => h.space_not_mem_name (he ▸ hc)
  rw [nameOf, hstatement, hdrop, List.takeWhile_append_of_pos hname]
  simp

/-! ## Names that meet

One text is put together in two ways: the `_` that joins one index stands inside a name of the
other. -/

/-- One index has the name of another that comes after it: on a column of the same table whose
name is that of the reference with its ending, or on a table whose name goes on from that of the
first. -/
inductive Meets (i j : Index) : Prop
  | ending (htable : j.table = i.table) (hi : i.forReference = true) (hj : j.forReference = false)
    (hcolumn : j.column = i.column ++ "_fk")
  | longer (x : String) (htable : j.table = i.table ++ "_" ++ x)
    (hlabel : i.label = x ++ "_" ++ j.label)

/-- Two names are the same exactly if their tables and columns make the same text. -/
theorem name_eq_iff_append :
    i.name = j.name ↔
      i.table.toList ++ '_' :: i.label.toList = j.table.toList ++ '_' :: j.label.toList := by
  rw [← String.toList_inj]
  simp [name]

theorem Meets.name_eq (h : i.Meets j) : i.name = j.name := by
  rw [name_eq_iff_append]
  cases h with
  | ending htable hi hj hcolumn => simp [htable, label, hi, hj, hcolumn]
  | longer x htable hlabel => simp [htable, hlabel]

/-- Statements of indexes that meet create the same name. -/
theorem Meets.nameOf_sql_eq (hi : i.IsSound) (hj : j.IsSound) (h : i.Meets j) :
    nameOf i.sql = nameOf j.sql := by
  rw [hi.nameOf_sql, hj.nameOf_sql, h.name_eq]

/-- **Different indexes of one table with one label** are on a reference and on a column that is
named like it with its ending. -/
theorem meets_of_label_eq (hne : i ≠ j) (htable : i.table = j.table) (h : i.label = j.label) :
    i.Meets j ∨ j.Meets i := by
  obtain ⟨t, c, r⟩ := i
  obtain ⟨t', c', r'⟩ := j
  obtain rfl : t = t' := htable
  cases r <;> cases r'
  · obtain rfl : c = c' := h
    exact absurd rfl hne
  · exact .inr (.ending rfl rfl rfl h)
  · exact .inl (.ending rfl rfl rfl h.symm)
  · obtain rfl : c = c' := by
      simpa [label, ← String.toList_inj] using h
    exact absurd rfl hne

/-- Two texts that end alike after the joining character: the longer one goes on with it. -/
theorem exists_of_join_eq {a b l l' : List Char} (h : a ++ '_' :: l = b ++ '_' :: l') :
    (a = b ∧ l = l') ∨ (∃ x, b = a ++ '_' :: x ∧ l = x ++ '_' :: l') ∨
      ∃ x, a = b ++ '_' :: x ∧ l' = x ++ '_' :: l := by
  rcases List.append_eq_append_iff.mp h with ⟨more, rfl, hmore⟩ | ⟨more, rfl, hmore⟩
  · cases more with
    | nil => exact .inl ⟨by simp, by simpa using hmore⟩
    | cons c x =>
      obtain ⟨rfl, rfl⟩ : '_' = c ∧ l = x ++ '_' :: l' := by simpa using hmore
      exact .inr (.inl ⟨x, rfl, rfl⟩)
  · cases more with
    | nil => exact .inl ⟨by simp, by simpa using hmore.symm⟩
    | cons c x =>
      obtain ⟨rfl, rfl⟩ : '_' = c ∧ l' = x ++ '_' :: l := by simpa using hmore
      exact .inr (.inr ⟨x, rfl, rfl⟩)

theorem meets_longer {x : List Char} (htable : j.table.toList = i.table.toList ++ '_' :: x)
    (hlabel : i.label.toList = x ++ '_' :: j.label.toList) : i.Meets j := by
  refine .longer (String.ofList x) ?_ ?_ <;> apply String.toList_inj.mp
  · simp [htable]
  · simp [hlabel]

/-- **Different indexes have one name exactly when one of them meets the other.** -/
theorem name_eq_iff (hne : i ≠ j) : i.name = j.name ↔ i.Meets j ∨ j.Meets i := by
  refine ⟨fun h => ?_, fun h => h.elim Meets.name_eq fun h => h.name_eq.symm⟩
  rcases exists_of_join_eq (name_eq_iff_append.mp h) with
    ⟨htable, hlabel⟩ | ⟨x, htable, hlabel⟩ | ⟨x, htable, hlabel⟩
  · exact meets_of_label_eq hne (String.toList_inj.mp htable) (String.toList_inj.mp hlabel)
  · exact .inl (meets_longer htable hlabel)
  · exact .inr (meets_longer htable hlabel)

end Index

namespace Table

/-! ## Compiled tables -/

theorem table_eq_of_compile {name : String} {tokens : List String} {opts : Options} {a : Artifact}
    (h : compile name tokens opts = .ok a) : a.table = name := by
  obtain ⟨table, hbuild, rfl⟩ := map_eq_ok_iff.mp h
  exact name_eq_of_build hbuild

/-- **Every statement of a compiled table creates an index of its own table.** -/
theorem exists_index_of_compile {name : String} {tokens : List String} {opts : Options}
    {a : Artifact} (h : compile name tokens opts = .ok a) {s : String} (hs : s ∈ a.extraSql) :
    ∃ i : Index, i.IsSound ∧ i.table = a.table ∧ i.sql = s := by
  obtain ⟨table, hbuild, rfl⟩ := map_eq_ok_iff.mp h
  have hbuilt := builtFrom_of_build hbuild
  obtain ⟨c, hc, hsql⟩ := hbuilt.statements s hs
  have hsound : ∀ r, (Index.mk table.name c.name r).IsSound := fun r =>
    ⟨hbuilt.name, (hbuilt.sound c hc).name⟩
  rcases hsql with rfl | rfl
  · exact ⟨⟨table.name, c.name, false⟩, hsound false, rfl, rfl⟩
  · exact ⟨⟨table.name, c.name, true⟩, hsound true, rfl, rfl⟩

/-- A statement that one of some artifacts has, with the index of its table that it creates. -/
structure Creates (artifacts : List Artifact) (s : String) (i : Index) : Prop where
  owner : ∃ a ∈ artifacts, a.table = i.table ∧ s ∈ a.extraSql
  sql : i.sql = s
  /-- The name of the index is the text between the words and the table. -/
  between :
    s = Index.createWords ++ Index.nameOf s ++ " ON " ++ (i.table ++ "(" ++ i.column ++ ");")
  nameOf : Index.nameOf s = i.name

variable {artifacts : List Artifact} {s s' : String}

/-- **Every statement of some compiled tables creates an index of one of them.** -/
theorem exists_creates
    (h : ∀ a ∈ artifacts, ∃ name tokens opts, compile name tokens opts = .ok a)
    (hs : s ∈ artifacts.flatMap (·.extraSql)) : ∃ i, Creates artifacts s i := by
  obtain ⟨a, ha, hs⟩ := List.mem_flatMap.mp hs
  obtain ⟨name, tokens, opts, hcompile⟩ := h a ha
  obtain ⟨i, hsound, htable, rfl⟩ := exists_index_of_compile hcompile hs
  refine ⟨i, ⟨a, ha, htable.symm, hs⟩, rfl, ?_, hsound.nameOf_sql⟩
  rw [hsound.nameOf_sql, ← i.sql_eq]

/-- **Which statements of compiled tables create indexes of one name**: two different ones do
exactly when one index meets the other, on a reference `c` and a column `c_fk` of the same table or
on a column `x_c` of a table `T` and the column `c` of a table `T_x`. -/
theorem nameOf_eq_iff
    (h : ∀ a ∈ artifacts, ∃ name tokens opts, compile name tokens opts = .ok a)
    (hs : s ∈ artifacts.flatMap (·.extraSql)) (hs' : s' ∈ artifacts.flatMap (·.extraSql))
    (hne : s ≠ s') :
    ∃ i j, Creates artifacts s i ∧ Creates artifacts s' j ∧
      (Index.nameOf s = Index.nameOf s' ↔ i.Meets j ∨ j.Meets i) := by
  obtain ⟨i, hi⟩ := exists_creates h hs
  obtain ⟨j, hj⟩ := exists_creates h hs'
  have hindex : i ≠ j := by
    rintro rfl
    exact hne (hi.sql.symm.trans hj.sql)
  refine ⟨i, j, hi, hj, ?_⟩
  rw [hi.nameOf, hj.nameOf]
  exact Index.name_eq_iff hindex

/-- A reference, a column that is named like it with its ending, and a column whose name starts like
the rest of another table's name. -/
def entryTokens : List String := ["author->users", "author_fk^", "tag_label^"]

/-- The column of a table whose name goes on from that of the first. -/
def entryTagTokens : List String := ["label^"]

theorem extraSql_entry : (compile "entry" entryTokens {}).map (·.extraSql) =
    .ok [Index.sql ⟨"entry", "author_fk", false⟩, Index.sql ⟨"entry", "tag_label", false⟩,
      Index.sql ⟨"entry", "author", true⟩] := by
  decide +kernel

theorem extraSql_entryTag : (compile "entry_tag" entryTagTokens {}).map (·.extraSql) =
    .ok [Index.sql ⟨"entry_tag", "label", false⟩] := by
  decide +kernel

theorem nameOf_eq_iff_entry :
    ∃ a b, compile "entry" entryTokens {} = .ok a ∧ compile "entry_tag" entryTagTokens {} = .ok b ∧
      ∃ i j, Creates [a, b] (Index.sql ⟨"entry", "tag_label", false⟩) i ∧
        Creates [a, b] (Index.sql ⟨"entry_tag", "label", false⟩) j ∧ (i.Meets j ∨ j.Meets i) := by
  obtain ⟨a, ha, hsql⟩ := map_eq_ok_iff.mp extraSql_entry
  obtain ⟨b, hb, hsql'⟩ := map_eq_ok_iff.mp extraSql_entryTag
  have hcompile : ∀ c ∈ [a, b], ∃ name tokens opts, compile name tokens opts = .ok c := by
    simp only [List.mem_cons, List.not_mem_nil, or_false]
    rintro c (rfl | rfl)
    · exact ⟨_, _, _, ha⟩
    · exact ⟨_, _, _, hb⟩
  obtain ⟨i, j, hi, hj, hiff⟩ := nameOf_eq_iff hcompile
    (List.mem_flatMap.mpr ⟨a, by simp, hsql ▸ List.mem_cons_of_mem _ List.mem_cons_self⟩)
    (List.mem_flatMap.mpr ⟨b, by simp, hsql' ▸ List.mem_cons_self⟩) (by decide)
  refine ⟨a, b, ha, hb, i, j, hi, hj, hiff.mp ?_⟩
  exact Index.Meets.nameOf_sql_eq ⟨by decide, by decide⟩ ⟨by decide, by decide⟩
    (.longer "tag" rfl rfl)

/-- **Two statements can create one index**: of one table, and of two. -/
theorem exists_statements_of_one_index :
    ∃ a b, compile "entry" entryTokens {} = .ok a ∧ compile "entry_tag" entryTagTokens {} = .ok b ∧
      a.table ≠ b.table ∧
      (∃ s ∈ a.extraSql, ∃ s' ∈ a.extraSql, s ≠ s' ∧ Index.nameOf s = Index.nameOf s') ∧
      ∃ s ∈ a.extraSql, ∃ s' ∈ b.extraSql, s ≠ s' ∧ Index.nameOf s = Index.nameOf s' := by
  obtain ⟨a, ha, hsql⟩ := map_eq_ok_iff.mp extraSql_entry
  obtain ⟨b, hb, hsql'⟩ := map_eq_ok_iff.mp extraSql_entryTag
  refine ⟨a, b, ha, hb, ?_⟩
  rw [table_eq_of_compile ha, table_eq_of_compile hb, hsql, hsql']
  refine ⟨by decide, ?_, ?_⟩
  · refine ⟨Index.sql ⟨"entry", "author", true⟩, by simp,
      Index.sql ⟨"entry", "author_fk", false⟩, by simp, by decide, ?_⟩
    exact Index.Meets.nameOf_sql_eq ⟨by decide, by decide⟩ ⟨by decide, by decide⟩
      (.ending rfl rfl rfl rfl)
  · refine ⟨Index.sql ⟨"entry", "tag_label", false⟩, by simp,
      Index.sql ⟨"entry_tag", "label", false⟩, by simp, by decide, ?_⟩
    exact Index.Meets.nameOf_sql_eq ⟨by decide, by decide⟩ ⟨by decide, by decide⟩
      (.longer "tag" rfl rfl)

end Table

end Tablature
