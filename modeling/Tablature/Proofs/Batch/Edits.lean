import Mathlib.Data.List.Forall2
import Mathlib.Data.List.Nodup
import Tablature.Batch.Members

/-!
# Proofs/Batch/Edits — objects that differ by the spelling of their members

The objects of a document are of four kinds, each with the members that are looked up in it:
documents, tables, fields and references.  `Edits` says how the members of two objects of one kind
may differ: names may be spelled differently, and members that are `null` or not looked up may come
and go.  What is looked up is compared by `AlikeDocument` and its like, kind by kind; a value that
is not looked into is the same scalar on both sides, or a container on both (`AlikeScalar`).

Every look-up sees alike values: `Respelled.rel_get?`.
-/

namespace Tablature.Batch

open Json (Value)

/-! ## Values that differ by spelling

Four relations of the same form, one for each kind of object; each says which members are read, and
how the values of these are compared. -/

/-- Two values with the same scalars, whose items or members are compared if they are containers. -/
inductive AlikeBy (items : List Value → List Value → Prop) (members : Members → Members → Prop) :
    Value → Value → Prop
  | null : AlikeBy items members .null .null
  | bool (b : Bool) : AlikeBy items members (.bool b) (.bool b)
  | number (n : Json.Number) : AlikeBy items members (.number n) (.number n)
  | string (s : String) : AlikeBy items members (.string s) (.string s)
  | array {xs ys : List Value} (h : items xs ys) : AlikeBy items members (.array xs) (.array ys)
  | object {ms ms' : Members} (h : members ms ms') :
    AlikeBy items members (.object ms) (.object ms')

/-- No comparison at all. -/
def Any {α : Type} (_ _ : α) : Prop := True

/-- Two values where a scalar is expected: containers are not looked into. -/
def AlikeScalar : Value → Value → Prop := AlikeBy Any Any

/-- How the members of an object are read, by the key of a name: not at all, or with their values
compared by a relation. -/
abbrev Reads : Type := String → Option (Value → Value → Prop)

/-- A member that may be added or removed: it is not looked up, or `null`. -/
def Free (key : String → String) (reads : Reads) (m : String × Value) : Prop :=
  reads (key m.1) = none ∨ m.2 = .null

/-- The members of two objects that differ by edits: names with the same key take each other's
place, and members that do not count are added and removed.  Objects list their members by name, so
that new spellings come in another order. -/
inductive Edits (key : String → String) (reads : Reads) : Members → Members → Prop
  | nil : Edits key reads [] []
  | respell {k k' : String} {v v' : Value} {ms ms' : Members} (hk : key k = key k')
    (hv : ∀ S, reads (key k) = some S → S v v') (h : Edits key reads ms ms') :
    Edits key reads ((k, v) :: ms) ((k', v') :: ms')
  | add {m : String × Value} {ms ms' : Members} (hm : Free key reads m)
    (h : Edits key reads ms ms') : Edits key reads ms (m :: ms')
  | remove {m : String × Value} {ms ms' : Members} (hm : Free key reads m)
    (h : Edits key reads ms ms') : Edits key reads (m :: ms) ms'
  | reorder {ms ns ns' ms' : Members} (hm : ms.Perm ns) (h : Edits key reads ns ns')
    (hm' : ns'.Perm ms') : Edits key reads ms ms'

theorem Edits.respell_to {key : String → String} {reads : Reads} {S : Value → Value → Prop}
    {k k' : String} {v v' : Value} {ms ms' : Members} (c : String) (hk : key k = c)
    (hk' : key k' = c) (hS : reads c = some S) (hv : S v v') (h : Edits key reads ms ms') :
    Edits key reads ((k, v) :: ms) ((k', v') :: ms') := by
  refine .respell (hk.trans hk'.symm) (fun S' hS' => ?_) h
  obtain rfl := Option.some.inj (hS.symm.trans (hk ▸ hS'))
  exact hv

/-- Edits between objects that have no two names with one key. -/
structure Respelled (key : String → String) (reads : Reads) (ms ms' : Members) : Prop where
  distinct : (ms.map fun m => key m.1).Nodup
  distinct' : (ms'.map fun m => key m.1).Nodup
  edits : Edits key reads ms ms'

/-- The members of a reference. -/
def referenceReads : Reads := fun name =>
  if name ∈ ["table", "column", "ondelete", "onupdate", "deferred", "deferrable", "defer"] then
    some AlikeScalar
  else none

/-- Two values for a reference. -/
def AlikeReference : Value → Value → Prop := AlikeBy Any (Respelled normalName referenceReads)

/-- The members of a field. -/
def fieldReads : Reads := fun name =>
  if name ∈ ["fk", "foreignkey", "references"] then some AlikeReference
  else if name ∈ ["name", "type", "notnull", "unique", "index", "pk", "primary", "primarykey",
      "autoincrement", "ai", "default"] then some AlikeScalar
  else none

/-- Two values for a field. -/
def AlikeField : Value → Value → Prop := AlikeBy Any (Respelled normalName fieldReads)

/-- Two values for the fields of a table. -/
def AlikeFields : Value → Value → Prop := AlikeBy (List.Forall₂ AlikeField) Any

/-- The key of a name in a table, where `columns` is another word for `fields`. -/
def tableKey (name : String) : String :=
  if normalName name = "columns" then "fields" else normalName name

/-- The members of a table. -/
def tableReads : Reads := fun name =>
  if name = "fields" then some AlikeFields
  else if name ∈ ["name", "stamps", "version"] then some AlikeScalar
  else none

/-- Two values for a table. -/
def AlikeTable : Value → Value → Prop := AlikeBy Any (Respelled tableKey tableReads)

/-- Two values for the tables of a document. -/
def AlikeTables : Value → Value → Prop := AlikeBy (List.Forall₂ AlikeTable) Any

/-- The members of a document. -/
def documentReads : Reads := fun name =>
  if name = "tables" then some AlikeTables
  else if name ∈ ["outdir", "defaultondelete", "defaultonupdate"] then some AlikeScalar
  else none

/-- **Two values that differ by the spelling of a document** and by what is not looked up in it. -/
def AlikeDocument : Value → Value → Prop := AlikeBy Any (Respelled normalName documentReads)

/-! ## Look-ups -/

variable {key : String → String} {reads : Reads} {S : Value → Value → Prop} {ms ms' : Members}
  {name c : String} {names : List String} {v v' : Value}

/-- What a look-up finds is a member of that name. -/
theorem mem_of_find? (h : ms.find? name = some v) : ∃ k, (k, v) ∈ ms ∧ normalName k = name := by
  have hfrom : ∀ found, ms.foldl (fun found m => if normalName m.1 = name then some m.2 else found)
      found = some v → found = some v ∨ ∃ k, (k, v) ∈ ms ∧ normalName k = name := by
    clear h
    induction ms with
    | nil => exact fun found h => .inl h
    | cons m ms ih =>
      intro found h
      rcases ih _ h with hfound | ⟨k, hm, hk⟩
      · dsimp only at hfound
        split at hfound
        · next hk => exact .inr ⟨m.1, Option.some.inj hfound ▸ List.mem_cons_self, hk⟩
        · exact .inl hfound
      · exact .inr ⟨k, List.mem_cons_of_mem m hm, hk⟩
  exact (hfrom none h).resolve_left nofun

/-- A member is found, unless the object has another that is spelled like it. -/
theorem find?_of_mem {k : String} (hd : (ms.map fun m => key m.1).Nodup)
    (hkey : ∀ k', normalName k' = normalName k → key k' = key k) (hm : (k, v) ∈ ms) :
    ms.find? (normalName k) = some v := by
  obtain ⟨front, back, rfl⟩ := List.append_of_mem hm
  rw [List.map_append, List.map_cons] at hd
  have hback : ∀ m ∈ back, normalName m.1 ≠ normalName k := fun m hm he =>
    (List.nodup_cons.mp (List.nodup_append.mp hd).2.1).1 (List.mem_map.mpr ⟨m, hm, hkey _ he⟩)
  -- the last member of a name counts
  rw [Members.find?, List.foldl_append, List.foldl_cons, if_pos rfl]
  clear hd hm
  induction back with
  | nil => rfl
  | cons m back ih =>
    rw [List.foldl_cons, if_neg (hback m List.mem_cons_self)]
    exact ih fun m' hm' => hback m' (List.mem_cons_of_mem m hm')

/-- **A look-up by names that share a key** gives the member of that key, if it is not `null`. -/
theorem get?_eq_some_iff (hd : (ms.map fun m => key m.1).Nodup)
    (hkey : ∀ k, key k = c ↔ normalName k ∈ names) :
    ms.get? names = some v ↔ ∃ k, (k, v) ∈ ms ∧ key k = c ∧ v.isNull = false := by
  have hfound : ∀ {v}, ms.get? names = some v →
      ∃ k, (k, v) ∈ ms ∧ key k = c ∧ v.isNull = false := by
    intro v h
    obtain ⟨name, hname, hfind⟩ := List.exists_of_findSome?_eq_some h
    obtain ⟨hfind, hnull⟩ := Option.filter_eq_some_iff.mp hfind
    obtain ⟨k, hm, rfl⟩ := mem_of_find? hfind
    exact ⟨k, hm, (hkey k).mpr hname, by simpa using hnull⟩
  refine ⟨hfound, ?_⟩
  rintro ⟨k, hm, hk, hnull⟩
  have hname : normalName k ∈ names := (hkey k).mp hk
  have hfind : ms.find? (normalName k) = some v :=
    find?_of_mem hd (fun k' he => ((hkey k').mpr (he ▸ hname)).trans hk.symm) hm
  have hsome : (ms.get? names).isSome := by
    refine List.findSome?_isSome_iff.mpr ⟨_, hname, ?_⟩
    simp [hfind, hnull]
  obtain ⟨v', hv'⟩ := Option.isSome_iff_exists.mp hsome
  obtain ⟨k', hm', hk', -⟩ := hfound hv'
  have hsame := List.inj_on_of_nodup_map hd hm' hm (hk'.trans hk.symm)
  rw [hv', (Prod.mk.inj hsame).2]

theorem AlikeBy.isNull_eq {items : List Value → List Value → Prop}
    {members : Members → Members → Prop} (h : AlikeBy items members v v') :
    v.isNull = v'.isNull := by
  cases h <;> rfl

/-- Members read with the sides of every comparison exchanged. -/
def Reads.flip (reads : Reads) : Reads := fun name => (reads name).map Function.swap

/-- What an edit does another takes back. -/
theorem Edits.symm (h : Edits key reads ms ms') : Edits key reads.flip ms' ms := by
  have hfree : ∀ {m}, Free key reads m → Free key reads.flip m := fun {m} hm =>
    hm.imp_left fun hnone => by rw [Reads.flip, hnone, Option.map_none]
  induction h with
  | nil => exact .nil
  | respell hk hv _ ih =>
    refine .respell hk.symm (fun S hS => ?_) ih
    obtain ⟨S', hS', rfl⟩ := Option.map_eq_some_iff.mp hS
    exact hv S' (hk ▸ hS')
  | add hm _ ih => exact .remove (hfree hm) ih
  | remove hm _ ih => exact .add (hfree hm) ih
  | reorder hm _ hm' ih => exact .reorder hm'.symm ih hm.symm

/-- **What counts in one object is in the other**, under a name with the same key. -/
theorem Edits.exists_mem (h : Edits key reads ms ms') (hS : reads c = some S) {k : String}
    (hm : (k, v) ∈ ms) (hk : key k = c) (hnull : v.isNull = false) :
    ∃ k' v', (k', v') ∈ ms' ∧ key k' = c ∧ S v v' := by
  induction h with
  | nil => exact nomatch hm
  | respell hkey hv _ ih =>
    rcases List.mem_cons.mp hm with he | hm
    · obtain ⟨rfl, rfl⟩ := Prod.mk.inj he
      exact ⟨_, _, List.mem_cons_self, hkey.symm.trans hk, hv S (hk ▸ hS)⟩
    · obtain ⟨k', v', hm', hv'⟩ := ih hm
      exact ⟨k', v', List.mem_cons_of_mem _ hm', hv'⟩
  | add _ _ ih =>
    obtain ⟨k', v', hm', hv'⟩ := ih hm
    exact ⟨k', v', List.mem_cons_of_mem _ hm', hv'⟩
  | remove hfree _ ih =>
    rcases List.mem_cons.mp hm with rfl | hm
    · rcases hfree with hnone | rfl
      · rw [hk, hS] at hnone
        exact nomatch hnone
      · exact nomatch hnull
    · exact ih hm
  | reorder hms _ hms' ih =>
    obtain ⟨k', v', hm', hv'⟩ := ih (hms.mem_iff.mp hm)
    exact ⟨k', v', hms'.mem_iff.mp hm', hv'⟩

/-- **Look-ups see alike values**: what one object has under a key the other has too, and the two
are compared as the key says. -/
theorem Respelled.rel_get? (h : Respelled key reads ms ms') (hS : reads c = some S)
    (hnull : ∀ {v v'}, S v v' → v.isNull = v'.isNull)
    (hkey : ∀ k, key k = c ↔ normalName k ∈ names) :
    Option.Rel S (ms.get? names) (ms'.get? names) := by
  cases hv : ms.get? names with
  | some v =>
    obtain ⟨k, hm, hk, hn⟩ := (get?_eq_some_iff h.distinct hkey).mp hv
    obtain ⟨k', v', hm', hk', hSv⟩ := h.edits.exists_mem hS hm hk hn
    rw [(get?_eq_some_iff h.distinct' hkey).mpr ⟨k', hm', hk', hnull hSv ▸ hn⟩]
    exact .some hSv
  | none =>
    cases hv' : ms'.get? names with
    | none => exact .none
    | some v' =>
      have hflip : reads.flip c = some (Function.swap S) := by rw [Reads.flip, hS, Option.map_some]
      obtain ⟨k', hm', hk', hn⟩ := (get?_eq_some_iff h.distinct' hkey).mp hv'
      obtain ⟨k, v, hm, hk, hSv⟩ := h.edits.symm.exists_mem hflip hm' hk' hn
      have hsome := (get?_eq_some_iff h.distinct hkey).mpr ⟨k, hm, hk, (hnull hSv).trans hn⟩
      exact nomatch hsome.symm.trans hv

theorem get?_cons (ms : Members) (name : String) (names : List String) :
    ms.get? (name :: names) = (ms.get? [name]).or (ms.get? names) := by
  unfold Members.get?
  rw [List.findSome?_cons, List.findSome?_singleton]
  cases (ms.find? name).filter (!·.isNull) <;> rfl

theorem rel_or {o o' p p' : Option Value} (ho : Option.Rel S o o') (hp : Option.Rel S p p') :
    Option.Rel S (o.or p) (o'.or p') := by
  cases ho with
  | none => exact hp
  | some h => exact .some h

/-- Look-ups by several names, each a key of its own. -/
theorem Respelled.rel_get?_names (h : Respelled normalName reads ms ms')
    (hnull : ∀ {v v'}, S v v' → v.isNull = v'.isNull) (hS : ∀ name ∈ names, reads name = some S) :
    Option.Rel S (ms.get? names) (ms'.get? names) := by
  induction names with
  | nil => exact .none
  | cons name names ih =>
    rw [get?_cons, get?_cons ms']
    refine rel_or (h.rel_get? (hS name List.mem_cons_self) hnull fun k => ?_)
      (ih fun n hn => hS n (List.mem_cons_of_mem name hn))
    rw [List.mem_singleton]

theorem tableKey_eq_fields_iff (k : String) :
    tableKey k = "fields" ↔ normalName k ∈ ["fields", "columns"] := by
  unfold tableKey
  split
  · next hcolumns => simp [hcolumns]
  · next hcolumns => simp [hcolumns]

theorem tableKey_eq_iff (hfields : c ≠ "fields") (hcolumns : c ≠ "columns") (k : String) :
    tableKey k = c ↔ normalName k ∈ [c] := by
  unfold tableKey
  split
  · next hk => simp [hk, hfields.symm, hcolumns.symm]
  · rw [List.mem_singleton]

end Tablature.Batch
