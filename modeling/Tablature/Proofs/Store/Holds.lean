import Tablature.Proofs.Store.Generate
import Tablature.Proofs.Store.Read

/-!
# Proofs/Store/Holds — what is at the path of an artifact

That a path holds something (`FileTree.Holds`) is said of the entry it names, links followed up to
its last step and not there.  What is held stays as long as a tree only grows; a path that ends in a
name leads somewhere only if it holds an entry, and a file that may replace nothing gives way to
what its path holds and to nothing else.

The path of an artifact ends in a name whatever the table is called (`endsInName_pathFor`), so that
all of this holds of it.
-/

namespace Tablature

namespace FileTree

variable {t t' : FileTree} {text : String} {node node' : Node} {l l' : Location}

/-! ## What a path holds

Three ways to look at a path agree on whether it holds an entry: whether it leads anywhere, whether
a file may be put there, and which entry it names. -/

/-- A path text names a location, and there is an entry. -/
def Holds (t : FileTree) (text : String) (node : Node) : Prop :=
  ∃ l, t.Names text l ∧ t.get? l = some node

theorem Names.unique (h : t.Names text l) (h' : t.Names text l') : l = l' := by
  obtain ⟨q, hq, hl⟩ := h
  obtain ⟨q', hq', hl'⟩ := h'
  obtain rfl := Except.ok.inj (hq.symm.trans hq')
  exact Except.ok.inj (hl.symm.trans hl')

theorem Names.of_grows (h : t.Names text l) (hg : Grows t t') (hh : t'.here = t.here) :
    t'.Names text l := by
  obtain ⟨q, hq, hl⟩ := h
  obtain ⟨front, name, loc, hsteps, hwalk, hrest⟩ := placeOf_eq_ok_iff.mp hl
  rw [← start_eq_of_here hh q] at hwalk
  exact ⟨q, hq, placeOf_eq_ok_iff.mpr
    ⟨front, name, loc, hsteps, walkLinks_of_grows hg hwalk, hrest⟩⟩

/-- **What a path holds it still holds when the tree grows.** -/
theorem Holds.of_grows (h : t.Holds text node) (hg : Grows t t') (hh : t'.here = t.here) :
    t'.Holds text node := by
  obtain ⟨l, hl, hnode⟩ := h
  exact ⟨l, hl.of_grows hg hh, hg l node hnode⟩

theorem Holds.unique (h : t.Holds text node) (h' : t.Holds text node') : node = node' := by
  obtain ⟨l, hl, hnode⟩ := h
  obtain ⟨l', hl', hnode'⟩ := h'
  obtain rfl := hl.unique hl'
  exact Option.some.inj (hnode.symm.trans hnode')

/-- A path that leads somewhere still leads there when the tree grows. -/
theorem resolve_of_grows {spot : Spot} (hg : Grows t t') (hh : t'.here = t.here)
    (h : t.resolve text = .ok spot) : t'.resolve text = .ok spot := by
  unfold resolve at h ⊢
  cases hq : Path.ofText text with
  | error fault =>
    rw [hq] at h
    exact nomatch h
  | ok q =>
    simp only [hq, Except.bind, resolvePath, start_eq_of_here hh] at h ⊢
    exact walkLinks_of_grows hg h

/-- The last step of a path text is the name of an entry. -/
def EndsInName (text : String) : Prop :=
  ∀ q, Path.ofText text = .ok q →
    q.slash = false ∧ ∃ front name, q.steps = front ++ [name] ∧ IsName name

/-- **A path that leads anywhere holds an entry.** -/
theorem exists_holds_of_exists (hend : EndsInName text) (h : t.exists? text = true) :
    ∃ node, t.Holds text node := by
  unfold exists? resolve at h
  cases hq : Path.ofText text with
  | error fault => simp [hq, Except.bind] at h
  | ok q =>
    obtain ⟨hslash, front, name, hsteps, hname⟩ := hend q hq
    obtain ⟨k, hk⟩ := t.walkLinks_append maxLinks (t.start q) front
    simp only [hq, Except.bind, resolvePath, Path.lookupSteps, hslash, Bool.false_eq_true,
      if_false, hsteps, hk] at h
    cases hwalk : t.walkLinks maxLinks (t.start q) front with
    | error fault => simp [hwalk, goOn] at h
    | ok spot =>
      cases spot with
      | file l bytes => simp [hwalk, goOn] at h
      | dir loc =>
        rw [hwalk, goOn, walkLinks_name hname] at h
        by_cases hlong : name.utf8ByteSize > maxNameBytes
        · simp [hlong] at h
        · have hplace : t.placeOf q = .ok (loc ++ [name]) :=
            placeOf_eq_ok_iff.mpr ⟨front, name, loc, hsteps, hwalk, hname, hlong, rfl⟩
          cases hget : t.get? (loc ++ [name]) with
          | none => simp [hlong, hget] at h
          | some node => exact ⟨node, loc ++ [name], ⟨q, hq, hplace⟩, hget⟩

/-- No look-up fails because of something that is there. -/
theorem walkLinks_ne_alreadyExists (k : Nat) (loc : Location) (steps : List String) :
    t.walkLinks k loc steps ≠ .error .alreadyExists := by
  induction k, loc, steps using t.walkInduction with
  | nil k loc => simp
  | dot k loc rest ih => simpa using ih
  | up k loc rest ih => simpa using ih
  | name k loc name rest hn ih hlink =>
    rw [walkLinks_name hn]
    by_cases hlong : name.utf8ByteSize > maxNameBytes
    · simp [hlong]
    · rw [if_neg hlong]
      cases hget : t.get? (loc ++ [name]) with
      | none => simp
      | some node =>
        cases node with
        | dir => exact ih
        | file bytes => cases rest <;> simp
        | link target =>
          cases k with
          | zero => simp [follow]
          | succ links =>
            simp only [follow]
            cases hp : Path.ofText target with
            | error fault => rcases Path.fault_of_ofText hp with rfl | rfl | rfl <;> simp
            | ok p => exact hlink links target p rfl hget hp

/-- A path that ends in a name has its place refused only by what stands in the way. -/
theorem placeOf_ne_alreadyExists {q : Path} {front : List String} {name : String}
    (hsteps : q.steps = front ++ [name]) (hname : IsName name) :
    t.placeOf q ≠ .error .alreadyExists := by
  intro h
  unfold placeOf at h
  rw [hsteps, List.dropLast_concat, List.getLast?_concat] at h
  split at h
  · next fault hwalk =>
    obtain rfl := Except.error.inj h
    exact walkLinks_ne_alreadyExists _ _ _ hwalk
  · simp at h
  · simp only [if_neg (not_or.mpr hname)] at h
    split at h <;> simp at h

/-- **A file that may replace nothing gives way to what its path holds**, and to nothing else. -/
theorem exists_holds_of_place {bytes : ByteArray} (hend : EndsInName text)
    (h : place false text bytes t = .error .alreadyExists t') : ∃ node, t.Holds text node := by
  unfold place at h
  split at h
  · next fault hq =>
    obtain ⟨hfault, -⟩ := EStateM.Result.error.inj h
    rcases Path.fault_of_ofText hq with rfl | rfl | rfl <;> simp [placeFault] at hfault
  · next q hq =>
    obtain ⟨-, front, name, hsteps, hname⟩ := hend q hq
    split at h
    · next fault hplace =>
      obtain ⟨rfl, -⟩ := EStateM.Result.error.inj h
      exact absurd hplace (placeOf_ne_alreadyExists hsteps hname)
    · next l hplace =>
      cases hget : t.get? l with
      | none => simp [hget] at h
      | some node => exact ⟨node, l, ⟨q, hq, hplace⟩, hget⟩

/-- A file that is put in place where nothing was is what the path holds. -/
theorem holds_of_place {bytes : ByteArray} (h : place false text bytes t = .ok () t') :
    (∀ node, ¬ t.Holds text node) ∧ Grows t t' ∧ t'.here = t.here ∧
      t'.Holds text (.file bytes) := by
  obtain ⟨l, hl, rfl, -, hnone⟩ := exists_names_of_place h
  have hgrows : Grows t (t.set l (.file bytes)) := grows_set (hnone rfl) _
  have hhere := here_set t l (.file bytes)
  have hadmits := hl.admits (n := .file bytes) fun he => nomatch (hnone rfl).symm.trans he
  refine ⟨?_, hgrows, hhere, l, hl.of_grows hgrows hhere, get?_set_self hadmits⟩
  rintro node ⟨l', hl', hnode⟩
  rw [← hl.unique hl', hnone rfl] at hnode
  exact nomatch hnode

/-- Making a directory leaves the working directory. -/
theorem here_makeDirs (text : String) (t : FileTree) :
    (treeAfter (makeDirs text t)).here = t.here := by
  cases hp : Path.ofDir text with
  | error fault => rw [makeDirs_of_ofDir_error hp t, treeAfter_error]
  | ok p => exact (paves_makeDirs hp t).here

end FileTree

namespace Store

/-! ## The path of an artifact -/

theorem exists_steps_append (cs : List Char) :
    ∃ front table, Path.stepsOf (cs ++ ".json".toList) = front ++ [table ++ ".json"] := by
  have hlast : ∀ part : List Char, '/' ∉ part →
      Path.stepsOf (part ++ ".json".toList) = [String.ofList part ++ ".json"] := by
    intro part hpart
    have hslash : '/' ∉ part ++ ".json".toList := by
      rw [List.mem_append, not_or]
      exact ⟨hpart, by decide⟩
    rw [Path.stepsOf_of_no_slash hslash (by simp), String.ofList_append, String.ofList_toList]
  by_cases hslash : '/' ∈ cs
  · -- the last slash is the first from behind
    obtain ⟨part, front, hcs, hpart⟩ := List.eq_append_cons_of_mem (List.mem_reverse.mpr hslash)
    have hsplit : cs = front.reverse ++ '/' :: part.reverse := by
      simpa using congrArg List.reverse hcs
    refine ⟨Path.stepsOf front.reverse, String.ofList part.reverse, ?_⟩
    rw [hsplit, List.append_assoc, List.cons_append, Path.stepsOf_append, hlast]
    exact fun hm => hpart (List.mem_reverse.mp hm)
  · exact ⟨[], String.ofList cs, hlast cs hslash⟩

theorem exists_pathFor_eq (s : Store) (table : String) :
    ∃ front, s.pathFor table = front ++ ".json" := by
  unfold pathFor Path.join
  split
  · exact ⟨table, rfl⟩
  · split
    · exact ⟨s.dir ++ table, String.append_assoc.symm⟩
    · exact ⟨s.dir ++ "/" ++ table, String.append_assoc.symm⟩

/-- The path of an artifact ends in the name of an entry, whatever the table is called. -/
theorem endsInName_pathFor (s : Store) (table : String) :
    FileTree.EndsInName (s.pathFor table) := by
  intro q hq
  obtain ⟨-, -, -, rfl⟩ := Path.ofText_eq_ok_iff.mp hq
  obtain ⟨text, htext⟩ := s.exists_pathFor_eq table
  obtain ⟨front, name, hsteps⟩ := exists_steps_append text.toList
  refine ⟨by simp [getLast?_pathFor], front, name ++ ".json", ?_, isName_of_json name⟩
  dsimp only
  rw [htext, String.toList_append, hsteps]

/-- Nothing is at the path of an artifact, nor is when the store's directory has been made. -/
def Vacant (s : Store) (table : String) (t : FileTree) : Prop :=
  ∀ node, ¬ t.Holds (s.pathFor table) node ∧
    ∀ t₁, FileTree.makeDirs s.dir t = .ok () t₁ → ¬ t₁.Holds (s.pathFor table) node

/-- **A path that holds nothing is vacant**, as making a directory puts nothing in it.  A way to the
directory that goes up again is another matter: the store `users.json/..` makes a directory where
its own table `users` would go. -/
theorem vacant_of_not_holds {s : Store} {table : String} {t : FileTree} {p : Path}
    (hid : isIdentifier table.toList) (hp : Path.ofDir s.dir = .ok p) (hup : ".." ∉ p.steps)
    (h : ∀ node, ¬ t.Holds (s.pathFor table) node) : s.Vacant table t := by
  refine fun node => ⟨h node, fun t₁ hm hnode => ?_⟩
  obtain ⟨l, hl, hget⟩ := hnode
  obtain ⟨q, hq, hplace⟩ := hl
  obtain ⟨loc, p', hp', hleads⟩ := exists_liesAt_of_makeDirs hm
  obtain rfl := Except.ok.inj (hp.symm.trans hp')
  obtain ⟨front, name, loc', hsteps, hwalk, -, -, rfl⟩ := FileTree.placeOf_eq_ok_iff.mp hplace
  obtain ⟨p', hp', rfl⟩ := ofText_pathFor hid hq
  obtain rfl := Except.ok.inj (hp.symm.trans hp')
  obtain ⟨rfl, -⟩ := List.append_inj' hsteps rfl
  obtain rfl : loc = loc' := hleads.unique hwalk
  have hmakes := FileTree.makes_of_makeDirs hp hup hm hleads
  obtain rfl : t₁ = t := hmakes.eq_of_below (by rw [hget]; exact Option.some_ne_none node)
  exact h node ⟨_, ⟨_, hq, hplace⟩, hget⟩

end Store

end Tablature
