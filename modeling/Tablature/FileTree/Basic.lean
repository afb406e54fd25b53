import Tablature.FileTree.Path

/-!
# FileTree/Basic — trees of files, directories and links

A tree is a finite map from locations to what is there, and a working directory. A location is the
list of names from the root; the root itself is always a directory and has no entry.

Every entry lies in a directory, and the working directory is one. A tree carries the proof of
that (`FileTree.nested`, `FileTree.here_dir`), so there are no others:

* `FileTree.get?` — what is at a location, links not followed: the view in which changes are
  stated;
* `FileTree.HasDir` — that a location is a directory; what is above an entry is one
  (`hasDir_of_get?`);
* `FileTree.set`, `FileTree.erase` — a change at one location. A change after which an entry would
  lie in no directory is not made: the tree has to admit a node (`FileTree.Admits`), and a directory
  is not erased.
-/

namespace Tablature

/-- Where an entry of a tree is: the names from the root. -/
abbrev Location : Type := List String

/-- What can be at a location. -/
inductive Node where
  | file (bytes : ByteArray)
  | dir
  /-- A symbolic link, with the path it leads to. -/
  | link (target : String)

instance : DecidableEq Node
  | .file a, .file b =>
    match ByteArray.instDecidableEq a b with
    | isTrue h => isTrue (congrArg Node.file h)
    | isFalse h => isFalse fun e => h (Node.file.inj e)
  | .dir, .dir => isTrue rfl
  | .link a, .link b =>
    if h : a = b then isTrue (congrArg Node.link h) else isFalse fun e => h (Node.link.inj e)
  | .file _, .dir | .file _, .link _ | .dir, .file _ | .dir, .link _ | .link _, .file _
  | .link _, .dir => isFalse nofun

/-- A list of entries has a directory at a location: that is the root, or listed as one. -/
def ListsDir (nodes : List (Location × Node)) (l : Location) : Prop :=
  l = [] ∨ nodes.lookup l = some .dir

instance (nodes : List (Location × Node)) (l : Location) : Decidable (ListsDir nodes l) :=
  inferInstanceAs (Decidable (_ ∨ _))

/-- A tree of files, directories and links. -/
@[ext]
structure FileTree where
  nodes : List (Location × Node)
  /-- The working directory. -/
  here : Location
  /-- Every entry lies in a directory. -/
  nested : ∀ x ∈ nodes, x.1 ≠ [] ∧ ListsDir nodes x.1.dropLast
  /-- The working directory is a directory. -/
  here_dir : ListsDir nodes here

theorem lookup_filter_of_ne {l l' : Location} (h : l' ≠ l) (nodes : List (Location × Node)) :
    (nodes.filter (·.1 != l)).lookup l' = nodes.lookup l' := by
  induction nodes with
  | nil => rfl
  | cons x xs ih =>
    obtain ⟨k, n⟩ := x
    by_cases hk : k = l
    · subst hk
      have : (l' == k) = false := by simpa using h
      simp [List.lookup_cons, this, ih]
    · have : (k != l) = true := by simpa using hk
      simp only [List.filter_cons, this, if_true, List.lookup_cons, ih]

namespace ListsDir

variable {nodes : List (Location × Node)} {l d : Location}

/-- A directory stays when something else is taken away. -/
theorem filter (h : ListsDir nodes d) (hl : nodes.lookup l ≠ some .dir) :
    ListsDir (nodes.filter (·.1 != l)) d := by
  rcases h with rfl | h
  · exact .inl rfl
  · have hne : d ≠ l := fun he => hl (he ▸ h)
    exact .inr ((lookup_filter_of_ne hne nodes).trans h)

/-- A directory stays when a node takes the place of what is not a directory, or is one. -/
theorem cons_filter {n : Node} (h : ListsDir nodes d) (hn : nodes.lookup l = some .dir → n = .dir) :
    ListsDir ((l, n) :: nodes.filter (·.1 != l)) d := by
  rcases h with rfl | h
  · exact .inl rfl
  · right
    rw [List.lookup_cons]
    by_cases he : d = l
    · subst he
      simp [hn h]
    · have : (d == l) = false := by simpa using he
      simpa only [this] using (lookup_filter_of_ne he nodes).trans h

end ListsDir

namespace FileTree

variable {t : FileTree} {l l' : Location} {n : Node}

/-- What is at a location. -/
def get? (t : FileTree) (l : Location) : Option Node := t.nodes.lookup l

/-! ## Directories -/

/-- A location is a directory. -/
def HasDir (t : FileTree) (l : Location) : Prop := ListsDir t.nodes l

instance (t : FileTree) (l : Location) : Decidable (t.HasDir l) :=
  inferInstanceAs (Decidable (ListsDir _ _))

theorem hasDir_iff : t.HasDir l ↔ l = [] ∨ t.get? l = some .dir := Iff.rfl

theorem mem_of_get? (h : t.get? l = some n) : (l, n) ∈ t.nodes := by
  obtain ⟨front, back, he, -⟩ := List.lookup_eq_some_iff.mp h
  simp [he]

/-- **What is above an entry is a directory.** -/
theorem hasDir_of_get? (h : t.get? l ≠ none) : t.HasDir l.dropLast := by
  obtain ⟨n, hn⟩ := Option.ne_none_iff_exists'.mp h
  exact (t.nested _ (mem_of_get? hn)).2

theorem hasDir_here (t : FileTree) : t.HasDir t.here := t.here_dir

/-- What is above a directory is one. -/
theorem HasDir.dropLast (h : t.HasDir l) : t.HasDir l.dropLast := by
  rcases h with rfl | h
  · exact .inl rfl
  · exact hasDir_of_get? fun hnone => nomatch h.symm.trans hnone

/-- A tree with nothing but the root. -/
def empty : FileTree where
  nodes := []
  here := []
  nested := List.forall_mem_nil _
  here_dir := .inl rfl

/-! ## Changes at one location -/

/-- A tree admits a node at a location: that lies in a directory, and if it is one itself, the node
is one too. -/
def Admits (t : FileTree) (l : Location) (n : Node) : Prop :=
  (l ≠ [] ∧ t.HasDir l.dropLast) ∧ (t.get? l = some .dir → n = .dir)

instance (t : FileTree) (l : Location) (n : Node) : Decidable (t.Admits l n) :=
  inferInstanceAs (Decidable (_ ∧ _))

/-- The tree with a node at a location, if it admits one there. -/
def set (t : FileTree) (l : Location) (n : Node) : FileTree :=
  if h : t.Admits l n then
    { t with
      nodes := (l, n) :: t.nodes.filter (·.1 != l)
      nested := by
        intro x hx
        rcases List.mem_cons.mp hx with rfl | hx
        · exact ⟨h.1.1, ListsDir.cons_filter h.1.2 h.2⟩
        · have hin := t.nested x (List.mem_filter.mp hx).1
          exact ⟨hin.1, hin.2.cons_filter h.2⟩
      here_dir := t.here_dir.cons_filter h.2 }
  else t

/-- The tree with no file or link at a location. A directory stays. -/
def erase (t : FileTree) (l : Location) : FileTree :=
  if h : t.get? l = some .dir then t
  else
    { t with
      nodes := t.nodes.filter (·.1 != l)
      nested := fun x hx =>
        (t.nested x (List.mem_filter.mp hx).1).imp_right fun hin => hin.filter h
      here_dir := t.here_dir.filter h }

/-- The tree with another working directory, if that is a directory. -/
def goTo (t : FileTree) (l : Location) : FileTree :=
  if h : t.HasDir l then { t with here := l, here_dir := h } else t

/-- A directory admits every node, but not in the place of another directory. -/
theorem admits_of_hasDir {d : Location} {name : String} (hd : t.HasDir d)
    (hn : t.get? (d ++ [name]) = some .dir → n = .dir) : t.Admits (d ++ [name]) n :=
  ⟨⟨by simp, by simpa using hd⟩, hn⟩

theorem set_of_not_admits (h : ¬ t.Admits l n) : t.set l n = t := dif_neg h

@[simp] theorem here_erase (t : FileTree) (l : Location) : (t.erase l).here = t.here := by
  unfold erase
  split <;> rfl

@[simp] theorem here_set (t : FileTree) (l : Location) (n : Node) : (t.set l n).here = t.here := by
  unfold set
  split <;> rfl

/-- **What is where after a change.** -/
theorem get?_set (t : FileTree) (l : Location) (n : Node) (l' : Location) :
    (t.set l n).get? l' = if l' = l ∧ t.Admits l n then some n else t.get? l' := by
  by_cases h : t.Admits l n
  · by_cases he : l' = l
    · subst he
      simp [get?, set, h]
    · have : (l' == l) = false := by simpa using he
      simpa [get?, set, h, he, List.lookup_cons, this] using lookup_filter_of_ne he t.nodes
  · rw [set_of_not_admits h, if_neg fun hl => h hl.2]

theorem get?_set_self (h : t.Admits l n) : (t.set l n).get? l = some n := by
  rw [get?_set, if_pos ⟨rfl, h⟩]

theorem get?_set_of_ne (h : l' ≠ l) : (t.set l n).get? l' = t.get? l' := by
  rw [get?_set, if_neg fun he => h he.1]

/-- Directories stay, whatever is put where. -/
theorem HasDir.set {d : Location} (h : t.HasDir d) (l : Location) (n : Node) :
    (t.set l n).HasDir d := by
  rw [hasDir_iff, get?_set] at *
  refine h.imp_right fun hdir => ?_
  split
  · next hl => exact congrArg some (hl.2.2 (hl.1 ▸ hdir))
  · exact hdir

end FileTree

end Tablature
