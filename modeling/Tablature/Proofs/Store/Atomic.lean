import Tablature.Proofs.Store.Generate
import Tablature.Proofs.Store.Read

/-!
# Proofs/Store/Atomic — a write does one thing, and its result says which

A write puts the whole file of an artifact in its place, or finds the place taken and leaves it
alone, or meets a fault of the file system; `IsAtomic` says what each result means for the tree, and
`isAtomic` that it holds of every write.

What a place holds is looked up in two ways.  `present` follows links, so that a link that leads
nowhere is not there; the commit does not follow the last one, so that for it the link is there.
Only the second counts under `keep` and `refuse` (`Occupied`), and only the first for the difference
between `created` and `replaced`.

A commit is one step here.  `putStaged` spells out how it comes about: the file is written under
another name and moved from there.  Whatever that name is, if nothing has it, the outcome is the
same and nothing is left under it (`putStaged_eq_put`).

What a write cannot promise is that the path still leads to the file: the file can replace a link
that the path comes by (`exists_replaced_not_file`).
-/

namespace Tablature

namespace FileTree

variable {t : FileTree} {l : Location} {n : Node}

/-! ## Files that come and go

A file that was not there can be put and taken away again, and leaves no trace, neither by itself
nor with another file put in between. -/

/-- An entry that fits is put in front, in place of the one that was there. -/
theorem nodes_set (h : t.Admits l n) :
    (t.set l n).nodes = (l, n) :: t.nodes.filter (·.1 != l) := by
  simp [set, h]

theorem nodes_erase (h : t.get? l ≠ some .dir) :
    (t.erase l).nodes = t.nodes.filter (·.1 != l) := by
  simp [erase, h]

theorem filter_nodes_of_get? (h : t.get? l = none) : t.nodes.filter (·.1 != l) = t.nodes := by
  refine List.filter_eq_self.mpr fun entry hmem => ?_
  have hne := bne_iff_ne.mp (List.lookup_eq_none_iff.mp h entry hmem)
  exact bne_iff_ne.mpr hne.symm

theorem erase_of_get? (h : t.get? l = none) : t.erase l = t := by
  ext1
  · rw [nodes_erase (by simp [h]), filter_nodes_of_get? h]
  · exact here_erase t l

/-- A new file can be taken away again. -/
theorem erase_set_self (h : t.get? l = none) (bytes : ByteArray) :
    (t.set l (.file bytes)).erase l = t := by
  by_cases hadmits : t.Admits l (.file bytes)
  · ext1
    · rw [nodes_erase (by simp [get?_set_self hadmits]), nodes_set hadmits,
        List.filter_cons_of_neg (by simp), List.filter_filter]
      simpa using filter_nodes_of_get? h
    · rw [here_erase, here_set]
  · rw [set_of_not_admits hadmits, erase_of_get? h]

/-- It can be taken away after another change in its directory as well. -/
theorem erase_set_set {d : Location} {a b : String} (h : t.get? (d ++ [a]) = none) (hne : b ≠ a)
    (bytes : ByteArray) (n : Node) :
    ((t.set (d ++ [a]) (.file bytes)).set (d ++ [b]) n).erase (d ++ [a]) = t.set (d ++ [b]) n := by
  have hab : d ++ [a] ≠ d ++ [b] := by simpa using hne.symm
  have hcongr : (t.set (d ++ [a]) (.file bytes)).Admits (d ++ [b]) n ↔ t.Admits (d ++ [b]) n :=
    admits_congr (get?_set_of_ne hab.symm) (get?_set_of_ne (by simp)) n
  by_cases hadmits : t.Admits (d ++ [b]) n
  · by_cases hfirst : t.Admits (d ++ [a]) (.file bytes)
    · ext1
      · rw [nodes_erase (by simp [get?_set_of_ne hab, get?_set_self hfirst]),
          nodes_set (hcongr.mpr hadmits), nodes_set hfirst, nodes_set hadmits,
          filter_nodes_of_get? h, List.filter_cons_of_pos (by simpa using hne), List.filter_comm,
          List.filter_cons_of_neg (by simp), filter_nodes_of_get? h]
      · simp only [here_erase, here_set]
    · rw [set_of_not_admits hfirst, erase_of_get? (by rw [get?_set_of_ne hab, h])]
  · rw [set_of_not_admits (hcongr.not.mpr hadmits), set_of_not_admits hadmits, erase_set_self h]

/-- Moves the file at a location to a path in one step. -/
def move (mayReplace : Bool) (l : Location) (text : String) : FileM FileFault Unit := fun t =>
  match t.get? l with
  | some (.file bytes) =>
    match place mayReplace text bytes t with
    | .ok _ t' => .ok () (t'.erase l)
    | .error fault t' => .error fault t'
  | _ => .error .notFound t

end FileTree

namespace Store

variable {s : Store} {t t' t₁ : FileTree} {loc : Location} {a : Artifact} {table : String}
  {policy : Policy} {o : Outcome} {present : Bool}

/-! ## Staged files -/

/-- Puts a file of the store in place from a temporary one, which is taken away if it cannot be
moved. -/
def putStaged (s : Store) (a : Artifact) (mayReplace : Bool) (temp : Location) :
    FileM FileFault Unit := fun t =>
  match FileTree.move mayReplace temp (s.pathFor a.table) (t.set temp (.file a.encode.toUTF8)) with
  | .ok _ t' => .ok () t'
  | .error fault t' => .error fault (t'.erase temp)

/-- **Staging is invisible**: with a new name in the store's directory, the file is put in place as
in one step, and nothing is left under that name. -/
theorem putStaged_eq_put (hid : isIdentifier a.table.toList) (hl : s.LiesAt t loc) {name : String}
    (hnew : t.get? (loc ++ [name]) = none) (hne : name ≠ a.table ++ ".json") (mayReplace : Bool) :
    s.putStaged a mayReplace (loc ++ [name]) t = s.put a mayReplace t := by
  have hgrows := FileTree.grows_set hnew (.file a.encode.toUTF8)
  have hstaged : s.LiesAt (t.set (loc ++ [name]) (.file a.encode.toUTF8)) loc :=
    hl.of_grows hgrows (FileTree.here_set t _ _)
  have hadmits : t.Admits (loc ++ [name]) (.file a.encode.toUTF8) :=
    FileTree.admits_of_hasDir hl.hasDir fun he => nomatch hnew.symm.trans he
  have hapart : artifactAt loc a.table ≠ loc ++ [name] := by
    intro he
    exact hne (List.head_eq_of_cons_eq (List.append_cancel_left he)).symm
  have hback : ∀ bytes, ((t.set (loc ++ [name]) (.file bytes)).set (artifactAt loc a.table)
      (.file bytes)).erase (loc ++ [name]) = t.set (artifactAt loc a.table) (.file bytes) :=
    fun bytes => FileTree.erase_set_set hnew hne.symm bytes _
  unfold putStaged FileTree.move
  rw [FileTree.get?_set_self hadmits]
  by_cases hf : s.Fits a.table
  · obtain ⟨q, hq, hplace⟩ := placeOf_pathFor hid hl hf
    obtain ⟨q', hq', hplace'⟩ := placeOf_pathFor hid hstaged hf
    obtain rfl := Except.ok.inj (hq.symm.trans hq')
    simp only [put, FileTree.place, hq, hplace, hplace', FileTree.get?_set_of_ne hapart]
    cases t.get? (artifactAt loc a.table) with
    | none => simp only [hback]
    | some node =>
      cases node <;> cases mayReplace <;>
        simp [FileTree.erase_set_self hnew, hback]
  · obtain ⟨fault, -, hput⟩ := put_of_not_fits hid hf mayReplace
    have hfail := hput hstaged
    unfold put at hfail
    simp only [hfail, hput hl, FileTree.erase_set_self hnew]

/-! ## What is in the way

Whether a path is taken does not depend on where a link at its end leads: a link that leads nowhere
is in the way as well. -/

/-- The location that the path of a table's artifact names is taken, if only by a link that leads
nowhere. -/
def Occupied (s : Store) (table : String) (t : FileTree) : Prop :=
  ∃ l, t.Names (s.pathFor table) l ∧ t.get? l ≠ none

/-- Whether a path is taken can be looked up. -/
def isOccupied (s : Store) (table : String) (t : FileTree) : Bool :=
  match (Path.ofText (s.pathFor table)).bind t.placeOf with
  | .ok l => (t.get? l).isSome
  | .error _ => false

/-- The look-up says whether the path is taken. -/
theorem isOccupied_iff : s.isOccupied table t = true ↔ s.Occupied table t := by
  have hnames : ∀ l, t.Names (s.pathFor table) l ↔
      (Path.ofText (s.pathFor table)).bind t.placeOf = .ok l := fun l => bind_eq_ok_iff.symm
  unfold isOccupied Occupied
  simp only [hnames]
  cases (Path.ofText (s.pathFor table)).bind t.placeOf with
  | error fault => simp
  | ok l => simp [Option.isSome_iff_ne_none]

instance (s : Store) (table : String) (t : FileTree) : Decidable (s.Occupied table t) :=
  decidable_of_iff _ isOccupied_iff

/-- Where a path is taken its directory is there, and need not be made. -/
theorem Occupied.makeDirs_eq (hid : isIdentifier table.toList) (h : s.Occupied table t) :
    FileTree.makeDirs s.dir t = .ok () t := by
  obtain ⟨l, hnames, -⟩ := h
  obtain ⟨loc, hl, -, -⟩ := exists_of_names hid hnames
  exact hl.makeDirs_eq

/-- In the store's directory a path is taken by what stands at its location. -/
theorem occupied_iff (hid : isIdentifier table.toList) (hl : s.LiesAt t loc) (hf : s.Fits table) :
    s.Occupied table t ↔ t.get? (artifactAt loc table) ≠ none := by
  constructor
  · rintro ⟨l, hnames, hget⟩
    obtain ⟨loc', hl', -, rfl⟩ := exists_of_names hid hnames
    exact hl.unique hl' ▸ hget
  · exact fun hget => ⟨_, placeOf_pathFor hid hl hf, hget⟩

/-- **A write of a path that is taken is decided in the tree as it is.** -/
theorem Occupied.write_eq_settle (hid : isIdentifier a.table.toList) (h : s.Occupied a.table t)
    (policy : Policy) : ∃ loc, s.LiesAt t loc ∧ t.get? (artifactAt loc a.table) ≠ none ∧
      s.write a policy t = s.settle a policy (s.present a.table t) loc t := by
  obtain ⟨l, hnames, hget⟩ := h
  obtain ⟨loc, hl, hf, rfl⟩ := exists_of_names hid hnames
  exact ⟨loc, hl, hget, Store.write_eq_settle hid hl.makeDirs_eq hl hf policy⟩

/-- **A directory that is made holds nothing**: what is in the way in the end was there before, and
then nothing was made. -/
theorem occupied_iff_of_makes (hid : isIdentifier table.toList)
    (hmakes : FileTree.Makes t loc t₁) (hl : s.LiesAt t₁ loc) (hf : s.Fits table) :
    t₁.get? (artifactAt loc table) ≠ none ↔ s.Occupied table t ∧ t₁ = t := by
  constructor
  · intro hget
    obtain rfl := hmakes.eq_of_below hget
    exact ⟨(occupied_iff hid hl hf).mpr hget, rfl⟩
  · rintro ⟨hoccupied, rfl⟩
    exact (occupied_iff hid hl hf).mp hoccupied

/-- **What is in the store's directory once it is made** was there before. -/
theorem occupied_iff_get? (hid : isIdentifier table.toList)
    (hm : FileTree.makeDirs s.dir t = .ok () t₁) (hmakes : FileTree.Makes t loc t₁)
    (hl : s.LiesAt t₁ loc) (hf : s.Fits table) :
    t₁.get? (artifactAt loc table) ≠ none ↔ s.Occupied table t := by
  refine (occupied_iff_of_makes hid hmakes hl hf).trans (and_iff_left_of_imp fun h => ?_)
  exact (EStateM.Result.ok.inj (hm.symm.trans (h.makeDirs_eq hid))).2

/-! ## What is settled at a location

Once the directory is there, a write is one look at the artifact's location; what its result says of
the tree is read off that look. -/

/-- **What was written** is the file, where nothing was or under a policy that replaces. -/
theorem written_of_settle (h : s.settle a policy present loc t = .ok o t') (ho : o ≠ .kept) :
    t' = t.set (artifactAt loc a.table) (.file a.encode.toUTF8) ∧
      (t.get? (artifactAt loc a.table) = none ∨
        policy = .replace ∧ t.get? (artifactAt loc a.table) ≠ some .dir) ∧
      (o = .replaced ↔ policy = .replace ∧ present = true ∧
        t.get? (artifactAt loc a.table) ≠ none) := by
  unfold settle at h
  split at h
  · next hnone =>
    obtain ⟨rfl, rfl⟩ := EStateM.Result.ok.inj h
    simp [hnone]
  · exact nomatch h
  · next node hdir hsome =>
    obtain ⟨rfl, rfl⟩ := EStateM.Result.ok.inj h
    have hne : t.get? (artifactAt loc a.table) ≠ some .dir := by
      rw [hsome]
      exact fun he => hdir (Option.some.inj he)
    refine ⟨rfl, .inr ⟨rfl, hne⟩, ?_⟩
    cases present <;> simp [hsome]
  · exact nomatch h
  · obtain ⟨rfl, rfl⟩ := EStateM.Result.ok.inj h
    exact absurd rfl ho

/-- What was kept was there, under the policy that keeps. -/
theorem settle_eq_kept_iff : s.settle a policy present loc t = .ok .kept t' ↔
    policy = .keep ∧ t.get? (artifactAt loc a.table) ≠ none ∧ t' = t := by
  unfold settle
  split
  · next hnone => simp [hnone]
  · simp
  · cases present <;> simp
  · simp
  · next hsome => simp [hsome, eq_comm]

/-- What was refused was there, under the policy that refuses. -/
theorem settle_eq_collision_iff {name path : String} :
    s.settle a policy present loc t = .error (.collision name path) t' ↔
      (name = a.table ∧ path = s.pathFor a.table) ∧ policy = .refuse ∧
        t.get? (artifactAt loc a.table) ≠ none ∧ t' = t := by
  unfold settle
  split
  · next hnone => simp [hnone]
  · simp
  · simp
  · next hsome => simp [hsome, eq_comm]
  · simp

/-- There is no error but a fault of the file system and a collision. -/
theorem error_of_settle {e : Error} (h : s.settle a policy present loc t = .error e t') :
    (∃ fault, e = .file (s.pathFor a.table) fault) ∨
      e = .collision a.table (s.pathFor a.table) := by
  unfold settle at h
  split at h
  · exact nomatch h
  · exact .inl ⟨_, (EStateM.Result.error.inj h).1.symm⟩
  · exact nomatch h
  · exact .inr (EStateM.Result.error.inj h).1.symm
  · exact nomatch h

/-! ## Writes

Seen from the tree before the directory was made, a result says the same: a directory that was made
holds nothing, so that what is in the way was there before. -/

/-- The whole file of an artifact was put in place in a directory, and nothing else was done. -/
structure IsWritten (s : Store) (a : Artifact) (policy : Policy) (t t' : FileTree)
    (loc : Location) : Prop where
  /-- The path of the artifact names its location once the store's directory is made. -/
  names : ∃ t₁, FileTree.makeDirs s.dir t = .ok () t₁ ∧
    t₁.Names (s.pathFor a.table) (artifactAt loc a.table)
  file : t'.get? (artifactAt loc a.table) = some (.file a.encode.toUTF8)
  here : t'.here = t.here
  /-- Nothing else has changed, but for new directories on the way to the store's own. -/
  others : ∀ l, l ≠ artifactAt loc a.table →
    t'.get? l = t.get? l ∨ t.get? l = none ∧ t'.get? l = some .dir ∧ l <+: loc
  /-- The path leads to the file, unless this has replaced a link that the path comes by. -/
  leads : t'.resolve (s.pathFor a.table) =
      .ok (.file (artifactAt loc a.table) a.encode.toUTF8) ∨
    policy = .replace ∧ t'.resolve (s.pathFor a.table) = .error .notDirectory ∧
      ∃ target, t.get? (artifactAt loc a.table) = some (.link target)

/-- **What a write does, and what its result says of it.** -/
structure IsAtomic (s : Store) (a : Artifact) (policy : Policy) (t : FileTree) : Prop where
  written : ∀ o t', s.write a policy t = .ok o t' → o ≠ .kept → ∃ loc, s.IsWritten a policy t t' loc
  /-- A file was replaced if the path led somewhere before, links followed. -/
  replaced : ∀ o t', s.write a policy t = .ok o t' → o ≠ .kept →
    (o = .replaced ↔ policy = .replace ∧ t.exists? (s.pathFor a.table) = true)
  kept : ∀ t', s.write a policy t = .ok .kept t' ↔
    policy = .keep ∧ s.Occupied a.table t ∧ t' = t
  collision : ∀ name path t', s.write a policy t = .error (.collision name path) t' ↔
    (name = a.table ∧ path = s.pathFor a.table) ∧ policy = .refuse ∧
      s.Occupied a.table t ∧ t' = t
  /-- Every other error is a fault of the file system, and leaves every file and link as it was. -/
  fault : ∀ e t', s.write a policy t = .error e t' →
    (∀ name path, e ≠ .collision name path) →
      (∃ path fault, e = .file path fault) ∧ t'.here = t.here ∧
        ∀ l, t'.get? l = t.get? l ∨ t.get? l = none ∧ t'.get? l = some .dir
  /-- Nothing is left of the temporary file, whatever its name is. -/
  staged : ∀ t₁ loc name, FileTree.makeDirs s.dir t = .ok () t₁ → s.LiesAt t₁ loc →
    t₁.get? (loc ++ [name]) = none → name ≠ a.table ++ ".json" →
      s.putStaged a (policy = .replace) (loc ++ [name]) t₁ = s.put a (policy = .replace) t₁

/-- **A file that was put in place is where its path leads**, unless it has replaced a link that the
path comes by. -/
theorem resolve_of_set (hl : s.LiesAt t loc) (hf : s.Fits a.table)
    (hid : isIdentifier a.table.toList) (bytes : ByteArray)
    (hdir : t.get? (artifactAt loc a.table) ≠ some .dir) :
    (t.set (artifactAt loc a.table) (.file bytes)).resolve (s.pathFor a.table) =
        .ok (.file (artifactAt loc a.table) bytes) ∨
      (t.set (artifactAt loc a.table) (.file bytes)).resolve (s.pathFor a.table) =
          .error .notDirectory ∧
        ∃ target, t.get? (artifactAt loc a.table) = some (.link target) := by
  obtain ⟨q, hq, hplace⟩ := placeOf_pathFor hid hl hf
  have hslash : q.slash = false := by
    obtain ⟨p, -, rfl⟩ := ofText_pathFor hid hq
    rfl
  rw [FileTree.resolve, hq]
  exact FileTree.resolvePath_of_set hslash hplace hdir rfl

section Results

variable (hup : ".." ∉ Path.stepsOf s.dir.toList) (hid : isIdentifier a.table.toList)

include hup hid

/-- A write that meets no fault of the file system, seen from the tree before the directory was
made. -/
theorem exists_makes_of_write {r : EStateM.Result Error FileTree Outcome}
    (h : s.write a policy t = r) (hr : ∀ path fault t', r ≠ .error (.file path fault) t') :
    ∃ t₁ loc, FileTree.makeDirs s.dir t = .ok () t₁ ∧ FileTree.Makes t loc t₁ ∧
      s.LiesAt t₁ loc ∧ s.Fits a.table ∧
      (t₁.get? (artifactAt loc a.table) ≠ none ↔ s.Occupied a.table t ∧ t₁ = t) ∧
      r = s.settle a policy (s.present a.table t) loc t₁ := by
  obtain ⟨t₁, loc, hm, hl, hf, hsettle⟩ := exists_of_write hid h hr
  obtain ⟨p, hp, hleads⟩ := hl
  have hmakes := FileTree.makes_of_makeDirs hp (Path.steps_of_ofDir hp ▸ hup) hm hleads
  exact ⟨t₁, loc, hm, hmakes, ⟨p, hp, hleads⟩, hf,
    occupied_iff_of_makes hid hmakes ⟨p, hp, hleads⟩ hf, hsettle⟩

/-- **A write that keeps nothing puts its file in place**, and does nothing else. -/
theorem isWritten_of_write (h : s.write a policy t = .ok o t') (ho : o ≠ .kept) :
    ∃ loc, s.IsWritten a policy t t' loc := by
  obtain ⟨t₁, loc, hm, hmakes, hl, hf, -, hsettle⟩ :=
    exists_makes_of_write hup hid h fun _ _ _ => nofun
  obtain ⟨rfl, hwas, -⟩ := written_of_settle hsettle.symm ho
  have hsame : t₁.get? (artifactAt loc a.table) = t.get? (artifactAt loc a.table) :=
    hmakes.get?_below (a.table ++ ".json")
  have hdir : t₁.get? (artifactAt loc a.table) ≠ some .dir := by
    rcases hwas with hnone | ⟨-, hdir⟩
    · simp [hnone]
    · exact hdir
  refine ⟨loc, ⟨t₁, hm, placeOf_pathFor hid hl hf⟩,
    FileTree.get?_set_self (hl.admits fun he => absurd he hdir),
    (FileTree.here_set t₁ _ _).trans hmakes.here_eq, fun l hne => ?_, ?_⟩
  · rw [FileTree.get?_set_of_ne hne]
    exact hmakes.get?_or l
  · rcases resolve_of_set hl hf hid a.encode.toUTF8 hdir with hfile | ⟨hblocked, target, hlink⟩
    · exact .inl hfile
    · refine .inr ⟨?_, hblocked, target, hsame ▸ hlink⟩
      rcases hwas with hnone | ⟨hpolicy, -⟩
      · exact nomatch hnone.symm.trans hlink
      · exact hpolicy

/-- **What counts as replaced is what the path led to.** -/
theorem eq_replaced_iff (h : s.write a policy t = .ok o t') (ho : o ≠ .kept) :
    o = .replaced ↔ policy = .replace ∧ s.present a.table t = true := by
  obtain ⟨t₁, loc, hm, -, hl, -, -, hsettle⟩ :=
    exists_makes_of_write hup hid h fun _ _ _ => nofun
  obtain ⟨-, -, hiff⟩ := written_of_settle hsettle.symm ho
  -- what the path leads to is in the store's directory, which therefore was not made
  have hthere : s.present a.table t = true → t₁.get? (artifactAt loc a.table) ≠ none := by
    intro hp
    obtain ⟨loc', hl', -, hget⟩ := exists_of_present hid hp
    obtain ⟨-, rfl⟩ := EStateM.Result.ok.inj (hl'.makeDirs_eq.symm.trans hm)
    exact hl.unique hl' ▸ hget
  exact hiff.trans (and_congr_right fun _ => ⟨And.left, fun hp => ⟨hp, hthere hp⟩⟩)

/-- **A write keeps exactly what is in its way**, under the policy that keeps. -/
theorem write_eq_kept_iff : s.write a policy t = .ok .kept t' ↔
    policy = .keep ∧ s.Occupied a.table t ∧ t' = t := by
  constructor
  · intro h
    obtain ⟨t₁, loc, -, -, -, -, hoccupied, hsettle⟩ :=
      exists_makes_of_write hup hid h fun _ _ _ => nofun
    obtain ⟨hpolicy, hget, rfl⟩ := settle_eq_kept_iff.mp hsettle.symm
    exact ⟨hpolicy, hoccupied.mp hget⟩
  · rintro ⟨hpolicy, hocc, rfl⟩
    obtain ⟨loc, -, hget, hw⟩ := hocc.write_eq_settle hid policy
    exact hw.trans (settle_eq_kept_iff.mpr ⟨hpolicy, hget, rfl⟩)

/-- **A write collides exactly with what is in its way**, under the policy that refuses. -/
theorem write_eq_collision_iff_occupied {name path : String} :
    s.write a policy t = .error (.collision name path) t' ↔
      (name = a.table ∧ path = s.pathFor a.table) ∧ policy = .refuse ∧
        s.Occupied a.table t ∧ t' = t := by
  constructor
  · intro h
    obtain ⟨t₁, loc, -, -, -, -, hoccupied, hsettle⟩ :=
      exists_makes_of_write hup hid h fun _ _ _ he => nomatch he
    obtain ⟨hnames, hpolicy, hget, rfl⟩ := settle_eq_collision_iff.mp hsettle.symm
    exact ⟨hnames, hpolicy, hoccupied.mp hget⟩
  · rintro ⟨hnames, hpolicy, hocc, rfl⟩
    obtain ⟨loc, -, hget, hw⟩ := hocc.write_eq_settle hid policy
    exact hw.trans (settle_eq_collision_iff.mpr ⟨hnames, hpolicy, hget, rfl⟩)

omit hup in
/-- A write that fails meets a fault of the file system, or something in its way. -/
theorem file_or_collision_of_write_error {e : Error}
    (h : s.write a policy t = .error e t') :
    (∃ path fault, e = .file path fault) ∨ e = .collision a.table (s.pathFor a.table) := by
  by_contra! hno
  obtain ⟨t₁, loc, -, -, -, hsettle⟩ := exists_of_write hid h fun path fault _ hr =>
    hno.1 path fault (EStateM.Result.error.inj hr).1
  rcases error_of_settle hsettle.symm with ⟨fault, he⟩ | he
  · exact hno.1 _ fault he
  · exact hno.2 he

/-- **Every write does one thing, and its result says which.** -/
theorem isAtomic (policy : Policy) : s.IsAtomic a policy t where
  written _ _ := isWritten_of_write hup hid
  replaced _ _ := eq_replaced_iff hup hid
  kept _ := write_eq_kept_iff hup hid
  collision _ _ _ := write_eq_collision_iff_occupied hup hid
  fault e t' h he := by
    refine ⟨?_, ?_⟩
    · exact (file_or_collision_of_write_error hid h).resolve_right (he _ _)
    · rcases paves_of_write_error h with rfl | ⟨p, -, hpaves⟩
      · exact ⟨rfl, fun l => .inl rfl⟩
      · exact ⟨hpaves.here, fun l => (hpaves.get?_or l).imp_right fun hl => ⟨hl.1, hl.2.1⟩⟩
  staged _ _ _ _ hl hnew hne := putStaged_eq_put hid hl hnew hne _

end Results

/-- A store in which the users are a link that leads nowhere. -/
def danglingTree : FileTree where
  nodes := [(["work"], .dir), (["work", "db"], .dir),
    (["work", "db", "users.json"], .link "../gone.json")]
  here := ["work"]
  nested := by decide
  here_dir := by decide

/-- The link is kept or refused as it is, and a forced write creates a file in its place. -/
theorem write_users_danglingTree :
    (⟨"db"⟩ : Store).write ⟨"users", 1, "", []⟩ .keep danglingTree = .ok .kept danglingTree ∧
    (⟨"db"⟩ : Store).write ⟨"users", 1, "", []⟩ .refuse danglingTree =
      .error (.collision "users" "db/users.json") danglingTree ∧
    ∃ t', (⟨"db"⟩ : Store).write ⟨"users", 1, "", []⟩ .replace danglingTree = .ok .created t' ∧
      danglingTree.exists? "db/users.json" = false ∧
      ∃ loc, t'.get? (artifactAt loc "users") =
        some (.file (⟨"users", 1, "", []⟩ : Artifact).encode.toUTF8) := by
  have hatomic := isAtomic (s := ⟨"db"⟩) (t := danglingTree) (a := ⟨"users", 1, "", []⟩)
    (by decide) (by decide)
  have hpath : (⟨"db"⟩ : Store).pathFor "users" = "db/users.json" := by decide
  have hoccupied : (⟨"db"⟩ : Store).Occupied "users" danglingTree :=
    ⟨["work", "db", "users.json"], ⟨⟨false, ["db", "users.json"], false⟩, by decide, by decide⟩,
      by decide⟩
  obtain ⟨o, t', hwrite, ho⟩ : ∃ o t', (⟨"db"⟩ : Store).write ⟨"users", 1, "", []⟩ .replace
      danglingTree = .ok o t' ∧ decide (o = .created) = true :=
    exists_ok_of_check (fun o _ => decide (o = Outcome.created)) (by decide +kernel)
  obtain rfl := of_decide_eq_true ho
  refine ⟨((hatomic .keep).kept _).mpr ⟨rfl, hoccupied, rfl⟩,
    ((hatomic .refuse).collision _ _ _).mpr ⟨⟨rfl, hpath.symm⟩, rfl, hoccupied, rfl⟩,
    t', hwrite, ?_, ?_⟩
  · have hreplaced := (hatomic .replace).replaced _ _ hwrite nofun
    rw [hpath] at hreplaced
    exact Bool.eq_false_iff.mpr fun hp => nomatch hreplaced.mpr ⟨rfl, hp⟩
  · obtain ⟨loc, hwritten⟩ := (hatomic .replace).written _ _ hwrite nofun
    exact ⟨loc, hwritten.file⟩

/-- **A forced write can cut off its own path**: here the store's directory is reached by a link
with the name of the artifact. -/
theorem exists_replaced_not_file :
    ∃ (s : Store) (a : Artifact) (t t' : FileTree),
      ".." ∉ Path.stepsOf s.dir.toList ∧ isIdentifier a.table.toList ∧
      s.write a .replace t = .ok .replaced t' ∧ t'.isFile (s.pathFor a.table) = false := by
  let s : Store := ⟨"users.json"⟩
  let a : Artifact := ⟨"users", 1, "", []⟩
  obtain ⟨o, t', hwrite, hcheck⟩ : ∃ o t', s.write a .replace loopTree = .ok o t' ∧
      (decide (o = .replaced) && !t'.isFile (s.pathFor a.table)) = true :=
    exists_ok_of_check (fun o t' => decide (o = Outcome.replaced) && !t'.isFile (s.pathFor a.table))
      (by decide +kernel)
  simp only [Bool.and_eq_true, decide_eq_true_eq, Bool.not_eq_true'] at hcheck
  obtain ⟨rfl, hfile⟩ := hcheck
  exact ⟨s, a, loopTree, t', by decide, by decide, hwrite, hfile⟩

end Store

end Tablature
