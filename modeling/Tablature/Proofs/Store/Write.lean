import Tablature.Proofs.FileTree.MakeDirs
import Tablature.Proofs.Identifier
import Tablature.Store

/-!
# Proofs/Store/Write — a write, seen from the one location it is about

A write looks at its path twice, makes a directory, and follows links on the way.  Once the store's
directory is there and leads to a location (`Store.LiesAt`), all this comes down to what stands at
one location below it: `write_eq_settle`.  Every write that does not meet a fault of the file system
is of this kind (`exists_of_write`).

A file that replaces a link can cut off the store's directory, if the link was on the way to it.
Then the directory is blocked for good: `error_of_isBlockedIn` says that no later write succeeds.
-/

namespace Tablature

open FileTree (Leads IsBlocked IsName maxNameBytes maxLinks)

/-- Where the artifact of a table lies in a directory. -/
def artifactAt (loc : Location) (table : String) : Location := loc ++ [table ++ ".json"]

theorem artifactAt_inj {loc loc' : Location} {a b : String}
    (h : artifactAt loc a = artifactAt loc' b) : a = b := by
  have hname : a ++ ".json" = b ++ ".json" := by simpa using (List.append_inj' h rfl).2
  have hlist := congrArg String.toList hname
  rw [String.toList_append, String.toList_append] at hlist
  exact String.toList_inj.mp (List.append_cancel_right hlist)

theorem isStep_of_identifier {table : String} (h : isIdentifier table.toList) :
    Path.IsStep (table ++ ".json") where
  ne_empty := by
    intro he
    simpa using congrArg String.toList he
  no_slash := by
    intro hm
    rw [String.toList_append, List.mem_append] at hm
    rcases hm with hm | hm
    · exact absurd (isNameChar_of_mem_identifier h _ hm) (by decide)
    · exact absurd hm (by decide)

theorem isName_of_json (table : String) : IsName (table ++ ".json") := by
  have hlength : 5 ≤ (table ++ ".json").length := by
    rw [String.length_append]
    exact Nat.le_add_left 5 table.length
  constructor <;> intro he <;> rw [he] at hlength <;> exact absurd hlength (by decide)

namespace Store

variable {s : Store} {t t' t₁ : FileTree} {loc : Location} {a : Artifact} {table : String}

/-! ## The store's directory

Where a store lies is found by following its directory's text, and stays there as long as the links
on the way do. -/

/-- The store's directory leads to a location. -/
def LiesAt (s : Store) (t : FileTree) (loc : Location) : Prop :=
  ∃ p, Path.ofDir s.dir = .ok p ∧ t.Leads p loc

/-- A file stands in the way of the store's directory. -/
def IsBlockedIn (s : Store) (t : FileTree) : Prop :=
  ∃ p, Path.ofDir s.dir = .ok p ∧ IsBlocked (t.walkLinks maxLinks (t.start p) p.steps)

theorem LiesAt.unique {loc' : Location} (h : s.LiesAt t loc) (h' : s.LiesAt t loc') :
    loc = loc' := by
  obtain ⟨p, hp, hl⟩ := h
  obtain ⟨p', hp', hl'⟩ := h'
  obtain rfl := Except.ok.inj (hp.symm.trans hp')
  exact hl.unique hl'

/-- **A store lies at a directory of the tree.** -/
theorem LiesAt.hasDir (h : s.LiesAt t loc) : t.HasDir loc := by
  obtain ⟨p, -, hl⟩ := h
  exact hl.hasDir

/-- There a tree admits an artifact, unless a directory is in its place. -/
theorem LiesAt.admits (h : s.LiesAt t loc) {n : Node}
    (hn : t.get? (artifactAt loc table) = some .dir → n = .dir) :
    t.Admits (artifactAt loc table) n :=
  FileTree.admits_of_hasDir h.hasDir hn

theorem LiesAt.makeDirs_eq (h : s.LiesAt t loc) : FileTree.makeDirs s.dir t = .ok () t := by
  obtain ⟨p, hp, hl⟩ := h
  exact FileTree.makeDirs_of_leads hp hl

theorem LiesAt.of_grows (h : s.LiesAt t loc) (hg : FileTree.Grows t t') (hh : t'.here = t.here) :
    s.LiesAt t' loc := by
  obtain ⟨p, hp, hl⟩ := h
  exact ⟨p, hp, hl.of_grows hg hh⟩

theorem IsBlockedIn.not_liesAt (h : s.IsBlockedIn t) : ¬ s.LiesAt t loc := by
  rintro ⟨p, hp, hl⟩
  obtain ⟨p', hp', hblocked⟩ := h
  obtain rfl := Except.ok.inj (hp.symm.trans hp')
  unfold Leads at hl
  simp [hl, IsBlocked] at hblocked

/-- **A new file leaves the store's directory where it is, or stands in its way**, in the place of
a link. -/
theorem LiesAt.set (h : s.LiesAt t loc) (l : Location) (bytes : ByteArray) :
    s.LiesAt (t.set l (.file bytes)) loc ∨ s.IsBlockedIn (t.set l (.file bytes)) ∧
      ∃ target, t.get? l = some (.link target) := by
  obtain ⟨p, hp, hl⟩ := h
  have hstart := FileTree.start_eq_of_here (FileTree.here_set t l (.file bytes)) p
  rcases FileTree.walkLinks_of_block l bytes hl with hleads | ⟨hblocked, hl⟩
  · exact .inl ⟨p, hp, by rwa [Leads, hstart]⟩
  · exact .inr ⟨⟨p, hp, by rwa [hstart]⟩, hl⟩

theorem exists_liesAt_of_makeDirs (h : FileTree.makeDirs s.dir t = .ok () t₁) :
    ∃ loc, s.LiesAt t₁ loc := by
  obtain ⟨p, loc, hp, hl⟩ := FileTree.exists_leads_of_makeDirs h
  exact ⟨loc, p, hp, hl⟩

/-! ## The path of an artifact

The path of a table is the directory's with one more step, which is a name of its own: no two tables
share a location. -/

/-- The path of a table's artifact is not too long, nor is its name. -/
def Fits (s : Store) (table : String) : Prop :=
  (∃ q, Path.ofText (s.pathFor table) = .ok q) ∧ ¬ (table ++ ".json").utf8ByteSize > maxNameBytes

/-- The path of an artifact is that of the store's directory and one step more. -/
theorem ofText_pathFor {q : Path} (hid : isIdentifier table.toList)
    (h : Path.ofText (s.pathFor table) = .ok q) :
    ∃ p, Path.ofDir s.dir = .ok p ∧ q = ⟨p.absolute, p.steps ++ [table ++ ".json"], false⟩ :=
  Path.ofText_join (isStep_of_identifier hid) h

/-- **The path of an artifact names its place in the store's directory.** -/
theorem placeOf_pathFor (hid : isIdentifier table.toList) (hl : s.LiesAt t loc)
    (hf : s.Fits table) :
    ∃ q, Path.ofText (s.pathFor table) = .ok q ∧ t.placeOf q = .ok (artifactAt loc table) := by
  obtain ⟨⟨q, hq⟩, hlong⟩ := hf
  obtain ⟨p, hp, hl⟩ := hl
  obtain ⟨p', hp', rfl⟩ := ofText_pathFor hid hq
  obtain rfl := Except.ok.inj (hp.symm.trans hp')
  exact ⟨_, hq, FileTree.placeOf_eq_ok_iff.mpr
    ⟨p.steps, table ++ ".json", loc, rfl, hl, isName_of_json table, hlong, rfl⟩⟩

/-- **A path names its location through the store's directory.** -/
theorem exists_of_names {l : Location} (hid : isIdentifier table.toList)
    (h : t.Names (s.pathFor table) l) :
    ∃ loc, s.LiesAt t loc ∧ s.Fits table ∧ l = artifactAt loc table := by
  obtain ⟨q, hq, hplace⟩ := h
  obtain ⟨p, hp, rfl⟩ := ofText_pathFor hid hq
  obtain ⟨front, name, loc, hsteps, hwalk, -, hlong, rfl⟩ := FileTree.placeOf_eq_ok_iff.mp hplace
  obtain ⟨rfl, hname⟩ := List.append_inj' hsteps rfl
  obtain rfl := List.head_eq_of_cons_eq hname
  exact ⟨loc, ⟨p, hp, hwalk⟩, ⟨⟨_, hq⟩, hlong⟩, rfl⟩

/-- **A path that leads anywhere** is that of something in the store's directory. -/
theorem exists_of_present (hid : isIdentifier table.toList) (h : s.present table t = true) :
    ∃ loc, s.LiesAt t loc ∧ s.Fits table ∧ t.get? (artifactAt loc table) ≠ none := by
  unfold present FileTree.exists? FileTree.resolve at h
  cases hq : Path.ofText (s.pathFor table) with
  | error fault => simp [hq, Except.bind] at h
  | ok q =>
    obtain ⟨p, hp, rfl⟩ := ofText_pathFor hid hq
    simp only [hq, Except.bind, FileTree.resolvePath, Path.lookupSteps, Bool.false_eq_true,
      if_false] at h
    obtain ⟨k, hk⟩ := t.walkLinks_append maxLinks (t.start p) p.steps
    have hstart : t.start ⟨p.absolute, p.steps ++ [table ++ ".json"], false⟩ = t.start p := rfl
    rw [hstart, hk] at h
    cases hwalk : t.walkLinks maxLinks (t.start p) p.steps with
    | error fault => simp [hwalk, FileTree.goOn] at h
    | ok spot =>
      cases spot with
      | file l bytes => simp [hwalk, FileTree.goOn] at h
      | dir loc =>
        rw [hwalk, FileTree.goOn, FileTree.walkLinks_name (isName_of_json table)] at h
        by_cases hlong : (table ++ ".json").utf8ByteSize > maxNameBytes
        · rw [if_pos hlong] at h
          simp at h
        · refine ⟨loc, ⟨p, hp, hwalk⟩, ⟨⟨_, hq⟩, hlong⟩, fun hnone => ?_⟩
          rw [if_neg hlong, show loc ++ [table ++ ".json"] = artifactAt loc table from rfl,
            hnone] at h
          simp at h

/-! ## Writes

With the directory there, a write is one look at the location of its artifact and one change there
at most (`settle`). -/

/-- What a write does, seen from the location of its artifact. -/
def settle (s : Store) (a : Artifact) (policy : Policy) (present : Bool) (loc : Location)
    (t : FileTree) : EStateM.Result Error FileTree Outcome :=
  match t.get? (artifactAt loc a.table), policy with
  | none, _ => .ok .created (t.set (artifactAt loc a.table) (.file a.encode.toUTF8))
  | some .dir, .replace => .error (.file (s.pathFor a.table) .isDirectory) t
  | some _, .replace =>
    .ok (if present then .replaced else .created)
      (t.set (artifactAt loc a.table) (.file a.encode.toUTF8))
  | some _, .refuse => .error (.collision a.table (s.pathFor a.table)) t
  | some _, .keep => .ok .kept t

/-- **A write is decided by what stands at one location**, in the tree in which the store's
directory has been made. -/
theorem write_eq_settle (hid : isIdentifier a.table.toList)
    (hm : FileTree.makeDirs s.dir t = .ok () t₁) (hl : s.LiesAt t₁ loc) (hf : s.Fits a.table)
    (policy : Policy) :
    s.write a policy t = s.settle a policy (s.present a.table t) loc t₁ := by
  obtain ⟨q, hq, hplace⟩ := placeOf_pathFor hid hl hf
  -- a path that leads somewhere in the first tree leads there in the second, which is the same
  have hpresent : s.present a.table t = true → t₁ = t ∧ t.get? (artifactAt loc a.table) ≠ none := by
    intro hp
    obtain ⟨loc', hl', -, hget⟩ := exists_of_present hid hp
    obtain ⟨-, rfl⟩ := EStateM.Result.ok.inj (hl'.makeDirs_eq.symm.trans hm)
    exact ⟨rfl, hl.unique hl' ▸ hget⟩
  unfold write settle
  cases hpr : s.present a.table t with
  | true =>
    obtain ⟨rfl, hget⟩ := hpresent hpr
    obtain ⟨node, hnode⟩ := Option.ne_none_iff_exists'.mp hget
    cases policy with
    | refuse => simp [hnode, taken]
    | keep => simp [hnode, taken]
    | replace =>
      simp only [true_and, ne_eq, not_true_eq_false, if_false, commit, makeDir, hm, put,
        FileTree.place, hq, hplace, hnode]
      cases node <;> simp
  | false =>
    simp only [Bool.false_eq_true, false_and, if_false, commit, makeDir, hm, put, FileTree.place,
      hq, hplace, and_false]
    cases hnode : t₁.get? (artifactAt loc a.table) with
    | none => cases policy <;> simp
    | some node => cases policy <;> cases node <;> simp [taken]

/-- A file whose path or name is too long is not put anywhere, always with the same fault. -/
theorem put_of_not_fits (hid : isIdentifier a.table.toList) (hf : ¬ s.Fits a.table)
    (mayReplace : Bool) :
    ∃ fault, fault ≠ .alreadyExists ∧
      ∀ {t loc}, s.LiesAt t loc → s.put a mayReplace t = .error fault t := by
  unfold put FileTree.place
  cases hq : Path.ofText (s.pathFor a.table) with
  | error fault =>
    refine ⟨_, ?_, fun _ => rfl⟩
    rcases Path.fault_of_ofText hq with rfl | rfl | rfl
    · cases mayReplace <;> simp [FileTree.placeFault]
    · simp [FileTree.placeFault]
    · simp [FileTree.placeFault]
  | ok q =>
    have hlong : (a.table ++ ".json").utf8ByteSize > maxNameBytes := by
      by_contra hlong
      exact hf ⟨⟨q, hq⟩, hlong⟩
    refine ⟨.nameTooLong, nofun, fun {t loc} hl => ?_⟩
    obtain ⟨p, hp, hl⟩ := hl
    obtain ⟨p', hp', rfl⟩ := ofText_pathFor hid hq
    obtain rfl := Except.ok.inj (hp.symm.trans hp')
    have hplace : t.placeOf ⟨p.absolute, p.steps ++ [a.table ++ ".json"], false⟩ =
        .error .nameTooLong := by
      have hwalk : t.walkLinks maxLinks
          (t.start ⟨p.absolute, p.steps ++ [a.table ++ ".json"], false⟩) p.steps =
          .ok (.dir loc) := hl
      unfold FileTree.placeOf
      rw [List.dropLast_concat, hwalk, List.getLast?_concat]
      simp only
      rw [if_neg (not_or.mpr (isName_of_json a.table)), if_pos hlong]
    simp only [hplace]

/-- **A write that meets no fault of the file system** is decided at a location of the store's
directory. -/
theorem exists_of_write (hid : isIdentifier a.table.toList) {policy : Policy}
    {r : EStateM.Result Error FileTree Outcome} (h : s.write a policy t = r)
    (hr : ∀ path fault t', r ≠ .error (.file path fault) t') :
    ∃ t₁ loc, FileTree.makeDirs s.dir t = .ok () t₁ ∧ s.LiesAt t₁ loc ∧ s.Fits a.table ∧
      r = s.settle a policy (s.present a.table t) loc t₁ := by
  have hsettle : ∀ {t₁ loc}, FileTree.makeDirs s.dir t = .ok () t₁ → s.LiesAt t₁ loc →
      s.Fits a.table → ∃ t₁ loc, FileTree.makeDirs s.dir t = .ok () t₁ ∧ s.LiesAt t₁ loc ∧
        s.Fits a.table ∧ r = s.settle a policy (s.present a.table t) loc t₁ :=
    fun hm hl hf => ⟨_, _, hm, hl, hf, h ▸ write_eq_settle hid hm hl hf policy⟩
  cases hpr : s.present a.table t with
  | true =>
    obtain ⟨loc, hl, hf, -⟩ := exists_of_present hid hpr
    simpa [hpr] using hsettle hl.makeDirs_eq hl hf
  | false =>
    have hcommit : s.commit a policy false t = r := by
      rw [← h, write, hpr, if_neg (by simp)]
    unfold commit makeDir at hcommit
    cases hm : FileTree.makeDirs s.dir t with
    | error fault t' => exact absurd (by simpa [hm] using hcommit.symm) (hr s.dir fault t')
    | ok u t₁ =>
      obtain ⟨loc, hl⟩ := exists_liesAt_of_makeDirs hm
      by_cases hf : s.Fits a.table
      · simpa [hpr, hm] using hsettle hm hl hf
      · obtain ⟨fault, hne, hput⟩ := put_of_not_fits hid hf (policy = .replace)
        refine absurd ?_ (hr (s.pathFor a.table) fault t₁)
        simpa [hm, hput hl, hne] using hcommit.symm

/-- What fails at a location finds it taken, leaves it alone and was not told to keep it. -/
theorem taken_of_settle_error {policy : Policy} {present : Bool} {e : Error}
    (h : s.settle a policy present loc t = .error e t') :
    t' = t ∧ t.get? (artifactAt loc a.table) ≠ none ∧ policy ≠ .keep := by
  unfold settle at h
  split at h
  · exact nomatch h
  · rename_i hget
    exact ⟨(EStateM.Result.error.inj h).2.symm, by simp [hget], nofun⟩
  · exact nomatch h
  · rename_i hget
    exact ⟨(EStateM.Result.error.inj h).2.symm, by simp [hget], nofun⟩
  · exact nomatch h

/-- **A write that fails without a fault of the file system** finds its place taken, in the store's
directory, which it may have made. -/
theorem taken_of_write_error (hid : isIdentifier a.table.toList) {policy : Policy} {e : Error}
    (h : s.write a policy t = .error e t') (he : ∀ path fault, e ≠ .file path fault) :
    policy ≠ .keep ∧ FileTree.makeDirs s.dir t = .ok () t' ∧
      ∃ loc, s.LiesAt t' loc ∧ t'.get? (artifactAt loc a.table) ≠ none := by
  obtain ⟨t₁, loc, hm, hl, -, hsettle⟩ := exists_of_write hid h fun path fault _ hr =>
    he path fault (EStateM.Result.error.inj hr).1
  obtain ⟨rfl, hget, hkeep⟩ := taken_of_settle_error hsettle.symm
  exact ⟨hkeep, hm, loc, hl, hget⟩

/-- **Where the store's directory cannot be made, nothing can be written.** -/
theorem write_of_makeDirs_error (hid : isIdentifier a.table.toList) {fault : FileFault}
    (hm : FileTree.makeDirs s.dir t = .error fault t') (policy : Policy) :
    s.write a policy t = .error (.file s.dir fault) t' := by
  have hpr : s.present a.table t = false := by
    rw [Bool.eq_false_iff]
    intro hpr
    obtain ⟨loc, hl, -⟩ := exists_of_present hid hpr
    exact nomatch hl.makeDirs_eq.symm.trans hm
  rw [write, hpr, if_neg (by simp), commit, makeDir, hm]

theorem exists_write_of_isBlockedIn (hid : isIdentifier a.table.toList) (h : s.IsBlockedIn t)
    (policy : Policy) : ∃ fault, s.write a policy t = .error (.file s.dir fault) t := by
  obtain ⟨p, hp, hblocked⟩ := h
  obtain ⟨fault, hm⟩ := FileTree.makeDirs_of_blocked hp hblocked
  exact ⟨fault, write_of_makeDirs_error hid hm policy⟩

/-- **With a file in the way of its directory, a store takes no more writes.** -/
theorem error_of_isBlockedIn (hid : isIdentifier a.table.toList) (h : s.IsBlockedIn t)
    (policy : Policy) : ∃ path fault, s.write a policy t = .error (.file path fault) t := by
  obtain ⟨fault, hw⟩ := exists_write_of_isBlockedIn hid h policy
  exact ⟨s.dir, fault, hw⟩

end Store

end Tablature
