import Tablature.FileTree.Change
import Tablature.Proofs.FileTree.Path
import Tablature.Proofs.FileTree.Walk

/-!
# Proofs/FileTree/MakeDirs — what is there after a directory was made

Making a directory makes all that is missing above it first.  If it succeeds, the path leads to a
directory (`exists_leads_of_makeDirs`), and nothing is made if it did before (`makeDirs_of_leads`);
a file in the way makes it fail (`makeDirs_of_blocked`).

What was made is stated for paths that never go up: `Makes` says that the directory is new with all
of its own, and that everything new lies on the way to it.  With a `..` in the path this is false,
because a directory that is made on the way can be left again.
-/

namespace Tablature.FileTree

variable {t t' : FileTree} {p : Path}

/-! ## Where a path leads -/

/-- A path leads to the directory at a location. -/
def Leads (t : FileTree) (p : Path) (loc : Location) : Prop :=
  t.walkLinks maxLinks (t.start p) p.steps = .ok (.dir loc)

theorem Leads.unique {loc loc' : Location} (h : t.Leads p loc) (h' : t.Leads p loc') :
    loc = loc' := by
  unfold Leads at h h'
  rw [h] at h'
  exact Spot.dir.inj (Except.ok.inj h')

/-- A slash at the end of a path changes nothing about the directory it leads to. -/
theorem isDirPath_iff : t.isDirPath p = true ↔ ∃ loc, t.Leads p loc := by
  have hsteps : ∀ loc, t.walkLinks maxLinks (t.start p) p.lookupSteps = .ok (.dir loc) ↔
      t.Leads p loc := by
    intro loc
    refine walkLinks_congr_dots ?_ maxLinks (t.start p) loc
    unfold Path.lookupSteps
    split
    · simp
    · rfl
  unfold isDirPath resolvePath
  constructor
  · intro h
    split at h
    · next loc hloc => exact ⟨loc, (hsteps loc).mp hloc⟩
    · simp at h
  · rintro ⟨loc, hloc⟩
    rw [(hsteps loc).mpr hloc]

/-- A path starts from a directory. -/
theorem hasDir_start (t : FileTree) (p : Path) : t.HasDir (t.start p) := by
  unfold start
  split
  · exact .inl rfl
  · exact t.hasDir_here

/-- **Where a path leads is a directory of the tree.** -/
theorem Leads.hasDir {loc : Location} (h : t.Leads p loc) : t.HasDir loc :=
  hasDir_of_walkLinks (t.hasDir_start p) h

theorem start_eq_of_here (h : t'.here = t.here) (p : Path) : t'.start p = t.start p := by
  simp [start, h]

theorem Leads.of_grows {loc : Location} (h : t.Leads p loc) (hg : Grows t t')
    (hh : t'.here = t.here) : t'.Leads p loc := by
  unfold Leads
  rw [start_eq_of_here hh]
  exact walkLinks_of_grows hg h

/-! ## The place for a new entry

The last step of a path is not followed: it names the entry, whether there is one or not. -/

/-- **A path names a place for a new entry** if its last step is a name and the steps before it lead
to a directory. -/
theorem placeOf_eq_ok_iff {l : Location} :
    t.placeOf p = .ok l ↔ ∃ front name loc, p.steps = front ++ [name] ∧
      t.walkLinks maxLinks (t.start p) front = .ok (.dir loc) ∧ IsName name ∧
      ¬ name.utf8ByteSize > maxNameBytes ∧ l = loc ++ [name] := by
  unfold placeOf
  constructor
  · intro h
    split at h
    · simp at h
    · simp at h
    · next loc hwalk =>
      split at h
      · simp at h
      · next name hlast =>
        split at h
        · simp at h
        · next hname =>
          split at h
          · simp at h
          · next hlong =>
            obtain ⟨front, hsteps⟩ := List.getLast?_eq_some_iff.mp hlast
            rw [hsteps, List.dropLast_concat] at hwalk
            exact ⟨front, name, loc, hsteps, hwalk, not_or.mp hname, hlong, (Except.ok.inj h).symm⟩
  · rintro ⟨front, name, loc, hsteps, hwalk, hname, hlong, rfl⟩
    rw [hsteps, List.dropLast_concat, hwalk]
    simp only [List.getLast?_concat]
    rw [if_neg (not_or.mpr hname), if_neg hlong]

/-- **The place for a new entry lies in a directory**, so that a tree admits all nodes there that do
not take the place of a directory. -/
theorem admits_of_placeOf {l : Location} {n : Node} (h : t.placeOf p = .ok l)
    (hn : t.get? l = some .dir → n = .dir) : t.Admits l n := by
  obtain ⟨front, name, loc, -, hwalk, -, -, rfl⟩ := placeOf_eq_ok_iff.mp h
  exact admits_of_hasDir (hasDir_of_walkLinks (t.hasDir_start p) hwalk) hn

/-- A path text names a location for an entry: links on the way there are followed, and one at the
end is not. -/
def Names (t : FileTree) (text : String) (l : Location) : Prop :=
  ∃ q, Path.ofText text = .ok q ∧ t.placeOf q = .ok l

theorem Names.admits {text : String} {l : Location} {n : Node} (h : t.Names text l)
    (hn : t.get? l = some .dir → n = .dir) : t.Admits l n := by
  obtain ⟨q, -, hplace⟩ := h
  exact admits_of_placeOf hplace hn

theorem makeDir_eq_ok_iff :
    t.makeDir p = .ok t' ↔ ∃ l, t.placeOf p = .ok l ∧ t.get? l = none ∧ t' = t.set l .dir := by
  unfold makeDir
  constructor
  · intro h
    split at h
    · simp at h
    · next l hplace =>
      split at h
      · simp at h
      · next hnone => exact ⟨l, hplace, hnone, (Except.ok.inj h).symm⟩
  · rintro ⟨l, hplace, hnone, rfl⟩
    simp only [hplace, hnone]

/-- One step to a name that is there as a directory. -/
theorem walkLinks_concat_dir {front : List String} {name : String} {k : Nat} {start loc : Location}
    (h : t.walkLinks k start front = .ok (.dir loc)) (hn : IsName name)
    (hlong : ¬ name.utf8ByteSize > maxNameBytes) (hd : t.get? (loc ++ [name]) = some .dir) :
    t.walkLinks k start (front ++ [name]) = .ok (.dir (loc ++ [name])) := by
  obtain ⟨k', hk⟩ := t.walkLinks_append k start front
  rw [hk, h, goOn, walkLinks_name hn, if_neg hlong, hd]
  exact walkLinks_nil k' _

/-- A new directory is where its path leads. -/
theorem leads_of_makeDir (h : t.makeDir p = .ok t') :
    ∃ front name loc, p.steps = front ++ [name] ∧ IsName name ∧
      t.walkLinks maxLinks (t.start p) front = .ok (.dir loc) ∧ t.get? (loc ++ [name]) = none ∧
      t' = t.set (loc ++ [name]) .dir ∧ t'.Leads p (loc ++ [name]) := by
  obtain ⟨l, hplace, hnone, rfl⟩ := makeDir_eq_ok_iff.mp h
  obtain ⟨front, name, loc, hsteps, hwalk, hname, hlong, rfl⟩ := placeOf_eq_ok_iff.mp hplace
  refine ⟨front, name, loc, hsteps, hname, hwalk, hnone, rfl, ?_⟩
  have hfront := walkLinks_of_grows (grows_set hnone .dir) hwalk
  have hadmits := admits_of_placeOf (n := .dir) hplace fun _ => rfl
  unfold Leads
  rw [hsteps, start_eq_of_here (here_set t _ _)]
  exact walkLinks_concat_dir hfront hname hlong (get?_set_self hadmits)

/-- **What a path leads to, or leads to no further than, is not made again.** -/
theorem makeDir_of_reached (h : (∃ loc, t.Leads p loc) ∨
    IsBlocked (t.walkLinks maxLinks (t.start p) p.steps)) :
    ∃ fault, t.makeDir p = .error fault ∧ fault ≠ .notFound := by
  rcases List.eq_nil_or_concat p.steps with hnil | ⟨front, name, hsteps⟩
  · exact ⟨.alreadyExists, by simp [makeDir, placeOf, hnil], by simp⟩
  · obtain ⟨k', hk⟩ := t.walkLinks_append maxLinks (t.start p) front
    have hwhole : t.walkLinks maxLinks (t.start p) p.steps =
        t.goOn k' [name] (t.walkLinks maxLinks (t.start p) front) := by
      rw [hsteps, List.concat_eq_append, hk]
    unfold makeDir placeOf
    unfold Leads at h
    rw [hwhole] at h
    rw [hsteps, List.concat_eq_append, List.dropLast_concat, List.getLast?_concat]
    cases hfront : t.walkLinks maxLinks (t.start p) front with
    | error fault =>
      rw [hfront] at h
      refine ⟨fault, rfl, ?_⟩
      rintro rfl
      simp [goOn, IsBlocked] at h
    | ok spot =>
      cases spot with
      | file l bytes => exact ⟨.notDirectory, rfl, by simp⟩
      | dir loc =>
        rw [hfront] at h
        simp only
        by_cases hname : name = "." ∨ name = ".."
        · exact ⟨.alreadyExists, by rw [if_pos hname], by simp⟩
        · by_cases hlong : name.utf8ByteSize > maxNameBytes
          · exact ⟨.nameTooLong, by rw [if_neg hname, if_pos hlong], by simp⟩
          · rw [if_neg hname, if_neg hlong]
            rw [goOn, walkLinks_name (not_or.mp hname), if_neg hlong] at h
            cases hget : t.get? (loc ++ [name]) with
            | some node => exact ⟨.alreadyExists, by simp only [hget], by simp⟩
            | none => simp [hget, IsBlocked] at h

/-! ## A directory and all above it

A directory is tried first, and what is above it only if it has no place.  So where a path leads
already nothing is made. -/

/-- Making a directory once: it is made, or it is there. -/
theorem of_makeDirOnce (h : makeDirOnce p t = .ok () t') :
    t.makeDir p = .ok t' ∨ t' = t ∧ ∃ loc, t.Leads p loc := by
  unfold makeDirOnce at h
  split at h
  · next t₁ hmake =>
    obtain ⟨-, rfl⟩ := EStateM.Result.ok.inj h
    exact .inl hmake
  · split at h
    · next hdir =>
      obtain ⟨-, rfl⟩ := EStateM.Result.ok.inj h
      exact .inr ⟨rfl, isDirPath_iff.mp hdir⟩
    · simp at h

/-- Making a directory below others: it is made, or it is there, at once or after these. -/
theorem of_makeDirBelow {above : FileM FileFault Unit} (h : makeDirBelow above p t = .ok () t') :
    t.makeDir p = .ok t' ∨ (t' = t ∧ ∃ loc, t.Leads p loc) ∨
      ∃ t₁, above t = .ok () t₁ ∧
        (t₁.makeDir p = .ok t' ∨ t' = t₁ ∧ ∃ loc, t₁.Leads p loc) := by
  unfold makeDirBelow at h
  split at h
  · next t₁ hmake =>
    obtain ⟨-, rfl⟩ := EStateM.Result.ok.inj h
    exact .inl hmake
  · split at h
    · next t₁ habove => exact .inr (.inr ⟨t₁, habove, of_makeDirOnce h⟩)
    · simp at h
  · split at h
    · next hdir =>
      obtain ⟨-, rfl⟩ := EStateM.Result.ok.inj h
      exact .inr (.inl ⟨rfl, isDirPath_iff.mp hdir⟩)
    · simp at h

/-- **A directory that was made is where its path leads.** -/
theorem exists_leads_of_makeDirBelow {above : FileM FileFault Unit}
    (h : makeDirBelow above p t = .ok () t') : ∃ loc, t'.Leads p loc := by
  have hmade : ∀ {t : FileTree}, t.makeDir p = .ok t' → ∃ loc, t'.Leads p loc := by
    intro t hmake
    obtain ⟨front, name, loc, -, -, -, -, -, hleads⟩ := leads_of_makeDir hmake
    exact ⟨_, hleads⟩
  rcases of_makeDirBelow h with hmake | ⟨rfl, hleads⟩ | ⟨t₁, -, hmake | ⟨rfl, hleads⟩⟩
  · exact hmade hmake
  · exact hleads
  · exact hmade hmake
  · exact hleads

/-- **A directory that is there is not made again.** -/
theorem makeDirBelow_of_leads {loc : Location} (above : FileM FileFault Unit)
    (h : t.Leads p loc) : makeDirBelow above p t = .ok () t := by
  obtain ⟨fault, hmake, hne⟩ := makeDir_of_reached (.inl ⟨loc, h⟩)
  have hdir : t.isDirPath p = true := isDirPath_iff.mpr ⟨loc, h⟩
  unfold makeDirBelow
  rw [hmake]
  cases fault <;> simp_all

/-- **With a file in the way, no directory is made.** -/
theorem makeDirBelow_of_blocked (above : FileM FileFault Unit)
    (h : IsBlocked (t.walkLinks maxLinks (t.start p) p.steps)) :
    ∃ fault, makeDirBelow above p t = .error fault t := by
  obtain ⟨fault, hmake, hne⟩ := makeDir_of_reached (.inr h)
  have hdir : t.isDirPath p = false := by
    rw [Bool.eq_false_iff, Ne, isDirPath_iff]
    rintro ⟨loc, hloc⟩
    unfold Leads at hloc
    simp [hloc, IsBlocked] at h
  refine ⟨fault, ?_⟩
  unfold makeDirBelow
  rw [hmake]
  cases fault <;> simp_all

/-! ## What is made

By induction on the steps of the path: they are tried from the last, and made from the first that is
missing. -/

/-- The trees that making the directory at a location can leave: it was there, or it is new, and so
are at most the directories above it. -/
inductive Makes (t : FileTree) (loc : Location) : FileTree → Prop
  | nothing : Makes t loc t
  | new {t' : FileTree} (hne : loc ≠ []) (hnone : t.get? loc = none) (hhere : t'.here = t.here)
    (hget : ∀ l, t'.get? l = t.get? l ∨
      t.get? l = none ∧ t'.get? l = some .dir ∧ l <+: loc) : Makes t loc t'

namespace Makes

variable {loc : Location}

theorem here_eq (h : Makes t loc t') : t'.here = t.here := by
  cases h with
  | nothing => rfl
  | new _ _ hhere _ => exact hhere

theorem get?_or (h : Makes t loc t') (l : Location) :
    t'.get? l = t.get? l ∨ t.get? l = none ∧ t'.get? l = some .dir ∧ l <+: loc := by
  cases h with
  | nothing => exact .inl rfl
  | new _ _ _ hget => exact hget l

/-- **Nothing is made in the directory itself.** -/
theorem get?_below (h : Makes t loc t') (name : String) :
    t'.get? (loc ++ [name]) = t.get? (loc ++ [name]) := by
  rcases h.get?_or (loc ++ [name]) with he | ⟨-, -, hpre⟩
  · exact he
  · have hlength := hpre.length_le
    rw [List.length_append, List.length_singleton] at hlength
    omega

/-- **If there is something in the directory, it was there and nothing was made.** -/
theorem eq_of_below (h : Makes t loc t') {name : String}
    (hn : t'.get? (loc ++ [name]) ≠ none) : t' = t := by
  rw [h.get?_below] at hn
  cases h with
  | nothing => rfl
  | new hne hnone _ _ =>
    have habove := hasDir_of_get? hn
    rw [List.dropLast_concat] at habove
    rcases habove with hroot | hdir
    · exact absurd hroot hne
    · exact nomatch hnone.symm.trans hdir

theorem set (h : Makes t loc t') (hd : t'.HasDir loc) {name : String}
    (hn : t'.get? (loc ++ [name]) = none) :
    Makes t (loc ++ [name]) (t'.set (loc ++ [name]) .dir) := by
  refine .new (by simp) (h.get?_below name ▸ hn) (by rw [here_set, h.here_eq]) fun l => ?_
  by_cases he : l = loc ++ [name]
  · subst he
    exact .inr ⟨h.get?_below name ▸ hn, get?_set_self (admits_of_hasDir hd fun _ => rfl),
      List.prefix_refl _⟩
  · rw [get?_set_of_ne he]
    rcases h.get?_or l with hl | ⟨hnone, hdir, hpre⟩
    · exact .inl hl
    · exact .inr ⟨hnone, hdir, hpre.trans (List.prefix_append loc [name])⟩

end Makes

/-- A look-up that goes on by a name past a directory finds that name there. -/
theorem get?_ne_none_of_walkLinks {s loc l : Location} {front : List String} {name : String}
    (hname : IsName name) (hfront : t.walkLinks maxLinks s front = .ok (.dir loc))
    (h : t.walkLinks maxLinks s (front ++ [name]) = .ok (.dir l)) :
    t.get? (loc ++ [name]) ≠ none := by
  intro hnone
  obtain ⟨k', hk⟩ := t.walkLinks_append maxLinks s front
  rw [hk, hfront, goOn, walkLinks_name hname, hnone] at h
  split at h <;> simp at h

/-- The steps `q` lead to the directory above a path, apart from steps that stay in place. -/
def IsAbove (q : List String) (p : Path) : Prop :=
  q.filter (· != ".") = (p.steps.filter (· != ".")).dropLast

theorem isAbove_of_cons {absolute : Bool} {name : String} {above : List String}
    (hdot : "." ∉ (name :: above).dropLast) :
    IsAbove above.reverse ⟨absolute, (name :: above).reverse, false⟩ := by
  unfold IsAbove
  cases above with
  | nil => by_cases hn : name = "." <;> simp [hn]
  | cons x xs =>
    have hn : [name].filter (· != ".") = [name] := by
      have : name ≠ "." := fun e => hdot (by simp [e])
      simp [this]
    rw [List.reverse_cons (a := name), List.filter_append, hn, List.dropLast_concat]

theorem not_mem_dropLast_of_cons {name : String} {above : List String}
    (hdot : "." ∉ (name :: above).dropLast) : "." ∉ above.dropLast := by
  cases above with
  | nil => simp
  | cons x xs => exact fun hm => hdot (by simp [hm])

/-- **What is made below a directory is made with it.** The steps `q` to that directory are those of
the path without the last, apart from steps that stay in place. -/
theorem makes_of_makeDirBelow {above : FileM FileFault Unit} {q : List String}
    (hup : ".." ∉ p.steps) (hq : IsAbove q p)
    (ha : ∀ t₁, above t = .ok () t₁ →
      ∃ loc, t₁.Leads ⟨p.absolute, q, false⟩ loc ∧ Makes t loc t₁)
    (h : makeDirBelow above p t = .ok () t') : ∃ loc, t'.Leads p loc ∧ Makes t loc t' := by
  rcases of_makeDirBelow h with hmake | ⟨rfl, loc, hleads⟩ | ⟨t₁, habove, h⟩
  · obtain ⟨front, name, loc, -, -, hfront, hnone, rfl, hleads⟩ := leads_of_makeDir hmake
    have hd := hasDir_of_walkLinks (t.hasDir_start p) hfront
    exact ⟨_, hleads, Makes.set .nothing hd hnone⟩
  · exact ⟨loc, hleads, .nothing⟩
  · obtain ⟨loc, hloc, hmakes⟩ := ha t₁ habove
    have hwalk : ∀ steps, steps.filter (· != ".") = q.filter (· != ".") →
        t₁.walkLinks maxLinks (t₁.start p) steps = .ok (.dir loc) := fun steps he =>
      (walkLinks_congr_dots he maxLinks (t₁.start p) loc).mpr hloc
    rcases h with hmake | ⟨rfl, l, hleads⟩
    · obtain ⟨front, name, l, hsteps, hname, hfront, hnone, rfl, hleads⟩ := leads_of_makeDir hmake
      have hfilter : front.filter (· != ".") = q.filter (· != ".") := by
        rw [hq, hsteps]
        simp [hname.1]
      have hl : l = loc := Leads.unique (p := ⟨p.absolute, front, false⟩) hfront (hwalk _ hfilter)
      subst hl
      exact ⟨_, hleads, hmakes.set (Leads.hasDir hloc) hnone⟩
    · rcases List.eq_nil_or_concat (p.steps.filter (· != ".")) with hnil | ⟨g, b, hg⟩
      · have : l = loc := hleads.unique (hwalk p.steps (by rw [hq, hnil]; rfl))
        exact ⟨l, hleads, this ▸ hmakes⟩
      · -- the last step is there, so nothing was made above it
        rw [List.concat_eq_append] at hg
        have hb : b ∈ p.steps.filter (· != ".") := by simp [hg]
        rw [List.mem_filter, bne_iff_ne] at hb
        have hname : IsName b := ⟨hb.2, fun e => hup (e ▸ hb.1)⟩
        have hfront := hwalk g (by
          rw [hq, hg, List.dropLast_concat, List.filter_eq_self]
          intro x hx
          have : x ∈ p.steps.filter (· != ".") := by simp [hg, hx]
          exact (List.mem_filter.mp this).2)
        have hwhole : t'.walkLinks maxLinks (t'.start p) (g ++ [b]) = .ok (.dir l) := by
          rw [← hg, walkLinks_filter_dots]
          exact hleads
        have hthere : t'.get? (loc ++ [b]) ≠ none :=
          get?_ne_none_of_walkLinks hname hfront hwhole
        obtain rfl := hmakes.eq_of_below hthere
        exact ⟨l, hleads, .nothing⟩

/-- Making some steps, the last one first; only the outermost may stay in place. -/
theorem makes_of_makeSteps {absolute : Bool} {steps : List String}
    (hup : ".." ∉ steps) (hdot : "." ∉ steps.dropLast)
    (h : makeSteps absolute steps t = .ok () t') :
    ∃ loc, t'.Leads ⟨absolute, steps.reverse, false⟩ loc ∧ Makes t loc t' := by
  induction steps generalizing t' with
  | nil =>
    obtain ⟨-, rfl⟩ := EStateM.Result.ok.inj h
    exact ⟨_, walkLinks_nil maxLinks _, .nothing⟩
  | cons name above ih =>
    have hup' : ".." ∉ above := fun hm => hup (List.mem_cons_of_mem name hm)
    exact makes_of_makeDirBelow (by rwa [List.mem_reverse]) (isAbove_of_cons hdot)
      (fun t₁ h₁ => ih hup' (not_mem_dropLast_of_cons hdot) h₁) h

/-! ## The directory of a text -/

theorem makeDirs_of_ofDir {text : String} (hp : Path.ofDir text = .ok p) :
    (text.isEmpty = true ∧ p = ⟨false, [], false⟩ ∧ makeDirs text t = .ok () t) ∨
      makeDirs text t = makeDirBelow (makeSteps p.absolute p.parentSteps.reverse) p t := by
  unfold Path.ofDir at hp
  unfold makeDirs
  split at hp
  · next he => exact .inl ⟨he, (Except.ok.inj hp).symm, by rw [if_pos he]⟩
  · next he =>
    right
    rw [if_neg he, hp]

theorem makeDirs_of_ofDir_error {text : String} {fault : FileFault}
    (hp : Path.ofDir text = .error fault) (t : FileTree) : makeDirs text t = .error fault t := by
  unfold Path.ofDir at hp
  unfold makeDirs
  split at hp
  · exact nomatch hp
  · next hne => rw [if_neg hne, hp]

/-- **A directory that was made is where its text leads.** -/
theorem exists_leads_of_makeDirs {text : String} (h : makeDirs text t = .ok () t') :
    ∃ p loc, Path.ofDir text = .ok p ∧ t'.Leads p loc := by
  cases hp : Path.ofDir text with
  | error fault => exact nomatch (makeDirs_of_ofDir_error hp t).symm.trans h
  | ok p =>
    rcases makeDirs_of_ofDir (t := t) hp with ⟨-, rfl, hmake⟩ | hmake
    · exact ⟨_, _, rfl, walkLinks_nil maxLinks _⟩
    · rw [hmake] at h
      obtain ⟨loc, hloc⟩ := exists_leads_of_makeDirBelow h
      exact ⟨p, loc, rfl, hloc⟩

/-- **A directory that is there is not made again.** -/
theorem makeDirs_of_leads {text : String} {loc : Location} (hp : Path.ofDir text = .ok p)
    (h : t.Leads p loc) : makeDirs text t = .ok () t := by
  rcases makeDirs_of_ofDir (t := t) hp with ⟨-, -, hmake⟩ | hmake
  · exact hmake
  · rw [hmake]
    exact makeDirBelow_of_leads _ h

/-- **With a file in the way, no directory is made.** -/
theorem makeDirs_of_blocked {text : String} (hp : Path.ofDir text = .ok p)
    (h : IsBlocked (t.walkLinks maxLinks (t.start p) p.steps)) :
    ∃ fault, makeDirs text t = .error fault t := by
  rcases makeDirs_of_ofDir (t := t) hp with ⟨-, rfl, -⟩ | hmake
  · simp [IsBlocked] at h
  · rw [hmake]
    exact makeDirBelow_of_blocked _ h

/-- The steps above a path: those of the path without the last, apart from steps that stay in
place, and of these only one at the start is kept. -/
theorem filter_parentSteps (p : Path) :
    p.parentSteps.filter (· != ".") = (p.steps.filter (· != ".")).dropLast ∧
      "." ∉ p.parentSteps.tail ∧ p.parentSteps ⊆ p.steps := by
  have hkept : ∀ steps : List String,
      ((steps.filter (· != ".")).dropLast).filter (· != ".") =
        (steps.filter (· != ".")).dropLast := by
    intro steps
    refine List.filter_eq_self.mpr fun x hx => ?_
    exact (List.mem_filter.mp (List.dropLast_subset _ hx)).2
  have hnone : ∀ steps : List String, "." ∉ (steps.filter (· != ".")).dropLast := by
    intro steps hm
    simpa using (List.mem_filter.mp (List.dropLast_subset _ hm)).2
  have hsub : ∀ steps : List String, (steps.filter (· != ".")).dropLast ⊆ steps :=
    fun steps _ hx => List.filter_sublist.subset (List.dropLast_subset _ hx)
  unfold Path.parentSteps Path.normalSteps
  split
  · next rest _ hsteps =>
    rw [hsteps]
    cases hf : rest.filter (· != ".") with
    | nil => simp [hf]
    | cons x xs =>
      have hdot : ("." :: rest).filter (· != ".") = x :: xs := by simpa using hf
      rw [List.dropLast_cons_of_ne_nil (by simp), hdot, ← hf]
      refine ⟨by simpa using hkept rest, by simpa using hnone rest, ?_⟩
      exact List.cons_subset_cons "." (hsub rest)
  · exact ⟨hkept _, fun hm => hnone _ (List.mem_of_mem_tail hm), hsub _⟩

/-- **What is made is the directory with what was missing above it**, if its path never goes up. -/
theorem makes_of_makeDirs {text : String} {loc : Location}
    (hp : Path.ofDir text = .ok p) (hup : ".." ∉ p.steps) (h : makeDirs text t = .ok () t')
    (hl : t'.Leads p loc) : Makes t loc t' := by
  rcases makeDirs_of_ofDir (t := t) hp with ⟨-, -, hmake⟩ | hmake
  · obtain ⟨-, rfl⟩ := EStateM.Result.ok.inj (hmake.symm.trans h)
    exact .nothing
  · obtain ⟨hfilter, hdot, hsub⟩ := filter_parentSteps p
    rw [hmake] at h
    obtain ⟨l, hleads, hmakes⟩ := makes_of_makeDirBelow hup hfilter (fun t₁ h₁ => by
      have hsteps := makes_of_makeSteps (fun hm => hup (hsub (List.mem_reverse.mp hm))) (by
        rwa [List.dropLast_reverse, List.mem_reverse]) h₁
      rwa [List.reverse_reverse] at hsteps) h
    exact hl.unique hleads ▸ hmakes

end Tablature.FileTree
