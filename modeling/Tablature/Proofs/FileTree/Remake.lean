import Mathlib.Data.List.Basic
import Tablature.Proofs.FileTree.MakeDirs

/-!
# Proofs/FileTree/Remake — a directory that could not be made, asked for again

Making a directory can fail half way and leave directories that were made before.  Asking for it
again fails again and leaves the tree alone (`makeDirs_again`): what is missing above it leads
nowhere still, and what has been made is there.

The fault can be another one the second time, if the path goes up: a directory that was made on the
way and left again changes how far a look-up gets.  For a path that never goes up the fault is the
same.  If something was made on the way before the failure, then nothing lies below it, and the
failure is that of a name that is too long; this is what every look-up along the path meets
(`tooLong_of_makeSteps_error`).
-/

namespace Tablature.FileTree

variable {t t' : FileTree} {p : Path} {above : FileM FileFault Unit} {fault : FileFault}
  {q : List String}

/-! ## Look-ups that fail

A look-up fails on the way, so that it fails however it would go on; dots on the way change
nothing. -/

/-- A look-up that fails fails however it goes on. -/
theorem walkLinks_append_error {k : Nat} {loc : Location} {a : List String}
    (h : t.walkLinks k loc a = .error fault) (b : List String) :
    t.walkLinks k loc (a ++ b) = .error fault := by
  obtain ⟨k', hk⟩ := t.walkLinks_append k loc a
  rw [hk, h, goOn]

/-- A look-up of a directory comes by directories. -/
theorem exists_dir_of_walkLinks_append {k : Nat} {loc l : Location} {a b : List String}
    (h : t.walkLinks k loc (a ++ b) = .ok (.dir l)) :
    ∃ l', t.walkLinks k loc a = .ok (.dir l') := by
  obtain ⟨k', hk⟩ := t.walkLinks_append k loc a
  rw [hk] at h
  cases hwalk : t.walkLinks k loc a with
  | error fault => simp [hwalk, goOn] at h
  | ok spot =>
    cases spot with
    | dir l' => exact ⟨l', rfl⟩
    | file l' bytes => cases b <;> simp [hwalk, goOn] at h

/-- A step that stays in place takes no look-up any further. -/
theorem walkLinks_dot_error {k : Nat} {loc : Location} {a b : List String}
    (h : t.walkLinks k loc (a ++ b) = .error fault) :
    t.walkLinks k loc (a ++ "." :: b) = .error fault := by
  obtain ⟨k', hk⟩ := t.walkLinks_append k loc a
  rw [hk] at h ⊢
  cases hwalk : t.walkLinks k loc a with
  | error fault' => simpa [hwalk, goOn] using h
  | ok spot =>
    cases spot with
    | dir l => simpa [hwalk, goOn] using h
    | file l bytes => cases b <;> simp_all [goOn]

theorem walkLinks_error_of_filter {k : Nat} {loc : Location} {steps : List String}
    (h : t.walkLinks k loc (steps.filter (· != ".")) = .error fault) :
    t.walkLinks k loc steps = .error fault := by
  have hfront : ∀ a, t.walkLinks k loc (a ++ steps.filter (· != ".")) = .error fault →
      t.walkLinks k loc (a ++ steps) = .error fault := by
    clear h
    induction steps with
    | nil => exact fun a h => h
    | cons step rest ih =>
      intro a h
      by_cases hdot : step = "."
      · subst hdot
        exact walkLinks_dot_error (ih a h)
      · have hkeep : (step :: rest).filter (· != ".") = step :: rest.filter (· != ".") := by
          simp [hdot]
        rw [hkeep, List.append_cons] at h
        rw [List.append_cons]
        exact ih (a ++ [step]) h
  exact hfront [] h

/-! ## Directories above -/

theorem IsAbove.leads_of_leads (hq : IsAbove q p) {loc : Location} (h : t.Leads p loc) :
    ∃ l, t.Leads ⟨p.absolute, q, false⟩ l := by
  have hwhole := (walkLinks_filter_dots maxLinks (t.start p) loc p.steps).mpr h
  rcases List.eq_nil_or_concat' (p.steps.filter (· != ".")) with hnil | ⟨g, b, hg⟩
  · have hwalk := walkLinks_congr_dots (t := t) (b := []) (hq.trans (by rw [hnil]; rfl)) maxLinks
      (t.start p) (t.start p)
    exact ⟨_, hwalk.mpr (walkLinks_nil maxLinks _)⟩
  · rw [hg] at hwhole
    obtain ⟨l, hl⟩ := exists_dir_of_walkLinks_append hwhole
    have hfilter : q.filter (· != ".") = g.filter (· != ".") := by
      have hkept : g.filter (· != ".") = g := by
        refine List.filter_eq_self.mpr fun x hx => ?_
        have hmem : x ∈ p.steps.filter (· != ".") := by simp [hg, hx]
        exact (List.mem_filter.mp hmem).2
      rw [hkept, hq, hg, List.dropLast_concat]
    exact ⟨l, (walkLinks_congr_dots hfilter maxLinks (t.start p) l).mpr hl⟩

theorem IsAbove.leads_of_makeDir (hq : IsAbove q p) (h : t.makeDir p = .ok t') :
    ∃ l, t.Leads ⟨p.absolute, q, false⟩ l := by
  obtain ⟨front, name, loc, hsteps, hname, hwalk, -⟩ := FileTree.leads_of_makeDir h
  have hfilter : q.filter (· != ".") = front.filter (· != ".") := by
    rw [hq, hsteps]
    simp [hname.1]
  exact ⟨loc, (walkLinks_congr_dots hfilter maxLinks (t.start p) loc).mpr hwalk⟩

/-- The steps to the directory of a path's new entry go through the directory above. -/
theorem IsAbove.prefix_dropLast (hq : IsAbove q p) :
    q.filter (· != ".") <+: p.steps.dropLast.filter (· != ".") := by
  rw [hq]
  rcases List.eq_nil_or_concat' p.steps with hnil | ⟨front, name, hsteps⟩
  · simp [hnil]
  · rw [hsteps, List.dropLast_concat, List.filter_append]
    by_cases hdot : name = "."
    · simpa [hdot] using List.dropLast_prefix _
    · simp [hdot]

/-- **What stops the look-up of the directory above stops the making of a directory.** -/
theorem IsAbove.makeDir_error (hq : IsAbove q p)
    (h : t.walkLinks maxLinks (t.start p) (q.filter (· != ".")) = .error fault) :
    t.makeDir p = .error fault := by
  obtain ⟨rest, hrest⟩ := hq.prefix_dropLast
  have hwalk : t.walkLinks maxLinks (t.start p) p.steps.dropLast = .error fault :=
    walkLinks_error_of_filter (hrest ▸ walkLinks_append_error h rest)
  simp only [makeDir, placeOf, hwalk]

/-! ## Directories that cannot be made -/

/-- **How making a directory below others can fail**: at once, above it, or after what was missing
above it has been made. -/
theorem of_makeDirBelow_error (h : makeDirBelow above p t = .error fault t') :
    (t' = t ∧ t.makeDir p = .error fault ∧ fault ≠ .notFound ∧ ¬ ∃ loc, t.Leads p loc) ∨
      above t = .error fault t' ∨
      above t = .ok () t' ∧ t'.makeDir p = .error fault ∧ ¬ ∃ loc, t'.Leads p loc := by
  unfold makeDirBelow at h
  split at h
  · exact nomatch h
  · split at h
    · next t₁ habove =>
      unfold makeDirOnce at h
      split at h
      · exact nomatch h
      · next fault' hmake =>
        split at h
        · exact nomatch h
        · next hdir =>
          obtain ⟨rfl, rfl⟩ := EStateM.Result.error.inj h
          exact .inr (.inr ⟨habove, hmake, mt isDirPath_iff.mpr hdir⟩)
    · next habove =>
      obtain ⟨rfl, rfl⟩ := EStateM.Result.error.inj h
      exact .inr (.inl habove)
  · next fault' hne hmake =>
    split at h
    · exact nomatch h
    · next hdir =>
      obtain ⟨rfl, rfl⟩ := EStateM.Result.error.inj h
      exact .inl ⟨rfl, hmake, hne, mt isDirPath_iff.mpr hdir⟩

theorem makeDirBelow_of_error (hmake : t.makeDir p = .error fault) (hne : fault ≠ .notFound)
    (hno : ¬ ∃ loc, t.Leads p loc) (above : FileM FileFault Unit) :
    makeDirBelow above p t = .error fault t := by
  have hdir : ¬ t.isDirPath p = true := mt isDirPath_iff.mp hno
  unfold makeDirBelow
  rw [hmake]
  cases fault <;> simp_all

theorem makeDirBelow_of_notFound (hmake : t.makeDir p = .error .notFound)
    (ha : above t = .error fault t') : makeDirBelow above p t = .error fault t' := by
  unfold makeDirBelow
  rw [hmake]
  simp only [ha]

/-- What cannot be made where the directories above it are there cannot be made together with
them. -/
theorem makeDirBelow_of_above (ha : above t = .ok () t) (hmake : t.makeDir p = .error fault)
    (hno : ¬ ∃ loc, t.Leads p loc) : makeDirBelow above p t = .error fault t := by
  by_cases hne : fault = .notFound
  · subst hne
    have hdir : ¬ t.isDirPath p = true := mt isDirPath_iff.mp hno
    unfold makeDirBelow
    rw [hmake]
    simp only [ha, makeDirOnce, hmake]
    rw [if_neg hdir]
  · exact makeDirBelow_of_error hmake hne hno above

/-! ## A second time

By induction on the steps: what was made above is there the second time, and what was not made fails
again. -/

/-- The directory of a path was not made; asking for it again fails and leaves the tree alone. -/
def FailsAgain (action : FileM FileFault Unit) (p : Path) : Prop :=
  ∀ ⦃t t' : FileTree⦄ ⦃fault : FileFault⦄, action t = .error fault t' →
    (¬ ∃ loc, t'.Leads p loc) ∧ ∃ fault', action t' = .error fault' t'

theorem failsAgain_makeDirBelow (hq : IsAbove q p)
    (ha : FailsAgain above ⟨p.absolute, q, false⟩)
    (hdone : ∀ {t t'}, above t = .ok () t' → above t' = .ok () t') :
    FailsAgain (makeDirBelow above p) p := by
  intro t t' fault h
  rcases of_makeDirBelow_error h with ⟨rfl, hmake, hne, hno⟩ | habove | ⟨habove, hmake, hno⟩
  · exact ⟨hno, fault, makeDirBelow_of_error hmake hne hno above⟩
  · obtain ⟨hno, fault₁, hagain⟩ := ha habove
    have hno' : ¬ ∃ loc, t'.Leads p loc := fun ⟨loc, hl⟩ => hno (hq.leads_of_leads hl)
    refine ⟨hno', ?_⟩
    cases hmake : t'.makeDir p with
    | ok t₂ => exact absurd (hq.leads_of_makeDir hmake) hno
    | error fault₂ =>
      by_cases hne : fault₂ = .notFound
      · exact ⟨fault₁, makeDirBelow_of_notFound (hne ▸ hmake) hagain⟩
      · exact ⟨fault₂, makeDirBelow_of_error hmake hne hno' above⟩
  · exact ⟨hno, fault, makeDirBelow_of_above (hdone habove) hmake hno⟩

/-- What has been made is there. -/
theorem makeSteps_of_ok {absolute : Bool} {steps : List String}
    (h : makeSteps absolute steps t = .ok () t') : makeSteps absolute steps t' = .ok () t' := by
  cases steps with
  | nil => rfl
  | cons name above =>
    obtain ⟨loc, hl⟩ := exists_leads_of_makeDirBelow h
    exact makeDirBelow_of_leads _ hl

theorem failsAgain_makeSteps (absolute : Bool) {steps : List String} (hdot : "." ∉ steps.dropLast) :
    FailsAgain (makeSteps absolute steps) ⟨absolute, steps.reverse, false⟩ := by
  induction steps with
  | nil => exact fun _ _ _ h => nomatch h
  | cons name above ih =>
    exact failsAgain_makeDirBelow (isAbove_of_cons hdot) (ih (not_mem_dropLast_of_cons hdot))
      makeSteps_of_ok

/-! ## The same fault -/

/-- A directory cannot be made in one that is there, if its name is too long or taken. -/
theorem makeDir_concat_error {absolute : Bool} {name : String} {loc : Location}
    (hl : t.Leads ⟨absolute, q, false⟩ loc) (hname : name ≠ "." ∧ name ≠ "..")
    (h : t.makeDir ⟨absolute, q ++ [name], false⟩ = .error fault) :
    name.utf8ByteSize > maxNameBytes ∧ fault = .nameTooLong ∨ t.get? (loc ++ [name]) ≠ none := by
  have hwalk : t.walkLinks maxLinks (t.start ⟨absolute, q ++ [name], false⟩) q =
      .ok (.dir loc) := hl
  unfold makeDir placeOf at h
  rw [List.dropLast_concat, hwalk, List.getLast?_concat] at h
  simp only at h
  rw [if_neg (not_or.mpr hname)] at h
  by_cases hlong : name.utf8ByteSize > maxNameBytes
  · rw [if_pos hlong] at h
    exact .inl ⟨hlong, (Except.error.inj h).symm⟩
  · rw [if_neg hlong] at h
    simp only at h
    split at h
    · next hsome => exact .inr (by rw [hsome]; simp)
    · cases h

/-- A look-up of a name that is too long meets that. -/
theorem walkLinks_concat_tooLong {absolute : Bool} {name : String} {loc : Location}
    (hl : t.Leads ⟨absolute, q, false⟩ loc) (hname : name ≠ "." ∧ name ≠ "..")
    (hlong : name.utf8ByteSize > maxNameBytes) :
    t.walkLinks maxLinks (t.start ⟨absolute, q ++ [name], false⟩)
      ((q ++ [name]).filter (· != ".")) = .error .nameTooLong := by
  have hfilter := (walkLinks_filter_dots maxLinks (t.start ⟨absolute, q, false⟩) loc q).mpr hl
  obtain ⟨k', hk⟩ := t.walkLinks_append maxLinks (t.start ⟨absolute, q, false⟩)
    (q.filter (· != "."))
  have hkept : (q ++ [name]).filter (· != ".") = q.filter (· != ".") ++ [name] := by
    simp [hname.1]
  rw [hkept]
  refine (hk [name]).trans ?_
  rw [hfilter, goOn, walkLinks_name hname, if_pos hlong]

/-- **What cannot be made in a new directory has a name that is too long**: there is nothing in a
new directory. -/
theorem tooLong_of_makeDir_error {absolute : Bool} {name : String} {loc : Location} {t₁ : FileTree}
    (hl : t₁.Leads ⟨absolute, q, false⟩ loc) (hm : Makes t loc t₁)
    (hup : name ≠ "..") (h : t₁.makeDir ⟨absolute, q ++ [name], false⟩ = .error fault)
    (hno : ¬ ∃ l, t₁.Leads ⟨absolute, q ++ [name], false⟩ l) :
    t₁ = t ∨ fault = .nameTooLong ∧
      t₁.walkLinks maxLinks (t₁.start ⟨absolute, q ++ [name], false⟩)
        ((q ++ [name]).filter (· != ".")) = .error .nameTooLong := by
  have hdot : name ≠ "." := by
    rintro rfl
    have hwalk := walkLinks_congr_dots (t := t₁) (a := q ++ ["."]) (b := q) (by simp) maxLinks
      (t₁.start ⟨absolute, q, false⟩) loc
    exact hno ⟨loc, hwalk.mpr hl⟩
  rcases makeDir_concat_error hl ⟨hdot, hup⟩ h with ⟨hlong, rfl⟩ | hthere
  · exact .inr ⟨rfl, walkLinks_concat_tooLong hl ⟨hdot, hup⟩ hlong⟩
  · exact .inl (hm.eq_of_below hthere)

/-- **Where directories were made before a failure, the failure is that of a name that is too
long**, and every look-up along the path meets it. -/
theorem tooLong_of_makeSteps_error {absolute : Bool} {steps : List String}
    (hup : ".." ∉ steps) (hdot : "." ∉ steps.dropLast)
    (h : makeSteps absolute steps t = .error fault t') :
    t' = t ∨ fault = .nameTooLong ∧
      t'.walkLinks maxLinks (t'.start ⟨absolute, steps.reverse, false⟩)
        (steps.reverse.filter (· != ".")) = .error .nameTooLong := by
  induction steps generalizing t' with
  | nil => exact nomatch h
  | cons name above ih =>
    have hup' : ".." ∉ above := fun hm => hup (List.mem_cons_of_mem name hm)
    have hdot' := not_mem_dropLast_of_cons hdot
    rw [List.reverse_cons]
    rcases of_makeDirBelow_error h with ⟨rfl, -⟩ | habove | ⟨habove, hmake, hno⟩
    · exact .inl rfl
    · refine (ih hup' hdot' habove).imp_right fun ⟨hfault, hwalk⟩ => ⟨hfault, ?_⟩
      rw [List.filter_append]
      exact walkLinks_append_error hwalk _
    · obtain ⟨loc, hl, hmakes⟩ := makes_of_makeSteps hup' hdot' habove
      rw [List.reverse_cons] at hmake hno
      have hne : name ≠ ".." := fun e => hup (e ▸ List.mem_cons_self)
      exact tooLong_of_makeDir_error hl hmakes hne hmake hno

/-- **The same fault**, where the path never goes up. -/
theorem makeDirBelow_again (hup : ".." ∉ p.steps) {fault' : FileFault}
    (h : makeDirBelow (makeSteps p.absolute p.parentSteps.reverse) p t = .error fault t')
    (h' : makeDirBelow (makeSteps p.absolute p.parentSteps.reverse) p t' = .error fault' t')
    (hno : ¬ ∃ loc, t'.Leads p loc) : fault' = fault := by
  obtain ⟨hfilter, hdot, hsub⟩ := filter_parentSteps p
  have hsame : ∀ {fault₁}, makeDirBelow (makeSteps p.absolute p.parentSteps.reverse) p t' =
      .error fault₁ t' → fault' = fault₁ := fun he =>
    (EStateM.Result.error.inj (h'.symm.trans he)).1
  rcases of_makeDirBelow_error h with ⟨rfl, -⟩ | habove | ⟨habove, hmake, -⟩
  · exact hsame h
  · have hup' : ".." ∉ p.parentSteps.reverse := fun hm => hup (hsub (List.mem_reverse.mp hm))
    have hdot' : "." ∉ p.parentSteps.reverse.dropLast := by
      rwa [List.dropLast_reverse, List.mem_reverse]
    rcases tooLong_of_makeSteps_error hup' hdot' habove with rfl | ⟨rfl, hwalk⟩
    · exact hsame h
    · rw [List.reverse_reverse] at hwalk
      have habove : IsAbove p.parentSteps p := hfilter
      exact hsame (makeDirBelow_of_error (habove.makeDir_error hwalk) nofun hno _)
  · exact hsame (makeDirBelow_of_above (makeSteps_of_ok habove) hmake hno)

/-- **A directory that could not be made cannot be made the second time**, and nothing is done then.
If its path never goes up, the fault is the same. -/
theorem makeDirs_again {text : String} (h : makeDirs text t = .error fault t') :
    (∀ p, Path.ofDir text = .ok p → ¬ ∃ loc, t'.Leads p loc) ∧
      ∃ fault', makeDirs text t' = .error fault' t' ∧
        (".." ∉ Path.stepsOf text.toList → fault' = fault) := by
  cases hp : Path.ofDir text with
  | error fault₁ =>
    obtain ⟨rfl, rfl⟩ := EStateM.Result.error.inj ((makeDirs_of_ofDir_error hp t).symm.trans h)
    exact ⟨nofun, fault₁, h, fun _ => rfl⟩
  | ok p =>
    have hbelow : ∀ t, makeDirs text t =
        makeDirBelow (makeSteps p.absolute p.parentSteps.reverse) p t := by
      intro t₁
      refine (makeDirs_of_ofDir hp).resolve_left fun hempty => ?_
      rw [makeDirs, if_pos hempty.1] at h
      exact nomatch h
    obtain ⟨hfilter, hdot, -⟩ := filter_parentSteps p
    have hdots : "." ∉ p.parentSteps.reverse.dropLast := by
      rwa [List.dropLast_reverse, List.mem_reverse]
    have hsteps := failsAgain_makeSteps p.absolute hdots
    rw [List.reverse_reverse] at hsteps
    rw [hbelow] at h
    obtain ⟨hno, fault', hagain⟩ := failsAgain_makeDirBelow hfilter hsteps makeSteps_of_ok h
    refine ⟨fun p' hp' => Except.ok.inj hp' ▸ hno, fault', (hbelow t').trans hagain, ?_⟩
    intro hup
    exact makeDirBelow_again (Path.steps_of_ofDir hp ▸ hup) h hagain hno

end Tablature.FileTree
