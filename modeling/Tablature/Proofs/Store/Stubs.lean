import Mathlib.Data.List.Nodup
import Tablature.Proofs.Store.Atomic
import Tablature.Proofs.Table.Statements

/-!
# Proofs/Store/Stubs — every table that is referred to is accounted for once

A built table asks for a stub of each table it refers to.  The report sorts these tables: those that
are defined elsewhere are left alone, of the others those that were there are kept and the rest are
created.  `Accounts` says this with the tree of the start, although the tree changes on the way: a
stub is put at the location of its own table only, and no table comes twice, so that what is found
at a later table's location was there at the start (`stubAll_of_liesAt`).

The store's directory is made by the first write, if there is one.  What is found in it then was
found at the start (`occupied_iff_get?`), and after it was made the whole sequence is the same
(`stubAll_of_makeDirs`).
-/

namespace Tablature

/-! ## The tables that are referred to -/

/-- **Each table is referred to once**, in the order of the columns. -/
theorem Table.referenced_eq_eraseDups (table : Table) :
    table.referenced = ((table.columns.filterMap fun c => c.reference.map (·.table)).filter
      (· ≠ table.name)).eraseDups := by
  have hother : ∀ names : List String,
      names.filter (· != table.name) = names.filter (· ≠ table.name) :=
    fun names => List.filter_congr fun u _ => by by_cases hu : u = table.name <;> simp [hu]
  rw [referenced, insertAll_eq, hother]
  simp

theorem Table.nodup_referenced (table : Table) : table.referenced.Nodup :=
  nodup_insertAll List.nodup_nil _

namespace Store

variable {s : Store} {t t' t₁ : FileTree} {loc : Location} {u v : String}
  {elsewhere targets : List String} {report : StubReport}

theorem pathFor_inj (hu : isIdentifier u.toList) (hv : isIdentifier v.toList)
    (h : s.pathFor u = s.pathFor v) : u = v := by
  have hname : u ++ ".json" = v ++ ".json" := by
    unfold pathFor Path.join at h
    rw [(isStep_of_identifier hu).startsAtRoot_eq, (isStep_of_identifier hv).startsAtRoot_eq] at h
    simp only [Bool.false_eq_true, if_false] at h
    split at h <;> exact (String.append_right_inj _).mp h
  have hplace : artifactAt [] u = artifactAt [] v := congrArg ([·]) hname
  exact artifactAt_inj hplace

/-! ## Sorting -/

/-- The report about tables, some of which are elsewhere and some of which are there. -/
def reportOf (s : Store) (elsewhere : List String) (there : String → Prop) [DecidablePred there]
    (targets : List String) : StubReport where
  created := (targets.filter fun u => u ∉ elsewhere ∧ ¬ there u).map s.pathFor
  existing := targets.filter fun u => u ∉ elsewhere ∧ there u
  deferred := targets.filter (· ∈ elsewhere)

section Sorting

variable {there there' : String → Prop} [DecidablePred there] [DecidablePred there']

theorem reportOf_congr (h : ∀ u ∈ targets, u ∉ elsewhere → (there u ↔ there' u)) :
    s.reportOf elsewhere there targets = s.reportOf elsewhere there' targets := by
  have hcreated : (targets.filter fun u => u ∉ elsewhere ∧ ¬ there u) =
      targets.filter fun u => u ∉ elsewhere ∧ ¬ there' u :=
    List.filter_congr fun u hu => by
      rw [decide_eq_decide]
      exact and_congr_right fun hne => not_congr (h u hu hne)
  have hexisting : (targets.filter fun u => u ∉ elsewhere ∧ there u) =
      targets.filter fun u => u ∉ elsewhere ∧ there' u :=
    List.filter_congr fun u hu => by
      rw [decide_eq_decide]
      exact and_congr_right fun hne => h u hu hne
  rw [reportOf, reportOf, hcreated, hexisting]

theorem reportOf_cons_elsewhere (hu : u ∈ elsewhere) :
    s.reportOf elsewhere there (u :: targets) =
      { s.reportOf elsewhere there targets with
        deferred := u :: (s.reportOf elsewhere there targets).deferred } := by
  simp [reportOf, hu]

theorem reportOf_cons_there (hu : u ∉ elsewhere) (h : there u) :
    s.reportOf elsewhere there (u :: targets) =
      { s.reportOf elsewhere there targets with
        existing := u :: (s.reportOf elsewhere there targets).existing } := by
  simp [reportOf, hu, h]

theorem reportOf_cons_new (hu : u ∉ elsewhere) (h : ¬ there u) :
    s.reportOf elsewhere there (u :: targets) =
      { s.reportOf elsewhere there targets with
        created := s.pathFor u :: (s.reportOf elsewhere there targets).created } := by
  simp [reportOf, hu, h]

/-- Where nothing is missing, nothing is created. -/
theorem reportOf_of_there (h : ∀ u ∈ targets, u ∉ elsewhere → there u) :
    s.reportOf elsewhere there targets =
      { existing := targets.filter (· ∉ elsewhere)
        deferred := targets.filter (· ∈ elsewhere) } := by
  have hcreated : (targets.filter fun u => u ∉ elsewhere ∧ ¬ there u) = [] := by
    refine List.filter_eq_nil_iff.mpr fun u hu => ?_
    rw [decide_eq_true_eq]
    exact fun hnew => hnew.2 (h u hu hnew.1)
  have hexisting : (targets.filter fun u => u ∉ elsewhere ∧ there u) =
      targets.filter (· ∉ elsewhere) := by
    refine List.filter_congr fun u hu => ?_
    rw [decide_eq_decide]
    exact and_iff_left_of_imp (h u hu)
  rw [reportOf, hcreated, hexisting]
  rfl

end Sorting

/-- **The three lists hold each table once.** -/
theorem perm_of_filter (targets elsewhere : List String) (there : String → Prop)
    [DecidablePred there] :
    ((targets.filter fun u => u ∉ elsewhere ∧ ¬ there u) ++
      (targets.filter fun u => u ∉ elsewhere ∧ there u) ++
        targets.filter (· ∈ elsewhere)).Perm targets := by
  have hhere : ((targets.filter fun u => u ∉ elsewhere ∧ ¬ there u) ++
      targets.filter fun u => u ∉ elsewhere ∧ there u).Perm (targets.filter (· ∉ elsewhere)) := by
    have hsplit := List.filter_append_perm (fun u => decide (¬ there u))
      (targets.filter (· ∉ elsewhere))
    simpa [List.filter_filter, Bool.and_comm] using hsplit
  have hall := List.filter_append_perm (fun u => decide (u ∉ elsewhere)) targets
  refine (hhere.append_right _).trans ?_
  simpa using hall

/-! ## The sequence of stubs

The first stub that is written makes the directory; from then on each is settled at its own
location. -/

/-- The file of a stub. -/
def stubNode (u : String) : Node := .file (Table.stub u).artifact.encode.toUTF8

/-- One stub, seen from the store's directory. -/
theorem writeStub_of_makeDirs (hid : isIdentifier u.toList)
    (hm : FileTree.makeDirs s.dir t = .ok () t₁) (hl : s.LiesAt t₁ loc) (hf : s.Fits u) :
    s.writeStub u t = if t₁.get? (artifactAt loc u) = none
      then .ok .created (t₁.set (artifactAt loc u) (stubNode u)) else .ok .kept t₁ := by
  have hid' : isIdentifier (Table.stub u).artifact.table.toList := hid
  have hf' : s.Fits (Table.stub u).artifact.table := hf
  rw [writeStub, write_eq_settle hid' hm hl hf']
  unfold settle
  have hartifact : artifactAt loc (Table.stub u).artifact.table = artifactAt loc u := rfl
  rw [hartifact]
  cases hget : t₁.get? (artifactAt loc u) with
  | none => rfl
  | some node => simp [Policy.stub]

/-- The tree with stubs in a directory. -/
def withStubs (loc : Location) (names : List String) (t : FileTree) : FileTree :=
  names.foldl (fun t u => t.set (artifactAt loc u) (stubNode u)) t

/-- The tables whose stub is missing in a directory. -/
def missing (loc : Location) (elsewhere targets : List String) (t : FileTree) : List String :=
  targets.filter fun u => u ∉ elsewhere ∧ t.get? (artifactAt loc u) = none

/-- The tree with the stubs that are missing in a directory. -/
def stocked (loc : Location) (elsewhere targets : List String) (t : FileTree) : FileTree :=
  withStubs loc (missing loc elsewhere targets t) t

@[simp] theorem mem_missing : u ∈ missing loc elsewhere targets t ↔
    u ∈ targets ∧ u ∉ elsewhere ∧ t.get? (artifactAt loc u) = none := by
  simp [missing]

/-- **Stubs in the store's directory**: the report tells which tables were there at the start, and
exactly the others get their stub. -/
theorem stubAll_of_liesAt (hl : s.LiesAt t loc) (hid : ∀ u ∈ targets, isIdentifier u.toList)
    (hf : ∀ u ∈ targets, u ∉ elsewhere → s.Fits u) (hnodup : targets.Nodup) :
    s.stubAll elsewhere targets t =
      .ok (s.reportOf elsewhere (fun u => t.get? (artifactAt loc u) ≠ none) targets)
        (stocked loc elsewhere targets t) := by
  unfold stocked missing
  induction targets generalizing t with
  | nil => rfl
  | cons u targets ih =>
    obtain ⟨hu, hnodup⟩ := List.nodup_cons.mp hnodup
    have hid' : ∀ v ∈ targets, isIdentifier v.toList :=
      fun v hv => hid v (List.mem_cons_of_mem u hv)
    have hf' : ∀ v ∈ targets, v ∉ elsewhere → s.Fits v :=
      fun v hv => hf v (List.mem_cons_of_mem u hv)
    unfold stubAll
    by_cases hmem : u ∈ elsewhere
    · rw [if_pos hmem, reportOf_cons_elsewhere hmem]
      simp only [hmem, not_true_eq_false, false_and, decide_false, Bool.false_eq_true,
        not_false_eq_true, List.filter_cons_of_neg]
      exact run_bind_eq_ok_iff.mpr ⟨_, _, ih hl hid' hf' hnodup, rfl⟩
    · rw [if_neg hmem]
      have hwrite := writeStub_of_makeDirs (hid u List.mem_cons_self) hl.makeDirs_eq hl
        (hf u List.mem_cons_self hmem)
      by_cases hnone : t.get? (artifactAt loc u) = none
      · rw [if_pos hnone] at hwrite
        have hl₁ : s.LiesAt (t.set (artifactAt loc u) (stubNode u)) loc :=
          hl.of_grows (FileTree.grows_set hnone _) (FileTree.here_set t _ _)
        -- the new stub is at none of the locations that come later
        have hlater : ∀ v ∈ targets,
            (t.set (artifactAt loc u) (stubNode u)).get? (artifactAt loc v) =
              t.get? (artifactAt loc v) := by
          intro v hv
          refine FileTree.get?_set_of_ne fun he => hu ?_
          exact artifactAt_inj he ▸ hv
        have hrest := ih hl₁ hid' hf' hnodup
        rw [reportOf_congr fun v hv _ => by rw [hlater v hv], List.filter_congr fun v hv => by
          rw [hlater v hv]] at hrest
        rw [reportOf_cons_new hmem (not_not.mpr hnone)]
        simp only [hmem, hnone, not_false_eq_true, true_and, decide_true, List.filter_cons_of_pos]
        exact run_bind_eq_ok_iff.mpr ⟨_, _, hwrite, run_bind_eq_ok_iff.mpr ⟨_, _, hrest, rfl⟩⟩
      · rw [if_neg hnone] at hwrite
        rw [reportOf_cons_there hmem hnone]
        simp only [hnone, and_false, decide_false, Bool.false_eq_true,
          not_false_eq_true, List.filter_cons_of_neg]
        exact run_bind_eq_ok_iff.mpr ⟨_, _, hwrite,
          run_bind_eq_ok_iff.mpr ⟨_, _, ih hl hid' hf' hnodup, rfl⟩⟩

/-- Where every stub would find its place taken, nothing is done. -/
theorem stubAll_of_taken (hl : s.LiesAt t loc) (hid : ∀ u ∈ targets, isIdentifier u.toList)
    (hf : ∀ u ∈ targets, u ∉ elsewhere → s.Fits u) (hnodup : targets.Nodup)
    (h : ∀ u ∈ targets, u ∉ elsewhere → t.get? (artifactAt loc u) ≠ none) :
    s.stubAll elsewhere targets t = .ok
      { existing := targets.filter (· ∉ elsewhere), deferred := targets.filter (· ∈ elsewhere) }
      t := by
  have hnothing : missing loc elsewhere targets t = [] := by
    refine List.eq_nil_iff_forall_not_mem.mpr fun u hu => ?_
    obtain ⟨hmem, hne, hnone⟩ := mem_missing.mp hu
    exact h u hmem hne hnone
  rw [stubAll_of_liesAt hl hid hf hnodup, stocked, hnothing, reportOf_of_there h]
  rfl

/-- Without a stub to write nothing is done either. -/
theorem stubAll_of_elsewhere (there : String → Prop) [DecidablePred there]
    (h : ∀ u ∈ targets, u ∈ elsewhere) :
    s.stubAll elsewhere targets t = .ok (s.reportOf elsewhere there targets) t := by
  induction targets with
  | nil => rfl
  | cons u targets ih =>
    have hu := h u List.mem_cons_self
    unfold stubAll
    rw [if_pos hu, reportOf_cons_elsewhere hu]
    exact run_bind_eq_ok_iff.mpr
      ⟨_, _, ih fun v hv => h v (List.mem_cons_of_mem u hv), rfl⟩

/-- **The first stub makes the directory**, and the rest is as if it had been there. -/
theorem stubAll_of_makeDirs (hm : FileTree.makeDirs s.dir t = .ok () t₁) (hl : s.LiesAt t₁ loc)
    (hid : ∀ u ∈ targets, isIdentifier u.toList) (hf : ∀ u ∈ targets, u ∉ elsewhere → s.Fits u)
    (hne : ∃ u ∈ targets, u ∉ elsewhere) :
    s.stubAll elsewhere targets t = s.stubAll elsewhere targets t₁ := by
  induction targets with
  | nil => simp at hne
  | cons u targets ih =>
    unfold stubAll
    by_cases hmem : u ∈ elsewhere
    · have hne' : ∃ v ∈ targets, v ∉ elsewhere := by simpa [hmem] using hne
      have hrest := ih (fun v hv => hid v (List.mem_cons_of_mem u hv))
        (fun v hv => hf v (List.mem_cons_of_mem u hv)) hne'
      rw [if_pos hmem]
      change EStateM.bind _ _ t = EStateM.bind _ _ t₁
      simp only [EStateM.bind, hrest]
    · have hidu := hid u List.mem_cons_self
      have hfu := hf u List.mem_cons_self hmem
      have hwrite : s.writeStub u t = s.writeStub u t₁ :=
        (writeStub_of_makeDirs hidu hm hl hfu).trans
          (writeStub_of_makeDirs hidu hl.makeDirs_eq hl hfu).symm
      rw [if_neg hmem]
      change EStateM.bind _ _ t = EStateM.bind _ _ t₁
      simp only [EStateM.bind, hwrite]

/-- What succeeds has found or made the store's directory, and the paths of the stubs fit. -/
theorem exists_of_stubAll (hid : ∀ u ∈ targets, isIdentifier u.toList)
    (hne : ∃ u ∈ targets, u ∉ elsewhere) (h : s.stubAll elsewhere targets t = .ok report t') :
    ∃ t₁ loc, FileTree.makeDirs s.dir t = .ok () t₁ ∧ s.LiesAt t₁ loc ∧
      ∀ u ∈ targets, u ∉ elsewhere → s.Fits u := by
  have hmem : ∀ u ∈ targets, u ∉ elsewhere →
      Task.stub u ∈ (targets.filter (· ∉ elsewhere)).map .stub := fun u hu hnot =>
    List.mem_map_of_mem (List.mem_filter.mpr ⟨hu, by simpa using hnot⟩)
  obtain ⟨u, hu, hnot⟩ := hne
  have htasks := List.ne_nil_of_mem (hmem u hu hnot)
  have hnames : ∀ task ∈ (targets.filter (· ∉ elsewhere)).map Task.stub,
      isIdentifier task.name.toList := by
    intro task htask
    obtain ⟨v, hv, rfl⟩ := List.mem_map.mp htask
    exact hid v (List.mem_filter.mp hv).1
  have hwrites := (writes_of_stubAll {} h).2
  obtain ⟨t₁, loc, hm, hsteps⟩ := (writes_iff_steps htasks hnames).mp hwrites
  refine ⟨t₁, loc, hm, hsteps.liesAt htasks, fun v hv hnot => ?_⟩
  have hfits := hsteps.fits (hmem v hv hnot)
  exact hfits

/-! ## The tree with the stubs -/

section WithStubs

variable {names : List String} {l : Location}

theorem get?_withStubs_of_ne (h : ∀ u ∈ names, l ≠ artifactAt loc u) :
    (withStubs loc names t).get? l = t.get? l := by
  induction names generalizing t with
  | nil => rfl
  | cons u names ih =>
    have hrest := ih (t := t.set (artifactAt loc u) (stubNode u))
      fun v hv => h v (List.mem_cons_of_mem u hv)
    exact hrest.trans (FileTree.get?_set_of_ne (h u List.mem_cons_self))

theorem get?_withStubs_of_not_mem (hu : u ∉ names) :
    (withStubs loc names t).get? (artifactAt loc u) = t.get? (artifactAt loc u) := by
  refine get?_withStubs_of_ne fun v hv he => hu ?_
  exact artifactAt_inj he ▸ hv

/-- **Each stub is in its place**, in a directory, where nothing was. -/
theorem get?_withStubs (hd : t.HasDir loc) (hnone : ∀ u ∈ names, t.get? (artifactAt loc u) = none)
    (hu : u ∈ names) : (withStubs loc names t).get? (artifactAt loc u) = some (stubNode u) := by
  have hput : ∀ {t : FileTree}, t.HasDir loc → t.get? (artifactAt loc u) ≠ some .dir →
      (withStubs loc names t).get? (artifactAt loc u) = some (stubNode u) := by
    clear hd hnone
    induction names with
    | nil => simp at hu
    | cons v names ih =>
      intro t hd hdir
      by_cases hmem : u ∈ names
      · refine ih hmem (hd.set _ _) ?_
        rw [FileTree.get?_set]
        split
        · exact nofun
        · exact hdir
      · obtain rfl := (List.mem_cons.mp hu).resolve_right hmem
        exact (get?_withStubs_of_not_mem hmem).trans
          (FileTree.get?_set_self (FileTree.admits_of_hasDir hd fun he => absurd he hdir))
  exact hput hd (by simp [hnone u hu])

theorem here_withStubs (loc : Location) (names : List String) (t : FileTree) :
    (withStubs loc names t).here = t.here := by
  induction names generalizing t with
  | nil => rfl
  | cons u names ih => exact (ih _).trans (FileTree.here_set t _ _)

/-- **Stubs where there was nothing** leave the store's directory where it is. -/
theorem LiesAt.withStubs (hl : s.LiesAt t loc)
    (h : ∀ u ∈ names, t.get? (artifactAt loc u) = none) :
    s.LiesAt (withStubs loc names t) loc := by
  refine hl.of_grows (fun l n hn => ?_) (here_withStubs loc names t)
  rw [get?_withStubs_of_ne, hn]
  rintro u hu rfl
  exact nomatch hn.symm.trans (h u hu)

theorem LiesAt.stocked (hl : s.LiesAt t loc) (elsewhere targets : List String) :
    s.LiesAt (stocked loc elsewhere targets t) loc :=
  hl.withStubs fun _ hu => (mem_missing.mp hu).2.2

/-- **A stub that was missing is there.** -/
theorem get?_stocked (hd : t.HasDir loc) (hu : u ∈ missing loc elsewhere targets t) :
    (stocked loc elsewhere targets t).get? (artifactAt loc u) = some (stubNode u) :=
  get?_withStubs hd (fun _ hv => (mem_missing.mp hv).2.2) hu

/-- **What is not a stub that was missing is as it was.** -/
theorem get?_stocked_or (loc : Location) (elsewhere targets : List String) (t : FileTree)
    (l : Location) : (stocked loc elsewhere targets t).get? l = t.get? l ∨
      ∃ u ∈ missing loc elsewhere targets t, l = artifactAt loc u := by
  by_cases h : ∃ u ∈ missing loc elsewhere targets t, l = artifactAt loc u
  · exact .inr h
  · exact .inl (get?_withStubs_of_ne fun u hu he => h ⟨u, hu, he⟩)

/-- Every place of a table is taken then. -/
theorem get?_stocked_ne_none (hd : t.HasDir loc) (hu : u ∈ targets) (hne : u ∉ elsewhere) :
    (stocked loc elsewhere targets t).get? (artifactAt loc u) ≠ none := by
  by_cases hnone : t.get? (artifactAt loc u) = none
  · simp [get?_stocked hd (mem_missing.mpr ⟨hu, hne, hnone⟩)]
  · rw [stocked, get?_withStubs_of_not_mem fun hmem => hnone (mem_missing.mp hmem).2.2]
    exact hnone

end WithStubs

/-! ## The account -/

/-- **The account of a table's stubs**: what the report says, what the tree holds then, and that
there is nothing to do any more. -/
structure Accounts (s : Store) (table : Table) (elsewhere : List String) (t t' : FileTree)
    (report : StubReport) : Prop where
  /-- The tables that the columns refer to, without the table itself, each where it comes first. -/
  referenced : table.referenced = ((table.columns.filterMap fun c =>
    c.reference.map (·.table)).filter (· ≠ table.name)).eraseDups
  deferred : report.deferred = table.referenced.filter (· ∈ elsewhere)
  existing : report.existing = table.referenced.filter fun u => u ∉ elsewhere ∧ s.Occupied u t
  created : report.created =
    (table.referenced.filter fun u => u ∉ elsewhere ∧ ¬ s.Occupied u t).map s.pathFor
  /-- Each table is in one of the lists, and there once. -/
  once : table.referenced.Nodup ∧ report.created.Nodup ∧
    ((table.referenced.filter fun u => u ∉ elsewhere ∧ ¬ s.Occupied u t) ++ report.existing ++
      report.deferred).Perm table.referenced
  /-- A created table has its stub where there was nothing. -/
  stub : ∀ u ∈ table.referenced, u ∉ elsewhere → ¬ s.Occupied u t → ∃ l,
    t'.Names (s.pathFor u) l ∧ t.get? l = none ∧
      t'.get? l = some (.file (Table.stub u).artifact.encode.toUTF8)
  /-- An existing table is as it was. -/
  kept : ∀ u ∈ table.referenced, u ∉ elsewhere → s.Occupied u t → ∃ l,
    t.Names (s.pathFor u) l ∧ t'.Names (s.pathFor u) l ∧ t'.get? l = t.get? l
  /-- Nothing is done about a deferred table. -/
  untouched : ∀ u ∈ table.referenced, u ∈ elsewhere → ∀ l,
    t.Names (s.pathFor u) l ∨ t'.Names (s.pathFor u) l → t'.get? l = t.get? l
  /-- Nothing else has changed, but for new directories on the way to the store's own. -/
  others : ∀ l, t'.get? l = t.get? l ∨
    (∃ u ∈ table.referenced, (u ∉ elsewhere ∧ ¬ s.Occupied u t) ∧ t'.Names (s.pathFor u) l) ∨
    t.get? l = none ∧ t'.get? l = some .dir ∧ ∃ loc, s.LiesAt t' loc ∧ l <+: loc
  here : t'.here = t.here
  again : s.ensureStubs table elsewhere t' = .ok
    { existing := table.referenced.filter (· ∉ elsewhere), deferred := report.deferred } t'

section Accounts

variable {name : String} {tokens : List String} {opts : Options} {table : Table}
  (hb : Table.build name tokens opts = .ok table)

include hb in
theorem nodup_created (p : String → Bool) :
    ((table.referenced.filter p).map s.pathFor).Nodup := by
  refine List.Nodup.map_on (fun u hu v hv he => ?_) (table.nodup_referenced.filter p)
  have hid : ∀ w ∈ table.referenced.filter p, isIdentifier w.toList := fun w hw =>
    Table.isIdentifier_of_mem_referenced hb (List.mem_filter.mp hw).1
  exact pathFor_inj (hid u hu) (hid v hv) he

include hb in
/-- Where all tables are elsewhere, nothing happens. -/
theorem accounts_of_elsewhere (h : ∀ u ∈ table.referenced, u ∈ elsewhere) :
    s.Accounts table elsewhere t t
      (s.reportOf elsewhere (s.Occupied · t) table.referenced) where
  referenced := table.referenced_eq_eraseDups
  deferred := rfl
  existing := rfl
  created := rfl
  once := ⟨table.nodup_referenced, nodup_created hb _, perm_of_filter _ _ _⟩
  stub u hu hne := absurd (h u hu) hne
  kept u hu hne := absurd (h u hu) hne
  untouched _ _ _ _ _ := rfl
  others _ := .inl rfl
  here := rfl
  again := by
    refine (stubAll_of_elsewhere (fun _ => True) h).trans ?_
    rw [reportOf_of_there fun _ _ _ => trivial]
    rfl

/-- What a made directory holds is what was in its place before. -/
theorem get?_artifactAt_of_makes (hmakes : FileTree.Makes t loc t₁) (u : String) :
    t₁.get? (artifactAt loc u) = t.get? (artifactAt loc u) :=
  hmakes.get?_below (u ++ ".json")

/-- A path that names something in the store's directory named it before the directory was made or
does so when the stubs are there; either way it is the same directory. -/
theorem eq_artifactAt_of_names {u : String} {l : Location} (hid : isIdentifier u.toList)
    (hm : FileTree.makeDirs s.dir t = .ok () t₁) (hl : s.LiesAt t₁ loc)
    (h : t.Names (s.pathFor u) l ∨
      (stocked loc elsewhere table.referenced t₁).Names (s.pathFor u) l) :
    l = artifactAt loc u := by
  rcases h with h | h
  · obtain ⟨loc', hlies, -, rfl⟩ := exists_of_names hid h
    -- the directory was there, so that it was not made
    obtain ⟨-, rfl⟩ := EStateM.Result.ok.inj (hm.symm.trans hlies.makeDirs_eq)
    rw [hlies.unique hl]
  · obtain ⟨loc', hlies, -, rfl⟩ := exists_of_names hid h
    rw [hlies.unique (hl.stocked elsewhere table.referenced)]

include hb in
/-- Otherwise the stubs are put in the store's directory. -/
theorem accounts_of_liesAt (hm : FileTree.makeDirs s.dir t = .ok () t₁)
    (hmakes : FileTree.Makes t loc t₁) (hl : s.LiesAt t₁ loc)
    (hf : ∀ u ∈ table.referenced, u ∉ elsewhere → s.Fits u) :
    s.Accounts table elsewhere t (stocked loc elsewhere table.referenced t₁)
      (s.reportOf elsewhere (s.Occupied · t) table.referenced) := by
  have hid : ∀ u ∈ table.referenced, isIdentifier u.toList := fun u hu =>
    Table.isIdentifier_of_mem_referenced hb hu
  have hthere : ∀ u ∈ table.referenced, u ∉ elsewhere →
      (t₁.get? (artifactAt loc u) ≠ none ↔ s.Occupied u t) := fun u hu hne =>
    occupied_iff_get? (hid u hu) hm hmakes hl (hf u hu hne)
  have hbelow := get?_artifactAt_of_makes hmakes
  have hl' := hl.stocked elsewhere table.referenced
  have hnames : ∀ u ∈ table.referenced, u ∉ elsewhere →
      (stocked loc elsewhere table.referenced t₁).Names (s.pathFor u) (artifactAt loc u) :=
    fun u hu hne => placeOf_pathFor (hid u hu) hl' (hf u hu hne)
  exact {
    referenced := table.referenced_eq_eraseDups
    deferred := rfl
    existing := rfl
    created := rfl
    once := ⟨table.nodup_referenced, nodup_created hb _, perm_of_filter _ _ _⟩
    stub := fun u hu hne hfree => by
      have hnone : t₁.get? (artifactAt loc u) = none :=
        not_not.mp (mt (hthere u hu hne).mp hfree)
      exact ⟨_, hnames u hu hne, hbelow u ▸ hnone,
        get?_stocked hl.hasDir (mem_missing.mpr ⟨hu, hne, hnone⟩)⟩
    kept := fun u hu hne hocc => by
      obtain ⟨-, rfl⟩ := EStateM.Result.ok.inj (hm.symm.trans (hocc.makeDirs_eq (hid u hu)))
      have hget := (hthere u hu hne).mpr hocc
      exact ⟨_, placeOf_pathFor (hid u hu) hl (hf u hu hne), hnames u hu hne,
        get?_withStubs_of_not_mem fun hn => hget (mem_missing.mp hn).2.2⟩
    untouched := fun u hu he l hnamed => by
      rw [eq_artifactAt_of_names (hid u hu) hm hl hnamed, ← hbelow u]
      exact get?_withStubs_of_not_mem fun hn => (mem_missing.mp hn).2.1 he
    others := fun l => by
      rcases get?_stocked_or loc elsewhere table.referenced t₁ l with he | ⟨u, hu, rfl⟩
      · rw [he]
        exact (hmakes.get?_or l).imp_right fun ⟨hnone, hdir, hpre⟩ =>
          .inr ⟨hnone, hdir, loc, hl', hpre⟩
      · obtain ⟨hu, hne, hnone⟩ := mem_missing.mp hu
        exact .inr (.inl ⟨u, hu, ⟨hne, fun hocc => (hthere u hu hne).mpr hocc hnone⟩,
          hnames u hu hne⟩)
    here := (here_withStubs loc _ t₁).trans hmakes.here_eq
    again := stubAll_of_taken hl' hid hf table.nodup_referenced fun _ =>
      get?_stocked_ne_none hl.hasDir }

include hb in
/-- **Every table that is referred to is accounted for once.** -/
theorem accounts_of_ensureStubs (hup : ".." ∉ Path.stepsOf s.dir.toList)
    (h : s.ensureStubs table elsewhere t = .ok report t') :
    s.Accounts table elsewhere t t' report := by
  by_cases hall : ∀ u ∈ table.referenced, u ∈ elsewhere
  · obtain ⟨rfl, rfl⟩ := EStateM.Result.ok.inj
      ((stubAll_of_elsewhere (s.Occupied · t) hall).symm.trans h)
    exact accounts_of_elsewhere hb hall
  · have hne : ∃ u ∈ table.referenced, u ∉ elsewhere := by simpa using hall
    have hid : ∀ u ∈ table.referenced, isIdentifier u.toList := fun u hu =>
      Table.isIdentifier_of_mem_referenced hb hu
    obtain ⟨t₁, loc, hm, hl, hf⟩ := exists_of_stubAll hid hne h
    obtain ⟨p, hp, hleads⟩ := hl
    have hmakes := FileTree.makes_of_makeDirs hp (Path.steps_of_ofDir hp ▸ hup) hm hleads
    have hl : s.LiesAt t₁ loc := ⟨p, hp, hleads⟩
    have hrun := (stubAll_of_makeDirs hm hl hid hf hne).trans
      (stubAll_of_liesAt hl hid hf table.nodup_referenced)
    obtain ⟨rfl, rfl⟩ := EStateM.Result.ok.inj (hrun.symm.trans h)
    rw [reportOf_congr fun u hu hnot =>
      occupied_iff_get? (hid u hu) hm hmakes hl (hf u hu hnot)]
    exact accounts_of_liesAt hb hm hmakes hl hf

end Accounts

/-- Posts that refer to users twice and to themselves, to tags and to topics. -/
def linkedTable : Table :=
  ((Table.build "posts"
    ["author->users", "editor->users", "parent->posts", "tag->tags", "topic->topics"]
    {}).toOption).getD (Table.stub "posts")

/-- The tags are a link that leads nowhere, the topics a file. -/
def linkedTree : FileTree where
  nodes := [(["work"], .dir), (["work", "db"], .dir),
    (["work", "db", "tags.json"], .link "../gone.json"),
    (["work", "db", "topics.json"], .file "draft".toUTF8)]
  here := ["work"]
  nested := by decide
  here_dir := by decide

theorem accounts_linkedTree :
    Table.build "posts"
      ["author->users", "editor->users", "parent->posts", "tag->tags", "topic->topics"] {} =
        .ok linkedTable ∧
    ∃ t', (⟨"db"⟩ : Store).ensureStubs linkedTable ["topics"] linkedTree =
        .ok ⟨["db/users.json"], ["tags"], ["topics"]⟩ t' ∧
      (⟨"db"⟩ : Store).ensureStubs linkedTable ["topics"] t' =
        .ok ⟨[], ["users", "tags"], ["topics"]⟩ t' := by
  have hb : Table.build "posts"
      ["author->users", "editor->users", "parent->posts", "tag->tags", "topic->topics"] {} =
        .ok linkedTable := by decide +kernel
  obtain ⟨report, t', h, hreport⟩ := exists_ok_of_check
    (r := (⟨"db"⟩ : Store).ensureStubs linkedTable ["topics"] linkedTree)
    (fun report _ => decide (report = ⟨["db/users.json"], ["tags"], ["topics"]⟩))
    (by decide +kernel)
  obtain rfl := of_decide_eq_true hreport
  have hagain := (accounts_of_ensureStubs hb (by decide) h).again
  have hlist : linkedTable.referenced.filter (· ∉ ["topics"]) = ["users", "tags"] := by
    decide +kernel
  rw [hlist] at hagain
  exact ⟨hb, t', h, hagain⟩

end Store

end Tablature
