import Tablature.Proofs.Store.Frame

/-!
# Proofs/Store/Ahead — writes in a tree that has some stubs already

A sequence of writes that puts a stub late leaves its tree behind that of a sequence that puts it at
once.  `Ahead` compares the two at any point in between: one tree has more stubs, of tables that
none of the other writes is about, and is the same otherwise.  So each write that the first sequence
makes, the second can make too (`Ahead.exists_puts`, `Ahead.exists_steps_stubs`), and it stays ahead.
-/

namespace Tablature.Store

open FileTree (Grows)

variable {s : Store} {force : Force} {loc : Location} {late : String → Prop}
  {t t' u : FileTree} {task : Task}

/-- A tree is ahead of another: it has more of the late tables, and is the same otherwise. -/
structure Ahead (loc : Location) (late : String → Prop) (t u : FileTree) : Prop where
  here : u.here = t.here
  get? : ∀ l, u.get? l = t.get? l ∨ t.get? l = none ∧ ∃ n, late n ∧ l = artifactAt loc n

theorem Ahead.refl (t : FileTree) : Ahead loc late t t := ⟨rfl, fun _ => .inl rfl⟩

/-- A tree that is ahead has all that the other has. -/
theorem Ahead.grows (h : Ahead loc late t u) : Grows t u := by
  intro l node hl
  rcases h.get? l with he | ⟨hnone, -⟩
  · rw [he, hl]
  · simp [hnone] at hl

/-- **The store lies where it lay**, since stubs put nothing in the way of a path. -/
theorem Ahead.liesAt (h : Ahead loc late t u) (hl : s.LiesAt t loc) : s.LiesAt u loc :=
  hl.of_grows h.grows h.here

/-- A table that is not late has the same in its place in both trees. -/
theorem Ahead.get?_artifactAt (h : Ahead loc late t u) {n : String} (hn : ¬ late n) :
    u.get? (artifactAt loc n) = t.get? (artifactAt loc n) := by
  rcases h.get? (artifactAt loc n) with he | ⟨-, m, hm, he⟩
  · exact he
  · exact absurd (artifactAt_inj he ▸ hm) hn

/-- A tree ahead has the same in place of the store's directory. -/
theorem Ahead.get?_loc (h : Ahead loc late t u) : u.get? loc = t.get? loc := by
  rcases h.get? loc with he | ⟨-, n, -, he⟩
  · exact he
  · simp [artifactAt] at he

/-- **The same change at a table that is not late** keeps a tree ahead. -/
theorem Ahead.set (h : Ahead loc late t u) {n : String} (hn : ¬ late n) (node : Node) :
    Ahead loc late (t.set (artifactAt loc n) node) (u.set (artifactAt loc n) node) := by
  have hadmits : u.Admits (artifactAt loc n) node ↔ t.Admits (artifactAt loc n) node := by
    refine FileTree.admits_congr (h.get?_artifactAt hn) ?_ node
    rw [artifactAt, List.dropLast_concat]
    exact h.get?_loc
  refine ⟨by rw [FileTree.here_set, FileTree.here_set, h.here], fun l => ?_⟩
  simp only [FileTree.get?_set, hadmits]
  split
  · exact .inl rfl
  · exact h.get? l

/-- **A task of a table that is not late does the same in the tree ahead.** -/
theorem Ahead.exists_puts (h : Ahead loc late t u) (hn : ¬ late task.name)
    (hp : Puts force loc task t t') : ∃ u', Puts force loc task u u' ∧ Ahead loc late t' u' := by
  have hget := h.get?_artifactAt hn
  cases hp with
  | new hnone => exact ⟨_, .new (hget.trans hnone), h.set hn _⟩
  | forced hf hsome hd => exact ⟨_, .forced hf (hget.trans hsome) hd, h.set hn _⟩
  | kept hsome => exact ⟨u, .kept fun hnone => hsome (hget.symm.trans hnone), h⟩

/-- **A stub of a late table keeps a tree ahead.** -/
theorem Ahead.exists_puts_late (force : Force) (h : Ahead loc late t u) {n : String}
    (hn : late n) : ∃ u', Puts force loc (.stub n) u u' ∧ Ahead loc late t u' := by
  cases hget : u.get? (artifactAt loc n) with
  | some node => exact ⟨u, .kept (by simp [hget]), h⟩
  | none =>
    refine ⟨_, .new hget, (FileTree.here_set u _ _).trans h.here, fun l => ?_⟩
    by_cases hl : l = artifactAt loc n
    · refine .inr ⟨?_, n, hn, hl⟩
      rcases h.get? l with he | ⟨hnone, -⟩
      · rw [← he, hl, hget]
      · exact hnone
    · rw [Task.name_stub, FileTree.get?_set_of_ne hl]
      exact h.get? l

/-- **Stubs, followed ahead.** Of the tables that are elsewhere in the first run, those that are not
so in the second are late; the first run writes them in `rest`. -/
theorem Ahead.exists_steps_stubs {rest : List Task} {targets first second : List String}
    (hrest : ∀ n ∈ targets, n ∈ first → n ∉ second → late n ∧ .stub n ∈ rest)
    (hfirst : ∀ n ∈ targets, n ∉ first → n ∉ second ∧ ¬ late n) (h : Ahead loc late t u)
    (hs : Steps s force loc ((targets.filter (· ∉ first)).map .stub ++ rest) t t') :
    ∃ t₁ u₁, Steps s force loc rest t₁ t' ∧ Ahead loc late t₁ u₁ ∧
      Steps s force loc ((targets.filter (· ∉ second)).map .stub) u u₁ := by
  induction targets generalizing t u with
  | nil => exact ⟨t, u, hs, h, .nil u⟩
  | cons n targets ih =>
    have hrest' := fun m hm => hrest m (List.mem_cons_of_mem n hm)
    have hfirst' := fun m hm => hfirst m (List.mem_cons_of_mem n hm)
    by_cases hn : n ∈ first
    · have hdrop : (n :: targets).filter (· ∉ first) = targets.filter (· ∉ first) := by simp [hn]
      rw [hdrop] at hs
      by_cases hn' : n ∈ second
      · have hdrop' : (n :: targets).filter (· ∉ second) = targets.filter (· ∉ second) := by
          simp [hn']
        rw [hdrop']
        exact ih hrest' hfirst' h hs
      · -- the second run writes the stub now, the first one later
        have hkeep : (n :: targets).filter (· ∉ second) = n :: targets.filter (· ∉ second) := by
          simp [hn']
        obtain ⟨hlate, hmem⟩ := hrest n (by simp) hn hn'
        have hin : Task.stub n ∈ (targets.filter (· ∉ first)).map Task.stub ++ rest :=
          List.mem_append_right _ hmem
        obtain ⟨u₁, hput, h₁⟩ := h.exists_puts_late force hlate
        obtain ⟨t₂, u₂, hs₂, h₂, hu₂⟩ := ih hrest' hfirst' h₁ hs
        rw [hkeep]
        exact ⟨t₂, u₂, hs₂, h₂,
          .cons (h.liesAt (hs.liesAt (List.ne_nil_of_mem hin))) (hs.fits hin) hput hu₂⟩
    · obtain ⟨hn', hlate⟩ := hfirst n (by simp) hn
      have hkeep : (n :: targets).filter (· ∉ second) = n :: targets.filter (· ∉ second) := by
        simp [hn']
      have hkeep' : (n :: targets).filter (· ∉ first) = n :: targets.filter (· ∉ first) := by
        simp [hn]
      rw [hkeep', List.map_cons, List.cons_append] at hs
      rw [hkeep]
      cases hs with
      | cons hl hf hp hs =>
        have hname : ¬ late (Task.stub n).name := hlate
        obtain ⟨u₁, hput, h₁⟩ := h.exists_puts hname hp
        obtain ⟨t₂, u₂, hs₂, h₂, hu₂⟩ := ih hrest' hfirst' h₁ hs
        exact ⟨t₂, u₂, hs₂, h₂, .cons (h.liesAt hl) hf hput hu₂⟩

end Tablature.Store
