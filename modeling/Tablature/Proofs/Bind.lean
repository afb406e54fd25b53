import Tablature.FileTree.Change

/-!
# Proofs/Bind — results of actions done one after the other

A sequence succeeds exactly when each of its steps does, and fails with the first that does not.
Proofs about readers and about actions on a file tree take a sequence apart with these lemmas
instead of unfolding the monad.
-/

namespace Tablature

/-- A sequence succeeds exactly if its first step does, and then the rest with what it gave. -/
theorem bind_eq_ok_iff {ε α β : Type} {x : Except ε α} {f : α → Except ε β} {b : β} :
    x >>= f = .ok b ↔ ∃ a, x = .ok a ∧ f a = .ok b := by
  cases x with
  | error e => exact ⟨nofun, nofun⟩
  | ok a => exact ⟨fun h => ⟨a, rfl, h⟩, fun ⟨_, ha, h⟩ => by cases ha; exact h⟩

theorem exists_bind_eq_ok {ε α β : Type} {x : Except ε α} {f : α → Except ε β} {a : α}
    (hx : x = .ok a) (hf : ∃ b, f a = .ok b) : ∃ b, x >>= f = .ok b :=
  hf.imp fun _ h => bind_eq_ok_iff.mpr ⟨a, hx, h⟩

/-- A sequence fails with its first step, or after it with the rest. -/
theorem bind_eq_error_iff {ε α β : Type} {x : Except ε α} {f : α → Except ε β} {e : ε} :
    x >>= f = .error e ↔ x = .error e ∨ ∃ a, x = .ok a ∧ f a = .error e := by
  cases x with
  | error e' => simp [bind, Except.bind]
  | ok a => simp [bind, Except.bind]

theorem map_eq_ok_iff {ε α β : Type} {f : α → β} {x : Except ε α} {b : β} :
    x.map f = .ok b ↔ ∃ a, x = .ok a ∧ f a = b := by
  cases x <;> simp [Except.map]

/-- Success does not depend on what becomes of errors. -/
theorem mapError_eq_ok_iff {ε ε' α : Type} {f : ε → ε'} {x : Except ε α} {a : α} :
    x.mapError f = .ok a ↔ x = .ok a := by
  cases x with
  | error e => exact ⟨nofun, nofun⟩
  | ok b =>
    change Except.ok b = Except.ok a ↔ _
    rw [Except.ok.injEq, Except.ok.injEq]

/-- An error that is mapped comes from one. -/
theorem mapError_eq_error_iff {ε ε' α : Type} {f : ε → ε'} {x : Except ε α} {e' : ε'} :
    x.mapError f = .error e' ↔ ∃ e, x = .error e ∧ f e = e' := by
  cases x with
  | error e =>
    constructor
    · exact fun h => ⟨e, rfl, Except.error.inj h⟩
    · rintro ⟨_, he, rfl⟩
      cases he
      rfl
  | ok a =>
    constructor
    · exact fun h => by cases h
    · rintro ⟨_, he, -⟩
      cases he

/-- A sequence of actions succeeds exactly if each does, on the tree that the one before has
left. -/
theorem run_bind_eq_ok_iff {ε α β : Type} {x : FileM ε α} {f : α → FileM ε β} {t t' : FileTree}
    {b : β} :
    (x >>= f) t = .ok b t' ↔ ∃ a t₁, x t = .ok a t₁ ∧ f a t₁ = .ok b t' := by
  change EStateM.bind x f t = .ok b t' ↔ _
  unfold EStateM.bind
  cases x t with
  | ok a t₁ =>
    refine ⟨fun h => ⟨a, t₁, rfl, h⟩, ?_⟩
    rintro ⟨a', t₁', he, h⟩
    obtain ⟨rfl, rfl⟩ := EStateM.Result.ok.inj he
    exact h
  | error e t₁ => simp

/-- A sequence of actions fails with the first that does, and leaves that one's tree. -/
theorem run_bind_eq_error_iff {ε α β : Type} {x : FileM ε α} {f : α → FileM ε β} {t t' : FileTree}
    {e : ε} :
    (x >>= f) t = .error e t' ↔
      x t = .error e t' ∨ ∃ a t₁, x t = .ok a t₁ ∧ f a t₁ = .error e t' := by
  change EStateM.bind x f t = .error e t' ↔ _
  unfold EStateM.bind
  cases x t with
  | ok a t₁ =>
    refine ⟨fun h => .inr ⟨a, t₁, rfl, h⟩, ?_⟩
    rintro (he | ⟨a', t₁', he, h⟩)
    · simp at he
    · obtain ⟨rfl, rfl⟩ := EStateM.Result.ok.inj he
      exact h
  | error e t₁ => simp

/-- An action that goes on with a result fails where it fails. -/
theorem run_bind_pure_eq_error_iff {ε α β : Type} {x : FileM ε α} {f : α → β} {t t' : FileTree}
    {e : ε} : (x >>= fun a => pure (f a)) t = .error e t' ↔ x t = .error e t' := by
  rw [run_bind_eq_error_iff]
  refine or_iff_left ?_
  rintro ⟨a, t₁, -, h⟩
  cases h

/-- A result that is seen to be one. -/
theorem exists_of_isOk {ε α : Type} {x : Except ε α} (h : x.isOk = true) : ∃ a, x = .ok a := by
  cases x with
  | ok a => exact ⟨a, rfl⟩
  | error e => exact nomatch h

/-- An action that is seen to succeed, with what is asked of its result. -/
theorem exists_ok_of_check {ε α : Type} {r : EStateM.Result ε FileTree α}
    (check : α → FileTree → Bool)
    (h : (match r with
      | .ok a t => check a t
      | .error _ _ => false) = true) :
    ∃ a t, r = .ok a t ∧ check a t = true := by
  cases r with
  | ok a t => exact ⟨a, t, rfl, h⟩
  | error e t => exact nomatch h

/-- An action that is seen to fail, with what is asked of its error. -/
theorem exists_error_of_check {ε α : Type} {r : EStateM.Result ε FileTree α}
    (check : ε → FileTree → Bool)
    (h : (match r with
      | .ok _ _ => false
      | .error e t => check e t) = true) :
    ∃ e t, r = .error e t ∧ check e t = true := by
  cases r with
  | ok a t => exact nomatch h
  | error e t => exact ⟨e, t, rfl, h⟩

end Tablature
