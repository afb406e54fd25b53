import Tablature.FileTree.Lookup

/-!
# Proofs/FileTree/Walk — look-ups, taken in two parts and in two trees

A look-up follows links on a budget, so what it does after some steps depends on where they end and
on the links that are left.  `walkInduction` is induction along a look-up; from it

* `walkLinks_append` — steps after steps: the second part goes on from where the first ends;
* `walkLinks_of_grows` — a look-up that ends still ends there when the tree grows;
* `walkLinks_of_block` — a file put anywhere leaves a look-up of a directory as it was, or stands
  in its way;
* `walkLinks_of_frames` — a look-up of a directory depends on directories and links alone.
-/

namespace Tablature

namespace FileTree

variable {t t' : FileTree}

/-! ## Induction along a look-up

A look-up ends because each step takes one from the path, and each link one from the budget; its
cases are the kinds of steps, and for a name what it leads to. -/

/-- How a look-up goes on from a link, with so many links left. -/
def follow (t : FileTree) : Nat → Location → String → List String → Except FileFault Spot
  | 0, _, _, _ => .error .tooManyLinks
  | links + 1, loc, target, rest =>
    match Path.ofText target with
    | .error fault => .error fault
    | .ok p => t.walkLinks links (if p.absolute then [] else loc) (p.lookupSteps ++ rest)

theorem walkLinks_eq_walk (k : Nat) : t.walkLinks k = t.walk (t.follow k) := by
  cases k with
  | zero => rfl
  | succ links => rfl

@[simp] theorem walkLinks_nil (k : Nat) (loc : Location) :
    t.walkLinks k loc [] = .ok (.dir loc) := by
  rw [walkLinks_eq_walk, walk]

@[simp] theorem walkLinks_dot (k : Nat) (loc : Location) (rest : List String) :
    t.walkLinks k loc ("." :: rest) = t.walkLinks k loc rest := by
  rw [walkLinks_eq_walk, walk, if_pos rfl]

@[simp] theorem walkLinks_up (k : Nat) (loc : Location) (rest : List String) :
    t.walkLinks k loc (".." :: rest) = t.walkLinks k loc.dropLast rest := by
  rw [walkLinks_eq_walk, walk, if_neg (by decide), if_pos rfl]

/-- A name that is a step of its own: neither of the two that only say where to go. -/
def IsName (name : String) : Prop := name ≠ "." ∧ name ≠ ".."

/-- One step down. -/
theorem walkLinks_name {name : String} (hn : IsName name) (k : Nat) (loc : Location)
    (rest : List String) :
    t.walkLinks k loc (name :: rest) =
      if name.utf8ByteSize > maxNameBytes then .error .nameTooLong
      else
        match t.get? (loc ++ [name]) with
        | none => .error .notFound
        | some .dir => t.walkLinks k (loc ++ [name]) rest
        | some (.file bytes) =>
          if rest.isEmpty then .ok (.file (loc ++ [name]) bytes) else .error .notDirectory
        | some (.link target) => t.follow k loc target rest := by
  have hwalk : t.walkLinks k loc (name :: rest) = t.walk (t.follow k) loc (name :: rest) := by
    rw [walkLinks_eq_walk]
  rw [walk, if_neg hn.1, if_neg hn.2, ← walkLinks_eq_walk] at hwalk
  exact hwalk

/-- **Induction along a look-up**: what holds of all that a look-up can go on with holds of it. -/
theorem walkInduction (t : FileTree) {motive : Nat → Location → List String → Prop}
    (nil : ∀ k loc, motive k loc [])
    (dot : ∀ k loc rest, motive k loc rest → motive k loc ("." :: rest))
    (up : ∀ k loc rest, motive k loc.dropLast rest → motive k loc (".." :: rest))
    (name : ∀ k loc name rest, IsName name → motive k (loc ++ [name]) rest →
      (∀ links target p, k = links + 1 → t.get? (loc ++ [name]) = some (.link target) →
        Path.ofText target = .ok p →
        motive links (if p.absolute then [] else loc) (p.lookupSteps ++ rest)) →
      motive k loc (name :: rest))
    (k : Nat) (loc : Location) (steps : List String) : motive k loc steps := by
  have hsteps : ∀ k, (∀ links loc steps, k = links + 1 → motive links loc steps) →
      ∀ steps loc, motive k loc steps := by
    intro k hk steps
    induction steps with
    | nil => exact nil k
    | cons step rest ih =>
      intro loc
      by_cases hdot : step = "."
      · exact hdot ▸ dot k loc rest (ih loc)
      · by_cases hup : step = ".."
        · exact hup ▸ up k loc rest (ih loc.dropLast)
        · exact name k loc step rest ⟨hdot, hup⟩ (ih _) fun links _ _ he _ _ => hk links _ _ he
  induction k generalizing loc steps with
  | zero => exact hsteps 0 (fun _ _ _ h => nomatch h) steps loc
  | succ links ih =>
    refine hsteps (links + 1) (fun links' loc steps he => ?_) steps loc
    obtain rfl := Nat.succ.inj he
    exact ih loc steps

/-- **What a look-up of a directory does at a name**: it goes down, or on from a link. -/
theorem walkLinks_name_eq_dir_iff {name : String} (hn : IsName name) {k : Nat} {loc d : Location}
    {rest : List String} :
    t.walkLinks k loc (name :: rest) = .ok (.dir d) ↔
      ¬ name.utf8ByteSize > maxNameBytes ∧
        (t.get? (loc ++ [name]) = some .dir ∧ t.walkLinks k (loc ++ [name]) rest = .ok (.dir d) ∨
          ∃ links target p, k = links + 1 ∧ t.get? (loc ++ [name]) = some (.link target) ∧
            Path.ofText target = .ok p ∧
            t.walkLinks links (if p.absolute then [] else loc) (p.lookupSteps ++ rest) =
              .ok (.dir d)) := by
  rw [walkLinks_name hn]
  by_cases hlong : name.utf8ByteSize > maxNameBytes
  · simp [hlong]
  · simp only [hlong, if_false, not_false_iff, true_and]
    cases t.get? (loc ++ [name]) with
    | none => simp
    | some node =>
      cases node with
      | dir => simp
      | file bytes => cases rest <;> simp
      | link target =>
        cases k with
        | zero => simp [follow]
        | succ links =>
          simp only [follow]
          cases hp : Path.ofText target <;> simp [hp]

/-- **A look-up that ends at a directory** ends at one of the tree. -/
theorem hasDir_of_walkLinks {k : Nat} {loc d : Location} {steps : List String}
    (hloc : t.HasDir loc) (h : t.walkLinks k loc steps = .ok (.dir d)) : t.HasDir d := by
  induction k, loc, steps using t.walkInduction with
  | nil k loc =>
    rw [walkLinks_nil] at h
    exact Spot.dir.inj (Except.ok.inj h) ▸ hloc
  | dot k loc rest ih => exact ih hloc (by simpa using h)
  | up k loc rest ih => exact ih hloc.dropLast (by simpa using h)
  | name k loc name rest hn ih hlink =>
    obtain ⟨-, ⟨hdir, h⟩ | ⟨links, target, p, hk, hget, hp, h⟩⟩ :=
      (walkLinks_name_eq_dir_iff hn).mp h
    · exact ih (.inr hdir) h
    · refine hlink links target p hk hget hp ?_ h
      split
      · exact .inl rfl
      · exact hloc

/-! ## Steps after steps -/

/-- How a look-up goes on after its first steps have ended, with so many links left. -/
def goOn (t : FileTree) (k : Nat) (steps : List String) :
    Except FileFault Spot → Except FileFault Spot
  | .error fault => .error fault
  | .ok (.file loc bytes) => if steps.isEmpty then .ok (.file loc bytes) else .error .notDirectory
  | .ok (.dir loc) => t.walkLinks k loc steps

/-- **Steps after steps** go on from where the first ones end, with the links that are left. -/
theorem walkLinks_append (t : FileTree) (k : Nat) (loc : Location) (a : List String) :
    ∃ k', ∀ b, t.walkLinks k loc (a ++ b) = t.goOn k' b (t.walkLinks k loc a) := by
  induction k, loc, a using t.walkInduction with
  | nil k loc => exact ⟨k, fun b => by rw [walkLinks_nil]; rfl⟩
  | dot k loc rest ih => simpa using ih
  | up k loc rest ih => simpa using ih
  | name k loc name rest hn ih hlink =>
    simp only [List.cons_append, walkLinks_name hn]
    by_cases hlong : name.utf8ByteSize > maxNameBytes
    · exact ⟨k, fun b => by simp only [hlong, if_true, goOn]⟩
    · simp only [hlong, if_false]
      cases hg : t.get? (loc ++ [name]) with
      | none => exact ⟨k, fun b => rfl⟩
      | some node =>
        cases node with
        | dir => exact ih
        | file bytes =>
          refine ⟨k, fun b => ?_⟩
          cases rest with
          | nil => rfl
          | cons step rest => rfl
        | link target =>
          cases k with
          | zero => exact ⟨0, fun b => rfl⟩
          | succ links =>
            simp only [follow]
            cases hp : Path.ofText target with
            | error fault => exact ⟨0, fun b => rfl⟩
            | ok p => simpa using hlink links target p rfl hg hp

/-- A step that stays in place changes no look-up of a directory. -/
theorem walkLinks_dot_between (k : Nat) (loc l : Location) (a b : List String) :
    t.walkLinks k loc (a ++ "." :: b) = .ok (.dir l) ↔
      t.walkLinks k loc (a ++ b) = .ok (.dir l) := by
  obtain ⟨k', hk⟩ := t.walkLinks_append k loc a
  rw [hk, hk]
  cases t.walkLinks k loc a with
  | error fault => rfl
  | ok spot =>
    cases spot with
    | dir l' => simp [goOn]
    | file l' bytes => cases b <;> simp [goOn]

theorem walkLinks_filter_dots (k : Nat) (loc l : Location) (steps : List String) :
    t.walkLinks k loc (steps.filter (· != ".")) = .ok (.dir l) ↔
      t.walkLinks k loc steps = .ok (.dir l) := by
  have hfront : ∀ a, t.walkLinks k loc (a ++ steps.filter (· != ".")) = .ok (.dir l) ↔
      t.walkLinks k loc (a ++ steps) = .ok (.dir l) := by
    induction steps with
    | nil => exact fun a => by rw [List.filter_nil]
    | cons step rest ih =>
      intro a
      by_cases hdot : step = "."
      · subst hdot
        rw [walkLinks_dot_between, ← ih a]
        rfl
      · have hkeep : (step :: rest).filter (· != ".") = step :: rest.filter (· != ".") := by
          simp [hdot]
        rw [hkeep, List.append_cons, List.append_cons a step rest]
        exact ih (a ++ [step])
  exact hfront []

/-- Two lists of steps that differ only by those that stay in place lead to the same directories. -/
theorem walkLinks_congr_dots {a b : List String} (h : a.filter (· != ".") = b.filter (· != "."))
    (k : Nat) (loc l : Location) :
    t.walkLinks k loc a = .ok (.dir l) ↔ t.walkLinks k loc b = .ok (.dir l) := by
  rw [← walkLinks_filter_dots, h, walkLinks_filter_dots]

/-! ## Two trees -/

/-- Two trees hold the same, in whatever order they list it. -/
def SameAs (t t' : FileTree) : Prop := t'.here = t.here ∧ ∀ l, t'.get? l = t.get? l

theorem SameAs.refl (t : FileTree) : SameAs t t := ⟨rfl, fun _ => rfl⟩

/-- Whether a tree admits a node depends on two locations: the node's, and what is above it. -/
theorem admits_congr {l : Location} (hl : t'.get? l = t.get? l)
    (habove : t'.get? l.dropLast = t.get? l.dropLast) (n : Node) :
    t'.Admits l n ↔ t.Admits l n := by
  simp only [Admits, hasDir_iff, hl, habove]

/-- **The same change** is the same in both. -/
theorem SameAs.set (h : SameAs t t') (l : Location) (n : Node) :
    SameAs (t.set l n) (t'.set l n) := by
  refine ⟨by rw [here_set, here_set, h.1], fun l' => ?_⟩
  simp only [get?_set, h.2, admits_congr (h.2 l) (h.2 l.dropLast)]

/-- All that is in one tree is in the other too. -/
def Grows (t t' : FileTree) : Prop := ∀ l n, t.get? l = some n → t'.get? l = some n

theorem grows_set {l : Location} (hl : t.get? l = none) (n : Node) : Grows t (t.set l n) := by
  intro l' n' h
  have hne : l' ≠ l := by
    rintro rfl
    simp [hl] at h
  rw [get?_set_of_ne hne, h]

/-- **A look-up that ends still ends there when the tree grows.** -/
theorem walkLinks_of_grows (hg : Grows t t') {k : Nat} {loc : Location} {steps : List String}
    {spot : Spot} (h : t.walkLinks k loc steps = .ok spot) :
    t'.walkLinks k loc steps = .ok spot := by
  induction k, loc, steps using t.walkInduction with
  | nil k loc => simpa using h
  | dot k loc rest ih => simpa using ih (by simpa using h)
  | up k loc rest ih => simpa using ih (by simpa using h)
  | name k loc name rest hn ih hlink =>
    rw [walkLinks_name hn] at h ⊢
    by_cases hlong : name.utf8ByteSize > maxNameBytes
    · simp [hlong] at h
    · simp only [hlong, if_false] at h ⊢
      cases hget : t.get? (loc ++ [name]) with
      | none => simp [hget] at h
      | some node =>
        rw [hg _ _ hget]
        rw [hget] at h
        cases node with
        | dir => exact ih h
        | file bytes => exact h
        | link target =>
          cases k with
          | zero => simp [follow] at h
          | succ links =>
            simp only [follow] at h ⊢
            cases hp : Path.ofText target with
            | error fault => simp [hp] at h
            | ok p =>
              simp only [hp] at h ⊢
              exact hlink links target p rfl hget hp h

/-- The end of a look-up that a file stands in the way of. -/
def IsBlocked (r : Except FileFault Spot) : Prop :=
  r = .error .notDirectory ∨ ∃ loc bytes, r = .ok (.file loc bytes)

/-- **A file put anywhere leaves a look-up of a directory as it was, or stands in its way**, in the
place of a link. -/
theorem walkLinks_of_block (l : Location) (bytes : ByteArray) {k : Nat} {loc d : Location}
    {steps : List String} (h : t.walkLinks k loc steps = .ok (.dir d)) :
    (t.set l (.file bytes)).walkLinks k loc steps = .ok (.dir d) ∨
      IsBlocked ((t.set l (.file bytes)).walkLinks k loc steps) ∧
        ∃ target, t.get? l = some (.link target) := by
  by_cases hadmits : t.Admits l (.file bytes)
  case neg => exact .inl (by rw [set_of_not_admits hadmits]; exact h)
  induction k, loc, steps using t.walkInduction with
  | nil k loc => exact .inl (by simpa using h)
  | dot k loc rest ih => simpa using ih (by simpa using h)
  | up k loc rest ih => simpa using ih (by simpa using h)
  | name k loc name rest hn ih hlink =>
    obtain ⟨hlong, hway⟩ := (walkLinks_name_eq_dir_iff hn).mp h
    rw [walkLinks_name hn, if_neg hlong]
    by_cases he : loc ++ [name] = l
    · -- the look-up comes by the file
      right
      rw [he] at hway ⊢
      rw [get?_set_self hadmits]
      constructor
      · cases rest with
        | nil => exact .inr ⟨l, bytes, rfl⟩
        | cons step rest => exact .inl rfl
      · rcases hway with ⟨hdir, -⟩ | ⟨-, target, -, -, hget, -⟩
        · exact absurd (hadmits.2 hdir) (by simp)
        · exact ⟨target, hget⟩
    · rw [get?_set_of_ne he]
      rcases hway with ⟨hdir, h⟩ | ⟨links, target, p, rfl, hget, hp, h⟩
      · simpa only [hdir] using ih h
      · simpa only [hget, follow, hp] using hlink links target p rfl hget hp h

/-- The directories and links of one tree are in the other too. -/
def Frames (t t' : FileTree) : Prop :=
  ∀ l n, t.get? l = some n → (∀ bytes, n ≠ .file bytes) → t'.get? l = some n

/-- **A look-up of a directory comes by no file**, so that it ends in the same place where the
directories and links are the same. -/
theorem walkLinks_of_frames (hf : Frames t t') {k : Nat} {loc d : Location} {steps : List String}
    (h : t.walkLinks k loc steps = .ok (.dir d)) : t'.walkLinks k loc steps = .ok (.dir d) := by
  induction k, loc, steps using t.walkInduction with
  | nil k loc => simpa using h
  | dot k loc rest ih => simpa using ih (by simpa using h)
  | up k loc rest ih => simpa using ih (by simpa using h)
  | name k loc name rest hn ih hlink =>
    obtain ⟨hlong, hway⟩ := (walkLinks_name_eq_dir_iff hn).mp h
    refine (walkLinks_name_eq_dir_iff hn).mpr ⟨hlong, ?_⟩
    rcases hway with ⟨hdir, h⟩ | ⟨links, target, p, hk, hget, hp, h⟩
    · exact .inl ⟨hf _ _ hdir nofun, ih h⟩
    · exact .inr ⟨links, target, p, hk, hf _ _ hget nofun, hp, hlink links target p hk hget hp h⟩

end FileTree

/-! ## Two small trees

A program can be run on both: in `bareTree` it finds nothing, and in `loopTree` a store whose path
goes through the link can have its own file put in the place of it. -/

/-- A tree with nothing but the working directory. -/
def bareTree : FileTree where
  nodes := [(["work"], .dir)]
  here := ["work"]
  nested := by decide
  here_dir := by decide

/-- A tree in which a link with the name of an artifact leads back to the directory it is in. -/
def loopTree : FileTree where
  nodes := [(["work"], .dir), (["work", "users.json"], .link ".")]
  here := ["work"]
  nested := by decide
  here_dir := by decide

end Tablature
