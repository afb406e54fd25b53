import Tablature.FileTree.Path

/-!
# Proofs/FileTree/Path — the path of a name below a directory

`ofText_join`: the text of a name below a directory spells the directory's path with that name as
one more step, whether the directory is written with a slash at the end or not.  The empty text is
a directory too, the working directory (`Path.ofDir`).
-/

namespace Tablature.Path

/-! ## Steps -/

/-- The steps that a text spells. -/
def stepsOf (cs : List Char) : List String :=
  (cutSlashes cs).filterMap fun part => if part.isEmpty then none else some (String.ofList part)

/-- A text has at least one part. -/
theorem cutSlashes_ne_nil (cs : List Char) : cutSlashes cs ≠ [] := by
  cases cs with
  | nil => simp [cutSlashes]
  | cons c cs =>
    rw [cutSlashes]
    split
    · simp
    · split <;> simp

/-- Texts around a slash are cut on their own. -/
theorem cutSlashes_append (a b : List Char) :
    cutSlashes (a ++ '/' :: b) = cutSlashes a ++ cutSlashes b := by
  induction a with
  | nil => simp [cutSlashes]
  | cons c a ih =>
    rw [List.cons_append, cutSlashes, cutSlashes, ih]
    split
    · rfl
    · cases ha : cutSlashes a with
      | nil => exact absurd ha (cutSlashes_ne_nil a)
      | cons part parts => rfl

@[simp] theorem stepsOf_nil : stepsOf [] = [] := rfl

theorem stepsOf_append (a b : List Char) : stepsOf (a ++ '/' :: b) = stepsOf a ++ stepsOf b := by
  rw [stepsOf, cutSlashes_append, List.filterMap_append]
  rfl

/-- A text without a slash is one step. -/
theorem stepsOf_of_no_slash {cs : List Char} (h : '/' ∉ cs) (hne : cs ≠ []) :
    stepsOf cs = [String.ofList cs] := by
  have hcut : cutSlashes cs = [cs] := by
    clear hne
    induction cs with
    | nil => rfl
    | cons c cs ih =>
      have hc : c ≠ '/' := fun e => h (by simp [e])
      rw [cutSlashes, if_neg hc, ih fun e => h (by simp [e])]
  simp [stepsOf, hcut, hne]

/-- **Which texts spell a path, and which one**: those that are not empty, not too long and without
a null character. -/
theorem ofText_eq_ok_iff {text : String} {p : Path} :
    ofText text = .ok p ↔ '\x00' ∉ text.toList ∧ text ≠ "" ∧ text.utf8ByteSize ≤ maxTextBytes ∧
      p = ⟨startsAtRoot text, stepsOf text.toList, text.toList.getLast? == some '/'⟩ := by
  have hempty : text.isEmpty = true ↔ text = "" := String.isEmpty_iff
  unfold ofText
  by_cases hnul : '\x00' ∈ text.toList
  · simp [hnul]
  · by_cases he : text = ""
    · simp [he]
    · by_cases hlong : text.utf8ByteSize > maxTextBytes
      · simp [hnul, he, hlong, Nat.not_le.mpr hlong]
      · have hcontains : text.toList.contains '\x00' = false := by simpa using hnul
        simp only [hcontains, Bool.false_eq_true, if_false, mt hempty.mp he, hlong, hnul,
          not_false_eq_true, ne_eq, he, Nat.not_lt.mp hlong, true_and, Except.ok.injEq]
        exact eq_comm

/-- The faults of texts that spell no path. -/
theorem fault_of_ofText {text : String} {fault : FileFault} (h : ofText text = .error fault) :
    fault = .nulInPath ∨ fault = .notFound ∨ fault = .nameTooLong := by
  dsimp only [ofText] at h
  split at h
  · exact .inl (Except.error.inj h).symm
  · split at h
    · exact .inr (.inl (Except.error.inj h).symm)
    · split at h
      · exact .inr (.inr (Except.error.inj h).symm)
      · simp at h

/-! ## Below a directory -/

/-- The path of a directory's text; the empty text is the working directory. -/
def ofDir (text : String) : Except FileFault Path :=
  if text.isEmpty then .ok ⟨false, [], false⟩ else ofText text

/-- A directory's text spells the steps that it has between slashes. -/
theorem steps_of_ofDir {text : String} {p : Path} (h : ofDir text = .ok p) :
    p.steps = stepsOf text.toList := by
  unfold ofDir at h
  split at h
  · next he =>
    obtain rfl := Except.ok.inj h
    rw [String.isEmpty_iff.mp he]
    rfl
  · obtain ⟨-, -, -, rfl⟩ := ofText_eq_ok_iff.mp h
    rfl

/-- A text that can be one step below a directory. -/
structure IsStep (name : String) : Prop where
  ne_empty : name ≠ ""
  no_slash : '/' ∉ name.toList

/-- What is put behind a directory does not change where it starts. -/
theorem startsAtRoot_append {dir : String} (hd : dir ≠ "") (text : String) :
    startsAtRoot (dir ++ text) = startsAtRoot dir := by
  have hne : dir.toList ≠ [] := by simpa using hd
  obtain ⟨c, cs, hcs⟩ := List.exists_cons_of_ne_nil hne
  simp [startsAtRoot, hcs]

/-- A single step does not start at the root. -/
theorem IsStep.startsAtRoot_eq {name : String} (h : IsStep name) : startsAtRoot name = false := by
  unfold startsAtRoot
  cases hcs : name.toList with
  | nil => rfl
  | cons c cs =>
    have hc : c ≠ '/' := fun e => h.no_slash (by simp [hcs, e])
    simpa using hc

theorem IsStep.stepsOf_eq {name : String} (h : IsStep name) : stepsOf name.toList = [name] := by
  rw [stepsOf_of_no_slash h.no_slash (by simpa using h.ne_empty), String.ofList_toList]

/-- A text that ends in a step does not end in a slash. -/
theorem IsStep.getLast?_append {name : String} (h : IsStep name) (a : List Char) :
    ((a ++ name.toList).getLast? == some '/') = false := by
  have hne : name.toList ≠ [] := by simpa using h.ne_empty
  have hlast : name.toList.getLast hne ≠ '/' := fun e => h.no_slash (e ▸ List.getLast_mem hne)
  rw [List.getLast?_append, List.getLast?_eq_some_getLast hne]
  simpa using hlast

/-- Between a directory and a name below it stands one slash, which may be the directory's own. -/
theorem exists_join_eq {dir name : String} (hd : dir ≠ "") (hn : IsStep name) :
    ∃ separator front, join dir name = dir ++ (separator ++ name) ∧
      (join dir name).toList = front ++ '/' :: name.toList ∧
      stepsOf front = stepsOf dir.toList := by
  unfold join
  rw [hn.startsAtRoot_eq]
  by_cases hslash : dir.toList.getLast? = some '/'
  · obtain ⟨front, hfront⟩ := List.getLast?_eq_some_iff.mp hslash
    refine ⟨"", front, by simp [hslash], by simp [hfront], ?_⟩
    rw [hfront, stepsOf_append, stepsOf_nil, List.append_nil]
  · refine ⟨"/", dir.toList, ?_, ?_, rfl⟩
    · simp [hslash, hd, String.append_assoc]
    · simp [hslash, hd]

/-- **The path of a name below a directory is the directory's path with one more step.** -/
theorem ofText_join {dir name : String} {q : Path} (hn : IsStep name)
    (h : ofText (join dir name) = .ok q) :
    ∃ p, ofDir dir = .ok p ∧ q = ⟨p.absolute, p.steps ++ [name], false⟩ := by
  obtain ⟨hnul, -, hlong, rfl⟩ := ofText_eq_ok_iff.mp h
  by_cases hd : dir = ""
  · subst hd
    have hjoin : join "" name = name := by simp [join, hn.startsAtRoot_eq]
    refine ⟨_, rfl, ?_⟩
    rw [hjoin, hn.startsAtRoot_eq, hn.stepsOf_eq]
    simpa using hn.getLast?_append []
  · obtain ⟨separator, front, hjoin, hlist, hsteps⟩ := exists_join_eq hd hn
    have hofText : ofText dir = .ok
        ⟨startsAtRoot dir, stepsOf dir.toList, dir.toList.getLast? == some '/'⟩ := by
      refine ofText_eq_ok_iff.mpr ⟨fun hm => hnul ?_, hd, ?_, rfl⟩
      · rw [hjoin, String.toList_append]
        exact List.mem_append_left _ hm
      · rw [hjoin, String.utf8ByteSize_append] at hlong
        omega
    refine ⟨_, by rw [ofDir, if_neg (by simpa using hd), hofText], ?_⟩
    have hroot : startsAtRoot (join dir name) = startsAtRoot dir := by
      rw [hjoin, startsAtRoot_append hd]
    have hlast : ((join dir name).toList.getLast? == some '/') = false := by
      rw [hlist, List.append_cons]
      exact hn.getLast?_append _
    rw [hroot, hlast, hlist, stepsOf_append, hsteps, hn.stepsOf_eq]

end Tablature.Path
