import Tablature.Proofs.Artifact.Encoding
import Tablature.Proofs.Bind
import Tablature.Proofs.FileTree.MakeDirs
import Tablature.Store

/-!
# Proofs/Store/Read — an artifact that was written is read back

A write that is not refused or passed over puts the artifact's file at the location that its path
names (`exists_put_of_write`).  A look-up of the path then ends at that file, with one exception: a
file that takes the place of a link can stand in the way of its own path (`resolvePath_of_set`).

`read_written` puts this together with the encoding: what is read is the artifact that was written,
for tables of any name and texts of any characters.
-/

namespace Tablature

namespace FileTree

variable {t t' : FileTree} {q : Path} {l : Location} {text content : String} {mayReplace : Bool}

/-! ## A file that was put in place

What a path names has been set to the file, and the path leads there unless this has put the file in
its own way. -/

/-- **A file that was put in place is where its path names**, and no directory was there. -/
theorem exists_names_of_place {bytes : ByteArray} (h : place mayReplace text bytes t = .ok () t') :
    ∃ l, t.Names text l ∧ t' = t.set l (.file bytes) ∧ t.get? l ≠ some .dir ∧
      (mayReplace = false → t.get? l = none) := by
  unfold place at h
  split at h
  · exact nomatch h
  · next q hq =>
    split at h
    · exact nomatch h
    · next l hplace =>
      refine ⟨l, ⟨q, hq, hplace⟩, ?_⟩
      split at h
      · next hnone =>
        obtain ⟨-, rfl⟩ := EStateM.Result.ok.inj h
        exact ⟨rfl, by simp [hnone], fun _ => hnone⟩
      · exact nomatch h
      · next node hdir hsome =>
        split at h
        · next hmay =>
          obtain ⟨-, rfl⟩ := EStateM.Result.ok.inj h
          refine ⟨rfl, fun he => hdir ?_, fun hnot => nomatch hmay.symm.trans hnot⟩
          exact Option.some.inj (hsome.symm.trans he)
        · exact nomatch h

/-- **A path leads to the file that is put where it names**, unless the file takes the place of a
link and stands in the way. -/
theorem resolvePath_of_set {bytes : ByteArray} (hslash : q.slash = false) (h : t.placeOf q = .ok l)
    (hdir : t.get? l ≠ some .dir) (ht : t' = t.set l (.file bytes)) :
    t'.resolvePath q = .ok (.file l bytes) ∨ t'.resolvePath q = .error .notDirectory ∧
      ∃ target, t.get? l = some (.link target) := by
  have hadmits := admits_of_placeOf (n := .file bytes) h fun he => absurd he hdir
  have hstart : t'.start q = t.start q := start_eq_of_here (ht ▸ here_set t l _) q
  obtain ⟨front, name, loc, hsteps, hwalk, hname, hlong, rfl⟩ := placeOf_eq_ok_iff.mp h
  obtain ⟨k, hk⟩ := t'.walkLinks_append maxLinks (t.start q) front
  have hresolve : t'.resolvePath q =
      t'.goOn k [name] (t'.walkLinks maxLinks (t.start q) front) := by
    rw [← hk, ← hsteps, resolvePath, Path.lookupSteps, hslash, hstart]
    rfl
  rw [hresolve]
  have hfront := walkLinks_of_block (loc ++ [name]) bytes hwalk
  rw [← ht] at hfront
  rcases hfront with hfront | ⟨hblocked, hwas⟩
  · left
    rw [hfront, goOn, walkLinks_name hname, if_neg hlong, ht, get?_set_self hadmits]
    rfl
  · right
    refine ⟨?_, hwas⟩
    rcases hblocked with hfront | ⟨loc', bytes', hfront⟩
    · rw [hfront]
      rfl
    · rw [hfront]
      rfl

theorem fromUTF8?_toUTF8 (s : String) : String.fromUTF8? s.toUTF8 = some s :=
  dif_pos s.isValidUTF8

/-- **The text of a file is read back by the path it was put in place by**, unless it has replaced a
link and stands in the way of the path. -/
theorem readText_of_place (hend : text.toList.getLast? ≠ some '/')
    (h : place mayReplace text content.toUTF8 t = .ok () t') :
    t'.readText text = .ok content ∨
      mayReplace = true ∧ t'.readText text = .error .notDirectory ∧
        ∃ l target, t.Names text l ∧ t.get? l = some (.link target) ∧
          t'.get? l = some (.file content.toUTF8) := by
  obtain ⟨l, ⟨q, hq, hplace⟩, ht, hdir, hnone⟩ := exists_names_of_place h
  have hslash : q.slash = false := by
    obtain ⟨-, -, -, rfl⟩ := Path.ofText_eq_ok_iff.mp hq
    simpa using hend
  have hread : t'.resolve text = t'.resolvePath q := by
    rw [resolve, hq]
    rfl
  unfold readText
  rw [hread]
  rcases resolvePath_of_set hslash hplace hdir ht with hfile | ⟨hblocked, target, hlink⟩
  · left
    simp only [hfile, fromUTF8?_toUTF8]
  · refine .inr ⟨?_, by rw [hblocked], l, target, ⟨q, hq, hplace⟩, hlink, ?_⟩
    · cases mayReplace with
      | true => rfl
      | false => simp [hnone rfl] at hlink
    · rw [ht, get?_set_self (admits_of_placeOf hplace fun he => absurd he hdir)]

end FileTree

namespace Store

variable {s : Store} {t t' : FileTree} {a : Artifact} {policy : Policy} {o : Outcome}

/-! ## A write and a read -/

/-- The path of an artifact ends in the name of a file. -/
theorem getLast?_pathFor (s : Store) (table : String) :
    (s.pathFor table).toList.getLast? = some 'n' := by
  have hjson : ∀ cs : List Char, (cs ++ ".json".toList).getLast? = some 'n' := fun cs => by
    rw [List.getLast?_append]
    rfl
  have hend : ∀ front : String, (front ++ (table ++ ".json")).toList.getLast? = some 'n' := by
    intro front
    rw [String.toList_append, String.toList_append, ← List.append_assoc, hjson]
  unfold pathFor Path.join
  split
  · rw [String.toList_append, hjson]
  · split
    · exact hend s.dir
    · exact hend (s.dir ++ "/")

/-- What is found taken is kept, if at all. -/
theorem kept_of_taken (h : s.taken a policy = .ok o) : o = .kept := by
  unfold taken at h
  split at h
  · exact (Except.ok.inj h).symm
  · exact nomatch h

/-- A commit that keeps nothing has made the directory and put the file in it. -/
theorem exists_put_of_commit {present : Bool} (h : s.commit a policy present t = .ok o t')
    (ho : o ≠ .kept) : ∃ t₁, FileTree.makeDirs s.dir t = .ok () t₁ ∧
      s.put a (policy = .replace) t₁ = .ok () t' := by
  unfold commit makeDir at h
  cases hm : FileTree.makeDirs s.dir t with
  | error fault t₁ =>
    rw [hm] at h
    exact nomatch h
  | ok u t₁ =>
    simp only [hm] at h
    split at h
    · next u t₂ hput => exact ⟨t₁, rfl, (EStateM.Result.ok.inj h).2 ▸ hput⟩
    · split at h
      · split at h
        · next o' htaken =>
          obtain ⟨rfl, -⟩ := EStateM.Result.ok.inj h
          exact absurd (kept_of_taken htaken) ho
        · exact nomatch h
      · exact nomatch h

/-- **A write that did not keep what is there has put the file in place**, in the store's directory,
which it may have made. -/
theorem exists_put_of_write (h : s.write a policy t = .ok o t') (ho : o ≠ .kept) :
    ∃ t₁, FileTree.makeDirs s.dir t = .ok () t₁ ∧ s.put a (policy = .replace) t₁ = .ok () t' := by
  unfold write at h
  split at h
  · split at h
    · next o' htaken =>
      obtain ⟨rfl, -⟩ := EStateM.Result.ok.inj h
      exact absurd (kept_of_taken htaken) ho
    · exact nomatch h
  · exact exists_put_of_commit h ho

theorem read_of_readText {table text : String} (h : t.readText (s.pathFor table) = .ok text)
    (ha : Artifact.decode? text = some a) : s.read table t = .ok a := by
  unfold read
  simp only [h, ha]

/-- **What was written is read back.** The file of an artifact has the layout of its four members
and a line end, gives back the artifact, and is that of no other. So a write that creates or
replaces a file is followed by a read that gives the artifact, with one exception: if the file has
replaced a link and now stands in the way of its own path, the read ends there, and the file is at
the location that the path named. -/
theorem read_written (a : Artifact) :
    a.encode.toList = '\x7b' :: Json.Source.body 0 '\x7d' a.memberTexts ++ ['\n'] ∧
      Artifact.decode? a.encode = some a ∧
      (∀ b : Artifact, b.encode.toUTF8 = a.encode.toUTF8 → b = a) ∧
      ∀ (s : Store) (policy : Policy) (t t' : FileTree) (o : Outcome),
        s.write a policy t = .ok o t' → o = .created ∨ o = .replaced →
        s.read a.table t' = .ok a ∨
          policy = .replace ∧
            s.read a.table t' = .error (.file (s.pathFor a.table) .notDirectory) ∧
            ∃ t₁ l target, FileTree.makeDirs s.dir t = .ok () t₁ ∧
              t₁.Names (s.pathFor a.table) l ∧ t₁.get? l = some (.link target) ∧
              t'.get? l = some (.file a.encode.toUTF8) := by
  refine ⟨a.toList_encode, a.decode?_encode, fun b hb => ?_, fun s policy t t' o h ho => ?_⟩
  · exact Artifact.eq_of_encode_eq (String.toByteArray_inj.mp hb)
  · have hkept : o ≠ .kept := by
      rintro rfl
      exact ho.elim nofun nofun
    obtain ⟨t₁, hm, hput⟩ := exists_put_of_write h hkept
    have hend : (s.pathFor a.table).toList.getLast? ≠ some '/' := by
      rw [getLast?_pathFor]
      decide
    rcases FileTree.readText_of_place hend hput with hread | ⟨hmay, hread, l, target, hlink⟩
    · exact .inl (read_of_readText hread a.decode?_encode)
    · refine .inr ⟨of_decide_eq_true hmay, ?_, t₁, l, target, hm, hlink⟩
      unfold read
      simp only [hread]

/-- A table whose texts need every kind of escape. -/
def escapes : Artifact where
  table := "päge\"s\\"
  version := 4294967295
  createSql := "CREATE TABLE \"a\" (\n\tb /* \x00\x08\x0c\r\x1f\x7f 🗄 */\n);"
  extraSql := ["", "/", "\u2028\"],\n  ["]

/-- A table with every kind of escape is written and read back. -/
theorem read_written_escapes :
    ∃ t', (⟨"db/v1/"⟩ : Store).write escapes .refuse bareTree = .ok .created t' ∧
      (⟨"db/v1/"⟩ : Store).read escapes.table t' = .ok escapes := by
  obtain ⟨o, t', hwrite, ho⟩ : ∃ o t', (⟨"db/v1/"⟩ : Store).write escapes .refuse bareTree =
      .ok o t' ∧ decide (o = .created) = true :=
    exists_ok_of_check (fun o _ => decide (o = Outcome.created)) (by decide +kernel)
  obtain rfl := of_decide_eq_true ho
  obtain ⟨-, -, -, hall⟩ := read_written escapes
  rcases hall _ _ _ _ _ hwrite (.inl rfl) with hread | ⟨hpolicy, -⟩
  · exact ⟨t', hwrite, hread⟩
  · exact nomatch hpolicy

/-- **A write can cut off its own path**: here the store's directory is reached by a link with the
name of the artifact, which the file replaces. -/
theorem exists_written_not_read :
    ∃ (s : Store) (a : Artifact) (t t' : FileTree),
      s.write a .replace t = .ok .replaced t' ∧ s.read a.table t' ≠ .ok a := by
  let s : Store := ⟨"users.json"⟩
  let a : Artifact := ⟨"users", 1, "", []⟩
  obtain ⟨o, t', hwrite, hcheck⟩ : ∃ o t', s.write a .replace loopTree = .ok o t' ∧
      (decide (o = .replaced) && !(s.read a.table t').isOk) = true :=
    exists_ok_of_check (fun o t' => decide (o = Outcome.replaced) && !(s.read a.table t').isOk)
      (by decide +kernel)
  simp only [Bool.and_eq_true, decide_eq_true_eq, Bool.not_eq_true'] at hcheck
  obtain ⟨rfl, hfail⟩ := hcheck
  refine ⟨s, a, loopTree, t', hwrite, fun hread => ?_⟩
  simp [hread, Except.isOk, Except.toBool] at hfail

end Store

end Tablature
