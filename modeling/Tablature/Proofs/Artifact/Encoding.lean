import Tablature.Artifact.Encoding
import Tablature.Proofs.Json.Printer

/-!
# Proofs/Artifact/Encoding — an artifact and its file

`toList_encode` is the layout of an artifact's file: four members, a line each, the items of the
last one a line deeper, and a line end.  `decode?_encode`: the artifact is read back from it,
whatever characters its texts hold and however many items there are; so files of different
artifacts differ.
-/

namespace Tablature.Artifact

open Json (Piece Source Value pieces quote)
open Json.Source (Reads readValue readMember body memberText)

variable {a b : Artifact}

/-! ## The file -/

/-- The texts of the members of an artifact's file. -/
def memberTexts (a : Artifact) : List (List Char) :=
  [memberText "table".toList (quote a.table.toList),
    memberText "version".toList (Nat.toDigits 10 a.version.toNat),
    memberText "createSQL".toList (quote a.createSql.toList),
    memberText "extraSQL".toList
      ('[' :: body 1 ']' (a.extraSql.map fun s => quote s.toList))]

/-- **The layout of an artifact's file.** -/
theorem toList_encode (a : Artifact) :
    a.encode.toList = '\x7b' :: body 0 '\x7d' a.memberTexts ++ ['\n'] := by
  have hitems : ∀ texts : List String,
      (texts.map Value.string).map (fun v => (v.prettyAt 2).toList) =
        texts.map fun s => quote s.toList := by
    intro texts
    rw [List.map_map]
    exact List.map_congr_left fun s _ => Value.toList_prettyAt_string 2 s
  rw [encode, String.toList_append, Value.pretty, toValue, Value.toList_prettyAt_object]
  simp only [List.map_cons, List.map_nil, Value.memberAt, Value.toList_prettyAt_string,
    Value.toList_prettyAt_natCast, Value.toList_prettyAt_array, hitems]
  rfl

/-! ## The source of the file -/

/-- The members of an artifact's file, as they are spelled. -/
def members (a : Artifact) : List (List Piece × Source) :=
  [(pieces "table".toList, .string (pieces a.table.toList)),
    (pieces "version".toList, .number (.ofNat a.version.toNat)),
    (pieces "createSQL".toList, .string (pieces a.createSql.toList)),
    (pieces "extraSQL".toList, .array (a.extraSql.map fun s => .string (pieces s.toList)))]

/-- A list of texts is read as the array of their literals. -/
theorem reads_strings (depth level : Nat) (texts : List String) :
    Reads (readValue (depth + 1)) ('[' :: body level ']' (texts.map fun s => quote s.toList))
      (.array (texts.map fun s => .string (pieces s.toList))) := by
  refine Json.Source.reads_array depth level ?_
  induction texts with
  | nil => exact .nil
  | cons s texts ih => exact .cons (Json.Source.reads_quote depth s.toList) ih

/-- The members of an artifact's file are read one by one. -/
theorem reads_members (a : Artifact) (depth : Nat) :
    List.Forall₂ (Reads (readMember (readValue (depth + 1)))) a.memberTexts a.members := by
  refine .cons ?_ (.cons ?_ (.cons ?_ (.cons ?_ .nil)))
  · exact Json.Source.reads_member (Json.Source.reads_quote _ a.table.toList) _
  · exact Json.Source.reads_member (Json.Source.reads_toDigits _ a.version.toNat) _
  · exact Json.Source.reads_member (Json.Source.reads_quote _ a.createSql.toList) _
  · exact Json.Source.reads_member (reads_strings depth 1 a.extraSql) _

/-- **An artifact's file is parsed as the members of the artifact.** -/
theorem parse_encode (a : Artifact) :
    Source.parse a.encode.toList.length a.encode.toList = some (.object a.members) := by
  have hlength : a.encode.toList.length = (body 0 '\x7d' a.memberTexts).length + 2 := by
    simp [toList_encode]
  rw [hlength, toList_encode]
  exact Json.Source.parse_of_reads (Json.Source.reads_object _ 0 (a.reads_members _))

/-! ## The artifact of its members

A decoder goes through these members and finds each field of the artifact by its name. -/

theorem text?_pieces (s : String) : text? (.string (pieces s.toList)) = some s := by
  rw [text?, Json.decode?_pieces, Option.map_some, String.ofList_toList]

/-- An array of literals gives back the texts. -/
theorem texts?_pieces (texts : List String) :
    texts? (.array (texts.map fun s => .string (pieces s.toList))) = some texts := by
  rw [texts?]
  induction texts with
  | nil => rfl
  | cons s texts ih => simp [text?_pieces, ih]

/-- A version is read back from its digits. -/
theorem version?_ofNat (v : UInt32) : version? (.number (.ofNat v.toNat)) = some v := by
  have hlt : v.toNat < UInt32.size := v.toNat_lt
  have hle : v.toNat ≤ Json.Numeral.maxSignificand :=
    Nat.le_trans (Nat.le_of_lt hlt) (by decide)
  rw [version?, Json.Numeral.integer?_ofNat hle]
  simp [hlt]

/-- **The members of an artifact, in the order of its file, give the artifact back.** -/
theorem ofSource?_members (a : Artifact) : ofSource? (.object a.members) = some a := by
  simp only [ofSource?, members, List.foldlM_cons, List.foldlM_nil, Partial.add,
    Json.decode?_pieces, text?_pieces, texts?_pieces, version?_ofNat]
  rfl

/-- **An artifact is read back from its file.** -/
theorem decode?_encode (a : Artifact) : decode? a.encode = some a := by
  rw [decode?, parse_encode, Option.bind_some, ofSource?_members]

/-- **Files of different artifacts differ.** -/
theorem eq_of_encode_eq (h : a.encode = b.encode) : a = b := by
  have hdecode := congrArg decode? h
  rw [decode?_encode, decode?_encode] at hdecode
  exact Option.some.inj hdecode

end Tablature.Artifact
