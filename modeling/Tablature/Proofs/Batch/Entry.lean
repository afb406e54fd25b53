import Tablature.Proofs.Batch.FieldCheck

/-!
# Proofs/Batch/Entry — the fault of an entry is reported where it is

    d.entry i ──▸ .error (.document (some i) none _)        `i` is no sound entry
              ──▸ .error (.document (some i) (some j) _)    its first field without token is `j`
              ──▸ .ok e                                     every field has its token

`SaysEntry` is what an entry is asked for apart from its fields; that nothing else is asked is
`entryFrame_eq_ok_iff`.  Fields are read from the left, so that the one that is reported is the
first without a token (`fieldTokens_eq_error_iff`).  Between them they tell the three ends of
`Document.entry` apart by the document alone: `Document.locatesFault`.
-/

namespace Tablature.Batch

open Json (Value)

variable {members : Members} {value : Value} {frame : EntryFrame} {fault : DocumentFault}

/-! ## What an entry says of itself

The parts of an entry other than its fields, each with what the members must say for it: the reader
of a part gives what they say, and fails if they say nothing. -/

/-- An object names an entry. -/
def Members.SaysName (members : Members) (name : String) : Prop :=
  ∃ s, members.get? ["name"] = some (.string s) ∧ isIdentifier (Text.trim s.toList) ∧
    name = Text.strip s

/-- An object says a version, which is at least 1; one that says nothing says 1. -/
def Members.SaysVersion (members : Members) (version : UInt32) : Prop :=
  members.get? ["version"] = some (.number (.integer version.toNat)) ∧ 1 ≤ version.toNat ∨
    members.get? ["version"] = none ∧ version = 1

/-- Versions are positive and fit in 32 bits. -/
theorem Members.SaysVersion.bounds {version : UInt32} (h : members.SaysVersion version) :
    1 ≤ version.toNat ∧ version.toNat ≤ 4294967295 := by
  have hlt : version.toNat < 4294967296 := version.toNat_lt_size
  rcases h with ⟨-, hpos⟩ | ⟨-, rfl⟩
  · exact ⟨hpos, Nat.le_of_lt_succ hlt⟩
  · decide

/-- A value says what an entry is, up to the tokens of its fields. -/
inductive SaysEntry : Value → EntryFrame → Prop
  | object {members : Members} {frame : EntryFrame}
    (name : members.SaysName frame.name)
    (fields : members.get? ["fields", "columns"] = some (.array frame.fields))
    (stamps : members.SaysFlag ["stamps"] frame.stamps)
    (version : members.SaysVersion frame.version) :
    SaysEntry (.object members) frame

/-- **A name is read exactly if the members say it.** -/
theorem entryName?_eq_some_iff {name : String} :
    entryName? members = some name ↔ members.SaysName name := by
  constructor
  · intro h
    obtain ⟨v, hget, h⟩ := Option.bind_eq_some_iff.mp h
    obtain ⟨s, hs, h⟩ := Option.bind_eq_some_iff.mp h
    obtain rfl : v = .string s := by
      cases v <;> simp_all [string?]
    obtain ⟨hid, hname⟩ := Option.ite_none_right_eq_some.mp h
    exact ⟨s, hget, hid, (Option.some.inj hname).symm⟩
  · rintro ⟨s, hget, hid, rfl⟩
    simp [entryName?, hget, string?, hid]

/-- Where a name is required, the same is read or else it is a fault. -/
theorem requiredName_eq_ok_iff {name : String} :
    requiredName members = .ok name ↔ members.SaysName name := by
  rw [← entryName?_eq_some_iff]
  unfold requiredName
  split
  · next hget => simp [entryName?, hget]
  · next hname => simp [hname]
  · next hname => simp [hname]

/-- The fields are an array, under either of two names. -/
theorem entryFields_eq_ok_iff {name : String} {fields : List Value} :
    entryFields name members = .ok fields ↔
      members.get? ["fields", "columns"] = some (.array fields) := by
  unfold entryFields
  split
  · next hget => simp [hget]
  · next hget => simp [hget]
  · next v hv hget =>
    simp only [hget, Option.some.injEq, reduceCtorEq, false_iff]
    exact hv fields

/-- **A version is read exactly if the members say it.** -/
theorem entryVersion_eq_ok_iff {version : UInt32} :
    entryVersion members = .ok version ↔ members.SaysVersion version := by
  unfold entryVersion Members.SaysVersion
  split
  · next hget => simp [hget, eq_comm]
  · next n hget =>
    simp only [hget, Option.some.injEq, Value.number.injEq, Json.Number.integer.injEq]
    constructor
    · intro h
      split at h
      · next hn =>
        obtain rfl := Except.ok.inj h
        have hsize : n.toNat < UInt32.size := by omega
        rw [UInt32.toNat_ofNat_of_lt' hsize]
        exact .inl (by omega)
      · simp at h
    · rintro (⟨rfl, hpos⟩ | ⟨h, -⟩)
      · have hlt := version.toNat_lt_size
        rw [if_pos (by omega), Int.toNat_natCast, UInt32.ofNat_toNat]
      · cases h
  · next v hv hget =>
    constructor
    · nofun
    · rintro (⟨h, -⟩ | ⟨h, -⟩)
      · exact absurd (Option.some.inj (hget.symm.trans h)) (hv _)
      · simp [hget] at h

/-- **A value is a sound entry** exactly if it says what the entry is. -/
theorem entryFrame_eq_ok_iff : entryFrame value = .ok frame ↔ SaysEntry value frame := by
  constructor
  · intro h
    unfold entryFrame at h
    split at h
    · simp at h
    · next members hmembers =>
      obtain ⟨name, hname, h⟩ := bind_eq_ok_iff.mp h
      obtain ⟨fields, hfields, h⟩ := bind_eq_ok_iff.mp h
      obtain ⟨stamps, hstamps, h⟩ := bind_eq_ok_iff.mp h
      obtain ⟨version, hversion, h⟩ := bind_eq_ok_iff.mp h
      obtain rfl := Except.ok.inj h
      obtain rfl : value = .object members := by
        cases value <;> simp_all [members?]
      exact .object (requiredName_eq_ok_iff.mp hname) (entryFields_eq_ok_iff.mp hfields)
        (saysFlag_of_flag hstamps) (entryVersion_eq_ok_iff.mp hversion)
  · rintro ⟨hname, hfields, hstamps, hversion⟩
    exact bind_eq_ok_iff.mpr ⟨_, requiredName_eq_ok_iff.mpr hname, bind_eq_ok_iff.mpr
      ⟨_, entryFields_eq_ok_iff.mpr hfields, bind_eq_ok_iff.mpr
        ⟨_, flag_of_saysFlag "stamps" hstamps, bind_eq_ok_iff.mpr
          ⟨_, entryVersion_eq_ok_iff.mpr hversion, rfl⟩⟩⟩⟩

theorem SaysEntry.isIdentifier_name (h : SaysEntry value frame) :
    isIdentifier frame.name.toList := by
  obtain ⟨⟨s, -, hid, hname⟩⟩ := h
  rwa [hname, Text.toList_strip]

theorem SaysEntry.entryName?_eq (h : SaysEntry value frame) :
    (members? value).bind entryName? = some frame.name := by
  obtain ⟨hname⟩ := h
  exact entryName?_eq_some_iff.mpr hname

/-- The version of an entry is positive and fits in 32 bits. -/
theorem SaysEntry.version_bounds (h : SaysEntry value frame) :
    1 ≤ frame.version.toNat ∧ frame.version.toNat ≤ 4294967295 := by
  obtain ⟨-, -, -, hversion⟩ := h
  exact hversion.bounds

/-! ## The fields of an entry

Fields are encoded in their order, up to the first that is refused; the position of that one, in the
document and among the fields, is where its fault is reported. -/

section Fields

variable {t f j : Nat} {field : Value} {fields : List Value} {tokens : List String} {e : Error}

/-- Of fields of table `t` that start with field `f`, one has no token, for a fault. -/
def RefusedAt (t f : Nat) (fields : List Value) (j : Nat) (e : Error) : Prop :=
  ∃ field, fields[j]? = some field ∧ fieldToken t (f + j) field = .error e

/-- It is the first that has none. -/
def FirstRefused (t f : Nat) (fields : List Value) (j : Nat) (e : Error) : Prop :=
  RefusedAt t f fields j e ∧ ∀ k < j, ∀ e', ¬ RefusedAt t f fields k e'

/-- **A field that is refused is refused with its position.** -/
theorem RefusedAt.exists_fault (h : RefusedAt t f fields j e) :
    ∃ fault, e = .document (some t) (some (f + j)) fault := by
  obtain ⟨field, -, h⟩ := h
  obtain ⟨fault, -, rfl⟩ := fieldToken_eq_error_iff.mp h
  exact ⟨fault, rfl⟩

theorem refusedAt_zero_iff :
    RefusedAt t f (field :: fields) 0 e ↔ fieldToken t f field = .error e := by
  simp [RefusedAt]

/-- A later field is refused one position further on. -/
theorem refusedAt_succ_iff :
    RefusedAt t f (field :: fields) (j + 1) e ↔ RefusedAt t (f + 1) fields j e := by
  have hj : f + (j + 1) = f + 1 + j := by omega
  simp only [RefusedAt, List.getElem?_cons_succ, hj]

/-- The first field is the first that is refused if it is refused at all. -/
theorem firstRefused_zero_iff :
    FirstRefused t f (field :: fields) 0 e ↔ fieldToken t f field = .error e := by
  simp [FirstRefused, refusedAt_zero_iff]

/-- A later field is the first that is refused if the first one becomes a token. -/
theorem firstRefused_succ_iff :
    FirstRefused t f (field :: fields) (j + 1) e ↔
      (∃ token, fieldToken t f field = .ok token) ∧ FirstRefused t (f + 1) fields j e := by
  simp only [FirstRefused, refusedAt_succ_iff]
  constructor
  · rintro ⟨hrefused, hleast⟩
    have htoken : ∃ token, fieldToken t f field = .ok token := by
      cases hfield : fieldToken t f field with
      | ok token => exact ⟨token, rfl⟩
      | error e' => exact absurd (refusedAt_zero_iff.mpr hfield) (hleast 0 j.succ_pos e')
    exact ⟨htoken, hrefused, fun k hk e' h =>
      hleast (k + 1) (Nat.succ_lt_succ hk) e' (refusedAt_succ_iff.mpr h)⟩
  · rintro ⟨⟨token, htoken⟩, hrefused, hleast⟩
    refine ⟨hrefused, fun k hk e' h => ?_⟩
    cases k with
    | zero => exact nomatch htoken.symm.trans (refusedAt_zero_iff.mp h)
    | succ k => exact hleast k (Nat.lt_of_succ_lt_succ hk) e' (refusedAt_succ_iff.mp h)

/-- There is one token for each field, in the order of the fields. -/
def IsTokens (fields : List Value) (tokens : List String) : Prop :=
  List.Forall₂ (fun field token => encodeField field = .ok token) fields tokens

/-- **Fields become tokens exactly if each does.** -/
theorem fieldTokens_eq_ok_iff : fieldTokens t f fields = .ok tokens ↔ IsTokens fields tokens := by
  unfold IsTokens
  induction fields generalizing f tokens with
  | nil => simp [fieldTokens, eq_comm]
  | cons field fields ih =>
    unfold fieldTokens
    simp only [bind_eq_ok_iff, fieldToken_eq_ok_iff, ih, List.forall₂_cons_left_iff]
    constructor
    · rintro ⟨token, htoken, rest, hrest, h⟩
      exact ⟨token, rest, htoken, hrest, (Except.ok.inj h).symm⟩
    · rintro ⟨token, rest, htoken, hrest, rfl⟩
      exact ⟨token, htoken, rest, hrest, rfl⟩

/-- **The field that is reported is the first without a token.** -/
theorem fieldTokens_eq_error_iff :
    fieldTokens t f fields = .error e ↔ ∃ j, FirstRefused t f fields j e := by
  induction fields generalizing f with
  | nil => simp [fieldTokens, FirstRefused, RefusedAt]
  | cons field fields ih =>
    unfold fieldTokens
    simp only [bind_eq_error_iff, ih]
    constructor
    · rintro (h | ⟨token, htoken, ⟨j, h⟩ | ⟨tokens, -, h⟩⟩)
      · exact ⟨0, firstRefused_zero_iff.mpr h⟩
      · exact ⟨j + 1, firstRefused_succ_iff.mpr ⟨⟨token, htoken⟩, h⟩⟩
      · cases h
    · rintro ⟨j, h⟩
      cases j with
      | zero => exact .inl (firstRefused_zero_iff.mp h)
      | succ j =>
        obtain ⟨⟨token, htoken⟩, h⟩ := firstRefused_succ_iff.mp h
        exact .inr ⟨token, htoken, .inl ⟨j, h⟩⟩

end Fields

/-! ## Where the fault is

An entry fails for what it says of itself or for its first field that is refused, and never in
another entry's place. -/

namespace Document

variable {d : Document} {i : Nat}

/-- The value at a position of a document says what its entry is. -/
def SaysEntryAt (d : Document) (i : Nat) (frame : EntryFrame) : Prop :=
  ∃ value, d.tables[i]? = some value ∧ SaysEntry value frame

/-- An entry that says what it is can only fail for its fields. -/
theorem entry_of_saysEntryAt (h : d.SaysEntryAt i frame) :
    d.entry i = fieldTokens i 0 frame.fields >>= fun tokens =>
      .ok ⟨frame.name, frame.version, frame.stamps, tokens⟩ := by
  obtain ⟨value, hvalue, h⟩ := h
  rw [Document.entry, hvalue]
  change entryOf i value = _
  rw [entryOf, entryFrame_eq_ok_iff.mpr h]
  rfl

/-- Without what an entry must say of itself, its fault names the entry and no field. -/
theorem saysEntryAt_or (d : Document) (i : Nat) :
    (∃ frame, d.SaysEntryAt i frame) ∨
      ∃ fault, d.entry i = .error (.document (some i) none fault) := by
  unfold Document.entry
  cases hvalue : d.tables[i]? with
  | none => exact .inr ⟨_, rfl⟩
  | some value =>
    cases hframe : entryFrame value with
    | ok frame => exact .inl ⟨frame, value, hvalue, entryFrame_eq_ok_iff.mp hframe⟩
    | error fault =>
      refine .inr ⟨fault, bind_eq_error_iff.mpr (.inl ?_)⟩
      exact mapError_eq_error_iff.mpr ⟨fault, hframe, rfl⟩

/-- **An entry that says what it must is read if its fields become tokens.** -/
theorem entry_eq_ok_iff (h : d.SaysEntryAt i frame) {e : Entry} :
    d.entry i = .ok e ↔ e.name = frame.name ∧ e.version = frame.version ∧
      e.stamps = frame.stamps ∧ IsTokens frame.fields e.tokens := by
  simp only [entry_of_saysEntryAt h, bind_eq_ok_iff, fieldTokens_eq_ok_iff]
  constructor
  · rintro ⟨tokens, htokens, he⟩
    obtain rfl := Except.ok.inj he
    exact ⟨rfl, rfl, rfl, htokens⟩
  · rintro ⟨hname, hversion, hstamps, htokens⟩
    exact ⟨e.tokens, htokens, by rw [← hname, ← hversion, ← hstamps]⟩

/-- **An entry that says what it must fails with its first field that is refused.** -/
theorem entry_eq_error_iff (h : d.SaysEntryAt i frame) {err : Error} :
    d.entry i = .error err ↔ ∃ j, FirstRefused i 0 frame.fields j err := by
  simp only [entry_of_saysEntryAt h, bind_eq_error_iff, fieldTokens_eq_error_iff, reduceCtorEq,
    and_false, exists_false, or_false]

/-- Field `j` of an entry is read: the entry says what it is, and no field before this one is
refused. -/
def ReadsField (d : Document) (i j : Nat) (field : Value) : Prop :=
  ∃ frame, d.SaysEntryAt i frame ∧ frame.fields[j]? = some field ∧
    ∀ k < j, ∀ e, ¬ RefusedAt i 0 frame.fields k e

/-- **A field that is refused is what its entry is refused for**, if the document gets that far. -/
theorem entry_of_refused {j : Nat} {field : Value} {e : Error} (hd : d.ReadsField i j field)
    (h : fieldToken i j field = .error e) : d.entry i = .error e := by
  obtain ⟨frame, hentry, hfield, hbefore⟩ := hd
  rw [← Nat.zero_add j] at h
  exact (entry_eq_error_iff hentry).mpr ⟨j, ⟨field, hfield, h⟩, hbefore⟩

/-- An entry that is read says what it must, and this is what is read. -/
theorem exists_saysEntryAt {e : Entry} (h : d.entry i = .ok e) :
    ∃ frame, d.SaysEntryAt i frame ∧ e.name = frame.name ∧ e.version = frame.version ∧
      e.stamps = frame.stamps ∧ IsTokens frame.fields e.tokens := by
  obtain ⟨frame, hentry⟩ | ⟨fault, herror⟩ := d.saysEntryAt_or i
  · exact ⟨frame, hentry, (entry_eq_ok_iff hentry).mp h⟩
  · exact nomatch h.symm.trans herror

theorem exists_of_entry {e : Entry} (h : d.entry i = .ok e) :
    ∃ v, d.tables[i]? = some v ∧ (members? v).bind entryName? = some e.name := by
  obtain ⟨frame, ⟨value, hvalue, hsound⟩, hname, -⟩ := exists_saysEntryAt h
  exact ⟨value, hvalue, hname ▸ hsound.entryName?_eq⟩

theorem mem_declared_of_entry {e : Entry} (h : d.entry i = .ok e) : e.name ∈ d.declared := by
  obtain ⟨v, hv, hname⟩ := exists_of_entry h
  exact List.mem_filterMap.mpr ⟨v, List.mem_of_getElem? hv, hname⟩

/-- The table of an entry comes behind those that the entries before it declare. -/
theorem declared_take_succ {e : Entry} (h : d.entry i = .ok e) :
    { d with tables := d.tables.take (i + 1) }.declared =
      { d with tables := d.tables.take i }.declared ++ [e.name] := by
  obtain ⟨v, hv, hname⟩ := exists_of_entry h
  simp [declared, List.take_add_one, hv, hname]

/-- What is reported of an entry. -/
structure LocatesFault (d : Document) (i : Nat) : Prop where
  /-- Every fault is reported with the entry. -/
  entry : ∀ {err}, d.entry i = .error err → ∃ j fault, err = .document (some i) j fault
  /-- It is reported with a field exactly if the entry says what it is, and the field is the first
  without a token. -/
  field : ∀ {j fault}, d.entry i = .error (.document (some i) (some j) fault) ↔
    ∃ frame, d.SaysEntryAt i frame ∧
      FirstRefused i 0 frame.fields j (.document (some i) (some j) fault)
  /-- It is reported without a field exactly if the entry does not say what it is. -/
  own : (∃ fault, d.entry i = .error (.document (some i) none fault)) ↔
    ∀ frame, ¬ d.SaysEntryAt i frame
  /-- There is none exactly if the entry says what it is and each field has its token. -/
  sound : ∀ {e}, d.entry i = .ok e ↔ ∃ frame, d.SaysEntryAt i frame ∧ e.name = frame.name ∧
    e.version = frame.version ∧ e.stamps = frame.stamps ∧ IsTokens frame.fields e.tokens
  name : ∀ {e}, d.entry i = .ok e → isIdentifier e.name.toList
  declared : ∀ {e}, d.entry i = .ok e → e.name ∈ d.declared ∧
    { d with tables := d.tables.take (i + 1) }.declared =
      { d with tables := d.tables.take i }.declared ++ [e.name]
  version : ∀ {e}, d.entry i = .ok e → 1 ≤ e.version.toNat ∧ e.version.toNat ≤ 4294967295

/-- **The fault of an entry is reported where it is**: with the position of the entry, and with
that of its first bad field if the fields are all that is wrong. -/
theorem locatesFault (d : Document) (i : Nat) : d.LocatesFault i where
  entry := by
    intro err h
    obtain ⟨frame, hentry⟩ | ⟨fault, herror⟩ := d.saysEntryAt_or i
    · obtain ⟨j, hrefused, -⟩ := (entry_eq_error_iff hentry).mp h
      obtain ⟨fault, rfl⟩ := hrefused.exists_fault
      exact ⟨_, fault, rfl⟩
    · exact ⟨none, fault, Except.error.inj (h.symm.trans herror)⟩
  field := by
    intro j fault
    constructor
    · intro h
      obtain ⟨frame, hentry⟩ | ⟨fault', herror⟩ := d.saysEntryAt_or i
      · obtain ⟨j', hrefused⟩ := (entry_eq_error_iff hentry).mp h
        obtain ⟨fault', he⟩ := hrefused.1.exists_fault
        rw [Nat.zero_add] at he
        cases he
        exact ⟨frame, hentry, hrefused⟩
      · exact nomatch h.symm.trans herror
    · rintro ⟨frame, hentry, hrefused⟩
      exact (entry_eq_error_iff hentry).mpr ⟨j, hrefused⟩
  own := by
    constructor
    · rintro ⟨fault, h⟩ frame hentry
      obtain ⟨j, hrefused, -⟩ := (entry_eq_error_iff hentry).mp h
      obtain ⟨fault', he⟩ := hrefused.exists_fault
      cases he
    · exact fun hnone => (d.saysEntryAt_or i).resolve_left (not_exists.mpr hnone)
  sound := by
    refine fun {e} => ⟨exists_saysEntryAt, ?_⟩
    rintro ⟨frame, hentry, he⟩
    exact (entry_eq_ok_iff hentry).mpr he
  name := by
    intro e h
    obtain ⟨frame, ⟨value, -, hsound⟩, hname, -⟩ := exists_saysEntryAt h
    exact hname ▸ hsound.isIdentifier_name
  declared h := ⟨mem_declared_of_entry h, declared_take_succ h⟩
  version := by
    intro e h
    obtain ⟨frame, ⟨value, -, hsound⟩, -, hversion, -⟩ := exists_saysEntryAt h
    exact hversion ▸ hsound.version_bounds

end Document

end Tablature.Batch
