import Tablature.Proofs.Batch.Abort
import Tablature.Proofs.Store.Frame

/-!
# Proofs/History — calls on stores, and what they never change

A program asks stores for tables, for stubs and for whole documents, one call after another.  A
`Call` may succeed or fail, with any error; `Call.after` is the tree it leaves in any case.

Every call makes some writes that succeed, and from there on only adds to the tree
(`Call.writesThenGrows`): a failure ends the writing of tables, and the stubs that are written
before or after it give way to anything that is there.  So what a call can change is what a table of
its own was written to by force.  `existing_unchanged` says so for one call, and what follows for
any number of them.
-/

namespace Tablature

open FileTree (Grows)

/-! ## Calls -/

/-- What is asked of a store. -/
inductive Job where
  /-- A table, and stubs for the tables that it refers to and that are not defined elsewhere. -/
  | generate (name : String) (tokens : List String) (opts : Options) (force : Force)
    (elsewhere : List String)
  /-- Stubs for the tables that a table refers to. -/
  | ensureStubs (table : Table) (elsewhere : List String)
  /-- All tables of a document. -/
  | batch (d : Batch.Document) (base : Options) (force : Force)

/-- Is overwriting asked for? -/
def Job.force : Job → Force
  | generate _ _ _ force _ => force
  | ensureStubs _ _ => {}
  | batch _ _ force => force

/-- A store and what is asked of it. -/
structure Call where
  store : Store
  job : Job

/-- A run gets to the entry of a table: it is done with the entries before. -/
def Batch.Document.Reaches (d : Document) (store : Store) (base : Options) (force : Force)
    (t : FileTree) (n : String) : Prop :=
  ∃ done t₁ e, d.Ran store base force t done t₁ ∧ d.entry done.length = .ok e ∧ e.name = n

namespace Call

/-- The tree that a call leaves, whether it succeeds or fails. -/
def after (c : Call) (t : FileTree) : FileTree :=
  match c.job with
  | .generate name tokens opts force elsewhere =>
    treeAfter (c.store.generate name tokens opts force elsewhere t)
  | .ensureStubs table elsewhere => treeAfter (c.store.ensureStubs table elsewhere t)
  | .batch d base force => treeAfter (d.run c.store base force t)

/-- **The tables that a call sets out to write**: the one it names, or those of the entries that it
gets to, the one at which it fails included. -/
def Reaches (c : Call) (t : FileTree) (n : String) : Prop :=
  match c.job with
  | .generate name _ _ _ _ => n = name
  | .ensureStubs _ _ => False
  | .batch d base force => d.Reaches c.store base force t n

end Call

/-- The tree after some calls. -/
def afterAll : List Call → FileTree → FileTree
  | [], t => t
  | c :: calls, t => afterAll calls (c.after t)

/-- One of some calls sets out to write a table. -/
def ReachedIn (calls : List Call) (t : FileTree) (n : String) : Prop :=
  ∃ front c back, calls = front ++ c :: back ∧ c.Reaches (afterAll front t) n

/-! ## Writes, and then only more

Every call is of this form, whatever becomes of it; for a document this goes by the entries that
have been run. -/

/-- Some writes succeed, and from there on the tree only grows; the tables among the writes are of
the given names. -/
def WritesThenGrows (s : Store) (force : Force) (names : String → Prop) (t t' : FileTree) : Prop :=
  ∃ tasks t₁, s.Writes force tasks t t₁ ∧ Grows t₁ t' ∧
    (∀ task ∈ tasks, isIdentifier task.name.toList) ∧ ∀ a ∈ Task.tables tasks, names a.table

theorem writesThenGrows_of_grows {s : Store} {force : Force} {names : String → Prop}
    {t t' : FileTree} (h : Grows t t') : WritesThenGrows s force names t t' :=
  ⟨[], t, .nil t, h, by simp, by simp⟩

theorem WritesThenGrows.trans_grows {s : Store} {force : Force} {names : String → Prop}
    {t t₁ t' : FileTree} (h : WritesThenGrows s force names t t₁) (hg : Grows t₁ t') :
    WritesThenGrows s force names t t' := by
  obtain ⟨tasks, t₀, hwrites, hgrows, hid, hnames⟩ := h
  exact ⟨tasks, t₀, hwrites, hgrows.trans hg, hid, hnames⟩

theorem WritesThenGrows.mono {s : Store} {force : Force} {names names' : String → Prop}
    {t t' : FileTree} (h : WritesThenGrows s force names t t') (hn : ∀ n, names n → names' n) :
    WritesThenGrows s force names' t t' := by
  obtain ⟨tasks, t₀, hwrites, hgrows, hid, hnames⟩ := h
  exact ⟨tasks, t₀, hwrites, hgrows, hid, fun a ha => hn a.table (hnames a ha)⟩

theorem Store.writesThenGrows_generate (s : Store) (name : String) (tokens : List String)
    (opts : Options) (force : Force) (elsewhere : List String) (t : FileTree) :
    WritesThenGrows s force (· = name) t
      (treeAfter (s.generate name tokens opts force elsewhere t)) := by
  unfold generate
  cases hbuild : Table.build name tokens opts with
  | error e => exact writesThenGrows_of_grows (.refl t)
  | ok table =>
    dsimp only
    change WritesThenGrows s force _ t (treeAfter (EStateM.bind _ _ t))
    unfold EStateM.bind
    cases hw : s.write table.artifact (Policy.primary force) t with
    | error e t₁ => exact writesThenGrows_of_grows (s.grows_of_write_error hw)
    | ok o t₁ =>
      have hstubs : Grows t₁ (treeAfter ((do
          let stubs ← s.ensureStubs table elsewhere
          return (⟨table.artifact, s.pathFor name, o, stubs⟩ : Generated)) t₁)) := by
        refine FileTree.grows_bind (s.grows_stubAll elsewhere table.referenced) (fun r t => ?_) t₁
        exact .refl t
      refine ⟨[.table table.artifact], t₁, .cons hw (.nil t₁), hstubs, fun task hm => ?_,
        fun a ha => ?_⟩
      · rw [List.mem_singleton.mp hm]
        exact Table.isIdentifier_of_build hbuild
      · rw [List.mem_singleton.mp ha]
        exact Table.name_eq_of_build hbuild

namespace Batch.Document

variable {d : Document} {store : Store} {base : Options} {force : Force} {t t' : FileTree}

theorem grows_stubMissing (store : Store) (done : List Generated) (targets : List String)
    (t : FileTree) : Grows t (stubMissing store done t targets) := by
  rw [stubMissing_eq_tryAll {} done]
  exact store.grows_tryAll {} _ t

/-- The tables of a plan are those of entries that have been reached. -/
theorem Ran.reaches {done : List Generated} {tables : List Table}
    (h : d.Ran store base force t done t') (hb : d.Builds base tables)
    (hg : done.map (·.artifact) = tables.map (·.artifact)) {a : Artifact}
    (ha : a ∈ Task.tables (plan d.declared [] tables)) : d.Reaches store base force t a.table := by
  rw [tables_plan] at ha
  obtain ⟨table, hmem, rfl⟩ := List.mem_map.mp ha
  obtain ⟨i, hi⟩ := List.getElem?_of_mem hmem
  obtain ⟨e, he, hname, -⟩ := exists_of_tableAt (hb i table hi)
  have hlength : done.length = tables.length := by simpa using congrArg List.length hg
  have hlt : i < tables.length := (List.getElem?_eq_some_iff.mp hi).1
  obtain ⟨front, t₁, -, -, hfront, rfl, -⟩ := h.exists_of_lt (hlength ▸ hlt)
  exact ⟨front, t₁, e, hfront, he, hname⟩

/-- What comes after the entries that are done comes after their writes. -/
theorem Ran.writesThenGrows {done : List Generated} {t₁ : FileTree}
    (h : d.Ran store base force t done t₁)
    (hrest : WritesThenGrows store force (d.Reaches store base force t) t₁ t') :
    WritesThenGrows store force (d.Reaches store base force t) t t' := by
  obtain ⟨tables, hb, hg, -, hwrites⟩ := exists_plan_of_ran h
  obtain ⟨tasks, t₂, hwrites', hgrows, hid, hnames⟩ := hrest
  refine ⟨_, t₂, hwrites.append hwrites', hgrows, fun task hm => ?_, fun a ha => ?_⟩
  · exact (List.mem_append.mp hm).elim hb.isIdentifier_of_mem_plan (hid task)
  · rw [Task.tables_append] at ha
    exact (List.mem_append.mp ha).elim (h.reaches hb hg) (hnames a)

theorem writesThenGrows_runEntry (d : Document) (store : Store) (base : Options) (force : Force)
    (done : List Generated) (i : Nat) (t : FileTree) :
    WritesThenGrows store force (fun n => ∃ e, d.entry i = .ok e ∧ e.name = n) t
      (treeAfter (d.runEntry store base force done i t)) := by
  unfold runEntry
  cases d.entry i with
  | error e => exact writesThenGrows_of_grows (.refl t)
  | ok entry =>
    exact (store.writesThenGrows_generate ..).mono fun n hn => ⟨entry, rfl, hn.symm⟩

/-- **A run makes writes that succeed, and then only adds to the tree**: the entries that are done,
of the one at which it fails the table at most, and then stubs. -/
theorem writesThenGrows_run (d : Document) (store : Store) (base : Options) (force : Force)
    (t : FileTree) :
    WritesThenGrows store force (d.Reaches store base force t) t
      (treeAfter (d.run store base force t)) := by
  cases hrun : d.run store base force t with
  | ok gs t' =>
    exact (run_eq_ok_iff.mp hrun).1.writesThenGrows (writesThenGrows_of_grows (.refl t'))
  | error e t' =>
    obtain ⟨done, t₁, t₂, hran, -, hfail, rfl⟩ := exists_of_run_error hrun
    have hentry := d.writesThenGrows_runEntry store base force done done.length t₁
    rw [hfail] at hentry
    have hlast : WritesThenGrows store force (d.Reaches store base force t) t₁ t₂ :=
      hentry.mono fun n ⟨e, he, hn⟩ => ⟨done, t₁, e, hran, he, hn⟩
    exact (hran.writesThenGrows hlast).trans_grows (grows_stubMissing store done _ t₂)

end Batch.Document

/-- **A call makes writes that succeed, and then only adds to the tree.** The tables it writes are
those it sets out to write. -/
theorem Call.writesThenGrows (c : Call) (t : FileTree) :
    WritesThenGrows c.store c.job.force (c.Reaches t) t (c.after t) := by
  obtain ⟨store, job⟩ := c
  cases job with
  | generate name tokens opts force elsewhere =>
    exact store.writesThenGrows_generate name tokens opts force elsewhere t
  | ensureStubs table elsewhere =>
    exact writesThenGrows_of_grows (store.grows_stubAll elsewhere table.referenced t)
  | batch d base force => exact d.writesThenGrows_run store base force t

/-! ## What is never changed -/

/-- **What can become of an entry in a call**: it stays, or it is where the call writes a table by
force, in the store's directory once this has been made. -/
theorem Call.get?_after {c : Call} {t : FileTree} {l : Location} {node : Node}
    (hl : t.get? l = some node) :
    (c.after t).get? l = some node ∨
      c.job.force.isSet = true ∧ ∃ n t₁ loc, c.Reaches t n ∧ isIdentifier n.toList ∧
        FileTree.makeDirs c.store.dir t = .ok () t₁ ∧ t₁.get? l = some node ∧
        c.store.LiesAt t₁ loc ∧ c.store.Fits n ∧ l = artifactAt loc n := by
  obtain ⟨tasks, t₂, hwrites, hgrows, hid, hnames⟩ := c.writesThenGrows t
  by_cases hne : tasks = []
  · subst hne
    cases hwrites
    exact .inl (hgrows l node hl)
  · obtain ⟨t₁, loc, hm, hsteps⟩ := (Store.writes_iff_steps hne hid).mp hwrites
    have hmade : t₁.get? l = some node := by
      have hgrows := FileTree.grows_makeDirs c.store.dir t
      rw [hm] at hgrows
      exact hgrows l node hl
    rcases hsteps.get?_of_some hmade with hstay | ⟨hforce, a, ha, rfl⟩
    · exact .inl (hgrows l node hstay)
    · have hmem := Task.table_mem_of_mem_tables ha
      have hfits : c.store.Fits (Task.table a).name := hsteps.fits hmem
      exact .inr ⟨hforce, a.table, t₁, loc, hnames a ha, hid _ hmem, hm, hmade,
        hsteps.liesAt hne, hfits, rfl⟩

/-- A call leaves every entry of a tree as it is, unless it is forced and the entry is at the path
of a table that it sets out to write. The path is read where the store's directory has been made;
if it never goes up, that is the tree before the call. -/
def Call.Spares (c : Call) (t : FileTree) : Prop :=
  ∀ l node, t.get? l = some node →
    (c.after t).get? l = some node ∨
      c.job.force.isSet = true ∧ ∃ n t₁, c.Reaches t n ∧
        FileTree.makeDirs c.store.dir t = .ok () t₁ ∧ t₁.Names (c.store.pathFor n) l ∧
        (".." ∉ Path.stepsOf c.store.dir.toList → t₁ = t)

theorem Call.spares (c : Call) (t : FileTree) : c.Spares t := by
  intro l node hl
  rcases Call.get?_after hl with hstay | ⟨hforce, n, t₁, loc, hn, hid, hm, hmade, hlies, hfits, rfl⟩
  · exact .inl hstay
  · refine .inr ⟨hforce, n, t₁, hn, hm, hlies.names hid hfits, fun hup => ?_⟩
    -- what is in the store's directory shows that this is not new
    obtain ⟨p, hp, hleads⟩ := hlies
    have hmakes := FileTree.makes_of_makeDirs hp (Path.steps_of_ofDir hp ▸ hup) hm hleads
    exact hmakes.eq_of_below (Option.ne_none_iff_exists'.mpr ⟨node, hmade⟩)

theorem Call.grows_of_unforced {c : Call} (h : c.job.force.isSet = false) (t : FileTree) :
    Grows t (c.after t) := by
  intro l node hl
  rcases Call.get?_after hl with hstay | ⟨hforce, -⟩
  · exact hstay
  · exact absurd hforce (by simp [h])

/-- **Without force nothing is ever changed.** -/
theorem grows_afterAll {calls : List Call} (h : ∀ c ∈ calls, c.job.force.isSet = false)
    (t : FileTree) : Grows t (afterAll calls t) := by
  induction calls generalizing t with
  | nil => exact .refl t
  | cons c calls ih =>
    have hfirst := Call.grows_of_unforced (h c (by simp)) t
    exact hfirst.trans (ih (fun c hc => h c (by simp [hc])) (c.after t))

/-- A call leaves the artifacts of all other tables, wherever they are. -/
theorem Call.get?_of_not_reaches {c : Call} {t : FileTree} {u : String} {loc : Location}
    {node : Node} (hu : ¬ c.Reaches t u) (hl : t.get? (artifactAt loc u) = some node) :
    (c.after t).get? (artifactAt loc u) = some node := by
  rcases Call.get?_after hl with hstay | ⟨-, n, t₁, loc', hn, -, -, -, -, -, he⟩
  · exact hstay
  · exact absurd (artifactAt_inj he ▸ hn) hu

/-- **A table that no call sets out to write is never written over**, forced or not. -/
theorem get?_of_not_reachedIn {calls : List Call} {t : FileTree} {u : String} {loc : Location}
    {node : Node} (hu : ¬ ReachedIn calls t u) (hl : t.get? (artifactAt loc u) = some node) :
    (afterAll calls t).get? (artifactAt loc u) = some node := by
  induction calls generalizing t with
  | nil => exact hl
  | cons c calls ih =>
    have hfirst : ¬ c.Reaches t u := fun h => hu ⟨[], c, calls, rfl, h⟩
    refine ih (fun ⟨front, c', back, he, h⟩ => hu ⟨c :: front, c', back, by rw [he]; rfl, h⟩) ?_
    exact Call.get?_of_not_reaches hfirst hl

/-- The path of an identifier's artifact names a location of its name. -/
theorem FileTree.Names.exists_artifactAt {s : Store} {t : FileTree} {u : String} {l : Location}
    (hid : isIdentifier u.toList) (h : t.Names (s.pathFor u) l) : ∃ loc, l = artifactAt loc u := by
  obtain ⟨q, hq, hplace⟩ := h
  obtain ⟨p, -, rfl⟩ := Store.ofText_pathFor hid hq
  obtain ⟨front, name, loc, hsteps, -, -, -, rfl⟩ := FileTree.placeOf_eq_ok_iff.mp hplace
  obtain ⟨-, hname⟩ := List.append_inj' hsteps rfl
  exact ⟨loc, by rw [artifactAt, hname]⟩

/-- **What is there stays, unless it is asked for by name and by force.** One call, of whatever kind
and with whatever result, changes an entry of a tree only if it is forced and the entry is at the
path of a table that it sets out to write. So without force no number of calls, on whatever stores,
changes anything; and a table that is only referred to is never written over, forced or not. -/
theorem existing_unchanged (t : FileTree) :
    (∀ c : Call, c.Spares t) ∧
      (∀ calls : List Call, (∀ c ∈ calls, c.job.force.isSet = false) →
        Grows t (afterAll calls t)) ∧
      ∀ (calls : List Call) (s : Store) (u : String) (l : Location) (node : Node),
        isIdentifier u.toList → ¬ ReachedIn calls t u → t.Names (s.pathFor u) l →
        t.get? l = some node → (afterAll calls t).get? l = some node := by
  refine ⟨fun c => c.spares t, fun calls h => grows_afterAll h t, ?_⟩
  intro calls s u l node hid hu hnames hl
  obtain ⟨loc, rfl⟩ := hnames.exists_artifactAt hid
  exact get?_of_not_reachedIn hu hl

/-- The items that orders refer to are there. -/
def stockedTree : FileTree where
  nodes := [(["work"], .dir), (["work", "db"], .dir),
    (["work", "db", "items.json"], .file "stock".toUTF8)]
  here := ["work"]
  nested := by decide
  here_dir := by decide

theorem items_unchanged :
    (afterAll [⟨⟨"db"⟩, .batch Batch.Document.shop {} { flag := true }⟩] stockedTree).get?
      ["work", "db", "items.json"] = some (.file "stock".toUTF8) := by
  have hnames : stockedTree.Names ((⟨"db"⟩ : Store).pathFor "items")
      ["work", "db", "items.json"] :=
    ⟨⟨false, ["db", "items.json"], false⟩, by decide +kernel, by decide +kernel⟩
  refine (existing_unchanged stockedTree).2.2 _ ⟨"db"⟩ "items" _ _ (by decide) ?_ hnames rfl
  rintro ⟨front, c, back, he, hreach⟩
  obtain ⟨rfl, rfl, rfl⟩ : front = [] ∧
      c = ⟨⟨"db"⟩, .batch Batch.Document.shop {} { flag := true }⟩ ∧ back = [] := by
    cases front with
    | nil => simpa [eq_comm] using he
    | cons x front => simp at he
  obtain ⟨done, t₁, e, -, hentry, hname⟩ := hreach
  have hmem : "items" ∈ Batch.Document.shop.declared :=
    hname ▸ Batch.Document.mem_declared_of_entry hentry
  exact absurd hmem (by decide)

end Tablature
