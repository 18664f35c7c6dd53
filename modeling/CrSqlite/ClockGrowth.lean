import CrSqlite.MergeStatements
import CrSqlite.Remerge

/-!
# ClockGrowth - clock entries over a run

Last-writer-wins and delta sync both need clocks that never run backwards: the version of
a column does not fall, and an entry that a later transaction writes carries a larger db
version than before.

Main results:

- Theorem {lit}`TableStep.raises`: what one statement under the condition does to an entry.
- Theorem {lit}`growing_step`: every step under the condition keeps the invariant.
- Theorem {lit}`clocks_grow_run`: in every run of such steps clocks never run backwards.
-/

namespace CrSqlite

/-! ## Later entries -/

/-- An entry of the same key and column name whose column version is not lower. -/
structure ClockEntry.Follows (e e' : ClockEntry) : Prop where
  key : canonKey e'.key = canonKey e.key
  colName : e'.colName = e.colName
  colVersion : e.colVersion ≤ e'.colVersion

/-- The entry was kept, or rewritten with at least the given db version. -/
def ClockEntry.RaisedTo (next : Int) (e e' : ClockEntry) : Prop :=
  e' = e ∨ e.Follows e' ∧ next ≤ e'.dbVersion

/-- The entry was kept, or rewritten with a larger db version. -/
def ClockEntry.Before (e e' : ClockEntry) : Prop :=
  e' = e ∨ e.Follows e' ∧ e.dbVersion < e'.dbVersion

section Entries

variable {next : Int} {e e' e'' : ClockEntry}

theorem ClockEntry.Follows.refl (e : ClockEntry) : e.Follows e :=
  ⟨rfl, rfl, le_rfl⟩

theorem ClockEntry.Follows.trans (h : e.Follows e') (h' : e'.Follows e'') : e.Follows e'' :=
  ⟨h'.key.trans h.key, h'.colName.trans h.colName, h.colVersion.trans h'.colVersion⟩

/-- A raised entry follows. -/
theorem ClockEntry.RaisedTo.follows (h : e.RaisedTo next e') : e.Follows e' := by
  rcases h with rfl | ⟨h, -⟩
  · exact .refl e'
  · exact h

/-- An entry may be raised twice in a transaction. -/
theorem ClockEntry.RaisedTo.trans (h : e.RaisedTo next e') (h' : e'.RaisedTo next e'') :
    e.RaisedTo next e'' := by
  rcases h' with rfl | ⟨hfollows, hle⟩
  · exact h
  · exact Or.inr ⟨h.follows.trans hfollows, hle⟩

/-- An entry of an earlier transaction is followed. -/
theorem ClockEntry.Before.follows (h : e.Before e') : e.Follows e' := by
  rcases h with rfl | ⟨h, -⟩
  · exact .refl e'
  · exact h

/-- What comes before comes before what follows. -/
theorem ClockEntry.Before.trans (h : e.Before e') (h' : e'.Before e'') : e.Before e'' := by
  rcases h' with rfl | ⟨hfollows, hlt⟩
  · exact h
  rcases h with rfl | ⟨hfollows', hlt'⟩
  · exact Or.inr ⟨hfollows, hlt⟩
  · exact Or.inr ⟨hfollows'.trans hfollows, hlt'.trans hlt⟩

/-- An entry below the version of the transaction that is rewritten in it. -/
theorem ClockEntry.Before.raised (h : e.Before e') (h' : e'.RaisedTo next e'')
    (hlt : e.dbVersion < next) : e.Before e'' := by
  rcases h' with rfl | ⟨hfollows, hle⟩
  · exact h
  · exact Or.inr ⟨h.follows.trans hfollows, hlt.trans_le hle⟩

end Entries

/-! ## One statement -/

/-- Every entry of the clock table has one after it in the other clock table. -/
def ClockGrows (R : ClockEntry → ClockEntry → Prop) (clock clock' : List ClockEntry) : Prop :=
  ∀ e ∈ clock, ∃ e' ∈ clock', R e e'

/-- A change that is merged as a key alone does not bring a lower version than the one that
is stored. -/
def KeyOnlyAdvances [Sqlite] (t : CrrTable) (ch : Change) : Prop :=
  KeyOnly t ch → ¬ DeletedLocally t ch →
    ∀ key ∈ (quoteConcatedValuesAsList ch.pk t.info.pks.length).bind readLiterals,
      SqlValue.null ∉ key → ∀ e ∈ t.clock, canonKey e.key = canonKey key →
        e.colName = pkoSentinel → e.colVersion ≤ ch.colVersion

instance [Sqlite] (t : CrrTable) (ch : Change) : Decidable (KeyOnlyAdvances t ch) :=
  inferInstanceAs (Decidable (_ → _))

section Step

variable {next : Int} {t t' : CrrTable}

/-- A trigger raises the entries that it logs. -/
theorem raises_logChanges (key : Key) (cols : List Text) {clock : List ClockEntry}
    (h64 : ∀ e ∈ clock, e.colVersion ≤ maxInt64) :
    ClockGrows (ClockEntry.RaisedTo next) clock (logChanges false next key cols clock) := by
  induction cols generalizing clock with
  | nil => exact fun e he => ⟨e, he, Or.inl rfl⟩
  | cons col cols ih =>
      have h64' : ∀ e ∈ logChanges false next key [col] clock, e.colVersion ≤ maxInt64 :=
        forall_logChanges (P := fun e => e.colVersion ≤ maxInt64)
          (fun _ => (by decide : (1 : Int) ≤ maxInt64)) (fun _ _ => min_le_right _ _) h64
      intro e he
      have hone : ∃ e' ∈ logChange false next key clock col, e.RaisedTo next e' := by
        rw [logChange, if_neg Bool.false_ne_true]
        rcases Keyed.mem_upsert_or ClockEntry.ident (f := ClockEntry.bump next)
          (a := ⟨key, col, 1, next, none⟩) he with hmem | ⟨-, hmem⟩
        · exact ⟨e, hmem, Or.inl rfl⟩
        · have hle : e.colVersion ≤ min (e.colVersion + 1) maxInt64 :=
            le_min (lt_add_one _).le (h64 e he)
          exact ⟨_, hmem, Or.inr ⟨⟨rfl, rfl, hle⟩, le_rfl⟩⟩
      obtain ⟨e', he', hraised⟩ := hone
      obtain ⟨e'', he'', hraised'⟩ := ih h64' e' he'
      exact ⟨e'', he'', hraised.trans hraised'⟩

/-- Putting an entry that is not behind the one it replaces. -/
theorem raises_put {new : ClockEntry} {clock : List ClockEntry} (hnext : next ≤ new.dbVersion)
    (hver : ∀ e ∈ clock, Keyed.Conflicts ClockEntry.ident new e → e.colVersion ≤ new.colVersion) :
    ClockGrows (ClockEntry.RaisedTo next) clock (Keyed.put ClockEntry.ident new clock) := by
  intro e he
  by_cases hconf : Keyed.Conflicts ClockEntry.ident new e
  · obtain ⟨⟨c, col⟩, hident⟩ := Option.ne_none_iff_exists'.mp hconf.1
    have hnew := ClockEntry.ident_eq_some_iff.mp hident
    have hold := ClockEntry.ident_eq_some_iff.mp (hconf.2 ▸ hident)
    refine ⟨new, Keyed.mem_put.mpr (Or.inl rfl), Or.inr ⟨⟨?_, ?_, hver e he hconf⟩, hnext⟩⟩
    · rw [canonKey_of_keyClass hnew.1, canonKey_of_keyClass hold.1]
    · rw [hnew.2, hold.2]
  · exact ⟨e, Keyed.mem_put.mpr (Or.inr ⟨he, hconf⟩), Or.inl rfl⟩

variable [Sqlite] {ch : Change}

/-- A merge under the condition replaces no entry of a higher version. -/
theorem raises_merge (hu : Keyed.Unique ClockEntry.ident t.clock) (hko : KeyOnlyAdvances t ch)
    (h : mergeTable next ch t = .ok t') :
    ClockGrows (ClockEntry.RaisedTo next) t.clock t'.clock := by
  rcases mergeTable_cases h with
    rfl | ⟨key, parts, wheres, hparts, hkey, -, hwheres, hreads, hcheck, hmerged⟩
  · exact fun e he => ⟨e, he, Or.inl rfl⟩
  -- an entry in conflict with the new one has its key
  have hconf : ∀ (col : Text) (v d : Int) (s : Option Blob) (e : ClockEntry),
      Keyed.Conflicts ClockEntry.ident ⟨key, col, v, d, s⟩ e →
        keyClass key = some (canonKey key) ∧ e.ident = some (canonKey key, col) := by
    intro col v d s e hconf
    obtain ⟨⟨c, col'⟩, hident⟩ := Option.ne_none_iff_exists'.mp hconf.1
    obtain ⟨hc, hcol⟩ := ClockEntry.ident_eq_some_iff.mp hident
    have hcanon : canonKey key = c := canonKey_of_keyClass hc
    dsimp only at hcol
    rw [hcanon, hcol]
    exact ⟨hc, hconf.2 ▸ hident⟩
  cases hmerged with
  | del hcid =>
      rw [mergeDelete, setWinnerClock, deleteWhere_eq]
      refine raises_put (le_max_left _ _) ?_
      intro e he hconflict
      obtain ⟨hc, hident⟩ := hconf _ _ _ _ e hconflict
      -- there is no sentinel to replace
      have hread := hreads.resolve_left fun hko => hko.1 hcid
      have hnone := (checkForLocalDelete_iff hu hread hc).not.mp (by simp [hcheck])
      rw [not_not] at hnone
      exact absurd hident (Keyed.find_eq_none_iff.mp hnone e he)
  | pko hcid hcol =>
      rw [clock_mergePkOnlyInsert]
      refine raises_put (le_max_left _ _) ?_
      intro e he hconflict
      obtain ⟨hc, hident⟩ := hconf _ _ _ _ e hconflict
      obtain ⟨hclass, hcolName⟩ := ClockEntry.ident_eq_some_iff.mp hident
      refine hko ⟨hcid, hcol⟩ ?_ key ?_ (keyClass_eq_some_iff.mp hc).1 e he
        (canonKey_of_keyClass hclass) hcolName
      · rintro ⟨wheres', hwheres', hcheck'⟩
        rw [hwheres, Option.mem_some_iff] at hwheres'
        rw [hwheres', hcheck'] at hcheck
        cases hcheck
      · rw [quoteConcatedValuesAsList, hparts, Option.bind_some, hkey]
        rfl
  | column hcid hpko hcol hval hsplit hwin hread hupsert =>
      rw [upsertColumn_eq_some hupsert]
      refine raises_put (le_max_left _ _) ?_
      intro e he hconflict
      obtain ⟨hc, hident⟩ := hconf _ _ _ _ e hconflict
      have hentry : t.entry (canonKey key) ch.cid = some e := Keyed.find_of_mem hu he hident
      rw [didCidWin_eq _ ch t hc, hentry] at hwin
      by_contra hlt
      have hgt : ch.colVersion < e.colVersion := not_le.mp hlt
      simp [not_lt.mpr hgt.le, hgt] at hwin

/-- What one statement under the condition does to the entries of its table: each is kept
or rewritten with a version of its column that is not lower and at least the db version of
the transaction. -/
theorem TableStep.raises {s : Stmt} (h : TableStep next s t t')
    (hu : Keyed.Unique ClockEntry.ident t.clock) (h64 : ∀ e ∈ t.clock, e.Int64)
    (hs : ∀ ch, s = .merge ch → KeyOnlyAdvances t ch) :
    ClockGrows (ClockEntry.RaisedTo next) t.clock t'.clock := by
  cases h with
  | write hw =>
      rcases clock_of_write hw with hclock | ⟨key, cols, hclock⟩
      · rw [hclock]
        exact fun e he => ⟨e, he, Or.inl rfl⟩
      · rw [hclock]
        exact raises_logChanges key cols fun e he => (h64 e he).colVersion.2
  | merge hm => exact raises_merge hu (hs _ rfl) hm

end Step

/-! ## A connection -/

/-- Every entry of a table has one after it in the table of that name. -/
def Db.GrowsTo (R : ClockEntry → ClockEntry → Prop) (db db' : Db) : Prop :=
  ∀ tbl t, db.findTable tbl = some t →
    ∃ t', db'.findTable tbl = some t' ∧ ClockGrows R t.clock t'.clock

/-- What grows twice grows. -/
theorem Db.GrowsTo.trans {R : ClockEntry → ClockEntry → Prop}
    (hR : ∀ e e' e'', R e e' → R e' e'' → R e e'') {db db' db'' : Db}
    (h : db.GrowsTo R db') (h' : db'.GrowsTo R db'') : db.GrowsTo R db'' := by
  intro tbl t ht
  obtain ⟨t', ht', hgrows⟩ := h tbl t ht
  obtain ⟨t'', ht'', hgrows'⟩ := h' tbl t' ht'
  refine ⟨t'', ht'', fun e he => ?_⟩
  obtain ⟨e', he', hee'⟩ := hgrows e he
  obtain ⟨e'', he'', hee''⟩ := hgrows' e' he'
  exact ⟨e'', he'', hR e e' e'' hee' hee''⟩

/-- Without a change of tables nothing falls. -/
theorem Db.GrowsTo.of_tables {R : ClockEntry → ClockEntry → Prop} (hR : ∀ e, R e e) {db db' : Db}
    (h : db'.tables = db.tables) : db.GrowsTo R db' := by
  intro tbl t ht
  refine ⟨t, ?_, fun e he => ⟨e, he, hR e⟩⟩
  rw [Db.findTable, h]
  exact ht

/-- The steps under which clocks grow: a statement runs while the db versions can grow, and
a change that is merged as a key alone brings no lower version. -/
def StepGrows [Sqlite] (s : Session) : Op → Prop
  | .stmt st => (Op.stmt st).Int64 ∧ s.current.getDbVersion < maxInt64 ∧
      match st with
      | .write _ _ => True
      | .merge ch => ∀ t ∈ s.current.findTable ch.tbl, KeyOnlyAdvances t ch
  | .commit => True
  | .rollback => True

instance (op : Op) : Decidable op.Int64 :=
  match op with
  | .stmt (.merge ch) => inferInstanceAs (Decidable ch.Int64)
  | .stmt (.write _ _) => inferInstanceAs (Decidable True)
  | .commit => inferInstanceAs (Decidable True)
  | .rollback => inferInstanceAs (Decidable True)

instance [Sqlite] (s : Session) (op : Op) : Decidable (StepGrows s op) :=
  match op with
  | .stmt (.write tbl w) => inferInstanceAs (Decidable ((Op.stmt (.write tbl w)).Int64 ∧ _ ∧ True))
  | .stmt (.merge ch) =>
      inferInstanceAs (Decidable ((Op.stmt (.merge ch)).Int64 ∧ _ ∧
        ∀ t ∈ s.current.findTable ch.tbl, KeyOnlyAdvances t ch))
  | .commit => inferInstanceAs (Decidable True)
  | .rollback => inferInstanceAs (Decidable True)

/-- What holds of a state in which only steps under the condition were taken. -/
structure Db.Versioned (db : Db) : Prop where
  int64 : db.Int64
  unique : ∀ t ∈ db.tables, Keyed.Unique ClockEntry.ident t.clock
  pos : ∀ t ∈ db.tables, ∀ e ∈ t.clock, 0 < e.dbVersion
  names : (db.tables.map fun t => t.info.tblName).Nodup

/-- The largest version is not negative. -/
theorem Db.Versioned.maxDbVersion_nonneg {db : Db} (h : db.Versioned) : 0 ≤ db.maxDbVersion := by
  rcases maxDbVersion_cases db with h0 | ⟨t, ht, e, he, heq⟩
  · exact h0.ge
  · exact heq ▸ (h.pos t ht e he).le

/-- Other states with the same tables and no cached version. -/
theorem Db.Versioned.of_tables {db db' : Db} (h : db.Versioned) (htables : db'.tables = db.tables)
    (hcache : db'.dbVersion = -1) : db'.Versioned := by
  refine ⟨⟨by rw [hcache]; decide, ?_⟩, ?_, ?_, ?_⟩
  · rw [htables]
    exact h.int64.clock
  · rw [htables]
    exact h.unique
  · rw [htables]
    exact h.pos
  · rw [htables]
    exact h.names

/-- The invariant of a connection: the version is the one of the start of the transaction,
and every entry from there was kept or has a larger version. -/
structure Growing (s : Session) : Prop where
  start : s.start.Versioned
  current : s.current.Versioned
  cached : (s.current.dbVersion = -1 ∧ s.current.tables = s.start.tables) ∨
    s.current.dbVersion = s.start.maxDbVersion
  grows : s.start.GrowsTo ClockEntry.Before s.current

theorem Growing.begin {db : Db} (h : db.Versioned) (hcache : db.dbVersion = -1) :
    Growing ⟨db, db⟩ :=
  ⟨h, h, Or.inl ⟨hcache, rfl⟩, .of_tables (fun _ => Or.inl rfl) rfl⟩

/-- In a transaction the db version is the largest one stored at its start. -/
theorem Growing.getDbVersion_eq {s : Session} (h : Growing s) :
    s.current.getDbVersion = s.start.maxDbVersion := by
  have hnonneg := h.start.maxDbVersion_nonneg
  rcases h.cached with ⟨hcache, htables⟩ | hcache
  · rw [Db.getDbVersion, if_neg (not_not_intro hcache), maxDbVersion_congr htables]
  · rw [Db.getDbVersion, hcache, if_pos (by omega)]

section Steps

variable [Sqlite] {s : Session}

/-- What one statement does to the entries of all tables. -/
theorem raises_exec {db : Db} {st : Stmt} (hdb : db.Versioned)
    (hs : ∀ ch, st = .merge ch → ∀ t ∈ db.findTable ch.tbl, KeyOnlyAdvances t ch) :
    db.GrowsTo (ClockEntry.RaisedTo db.nextDbVersion) (db.exec st) := by
  rcases exec_cases db st with ⟨htables, -⟩ | ⟨t, t', ht, hstep, htables, -⟩
  · exact .of_tables (fun _ => Or.inl rfl) htables
  have hmem := findTable_mem ht
  have hraises := hstep.raises (hdb.unique t hmem) (hdb.int64.clock t hmem)
    fun ch hch => hs ch hch t (by rw [hch] at ht; exact ht)
  have hname : t'.info.tblName = st.tbl := by
    rw [← findTable_name ht, CrrTable.info, CrrTable.info, hstep.schema_eq]
  intro tbl u hu
  have hfind : (db.exec st).findTable tbl = (db.setTable t').findTable tbl := by
    rw [Db.findTable, htables]
    rfl
  rw [hfind, findTable_setTable ht hname]
  by_cases htbl : tbl = st.tbl
  · rw [htbl, ht, Option.some.injEq] at hu
    rw [if_pos htbl, ← hu]
    exact ⟨t', rfl, hraises⟩
  · rw [if_neg htbl]
    exact ⟨u, hu, fun e he => ⟨e, he, Or.inl rfl⟩⟩

/-- A statement that grows keeps the transaction growing: a local write raises what it logs, and a
merge what it wins. -/
theorem Growing.exec (h : Growing s) {st : Stmt} (hok : StepGrows s (.stmt st)) :
    Growing ⟨s.start, s.current.exec st⟩ := by
  obtain ⟨h64, hlt, hadvances⟩ := hok
  have hget := h.getDbVersion_eq
  have hnext : s.current.nextDbVersion = s.start.maxDbVersion + 1 := by
    rw [Db.nextDbVersion, if_neg hlt.ne, hget]
  have hnonneg := h.start.maxDbVersion_nonneg
  have hkeys (ch) (hch : st = .merge ch) : ∀ t ∈ s.current.findTable ch.tbl,
      KeyOnlyAdvances t ch := by
    subst hch
    exact hadvances
  have hraises := raises_exec h.current hkeys
  have hgrows : s.start.GrowsTo ClockEntry.Before (s.current.exec st) := by
    intro tbl t ht
    obtain ⟨t', ht', hbefore⟩ := h.grows tbl t ht
    obtain ⟨t'', ht'', hraised⟩ := hraises tbl t' ht'
    refine ⟨t'', ht'', fun e he => ?_⟩
    obtain ⟨e', he', hee'⟩ := hbefore e he
    obtain ⟨e'', he'', hee''⟩ := hraised e' he'
    have hle : e.dbVersion ≤ s.start.maxDbVersion := le_maxDbVersion (findTable_mem ht) he
    exact ⟨e'', he'', hee'.raised hee'' (by omega)⟩
  have hnames : ((s.current.exec st).tables.map fun t => t.info.tblName).Nodup := by
    rw [names_exec]
    exact h.current.names
  rcases exec_cases s.current st with ⟨htables, hcache⟩ | ⟨t, t', ht, hstep, htables, hcache⟩
  · refine ⟨h.start, ⟨h.current.int64.exec h64, ?_, ?_, hnames⟩, ?_, hgrows⟩
    · rw [htables]
      exact h.current.unique
    · rw [htables]
      exact h.current.pos
    · rw [hcache, htables]
      exact h.cached
  · have hmem := findTable_mem ht
    refine ⟨h.start, ⟨h.current.int64.exec h64, ?_, ?_, hnames⟩, Or.inr (hcache.trans hget),
      hgrows⟩
    · rw [htables]
      intro u hu
      rcases mem_setTable s.current hu with rfl | hu
      · exact hstep.unique_clock (h.current.unique t hmem)
      · exact h.current.unique u hu
    · rw [htables]
      intro u hu e he
      rcases mem_setTable s.current hu with rfl | hu
      · rcases hstep.clock_new e he with hold | ⟨hle, -⟩
        · exact h.current.pos t hmem e hold
        · omega
      · exact h.current.pos u hu e he

/-- Every step under the condition keeps the invariant. -/
theorem growing_step (h : Growing s) {op : Op} (hok : StepGrows s op) :
    Growing (s.step op) := by
  cases op with
  | stmt st => exact h.exec hok
  | commit =>
      exact .begin (h.current.of_tables (commit_tables s.current) (commit_dbVersion _))
        (commit_dbVersion _)
  | rollback => exact .begin (h.start.of_tables rfl rfl) rfl

/-- No step loses what was committed. -/
theorem Growing.start_grows (h : Growing s) {op : Op} (hok : StepGrows s op) :
    s.start.GrowsTo ClockEntry.Before (s.step op).start := by
  cases op with
  | stmt st => exact .of_tables (fun _ => Or.inl rfl) rfl
  | commit =>
      refine h.grows.trans (fun _ _ _ h h' => h.trans h') ?_
      exact .of_tables (fun _ => Or.inl rfl) (commit_tables s.current)
  | rollback => exact .of_tables (fun _ => Or.inl rfl) rfl

/-- No step but a rollback lowers a column version. -/
theorem Growing.current_follows (h : Growing s) {op : Op} (hok : StepGrows s op)
    (hop : op ≠ .rollback) : s.current.GrowsTo ClockEntry.Follows (s.step op).current := by
  cases op with
  | stmt st =>
      obtain ⟨-, -, hadvances⟩ := hok
      have hkeys (ch) (hch : st = .merge ch) : ∀ t ∈ s.current.findTable ch.tbl,
          KeyOnlyAdvances t ch := by
        subst hch
        exact hadvances
      have hraises := raises_exec h.current hkeys
      intro tbl t ht
      obtain ⟨t', ht', hraised⟩ := hraises tbl t ht
      refine ⟨t', ht', fun e he => ?_⟩
      obtain ⟨e', he', hee'⟩ := hraised e he
      exact ⟨e', he', hee'.follows⟩
  | commit => exact .of_tables (fun _ => .refl _) (commit_tables s.current)
  | rollback => exact absurd rfl hop

end Steps

/-! ## Runs -/

/-- A fresh database. -/
theorem Db.Fresh.growing {db : Db} (h : db.Fresh) : Growing ⟨db, db⟩ := by
  refine .begin ⟨h.int64, ?_, ?_, h.names⟩ h.cache
  · intro t ht
    rw [h.clock t ht]
    exact Keyed.Unique.nil
  · intro t ht e he
    rw [h.clock t ht] at he
    exact absurd he List.not_mem_nil

section Runs

variable [Sqlite] {s : Session} {ops : List Op}

/-- A run of steps that grow grows. -/
theorem Growing.run (h : Growing s) (hops : Run.Allowed Session.step StepGrows s ops) :
    Growing (Run.exec Session.step s ops) :=
  Run.invariant Growing (fun _ _ h hok => growing_step h hok) h hops

/-- A run loses nothing that was committed. -/
theorem Growing.run_start (h : Growing s) (hops : Run.Allowed Session.step StepGrows s ops) :
    s.start.GrowsTo ClockEntry.Before (Run.exec Session.step s ops).start := by
  induction ops generalizing s with
  | nil => exact .of_tables (fun _ => Or.inl rfl) rfl
  | cons op ops ih =>
      obtain ⟨hok, hops⟩ := hops
      exact (h.start_grows hok).trans (fun _ _ _ h h' => h.trans h')
        (ih (growing_step h hok) hops)

/-- A run without a rollback lowers no column version. -/
theorem Growing.run_current (h : Growing s) (hops : Run.Allowed Session.step StepGrows s ops)
    (hrollback : .rollback ∉ ops) :
    s.current.GrowsTo ClockEntry.Follows (Run.exec Session.step s ops).current := by
  induction ops generalizing s with
  | nil => exact .of_tables (fun _ => .refl _) rfl
  | cons op ops ih =>
      obtain ⟨hok, hops⟩ := hops
      rw [List.mem_cons, not_or] at hrollback
      obtain ⟨hop, hrest⟩ := hrollback
      exact (h.current_follows hok (Ne.symm hop)).trans (fun _ _ _ h h' => h.trans h')
        (ih (growing_step h hok) hops hrest)

/-- In every run from freshly tracked tables whose statements run while the db versions can
grow, whose merges are taken as they are written and whose key-only changes bring no lower
version, clocks never run backwards: an entry that was committed is there in every later
state, as it was or with a larger db version and no lower column version; and as long as
nothing is rolled back, the version of a column does not fall within a transaction
either. -/
theorem clocks_grow_run [Affinity] {db : Db} (hdb : db.Fresh) {xs ys : List Op}
    (hops : Run.Allowed Session.stepSql (fun s op => TakenAsWritten s op ∧ StepGrows s op)
      ⟨db, db⟩ (xs ++ ys)) :
    let s₁ := Run.exec Session.stepSql ⟨db, db⟩ xs
    let s₂ := Run.exec Session.stepSql s₁ ys
    s₁.start.GrowsTo ClockEntry.Before s₂.current ∧
      (.rollback ∉ ys → s₁.current.GrowsTo ClockEntry.Follows s₂.current) := by
  obtain ⟨hexec, hallowed⟩ := exec_stepSql hdb.names hops
  obtain ⟨hexec₁, -⟩ := exec_stepSql hdb.names (Run.allowed_append.mp hops).1
  rw [Run.exec_append, Run.exec_append, hexec₁] at hexec
  dsimp only
  rw [hexec₁, hexec]
  obtain ⟨hxs, hys⟩ := Run.allowed_append.mp hallowed
  have hmid := hdb.growing.run hxs
  refine ⟨?_, fun hrollback => hmid.run_current hys hrollback⟩
  exact (hmid.run_start hys).trans (fun _ _ _ h h' => h.trans h') (hmid.run hys).grows

end Runs

/-- A run with local writes, merges of each kind, commits and a rollback. -/
theorem clocks_grow_run_foo :
    let xs : List Op :=
      [.stmt (.write ['f', 'o', 'o'] (.insert (fooRow 1 2))),
        .stmt (.merge ⟨['f', 'o', 'o'], ['2'], pkoSentinel, none, 2, 5, [1]⟩), .commit]
    let ys : List Op :=
      [.stmt (.merge ⟨['f', 'o', 'o'], ['2'], pkoSentinel, none, 2, 5, [1]⟩), .rollback,
        .stmt (.write ['f', 'o', 'o'] (.update 0 (fooRow 1 3))), .commit,
        .stmt (.merge ⟨['f', 'o', 'o'], ['1'], delSentinel, none, 1, 6, [1]⟩)]
    let s₁ := @Run.exec _ _ (@Session.stepSql integralSqlite noAffinity) ⟨fooDb [2], fooDb [2]⟩ xs
    s₁.start.GrowsTo ClockEntry.Before
      (@Run.exec _ _ (@Session.stepSql integralSqlite noAffinity) s₁ ys).current :=
  (@clocks_grow_run integralSqlite noAffinity (fooDb [2]) (fooDb_fresh [2])
    [.stmt (.write ['f', 'o', 'o'] (.insert (fooRow 1 2))),
      .stmt (.merge ⟨['f', 'o', 'o'], ['2'], pkoSentinel, none, 2, 5, [1]⟩), .commit]
    [.stmt (.merge ⟨['f', 'o', 'o'], ['2'], pkoSentinel, none, 2, 5, [1]⟩), .rollback,
      .stmt (.write ['f', 'o', 'o'] (.update 0 (fooRow 1 3))), .commit,
      .stmt (.merge ⟨['f', 'o', 'o'], ['1'], delSentinel, none, 1, 6, [1]⟩)] (by decide)).1

/-- Without the condition clocks run backwards: a key-only change with an older version
replaces the entry of a newer one. -/
theorem keyOnly_lowers_version :
    ¬ ∀ (db : Db) (xs ys : List Op), db.Fresh →
      (∀ ch, Op.stmt (.merge ch) ∈ xs ++ ys → ch.Int64 ∧ ch.colVersion < maxInt64 ∧
        ch.dbVersion < maxInt64) →
      (@Run.exec _ _ (@Session.stepSql integralSqlite noAffinity)
        ⟨db, db⟩ xs).start.GrowsTo ClockEntry.Before
        (@Run.exec _ _ (@Session.stepSql integralSqlite noAffinity)
          ⟨db, db⟩ (xs ++ ys)).current := by
  intro h
  have hgrows := h (fooDb [2])
    [.stmt (.merge ⟨['f', 'o', 'o'], ['1'], pkoSentinel, none, 5, 1, [1]⟩), .commit]
    [.stmt (.merge ⟨['f', 'o', 'o'], ['1'], pkoSentinel, none, 3, 1, [1]⟩)] (fooDb_fresh [2])
    (by
      intro ch hch
      simp only [List.cons_append, List.nil_append, List.mem_cons, Op.stmt.injEq,
        Stmt.merge.injEq, reduceCtorEq, List.not_mem_nil, or_false, false_or] at hch
      rcases hch with rfl | rfl <;> decide)
  obtain ⟨t', ht', hclock⟩ := hgrows ['f', 'o', 'o'] _ rfl
  obtain rfl := Option.some.inj ht'
  obtain ⟨e', he', hbefore⟩ := hclock _ (List.mem_singleton.mpr rfl)
  have hfollows := hbefore.follows.colVersion
  rw [List.mem_singleton.mp he'] at hfollows
  exact absurd hfollows (by decide)

end CrSqlite
