import CrSqlite.Database
import Mathlib.Data.List.MinMax
import Mathlib.Data.List.Nodup

/-!
# Versions - what a transaction does to db versions

The db version of a transaction is one more than the largest stored version, and
everything the transaction writes to a clock table carries it or a larger
received one.

Main results:

- Theorem {lit}`TableStep.clock_new`: an entry after a statement is an old one or
  carries at least the version of the transaction.
- Theorem {lit}`inTransaction_exec`: what one statement keeps.
- Theorem {lit}`transact_entries`: an entry after a committed transaction is an
  old one or lies above every version stored before.
-/

namespace CrSqlite

/-! ## Entries around one statement -/

/-- Every entry of the new clock table is one of the old table or stamped with at
least the given version and no empty site id. -/
def StampedAbove (next : Int) (clock clock' : List ClockEntry) : Prop :=
  ∀ e ∈ clock', e ∈ clock ∨ (next ≤ e.dbVersion ∧ e.siteId ≠ some [])

/-- No entry is lost but to one stamped with at least the given version. -/
def KeptBelow (next : Int) (clock clock' : List ClockEntry) : Prop :=
  ∀ e ∈ clock, e ∈ clock' ∨ ∃ f ∈ clock', next ≤ f.dbVersion

/-- What a trigger logs carries the next version. -/
private theorem stampedAbove_logChanges (syncBit : Bool) (next : Int) (key : Key)
    (cols : List Text) (clock : List ClockEntry) :
    StampedAbove next clock (logChanges syncBit next key cols clock) := by
  intro e he
  rcases mem_logChanges he with h | h
  · exact Or.inl h
  · exact Or.inr ⟨h.1.ge, by simp [h.2.1]⟩

/-- To log a column leaves the entries below the next version. -/
private theorem keptBelow_logChange (syncBit : Bool) (next : Int) (key : Key) (col : Text)
    (clock : List ClockEntry) :
    KeptBelow next clock (logChange syncBit next key clock col) := by
  intro e he
  unfold logChange
  split
  · exact Or.inl he
  · rcases Keyed.mem_upsert_or ClockEntry.ident (f := ClockEntry.bump next)
      (a := ⟨key, col, 1, next, none⟩) he with h | ⟨-, h⟩
    · exact Or.inl h
    · exact Or.inr ⟨_, h, le_rfl⟩

/-- What is kept twice is kept. -/
private theorem KeptBelow.trans {next : Int} {a b c : List ClockEntry}
    (hab : KeptBelow next a b) (hbc : KeptBelow next b c) : KeptBelow next a c := by
  have hkept : ∀ f ∈ b, next ≤ f.dbVersion → ∃ g ∈ c, next ≤ g.dbVersion := by
    intro f hf hle
    rcases hbc f hf with h | h
    · exact ⟨f, h, hle⟩
    · exact h
  intro e he
  rcases hab e he with h | ⟨f, hf, hle⟩
  · exact hbc e h
  · exact Or.inr (hkept f hf hle)

/-- To log columns leaves the entries below the next version. -/
private theorem keptBelow_logChanges (syncBit : Bool) (next : Int) (key : Key)
    (cols : List Text) (clock : List ClockEntry) :
    KeptBelow next clock (logChanges syncBit next key cols clock) := by
  induction cols generalizing clock with
  | nil => exact fun e he => Or.inl he
  | cons c cs ih => exact (keptBelow_logChange syncBit next key c clock).trans (ih _)

/-- So does an entry that is put with the next version or a larger one. -/
theorem keptBelow_put (next : Int) {new : ClockEntry} (hnew : next ≤ new.dbVersion)
    (clock : List ClockEntry) : KeptBelow next clock (Keyed.put ClockEntry.ident new clock) := by
  intro e he
  by_cases hconf : Keyed.Conflicts ClockEntry.ident new e
  · exact Or.inr ⟨new, Keyed.mem_put.mpr (Or.inl rfl), hnew⟩
  · exact Or.inl (Keyed.mem_put.mpr (Or.inr ⟨he, hconf⟩))

/-- No empty site is stored. -/
theorem bindSiteId_ne_empty (siteId : Blob) : bindSiteId siteId ≠ some [] := by
  unfold bindSiteId
  split
  · simp
  · simpa using ‹_›

section Step

variable {next : Int}

/-- A local write leaves the clock table or logs columns of one key. -/
theorem clock_of_write {w : LocalWrite} {t t' : CrrTable}
    (h : localWrite next t w = some t') :
    t'.clock = t.clock ∨ ∃ key cols, t'.clock = logChanges false next key cols t.clock := by
  cases w with
  | insert r =>
      simp only [localWrite, insertRow] at h
      split at h
      · rw [← Option.some.inj h, insertTrigger]
        split
        · exact Or.inl rfl
        · exact Or.inr ⟨_, _, rfl⟩
      · simp at h
  | update i r =>
      simp only [localWrite, updateRow] at h
      split at h
      · exact Or.inl (by rw [Option.some.inj h])
      · split at h
        · rw [← Option.some.inj h]
          exact Or.inr ⟨_, _, rfl⟩
        · simp at h
  | delete i =>
      simp only [localWrite, deleteRow, Option.some.injEq] at h
      rw [← h]
      split
      · exact Or.inl rfl
      · exact Or.inr ⟨_, _, rfl⟩

variable [Sqlite]

/-- A statement leaves the clock table alone, logs, or puts one entry. -/
theorem clock_of_step {s : Stmt} {t t' : CrrTable} (h : TableStep next s t t') :
    t'.clock = t.clock ∨ (∃ key cols, t'.clock = logChanges false next key cols t.clock) ∨
      ∃ new : ClockEntry, next ≤ new.dbVersion ∧ new.siteId ≠ some [] ∧
        t'.clock = Keyed.put ClockEntry.ident new t.clock := by
  cases h with
  | write h =>
      rcases clock_of_write h with h | h
      · exact Or.inl h
      · exact Or.inr (Or.inl h)
  | merge h =>
      rcases mergeTable_cases h with rfl | ⟨key, parts, wheres, -, -, -, -, -, -, hm⟩
      · exact Or.inl rfl
      · obtain ⟨col, -, hclock⟩ := hm.clock_eq
        exact Or.inr (Or.inr ⟨_, le_max_left _ _, bindSiteId_ne_empty _, hclock⟩)

/-- After a statement every entry is an old one or carries at least the version
of the transaction and no empty site id. -/
theorem TableStep.clock_new {s : Stmt} {t t' : CrrTable} (h : TableStep next s t t') :
    StampedAbove next t.clock t'.clock := by
  rcases clock_of_step h with h | ⟨key, cols, h⟩ | ⟨new, hnew, hsite, h⟩
  · rw [h]
    exact fun e he => Or.inl he
  · rw [h]
    exact stampedAbove_logChanges false next key cols t.clock
  · rw [h]
    intro e he
    rcases Keyed.mem_put.mp he with rfl | ⟨he, -⟩
    · exact Or.inr ⟨hnew, hsite⟩
    · exact Or.inl he

/-- No statement loses an entry but to one with at least the version of the
transaction. -/
theorem TableStep.clock_old {s : Stmt} {t t' : CrrTable} (h : TableStep next s t t') :
    KeptBelow next t.clock t'.clock := by
  rcases clock_of_step h with h | ⟨key, cols, h⟩ | ⟨new, hnew, hsite, h⟩
  · rw [h]
    exact fun e he => Or.inl he
  · rw [h]
    exact keptBelow_logChanges false next key cols t.clock
  · rw [h]
    exact keptBelow_put next hnew t.clock

end Step

/-! ## The largest stored version -/

/-- The stored versions are those of the entries. -/
theorem mem_storedVersions {db : Db} {v : Int} :
    v ∈ db.storedVersions ↔ ∃ t ∈ db.tables, ∃ e ∈ t.clock, e.dbVersion = v := by
  simp [Db.storedVersions]

/-- No entry is above the largest version. -/
theorem le_maxDbVersion {db : Db} {t : CrrTable} (ht : t ∈ db.tables) {e : ClockEntry}
    (he : e ∈ t.clock) : e.dbVersion ≤ db.maxDbVersion := by
  have hmem : e.dbVersion ∈ db.storedVersions := mem_storedVersions.mpr ⟨t, ht, e, he, rfl⟩
  cases hmax : db.storedVersions.max? with
  | none => simp [List.max?_eq_none_iff.mp hmax] at hmem
  | some m =>
      rw [Db.maxDbVersion, hmax, Option.getD_some]
      exact (List.max?_eq_some_iff.mp hmax).2 _ hmem

theorem maxDbVersion_congr {db db' : Db} (h : db.tables = db'.tables) :
    db.maxDbVersion = db'.maxDbVersion := by
  rw [Db.maxDbVersion, Db.maxDbVersion, Db.storedVersions, Db.storedVersions, h]

/-- The largest version is 0 or that of an entry. -/
theorem maxDbVersion_cases (db : Db) :
    db.maxDbVersion = 0 ∨ ∃ t ∈ db.tables, ∃ e ∈ t.clock, e.dbVersion = db.maxDbVersion := by
  cases hmax : db.storedVersions.max? with
  | none => exact Or.inl (by rw [Db.maxDbVersion, hmax, Option.getD_none])
  | some m =>
      rw [Db.maxDbVersion, hmax, Option.getD_some]
      exact Or.inr (mem_storedVersions.mp (List.max?_eq_some_iff.mp hmax).1)

/-! ## Committed states -/

/-- Every stored version is below the largest integer. -/
def Db.BelowMax (db : Db) : Prop :=
  ∀ t ∈ db.tables, ∀ e ∈ t.clock, e.dbVersion < maxInt64

instance (db : Db) : Decidable db.BelowMax :=
  inferInstanceAs (Decidable (∀ t ∈ db.tables, ∀ e ∈ t.clock, _))

/-- A state between two transactions: nothing is cached, tables have different
names, stored versions are positive and below the largest integer, and an empty
site id is stored as NULL. -/
structure Db.Committed (db : Db) : Prop where
  cache : db.dbVersion = -1
  names : (db.tables.map fun t => t.info.tblName).Nodup
  pos : ∀ t ∈ db.tables, ∀ e ∈ t.clock, 0 < e.dbVersion
  below : db.BelowMax
  sites : ∀ t ∈ db.tables, ∀ e ∈ t.clock, e.siteId ≠ some []

instance (db : Db) : Decidable db.Committed :=
  decidable_of_iff
    (db.dbVersion = -1 ∧ (db.tables.map fun t => t.info.tblName).Nodup ∧
      (∀ t ∈ db.tables, ∀ e ∈ t.clock, 0 < e.dbVersion) ∧ db.BelowMax ∧
      ∀ t ∈ db.tables, ∀ e ∈ t.clock, e.siteId ≠ some [])
    ⟨fun ⟨cache, names, pos, below, sites⟩ => ⟨cache, names, pos, below, sites⟩,
      fun h => ⟨h.cache, h.names, h.pos, h.below, h.sites⟩⟩

/-- The largest version is not negative. -/
theorem Db.Committed.maxDbVersion_nonneg {db : Db} (h : db.Committed) : 0 ≤ db.maxDbVersion := by
  rcases maxDbVersion_cases db with h0 | ⟨t, ht, e, he, heq⟩
  · exact h0.ge
  · exact heq ▸ (h.pos t ht e he).le

/-- The largest version is not the last one of 64 bits. -/
theorem Db.Committed.maxDbVersion_lt {db : Db} (h : db.Committed) :
    db.maxDbVersion < maxInt64 := by
  rcases maxDbVersion_cases db with h0 | ⟨t, ht, e, he, heq⟩
  · rw [h0]
    decide
  · exact heq ▸ h.below t ht e he

/-! ## Inside a transaction -/

/-- What holds inside a transaction that began in the state `start`: the version
is taken from there, and whatever is not an old entry lies above it. -/
structure InTransaction (start db : Db) : Prop where
  cached : (db.dbVersion = -1 ∧ db.maxDbVersion = start.maxDbVersion) ∨
    db.dbVersion = start.maxDbVersion
  schemas : db.tables.map CrrTable.schema = start.tables.map CrrTable.schema
  fresh : ∀ t ∈ db.tables, ∀ e ∈ t.clock,
    (∃ u ∈ start.tables, u.schema = t.schema ∧ e ∈ u.clock) ∨
      (start.maxDbVersion < e.dbVersion ∧ e.siteId ≠ some [])
  max : start.maxDbVersion = 0 ∨
    ∃ t ∈ db.tables, ∃ e ∈ t.clock, start.maxDbVersion ≤ e.dbVersion

/-- A transaction that has done nothing. -/
theorem InTransaction.refl {db : Db} (h : db.Committed) : InTransaction db db := by
  refine ⟨Or.inl ⟨h.cache, rfl⟩, rfl, fun t ht e he => Or.inl ⟨t, ht, rfl, he⟩, ?_⟩
  rcases maxDbVersion_cases db with h0 | ⟨t, ht, e, he, heq⟩
  · exact Or.inl h0
  · exact Or.inr ⟨t, ht, e, he, heq.ge⟩

/-- Inside a transaction the version is the largest one stored at its start. -/
theorem InTransaction.getDbVersion_eq {start db : Db} (hstart : start.Committed)
    (h : InTransaction start db) : db.getDbVersion = start.maxDbVersion := by
  have hnonneg := hstart.maxDbVersion_nonneg
  rcases h.cached with ⟨hcache, hmax⟩ | hcache
  · rw [Db.getDbVersion, if_neg (not_not_intro hcache), hmax]
  · rw [Db.getDbVersion, hcache, if_pos (by omega)]

/-- In a transaction the next version is the one behind those stored at its start. -/
theorem InTransaction.nextDbVersion_eq {start db : Db} (hstart : start.Committed)
    (h : InTransaction start db) : db.nextDbVersion = start.maxDbVersion + 1 := by
  rw [Db.nextDbVersion, h.getDbVersion_eq hstart, if_neg (ne_of_lt hstart.maxDbVersion_lt)]

/-- The names of tables are in their declarations. -/
private theorem map_name_eq (ts : List CrrTable) :
    (ts.map fun t => t.info.tblName) = (ts.map CrrTable.schema).map fun s => s.info.tblName := by
  rw [List.map_map]
  rfl

/-- A table that is set is there. -/
private theorem mem_setTable_self {db : Db} {t t' : CrrTable} (ht : t ∈ db.tables)
    (hname : t'.info.tblName = t.info.tblName) : t' ∈ (db.setTable t').tables := by
  rw [setTable_tables, List.mem_map]
  exact ⟨t, ht, if_pos hname.symm⟩

/-- The tables of other names stay. -/
private theorem mem_setTable_of_ne {db : Db} {u t' : CrrTable} (hu : u ∈ db.tables)
    (hname : u.info.tblName ≠ t'.info.tblName) : u ∈ (db.setTable t').tables := by
  rw [setTable_tables, List.mem_map]
  exact ⟨u, hu, if_neg hname⟩

/-- To set a table keeps the declarations. -/
private theorem map_schema_setTable {db : Db} {t t' : CrrTable} (ht : t ∈ db.tables)
    (hnames : (db.tables.map fun t => t.info.tblName).Nodup) (hschema : t'.schema = t.schema) :
    (db.setTable t').tables.map CrrTable.schema = db.tables.map CrrTable.schema := by
  rw [setTable_tables, List.map_map]
  apply List.map_congr_left
  intro u hu
  by_cases hname : u.info.tblName = t'.info.tblName
  · have hut : u = t := List.inj_on_of_nodup_map hnames hu ht
      (hname.trans (by rw [CrrTable.info, CrrTable.info, hschema]))
    simp [hut, CrrTable.info, hschema]
  · simp [hname]

/-- A statement that leaves the tables alone keeps what holds inside its transaction. -/
theorem InTransaction.of_tables {start db db' : Db} (h : InTransaction start db)
    (htables : db'.tables = db.tables) (hcache : db'.dbVersion = db.dbVersion) :
    InTransaction start db' := by
  refine ⟨?_, by rw [htables]; exact h.schemas, by rw [htables]; exact h.fresh,
    by rw [htables]; exact h.max⟩
  rw [hcache, maxDbVersion_congr htables]
  exact h.cached

/-- So does one that replaces a table by another with the same declaration, whose new
entries carry at least the version of the transaction.  Without new entries the version
need not be cached. -/
theorem InTransaction.setTable {start db db' : Db} (hstart : start.Committed)
    (h : InTransaction start db) {t t' : CrrTable} (ht : t ∈ db.tables)
    (hschema : t'.schema = t.schema)
    (hnew : StampedAbove db.nextDbVersion t.clock t'.clock)
    (hold : KeptBelow db.nextDbVersion t.clock t'.clock)
    (htables : db'.tables = (db.setTable t').tables)
    (hcache : db'.dbVersion = db.getDbVersion ∨
      (t'.clock = t.clock ∧ db'.dbVersion = db.dbVersion)) : InTransaction start db' := by
  have hnames : (db.tables.map fun t => t.info.tblName).Nodup := by
    rw [map_name_eq, h.schemas, ← map_name_eq]
    exact hstart.names
  have hnext := h.nextDbVersion_eq hstart
  rw [hnext] at hnew hold
  have hname : t'.info.tblName = t.info.tblName := by
    rw [CrrTable.info, CrrTable.info, hschema]
  refine ⟨?_, ?_, ?_, ?_⟩
  · rcases hcache with hcache | ⟨hclock, hcache⟩
    · exact Or.inr (hcache.trans (h.getDbVersion_eq hstart))
    · have hversions : db'.storedVersions = db.storedVersions := by
        unfold Db.storedVersions
        rw [htables, setTable_tables, List.flatMap_map]
        refine List.flatMap_congr fun u hu => ?_
        split_ifs with heq
        · rw [hclock, List.inj_on_of_nodup_map hnames hu ht (heq.trans hname)]
        · rfl
      rw [hcache, Db.maxDbVersion, hversions]
      exact h.cached
  · rw [htables, map_schema_setTable ht hnames hschema]
    exact h.schemas
  · intro u hu e he
    rcases mem_setTable db (htables ▸ hu) with rfl | hu
    · rcases hnew e he with hold | hnew
      · rw [hschema]
        exact h.fresh t ht e hold
      · exact Or.inr ⟨by omega, hnew.2⟩
    · exact h.fresh u hu e he
  · rcases h.max with h0 | ⟨u, hu, e, he, hle⟩
    · exact Or.inl h0
    · rw [htables]
      by_cases hut : u.info.tblName = t'.info.tblName
      · have heq : u = t := List.inj_on_of_nodup_map hnames hu ht (hut.trans hname)
        subst heq
        rcases hold e he with hkeep | ⟨f, hf, hfle⟩
        · exact Or.inr ⟨t', mem_setTable_self hu hname, e, hkeep, hle⟩
        · exact Or.inr ⟨t', mem_setTable_self hu hname, f, hf, by omega⟩
      · exact Or.inr ⟨u, mem_setTable_of_ne hu hut, e, he, hle⟩

/-- Every statement keeps what holds inside its transaction. -/
theorem inTransaction_exec [Sqlite] {start db : Db} (hstart : start.Committed)
    (h : InTransaction start db) (s : Stmt) : InTransaction start (db.exec s) := by
  rcases exec_cases db s with ⟨htables, hcache⟩ | ⟨t, t', ht, hstep, htables, hcache⟩
  · exact h.of_tables htables hcache
  · exact h.setTable hstart (findTable_mem ht) hstep.schema_eq hstep.clock_new hstep.clock_old
      htables (Or.inl hcache)

/-- The statements of a transaction, one after the other. -/
theorem inTransaction_foldl [Sqlite] {start db : Db} (hstart : start.Committed)
    (h : InTransaction start db) (stmts : List Stmt) :
    InTransaction start (stmts.foldl Db.exec db) := by
  induction stmts generalizing db with
  | nil => exact h
  | cons s stmts ih => exact ih (inTransaction_exec hstart h s)

/-! ## At the end of a transaction -/

/-- The largest stored version does not fall. -/
theorem InTransaction.maxDbVersion_le {start db : Db} (hstart : start.Committed)
    (h : InTransaction start db) : start.maxDbVersion ≤ db.maxDbVersion := by
  rcases h.max with h0 | ⟨t, ht, e, he, hle⟩
  · rw [h0]
    rcases maxDbVersion_cases db with hz | ⟨t, ht, e, he, heq⟩
    · exact hz.ge
    · rcases h.fresh t ht e he with ⟨u, hu, -, heu⟩ | ⟨hlt, -⟩
      · exact heq ▸ (hstart.pos u hu e heu).le
      · omega
  · exact hle.trans (le_maxDbVersion ht he)

/-- A commit whose versions stay below the largest integer leads to a committed
state. -/
theorem InTransaction.committed_commit {start db : Db} (hstart : start.Committed)
    (h : InTransaction start db) (hbelow : db.commit.BelowMax) : db.commit.Committed := by
  refine ⟨?_, ?_, ?_, hbelow, ?_⟩
  · unfold Db.commit
    split <;> rfl
  · rw [map_name_eq, commit_tables, h.schemas, ← map_name_eq]
    exact hstart.names
  · intro t ht e he
    rw [commit_tables] at ht
    rcases h.fresh t ht e he with ⟨u, hu, -, heu⟩ | ⟨hlt, -⟩
    · exact hstart.pos u hu e heu
    · exact hstart.maxDbVersion_nonneg.trans_lt hlt
  · intro t ht e he
    rw [commit_tables] at ht
    rcases h.fresh t ht e he with ⟨u, hu, -, heu⟩ | ⟨-, hsite⟩
    · exact hstart.sites u hu e heu
    · exact hsite

/-- A rollback leads to a committed state. -/
theorem committed_rollback {start : Db} (hstart : start.Committed) (db : Db) :
    (Db.rollback start db).Committed :=
  ⟨rfl, hstart.names, hstart.pos, hstart.below, hstart.sites⟩

/-! ## Around a committed transaction -/

section Transact

variable [Sqlite] {db : Db} (h : db.Committed) (stmts : List Stmt)

@[simp]
theorem transact_tables :
    (db.transact stmts).tables = (stmts.foldl Db.exec db).tables :=
  commit_tables _

include h

/-- A transaction keeps the declarations. -/
theorem transact_schemas :
    (db.transact stmts).tables.map CrrTable.schema = db.tables.map CrrTable.schema := by
  rw [transact_tables]
  exact (inTransaction_foldl h (.refl h) stmts).schemas

/-- After a committed transaction every entry is an old one or lies above every
version stored before. -/
theorem transact_entries {t : CrrTable} (ht : t ∈ (db.transact stmts).tables)
    {e : ClockEntry} (he : e ∈ t.clock) :
    (∃ u ∈ db.tables, u.schema = t.schema ∧ e ∈ u.clock) ∨
      (db.maxDbVersion < e.dbVersion ∧ e.siteId ≠ some []) := by
  rw [transact_tables] at ht
  exact (inTransaction_foldl h (.refl h) stmts).fresh t ht e he

/-- The largest stored version does not fall. -/
theorem maxDbVersion_le_transact : db.maxDbVersion ≤ (db.transact stmts).maxDbVersion := by
  rw [maxDbVersion_congr (transact_tables stmts)]
  exact (inTransaction_foldl h (.refl h) stmts).maxDbVersion_le h

/-- A committed transaction whose versions stay below the largest integer leads
to a committed state. -/
theorem committed_transact (hbelow : (db.transact stmts).BelowMax) :
    (db.transact stmts).Committed :=
  (inTransaction_foldl h (.refl h) stmts).committed_commit h hbelow

end Transact

end CrSqlite
