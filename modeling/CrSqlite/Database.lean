import CrSqlite.Merge
import CrSqlite.SeenPeers
import CrSqlite.Library.Run

/-!
# Database - a replica as one connection sees it

All CRR tables of a database with the state the extension keeps for the
connection: the cached db version, the peers seen in the transaction and whether
the transaction wrote to `crsql_changes`.  The caches of table descriptions are
the subject of a module of their own; here they are up to date.

Main results:

- Theorem {lit}`exec_cases`: a statement leaves the tables alone or replaces one
  by what a table-level operation made of it.
- Theorem {lit}`Session.tables_invariant`: a property of tables that every
  allowed statement keeps holds in every state a connection reaches.
-/

namespace CrSqlite

/-! ## The state -/

/-- A replica.  The cached version is -1 when there is none. -/
structure Db where
  siteId : Blob
  tables : List CrrTable
  trackedPeers : List TrackedPeer
  dbVersion : Int
  seenPeers : SeenPeers
  changesWritten : Bool

namespace Db

/-- `crsql_findTableInfo`, with the tables that the description belongs to. -/
def findTable (db : Db) (tblName : Text) : Option CrrTable :=
  db.tables.find? fun t => t.info.tblName = tblName

/-- Replace a table by what a statement made of it. -/
def setTable (db : Db) (t : CrrTable) : Db :=
  { db with tables := db.tables.map fun u => if u.info.tblName = t.info.tblName then t else u }

/-- All db versions stored in the clock tables. -/
def storedVersions (db : Db) : List Int :=
  db.tables.flatMap fun t => t.clock.map ClockEntry.dbVersion

/-- The query of `crsql_getDbVersionUnionQuery`: the largest stored version, 0
when there is none. -/
def maxDbVersion (db : Db) : Int :=
  (db.storedVersions.max?).getD 0

/-- `crsql_getDbVersion` without faults: the cached version or the stored one. -/
def getDbVersion (db : Db) : Int :=
  if db.dbVersion ≠ -1 then db.dbVersion else db.maxDbVersion

/-- `nextDbVersionFunc`; the 64-bit addition wraps around. -/
def nextDbVersion (db : Db) : Int :=
  if db.getDbVersion = maxInt64 then minInt64 else db.getDbVersion + 1

/-- The state after `crsql_getDbVersion` filled the cache. -/
def cacheDbVersion (db : Db) : Db :=
  { db with dbVersion := db.getDbVersion }

end Db

/-- A replica with an empty table `foo`. -/
def fooDb (siteId : Blob) : Db :=
  ⟨siteId, [⟨fooSchema, [], []⟩], [], -1, newSeenPeers, false⟩

/-! ## Local statements -/

/-- A local statement on one row; rows are addressed by their position. -/
inductive LocalWrite where
  | insert (r : BaseRow)
  | update (i : Nat) (r : BaseRow)
  | delete (i : Nat)

/-- A local statement on a table, with the sync bit clear; none is a failed
constraint. -/
def localWrite (next : Int) (t : CrrTable) : LocalWrite → Option CrrTable
  | .insert r => insertRow false next r t
  | .update i r => updateRow false next i r t
  | .delete i => some (deleteRow false next i t)

/-- A local statement on the database.  A failing statement changes nothing. -/
def Db.write (db : Db) (tbl : Text) (w : LocalWrite) : Db :=
  match (db.findTable tbl).bind fun t => localWrite db.nextDbVersion t w with
  | none => db
  | some t' => db.cacheDbVersion.setTable t'

/-! ## Received changes -/

/-- `MAX_TBL_NAME_LEN`, for table and column names. -/
def maxTblNameLen : Nat := 2048

/-- `SITE_ID_LEN`. -/
def siteIdLen : Nat := 16

/-- `crsql_mergeInsert`: the state after it and its error message, none for
`SQLITE_OK`.  The peer is tracked before the change is looked at any further. -/
def Db.mergeInsert [Sqlite] (db : Db) (ch : Change) : Db × Option Text :=
  let db := { db with changesWritten := true }
  if maxTblNameLen < ch.tbl.length then
    (db, some (message "crsql - table name exceeded max length"))
  else if maxTblNameLen < ch.cid.length then
    (db, some (message "column name exceeded max length"))
  else if siteIdLen < ch.siteId.length then
    (db, some (message "crsql - site id exceeded max length"))
  else
    let db := { db with seenPeers := (trackSeenPeer true db.seenPeers ch.siteId ch.dbVersion).1 }
    match db.findTable ch.tbl with
    | none =>
        (db, some (message "crsql - could not find the schema information for table " ++ ch.tbl))
    | some t =>
        match mergeTable db.nextDbVersion ch t with
        | .error msg => (db, some msg)
        | .ok t' => (db.cacheDbVersion.setTable t', none)

/-! ## Transactions -/

/-- `commitHook` and `changesInsertCommit`: the cache is dropped; the seen peers
are written and reset if the transaction wrote to `crsql_changes`.  SQLite has committed
by then, so the file gets this write with the next commit only; for what a rollback before
it does to the peers see `History`. -/
def Db.commit (db : Db) : Db :=
  if db.changesWritten then
    { db with
      dbVersion := -1
      changesWritten := false
      trackedPeers := writeTrackedPeers db.seenPeers.peers db.trackedPeers
      seenPeers := resetSeenPeers db.seenPeers }
  else { db with dbVersion := -1 }

/-- `rollbackHook`: the stored state of the transaction's start is back and the
cache is dropped.  The virtual table has no `xRollback`, so the seen peers
stay. -/
def Db.rollback (start db : Db) : Db :=
  { start with
    dbVersion := -1
    changesWritten := false
    seenPeers := db.seenPeers }

/-- A statement of a transaction. -/
inductive Stmt where
  | write (tbl : Text) (w : LocalWrite)
  | merge (ch : Change)

/-- A statement's effect; a merge that fails is skipped by the user. -/
def Db.exec [Sqlite] (db : Db) : Stmt → Db
  | .write tbl w => db.write tbl w
  | .merge ch => (db.mergeInsert ch).1

/-- A committed transaction. -/
def Db.transact [Sqlite] (db : Db) (stmts : List Stmt) : Db :=
  (stmts.foldl Db.exec db).commit

/-! ## Lookups of tables -/

@[simp]
theorem setTable_tables (db : Db) (t : CrrTable) :
    (db.setTable t).tables =
      db.tables.map fun u => if u.info.tblName = t.info.tblName then t else u :=
  rfl

theorem findTable_mem {db : Db} {tbl : Text} {t : CrrTable}
    (h : db.findTable tbl = some t) : t ∈ db.tables :=
  List.mem_of_find?_eq_some h

/-- A table that is found has the name. -/
theorem findTable_name {db : Db} {tbl : Text} {t : CrrTable} (h : db.findTable tbl = some t) :
    t.info.tblName = tbl := by
  simpa using List.find?_some h

/-- Of tables with different names each is found under its own. -/
theorem findTable_of_mem {db : Db} (hnames : (db.tables.map fun t => t.info.tblName).Nodup)
    {t : CrrTable} (ht : t ∈ db.tables) : db.findTable t.info.tblName = some t := by
  unfold Db.findTable
  generalize db.tables = ts at hnames ht
  induction ts with
  | nil => simp at ht
  | cons u us ih =>
      rw [List.map_cons, List.nodup_cons] at hnames
      rcases List.mem_cons.mp ht with rfl | ht'
      · simp
      · have hne : u.info.tblName ≠ t.info.tblName := fun h =>
          hnames.1 (h ▸ List.mem_map.mpr ⟨t, ht', rfl⟩)
        simpa [hne] using ih hnames.2 ht'

/-- After a table was replaced it is found under its name, and the other tables
are found as before. -/
theorem findTable_setTable {db : Db} {tbl : Text} {t t' : CrrTable}
    (h : db.findTable tbl = some t) (hname : t'.info.tblName = tbl) (name : Text) :
    (db.setTable t').findTable name =
      if name = tbl then some t' else db.findTable name := by
  unfold Db.findTable at h ⊢
  rw [setTable_tables]
  generalize db.tables = ts at h
  induction ts with
  | nil => simp at h
  | cons u ts ih =>
      by_cases hu : u.info.tblName = tbl
      · by_cases hn : name = tbl
        · simp [hname, hu, hn]
        · have hne : tbl ≠ name := Ne.symm hn
          have htail : ∀ us : List CrrTable,
              (us.map fun u => if u.info.tblName = t'.info.tblName then t' else u).find?
                (fun u => u.info.tblName = name) =
              us.find? fun u => u.info.tblName = name := by
            intro us
            induction us with
            | nil => rfl
            | cons v us ihus =>
                by_cases hv : v.info.tblName = tbl
                · simp [hname, hv, hne, ← ihus]
                · by_cases hvn : v.info.tblName = name
                  · simp [hname, hvn, hn]
                  · simp [hname, hv, hvn, ← ihus]
          rw [htail, if_neg hn]
      · have h' : ts.find? (fun u => u.info.tblName = tbl) = some t := by
          simpa [hu] using h
        have hrec := ih h'
        by_cases hun : u.info.tblName = name
        · have hn : name ≠ tbl := fun h => hu (hun.trans h)
          simp [hname, hun, hn]
        · simpa [hname, hu, hun] using hrec

/-- The tables behind a change are the new one and the old ones. -/
theorem mem_setTable (db : Db) {t u : CrrTable} (h : u ∈ (db.setTable t).tables) :
    u = t ∨ u ∈ db.tables := by
  rw [setTable_tables, List.mem_map] at h
  obtain ⟨v, hv, rfl⟩ := h
  split
  · exact Or.inl rfl
  · exact Or.inr hv

/-! ## What a statement does to the tables -/

/-- The name of the table a statement works on. -/
def Stmt.tbl : Stmt → Text
  | .write tbl _ => tbl
  | .merge ch => ch.tbl

/-- A statement that succeeds on its table. -/
inductive TableStep [Sqlite] (next : Int) : Stmt → CrrTable → CrrTable → Prop
  | write {tbl : Text} {w : LocalWrite} {t t' : CrrTable}
      (h : localWrite next t w = some t') : TableStep next (.write tbl w) t t'
  | merge {ch : Change} {t t' : CrrTable} (h : mergeTable next ch t = .ok t') :
      TableStep next (.merge ch) t t'

/-- A local write does nothing, or changes the table that it names. -/
theorem write_cases [Sqlite] (db : Db) (tbl : Text) (w : LocalWrite) :
    db.write tbl w = db ∨ ∃ t t', db.findTable tbl = some t ∧
      localWrite db.nextDbVersion t w = some t' ∧
      db.write tbl w = db.cacheDbVersion.setTable t' := by
  unfold Db.write
  split
  · exact Or.inl rfl
  · rename_i t' h
    obtain ⟨t, ht, ht'⟩ := Option.bind_eq_some_iff.mp h
    exact Or.inr ⟨t, t', ht, ht', rfl⟩

/-- A merge that fails leaves the tables and the cached version alone; one that
succeeds replaces its table. -/
theorem mergeInsert_cases [Sqlite] (db : Db) (ch : Change) :
    ((db.mergeInsert ch).2 ≠ none ∧ (db.mergeInsert ch).1.tables = db.tables ∧
      (db.mergeInsert ch).1.dbVersion = db.dbVersion) ∨
    ∃ t t', db.findTable ch.tbl = some t ∧
      mergeTable db.nextDbVersion ch t = .ok t' ∧
      (db.mergeInsert ch).2 = none ∧
      (db.mergeInsert ch).1.tables = (db.setTable t').tables ∧
      (db.mergeInsert ch).1.dbVersion = db.getDbVersion := by
  unfold Db.mergeInsert
  simp only
  split_ifs
  · exact Or.inl ⟨by simp, rfl, rfl⟩
  · exact Or.inl ⟨by simp, rfl, rfl⟩
  · exact Or.inl ⟨by simp, rfl, rfl⟩
  · split
    · exact Or.inl ⟨by simp, rfl, rfl⟩
    · rename_i t ht
      split
      · exact Or.inl ⟨by simp, rfl, rfl⟩
      · rename_i t' ht'
        exact Or.inr ⟨t, t', ht, ht', rfl, rfl, rfl⟩

/-- A change within the limits that its table takes is merged without an
error. -/
theorem mergeInsert_of_ok [Sqlite] {db : Db} {ch : Change} {t t' : CrrTable}
    (htbl : ch.tbl.length ≤ maxTblNameLen) (hcid : ch.cid.length ≤ maxTblNameLen)
    (hsite : ch.siteId.length ≤ siteIdLen) (ht : db.findTable ch.tbl = some t)
    (h : mergeTable db.nextDbVersion ch t = .ok t') :
    (db.mergeInsert ch).2 = none ∧
      (db.mergeInsert ch).1.tables = (db.setTable t').tables ∧
      (db.mergeInsert ch).1.dbVersion = db.getDbVersion := by
  let db' : Db :=
    { db with
      changesWritten := true
      seenPeers := (trackSeenPeer true db.seenPeers ch.siteId ch.dbVersion).1 }
  have ht' : db'.findTable ch.tbl = some t := ht
  have h' : mergeTable db'.nextDbVersion ch t = .ok t' := h
  have heq : db.mergeInsert ch = (db'.cacheDbVersion.setTable t', none) := by
    simp only [Db.mergeInsert, Nat.not_lt.mpr htbl, Nat.not_lt.mpr hcid,
      Nat.not_lt.mpr hsite, if_false]
    simp only [db'] at ht' h'
    simp only [ht', h']
    rfl
  rw [heq]
  exact ⟨rfl, rfl, rfl⟩

/-- Every statement leaves the tables alone or replaces the one it works on. -/
theorem exec_cases [Sqlite] (db : Db) (s : Stmt) :
    ((db.exec s).tables = db.tables ∧ (db.exec s).dbVersion = db.dbVersion) ∨
    ∃ t t', db.findTable s.tbl = some t ∧ TableStep db.nextDbVersion s t t' ∧
      (db.exec s).tables = (db.setTable t').tables ∧
      (db.exec s).dbVersion = db.getDbVersion := by
  cases s with
  | write tbl w =>
      rcases write_cases db tbl w with h | ⟨t, t', ht, hw, h⟩
      · rw [Db.exec, h]
        exact Or.inl ⟨rfl, rfl⟩
      · rw [Db.exec, h]
        exact Or.inr ⟨t, t', ht, .write hw, rfl, rfl⟩
  | merge ch =>
      rcases mergeInsert_cases db ch with ⟨-, htables, hver⟩ | ⟨t, t', ht, hm, -, htables, hver⟩
      · exact Or.inl ⟨htables, hver⟩
      · exact Or.inr ⟨t, t', ht, .merge hm, htables, hver⟩

/-- No statement changes the site id. -/
@[simp]
theorem exec_siteId [Sqlite] (db : Db) (s : Stmt) : (db.exec s).siteId = db.siteId := by
  cases s with
  | write tbl w =>
      rcases write_cases db tbl w with h | ⟨t, t', -, -, h⟩
      · rw [Db.exec, h]
      · rw [Db.exec, h]
        rfl
  | merge ch =>
      simp only [Db.exec, Db.mergeInsert]
      split_ifs
      · rfl
      · rfl
      · rfl
      · split
        · rfl
        · split <;> rfl

/-- No statement changes the declaration of a table. -/
theorem TableStep.schema_eq [Sqlite] {next : Int} {s : Stmt} {t t' : CrrTable}
    (h : TableStep next s t t') : t'.schema = t.schema := by
  cases h with
  | write h =>
      rename_i w
      cases w with
      | insert r =>
          simp only [localWrite, insertRow] at h
          split at h
          · rw [← Option.some.inj h, insertTrigger]
            split <;> rfl
          · simp at h
      | update i r =>
          simp only [localWrite, updateRow] at h
          split at h
          · rw [← Option.some.inj h]
          · split at h
            · rw [← Option.some.inj h]
              rfl
            · simp at h
      | delete i =>
          simp only [localWrite, deleteRow, Option.some.injEq] at h
          rw [← h]
          split <;> rfl
  | merge h =>
      rcases mergeTable_cases h with rfl | ⟨key, parts, wheres, -, -, -, -, -, -, hm⟩
      · rfl
      · cases hm with
        | del => simp [mergeDelete, setWinnerClock, deleteWhere_eq]
        | pko =>
            simp only [mergePkOnlyInsert, setWinnerClock, insertOrIgnore_eq]
            split <;> rfl
        | column _ _ _ _ _ _ _ hupsert =>
            rw [upsertColumn_eq_some hupsert]
            rfl

/-! ## The names of the tables -/

/-- To set a table keeps the names. -/
theorem names_setTable (db : Db) (t : CrrTable) :
    ((db.setTable t).tables.map fun u => u.info.tblName) =
      db.tables.map fun u => u.info.tblName := by
  rw [setTable_tables, List.map_map]
  apply List.map_congr_left
  intro u _
  by_cases hname : u.info.tblName = t.info.tblName
  · simp [hname]
  · simp [hname]

/-- A statement keeps the names. -/
theorem names_exec [Sqlite] (db : Db) (s : Stmt) :
    ((db.exec s).tables.map fun u => u.info.tblName) =
      db.tables.map fun u => u.info.tblName := by
  rcases exec_cases db s with ⟨htables, -⟩ | ⟨t, t', -, -, htables, -⟩
  · rw [htables]
  · rw [htables, names_setTable]

/-- Statements change no declaration. -/
theorem schema_exec [Sqlite] (db : Db) (s : Stmt) (tbl : Text) :
    ((db.exec s).findTable tbl).map CrrTable.schema =
      (db.findTable tbl).map CrrTable.schema := by
  rcases exec_cases db s with ⟨htables, -⟩ | ⟨t, t', ht, hstep, htables, -⟩
  · rw [Db.findTable, htables]
    rfl
  · have hname : t'.info.tblName = s.tbl := by
      rw [CrrTable.info, hstep.schema_eq]
      exact findTable_name ht
    rw [Db.findTable, htables]
    change ((db.setTable t').findTable tbl).map CrrTable.schema = _
    rw [findTable_setTable ht hname]
    split_ifs with h
    · rw [h, ht, Option.map_some, Option.map_some, hstep.schema_eq]
    · rfl

/-! ## Runs of a connection -/

/-- A connection: the state at the start of its transaction and the current
one. -/
structure Session where
  start : Db
  current : Db

/-- What a connection does. -/
inductive Op where
  | stmt (s : Stmt)
  | commit
  | rollback

/-- One step of a connection. -/
def Session.step [Sqlite] (s : Session) : Op → Session
  | .stmt st => { s with current := s.current.exec st }
  | .commit => ⟨s.current.commit, s.current.commit⟩
  | .rollback => ⟨Db.rollback s.start s.current, Db.rollback s.start s.current⟩

/-- A commit keeps the tables. -/
@[simp]
theorem commit_tables (db : Db) : db.commit.tables = db.tables := by
  unfold Db.commit
  split <;> rfl

/-- A commit keeps the site. -/
@[simp]
theorem commit_siteId (db : Db) : db.commit.siteId = db.siteId := by
  unfold Db.commit
  split <;> rfl

@[simp]
theorem rollback_tables (start db : Db) : (Db.rollback start db).tables = start.tables :=
  rfl

/-- A property of the tables that every allowed statement keeps holds after every
allowed run, whatever is committed and rolled back. -/
theorem Session.tables_invariant [Sqlite] (P : CrrTable → Prop)
    {ok : Session → Op → Prop}
    (hstep : ∀ (s : Session) (st : Stmt) (t t' : CrrTable), ok s (.stmt st) →
      s.current.findTable st.tbl = some t → P t →
      TableStep s.current.nextDbVersion st t t' → P t')
    {db : Db} (hdb : ∀ t ∈ db.tables, P t) {ops : List Op}
    (hops : Run.Allowed Session.step ok ⟨db, db⟩ ops) :
    ∀ t ∈ (Run.exec Session.step ⟨db, db⟩ ops).current.tables, P t := by
  have hinv := Run.invariant
    (fun s : Session => (∀ t ∈ s.start.tables, P t) ∧ ∀ t ∈ s.current.tables, P t)
    ?_ ⟨hdb, hdb⟩ hops
  · exact hinv.2
  · rintro s op ⟨hstart, hcur⟩ hok
    cases op with
    | stmt st =>
        refine ⟨hstart, ?_⟩
        intro u hu
        rcases exec_cases s.current st with ⟨heq, -⟩ | ⟨t, t', ht, hts, heq, -⟩
        · exact hcur u (heq ▸ hu)
        · rcases mem_setTable s.current (heq ▸ hu) with rfl | hu
          · exact hstep s st t u hok ht (hcur t (findTable_mem ht)) hts
          · exact hcur u hu
    | commit => exact ⟨by simpa [Session.step] using hcur, by simpa [Session.step] using hcur⟩
    | rollback =>
        exact ⟨by simpa [Session.step] using hstart, by simpa [Session.step] using hstart⟩

end CrSqlite
