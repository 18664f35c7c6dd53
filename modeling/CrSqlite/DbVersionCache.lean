import CrSqlite.ExtData
import CrSqlite.Library.Run

/-!
# DbVersionCache - the cached version of every connection

Any number of connections share a database file.  Each reads the state that was
committed last when its transaction began, and caches the db version it has found there.
The cache is dropped when a write transaction of its own connection ends, and it is read
again when `PRAGMA data_version` tells of a commit of another one.

The fetch of the version notes the new data version before it reads the storage, and it
takes clock tables that cannot be read for none.

Main results:

- Theorem {lit}`ConnRight.cached_eq`: a cached version is the one to be read when no other
  connection has committed since.
- Theorem {lit}`right_step`: a step whose faults are harmless keeps every cache right.
- Theorem {lit}`cacheRight_run`: in every run of such steps `crsql_getDbVersion` tells the
  largest committed version, and everything a transaction writes lies above it.
- Theorem {lit}`unread_clock_tables_give_version_zero`: a version that is handed out twice.
-/

namespace CrSqlite

/-! ## What a call caches -/

namespace ExtData

variable {ext : ExtData} {st : Storage} {fault : Option StorageFault}

/-- A read that fails in a call that looks at the storage finds the cache empty or
right, and clock tables that cannot be read have no versions. -/
def FaultHarmless (ext : ExtData) (st : Storage) (fault : Option StorageFault) : Prop :=
  ext.ReadsStorage st →
    (ext.FailsEarly st fault → ext.dbVersion = -1 ∨ ext.dbVersion = st.maxVersion) ∧
    (fault = some .clockTables → ext.Recreates st → st.maxVersion = minPossibleDbVersion)

instance (ext : ExtData) (st : Storage) (fault : Option StorageFault) :
    Decidable (ext.FaultHarmless st fault) :=
  inferInstanceAs (Decidable (_ → _ ∧ _))

/-- After such a call the cache is as before, empty, or holds what there is to be read. -/
theorem getDbVersion_cases (hstmt : ∀ names ∈ ext.pDbVersionStmt, names = st.clockTables)
    (hfault : ext.FaultHarmless st fault) :
    let got := ext.getDbVersion st fault
    (∀ names ∈ got.1.pDbVersionStmt, names = st.clockTables) ∧
    ((got.1.dbVersion = ext.dbVersion ∧ got.1.pragmaDataVersion = ext.pragmaDataVersion ∧
        (got.2 = true → ¬ ext.ReadsStorage st)) ∨
      (ext.ReadsStorage st ∧ got.1.dbVersion = -1 ∧ got.2 = false) ∨
      (ext.ReadsStorage st ∧ got.1.dbVersion = st.maxVersion ∧
        got.1.pragmaDataVersion = st.dataVersion)) := by
  rw [getDbVersion_eq]
  split
  · exact ⟨hstmt, Or.inl ⟨rfl, rfl, nofun⟩⟩
  · split
    · rename_i hreads
      obtain ⟨hearly, hclock⟩ := hfault hreads
      have hnoted : ∀ names ∈ ({ ext with pragmaDataVersion := st.dataVersion } :
          ExtData).pDbVersionStmt, names = st.clockTables := hstmt
      obtain ⟨hstmt', hdata, hversion⟩ := fetchDbVersionFromStorage_cases hnoted fault
      refine ⟨hstmt', ?_⟩
      rcases hversion with ⟨hsame, herror, hfails⟩ | hmax | ⟨hunread, hnew, hmin⟩
      · rcases hearly hfails with hempty | hright
        · exact Or.inr (Or.inl ⟨hreads, hsame.trans hempty, herror⟩)
        · exact Or.inr (Or.inr ⟨hreads, hsame.trans hright, hdata⟩)
      · exact Or.inr (Or.inr ⟨hreads, hmax, hdata⟩)
      · exact Or.inr (Or.inr ⟨hreads, hmin.trans (hclock hunread hnew).symm, hdata⟩)
    · rename_i hcached
      exact ⟨hstmt, Or.inl ⟨rfl, rfl, fun _ => hcached⟩⟩

end ExtData

/-! ## The file and its connections -/

/-- An open transaction: the number of commits it reads, and the state inside. -/
structure FileTx where
  snapshot : Nat
  db : Db

/-- A connection. -/
structure FileConn where
  ext : ExtData
  tx : Option FileTx

/-- A database file: the state it began with, every commit with its connection, and the
connection that holds the write lock.  `answers` are the versions that
`crsql_getDbVersion` has returned with SQLITE_OK, each with the largest version of the
committed state that was read. -/
structure DbFile where
  initial : Db
  log : List (Nat × Db)
  writer : Option Nat
  schemaVersion : Int
  conns : Nat → FileConn
  answers : List (Int × Int)

/-- What the connections do. -/
inductive DbFileOp where
  | connect (c : Nat)
  | begin (c : Nat)
  | call (c : Nat) (fault : Option StorageFault)
  | stmt (c : Nat) (s : Stmt) (fault : Option StorageFault)
  | commit (c : Nat)
  | rollback (c : Nat)

namespace DbFile

/-- A file with the given state and without commits; every connection is new. -/
def init (db : Db) (schemaVersion : Int) : DbFile :=
  ⟨db, [], none, schemaVersion, fun _ => ⟨newExtData 0, none⟩, []⟩

/-- The state after the given number of commits. -/
def stateAt (s : DbFile) (k : Nat) : Db :=
  (((s.log.take k).getLast?).map Prod.snd).getD s.initial

/-- `PRAGMA data_version` after the given number of commits: those of other connections
are counted. -/
def dataVersionAt (s : DbFile) (c k : Nat) : Int :=
  ((s.log.take k).filter fun x => x.1 ≠ c).length

/-- The number of commits that a connection reads. -/
def viewOf (s : DbFile) (conn : FileConn) : Nat :=
  match conn.tx with
  | none => s.log.length
  | some tx => tx.snapshot

/-- What a connection reads. -/
def storageOf (s : DbFile) (c : Nat) (conn : FileConn) : Storage where
  dataVersion := s.dataVersionAt c (s.viewOf conn)
  schemaVersion := s.schemaVersion
  tables :=
    match conn.tx with
    | none => (s.stateAt s.log.length).tables
    | some tx => tx.db.tables

/-- A connection has changed. -/
def setConn (s : DbFile) (c : Nat) (conn : FileConn) : DbFile :=
  { s with conns := Function.update s.conns c conn }

/-- A call has answered. -/
def answered (s : DbFile) (c : Nat) (got : ExtData × Bool) : DbFile :=
  if got.2 then
    { s with answers := s.answers ++ [(got.1.dbVersion, (s.stateAt (s.viewOf (s.conns c))).maxDbVersion)] }
  else s

/-- `crsql_dbversion` or `crsql_nextdbversion`. -/
def call (s : DbFile) (c : Nat) (fault : Option StorageFault) : DbFile :=
  let got := (s.conns c).ext.getDbVersion (s.storageOf c (s.conns c)) fault
  (s.answered c got).setConn c { s.conns c with ext := got.1 }

/-- A statement asks for the version and writes with it.  It needs the write lock, and a
transaction that reads the last commit. -/
def stmt [Sqlite] (s : DbFile) (c : Nat) (st : Stmt) (fault : Option StorageFault) : DbFile :=
  match (s.conns c).tx with
  | none => s
  | some tx =>
      if tx.snapshot = s.log.length ∧ (s.writer = none ∨ s.writer = some c) then
        let locked := { s with writer := some c }
        let got := (s.conns c).ext.getDbVersion (s.storageOf c (s.conns c)) fault
        let db := if got.2 then { tx.db with dbVersion := got.1.dbVersion }.exec st else tx.db
        (locked.answered c got).setConn c ⟨got.1, some ⟨tx.snapshot, db⟩⟩
      else s

/-- The transaction ends; the hooks run when it has written. -/
def endTx (s : DbFile) (c : Nat) (log : List (Nat × Db)) : DbFile :=
  if s.writer = some c then
    { s.setConn c ⟨(s.conns c).ext.dropDbVersion, none⟩ with writer := none, log := log }
  else s.setConn c ⟨(s.conns c).ext, none⟩

/-- One step. -/
def step [Sqlite] (s : DbFile) : DbFileOp → DbFile
  | .connect c =>
      match (s.conns c).tx with
      | none => s.setConn c ⟨newExtData (s.dataVersionAt c s.log.length), none⟩
      | some _ => s
  | .begin c =>
      match (s.conns c).tx with
      | none => s.setConn c ⟨(s.conns c).ext, some ⟨s.log.length, s.stateAt s.log.length⟩⟩
      | some _ => s
  | .call c fault => s.call c fault
  | .stmt c st fault => s.stmt c st fault
  | .commit c =>
      match (s.conns c).tx with
      | none => s
      | some tx => s.endTx c (s.log ++ [(c, tx.db.commit)])
  | .rollback c =>
      match (s.conns c).tx with
      | none => s
      | some _ => s.endTx c s.log

/-- Every answer is the largest version of the committed state that was read, and every
entry that a transaction has written lies above all versions committed before it. -/
structure CacheRight (s : DbFile) : Prop where
  answers : ∀ a ∈ s.answers, a.1 = a.2
  entries : ∀ c tx, (s.conns c).tx = some tx → ∀ t ∈ tx.db.tables, ∀ e ∈ t.clock,
    (∃ u ∈ (s.stateAt tx.snapshot).tables, u.schema = t.schema ∧ e ∈ u.clock) ∨
      ∀ k ≤ tx.snapshot, (s.stateAt k).maxDbVersion < e.dbVersion

/-- The faults of a call are harmless, and versions stay below the largest integer. -/
def Harmless (s : DbFile) : DbFileOp → Prop
  | .call c fault => (s.conns c).ext.FaultHarmless (s.storageOf c (s.conns c)) fault
  | .stmt c _ fault => (s.conns c).ext.FaultHarmless (s.storageOf c (s.conns c)) fault
  | .commit c => ∀ tx ∈ (s.conns c).tx, tx.db.commit.BelowMax
  | _ => True

instance (s : DbFile) (op : DbFileOp) : Decidable (s.Harmless op) :=
  match op with
  | .call _ _ => inferInstanceAs (Decidable (ExtData.FaultHarmless _ _ _))
  | .stmt _ _ _ => inferInstanceAs (Decidable (ExtData.FaultHarmless _ _ _))
  | .commit c => inferInstanceAs (Decidable (∀ tx ∈ (s.conns c).tx, tx.db.commit.BelowMax))
  | .connect _ | .begin _ | .rollback _ => inferInstanceAs (Decidable True)

/-! ## Looking back -/

/-- A further commit leaves the earlier states alone. -/
theorem stateAt_append (s : DbFile) (x : Nat × Db) {k : Nat} (hk : k ≤ s.log.length) :
    { s with log := s.log ++ [x] }.stateAt k = s.stateAt k := by
  rw [stateAt, stateAt]
  dsimp only
  rw [List.take_append_of_le_length hk]

/-- Behind the log is the state that was committed last. -/
theorem stateAt_append_of_lt (s : DbFile) (x : Nat × Db) {k : Nat} (hk : s.log.length < k) :
    { s with log := s.log ++ [x] }.stateAt k = x.2 := by
  rw [stateAt]
  dsimp only
  have hlength : (s.log ++ [x]).length ≤ k := by
    rw [List.length_append, List.length_singleton]
    exact hk
  rw [List.take_of_length_le hlength]
  simp

/-- A later write leaves the data versions before it. -/
theorem dataVersionAt_append (s : DbFile) (x : Nat × Db) (c : Nat) {k : Nat}
    (hk : k ≤ s.log.length) :
    { s with log := s.log ++ [x] }.dataVersionAt c k = s.dataVersionAt c k := by
  rw [dataVersionAt, dataVersionAt]
  dsimp only
  rw [List.take_append_of_le_length hk]

/-- Every commit that is not the connection's own changes the data version. -/
theorem dataVersionAt_eq_iff (s : DbFile) {c j k : Nat} (hjk : j ≤ k) (hk : k ≤ s.log.length)
    (hown : ∀ x ∈ s.log.drop j, x.1 ≠ c) :
    s.dataVersionAt c k = s.dataVersionAt c j ↔ j = k := by
  obtain ⟨d, rfl⟩ := Nat.exists_eq_add_of_le hjk
  have hothers : ((s.log.drop j).take d).filter (fun x => x.1 ≠ c) = (s.log.drop j).take d :=
    List.filter_eq_self.mpr fun x hx => decide_eq_true (hown x (List.mem_of_mem_take hx))
  rw [dataVersionAt, dataVersionAt, List.take_add, List.filter_append, hothers,
    List.length_append, List.length_take, List.length_drop]
  omega

/-! ## Right caches -/

/-- What is cached was read, with the data version last seen, and the connection has not
committed since. -/
def Cached (s : DbFile) (c : Nat) (conn : FileConn) : Prop :=
  conn.ext.dbVersion ≠ -1 → ∃ k ≤ s.viewOf conn,
    conn.ext.dbVersion = (s.stateAt k).maxDbVersion ∧
    conn.ext.pragmaDataVersion = s.dataVersionAt c k ∧ ∀ x ∈ s.log.drop k, x.1 ≠ c

/-- What holds of a connection: its cache, its statement, and its transaction, which has
the tables of its start unless it writes with the version that was read there. -/
structure ConnRight (s : DbFile) (c : Nat) (conn : FileConn) : Prop where
  cached : s.Cached c conn
  stmt : ∀ names ∈ conn.ext.pDbVersionStmt, names = s.initial.tables.map fun t => t.info.tblName
  snapshot : ∀ tx, conn.tx = some tx →
    tx.snapshot ≤ s.log.length ∧ ∀ x ∈ s.log.drop tx.snapshot, x.1 ≠ c
  inside : ∀ tx, conn.tx = some tx →
    InTransaction (s.stateAt tx.snapshot)
      { tx.db with dbVersion := (s.stateAt tx.snapshot).maxDbVersion }
  written : ∀ tx, conn.tx = some tx → tx.db.tables = (s.stateAt tx.snapshot).tables ∨
    (s.writer = some c ∧ conn.ext.dbVersion = (s.stateAt tx.snapshot).maxDbVersion ∧
      conn.ext.pragmaDataVersion = s.dataVersionAt c tx.snapshot)
  locked : s.writer = some c → ∃ tx, conn.tx = some tx ∧ tx.snapshot = s.log.length

/-- Every state is a committed one with the tables of the first, their largest versions do
not fall, and every connection is right. -/
structure Right (s : DbFile) : Prop where
  committed : ∀ k, (s.stateAt k).Committed
  schemas : ∀ k, (s.stateAt k).tables.map CrrTable.schema =
    s.initial.tables.map CrrTable.schema
  mono : ∀ j k, j ≤ k → (s.stateAt j).maxDbVersion ≤ (s.stateAt k).maxDbVersion
  conns : ∀ c, s.ConnRight c (s.conns c)
  answers : ∀ a ∈ s.answers, a.1 = a.2

/-- Without a connection every cache is right. -/
theorem right_init {db : Db} (hdb : db.Committed) (schemaVersion : Int) :
    (init db schemaVersion).Right where
  committed k := by simpa [stateAt, init] using hdb
  schemas k := by simp [stateAt, init]
  mono j k _ := by simp [stateAt, init]
  conns c :=
    ⟨fun h => absurd rfl h, nofun, nofun, nofun, nofun, nofun⟩
  answers := nofun

/-- What a transaction has written lies above all versions committed before it. -/
theorem Right.cacheRight {s : DbFile} (h : s.Right) : s.CacheRight where
  answers := h.answers
  entries c tx htx t ht e he := by
    rcases ((h.conns c).inside tx htx).fresh t ht e he with hold | ⟨hnew, -⟩
    · exact Or.inl hold
    · exact Or.inr fun k hk => (h.mono k tx.snapshot hk).trans_lt hnew

section Conn

variable {s : DbFile} {c : Nat} {conn : FileConn}

/-- A connection reads what was written. -/
theorem ConnRight.view_le (h : s.ConnRight c conn) : s.viewOf conn ≤ s.log.length := by
  unfold viewOf
  split
  · exact le_rfl
  · rename_i tx htx
    exact (h.snapshot tx htx).1

/-- The connection has not committed since the state that it reads. -/
theorem ConnRight.own (h : s.ConnRight c conn) : ∀ x ∈ s.log.drop (s.viewOf conn), x.1 ≠ c := by
  unfold viewOf
  split
  · rw [List.drop_length]
    nofun
  · rename_i tx htx
    exact (h.snapshot tx htx).2

/-- A cached version is the one to be read when no other connection has committed
since. -/
theorem ConnRight.cached_eq (h : s.ConnRight c conn) (hcached : conn.ext.dbVersion ≠ -1)
    (hdata : s.dataVersionAt c (s.viewOf conn) = conn.ext.pragmaDataVersion) :
    conn.ext.dbVersion = (s.stateAt (s.viewOf conn)).maxDbVersion := by
  obtain ⟨k, hk, hversion, hseen, hown⟩ := h.cached hcached
  rw [hseen, s.dataVersionAt_eq_iff hk h.view_le hown] at hdata
  rw [hversion, hdata]

/-- Only a transaction that has the tables of its start reads the storage. -/
theorem ConnRight.unwritten (h : s.ConnRight c conn) (hcommitted : ∀ k, (s.stateAt k).Committed)
    (hreads : conn.ext.ReadsStorage (s.storageOf c conn)) (tx : FileTx) (htx : conn.tx = some tx) :
    tx.db.tables = (s.stateAt tx.snapshot).tables := by
  rcases h.written tx htx with hsame | ⟨-, hversion, hdata⟩
  · exact hsame
  · have hnonneg := (hcommitted tx.snapshot).maxDbVersion_nonneg
    rcases hreads with hempty | hdiffers
    · omega
    · refine absurd ?_ hdiffers
      simp only [storageOf, viewOf, htx]
      exact hdata.symm

/-- A connection that reads its storage finds the largest version. -/
theorem ConnRight.maxVersion_eq (h : s.ConnRight c conn)
    (hcommitted : ∀ k, (s.stateAt k).Committed)
    (hreads : conn.ext.ReadsStorage (s.storageOf c conn)) :
    (s.storageOf c conn).maxVersion = (s.stateAt (s.viewOf conn)).maxDbVersion := by
  have htables : (s.storageOf c conn).tables = (s.stateAt (s.viewOf conn)).tables := by
    cases htx : conn.tx with
    | none => simp only [storageOf, viewOf, htx]
    | some tx =>
        simp only [storageOf, viewOf, htx]
        exact h.unwritten hcommitted hreads tx htx
  rw [Storage.maxVersion, htables]
  rfl

/-- The clock tables are those of the start. -/
theorem ConnRight.clockTables_eq (h : s.ConnRight c conn)
    (hschemas : ∀ k, (s.stateAt k).tables.map CrrTable.schema =
      s.initial.tables.map CrrTable.schema) :
    (s.storageOf c conn).clockTables = s.initial.tables.map fun t => t.info.tblName := by
  have hnames : ∀ ts us : List CrrTable, ts.map CrrTable.schema = us.map CrrTable.schema →
      (ts.map fun t => t.info.tblName) = us.map fun t => t.info.tblName := by
    intro ts us heq
    have hmap := congrArg (List.map fun sch : CrrSchema => sch.info.tblName) heq
    rw [List.map_map, List.map_map] at hmap
    exact hmap
  cases htx : conn.tx with
  | none =>
      simp only [Storage.clockTables, storageOf, htx]
      exact hnames _ _ (hschemas _)
  | some tx =>
      simp only [Storage.clockTables, storageOf, htx]
      exact hnames _ _ ((h.inside tx htx).schemas.trans (hschemas _))

/-- What a call leaves behind: the cache is right, and after an answer it holds the
version of the state that is read, with its data version. -/
theorem ConnRight.got (h : s.ConnRight c conn) (hcommitted : ∀ k, (s.stateAt k).Committed)
    (hschemas : ∀ k, (s.stateAt k).tables.map CrrTable.schema =
      s.initial.tables.map CrrTable.schema)
    {fault : Option StorageFault}
    (hfault : conn.ext.FaultHarmless (s.storageOf c conn) fault) :
    let got := conn.ext.getDbVersion (s.storageOf c conn) fault
    s.ConnRight c { conn with ext := got.1 } ∧
    (got.2 = true → got.1.dbVersion = (s.stateAt (s.viewOf conn)).maxDbVersion ∧
      got.1.pragmaDataVersion = s.dataVersionAt c (s.viewOf conn)) := by
  intro got
  have hclock := h.clockTables_eq hschemas
  obtain ⟨hstmt, hgot⟩ := ExtData.getDbVersion_cases
    (fun names hnames => (h.stmt names hnames).trans hclock.symm) hfault
  have hstmt : ∀ names ∈ got.1.pDbVersionStmt,
      names = s.initial.tables.map fun t => t.info.tblName :=
    fun names hnames => (hstmt names hnames).trans hclock
  rcases hgot with ⟨hversion, hdata, hok⟩ | ⟨hreads, hempty, herror⟩ | ⟨hreads, hmax, hdata⟩
  · refine ⟨{ h with cached := fun hne => ?_, stmt := hstmt, written := fun tx htx => ?_ },
      fun hanswer => ?_⟩
    · change got.1.dbVersion ≠ -1 at hne
      rw [hversion] at hne
      obtain ⟨k, hk, hmax, hseen, hown⟩ := h.cached hne
      exact ⟨k, hk, hversion.trans hmax, hdata.trans hseen, hown⟩
    · refine (h.written tx htx).imp_right fun hw => ⟨hw.1, hversion.trans hw.2.1, hdata.trans hw.2.2⟩
    · have hcached := not_or.mp (hok hanswer)
      exact ⟨hversion.trans (h.cached_eq hcached.1 (not_not.mp hcached.2)),
        hdata.trans (not_not.mp hcached.2).symm⟩
  · refine ⟨{ h with
      cached := fun hne => absurd hempty hne
      stmt := hstmt
      written := fun tx htx => Or.inl (h.unwritten hcommitted hreads tx htx) }, fun hanswer => ?_⟩
    simp [got, herror] at hanswer
  · have hmax : got.1.dbVersion = (s.stateAt (s.viewOf conn)).maxDbVersion :=
      hmax.trans (h.maxVersion_eq hcommitted hreads)
    exact ⟨{ h with
      cached := fun _ => ⟨s.viewOf conn, le_rfl, hmax, hdata, h.own⟩
      stmt := hstmt
      written := fun tx htx => Or.inl (h.unwritten hcommitted hreads tx htx) }, fun _ => ⟨hmax, hdata⟩⟩

/-! ### What the others keep -/

/-- A connection keeps its caches when another one takes or gives back the lock. -/
theorem ConnRight.relock (h : s.ConnRight c conn) (hheld : s.writer ≠ some c) {writer : Option Nat}
    (hwriter : writer ≠ some c) : ({ s with writer := writer } : DbFile).ConnRight c conn :=
  { h with
    written := fun tx htx => Or.inl ((h.written tx htx).resolve_right fun hw => hheld hw.1)
    locked := fun hlocked => absurd hlocked hwriter }

/-- A connection keeps its caches when another one commits. -/
theorem ConnRight.append (h : s.ConnRight c conn) (hheld : s.writer ≠ some c) {x : Nat × Db}
    (hx : x.1 ≠ c) : ({ s with log := s.log ++ [x] } : DbFile).ConnRight c conn := by
  have hview : s.viewOf conn ≤ ({ s with log := s.log ++ [x] } : DbFile).viewOf conn := by
    unfold viewOf
    split
    · simp
    · exact le_rfl
  have hown : ∀ k ≤ s.log.length, (∀ y ∈ s.log.drop k, y.1 ≠ c) →
      ∀ y ∈ (s.log ++ [x]).drop k, y.1 ≠ c := by
    intro k hk hold y hy
    rw [List.drop_append_of_le_length hk] at hy
    rcases List.mem_append.mp hy with hy | hy
    · exact hold y hy
    · rw [List.mem_singleton.mp hy]
      exact hx
  refine ⟨fun hne => ?_, h.stmt, fun tx htx => ?_, fun tx htx => ?_, fun tx htx => ?_, fun hlocked =>
    absurd hlocked hheld⟩
  · obtain ⟨k, hk, hmax, hseen, hold⟩ := h.cached hne
    have hlength := hk.trans h.view_le
    refine ⟨k, hk.trans hview, ?_, ?_, hown k hlength hold⟩
    · rw [stateAt_append s x hlength]
      exact hmax
    · rw [dataVersionAt_append s x c hlength]
      exact hseen
  · obtain ⟨hle, hold⟩ := h.snapshot tx htx
    exact ⟨hle.trans (by simp), hown _ hle hold⟩
  · rw [stateAt_append s x (h.snapshot tx htx).1]
    exact h.inside tx htx
  · rw [stateAt_append s x (h.snapshot tx htx).1]
    exact Or.inl ((h.written tx htx).resolve_right fun hw => hheld hw.1)

end Conn

/-! ## Runs -/

section Steps

variable {s : DbFile} {c : Nat}

/-- The connection that is set, and the others. -/
theorem conns_setConn (s : DbFile) (c c' : Nat) (conn : FileConn) :
    (s.setConn c conn).conns c' = if c' = c then conn else s.conns c' :=
  Function.update_apply ..

/-- A connection is replaced by a right one. -/
theorem Right.setConn (h : s.Right) {conn : FileConn} (hconn : s.ConnRight c conn) :
    (s.setConn c conn).Right := by
  refine { h with conns := fun c' => ?_ }
  rw [conns_setConn]
  split
  · rename_i hc
    subst hc
    exact { hconn with }
  · exact { h.conns c' with }

/-- A version that is the stored one is cached. -/
theorem Right.answered (h : s.Right) {got : ExtData × Bool}
    (hgot : got.2 = true → got.1.dbVersion = (s.stateAt (s.viewOf (s.conns c))).maxDbVersion) :
    (s.answered c got).Right := by
  unfold DbFile.answered
  split
  · rename_i hanswer
    refine { h with conns := fun c' => { h.conns c' with }, answers := fun a ha => ?_ }
    rcases List.mem_append.mp ha with hold | hnew
    · exact h.answers a hold
    · rw [List.mem_singleton.mp hnew]
      exact hgot hanswer
  · exact h

/-- Answers are no part of what a connection reads. -/
private theorem connRight_answered {got : ExtData × Bool} {c' : Nat} {conn : FileConn}
    (h : s.ConnRight c' conn) : (s.answered c got).ConnRight c' conn := by
  unfold DbFile.answered
  split
  · exact { h with }
  · exact h

/-- A call of the version keeps the cache right. -/
private theorem Right.call (h : s.Right) {fault : Option StorageFault}
    (hok : s.Harmless (.call c fault)) : (s.call c fault).Right := by
  obtain ⟨hconn, hanswer⟩ := (h.conns c).got h.committed h.schemas hok
  exact (h.answered fun hgot => (hanswer hgot).1).setConn (connRight_answered hconn)

/-- A connection that reads the last commit takes the write lock. -/
private theorem Right.lock (h : s.Right) (hfree : s.writer = none ∨ s.writer = some c)
    {tx : FileTx} (htx : (s.conns c).tx = some tx) (hlast : tx.snapshot = s.log.length) :
    ({ s with writer := some c } : DbFile).Right := by
  refine { h with conns := fun c' => ?_ }
  by_cases hc : c' = c
  · subst hc
    have hconn := h.conns c'
    exact { hconn with
      written := fun tx htx => (hconn.written tx htx).imp_right fun hw => ⟨rfl, hw.2⟩
      locked := fun _ => ⟨tx, htx, hlast⟩ }
  · have hother : ∀ w, w = none ∨ w = some c → w ≠ some c' := by
      rintro w (rfl | rfl) hw
      · simp at hw
      · exact hc (Option.some.inj hw).symm
    exact (h.conns c').relock (hother _ hfree) (hother (some c) (Or.inr rfl))

/-- A statement of the connection that holds the lock, with the version of the state that
its transaction reads. -/
private theorem ConnRight.exec [Sqlite] {conn : FileConn} (h : s.ConnRight c conn)
    (hcommitted : ∀ k, (s.stateAt k).Committed) (hlocked : s.writer = some c) {tx : FileTx}
    (htx : conn.tx = some tx)
    (hversion : conn.ext.dbVersion = (s.stateAt tx.snapshot).maxDbVersion)
    (hdata : conn.ext.pragmaDataVersion = s.dataVersionAt c tx.snapshot) (st : Stmt) :
    s.ConnRight c
      ⟨conn.ext, some ⟨tx.snapshot, { tx.db with dbVersion := conn.ext.dbVersion }.exec st⟩⟩ := by
  obtain ⟨hle, hown⟩ := h.snapshot tx htx
  obtain ⟨tx', htx', hlast⟩ := h.locked hlocked
  obtain rfl : tx = tx' := Option.some.inj (htx.symm.trans htx')
  have hexec := inTransaction_exec (hcommitted tx.snapshot) (h.inside tx htx) st
  rw [← hversion] at hexec
  refine ⟨fun _ => ⟨tx.snapshot, le_rfl, hversion, hdata, hown⟩, h.stmt, ?_, ?_, ?_,
    fun _ => ⟨_, rfl, hlast⟩⟩
  · rintro _ ⟨⟩
    exact ⟨hle, hown⟩
  · rintro _ ⟨⟩
    exact ⟨Or.inr rfl, hexec.schemas, hexec.fresh, hexec.max⟩
  · rintro _ ⟨⟩
    exact Or.inr ⟨hlocked, hversion, hdata⟩

/-- A harmless statement keeps the caches right. -/
private theorem Right.stmt [Sqlite] (h : s.Right) {st : Stmt} {fault : Option StorageFault}
    (hok : s.Harmless (.stmt c st fault)) : (s.stmt c st fault).Right := by
  unfold DbFile.stmt
  split
  · exact h
  · rename_i tx htx
    split
    · rename_i hcond
      have hlocked := h.lock hcond.2 htx hcond.1
      obtain ⟨hconn, hanswer⟩ := (hlocked.conns c).got hlocked.committed hlocked.schemas hok
      have hview : s.viewOf (s.conns c) = tx.snapshot := by
        simp only [viewOf, htx]
      refine (hlocked.answered fun hgot => (hanswer hgot).1).setConn (connRight_answered ?_)
      split
      · rename_i hgot
        obtain ⟨hversion, hdata⟩ := hanswer hgot
        change _ = (s.stateAt (s.viewOf (s.conns c))).maxDbVersion at hversion
        change _ = s.dataVersionAt c (s.viewOf (s.conns c)) at hdata
        rw [hview] at hversion hdata
        exact hconn.exec hlocked.committed rfl htx hversion hdata st
      · have hsame : (⟨((s.conns c).ext.getDbVersion (s.storageOf c (s.conns c)) fault).1, some tx⟩ :
            FileConn) = { s.conns c with
              ext := ((s.conns c).ext.getDbVersion (s.storageOf c (s.conns c)) fault).1 } := by
          rw [← htx]
        rw [hsame]
        exact hconn
    · exact h

/-- The hooks have run, and the lock is given back. -/
private theorem Right.unlock (h : s.Right) (hheld : s.writer = some c) :
    ({ s.setConn c ⟨(s.conns c).ext.dropDbVersion, none⟩ with writer := none } : DbFile).Right := by
  refine { h with conns := fun c' => ?_ }
  change ConnRight _ c' ((s.setConn c _).conns c')
  rw [conns_setConn]
  split
  · rename_i hc
    subst hc
    exact ⟨fun hne => absurd rfl hne, (h.conns c').stmt, nofun, nofun, nofun, nofun⟩
  · rename_i hc
    have hother : s.writer ≠ some c' := by
      rw [hheld]
      exact fun hsame => hc (Option.some.inj hsame).symm
    have hrelock := (h.conns c').relock hother (show none ≠ some c' from nofun)
    exact { hrelock with }

/-- A commit of a connection whose cache was dropped. -/
private theorem Right.append (h : s.Right) {db : Db} (hfree : s.writer = none)
    (hempty : (s.conns c).ext.dbVersion = -1) (htx : (s.conns c).tx = none) (hdb : db.Committed)
    (hschemas : db.tables.map CrrTable.schema = s.initial.tables.map CrrTable.schema)
    (hmono : (s.stateAt s.log.length).maxDbVersion ≤ db.maxDbVersion) :
    ({ s with log := s.log ++ [(c, db)] } : DbFile).Right := by
  have hcases : ∀ k, (k ≤ s.log.length ∧
      ({ s with log := s.log ++ [(c, db)] } : DbFile).stateAt k = s.stateAt k) ∨
      (s.log.length < k ∧ ({ s with log := s.log ++ [(c, db)] } : DbFile).stateAt k = db) := by
    intro k
    rcases Nat.lt_or_ge s.log.length k with hlt | hle
    · exact Or.inr ⟨hlt, stateAt_append_of_lt s (c, db) hlt⟩
    · exact Or.inl ⟨hle, stateAt_append s (c, db) hle⟩
  refine ⟨fun k => ?_, fun k => ?_, fun j k hjk => ?_, fun c' => ?_, h.answers⟩
  · rcases hcases k with ⟨-, heq⟩ | ⟨-, heq⟩
    · rw [heq]
      exact h.committed k
    · rw [heq]
      exact hdb
  · rcases hcases k with ⟨-, heq⟩ | ⟨-, heq⟩
    · rw [heq]
      exact h.schemas k
    · rw [heq]
      exact hschemas
  · rcases hcases j with ⟨hj, heqj⟩ | ⟨hj, heqj⟩ <;> rcases hcases k with ⟨hk, heqk⟩ | ⟨hk, heqk⟩
    · rw [heqj, heqk]
      exact h.mono j k hjk
    · rw [heqj, heqk]
      exact (h.mono j s.log.length hj).trans hmono
    · omega
    · rw [heqj, heqk]
  · have hlocked : s.writer ≠ some c' := by simp [hfree]
    by_cases hc : c' = c
    · subst hc
      exact ⟨fun hne => absurd hempty hne, (h.conns c').stmt, fun tx hsome => by simp [htx] at hsome,
        fun tx hsome => by simp [htx] at hsome, fun tx hsome => by simp [htx] at hsome,
        fun hheld => absurd hheld hlocked⟩
    · exact (h.conns c').append hlocked (Ne.symm hc)

/-- A transaction ends; the log is as before, or has its commit. -/
private theorem Right.endTx (h : s.Right) {log : List (Nat × Db)} {tx : FileTx}
    (htx : (s.conns c).tx = some tx)
    (hlog : s.writer = some c → log = s.log ∨ (log = s.log ++ [(c, tx.db.commit)] ∧
      tx.db.commit.BelowMax)) : (s.endTx c log).Right := by
  have hconn := h.conns c
  unfold DbFile.endTx
  split
  · rename_i hheld
    have hunlock := h.unlock hheld
    rcases hlog hheld with rfl | ⟨rfl, hbelow⟩
    · exact hunlock
    · obtain ⟨tx', htx', hlast⟩ := hconn.locked hheld
      obtain rfl : tx = tx' := Option.some.inj (htx.symm.trans htx')
      have hinside := hconn.inside tx htx
      have hstart := h.committed tx.snapshot
      have hsame : ({ tx.db with dbVersion := (s.stateAt tx.snapshot).maxDbVersion } :
          Db).commit = tx.db.commit := rfl
      have hcommit := hinside.committed_commit hstart (hsame ▸ hbelow)
      rw [hsame] at hcommit
      refine hunlock.append rfl ?_ ?_ hcommit ?_ ?_
      · change ((s.setConn c _).conns c).ext.dbVersion = -1
        rw [conns_setConn, if_pos rfl]
        rfl
      · change ((s.setConn c _).conns c).tx = none
        rw [conns_setConn, if_pos rfl]
      · rw [commit_tables]
        exact hinside.schemas.trans (h.schemas _)
      · have hmax := hinside.maxDbVersion_le hstart
        rw [maxDbVersion_congr (commit_tables tx.db)]
        rw [hlast] at hmax
        exact hmax
  · rename_i hheld
    refine h.setConn ⟨fun hne => ?_, hconn.stmt, nofun, nofun, nofun, fun hlocked =>
      absurd hlocked hheld⟩
    obtain ⟨k, hk, hrest⟩ := hconn.cached hne
    exact ⟨k, hk.trans hconn.view_le, hrest⟩

/-- A step whose faults are harmless keeps every cache right. -/
theorem right_step [Sqlite] (op : DbFileOp) (h : s.Right) (hok : s.Harmless op) :
    (s.step op).Right := by
  cases op with
  | connect c =>
      rw [step]
      split
      · rename_i htx
        refine h.setConn ⟨fun hne => absurd rfl hne, nofun, nofun, nofun, nofun, fun hlocked => ?_⟩
        obtain ⟨tx, hsome, -⟩ := (h.conns c).locked hlocked
        simp [htx] at hsome
      · exact h
  | begin c =>
      rw [step]
      split
      · rename_i htx
        have hconn := h.conns c
        have hfree : s.writer ≠ some c := by
          intro hlocked
          obtain ⟨tx, hsome, -⟩ := hconn.locked hlocked
          simp [htx] at hsome
        refine h.setConn ⟨fun hne => ?_, hconn.stmt, ?_, ?_, ?_, fun hlocked => absurd hlocked hfree⟩
        · obtain ⟨k, hk, hrest⟩ := hconn.cached hne
          exact ⟨k, hk.trans hconn.view_le, hrest⟩
        · rintro _ ⟨⟩
          exact ⟨le_rfl, by simp⟩
        · rintro _ ⟨⟩
          have hstart := InTransaction.refl (h.committed s.log.length)
          exact ⟨Or.inr rfl, hstart.schemas, hstart.fresh, hstart.max⟩
        · rintro _ ⟨⟩
          exact Or.inl rfl
      · exact h
  | call c fault => exact h.call hok
  | stmt c st fault => exact h.stmt hok
  | commit c =>
      rw [step]
      split
      · exact h
      · rename_i tx htx
        exact h.endTx htx fun _ => Or.inr ⟨rfl, hok tx htx⟩
  | rollback c =>
      rw [step]
      split
      · exact h
      · rename_i tx htx
        exact h.endTx htx fun _ => Or.inl rfl

end Steps

/-- In every run of such steps `crsql_getDbVersion` tells the largest version of the
committed state that is read, and everything a transaction writes lies above it. -/
theorem cacheRight_run [Sqlite] {db : Db} (hdb : db.Committed) (schemaVersion : Int)
    {ops : List DbFileOp} (hops : Run.Allowed step Harmless (init db schemaVersion) ops) :
    CacheRight (Run.exec step (init db schemaVersion) ops) :=
  (Run.invariant Right (fun _ op h hok => right_step op h hok) (right_init hdb schemaVersion)
    hops).cacheRight

/-- A local insertion of the given key on a connection. -/
def insertStmt (c : Nat) (key : Int) : DbFileOp :=
  .stmt c (.write ['f', 'o', 'o'] (.insert (fooRow key 2))) none

/-- The run theorem applies to a run of two connections with transactions that are
committed and rolled back, a reader, and reads that fail while nothing is cached. -/
theorem cacheRight_run_foo :
    CacheRight (Run.exec (@step integralSqlite) (init (fooDb [1]) 7)
      [.call 1 none, .begin 1, insertStmt 1 1, .commit 1, .connect 3, .call 3 (some .step),
        .begin 2, .call 2 (some .schemaVersion), .call 2 (some .prepare), insertStmt 2 2,
        .call 2 (some .dataVersion), .commit 2, .call 1 none, .begin 1, insertStmt 1 3, .rollback 1,
        .call 1 (some .reset), .call 1 none]) :=
  @cacheRight_run integralSqlite (fooDb [1]) ⟨rfl, by decide, by decide, by decide, by decide⟩ 7 _
    (by decide +kernel)

/-- A connection whose read of `sqlite_master` fails takes the database for empty: it
answers 0 with SQLITE_OK, and its next transaction writes with the version that was
committed before. -/
theorem unread_clock_tables_give_version_zero :
    let s := Run.exec (@step integralSqlite) (init (fooDb [1]) 7)
      [.begin 1, insertStmt 1 1, .commit 1, .begin 2, .call 2 (some .clockTables), insertStmt 2 2]
    s.answers = [(0, 0), (0, 1), (0, 1)] ∧
    (s.stateAt 1).maxDbVersion = 1 ∧
    (s.conns 2).tx.map (fun tx => tx.db.storedVersions) = some [1, 1] ∧ ¬ s.CacheRight := by
  intro s
  have hanswers : s.answers = [(0, 0), (0, 1), (0, 1)] := by decide +kernel
  refine ⟨hanswers, by decide +kernel, by decide +kernel, fun h => ?_⟩
  have hsame := h.answers (0, 1) (by simp [hanswers])
  simp at hsame

/-- A fetch that fails behind the commit of another connection has noted the new data
version already, and the next call answers with the old version. -/
theorem failed_fetch_leaves_old_version :
    let s := Run.exec (@step integralSqlite) (init (fooDb [1]) 7)
      [.call 1 none, .begin 2, insertStmt 2 1, .commit 2, .call 1 (some .step), .call 1 none]
    s.answers = [(0, 0), (0, 0), (0, 1)] ∧ ¬ s.CacheRight := by
  intro s
  have hanswers : s.answers = [(0, 0), (0, 0), (0, 1)] := by decide +kernel
  refine ⟨hanswers, fun h => ?_⟩
  have hsame := h.answers (0, 1) (by simp [hanswers])
  simp at hsame

end DbFile

end CrSqlite
