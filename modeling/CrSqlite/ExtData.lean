import CrSqlite.ChangesRead
import CrSqlite.Versions

/-!
# ExtData - the caches of a connection

The extension keeps for each connection the db version, the statement that reads it
from the clock tables and the descriptions of the CRRs.  The db version is dropped at
the end of a write transaction and read again when `PRAGMA data_version` differs; the
other two are refilled when `PRAGMA schema_version` is above the value last seen, which
each of them keeps for itself (ext-data.c, tableinfo.c).

Main results:

- Theorem {lit}`readied`: the statement that is stepped was built now, or the schema
  version is not above the last one seen.
- Theorem {lit}`fetchDbVersionFromStorage_cases`: what a read of the storage leaves in the
  cache, with any fault.
- Theorem {lit}`ensured`: what a call of `crsql_ensureTableInfosAreUpToDate` leads to.
-/

namespace CrSqlite

/-! ## The caches -/

/-- What `zpTableInfos` points to. -/
inductive TableInfosPtr where
  | null
  | infos (tableInfos : List TableInfo)
  | freed
deriving DecidableEq

/-- `crsql_ExtData`.  A statement is represented by the names of the tables whose clock
tables it reads. -/
structure ExtData where
  dbVersion : Int
  pragmaSchemaVersion : Int
  pragmaDataVersion : Int
  pragmaSchemaVersionForTableInfos : Int
  pDbVersionStmt : Option (List Text)
  zpTableInfos : TableInfosPtr
  tableInfosLen : Nat
deriving DecidableEq

/-- What a connection reads: the two pragmas and the tables of its transaction. -/
structure Storage where
  dataVersion : Int
  schemaVersion : Int
  tables : List CrrTable

/-- The reads inside `crsql_getDbVersion`, in their order. -/
inductive StorageFault where
  | dataVersion
  | schemaVersion
  | clockTables
  | prepare
  | step
  | reset
deriving DecidableEq

/-- `DB_VERSION_SCHEMA_VERSION` and `TABLE_INFO_SCHEMA_VERSION`. -/
inductive SchemaVersionUser where
  | dbVersion
  | tableInfos

/-- The reads inside `crsql_ensureTableInfosAreUpToDate`. -/
inductive TableInfosFault where
  | schemaVersion
  | pull
deriving DecidableEq

namespace Storage

/-- The tables that `CLOCK_TABLES_SELECT` finds. -/
def clockTables (st : Storage) : List Text :=
  st.tables.map fun t => t.info.tblName

/-- The descriptions of the tables. -/
def tableInfos (st : Storage) : List TableInfo :=
  st.tables.map CrrTable.info

/-- The stored versions of the named tables. -/
def versionsOf (st : Storage) (names : List Text) : List Int :=
  (st.tables.filter fun t => names.contains t.info.tblName).flatMap fun t =>
    t.clock.map ClockEntry.dbVersion

/-- The largest stored version, 0 when there is none. -/
def maxVersion (st : Storage) : Int :=
  ((st.tables.flatMap fun t => t.clock.map ClockEntry.dbVersion).max?).getD 0

/-- The row of the union query, NULL without entries; none when a table is missing. -/
def unionQuery (st : Storage) (names : List Text) : Option (Option Int) :=
  if names.all st.clockTables.contains then some (st.versionsOf names).max? else none

end Storage

/-- All clock tables together have all stored versions. -/
theorem versionsOf_clockTables (st : Storage) :
    st.versionsOf st.clockTables =
      st.tables.flatMap fun t => t.clock.map ClockEntry.dbVersion := by
  have hall : (st.tables.filter fun t => st.clockTables.contains t.info.tblName) = st.tables :=
    List.filter_eq_self.mpr fun t ht =>
      List.contains_iff_mem.mpr (List.mem_map.mpr ⟨t, ht, rfl⟩)
  rw [Storage.versionsOf, hall]

/-- `crsql_newExtData`. -/
def newExtData (dataVersion : Int) : ExtData :=
  ⟨-1, -1, dataVersion, -1, none, .null, 0⟩

namespace ExtData

/-! ## The db version -/

/-- `crsql_fetchPragmaDataVersion`: none for -1, and otherwise whether it differs. -/
def fetchPragmaDataVersion (ext : ExtData) (st : Storage) (fault : Option StorageFault) :
    ExtData × Option Bool :=
  if fault = some .dataVersion then (ext, none)
  else if st.dataVersion ≠ ext.pragmaDataVersion then
    ({ ext with pragmaDataVersion := st.dataVersion }, some true)
  else (ext, some false)

/-- `crsql_fetchPragmaSchemaVersion`: none for -1, and otherwise whether it has grown since
the user of the value has last seen it. -/
def fetchPragmaSchemaVersion (ext : ExtData) (st : Storage) (fails : Bool) :
    SchemaVersionUser → ExtData × Option Bool
  | .dbVersion =>
      if fails then (ext, none)
      else if ext.pragmaSchemaVersion < st.schemaVersion then
        ({ ext with pragmaSchemaVersion := st.schemaVersion }, some true)
      else (ext, some false)
  | .tableInfos =>
      if fails then (ext, none)
      else if ext.pragmaSchemaVersionForTableInfos < st.schemaVersion then
        ({ ext with pragmaSchemaVersionForTableInfos := st.schemaVersion }, some true)
      else (ext, some false)

/-- What `crsql_recreateDbVersionStmt` returns: SQLITE_OK, -1 or an error. -/
inductive RecreateResult where
  | ok
  | noClockTables
  | error
deriving DecidableEq

/-- `crsql_recreateDbVersionStmt`.  The result code of `crsql_get_table` is dropped, and
when it fails there are no rows. -/
def recreateDbVersionStmt (ext : ExtData) (st : Storage) (fault : Option StorageFault) :
    ExtData × RecreateResult :=
  let rows := if fault = some .clockTables then [] else st.clockTables
  if rows = [] then ({ ext with pDbVersionStmt := none }, .noClockTables)
  else if fault = some .prepare then ({ ext with pDbVersionStmt := none }, .error)
  else ({ ext with pDbVersionStmt := some rows }, .ok)

/-- What `crsql_fetchDbVersionFromStorage` does when the schema has changed. -/
def rebuildDbVersionStmt (ext : ExtData) (st : Storage) (fault : Option StorageFault) :
    ExtData × Option Bool :=
  let recreated := ext.recreateDbVersionStmt st fault
  match recreated.2 with
  | .noClockTables => ({ recreated.1 with dbVersion := minPossibleDbVersion }, some true)
  | .error => (recreated.1, some false)
  | .ok => (recreated.1, none)

/-- `crsql_fetchDbVersionFromStorage` up to the step of the statement, which it reaches
without a return code. -/
def readyDbVersionStmt (ext : ExtData) (st : Storage) (fault : Option StorageFault) :
    ExtData × Option Bool :=
  let changed :=
    if ext.pDbVersionStmt = none then (ext, some true)
    else ext.fetchPragmaSchemaVersion st (fault = some .schemaVersion) .dbVersion
  match changed.2 with
  | none => (changed.1, some false)
  | some false => (changed.1, none)
  | some true => changed.1.rebuildDbVersionStmt st fault

/-- The step of the statement and what follows it. -/
def stepDbVersionStmt (ext : ExtData) (st : Storage) (fault : Option StorageFault) :
    ExtData × Bool :=
  match ext.pDbVersionStmt with
  | none => (ext, false)
  | some names =>
      if fault = some .step then (ext, false)
      else
        match st.unionQuery names with
        | none => (ext, false)
        | some version =>
            ({ ext with dbVersion := version.getD minPossibleDbVersion }, fault ≠ some .reset)

/-- `crsql_fetchDbVersionFromStorage`, and whether it returns SQLITE_OK. -/
def fetchDbVersionFromStorage (ext : ExtData) (st : Storage) (fault : Option StorageFault) :
    ExtData × Bool :=
  let ready := ext.readyDbVersionStmt st fault
  match ready.2 with
  | some ok => (ready.1, ok)
  | none => ready.1.stepDbVersionStmt st fault

/-- `crsql_getDbVersion`, and whether it returns SQLITE_OK. -/
def getDbVersion (ext : ExtData) (st : Storage) (fault : Option StorageFault) : ExtData × Bool :=
  let changed := ext.fetchPragmaDataVersion st fault
  match changed.2 with
  | none => (changed.1, false)
  | some differs =>
      if changed.1.dbVersion ≠ -1 ∧ differs = false then (changed.1, true)
      else changed.1.fetchDbVersionFromStorage st fault

/-- `commitHook` and `rollbackHook`. -/
def dropDbVersion (ext : ExtData) : ExtData :=
  { ext with dbVersion := -1 }

/-! ## The descriptions -/

/-- `crsql_pullAllTableInfos`: without clock tables, and when a read fails, it leaves its
outputs alone. -/
def pullAllTableInfos (ext : ExtData) (st : Storage) (fails : Bool) : ExtData × Bool :=
  if fails then (ext, false)
  else if st.tableInfos = [] then (ext, true)
  else
    ({ ext with
        zpTableInfos := .infos st.tableInfos
        tableInfosLen := st.tableInfos.length }, true)

/-- `crsql_freeAllTableInfos`; the pointer is not cleared. -/
def freeAllTableInfos (ext : ExtData) : ExtData :=
  { ext with zpTableInfos := if ext.zpTableInfos = .null then .null else .freed }

/-- The descriptions are freed and pulled again.  When the pull fails the old ones are
freed once more, which is not modelled. -/
def refetchTableInfos (ext : ExtData) (st : Storage) (fails : Bool) : ExtData × Bool :=
  let pulled := ext.freeAllTableInfos.pullAllTableInfos st fails
  if pulled.2 then pulled
  else ({ pulled.1 with zpTableInfos := .null, tableInfosLen := 0 }, false)

/-- `crsql_ensureTableInfosAreUpToDate`, and whether it returns SQLITE_OK. -/
def ensureTableInfosAreUpToDate (ext : ExtData) (st : Storage) (fault : Option TableInfosFault) :
    ExtData × Bool :=
  let changed := ext.fetchPragmaSchemaVersion st (fault = some .schemaVersion) .tableInfos
  match changed.2 with
  | none => (changed.1, false)
  | some differs =>
      if differs = true ∨ changed.1.zpTableInfos = .null then
        changed.1.refetchTableInfos st (fault = some .pull)
      else (changed.1, true)

/-- The tables that the two fields describe; none when the memory was freed. -/
def described (ext : ExtData) : Option (List TableInfo) :=
  match ext.zpTableInfos with
  | .null => if ext.tableInfosLen = 0 then some [] else none
  | .infos tableInfos => if ext.tableInfosLen = tableInfos.length then some tableInfos else none
  | .freed => none

/-! ## What a call does -/

/-- A call that gets as far as the storage: nothing is cached or the data version
differs. -/
def ReadsStorage (ext : ExtData) (st : Storage) : Prop :=
  ext.dbVersion = -1 ∨ st.dataVersion ≠ ext.pragmaDataVersion

/-- Such a call builds the statement: there is none or the schema version has grown. -/
def Recreates (ext : ExtData) (st : Storage) : Prop :=
  ext.pDbVersionStmt = none ∨ ext.pragmaSchemaVersion < st.schemaVersion

/-- A read fails that ends such a call before it has a version. -/
def FailsEarly (ext : ExtData) (st : Storage) : Option StorageFault → Prop
  | some .schemaVersion => ext.pDbVersionStmt ≠ none
  | some .prepare => ext.Recreates st ∧ st.clockTables ≠ []
  | some .step => ¬ (ext.Recreates st ∧ st.clockTables = [])
  | _ => False

instance (ext : ExtData) (st : Storage) : Decidable (ext.ReadsStorage st) :=
  inferInstanceAs (Decidable (_ ∨ _))

instance (ext : ExtData) (st : Storage) : Decidable (ext.Recreates st) :=
  inferInstanceAs (Decidable (_ ∨ _))

instance (ext : ExtData) (st : Storage) (fault : Option StorageFault) :
    Decidable (ext.FailsEarly st fault) :=
  match fault with
  | some .schemaVersion => inferInstanceAs (Decidable (_ ≠ _))
  | some .prepare => inferInstanceAs (Decidable (_ ∧ _))
  | some .step => inferInstanceAs (Decidable (¬ _))
  | none | some .dataVersion | some .clockTables | some .reset =>
      inferInstanceAs (Decidable False)

variable {ext : ExtData} {st : Storage} {fault : Option StorageFault}

/-- Where the call ends without a look at the storage. -/
theorem getDbVersion_eq : ext.getDbVersion st fault =
    if fault = some .dataVersion then (ext, false)
    else if ext.ReadsStorage st then
      { ext with pragmaDataVersion := st.dataVersion }.fetchDbVersionFromStorage st fault
    else (ext, true) := by
  unfold getDbVersion fetchPragmaDataVersion
  by_cases hfault : fault = some .dataVersion
  · rw [if_pos hfault, if_pos hfault]
  · rw [if_neg hfault, if_neg hfault]
    by_cases hdiffers : st.dataVersion ≠ ext.pragmaDataVersion
    · have hreads : ext.ReadsStorage st := Or.inr hdiffers
      rw [if_pos hdiffers, if_pos hreads]
      simp
    · have hsame : ({ ext with pragmaDataVersion := st.dataVersion } : ExtData) = ext := by
        rw [not_not.mp hdiffers]
      rw [if_neg hdiffers, hsame]
      by_cases hcached : ext.dbVersion = -1
      · have hreads : ext.ReadsStorage st := Or.inl hcached
        simp [hcached, if_pos hreads]
      · have hreads : ¬ ext.ReadsStorage st := fun h => h.elim hcached hdiffers
        simp [hcached, if_neg hreads]

/-- What `readyDbVersionStmt` leads to: no schema version, the statement there is, no clock
tables, a statement that cannot be built, or one that was built. -/
inductive Readied (ext : ExtData) (st : Storage) (fault : Option StorageFault) :
    ExtData × Option Bool → Prop
  | unread (hfault : fault = some .schemaVersion) (hstmt : ext.pDbVersionStmt ≠ none) :
      Readied ext st fault (ext, some false)
  | kept (hkept : ¬ ext.Recreates st) : Readied ext st fault (ext, none)
  | noClockTables (v : Int) (hv : v = ext.pragmaSchemaVersion ∨ v = st.schemaVersion)
      (hnew : ext.Recreates st) (hnone : fault = some .clockTables ∨ st.clockTables = []) :
      Readied ext st fault
        ({ ext with
            dbVersion := minPossibleDbVersion
            pragmaSchemaVersion := v
            pDbVersionStmt := none }, some true)
  | unbuilt (v : Int) (hv : v = ext.pragmaSchemaVersion ∨ v = st.schemaVersion)
      (hnew : ext.Recreates st) (hfault : fault = some .prepare) (hsome : st.clockTables ≠ []) :
      Readied ext st fault
        ({ ext with pragmaSchemaVersion := v, pDbVersionStmt := none }, some false)
  | built (v : Int) (hv : v = ext.pragmaSchemaVersion ∨ v = st.schemaVersion)
      (hnew : ext.Recreates st) (hsome : st.clockTables ≠ []) :
      Readied ext st fault
        ({ ext with pragmaSchemaVersion := v, pDbVersionStmt := some st.clockTables }, none)

/-- A statement that is prepared anew is that of the present tables. -/
private theorem readied_rebuild (v : Int) (hv : v = ext.pragmaSchemaVersion ∨ v = st.schemaVersion)
    (hnew : ext.Recreates st) :
    Readied ext st fault
      (({ ext with pragmaSchemaVersion := v } : ExtData).rebuildDbVersionStmt st fault) := by
  unfold rebuildDbVersionStmt recreateDbVersionStmt
  by_cases hclock : fault = some .clockTables
  · simpa [hclock] using Readied.noClockTables v hv hnew (Or.inl hclock)
  · by_cases hempty : st.clockTables = []
    · simpa [hclock, hempty] using Readied.noClockTables v hv hnew (Or.inr hempty)
    · by_cases hprepare : fault = some .prepare
      · simpa [hclock, hempty, hprepare] using Readied.unbuilt v hv hnew hprepare hempty
      · simpa [hclock, hempty, hprepare] using Readied.built v hv hnew hempty

/-- The statement is built now, and reads the clock tables there are; or it is the old
one, and the schema version is not above the one last seen. -/
theorem readied (ext : ExtData) (st : Storage) (fault : Option StorageFault) :
    Readied ext st fault (ext.readyDbVersionStmt st fault) := by
  unfold readyDbVersionStmt
  by_cases hstmt : ext.pDbVersionStmt = none
  · rw [if_pos hstmt]
    exact readied_rebuild ext.pragmaSchemaVersion (Or.inl rfl) (Or.inl hstmt)
  · rw [if_neg hstmt, fetchPragmaSchemaVersion]
    by_cases hfault : fault = some .schemaVersion
    · simpa [hfault] using Readied.unread hfault hstmt
    · by_cases hgrown : ext.pragmaSchemaVersion < st.schemaVersion
      · simp only [hfault, decide_false, Bool.false_eq_true, if_false, if_pos hgrown]
        exact readied_rebuild st.schemaVersion (Or.inr rfl) (Or.inr hgrown)
      · simp only [hfault, decide_false, Bool.false_eq_true, if_false, if_neg hgrown]
        exact Readied.kept fun h => h.elim hstmt hgrown

/-- What a call of `crsql_fetchDbVersionFromStorage` leads to when the statement reads the
clock tables there are: the read that fails leaves the version as it was, the largest
version is cached, or the clock tables could not be read and the smallest one is. -/
theorem fetchDbVersionFromStorage_cases
    (hstmt : ∀ names ∈ ext.pDbVersionStmt, names = st.clockTables)
    (fault : Option StorageFault) :
    let fetched := ext.fetchDbVersionFromStorage st fault
    (∀ names ∈ fetched.1.pDbVersionStmt, names = st.clockTables) ∧
    fetched.1.pragmaDataVersion = ext.pragmaDataVersion ∧
    ((fetched.1.dbVersion = ext.dbVersion ∧ fetched.2 = false ∧ ext.FailsEarly st fault) ∨
      fetched.1.dbVersion = st.maxVersion ∨
      (fault = some .clockTables ∧ ext.Recreates st ∧
        fetched.1.dbVersion = minPossibleDbVersion)) := by
  have hvalue : st.unionQuery st.clockTables = some (st.versionsOf st.clockTables).max? :=
    if_pos (List.all_eq_true.mpr fun _ h => List.contains_iff_mem.mpr h)
  have hmax : ((st.versionsOf st.clockTables).max?).getD minPossibleDbVersion = st.maxVersion := by
    rw [versionsOf_clockTables]
    rfl
  have hstep : ∀ ext' : ExtData, ext'.pDbVersionStmt = some st.clockTables →
      ext'.stepDbVersionStmt st fault =
        if fault = some .step then (ext', false)
        else ({ ext' with dbVersion := st.maxVersion }, fault ≠ some .reset) := by
    intro ext' hsome
    simp only [stepDbVersionStmt, hsome, hvalue, hmax]
  have hready := readied ext st fault
  unfold fetchDbVersionFromStorage
  dsimp only
  generalize ext.readyDbVersionStmt st fault = ready at hready
  -- the statement is there and is stepped
  have hstepped : ∀ v, ¬ (ext.Recreates st ∧ st.clockTables = []) →
      let stepped := ({ ext with pragmaSchemaVersion := v, pDbVersionStmt := some st.clockTables } :
        ExtData).stepDbVersionStmt st fault
      (∀ names ∈ stepped.1.pDbVersionStmt, names = st.clockTables) ∧
      stepped.1.pragmaDataVersion = ext.pragmaDataVersion ∧
      ((stepped.1.dbVersion = ext.dbVersion ∧ stepped.2 = false ∧ ext.FailsEarly st fault) ∨
        stepped.1.dbVersion = st.maxVersion) := by
    intro v hsome
    rw [hstep _ rfl]
    by_cases hfault : fault = some .step
    · rw [if_pos hfault]
      exact ⟨by simp, rfl, Or.inl ⟨rfl, rfl, by rw [hfault]; exact hsome⟩⟩
    · rw [if_neg hfault]
      exact ⟨by simp, rfl, Or.inr rfl⟩
  cases hready with
  | unread hfault hne =>
      exact ⟨hstmt, rfl, Or.inl ⟨rfl, rfl, by rw [hfault]; exact hne⟩⟩
  | kept hkept =>
      obtain ⟨names, hnames⟩ := Option.ne_none_iff_exists'.mp fun h => hkept (Or.inl h)
      have hsame : ext = { ext with pDbVersionStmt := some st.clockTables } := by
        rw [← hstmt names hnames, ← hnames]
      obtain ⟨hstmt', hdata, hversion⟩ := hstepped ext.pragmaSchemaVersion fun h => hkept h.1
      dsimp only at hstmt' hdata hversion ⊢
      rw [← hsame] at hstmt' hdata hversion
      exact ⟨hstmt', hdata, hversion.imp_right Or.inl⟩
  | noClockTables v hv hnew hnone =>
      refine ⟨nofun, rfl, Or.inr ?_⟩
      rcases hnone with hfault | hempty
      · exact Or.inr ⟨hfault, hnew, rfl⟩
      · have htables : st.tables = [] := List.map_eq_nil_iff.mp hempty
        exact Or.inl (by rw [Storage.maxVersion, htables]; rfl)
  | unbuilt v hv hnew hfault hsome =>
      exact ⟨nofun, rfl, Or.inl ⟨rfl, rfl, by rw [hfault]; exact ⟨hnew, hsome⟩⟩⟩
  | built v hv hnew hsome =>
      obtain ⟨hstmt', hdata, hversion⟩ := hstepped v fun h => hsome h.2
      exact ⟨hstmt', hdata, hversion.imp_right Or.inl⟩

/-- What a call of `crsql_ensureTableInfosAreUpToDate` leads to: no schema version, the
descriptions there are, a pull that failed, one that found no clock tables, or new
descriptions. -/
inductive Ensured (ext : ExtData) (st : Storage) (fault : Option TableInfosFault) :
    ExtData × Bool → Prop
  | unread (hfault : fault = some .schemaVersion) : Ensured ext st fault (ext, false)
  | kept (hold : ¬ ext.pragmaSchemaVersionForTableInfos < st.schemaVersion)
      (hsome : ext.zpTableInfos ≠ .null) : Ensured ext st fault (ext, true)
  | failed (v : Int) (hv : v = max ext.pragmaSchemaVersionForTableInfos st.schemaVersion)
      (hfault : fault = some .pull) :
      Ensured ext st fault
        ({ ext with
            pragmaSchemaVersionForTableInfos := v
            zpTableInfos := .null
            tableInfosLen := 0 }, false)
  | untouched (v : Int) (hv : v = max ext.pragmaSchemaVersionForTableInfos st.schemaVersion)
      (hdue : ext.pragmaSchemaVersionForTableInfos < st.schemaVersion ∨ ext.zpTableInfos = .null)
      (hnone : st.tableInfos = []) :
      Ensured ext st fault
        ({ ext with pragmaSchemaVersionForTableInfos := v }.freeAllTableInfos, true)
  | pulled (v : Int) (hv : v = max ext.pragmaSchemaVersionForTableInfos st.schemaVersion) :
      Ensured ext st fault
        ({ ext with
            pragmaSchemaVersionForTableInfos := v
            zpTableInfos := .infos st.tableInfos
            tableInfosLen := st.tableInfos.length }, true)

/-- A refetch that is due has the present tables, or reports its error. -/
private theorem ensured_refetch (v : Int)
    (hv : v = max ext.pragmaSchemaVersionForTableInfos st.schemaVersion)
    (hdue : ext.pragmaSchemaVersionForTableInfos < st.schemaVersion ∨ ext.zpTableInfos = .null)
    (fault : Option TableInfosFault) :
    Ensured ext st fault (({ ext with pragmaSchemaVersionForTableInfos := v } :
      ExtData).refetchTableInfos st (fault = some .pull)) := by
  unfold refetchTableInfos pullAllTableInfos
  by_cases hpull : fault = some .pull
  · simpa [hpull, freeAllTableInfos] using Ensured.failed v hv hpull
  · by_cases hempty : st.tableInfos = []
    · simpa [hpull, hempty] using Ensured.untouched v hv hdue hempty
    · simpa [hpull, hempty, freeAllTableInfos] using Ensured.pulled v hv

/-- The check of the table infos, in its cases. -/
theorem ensured (ext : ExtData) (st : Storage) (fault : Option TableInfosFault) :
    Ensured ext st fault (ext.ensureTableInfosAreUpToDate st fault) := by
  unfold ensureTableInfosAreUpToDate fetchPragmaSchemaVersion
  by_cases hfault : fault = some .schemaVersion
  · simpa [hfault] using Ensured.unread hfault
  · by_cases hgrown : ext.pragmaSchemaVersionForTableInfos < st.schemaVersion
    · have hnew := ensured_refetch st.schemaVersion (max_eq_right hgrown.le).symm (Or.inl hgrown)
        fault
      simp only [hfault, decide_false, Bool.false_eq_true, if_false, if_pos hgrown, true_or, if_true]
      exact hnew
    · by_cases hnull : ext.zpTableInfos = .null
      · have hnew := ensured_refetch ext.pragmaSchemaVersionForTableInfos
          (max_eq_left (not_lt.mp hgrown)).symm (Or.inr hnull) fault
        simp only [hfault, decide_false, Bool.false_eq_true, if_false, if_neg hgrown, false_or,
          if_pos hnull]
        exact hnew
      · simpa [hfault, hgrown, hnull] using Ensured.kept hgrown hnull

end ExtData

end CrSqlite
