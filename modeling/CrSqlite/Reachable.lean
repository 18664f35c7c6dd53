import CrSqlite.MergeStatements
import CrSqlite.RowAgreement
import CrSqlite.Versions

/-!
# Reachable - the states a connection reaches

A connection starts on tables of which nothing is logged yet and takes local
statements, merges, commits and rollbacks in any order.

Main results:

- Theorem {lit}`Db.Reached.unique`: in every state reached the keys of the base tables
  and of the clock tables are unique.
- Theorem {lit}`Db.Reached.int64`: in every state reached all versions are integers of 64
  bits.
- Theorem {lit}`Db.ReachedSql.orderly`: the same holds where merges are the statements they
  are made of, whatever rows these hit.
-/

namespace CrSqlite

/-- The keys of a table and of its clock table are unique. -/
structure KeysUnique (t : CrrTable) : Prop where
  rows : Keyed.Unique BaseRow.ident t.rows
  clock : Keyed.Unique ClockEntry.ident t.clock

/-- The state of a database whose tables were just turned into CRRs: nothing is cached or
logged, and names and keys are unique. -/
structure Db.Fresh (db : Db) : Prop where
  cache : db.dbVersion = -1
  names : (db.tables.map fun t => t.info.tblName).Nodup
  columns : ∀ t ∈ db.tables, (t.info.baseCols.map ColumnInfo.name).Nodup
  clock : ∀ t ∈ db.tables, t.clock = []
  rows : ∀ t ∈ db.tables, Keyed.Unique BaseRow.ident t.rows

/-- An integer of 64 bits. -/
def IsInt64 (n : Int) : Prop :=
  minInt64 ≤ n ∧ n ≤ maxInt64

instance (n : Int) : Decidable (IsInt64 n) :=
  inferInstanceAs (Decidable (_ ∧ _))

/-- The versions of a received change are read as integers of 64 bits. -/
def Change.Int64 (ch : Change) : Prop :=
  IsInt64 ch.colVersion ∧ IsInt64 ch.dbVersion

instance (ch : Change) : Decidable ch.Int64 :=
  inferInstanceAs (Decidable (_ ∧ _))

/-- What a connection can be asked to do. -/
def Op.Int64 : Op → Prop
  | .stmt (.merge ch) => ch.Int64
  | _ => True

/-- The states a connection reaches. -/
def Db.Reached [Sqlite] (db : Db) : Prop :=
  ∃ (start : Db) (ops : List Op), start.Fresh ∧
    Run.Allowed Session.step (fun _ op => op.Int64) ⟨start, start⟩ ops ∧
    (Run.exec Session.step ⟨start, start⟩ ops).current = db

/-! ## Unique keys -/

section Step

variable {next : Int} {t t' : CrrTable}

/-- A local write keeps the keys apart. -/
theorem KeysUnique.write (h : KeysUnique t) {w : LocalWrite}
    (hw : localWrite next t w = some t') : KeysUnique t' := by
  cases w with
  | insert r =>
      simp only [localWrite, insertRow] at hw
      split at hw
      · rename_i hadm
        have hrows := h.rows.append (not_conflicts_of_admits hadm)
        rw [← Option.some.inj hw, insertTrigger]
        split
        · exact ⟨hrows, h.clock⟩
        · exact ⟨hrows, unique_logChanges h.clock⟩
      · cases hw
  | update i r =>
      simp only [localWrite, updateRow] at hw
      split at hw
      · rw [← Option.some.inj hw]
        exact h
      · split at hw
        · rename_i hadm
          rw [← Option.some.inj hw]
          exact ⟨h.rows.set (not_conflicts_of_admits hadm), unique_logChanges h.clock⟩
        · cases hw
  | delete i =>
      simp only [localWrite, deleteRow, Option.some.injEq] at hw
      rw [← hw]
      split
      · exact h
      · exact ⟨h.rows.eraseIdx i, unique_logChanges h.clock⟩

variable [Sqlite] {ch : Change}

/-- A merge keeps the keys apart. -/
theorem KeysUnique.merge (h : KeysUnique t) (hm : mergeTable next ch t = .ok t') :
    KeysUnique t' := by
  rcases mergeTable_cases hm with rfl | ⟨key, parts, wheres, -, -, -, -, -, -, hmerged⟩
  · exact h
  · obtain ⟨col, -, hclock⟩ := hmerged.clock_eq
    refine ⟨?_, by rw [hclock]; exact h.clock.put⟩
    cases hmerged with
    | del =>
        simp only [mergeDelete, setWinnerClock, deleteWhere_eq]
        exact h.rows.filter _
    | pko =>
        simp only [mergePkOnlyInsert, setWinnerClock, insertOrIgnore_eq]
        split
        · rename_i hadm
          exact h.rows.append (not_conflicts_of_admits hadm)
        · exact h.rows
    | column _ _ _ _ _ _ _ hupsert =>
        rw [upsertColumn_eq_some hupsert]
        exact h.rows.upsert (BaseRow.ident_setColumn _ _)

/-- A statement keeps the keys of the clock table unique. -/
theorem TableStep.unique_clock {s : Stmt} (h : TableStep next s t t')
    (hu : Keyed.Unique ClockEntry.ident t.clock) : Keyed.Unique ClockEntry.ident t'.clock := by
  rcases clock_of_step h with hclock | ⟨key, cols, hclock⟩ | ⟨new, -, -, hclock⟩
  · rw [hclock]
    exact hu
  · rw [hclock]
    exact unique_logChanges hu
  · rw [hclock]
    exact hu.put

/-- Every statement keeps the keys apart. -/
theorem KeysUnique.step {s : Stmt} (h : KeysUnique t) (hs : TableStep next s t t') :
    KeysUnique t' := by
  cases hs with
  | write hw => exact h.write hw
  | merge hm => exact h.merge hm

end Step

/-! ## Versions of 64 bits -/

/-- What holds of the entries a trigger adds and of those it raises holds of every entry,
if it held before. -/
theorem forall_logChanges {P : ClockEntry → Prop} {next : Int} {key : Key} {cols : List Text}
    (hnew : ∀ col, P ⟨key, col, 1, next, none⟩) (hbump : ∀ e, P e → P (e.bump next))
    {clock : List ClockEntry} (h : ∀ e ∈ clock, P e) :
    ∀ e ∈ logChanges false next key cols clock, P e := by
  induction cols generalizing clock with
  | nil => exact h
  | cons col cols ih =>
      refine ih fun e he => ?_
      rw [logChange, if_neg Bool.false_ne_true] at he
      rcases Keyed.mem_upsert he with he | rfl | ⟨o, ho, -, rfl⟩
      · exact h e he
      · exact hnew col
      · exact hbump o (h o ho)

/-- The versions of an entry are integers of 64 bits. -/
structure ClockEntry.Int64 (e : ClockEntry) : Prop where
  colVersion : IsInt64 e.colVersion
  dbVersion : IsInt64 e.dbVersion

/-- All versions of a database are integers of 64 bits. -/
structure Db.Int64 (db : Db) : Prop where
  cache : IsInt64 db.dbVersion
  clock : ∀ t ∈ db.tables, ∀ e ∈ t.clock, e.Int64

section Versions64

variable {next : Int} {t t' : CrrTable}

/-- An entry that is logged again is one of 64 bits. -/
theorem ClockEntry.Int64.bump {e : ClockEntry} (h : e.Int64) (hnext : IsInt64 next) :
    (e.bump next).Int64 := by
  refine ⟨⟨le_min ?_ (by decide), min_le_right _ _⟩, hnext⟩
  exact h.colVersion.1.trans (lt_add_one _).le

/-- What a trigger logs is of 64 bits. -/
theorem int64_logChanges (hnext : IsInt64 next) (key : Key) (cols : List Text)
    {clock : List ClockEntry} (h : ∀ e ∈ clock, e.Int64) :
    ∀ e ∈ logChanges false next key cols clock, e.Int64 :=
  forall_logChanges (fun _ => ⟨(by decide : IsInt64 1), hnext⟩) (fun _ he => he.bump hnext) h

/-- A statement keeps the versions of a table within 64 bits. -/
theorem TableStep.int64 [Sqlite] {s : Stmt} (h : TableStep next s t t') (hnext : IsInt64 next)
    (hs : (Op.stmt s).Int64) (ht : ∀ e ∈ t.clock, e.Int64) : ∀ e ∈ t'.clock, e.Int64 := by
  cases h with
  | write hw =>
      rcases clock_of_write hw with hclock | ⟨key, cols, hclock⟩
      · rw [hclock]
        exact ht
      · rw [hclock]
        exact int64_logChanges hnext key cols ht
  | merge hm =>
      rcases mergeTable_cases hm with rfl | ⟨key, parts, wheres, -, -, -, -, -, -, hmerged⟩
      · exact ht
      · obtain ⟨col, -, hclock⟩ := hmerged.clock_eq
        rw [hclock]
        intro e he
        rcases Keyed.mem_put.mp he with rfl | ⟨he, -⟩
        · exact ⟨hs.1, hnext.1.trans (le_max_left _ _), max_le hnext.2 hs.2.2⟩
        · exact ht e he

variable {db : Db}

/-- The largest stored version is of 64 bits. -/
theorem Db.Int64.maxDbVersion (h : db.Int64) : IsInt64 db.maxDbVersion := by
  rcases maxDbVersion_cases db with h0 | ⟨t, ht, e, he, heq⟩
  · rw [h0]
    decide
  · rw [← heq]
    exact (h.clock t ht e he).dbVersion

/-- The db version is of 64 bits. -/
theorem Db.Int64.getDbVersion (h : db.Int64) : IsInt64 db.getDbVersion := by
  unfold Db.getDbVersion
  split
  · exact h.cache
  · exact h.maxDbVersion

/-- So is the next one. -/
theorem Db.Int64.nextDbVersion (h : db.Int64) : IsInt64 db.nextDbVersion := by
  have hget := h.getDbVersion
  unfold Db.nextDbVersion
  split
  · decide
  · exact ⟨hget.1.trans (lt_add_one _).le, by have := hget.2; omega⟩

/-- A statement keeps the versions to 64 bits. -/
theorem Db.Int64.exec [Sqlite] (h : db.Int64) {s : Stmt} (hs : (Op.stmt s).Int64) :
    (db.exec s).Int64 := by
  rcases exec_cases db s with ⟨htables, hcache⟩ | ⟨t, t', ht, hstep, htables, hcache⟩
  · exact ⟨by rw [hcache]; exact h.cache, by rw [htables]; exact h.clock⟩
  · refine ⟨by rw [hcache]; exact h.getDbVersion, ?_⟩
    rw [htables]
    intro u hu
    rcases mem_setTable db hu with rfl | hu
    · exact hstep.int64 h.nextDbVersion hs (h.clock t (findTable_mem ht))
    · exact h.clock u hu

/-- So does a commit. -/
theorem Db.Int64.commit (h : db.Int64) : db.commit.Int64 := by
  refine ⟨?_, by rw [commit_tables]; exact h.clock⟩
  unfold Db.commit
  split <;> exact (by decide : IsInt64 (-1))

/-- A fresh database has versions of 64 bits. -/
theorem Db.Fresh.int64 (h : db.Fresh) : db.Int64 := by
  refine ⟨by rw [h.cache]; decide, ?_⟩
  intro t ht e he
  rw [h.clock t ht] at he
  exact absurd he List.not_mem_nil

end Versions64

/-! ## What holds in every state reached -/

/-- Replacing a table by one of its name leaves the names. -/
theorem nodup_nonPks {info : TableInfo} (h : (info.baseCols.map ColumnInfo.name).Nodup) :
    (info.nonPks.map ColumnInfo.name).Nodup :=
  h.sublist (List.filter_sublist.map _)

section Reached

variable [Sqlite] {db : Db}

/-- A run keeps the keys of the base tables and of the clock tables unique. -/
theorem keysUnique_run {start : Db} (h : start.Fresh) (ops : List Op) :
    ∀ t ∈ (Run.exec Session.step ⟨start, start⟩ ops).current.tables, KeysUnique t := by
  have hstart : ∀ t ∈ start.tables, KeysUnique t := by
    intro t ht
    refine ⟨h.rows t ht, ?_⟩
    rw [h.clock t ht]
    exact Keyed.Unique.nil
  exact Session.tables_invariant KeysUnique (fun _ _ _ _ _ _ hP hstep => hP.step hstep) hstart
    (Run.allowed_of_forall (fun _ _ => trivial) _ ops)

/-- In every state reached the keys of the base tables and of the clock tables are
unique. -/
theorem Db.Reached.unique (h : db.Reached) : ∀ t ∈ db.tables, KeysUnique t := by
  obtain ⟨start, ops, hfresh, -, rfl⟩ := h
  exact keysUnique_run hfresh ops

/-- In every state reached the columns of a table have different names. -/
theorem Db.Reached.columns (h : db.Reached) :
    ∀ t ∈ db.tables, (t.info.baseCols.map ColumnInfo.name).Nodup := by
  obtain ⟨start, ops, hfresh, hops, rfl⟩ := h
  refine Session.tables_invariant
    (fun t : CrrTable => (t.info.baseCols.map ColumnInfo.name).Nodup) ?_ hfresh.columns hops
  intro _ _ t t' _ _ hP hstep
  rw [CrrTable.info, hstep.schema_eq]
  exact hP

/-- A run leaves the names of the tables. -/
theorem names_run (start : Db) (ops : List Op) :
    ((Run.exec Session.step ⟨start, start⟩ ops).current.tables.map fun t => t.info.tblName) =
      start.tables.map fun t => t.info.tblName := by
  have hops : Run.Allowed Session.step (fun _ _ => True) ⟨start, start⟩ ops :=
    Run.allowed_of_forall (fun _ _ => trivial) _ ops
  refine (Run.invariant (fun s : Session =>
    (s.start.tables.map fun t => t.info.tblName) = (start.tables.map fun t => t.info.tblName) ∧
      (s.current.tables.map fun t => t.info.tblName) =
        start.tables.map fun t => t.info.tblName) ?_ ⟨rfl, rfl⟩ hops).2
  rintro s op ⟨hstart, hcurrent⟩ -
  cases op with
  | stmt st =>
      refine ⟨hstart, ?_⟩
      rw [Session.step, names_exec]
      exact hcurrent
  | commit =>
      rw [Session.step, commit_tables]
      exact ⟨hcurrent, hcurrent⟩
  | rollback => exact ⟨hstart, hstart⟩

/-- In every state reached the tables have different names. -/
theorem Db.Reached.names (h : db.Reached) : (db.tables.map fun t => t.info.tblName).Nodup := by
  obtain ⟨start, ops, hfresh, -, rfl⟩ := h
  rw [names_run]
  exact hfresh.names

/-- In every state reached all versions are integers of 64 bits. -/
theorem Db.Reached.int64 (h : db.Reached) : db.Int64 := by
  obtain ⟨start, ops, hfresh, hops, rfl⟩ := h
  refine (Run.invariant (fun s : Session => s.start.Int64 ∧ s.current.Int64) ?_
    ⟨hfresh.int64, hfresh.int64⟩ hops).2
  rintro s op ⟨hstart, hcurrent⟩ hop
  cases op with
  | stmt st => exact ⟨hstart, hcurrent.exec hop⟩
  | commit => exact ⟨hcurrent.commit, hcurrent.commit⟩
  | rollback =>
      have hcache : IsInt64 (-1) := by decide
      exact ⟨⟨hcache, hstart.clock⟩, ⟨hcache, hstart.clock⟩⟩

theorem Db.Fresh.reached (h : db.Fresh) : db.Reached :=
  ⟨db, [], h, trivial, rfl⟩

/-- A run goes on from a state reached. -/
theorem Db.Reached.exec (h : db.Reached) (s : Stmt) (hs : (Op.stmt s).Int64) :
    (db.exec s).Reached := by
  obtain ⟨start, ops, hfresh, hops, rfl⟩ := h
  refine ⟨start, ops ++ [.stmt s], hfresh, Run.allowed_append.mpr ⟨hops, hs, trivial⟩, ?_⟩
  rw [Run.exec_append]
  rfl

/-- What a commit leaves is reached. -/
theorem Db.Reached.commit (h : db.Reached) : db.commit.Reached := by
  obtain ⟨start, ops, hfresh, hops, rfl⟩ := h
  have hcommit : Op.commit.Int64 := trivial
  refine ⟨start, ops ++ [.commit], hfresh, Run.allowed_append.mpr ⟨hops, hcommit, trivial⟩, ?_⟩
  rw [Run.exec_append]
  rfl

end Reached

/-! ## Merges as their statements -/

/-- What a statement on the rows of a table leaves as it is. -/
structure RowsChange (t t' : CrrTable) : Prop where
  schema : t'.schema = t.schema
  clock : t'.clock = t.clock
  unique : KeysUnique t → KeysUnique t'

section RowsChange

variable {next : Int} {t t' : CrrTable}

/-- The rows are others, with unique keys. -/
theorem RowsChange.of_rows {rows : List BaseRow}
    (hrows : Keyed.Unique BaseRow.ident t.rows → Keyed.Unique BaseRow.ident rows) :
    RowsChange t { t with rows := rows } :=
  ⟨rfl, rfl, fun h => ⟨hrows h.rows, h.clock⟩⟩

/-- A key that is inserted or ignored changes rows only. -/
theorem rowsChange_insertOrIgnore (key : Key) : RowsChange t (insertOrIgnore next key t) := by
  rw [insertOrIgnore_eq]
  split
  · rename_i hadm
    exact .of_rows fun h => h.append (not_conflicts_of_admits hadm)
  · exact ⟨rfl, rfl, id⟩

/-- A column that is set changes rows only. -/
theorem rowsChange_upsertColumn {key : Key} {col : Text} {v : SqlValue}
    (h : upsertColumn next key col v t = some t') : RowsChange t t' := by
  rw [upsertColumn_eq_some h]
  exact .of_rows fun hu => hu.upsert (BaseRow.ident_setColumn _ _)

end RowsChange

/-- What a merge does to a table whatever its statements hit: the keys stay unique, and the
clock table is as before or, if there is no error, has the entry of the change. -/
structure MergeLeaves (next : Int) (ch : Change) (t : CrrTable)
    (result : Tracked × Option Text) : Prop where
  schema : result.1.table.schema = t.schema
  unique : KeysUnique t → KeysUnique result.1.table
  clock : result.1.table.clock = t.clock ∨ (result.2 = none ∧
    ∃ key col, result.1.table.clock = (setWinnerClock next key col ch t).clock)

section MergeLeaves

variable {next : Int} {ch : Change} {t : CrrTable} {result : Tracked × Option Text}

theorem MergeLeaves.of_rows (h : RowsChange t result.1.table) : MergeLeaves next ch t result :=
  ⟨h.schema, h.unique, Or.inl h.clock⟩

theorem MergeLeaves.refl {bit : Bool} {msg : Option Text} :
    MergeLeaves next ch t (⟨t, bit⟩, msg) :=
  .of_rows ⟨rfl, rfl, id⟩

/-- A new entry has the versions of the change. -/
theorem MergeLeaves.mem_clock (h : MergeLeaves next ch t result) {e : ClockEntry}
    (he : e ∈ result.1.table.clock) :
    e ∈ t.clock ∨ e.colVersion = ch.colVersion ∧ e.dbVersion = max next ch.dbVersion := by
  rcases h.clock with hclock | ⟨-, key, col, hclock⟩
  · exact Or.inl (hclock ▸ he)
  · rw [hclock] at he
    rcases Keyed.mem_put.mp he with rfl | ⟨he, -⟩
    · exact Or.inr ⟨rfl, rfl⟩
    · exact Or.inl he

variable [Sqlite]

/-- A statement under the bit and the winner's clock after it. -/
theorem mergeLeaves_execUnderBit {s : Tracked} {stmt : Bool → CrrTable → Option CrrTable}
    (hstmt : ∀ u, stmt true s.table = some u → RowsChange s.table u)
    (pkVals : List Text) (col msg msg' : Text) :
    MergeLeaves next ch s.table (match s.execUnderBit stmt with
      | (s, false) => (s, some msg)
      | (s, true) =>
          match s.setWinnerClock next pkVals col ch with
          | (s, false) => (s, some msg')
          | (s, true) => (s, none) : Tracked × Option Text) := by
  rw [execUnderBit_eq]
  cases hu : stmt true s.table with
  | none => exact .refl
  | some u =>
      have hrows := hstmt u hu
      dsimp only [Option.isSome_some, Option.getD_some]
      rw [Tracked.setWinnerClock]
      cases readLiterals pkVals with
      | none => exact .of_rows hrows
      | some key =>
          dsimp only
          by_cases hfound : u.info.isFound = true
          · rw [if_pos hfound]
            refine ⟨hrows.schema, fun h => ?_, Or.inr ⟨rfl, key, col, ?_⟩⟩
            · exact ⟨(hrows.unique h).rows, (hrows.unique h).clock.put⟩
            · dsimp only [setWinnerClock]
              rw [hrows.clock]
          · rw [if_neg hfound]
            exact .of_rows hrows

variable [Affinity]

/-- Whatever its statements hit, a merge leaves the keys of its table unique. -/
theorem Tracked.mergeLeaves (next : Int) (ch : Change) (s : Tracked) :
    MergeLeaves next ch s.table (s.merge next ch) := by
  unfold Tracked.merge
  split
  · exact .refl
  split
  · exact .refl
  split
  · exact .refl
  rename_i wheres _ _ _ pkVals _
  split_ifs
  · refine mergeLeaves_execUnderBit (fun u hu => ?_) pkVals delSentinel [] []
    unfold deleteStmt at hu
    split at hu
    · split at hu
      · rw [← Option.some.inj hu, foldl_deleteTrigger_true]
        exact .of_rows fun h => h.filter _
      · cases hu
    · cases hu
  · refine mergeLeaves_execUnderBit (fun u hu => ?_) pkVals pkoSentinel [] []
    unfold insertOrIgnoreStmt at hu
    split at hu
    · obtain ⟨key, -, rfl⟩ := Option.map_eq_some_iff.mp hu
      exact rowsChange_insertOrIgnore (storeKey s.table.info key)
    · cases hu
  · unfold Tracked.mergeColumn
    split
    · split
      · exact .refl
      · exact .refl
      · rename_i val _ _
        refine mergeLeaves_execUnderBit (fun u hu => ?_) pkVals ch.cid _ _
        cases hread : readLiterals pkVals with
        | none =>
            rw [upsertStmt, hread] at hu
            cases hu
        | some key =>
            rw [upsertStmt_eq hread] at hu
            obtain ⟨v, -, hupsert⟩ := Option.bind_eq_some_iff.mp hu
            exact rowsChange_upsertColumn hupsert
    · exact .refl

end MergeLeaves

/-- What a merge by its statements does to a database: it leaves the tables alone or
replaces one of them. -/
theorem mergeSql_cases [Sqlite] [Affinity] (db : Db) (ch : Change) :
    ((db.mergeSql ch).1.tables = db.tables ∧ (db.mergeSql ch).1.dbVersion = db.dbVersion) ∨
    ∃ t result, db.findTable ch.tbl = some t ∧ MergeLeaves db.nextDbVersion ch t result ∧
      (db.mergeSql ch).1.tables = (db.setTable result.1.table).tables ∧
      (db.mergeSql ch).1.dbVersion =
        if result.2 = none then db.getDbVersion else db.dbVersion := by
  unfold Db.mergeSql Conn.mergeInsert
  dsimp only
  split_ifs
  · exact Or.inl ⟨rfl, rfl⟩
  · exact Or.inl ⟨rfl, rfl⟩
  · exact Or.inl ⟨rfl, rfl⟩
  · cases ht : Db.findTable { db with
        changesWritten := true
        seenPeers := (trackSeenPeer true db.seenPeers ch.siteId ch.dbVersion).1 } ch.tbl with
    | none => exact Or.inl ⟨rfl, rfl⟩
    | some t =>
        refine Or.inr ⟨t, _, ht, Tracked.mergeLeaves db.nextDbVersion ch ⟨t, false⟩, ?_⟩
        dsimp only
        generalize hresult : (⟨t, false⟩ : Tracked).merge _ ch = result
        rw [show (⟨t, false⟩ : Tracked).merge db.nextDbVersion ch = result from hresult]
        obtain ⟨s, msg⟩ := result
        cases msg <;> exact ⟨rfl, rfl⟩

/-- What holds of a database in every state reached: names and keys are unique, and all
versions are integers of 64 bits. -/
structure Db.Orderly (db : Db) : Prop where
  names : (db.tables.map fun t => t.info.tblName).Nodup
  unique : ∀ t ∈ db.tables, KeysUnique t
  int64 : db.Int64

/-- A fresh database is in order. -/
theorem Db.Fresh.orderly {db : Db} (h : db.Fresh) : db.Orderly where
  names := h.names
  unique t ht := ⟨h.rows t ht, by rw [h.clock t ht]; exact Keyed.Unique.nil⟩
  int64 := h.int64

section Orderly

variable {db : Db}

/-- The cache may be filled. -/
theorem Db.Orderly.of_tables {db' : Db} (h : db.Orderly) (htables : db'.tables = db.tables)
    (hcache : IsInt64 db'.dbVersion) : db'.Orderly where
  names := by rw [htables]; exact h.names
  unique := by rw [htables]; exact h.unique
  int64 := ⟨hcache, by rw [htables]; exact h.int64.clock⟩

/-- A table may be replaced by one that keeps its declaration. -/
theorem Db.Orderly.setTable (h : db.Orderly) {db' : Db} {t : CrrTable}
    (htables : db'.tables = (db.setTable t).tables) (hcache : IsInt64 db'.dbVersion)
    (hunique : KeysUnique t) (hclock : ∀ e ∈ t.clock, e.Int64) : db'.Orderly where
  names := by
    rw [htables, names_setTable]
    exact h.names
  unique u hu := by
    rw [htables] at hu
    rcases mem_setTable db hu with rfl | hu
    · exact hunique
    · exact h.unique u hu
  int64 := by
    refine ⟨hcache, fun u hu => ?_⟩
    rw [htables] at hu
    rcases mem_setTable db hu with rfl | hu
    · exact hclock
    · exact h.int64.clock u hu

/-- A commit keeps the order. -/
theorem Db.Orderly.commit (h : db.Orderly) : db.commit.Orderly := by
  refine h.of_tables (commit_tables db) ?_
  unfold Db.commit
  split <;> exact (by decide : IsInt64 (-1))

variable [Sqlite]

/-- A local write keeps the order. -/
theorem Db.Orderly.write (h : db.Orderly) (tbl : Text) (w : LocalWrite) :
    (db.exec (.write tbl w)).Orderly := by
  rcases exec_cases db (.write tbl w) with ⟨htables, hcache⟩ | ⟨t, t', ht, hstep, htables, hcache⟩
  · exact h.of_tables htables (by rw [hcache]; exact h.int64.cache)
  · have hmem := findTable_mem ht
    exact h.setTable htables (by rw [hcache]; exact h.int64.getDbVersion)
      ((h.unique t hmem).step hstep)
      (hstep.int64 h.int64.nextDbVersion trivial (h.int64.clock t hmem))

variable [Affinity]

/-- Whatever its statements hit, a merge keeps the database in order. -/
theorem Db.Orderly.mergeSql (h : db.Orderly) {ch : Change} (h64 : ch.Int64) :
    (db.mergeSql ch).1.Orderly := by
  rcases mergeSql_cases db ch with ⟨htables, hcache⟩ | ⟨t, result, ht, hleaves, htables, hcache⟩
  · exact h.of_tables htables (by rw [hcache]; exact h.int64.cache)
  · have hmem := findTable_mem ht
    refine h.setTable htables ?_ (hleaves.unique (h.unique t hmem)) fun e he => ?_
    · rw [hcache]
      split_ifs
      · exact h.int64.getDbVersion
      · exact h.int64.cache
    · rcases hleaves.mem_clock he with he | ⟨hcol, hdb⟩
      · exact h.int64.clock t hmem e he
      · have hnext := h.int64.nextDbVersion
        refine ⟨by rw [hcol]; exact h64.1, ?_⟩
        rw [hdb]
        exact ⟨hnext.1.trans (le_max_left _ _), max_le hnext.2 h64.2.2⟩

/-- Every statement keeps the order. -/
theorem Db.Orderly.execSql (h : db.Orderly) {s : Stmt} (hs : (Op.stmt s).Int64) :
    (db.execSql s).Orderly := by
  cases s with
  | write tbl w => exact h.write tbl w
  | merge ch => exact h.mergeSql hs

/-- The states a connection reaches, with merges as their statements. -/
def Db.ReachedSql (db : Db) : Prop :=
  ∃ (start : Db) (ops : List Op), start.Fresh ∧
    Run.Allowed Session.stepSql (fun _ op => op.Int64) ⟨start, start⟩ ops ∧
    (Run.exec Session.stepSql ⟨start, start⟩ ops).current = db

/-- In every state reached the database is in order. -/
theorem Db.ReachedSql.orderly (h : db.ReachedSql) : db.Orderly := by
  obtain ⟨start, ops, hfresh, hops, rfl⟩ := h
  refine (Run.invariant (fun s : Session => s.start.Orderly ∧ s.current.Orderly) ?_
    ⟨hfresh.orderly, hfresh.orderly⟩ hops).2
  rintro s op ⟨hstart, hcurrent⟩ hop
  cases op with
  | stmt st => exact ⟨hstart, hcurrent.execSql hop⟩
  | commit => exact ⟨hcurrent.commit, hcurrent.commit⟩
  | rollback =>
      have hback : (Db.rollback s.start s.current).Orderly :=
        hstart.of_tables rfl (by decide : IsInt64 (-1))
      exact ⟨hback, hback⟩

theorem Db.Fresh.reachedSql (h : db.Fresh) : db.ReachedSql :=
  ⟨db, [], h, trivial, rfl⟩

/-- A run goes on from a state reached. -/
theorem Db.ReachedSql.execSql (h : db.ReachedSql) (s : Stmt) (hs : (Op.stmt s).Int64) :
    (db.execSql s).ReachedSql := by
  obtain ⟨start, ops, hfresh, hops, rfl⟩ := h
  refine ⟨start, ops ++ [.stmt s], hfresh, Run.allowed_append.mpr ⟨hops, hs, trivial⟩, ?_⟩
  rw [Run.exec_append]
  rfl

end Orderly

/-! ## Transactions of statements -/

section Transactions

variable [Sqlite] [Affinity] {start db : Db}

/-- Whatever its statements hit, a merge keeps what holds inside its transaction. -/
theorem inTransaction_mergeSql (hstart : start.Committed) (h : InTransaction start db)
    (ch : Change) : InTransaction start (db.mergeSql ch).1 := by
  rcases mergeSql_cases db ch with ⟨htables, hcache⟩ | ⟨t, result, ht, hleaves, htables, hcache⟩
  · exact h.of_tables htables hcache
  have hmem := findTable_mem ht
  rcases hleaves.clock with hclock | ⟨hok, key, col, hclock⟩
  · refine h.setTable hstart hmem hleaves.schema ?_ ?_ htables ?_
    · rw [hclock]
      exact fun e he => Or.inl he
    · rw [hclock]
      exact fun e he => Or.inl he
    · rw [hcache]
      split_ifs
      · exact Or.inl rfl
      · exact Or.inr ⟨hclock, rfl⟩
  · refine h.setTable hstart hmem hleaves.schema ?_ ?_ htables (Or.inl ?_)
    · rw [hclock]
      intro e he
      rcases Keyed.mem_put.mp he with rfl | ⟨he, -⟩
      · exact Or.inr ⟨le_max_left _ _, bindSiteId_ne_empty _⟩
      · exact Or.inl he
    · rw [hclock]
      exact keptBelow_put _ (le_max_left _ _) t.clock
    · rw [hcache, if_pos hok]

/-- The statements of a transaction, one after the other. -/
theorem inTransaction_foldl_execSql (hstart : start.Committed) (h : InTransaction start db)
    (stmts : List Stmt) : InTransaction start (stmts.foldl Db.execSql db) := by
  induction stmts generalizing db with
  | nil => exact h
  | cons s stmts ih =>
      cases s with
      | write tbl w => exact ih (inTransaction_exec hstart h (.write tbl w))
      | merge ch => exact ih (inTransaction_mergeSql hstart h ch)

end Transactions

/-- The database of the worked examples is fresh. -/
theorem fooDb_fresh (siteId : Blob) : (fooDb siteId).Fresh := by
  refine ⟨rfl, List.nodup_singleton _, ?_, ?_, ?_⟩
  · intro t ht
    rw [List.mem_singleton.mp ht]
    decide
  · intro t ht
    rw [List.mem_singleton.mp ht]
  · intro t ht
    rw [List.mem_singleton.mp ht]
    exact Keyed.Unique.nil

end CrSqlite
