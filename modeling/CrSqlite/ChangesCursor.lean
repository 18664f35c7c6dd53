import CrSqlite.ChangesRead
import CrSqlite.Library.Heap
import Mathlib.Algebra.Order.Group.Multiset

/-!
# ChangesCursor - the cursors of `crsql_changes`

SQLite reads the virtual table through cursors (changes-vtab.c).  A cursor holds the statement of
the union query, which it steps, and for the row it is on the statement that looks its value up.
It is at its end when the first pointer is null, and a row without the second statement is
reported as a delete.  Both statements are made and finalized as the cursor moves; a cursor may be
filtered again at any time, and other cursors may be read in between.

Main results:

- Theorem {lit}`changesNext_spec`: where a cursor moves to.
- Theorem {lit}`step_spec`: a call leaves the statements of the other cursors alone.
- Theorem {lit}`cursors_run`: the cursors report what a scan reports, and no statement is used after
  it was finalized, finalized twice or left behind.
-/

namespace CrSqlite.ChangesCursor

open Memory

/-! ## Statements -/

/-- A statement of the union query, with the row it is on and those to come; or the one that looks
up a value, with the value it is on. -/
inductive Stmt where
  | changes (current : Option ChangeRow) (rest : List ChangeRow)
  | row (value : Option Text)

/-- `crsql_Changes_cursor`. -/
structure Cursor where
  pChangesStmt : Option Nat
  pRowStmt : Option Nat
  dbVersion : Int

/-- What fails inside of SQLite. -/
inductive Fault where
  | tableInfos
  | prepare
  | step
  | prepareRow
  | stepRow
deriving DecidableEq

/-- `changesOpen`. -/
def changesOpen : Cursor :=
  ⟨none, none, 0⟩

def changesCrsrFinalize (crsr : Cursor) : Mem Stmt Cursor := do
  freeIfAny crsr.pChangesStmt
  freeIfAny crsr.pRowStmt
  pure ⟨none, none, minPossibleDbVersion⟩

def changesClose (cur : Cursor) : Mem Stmt Unit := do
  let _ ← changesCrsrFinalize cur
  pure ()

def changesEof (cur : Cursor) : Bool :=
  cur.pChangesStmt.isNone

section Calls

variable [Sqlite]

/-- The statement that looks up a value is prepared and stepped. -/
def fetchValue (t : CrrTable) (q : RowPatchQuery) (fault : Option Fault) (cur : Cursor) :
    Mem Stmt (Cursor × Except Text Unit) :=
  match readLiterals (whereTexts q.wheres), decide (fault = some .prepareRow) with
  | some vals, false => do
      let pRowStmt ← newBlock (.row none)
      if fault = some .stepRow then
        free pRowStmt
        pure (cur, .error (message "crsql internal error fetching row data"))
      else
        match t.rows.find? fun r => whereTrue r.key vals with
        | none =>
            free pRowStmt
            pure (cur, .ok ())
        | some r =>
            store pRowStmt (.row (some (quote (r.column t.info q.colName))))
            pure ({ cur with pRowStmt := some pRowStmt }, .ok ())
  | _, _ =>
      pure (cur, .error (message "crsql internal error preparing row data fetch statement"))

/-- `changesNext` behind the step of the union query; a table of the database has key columns. -/
def fetchRow (db : Db) (row : ChangeRow) (fault : Option Fault) (cur : Cursor) :
    Mem Stmt (Cursor × Except Text Unit) :=
  match db.findTable row.tbl with
  | none => do
      let cur ← changesCrsrFinalize cur
      pure (cur, .error
        (message "crsql internal error. Could not find schema for table " ++ row.tbl))
  | some t =>
      match rowPatchDataQuery t.info row.cid row.pks with
      | none =>
          pure (cur, .error
            (message "crsql internal error generationg raw data fetch query for table " ++ row.tbl))
      | some none => pure ({ cur with pRowStmt := none }, .ok ())
      | some (some q) => fetchValue t q fault cur

/-- An error of SQLite without a text of its own. -/
def noMessage : Text :=
  []

def changesNext (db : Db) (cur : Cursor) (fault : Option Fault) :
    Mem Stmt (Cursor × Except Text Unit) :=
  match cur.pChangesStmt with
  | none =>
      pure (cur, .error
        (message "crsql internal error: in an unexpected state. pChangesStmt is null."))
  | some pChangesStmt => do
      freeIfAny cur.pRowStmt
      let cur := { cur with pRowStmt := none }
      match ← load pChangesStmt with
      | .changes _ rest =>
          if fault = some .step then
            -- finalizing the statement brings the code of its step
            let cur ← changesCrsrFinalize cur
            pure (cur, .error noMessage)
          else
            match rest with
            | [] =>
                let cur ← changesCrsrFinalize cur
                pure (cur, .ok ())
            | row :: rest =>
                store pChangesStmt (.changes (some row) rest)
                fetchRow db row fault { cur with dbVersion := row.dbVrsn }
      | .row _ => undefined

def changesFilter (db : Db) (cur : Cursor) (idxNum : Nat) (argv : List SqlValue)
    (fault : Option Fault) : Mem Stmt (Cursor × Except Text Unit) := do
  freeIfAny cur.pChangesStmt
  let cur := { cur with pChangesStmt := none }
  if fault = some .tableInfos then pure (cur, .error noMessage)
  else if db.tables.isEmpty then pure (cur, .ok ())
  else if fault = some .prepare then
    pure (cur, .error
      (message "crsql internal error preparing the statement to extract changes."))
  else
    let pStmt ← newBlock (.changes none (db.filterRows idxNum argv))
    changesNext db { cur with pChangesStmt := some pStmt } fault

/-- The row statement has a value. -/
def readValue : Option Nat → Mem Stmt (Option Text)
  | none => pure none
  | some p => do
      match ← load p with
      | .row value => pure value
      | .changes _ _ => undefined

/-- `changesColumn`, for all columns. -/
def changesColumn (db : Db) (cur : Cursor) : Mem Stmt Change :=
  match cur.pChangesStmt with
  | none => undefined
  | some pChangesStmt => do
      match ← load pChangesStmt with
      | .changes (some row) _ =>
          let value ← readValue cur.pRowStmt
          pure
            { tbl := row.tbl
              pk := row.pks
              cid := if cur.pRowStmt.isNone then delSentinel else row.cid
              val := value
              colVersion := row.colVrsn
              dbVersion := cur.dbVersion
              siteId := row.siteId.getD db.siteId }
      | _ => undefined

/-! ## Queries -/

inductive Phase where
  | idle
  | running
  | finished
  | failed (msg : Text)

/-- A cursor and the query that SQLite reads through it: the arguments of the filter, the rows it
has reported, and whether anything failed inside of SQLite. -/
structure Query where
  cur : Cursor
  idxNum : Nat
  argv : List SqlValue
  reported : List Change
  phase : Phase
  faulty : Bool

def newQuery : Query :=
  ⟨changesOpen, 0, [], [], .idle, false⟩

/-- SQLite reads the columns of a row, unless the cursor is at its end or there was an error. -/
def settle (db : Db) (q : Query) (cur : Cursor) : Except Text Unit → Mem Stmt Query
  | .error msg => pure { q with cur := cur, phase := .failed msg }
  | .ok () =>
      if changesEof cur then pure { q with cur := cur, phase := .finished }
      else do
        let change ← changesColumn db cur
        pure { q with cur := cur, phase := .running, reported := q.reported ++ [change] }

def filter (db : Db) (q : Query) (idxNum : Nat) (argv : List SqlValue) (fault : Option Fault) :
    Mem Stmt Query := do
  let (cur, result) ← changesFilter db q.cur idxNum argv fault
  settle db ⟨q.cur, idxNum, argv, [], .idle, fault.isSome⟩ cur result

/-- SQLite does not go on at the end or after an error. -/
def next (db : Db) (q : Query) (fault : Option Fault) : Mem Stmt Query :=
  match q.phase with
  | .running => do
      let (cur, result) ← changesNext db q.cur fault
      settle db { q with faulty := q.faulty || fault.isSome } cur result
  | _ => pure q

inductive Op where
  | openCursor
  | filter (k idxNum : Nat) (argv : List SqlValue) (fault : Option Fault)
  | next (k : Nat) (fault : Option Fault)
  | close (k : Nat)

/-- A call for one of the open cursors. -/
def onQuery (qs : List (Option Query)) (k : Nat) (f : Query → Mem Stmt (Option Query)) :
    Mem Stmt (List (Option Query)) :=
  match qs[k]? with
  | some (some q) => do
      let q ← f q
      pure (qs.set k q)
  | _ => pure qs

def step (db : Db) (qs : List (Option Query)) : Op → Mem Stmt (List (Option Query))
  | .openCursor => pure (qs ++ [some newQuery])
  | .filter k idxNum argv fault => onQuery qs k fun q => some <$> filter db q idxNum argv fault
  | .next k fault => onQuery qs k fun q => some <$> next db q fault
  | .close k => onQuery qs k fun q => do
      changesClose q.cur
      pure none

def run (db : Db) (qs : List (Option Query)) : List Op → Mem Stmt (List (Option Query))
  | [] => pure qs
  | op :: ops => do
      let qs ← step db qs op
      run db qs ops

/-- All cursors that are open are closed. -/
def closeAll : List (Option Query) → Mem Stmt Unit
  | [] => pure ()
  | none :: qs => closeAll qs
  | some q :: qs => do
      changesClose q.cur
      closeAll qs

end Calls

/-! ## Where a cursor moves to -/

section Moving

variable [Sqlite] {e : Setting Stmt} {h : Heap Stmt} {s : Multiset (Nat × Stmt)} {db : Db}

/-- The statements of a cursor. -/
def stmts (cur : Cursor) (current : Option ChangeRow) (rest : List ChangeRow)
    (value : Option Text) : Multiset (Nat × Stmt) :=
  block cur.pChangesStmt (.changes current rest) + block cur.pRowStmt (.row value)

omit [Sqlite] in
/-- To finalize a cursor frees its statements and its value. -/
theorem changesCrsrFinalize_spec {cur : Cursor} {current : Option ChangeRow}
    {rest : List ChangeRow} {value : Option Text}
    (ho : Owns e h (stmts cur current rest value + s)) :
    wp (changesCrsrFinalize cur) h fun cur' h' =>
      cur' = ⟨none, none, minPossibleDbVersion⟩ ∧ Owns e h' s := by
  rw [stmts, add_assoc] at ho
  refine wp_bind (wp_mono ho.freeIfAny fun _ h₁ ho₁ => ?_)
  exact wp_bind (wp_mono ho₁.freeIfAny fun _ h₂ ho₂ => wp_pure ⟨rfl, ho₂⟩)

/-- Where a call leaves a cursor that stood before some rows. -/
inductive Moved (db : Db) (e : Setting Stmt) (s : Multiset (Nat × Stmt)) (fault : Option Fault)
    (rest : List ChangeRow) (h : Heap Stmt) : Cursor × Except Text Unit → Prop where
  /-- There is no row any more. -/
  | ended {cur : Cursor} (value : Option Text) : rest = [] → cur.pChangesStmt = none →
      Owns e h (stmts cur none [] value + s) → Moved db e s fault rest h (cur, .ok ())
  /-- On the next row, with its value. -/
  | onRow {p : Nat} {q : Option Nat} {row : ChangeRow} {rows : List ChangeRow}
      {value : Option Text} : rest = row :: rows → db.changesNext row = .ok value →
      (q = none ↔ value = none) →
      Owns e h (stmts ⟨some p, q, row.dbVrsn⟩ (some row) rows value + s) →
      Moved db e s fault rest h (⟨some p, q, row.dbVrsn⟩, .ok ())
  /-- The next row has no value, or something failed. -/
  | failed {cur : Cursor} {msg : Text} (current : Option ChangeRow) (rows : List ChangeRow)
      (value : Option Text) : Owns e h (stmts cur current rows value + s) →
      (fault = none → ∃ row rows', rest = row :: rows' ∧ db.changesNext row = .error msg) →
      Moved db e s fault rest h (cur, .error msg)

omit [Sqlite] in
/-- A cursor without the statement of a value. -/
theorem stmts_noValue (p : Nat) (v : Int) (current : Option ChangeRow) (rest : List ChangeRow)
    (value : Option Text) :
    stmts ⟨some p, none, v⟩ current rest value + s = (p, .changes current rest) ::ₘ s := by
  rw [stmts, block_none, Multiset.add_zero, block_some, Multiset.singleton_add]

omit [Sqlite] in
/-- A cursor without statements owns nothing. -/
theorem owns_closed (ho : Owns e h s) (v : Int) :
    Owns e h (stmts ⟨none, none, v⟩ none [] none + s) := by
  rwa [stmts, block_none, block_none, Multiset.zero_add, Multiset.zero_add]

section Rows

variable {p : Nat} {row : ChangeRow} {rows : List ChangeRow} {fault : Option Fault}

/-- The value of the row cannot be read. -/
theorem Moved.noRow {msg : Text} (ho : Owns e h ((p, .changes (some row) rows) ::ₘ s))
    (hmsg : fault = none → db.changesNext row = .error msg) :
    Moved db e s fault (row :: rows) h (⟨some p, none, row.dbVrsn⟩, .error msg) := by
  rw [← stmts_noValue p row.dbVrsn _ _ none] at ho
  exact .failed _ _ none ho fun hf => ⟨row, rows, rfl, hmsg hf⟩

/-- The row has no value. -/
theorem Moved.noValue (ho : Owns e h ((p, .changes (some row) rows) ::ₘ s))
    (hnext : db.changesNext row = .ok none) :
    Moved db e s fault (row :: rows) h (⟨some p, none, row.dbVrsn⟩, .ok ()) := by
  rw [← stmts_noValue p row.dbVrsn _ _ none] at ho
  exact .onRow rfl hnext (iff_of_true rfl rfl) ho

/-- The statement of a value is finalized unless it has the value. -/
theorem fetchValue_spec {t : CrrTable} {q : RowPatchQuery} (hfind : db.findTable row.tbl = some t)
    (hquery : rowPatchDataQuery t.info row.cid row.pks = some (some q))
    (ho : Owns e h ((p, .changes (some row) rows) ::ₘ s)) :
    wp (fetchValue t q fault ⟨some p, none, row.dbVrsn⟩) h fun r h' =>
      Moved db e s fault (row :: rows) h' r := by
  rw [fetchValue]
  cases hread : readLiterals (whereTexts q.wheres) with
  | none =>
      have hnext : db.changesNext row =
          .error (message "crsql internal error preparing row data fetch statement") := by
        simp only [Db.changesNext, hfind, hquery, hread]
      exact wp_pure (.noRow ho fun _ => hnext)
  | some vals =>
      have hnext : db.changesNext row = .ok ((t.rows.find? fun r => whereTrue r.key vals).map
          fun r => quote (r.column t.info q.colName)) := by
        simp only [Db.changesNext, hfind, hquery, hread]
      cases hprepare : decide (fault = some .prepareRow) with
      | true =>
          have hfault := of_decide_eq_true hprepare
          exact wp_pure (.noRow ho fun hf => by rw [hf] at hfault; cases hfault)
      | false =>
          refine wp_bind (wp_mono (ho.newBlock _) fun pRowStmt h₁ ho₁ => ?_)
          by_cases hstep : fault = some .stepRow
          · rw [if_pos hstep]
            refine wp_bind (wp_mono ho₁.free fun _ h₂ ho₂ => wp_pure ?_)
            exact .noRow ho₂ fun hf => by rw [hf] at hstep; cases hstep
          · rw [if_neg hstep]
            cases hrow : t.rows.find? fun r => whereTrue r.key vals with
            | none =>
                rw [hrow, Option.map_none] at hnext
                exact wp_bind (wp_mono ho₁.free fun _ h₂ ho₂ => wp_pure (.noValue ho₂ hnext))
            | some r =>
                rw [hrow, Option.map_some] at hnext
                refine wp_bind (wp_mono (ho₁.store _) fun _ h₂ ho₂ => wp_pure ?_)
                refine .onRow rfl hnext (iff_of_false (by simp) (by simp)) ?_
                rw [stmts, block_some, block_some, add_assoc, Multiset.singleton_add,
                  Multiset.singleton_add, Multiset.cons_swap]
                exact ho₂

/-- The value of the next row is looked up. -/
theorem fetchRow_spec (ho : Owns e h ((p, .changes (some row) rows) ::ₘ s)) :
    wp (fetchRow db row fault ⟨some p, none, row.dbVrsn⟩) h fun r h' =>
      Moved db e s fault (row :: rows) h' r := by
  rw [fetchRow]
  cases hfind : db.findTable row.tbl with
  | none =>
      rw [← stmts_noValue p row.dbVrsn _ _ none] at ho
      refine wp_bind (wp_mono (changesCrsrFinalize_spec ho) ?_)
      rintro _ h₁ ⟨rfl, ho₁⟩
      exact wp_pure (.failed none [] none (owns_closed ho₁ _) fun _ =>
        ⟨row, rows, rfl, by rw [Db.changesNext, hfind]⟩)
  | some t =>
      dsimp only
      cases hquery : rowPatchDataQuery t.info row.cid row.pks with
      | none => exact wp_pure (.noRow ho fun _ => by simp only [Db.changesNext, hfind, hquery])
      | some query =>
          cases query with
          | none => exact wp_pure (.noValue ho (by simp only [Db.changesNext, hfind, hquery]))
          | some q => exact fetchValue_spec hfind hquery ho

end Rows

/-- A cursor moves to its next row. -/
theorem changesNext_spec {p : Nat} {cur : Cursor} {current : Option ChangeRow}
    {rest : List ChangeRow} {value : Option Text} (fault : Option Fault)
    (hp : cur.pChangesStmt = some p) (ho : Owns e h (stmts cur current rest value + s)) :
    wp (changesNext db cur fault) h fun r h' => Moved db e s fault rest h' r := by
  rw [changesNext, hp]
  rw [stmts, hp, block_some, add_assoc, add_left_comm] at ho
  refine wp_bind (wp_mono ho.freeIfAny fun _ h₁ ho₁ => ?_)
  rw [Multiset.singleton_add] at ho₁
  refine wp_bind (wp_mono ho₁.load ?_)
  rintro _ _ ⟨rfl, rfl⟩
  have hfinal := changesCrsrFinalize_spec ((stmts_noValue p cur.dbVersion _ _ none).symm ▸ ho₁)
  dsimp only
  by_cases hstep : fault = some .step
  · rw [if_pos hstep]
    refine wp_bind (wp_mono hfinal ?_)
    rintro _ h₂ ⟨rfl, ho₂⟩
    exact wp_pure (.failed none [] none (owns_closed ho₂ _) fun hf => by
      rw [hf] at hstep
      cases hstep)
  · rw [if_neg hstep]
    cases rest with
    | nil =>
        refine wp_bind (wp_mono hfinal ?_)
        rintro _ h₂ ⟨rfl, ho₂⟩
        exact wp_pure (.ended none rfl rfl (owns_closed ho₂ _))
    | cons row rows => exact wp_bind (wp_mono (ho₁.store _) fun _ h₂ ho₂ => fetchRow_spec ho₂)

/-- A filter moves the cursor to the first row of its query. -/
theorem changesFilter_spec {cur : Cursor} {current : Option ChangeRow} {rest : List ChangeRow}
    {value : Option Text} (idxNum : Nat) (argv : List SqlValue) (fault : Option Fault)
    (ho : Owns e h (stmts cur current rest value + s)) :
    wp (changesFilter db cur idxNum argv fault) h fun r h' =>
      Moved db e s fault (db.filterRows idxNum argv) h' r := by
  rw [stmts, add_assoc] at ho
  refine wp_bind (wp_mono ho.freeIfAny fun _ h₁ ho₁ => ?_)
  -- the statement of the last row is still there
  have hnull : Owns e h₁ (stmts ⟨none, cur.pRowStmt, cur.dbVersion⟩ none [] value + s) := by
    rwa [stmts, block_none, Multiset.zero_add]
  by_cases htable : fault = some .tableInfos
  · rw [if_pos htable]
    exact wp_pure (.failed none [] value hnull fun hf => by rw [hf] at htable; cases htable)
  rw [if_neg htable]
  by_cases hempty : db.tables.isEmpty = true
  · rw [if_pos hempty]
    refine wp_pure (.ended value ?_ rfl hnull)
    rw [Db.filterRows]
    exact if_pos hempty
  rw [if_neg hempty]
  by_cases hprepare : fault = some .prepare
  · rw [if_pos hprepare]
    exact wp_pure (.failed none [] value hnull fun hf => by rw [hf] at hprepare; cases hprepare)
  rw [if_neg hprepare]
  refine wp_bind (wp_mono (ho₁.newBlock _) fun pStmt h₂ ho₂ => ?_)
  have hstart : Owns e h₂ (stmts ⟨some pStmt, cur.pRowStmt, cur.dbVersion⟩ none
      (db.filterRows idxNum argv) value + s) := by
    rw [stmts, block_some, add_assoc, Multiset.singleton_add]
    exact ho₂
  exact changesNext_spec fault rfl hstart

omit [Sqlite] in
/-- The columns of a row are those that a scan reports. -/
theorem changesColumn_spec {p : Nat} {q : Option Nat} {row : ChangeRow} {rows : List ChangeRow}
    {value : Option Text} (hq : q = none ↔ value = none)
    (ho : Owns e h (stmts ⟨some p, q, row.dbVrsn⟩ (some row) rows value + s)) :
    wp (changesColumn db ⟨some p, q, row.dbVrsn⟩) h fun change h' =>
      change = db.changesColumn row value ∧ h' = h := by
  have hin : (p, Stmt.changes (some row) rows) ∈
      stmts ⟨some p, q, row.dbVrsn⟩ (some row) rows value + s := by simp [stmts, block_some]
  have hvalue : wp (readValue q) h fun v h' => v = value ∧ h' = h := by
    cases q with
    | none => exact wp_pure ⟨(hq.mp rfl).symm, rfl⟩
    | some z =>
        have hz : (z, Stmt.row value) ∈
            stmts ⟨some p, some z, row.dbVrsn⟩ (some row) rows value + s := by
          simp [stmts, block_some]
        refine wp_bind (wp_mono (ho.load_of_mem hz) ?_)
        rintro _ _ ⟨rfl, rfl⟩
        exact wp_pure ⟨rfl, rfl⟩
  refine wp_bind (wp_mono (ho.load_of_mem hin) ?_)
  rintro _ _ ⟨rfl, rfl⟩
  refine wp_bind (wp_mono hvalue ?_)
  rintro v _ ⟨rfl, rfl⟩
  have hcid : (if q.isNone then delSentinel else row.cid) =
      if v = none then delSentinel else row.cid :=
    if_congr (by rw [Option.isNone_iff_eq_none, hq]) rfl rfl
  dsimp only
  rw [hcid]
  exact wp_pure ⟨rfl, rfl⟩

end Moving

/-! ## What a query has reported -/

section Reporting

variable [Sqlite] {e : Setting Stmt} {h : Heap Stmt} {s : Multiset (Nat × Stmt)} {db : Db}
  {q : Query} {rest : List ChangeRow}

/-- The query reports a scan: a part of it as long as it runs, and all of it at its end, unless
something failed inside of SQLite. -/
structure Agrees (db : Db) (q : Query) : Prop where
  reported : q.reported <+: (db.changesFilter q.idxNum q.argv).1
  finished : q.phase = .finished → db.changesFilter q.idxNum q.argv = (q.reported, none)
  failed : ∀ msg, q.phase = .failed msg → q.faulty = false →
    db.changesFilter q.idxNum q.argv = (q.reported, some msg)

/-- What is still to come of the scan. -/
def Remains (db : Db) (q : Query) (rest : List ChangeRow) : Prop :=
  db.changesFilter q.idxNum q.argv = (q.reported ++ (db.scan rest).1, (db.scan rest).2)

/-- The statements that a query owns. -/
structure Holds (db : Db) (q : Query) (m : Multiset (Nat × Stmt)) : Prop where
  agrees : Agrees db q
  owned : ∃ current rest value, m = stmts q.cur current rest value ∧
    (q.phase = .running → q.cur.pChangesStmt ≠ none ∧ Remains db q rest)

/-- A scan that runs agrees with what remains. -/
theorem Remains.agrees_running (hr : Remains db q rest) (hphase : q.phase = .running) :
    Agrees db q where
  reported := by
    rw [hr]
    exact List.prefix_append _ _
  finished hf := by rw [hphase] at hf; cases hf
  failed msg hf := by rw [hphase] at hf; cases hf

/-- SQLite reads the row that a cursor has moved to. -/
theorem settle_spec {r : Cursor × Except Text Unit} {fault : Option Fault}
    (hremains : Remains db q rest) (hfault : q.faulty = false → fault = none)
    (hmoved : Moved db e s fault rest h r) :
    wp (settle db q r.1 r.2) h fun q' h' => ∃ m, Holds db q' m ∧ Owns e h' (m + s) := by
  cases hmoved with
  | @ended cur value hnil hend ho =>
      rw [hnil] at hremains
      have heof : changesEof cur = true := by rw [changesEof, hend, Option.isNone_none]
      dsimp only
      rw [settle, if_pos heof]
      refine wp_pure ⟨_, ⟨⟨?_, fun _ => ?_, fun msg hf => (by cases hf)⟩,
        none, [], value, rfl, fun hf => (by cases hf)⟩, ho⟩
      · rw [hremains]
        exact List.prefix_append _ _
      · exact hremains.trans (by rw [Db.scan, List.append_nil])
  | @onRow p z row rows value hrest hnext hz ho =>
      rw [hrest] at hremains
      refine wp_bind (wp_mono (changesColumn_spec hz ho) ?_)
      rintro change _ ⟨rfl, rfl⟩
      have hremains' : Remains db { q with
          cur := ⟨some p, z, row.dbVrsn⟩
          phase := .running
          reported := q.reported ++ [db.changesColumn row value] } rows := by
        refine hremains.trans ?_
        rw [Db.scan, hnext, List.append_assoc]
        rfl
      exact wp_pure ⟨_, ⟨hremains'.agrees_running rfl, some row, rows, value, rfl,
        fun _ => ⟨by simp, hremains'⟩⟩, ho⟩
  | failed current rows value ho herr =>
      refine wp_pure ⟨_, ⟨⟨?_, fun hf => (by cases hf), fun msg hf hgood => ?_⟩,
        current, rows, value, rfl, fun hf => (by cases hf)⟩, ho⟩
      · rw [hremains]
        exact List.prefix_append _ _
      · obtain ⟨row, rows', hrest, hnext⟩ := herr (hfault hgood)
        obtain rfl := Phase.failed.inj hf
        rw [hrest] at hremains
        exact hremains.trans (by rw [Db.scan, hnext, List.append_nil])

/-- A new query owns nothing. -/
theorem holds_newQuery : Holds db newQuery 0 where
  agrees := ⟨List.nil_prefix, fun hf => (by cases hf), fun msg hf => (by cases hf)⟩
  owned := ⟨none, [], none, by rw [stmts, newQuery, changesOpen, block_none, block_none,
    Multiset.zero_add], fun hf => (by cases hf)⟩

/-- To filter starts the scan anew and frees what the cursor held. -/
theorem filter_spec {m : Multiset (Nat × Stmt)} (hq : Holds db q m) (ho : Owns e h (m + s))
    (idxNum : Nat) (argv : List SqlValue) (fault : Option Fault) :
    wp (filter db q idxNum argv fault) h fun q' h' =>
      ∃ m', Holds db q' m' ∧ Owns e h' (m' + s) := by
  obtain ⟨current, rest, value, rfl, -⟩ := hq.owned
  refine wp_bind (wp_mono (changesFilter_spec idxNum argv fault ho) fun r h₁ hr => ?_)
  exact settle_spec rfl (fun hf => Option.isNone_iff_eq_none.mp (by simpa using hf)) hr

/-- The next row frees what the cursor held. -/
theorem next_spec {m : Multiset (Nat × Stmt)} (hq : Holds db q m) (ho : Owns e h (m + s))
    (fault : Option Fault) :
    wp (next db q fault) h fun q' h' => ∃ m', Holds db q' m' ∧ Owns e h' (m' + s) := by
  rw [next]
  split
  next hrunning =>
    obtain ⟨current, rest, value, rfl, hrun⟩ := hq.owned
    obtain ⟨hsome, hremains⟩ := hrun hrunning
    obtain ⟨p, hp⟩ := Option.ne_none_iff_exists'.mp hsome
    refine wp_bind (wp_mono (changesNext_spec fault hp ho) fun r h₁ hr => ?_)
    refine settle_spec (q := { q with faulty := q.faulty || fault.isSome }) hremains
      (fun hf => ?_) hr
    rw [Bool.or_eq_false_iff] at hf
    simpa using hf.2
  next => exact wp_pure ⟨m, hq, ho⟩

/-- To close frees what the cursor holds. -/
theorem close_spec {m : Multiset (Nat × Stmt)} (hq : Holds db q m) (ho : Owns e h (m + s)) :
    wp (changesClose q.cur) h fun _ h' => Owns e h' s := by
  obtain ⟨current, rest, value, rfl, -⟩ := hq.owned
  refine wp_bind (wp_mono (changesCrsrFinalize_spec ho) ?_)
  rintro _ h₁ ⟨-, ho₁⟩
  exact wp_pure ho₁

end Reporting

/-! ## Many cursors -/

section Sharing

variable [Sqlite] {e : Setting Stmt} {h : Heap Stmt} {db : Db} {q : Query}
  {qs : List (Option Query)} {m : Multiset (Nat × Stmt)}

/-- The statements of all open cursors. -/
inductive HoldsAll (db : Db) : List (Option Query) → Multiset (Nat × Stmt) → Prop where
  | nil : HoldsAll db [] 0
  | closed {qs : List (Option Query)} {m : Multiset (Nat × Stmt)} :
      HoldsAll db qs m → HoldsAll db (none :: qs) m
  | opened {q : Query} {qs : List (Option Query)} {m m' : Multiset (Nat × Stmt)} :
      Holds db q m → HoldsAll db qs m' → HoldsAll db (some q :: qs) (m + m')

/-- A new query owns nothing of the others. -/
theorem HoldsAll.append (ha : HoldsAll db qs m) : HoldsAll db (qs ++ [some newQuery]) m := by
  induction ha with
  | nil => exact .opened holds_newQuery .nil
  | closed _ ih => exact .closed ih
  | opened hq _ ih => exact .opened hq ih

/-- The statements of one cursor, and those of the others. -/
theorem HoldsAll.get {k : Nat} (ha : HoldsAll db qs m) (hk : qs[k]? = some (some q)) :
    ∃ m₁ m₂, m = m₁ + m₂ ∧ Holds db q m₁ ∧ HoldsAll db (qs.set k none) m₂ ∧
      ∀ q' m', Holds db q' m' → HoldsAll db (qs.set k (some q')) (m' + m₂) := by
  induction ha generalizing k with
  | nil => cases hk
  | @closed qs m ha ih =>
      cases k with
      | zero => cases hk
      | succ k =>
          obtain ⟨m₁, m₂, rfl, hq, hnone, hset⟩ := ih hk
          exact ⟨m₁, m₂, rfl, hq, .closed hnone, fun q' m' hq' => .closed (hset q' m' hq')⟩
  | @opened q₀ qs m m' hq₀ ha ih =>
      cases k with
      | zero =>
          obtain rfl : q₀ = q := Option.some.inj (Option.some.inj hk)
          exact ⟨m, m', rfl, hq₀, .closed ha, fun q' m'' hq' => .opened hq' ha⟩
      | succ k =>
          obtain ⟨m₁, m₂, rfl, hq, hnone, hset⟩ := ih hk
          refine ⟨m₁, m + m₂, add_left_comm _ _ _, hq, .opened hq₀ hnone, fun q' m'' hq' => ?_⟩
          rw [add_left_comm]
          exact .opened hq₀ (hset q' m'' hq')

/-- Every open query agrees with its scan. -/
theorem HoldsAll.agrees (ha : HoldsAll db qs m) : ∀ q, some q ∈ qs → Agrees db q := by
  intro q hq
  obtain ⟨k, hk⟩ := List.mem_iff_getElem?.mp hq
  obtain ⟨m₁, m₂, -, hq', -⟩ := ha.get hk
  exact hq'.agrees

/-- What is left of a cursor after a call. -/
def Left (db : Db) (m : Multiset (Nat × Stmt)) : Option Query → Prop
  | some q => Holds db q m
  | none => m = 0

/-- A call on one query leaves the others alone. -/
theorem onQuery_spec {k : Nat} {f : Query → Mem Stmt (Option Query)} (ha : HoldsAll db qs m)
    (ho : Owns e h m)
    (hf : ∀ q m₁ s, Holds db q m₁ → Owns e h (m₁ + s) →
      wp (f q) h fun o h' => ∃ m', Left db m' o ∧ Owns e h' (m' + s)) :
    wp (onQuery qs k f) h fun qs' h' => ∃ m', HoldsAll db qs' m' ∧ Owns e h' m' := by
  rw [onQuery]
  split
  next q hk =>
    obtain ⟨m₁, m₂, rfl, hq, hnone, hset⟩ := ha.get hk
    refine wp_bind (wp_mono (hf q m₁ m₂ hq ho) ?_)
    rintro o h₁ ⟨m', hleft, ho₁⟩
    refine wp_pure ?_
    cases o with
    | some q' => exact ⟨_, hset q' m' hleft, ho₁⟩
    | none =>
        obtain rfl : m' = 0 := hleft
        rw [Multiset.zero_add] at ho₁
        exact ⟨_, hnone, ho₁⟩
  next => exact wp_pure ⟨m, ha, ho⟩

/-- A call leaves the other cursors alone. -/
theorem step_spec (ha : HoldsAll db qs m) (ho : Owns e h m) (op : Op) :
    wp (step db qs op) h fun qs' h' => ∃ m', HoldsAll db qs' m' ∧ Owns e h' m' := by
  cases op with
  | openCursor => exact wp_pure ⟨m, ha.append, ho⟩
  | filter k idxNum argv fault =>
      refine onQuery_spec ha ho fun q m₁ s hq ho' => ?_
      exact wp_bind (wp_mono (filter_spec hq ho' idxNum argv fault) fun q' h' hq' => wp_pure hq')
  | next k fault =>
      refine onQuery_spec ha ho fun q m₁ s hq ho' => ?_
      exact wp_bind (wp_mono (next_spec hq ho' fault) fun q' h' hq' => wp_pure hq')
  | close k =>
      refine onQuery_spec ha ho fun q m₁ s hq ho' => ?_
      exact wp_bind (wp_mono (close_spec hq ho') fun _ h' ho'' =>
        wp_pure ⟨0, rfl, by rwa [Multiset.zero_add]⟩)

/-- To close all frees everything. -/
theorem closeAll_spec (ha : HoldsAll db qs m) (ho : Owns e h m) :
    wp (closeAll qs) h fun _ h' => Owns e h' 0 := by
  induction ha generalizing h with
  | nil => exact wp_pure ho
  | closed _ ih => exact ih ho
  | opened hq _ ih => exact wp_bind (wp_mono (close_spec hq ho) fun _ h' ho' => ih ho')

/-- Cursors that are read in any order report what a scan reports, each for itself, and leave no
statement behind. -/
theorem cursors_run (hfresh : ∀ p, h.next ≤ p → h.blocks p = none) (db : Db) (ops : List Op) :
    wp (run db [] ops) h fun qs h' => (∀ q, some q ∈ qs → Agrees db q) ∧
      wp (closeAll qs) h' fun _ h'' => h''.blocks = h.blocks := by
  have hrun : ∀ {ops qs m h'}, HoldsAll db qs m → Owns ⟨h.blocks, False⟩ h' m →
      wp (run db qs ops) h' fun qs' h'' => ∃ m', HoldsAll db qs' m' ∧
        Owns ⟨h.blocks, False⟩ h'' m' := by
    intro ops
    induction ops with
    | nil => exact fun ha ho => wp_pure ⟨_, ha, ho⟩
    | cons op ops ih =>
        intro qs m h' ha ho
        refine wp_bind (wp_mono (step_spec ha ho op) ?_)
        rintro qs' h'' ⟨m', ha', ho'⟩
        exact ih ha' ho'
  have ho : Owns ⟨h.blocks, False⟩ h 0 := owns_zero_iff.mpr ⟨False.elim, hfresh, rfl⟩
  refine wp_mono (hrun .nil ho) ?_
  rintro qs h' ⟨m, ha, ho'⟩
  exact ⟨ha.agrees, wp_mono (closeAll_spec ha ho') fun _ h'' ho'' => (owns_zero_iff.mp ho'').2.2⟩

end Sharing

/-! ## Two cursors -/

/-- One cursor is closed in the middle of its rows, and the other one is read to its end. -/
def twoCursors : List Op :=
  [.openCursor, .openCursor, .filter 0 0 [] none, .filter 1 2 [.integer 0] none, .next 0 none,
    .close 1, .next 0 none]

/-- Two cursors over the same table, one row at a time. -/
theorem cursors_run_twoCursors :
    let db := @Db.transact integralSqlite (fooDb [1])
      [.write ['f', 'o', 'o'] (.insert (fooRow 1 2)), .write ['f', 'o', 'o'] (.insert (fooRow 3 4))]
    wp (@run integralSqlite db [] twoCursors) ⟨fun _ => none, 0, fun _ => true⟩ fun qs h' =>
      (∀ q, some q ∈ qs → @Agrees integralSqlite db q) ∧
        wp (closeAll qs) h' fun _ h'' => h''.blocks = fun _ => none :=
  @cursors_run integralSqlite _ (fun _ _ => rfl) _ twoCursors

end CrSqlite.ChangesCursor
