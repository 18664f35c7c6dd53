import CrSqlite.GeneratedSql
import CrSqlite.Library.Run
import CrSqlite.Library.Savepoint

/-!
# AlterErrors - schema functions that fail

`crsql_as_crr`, `crsql_begin_alter` and `crsql_commit_alter` (crsqlite.c) work inside of
savepoints of their own, and roll back when a statement fails.  What SQLite does with a
statement stays a parameter, and an error is an error of the statement alone: errors on
which SQLite ends the transaction by itself, like a full disk, are left out.

Main results:

- Theorem {lit}`failedCall_undone_iff`: a call that fails leaves what was there before it,
  or before the begin of the alter, exactly when no transaction was open then, or nothing
  was done yet.
- Theorem {lit}`asCrr_ends_transaction`: a call for a missing table loses the writes of the
  transaction around it.
-/

namespace CrSqlite.SchemaCalls

open SqlText Savepoint

/-- An error message; there is none where `errmsg` stays unset. -/
abbrev ErrMsg := Option Text

/-- What SQLite does with statements and queries. -/
class SqliteDb where
  Contents : Type
  /-- A statement that fails is backed out. -/
  exec : Statement → Contents → Except Text Contents
  /-- The number in the first row; a query may not prepare, and may have no row. -/
  count : Statement → Contents → Option (Option Int)
  columns : Statement → Contents → Option (List ColumnInfo)
  /-- What keeps the contents from being committed. -/
  commitError : Contents → Option Text

open SqliteDb

section Calls

variable [SqliteDb]

/-- A function that runs statements; an error keeps what was done before it. -/
abbrev Routine := ExceptT ErrMsg (StateM Contents)

abbrev Connection := Conn Contents Text

/-- `sqlite3_exec`. -/
def execSafe (stmt : Statement) : Routine Unit := do
  match exec stmt (← get) with
  | .ok s => set s
  | .error msg => throw (some msg)

/-! ## Making a crr -/

/-- One query of `crsql_isTableCompatible`, with its two messages. -/
def checkCount (passes : Int → Bool) (unprepared refused : Text) (query : Statement) :
    Routine Unit := do
  match count query (← get) with
  | none => throw (some unprepared)
  | some none => throw none
  | some (some n) => unless passes n do throw (some refused)

/-- What each query of `crsql_isTableCompatible` checks. -/
def compatibilityChecks (tblName : Text) : List ((Int → Bool) × Text × Text) :=
  [(fun n => n == 0, "Failed to analyze index information for ".toList ++ tblName,
      "Table ".toList ++ tblName ++ (" has unique indices besides the primary key. " ++
        "This is not allowed for CRRs").toList),
    (fun n => n != 0, "Failed to analyze primary key information for ".toList ++ tblName,
      "Table ".toList ++ tblName ++ (" has no primary key. " ++
        "CRRs must have a primary key").toList),
    (fun n => n == 0, "Failed to analyze primary key information for ".toList ++ tblName,
      "Table ".toList ++ tblName ++ (" has foreign key constraints. CRRs must not have " ++
        "checked foreign key constraints as they can be violated by row level security " ++
        "or replication.").toList),
    (fun n => n == 0, "Failed to analyze default value information for ".toList ++ tblName,
      "Table ".toList ++ tblName ++ (" has a NOT NULL column without a DEFAULT VALUE. " ++
        "This is not allowed as it prevents forwards and backwards compatability between " ++
        "schema versions. Make the column nullable or assign a default value to it.").toList)]

/-- `crsql_isTableCompatible`. -/
def isTableCompatible (tblName : Text) : Routine Unit :=
  ((compatibilityChecks tblName).zip (GeneratedSql.isTableCompatible tblName)).forM
    fun ((passes, unprepared, refused), query) => checkCount passes unprepared refused query

/-- `crsql_getTableInfo`. -/
def getTableInfo (tblName : Text) : Routine TableInfo := do
  let s ← get
  match GeneratedSql.getTableInfo tblName with
  | [countQuery, columnQuery] =>
      match count countQuery s with
      | some (some numColInfos) =>
          match columns columnQuery s with
          | none => throw (some ("Failed to prepare select for crr -- ".toList ++ tblName))
          | some [] => throw (some ("Failed to parse crr definition -- ".toList ++ tblName))
          | some columnInfos =>
              if (columnInfos.length : Int) > numColInfos then throw none
              else if (columnInfos.length : Int) < numColInfos then
                throw (some ("Number of fetched columns did not match expected number " ++
                  "of columns").toList)
              else return ⟨tblName, columnInfos⟩
      | _ => throw (some ("Failed to find columns for crr -- ".toList ++ tblName))
  | _ => throw none

/-- `crsql_createClockTable`; the result of creating the index is not looked at. -/
def createClockTable (info : TableInfo) : Routine Unit := do
  execSafe (GeneratedSql.createClockTable info)
  match exec (GeneratedSql.createClockIndex info) (← get) with
  | .ok s => set s
  | .error _ => pure ()

/-- `crsql_removeCrrTriggersIfExist`. -/
def removeCrrTriggersIfExist (tblName : Text) : Routine Unit := do
  execSafe (GeneratedSql.dropTrigger tblName GeneratedSql.itrig)
  execSafe (GeneratedSql.dropTrigger tblName GeneratedSql.utrig)
  execSafe (GeneratedSql.dropTrigger tblName GeneratedSql.dtrig)

/-- `crsql_createCrrTriggers`: without a column outside the key there is only the
trigger for deletes. -/
def createCrrTriggers (info : TableInfo) : Routine Unit := do
  unless info.nonPks.isEmpty do
    execSafe (GeneratedSql.createInsertTrigger info)
    execSafe (GeneratedSql.createUpdateTrigger info)
  execSafe (GeneratedSql.deleteTriggerQuery info)

/-- `createCrr`. -/
def createCrr (tblName : Text) : Routine Unit := do
  isTableCompatible tblName
  let info ← getTableInfo tblName
  createClockTable info
  removeCrrTriggersIfExist info.tblName
  createCrrTriggers info

/-- `crsql_compactPostAlter`. -/
def compactPostAlter (tblName : Text) : Routine Unit :=
  execSafe (GeneratedSql.compactPostAlter tblName)

/-! ## The three functions -/

/-- The table name among the arguments: with two of them the first is a schema name. -/
def tableArg : List Text → Option Text
  | [] => none
  | [_, tblName] => some tblName
  | tblName :: _ => some tblName

omit [SqliteDb] in
/-- There is no table name only without arguments. -/
theorem tableArg_eq_none_iff {args : List Text} : tableArg args = none ↔ args = [] := by
  match args with
  | [] => simp [tableArg]
  | [_] => simp [tableArg]
  | [_, _] => simp [tableArg]
  | _ :: _ :: _ :: _ => simp [tableArg]

def wrongNumberOfArgs (function : String) : ErrMsg :=
  some ("Wrong number of args provided to ".toList ++ function.toList ++
    ". Provide the schema name and table name or just the table name.".toList)

def asCrrSavepoint : Text :=
  "as_crr".toList

def alterCrrSavepoint : Text :=
  "alter_crr".toList

def mayCommit (s : Contents) : Bool :=
  (commitError s).isNone

/-- The message of a `RELEASE` that fails. -/
def releaseError (busy : Bool) (name : Text) (c : Connection) : Text :=
  if c.downTo name = [] then "no such savepoint: ".toList ++ name
  else if busy then "cannot release savepoint - SQL statements in progress".toList
  else (commitError c.data).getD []

/-- What `crsqlMakeCrrFunc` and `crsqlBeginAlterFunc` share; `busy` says that the statement
of the call writes. -/
def insideSavepoint (savepoint : Text) (body : Text → Routine Unit)
    (finish : Connection → Connection) (busy : Bool) (args : List Text) (c : Connection) :
    Connection × Except ErrMsg Unit :=
  match tableArg args with
  | none => (c, .error (wrongNumberOfArgs "crsql_as_crr"))
  | some tblName =>
      if busy then (c, .error (some "cannot open savepoint - SQL statements in progress".toList))
      else
        match (body tblName).run c.data with
        | (.error msg, s) => (((c.savepoint savepoint).put s).orSame Conn.rollback, .error msg)
        | (.ok (), s) => (finish ((c.savepoint savepoint).put s), .ok ())

/-- `crsqlMakeCrrFunc`. -/
def asCrr (busy : Bool) (args : List Text) (c : Connection) :
    Connection × Except ErrMsg Unit :=
  insideSavepoint asCrrSavepoint createCrr
    (fun d => d.orSame (Conn.release mayCommit asCrrSavepoint)) busy args c

/-- `crsqlBeginAlterFunc`: its savepoint stays open. -/
def beginAlter (busy : Bool) (args : List Text) (c : Connection) :
    Connection × Except ErrMsg Unit :=
  insideSavepoint alterCrrSavepoint removeCrrTriggersIfExist id busy args c

/-- What `crsqlCommitAlterFunc` does before it releases the savepoint. -/
def finishAlter (tblName : Text) : Routine Unit := do
  compactPostAlter tblName
  createCrr tblName

/-- `crsqlCommitAlterFunc`. -/
def commitAlter (busy : Bool) (args : List Text) (c : Connection) :
    Connection × Except ErrMsg Unit :=
  match tableArg args with
  | none => (c, .error (wrongNumberOfArgs "crsql_commit_alter"))
  | some tblName =>
      match (finishAlter tblName).run c.data with
      | (.error msg, s) => ((c.put s).orSame Conn.rollback, .error msg)
      | (.ok (), s) =>
          match if busy then none else (c.put s).release mayCommit alterCrrSavepoint with
          | some released => (released, .ok ())
          | none =>
              ((c.put s).orSame Conn.rollback,
                .error (some (releaseError busy alterCrrSavepoint (c.put s))))

/-! ## What a failing call undoes -/

inductive Call where
  | asCrr (args : List Text)
  | beginAlter (args : List Text)
  | commitAlter (args : List Text)

def Call.run (busy : Bool) : Call → Connection → Connection × Except ErrMsg Unit
  | .asCrr args => SchemaCalls.asCrr busy args
  | .beginAlter args => SchemaCalls.beginAlter busy args
  | .commitAlter args => SchemaCalls.commitAlter busy args

/-- The stack right after a begin of an alter. -/
def levelsOfBegin (before : Connection) : List (Level Contents Text) :=
  ⟨some alterCrrSavepoint, before.data⟩ :: before.levels

/-- A successful begin at `before` and commands that kept its savepoint open led to the
connection, and no later begin of an alter is still open. -/
def Matching (before c : Connection) : Prop :=
  ∃ busy args cmds above, (beginAlter busy args before).2 = .ok () ∧
    Run.Always (step mayCommit) (fun d => levelsOfBegin before <:+ d.levels)
      (beginAlter busy args before).1 cmds ∧
    Run.exec (step mayCommit) (beginAlter busy args before).1 cmds = c ∧
    c.levels = above ++ levelsOfBegin before ∧
    ∀ l ∈ above, l.name ≠ some alterCrrSavepoint

/-- What has to be there again after the call has failed. -/
def Call.Restores : Call → Connection → Connection → Prop
  | .asCrr _, c, before => before = c
  | .beginAlter _, c, before => before = c
  | .commitAlter _, c, before => Matching before c

/-- No transaction was open to begin with.  A call that fails before it opens its
savepoint does nothing, and a commit without arguments does not roll back. -/
def Call.UndoesItself (busy : Bool) : Call → Connection → Prop
  | .asCrr args, before => before.Idle ∨ args = [] ∨ busy = true
  | .beginAlter args, before => before.Idle ∨ args = [] ∨ busy = true
  | .commitAlter args, before => before.Idle ∧ args ≠ []

variable {busy : Bool} {args : List Text} {c before : Connection} {e : ErrMsg}

/-- A rollback inside a savepoint that was just opened. -/
private theorem rollback_savepoint_iff (name : Text) (s : Contents) :
    ((c.savepoint name).put s).orSame Conn.rollback = c ↔ c.Idle := by
  constructor
  · intro h
    rw [← h]
    exact idle_rollback _
  · intro h
    exact rollback_savepoint h name s

/-- A call that fails inside of its savepoint leaves what was there exactly when no transaction
was open, or it did not get to open the savepoint. -/
theorem insideSavepoint_undone_iff {savepoint : Text} {body : Text → Routine Unit}
    {finish : Connection → Connection}
    (herr : (insideSavepoint savepoint body finish busy args c).2 = .error e) :
    (insideSavepoint savepoint body finish busy args c).1 = c ↔
      c.Idle ∨ args = [] ∨ busy = true := by
  cases htbl : tableArg args with
  | none =>
      have hargs := tableArg_eq_none_iff.mp htbl
      have hsame : (insideSavepoint savepoint body finish busy args c).1 = c := by
        rw [insideSavepoint, htbl]
      exact iff_of_true hsame (Or.inr (Or.inl hargs))
  | some tblName =>
      have hargs : args ≠ [] := fun h => by simp [h, tableArg] at htbl
      cases busy with
      | true => simp [insideSavepoint, htbl]
      | false =>
          cases hrun : (body tblName).run c.data with
          | mk result s =>
              cases result with
              | error msg => simp [insideSavepoint, htbl, hrun, rollback_savepoint_iff, hargs]
              | ok _ => simp [insideSavepoint, htbl, hrun] at herr

/-- A commit with arguments that fails rolls back. -/
private theorem commitAlter_error (hargs : args ≠ [])
    (herr : (commitAlter busy args c).2 = .error e) :
    ∃ s, (commitAlter busy args c).1 = (c.put s).orSame Conn.rollback := by
  obtain ⟨tblName, htbl⟩ := Option.ne_none_iff_exists'.mp (mt tableArg_eq_none_iff.mp hargs)
  cases hrun : (finishAlter tblName).run c.data with
  | mk result s =>
      refine ⟨s, ?_⟩
      cases result with
      | error msg => simp [commitAlter, htbl, hrun]
      | ok _ =>
          cases hrelease : if busy then none else
              (c.put s).release mayCommit alterCrrSavepoint with
          | none => simp [commitAlter, htbl, hrun, hrelease]
          | some released => simp [commitAlter, htbl, hrun, hrelease] at herr

/-- A commit that fails takes back all since its begin exactly when no transaction was open then,
and it rolls back at all. -/
theorem commitAlter_undone_iff {above : List (Level Contents Text)}
    (hlevels : c.levels = above ++ levelsOfBegin before)
    (herr : (commitAlter busy args c).2 = .error e) :
    (commitAlter busy args c).1 = before ↔ before.Idle ∧ args ≠ [] := by
  obtain ⟨data, levels⟩ := before
  by_cases hargs : args = []
  · subst hargs
    have hne : c ≠ ⟨data, levels⟩ := by
      rintro rfl
      have hlen := congrArg List.length hlevels
      simp only [levelsOfBegin, List.length_append, List.length_cons] at hlen
      omega
    simp [commitAlter, tableArg, hne]
  · obtain ⟨s, hs⟩ := commitAlter_error hargs herr
    have hput : c.put s = ⟨s, above ++ ⟨some alterCrrSavepoint, data⟩ :: levels⟩ := by
      rw [Conn.put, hlevels, levelsOfBegin]
    rw [hs, hput, rollback_eq_iff, and_iff_left hargs, Conn.Idle]

/-- A call that fails leaves what was there before it, or before the begin of the alter,
exactly when no transaction was open then, or nothing was done yet. -/
theorem failedCall_undone_iff {call : Call} (hbefore : call.Restores c before)
    (herr : (call.run busy c).2 = .error e) :
    (call.run busy c).1 = before ↔ call.UndoesItself busy before := by
  cases call with
  | asCrr args =>
      obtain rfl : before = c := hbefore
      exact insideSavepoint_undone_iff herr
  | beginAlter args =>
      obtain rfl : before = c := hbefore
      exact insideSavepoint_undone_iff herr
  | commitAlter args =>
      obtain ⟨_, _, _, above, -, -, -, hlevels, -⟩ := hbefore
      exact commitAlter_undone_iff hlevels herr

end Calls

/-! ## A table that is not there -/

/-- A database with a counter and no table to make a crr of. -/
@[reducible]
def noTables : SqliteDb where
  Contents := Nat
  exec _ s := .ok s
  count _ _ := some (some 0)
  columns _ _ := some []
  commitError _ := none

/-- The connection behind the begin of an alter and a write of the user's. -/
def alteringOne : @Connection noTables :=
  Run.exec (step (@mayCommit noTables)) (@beginAlter noTables false ["foo".toList] ⟨(1 : Nat), []⟩).1
    [.write fun n : Nat => some (n + 1)]

/-- The begin outside of a transaction is the one that matches. -/
theorem matching_alteringOne : @Matching noTables ⟨(1 : Nat), []⟩ alteringOne :=
  ⟨false, ["foo".toList], [.write fun n : Nat => some (n + 1)], [], rfl,
    ⟨List.suffix_rfl, List.suffix_rfl⟩, rfl, rfl, fun _ h => nomatch h⟩

/-- A commit that fails takes back what was written since its begin outside of a transaction.
Inside of one a call for a missing table takes back more than itself. -/
theorem failedCall_undone_iff_missing :
    (@Call.run noTables false (.commitAlter ["foo".toList]) alteringOne).1 = ⟨(1 : Nat), []⟩ ∧
      (@Call.run noTables false (.asCrr ["foo".toList]) ⟨(1 : Nat), [⟨none, (0 : Nat)⟩]⟩).1 ≠
        ⟨(1 : Nat), [⟨none, (0 : Nat)⟩]⟩ := by
  constructor
  · refine (@failedCall_undone_iff noTables false alteringOne ⟨(1 : Nat), []⟩ _
      (.commitAlter ["foo".toList]) matching_alteringOne rfl).mpr ⟨rfl, ?_⟩
    exact List.cons_ne_nil _ _
  · intro hsame
    have hundone := (@failedCall_undone_iff noTables false _ ⟨(1 : Nat), [⟨none, (0 : Nat)⟩]⟩
      _ (.asCrr ["foo".toList]) rfl rfl).mp hsame
    rcases hundone with hidle | hargs | hbusy
    · exact List.cons_ne_nil _ _ hidle
    · exact List.cons_ne_nil _ _ hargs
    · cases hbusy

/-- A call for a missing table loses the writes of the transaction around it. -/
theorem asCrr_ends_transaction :
    ¬∀ (call : Call) (c before : @Connection noTables) (e : ErrMsg),
      @Call.Restores noTables call c before → (@Call.run noTables false call c).2 = .error e →
        (@Call.run noTables false call c).1 = before := by
  intro h
  have hsame := h (.asCrr ["foo".toList]) ⟨(1 : Nat), [⟨none, (0 : Nat)⟩]⟩ _ _ rfl rfl
  have hdata := congrArg Conn.data hsame
  exact absurd hdata Nat.zero_ne_one

end CrSqlite.SchemaCalls
