import CrSqlite.ChangesRead
import CrSqlite.GeneratedSql

/-!
# MergeStatements - a merge, statement by statement

`crsql_mergeInsert` runs its statement on the user's table with the sync bit raised, so
that no trigger logs it, and writes one clock entry of its own.  The statements name the
table and the key columns between double quotes as they are, and a column stores and
compares a value as its affinity converts it; the columns of a clock table have no
affinity.  The merge is given here a second time, statement by statement, with the bit,
the names as SQL reads them and the affinities; the two statements on the bit itself do
not fail.

Main results:

- Theorem {lit}`Tracked.merge_eq`: where SQL reads the names back and the key and the value
  are written as the columns store them, it is the merge of the module Merge, and the bit
  is clear again behind every exit.
- Theorem {lit}`mergeSql_eq`: the same for a merge into a replica.
- Theorem {lit}`exec_stepSql`: the same for a run of a connection.
-/

namespace CrSqlite

open GeneratedSql SqlText

/-! ## Names and affinities -/

/-- What a column of a user's table stores for a value: the conversion by the affinity of
its declared type, which makes no NULL. -/
class Affinity where
  store : ColumnInfo → SqlValue → SqlValue
  null_of_store : ∀ c v, store c v = .null → v = .null

/-- Columns without a type, which store every value as it is given.  They serve to run the
model. -/
@[reducible]
def noAffinity : Affinity where
  store _ v := v
  null_of_store _ _ h := h

/-- What SQL reads for a text that is printed with `%s` between quotes; none when a quote is
left over and the text runs on into the rest of the statement, which is an error here. -/
def readRaw (q : Char) (t : Text) : Option Text :=
  match readQuoted q (t ++ [q]) with
  | some (read, []) => some read
  | _ => none

/-- What SQL reads for several names between double quotes. -/
def readRaws : List Text → Option (List Text)
  | [] => some []
  | name :: names =>
      match readRaw doubleQuote name, readRaws names with
      | some read, some reads => some (read :: reads)
      | _, _ => none

/-- A name without such quotes is read as it is. -/
theorem readRaw_of_plain {q : Char} {t : Text} (h : q ∉ t) : readRaw q t = some t := by
  have hread : readQuoted q (doubled q t ++ [q]) = some (t, []) := readQuoted_doubled (by simp) t
  rw [doubled_of_notMem h] at hread
  rw [readRaw, hread]

/-- So are several of them. -/
theorem readRaws_of_plain {names : List Text} (h : ∀ name ∈ names, doubleQuote ∉ name) :
    readRaws names = some names := by
  induction names with
  | nil => rfl
  | cons name names ih =>
      obtain ⟨hname, hnames⟩ := List.forall_mem_cons.mp h
      rw [readRaws, readRaw_of_plain hname, ih hnames]

/-- What is read without such a quote stands there as it is. -/
theorem readRaw_eq_of_notMem {q : Char} {t read : Text} (h : readRaw q t = some read)
    (hread : q ∉ read) : t = read := by
  unfold readRaw at h
  split at h
  · rename_i x hx
    obtain rfl := Option.some.inj h
    have htext := readQuoted_eq_some hx
    rw [doubled_of_notMem hread] at htext
    exact List.append_cancel_right htext
  · cases h

/-- SQL reads the name of the table and those of its key columns as they are. -/
def TableInfo.PlainNames (info : TableInfo) : Prop :=
  TableNamePlain info.tblName ∧ KeyNamesPlain info.pks

instance (info : TableInfo) : Decidable info.PlainNames :=
  inferInstanceAs (Decidable ((_ ∧ _) ∧ ∀ c ∈ info.pks, doubleQuote ∉ c.name))

/-- SQL reads the names of all tables and key columns as they are. -/
def Db.PlainNames (db : Db) : Prop :=
  ∀ t ∈ db.tables, t.info.PlainNames

instance (db : Db) : Decidable db.PlainNames :=
  inferInstanceAs (Decidable (∀ t ∈ db.tables, _))

/-- `CREATE TABLE foo ("a""""" NOT NULL PRIMARY KEY, b)`: the key column is called `a""`. -/
def quotedSchema : CrrSchema where
  info :=
    { tblName := ['f', 'o', 'o']
      baseCols := [⟨0, ['a', '"', '"'], [], true, 1⟩, ⟨1, ['b'], [], false, 0⟩] }
  dflt _ := .null
  pks_ne_nil := by decide

/-- The statements the extension writes over such tables name what they are written for. -/
theorem Db.PlainNames.readsBack {db : Db} (h : db.PlainNames) {s : Statement}
    (hs : Generated (db.tables.map CrrTable.info) s) : s.ReadsBack := by
  refine hs.readsBack fun info hinfo => ?_
  obtain ⟨t, ht, rfl⟩ := List.mem_map.mp hinfo
  exact h t ht

/-- Statements change no names. -/
theorem Db.PlainNames.of_schemas {db db' : Db} (h : db.PlainNames)
    (hschemas : db'.tables.map CrrTable.schema = db.tables.map CrrTable.schema) :
    db'.PlainNames := by
  intro t ht
  have hmem : t.schema ∈ db.tables.map CrrTable.schema := by
    rw [← hschemas]
    exact List.mem_map_of_mem ht
  obtain ⟨u, hu, heq⟩ := List.mem_map.mp hmem
  rw [CrrTable.info, ← heq]
  exact h u hu

/-- The column that a name between double quotes stands for, if there is one. -/
def columnNamed (info : TableInfo) (name : Text) : Option ColumnInfo :=
  info.baseCols.find? fun c => sameName c.name name

/-- The value that a name between double quotes stands for in a row: that of a column, or
the name itself as a string. -/
def BaseRow.named (info : TableInfo) (r : BaseRow) (name : Text) : SqlValue :=
  match keyColumn info r.key name, columnNamed info name with
  | some v, _ => v
  | none, some c => r.val c.name
  | none, none => .text name

/-- The same in a row of the clock table. -/
def ClockEntry.named (info : TableInfo) (e : ClockEntry) (name : Text) : SqlValue :=
  (keyColumn info e.key name).getD (.text name)

/-- What a WHERE list compares with its constants.  The names of the key columns stand for
the key itself. -/
def comparands (info : TableInfo) (key : Key) (value : Text → SqlValue) (names : List Text) :
    Key :=
  if names = info.pks.map ColumnInfo.name then key else names.map value

section Affinity

variable [Affinity]

/-- A key as the key columns store it. -/
def storeKey (info : TableInfo) (key : Key) : Key :=
  List.zipWith Affinity.store info.pks key

/-- A value as the column of that name stores it. -/
def storeValue (info : TableInfo) (colName : Text) (v : SqlValue) : SqlValue :=
  (columnNamed info colName).elim v fun c => Affinity.store c v

/-- The constants of a WHERE list over the user's table, converted for the columns they are
compared with. -/
def converted (info : TableInfo) (vals : Key) (names : List Text) : Key :=
  if names = info.pks.map ColumnInfo.name then storeKey info vals
  else List.zipWith (storeValue info) names vals

/-- The row meets the WHERE list. -/
def BaseRow.meets (info : TableInfo) (names : List Text) (vals : Key) (r : BaseRow) : Bool :=
  whereTrue (comparands info r.key (r.named info) names) (converted info vals names)

end Affinity

/-- The row of the clock table meets the WHERE list. -/
def ClockEntry.meets (info : TableInfo) (names : List Text) (vals : Key) (e : ClockEntry) : Bool :=
  whereTrue (comparands info e.key (e.named info) names) vals

/-- The names of a WHERE list as SQL reads them. -/
def whereNames (pkWhereList : List (Text × Text)) : Option (List Text) :=
  readRaws (pkWhereList.map Prod.fst)

/-- The name of the table is read as it is.  Otherwise the statements that print it with
`%s` find no table. -/
def TableInfo.isFound (info : TableInfo) : Bool :=
  readRaw doubleQuote info.tblName = some info.tblName

/-! ## Statements under the sync bit -/

/-- A table with the sync bit of its connection. -/
structure Tracked where
  table : CrrTable
  syncBit : Bool

/-- `crsqlSyncBit` with an argument. -/
def Tracked.setSyncBit (bit : Bool) (s : Tracked) : Tracked :=
  { s with syncBit := bit }

/-- `SET_SYNC_BIT`, a statement whose triggers read the bit, and `CLEAR_SYNC_BIT`, which is
run whether the statement fails or not. -/
def Tracked.execUnderBit (stmt : Bool → CrrTable → Option CrrTable) (s : Tracked) :
    Tracked × Bool :=
  let s := s.setSyncBit true
  match stmt s.syncBit s.table with
  | none => (s.setSyncBit false, false)
  | some t => (({ s with table := t } : Tracked).setSyncBit false, true)

/-- A statement under the bit leaves the bit clear. -/
theorem execUnderBit_eq (stmt : Bool → CrrTable → Option CrrTable) (s : Tracked) :
    s.execUnderBit stmt = (⟨(stmt true s.table).getD s.table, false⟩,
      (stmt true s.table).isSome) := by
  unfold Tracked.execUnderBit
  dsimp only [Tracked.setSyncBit]
  cases stmt true s.table <;> rfl

section Stmts

variable [Sqlite] [Affinity]

/-- `SELECT count(*) FROM clock WHERE .. AND __crsql_col_name = '__crsql_del'` gives one; a
statement that fails does not. -/
def checkForLocalDeleteStmt (t : CrrTable) (pkWhereList : List (Text × Text)) : Bool :=
  match whereNames pkWhereList with
  | none => false
  | some names =>
      t.info.isFound &&
        match readLiterals (whereTexts pkWhereList) with
        | some vals =>
            (t.clock.filter fun e =>
              e.meets t.info names vals && e.colName = delSentinel).length = 1
        | none =>
            match pkWhereList with
            | [(_, raw)] =>
                Sqlite.rawDeleteCount raw
                  (t.clock.map fun e => (comparands t.info e.key (e.named t.info) names, e.colName))
                  = some 1
            | _ => false

/-- `INSERT OR IGNORE INTO tbl (keys) VALUES (..)`. -/
def insertOrIgnoreStmt (next : Int) (pkVals : List Text) (syncBit : Bool) (t : CrrTable) :
    Option CrrTable :=
  if t.info.isFound then
    (readLiterals pkVals).map fun key =>
      (insertRow syncBit next ⟨storeKey t.info key, t.schema.dflt⟩ t).getD t
  else none

/-- `DELETE FROM tbl WHERE ..`. -/
def deleteStmt (next : Int) (pkWhereList : List (Text × Text)) (syncBit : Bool) (t : CrrTable) :
    Option CrrTable :=
  match whereNames pkWhereList, readLiterals (whereTexts pkWhereList) with
  | some names, some vals =>
      if t.info.isFound then
        some ((t.rows.filter fun r => r.meets t.info names vals).foldl (deleteTrigger syncBit next)
          { t with rows := t.rows.filter fun r => !r.meets t.info names vals })
      else none
  | _, _ => none

/-- `INSERT INTO tbl (keys, col) VALUES (..) ON CONFLICT DO UPDATE SET col = val`. -/
def upsertStmt (next : Int) (pkVals : List Text) (colName sanitizedInsertVal : Text)
    (syncBit : Bool) (t : CrrTable) : Option CrrTable :=
  match readLiterals pkVals, readLiteral sanitizedInsertVal with
  | some key, some val =>
      let v := storeValue t.info colName val
      let new : BaseRow := ⟨storeKey t.info key, Function.update t.schema.dflt colName v⟩
      if constraintsOk t.schema new then
        match t.rows.find? fun b => Keyed.Conflicts BaseRow.ident new b with
        | none => insertRow syncBit next new t
        | some old =>
            if t.schema.check (old.setColumn colName v) then
              some (updateTrigger syncBit next old (old.setColumn colName v)
                { t with
                  rows := Keyed.upsert BaseRow.ident (BaseRow.setColumn colName v) new t.rows })
            else none
      else none
  | _, _ => none

/-! ## The merge, statement by statement -/

/-- `crsql_setWinnerClock`; the clock table has no triggers. -/
def Tracked.setWinnerClock (next : Int) (pkVals : List Text) (colName : Text) (ch : Change)
    (s : Tracked) : Tracked × Bool :=
  match readLiterals pkVals with
  | none => (s, false)
  | some key =>
      if s.table.info.isFound then
        ({ s with table := CrSqlite.setWinnerClock next key colName ch s.table }, true)
      else (s, false)

/-- `crsql_mergePkOnlyInsert`.  No error message is set for a failing statement. -/
def Tracked.mergePkOnlyInsert (next : Int) (pkVals : List Text) (ch : Change) (s : Tracked) :
    Tracked × Option Text :=
  match s.execUnderBit (insertOrIgnoreStmt next pkVals) with
  | (s, false) => (s, some [])
  | (s, true) =>
      match s.setWinnerClock next pkVals pkoSentinel ch with
      | (s, false) => (s, some [])
      | (s, true) => (s, none)

/-- `crsql_mergeDelete`.  No error message is set for a failing statement. -/
def Tracked.mergeDelete (next : Int) (pkWhereList : List (Text × Text)) (pkVals : List Text)
    (ch : Change) (s : Tracked) : Tracked × Option Text :=
  match s.execUnderBit (deleteStmt next pkWhereList) with
  | (s, false) => (s, some [])
  | (s, true) =>
      match s.setWinnerClock next pkVals delSentinel ch with
      | (s, false) => (s, some [])
      | (s, true) => (s, none)

/-- The two statements of `crsql_didCidWin`.  The first one prints the table's name with
`%s`, the second one doubles its quotes. -/
def didCidWinStmts (pkWhereList : List (Text × Text)) (sanitizedInsertVal : Text) (ch : Change)
    (t : CrrTable) : Except Text Bool :=
  match whereNames pkWhereList, readLiterals (whereTexts pkWhereList), t.info.isFound with
  | some names, some vals, true =>
      match t.clock.find? fun e => e.meets t.info names vals && e.colName = ch.cid with
      | none => .ok true
      | some e =>
          if e.colVersion < ch.colVersion then .ok true
          else if ch.colVersion < e.colVersion then .ok false
          else
            match t.rows.find? fun r => r.meets t.info names vals with
            | none =>
                .error (message "could not find row to merge with for tbl " ++ t.info.tblName)
            | some r => .ok (quote (r.column t.info ch.cid) < sanitizedInsertVal)
  | _, _, _ => .error (message "Failed preparing stmt to select local column version")

/-- The last part of `crsql_mergeInsert`, for a column of the table. -/
def Tracked.mergeColumn (next : Int) (pkWhereList : List (Text × Text)) (pkVals : List Text)
    (ch : Change) (s : Tracked) : Tracked × Option Text :=
  match ch.val.bind fun val => splitQuoteConcat val 1 with
  | some [val] =>
      match didCidWinStmts pkWhereList val ch s.table with
      | .error msg => (s, some msg)
      | .ok false => (s, none)
      | .ok true =>
          match s.execUnderBit (upsertStmt next pkVals ch.cid val) with
          | (s, false) => (s, some (message "Failed inserting changeset"))
          | (s, true) =>
              match s.setWinnerClock next pkVals ch.cid ch with
              | (s, false) => (s, some (message "Failed updating winner clock"))
              | (s, true) => (s, none)
  | _ => (s, some (message "Failed sanitizing value for changeset"))

/-- `crsql_mergeInsert` once the table is known. -/
def Tracked.merge (next : Int) (ch : Change) (s : Tracked) : Tracked × Option Text :=
  match extractWhereList s.table.info.pks ch.pk with
  | none => (s, some (message "crsql - failed decoding primary keys for insert"))
  | some pkWhereList =>
      if checkForLocalDeleteStmt s.table pkWhereList then (s, none)
      else
        match quoteConcatedValuesAsList ch.pk s.table.info.pks.length with
        | none => (s, some (message "Failed sanitizing pk values"))
        | some pkVals =>
            if ch.cid = delSentinel then s.mergeDelete next pkWhereList pkVals ch
            else if ch.cid = pkoSentinel ∨ !columnExists ch.cid s.table.info.nonPks then
              s.mergePkOnlyInsert next pkVals ch
            else s.mergeColumn next pkWhereList pkVals ch

/-! ## The two descriptions of a merge agree -/

/-- The key of a change is written as the key columns store it. -/
def KeyAsStored (info : TableInfo) (pk : Text) : Prop :=
  ∀ parts ∈ splitQuoteConcat pk info.pks.length, ∀ key ∈ readLiterals parts,
    storeKey info key = key

instance (info : TableInfo) (pk : Text) : Decidable (KeyAsStored info pk) :=
  inferInstanceAs (Decidable (∀ parts ∈ splitQuoteConcat pk info.pks.length, _))

/-- The value of a change is written as its column stores it. -/
def ValueAsStored (info : TableInfo) (ch : Change) : Prop :=
  ∀ val ∈ ch.val, ∀ parts ∈ splitQuoteConcat val 1, ∀ vals ∈ readLiterals parts, ∀ v ∈ vals,
    storeValue info ch.cid v = v

instance (info : TableInfo) (ch : Change) : Decidable (ValueAsStored info ch) :=
  inferInstanceAs (Decidable (∀ val ∈ ch.val, ∀ parts ∈ splitQuoteConcat val 1, _))

/-- The key of a change is written as the key columns store it, and its value, if it is about
a column, as that column does. -/
def AsStored (info : TableInfo) (ch : Change) : Prop :=
  KeyAsStored info ch.pk ∧ (columnExists ch.cid info.nonPks = true → ValueAsStored info ch)

instance (info : TableInfo) (ch : Change) : Decidable (AsStored info ch) :=
  inferInstanceAs (Decidable (_ ∧ (_ → _)))

variable {next : Int} {ch : Change} {t : CrrTable} {wheres : List (Text × Text)}
  {pkVals : List Text} {key : Key}

omit [Sqlite] [Affinity] in
/-- A table with a plain name is found. -/
theorem TableInfo.PlainNames.isFound {info : TableInfo} (h : info.PlainNames) :
    info.isFound = true := by
  rw [TableInfo.isFound, readRaw_of_plain h.1.1]
  exact decide_eq_true rfl

omit [Sqlite] [Affinity] in
/-- The names of the key columns are read as they are. -/
theorem TableInfo.PlainNames.whereNames {info : TableInfo} (h : info.PlainNames) {pk : Text}
    (hwheres : extractWhereList info.pks pk = some wheres) :
    whereNames wheres = some (info.pks.map ColumnInfo.name) := by
  have hfst : wheres.map Prod.fst = info.pks.map ColumnInfo.name := by
    unfold extractWhereList at hwheres
    obtain ⟨parts, hparts, rfl⟩ := Option.map_eq_some_iff.mp hwheres
    refine List.map_fst_zip ?_
    rw [List.length_map]
    split at hparts
    · rename_i hone
      rw [← Option.some.inj hparts, hone]
      exact le_rfl
    · exact (length_of_splitQuoteConcat hparts).ge
  rw [CrSqlite.whereNames, hfst]
  refine readRaws_of_plain fun name hname => ?_
  obtain ⟨c, hc, rfl⟩ := List.mem_map.mp hname
  exact h.2 c hc

omit [Sqlite] in
/-- A row meets a key that is as the columns store it when it has that key. -/
theorem BaseRow.meets_eq {info : TableInfo} (hstore : storeKey info key = key) (r : BaseRow) :
    r.meets info (info.pks.map ColumnInfo.name) key = whereTrue r.key key := by
  rw [BaseRow.meets, comparands, if_pos rfl, converted, if_pos rfl, hstore]

omit [Sqlite] [Affinity] in
/-- An entry meets a key when it has that key. -/
theorem ClockEntry.meets_eq {info : TableInfo} (vals : Key) (e : ClockEntry) :
    e.meets info (info.pks.map ColumnInfo.name) vals = whereTrue e.key vals := by
  rw [ClockEntry.meets, comparands, if_pos rfl]

section Plain

variable (hplain : t.info.PlainNames)

include hplain

omit [Affinity] in
/-- The query for a local delete finds the sentinel of the key. -/
theorem checkForLocalDeleteStmt_eq (hwheres : extractWhereList t.info.pks ch.pk = some wheres) :
    checkForLocalDeleteStmt t wheres = checkForLocalDelete t wheres := by
  rw [checkForLocalDeleteStmt, hplain.whereNames hwheres]
  simp only [hplain.isFound, Bool.true_and, ClockEntry.meets_eq, comparands, if_true]
  rfl

/-- The DELETE takes the rows of the key. -/
theorem deleteStmt_eq (hwheres : extractWhereList t.info.pks ch.pk = some wheres)
    (hread : readLiterals (whereTexts wheres) = some key) (hstore : storeKey t.info key = key) :
    deleteStmt next wheres true t = some (deleteWhere next key t) := by
  rw [deleteStmt, hplain.whereNames hwheres, hread]
  simp only [hplain.isFound, if_true, BaseRow.meets_eq hstore]
  rfl

/-- The INSERT OR IGNORE inserts the key with the defaults. -/
theorem insertOrIgnoreStmt_eq (hread : readLiterals pkVals = some key)
    (hstore : storeKey t.info key = key) :
    insertOrIgnoreStmt next pkVals true t = some (insertOrIgnore next key t) := by
  rw [insertOrIgnoreStmt, if_pos hplain.isFound, hread, Option.map_some, hstore]
  rfl

omit [Affinity] in
/-- The clock entry is written, and the bit is clear. -/
theorem Tracked.setWinnerClock_eq (hread : readLiterals pkVals = some key) (col : Text)
    {u : CrrTable} (hinfo : u.info = t.info) :
    (⟨u, false⟩ : Tracked).setWinnerClock next pkVals col ch =
      (⟨CrSqlite.setWinnerClock next key col ch u, false⟩, true) := by
  rw [Tracked.setWinnerClock, hread]
  dsimp only
  rw [hinfo, if_pos hplain.isFound]

end Plain

/-- The write of a column, whatever the affinities make of key and value. -/
theorem upsertStmt_eq (hread : readLiterals pkVals = some key) (col val : Text) :
    upsertStmt next pkVals col val true t = (readLiteral val).bind fun v =>
      upsertColumn next (storeKey t.info key) col (storeValue t.info col v) t := by
  rw [upsertStmt, hread]
  cases readLiteral val <;> rfl

/-- A merge of either kind as a result with the bit clear. -/
def settled (t : CrrTable) : Except Text CrrTable → Tracked × Option Text
  | .error msg => (⟨t, false⟩, some msg)
  | .ok t' => (⟨t', false⟩, none)

/-- The key and the WHERE list of a change that is written as the table stores it. -/
structure Plainly (t : CrrTable) (ch : Change) (wheres : List (Text × Text)) : Prop where
  names : t.info.PlainNames
  wheres : extractWhereList t.info.pks ch.pk = some wheres

variable (hch : Plainly t ch wheres)

include hch

/-- A merged delete, statement by statement. -/
theorem Tracked.mergeDelete_eq (hwhere : readLiterals (whereTexts wheres) = some key)
    (hread : readLiterals pkVals = some key) (hstore : storeKey t.info key = key) :
    (⟨t, false⟩ : Tracked).mergeDelete next wheres pkVals ch =
      settled t (.ok (CrSqlite.mergeDelete next key ch t)) := by
  have hinfo : (deleteWhere next key t).info = t.info := by rw [deleteWhere_eq]; rfl
  rw [Tracked.mergeDelete, execUnderBit_eq, deleteStmt_eq hch.names hch.wheres hwhere hstore]
  simp only [Option.isSome_some, Option.getD_some,
    Tracked.setWinnerClock_eq hch.names hread delSentinel hinfo]
  rfl

/-- A merged key, statement by statement. -/
theorem Tracked.mergePkOnlyInsert_eq (hread : readLiterals pkVals = some key)
    (hstore : storeKey t.info key = key) :
    (⟨t, false⟩ : Tracked).mergePkOnlyInsert next pkVals ch =
      settled t (.ok (CrSqlite.mergePkOnlyInsert next key ch t)) := by
  have hinfo : (insertOrIgnore next key t).info = t.info := by
    rw [insertOrIgnore_eq]
    split <;> rfl
  rw [Tracked.mergePkOnlyInsert, execUnderBit_eq, insertOrIgnoreStmt_eq hch.names hread hstore]
  simp only [Option.isSome_some, Option.getD_some,
    Tracked.setWinnerClock_eq hch.names hread pkoSentinel hinfo]
  rfl

/-- The comparison with the local version and value, statement by statement. -/
theorem didCidWinStmts_eq (hwhere : readLiterals (whereTexts wheres) = some key)
    (hstore : storeKey t.info key = key) (text : Text) :
    didCidWinStmts wheres text ch t = didCidWin key text ch t := by
  rw [didCidWinStmts, hch.names.whereNames hch.wheres, hwhere, hch.names.isFound]
  simp only [ClockEntry.meets_eq, BaseRow.meets_eq hstore]
  rfl

/-- A merged column, statement by statement. -/
theorem Tracked.mergeColumn_eq (hwhere : readLiterals (whereTexts wheres) = some key)
    (hread : readLiterals pkVals = some key) (hstored : ValueAsStored t.info ch)
    (hstore : storeKey t.info key = key) :
    (⟨t, false⟩ : Tracked).mergeColumn next wheres pkVals ch =
      settled t (CrSqlite.mergeColumn next key ch t) := by
  unfold Tracked.mergeColumn CrSqlite.mergeColumn
  generalize hparts : (ch.val.bind fun val => splitQuoteConcat val 1) = parts
  match parts with
  | none => rfl
  | some [] => rfl
  | some (_ :: _ :: _) => rfl
  | some [val] =>
      obtain ⟨text, htext, hsplit⟩ := Option.bind_eq_some_iff.mp hparts
      have hvalue : ∀ v, readLiteral val = some v → storeValue t.info ch.cid v = v := by
        intro v hv
        refine hstored text htext [val] hsplit [v] ?_ v (List.mem_singleton.mpr rfl)
        rw [Option.mem_def, readLiterals, hv]
        rfl
      simp only [didCidWinStmts_eq hch hwhere hstore]
      cases didCidWin key val ch t with
      | error msg => rfl
      | ok win =>
          cases win with
          | false => rfl
          | true =>
              dsimp only
              have hstmt : upsertStmt next pkVals ch.cid val true t =
                  (readLiteral val).bind fun v => upsertColumn next key ch.cid v t := by
                rw [upsertStmt_eq hread, hstore]
                exact Option.bind_congr fun v hv => by rw [hvalue v hv]
              rw [execUnderBit_eq, hstmt]
              cases hu : (readLiteral val).bind fun v => upsertColumn next key ch.cid v t with
              | none => rfl
              | some u =>
                  obtain ⟨v, -, hupsert⟩ := Option.bind_eq_some_iff.mp hu
                  have hinfo : u.info = t.info := by rw [upsertColumn_eq_some hupsert]; rfl
                  simp only [Option.isSome_some, Option.getD_some,
                    Tracked.setWinnerClock_eq hch.names hread ch.cid hinfo]
                  rfl

/-- A delete whose WHERE list does not read as a key. -/
theorem Tracked.mergeDelete_of_unreadable (hwhere : readLiterals (whereTexts wheres) = none) :
    (⟨t, false⟩ : Tracked).mergeDelete next wheres pkVals ch = settled t (.error []) := by
  rw [Tracked.mergeDelete, execUnderBit_eq, deleteStmt, hch.names.whereNames hch.wheres, hwhere]
  rfl

/-- A key-only change whose VALUES list does not read as a key. -/
theorem Tracked.mergePkOnlyInsert_of_unreadable (hread : readLiterals pkVals = none) :
    (⟨t, false⟩ : Tracked).mergePkOnlyInsert next pkVals ch = settled t (.error []) := by
  rw [Tracked.mergePkOnlyInsert, execUnderBit_eq, insertOrIgnoreStmt,
    if_pos hch.names.isFound, hread]
  rfl

/-- A column change whose WHERE list does not read as a key. -/
theorem Tracked.mergeColumn_of_unreadable (hwhere : readLiterals (whereTexts wheres) = none) :
    (⟨t, false⟩ : Tracked).mergeColumn next wheres pkVals ch =
      settled t (.error (unreadableColumn ch)) := by
  unfold Tracked.mergeColumn unreadableColumn
  have hfails : ∀ text, didCidWinStmts wheres text ch t =
      .error (message "Failed preparing stmt to select local column version") := by
    intro text
    rw [didCidWinStmts, hch.names.whereNames hch.wheres, hwhere]
  simp only [hfails]
  generalize hparts : (ch.val.bind fun val => splitQuoteConcat val 1) = parts
  cases parts with
  | none => rfl
  | some parts =>
      obtain ⟨text, -, hsplit⟩ := Option.bind_eq_some_iff.mp hparts
      obtain ⟨val, rfl⟩ := List.length_eq_one_iff.mp (length_of_splitQuoteConcat hsplit)
      rfl

/-- The three kinds of merges, once the key is read. -/
private theorem merge_values
    (hparts : quoteConcatedValuesAsList ch.pk t.info.pks.length = some pkVals)
    (hstored : AsStored t.info ch) :
    (if ch.cid = delSentinel then (⟨t, false⟩ : Tracked).mergeDelete next wheres pkVals ch
      else if ch.cid = pkoSentinel ∨ !columnExists ch.cid t.info.nonPks then
        (⟨t, false⟩ : Tracked).mergePkOnlyInsert next pkVals ch
      else (⟨t, false⟩ : Tracked).mergeColumn next wheres pkVals ch) =
    settled t (match readLiterals pkVals with
      | none =>
          if ch.cid = delSentinel ∨ ch.cid = pkoSentinel ∨
              !columnExists ch.cid t.info.nonPks then .error []
          else .error (unreadableColumn ch)
      | some key =>
          let readable := (readLiterals (whereTexts wheres)).isSome
          if ch.cid = delSentinel then
            if readable then .ok (CrSqlite.mergeDelete next key ch t) else .error []
          else if ch.cid = pkoSentinel ∨ !columnExists ch.cid t.info.nonPks then
            .ok (CrSqlite.mergePkOnlyInsert next key ch t)
          else if readable then CrSqlite.mergeColumn next key ch t
          else .error (unreadableColumn ch)) := by
  have hstore : ∀ key, readLiterals pkVals = some key → storeKey t.info key = key :=
    hstored.1 pkVals hparts
  cases hwhere : readLiterals (whereTexts wheres) with
  | some key =>
      have hread : readLiterals pkVals = some key :=
        readLiterals_of_whereTexts hch.wheres hparts hwhere
      simp only [hread, Option.isSome_some, if_true]
      split_ifs with hcid hkeyOnly
      · exact Tracked.mergeDelete_eq hch hwhere hread (hstore key hread)
      · exact Tracked.mergePkOnlyInsert_eq hch hread (hstore key hread)
      · have hcol : columnExists ch.cid t.info.nonPks = true := by
          simpa using (not_or.mp hkeyOnly).2
        exact Tracked.mergeColumn_eq hch hwhere hread (hstored.2 hcol) (hstore key hread)
  | none =>
      rw [Tracked.mergeColumn_of_unreadable hch hwhere, Tracked.mergeDelete_of_unreadable hch hwhere]
      cases hread : readLiterals pkVals with
      | some key =>
          simp only [Tracked.mergePkOnlyInsert_eq hch hread (hstore key hread), Option.isSome_none]
          split_ifs <;> simp_all
      | none =>
          simp only [Tracked.mergePkOnlyInsert_of_unreadable hch hread]
          split_ifs <;> simp_all

omit hch in
/-- Where SQL reads the names back and the change is written as the columns store it, the
two descriptions of a merge agree, and the bit is clear behind every exit. -/
theorem Tracked.merge_eq (next : Int) {ch : Change} {t : CrrTable} (hplain : t.info.PlainNames)
    (hstored : AsStored t.info ch) :
    (⟨t, false⟩ : Tracked).merge next ch = settled t (mergeTable next ch t) := by
  unfold Tracked.merge mergeTable
  dsimp only
  cases hwheres : extractWhereList t.info.pks ch.pk with
  | none => rfl
  | some wheres =>
      dsimp only
      rw [checkForLocalDeleteStmt_eq hplain hwheres]
      by_cases hcheck : checkForLocalDelete t wheres = true
      · rw [if_pos hcheck, if_pos hcheck]
        rfl
      · rw [if_neg hcheck, if_neg hcheck]
        cases hparts : quoteConcatedValuesAsList ch.pk t.info.pks.length with
        | none => rfl
        | some pkVals => exact merge_values ⟨hplain, hwheres⟩ hparts hstored

end Stmts

/-! ## The connection -/

/-- A replica with the sync bit of its connection. -/
structure Conn where
  db : Db
  syncBit : Bool

/-- A local statement on a table, whose triggers read the sync bit. -/
def localWriteUnder (syncBit : Bool) (next : Int) (t : CrrTable) : LocalWrite → Option CrrTable
  | .insert r => insertRow syncBit next r t
  | .update i r => updateRow syncBit next i r t
  | .delete i => some (deleteRow syncBit next i t)

/-- A local statement on the connection. -/
def Conn.write (c : Conn) (tbl : Text) (w : LocalWrite) : Conn :=
  match (c.db.findTable tbl).bind fun t =>
      localWriteUnder c.syncBit c.db.nextDbVersion t w with
  | none => c
  | some t' => { c with db := c.db.cacheDbVersion.setTable t' }

/-- With the bit clear a local write is logged. -/
theorem Conn.write_eq {c : Conn} (hbit : c.syncBit = false) (tbl : Text) (w : LocalWrite) :
    c.write tbl w = ⟨c.db.write tbl w, false⟩ := by
  obtain ⟨db, bit⟩ := c
  obtain rfl : bit = false := hbit
  have hlocal (t : CrrTable) :
      localWriteUnder false db.nextDbVersion t w = localWrite db.nextDbVersion t w := by
    cases w <;> rfl
  unfold Conn.write Db.write
  simp only [hlocal]
  cases (db.findTable tbl).bind fun t => localWrite db.nextDbVersion t w <;> rfl

/-- Where the tables have different names it changes nothing at all. -/
theorem setTable_self {db : Db} {tbl : Text} {t : CrrTable}
    (hnames : (db.tables.map fun t => t.info.tblName).Nodup)
    (h : db.findTable tbl = some t) : db.setTable t = db := by
  have htables : (db.setTable t).tables = db.tables := by
    rw [setTable_tables]
    refine (List.map_congr_left fun u hu => ?_).trans (List.map_id _)
    split_ifs with hname
    · have hfound := findTable_of_mem hnames hu
      rw [hname, findTable_name h, h] at hfound
      exact Option.some.inj hfound
    · rfl
  exact congrArg (fun tables => ({ db with tables := tables } : Db)) htables

section Connection

variable [Sqlite] [Affinity]

/-- `crsql_mergeInsert` with the sync bit.  What the statements did to the table before an
error is kept. -/
def Conn.mergeInsert (c : Conn) (ch : Change) : Conn × Option Text :=
  let db := { c.db with changesWritten := true }
  if maxTblNameLen < ch.tbl.length then
    (⟨db, c.syncBit⟩, some (message "crsql - table name exceeded max length"))
  else if maxTblNameLen < ch.cid.length then
    (⟨db, c.syncBit⟩, some (message "column name exceeded max length"))
  else if siteIdLen < ch.siteId.length then
    (⟨db, c.syncBit⟩, some (message "crsql - site id exceeded max length"))
  else
    let db := { db with seenPeers := (trackSeenPeer true db.seenPeers ch.siteId ch.dbVersion).1 }
    match db.findTable ch.tbl with
    | none =>
        (⟨db, c.syncBit⟩,
          some (message "crsql - could not find the schema information for table " ++ ch.tbl))
    | some t =>
        match (⟨t, c.syncBit⟩ : Tracked).merge db.nextDbVersion ch with
        | (s, some msg) => (⟨db.setTable s.table, s.syncBit⟩, some msg)
        | (s, none) => (⟨db.cacheDbVersion.setTable s.table, s.syncBit⟩, none)

/-- SQL reads the names of the change's table back, and the change is written as its
columns store it. -/
def Db.TakesAsWritten (db : Db) (ch : Change) : Prop :=
  ∀ t ∈ db.findTable ch.tbl, t.info.PlainNames ∧ AsStored t.info ch

instance (db : Db) (ch : Change) : Decidable (db.TakesAsWritten ch) :=
  inferInstanceAs (Decidable (∀ t ∈ db.findTable ch.tbl, _))

/-- With the bit clear such a merge on the connection is one of the replica, and the bit is
clear afterwards.  A merge that ends with an error puts its table back. -/
theorem Conn.mergeInsert_eq {db : Db} {ch : Change} (h : db.TakesAsWritten ch) :
    ∃ db', (⟨db, false⟩ : Conn).mergeInsert ch = (⟨db', false⟩, (db.mergeInsert ch).2) ∧
      (db' = (db.mergeInsert ch).1 ∨ ∃ t, (db.mergeInsert ch).1.findTable ch.tbl = some t ∧
        db' = (db.mergeInsert ch).1.setTable t) := by
  unfold Conn.mergeInsert Db.mergeInsert
  dsimp only
  split_ifs
  · exact ⟨_, rfl, Or.inl rfl⟩
  · exact ⟨_, rfl, Or.inl rfl⟩
  · exact ⟨_, rfl, Or.inl rfl⟩
  · cases ht : Db.findTable { db with
        changesWritten := true
        seenPeers := (trackSeenPeer true db.seenPeers ch.siteId ch.dbVersion).1 } ch.tbl with
    | none => exact ⟨_, rfl, Or.inl rfl⟩
    | some t =>
        obtain ⟨hplain, hstored⟩ := h t ht
        dsimp only
        rw [Tracked.merge_eq _ hplain hstored]
        cases mergeTable _ ch t with
        | error msg => exact ⟨_, rfl, Or.inr ⟨t, ht, rfl⟩⟩
        | ok t' => exact ⟨_, rfl, Or.inl rfl⟩

/-- `crsql_mergeInsert` on a replica, with the sync bit clear between statements. -/
def Db.mergeSql (db : Db) (ch : Change) : Db × Option Text :=
  ((⟨db, false⟩ : Conn).mergeInsert ch).map Conn.db id

/-- Where the names are read back and the change is written as the columns store it, the
statements do what the merge does. -/
theorem mergeSql_eq {db : Db} {ch : Change}
    (hnames : (db.tables.map fun t => t.info.tblName).Nodup) (h : db.TakesAsWritten ch) :
    db.mergeSql ch = db.mergeInsert ch := by
  obtain ⟨db', heq, hdb⟩ := Conn.mergeInsert_eq h
  rw [Db.mergeSql, heq]
  refine Prod.ext ?_ rfl
  obtain rfl | ⟨t, ht, rfl⟩ := hdb
  · rfl
  · refine setTable_self ?_ ht
    rw [← show db.exec (.merge ch) = (db.mergeInsert ch).1 from rfl, names_exec]
    exact hnames

/-- Tables with the declarations of others take the same changes as they are written. -/
theorem Db.TakesAsWritten.of_schema {db db' : Db} {ch : Change}
    (h : db.TakesAsWritten ch)
    (hschema : (db'.findTable ch.tbl).map CrrTable.schema =
      (db.findTable ch.tbl).map CrrTable.schema) : db'.TakesAsWritten ch := by
  intro t ht
  rw [Option.mem_def.mp ht, Option.map_some, eq_comm] at hschema
  obtain ⟨u, hu, heq⟩ := Option.map_eq_some_iff.mp hschema
  rw [CrrTable.info, ← heq]
  exact h u hu

/-! ## Runs -/

/-- A statement's effect, with merges as their statements. -/
def Db.execSql (db : Db) : Stmt → Db
  | .write tbl w => db.write tbl w
  | .merge ch => (db.mergeSql ch).1

/-- A committed transaction, with merges as their statements. -/
def Db.transactSql (db : Db) (stmts : List Stmt) : Db :=
  (stmts.foldl Db.execSql db).commit

/-- One step of a connection, with merges as their statements. -/
def Session.stepSql (s : Session) : Op → Session
  | .stmt st => { s with current := s.current.execSql st }
  | .commit => ⟨s.current.commit, s.current.commit⟩
  | .rollback => ⟨Db.rollback s.start s.current, Db.rollback s.start s.current⟩

/-- What is merged is taken as it is written. -/
def TakenAsWritten (s : Session) : Op → Prop
  | .stmt (.merge ch) => s.current.TakesAsWritten ch
  | _ => True

instance (s : Session) (op : Op) : Decidable (TakenAsWritten s op) :=
  match op with
  | .stmt (.merge ch) => inferInstanceAs (Decidable (s.current.TakesAsWritten ch))
  | .stmt (.write _ _) => inferInstanceAs (Decidable True)
  | .commit => inferInstanceAs (Decidable True)
  | .rollback => inferInstanceAs (Decidable True)

/-- The tables have different names, also those at the start of the transaction. -/
def Session.NamesDiffer (s : Session) : Prop :=
  (s.start.tables.map fun t => t.info.tblName).Nodup ∧
    (s.current.tables.map fun t => t.info.tblName).Nodup

omit [Affinity] in
/-- Tables keep their names. -/
theorem Session.NamesDiffer.step {s : Session} (h : s.NamesDiffer) (op : Op) :
    (s.step op).NamesDiffer := by
  cases op with
  | stmt st =>
      refine ⟨h.1, ?_⟩
      rw [Session.step, names_exec]
      exact h.2
  | commit =>
      rw [Session.step, Session.NamesDiffer, commit_tables]
      exact ⟨h.2, h.2⟩
  | rollback => exact ⟨h.1, h.1⟩

/-- One step with its statements is one of the connection. -/
theorem stepSql_eq {s : Session} (h : s.NamesDiffer) {op : Op} (hop : TakenAsWritten s op) :
    s.stepSql op = s.step op := by
  cases op with
  | stmt st =>
      cases st with
      | write tbl w => rfl
      | merge ch =>
          rw [Session.stepSql, Db.execSql, mergeSql_eq h.2 hop]
          rfl
  | commit => rfl
  | rollback => rfl

/-- A run whose merges are taken as they are written is one of the connection, and its steps
meet the same conditions there. -/
theorem exec_stepSql {ok : Session → Op → Prop} {db : Db}
    (hnames : (db.tables.map fun t => t.info.tblName).Nodup) {ops : List Op}
    (hops : Run.Allowed Session.stepSql (fun s op => TakenAsWritten s op ∧ ok s op)
      ⟨db, db⟩ ops) :
    Run.exec Session.stepSql ⟨db, db⟩ ops = Run.exec Session.step ⟨db, db⟩ ops ∧
      Run.Allowed Session.step ok ⟨db, db⟩ ops := by
  have hstep (s : Session) (op : Op) (hs : s.NamesDiffer)
      (hop : TakenAsWritten s op ∧ ok s op) : s.stepSql op = s.step op :=
    stepSql_eq hs hop.1
  obtain ⟨hexec, hallowed⟩ := Run.exec_congr Session.NamesDiffer
    (fun s op hs hop => by
      rw [hstep s op hs hop]
      exact hs.step op) hstep ⟨hnames, hnames⟩ hops
  refine ⟨hexec, ?_⟩
  exact Run.allowed_mono (fun _ => True) (fun _ _ _ hop => hop.2) (fun _ _ _ _ => trivial)
    trivial hallowed

end Connection

end CrSqlite
