import CrSqlite.LiteralScan
import CrSqlite.Merge
import CrSqlite.Library.SqlText

/-!
# GeneratedSql - the statements the extension writes

Every SQL text the extension puts together from table and column names, format
directive by format directive.  A name under {lit}`%s` is printed as it is, one under
{lit}`%w`, {lit}`%q` or {lit}`%Q` with its quotes doubled.  White space between words
is one blank.

Main results:

- Theorem {lit}`generated_readsBack_iff`: all statements name the tables and columns
  they are written for exactly when no table name has a quote of either kind and no
  key column a double quote.
-/

namespace CrSqlite

open SqlText

namespace GeneratedSql

/-! ## Format directives -/

/-- Text of the format. -/
def text (s : String)
    (h : ∀ c ∈ s.toList, ¬IsQuote c := by exact noQuote_ofList (by decide +kernel)) : Fragment :=
  .plain (.of s h)

/-- A name the format itself has between double quotes. -/
def fixedName (t : PlainText) : Fragment :=
  .quoted .double .raw [] t

/-- A string the format itself has between single quotes. -/
def fixedString (t : PlainText) : Fragment :=
  .quoted .single .raw [] t

/-- `"%s..."`. -/
def rawName (name : Text) (suffix : PlainText) : Fragment :=
  .quoted .double .raw name suffix

/-- `"%w..."`. -/
def escapedName (name : Text) (suffix : PlainText) : Fragment :=
  .quoted .double .escaped name suffix

/-- `'%s'`. -/
def rawString (t : Text) : Fragment :=
  .quoted .single .raw t ⟨[], by simp⟩

/-- `'%q'` and `%Q`. -/
def escapedString (t : Text) : Fragment :=
  .quoted .single .escaped t ⟨[], by simp⟩

/-- No suffix. -/
def bare : PlainText :=
  ⟨[], by simp⟩

/-- The suffix of clock tables. -/
def clock : PlainText :=
  .of "__crsql_clock"

/-! ## Pieces of statements -/

abbrev comma : Fragment :=
  text ", "

abbrev closing : Fragment :=
  text ")"

abbrev equals : Fragment :=
  text " = "

abbrev conjunction : Fragment :=
  text " AND "

abbrev select : Fragment :=
  text "SELECT "

abbrev closingFrom : Fragment :=
  text ") FROM "

abbrev whereText : Fragment :=
  text " WHERE "

abbrev onText : Fragment :=
  text " ON "

abbrev opening : Fragment :=
  text " ("

abbrev createTrigger : Fragment :=
  text "CREATE TRIGGER IF NOT EXISTS "

abbrev afterInsert : Fragment :=
  text " AFTER INSERT ON "

abbrev beginInsert : Fragment :=
  text " BEGIN INSERT INTO "

/-- The row a trigger is about, as it will be. -/
abbrev newRow : PlainText :=
  .of "NEW."

/-- The suffixes of the three triggers of a table. -/
abbrev itrig : PlainText :=
  .of "__crsql_itrig"

abbrev utrig : PlainText :=
  .of "__crsql_utrig"

abbrev dtrig : PlainText :=
  .of "__crsql_dtrig"

/-- A call of `quote`. -/
abbrev quoteCall (name : Fragment) : Statement :=
  [text "quote(", name, closing]

/-- What stands between two of them. -/
abbrev quoteSeparator : Statement :=
  [text " || ", fixedString (.of "|"), text " || "]

/-! ## Lists of columns -/

/-- `crsql_asIdentifierList`. -/
def asIdentifierList (cols : List ColumnInfo) (qualifier : PlainText) : Statement :=
  List.intercalate [text ","]
    (cols.map fun c => [.plain qualifier, escapedName c.name bare])

/-- The text `crsql_quoteConcat` returns. -/
def quoteConcat (cols : List ColumnInfo) : Statement :=
  List.intercalate quoteSeparator
    (cols.map fun c => quoteCall (rawName c.name bare))

/-- The text `crsql_extractWhereList` makes of its comparisons. -/
def whereList (wheres : List (Text × Text)) : Statement :=
  List.intercalate [conjunction]
    (wheres.map fun (name, p) => [rawName name bare, equals, .value p])

/-- The comparisons of the key columns with the parts of a key text. -/
def comparisons (cols : List ColumnInfo) (parts : List Text) : List (Text × Text) :=
  (cols.map ColumnInfo.name).zip parts

/-- The text `crsql_quotedValuesAsList` makes of the parts of a key text. -/
def valuesList (parts : List Text) : Statement :=
  List.intercalate [text ","] (parts.map fun p => [.value p])

/-! ## Clock tables -/

/-- The first statement of `crsql_createClockTable`. -/
def createClockTable (info : TableInfo) : Statement :=
  let pkList := asIdentifierList info.pks bare
  [text "CREATE TABLE IF NOT EXISTS ", rawName info.tblName clock, opening] ++ pkList ++
    [comma, fixedName (.of "__crsql_col_name"), text " NOT NULL, ",
      fixedName (.of "__crsql_col_version"), text " NOT NULL, ",
      fixedName (.of "__crsql_db_version"), text " NOT NULL, ",
      fixedName (.of "__crsql_site_id"), text ", PRIMARY KEY ("] ++ pkList ++
    [comma, fixedName (.of "__crsql_col_name"), text ") )"]

/-- The second statement of `crsql_createClockTable`. -/
def createClockIndex (info : TableInfo) : Statement :=
  [text "CREATE INDEX IF NOT EXISTS ", rawName info.tblName (.of "__crsql_clock_dbv_idx"),
    onText, rawName info.tblName clock, opening,
    fixedName (.of "__crsql_db_version"), closing]

/-- `crsql_compactPostAlter`. -/
def compactPostAlter (tblName : Text) : Statement :=
  [text "DELETE FROM ", escapedName tblName clock, whereText,
    fixedName (.of "__crsql_col_name"),
    text " NOT IN (SELECT name FROM pragma_table_info(", escapedString tblName, text "))"]

/-- The line of `crsql_getDbVersionUnionQuery` for a clock table with others behind it. -/
def dbVersionUnion (t : Text) (ts : List Text) : Statement :=
  [text "SELECT max(__crsql_db_version) as version FROM ", escapedName t bare,
    if ts = [] then text "  " else text " UNION "]

/-- The lines of `crsql_getDbVersionUnionQuery`, one for each clock table. -/
def dbVersionUnions : List Text → Statement
  | [] => []
  | t :: ts => dbVersionUnion t ts ++ dbVersionUnions ts

/-- `crsql_getDbVersionUnionQuery` over the names of the clock tables. -/
def getDbVersionUnionQuery (tableNames : List Text) : Statement :=
  [text "SELECT max(version) as version FROM ("] ++ dbVersionUnions tableNames ++ [closing]

/-! ## Triggers -/

/-- What the three triggers do to the clock row of a column. -/
def onConflict : Statement :=
  [text " ON CONFLICT DO UPDATE SET __crsql_col_version = __crsql_col_version + 1, ",
    text "__crsql_db_version = crsql_nextdbversion(), __crsql_site_id = NULL; "]

/-- The columns of a clock table behind the key columns. -/
def clockColumns : Fragment :=
  text ", __crsql_col_name, __crsql_col_version, __crsql_db_version, __crsql_site_id ) SELECT "

/-- One statement of `crsql_insertTriggerQuery`. -/
def insertSubTrigger (info : TableInfo) (pkList pkNewList : Statement) (colName : Text) :
    Statement :=
  [text "INSERT INTO ", rawName info.tblName clock, text " ( "] ++ pkList ++ [clockColumns] ++
    pkNewList ++ [comma, escapedString colName,
      text ", 1, crsql_nextdbversion(), NULL WHERE crsql_internal_sync_bit() = 0"] ++ onConflict

/-- `crsql_insertTriggerQuery`.  The statement for a table of key columns only is
put together too, but not joined to the others. -/
def insertTriggerQuery (info : TableInfo) (pkList pkNewList : Statement) : Statement :=
  info.nonPks.flatMap fun c => insertSubTrigger info pkList pkNewList c.name

/-- The key columns as the triggers list them: without any, the rowid. -/
def triggerKey (info : TableInfo) (qualifier : PlainText) : Statement :=
  if info.pks = [] then [.plain qualifier, fixedName (.of "rowid")]
  else asIdentifierList info.pks qualifier

/-- `crsql_createInsertTrigger`. -/
def createInsertTrigger (info : TableInfo) : Statement :=
  [createTrigger, rawName info.tblName itrig,
    afterInsert, rawName info.tblName bare, text " BEGIN "] ++
    insertTriggerQuery info (triggerKey info bare) (triggerKey info newRow) ++
    [text " END;"]

/-- One statement of `crsql_createUpdateTrigger`. -/
def updateSubTrigger (info : TableInfo) (c : ColumnInfo) : Statement :=
  [text "INSERT INTO ", rawName info.tblName clock, text " ( "] ++
    asIdentifierList info.pks bare ++ [clockColumns] ++
    asIdentifierList info.pks newRow ++ [comma, escapedString c.name,
      text ", 1, crsql_nextdbversion(), NULL WHERE crsql_internal_sync_bit() = 0 AND NEW.",
      escapedName c.name bare, text " != OLD.", escapedName c.name bare] ++ onConflict

/-- `crsql_createUpdateTrigger`. -/
def createUpdateTrigger (info : TableInfo) : Statement :=
  [createTrigger, rawName info.tblName utrig,
    text " AFTER UPDATE ON ", rawName info.tblName bare, text " BEGIN "] ++
    (info.nonPks.flatMap fun c => updateSubTrigger info c) ++ [text " END;"]

/-- `crsql_deleteTriggerQuery`. -/
def deleteTriggerQuery (info : TableInfo) : Statement :=
  [createTrigger, rawName info.tblName dtrig,
    text " AFTER DELETE ON ", rawName info.tblName bare, beginInsert,
    rawName info.tblName clock, text " ( "] ++ triggerKey info bare ++ [clockColumns] ++
    triggerKey info (.of "OLD.") ++ [comma, escapedString delSentinel,
      text ", 1, crsql_nextdbversion(), NULL WHERE crsql_internal_sync_bit() = 0"] ++
    onConflict ++ [text " END; "]

/-- A statement of `crsql_removeCrrTriggersIfExist`. -/
def dropTrigger (tblName : Text) (trigger : PlainText) : Statement :=
  [text "DROP TRIGGER IF EXISTS ", rawName tblName trigger]

/-! ## Looking at a table -/

/-- The two statements of `crsql_getTableInfo`. -/
def getTableInfo (tblName : Text) : List Statement :=
  [[text "select count(*) from pragma_table_info(", rawString tblName, closing],
    [text "select ", fixedName (.of "cid"), comma, fixedName (.of "name"), comma,
      fixedName (.of "type"), comma, fixedName (.of "notnull"), comma,
      fixedName (.of "pk"), text " from pragma_table_info(", rawString tblName,
      text ") order by cid asc"]]

/-- The four statements of `crsql_isTableCompatible`. -/
def isTableCompatible (tblName : Text) : List Statement :=
  [[text "SELECT count(*) FROM pragma_index_list(", rawString tblName, text ") WHERE ",
      fixedName (.of "origin"), text " != ", fixedString (.of "pk"), conjunction,
      fixedName (.of "unique"), text " = 1"],
    [text "SELECT count(*) FROM pragma_index_list(", rawString tblName, text ") WHERE ",
      fixedName (.of "origin"), equals, fixedString (.of "pk")],
    [text "SELECT count(*) FROM pragma_foreign_key_list(", rawString tblName, closing],
    [text "SELECT count(*) FROM pragma_table_xinfo(", rawString tblName, text ") WHERE ",
      fixedName (.of "notnull"), text " = 1 AND ", fixedName (.of "dflt_value"),
      text " IS NULL AND ", fixedName (.of "pk"), text " = 0"]]

/-! ## Reading changes -/

/-- `crsql_changesQueryForTable`. -/
def changesQueryForTable (info : TableInfo) (idxNum : Nat) : Option Statement :=
  if info.pks = [] then none
  else some ([select, rawString info.tblName, text " as tbl, "] ++
    quoteConcat info.pks ++
    [text " as pks, __crsql_col_name as cid, __crsql_col_version as col_vrsn, ",
      text "__crsql_db_version as db_vrsn, __crsql_site_id as site_id FROM ",
      rawName info.tblName clock,
      if idxNum &&& 8 = 8 then text " WHERE site_id IS  ? AND db_vrsn > ?"
      else text " WHERE site_id IS NOT ? AND db_vrsn > ?"])

/-- The loop of `crsql_changesUnionQuery`. -/
def changesUnions (idxNum : Nat) : List TableInfo → Option (List Statement)
  | [] => some []
  | info :: infos =>
      match changesQueryForTable info idxNum, changesUnions idxNum infos with
      | some query, some queries => some (query :: queries)
      | _, _ => none

/-- `crsql_changesUnionQuery`. -/
def changesUnionQuery (infos : List TableInfo) (idxNum : Nat) : Option Statement :=
  (changesUnions idxNum infos).map fun queries =>
    [text "SELECT tbl, pks, cid, col_vrsn, db_vrsn, site_id FROM ("] ++
      List.intercalate [text " UNION "] queries ++ [text ") ORDER BY db_vrsn, tbl ASC"]

/-- `crsql_rowPatchDataQuery` with the WHERE list it gets. -/
def rowPatchDataQuery (info : TableInfo) (colName : Text) (pkWhereList : Statement) : Statement :=
  if colName = delSentinel then []
  else [text "SELECT quote(", escapedName colName bare, closingFrom,
    escapedName info.tblName bare, whereText] ++ pkWhereList

/-! ## Merging a change -/

/-- `crsql_checkForLocalDelete`. -/
def checkForLocalDelete (tblName : Text) (pkWhereList : Statement) : Statement :=
  [text "SELECT count(*) FROM ", rawName tblName clock, whereText] ++ pkWhereList ++
    [text " AND __crsql_col_name = ", escapedString delSentinel]

/-- The two statements of `crsql_didCidWin`. -/
def didCidWin (insertTbl : Text) (pkWhereList : Statement) (colName : Text) : List Statement :=
  [[text "SELECT __crsql_col_version FROM ", rawName insertTbl clock, whereText] ++
      pkWhereList ++ [conjunction, escapedString colName, text " = __crsql_col_name"],
    [text "SELECT quote(", escapedName colName bare, closingFrom, escapedName insertTbl bare,
      whereText] ++ pkWhereList]

/-- `crsql_setWinnerClock`. -/
def setWinnerClock (info : TableInfo) (pkValsStr : Statement) (insertColName : Text)
    (insertColVrsn insertDbVrsn : Int) : Statement :=
  [text "INSERT OR REPLACE INTO ", rawName info.tblName clock, opening] ++
    asIdentifierList info.pks bare ++
    [comma, fixedName (.of "__crsql_col_name"), comma,
      fixedName (.of "__crsql_col_version"), comma,
      fixedName (.of "__crsql_db_version"), comma, fixedName (.of "__crsql_site_id"),
      text ") VALUES ("] ++ pkValsStr ++
    [comma, escapedString insertColName, comma, .value (printInt insertColVrsn),
      text ", MAX(crsql_nextdbversion(), ", .value (printInt insertDbVrsn), text "), ? )"]

/-- The statement of `crsql_mergePkOnlyInsert`. -/
def mergePkOnlyInsert (info : TableInfo) (pkValsStr : Statement) : Statement :=
  [text "INSERT OR IGNORE INTO ", rawName info.tblName bare, opening] ++
    asIdentifierList info.pks bare ++ [text ") VALUES ("] ++ pkValsStr ++ [closing]

/-- The statement of `crsql_mergeDelete`. -/
def mergeDelete (info : TableInfo) (pkWhereList : Statement) : Statement :=
  [text "DELETE FROM ", rawName info.tblName bare, whereText] ++ pkWhereList

/-- The statement of `crsql_mergeInsert` that writes the column. -/
def mergeColumn (info : TableInfo) (pkValsStr : Statement) (insertColName val : Text) :
    Statement :=
  [text "INSERT INTO ", escapedName info.tblName bare, opening] ++
    asIdentifierList info.pks bare ++
    [comma, escapedName insertColName bare, text ") VALUES ("] ++ pkValsStr ++
    [comma, .value val, text ") ON CONFLICT DO UPDATE SET ",
      escapedName insertColName bare, equals, .value val]

/-- The statements `crsql_mergeInsert` prepares or runs for a change of the table,
in whatever state the database is. -/
def mergeStatements (info : TableInfo) (ch : Change) (pkWhereList : Statement)
    (pkValsStr : Option Statement) : List Statement :=
  checkForLocalDelete info.tblName pkWhereList ::
    match pkValsStr with
    | none => []
    | some pkVals =>
        if ch.cid = delSentinel then
          [mergeDelete info pkWhereList,
            setWinnerClock info pkVals delSentinel ch.colVersion ch.dbVersion]
        else if ch.cid = pkoSentinel ∨ !columnExists ch.cid info.nonPks then
          [mergePkOnlyInsert info pkVals,
            setWinnerClock info pkVals pkoSentinel ch.colVersion ch.dbVersion]
        else
          match ch.val.bind fun val => splitQuoteConcat val 1 with
          | some [val] =>
              didCidWin info.tblName pkWhereList ch.cid ++
                [mergeColumn info pkVals ch.cid val,
                  setWinnerClock info pkVals ch.cid ch.colVersion ch.dbVersion]
          | _ => []

/-- The statements that make a table a crr, and take it through a schema change. -/
def crrStatements (info : TableInfo) : List Statement :=
  isTableCompatible info.tblName ++ getTableInfo info.tblName ++
    [createClockTable info, createClockIndex info, compactPostAlter info.tblName,
      dropTrigger info.tblName itrig,
      dropTrigger info.tblName utrig,
      dropTrigger info.tblName dtrig, createInsertTrigger info,
      createUpdateTrigger info, deleteTriggerQuery info]

/-! ## Spacing and closed quotes -/

/-- A list of identifiers is spaced. -/
theorem spaced_asIdentifierList (cols : List ColumnInfo) (qualifier : PlainText) :
    (asIdentifierList cols qualifier).Spaced := by
  apply Statement.spaced_intercalate
  · intro s s' hs hs'
    exact (Statement.spaced_append_plain (by simp)).mpr ⟨hs, hs'⟩
  · intro p hp
    obtain ⟨c, -, rfl⟩ := List.mem_map.mp hp
    simp [escapedName]

/-- The printed key is spaced. -/
theorem spaced_quoteConcat (cols : List ColumnInfo) : (quoteConcat cols).Spaced := by
  apply Statement.spaced_intercalate
  · intro s s' hs hs'
    refine (Statement.spaced_append_plain (by simp)).mpr ⟨hs, ?_⟩
    simpa [fixedString, text] using hs'
  · intro p hp
    obtain ⟨c, -, rfl⟩ := List.mem_map.mp hp
    simp [quoteCall, rawName, text]

/-- A WHERE list is spaced. -/
theorem spaced_whereList (wheres : List (Text × Text)) : (whereList wheres).Spaced := by
  apply Statement.spaced_intercalate
  · intro s s' hs hs'
    exact (Statement.spaced_append_plain (by simp)).mpr ⟨hs, hs'⟩
  · intro p hp
    obtain ⟨⟨c, v⟩, -, rfl⟩ := List.mem_map.mp hp
    simp [rawName, text]

/-- A list of values is spaced. -/
theorem spaced_valuesList (parts : List Text) : (valuesList parts).Spaced := by
  apply Statement.spaced_intercalate
  · intro s s' hs hs'
    exact (Statement.spaced_append_plain (by simp)).mpr ⟨hs, hs'⟩
  · intro p hp
    obtain ⟨v, -, rfl⟩ := List.mem_map.mp hp
    simp

/-- The key in a trigger is spaced. -/
theorem spaced_triggerKey (info : TableInfo) (qualifier : PlainText) :
    (triggerKey info qualifier).Spaced := by
  unfold triggerKey
  split_ifs
  · simp [fixedName]
  · exact spaced_asIdentifierList info.pks qualifier

/-- The insertion of a trigger is spaced when its lists are. -/
private theorem spaced_insertTriggerQuery (info : TableInfo) {pkList pkNewList : Statement}
    (h : pkList.Spaced) (h' : pkNewList.Spaced) :
    (insertTriggerQuery info pkList pkNewList).Spaced := by
  refine Statement.spaced_flatMap (fun c _ => ?_) fun c _ => ?_
  · exact ⟨_, _, by simp, rfl⟩
  · simp [insertSubTrigger, rawName, escapedString, text, clockColumns, onConflict,
      Statement.spaced_append_plain, h, h']

/-- The statements that set a table up are spaced. -/
theorem spaced_crrStatements (info : TableInfo) : ∀ s ∈ crrStatements info, s.Spaced := by
  have hupdate : Statement.Spaced (info.nonPks.flatMap fun c => updateSubTrigger info c) := by
    refine Statement.spaced_flatMap (fun c _ => ?_) fun c _ => ?_
    · exact ⟨_, _, by simp, rfl⟩
    · simp [updateSubTrigger, rawName, escapedString, escapedName, text, clockColumns,
        onConflict, Statement.spaced_append_plain, spaced_asIdentifierList]
  have hinsert := spaced_insertTriggerQuery info (spaced_triggerKey info bare)
    (spaced_triggerKey info newRow)
  have hdelete : (deleteTriggerQuery info).Spaced := by
    simp [deleteTriggerQuery, rawName, escapedString, text, clockColumns, onConflict,
      Statement.spaced_append_plain, spaced_triggerKey]
  have hclock : (createClockTable info).Spaced := by
    simp [createClockTable, rawName, text, fixedName, Statement.spaced_append_plain,
      spaced_asIdentifierList]
  simp only [crrStatements, List.forall_mem_append]
  refine ⟨⟨?_, ?_⟩, ?_⟩
  · simp [isTableCompatible, rawString, text, fixedName, fixedString]
  · simp [getTableInfo, rawString, text, fixedName]
  · simp [createClockIndex, compactPostAlter, dropTrigger, createInsertTrigger,
      createUpdateTrigger, rawName, escapedName, escapedString, text, fixedName,
      Statement.spaced_append_plain, hclock, hupdate, hinsert, hdelete]

/-! ## Which names are read back -/

/-- The names of the key columns have no double quote. -/
def KeyNamesPlain (cols : List ColumnInfo) : Prop :=
  ∀ c ∈ cols, doubleQuote ∉ c.name

/-- A list of identifiers is readable, for their quotes are doubled. -/
theorem readable_asIdentifierList (cols : List ColumnInfo) (qualifier : PlainText) :
    (asIdentifierList cols qualifier).Readable := by
  refine (Statement.forall_mem_intercalate (by simp [text, Fragment.ReadsBack])).mpr ?_
  intro p hp
  obtain ⟨c, -, rfl⟩ := List.mem_map.mp hp
  simp [escapedName, Fragment.ReadsBack]

/-- The printed key is readable exactly when the names of the key columns are plain. -/
theorem readable_quoteConcat_iff {cols : List ColumnInfo} :
    (quoteConcat cols).Readable ↔ KeyNamesPlain cols := by
  refine (Statement.forall_mem_intercalate
    (by simp [text, fixedString, Fragment.ReadsBack])).trans ?_
  simp [KeyNamesPlain, text, rawName, Fragment.ReadsBack, Quote.char]

/-- So is a WHERE list. -/
theorem readable_whereList_iff {cols : List ColumnInfo} {parts : List Text}
    (hlen : parts.length = cols.length) :
    (whereList (comparisons cols parts)).Readable ↔ KeyNamesPlain cols := by
  refine (Statement.forall_mem_intercalate (by simp [text, Fragment.ReadsBack])).trans ?_
  have hfst : (comparisons cols parts).map Prod.fst = cols.map ColumnInfo.name :=
    List.map_fst_zip (by simp [hlen])
  have hnames : KeyNamesPlain cols ↔ ∀ q ∈ comparisons cols parts, doubleQuote ∉ q.1 := by
    have hmap : (∀ name ∈ (comparisons cols parts).map Prod.fst, doubleQuote ∉ name) ↔
        ∀ q ∈ comparisons cols parts, doubleQuote ∉ q.1 := List.forall_mem_map
    rw [← hmap, hfst, List.forall_mem_map]
    rfl
  rw [List.forall_mem_map, hnames]
  refine forall₂_congr fun q _ => ?_
  simp [text, rawName, Fragment.ReadsBack, Quote.char]

/-- A list of values is readable. -/
theorem readable_valuesList (parts : List Text) : (valuesList parts).Readable := by
  refine (Statement.forall_mem_intercalate (by simp [text, Fragment.ReadsBack])).mpr ?_
  intro p hp
  obtain ⟨v, -, rfl⟩ := List.mem_map.mp hp
  simp [Fragment.ReadsBack]

/-- The key in a trigger is readable, for its quotes are doubled. -/
theorem readable_triggerKey (info : TableInfo) (qualifier : PlainText) :
    (triggerKey info qualifier).Readable := by
  unfold triggerKey
  split_ifs
  · simp [fixedName, Fragment.ReadsBack]
  · exact readable_asIdentifierList info.pks qualifier

/-- The name of the table has no quote of either kind. -/
def TableNamePlain (tblName : Text) : Prop :=
  doubleQuote ∉ tblName ∧ singleQuote ∉ tblName

/-- Statements in a row are readable exactly when each of them is. -/
private theorem readable_flatMap {α : Type} {l : List α} {f : α → Statement} :
    Statement.Readable (l.flatMap f) ↔ ∀ a ∈ l, (f a).Readable := by
  simp only [Statement.Readable, List.forall_mem_flatMap]

/-- The statements that set a table up are readable exactly when its name is plain. -/
theorem readable_crrStatements_iff {info : TableInfo} :
    (∀ s ∈ crrStatements info, s.Readable) ↔ TableNamePlain info.tblName := by
  have hupdate (hname : doubleQuote ∉ info.tblName) :
      Statement.Readable (info.nonPks.flatMap fun c => updateSubTrigger info c) := by
    refine readable_flatMap.mpr fun c _ => ?_
    simp [updateSubTrigger, rawName, escapedString, escapedName, text, clockColumns, onConflict,
      readable_asIdentifierList, Fragment.ReadsBack, Quote.char, hname]
  have hinsert (hname : doubleQuote ∉ info.tblName) :
      (insertTriggerQuery info (triggerKey info bare) (triggerKey info newRow)).Readable := by
    refine readable_flatMap.mpr fun c _ => ?_
    simp [insertSubTrigger, rawName, escapedString, text, clockColumns, onConflict,
      readable_triggerKey, Fragment.ReadsBack, Quote.char, hname]
  constructor
  · intro h
    have hdouble := h (createClockIndex info) (by simp [crrStatements])
    have hsingle := h _ (show _ ∈ crrStatements info from
      List.mem_append_left _ (List.mem_append_right _ List.mem_cons_self))
    simp [createClockIndex, text, rawName, fixedName, Fragment.ReadsBack, Quote.char] at hdouble
    simp [text, rawString, Fragment.ReadsBack, Quote.char] at hsingle
    exact ⟨hdouble, hsingle⟩
  · rintro ⟨hdouble, hsingle⟩
    simp only [crrStatements, List.forall_mem_append]
    refine ⟨⟨?_, ?_⟩, ?_⟩
    · simp [isTableCompatible, rawString, text, fixedName, fixedString, Fragment.ReadsBack,
        Quote.char, hsingle]
    · simp [getTableInfo, rawString, text, fixedName, Fragment.ReadsBack, Quote.char, hsingle]
    · simp [createClockTable, createClockIndex, compactPostAlter, dropTrigger,
        createInsertTrigger, createUpdateTrigger, deleteTriggerQuery, rawName, escapedName,
        escapedString, text, fixedName, clockColumns, onConflict, readable_asIdentifierList,
        readable_triggerKey, hupdate hdouble, hinsert hdouble, Fragment.ReadsBack, Quote.char,
        hdouble]

/-! ## Values -/

/-- A text without quotes is scanned to its end. -/
private theorem scan_ne_none {t : Text} (ht : ∀ c ∈ t, ¬IsQuote c) : scan t ≠ none := by
  rw [scan_plain ht]
  exact Option.some_ne_none _

/-- A digit is no quote. -/
private theorem notQuote_of_isDigit {c : Char} (hc : c.isDigit = true) : ¬IsQuote c := by
  rintro (rfl | rfl)
  · cases hc
  · cases hc

/-- A printed integer leaves no quote open. -/
theorem closed_printInt (i : Int) : (Fragment.value (printInt i)).Closed := by
  have hdigits : ∀ n, ∀ c ∈ Nat.toDigits 10 n, ¬IsQuote c := fun n c hc =>
    notQuote_of_isDigit (Nat.isDigit_of_mem_toDigits (by decide) (by decide) hc)
  apply scan_ne_none
  cases i with
  | ofNat n => exact hdigits n
  | negSucc n =>
      intro c hc
      rcases List.mem_cons.mp hc with rfl | hc
      · decide
      · exact hdigits (n + 1) c hc

/-- A text of doubled quotes is the doubled form of a text. -/
private theorem exists_doubled {t : Text} (h : Doubled t) : ∃ u, t = doubled singleQuote u := by
  induction h with
  | nil => exact ⟨[], rfl⟩
  | quote _ ih =>
      obtain ⟨u, rfl⟩ := ih
      exact ⟨singleQuote :: u, rfl⟩
  | @char c t hc _ ih =>
      obtain ⟨u, rfl⟩ := ih
      exact ⟨c :: u, (if_neg hc).symm⟩

/-- A quoted string is scanned to its end. -/
private theorem scan_quoted {p : Text} (h : Quoted p) : scan p ≠ none := by
  obtain ⟨t, ht, rfl⟩ := h
  obtain ⟨u, rfl⟩ := exists_doubled ht
  have hrest : StartsPlain [] := fun _ _ h => nomatch h
  have h := scan_doubled (Or.inr rfl) hrest u
  rw [show apostrophe :: (doubled singleQuote u ++ [apostrophe]) =
    singleQuote :: (doubled singleQuote u ++ singleQuote :: []) from rfl, h]
  simp [scan, scanFrom]

/-- A literal leaves no quote open. -/
theorem closed_literal {p : Text} (h : Literal p) : (Fragment.value p).Closed := by
  cases h with
  | null => exact scan_ne_none (List.all_iff_forall_prop.mp (by decide))
  | number h =>
      refine scan_ne_none fun c hc => ?_
      rcases number_char h c hc with h | rfl | rfl | rfl | rfl | rfl
      · exact notQuote_of_isDigit h
      all_goals decide
  | string h => exact scan_quoted h
  | hex h =>
      show scan ('X' :: _) ≠ none
      rw [scan_char (by decide)]
      simpa using scan_quoted h

/-- A list of identifiers leaves no quote open. -/
theorem closed_asIdentifierList (cols : List ColumnInfo) (qualifier : PlainText) :
    (asIdentifierList cols qualifier).Closed := by
  refine (Statement.forall_mem_intercalate (by simp [text, Fragment.Closed])).mpr ?_
  intro p hp
  obtain ⟨c, -, rfl⟩ := List.mem_map.mp hp
  simp [escapedName, Fragment.Closed]

/-- The printed key leaves no quote open. -/
theorem closed_quoteConcat (cols : List ColumnInfo) : (quoteConcat cols).Closed := by
  refine (Statement.forall_mem_intercalate (by simp [text, fixedString, Fragment.Closed])).mpr ?_
  intro p hp
  obtain ⟨c, -, rfl⟩ := List.mem_map.mp hp
  simp [text, rawName, Fragment.Closed]

/-- A WHERE list of literals leaves no quote open. -/
theorem closed_whereList {cols : List ColumnInfo} {parts : List Text}
    (hparts : ∀ p ∈ parts, Literal p) : (whereList (comparisons cols parts)).Closed := by
  refine (Statement.forall_mem_intercalate (by simp [text, Fragment.Closed])).mpr ?_
  intro p hp
  obtain ⟨⟨c, v⟩, hv, rfl⟩ := List.mem_map.mp hp
  have hclosed := closed_literal (hparts v (List.of_mem_zip hv).2)
  simpa [text, rawName, Fragment.Closed] using hclosed

/-- A list of literals leaves no quote open. -/
theorem closed_valuesList {parts : List Text} (hparts : ∀ p ∈ parts, Literal p) :
    (valuesList parts).Closed := by
  refine (Statement.forall_mem_intercalate (by simp [text, Fragment.Closed])).mpr ?_
  intro p hp
  obtain ⟨v, hv, rfl⟩ := List.mem_map.mp hp
  have hclosed := closed_literal (hparts v hv)
  simpa [Fragment.Closed] using hclosed

/-- The key in a trigger leaves no quote open. -/
theorem closed_triggerKey (info : TableInfo) (qualifier : PlainText) :
    (triggerKey info qualifier).Closed := by
  unfold triggerKey
  split_ifs
  · simp [fixedName, Fragment.Closed]
  · exact closed_asIdentifierList info.pks qualifier

/-- Statements in a row leave no quote open exactly when none of them does. -/
private theorem closed_flatMap {α : Type} {l : List α} {f : α → Statement} :
    Statement.Closed (l.flatMap f) ↔ ∀ a ∈ l, (f a).Closed := by
  simp only [Statement.Closed, List.forall_mem_flatMap]

/-- The statements that set a table up leave no quote open. -/
theorem closed_crrStatements (info : TableInfo) : ∀ s ∈ crrStatements info, s.Closed := by
  have hupdate : Statement.Closed (info.nonPks.flatMap fun c => updateSubTrigger info c) := by
    refine closed_flatMap.mpr fun c _ => ?_
    simp [updateSubTrigger, rawName, escapedString, escapedName, text, clockColumns, onConflict,
      closed_asIdentifierList, Fragment.Closed]
  have hinsert : (insertTriggerQuery info (triggerKey info bare)
      (triggerKey info newRow)).Closed := by
    refine closed_flatMap.mpr fun c _ => ?_
    simp [insertSubTrigger, rawName, escapedString, text, clockColumns, onConflict,
      closed_triggerKey, Fragment.Closed]
  simp only [crrStatements, List.forall_mem_append]
  refine ⟨⟨?_, ?_⟩, ?_⟩
  · simp [isTableCompatible, rawString, text, fixedName, fixedString, Fragment.Closed]
  · simp [getTableInfo, rawString, text, fixedName, Fragment.Closed]
  · simp [createClockTable, createClockIndex, compactPostAlter, dropTrigger,
      createInsertTrigger, createUpdateTrigger, deleteTriggerQuery, rawName, escapedName,
      escapedString, text, fixedName, clockColumns, onConflict, closed_asIdentifierList,
      closed_triggerKey, hupdate, hinsert, Fragment.Closed]

/-! ## Statements for a change -/

/-- Quotes are kept apart and closed. -/
def WellQuoted (s : Statement) : Prop :=
  s.Spaced ∧ s.Closed

section Change

variable {info : TableInfo} {pkWhereList pkVals : Statement} {colName val : Text}

/-- The query for a local delete is well quoted. -/
theorem wellQuoted_checkForLocalDelete (hw : WellQuoted pkWhereList) :
    WellQuoted (checkForLocalDelete info.tblName pkWhereList) := by
  simp [WellQuoted, checkForLocalDelete, rawName, text, escapedString, Fragment.Closed,
    Statement.spaced_append_plain, hw.1, hw.2]

/-- The queries for the local version and the local value are well quoted. -/
theorem wellQuoted_didCidWin (hw : WellQuoted pkWhereList) :
    ∀ s ∈ didCidWin info.tblName pkWhereList colName, WellQuoted s := by
  simp [WellQuoted, didCidWin, rawName, escapedName, text, escapedString, Fragment.Closed,
    Statement.spaced_append_plain, hw.1, hw.2]

theorem wellQuoted_mergeDelete (hw : WellQuoted pkWhereList) :
    WellQuoted (mergeDelete info pkWhereList) := by
  simp [WellQuoted, mergeDelete, rawName, text, Fragment.Closed, hw.1, hw.2]

/-- The INSERT of a key alone is well quoted. -/
theorem wellQuoted_mergePkOnlyInsert (hv : WellQuoted pkVals) :
    WellQuoted (mergePkOnlyInsert info pkVals) := by
  simp [WellQuoted, mergePkOnlyInsert, rawName, text, Fragment.Closed,
    Statement.spaced_append_plain, spaced_asIdentifierList, closed_asIdentifierList, hv.1, hv.2]

/-- The write of the clock entry is well quoted. -/
theorem wellQuoted_setWinnerClock (hv : WellQuoted pkVals) (colVrsn dbVrsn : Int) :
    WellQuoted (setWinnerClock info pkVals colName colVrsn dbVrsn) := by
  have hcol := closed_printInt colVrsn
  have hdb := closed_printInt dbVrsn
  constructor
  · simp [setWinnerClock, rawName, escapedString, fixedName, text,
      Statement.spaced_append_plain, spaced_asIdentifierList, hv.1]
  · simpa [setWinnerClock, rawName, escapedString, fixedName, text, Fragment.Closed,
      closed_asIdentifierList, hv.2] using And.intro hcol hdb

/-- The INSERT of a column is well quoted. -/
theorem wellQuoted_mergeColumn (hv : WellQuoted pkVals) (hval : Literal val) :
    WellQuoted (mergeColumn info pkVals colName val) := by
  have hclosed := closed_literal hval
  constructor
  · simp [mergeColumn, escapedName, text, Statement.spaced_append_plain,
      spaced_asIdentifierList, hv.1]
  · simpa [mergeColumn, escapedName, text, Fragment.Closed, closed_asIdentifierList, hv.2]
      using hclosed

/-- The lookup of a row is well quoted. -/
theorem wellQuoted_rowPatchDataQuery (hw : WellQuoted pkWhereList) :
    WellQuoted (rowPatchDataQuery info colName pkWhereList) := by
  unfold rowPatchDataQuery
  split_ifs
  · exact ⟨Statement.spaced_nil, Statement.closed_nil⟩
  · simp [WellQuoted, escapedName, text, Fragment.Closed, hw.1, hw.2]

/-- The write of the clock entry names what it is written for. -/
theorem readable_setWinnerClock (hname : doubleQuote ∉ info.tblName) (hv : pkVals.Readable)
    (colVrsn dbVrsn : Int) :
    (setWinnerClock info pkVals colName colVrsn dbVrsn).Readable := by
  simp [setWinnerClock, rawName, escapedString, fixedName, text, Fragment.ReadsBack, Quote.char,
    readable_asIdentifierList, hname, hv]

/-- So does the lookup of a row. -/
theorem readable_rowPatchDataQuery (hw : pkWhereList.Readable) :
    (rowPatchDataQuery info colName pkWhereList).Readable := by
  unfold rowPatchDataQuery
  split_ifs
  · exact Statement.readable_nil
  · simp [escapedName, text, Fragment.ReadsBack, hw]

variable {ch : Change}

/-- The values of the change are literals. -/
def ValueLiteral (ch : Change) : Prop :=
  ∀ val parts, ch.val = some val → splitQuoteConcat val 1 = some parts → ∀ p ∈ parts, Literal p

/-- All statements of a merge are well quoted. -/
theorem wellQuoted_mergeStatements (hw : WellQuoted pkWhereList) (hv : WellQuoted pkVals)
    (hval : ValueLiteral ch) :
    ∀ s ∈ mergeStatements info ch pkWhereList (some pkVals), WellQuoted s := by
  unfold mergeStatements
  rw [List.forall_mem_cons]
  refine ⟨wellQuoted_checkForLocalDelete hw, ?_⟩
  dsimp only
  split_ifs
  · simp [wellQuoted_mergeDelete hw, wellQuoted_setWinnerClock hv]
  · simp [wellQuoted_mergePkOnlyInsert hv, wellQuoted_setWinnerClock hv]
  · split
    · rename_i val hsplit
      obtain ⟨v, hv', hsplit⟩ := Option.bind_eq_some_iff.mp hsplit
      have hlit := hval v [val] hv' hsplit val List.mem_cons_self
      rw [List.forall_mem_append]
      refine ⟨wellQuoted_didCidWin hw, ?_⟩
      simp [wellQuoted_mergeColumn hv hlit, wellQuoted_setWinnerClock hv]
    · simp

/-- All statements of a merge name what they are written for. -/
theorem readable_mergeStatements (hname : doubleQuote ∉ info.tblName)
    (hw : pkWhereList.Readable) (hv : pkVals.Readable) :
    ∀ s ∈ mergeStatements info ch pkWhereList (some pkVals), s.Readable := by
  have hclock (colName : Text) (colVrsn dbVrsn : Int) :
      (setWinnerClock info pkVals colName colVrsn dbVrsn).Readable :=
    readable_setWinnerClock hname hv colVrsn dbVrsn
  have hdelete : (mergeDelete info pkWhereList).Readable := by
    simp [mergeDelete, rawName, text, Fragment.ReadsBack, Quote.char, hname, hw]
  have hpko : (mergePkOnlyInsert info pkVals).Readable := by
    simp [mergePkOnlyInsert, rawName, text, Fragment.ReadsBack, Quote.char, hname, hv,
      readable_asIdentifierList]
  have hcolumn (colName val : Text) : (mergeColumn info pkVals colName val).Readable := by
    simp [mergeColumn, escapedName, text, Fragment.ReadsBack, hv, readable_asIdentifierList]
  have hwin (colName : Text) : ∀ s ∈ didCidWin info.tblName pkWhereList colName, s.Readable := by
    simp [didCidWin, rawName, escapedName, text, escapedString, Fragment.ReadsBack, Quote.char,
      hname, hw]
  unfold mergeStatements
  rw [List.forall_mem_cons]
  constructor
  · simp [checkForLocalDelete, rawName, text, escapedString, Fragment.ReadsBack, Quote.char,
      hname, hw]
  · dsimp only
    split_ifs
    · simp [hdelete, hclock]
    · simp [hpko, hclock]
    · split
      · rw [List.forall_mem_append]
        exact ⟨hwin ch.cid, by simp [hcolumn, hclock]⟩
      · simp

end Change

/-! ## Statements over all tables -/

/-- The query for the db version is well quoted, and names its tables with doubled quotes. -/
theorem wellQuoted_getDbVersionUnionQuery (tableNames : List Text) :
    WellQuoted (getDbVersionUnionQuery tableNames) ∧
      (getDbVersionUnionQuery tableNames).Readable := by
  have hunions : WellQuoted (dbVersionUnions tableNames) ∧
      (dbVersionUnions tableNames).Readable := by
    induction tableNames with
    | nil => simp [dbVersionUnions, WellQuoted]
    | cons t ts ih =>
        unfold dbVersionUnions dbVersionUnion
        split_ifs
        · simp [WellQuoted, text, escapedName, Fragment.Closed, Fragment.ReadsBack,
            ih.1.1, ih.1.2, ih.2]
        · simp [WellQuoted, text, escapedName, Fragment.Closed, Fragment.ReadsBack,
            ih.1.1, ih.1.2, ih.2]
  simp [WellQuoted, getDbVersionUnionQuery, text, Fragment.Closed, Fragment.ReadsBack,
    Statement.spaced_append_plain, hunions.1.1, hunions.1.2, hunions.2]

/-- The query of one table is well quoted, and readable exactly when its names are plain. -/
private theorem changesQueryForTable_spec {info : TableInfo} {idxNum : Nat} {s : Statement}
    (h : changesQueryForTable info idxNum = some s) :
    WellQuoted s ∧ (s.Readable ↔ TableNamePlain info.tblName ∧ KeyNamesPlain info.pks) := by
  unfold changesQueryForTable at h
  split_ifs at h with hpks hidx
  all_goals
    obtain rfl := Option.some.inj h
    constructor
    · simp [WellQuoted, rawString, rawName, text, Fragment.Closed, Statement.spaced_append_plain,
        spaced_quoteConcat, closed_quoteConcat]
    · simp [rawString, rawName, text, Fragment.ReadsBack, Quote.char, readable_quoteConcat_iff,
        TableNamePlain]
      tauto

/-- So are the queries of all tables. -/
private theorem changesUnions_spec {infos : List TableInfo} {idxNum : Nat}
    {queries : List Statement} (h : changesUnions idxNum infos = some queries) :
    (∀ q ∈ queries, WellQuoted q) ∧
      ((∀ q ∈ queries, Statement.Readable q) ↔
        ∀ info ∈ infos, TableNamePlain info.tblName ∧ KeyNamesPlain info.pks) := by
  induction infos generalizing queries with
  | nil =>
      obtain rfl := Option.some.inj h
      simp
  | cons info infos ih =>
      unfold changesUnions at h
      split at h
      · rename_i query rest hquery hrest
        obtain rfl := Option.some.inj h
        have hspec := changesQueryForTable_spec hquery
        have ih := ih hrest
        simp only [List.forall_mem_cons]
        exact ⟨⟨hspec.1, ih.1⟩, and_congr hspec.2 ih.2⟩
      · cases h

/-- So is their union. -/
theorem changesUnionQuery_spec {infos : List TableInfo} {idxNum : Nat} {s : Statement}
    (h : changesUnionQuery infos idxNum = some s) :
    WellQuoted s ∧
      (s.Readable ↔ ∀ info ∈ infos, TableNamePlain info.tblName ∧ KeyNamesPlain info.pks) := by
  obtain ⟨queries, hqueries, rfl⟩ := Option.map_eq_some_iff.mp h
  obtain ⟨hquoted, hreadable⟩ := changesUnions_spec hqueries
  have hspaced : Statement.Spaced (List.intercalate [text " UNION "] queries) := by
    refine Statement.spaced_intercalate (fun s s' hs hs' => ?_) fun q hq => (hquoted q hq).1
    exact (Statement.spaced_append_plain (by simp)).mpr ⟨hs, hs'⟩
  have hclosed : Statement.Closed (List.intercalate [text " UNION "] queries) :=
    (Statement.forall_mem_intercalate (by simp [text, Fragment.Closed])).mpr
      fun q hq => (hquoted q hq).2
  have hread : Statement.Readable (List.intercalate [text " UNION "] queries) ↔
      ∀ q ∈ queries, Statement.Readable q :=
    Statement.forall_mem_intercalate (by simp [text, Fragment.ReadsBack])
  rw [← hreadable, ← hread]
  generalize List.intercalate [text " UNION "] queries = unions at hspaced hclosed ⊢
  simp [WellQuoted, text, Fragment.Closed, Fragment.ReadsBack, Statement.spaced_append_plain,
    hspaced, hclosed]

/-- The statements the extension writes over the tables of a database: those of each
table, those over all of them, and those for a change whose key and value are
literals. -/
inductive Generated (infos : List TableInfo) : Statement → Prop
  | crr {info : TableInfo} {s : Statement} : info ∈ infos → s ∈ crrStatements info →
      Generated infos s
  | dbVersions : Generated infos
      (getDbVersionUnionQuery (infos.map fun info => info.tblName ++ clock.chars))
  | changes {idxNum : Nat} {s : Statement} : changesUnionQuery infos idxNum = some s →
      Generated infos s
  | row {info : TableInfo} {colName : Text} {parts : List Text} : info ∈ infos →
      parts.length = info.pks.length → (∀ p ∈ parts, Literal p) →
      Generated infos (rowPatchDataQuery info colName (whereList (comparisons info.pks parts)))
  | merge {info : TableInfo} {ch : Change} {parts : List Text} {s : Statement} :
      info ∈ infos → parts.length = info.pks.length → (∀ p ∈ parts, Literal p) →
      ValueLiteral ch →
      s ∈ mergeStatements info ch (whereList (comparisons info.pks parts)) (some (valuesList parts)) →
      Generated infos s

/-- Lists of literals are well quoted. -/
private theorem wellQuoted_lists (cols : List ColumnInfo) {parts : List Text}
    (hparts : ∀ p ∈ parts, Literal p) :
    WellQuoted (whereList (comparisons cols parts)) ∧ WellQuoted (valuesList parts) :=
  ⟨⟨spaced_whereList _, closed_whereList hparts⟩,
    spaced_valuesList parts, closed_valuesList hparts⟩

/-- Every generated statement is well quoted. -/
theorem Generated.wellQuoted {infos : List TableInfo} {s : Statement} (h : Generated infos s) :
    WellQuoted s := by
  cases h with
  | crr _ hs => exact ⟨spaced_crrStatements _ _ hs, closed_crrStatements _ _ hs⟩
  | dbVersions => exact (wellQuoted_getDbVersionUnionQuery _).1
  | changes hs => exact (changesUnionQuery_spec hs).1
  | row _ _ hparts => exact wellQuoted_rowPatchDataQuery (wellQuoted_lists _ hparts).1
  | merge _ _ hparts hval hs =>
      obtain ⟨hw, hv⟩ := wellQuoted_lists _ hparts
      exact wellQuoted_mergeStatements hw hv hval _ hs

/-- The statement that looks a row up is read back only if the key columns have no
double quote. -/
private theorem keyNamesPlain_of_readsBack {infos : List TableInfo} {info : TableInfo}
    (h : ∀ s, Generated infos s → s.ReadsBack) (hinfo : info ∈ infos) :
    KeyNamesPlain info.pks := by
  have hnull : ∀ p ∈ List.replicate info.pks.length ['N', 'U', 'L', 'L'], Literal p := by
    intro p hp
    rw [List.eq_of_mem_replicate hp]
    exact .null
  have hrow : Generated infos (rowPatchDataQuery info pkoSentinel
      (whereList (comparisons info.pks (List.replicate info.pks.length ['N', 'U', 'L', 'L'])))) :=
    .row hinfo (by simp) hnull
  have hread := (readsBack_iff hrow.wellQuoted.1 hrow.wellQuoted.2).mp (h _ hrow)
  rw [rowPatchDataQuery, if_neg pkoSentinel_ne_delSentinel, Statement.readable_append,
    readable_whereList_iff (by simp)] at hread
  exact hread.2

/-- Over tables without quotes in their names and key columns every statement names the
tables and columns it is written for. -/
theorem Generated.readsBack {infos : List TableInfo} {s : Statement} (hs : Generated infos s)
    (h : ∀ info ∈ infos, TableNamePlain info.tblName ∧ KeyNamesPlain info.pks) :
    s.ReadsBack := by
  refine (readsBack_iff hs.wellQuoted.1 hs.wellQuoted.2).mpr ?_
  cases hs with
  | crr hinfo hs => exact readable_crrStatements_iff.mpr (h _ hinfo).1 _ hs
  | dbVersions => exact (wellQuoted_getDbVersionUnionQuery _).2
  | changes hs => exact (changesUnionQuery_spec hs).2.mpr h
  | row hinfo hlen _ =>
      exact readable_rowPatchDataQuery ((readable_whereList_iff hlen).mpr (h _ hinfo).2)
  | merge hinfo hlen _ _ hs =>
      exact readable_mergeStatements (h _ hinfo).1.1
        ((readable_whereList_iff hlen).mpr (h _ hinfo).2) (readable_valuesList _) _ hs

/-- Every statement names the tables and columns it is written for exactly when no
table name has a quote of either kind and no key column a double quote. -/
theorem generated_readsBack_iff {infos : List TableInfo} :
    (∀ s, Generated infos s → s.ReadsBack) ↔
      ∀ info ∈ infos, TableNamePlain info.tblName ∧ KeyNamesPlain info.pks := by
  constructor
  · intro h info hinfo
    refine ⟨readable_crrStatements_iff.mp fun s hs => ?_, keyNamesPlain_of_readsBack h hinfo⟩
    have hcrr := Generated.crr hinfo hs
    exact (readsBack_iff hcrr.wellQuoted.1 hcrr.wellQuoted.2).mp (h s hcrr)
  · exact fun h s hs => hs.readsBack h

/-- A table whose key column is named `a"`. -/
def quotedKey : TableInfo :=
  ⟨"t".toList, [⟨0, ['a', doubleQuote], [], true, 1⟩]⟩

/-- The lookup of a row of that table names another column. -/
theorem generated_misread : ¬∀ s, Generated [quotedKey] s → s.ReadsBack := by
  intro h
  have hplain := keyNamesPlain_of_readsBack h List.mem_cons_self
  exact hplain _ (List.mem_cons_self : _ ∈ quotedKey.pks) (by decide)

end GeneratedSql

end CrSqlite
