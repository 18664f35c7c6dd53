import CrSqlite.Database
import Mathlib.Data.List.Dedup

/-!
# ChangesRead - reading `crsql_changes`

A scan of the virtual table: the union query over the clock tables
(changes-vtab-read.c), and for each of its rows the lookup of the current value
in the base table and the columns that are reported (changes-vtab.c).  The order
of rows that the ORDER BY leaves open is the order of the clock tables here.
Names stand for themselves and keys for the values they have; FeedStatements
reads the query with its names as SQL reads them, and the columns with their
affinities, and says when the two scans are the same.

Main results:

- Theorem {lit}`scan_eq`: a scan reports every row of the query, or ends with an
  error at the first one that cannot be looked up.
- Theorem {lit}`pairwise_changesUnionQuery`: the rows come in non-decreasing
  order of their db versions.
- Theorem {lit}`changesNext_eq`: what a lookup finds for a key that was printed.
-/

namespace CrSqlite

/-! ## The query of one table -/

/-- A row of the union query. -/
structure ChangeRow where
  tbl : Text
  pks : Text
  cid : Text
  colVrsn : Int
  dbVrsn : Int
  siteId : Option Blob
deriving DecidableEq

/-- SQL tells names apart without regard to case. -/
def sameName (a b : Text) : Bool :=
  a.map Char.toLower = b.map Char.toLower

/-- The column of the clock table that the name is, if a key column has it: a
column goes before the alias of a result column. -/
def keyColumn (info : TableInfo) (key : Key) (name : Text) : Option SqlValue :=
  (((info.pks.map ColumnInfo.name).zip key).find? fun p => sameName p.1 name).map Prod.snd

/-- The alias `site_id` of the query. -/
def siteIdAlias : Text :=
  ['s', 'i', 't', 'e', '_', 'i', 'd']

/-- The alias `db_vrsn` of the query. -/
def dbVrsnAlias : Text :=
  ['d', 'b', '_', 'v', 'r', 's', 'n']

/-- A stored site id as an SQL value. -/
def siteIdValue : Option Blob → SqlValue
  | none => .null
  | some b => .blob b

/-- SQL's `>` with an integer on the right gives true. -/
def SqlValue.gtInt (v : SqlValue) (n : Int) : Bool :=
  match v with
  | .null => false
  | .integer i => n < i
  | .real q => n < q
  | .inf negative => !negative
  | .text _ => true
  | .blob _ => true

/-- The WHERE clause of the query: `site_id IS ?` or `site_id IS NOT ?`, and
`db_vrsn > ?`. -/
def passes (info : TableInfo) (idxEq : Bool) (siteId : SqlValue) (versionBound : Int)
    (e : ClockEntry) : Bool :=
  let site := (keyColumn info e.key siteIdAlias).getD (siteIdValue e.siteId)
  let vrsn := (keyColumn info e.key dbVrsnAlias).getD (.integer e.dbVersion)
  decide (SqlValue.Is site siteId) = idxEq && vrsn.gtInt versionBound

/-- The result columns of the query for one clock entry. -/
def changeRow [Sqlite] (info : TableInfo) (e : ClockEntry) : ChangeRow where
  tbl := info.tblName
  pks := quoteConcat e.key
  cid := e.colName
  colVrsn := e.colVersion
  dbVrsn := e.dbVersion
  siteId := e.siteId

/-- `crsql_changesQueryForTable`, with its two parameters bound. -/
def changesQueryForTable [Sqlite] (t : CrrTable) (idxEq : Bool) (siteId : SqlValue)
    (versionBound : Int) : List ChangeRow :=
  (t.clock.filter (passes t.info idxEq siteId versionBound)).map (changeRow t.info)

/-! ## The union of the tables -/

/-- `ORDER BY db_vrsn, tbl ASC`. -/
def ChangeRow.le (a b : ChangeRow) : Prop :=
  a.dbVrsn < b.dbVrsn ∨ (a.dbVrsn = b.dbVrsn ∧ a.tbl ≤ b.tbl)

instance (a b : ChangeRow) : Decidable (ChangeRow.le a b) :=
  inferInstanceAs (Decidable (_ ∨ _))

/-- `crsql_changesUnionQuery`: with two or more tables the word UNION stands in
the query and drops rows that occur twice. -/
def Db.changesUnionQuery [Sqlite] (db : Db) (idxEq : Bool) (siteId : SqlValue)
    (versionBound : Int) : List ChangeRow :=
  let rows := db.tables.flatMap fun t => changesQueryForTable t idxEq siteId versionBound
  (if 1 < db.tables.length then rows.dedup else rows).insertionSort ChangeRow.le

/-! ## The lookup of a row -/

/-- The statement of `crsql_rowPatchDataQuery`: the column that is printed and the
comparisons of the WHERE list. -/
structure RowPatchQuery where
  colName : Text
  wheres : List (Text × Text)

/-- `crsql_rowPatchDataQuery`: none on failure, and no statement for the delete
sentinel. -/
def rowPatchDataQuery (info : TableInfo) (colName pks : Text) :
    Option (Option RowPatchQuery) :=
  if colName = delSentinel then some none
  else (extractWhereList info.pks pks).map fun wheres => some ⟨colName, wheres⟩

/-- `changesNext` behind the step of the union query: the text in `pRowStmt`,
none when there is no such statement. -/
def Db.changesNext [Sqlite] (db : Db) (row : ChangeRow) : Except Text (Option Text) :=
  match db.findTable row.tbl with
  | none =>
      .error (message "crsql internal error. Could not find schema for table " ++ row.tbl)
  | some t =>
      match rowPatchDataQuery t.info row.cid row.pks with
      | none =>
          .error (message "crsql internal error generationg raw data fetch query for table " ++
            row.tbl)
      | some none => .ok none
      | some (some q) =>
          match readLiterals (whereTexts q.wheres) with
          | none =>
              .error (message "crsql internal error preparing row data fetch statement")
          | some vals =>
              .ok ((t.rows.find? fun r => whereTrue r.key vals).map fun r =>
                quote (r.column t.info q.colName))

/-- `changesColumn`, for all columns of the row: without a row statement the
column name becomes the delete sentinel, and a NULL site id the own one. -/
def Db.changesColumn (db : Db) (row : ChangeRow) (pRowStmt : Option Text) : Change where
  tbl := row.tbl
  pk := row.pks
  cid := if pRowStmt = none then delSentinel else row.cid
  val := pRowStmt
  colVersion := row.colVrsn
  dbVersion := row.dbVrsn
  siteId := row.siteId.getD db.siteId

/-- The rows a scan reports, and the message it ends with, none for
`SQLITE_OK`. -/
def Db.scan [Sqlite] (db : Db) : List ChangeRow → List Change × Option Text
  | [] => ([], none)
  | row :: rows =>
      match db.changesNext row with
      | .error msg => ([], some msg)
      | .ok pRowStmt =>
          let rest := db.scan rows
          (db.changesColumn row pRowStmt :: rest.1, rest.2)

/-! ## Filters -/

/-- `MIN_POSSIBLE_DB_VERSION`. -/
def minPossibleDbVersion : Int := 0

/-- The first byte of the default `requestorSiteId`, bound as a site id of length
one. -/
def placeholderSiteId : Blob := [0x61]

/-- The site id that is bound for an operand; the placeholder stands in for one
without bytes. -/
def requestorSiteId [Sqlite] : SqlValue → SqlValue
  | .null => .null
  | v => .blob (if Sqlite.valueBlob v = [] then placeholderSiteId else Sqlite.valueBlob v)

/-- The statement that `changesFilter` prepares and binds: bit 2 of `idxNum` takes
a version from the arguments, bit 4 a site id, and bit 8 selects `IS`. -/
def Db.filterRows [Sqlite] (db : Db) (idxNum : Nat) (argv : List SqlValue) :
    List ChangeRow :=
  let hasVersion := idxNum &&& 2 ≠ 0
  let hasSite := idxNum &&& 4 ≠ 0
  let versionBound :=
    if hasVersion then Sqlite.valueInt64 (argv.getD 0 .null) else minPossibleDbVersion
  let args := if hasVersion then argv.drop 1 else argv
  let siteId :=
    if hasSite then requestorSiteId (args.getD 0 .null) else .blob placeholderSiteId
  if db.tables.isEmpty then []
  else db.changesUnionQuery (idxNum &&& 8 = 8) siteId versionBound

/-- `changesFilter` and the scan it starts. -/
def Db.changesFilter [Sqlite] (db : Db) (idxNum : Nat) (argv : List SqlValue) :
    List Change × Option Text :=
  db.scan (db.filterRows idxNum argv)

/-- An unfiltered scan. -/
def Db.feed [Sqlite] (db : Db) : List Change × Option Text :=
  db.changesFilter 0 []

/-! ## What a scan reports -/

/-- What a scan reports for a row of the query, if its lookup succeeds. -/
def Db.report [Sqlite] (db : Db) (row : ChangeRow) : Change :=
  db.changesColumn row ((db.changesNext row).toOption.getD none)

/-- A row whose lookup succeeds. -/
def Db.Readable [Sqlite] (db : Db) (row : ChangeRow) : Prop :=
  ∃ pRowStmt, db.changesNext row = .ok pRowStmt

/-- What is reported of a row that was looked up. -/
theorem report_of_next [Sqlite] {db : Db} {row : ChangeRow} {pRowStmt : Option Text}
    (h : db.changesNext row = .ok pRowStmt) :
    db.report row = db.changesColumn row pRowStmt := by
  rw [Db.report, h]
  rfl

/-- A scan ends without an error exactly when every row can be looked up. -/
theorem scan_ok_iff [Sqlite] {db : Db} {rows : List ChangeRow} :
    (db.scan rows).2 = none ↔ ∀ row ∈ rows, db.Readable row := by
  induction rows with
  | nil => simp [Db.scan]
  | cons row rows ih =>
      rw [List.forall_mem_cons, ← ih, Db.scan]
      cases hnext : db.changesNext row with
      | error msg => simp [Db.Readable, hnext]
      | ok pRowStmt => simp [Db.Readable, hnext]

/-- A scan without an error reports every row. -/
theorem scan_eq [Sqlite] {db : Db} {rows : List ChangeRow}
    (h : ∀ row ∈ rows, db.Readable row) : db.scan rows = (rows.map db.report, none) := by
  induction rows with
  | nil => rfl
  | cons row rows ih =>
      obtain ⟨⟨pRowStmt, hnext⟩, hrest⟩ := List.forall_mem_cons.mp h
      rw [Db.scan, hnext, ih hrest, List.map_cons, report_of_next hnext]

/-- What a scan reports, with or without an error at its end, are changes of rows that
can be looked up. -/
theorem mem_scan [Sqlite] {db : Db} {rows : List ChangeRow} {ch : Change}
    (h : ch ∈ (db.scan rows).1) : ∃ row ∈ rows, db.Readable row ∧ db.report row = ch := by
  induction rows with
  | nil => exact absurd h List.not_mem_nil
  | cons row rows ih =>
      rw [Db.scan] at h
      split at h
      · exact absurd h List.not_mem_nil
      · rename_i pRowStmt hnext
        rcases List.mem_cons.mp h with rfl | h
        · exact ⟨row, List.mem_cons_self, ⟨pRowStmt, hnext⟩, report_of_next hnext⟩
        · obtain ⟨row', hrow', hreport⟩ := ih h
          exact ⟨row', List.mem_cons_of_mem row hrow', hreport⟩

/-! ## The order of the rows -/

instance : Std.Total ChangeRow.le where
  total a b := by
    rcases lt_trichotomy a.dbVrsn b.dbVrsn with h | h | h
    · exact Or.inl (Or.inl h)
    · rcases le_total a.tbl b.tbl with ht | ht
      · exact Or.inl (Or.inr ⟨h, ht⟩)
      · exact Or.inr (Or.inr ⟨h.symm, ht⟩)
    · exact Or.inr (Or.inl h)

instance : IsTrans ChangeRow ChangeRow.le where
  trans a b c := by
    rintro (hab | ⟨hab, htab⟩) (hbc | ⟨hbc, htbc⟩)
    · exact Or.inl (hab.trans hbc)
    · exact Or.inl (hbc ▸ hab)
    · exact Or.inl (hab ▸ hbc)
    · exact Or.inr ⟨hab.trans hbc, htab.trans htbc⟩

/-- The rows come in the order of the ORDER BY. -/
theorem pairwise_changesUnionQuery [Sqlite] (db : Db) (idxEq : Bool) (siteId : SqlValue)
    (versionBound : Int) :
    (db.changesUnionQuery idxEq siteId versionBound).Pairwise fun a b =>
      a.dbVrsn ≤ b.dbVrsn := by
  refine (List.pairwise_insertionSort ChangeRow.le _).imp ?_
  rintro a b (h | ⟨h, -⟩)
  · exact h.le
  · exact h.le

/-- The rows of the query are those of the entries that pass its WHERE clause. -/
theorem mem_changesUnionQuery [Sqlite] {db : Db} {idxEq : Bool} {siteId : SqlValue}
    {versionBound : Int} {row : ChangeRow} :
    row ∈ db.changesUnionQuery idxEq siteId versionBound ↔
      ∃ t ∈ db.tables, ∃ e ∈ t.clock,
        passes t.info idxEq siteId versionBound e = true ∧ changeRow t.info e = row := by
  have hrows : row ∈ db.changesUnionQuery idxEq siteId versionBound ↔
      row ∈ db.tables.flatMap fun t => changesQueryForTable t idxEq siteId versionBound := by
    simp only [Db.changesUnionQuery, List.mem_insertionSort]
    split
    · exact List.mem_dedup
    · rfl
  rw [hrows]
  simp only [List.mem_flatMap, changesQueryForTable, List.mem_map, List.mem_filter, and_assoc]

/-- All clock entries, each with its table. -/
def Db.entries (db : Db) : List (CrrTable × ClockEntry) :=
  db.tables.flatMap fun t => t.clock.map fun e => (t, e)

/-- The entries are those of the tables. -/
theorem mem_entries {db : Db} {t : CrrTable} {e : ClockEntry} :
    (t, e) ∈ db.entries ↔ t ∈ db.tables ∧ e ∈ t.clock := by
  simp only [Db.entries, List.mem_flatMap, List.mem_map, Prod.mk.injEq]
  constructor
  · rintro ⟨u, hu, f, hf, rfl, rfl⟩
    exact ⟨hu, hf⟩
  · rintro ⟨ht, he⟩
    exact ⟨t, ht, e, he, rfl, rfl⟩

/-- The queries of all tables report the entries that pass. -/
private theorem flatMap_query [Sqlite] (ts : List CrrTable) (idxEq : Bool) (siteId : SqlValue)
    (versionBound : Int) :
    (ts.flatMap fun t => changesQueryForTable t idxEq siteId versionBound) =
      (((ts.flatMap fun t => t.clock.map fun e => (t, e)).filter fun p =>
        passes p.1.info idxEq siteId versionBound p.2).map fun p => changeRow p.1.info p.2) := by
  induction ts with
  | nil => rfl
  | cons t ts ih =>
      rw [List.flatMap_cons, List.flatMap_cons, List.filter_append, List.map_append, ih,
        changesQueryForTable, List.filter_map, List.map_map]
      rfl

/-- Up to the order, the query has a row for each entry that passes its WHERE clause; a
UNION drops the rows that occur twice. -/
theorem changesUnionQuery_perm [Sqlite] (db : Db) (idxEq : Bool) (siteId : SqlValue)
    (versionBound : Int) :
    let rows := (db.entries.filter fun p => passes p.1.info idxEq siteId versionBound p.2).map
      fun p => changeRow p.1.info p.2
    (db.changesUnionQuery idxEq siteId versionBound).Perm
      (if 1 < db.tables.length then rows.dedup else rows) := by
  have hquery := flatMap_query db.tables idxEq siteId versionBound
  unfold Db.changesUnionQuery
  simp only [hquery]
  exact List.perm_insertionSort ChangeRow.le _

/-- With two or more tables no two entries print the same row, so that the UNION drops
nothing. -/
def Db.PrintsApart [Sqlite] (db : Db) : Prop :=
  1 < db.tables.length → (db.entries.map fun p => changeRow p.1.info p.2).Nodup

/-- Then the query has a row for each entry that passes. -/
theorem Db.PrintsApart.changesUnionQuery_perm [Sqlite] {db : Db} (h : db.PrintsApart)
    (idxEq : Bool) (siteId : SqlValue) (versionBound : Int) :
    (db.changesUnionQuery idxEq siteId versionBound).Perm
      ((db.entries.filter fun p => passes p.1.info idxEq siteId versionBound p.2).map
        fun p => changeRow p.1.info p.2) := by
  have hperm := CrSqlite.changesUnionQuery_perm db idxEq siteId versionBound
  dsimp only at hperm
  split at hperm
  · rename_i htwo
    have hsub : ((db.entries.filter fun p => passes p.1.info idxEq siteId versionBound p.2).map
        fun p => changeRow p.1.info p.2).Sublist
          (db.entries.map fun p => changeRow p.1.info p.2) :=
      List.filter_sublist.map _
    rwa [((h htwo).sublist hsub).dedup] at hperm
  · exact hperm

/-- Without tables the query has no rows either. -/
theorem filterRows_eq [Sqlite] (db : Db) (idxNum : Nat) (argv : List SqlValue) :
    db.filterRows idxNum argv =
      db.changesUnionQuery (idxNum &&& 8 = 8)
        (if idxNum &&& 4 ≠ 0 then
          requestorSiteId ((if idxNum &&& 2 ≠ 0 then argv.drop 1 else argv).getD 0 .null)
        else .blob placeholderSiteId)
        (if idxNum &&& 2 ≠ 0 then Sqlite.valueInt64 (argv.getD 0 .null)
        else minPossibleDbVersion) := by
  unfold Db.filterRows
  simp only
  split
  · rename_i hempty
    simp [Db.changesUnionQuery, List.isEmpty_iff.mp hempty]
  · rfl

/-- Whatever the filter, a change that `crsql_changes` reports is that of an entry. -/
theorem mem_changesFilter [Sqlite] {db : Db} {idxNum : Nat} {argv : List SqlValue} {ch : Change}
    (h : ch ∈ (db.changesFilter idxNum argv).1) :
    ∃ t ∈ db.tables, ∃ e ∈ t.clock, db.Readable (changeRow t.info e) ∧
      db.report (changeRow t.info e) = ch := by
  obtain ⟨row, hrow, hread, hreport⟩ := mem_scan h
  rw [filterRows_eq, mem_changesUnionQuery] at hrow
  obtain ⟨t, ht, e, he, -, rfl⟩ := hrow
  exact ⟨t, ht, e, he, hread, hreport⟩

/-! ## Lookups with a printed key -/

private theorem readLiteral_inf [Sqlite] (negative : Bool) :
    readLiteral (quote (.inf negative)) = none := by
  cases negative <;> rfl

/-- The text of a key with an infinity is not read by the key lookup. -/
theorem readLiterals_inf [Sqlite] {cols : List ColumnInfo} {key : Key}
    (hlen : key.length = cols.length) (hkey : ∀ v ∈ key, Storable v) {n : Bool}
    (hinf : SqlValue.inf n ∈ key) :
    (extractWhereList cols (quoteConcat key)).bind (fun wheres =>
      readLiterals (whereTexts wheres)) = none := by
  unfold extractWhereList
  split
  · rename_i hone
    obtain ⟨v, rfl⟩ := List.length_eq_one_iff.mp (hlen.trans hone)
    obtain ⟨c, rfl⟩ := List.length_eq_one_iff.mp hone
    rw [List.mem_singleton] at hinf
    subst hinf
    simp [quoteConcat, whereTexts, readLiterals, readLiteral_inf]
  · rw [← hlen, splitQuoteConcat_inf hkey hinf]
    rfl

/-- What a lookup with a printed key finds: nothing for the delete sentinel, an
error for a key with an infinity, and else the row whose key equals it. -/
theorem changesNext_eq [Sqlite] {db : Db} {t : CrrTable} {e : ClockEntry}
    (ht : db.findTable t.info.tblName = some t) (hlen : e.key.length = t.info.pks.length)
    (hkey : ∀ v ∈ e.key, Storable v) (hnul : ∀ s, SqlValue.text s ∈ e.key → nul ∉ s) :
    (e.colName = delSentinel → db.changesNext (changeRow t.info e) = .ok none) ∧
    (e.colName ≠ delSentinel → (∀ n, SqlValue.inf n ∉ e.key) →
      db.changesNext (changeRow t.info e) =
        .ok ((t.rows.find? fun r => whereTrue r.key e.key).map fun r =>
          quote (r.column t.info e.colName))) ∧
    (e.colName ≠ delSentinel → (∃ n, SqlValue.inf n ∈ e.key) →
      ¬ db.Readable (changeRow t.info e)) := by
  refine ⟨?_, ?_, ?_⟩
  · intro hdel
    simp [Db.changesNext, changeRow, ht, rowPatchDataQuery, hdel]
  · intro hdel hfin
    have hquot : ∀ v ∈ e.key, Quotable v := fun v hv =>
      quotable_iff.mpr ⟨hkey v hv, fun n h => hfin n (h ▸ hv), fun s h => hnul s (h ▸ hv)⟩
    obtain ⟨wheres, hw, htexts⟩ := Option.map_eq_some_iff.mp
      (whereTexts_quoteConcat hlen fun v hv => ⟨hkey v hv, fun n h => hfin n (h ▸ hv)⟩)
    simp [Db.changesNext, changeRow, ht, rowPatchDataQuery, hdel, hw, htexts,
      readLiterals_quote hquot]
  · rintro hdel ⟨n, hn⟩ ⟨pRowStmt, hnext⟩
    have hnone := readLiterals_inf hlen hkey hn
    cases hw : extractWhereList t.info.pks (quoteConcat e.key) with
    | none => simp [Db.changesNext, changeRow, ht, rowPatchDataQuery, hdel, hw] at hnext
    | some wheres =>
        rw [hw, Option.bind_some] at hnone
        simp [Db.changesNext, changeRow, ht, rowPatchDataQuery, hdel, hw, hnone] at hnext

end CrSqlite
