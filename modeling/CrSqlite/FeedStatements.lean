import CrSqlite.MergeStatements

/-!
# FeedStatements - a scan of `crsql_changes`, statement by statement

The query for a table prints the table's name between single quotes and, with the names of
the key columns, between double quotes, all as they are; so does the lookup of a row with
the key columns, which compares each of them with a constant as its affinity converts it.
The scan is given here a second time with the names as SQL reads them and the affinities.

Main results:

- Theorem {lit}`changesFilterSql_eq`: where SQL reads the names back and the keys of the
  clock entries are spelled as the key columns store them, it is the scan of the module
  ChangesRead.
- Theorem {lit}`scanSql_of_ok`: what a scan without an error reports in any case.
- Theorem {lit}`mem_filterRowsSql`: the rows under the name of a table with plain names are
  those of its entries, whatever the other tables are called.
-/

namespace CrSqlite

open GeneratedSql SqlText

variable [Sqlite]

/-! ## The query -/

/-- `crsql_changesQueryForTable` as SQL reads it, with its two parameters bound; none is an
error. -/
def changesQueryForTableSql (t : CrrTable) (idxEq : Bool) (siteId : SqlValue)
    (versionBound : Int) : Option (List ChangeRow) :=
  match readRaw singleQuote t.info.tblName, readRaws (t.info.pks.map ColumnInfo.name) with
  | some tbl, some names =>
      if t.info.isFound then
        some ((t.clock.filter (passes t.info idxEq siteId versionBound)).map fun e =>
          { changeRow t.info e with
            tbl := tbl
            pks := quoteConcat (comparands t.info e.key (e.named t.info) names) })
      else none
  | _, _ => none

/-- The queries of several tables; one that is an error makes the whole one an error. -/
def changesQueriesSql (idxEq : Bool) (siteId : SqlValue) (versionBound : Int) :
    List CrrTable → Option (List ChangeRow)
  | [] => some []
  | t :: ts =>
      match changesQueryForTableSql t idxEq siteId versionBound,
          changesQueriesSql idxEq siteId versionBound ts with
      | some rows, some rest => some (rows ++ rest)
      | _, _ => none

/-- `crsql_changesUnionQuery` as SQL reads it. -/
def Db.changesUnionQuerySql (db : Db) (idxEq : Bool) (siteId : SqlValue) (versionBound : Int) :
    Option (List ChangeRow) :=
  (changesQueriesSql idxEq siteId versionBound db.tables).map fun rows =>
    (if 1 < db.tables.length then rows.dedup else rows).insertionSort ChangeRow.le

/-- The statement that `changesFilter` prepares and binds; none when SQLite does not prepare
it. -/
def Db.filterRowsSql (db : Db) (idxNum : Nat) (argv : List SqlValue) : Option (List ChangeRow) :=
  let hasVersion := idxNum &&& 2 ≠ 0
  let hasSite := idxNum &&& 4 ≠ 0
  let versionBound :=
    if hasVersion then Sqlite.valueInt64 (argv.getD 0 .null) else minPossibleDbVersion
  let args := if hasVersion then argv.drop 1 else argv
  let siteId :=
    if hasSite then requestorSiteId (args.getD 0 .null) else .blob placeholderSiteId
  if db.tables.isEmpty then some []
  else db.changesUnionQuerySql (idxNum &&& 8 = 8) siteId versionBound

/-! ## The scan -/

section Affinity

variable [Affinity]

/-- `changesNext`, with the names of the WHERE list as SQL reads them and the affinities of
the columns. -/
def Db.changesNextSql (db : Db) (row : ChangeRow) : Except Text (Option Text) :=
  match db.findTable row.tbl with
  | none =>
      .error (message "crsql internal error. Could not find schema for table " ++ row.tbl)
  | some t =>
      match rowPatchDataQuery t.info row.cid row.pks with
      | none =>
          .error (message "crsql internal error generationg raw data fetch query for table " ++
            row.tbl)
      | some none => .ok none
      | some (some q) =>
          match whereNames q.wheres, readLiterals (whereTexts q.wheres) with
          | some names, some vals =>
              .ok ((t.rows.find? fun r => r.meets t.info names vals).map fun r =>
                quote (r.column t.info q.colName))
          | _, _ => .error (message "crsql internal error preparing row data fetch statement")

/-- The rows a scan reports, and the message it ends with. -/
def Db.scanSql (db : Db) : List ChangeRow → List Change × Option Text
  | [] => ([], none)
  | row :: rows =>
      match db.changesNextSql row with
      | .error msg => ([], some msg)
      | .ok pRowStmt =>
          let rest := db.scanSql rows
          (db.changesColumn row pRowStmt :: rest.1, rest.2)

/-- `changesFilter` and the scan it starts. -/
def Db.changesFilterSql (db : Db) (idxNum : Nat) (argv : List SqlValue) :
    List Change × Option Text :=
  match db.filterRowsSql idxNum argv with
  | none =>
      ([], some (message "crsql internal error preparing the statement to extract changes."))
  | some rows => db.scanSql rows

/-- An unfiltered scan. -/
def Db.feedSql (db : Db) : List Change × Option Text :=
  db.changesFilterSql 0 []

/-- A change that a scan reports is that of a row whose lookup succeeds. -/
theorem mem_scanSql {db : Db} {rows : List ChangeRow} {ch : Change}
    (h : ch ∈ (db.scanSql rows).1) : ∃ row ∈ rows, ∃ pRowStmt,
      db.changesNextSql row = .ok pRowStmt ∧ ch = db.changesColumn row pRowStmt := by
  induction rows with
  | nil => exact absurd h List.not_mem_nil
  | cons row rows ih =>
      rw [Db.scanSql] at h
      split at h
      · exact absurd h List.not_mem_nil
      · rename_i pRowStmt hnext
        rcases List.mem_cons.mp h with rfl | h
        · exact ⟨row, List.mem_cons_self, pRowStmt, hnext, rfl⟩
        · obtain ⟨row', hrow', hreport⟩ := ih h
          exact ⟨row', List.mem_cons_of_mem row hrow', hreport⟩

/-- What a scan reports for a row of the query, if its lookup succeeds. -/
def Db.reportSql (db : Db) (row : ChangeRow) : Change :=
  db.changesColumn row ((db.changesNextSql row).toOption.getD none)

/-- A scan without an error could look up every row, and reports each of them. -/
theorem scanSql_of_ok {db : Db} {rows : List ChangeRow} (h : (db.scanSql rows).2 = none) :
    (db.scanSql rows).1 = rows.map db.reportSql ∧
      ∀ row ∈ rows, ∃ pRowStmt, db.changesNextSql row = .ok pRowStmt := by
  induction rows with
  | nil => exact ⟨rfl, fun _ hrow => absurd hrow List.not_mem_nil⟩
  | cons row rows ih =>
      rw [Db.scanSql] at h ⊢
      cases hnext : db.changesNextSql row with
      | error msg =>
          rw [hnext] at h
          cases h
      | ok pRowStmt =>
          rw [hnext] at h
          obtain ⟨heq, hrest⟩ := ih h
          refine ⟨?_, List.forall_mem_cons.mpr ⟨⟨pRowStmt, hnext⟩, hrest⟩⟩
          rw [List.map_cons, ← heq, Db.reportSql, hnext]
          rfl

/-- The key of a row of the query, as it is printed, is spelled as the key columns store
it. -/
def Db.RowAsStored (db : Db) (row : ChangeRow) : Prop :=
  ∀ t ∈ db.findTable row.tbl, ∀ wheres ∈ extractWhereList t.info.pks row.pks,
    ∀ key ∈ readLiterals (whereTexts wheres), storeKey t.info key = key

/-- The keys of all clock entries, as they are printed, are spelled as the key columns store
them. -/
def Db.KeysAsStored (db : Db) : Prop :=
  ∀ t ∈ db.tables, ∀ e ∈ t.clock, db.RowAsStored (changeRow t.info e)

instance (db : Db) (row : ChangeRow) : Decidable (db.RowAsStored row) :=
  inferInstanceAs (Decidable (∀ t ∈ db.findTable row.tbl,
    ∀ wheres ∈ extractWhereList t.info.pks row.pks, _))

instance (db : Db) : Decidable db.KeysAsStored :=
  inferInstanceAs (Decidable (∀ t ∈ db.tables, ∀ e ∈ t.clock, _))

end Affinity

/-! ## The two descriptions of a scan agree -/

/-- The query of a table with plain names says what it is written for. -/
theorem changesQueryForTableSql_eq {t : CrrTable} (h : t.info.PlainNames) (idxEq : Bool)
    (siteId : SqlValue) (versionBound : Int) :
    changesQueryForTableSql t idxEq siteId versionBound =
      some (changesQueryForTable t idxEq siteId versionBound) := by
  have hnames : readRaws (t.info.pks.map ColumnInfo.name) =
      some (t.info.pks.map ColumnInfo.name) := by
    refine readRaws_of_plain fun name hname => ?_
    obtain ⟨c, hc, rfl⟩ := List.mem_map.mp hname
    exact h.2 c hc
  rw [changesQueryForTableSql, readRaw_of_plain h.1.2, hnames]
  simp only [h.isFound, if_true, comparands]
  rfl

/-- So do the queries of all tables. -/
theorem changesQueriesSql_eq {ts : List CrrTable} (h : ∀ t ∈ ts, t.info.PlainNames)
    (idxEq : Bool) (siteId : SqlValue) (versionBound : Int) :
    changesQueriesSql idxEq siteId versionBound ts =
      some (ts.flatMap fun t => changesQueryForTable t idxEq siteId versionBound) := by
  induction ts with
  | nil => rfl
  | cons t ts ih =>
      obtain ⟨ht, hts⟩ := List.forall_mem_cons.mp h
      rw [changesQueriesSql, changesQueryForTableSql_eq ht, ih hts]
      rfl

/-- A row of the union query is a row of the query of one of the tables. -/
theorem mem_changesQueriesSql {ts : List CrrTable} {idxEq : Bool} {siteId : SqlValue}
    {versionBound : Int} {rows : List ChangeRow}
    (h : changesQueriesSql idxEq siteId versionBound ts = some rows) {row : ChangeRow}
    (hrow : row ∈ rows) : ∃ t ∈ ts, ∃ rows',
      changesQueryForTableSql t idxEq siteId versionBound = some rows' ∧ row ∈ rows' := by
  induction ts generalizing rows with
  | nil =>
      rw [← Option.some.inj h] at hrow
      exact absurd hrow List.not_mem_nil
  | cons t ts ih =>
      rw [changesQueriesSql] at h
      split at h
      · rename_i rows₁ rest hrows₁ hrest
        rw [← Option.some.inj h, List.mem_append] at hrow
        rcases hrow with hrow | hrow
        · exact ⟨t, List.mem_cons_self, rows₁, hrows₁, hrow⟩
        · obtain ⟨t', ht', h'⟩ := ih hrest hrow
          exact ⟨t', List.mem_cons_of_mem t ht', h'⟩
      · cases h

/-- The rows of a table carry its name as SQL reads it. -/
theorem readRaw_tbl {t : CrrTable} {idxEq : Bool} {siteId : SqlValue} {versionBound : Int}
    {rows : List ChangeRow} (h : changesQueryForTableSql t idxEq siteId versionBound = some rows)
    {row : ChangeRow} (hrow : row ∈ rows) : readRaw singleQuote t.info.tblName = some row.tbl := by
  unfold changesQueryForTableSql at h
  split at h
  · rename_i tbl names htbl hnames
    split at h
    · obtain ⟨e, -, rfl⟩ := List.mem_map.mp (Option.some.inj h ▸ hrow)
      exact htbl
    · cases h
  · cases h

/-- A row of the query under the name of a table with plain names is that of one of its
entries, whatever the other tables are called. -/
theorem mem_filterRowsSql {db : Db} (hnames : (db.tables.map fun t => t.info.tblName).Nodup)
    {t : CrrTable} (ht : t ∈ db.tables) (hplain : t.info.PlainNames) {idxNum : Nat}
    {argv : List SqlValue} {rows : List ChangeRow} (h : db.filterRowsSql idxNum argv = some rows)
    {row : ChangeRow} (hrow : row ∈ rows) (htbl : row.tbl = t.info.tblName) :
    ∃ e ∈ t.clock, row = changeRow t.info e := by
  unfold Db.filterRowsSql at h
  dsimp only at h
  split at h
  · rw [← Option.some.inj h] at hrow
    exact absurd hrow List.not_mem_nil
  obtain ⟨all, hall, rfl⟩ := Option.map_eq_some_iff.mp h
  have hmem : row ∈ all := by
    rw [List.mem_insertionSort] at hrow
    split at hrow
    · exact List.mem_dedup.mp hrow
    · exact hrow
  obtain ⟨t', ht', rows', hrows', hrow'⟩ := mem_changesQueriesSql hall hmem
  -- only a table of that very name is printed so
  have hname : t'.info.tblName = t.info.tblName :=
    readRaw_eq_of_notMem (htbl ▸ readRaw_tbl hrows' hrow') hplain.1.2
  have hfound := findTable_of_mem hnames ht'
  rw [hname, findTable_of_mem hnames ht] at hfound
  obtain rfl := Option.some.inj hfound
  rw [changesQueryForTableSql_eq hplain, Option.some.injEq] at hrows'
  subst hrows'
  obtain ⟨e, he, rfl⟩ := List.mem_map.mp hrow'
  exact ⟨e, List.mem_of_mem_filter he, rfl⟩

section Plain

variable {db : Db} (h : db.PlainNames)

include h

/-- Where SQL reads the names back, the statement is that of the query. -/
theorem filterRowsSql_eq (idxNum : Nat) (argv : List SqlValue) :
    db.filterRowsSql idxNum argv = some (db.filterRows idxNum argv) := by
  unfold Db.filterRowsSql Db.filterRows
  dsimp only
  split
  · rfl
  · rw [Db.changesUnionQuerySql, changesQueriesSql_eq h]
    rfl

omit [Sqlite] in
/-- The WHERE list of a lookup has the names of the key columns. -/
theorem whereNames_rowPatchDataQuery {t : CrrTable} (ht : t ∈ db.tables) {row : ChangeRow}
    {q : RowPatchQuery} (hq : rowPatchDataQuery t.info row.cid row.pks = some (some q)) :
    extractWhereList t.info.pks row.pks = some q.wheres ∧
      whereNames q.wheres = some (t.info.pks.map ColumnInfo.name) := by
  have hwheres : extractWhereList t.info.pks row.pks = some q.wheres := by
    unfold rowPatchDataQuery at hq
    split at hq
    · cases hq
    · obtain ⟨wheres, hwheres, heq⟩ := Option.map_eq_some_iff.mp hq
      rw [hwheres, ← Option.some.inj heq]
  exact ⟨hwheres, (h t ht).whereNames hwheres⟩

variable [Affinity]

/-- A row whose key is as the columns store it is looked up as itself. -/
theorem changesNextSql_eq {row : ChangeRow} (hrow : db.RowAsStored row) :
    db.changesNextSql row = db.changesNext row := by
  unfold Db.changesNextSql Db.changesNext
  cases ht : db.findTable row.tbl with
  | none => rfl
  | some t =>
      dsimp only
      cases hq : rowPatchDataQuery t.info row.cid row.pks with
      | none => rfl
      | some q =>
          cases q with
          | none => rfl
          | some q =>
              obtain ⟨hwheres, hnames⟩ := whereNames_rowPatchDataQuery h (findTable_mem ht) hq
              dsimp only
              rw [hnames]
              cases hvals : readLiterals (whereTexts q.wheres) with
              | none => rfl
              | some vals =>
                  have hstore := hrow t ht q.wheres hwheres vals hvals
                  simp only [BaseRow.meets_eq hstore]

/-- So are all rows of a scan. -/
theorem scanSql_eq {rows : List ChangeRow} (hrows : ∀ row ∈ rows, db.RowAsStored row) :
    db.scanSql rows = db.scan rows := by
  induction rows with
  | nil => rfl
  | cons row rows ih =>
      obtain ⟨hrow, hrest⟩ := List.forall_mem_cons.mp hrows
      rw [Db.scanSql, Db.scan, changesNextSql_eq h hrow]
      cases db.changesNext row with
      | error msg => rfl
      | ok pRowStmt => simp only [ih hrest]

/-- Where SQL reads the names back and the keys are spelled as they are stored, a scan by its
statements is the scan of the union query. -/
theorem changesFilterSql_eq (hkeys : db.KeysAsStored) (idxNum : Nat) (argv : List SqlValue) :
    db.changesFilterSql idxNum argv = db.changesFilter idxNum argv := by
  rw [Db.changesFilterSql, filterRowsSql_eq h]
  refine scanSql_eq h fun row hrow => ?_
  rw [filterRows_eq, mem_changesUnionQuery] at hrow
  obtain ⟨t, ht, e, he, -, rfl⟩ := hrow
  exact hkeys t ht e he

theorem feedSql_eq (hkeys : db.KeysAsStored) : db.feedSql = db.feed :=
  changesFilterSql_eq h hkeys 0 []

end Plain

end CrSqlite
