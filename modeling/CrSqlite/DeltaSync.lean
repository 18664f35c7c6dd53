import CrSqlite.Library.Cursor
import CrSqlite.Pushdown
import CrSqlite.Reachable
import CrSqlite.RowAgreement

/-!
# DeltaSync - following a replica by its db versions

A reader asks a replica for the changes above the largest db version it was given
so far and leaves out those that carry its own site id.  Between the pulls the
replica commits transactions of local writes and merges.

Main results:

- Theorem {lit}`following_step`: transactions and pulls, statement by statement, keep
  the reader covered.
- Theorem {lit}`deltaSync_misses_nothing`: after each pull the reader was handed
  every entry of the replica in its current form, and the last row is the next
  cursor.
- Theorem {lit}`deltaSync_hides_deleted_columns`: an entry whose row is gone is
  handed over as a delete, not under its own column name.
-/

namespace CrSqlite

/-! ## Pulling -/

/-- `SELECT .. FROM crsql_changes WHERE db_version > c AND site_id IS NOT b`. -/
def deltaConstraints (c : Int) (b : Blob) : List Constraint :=
  [.dbVersion .gt c, .siteId .isNot (some b)]

/-- The scan that the query runs. -/
def Db.pull [Sqlite] (db : Db) (c : Int) (b : Blob) : List Change × Option Text :=
  runPlan db.changesFilter (deltaConstraints c b)

/-- The same scan by its statements. -/
def Db.pullSql [Sqlite] [Affinity] (db : Db) (c : Int) (b : Blob) :
    List Change × Option Text :=
  runPlan db.changesFilterSql (deltaConstraints c b)

/-- The plan of the query hands both operands over and leaves nothing to check
again. -/
theorem queryPlan_deltaConstraints (c : Int) (b : Blob) :
    queryPlan (deltaConstraints c b) = some (6, [.integer c, .blob b]) := by
  rw [queryPlan, changesBestIndex_eq]
  · simp [deltaConstraints, bitsOf, idxBits, planUsage, versions, sites, ConstraintOp.isEquality]
    rfl
  · simp [deltaConstraints, Constraint.Supported, ConstraintOp.onSiteId]

/-- A pull is a scan with the two operands. -/
theorem pull_eq_changesFilter [Sqlite] (db : Db) (c : Int) (b : Blob) :
    db.pull c b = db.changesFilter 6 [.integer c, .blob b] := by
  rw [Db.pull, runPlan, queryPlan_deltaConstraints]

/-- No key column of a table captures an alias of the query. -/
def Db.NoCaptures (db : Db) : Prop :=
  ∀ t ∈ db.tables, NoCapture t.info

instance (db : Db) : Decidable db.NoCaptures :=
  inferInstanceAs (Decidable (∀ t ∈ db.tables, ∀ c ∈ t.info.pks, _))

section Pull

variable [Sqlite] {db : Db} {b : Blob} {c : Int}

/-- A pull gets the entries above the cursor that are not the reader's own. -/
theorem mem_pull_rows (hb : b ≠ []) (hcap : db.NoCaptures)
    {row : ChangeRow} :
    row ∈ db.filterRows 6 [.integer c, .blob b] ↔
      ∃ t ∈ db.tables, ∃ e ∈ t.clock,
        (e.siteId ≠ some b ∧ c < e.dbVersion) ∧ changeRow t.info e = row := by
  have hsite : requestorSiteId (.blob b) = siteIdValue (some b) := by
    simp [requestorSiteId, siteIdValue, hb, Sqlite.valueBlob_blob]
  have hrows : db.filterRows 6 [.integer c, .blob b] =
      db.changesUnionQuery false (siteIdValue (some b)) c := by
    rw [filterRows_eq, ← hsite]
    simp [Sqlite.valueInt64_integer]
  rw [hrows, mem_changesUnionQuery]
  refine exists_congr fun t => and_congr_right fun ht => exists_congr fun e =>
    and_congr_right fun _ => and_congr_left fun _ => ?_
  rw [passes_iff_of_noCapture (hcap t ht)]
  simp

/-- The rows of a pull lie above the cursor and are stored at the replica. -/
theorem pull_rows_bounds (hb : b ≠ []) (hcap : db.NoCaptures) {row : ChangeRow}
    (hrow : row ∈ db.filterRows 6 [.integer c, .blob b]) :
    c < row.dbVrsn ∧ row.dbVrsn ≤ db.maxDbVersion := by
  obtain ⟨t, ht, e, he, ⟨-, hlt⟩, rfl⟩ := (mem_pull_rows hb hcap).mp hrow
  exact ⟨hlt, le_maxDbVersion ht he⟩

/-- The rows of a pull come in the order of their db versions. -/
theorem pairwise_pull_rows (db : Db) (c : Int) (b : Blob) :
    (db.filterRows 6 [.integer c, .blob b]).Pairwise fun x y => x.dbVrsn ≤ y.dbVrsn := by
  rw [filterRows_eq]
  exact pairwise_changesUnionQuery db _ _ _

/-- A pull without an error reports all its rows. -/
theorem pull_eq (h : (db.pull c b).2 = none) :
    (db.pull c b).1 = (db.filterRows 6 [.integer c, .blob b]).map db.report := by
  rw [pull_eq_changesFilter, Db.changesFilter] at h ⊢
  rw [scan_eq (scan_ok_iff.mp h)]

/-- A row of a pull comes from an entry above the cursor that is not the
reader's. -/
theorem mem_pull (hb : b ≠ []) (hcap : db.NoCaptures) (hok : (db.pull c b).2 = none)
    {ch : Change} (hch : ch ∈ (db.pull c b).1) :
    ∃ t ∈ db.tables, ∃ e ∈ t.clock, e.siteId ≠ some b ∧ c < e.dbVersion ∧
      ch.dbVersion = e.dbVersion ∧ ch.siteId = e.siteId.getD db.siteId := by
  rw [pull_eq hok] at hch
  obtain ⟨row, hrow, rfl⟩ := List.mem_map.mp hch
  obtain ⟨t, ht, e, he, ⟨hsite, hlt⟩, rfl⟩ := (mem_pull_rows hb hcap).mp hrow
  exact ⟨t, ht, e, he, hsite, hlt, rfl, rfl⟩

/-- The versions of a pull lie above the cursor and are stored at the replica. -/
theorem pull_bounds (hb : b ≠ []) (hcap : db.NoCaptures) (hok : (db.pull c b).2 = none)
    {ch : Change} (hch : ch ∈ (db.pull c b).1) :
    c < ch.dbVersion ∧ ch.dbVersion ≤ db.maxDbVersion := by
  rw [pull_eq hok] at hch
  obtain ⟨row, hrow, rfl⟩ := List.mem_map.mp hch
  exact pull_rows_bounds hb hcap hrow

end Pull

/-- What is reported of an entry stays as it is, if it is among what was handed over and
the entry itself stays. -/
def FormsKept {α : Type*} (form : Db → TableInfo × ClockEntry → α) (db db' : Db)
    (handed : List α) : Prop :=
  ∀ t ∈ db.tables, ∀ e ∈ t.clock, form db (t.info, e) ∈ handed →
    ∀ u ∈ db'.tables, u.info = t.info → e ∈ u.clock → form db' (t.info, e) = form db (t.info, e)

instance {α : Type*} [DecidableEq α] (form : Db → TableInfo × ClockEntry → α) (db db' : Db)
    (handed : List α) : Decidable (FormsKept form db db' handed) :=
  inferInstanceAs (Decidable (∀ t ∈ db.tables, ∀ e ∈ t.clock, _ → ∀ u ∈ db'.tables, _ → _ → _))

/-- Fewer forms were handed over. -/
theorem FormsKept.mono {α : Type*} {form : Db → TableInfo × ClockEntry → α} {db db' : Db}
    {handed handed' : List α} (h : FormsKept form db db' handed) (hsub : handed' ⊆ handed) :
    FormsKept form db db' handed' :=
  fun t ht e he hform => h t ht e he (hsub hform)

/-- Where nothing happens every form is kept. -/
theorem FormsKept.refl {α : Type*} (form : Db → TableInfo × ClockEntry → α) (db : Db)
    (handed : List α) : FormsKept form db db handed :=
  fun _ _ _ _ _ _ _ _ _ => rfl

/-- What the replica reports for an entry. -/
def Db.entryReport [Sqlite] (db : Db) (x : TableInfo × ClockEntry) : Change :=
  db.report (changeRow x.1 x.2)

/-- The entries whose change, as it is reported now, is among the given ones. -/
def Db.reportedIn [Sqlite] (db : Db) (changes : List Change) : Set (TableInfo × ClockEntry) :=
  { x | db.entryReport x ∈ changes }

/-! ## What was handed over -/

section Forms

variable [Sqlite] [Affinity]

/-- No base row of the table has the key of the entry, as the key columns store it. -/
def RowGone (db : Db) (info : TableInfo) (e : ClockEntry) : Prop :=
  ∀ t ∈ db.tables, t.info = info → ¬ HasRow t.rows (canonKey (storeKey info e.key))

/-- What SQLite guarantees of a key in a clock table. -/
structure KeyStored (info : TableInfo) (key : Key) : Prop where
  length : key.length = info.pks.length
  storable : ∀ v ∈ key, Storable v

/-- No comparison finds a NULL, and a text is printed up to its first NUL byte. -/
def Hidden (key : Key) : Prop :=
  .null ∈ key ∨ ∃ s, .text s ∈ key ∧ nul ∈ s

/-- A row that was read from the given state and is the current form of a clock
entry: the entry's own columns, and its column name unless the base row was gone.  A key
with a NULL or a NUL byte may hide the base row. -/
structure CurrentForm (db : Db) (info : TableInfo) (e : ClockEntry) (ch : Change) : Prop where
  tbl : ch.tbl = info.tblName
  pk : ch.pk = quoteConcat e.key
  colVersion : ch.colVersion = e.colVersion
  dbVersion : ch.dbVersion = e.dbVersion
  siteId : ch.siteId = e.siteId.getD db.siteId
  cid : ch.cid = e.colName ∨ (ch.cid = delSentinel ∧
    (KeyStored info e.key → RowGone db info e ∨ Hidden e.key))

omit [Sqlite] in
/-- A key without NULLs is stored without. -/
theorem null_notMem_storeKey (info : TableInfo) {key : Key} (h : SqlValue.null ∉ key) :
    SqlValue.null ∉ storeKey info key := by
  intro hnull
  obtain ⟨i, hi, hget⟩ := List.mem_iff_getElem.mp hnull
  have hlt : i < key.length := by
    have hmin := hi
    rw [storeKey, List.length_zipWith, lt_min_iff] at hmin
    exact hmin.2
  simp only [storeKey, List.getElem_zipWith] at hget
  exact h (Affinity.null_of_store _ _ hget ▸ List.getElem_mem hlt)

/-- A lookup that finds no row says that there is none, unless the key is hidden. -/
theorem rowGone_of_changesNextSql {db : Db} (hplain : db.PlainNames)
    (hnames : (db.tables.map fun t => t.info.tblName).Nodup) {t : CrrTable}
    (ht : t ∈ db.tables) {e : ClockEntry} (hdel : e.colName ≠ delSentinel)
    (hnext : db.changesNextSql (changeRow t.info e) = .ok none) (hkey : KeyStored t.info e.key)
    (hshown : ¬ Hidden e.key) : RowGone db t.info e := by
  obtain ⟨hnull, hnul⟩ := not_or.mp hshown
  have hquery : rowPatchDataQuery t.info e.colName (quoteConcat e.key) =
      (extractWhereList t.info.pks (quoteConcat e.key)).map fun wheres =>
        some ⟨e.colName, wheres⟩ := by
    rw [rowPatchDataQuery, if_neg hdel]
  have hfind := findTable_of_mem hnames ht
  simp only [Db.changesNextSql, changeRow, hfind, hquery] at hnext
  cases hw : extractWhereList t.info.pks (quoteConcat e.key) with
  | none =>
      rw [hw] at hnext
      cases hnext
  | some wheres =>
      rw [hw, Option.map_some] at hnext
      simp only [(hplain t ht).whereNames hw] at hnext
      -- the scan goes on, so that the key is read back, and it is finite
      cases hread : readLiterals (whereTexts wheres) with
      | none =>
          rw [hread] at hnext
          cases hnext
      | some vals =>
          have hfin : ∀ n, SqlValue.inf n ∉ e.key := by
            intro n hn
            have hnone := readLiterals_inf hkey.length hkey.storable hn
            rw [hw, Option.bind_some, hread] at hnone
            cases hnone
          have hquot : ∀ v ∈ e.key, Quotable v := fun v hv =>
            quotable_iff.mpr ⟨hkey.storable v hv, fun n h => hfin n (h ▸ hv),
              fun s h hs => hnul ⟨s, h ▸ hv, hs⟩⟩
          have htexts := whereTexts_quoteConcat hkey.length fun v hv =>
            ⟨hkey.storable v hv, fun n h => hfin n (h ▸ hv)⟩
          rw [hw, Option.map_some, Option.some.injEq] at htexts
          rw [htexts, readLiterals_quote hquot, Option.some.injEq] at hread
          subst hread
          rw [htexts, readLiterals_quote hquot] at hnext
          simp only [Except.ok.injEq, Option.map_eq_none_iff, List.find?_eq_none] at hnext
          rintro u hu hinfo ⟨r, hr, hcanon⟩
          have hut : u = t := List.inj_on_of_nodup_map hnames hu ht (by rw [hinfo])
          subst hut
          refine hnext r hr ?_
          rw [BaseRow.meets, comparands, if_pos rfl, converted, if_pos rfl, whereTrue_iff]
          have hclass : keyClass (storeKey u.info e.key) =
              some (canonKey (storeKey u.info e.key)) :=
            keyClass_eq_some_iff.mpr ⟨null_notMem_storeKey u.info hnull, rfl⟩
          rw [hclass]
          exact ⟨by simp, (keyClass_of_canonKey hclass).mp hcanon⟩

/-- What a scan reports for an entry is its current form. -/
theorem currentForm_reportSql {db : Db} (hplain : db.PlainNames)
    (hnames : (db.tables.map fun t => t.info.tblName).Nodup) {t : CrrTable}
    (ht : t ∈ db.tables) {e : ClockEntry} {pRowStmt : Option Text}
    (hnext : db.changesNextSql (changeRow t.info e) = .ok pRowStmt) :
    CurrentForm db t.info e (db.reportSql (changeRow t.info e)) where
  tbl := rfl
  pk := rfl
  colVersion := rfl
  dbVersion := rfl
  siteId := rfl
  cid := by
    rw [Db.reportSql, hnext]
    cases pRowStmt with
    | some val => exact Or.inl rfl
    | none =>
        by_cases hdel : e.colName = delSentinel
        · exact Or.inl hdel.symm
        · refine Or.inr ⟨rfl, fun hkey => ?_⟩
          by_cases hshown : Hidden e.key
          · exact Or.inr hshown
          · exact Or.inl (rowGone_of_changesNextSql hplain hnames ht hdel hnext hkey hshown)

end Forms

/-! ## Tracking a replica -/

/-- The entries of a replica that the reader does not own. -/
def Db.foreign (b : Blob) (db : Db) : Set (TableInfo × ClockEntry) :=
  { x | ∃ t ∈ db.tables, t.info = x.1 ∧ x.2 ∈ t.clock ∧ x.2.siteId ≠ some b }

/-- The entries whose current form was handed over, each with the state it was read
from. -/
def handedEntries [Sqlite] [Affinity] (handed : List (Db × Change)) : Set (TableInfo × ClockEntry) :=
  { x | ∃ p ∈ handed, CurrentForm p.1 x.1 x.2 p.2 }

/-- A cursor into a replica is not above what the replica has stored, and the
reader has seen every entry up to it. -/
structure Tracks (b : Blob) (c : Int) (seen : Set (TableInfo × ClockEntry)) (db : Db) :
    Prop where
  le : c ≤ db.maxDbVersion
  covered : Cursor.Covered (fun x => x.2.dbVersion) (db.foreign b) seen c

section Tracks

variable {db : Db} {b : Blob} {c : Int} {seen : Set (TableInfo × ClockEntry)}

/-- The cursor 0 needs nothing to be seen. -/
theorem Tracks.zero (hdb : db.Committed) : Tracks b 0 seen db := by
  refine ⟨hdb.maxDbVersion_nonneg, ?_⟩
  rintro ⟨info, e⟩ ⟨t, ht, -, he, -⟩ hle
  have hpos := hdb.pos t ht e he
  exact absurd hle (not_le.mpr hpos)

/-- More was seen. -/
theorem Tracks.mono {seen' : Set (TableInfo × ClockEntry)} (h : Tracks b c seen db)
    (hseen : seen ⊆ seen') : Tracks b c seen' db :=
  ⟨h.le, fun x hx hle => hseen (h.covered x hx hle)⟩

/-- Statements change no declaration, so they bring no captures. -/
theorem noCaptures_of_schemas {start db : Db}
    (h : db.tables.map CrrTable.schema = start.tables.map CrrTable.schema)
    (hcap : start.NoCaptures) : db.NoCaptures := by
  intro t ht
  have hschema : t.schema ∈ start.tables.map CrrTable.schema := by
    rw [← h]
    exact List.mem_map_of_mem ht
  obtain ⟨u, hu, heq⟩ := List.mem_map.mp hschema
  rw [CrrTable.info, ← heq]
  exact hcap u hu

/-- A transaction captures no alias. -/
theorem noCaptures_transact [Sqlite] (hdb : db.Committed) (hcap : db.NoCaptures)
    (stmts : List Stmt) : (db.transact stmts).NoCaptures :=
  noCaptures_of_schemas (transact_schemas hdb stmts) hcap

/-- The commit of a transaction leaves the cursor good: what the transaction wrote lies above
everything stored before. -/
theorem Tracks.commit {db' : Db} (h : Tracks b c seen db) (hdb : db.Committed)
    (htx : InTransaction db db') : Tracks b c seen db'.commit := by
  refine ⟨?_, h.covered.write ?_⟩
  · rw [maxDbVersion_congr (commit_tables db')]
    exact h.le.trans (htx.maxDbVersion_le hdb)
  · rintro ⟨info, e⟩ ⟨t, ht, rfl, he, hsite⟩
    rw [commit_tables] at ht
    rcases htx.fresh t ht e he with ⟨u, hu, heq, heu⟩ | ⟨hlt, -⟩
    · exact Or.inl ⟨u, hu, by rw [CrrTable.info, CrrTable.info, heq], heu, hsite⟩
    · exact Or.inr (h.le.trans_lt hlt)

/-- The same for a reader that has seen the changes as they are reported now, if the
transaction changes no report of an entry that it does not write. -/
theorem Tracks.transact_reported [Sqlite] {changes : List Change}
    (h : Tracks b c (db.reportedIn changes) db) (hdb : db.Committed) (stmts : List Stmt)
    (hkept : FormsKept Db.entryReport db (db.transact stmts) changes) :
    Tracks b c ((db.transact stmts).reportedIn changes) (db.transact stmts) := by
  refine ⟨h.le.trans (maxDbVersion_le_transact hdb stmts), h.covered.rewrite ?_⟩
  rintro ⟨info, e⟩ ⟨t, ht, rfl, he, hsite⟩
  rcases transact_entries hdb stmts ht he with ⟨u, hu, heq, heu⟩ | ⟨hlt, -⟩
  · have hinfo : u.info = t.info := by rw [CrrTable.info, CrrTable.info, heq]
    refine Or.inr ⟨(u.info, e), ⟨u, hu, rfl, heu, hsite⟩, rfl, fun hseen => ?_⟩
    have hsame := hkept u hu e heu hseen t ht hinfo.symm he
    rw [← hinfo]
    exact (congrArg (· ∈ changes) hsame).mpr hseen
  · exact Or.inl (h.le.trans_lt hlt)

/-- A pull from the cursor hands over everything that was not seen. -/
theorem Tracks.foreign_subset [Sqlite] (h : Tracks b c seen db) (hb : b ≠ [])
    (hcap : db.NoCaptures) (hok : (db.pull c b).2 = none)
    {seen' : Set (TableInfo × ClockEntry)} (hkeep : seen ⊆ seen')
    (hgive : ∀ t ∈ db.tables, ∀ e ∈ t.clock, db.Readable (changeRow t.info e) →
      db.entryReport (t.info, e) ∈ (db.pull c b).1 → (t.info, e) ∈ seen') :
    db.foreign b ⊆ seen' := by
  refine h.covered.pull hkeep ?_
  rintro ⟨info, e⟩ ⟨t, ht, rfl, he, hsite⟩ hlt
  have hrow : changeRow t.info e ∈ db.filterRows 6 [.integer c, .blob b] :=
    (mem_pull_rows hb hcap).mpr ⟨t, ht, e, he, ⟨hsite, hlt⟩, rfl⟩
  have hscan : (db.scan (db.filterRows 6 [.integer c, .blob b])).2 = none := by
    rwa [pull_eq_changesFilter] at hok
  refine hgive t ht e he (scan_ok_iff.mp hscan _ hrow) ?_
  rw [pull_eq hok]
  exact List.mem_map_of_mem hrow

end Tracks

/-! ## The reader and the replica -/

/-- A replica and a reader with the rows it was handed, each with the state it was
read from. -/
structure DeltaSync where
  a : Db
  handed : List (Db × Change)

/-- What happens at the replica. -/
inductive DeltaOp where
  | transact (stmts : List Stmt)
  | pull

namespace DeltaSync

/-- A reader that begins. -/
def start (db : Db) : DeltaSync :=
  ⟨db, []⟩

/-- The largest db version the reader received so far, 0 at first. -/
def cursor (s : DeltaSync) : Int :=
  Cursor.advance 0 (s.handed.map fun p => p.2.dbVersion)

section Steps

variable [Sqlite] [Affinity] (b : Blob) (s : DeltaSync)

/-- One step; `b` is the reader's site id. -/
def step : DeltaOp → DeltaSync
  | .transact stmts => { s with a := s.a.transactSql stmts }
  | .pull => { s with handed := s.handed ++ (s.a.pullSql s.cursor b).1.map fun ch => (s.a, ch) }

/-- No version reaches the largest integer, and no scan ends with an error. -/
def Allows : DeltaOp → Prop
  | .transact stmts => (s.a.transactSql stmts).BelowMax
  | .pull => (s.a.pullSql s.cursor b).2 = none

instance (op : DeltaOp) : Decidable (s.Allows b op) :=
  match op with
  | .transact stmts => inferInstanceAs (Decidable (s.a.transactSql stmts).BelowMax)
  | .pull => inferInstanceAs (Decidable (_ = none))

@[simp]
theorem cursor_pull :
    (s.step b .pull).cursor =
      Cursor.advance s.cursor ((s.a.pullSql s.cursor b).1.map Change.dbVersion) := by
  simp [cursor, step, Cursor.advance_append, Function.comp_def]

end Steps

end DeltaSync

/-! ## The reader stays covered -/

/-- What holds between two steps: the reader tracks the replica with its cursor. -/
structure Following [Sqlite] [Affinity] (b : Blob) (s : DeltaSync) : Prop where
  committed : s.a.Committed
  plain : s.a.PlainNames
  noCapture : s.a.NoCaptures
  tracks : Tracks b s.cursor (handedEntries s.handed) s.a

section Steps

variable [Sqlite] [Affinity] {b : Blob} {s : DeltaSync}

/-- The two replicas have not met. -/
theorem following_start {db : Db} (hdb : db.Committed) (hplain : db.PlainNames)
    (hcap : db.NoCaptures) : Following b (.start db) :=
  ⟨hdb, hplain, hcap, .zero hdb⟩

/-- A pull without an error reports all its rows. -/
theorem Following.pull_eq (h : Following b s) (hok : s.Allows b .pull) :
    (s.a.pullSql s.cursor b).1 =
        (s.a.filterRows 6 [.integer s.cursor, .blob b]).map s.a.reportSql ∧
      ∀ row ∈ s.a.filterRows 6 [.integer s.cursor, .blob b],
        ∃ pRowStmt, s.a.changesNextSql row = .ok pRowStmt := by
  have hscan : s.a.pullSql s.cursor b =
      s.a.scanSql (s.a.filterRows 6 [.integer s.cursor, .blob b]) := by
    rw [Db.pullSql, runPlan, queryPlan_deltaConstraints]
    dsimp only
    rw [Db.changesFilterSql, filterRowsSql_eq h.plain]
  rw [hscan]
  exact scanSql_of_ok (hscan ▸ hok)

/-- The rows of a pull come in the order of their db versions. -/
theorem Following.pairwise_pull (h : Following b s) (hok : s.Allows b .pull) :
    (s.a.pullSql s.cursor b).1.Pairwise fun x y => x.dbVersion ≤ y.dbVersion := by
  rw [(h.pull_eq hok).1, List.pairwise_map]
  exact pairwise_pull_rows s.a s.cursor b

/-- The versions of a pull lie above the cursor and are stored at the replica. -/
theorem Following.pull_bounds (h : Following b s) (hb : b ≠ []) (hok : s.Allows b .pull)
    {ch : Change} (hch : ch ∈ (s.a.pullSql s.cursor b).1) :
    s.cursor < ch.dbVersion ∧ ch.dbVersion ≤ s.a.maxDbVersion := by
  rw [(h.pull_eq hok).1] at hch
  obtain ⟨row, hrow, rfl⟩ := List.mem_map.mp hch
  exact pull_rows_bounds hb h.noCapture hrow

/-- After a pull the reader has every entry that is not its own. -/
theorem Following.foreign_subset (h : Following b s) (hb : b ≠ [])
    (hok : s.Allows b .pull) :
    s.a.foreign b ⊆ handedEntries (s.step b .pull).handed := by
  obtain ⟨heq, hread⟩ := h.pull_eq hok
  refine h.tracks.covered.pull ?_ ?_
  · rintro x ⟨p, hp, hform⟩
    exact ⟨p, List.mem_append_left _ hp, hform⟩
  · rintro ⟨_, e⟩ ⟨t, ht, rfl, he, hsite⟩ hlt
    have hrow : changeRow t.info e ∈ s.a.filterRows 6 [.integer s.cursor, .blob b] :=
      (mem_pull_rows hb h.noCapture).mpr ⟨t, ht, e, he, ⟨hsite, hlt⟩, rfl⟩
    obtain ⟨pRowStmt, hnext⟩ := hread _ hrow
    refine ⟨(s.a, s.a.reportSql (changeRow t.info e)), List.mem_append_right _ ?_,
      currentForm_reportSql h.plain h.committed.names ht hnext⟩
    rw [heq]
    exact List.mem_map_of_mem (List.mem_map_of_mem hrow)

/-- A pull hands over all that is behind the cursor. -/
private theorem Following.pull (h : Following b s) (hb : b ≠ []) (hok : s.Allows b .pull) :
    Following b (s.step b .pull) := by
  refine ⟨h.committed, h.plain, h.noCapture, ?_, .of_subset (h.foreign_subset hb hok) _⟩
  rw [DeltaSync.cursor_pull]
  refine Cursor.advance_le h.tracks.le fun x hx => ?_
  obtain ⟨ch, hch, rfl⟩ := List.mem_map.mp hx
  exact (h.pull_bounds hb hok hch).2

/-- A transaction, whatever its statements hit, keeps the reader covered. -/
private theorem Following.transact (h : Following b s) {stmts : List Stmt}
    (hok : s.Allows b (.transact stmts)) : Following b (s.step b (.transact stmts)) := by
  have htx : InTransaction s.a (stmts.foldl Db.execSql s.a) :=
    inTransaction_foldl_execSql h.committed (.refl h.committed) stmts
  have hschemas : (s.a.transactSql stmts).tables.map CrrTable.schema =
      s.a.tables.map CrrTable.schema := by
    rw [Db.transactSql, commit_tables]
    exact htx.schemas
  exact ⟨htx.committed_commit h.committed hok, h.plain.of_schemas hschemas,
    noCaptures_of_schemas hschemas h.noCapture, h.tracks.commit h.committed htx⟩

/-- Transactions and pulls keep the reader covered. -/
theorem following_step (hb : b ≠ []) (op : DeltaOp) (h : Following b s)
    (hok : s.Allows b op) : Following b (s.step b op) := by
  cases op with
  | transact stmts => exact h.transact hok
  | pull => exact h.pull hb hok

/-- The last row of a pull is the next cursor. -/
theorem Following.cursor_eq_last (h : Following b s) (hb : b ≠ []) (hok : s.Allows b .pull)
    {last : Change} (hlast : (s.a.pullSql s.cursor b).1.getLast? = some last) :
    (s.step b .pull).cursor = last.dbVersion := by
  have hne : (s.a.pullSql s.cursor b).1.map Change.dbVersion ≠ [] := by
    intro hnil
    rw [List.map_eq_nil_iff.mp hnil] at hlast
    simp at hlast
  rw [DeltaSync.cursor_pull, Cursor.advance_eq_getLast hne, List.getLast_map]
  · obtain ⟨hne', heq⟩ := List.mem_getLast?_eq_getLast hlast
    rw [heq]
  · intro x hx
    obtain ⟨ch, hch, rfl⟩ := List.mem_map.mp hx
    exact (h.pull_bounds hb hok hch).1.le
  · exact List.pairwise_map.mpr (h.pairwise_pull hok)

end Steps

/-- In every run, after each pull: the reader was handed every clock entry that is
not its own in the entry's current form, the rows came in the order of their db
versions, and the last one's is the next cursor. -/
theorem deltaSync_misses_nothing [Sqlite] [Affinity] {b : Blob} (hb : b ≠ []) {db : Db}
    (hdb : db.Committed) (hplain : db.PlainNames) (hcap : db.NoCaptures) {ops : List DeltaOp}
    (hops : Run.Allowed (DeltaSync.step b) (DeltaSync.Allows b) (.start db)
      (ops ++ [.pull])) :
    let s := Run.exec (DeltaSync.step b) (.start db) ops
    let s' := s.step b .pull
    (∀ t ∈ s.a.tables, ∀ e ∈ t.clock, e.siteId ≠ some b →
      ∃ p ∈ s'.handed, CurrentForm p.1 t.info e p.2) ∧
    (s.a.pullSql s.cursor b).1.Pairwise (fun x y => x.dbVersion ≤ y.dbVersion) ∧
    ∀ last, (s.a.pullSql s.cursor b).1.getLast? = some last → s'.cursor = last.dbVersion := by
  intro s s'
  obtain ⟨hrun, hpull, -⟩ := Run.allowed_append.mp hops
  have h : Following b s := Run.invariant (Following b)
    (fun _ op h hok => following_step hb op h hok) (following_start hdb hplain hcap) hrun
  refine ⟨?_, h.pairwise_pull hpull, fun last hlast => h.cursor_eq_last hb hpull hlast⟩
  intro t ht e he hsite
  have hmem : (t.info, e) ∈ s.a.foreign b := ⟨t, ht, rfl, he, hsite⟩
  exact h.foreign_subset hb hpull hmem

/-- The site id of the replica in the examples. -/
def siteA : Blob := List.replicate siteIdLen 0xA1

/-- The site id of the reader in the examples. -/
def siteB : Blob := List.replicate siteIdLen 0xB2

/-- The run theorem applies to a run with two pulls, a merge of a change with a high
version, and an entry that the reader wrote. -/
theorem deltaSync_misses_nothing_foo :
    let foo : Text := ['f', 'o', 'o']
    let far : Change := ⟨foo, ['1'], ['b'], some ['9'], 7, 40, List.replicate siteIdLen 0xC3⟩
    let own : Change := ⟨foo, ['2'], ['b'], some ['9'], 7, 3, siteB⟩
    let ops := [.transact [.write foo (.insert (fooRow 1 2))], .pull,
      .transact [.merge far, .merge own]]
    let s := Run.exec (@DeltaSync.step integralSqlite noAffinity siteB) (.start (fooDb siteA)) ops
    let s' := @DeltaSync.step integralSqlite noAffinity siteB s .pull
    (∀ t ∈ s.a.tables, ∀ e ∈ t.clock, e.siteId ≠ some siteB →
      ∃ p ∈ s'.handed, @CurrentForm integralSqlite noAffinity p.1 t.info e p.2) ∧
    (@Db.pullSql integralSqlite noAffinity s.a s.cursor siteB).1.Pairwise
      (fun x y => x.dbVersion ≤ y.dbVersion) ∧
    ∀ last, (@Db.pullSql integralSqlite noAffinity s.a s.cursor siteB).1.getLast? = some last →
      s'.cursor = last.dbVersion := by
  intro foo far own ops
  refine @deltaSync_misses_nothing integralSqlite noAffinity siteB (by decide) (fooDb siteA) ?_
    (by decide) ?_ ops ?_
  · exact ⟨rfl, by decide, by decide, by decide, by decide⟩
  · intro t ht c hc
    rw [List.mem_singleton.mp ht] at hc
    rw [List.mem_singleton.mp hc]
    decide
  · decide

/-- The entry of a column whose row is deleted before the first pull is never
handed over under its own name. -/
theorem deltaSync_hides_deleted_columns :
    let foo : Text := ['f', 'o', 'o']
    let ops := [.transact [.write foo (.insert (fooRow 1 2))],
      .transact [.write foo (.delete 0)]]
    let s := Run.exec (@DeltaSync.step integralSqlite noAffinity siteB) (.start (fooDb siteA)) ops
    let s' := @DeltaSync.step integralSqlite noAffinity siteB s .pull
    Run.Allowed (@DeltaSync.step integralSqlite noAffinity siteB)
      (@DeltaSync.Allows integralSqlite noAffinity siteB) (.start (fooDb siteA)) (ops ++ [.pull]) ∧
    ¬ ∀ t ∈ s.a.tables, ∀ e ∈ t.clock, e.siteId ≠ some siteB →
      ∃ p ∈ s'.handed, p.2.tbl = t.info.tblName ∧ p.2.cid = e.colName ∧
        p.2.colVersion = e.colVersion ∧ p.2.dbVersion = e.dbVersion := by
  decide

end CrSqlite
