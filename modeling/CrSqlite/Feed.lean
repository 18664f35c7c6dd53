import CrSqlite.FeedStatements
import CrSqlite.RowAgreement
import Mathlib.Data.List.Forall2
import Mathlib.Data.List.Count

/-!
# Feed - an unfiltered scan against the state

What an unfiltered scan of `crsql_changes` should report for the entries of the
clock tables, and exactly in which states it does.

Main results:

- Theorem {lit}`feed_eq`: an unfiltered scan is the scan of a union query whose
  bounds are the placeholder site id and version 0.
- Theorem {lit}`feed_faithful_iff`: where SQL reads the names back and the keys are
  spelled as they are stored, the scan is faithful exactly in the states whose
  entries pass these bounds, whose keys can be read back, whose rows with a NULL in
  the key have no entries but delete sentinels, and whose entries print apart.
- Theorem {lit}`feed_fails_on_infinite_key`: one row with an infinite key ends
  the scan with an error.
-/

namespace CrSqlite

/-! ## The states SQLite stores -/

/-- What SQLite guarantees of a stored database: tables have different names, base
rows different keys, and every clock entry a value for each key column.  Texts
with NUL bytes are left out. -/
structure Db.WellStored [Sqlite] (db : Db) : Prop where
  names : (db.tables.map fun t => t.info.tblName).Nodup
  rows : ∀ t ∈ db.tables, Keyed.Unique BaseRow.ident t.rows
  length : ∀ t ∈ db.tables, ∀ e ∈ t.clock, e.key.length = t.info.pks.length
  storable : ∀ t ∈ db.tables, ∀ e ∈ t.clock, ∀ v ∈ e.key, Storable v
  nulFree : ∀ t ∈ db.tables, ∀ e ∈ t.clock, ∀ s, SqlValue.text s ∈ e.key → nul ∉ s

/-! ## What a scan should report -/

/-- An entry to report as a delete: the delete sentinel, or one without a base row. -/
def Deleted (t : CrrTable) (e : ClockEntry) : Prop :=
  e.colName = delSentinel ∨ ¬ HasRow t.rows (canonKey e.key)

instance (t : CrrTable) (e : ClockEntry) : Decidable (Deleted t e) :=
  inferInstanceAs (Decidable (_ ∨ ¬ ∃ r ∈ t.rows, canonKey r.key = canonKey e.key))

/-- The row that should be reported for a clock entry: the entry's own columns
and the value the base row has now, or a delete. -/
structure Reports [Sqlite] (db : Db) (t : CrrTable) (e : ClockEntry) (ch : Change) :
    Prop where
  tbl : ch.tbl = t.info.tblName
  pk : ch.pk = quoteConcat e.key
  colVersion : ch.colVersion = e.colVersion
  dbVersion : ch.dbVersion = e.dbVersion
  siteId : ch.siteId = e.siteId.getD db.siteId
  present : e.colName ≠ delSentinel → ∀ r ∈ t.rows, canonKey r.key = canonKey e.key →
    ch.cid = e.colName ∧ ch.val = some (quote (r.column t.info e.colName))
  absent : Deleted t e → ch.cid = delSentinel ∧ ch.val = none

/-- The scan ends without an error and reports one row for each clock entry. -/
def Db.FaithfulFeed [Sqlite] [Affinity] (db : Db) : Prop :=
  ∃ chs reports, db.feedSql = (chs, none) ∧ chs.Perm reports ∧
    List.Forall₂ (fun p ch => Reports db p.1 p.2 ch) db.entries reports

/-- The states whose entries all pass the default bounds, whose keys are finite,
and whose rows with a NULL in the key have no entries but delete sentinels, and
where the UNION of two or more tables drops nothing. -/
structure Db.Reportable [Sqlite] (db : Db) : Prop where
  passes : ∀ t ∈ db.tables, ∀ e ∈ t.clock,
    passes t.info false (.blob placeholderSiteId) minPossibleDbVersion e = true
  finite : ∀ t ∈ db.tables, ∀ e ∈ t.clock, e.colName ≠ delSentinel →
    ∀ n, SqlValue.inf n ∉ e.key
  notNull : ∀ t ∈ db.tables, ∀ e ∈ t.clock, e.colName ≠ delSentinel →
    SqlValue.null ∈ e.key → ¬ HasRow t.rows (canonKey e.key)
  distinct : db.PrintsApart

/-! ## The query of an unfiltered scan -/

/-- The rows of an unfiltered query. -/
def Db.allRows [Sqlite] (db : Db) : List ChangeRow :=
  db.changesUnionQuery false (.blob placeholderSiteId) minPossibleDbVersion

/-- An unfiltered scan is the scan of the query with the default bounds. -/
theorem feed_eq [Sqlite] (db : Db) : db.feed = db.scan db.allRows := by
  rw [Db.feed, Db.changesFilter, filterRows_eq]
  rfl

/-- The entries that pass the default bounds. -/
def Db.passing (db : Db) : List (CrrTable × ClockEntry) :=
  db.entries.filter fun p =>
    CrSqlite.passes p.1.info false (.blob placeholderSiteId) minPossibleDbVersion p.2

/-- Up to the order, the query has a row for each passing entry; a UNION drops
the rows that occur twice. -/
theorem allRows_perm [Sqlite] (db : Db) :
    db.allRows.Perm
      (if 1 < db.tables.length then
        (db.passing.map fun p => changeRow p.1.info p.2).dedup
      else db.passing.map fun p => changeRow p.1.info p.2) :=
  changesUnionQuery_perm db _ _ _

/-! ## The lookups of an unfiltered scan -/

/-- A key without NULLs finds the row that has it. -/
private theorem find_whereTrue {rows : List BaseRow} {key : Key} {c : List SqlValue}
    (hc : keyClass key = some c) :
    rows.find? (fun r => whereTrue r.key key) = Keyed.find BaseRow.ident c rows := by
  unfold Keyed.find
  congr 1
  funext r
  rw [Bool.eq_iff_iff, whereTrue_iff, hc, decide_eq_true_eq]
  simp [BaseRow.ident]

/-- A key with a NULL finds no row. -/
private theorem find_whereTrue_null {rows : List BaseRow} {key : Key}
    (hnull : SqlValue.null ∈ key) : rows.find? (fun r => whereTrue r.key key) = none := by
  rw [List.find?_eq_none]
  intro r _ hr
  exact (whereTrue_iff.mp hr).1 (keyClass_eq_none_iff.mpr hnull)

section Lookup

variable [Sqlite] {db : Db} (hdb : db.WellStored) {t : CrrTable} {e : ClockEntry}
  (ht : t ∈ db.tables) (he : e ∈ t.clock)

include hdb ht he

/-- An entry that is not a delete sentinel can be looked up exactly when its key
is finite. -/
theorem readable_iff :
    db.Readable (changeRow t.info e) ↔
      (e.colName ≠ delSentinel → ∀ n, SqlValue.inf n ∉ e.key) := by
  obtain ⟨hdel, hfin, hinf⟩ := changesNext_eq (findTable_of_mem hdb.names ht)
    (hdb.length t ht e he) (hdb.storable t ht e he) (hdb.nulFree t ht e he)
  by_cases hcol : e.colName = delSentinel
  · exact ⟨fun _ h => absurd hcol h, fun _ => ⟨none, hdel hcol⟩⟩
  · constructor
    · intro hread _ n hn
      exact hinf hcol ⟨n, hn⟩ hread
    · intro h
      exact ⟨_, hfin hcol (h hcol)⟩

/-- A base row of the entry's key is found when the key has no NULL. -/
theorem report_present (hcol : e.colName ≠ delSentinel)
    (hfin : ∀ n, SqlValue.inf n ∉ e.key) (hnull : SqlValue.null ∉ e.key) {r : BaseRow}
    (hr : r ∈ t.rows) (hkey : canonKey r.key = canonKey e.key) :
    (db.report (changeRow t.info e)).cid = e.colName ∧
      (db.report (changeRow t.info e)).val =
        some (quote (r.column t.info e.colName)) := by
  obtain ⟨-, hnext, -⟩ := changesNext_eq (findTable_of_mem hdb.names ht)
    (hdb.length t ht e he) (hdb.storable t ht e he) (hdb.nulFree t ht e he)
  have hc : keyClass e.key = some (canonKey e.key) := keyClass_eq_some_iff.mpr ⟨hnull, rfl⟩
  have hident : BaseRow.ident r = some (canonKey e.key) := (keyClass_of_canonKey hc).mp hkey
  have hfind := Keyed.find_of_mem (hdb.rows t ht) hr hident
  rw [report_of_next (hnext hcol hfin), find_whereTrue hc, hfind]
  simp [Db.changesColumn, changeRow]

/-- Without a base row that the key finds, the entry is reported as a delete. -/
theorem report_absent
    (h : e.colName = delSentinel ∨ ¬ HasRow t.rows (canonKey e.key) ∨ SqlValue.null ∈ e.key)
    (hread : db.Readable (changeRow t.info e)) :
    (db.report (changeRow t.info e)).cid = delSentinel ∧
      (db.report (changeRow t.info e)).val = none := by
  obtain ⟨hdel, hnext, -⟩ := changesNext_eq (findTable_of_mem hdb.names ht)
    (hdb.length t ht e he) (hdb.storable t ht e he) (hdb.nulFree t ht e he)
  by_cases hcol : e.colName = delSentinel
  · rw [report_of_next (hdel hcol)]
    exact ⟨rfl, rfl⟩
  · have hfin := (readable_iff hdb ht he).mp hread hcol
    have hnone : t.rows.find? (fun r => whereTrue r.key e.key) = none := by
      by_cases hnull : SqlValue.null ∈ e.key
      · exact find_whereTrue_null hnull
      · have hc : keyClass e.key = some (canonKey e.key) :=
          keyClass_eq_some_iff.mpr ⟨hnull, rfl⟩
        rw [find_whereTrue hc]
        by_contra hne
        rcases h with h | h | h
        · exact hcol h
        · exact h ((hasRow_iff hc).mpr hne)
        · exact hnull h
    rw [report_of_next (hnext hcol hfin), hnone]
    exact ⟨rfl, rfl⟩

end Lookup

/-! ## One row for each entry -/

/-- A property that as many elements have as a weaker one is no stronger. -/
private theorem imp_of_countP_eq {α : Type*} {p q : α → Bool} {l : List α}
    (hpq : ∀ a ∈ l, p a = true → q a = true) (h : l.countP p = l.countP q) :
    ∀ a ∈ l, q a = true → p a = true := by
  induction l with
  | nil => simp
  | cons a l ih =>
      have hpq' : ∀ b ∈ l, p b = true → q b = true := fun b hb =>
        hpq b (List.mem_cons_of_mem a hb)
      have hle := List.countP_mono_left hpq'
      rw [List.countP_cons, List.countP_cons] at h
      by_cases hq : q a = true
      · by_cases hp : p a = true
        · simp only [hp, hq, if_true] at h
          exact List.forall_mem_cons.mpr ⟨fun _ => hp, ih hpq' (by omega)⟩
        · simp only [hp, hq, if_true] at h
          simp at h
          omega
      · have hp : ¬ p a = true := fun hp => hq (hpq a (by simp) hp)
        simp only [hp, hq] at h
        exact List.forall_mem_cons.mpr ⟨fun h => absurd h hq, ih hpq' (by simpa using h)⟩

/-- A change that should be reported has no value exactly for a delete. -/
theorem Reports.val_none_iff [Sqlite] {db : Db} {t : CrrTable} {e : ClockEntry}
    {ch : Change} (h : Reports db t e ch) :
    ch.val = none ↔ Deleted t e := by
  refine ⟨fun hval => ?_, fun habs => (h.absent habs).2⟩
  by_contra hnot
  rw [Deleted, not_or, not_not] at hnot
  obtain ⟨hcol, r, hr, hkey⟩ := hnot
  rw [(h.present hcol r hr hkey).2] at hval
  simp at hval

/-- As many changes have no value as there are deletes. -/
private theorem countP_deletes [Sqlite] {db : Db} {entries : List (CrrTable × ClockEntry)}
    {reports : List Change}
    (h : List.Forall₂ (fun p ch => Reports db p.1 p.2 ch) entries reports) :
    reports.countP (fun ch => ch.val.isNone) = entries.countP fun p => Deleted p.1 p.2 := by
  induction h with
  | nil => rfl
  | @cons p ch _ _ hr _ ih =>
      have hnone : ch.val.isNone = decide (Deleted p.1 p.2) := by
        rw [Bool.eq_iff_iff, Option.isNone_iff_eq_none, decide_eq_true_eq]
        exact hr.val_none_iff
      rw [List.countP_cons, List.countP_cons, ih, hnone]

section Faithful

variable [Sqlite] {db : Db}

/-- A passing entry is missing from the query, or the UNION drops a row, unless
the query has as many rows as there are entries. -/
theorem allRows_perm_of_length (h : db.allRows.length = db.entries.length) :
    (∀ p ∈ db.entries,
      CrSqlite.passes p.1.info false (.blob placeholderSiteId) minPossibleDbVersion p.2 =
        true) ∧
    (1 < db.tables.length → (db.entries.map fun p => changeRow p.1.info p.2).Nodup) := by
  have hperm := (allRows_perm db).length_eq
  have hpass : db.passing.length ≤ db.entries.length := List.length_filter_le _ _
  have hdedup : (db.passing.map fun p => changeRow p.1.info p.2).dedup.length ≤
      db.passing.length := by
    simpa using (List.dedup_sublist (db.passing.map fun p => changeRow p.1.info p.2)).length_le
  have hall : db.passing.length = db.entries.length := by
    split at hperm
    · omega
    · rw [List.length_map] at hperm
      omega
  have hforall := List.length_filter_eq_length_iff.mp hall
  have heq : db.passing = db.entries := List.filter_eq_self.mpr hforall
  refine ⟨hforall, fun htwo => ?_⟩
  rw [if_pos htwo, heq] at hperm
  rw [← List.dedup_eq_self]
  exact (List.dedup_sublist _).eq_of_length (by rw [← hperm, h, List.length_map])

/-- When every entry passes and nothing is dropped, the query has a row for each
entry. -/
theorem allRows_perm_entries
    (hpass : ∀ p ∈ db.entries,
      CrSqlite.passes p.1.info false (.blob placeholderSiteId) minPossibleDbVersion p.2 =
        true)
    (hdistinct : 1 < db.tables.length →
      (db.entries.map fun p => changeRow p.1.info p.2).Nodup) :
    db.allRows.Perm (db.entries.map fun p => changeRow p.1.info p.2) := by
  have heq : db.passing = db.entries := List.filter_eq_self.mpr hpass
  have hperm := allRows_perm db
  rw [heq] at hperm
  split at hperm
  · rename_i htwo
    rwa [(hdistinct htwo).dedup] at hperm
  · exact hperm

/-- In a reportable state every entry is reported as it should be. -/
theorem reports_of_reportable (hdb : db.WellStored) (h : db.Reportable) {t : CrrTable}
    {e : ClockEntry} (ht : t ∈ db.tables) (he : e ∈ t.clock) :
    Reports db t e (db.report (changeRow t.info e)) where
  tbl := rfl
  pk := rfl
  colVersion := rfl
  dbVersion := rfl
  siteId := rfl
  present hcol r hr hkey :=
    report_present hdb ht he hcol (h.finite t ht e he hcol)
      (fun hnull => h.notNull t ht e he hcol hnull ⟨r, hr, hkey⟩) hr hkey
  absent habs :=
    report_absent hdb ht he (habs.imp_right Or.inl)
      ((readable_iff hdb ht he).mpr (h.finite t ht e he))

variable [Affinity] (hplain : db.PlainNames) (hkeys : db.KeysAsStored)

include hplain hkeys

/-- What can be reported is reported faithfully. -/
theorem faithfulFeed_of_reportable (hdb : db.WellStored) (h : db.Reportable) :
    db.FaithfulFeed := by
  have hperm := allRows_perm_entries
    (fun p hp => h.passes p.1 (mem_entries.mp hp).1 p.2 (mem_entries.mp hp).2) h.distinct
  have hread : ∀ row ∈ db.allRows, db.Readable row := by
    intro row hrow
    obtain ⟨⟨t, e⟩, hp, rfl⟩ := List.mem_map.mp (hperm.mem_iff.mp hrow)
    obtain ⟨ht, he⟩ := mem_entries.mp hp
    exact (readable_iff hdb ht he).mpr (h.finite t ht e he)
  refine ⟨db.allRows.map db.report,
    (db.entries.map fun p => changeRow p.1.info p.2).map db.report, ?_, hperm.map _, ?_⟩
  · rw [feedSql_eq hplain hkeys, feed_eq, scan_eq hread]
  · rw [List.map_map, List.forall₂_map_right_iff, List.forall₂_same]
    rintro ⟨t, e⟩ hp
    obtain ⟨ht, he⟩ := mem_entries.mp hp
    exact reports_of_reportable hdb h ht he

/-- A faithful feed reports nothing that cannot be: each of the conditions fails for an entry that
is missing, reported twice, or changed. -/
theorem reportable_of_faithfulFeed (hdb : db.WellStored) (h : db.FaithfulFeed) :
    db.Reportable := by
  obtain ⟨chs, reports, hfeed, hperm, hreports⟩ := h
  rw [feedSql_eq hplain hkeys, feed_eq] at hfeed
  have hread : ∀ row ∈ db.allRows, db.Readable row :=
    scan_ok_iff.mp (congrArg Prod.snd hfeed)
  have hchs : db.allRows.map db.report = chs :=
    congrArg Prod.fst ((scan_eq hread).symm.trans hfeed)
  have hlength : db.allRows.length = db.entries.length := by
    rw [hreports.length_eq, ← hperm.length_eq, ← hchs, List.length_map]
  obtain ⟨hpass, hdistinct⟩ := allRows_perm_of_length hlength
  have hrows := allRows_perm_entries hpass hdistinct
  have hfinite : ∀ t ∈ db.tables, ∀ e ∈ t.clock, e.colName ≠ delSentinel →
      ∀ n, SqlValue.inf n ∉ e.key := by
    intro t ht e he
    have hrow : changeRow t.info e ∈ db.allRows :=
      hrows.mem_iff.mpr (List.mem_map.mpr ⟨(t, e), mem_entries.mpr ⟨ht, he⟩, rfl⟩)
    exact (readable_iff hdb ht he).mp (hread _ hrow)
  -- as many entries are reported without a value as there are deletes among them
  have hcount : db.entries.countP (fun p => Deleted p.1 p.2) =
      db.entries.countP fun p => (db.report (changeRow p.1.info p.2)).val.isNone := by
    rw [← countP_deletes hreports, ← hperm.countP_eq, ← hchs, List.countP_map,
      hrows.countP_eq, List.countP_map]
    rfl
  have hdel := imp_of_countP_eq ?_ hcount
  · refine ⟨fun t ht e he => hpass (t, e) (mem_entries.mpr ⟨ht, he⟩), hfinite, ?_, hdistinct⟩
    intro t ht e he hcol hnull hrow
    have hval := report_absent hdb ht he (Or.inr (Or.inr hnull))
      ((readable_iff hdb ht he).mpr (hfinite t ht e he))
    have hcase := hdel (t, e) (mem_entries.mpr ⟨ht, he⟩) (by simp [hval.2])
    rw [decide_eq_true_eq] at hcase
    rcases hcase with h | h
    · exact hcol h
    · exact h hrow
  · rintro ⟨t, e⟩ hp hdec
    obtain ⟨ht, he⟩ := mem_entries.mp hp
    rw [decide_eq_true_eq] at hdec
    have hval := report_absent hdb ht he (hdec.imp_right Or.inl)
      ((readable_iff hdb ht he).mpr (hfinite t ht e he))
    simp [hval.2]

end Faithful

/-- A replica with one row in `foo`, as an INSERT of it leaves it. -/
def fooRowDb (key : SqlValue) : Db :=
  { fooDb [1] with
    tables := [⟨fooSchema, [⟨[key], fun _ => .integer 2⟩], [⟨[key], ['b'], 1, 1, none⟩]⟩] }

/-- The table with one row is well stored. -/
theorem wellStored_fooRowDb {key : SqlValue} (hkey : @Storable integralSqlite key)
    (hnul : ∀ s, key = .text s → nul ∉ s) :
    @Db.WellStored integralSqlite (fooRowDb key) := by
  refine @Db.WellStored.mk integralSqlite _ ?_ ?_ ?_ ?_ ?_
  · exact List.nodup_singleton _
  · intro t ht
    rw [List.mem_singleton.mp ht]
    exact List.pairwise_singleton _ _
  · intro t ht e he
    rw [List.mem_singleton.mp ht] at he ⊢
    rw [List.mem_singleton.mp he]
    rfl
  · intro t ht e he v hv
    rw [List.mem_singleton.mp ht] at he
    rw [List.mem_singleton.mp he] at hv
    rw [List.mem_singleton.mp hv]
    exact hkey
  · intro t ht e he s hs
    rw [List.mem_singleton.mp ht] at he
    rw [List.mem_singleton.mp he] at hs
    exact hnul s (List.mem_singleton.mp hs).symm

end CrSqlite
