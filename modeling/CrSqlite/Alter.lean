import CrSqlite.ChangesRead
import CrSqlite.RowAgreement

/-!
# Alter - compacting the clock table after a schema change

Between `crsql_begin_alter` and `crsql_commit_alter` columns of a table are dropped
and added.  The commit drops the clock entries whose column name is not a column of
the table any more (crsqlite.c); the clock table itself is kept.

Main results:

- Theorem {lit}`deletedKey_mergeMany`: a key with a delete sentinel stays deleted
  under every sequence of merges.
- Theorem {lit}`alter_forgets_only_dropped_iff`: a commit forgets the dropped columns
  and nothing else exactly when the names of all sentinel entries are columns.
- Theorem {lit}`alter_forgets_deletes`: a deleted row is back after an alter and the
  merge of an old change.
-/

namespace CrSqlite

/-! ## The commit of an alter -/

/-- The result column `name` of `pragma_table_info`. -/
def TableInfo.columnNames (info : TableInfo) : List Text :=
  info.baseCols.map ColumnInfo.name

/-- `crsql_compactPostAlter`. -/
def compactPostAlter (t : CrrTable) : CrrTable :=
  { t with clock := t.clock.filter fun e => e.colName ∈ t.info.columnNames }

/-- `crsqlCommitAlterFunc` on the table as the ALTER statements left it.  The clock
table exists, so `createCrr` only renews the triggers. -/
def commitAlter (t : CrrTable) : CrrTable :=
  compactPostAlter t

/-- What ALTER statements may do: drop and add columns outside the key. -/
structure Altered (t u : CrrTable) : Prop where
  tblName : u.info.tblName = t.info.tblName
  pks : u.info.pks.map ColumnInfo.name = t.info.pks.map ColumnInfo.name
  keys : u.rows.map BaseRow.key = t.rows.map BaseRow.key
  clock : u.clock = t.clock

/-- The two sentinels that stand in the place of a column name. -/
def IsSentinel (colName : Text) : Prop :=
  colName = delSentinel ∨ colName = pkoSentinel

instance (colName : Text) : Decidable (IsSentinel colName) :=
  inferInstanceAs (Decidable (_ ∨ _))

/-! ## Deleted keys -/

/-- A key with a delete sentinel and without a base row. -/
def DeletedKey (t : CrrTable) (c : List SqlValue) : Prop :=
  t.entry c delSentinel ≠ none ∧ t.row c = none

/-- Both decoders read the key text of the change alike, as they do for every key
that `crsql_changes` prints. -/
def ReadAlike [Sqlite] (info : TableInfo) (ch : Change) : Prop :=
  ∀ parts ∈ splitQuoteConcat ch.pk info.pks.length, ∀ _key ∈ readLiterals parts,
    (extractWhereList info.pks ch.pk).map whereTexts = some parts

/-- Merges into one table, each with its next db version; one that fails is
skipped. -/
def mergeMany [Sqlite] (t : CrrTable) (merges : List (Int × Change)) : CrrTable :=
  merges.foldl (fun t m => (mergeTable m.1 m.2 t).toOption.getD t) t

/-- A key text that was printed is read alike by both decoders. -/
theorem readAlike_of_printed [Sqlite] {info : TableInfo} {ch : Change} {key : Key}
    (hlen : key.length = info.pks.length) (hkey : ∀ v ∈ key, Quotable v)
    (hpk : ch.pk = quoteConcat key) : ReadAlike info ch := by
  have hprint : ∀ v ∈ key, Storable v ∧ ∀ n, v ≠ .inf n := fun v hv =>
    ⟨(quotable_iff.mp (hkey v hv)).1, (quotable_iff.mp (hkey v hv)).2.1⟩
  have hwhere := whereTexts_quoteConcat hlen hprint
  intro parts hparts _ _
  rw [hpk, ← hlen, splitQuoteConcat_quoteConcat key hprint, Option.mem_some_iff] at hparts
  rw [hpk, hwhere, hparts]

section Deleted

variable [Sqlite] {c : List SqlValue}

/-- What holds of a deleted key between two merges. -/
private structure StaysDeleted (c : List SqlValue) (t : CrrTable) : Prop where
  unique : Keyed.Unique ClockEntry.ident t.clock
  deleted : DeletedKey t c

omit [Sqlite] in
private theorem row_eq_none_iff {t : CrrTable} :
    t.row c = none ↔ ∀ r ∈ t.rows, keyClass r.key ≠ some c :=
  Keyed.find_eq_none_iff

/-- A merge leaves a deleted key deleted: the check for local deletes stops the
changes of this key, and the others do not touch it. -/
private theorem StaysDeleted.merge {t t' : CrrTable} {next : Int} {ch : Change}
    (h : StaysDeleted c t) (hread : ReadAlike t.info ch)
    (hmerge : mergeTable next ch t = .ok t') : StaysDeleted c t' := by
  rcases mergeTable_cases hmerge with rfl | ⟨key, parts, wheres, hparts, hkey, -, hwheres, -, hcheck, hm⟩
  · exact h
  obtain ⟨col, -, hclock⟩ := hm.clock_eq
  have hne : keyClass key ≠ some c := by
    intro hc
    have htexts := hread parts hparts key hkey
    rw [hwheres, Option.map_some, Option.some.injEq] at htexts
    have hlit : readLiterals (whereTexts wheres) = some key := htexts ▸ hkey
    have hdel := (checkForLocalDelete_iff h.unique hlit hc).mpr h.deleted.1
    rw [hdel] at hcheck
    simp at hcheck
  refine ⟨hclock ▸ h.unique.put, ?_, ?_⟩
  · have hentry : t'.entry c delSentinel = t.entry c delSentinel := by
      unfold CrrTable.entry
      rw [hclock, Keyed.find_put, if_neg]
      intro hident
      exact hne (ClockEntry.ident_eq_some_iff.mp hident).1
    rw [hentry]
    exact h.deleted.1
  · rw [row_eq_none_iff]
    intro r hr
    rcases hm.row_key hr with ⟨o, ho, heq⟩ | heq
    · rw [← heq]
      exact row_eq_none_iff.mp h.deleted.2 o ho
    · rw [heq]
      exact hne

/-- A deleted key stays deleted whatever is merged. -/
theorem deletedKey_mergeMany {t : CrrTable} (hu : Keyed.Unique ClockEntry.ident t.clock)
    (hdel : DeletedKey t c) {merges : List (Int × Change)}
    (hread : ∀ m ∈ merges, ReadAlike t.info m.2) : DeletedKey (mergeMany t merges) c := by
  have hstep : StaysDeleted c (mergeMany t merges) := by
    have hstart : StaysDeleted c t := ⟨hu, hdel⟩
    clear hu hdel
    induction merges generalizing t with
    | nil => exact hstart
    | cons m merges ih =>
        obtain ⟨hm, hrest⟩ := List.forall_mem_cons.mp hread
        rw [mergeMany, List.foldl_cons]
        cases hmerge : mergeTable m.1 m.2 t with
        | error msg => exact ih hrest hstart
        | ok t' =>
            have hschema := (TableStep.merge hmerge).schema_eq
            refine ih ?_ (hstart.merge hm hmerge)
            simpa only [Except.toOption, Option.getD_some, CrrTable.info, hschema] using hrest
  exact hstep.deleted

end Deleted

/-! ## When nothing else is forgotten -/

/-- The commit of an alter forgets the columns that are no more and nothing else: the
clock table is the old one without their entries, deleted keys stay deleted whatever
is merged afterwards, and their deletes are reported as before. -/
structure ForgetsOnlyDropped [Sqlite] (t u : CrrTable) : Prop where
  clock : (commitAlter u).clock =
    t.clock.filter fun e => e.colName ∈ u.info.columnNames ∨ IsSentinel e.colName
  stays : ∀ c, DeletedKey t c → ∀ merges : List (Int × Change),
    (∀ m ∈ merges, ReadAlike u.info m.2) → DeletedKey (mergeMany (commitAlter u) merges) c
  reported : ∀ db : Db, (db.tables.map fun t => t.info.tblName).Nodup → t ∈ db.tables →
    ∀ idxNum argv, ∀ row ∈ db.filterRows idxNum argv,
      row.tbl = t.info.tblName → row.cid = delSentinel →
        row ∈ (db.setTable (commitAlter u)).filterRows idxNum argv ∧
          (db.setTable (commitAlter u)).changesNext row = .ok none

/-- Then a deleted key stays deleted under every merge of changes that `crsql_changes` printed. -/
theorem ForgetsOnlyDropped.stays_printed [Sqlite] {t u : CrrTable} (h : ForgetsOnlyDropped t u)
    {c : List SqlValue} (hdel : DeletedKey t c) {merges : List (Int × Change)}
    (hprinted : ∀ m ∈ merges, ∃ key, key.length = u.info.pks.length ∧ (∀ v ∈ key, Quotable v) ∧
      m.2.pk = quoteConcat key) : DeletedKey (mergeMany (commitAlter u) merges) c := by
  refine h.stays c hdel merges fun m hm => ?_
  obtain ⟨key, hlen, hkey, hpk⟩ := hprinted m hm
  exact readAlike_of_printed hlen hkey hpk

/-- Every sentinel that the clock table has an entry for is the name of a column. -/
def SentinelsAreColumns (t u : CrrTable) : Prop :=
  ∀ e ∈ t.clock, IsSentinel e.colName → e.colName ∈ u.info.columnNames

instance (t u : CrrTable) : Decidable (SentinelsAreColumns t u) :=
  inferInstanceAs (Decidable (∀ e ∈ t.clock, _ → _))

section Alter

variable [Sqlite] {t u : CrrTable}

omit [Sqlite] in
/-- The query tests the same columns before and after an alter. -/
private theorem passes_altered (h : Altered t u) (idxEq : Bool) (siteId : SqlValue)
    (versionBound : Int) (e : ClockEntry) :
    passes u.info idxEq siteId versionBound e = passes t.info idxEq siteId versionBound e := by
  have hkey : ∀ key name, keyColumn u.info key name = keyColumn t.info key name := by
    intro key name
    rw [keyColumn, keyColumn, h.pks]
  simp only [passes, hkey]

omit [Sqlite] in
/-- The commit drops the entries that are of no column. -/
private theorem clock_commitAlter (h : Altered t u) :
    (commitAlter u).clock = t.clock.filter fun e => e.colName ∈ u.info.columnNames := by
  rw [← h.clock]
  rfl

omit [Sqlite] in
/-- No sentinel entry is lost when the sentinels are columns. -/
private theorem mem_commitAlter (h : Altered t u) (hsent : SentinelsAreColumns t u)
    {e : ClockEntry} (he : e ∈ t.clock) (hcol : IsSentinel e.colName) :
    e ∈ (commitAlter u).clock := by
  rw [clock_commitAlter h, List.mem_filter, decide_eq_true_eq]
  exact ⟨he, hsent e he hcol⟩

omit [Sqlite] in
/-- A deleted key stays deleted when the sentinels are columns. -/
private theorem deletedKey_commitAlter (h : Altered t u) (hsent : SentinelsAreColumns t u)
    {c : List SqlValue} (hdel : DeletedKey t c) : DeletedKey (commitAlter u) c := by
  refine ⟨?_, ?_⟩
  · intro hnone
    obtain ⟨e, he⟩ := Option.ne_none_iff_exists'.mp hdel.1
    have hident := Keyed.key_of_find he
    have hcol := (ClockEntry.ident_eq_some_iff.mp hident).2
    have hmem := mem_commitAlter h hsent (Keyed.mem_of_find he) (Or.inl hcol)
    exact Keyed.find_eq_none_iff.mp hnone e hmem hident
  · refine Keyed.find_eq_none_iff.mpr fun r hr => ?_
    have hkey : r.key ∈ t.rows.map BaseRow.key := by
      rw [← h.keys]
      exact List.mem_map_of_mem hr
    obtain ⟨o, ho, heq⟩ := List.mem_map.mp hkey
    rw [BaseRow.ident, ← heq]
    exact row_eq_none_iff.mp hdel.2 o ho

/-- When the sentinels are columns the deletes are reported as before. -/
private theorem reported_commitAlter (h : Altered t u) (hsent : SentinelsAreColumns t u)
    {db : Db} (hnames : (db.tables.map fun t => t.info.tblName).Nodup) (ht : t ∈ db.tables)
    {idxNum : Nat} {argv : List SqlValue} {row : ChangeRow}
    (hrow : row ∈ db.filterRows idxNum argv) (htbl : row.tbl = t.info.tblName)
    (hcid : row.cid = delSentinel) :
    row ∈ (db.setTable (commitAlter u)).filterRows idxNum argv ∧
      (db.setTable (commitAlter u)).changesNext row = .ok none := by
  have hname : (commitAlter u).info.tblName = t.info.tblName := h.tblName
  have hfind := findTable_of_mem hnames ht
  refine ⟨?_, ?_⟩
  · rw [filterRows_eq, mem_changesUnionQuery] at hrow ⊢
    obtain ⟨t₁, ht₁, e, he, hpass, rfl⟩ := hrow
    obtain rfl : t₁ = t := List.inj_on_of_nodup_map hnames ht₁ ht htbl
    refine ⟨commitAlter u, ?_, e, mem_commitAlter h hsent he (Or.inl hcid), ?_, ?_⟩
    · rw [setTable_tables, List.mem_map]
      exact ⟨t₁, ht, if_pos hname.symm⟩
    · exact (passes_altered h _ _ _ e).trans hpass
    · rw [changeRow, changeRow, hname]
  · have hnew := findTable_setTable hfind hname t.info.tblName
    rw [if_pos rfl] at hnew
    rw [Db.changesNext, htbl, hnew]
    simp [rowPatchDataQuery, hcid]

/-- The commit of an alter forgets the dropped columns and nothing else exactly when
every sentinel with an entry is the name of a column. -/
theorem alter_forgets_only_dropped_iff (hu : Keyed.Unique ClockEntry.ident t.clock)
    (h : Altered t u) : ForgetsOnlyDropped t u ↔ SentinelsAreColumns t u := by
  constructor
  · intro hforget e he hcol
    have hmem : e ∈ (commitAlter u).clock := by
      rw [hforget.clock, List.mem_filter, decide_eq_true_eq]
      exact ⟨he, Or.inr hcol⟩
    rw [clock_commitAlter h, List.mem_filter, decide_eq_true_eq] at hmem
    exact hmem.2
  · intro hsent
    refine ⟨?_, fun c hdel merges hread => ?_, ?_⟩
    · rw [clock_commitAlter h]
      refine List.filter_congr fun e he => ?_
      rw [decide_eq_decide]
      exact ⟨Or.inl, fun hcol => hcol.elim id (hsent e he)⟩
    · refine deletedKey_mergeMany ?_ (deletedKey_commitAlter h hsent hdel) hread
      rw [clock_commitAlter h]
      exact hu.filter _
    · intro db hnames ht idxNum argv row hrow htbl hcid
      exact reported_commitAlter h hsent hnames ht hrow htbl hcid

end Alter

/-- `CREATE TABLE foo (a NOT NULL PRIMARY KEY, c, __crsql_del)`: the table of the worked
examples with `b` dropped and two columns added. -/
def fooSentinelSchema : CrrSchema where
  info :=
    { tblName := ['f', 'o', 'o']
      baseCols :=
        [⟨0, ['a'], [], true, 1⟩, ⟨1, ['c'], [], false, 0⟩, ⟨2, delSentinel, [], false, 0⟩] }
  dflt _ := .null
  pks_ne_nil := by decide

/-- `CREATE TABLE foo (a NOT NULL PRIMARY KEY, b, c)`: the table of the worked
examples with one more column. -/
def fooWiderSchema : CrrSchema where
  info :=
    { tblName := ['f', 'o', 'o']
      baseCols := [⟨0, ['a'], [], true, 1⟩, ⟨1, ['b'], [], false, 0⟩, ⟨2, ['c'], [], false, 0⟩] }
  dflt _ := .null
  pks_ne_nil := by decide

/-- A row and a deleted key: the delete is kept when `b` is dropped and a column is added that
is called like the sentinel, and it is forgotten when a column `c` is added. -/
theorem alter_forgets_only_dropped_iff_foo :
    let t : CrrTable := ⟨fooSchema, [fooRow 1 2], [⟨[.integer 1], ['b'], 1, 1, none⟩,
      ⟨[.integer 2], ['b'], 1, 1, none⟩, ⟨[.integer 2], delSentinel, 1, 1, none⟩]⟩
    DeletedKey t [.real 2] ∧
      @ForgetsOnlyDropped integralSqlite t { t with schema := fooSentinelSchema } ∧
      ¬ @ForgetsOnlyDropped integralSqlite t { t with schema := fooWiderSchema } := by
  intro t
  have hunique : Keyed.Unique ClockEntry.ident t.clock := by
    unfold Keyed.Unique Keyed.Conflicts
    decide
  refine ⟨⟨by decide, by decide⟩, ?_, fun hforget => ?_⟩
  · exact (@alter_forgets_only_dropped_iff integralSqlite t { t with schema := fooSentinelSchema }
      hunique ⟨rfl, rfl, rfl, rfl⟩).mpr (by decide)
  · have hcolumns := (@alter_forgets_only_dropped_iff integralSqlite t
      { t with schema := fooWiderSchema } hunique ⟨rfl, rfl, rfl, rfl⟩).mp hforget
    exact absurd hcolumns (by decide)

/-- A column is added to a table with a deleted row: the commit drops the delete
sentinel, and an old change brings the row back. -/
theorem alter_forgets_deletes :
    let foo : Text := ['f', 'o', 'o']
    let db := @Db.transact integralSqlite (fooDb [1])
      [.write foo (.insert (fooRow 1 2)), .write foo (.delete 0)]
    let t : CrrTable := ⟨fooSchema, [],
      [⟨[.integer 1], ['b'], 1, 1, none⟩, ⟨[.integer 1], delSentinel, 1, 1, none⟩]⟩
    let u : CrrTable := { t with schema := fooWiderSchema }
    let old : Change := ⟨foo, ['1'], ['b'], some ['2'], 2, 1, [7]⟩
    db.tables = [t] ∧ Altered t u ∧
      (commitAlter u).clock = [⟨[.integer 1], ['b'], 1, 1, none⟩] ∧
      (@mergeMany integralSqlite (commitAlter u) [(2, old)]).rows.map BaseRow.key =
        [[.integer 1]] ∧
      ¬ @ForgetsOnlyDropped integralSqlite t u := by
  intro foo db t u old
  have hclock : (commitAlter u).clock = [⟨[.integer 1], ['b'], 1, 1, none⟩] := by decide
  refine ⟨rfl, ⟨rfl, rfl, rfl, rfl⟩, hclock, by decide, fun hforget => ?_⟩
  have hkept := @ForgetsOnlyDropped.clock integralSqlite _ _ hforget
  rw [hclock] at hkept
  exact absurd hkept (by decide)

end CrSqlite
