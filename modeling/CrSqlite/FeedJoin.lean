import CrSqlite.Feed
import CrSqlite.MergeJoin
import CrSqlite.Versions

/-!
# FeedJoin - merging a whole feed is one join

Between replicas that share one CRR table a sync merges every row of the sender's
unfiltered feed.  The rows of the feed together say what the sender's table says, so
the receiver's view becomes its join with the sender's.

Main results:

- Theorem {lit}`joinAll_feed`: the changes of a feed join to the sender's view.
- Theorem {lit}`Db.Shares.sync`: a sync joins the sender's view into the receiver's and
  keeps both in the form in which feeds can be read and merged.
-/

namespace CrSqlite

/-! ## What can be shared -/

/-- A table that can be shared: SQL reads its names back, nothing in its declaration is in
the way of a row of defaults, there is a column outside the key, no column is called like a
sentinel, and the names are within the limits of the code. -/
structure CrrSchema.Shareable (s : CrrSchema) : Prop where
  plain : s.info.PlainNames
  lenient : s.Lenient
  nonPks : s.info.nonPks ≠ []
  columns : ∀ c ∈ s.info.nonPks,
    c.name ≠ delSentinel ∧ c.name ≠ pkoSentinel ∧ c.name.length ≤ maxTblNameLen
  tblName : s.info.tblName.length ≤ maxTblNameLen

/-- A column outside the key is one that can be merged. -/
theorem CrrSchema.Shareable.isColumn {s : CrrSchema} (hs : s.Shareable) {c : ColumnInfo}
    (hc : c ∈ s.info.nonPks) : IsColumn s.info c.name :=
  ⟨columnExists_iff.mpr ⟨c, hc, rfl⟩, (hs.columns c hc).1, (hs.columns c hc).2.1⟩

/-- A key that a feed carries over: it has no NULL, every value survives printing and is as
its column stores it, and key columns called like the aliases of the query do not hide it. -/
structure SharedKey [Sqlite] [Affinity] (info : TableInfo) (key : Key) : Prop where
  length : key.length = info.pks.length
  quotable : ∀ v ∈ key, Quotable v
  notNull : SqlValue.null ∉ key
  stored : storeKey info key = key
  site : ∀ v ∈ keyColumn info key siteIdAlias, ¬ SqlValue.Is v (.blob placeholderSiteId)
  version : ∀ v ∈ keyColumn info key dbVrsnAlias, v.gtInt minPossibleDbVersion = true

instance [Sqlite] [Affinity] [DecidablePred Quotable] (info : TableInfo) (key : Key) :
    Decidable (SharedKey info key) :=
  decidable_of_iff (key.length = info.pks.length ∧ (∀ v ∈ key, Quotable v) ∧
      SqlValue.null ∉ key ∧ storeKey info key = key ∧
      (∀ v ∈ keyColumn info key siteIdAlias, ¬ SqlValue.Is v (.blob placeholderSiteId)) ∧
      ∀ v ∈ keyColumn info key dbVrsnAlias, v.gtInt minPossibleDbVersion = true)
    ⟨fun ⟨h₁, h₂, h₃, h₄, h₅, h₆⟩ => ⟨h₁, h₂, h₃, h₄, h₅, h₆⟩,
      fun h => ⟨h.length, h.quotable, h.notNull, h.stored, h.site, h.version⟩⟩

/-- A clock entry that a feed carries over. -/
structure SharedEntry [Sqlite] [Affinity] (info : TableInfo) (e : ClockEntry) : Prop where
  key : SharedKey info e.key
  colName : e.colName.length ≤ maxTblNameLen
  version : 0 < e.dbVersion
  siteId : ∀ b ∈ e.siteId, b.length = siteIdLen

/-- A table of which every row and every entry is carried over. -/
structure Shared [Sqlite] [Affinity] (s : CrrSchema) (t : CrrTable) : Prop where
  schema : t.schema = s
  sound : Sound t
  rows : ∀ r ∈ t.rows, SharedKey s.info r.key
  entries : ∀ e ∈ t.clock, SharedEntry s.info e

/-- A value that a column holds: no NULL where it takes none, and as it is stored. -/
def Takes [Affinity] (info : TableInfo) (c : ColumnInfo) (v : SqlValue) : Prop :=
  (c.notnull = true → v ≠ .null) ∧ storeValue info c.name v = v

/-- Every column of every row has an entry and holds a value that it takes. -/
def Complete [Affinity] (t : CrrTable) : Prop :=
  ∀ r ∈ t.rows, ∀ c ∈ t.info.nonPks, t.entry (canonKey r.key) c.name ≠ none ∧
    Takes t.info c (r.val c.name)

/-- A replica whose only table is shared. -/
structure Db.Shares [Sqlite] [Affinity] (s : CrrSchema) (db : Db) (t : CrrTable) : Prop where
  tables : db.tables = [t]
  siteId : db.siteId.length = siteIdLen
  version : db.dbVersion = -1 ∨ 0 ≤ db.dbVersion
  table : Shared s t

section Sharing

variable [Sqlite] [Affinity] {s : CrrSchema} {db : Db} {t : CrrTable}

/-- A shared key has no NULL. -/
theorem SharedKey.keyClass_eq {info : TableInfo} {key : Key} (h : SharedKey info key) :
    keyClass key = some (canonKey key) :=
  keyClass_eq_some_iff.mpr ⟨h.notNull, rfl⟩

/-- The default bounds of the query let the entry pass. -/
theorem SharedEntry.passes {info : TableInfo} {e : ClockEntry} (h : SharedEntry info e) :
    passes info false (.blob placeholderSiteId) minPossibleDbVersion e = true := by
  have hsite : ¬ SqlValue.Is ((keyColumn info e.key siteIdAlias).getD (siteIdValue e.siteId))
      (.blob placeholderSiteId) := by
    cases hkey : keyColumn info e.key siteIdAlias with
    | some v => exact h.key.site v hkey
    | none =>
        cases hstored : e.siteId with
        | none => decide
        | some b =>
            have hlen := h.siteId b hstored
            intro his
            have hb : b = placeholderSiteId := by
              simpa [SqlValue.Is, siteIdValue, SqlValue.canon] using his
            rw [hb] at hlen
            exact absurd hlen (by decide)
  have hvrsn : ((keyColumn info e.key dbVrsnAlias).getD (.integer e.dbVersion)).gtInt
      minPossibleDbVersion = true := by
    cases hkey : keyColumn info e.key dbVrsnAlias with
    | some v => exact h.key.version v hkey
    | none => exact decide_eq_true h.version
  simp [CrSqlite.passes, hsite, hvrsn]

theorem Shared.info_eq (h : Shared s t) : t.info = s.info := by
  rw [CrrTable.info, h.schema]

/-- An entry is the one found under its key. -/
theorem Shared.entry_eq (h : Shared s t) {e : ClockEntry} (he : e ∈ t.clock) :
    t.entry (canonKey e.key) e.colName = some e :=
  Keyed.find_of_mem h.sound.agreement.unique_clock he
    (ClockEntry.ident_eq_some_iff.mpr ⟨(h.entries e he).key.keyClass_eq, rfl⟩)

/-- The shared table is found. -/
theorem Db.Shares.findTable (h : db.Shares s t) : db.findTable s.info.tblName = some t := by
  have hname : t.info.tblName = s.info.tblName := by rw [h.table.info_eq]
  simp [Db.findTable, h.tables, hname]

/-- What is shared is well stored. -/
theorem Db.Shares.wellStored (h : db.Shares s t) : db.WellStored := by
  have hinfo := h.table.info_eq
  have hentry : ∀ u ∈ db.tables, ∀ e ∈ u.clock, u = t ∧ SharedEntry s.info e := by
    intro u hu e he
    rw [h.tables, List.mem_singleton] at hu
    subst hu
    exact ⟨rfl, h.table.entries e he⟩
  refine ⟨?_, ?_, ?_, ?_, ?_⟩
  · simp [h.tables]
  · intro u hu
    rw [h.tables, List.mem_singleton] at hu
    subst hu
    exact h.table.sound.agreement.unique_rows
  · intro u hu e he
    obtain ⟨rfl, hshared⟩ := hentry u hu e he
    rw [hinfo]
    exact hshared.key.length
  · intro u hu e he v hv
    exact (quotable_iff.mp ((hentry u hu e he).2.key.quotable v hv)).1
  · intro u hu e he text htext
    exact (quotable_iff.mp ((hentry u hu e he).2.key.quotable _ htext)).2.2 text rfl

/-- What is shared can be reported. -/
theorem Db.Shares.reportable (h : db.Shares s t) : db.Reportable := by
  have hinfo := h.table.info_eq
  refine ⟨?_, ?_, ?_, ?_⟩
  · intro u hu e he
    rw [h.tables, List.mem_singleton] at hu
    subst hu
    rw [hinfo]
    exact (h.table.entries e he).passes
  · intro u hu e he _ n hn
    rw [h.tables, List.mem_singleton] at hu
    subst hu
    exact (quotable_iff.mp ((h.table.entries e he).key.quotable _ hn)).2.1 n rfl
  · intro u hu e he _ hnull
    rw [h.tables, List.mem_singleton] at hu
    subst hu
    exact absurd hnull (h.table.entries e he).key.notNull
  · intro htwo
    simp [h.tables] at htwo

/-! ## The feed of a shared table -/

/-- What a feed reports for an entry. -/
def Db.reportOf (db : Db) (t : CrrTable) (e : ClockEntry) : Change :=
  db.report (changeRow t.info e)

/-- The feed of a shared table ends without an error and has the change of every entry. -/
theorem Db.Shares.feed_eq (h : db.Shares s t) :
    db.feed.2 = none ∧ ∀ ch, ch ∈ db.feed.1 ↔ ∃ e ∈ t.clock, db.reportOf t e = ch := by
  have hperm := allRows_perm_entries
    (fun p hp => h.reportable.passes p.1 (mem_entries.mp hp).1 p.2 (mem_entries.mp hp).2)
    h.reportable.distinct
  have hmem : ∀ row, row ∈ db.allRows ↔ ∃ e ∈ t.clock, changeRow t.info e = row := by
    intro row
    rw [hperm.mem_iff]
    simp [Db.entries, h.tables]
  have hread : ∀ row ∈ db.allRows, db.Readable row := by
    intro row hrow
    obtain ⟨e, he, rfl⟩ := (hmem row).mp hrow
    have ht : t ∈ db.tables := by simp [h.tables]
    exact (readable_iff h.wellStored ht he).mpr (h.reportable.finite t ht e he)
  rw [CrSqlite.feed_eq, scan_eq hread]
  refine ⟨rfl, fun ch => ?_⟩
  simp only [List.mem_map, hmem]
  constructor
  · rintro ⟨_, ⟨e, he, rfl⟩, rfl⟩
    exact ⟨e, he, rfl⟩
  · rintro ⟨e, he, rfl⟩
    exact ⟨_, ⟨e, he, rfl⟩, rfl⟩

section Entry

variable (h : db.Shares s t) {e : ClockEntry} (he : e ∈ t.clock)

include h he

/-- An entry is reported as it should be. -/
theorem Db.Shares.reports : Reports db t e (db.reportOf t e) :=
  reports_of_reportable h.wellStored h.reportable (by simp [h.tables]) he

/-- The key of an entry is marked deleted exactly when the entry is reported as a
delete. -/
theorem Db.Shares.deleted_iff :
    Deleted t e ↔ t.entry (canonKey e.key) delSentinel ≠ none := by
  have hc := (h.table.entries e he).key.keyClass_eq
  have hagree := rowsAgree_iff.mp h.table.sound.agreement.agree (canonKey e.key)
  rw [Deleted, ← hasEntry_iff hc]
  constructor
  · rintro (hdel | hrow)
    · exact ⟨e, he, rfl, hdel⟩
    · by_contra hnot
      exact hrow (hagree.mpr ⟨⟨e.colName, e, he, rfl, rfl⟩, hnot⟩)
  · intro hdel
    exact Or.inr fun hrow => (hagree.mp hrow).2 hdel

/-- What the change of an entry that is not deleted says: its key has a row, and the
column has the entry's version and the row's value. -/
theorem Db.Shares.report_row (hdel : ¬ Deleted t e) :
    ∃ r ∈ t.rows, t.row (canonKey e.key) = some r ∧ (db.reportOf t e).cid = e.colName ∧
      e.colName ≠ delSentinel ∧
      (IsColumn s.info e.colName → (db.reportOf t e).val = some (quote (r.val e.colName)) ∧
        stampOf t (canonKey e.key) e.colName =
          ((toLex (e.colVersion, quote (r.val e.colName)) : Stamp) : WithBot Stamp)) := by
  obtain ⟨hcol, hrow⟩ := not_or.mp hdel
  obtain ⟨r, hr, hkey⟩ := not_not.mp hrow
  obtain ⟨hcid, hval⟩ := (h.reports he).present hcol r hr hkey
  have hfind := (h.table.sound.row_eq hr).2
  rw [hkey] at hfind
  refine ⟨r, hr, hfind, hcid, hcol, fun hname => ?_⟩
  rw [← h.table.info_eq] at hname
  have hcolumn : r.column t.info e.colName = r.val e.colName := by
    rw [BaseRow.column, if_pos hname.1]
  refine ⟨by rw [hval, hcolumn], ?_⟩
  simp only [stampOf, if_pos hname, h.table.entry_eq he, hfind]

/-- The change of an entry says no more than the table. -/
theorem Db.Shares.changeCell_le :
    changeCell s.info (db.reportOf t e) ≤ view t (canonKey e.key) := by
  by_cases hdel : Deleted t e
  · have htop := (h.deleted_iff he).mp hdel
    simp [view, htop]
  · have hnone : t.entry (canonKey e.key) delSentinel = none :=
      not_not.mp fun hne => hdel ((h.deleted_iff he).mpr hne)
    obtain ⟨r, -, hrow, hcid, hcol, hval⟩ := h.report_row he hdel
    have hversion : (db.reportOf t e).colVersion = e.colVersion := rfl
    rw [view_of_row hrow hnone, changeCell, hcid, if_neg hcol]
    split
    · rename_i hname
      obtain ⟨hquote, hstamp⟩ := hval hname
      rw [WithTop.coe_le_coe, hquote, hversion, Option.getD_some, ← hstamp]
      refine ⟨le_rfl, ?_⟩
      rw [update_le_iff]
      exact ⟨le_rfl, fun _ _ => bot_le⟩
    · exact WithTop.coe_le_coe.mpr ⟨le_rfl, bot_le⟩

/-- The change of an entry is one that another replica takes. -/
theorem Db.Shares.wellFormed_report (hs : s.Shareable) (hcomplete : Complete t) :
    WellFormed s (db.reportOf t e) e.key := by
  have hshared := h.table.entries e he
  have hreports := h.reports he
  have hinfo := h.table.info_eq
  refine ⟨?_, rfl, hshared.key.length, hshared.key.quotable, hshared.key.notNull, ?_, ?_, ?_, ?_⟩
  · rw [hreports.tbl, hinfo]
  · intro hcol
    by_cases hdel : Deleted t e
    · exact absurd (hreports.absent hdel).1 hcol.2.1
    · obtain ⟨r, hr, hrow, hcid, -, hval⟩ := h.report_row he hdel
      rw [hcid] at hcol
      have hentry := h.table.entry_eq he
      rw [← hinfo] at hcol
      refine ⟨r.val e.colName, h.table.sound.quotable _ r hrow _ hcol (by simp [hentry]),
        (hval (hinfo ▸ hcol)).1, ?_⟩
      intro c hc hname
      rw [hcid] at hname
      rw [← hname]
      exact (hcomplete r hr c (hinfo ▸ hc)).2.1
  · rw [hreports.tbl, hinfo]
    exact hs.tblName
  · by_cases hdel : Deleted t e
    · rw [(hreports.absent hdel).1]
      decide
    · obtain ⟨r, -, -, hcid, -⟩ := h.report_row he hdel
      rw [hcid]
      exact hshared.colName
  · rw [hreports.siteId]
    cases hsite : e.siteId with
    | none => exact h.siteId.le
    | some b => exact (hshared.siteId b hsite).le

end Entry

omit [Sqlite] [Affinity] in
/-- The entry found under a key and a column name. -/
theorem mem_of_entry {c : List SqlValue} {col : Text} {e : ClockEntry}
    (he : t.entry c col = some e) : e ∈ t.clock ∧ canonKey e.key = c ∧ e.colName = col := by
  obtain ⟨hkey, hcol⟩ := ClockEntry.ident_eq_some_iff.mp (Keyed.key_of_find he)
  exact ⟨Keyed.mem_of_find he, canonKey_of_keyClass hkey, hcol⟩

omit [Sqlite] [Affinity] in
/-- The row found under a key. -/
theorem mem_of_row {c : List SqlValue} {r : BaseRow} (hr : t.row c = some r) :
    r ∈ t.rows ∧ canonKey r.key = c := by
  have hident : BaseRow.ident r = some c := Keyed.key_of_find hr
  exact ⟨Keyed.mem_of_find hr, canonKey_of_keyClass hident⟩

/-- A table says no more about a key than the changes of its entries. -/
theorem Db.Shares.view_le (h : db.Shares s t) (hs : s.Shareable) (hcomplete : Complete t)
    {c : List SqlValue} {x : Cell}
    (hx : ∀ e ∈ t.clock, canonKey e.key = c → changeCell s.info (db.reportOf t e) ≤ x) :
    view t c ≤ x := by
  by_cases hdel : t.entry c delSentinel = none
  swap
  · obtain ⟨e, he⟩ := Option.ne_none_iff_exists'.mp hdel
    obtain ⟨hmem, hkey, hcol⟩ := mem_of_entry he
    have hcid := ((h.reports hmem).absent (Or.inl hcol)).1
    have hle := hx e hmem hkey
    rw [changeCell, if_pos hcid] at hle
    exact le_top.trans hle
  have hlive : ∀ e ∈ t.clock, canonKey e.key = c → ¬ Deleted t e := by
    rintro e he rfl hdeleted
    exact (h.deleted_iff he).mp hdeleted hdel
  rw [view, if_pos hdel, Cell.le_iff]
  constructor
  · cases hrow : t.row c with
    | none => exact bot_le
    | some r =>
        -- some column of the row has an entry
        obtain ⟨hr, hkey⟩ := mem_of_row hrow
        obtain ⟨d, hd⟩ := List.exists_mem_of_ne_nil _ hs.nonPks
        have hne := (hcomplete r hr d (h.table.info_eq ▸ hd)).1
        rw [hkey] at hne
        obtain ⟨e, he⟩ := Option.ne_none_iff_exists'.mp hne
        obtain ⟨hmem, hkey', -⟩ := mem_of_entry he
        obtain ⟨-, -, -, hcid, hcol, -⟩ := h.report_row hmem (hlive e hmem hkey')
        refine le_trans ?_ (Cell.le_iff.mp (hx e hmem hkey')).1
        rw [changeCell, hcid, if_neg hcol]
        split <;> exact le_rfl
  · intro col
    by_cases hcol : IsColumn t.info col
    · cases he : t.entry c col with
      | none =>
          have hbot : stampOf t c col = ⊥ := by simp [stampOf, he]
          simp only [Cell.stamp_coe, hbot]
          exact bot_le
      | some e =>
          obtain ⟨hmem, hkey, rfl⟩ := mem_of_entry he
          obtain ⟨r, -, -, hcid, hname, hval⟩ := h.report_row hmem (hlive e hmem hkey)
          rw [h.table.info_eq] at hcol
          obtain ⟨hquote, hstamp⟩ := hval hcol
          have hversion : (db.reportOf t e).colVersion = e.colVersion := rfl
          refine le_trans ?_ ((Cell.le_iff.mp (hx e hmem hkey)).2 e.colName)
          rw [changeCell, hcid, if_neg hname, if_pos hcol, hquote, hversion, Option.getD_some,
            ← hstamp, hkey]
          simp
    · have hbot : stampOf t c col = ⊥ := if_neg hcol
      simp only [Cell.stamp_coe, hbot]
      exact bot_le

/-- The changes of a feed join to the sender's view. -/
theorem joinAll_feed (h : db.Shares s t) (hs : s.Shareable) (hcomplete : Complete t) :
    Gossip.joinAll ⊥ (db.feed.1.map (changeView s.info)) = view t := by
  have hmem := h.feed_eq.2
  have hviews : ∀ e ∈ t.clock, changeView s.info (db.reportOf t e) =
      Function.update ⊥ (canonKey e.key) (changeCell s.info (db.reportOf t e)) := fun e he =>
    (h.wellFormed_report he hs hcomplete).changeView_eq
  apply le_antisymm
  · refine Gossip.joinAll_le_iff.mpr ⟨bot_le, fun u hu => ?_⟩
    obtain ⟨ch, hch, rfl⟩ := List.mem_map.mp hu
    obtain ⟨e, he, rfl⟩ := (hmem ch).mp hch
    rw [hviews e he, update_le_iff]
    exact ⟨h.changeCell_le he, fun _ _ => bot_le⟩
  · intro c
    refine h.view_le hs hcomplete ?_
    rintro e he rfl
    have hupdate : changeView s.info (db.reportOf t e) ∈ db.feed.1.map (changeView s.info) :=
      List.mem_map.mpr ⟨_, (hmem _).mpr ⟨e, he, rfl⟩, rfl⟩
    have hle : changeView s.info (db.reportOf t e) (canonKey e.key) ≤
        Gossip.joinAll ⊥ (db.feed.1.map (changeView s.info)) (canonKey e.key) :=
      Gossip.mem_le_joinAll hupdate (canonKey e.key)
    rwa [hviews e he, Function.update_self] at hle

/-! ## Merging the changes of a feed -/

/-- A change that a shared table takes from a feed. -/
structure Transported (s : CrrSchema) (ch : Change) (key : Key) : Prop where
  wellFormed : WellFormed s ch key
  key : SharedKey s.info key
  version : 0 < ch.dbVersion
  siteId : ch.siteId.length = siteIdLen
  stored : AsStored s.info ch

/-- The change of an entry is written as the columns store it. -/
private theorem Db.Shares.asStored_report (h : db.Shares s t) {e : ClockEntry} (he : e ∈ t.clock)
    (hs : s.Shareable) (hcomplete : Complete t) : AsStored s.info (db.reportOf t e) := by
  have hwf := h.wellFormed_report he hs hcomplete
  constructor
  · intro parts hparts key hkey
    rw [hwf.split, Option.mem_some_iff] at hparts
    rw [← hparts, readLiterals_quote hwf.quotable, Option.mem_some_iff] at hkey
    rw [← hkey]
    exact (h.table.entries e he).key.stored
  · intro hcol val hval parts hparts vals hvals v hv
    by_cases hdel : Deleted t e
    · rw [((h.reports he).absent hdel).2] at hval
      cases hval
    obtain ⟨r, hr, hrow, hcid, -, hprint⟩ := h.report_row he hdel
    rw [hcid] at hcol ⊢
    obtain ⟨c, hc, hname⟩ := columnExists_iff.mp hcol
    have hisCol : IsColumn s.info e.colName := hname ▸ hs.isColumn hc
    have hquot : Quotable (r.val e.colName) :=
      h.table.sound.quotable _ r hrow _ (h.table.info_eq ▸ hisCol) (by
        rw [h.table.entry_eq he]
        simp)
    rw [(hprint hisCol).1, Option.mem_some_iff] at hval
    rw [← hval, splitQuoteConcat_quote (quotable_iff.mp hquot).1 (quotable_iff.mp hquot).2.1,
      Option.mem_some_iff] at hparts
    have hread : readLiterals parts = some [r.val e.colName] := by
      rw [← hparts]
      exact readLiterals_quote (List.forall_mem_singleton.mpr hquot)
    rw [hread, Option.mem_some_iff] at hvals
    rw [← hvals, List.mem_singleton] at hv
    have htakes := (hcomplete r hr c (h.table.info_eq ▸ hc)).2.2
    rw [h.table.info_eq, hname] at htakes
    rw [hv]
    exact htakes

/-- A reported change arrives as it was. -/
theorem Db.Shares.transported (h : db.Shares s t) {e : ClockEntry} (he : e ∈ t.clock)
    (hs : s.Shareable) (hcomplete : Complete t) : Transported s (db.reportOf t e) e.key := by
  have hshared := h.table.entries e he
  refine ⟨h.wellFormed_report he hs hcomplete, hshared.key, hshared.version, ?_,
    h.asStored_report he hs hcomplete⟩
  rw [(h.reports he).siteId]
  cases hsite : e.siteId with
  | none => exact h.siteId
  | some b => exact hshared.siteId b hsite

/-- A key that the base table or the clock table stores. -/
def CrrTable.Stores (t : CrrTable) (key : Key) : Prop :=
  (∃ r ∈ t.rows, r.key = key) ∨ ∃ e ∈ t.clock, e.key = key

/-- The db version is not negative. -/
theorem Db.Shares.getDbVersion_nonneg (h : db.Shares s t) : 0 ≤ db.getDbVersion := by
  unfold Db.getDbVersion
  split
  · rename_i hcached
    exact h.version.resolve_left hcached
  · rcases maxDbVersion_cases db with hzero | ⟨u, hu, e, he, hversion⟩
    · exact hzero.ge
    · rw [h.tables, List.mem_singleton] at hu
      subst hu
      exact hversion ▸ (h.table.entries e he).version.le

/-- The entries after the merge of such a change are carried over as well. -/
private theorem Shared.mergeTable (ht : Shared s t) {next : Int} {ch : Change} {key : Key}
    (hch : Transported s ch key) {u : CrrTable} (hmerge : mergeTable next ch t = .ok u)
    (hsound : Sound u) : Shared s u := by
  have hwf : WellFormed t.schema ch key := ht.schema.symm ▸ hch.wellFormed
  have hschema : u.schema = t.schema := (TableStep.merge hmerge).schema_eq
  obtain ⟨hrows, hclock⟩ := hwf.merged_keys hmerge
  refine ⟨hschema.trans ht.schema, hsound, fun r hr => ?_, fun e he => ?_⟩
  · rcases hrows r hr with ⟨o, ho, hkey⟩ | hkey
    · exact hkey ▸ ht.rows o ho
    · exact hkey ▸ hch.key
  · have hkey : SharedKey s.info e.key := by
      rcases hclock e he with ⟨o, ho, hkey⟩ | hkey
      · exact hkey ▸ (ht.entries o ho).key
      · exact hkey ▸ hch.key
    rcases mergeTable_cases hmerge with rfl | ⟨key', parts, wheres, -, -, -, -, -, -, hm⟩
    · exact ht.entries e he
    · obtain ⟨col, hcol, hput⟩ := hm.clock_eq
      rw [hput] at he
      rcases Keyed.mem_put.mp he with rfl | ⟨hold, -⟩
      · refine ⟨hkey, ?_, lt_max_of_lt_right hch.version, ?_⟩
        · rcases hcol with rfl | rfl
          · exact hch.wellFormed.cid_length
          · exact (by decide : pkoSentinel.length ≤ maxTblNameLen)
        · intro b hb
          have hsite : bindSiteId ch.siteId = some b := hb
          unfold bindSiteId at hsite
          split at hsite
          · simp at hsite
          · rw [← Option.some.inj hsite]
            exact hch.siteId
      · exact ht.entries e hold

/-- Such a change is merged into the view, and brings its key only. -/
theorem Db.Shares.mergeInsert (h : db.Shares s t) {ch : Change} {key : Key}
    (hch : Transported s ch key) :
    ∃ u, (db.mergeInsert ch).1.Shares s u ∧ view u = view t ⊔ changeView s.info ch ∧
      ∀ k, u.Stores k → t.Stores k ∨ k = key := by
  have hwf : WellFormed t.schema ch key := h.table.schema.symm ▸ hch.wellFormed
  obtain ⟨u, hmerge, hsound, hview⟩ := mergeTable_view db.nextDbVersion h.table.sound hwf
  have hshared := h.table.mergeTable hch hmerge hsound
  have hfind : db.findTable ch.tbl = some t := by
    rw [hch.wellFormed.tbl]
    exact h.findTable
  obtain ⟨-, htables, hversion⟩ := mergeInsert_of_ok hch.wellFormed.tbl_length
    hch.wellFormed.cid_length hch.wellFormed.siteId_length hfind hmerge
  have hname : t.info.tblName = u.info.tblName := by rw [h.table.info_eq, hshared.info_eq]
  obtain ⟨hrows, hclock⟩ := hwf.merged_keys hmerge
  refine ⟨u, ⟨?_, ?_, ?_, hshared⟩, ?_, ?_⟩
  · rw [htables, setTable_tables, h.tables]
    simp [hname]
  · have hsite : (db.mergeInsert ch).1.siteId = db.siteId := exec_siteId db (.merge ch)
    rw [hsite]
    exact h.siteId
  · rw [hversion]
    exact Or.inr h.getDbVersion_nonneg
  · rw [hview, h.table.info_eq]
  · rintro k (⟨r, hr, rfl⟩ | ⟨e, he, rfl⟩)
    · rcases hrows r hr with ⟨o, ho, hkey⟩ | hkey
      · exact Or.inl (Or.inl ⟨o, ho, hkey⟩)
      · exact Or.inr hkey
    · rcases hclock e he with ⟨o, ho, hkey⟩ | hkey
      · exact Or.inl (Or.inr ⟨o, ho, hkey⟩)
      · exact Or.inr hkey

/-- A sequence of such changes is joined into the view, and brings their keys only. -/
theorem Db.Shares.mergeAll (h : db.Shares s t) {chs : List Change} {P : Key → Prop}
    (hchs : ∀ ch ∈ chs, ∃ key, Transported s ch key ∧ P key) :
    ∃ u, (db.mergeAll chs).Shares s u ∧
      view u = Gossip.joinAll (view t) (chs.map (changeView s.info)) ∧
      ∀ k, u.Stores k → t.Stores k ∨ P k := by
  induction chs generalizing db t with
  | nil => exact ⟨t, h, rfl, fun k hk => Or.inl hk⟩
  | cons ch chs ih =>
      obtain ⟨key, hch, hkey⟩ := hchs ch (by simp)
      obtain ⟨v, hv, hview, hstores⟩ := h.mergeInsert hch
      obtain ⟨u, hu, hview', hstores'⟩ := ih hv fun ch' hch' =>
        hchs ch' (List.mem_cons_of_mem ch hch')
      refine ⟨u, hu, by rw [hview', hview]; rfl, fun k hk => ?_⟩
      rcases hstores' k hk with hk | hk
      · rcases hstores k hk with hold | rfl
        · exact Or.inl hold
        · exact Or.inr hkey
      · exact Or.inr hk

/-! ## A sync -/

/-- A one-way sync: every row of the other replica's feed is merged, in its order. -/
def Db.sync (db other : Db) : Db :=
  db.mergeAllSql other.feedSql.1

/-- The feed of a shared table, scanned by its statements, is the one above: the keys of its
entries are spelled as they are stored. -/
theorem Db.Shares.feedSql_eq (h : db.Shares s t) (hs : s.Shareable) : db.feedSql = db.feed := by
  have hplain : db.PlainNames := by
    intro u hu
    rw [h.tables, List.mem_singleton] at hu
    rw [hu, h.table.info_eq]
    exact hs.plain
  refine CrSqlite.feedSql_eq hplain fun u hu e he v hv wheres hwheres key hkey => ?_
  rw [h.tables, List.mem_singleton] at hu
  subst hu
  have hfound : db.findTable (changeRow u.info e).tbl = some u := by
    rw [changeRow, h.table.info_eq]
    exact h.findTable
  obtain rfl : u = v := Option.some.inj (hfound.symm.trans hv)
  have hshared := (h.table.entries e he).key
  rw [h.table.info_eq] at hwheres ⊢
  have htexts : whereTexts wheres = e.key.map quote := by
    have hfinite : ∀ w ∈ e.key, Storable w ∧ ∀ n, w ≠ .inf n := fun w hw =>
      have hw' := quotable_iff.mp (hshared.quotable w hw)
      ⟨hw'.1, hw'.2.1⟩
    have hprinted := whereTexts_quoteConcat hshared.length hfinite
    exact Option.some.inj ((congrArg (Option.map whereTexts) hwheres).symm.trans hprinted)
  rw [htexts, readLiterals_quote hshared.quotable, Option.mem_some_iff] at hkey
  rw [← hkey]
  exact hshared.stored

/-- Between complete tables a stamp of a row's column is that of an entry. -/
private theorem Complete.stamp (hcomplete : Complete t) (hs : s.Shareable) (ht : Shared s t)
    {c : List SqlValue} (hrow : t.row c ≠ none) {d : ColumnInfo} (hd : d ∈ s.info.nonPks) :
    stampOf t c d.name ≠ ⊥ := by
  obtain ⟨r, hr⟩ := Option.ne_none_iff_exists'.mp hrow
  obtain ⟨hmem, rfl⟩ := mem_of_row hr
  obtain ⟨e, he⟩ := Option.ne_none_iff_exists'.mp (hcomplete r hmem d (ht.info_eq ▸ hd)).1
  have hcol : IsColumn t.info d.name := ht.info_eq ▸ hs.isColumn hd
  simp [stampOf, if_pos hcol, he, hr]

omit [Affinity] in
/-- The entry and the row of a stamp. -/
private theorem of_stampOf_ne_bot {c : List SqlValue} {col : Text} (h : stampOf t c col ≠ ⊥) :
    ∃ e r, t.entry c col = some e ∧ t.row c = some r ∧ IsColumn t.info col ∧
      stampOf t c col = ((toLex (e.colVersion, quote (r.val col)) : Stamp) : WithBot Stamp) := by
  unfold stampOf at h ⊢
  split at h
  · rename_i hcol
    split at h
    · rename_i e r he hr
      exact ⟨e, r, he, hr, hcol, by simp [hcol]⟩
    · exact absurd rfl h
  · exact absurd rfl h

/-- A table whose stamps are all those of complete tables is complete. -/
private theorem Complete.of_stamps {u : CrrTable} (hu : Shared s u)
    (hstamps : ∀ c, u.row c ≠ none → ∀ d ∈ s.info.nonPks, ∃ v, Shared s v ∧ Complete v ∧
      stampOf u c d.name = stampOf v c d.name ∧ stampOf v c d.name ≠ ⊥) : Complete u := by
  intro r hr d hd
  have hrow := (hu.sound.row_eq hr).2
  rw [hu.info_eq] at hd
  obtain ⟨v, hv, hcomplete, heq, hne⟩ := hstamps (canonKey r.key) (by simp [hrow]) d hd
  obtain ⟨e, o, he, ho, hcol, hstamp⟩ := of_stampOf_ne_bot hne
  obtain ⟨e', r', he', hr', hcol', hstamp'⟩ := of_stampOf_ne_bot (heq ▸ hne)
  obtain rfl : r = r' := Option.some.inj (hrow.symm.trans hr')
  refine ⟨by simp [he'], ?_⟩
  -- the value is that of the row in the other table
  have hquote : quote (r.val d.name) = quote (o.val d.name) := by
    rw [hstamp', hstamp] at heq
    simp only [WithBot.coe_inj, EmbeddingLike.apply_eq_iff_eq, Prod.mk.injEq] at heq
    exact heq.2
  have hval : r.val d.name = o.val d.name :=
    quote_injective (hu.sound.quotable _ r hrow _ hcol' (by simp [he']))
      (hv.sound.quotable _ o ho _ hcol (by simp [he])) hquote
  obtain ⟨homem, hokey⟩ := mem_of_row ho
  rw [hval, hu.info_eq, ← hv.info_eq]
  exact (hcomplete o homem d (hv.info_eq ▸ hd)).2

/-- A join of complete tables is complete. -/
private theorem Complete.join {t' u : CrrTable} (hs : s.Shareable) (ht : Shared s t)
    (ht' : Shared s t') (hu : Shared s u) (hcomplete : Complete t) (hcomplete' : Complete t')
    (hview : view u = view t ⊔ view t') : Complete u := by
  refine Complete.of_stamps hu fun c hrow d hd => ?_
  obtain ⟨r, hr⟩ := Option.ne_none_iff_exists'.mp hrow
  obtain ⟨hmem, rfl⟩ := mem_of_row hr
  have hat := congrFun hview (canonKey r.key)
  rw [view_of_row hr (hu.sound.not_deleted hmem), Pi.sup_apply] at hat
  have hlive : ∀ v : CrrTable, view v (canonKey r.key) ≠ ⊤ → view v (canonKey r.key) =
      (((v.row (canonKey r.key)).isSome, stampOf v (canonKey r.key)) :
        Bool × (Text → WithBot Stamp)) := by
    intro v hne
    unfold view at hne ⊢
    split
    · rfl
    · rename_i hdel
      simp [hdel] at hne
  have htop : view t (canonKey r.key) ≠ ⊤ := by
    intro htop
    simp [htop] at hat
  have htop' : view t' (canonKey r.key) ≠ ⊤ := by
    intro htop
    simp [htop] at hat
  rw [hlive t htop, hlive t' htop', ← WithTop.coe_sup, WithTop.coe_inj, Prod.mk_sup_mk,
    Prod.mk.injEq] at hat
  obtain ⟨hpresent, hstamp⟩ := hat
  have hcol : stampOf u (canonKey r.key) d.name =
      stampOf t (canonKey r.key) d.name ⊔ stampOf t' (canonKey r.key) d.name :=
    congrFun hstamp d.name
  have hne : stampOf u (canonKey r.key) d.name ≠ ⊥ := by
    rw [hcol, Ne, sup_eq_bot_iff, not_and_or]
    rcases Bool.or_eq_true_iff.mp hpresent.symm with hsome | hsome
    · exact Or.inl (hcomplete.stamp hs ht (Option.isSome_iff_ne_none.mp hsome) hd)
    · exact Or.inr (hcomplete'.stamp hs ht' (Option.isSome_iff_ne_none.mp hsome) hd)
  rcases le_total (stampOf t (canonKey r.key) d.name) (stampOf t' (canonKey r.key) d.name) with
    hle | hle
  · rw [sup_eq_right.mpr hle] at hcol
    exact ⟨t', ht', hcomplete', hcol, hcol ▸ hne⟩
  · rw [sup_eq_left.mpr hle] at hcol
    exact ⟨t, ht, hcomplete, hcol, hcol ▸ hne⟩

/-- A sync joins the sender's view into the receiver's, and brings the sender's keys
only. -/
theorem Db.Shares.sync {other : Db} {t' : CrrTable} (hs : s.Shareable) (h : db.Shares s t)
    (h' : other.Shares s t') (hcomplete : Complete t) (hcomplete' : Complete t') :
    ∃ u, (db.sync other).Shares s u ∧ Complete u ∧ view u = view t ⊔ view t' ∧
      ∀ k, u.Stores k → t.Stores k ∨ t'.Stores k := by
  have hchs : ∀ ch ∈ other.feed.1, ∃ key, Transported s ch key ∧ t'.Stores key := by
    intro ch hch
    obtain ⟨e, he, rfl⟩ := (h'.feed_eq.2 ch).mp hch
    exact ⟨e.key, h'.transported he hs hcomplete', Or.inr ⟨e, he, rfl⟩⟩
  have htakes : ∀ ch ∈ other.feed.1, db.TakesAsWritten ch := by
    intro ch hch v hv
    obtain ⟨key, htransported, -⟩ := hchs ch hch
    rw [htransported.wellFormed.tbl, h.findTable, Option.mem_some_iff] at hv
    rw [← hv, h.table.info_eq]
    exact ⟨hs.plain, htransported.stored⟩
  obtain ⟨u, hu, hview, hstores⟩ := h.mergeAll hchs
  rw [Db.sync, h'.feedSql_eq hs, mergeAllSql_eq (by simp [h.tables]) htakes]
  have hjoin : view u = view t ⊔ view t' := by
    rw [hview]
    exact Gossip.joinAll_eq_sup bot_le (joinAll_feed h' hs hcomplete')
  exact ⟨u, hu, Complete.join hs h.table h'.table hu.table hcomplete hcomplete' hjoin, hjoin,
    hstores⟩

end Sharing

end CrSqlite
