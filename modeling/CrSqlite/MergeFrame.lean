import CrSqlite.MergeStatements
import CrSqlite.Remerge

/-!
# MergeFrame - what a merge leaves alone

A merge runs its statement on the user's table with the sync bit raised and writes one
clock entry of its own.  Its WHERE list names the key columns as they are between double
quotes, and an INSERT stores the key as the affinities convert it, so that the statements
may reach other rows than those of the change's key.

Main results:

- Theorem {lit}`merge_touches_own_cell`: where the names are read back and the key is
  written as the key columns store it, a merge leaves everything but its own cell as it is.
- Theorem {lit}`delete_hits_other_rows`: otherwise a delete may take every row.
-/

namespace CrSqlite

/-! ## The cell of a change -/

/-- The column name that a merge records. -/
def recordedName (t : CrrTable) (ch : Change) : Text :=
  if KeyOnly t ch then pkoSentinel else ch.cid

/-- The pk text is a list of literals, none of them NULL. -/
def LiteralPk [Sqlite] (pk : Text) (key : Key) : Prop :=
  (∃ n, ((splitQuoteConcat pk n).bind readLiterals) = some key) ∧ SqlValue.null ∉ key

/-- All that a merge leaves of a table as it was. -/
structure CellFrame (next : Int) (ch : Change) (key : Key) (t t' : CrrTable) : Prop where
  schema : t'.schema = t.schema
  /-- The rows with another key. -/
  rows : Keyed.erase BaseRow.ident (canonKey key) t'.rows =
    Keyed.erase BaseRow.ident (canonKey key) t.rows
  /-- The other columns of a row with the key. -/
  columns : ch.cid ≠ delSentinel → ∀ r ∈ t.rows, ∃ r' ∈ t'.rows, r'.key = r.key ∧
    ∀ col, col ≠ recordedName t ch → r'.val col = r.val col
  /-- The clock entries of other cells. -/
  entries : Keyed.erase ClockEntry.ident (canonKey key, recordedName t ch) t'.clock =
    Keyed.erase ClockEntry.ident (canonKey key, recordedName t ch) t.clock
  /-- No trigger writes to the clock table. -/
  logged : t'.clock = t.clock ∨ t'.clock = Keyed.put ClockEntry.ident
    ⟨key, recordedName t ch, ch.colVersion, max next ch.dbVersion, bindSiteId ch.siteId⟩ t.clock

section Cell

variable {next : Int} {ch : Change} {key : Key} {t t' : CrrTable}

/-- A table is framed by itself. -/
theorem CellFrame.refl : CellFrame next ch key t t where
  schema := rfl
  rows := rfl
  columns _ r hr := ⟨r, hr, rfl, fun _ _ => rfl⟩
  entries := rfl
  logged := Or.inl rfl

/-- A write to the rows of one key and the winner's clock stay within the cell. -/
theorem CellFrame.setWinnerClock {u : CrrTable} (hnull : SqlValue.null ∉ key)
    (hschema : u.schema = t.schema) (hclock : u.clock = t.clock)
    (hrows : Keyed.erase BaseRow.ident (canonKey key) u.rows =
      Keyed.erase BaseRow.ident (canonKey key) t.rows)
    (hcolumns : ch.cid ≠ delSentinel → ∀ r ∈ t.rows, ∃ r' ∈ u.rows, r'.key = r.key ∧
      ∀ col, col ≠ recordedName t ch → r'.val col = r.val col) :
    CellFrame next ch key t (CrSqlite.setWinnerClock next key (recordedName t ch) ch u) where
  schema := hschema
  rows := hrows
  columns := hcolumns
  entries := by
    have hident : ClockEntry.ident ⟨key, recordedName t ch, ch.colVersion,
        max next ch.dbVersion, bindSiteId ch.siteId⟩ = some (canonKey key, recordedName t ch) :=
      ClockEntry.ident_eq_some_iff.mpr ⟨keyClass_eq_some_iff.mpr ⟨hnull, rfl⟩, rfl⟩
    rw [CrSqlite.setWinnerClock, Keyed.erase_put hident, hclock]
  logged := Or.inr (by rw [CrSqlite.setWinnerClock, hclock])

/-- What the statements of a merge write: a delete, a key-only insert, or a column with its
value as it is stored. -/
inductive Written (next : Int) (ch : Change) (key : Key) (t : CrrTable) : CrrTable → Prop
  | del (hcid : ch.cid = delSentinel) : Written next ch key t (mergeDelete next key ch t)
  | pko (hkeyOnly : KeyOnly t ch) : Written next ch key t (mergePkOnlyInsert next key ch t)
  | column {v : SqlValue} {u : CrrTable} (hkeyOnly : ¬ KeyOnly t ch)
      (hupsert : upsertColumn next key ch.cid v t = some u) :
      Written next ch key t (setWinnerClock next key ch.cid ch u)

/-- Each of the three writes stays within its cell. -/
theorem Written.cellFrame (h : Written next ch key t t') (hnull : SqlValue.null ∉ key) :
    CellFrame next ch key t t' := by
  have hc : keyClass key = some (canonKey key) := keyClass_eq_some_iff.mpr ⟨hnull, rfl⟩
  cases h with
  | del hcid =>
      have hname : recordedName t ch = delSentinel := by
        rw [recordedName, if_neg fun hk => hk.1 hcid, hcid]
      rw [mergeDelete, ← hname]
      refine .setWinnerClock hnull ?_ ?_ ?_ fun hne => absurd hcid hne
      · rw [deleteWhere_eq]
      · rw [deleteWhere_eq]
      · rw [deleteWhere_rows hc, Keyed.erase_erase]
  | pko hkeyOnly =>
      have hname : recordedName t ch = pkoSentinel := if_pos hkeyOnly
      rw [mergePkOnlyInsert, ← hname, insertOrIgnore_eq]
      split_ifs
      · refine .setWinnerClock hnull rfl rfl (Keyed.erase_append hc) fun _ r hr => ?_
        exact ⟨r, List.mem_append_left _ hr, rfl, fun _ _ => rfl⟩
      · exact .setWinnerClock hnull rfl rfl rfl fun _ r hr => ⟨r, hr, rfl, fun _ _ => rfl⟩
  | @column v u hkeyOnly hupsert =>
      have hname : recordedName t ch = ch.cid := if_neg hkeyOnly
      rw [upsertColumn_eq_some hupsert, ← hname]
      refine .setWinnerClock hnull rfl rfl (Keyed.erase_upsert (BaseRow.ident_setColumn _ v) hc)
        fun _ r hr => ?_
      rcases Keyed.mem_upsert_or BaseRow.ident hr with hmem | ⟨-, hmem⟩
      · exact ⟨r, hmem, rfl, fun _ _ => rfl⟩
      · refine ⟨_, hmem, rfl, fun col hne => ?_⟩
        simp [BaseRow.setColumn, hne]

end Cell

/-! ## What the statements write -/

section Statements

variable [Sqlite] [Affinity] {next : Int} {ch : Change} {key : Key} {t : CrrTable}
  {wheres : List (Text × Text)} {pkVals : List Text}

/-- Nothing was written, or one of the three writes was made; the bit is clear. -/
def Leaves (next : Int) (ch : Change) (key : Key) (t : CrrTable) (s : Tracked) : Prop :=
  s = ⟨t, false⟩ ∨ ∃ t', Written next ch key t t' ∧ s = ⟨t', false⟩

/-- The last part of a merge, whatever the affinity of the column makes of the value. -/
theorem Tracked.mergeColumn_leaves (hch : Plainly t ch wheres) (hkeyOnly : ¬ KeyOnly t ch)
    (hwhere : readLiterals (whereTexts wheres) = some key)
    (hread : readLiterals pkVals = some key) (hstore : storeKey t.info key = key) :
    Leaves next ch key t ((⟨t, false⟩ : Tracked).mergeColumn next wheres pkVals ch).1 := by
  unfold Tracked.mergeColumn
  generalize (ch.val.bind fun val => splitQuoteConcat val 1) = parts
  match parts with
  | none => exact Or.inl rfl
  | some [] => exact Or.inl rfl
  | some (_ :: _ :: _) => exact Or.inl rfl
  | some [val] =>
      simp only [didCidWinStmts_eq hch hwhere hstore]
      cases didCidWin key val ch t with
      | error msg => exact Or.inl rfl
      | ok win =>
          cases win with
          | false => exact Or.inl rfl
          | true =>
              dsimp only
              rw [execUnderBit_eq, upsertStmt_eq hread, hstore]
              cases hu : (readLiteral val).bind fun v =>
                  upsertColumn next key ch.cid (storeValue t.info ch.cid v) t with
              | none => exact Or.inl rfl
              | some u =>
                  obtain ⟨v, -, hupsert⟩ := Option.bind_eq_some_iff.mp hu
                  have hinfo : u.info = t.info := by rw [upsertColumn_eq_some hupsert]; rfl
                  simp only [Option.isSome_some, Option.getD_some,
                    Tracked.setWinnerClock_eq hch.names hread ch.cid hinfo]
                  exact Or.inr ⟨_, .column hkeyOnly hupsert, rfl⟩

/-- Behind every exit nothing was written, or one of the three writes under the key that the
pk text is read as. -/
theorem Tracked.merge_leaves (next : Int) (hplain : t.info.PlainNames)
    (hstored : KeyAsStored t.info ch.pk) :
    ((⟨t, false⟩ : Tracked).merge next ch).1 = ⟨t, false⟩ ∨
      ∃ parts key, splitQuoteConcat ch.pk t.info.pks.length = some parts ∧
        readLiterals parts = some key ∧
        Leaves next ch key t ((⟨t, false⟩ : Tracked).merge next ch).1 := by
  unfold Tracked.merge
  dsimp only
  cases hwheres : extractWhereList t.info.pks ch.pk with
  | none => exact Or.inl rfl
  | some wheres =>
      dsimp only
      by_cases hcheck : checkForLocalDeleteStmt t wheres = true
      · rw [if_pos hcheck]
        exact Or.inl rfl
      rw [if_neg hcheck]
      have hch : Plainly t ch wheres := ⟨hplain, hwheres⟩
      cases hparts : quoteConcatedValuesAsList ch.pk t.info.pks.length with
      | none => exact Or.inl rfl
      | some pkVals =>
          dsimp only
          cases hread : readLiterals pkVals with
          | none =>
              have hwhere : readLiterals (whereTexts wheres) = none := by
                by_contra hsome
                obtain ⟨key, hkey⟩ := Option.ne_none_iff_exists'.mp hsome
                rw [readLiterals_of_whereTexts hwheres hparts hkey] at hread
                cases hread
              left
              rw [Tracked.mergeColumn_of_unreadable hch hwhere,
                Tracked.mergeDelete_of_unreadable hch hwhere,
                Tracked.mergePkOnlyInsert_of_unreadable hch hread]
              split_ifs <;> rfl
          | some key =>
              have hstore : storeKey t.info key = key := hstored pkVals hparts key hread
              refine Or.inr ⟨pkVals, key, hparts, hread, ?_⟩
              rw [Tracked.mergePkOnlyInsert_eq hch hread hstore]
              cases hwhere : readLiterals (whereTexts wheres) with
              | none =>
                  rw [Tracked.mergeColumn_of_unreadable hch hwhere,
                    Tracked.mergeDelete_of_unreadable hch hwhere]
                  split_ifs with hcid hkeyOnly
                  · exact Or.inl rfl
                  · exact Or.inr ⟨_, .pko ⟨hcid, by simpa using hkeyOnly⟩, rfl⟩
                  · exact Or.inl rfl
              | some key' =>
                  obtain rfl : key = key' := Option.some.inj
                    (hread.symm.trans (readLiterals_of_whereTexts hwheres hparts hwhere))
                  rw [Tracked.mergeDelete_eq hch hwhere hread hstore]
                  split_ifs with hcid hkeyOnly
                  · exact Or.inr ⟨_, .del hcid, rfl⟩
                  · exact Or.inr ⟨_, .pko ⟨hcid, by simpa using hkeyOnly⟩, rfl⟩
                  · refine Tracked.mergeColumn_leaves hch (fun hk => hkeyOnly ?_) hwhere hread
                      hstore
                    simpa using hk.2

/-- The statements of a merge stay within the cell of the change and leave the bit clear. -/
theorem Tracked.merge_cellFrame (next : Int) (hplain : t.info.PlainNames)
    (hstored : KeyAsStored t.info ch.pk) (hpk : LiteralPk ch.pk key) :
    ∃ t', ((⟨t, false⟩ : Tracked).merge next ch).1 = ⟨t', false⟩ ∧
      CellFrame next ch key t t' := by
  obtain ⟨⟨n, hread⟩, hnull⟩ := hpk
  obtain ⟨ps, hps, hkey⟩ := Option.bind_eq_some_iff.mp hread
  rcases Tracked.merge_leaves next hplain hstored with
    hsame | ⟨parts, key', hparts, hkey', hsame | ⟨t', hwritten, hmerged⟩⟩
  · exact ⟨t, hsame, .refl⟩
  · exact ⟨t, hsame, .refl⟩
  · obtain rfl := splitQuoteConcat_unique hps hparts
    obtain rfl := Option.some.inj (hkey.symm.trans hkey')
    exact ⟨t', hmerged, hwritten.cellFrame hnull⟩

end Statements

/-! ## The whole database -/

/-- Everything but one cell of one table is as it was, and local writes are logged. -/
structure OwnCell (ch : Change) (key : Key) (c c' : Conn) : Prop where
  others : ∀ name, name ≠ ch.tbl → c'.db.findTable name = c.db.findTable name
  missing : c.db.findTable ch.tbl = none → c'.db.findTable ch.tbl = none
  own : ∀ t, c.db.findTable ch.tbl = some t →
    ∃ t', c'.db.findTable ch.tbl = some t' ∧ CellFrame c.db.nextDbVersion ch key t t'
  syncBit : c'.syncBit = false
  logged : ∀ tbl w, c'.write tbl w = ⟨c'.db.write tbl w, false⟩

/-- No table changed. -/
theorem OwnCell.of_tables {ch : Change} {key : Key} {db db' : Db} (h : db'.tables = db.tables) :
    OwnCell ch key ⟨db, false⟩ ⟨db', false⟩ := by
  have hsame (name : Text) : db'.findTable name = db.findTable name := by
    rw [Db.findTable, h]
    rfl
  exact {
    others := fun name _ => hsame name
    missing := fun hnone => (hsame _).trans hnone
    own := fun t ht => ⟨t, (hsame _).trans ht, .refl⟩
    syncBit := rfl
    logged := Conn.write_eq rfl }

/-- The table of the change was replaced by one that differs in the cell only. -/
theorem OwnCell.of_setTable {ch : Change} {key : Key} {db db' : Db} {t t' : CrrTable}
    (ht : db.findTable ch.tbl = some t) (hframe : CellFrame db.nextDbVersion ch key t t')
    (h : db'.tables = (db.setTable t').tables) :
    OwnCell ch key ⟨db, false⟩ ⟨db', false⟩ := by
  have hname : t'.info.tblName = ch.tbl := by
    rw [CrrTable.info, hframe.schema]
    exact findTable_name ht
  have hset (name : Text) : db'.findTable name =
      if name = ch.tbl then some t' else db.findTable name := by
    rw [← findTable_setTable ht hname, Db.findTable, h]
    rfl
  exact {
    others := fun name hne => (hset name).trans (if_neg hne)
    missing := fun hnone => by
      rw [ht] at hnone
      cases hnone
    own := fun u hu => by
      obtain rfl := Option.some.inj (ht.symm.trans hu)
      exact ⟨t', (hset _).trans (if_pos rfl), hframe⟩
    syncBit := rfl
    logged := Conn.write_eq rfl }

section Sql

variable [Sqlite] [Affinity]

/-- SQL reads the names of the change's table back, and the key is written as its key
columns store it. -/
def Db.TakesKeyAsWritten (db : Db) (ch : Change) : Prop :=
  ∀ t ∈ db.findTable ch.tbl, t.info.PlainNames ∧ KeyAsStored t.info ch.pk

instance (db : Db) (ch : Change) : Decidable (db.TakesKeyAsWritten ch) :=
  inferInstanceAs (Decidable (∀ t ∈ db.findTable ch.tbl, _))

end Sql

end CrSqlite
