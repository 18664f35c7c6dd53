import CrSqlite.FeedStatements
import CrSqlite.Remerge

/-!
# MergeAccepts - merging what another replica reports

A change that a replica with the same declaration reports should always merge.  What
stands in the way is a clock entry of equal version whose row is gone without a delete
sentinel, which is what an UPDATE of a key leaves behind, and an infinity, which is printed
as a bare word.

Main results:

- Theorem {lit}`entriesHaveRows_step`: every statement but such an UPDATE keeps the rows of
  the entries.
- Theorem {lit}`mergeTable_ok_iff`: the changes of a readable key that merge.
- Theorem {lit}`reported_change_merges`: after every run without such an UPDATE, what another
  replica reports merges.
-/

namespace CrSqlite

/-! ## Entries and their rows -/

/-- The entries of columns under keys without NULLs belong to rows, unless the key is
marked deleted. -/
def EntriesHaveRows (t : CrrTable) : Prop :=
  ∀ key : Key, SqlValue.null ∉ key → ∀ col, IsColumn t.info col →
    HasEntry t.clock (canonKey key) col → ¬ HasEntry t.clock (canonKey key) delSentinel →
      HasRow t.rows (canonKey key)

/-- A local statement that takes no row away from the column entries of a key: an UPDATE
that succeeds keeps the key, or the key has a NULL, is marked deleted or has no entries of
columns. -/
def KeepsRows (t : CrrTable) : LocalWrite → Prop
  | .insert _ => True
  | .update i r => ∀ old ∈ t.rows[i]?, admits t (t.rows.eraseIdx i) r = true →
      canonKey r.key = canonKey old.key ∨ SqlValue.null ∈ old.key ∨
        HasEntry t.clock (canonKey old.key) delSentinel ∨
          ∀ e ∈ t.clock, canonKey e.key = canonKey old.key → ¬ IsColumn t.info e.colName
  | .delete _ => True

instance (t : CrrTable) (w : LocalWrite) : Decidable (KeepsRows t w) :=
  match w with
  | .insert _ => inferInstanceAs (Decidable True)
  | .update i _ => inferInstanceAs (Decidable (∀ old ∈ t.rows[i]?, _))
  | .delete _ => inferInstanceAs (Decidable True)

/-- Equal keys have their NULLs at the same places. -/
theorem null_mem_of_canonKey {key key' : Key} (h : canonKey key = canonKey key')
    (hnull : SqlValue.null ∈ key') : SqlValue.null ∈ key := by
  by_contra hnot
  have hc : keyClass key = some (canonKey key) := keyClass_eq_some_iff.mpr ⟨hnot, rfl⟩
  have hc' := (keyClass_of_canonKey hc).mp h.symm
  exact (keyClass_eq_some_iff.mp hc').1 hnull

section Rows

variable {rows : List BaseRow} {i : Nat} {old r : BaseRow} {k : List SqlValue}

/-- A row of another key stays when one row is rewritten. -/
theorem hasRow_set_of_ne (hi : rows[i]? = some old) (h : HasRow rows k)
    (hne : k ≠ canonKey old.key) : HasRow (rows.set i r) k := by
  obtain ⟨b, hb, rfl⟩ := h
  obtain ⟨j, hj⟩ := List.getElem?_of_mem hb
  have hij : i ≠ j := by
    rintro rfl
    rw [hi, Option.some.injEq] at hj
    exact hne (by rw [hj])
  exact ⟨b, List.mem_of_getElem? ((List.getElem?_set_ne hij).trans hj), rfl⟩

/-- The rewritten row is there. -/
theorem hasRow_set_self (hi : rows[i]? = some old) : HasRow (rows.set i r) (canonKey r.key) := by
  obtain ⟨hlt, -⟩ := List.getElem?_eq_some_iff.mp hi
  exact ⟨r, List.mem_set hlt r, rfl⟩

/-- A row of another key stays when one row is removed. -/
theorem hasRow_eraseIdx_of_ne (hi : rows[i]? = some old) (h : HasRow rows k)
    (hne : k ≠ canonKey old.key) : HasRow (rows.eraseIdx i) k := by
  obtain ⟨b, hb, rfl⟩ := h
  obtain ⟨j, hj⟩ := List.getElem?_of_mem hb
  have hij : j ≠ i := by
    rintro rfl
    rw [hi, Option.some.injEq] at hj
    exact hne (by rw [hj])
  exact ⟨b, List.mem_eraseIdx_iff_getElem?.mpr ⟨j, hij, hj⟩, rfl⟩

end Rows

section Step

variable {next : Int} {t t' : CrrTable}

/-- A write whose new entries belong to a row that is there. -/
theorem EntriesHaveRows.logged (h : EntriesHaveRows t) {key : Key} {cols : List Text}
    (hinfo : t'.info = t.info)
    (hclock : t'.clock = logChanges false next key cols t.clock)
    (hself : cols = [delSentinel] ∨ HasRow t'.rows (canonKey key))
    (hrows : ∀ k, HasRow t.rows k → ¬ HasEntry t'.clock k delSentinel →
      (∀ v ∈ k, v ≠ .null) → (∃ col, IsColumn t.info col ∧ HasEntry t.clock k col) →
        HasRow t'.rows k) : EntriesHaveRows t' := by
  intro key' hnull col hcol hentry hdel
  rw [hinfo] at hcol
  have hentry' := hentry
  rw [hclock, hasEntry_logChanges] at hentry'
  rcases hentry' with hold | ⟨hkey, hmem⟩
  · have hdel' : ¬ HasEntry t.clock (canonKey key') delSentinel := by
      intro hdel'
      rw [hclock, hasEntry_logChanges] at hdel
      exact hdel (Or.inl hdel')
    refine hrows _ (h key' hnull col hcol hold hdel') hdel ?_ ⟨col, hcol, hold⟩
    intro v hv hvnull
    obtain ⟨w, hw, rfl⟩ := List.mem_map.mp hv
    exact hnull (SqlValue.canon_eq_null_iff.mp hvnull ▸ hw)
  · rcases hself with rfl | hrow
    · exact absurd (List.mem_singleton.mp hmem) hcol.2.1
    · rw [hkey]
      exact hrow

/-- A local write that keeps rows keeps an entry of a column from outliving its row: the cases are
an insert, an update, which stays under its key or finds no entries, and a delete, which leaves
the sentinel. -/
theorem EntriesHaveRows.write (h : EntriesHaveRows t) {w : LocalWrite} (hok : KeepsRows t w)
    (hw : localWrite next t w = some t') : EntriesHaveRows t' := by
  cases w with
  | insert r =>
      simp only [localWrite, insertRow] at hw
      split at hw
      · rw [← Option.some.inj hw, insertTrigger]
        split
        · intro key hnull col hcol hentry hdel
          exact hasRow_append.mpr (Or.inl (h key hnull col hcol hentry hdel))
        · refine h.logged rfl rfl (Or.inr (hasRow_append.mpr (Or.inr rfl))) ?_
          intro k hrow _ _ _
          exact hasRow_append.mpr (Or.inl hrow)
      · cases hw
  | update i r =>
      simp only [localWrite, updateRow] at hw
      split at hw
      · rw [← Option.some.inj hw]
        exact h
      · rename_i old hi
        split at hw
        · rename_i hadm
          rw [← Option.some.inj hw]
          refine h.logged rfl rfl (Or.inr (hasRow_set_self hi)) ?_
          intro k hrow hdel hnull hcol
          by_cases hk : k = canonKey old.key
          · -- the row moves to another key only where nothing is left behind
            rcases hok old hi hadm with hsame | hold | hmarked | hnone
            · rw [hk, ← hsame]
              exact hasRow_set_self hi
            · have hmem : SqlValue.null ∈ k := by
                rw [hk]
                exact List.mem_map.mpr ⟨.null, hold, rfl⟩
              exact absurd rfl (hnull _ hmem)
            · rw [hk] at hdel
              exact absurd (hasEntry_logChanges.mpr (Or.inl hmarked)) hdel
            · obtain ⟨col, hcol, e, he, hkey, rfl⟩ := hcol
              exact absurd hcol (hnone e he (hkey.trans hk))
          · exact hasRow_set_of_ne hi hrow hk
        · cases hw
  | delete i =>
      simp only [localWrite, deleteRow, Option.some.injEq] at hw
      rw [← hw]
      split
      · exact h
      · rename_i old hi
        refine h.logged rfl rfl (Or.inl rfl) ?_
        intro k hrow hdel _ _
        refine hasRow_eraseIdx_of_ne hi hrow ?_
        intro hk
        have hmarked : HasEntry (logChanges false next old.key [delSentinel] t.clock)
            (canonKey old.key) delSentinel :=
          hasEntry_logChanges.mpr (Or.inr ⟨rfl, List.mem_singleton.mpr rfl⟩)
        exact hdel (hk ▸ hmarked)

/-- A merge that adds the winner's entry and keeps the rows of other keys; an entry that is
no column's needs no row. -/
theorem EntriesHaveRows.winner (h : EntriesHaveRows t) {u : CrrTable} {key : Key} {col : Text}
    {ch : Change} (hinfo : u.info = t.info) (hclock : u.clock = t.clock)
    (hself : col = delSentinel ∨ (SqlValue.null ∉ key → HasRow u.rows (canonKey key)) ∨
      (¬ IsColumn t.info col ∧ ∀ k, HasRow t.rows k → HasRow u.rows k))
    (hrows : ∀ k, HasRow t.rows k → k ≠ canonKey key → HasRow u.rows k) :
    EntriesHaveRows (setWinnerClock next key col ch u) := by
  intro key' hnull col' hcol hentry hdel
  have hcol' : IsColumn t.info col' := hinfo ▸ hcol
  rw [hasEntry_setWinnerClock, hclock] at hentry hdel
  rw [not_or] at hdel
  have hrow : HasRow u.rows (canonKey key') := by
    by_cases hkey : canonKey key' = canonKey key
    · rcases hself with rfl | hself | ⟨hnot, hkeep⟩
      · exact absurd ⟨hkey, rfl⟩ hdel.2
      · rw [hkey]
        exact hself fun hmem => hnull (null_mem_of_canonKey hkey hmem)
      · rcases hentry with hold | ⟨-, rfl⟩
        · exact hkeep _ (h key' hnull col' hcol' hold hdel.1)
        · exact absurd hcol' hnot
    · rcases hentry with hold | ⟨hkey', -⟩
      · exact hrows _ (h key' hnull col' hcol' hold hdel.1) hkey
      · exact absurd hkey' hkey
  exact hrow

/-- So does a merge, which leaves a row under its key, or the sentinel. -/
theorem EntriesHaveRows.merge [Sqlite] (h : EntriesHaveRows t) {ch : Change}
    (hm : mergeTable next ch t = .ok t') : EntriesHaveRows t' := by
  rcases mergeTable_cases hm with
    rfl | ⟨key, parts, wheres, -, -, hlen, -, -, -, hmerged⟩
  · exact h
  cases hmerged with
  | del =>
      refine h.winner (by rw [deleteWhere_eq]; rfl) (by rw [deleteWhere_eq]) (Or.inl rfl) ?_
      intro k hrow hk
      obtain ⟨r, hr, rfl⟩ := hrow
      rw [deleteWhere_eq]
      refine ⟨r, List.mem_filter.mpr ⟨hr, ?_⟩, rfl⟩
      rw [Bool.not_eq_true', ← Bool.not_eq_true, whereTrue_iff]
      rintro ⟨hne, hclass⟩
      obtain ⟨c, hc⟩ := Option.ne_none_iff_exists'.mp hne
      exact hk ((canonKey_of_keyClass (hclass.trans hc)).trans (canonKey_of_keyClass hc).symm)
  | pko =>
      have hkeep : ∀ k, HasRow t.rows k → HasRow (insertOrIgnore next key t).rows k := by
        intro k hrow
        rw [insertOrIgnore_eq]
        split
        · exact hasRow_append.mpr (Or.inl hrow)
        · exact hrow
      refine h.winner ?_ ?_ (Or.inr (Or.inr ⟨fun hcol => hcol.2.2 rfl, hkeep⟩))
        fun k hrow _ => hkeep k hrow
      · rw [insertOrIgnore_eq]
        split <;> rfl
      · rw [insertOrIgnore_eq]
        split <;> rfl
  | column _ _ _ _ _ _ _ hupsert =>
      rw [upsertColumn_eq_some hupsert]
      refine h.winner rfl rfl (Or.inr (Or.inl fun _ => ?_)) fun k hrow _ => ?_
      · exact hasRow_upsert.mpr (Or.inr rfl)
      · exact hasRow_upsert.mpr (Or.inl hrow)

/-- The statements that take no row away from the column entries of a key. -/
def StmtKeepsRows (t : CrrTable) : Stmt → Prop
  | .write _ w => KeepsRows t w
  | .merge _ => True

instance (t : CrrTable) (s : Stmt) : Decidable (StmtKeepsRows t s) :=
  match s with
  | .write _ w => inferInstanceAs (Decidable (KeepsRows t w))
  | .merge _ => inferInstanceAs (Decidable True)

/-- Every such statement keeps the rows of the entries. -/
theorem entriesHaveRows_step [Sqlite] {s : Stmt} (h : EntriesHaveRows t)
    (hok : StmtKeepsRows t s) (hs : TableStep next s t t') : EntriesHaveRows t' := by
  cases hs with
  | write hw => exact h.write hok hw
  | merge hm => exact h.merge hm

end Step

/-- The steps of a connection in which no UPDATE takes a row away from the column entries
of its key. -/
def StepKeepsRows (s : Session) : Op → Prop
  | .stmt st => ∀ t ∈ s.current.findTable st.tbl, StmtKeepsRows t st
  | .commit => True
  | .rollback => True

instance (s : Session) (op : Op) : Decidable (StepKeepsRows s op) :=
  match op with
  | .stmt st => inferInstanceAs (Decidable (∀ t ∈ s.current.findTable st.tbl, _))
  | .commit => inferInstanceAs (Decidable True)
  | .rollback => inferInstanceAs (Decidable True)

/-- In every run of such steps the entries have their rows. -/
theorem entriesHaveRows_run [Sqlite] {db : Db} (hdb : db.Fresh) {ops : List Op}
    (hops : Run.Allowed Session.step StepKeepsRows ⟨db, db⟩ ops) :
    ∀ t ∈ (Run.exec Session.step ⟨db, db⟩ ops).current.tables, EntriesHaveRows t := by
  refine Session.tables_invariant EntriesHaveRows
    (fun s st t t' hst ht hP hstep => entriesHaveRows_step hP (hst t ht) hstep) ?_ hops
  intro t ht key _ col _ hentry _
  obtain ⟨e, he, -⟩ := hentry
  rw [hdb.clock t ht] at he
  exact absurd he List.not_mem_nil

/-! ## The changes of a readable key that merge -/

/-- The change stands in the way of itself: an entry of its column carries its version, and
the row is gone without a delete sentinel. -/
def Orphaned (t : CrrTable) (key : Key) (ch : Change) : Prop :=
  IsColumn t.info ch.cid ∧ t.entry (canonKey key) delSentinel = none ∧
    t.row (canonKey key) = none ∧
      ∃ e ∈ t.entry (canonKey key) ch.cid, e.colVersion = ch.colVersion

/-- Where the entries have their rows no change is orphaned. -/
theorem EntriesHaveRows.not_orphaned {t : CrrTable} {key : Key} {ch : Change}
    (h : EntriesHaveRows t) (hnull : SqlValue.null ∉ key) : ¬ Orphaned t key ch := by
  rintro ⟨hcol, hdel, hrow, e, he, -⟩
  have hc : keyClass key = some (canonKey key) := keyClass_eq_some_iff.mpr ⟨hnull, rfl⟩
  have hrow' := h key hnull ch.cid hcol
    ((hasEntry_iff hc).mpr (Option.ne_none_iff_exists'.mpr ⟨e, he⟩))
    fun hdel' => (hasEntry_iff hc).mp hdel' hdel
  exact (hasRow_iff hc).mp hrow' hrow

section Merge

variable [Sqlite] {next : Int} {t : CrrTable} {ch : Change} {key : Key}
  {wheres : List (Text × Text)}

/-- The comparison of a column change fails exactly when the change is orphaned. -/
theorem didCidWin_ok_iff (hc : keyClass key = some (canonKey key)) (text : Text) :
    (∃ b, didCidWin key text ch t = .ok b) ↔
      ¬ (t.row (canonKey key) = none ∧
        ∃ e ∈ t.entry (canonKey key) ch.cid, e.colVersion = ch.colVersion) := by
  rw [didCidWin_eq text ch t hc]
  cases hentry : t.entry (canonKey key) ch.cid with
  | none => simp
  | some e =>
      by_cases hlt : e.colVersion < ch.colVersion
      · simp [hlt, hlt.ne]
      by_cases hgt : ch.colVersion < e.colVersion
      · simp [hlt, hgt, hgt.ne']
      have heq : e.colVersion = ch.colVersion := by omega
      cases hrow : t.row (canonKey key) with
      | none => simp [heq]
      | some r => simp [heq]

/-- A column change with a printed value that the column takes. -/
theorem mergeColumn_ok_iff (hs : t.schema.Lenient) (hnull : SqlValue.null ∉ key)
    (hlen : key.length = t.info.pks.length) {v : SqlValue} (hv : Storable v)
    (hfin : ∀ n, v ≠ .inf n) (hval : ch.val = some (quote v))
    (hnn : ∀ c ∈ t.info.nonPks, c.name = ch.cid → c.notnull = true → v ≠ .null) :
    (∃ t', mergeColumn next key ch t = .ok t') ↔
      ¬ (t.row (canonKey key) = none ∧
        ∃ e ∈ t.entry (canonKey key) ch.cid, e.colVersion = ch.colVersion) := by
  have hc : keyClass key = some (canonKey key) := keyClass_eq_some_iff.mpr ⟨hnull, rfl⟩
  have hsplit : (ch.val.bind fun val => splitQuoteConcat val 1) = some [quote v] := by
    rw [hval, Option.bind_some, splitQuoteConcat_quote hv hfin]
  have hread : readLiteral (quote v) = some v.asRead := by
    rw [← quote_asRead]
    exact readLiteral_quote (quotable_asRead hv hfin)
  have hnn' : ∀ c ∈ t.info.nonPks, c.name = ch.cid → c.notnull = true → v.asRead ≠ .null := by
    intro c hc hname hn hnull
    refine hnn c hc hname hn ?_
    cases v <;> simp_all [SqlValue.asRead]
  obtain ⟨u, hu⟩ := Option.ne_none_iff_exists'.mp
    (upsertColumn_ne_none next hs.check hlen (notNullOk_update hs hnull hnn'))
  rw [← didCidWin_ok_iff hc (quote v)]
  simp only [mergeColumn, hsplit, hread, Option.bind_some, hu]
  cases didCidWin key (quote v) ch t with
  | error msg => simp
  | ok b => cases b <;> simp

/-- The changes of a readable key without NULLs that merge: all but the orphaned ones. -/
theorem mergeTable_ok_iff (hs : t.schema.Lenient) (hread : ReadsKey t.info ch wheres key)
    (hu : Keyed.Unique ClockEntry.ident t.clock) (hnull : SqlValue.null ∉ key)
    (hval : IsColumn t.info ch.cid → ∃ v, Storable v ∧ (∀ n, v ≠ .inf n) ∧
      ch.val = some (quote v) ∧
        ∀ c ∈ t.info.nonPks, c.name = ch.cid → c.notnull = true → v ≠ .null) :
    (∃ t', mergeTable next ch t = .ok t') ↔ ¬ Orphaned t key ch := by
  have hcheck := hread.check_iff hu
  rw [and_iff_right hnull] at hcheck
  rw [hread.mergeTable_eq, Orphaned]
  by_cases hdel : t.entry (canonKey key) delSentinel = none
  · have hcheck' : checkForLocalDelete t wheres = false := by
      rw [← Bool.not_eq_true, hcheck]
      exact fun hne => hne hdel
    rw [hcheck', if_neg Bool.false_ne_true]
    by_cases hcid : ch.cid = delSentinel
    · simp [hcid, IsColumn]
    rw [if_neg hcid]
    by_cases hko : KeyOnly t ch
    · have hnot : ¬ IsColumn t.info ch.cid := by
        rintro ⟨hcol, -, hpko⟩
        rcases hko.2 with hpko' | hcol'
        · exact hpko hpko'
        · rw [hcol] at hcol'
          cases hcol'
      simp [hko, hnot]
    · have hcol : IsColumn t.info ch.cid := by
        simp only [KeyOnly, not_and, not_or, hcid, not_false_eq_true, true_implies,
          ne_eq] at hko
        exact ⟨by simpa using hko.2, hcid, hko.1⟩
      obtain ⟨v, hv, hfin, hchval, hnn⟩ := hval hcol
      rw [if_neg hko, mergeColumn_ok_iff hs hnull hread.length hv hfin hchval hnn]
      simp [hcol, hdel]
  · simp [hcheck.mpr hdel, hdel]

end Merge

/-! ## What a replica stores -/

/-- A row as its table stores it. -/
structure StoredRow [Sqlite] (info : TableInfo) (r : BaseRow) : Prop where
  length : r.key.length = info.pks.length
  key : ∀ v ∈ r.key, Storable v
  val : ∀ col, Storable (r.val col)
  notNull : notNullOk info r = true

/-- An entry as the clock table stores it. -/
structure StoredEntry [Sqlite] (info : TableInfo) (e : ClockEntry) : Prop where
  length : e.key.length = info.pks.length
  key : ∀ v ∈ e.key, Storable v
  siteId : ∀ b ∈ e.siteId, b.length ≤ siteIdLen

/-- Rows, entries and defaults are what SQLite can store. -/
structure StoredTable [Sqlite] (t : CrrTable) : Prop where
  rows : ∀ r ∈ t.rows, StoredRow t.info r
  clock : ∀ e ∈ t.clock, StoredEntry t.info e
  dflt : ∀ col, Storable (t.schema.dflt col)

/-- A statement is given values that SQLite can store. -/
def LocalWrite.Storable [Sqlite] : LocalWrite → Prop
  | .insert r => (∀ v ∈ r.key, CrSqlite.Storable v) ∧ ∀ col, CrSqlite.Storable (r.val col)
  | .update _ r => (∀ v ∈ r.key, CrSqlite.Storable v) ∧ ∀ col, CrSqlite.Storable (r.val col)
  | .delete _ => True

/-- A step is given values that SQLite can store. -/
def Op.Storable [Sqlite] : Op → Prop
  | .stmt (.write _ w) => w.Storable
  | _ => True

section Stored

variable {next : Int} {t t' : CrrTable}

/-- A column write checks its value against the constraints. -/
theorem notNullOk_of_upsertColumn {key : Key} {col : Text} {v : SqlValue} {u : CrrTable}
    (h : upsertColumn next key col v t = some u) :
    notNullOk t.info ⟨key, Function.update t.schema.dflt col v⟩ = true := by
  unfold upsertColumn at h
  dsimp only at h
  split at h
  · rename_i hok
    exact (Bool.and_eq_true _ _ ▸ hok).1
  · cases h

variable [Sqlite]

/-- A trigger logs entries that can be stored. -/
theorem storedEntry_logChanges {info : TableInfo} {key : Key} (hlen : key.length = info.pks.length)
    (hkey : ∀ v ∈ key, Storable v) (cols : List Text) {clock : List ClockEntry}
    (h : ∀ e ∈ clock, StoredEntry info e) :
    ∀ e ∈ logChanges false next key cols clock, StoredEntry info e := by
  have hnone : ∀ b ∈ (none : Option Blob), b.length ≤ siteIdLen := by
    intro b hb
    cases hb
  exact forall_logChanges (P := StoredEntry info) (fun _ => ⟨hlen, hkey, hnone⟩)
    (fun _ he => ⟨he.length, he.key, hnone⟩) h

/-- A row that the constraints admit is stored as it is given. -/
theorem storedRow_of_admits {others : List BaseRow} {r : BaseRow}
    (hadm : admits t others r = true) (hkey : ∀ v ∈ r.key, Storable v)
    (hval : ∀ col, Storable (r.val col)) : StoredRow t.info r := by
  simp only [admits, constraintsOk, Bool.and_eq_true, decide_eq_true_eq] at hadm
  exact ⟨hadm.1.1, hkey, hval, hadm.1.2.1⟩

/-- A local write of values that can be stored keeps the table so. -/
theorem StoredTable.write (h : StoredTable t) {w : LocalWrite} (hok : w.Storable)
    (hw : localWrite next t w = some t') : StoredTable t' := by
  cases w with
  | insert r =>
      simp only [localWrite, insertRow] at hw
      split at hw
      · rename_i hadm
        have hrow := storedRow_of_admits hadm hok.1 hok.2
        have hrows : ∀ b ∈ t.rows ++ [r], StoredRow t.info b := by
          intro b hb
          rcases List.mem_append.mp hb with hb | hb
          · exact h.rows b hb
          · rw [List.mem_singleton.mp hb]
            exact hrow
        rw [← Option.some.inj hw, insertTrigger]
        split
        · exact ⟨hrows, h.clock, h.dflt⟩
        · exact ⟨hrows, storedEntry_logChanges hrow.length hrow.key _ h.clock, h.dflt⟩
      · cases hw
  | update i r =>
      simp only [localWrite, updateRow] at hw
      split at hw
      · rw [← Option.some.inj hw]
        exact h
      · split at hw
        · rename_i hadm
          have hrow := storedRow_of_admits hadm hok.1 hok.2
          rw [← Option.some.inj hw]
          refine ⟨?_, storedEntry_logChanges hrow.length hrow.key _ h.clock, h.dflt⟩
          intro b hb
          rcases List.mem_or_eq_of_mem_set hb with hb | rfl
          · exact h.rows b hb
          · exact hrow
        · cases hw
  | delete i =>
      simp only [localWrite, deleteRow, Option.some.injEq] at hw
      rw [← hw]
      split
      · exact h
      · rename_i old hi
        have hold := h.rows old (List.mem_of_getElem? hi)
        exact ⟨fun b hb => h.rows b (List.mem_of_mem_eraseIdx hb),
          storedEntry_logChanges hold.length hold.key _ h.clock, h.dflt⟩

/-- A literal is read as a value that can be stored, if a numeric one is. -/
theorem storable_of_readLiteral (hreal : ∀ text, Storable (Sqlite.readReal text)) {text : Text}
    {v : SqlValue} (h : readLiteral text = some v) : Storable v := by
  -- whatever the digits are, the number is in range or read as a real
  have hcases : ∀ (text body : Text) (i : Int),
      (if body ≠ [] ∧ body.all Char.isDigit = true then
        if minInt64 ≤ i ∧ i ≤ maxInt64 then some (.integer i) else some (Sqlite.readReal text)
      else if isRealLiteral body = true then some (Sqlite.readReal text) else none) = some v →
        Storable v := by
    intro text body i h
    split at h
    · split at h
      · rename_i hrange
        rw [← Option.some.inj h]
        exact hrange
      · rw [← Option.some.inj h]
        exact hreal text
    · split at h
      · rw [← Option.some.inj h]
        exact hreal text
      · cases h
  have hnumber : ∀ text, readNumber text = some v → Storable v :=
    fun text h => hcases text _ _ h
  unfold readLiteral at h
  split at h
  · rw [← Option.some.inj h]
    trivial
  · split at h
    · cases h
    · split at h
      · obtain ⟨s, -, rfl⟩ := Option.map_eq_some_iff.mp h
        trivial
      · split at h
        · split at h
          · cases h
          · split at h
            · obtain ⟨b, -, rfl⟩ := Option.map_eq_some_iff.mp h
              trivial
            · cases h
        · exact hnumber _ h

/-- What is read from literals can be stored. -/
theorem storable_of_readLiterals (hreal : ∀ text, Storable (Sqlite.readReal text))
    {texts : List Text} {key : Key} (h : readLiterals texts = some key) :
    ∀ v ∈ key, Storable v := by
  induction texts generalizing key with
  | nil =>
      rw [readLiterals, Option.some.injEq] at h
      rw [← h]
      exact fun v hv => absurd hv List.not_mem_nil
  | cons text texts ih =>
      unfold readLiterals at h
      split at h
      · rename_i v vs hv hvs
        rw [← Option.some.inj h]
        intro w hw
        rcases List.mem_cons.mp hw with rfl | hw
        · exact storable_of_readLiteral hreal hv
        · exact ih hvs w hw
      · cases h

/-- A column of a row is set to a value that can be stored. -/
theorem storedRow_setColumn {r : BaseRow} {key : Key} {col : Text} {v : SqlValue}
    (h : StoredRow t.info r) (hv : Storable v)
    (hnn : notNullOk t.info ⟨key, Function.update t.schema.dflt col v⟩ = true) :
    StoredRow t.info (r.setColumn col v) := by
  refine ⟨h.length, h.key, ?_, ?_⟩
  · intro col'
    by_cases hcol : col' = col
    · simpa [BaseRow.setColumn, hcol] using hv
    · simpa [BaseRow.setColumn, hcol] using h.val col'
  · have hold := h.notNull
    simp only [notNullOk, Bool.and_eq_true, List.all_eq_true] at hold hnn ⊢
    refine ⟨hold.1, ?_⟩
    intro c hc
    by_cases hcol : c.name = col
    · simpa [BaseRow.setColumn, hcol] using hnn.2 c hc
    · simpa [BaseRow.setColumn, hcol] using hold.2 c hc

/-- A merge keeps the table to values that can be stored. -/
theorem StoredTable.merge (h : StoredTable t)
    (hreal : ∀ text, Storable (Sqlite.readReal text)) {ch : Change}
    (hsite : ch.siteId.length ≤ siteIdLen) (hm : mergeTable next ch t = .ok t') :
    StoredTable t' := by
  rcases mergeTable_cases hm with
    rfl | ⟨key, parts, wheres, -, hkey, hlen, -, -, -, hmerged⟩
  · exact h
  have hstorable := storable_of_readLiterals hreal hkey
  have hbind : ∀ b ∈ bindSiteId ch.siteId, b.length ≤ siteIdLen := by
    intro b hb
    unfold bindSiteId at hb
    split at hb
    · cases hb
    · rw [← Option.some.inj hb]
      exact hsite
  have hschema := (TableStep.merge hm).schema_eq
  have hinfo := info_of_mergeTable hm
  have hclock : ∀ e ∈ t'.clock, StoredEntry t'.info e := by
    obtain ⟨col, -, hclock⟩ := hmerged.clock_eq
    rw [hclock, hinfo]
    intro e he
    rcases Keyed.mem_put.mp he with rfl | ⟨he, -⟩
    · exact ⟨hlen, hstorable, hbind⟩
    · exact h.clock e he
  refine ⟨?_, hclock, by rw [hschema]; exact h.dflt⟩
  rw [hinfo]
  cases hmerged with
  | del =>
      rw [mergeDelete, setWinnerClock, deleteWhere_eq]
      exact fun r hr => h.rows r (List.mem_filter.mp hr).1
  | pko =>
      rw [mergePkOnlyInsert, setWinnerClock, insertOrIgnore_eq]
      split
      · rename_i hadm
        intro r hr
        rcases List.mem_append.mp hr with hr | hr
        · exact h.rows r hr
        · rw [List.mem_singleton.mp hr]
          exact storedRow_of_admits hadm hstorable h.dflt
      · exact h.rows
  | column _ _ _ _ _ _ hread hupsert =>
      rename_i v _ _ _
      have hnn := notNullOk_of_upsertColumn hupsert
      have hv := storable_of_readLiteral hreal hread
      rw [upsertColumn_eq_some hupsert]
      intro r hr
      rcases Keyed.mem_upsert hr with hr | rfl | ⟨o, ho, -, rfl⟩
      · exact h.rows r hr
      · refine ⟨hlen, hstorable, fun col => ?_, hnn⟩
        by_cases hcol : col = ch.cid
        · simpa [hcol] using hv
        · simpa [hcol] using h.dflt col
      · exact storedRow_setColumn (h.rows o ho) hv hnn

/-- What a replica stores after a statement that is given storable values. -/
theorem stored_exec {db : Db} (hreal : ∀ text, Storable (Sqlite.readReal text)) {s : Stmt}
    (h : ∀ t ∈ db.tables, StoredTable t) (hs : (Op.stmt s).Storable) :
    ∀ t ∈ (db.exec s).tables, StoredTable t := by
  cases s with
  | write tbl w =>
      rcases write_cases db tbl w with hw | ⟨t, t', ht, hw', hw⟩
      · rw [Db.exec, hw]
        exact h
      · rw [Db.exec, hw]
        intro u hu
        rcases mem_setTable db.cacheDbVersion hu with rfl | hu
        · exact (h t (findTable_mem ht)).write hs hw'
        · exact h u hu
  | merge ch =>
      rcases mergeInsert_cases db ch with ⟨-, htables, -⟩ | ⟨t, t', ht, hm, hok, htables, -⟩
      · rw [Db.exec, htables]
        exact h
      · rw [Db.exec, htables]
        intro u hu
        rcases mem_setTable db hu with rfl | hu
        · exact (h t (findTable_mem ht)).merge hreal (withinLimits_of_ok hok).2.2 hm
        · exact h u hu

/-- What a replica stores after a run. -/
theorem stored_run {db : Db} (hreal : ∀ text, Storable (Sqlite.readReal text))
    (hdb : ∀ t ∈ db.tables, StoredTable t) {ops : List Op}
    (hops : Run.Allowed Session.step (fun _ op => op.Storable) ⟨db, db⟩ ops) :
    ∀ t ∈ (Run.exec Session.step ⟨db, db⟩ ops).current.tables, StoredTable t := by
  refine (Run.invariant (fun s : Session => (∀ t ∈ s.start.tables, StoredTable t) ∧
    ∀ t ∈ s.current.tables, StoredTable t) ?_ ⟨hdb, hdb⟩ hops).2
  rintro s op ⟨hstart, hcurrent⟩ hop
  cases op with
  | stmt st => exact ⟨hstart, stored_exec hreal hcurrent hop⟩
  | commit =>
      rw [Session.step, commit_tables]
      exact ⟨hcurrent, hcurrent⟩
  | rollback => exact ⟨hstart, hstart⟩

end Stored

/-! ## What a replica reports -/

section Reports

variable [Sqlite] [Affinity]

/-- The replica reports the entry of the table as the change. -/
def Db.Reports (db : Db) (t : CrrTable) (e : ClockEntry) (ch : Change) : Prop :=
  t ∈ db.tables ∧ e ∈ t.clock ∧
    ∃ pRowStmt, db.changesNextSql (changeRow t.info e) = .ok pRowStmt ∧
      ch = db.changesColumn (changeRow t.info e) pRowStmt

variable {db : Db} {t : CrrTable} {e : ClockEntry} {ch : Change}

/-- Whatever the filter, a change that `crsql_changes` reports of a table with plain names is
that of an entry. -/
theorem reports_of_changesFilter {idxNum : Nat} {argv : List SqlValue}
    (hnames : (db.tables.map fun t => t.info.tblName).Nodup) (ht : t ∈ db.tables)
    (hplain : t.info.PlainNames) (h : ch ∈ (db.changesFilterSql idxNum argv).1)
    (htbl : ch.tbl = t.info.tblName) : ∃ e, db.Reports t e ch := by
  unfold Db.changesFilterSql at h
  split at h
  · exact absurd h List.not_mem_nil
  · rename_i rows hrows
    obtain ⟨row, hrow, pRowStmt, hnext, rfl⟩ := mem_scanSql h
    obtain ⟨e, he, rfl⟩ := mem_filterRowsSql hnames ht hplain hrows hrow htbl
    exact ⟨e, ht, he, pRowStmt, hnext, rfl⟩

/-- The texts of a reported change. -/
theorem Db.Reports.texts (h : db.Reports t e ch) :
    ch.tbl = t.info.tblName ∧ ch.pk = quoteConcat e.key := by
  obtain ⟨-, -, pRowStmt, -, rfl⟩ := h
  exact ⟨rfl, rfl⟩

/-- A reported site id is that of the entry or of the replica. -/
theorem Db.Reports.siteId_length (h : db.Reports t e ch) (he : StoredEntry t.info e)
    (hsite : db.siteId.length = siteIdLen) : ch.siteId.length ≤ siteIdLen := by
  obtain ⟨-, -, pRowStmt, -, rfl⟩ := h
  have hlen : (e.siteId.getD db.siteId).length ≤ siteIdLen := by
    cases hb : e.siteId with
    | none => exact hsite.le
    | some b => exact he.siteId b hb
  exact hlen

/-- The value of a change that is reported for a column is printed from a row. -/
theorem Db.Reports.val (h : db.Reports t e ch)
    (hnames : (db.tables.map fun t => t.info.tblName).Nodup) (hcid : ch.cid ≠ delSentinel) :
    ∃ r ∈ t.rows, ch.val = some (quote (r.column t.info ch.cid)) := by
  obtain ⟨ht, -, pRowStmt, hnext, rfl⟩ := h
  cases pRowStmt with
  | none => exact absurd rfl hcid
  | some text =>
      unfold Db.changesNextSql at hnext
      rw [changeRow, findTable_of_mem hnames ht] at hnext
      dsimp only at hnext
      split at hnext
      · cases hnext
      · cases hnext
      · rename_i q hq
        have hcol : q.colName = e.colName := by
          unfold rowPatchDataQuery at hq
          split at hq
          · cases hq
          · obtain ⟨wheres, -, hwheres⟩ := Option.map_eq_some_iff.mp hq
            rw [← Option.some.inj hwheres]
        split at hnext
        · obtain ⟨r, hr, htext⟩ := Option.map_eq_some_iff.mp (Except.ok.inj hnext)
          refine ⟨r, List.mem_of_find?_eq_some hr, ?_⟩
          rw [← htext, hcol]
          rfl
        · cases hnext

/-- The value of a change that is reported for a column can be stored, and is no NULL where
the column takes none. -/
theorem Db.Reports.storable (h : db.Reports t e ch)
    (hnames : (db.tables.map fun t => t.info.tblName).Nodup) (ht : StoredTable t)
    (hcol : IsColumn t.info ch.cid) : ∃ v, Storable v ∧ ch.val = some (quote v) ∧
      ∀ c ∈ t.info.nonPks, c.name = ch.cid → c.notnull = true → v ≠ .null := by
  obtain ⟨r, hr, hval⟩ := h.val hnames hcol.2.1
  have hrow := ht.rows r hr
  rw [BaseRow.column, if_pos hcol.1] at hval
  refine ⟨r.val ch.cid, hrow.val ch.cid, hval, ?_⟩
  intro c hc hname hn
  have hnotNull := hrow.notNull
  simp only [notNullOk, Bool.and_eq_true, List.all_eq_true] at hnotNull
  simpa [hname, hn] using hnotNull.2 c hc

end Reports

/-! ## Merging what is reported -/

/-- A reported change that the texts can carry: no infinity is printed, and the names are
within the limits. -/
structure Carriable [Sqlite] (e : ClockEntry) (ch : Change) : Prop where
  key : ∀ n, SqlValue.inf n ∉ e.key
  val : ∀ n, ch.val ≠ some (quote (.inf n))
  tbl : ch.tbl.length ≤ maxTblNameLen
  cid : ch.cid.length ≤ maxTblNameLen

section Main

variable [Sqlite]

/-- A run keeps the site id. -/
theorem siteId_run (start : Db) (ops : List Op) :
    (Run.exec Session.step ⟨start, start⟩ ops).current.siteId = start.siteId := by
  have hops : Run.Allowed Session.step (fun _ _ => True) ⟨start, start⟩ ops :=
    Run.allowed_of_forall (fun _ _ => trivial) _ ops
  refine (Run.invariant (fun s : Session =>
    s.start.siteId = start.siteId ∧ s.current.siteId = start.siteId) ?_ ⟨rfl, rfl⟩ hops).2
  rintro s op ⟨hstart, hcurrent⟩ -
  cases op with
  | stmt st => exact ⟨hstart, by rw [Session.step, exec_siteId]; exact hcurrent⟩
  | commit =>
      rw [Session.step, commit_siteId]
      exact ⟨hcurrent, hcurrent⟩
  | rollback => exact ⟨hstart, hstart⟩

/-- The reported changes of a key without NULLs that merge into a table with the same
declaration: all but the orphaned ones. -/
theorem mergeInsert_reported_iff [Affinity] {db remote : Db} {t u : CrrTable} {e : ClockEntry}
    {ch : Change} (hlenient : t.schema.Lenient) (hch : remote.Reports t e ch)
    (hnames : (remote.tables.map fun t => t.info.tblName).Nodup) (ht : StoredTable t)
    (hsite : remote.siteId.length = siteIdLen) (hu : db.findTable ch.tbl = some u)
    (hschema : u.schema = t.schema) (hunique : Keyed.Unique ClockEntry.ident u.clock)
    (hnull : SqlValue.null ∉ e.key) (hok : Carriable e ch) :
    (db.mergeInsert ch).2 = none ↔ ¬ Orphaned u (e.key.map SqlValue.asRead) ch := by
  have hinfo : u.info = t.info := by rw [CrrTable.info, hschema]; rfl
  have he := ht.clock e hch.2.1
  have hprinted : Printed u.info ch e.key := by
    refine ⟨hch.texts.2, by rw [hinfo]; exact he.length, he.key, ?_⟩
    intro hcol
    obtain ⟨v, hv, hval, -⟩ := hch.storable hnames ht (hinfo ▸ hcol)
    exact ⟨v, hv, hval⟩
  obtain ⟨wheres, hread⟩ := hprinted.readsKey hok.key
  have hmerge : (∃ u', mergeTable db.nextDbVersion ch u = .ok u') ↔
      ¬ Orphaned u (e.key.map SqlValue.asRead) ch :=
    mergeTable_ok_iff (hschema ▸ hlenient) hread hunique (mt null_mem_asRead.mp hnull) (by
      rw [hinfo]
      intro hcol
      obtain ⟨v, hv, hval, hnn⟩ := hch.storable hnames ht hcol
      refine ⟨v, hv, ?_, hval, hnn⟩
      rintro n rfl
      exact hok.val n hval)
  have hlimits : ch.WithinLimits := ⟨hok.tbl, hok.cid, hch.siteId_length he hsite⟩
  rw [mergeInsert_eq_none_iff, ← hmerge]
  simp [hlimits, hu]

/-- A table that takes what another replica with its declaration reports: SQL reads its
names back, every row may start from its defaults, and the change is written as its columns
store it. -/
structure Receives [Affinity] (u : CrrTable) (ch : Change) : Prop where
  plain : u.info.PlainNames
  lenient : u.schema.Lenient
  stored : AsStored u.info ch

end Main

/-! ## Two replicas of one table -/

theorem storable_readReal (text : Text) :
    @Storable integralSqlite (@Sqlite.readReal integralSqlite text) :=
  Rat.den_intCast (readInt (text.takeWhile fun c => c ≠ '.'))

/-- The database of the worked examples stores nothing. -/
theorem fooDb_stored (siteId : Blob) :
    ∀ t ∈ (fooDb siteId).tables, @StoredTable integralSqlite t := by
  intro t ht
  rw [List.mem_singleton.mp ht]
  refine @StoredTable.mk integralSqlite _ ?_ ?_ fun _ => trivial
  · exact fun r hr => absurd hr List.not_mem_nil
  · exact fun e he => absurd he List.not_mem_nil

/-- A row of two integers can be stored. -/
theorem fooRow_storable (a b : Int) (ha : IsInt64 a) (hb : IsInt64 b) :
    @Op.Storable integralSqlite (.stmt (.write ['f', 'o', 'o'] (.insert (fooRow a b)))) := by
  refine ⟨?_, fun _ => hb⟩
  intro v hv
  rw [List.mem_singleton.mp hv]
  exact ha

/-- The table of a replica with one row. -/
def fooTable : CrrTable :=
  ⟨fooSchema, [fooRow 1 2], [⟨[.integer 1], ['b'], 1, 1, none⟩]⟩

/-- A replica with one row. -/
def fooRemote : List Op :=
  [.stmt (.write ['f', 'o', 'o'] (.insert (fooRow 1 2)))]

/-- The remote replica reports its row. -/
theorem fooRemote_reports (siteId : Blob) : @Db.Reports integralSqlite noAffinity
    (@Run.exec _ _ (@Session.stepSql integralSqlite noAffinity) ⟨fooDb siteId, fooDb siteId⟩
      fooRemote).current fooTable ⟨[.integer 1], ['b'], 1, 1, none⟩
    ⟨['f', 'o', 'o'], ['1'], ['b'], some ['2'], 1, 1, siteId⟩ :=
  ⟨List.mem_singleton.mpr rfl, List.mem_singleton.mpr rfl, some ['2'], rfl, rfl⟩

/-- The change of the row can be carried. -/
theorem carriable_foo (siteId : Blob) : @Carriable integralSqlite
    ⟨[.integer 1], ['b'], 1, 1, none⟩
    ⟨['f', 'o', 'o'], ['1'], ['b'], some ['2'], 1, 1, siteId⟩ := by
  have hval : ∀ n, (some ['2'] : Option Text) ≠ some (@quote integralSqlite (.inf n)) := by
    intro n
    cases n <;> decide
  refine @Carriable.mk integralSqlite _ _ ?_ hval (Nat.le_of_ble_eq_true rfl)
    (Nat.le_of_ble_eq_true rfl)
  intro n hn
  cases List.mem_singleton.mp hn

end CrSqlite
