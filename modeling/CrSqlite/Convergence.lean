import CrSqlite.FeedJoin

/-!
# Convergence - replicas that exchange feeds end with the same rows

Any number of replicas write to their copies of one table and merge each other's feeds
in any order.  Once each has merged the feed of every other behind the last write, the
copies are the same, unless a write has left something that feeds do not carry over: a
key that was deleted before, a key with a NULL, or a value that printing changes.

Main results:

- Theorem {lit}`Local.write`: a local write of what can be carried over keeps a table
  in that form.
- Theorem {lit}`replicas_converge_run`: after every run of such writes and any syncs, a
  round of syncs between all pairs leaves the same rows everywhere.
- Theorem {lit}`reinserted_key_stays_on_one_replica`: a deleted key that is inserted
  again is never carried over.
-/

namespace CrSqlite

/-! ## Local writes -/

/-- A local statement on one row.  An UPDATE writes the columns outside the key. -/
inductive RowWrite where
  | insert (r : BaseRow)
  | update (i : Nat) (val : Text → SqlValue)
  | delete (i : Nat)

/-- The statement on a table. -/
def RowWrite.on (t : CrrTable) : RowWrite → LocalWrite
  | .insert r => .insert r
  | .update i val => .update i ⟨((t.rows[i]?).map BaseRow.key).getD [], val⟩
  | .delete i => .delete i

/-- A local statement of a replica. -/
def Db.writeRow (db : Db) (tbl : Text) (w : RowWrite) : Db :=
  match db.findTable tbl with
  | none => db
  | some t => db.write tbl (w.on t)

/-- The values of the columns outside the key survive printing and are as they are stored. -/
def CarriedCols [Sqlite] [Affinity] (info : TableInfo) (val : Text → SqlValue) : Prop :=
  ∀ c ∈ info.nonPks, Quotable (val c.name) ∧ storeValue info c.name (val c.name) = val c.name

/-- A statement, if it succeeds, leaves what feeds carry over: it inserts no key that is
marked deleted, and keys and values that are printed faithfully. -/
def RowWrite.Carried [Sqlite] [Affinity] (t : CrrTable) : RowWrite → Prop
  | .insert r => admits t t.rows r = true →
      ¬ HasEntry t.clock (canonKey r.key) delSentinel ∧ SharedKey t.info r.key ∧
        CarriedCols t.info r.val
  | .update i val => ∀ old ∈ t.rows[i]?, admits t (t.rows.eraseIdx i) ⟨old.key, val⟩ = true →
      CarriedCols t.info val
  | .delete _ => True

instance [Sqlite] [Affinity] [DecidablePred Quotable] (info : TableInfo)
    (val : Text → SqlValue) : Decidable (CarriedCols info val) :=
  inferInstanceAs (Decidable (∀ c ∈ info.nonPks, _))

instance [Sqlite] [Affinity] [DecidablePred Quotable] (t : CrrTable) (w : RowWrite) :
    Decidable (w.Carried t) :=
  match w with
  | .insert r => inferInstanceAs (Decidable (admits t t.rows r = true → _))
  | .update i _ => inferInstanceAs (Decidable (∀ old ∈ t.rows[i]?, _))
  | .delete _ => inferInstanceAs (Decidable True)

/-- What holds of a table between two syncs: rows and entries are carried over, and every
column of every row has an entry. -/
structure Local [Sqlite] [Affinity] (s : CrrSchema) (t : CrrTable) : Prop where
  schema : t.schema = s
  agreement : Agreement t
  keys : ∀ r ∈ t.rows, SharedKey s.info r.key
  columns : ∀ r ∈ t.rows, ∀ c ∈ s.info.nonPks, HasEntry t.clock (canonKey r.key) c.name ∧
    Quotable (r.val c.name) ∧ Takes s.info c (r.val c.name)
  entries : ∀ e ∈ t.clock, SharedEntry s.info e

section Write

variable [Sqlite] [Affinity] {s : CrrSchema} {t : CrrTable} {next : Int}

/-- An empty table. -/
theorem Local.empty {s : CrrSchema} : Local s ⟨s, [], []⟩ where
  schema := rfl
  agreement := agreement_empty rfl rfl
  keys := nofun
  columns := nofun
  entries := nofun

theorem Local.info_eq (h : Local s t) : t.info = s.info := by
  rw [CrrTable.info, h.schema]

/-- Such a table is sound, and it is complete. -/
theorem Local.shared (hs : s.Shareable) (h : Local s t) : Shared s t ∧ Complete t := by
  have hinfo := h.info_eq
  have hentry : ∀ r ∈ t.rows, ∀ c ∈ s.info.nonPks, t.entry (canonKey r.key) c.name ≠ none :=
    fun r hr c hc => (hasEntry_iff (h.keys r hr).keyClass_eq).mp (h.columns r hr c hc).1
  have hlenient : t.schema.Lenient := h.schema ▸ hs.lenient
  refine ⟨⟨h.schema, ⟨hlenient, h.agreement, fun r hr => (h.keys r hr).notNull, ?_, ?_⟩,
    h.keys, h.entries⟩, ?_⟩
  · intro k r hr col hcol _
    obtain ⟨hmem, -⟩ := mem_of_row hr
    rw [hinfo] at hcol
    obtain ⟨c, hc, rfl⟩ := columnExists_iff.mp hcol.1
    exact (h.columns r hmem c hc).2.1
  · intro k r hr col hcol hnone
    obtain ⟨hmem, rfl⟩ := mem_of_row hr
    rw [hinfo] at hcol hnone
    obtain ⟨c, hc, rfl⟩ := columnExists_iff.mp hcol
    exact absurd ⟨hs.isColumn hc, hentry r hmem c hc⟩ hnone
  · intro r hr c hc
    rw [hinfo] at hc
    rw [hinfo]
    exact ⟨hentry r hr c hc, (h.columns r hr c hc).2.2⟩

/-- A complete shared table has this form. -/
theorem Shared.local (hs : s.Shareable) (h : Shared s t) (hcomplete : Complete t) :
    Local s t := by
  have hinfo := h.info_eq
  refine ⟨h.schema, h.sound.agreement, h.rows, fun r hr c hc => ?_, h.entries⟩
  obtain ⟨hentry, htakes⟩ := hcomplete r hr c (hinfo ▸ hc)
  rw [hinfo] at htakes
  have hcol : IsColumn t.info c.name := hinfo ▸ hs.isColumn hc
  exact ⟨(hasEntry_iff (h.rows r hr).keyClass_eq).mpr hentry,
    h.sound.quotable _ r (h.sound.row_eq hr).2 _ hcol hentry, htakes⟩

omit [Sqlite] [Affinity] in
/-- The lengths of the names that the triggers log. -/
private theorem CrrSchema.Shareable.name_length (hs : s.Shareable) {col : Text}
    (hcol : col ∈ s.info.nonPks.map ColumnInfo.name) : col.length ≤ maxTblNameLen := by
  obtain ⟨c, hc, rfl⟩ := List.mem_map.mp hcol
  exact (hs.columns c hc).2.2

omit [Sqlite] [Affinity] in
/-- No column is called like the delete sentinel. -/
private theorem CrrSchema.Shareable.no_delSentinel (hs : s.Shareable) :
    columnExists delSentinel s.info.nonPks = false := by
  rw [← Bool.not_eq_true, columnExists_iff]
  rintro ⟨c, hc, hname⟩
  exact (hs.columns c hc).1 hname

omit [Sqlite] [Affinity] in
/-- A row that is admitted has no NULL in a NOT NULL column. -/
private theorem notNull_of_admits {others : List BaseRow} {r : BaseRow}
    (hadm : admits t others r = true) {c : ColumnInfo} (hc : c ∈ t.info.nonPks)
    (hn : c.notnull = true) : r.val c.name ≠ .null := by
  simp only [admits, constraintsOk, notNullOk, Bool.and_eq_true, List.all_eq_true] at hadm
  have hval := hadm.1.2.1.2 c hc
  simpa [hn] using hval

/-- The entries that a trigger logs are carried over. -/
private theorem entries_logChanges (h : Local s t) {key : Key} {cols : List Text}
    (hkey : SharedKey s.info key) (hcols : ∀ col ∈ cols, col.length ≤ maxTblNameLen)
    (hnext : 0 < next) : ∀ e ∈ logChanges false next key cols t.clock, SharedEntry s.info e := by
  intro e he
  rcases mem_logChanges he with hold | ⟨hversion, hsite, hcol, hkey'⟩
  · exact h.entries e hold
  · refine ⟨?_, hcols _ hcol, hversion.symm ▸ hnext, by simp [hsite]⟩
    rcases hkey' with hkey' | ⟨o, ho, hkey', -⟩
    · exact hkey' ▸ hkey
    · exact hkey' ▸ (h.entries o ho).key

/-- A statement that leaves old rows and rows of its own key, and logs columns under this
key. -/
private theorem Local.logged (h : Local s t) {key : Key} {cols : List Text} {rows : List BaseRow}
    (hkey : SharedKey s.info key) (hcols : ∀ col ∈ cols, col.length ≤ maxTblNameLen)
    (hnext : 0 < next) {u : CrrTable}
    (hu : u = { t with rows := rows, clock := logChanges false next key cols t.clock })
    (hagree : Agreement u)
    (hrows : ∀ r ∈ rows, r ∈ t.rows ∨ (r.key = key ∧ ∀ c ∈ s.info.nonPks,
      HasEntry u.clock (canonKey key) c.name ∧ Quotable (r.val c.name) ∧
        Takes s.info c (r.val c.name))) :
    Local s u ∧ ∀ k, u.Stores k → t.Stores k ∨ k = key := by
  subst hu
  refine ⟨⟨h.schema, hagree, fun r hr => ?_, fun r hr c hc => ?_, ?_⟩, ?_⟩
  · rcases hrows r hr with hold | ⟨hnew, -⟩
    · exact h.keys r hold
    · exact hnew ▸ hkey
  · rcases hrows r hr with hold | ⟨hnew, hcolumns⟩
    · obtain ⟨hentry, hrest⟩ := h.columns r hold c hc
      exact ⟨hasEntry_logChanges.mpr (Or.inl hentry), hrest⟩
    · exact hnew ▸ hcolumns c hc
  · exact entries_logChanges h hkey hcols hnext
  · rintro k (⟨r, hr, rfl⟩ | ⟨e, he, rfl⟩)
    · rcases hrows r hr with hold | ⟨hnew, -⟩
      · exact Or.inl (Or.inl ⟨r, hold, rfl⟩)
      · exact Or.inr hnew
    · rcases mem_logChanges he with hold | ⟨-, -, -, hnew | ⟨o, ho, hold, -⟩⟩
      · exact Or.inl (Or.inr ⟨e, hold, rfl⟩)
      · exact Or.inr hnew
      · exact Or.inl (Or.inr ⟨o, ho, hold⟩)

/-- A carried INSERT keeps the table shareable. -/
private theorem Local.insert (hs : s.Shareable) (h : Local s t) (hnext : 0 < next) {r : BaseRow}
    (hok : RowWrite.Carried t (.insert r)) {u : CrrTable}
    (hwrite : localWrite next t (.insert r) = some u) :
    admits t t.rows r = true ∧ Local s u ∧ ∀ k, u.Stores k → t.Stores k ∨ k = r.key := by
  have hinfo := h.info_eq
  have hstep : TableStep next (.write s.info.tblName (.insert r)) t u := .write hwrite
  simp only [localWrite, insertRow] at hwrite
  split at hwrite
  swap
  · simp at hwrite
  rename_i hadm
  obtain ⟨hdel, hkey, hquot⟩ := hok hadm
  rw [hinfo] at hkey hquot
  have hcols : t.info.nonPks ≠ [] := by
    rw [hinfo]
    exact hs.nonPks
  have hagree := rowsAgree_step (s := .write s.info.tblName (.insert r)) h.agreement
    (fun _ => ⟨hcols, by rw [hinfo]; exact hs.no_delSentinel, hdel⟩) hstep
  have hu : u = { t with
      rows := t.rows ++ [r]
      clock := logChanges false next r.key (s.info.nonPks.map ColumnInfo.name) t.clock } := by
    have hinfo' : ({ t with rows := t.rows ++ [r] } : CrrTable).info = s.info := hinfo
    rw [← Option.some.inj hwrite, insertTrigger, hinfo', if_neg hs.nonPks]
  refine ⟨hadm, h.logged hkey (fun col hcol => hs.name_length hcol) hnext hu hagree ?_⟩
  intro o ho
  rcases List.mem_append.mp ho with hold | hnew
  · exact Or.inl hold
  · obtain rfl := List.mem_singleton.mp hnew
    refine Or.inr ⟨rfl, fun c hc => ⟨?_, (hquot c hc).1, notNull_of_admits hadm (hinfo ▸ hc),
      (hquot c hc).2⟩⟩
    rw [hu]
    exact hasEntry_logChanges.mpr (Or.inr ⟨rfl, List.mem_map.mpr ⟨c, hc, rfl⟩⟩)

/-- A carried UPDATE keeps the table shareable. -/
private theorem Local.update (hs : s.Shareable) (h : Local s t) (hnext : 0 < next) {i : Nat}
    {val : Text → SqlValue} (hok : RowWrite.Carried t (.update i val)) {u : CrrTable}
    (hwrite : localWrite next t ((RowWrite.update i val).on t) = some u) :
    Local s u ∧ ∀ k, u.Stores k → t.Stores k := by
  have hinfo := h.info_eq
  have hstep : TableStep next (.write s.info.tblName ((RowWrite.update i val).on t)) t u :=
    .write hwrite
  cases hi : t.rows[i]? with
  | none =>
      simp only [RowWrite.on, localWrite, updateRow, hi, Option.some.injEq] at hwrite
      subst hwrite
      exact ⟨h, fun k hk => hk⟩
  | some old =>
      simp only [RowWrite.on, hi, Option.map_some, Option.getD_some] at hwrite hstep
      simp only [localWrite, updateRow, hi] at hwrite
      split at hwrite
      swap
      · simp at hwrite
      rename_i hadm
      have hold := List.mem_of_getElem? hi
      have hquot := hok old hi hadm
      rw [CarriedCols, hinfo] at hquot
      have hagree := rowsAgree_step (s := .write s.info.tblName (.update i ⟨old.key, val⟩))
        h.agreement (fun o ho _ => by
          obtain rfl : old = o := Option.some.inj (hi.symm.trans ho)
          exact ⟨by rw [hinfo]; exact hs.no_delSentinel, rfl⟩) hstep
      have hu : u = { t with
          rows := t.rows.set i ⟨old.key, val⟩
          clock := logChanges false next old.key ((t.info.nonPks.map ColumnInfo.name).filter
            fun c => SqlValue.Ne (val c) (old.val c)) t.clock } :=
        (Option.some.inj hwrite).symm
      have hlen : ∀ col ∈ (t.info.nonPks.map ColumnInfo.name).filter
          (fun c => SqlValue.Ne (val c) (old.val c)), col.length ≤ maxTblNameLen := by
        intro col hcol
        rw [hinfo] at hcol
        exact hs.name_length (List.mem_filter.mp hcol).1
      obtain ⟨hlocal, hstores⟩ := h.logged (h.keys old hold) hlen hnext hu hagree (by
        intro r hr
        rcases List.mem_or_eq_of_mem_set hr with hmem | rfl
        · exact Or.inl hmem
        · refine Or.inr ⟨rfl, fun c hc => ⟨?_, (hquot c hc).1,
            notNull_of_admits hadm (hinfo ▸ hc), (hquot c hc).2⟩⟩
          rw [hu]
          exact hasEntry_logChanges.mpr (Or.inl (h.columns old hold c hc).1))
      refine ⟨hlocal, fun k hk => ?_⟩
      rcases hstores k hk with hk | rfl
      · exact hk
      · exact Or.inl ⟨old, hold, rfl⟩

/-- A DELETE keeps the table shareable. -/
private theorem Local.delete (h : Local s t) (hnext : 0 < next) {i : Nat} {u : CrrTable}
    (hwrite : localWrite next t (.delete i) = some u) :
    Local s u ∧ ∀ k, u.Stores k → t.Stores k := by
  have hstep : TableStep next (.write s.info.tblName (.delete i)) t u := .write hwrite
  cases hi : t.rows[i]? with
  | none =>
      simp only [localWrite, deleteRow, hi, Option.some.injEq] at hwrite
      subst hwrite
      exact ⟨h, fun k hk => hk⟩
  | some old =>
      have hold := List.mem_of_getElem? hi
      simp only [localWrite, deleteRow, hi, Option.some.injEq] at hwrite
      have hagree := rowsAgree_step (s := .write s.info.tblName (.delete i)) h.agreement
        (fun o ho hnull => by
          obtain rfl : old = o := Option.some.inj (hi.symm.trans ho)
          exact absurd hnull (h.keys old hold).notNull) hstep
      have hlen : ∀ col ∈ [delSentinel], col.length ≤ maxTblNameLen := by decide
      obtain ⟨hlocal, hstores⟩ := h.logged (h.keys old hold) hlen hnext hwrite.symm hagree
        fun r hr => Or.inl (List.mem_of_mem_eraseIdx hr)
      refine ⟨hlocal, fun k hk => ?_⟩
      rcases hstores k hk with hk | rfl
      · exact hk
      · exact Or.inl ⟨old, hold, rfl⟩

/-- The key that a statement brings into a table, if it succeeds. -/
def RowWrite.newKey (t : CrrTable) : RowWrite → Option Key
  | .insert r => if admits t t.rows r then some r.key else none
  | .update _ _ => none
  | .delete _ => none

/-- A local write of what can be carried over keeps a table in that form, and brings no
key but that of an inserted row. -/
theorem Local.write (hs : s.Shareable) (h : Local s t) (hnext : 0 < next) {w : RowWrite}
    (hok : w.Carried t) {u : CrrTable} (hwrite : localWrite next t (w.on t) = some u) :
    Local s u ∧ ∀ k, u.Stores k → t.Stores k ∨ w.newKey t = some k := by
  cases w with
  | insert r =>
      obtain ⟨hadm, hlocal, hstores⟩ := h.insert hs hnext hok hwrite
      refine ⟨hlocal, fun k hk => (hstores k hk).imp_right ?_⟩
      rintro rfl
      exact if_pos hadm
  | update i val =>
      obtain ⟨hlocal, hstores⟩ := h.update hs hnext hok hwrite
      exact ⟨hlocal, fun k hk => Or.inl (hstores k hk)⟩
  | delete i =>
      obtain ⟨hlocal, hstores⟩ := h.delete hnext hwrite
      exact ⟨hlocal, fun k hk => Or.inl (hstores k hk)⟩

/-- A local statement of a replica keeps it sharing, as long as the next version is one. -/
theorem Db.Shares.writeRow {db : Db} (hs : s.Shareable) (h : db.Shares s t)
    (hcomplete : Complete t) {w : RowWrite} (hversion : db.getDbVersion ≠ maxInt64)
    (hok : w.Carried t) :
    ∃ u, (db.writeRow s.info.tblName w).Shares s u ∧ Complete u ∧
      ∀ k, u.Stores k → t.Stores k ∨ w.newKey t = some k := by
  have hnonneg := h.getDbVersion_nonneg
  have hnext : 0 < db.nextDbVersion := by
    rw [Db.nextDbVersion, if_neg hversion]
    omega
  have heq : db.writeRow s.info.tblName w = db.write s.info.tblName (w.on t) := by
    simp only [Db.writeRow, h.findTable]
  rw [heq]
  rcases write_cases db s.info.tblName (w.on t) with hsame | ⟨t', u, ht', hwrite, hset⟩
  · exact ⟨t, by rw [hsame]; exact h, hcomplete, fun k hk => Or.inl hk⟩
  · obtain rfl : t = t' := Option.some.inj (h.findTable.symm.trans ht')
    obtain ⟨hlocal, hstores⟩ := (h.table.local hs hcomplete).write hs hnext hok hwrite
    obtain ⟨hshared, hcomplete'⟩ := hlocal.shared hs
    have hname : t.info.tblName = u.info.tblName := by rw [h.table.info_eq, hshared.info_eq]
    refine ⟨u, ⟨?_, ?_, ?_, hshared⟩, hcomplete', hstores⟩
    · rw [hset, setTable_tables, Db.cacheDbVersion, h.tables]
      simp [hname]
    · rw [hset]
      exact h.siteId
    · rw [hset]
      exact Or.inr hnonneg

end Write

/-! ## Replicas -/

/-- What happens between replicas that are named by `ι`: a local statement, the end of a
transaction, or a one-way sync in which the first replica merges the feed of the second. -/
inductive ReplicasOp (ι : Type*) where
  | write (i : ι) (w : RowWrite)
  | commit (i : ι)
  | sync (i j : ι)

namespace Replicas

variable {ι : Type*}

/-- One step. -/
def step [DecidableEq ι] [Sqlite] [Affinity] (s : CrrSchema) (net : ι → Db) : ReplicasOp ι → ι → Db
  | .write i w => Function.update net i ((net i).writeRow s.info.tblName w)
  | .commit i => Function.update net i (net i).commit
  | .sync i j => Function.update net i ((net i).sync (net j))

/-- A key that SQL finds equal to a stored one is spelled like it. -/
def SpelledAlike (t : CrrTable) (key : Key) : Prop :=
  (∀ r ∈ t.rows, canonKey r.key = canonKey key → r.key = key) ∧
    ∀ e ∈ t.clock, canonKey e.key = canonKey key → e.key = key

/-- A local statement leaves what feeds carry over, the version it gets is no larger than
the largest integer, and a new key is spelled as it is on every replica that has it. -/
def Carries [Sqlite] [Affinity] (s : CrrSchema) (net : ι → Db) : ReplicasOp ι → Prop
  | .write i w => (net i).getDbVersion ≠ maxInt64 ∧
      ∀ t ∈ (net i).findTable s.info.tblName, w.Carried t ∧
        ∀ key ∈ w.newKey t, ∀ j, ∀ u ∈ (net j).findTable s.info.tblName, SpelledAlike u key
  | .commit _ => True
  | .sync _ _ => True

instance (t : CrrTable) (key : Key) : Decidable (SpelledAlike t key) :=
  inferInstanceAs (Decidable (_ ∧ _))

instance [Fintype ι] [Sqlite] [Affinity] [DecidablePred Quotable] (s : CrrSchema) (net : ι → Db)
    (op : ReplicasOp ι) : Decidable (Carries s net op) :=
  match op with
  | .write i _ =>
      inferInstanceAs (Decidable (_ ∧ ∀ t ∈ (net i).findTable s.info.tblName, _))
  | .commit _ => inferInstanceAs (Decidable True)
  | .sync _ _ => inferInstanceAs (Decidable True)

/-- The sync that a step is. -/
def syncOf : ReplicasOp ι → Option (ι × ι)
  | .write _ _ => none
  | .commit _ => none
  | .sync i j => some (i, j)

/-- A local statement. -/
def IsWrite : ReplicasOp ι → Prop
  | .write _ _ => True
  | .commit _ => False
  | .sync _ _ => False

/-! ## Every state of a run -/

/-- A key that some replica stores. -/
def Known (tables : ι → CrrTable) (k : Key) : Prop :=
  ∃ i, (tables i).Stores k

/-- What holds of the replicas: their tables are shared and complete, and keys that SQL
finds equal are spelled alike everywhere. -/
structure Sharing [Sqlite] [Affinity] (s : CrrSchema) (net : ι → Db) (tables : ι → CrrTable) : Prop where
  shares : ∀ i, (net i).Shares s (tables i)
  complete : ∀ i, Complete (tables i)
  spelled : ∀ k k', Known tables k → Known tables k' → canonKey k = canonKey k' → k = k'

section Runs

variable [DecidableEq ι] [Sqlite] [Affinity] {s : CrrSchema} {net : ι → Db} {tables : ι → CrrTable}

/-- One replica gets another table, which has at most one new key. -/
private theorem Sharing.update (h : Sharing s net tables) (i : ι) {db : Db} {u : CrrTable}
    (hdb : db.Shares s u) (hcomplete : Complete u) (new : Option Key)
    (hkeys : ∀ k, u.Stores k → Known tables k ∨ new = some k)
    (halike : ∀ key ∈ new, ∀ k, Known tables k → canonKey k = canonKey key → k = key) :
    Sharing s (Function.update net i db) (Function.update tables i u) := by
  have hknown : ∀ k, Known (Function.update tables i u) k → Known tables k ∨ new = some k := by
    rintro k ⟨j, hj⟩
    by_cases hij : j = i
    · subst hij
      rw [Function.update_self] at hj
      exact hkeys k hj
    · rw [Function.update_of_ne hij] at hj
      exact Or.inl ⟨j, hj⟩
  refine ⟨fun j => ?_, fun j => ?_, fun k k' hk hk' heq => ?_⟩
  · by_cases hij : j = i
    · subst hij
      simpa using hdb
    · simpa [hij] using h.shares j
  · by_cases hij : j = i
    · subst hij
      simpa using hcomplete
    · simpa [hij] using h.complete j
  · rcases hknown k hk with hold | hnew <;> rcases hknown k' hk' with hold' | hnew'
    · exact h.spelled k k' hold hold' heq
    · exact halike k' hnew' k hold heq
    · exact (halike k hnew k' hold' heq.symm).symm
    · exact Option.some.inj (hnew.symm.trans hnew')

omit [DecidableEq ι] in
/-- The shared table is found on every replica. -/
private theorem Sharing.findTable (h : Sharing s net tables) (i : ι) :
    (net i).findTable s.info.tblName = some (tables i) :=
  (h.shares i).findTable

/-- A carried write keeps the replicas sharing. -/
private theorem Sharing.write (hs : s.Shareable) (h : Sharing s net tables) {i : ι} {w : RowWrite}
    (hok : Carries s net (.write i w)) :
    ∃ tables', Sharing s (step s net (.write i w)) tables' := by
  obtain ⟨hversion, hcarries⟩ := hok
  obtain ⟨hcarried, halike⟩ := hcarries (tables i) (h.findTable i)
  obtain ⟨u, hu, hcomplete, hstores⟩ :=
    (h.shares i).writeRow hs (h.complete i) hversion hcarried
  refine ⟨Function.update tables i u, h.update i hu hcomplete (w.newKey (tables i)) ?_ ?_⟩
  · exact fun k hk => (hstores k hk).imp_left fun hold => ⟨i, hold⟩
  · rintro key hkey k ⟨j, hstored⟩ heq
    obtain ⟨hrows, hclock⟩ := halike key hkey j (tables j) (h.findTable j)
    rcases hstored with ⟨r, hr, rfl⟩ | ⟨e, he, rfl⟩
    · exact hrows r hr heq
    · exact hclock e he heq

/-- The end of a transaction changes no table. -/
private theorem Sharing.commit (h : Sharing s net tables) (i : ι) :
    Sharing s (step s net (.commit i)) tables := by
  have hversion : (net i).commit.dbVersion = -1 := by
    unfold Db.commit
    split <;> rfl
  have hcommit : (net i).commit.Shares s (tables i) :=
    ⟨(commit_tables _).trans (h.shares i).tables,
      by rw [commit_siteId]; exact (h.shares i).siteId, Or.inl hversion, (h.shares i).table⟩
  have hupdate := h.update i hcommit (h.complete i) none (fun k hk => Or.inl ⟨i, hk⟩) nofun
  rwa [Function.update_eq_self] at hupdate

/-- A sync joins the view of the second replica into that of the first. -/
private theorem Sharing.sync (hs : s.Shareable) (h : Sharing s net tables) (i j : ι) :
    ∃ tables', Sharing s (step s net (.sync i j)) tables' ∧
      (fun m => view (tables' m)) = Gossip.sync (fun m => view (tables m)) (i, j) := by
  obtain ⟨u, hu, hcomplete, hview, hstores⟩ :=
    (h.shares i).sync hs (h.shares j) (h.complete i) (h.complete j)
  refine ⟨Function.update tables i u, h.update i hu hcomplete none ?_ nofun, ?_⟩
  · intro k hk
    rcases hstores k hk with hk | hk
    · exact Or.inl ⟨i, hk⟩
    · exact Or.inl ⟨j, hk⟩
  · funext m
    by_cases him : m = i
    · subst him
      simp [Gossip.sync, hview]
    · simp [Gossip.sync, him]

/-- Every step keeps the replicas sharing. -/
theorem sharing_step (hs : s.Shareable) (op : ReplicasOp ι)
    (h : ∃ tables, Sharing s net tables) (hok : Carries s net op) :
    ∃ tables, Sharing s (step s net op) tables := by
  obtain ⟨tables, h⟩ := h
  cases op with
  | write i w => exact h.write hs hok
  | commit i => exact ⟨tables, h.commit i⟩
  | sync i j =>
      obtain ⟨tables', h', -⟩ := h.sync hs i j
      exact ⟨tables', h'⟩

/-- Behind the last write the views are joined, sync after sync. -/
theorem sharing_tail (hs : s.Shareable) (h : Sharing s net tables) {tail : List (ReplicasOp ι)}
    (htail : ∀ op ∈ tail, ¬ IsWrite op) :
    ∃ tables', Sharing s (Run.exec (step s) net tail) tables' ∧
      (fun m => view (tables' m)) =
        Gossip.syncAll (fun m => view (tables m)) (tail.filterMap syncOf) := by
  induction tail generalizing net tables with
  | nil => exact ⟨tables, h, rfl⟩
  | cons op tail ih =>
      have hrest : ∀ op ∈ tail, ¬ IsWrite op := fun op hop => htail op (List.mem_cons_of_mem _ hop)
      cases op with
      | write i w =>
          have hnot : ¬ IsWrite (.write i w : ReplicasOp ι) := htail _ (by simp)
          exact absurd trivial hnot
      | commit i => exact ih (h.commit i) hrest
      | sync i j =>
          obtain ⟨tables₁, h₁, hview₁⟩ := h.sync hs i j
          obtain ⟨tables₂, h₂, hview₂⟩ := ih h₁ hrest
          refine ⟨tables₂, h₂, ?_⟩
          rw [hview₂, hview₁]
          rfl

omit [DecidableEq ι] in
/-- Tables with the same view hold the same rows, keys included. -/
private theorem Sharing.sameBaseTables (h : Sharing s net tables) {i j : ι}
    (hview : view (tables i) = view (tables j)) : SameBaseTables (tables i) (tables j) := by
  have hi := (h.shares i).table
  have hj := (h.shares j).table
  refine (view_injective hi.sound hj.sound (hj.schema.trans hi.schema.symm)
    hview).sameBaseTables fun r hr r' hr' hkey => ?_
  exact h.spelled _ _ ⟨j, Or.inl ⟨r', hr', rfl⟩⟩ ⟨i, Or.inl ⟨r, hr, rfl⟩⟩ hkey

omit [DecidableEq ι] in
/-- Replicas whose tables are empty share them. -/
private theorem sharing_empty (hs : s.Shareable)
    (hnet : ∀ i, (net i).tables = [⟨s, [], []⟩] ∧ (net i).siteId.length = siteIdLen ∧
      (net i).dbVersion = -1) : Sharing s net fun _ => ⟨s, [], []⟩ := by
  obtain ⟨hshared, hcomplete⟩ := Local.empty.shared hs
  refine ⟨fun i => ?_, fun _ => hcomplete, ?_⟩
  · obtain ⟨htables, hsite, hversion⟩ := hnet i
    exact ⟨htables, hsite, Or.inl hversion, hshared⟩
  · rintro k k' ⟨i, ⟨r, hr, -⟩ | ⟨e, he, -⟩⟩
    · simp at hr
    · simp at he

/-- After every run of such writes and any syncs, once every ordered pair of replicas has
been synced behind the last write, all base tables hold exactly the same rows. -/
theorem replicas_converge_run (hs : s.Shareable)
    (hnet : ∀ i, (net i).tables = [⟨s, [], []⟩] ∧ (net i).siteId.length = siteIdLen ∧
      (net i).dbVersion = -1)
    {ops tail : List (ReplicasOp ι)} (hops : Run.Allowed (step s) (Carries s) net ops)
    (htail : ∀ op ∈ tail, ¬ IsWrite op) (hpairs : ∀ i j, i ≠ j → .sync i j ∈ tail) (i j : ι) :
    ∃ t t', (Run.exec (step s) net (ops ++ tail) i).tables = [t] ∧
      (Run.exec (step s) net (ops ++ tail) j).tables = [t'] ∧ SameBaseTables t t' := by
  obtain ⟨tables, h⟩ := Run.invariant (fun net => ∃ tables, Sharing s net tables)
    (fun _ op h hok => sharing_step hs op h hok) ⟨_, sharing_empty hs hnet⟩ hops
  obtain ⟨tables', h', hview⟩ := sharing_tail hs h htail
  rw [Run.exec_append]
  have hall : ∀ i j, i ≠ j → (i, j) ∈ tail.filterMap syncOf := fun i j hij =>
    List.mem_filterMap.mpr ⟨.sync i j, hpairs i j hij, rfl⟩
  have hsame : view (tables' i) = view (tables' j) := by
    have hi := congrFun hview i
    have hj := congrFun hview j
    rw [hi, hj]
    exact Gossip.all_eq hall i j
  exact ⟨tables' i, tables' j, (h'.shares i).tables, (h'.shares j).tables,
    h'.sameBaseTables hsame⟩

end Runs

/-! ## Two runs -/

/-- The values that the worked examples print. -/
instance (v : SqlValue) : Decidable (@Quotable integralSqlite v) :=
  match v with
  | .null => inferInstanceAs (Decidable True)
  | .integer i => inferInstanceAs (Decidable (minInt64 ≤ i ∧ i ≤ maxInt64))
  | .real q => inferInstanceAs (Decidable (q.den = 1))
  | .inf _ => inferInstanceAs (Decidable False)
  | .text t => inferInstanceAs (Decidable (nul ∉ t))
  | .blob _ => inferInstanceAs (Decidable True)

/-- Replicas with an empty table `foo`. -/
def fooReplicas (n : Nat) : Fin n → Db :=
  fun i => fooDb (List.replicate siteIdLen (UInt8.ofNat i))

/-- The run theorem applies to three replicas that insert, update and delete rows, one of
them while the others know the row, and exchange feeds in between. -/
theorem replicas_converge_run_foo :
    let ops : List (ReplicasOp (Fin 3)) :=
      [.write 0 (.insert (fooRow 1 2)), .write 0 (.insert (fooRow 2 5)), .commit 0, .sync 1 0,
        .write 1 (.update 0 fun _ => .null), .write 2 (.insert (fooRow 2 7)), .commit 1,
        .write 0 (.delete 0), .sync 2 1, .write 2 (.update 1 fun _ => .text ['x'])]
    let tail : List (ReplicasOp (Fin 3)) :=
      [.sync 0 1, .sync 1 0, .commit 0, .sync 0 2, .sync 2 0, .sync 1 2, .commit 1, .sync 2 1]
    let net := Run.exec (@step _ _ integralSqlite noAffinity fooSchema) (fooReplicas 3)
      (ops ++ tail)
    ∃ t t', (net 0).tables = [t] ∧ (net 2).tables = [t'] ∧ SameBaseTables t t' := by
  intro ops tail
  refine @replicas_converge_run (Fin 3) _ integralSqlite noAffinity fooSchema (fooReplicas 3)
    ⟨by decide, fooSchema_lenient, by decide, by decide, by decide⟩ ?_ ops tail
    (by decide +kernel) ?_ ?_ 0 2
  · exact fun i => ⟨rfl, List.length_replicate, rfl⟩
  · simp [tail, IsWrite]
  · intro i j hij
    fin_cases i <;> fin_cases j <;> simp [tail] at hij ⊢

/-- A key is inserted, deleted and inserted again.  The delete sentinel stays behind, so
the other replica takes the row for deleted, and no sync ever brings it over. -/
theorem reinserted_key_stays_on_one_replica :
    let ops : List (ReplicasOp (Fin 2)) :=
      [.write 0 (.insert (fooRow 1 2)), .commit 0, .write 0 (.delete 0), .commit 0,
        .write 0 (.insert (fooRow 1 3)), .commit 0]
    let tail : List (ReplicasOp (Fin 2)) := [.sync 1 0, .sync 0 1, .sync 1 0]
    let net := Run.exec (@step _ _ integralSqlite noAffinity fooSchema) (fooReplicas 2)
      (ops ++ tail)
    (∀ i j, i ≠ j → .sync i j ∈ tail) ∧
    ((net 0).tables.map fun t => t.rows.map BaseRow.key) = [[[.integer 1]]] ∧
    ((net 1).tables.map fun t => t.rows.map BaseRow.key) = [[]] ∧
    ¬ ∃ t t', (net 0).tables = [t] ∧ (net 1).tables = [t'] ∧ SameBaseTables t t' := by
  intro ops tail net
  have hone : ((net 0).tables.map fun t => t.rows.map BaseRow.key) = [[[.integer 1]]] := by
    decide +kernel
  have hnone : ((net 1).tables.map fun t => t.rows.map BaseRow.key) = [[]] := by
    decide +kernel
  refine ⟨?_, hone, hnone, ?_⟩
  · intro i j hij
    fin_cases i <;> fin_cases j <;> simp [tail] at hij ⊢
  · rintro ⟨t, t', ht, ht', hsame, -⟩
    rw [ht] at hone
    rw [ht'] at hnone
    have hkeys : t.rows.map BaseRow.key = [[.integer 1]] := by simpa using hone
    have hempty : t'.rows = [] := by simpa using hnone
    obtain ⟨r, hr, -⟩ := List.mem_map.mp (show [SqlValue.integer 1] ∈ t.rows.map BaseRow.key by
      rw [hkeys]
      exact List.mem_singleton_self _)
    obtain ⟨r', hr', -⟩ := hsame r hr
    simp [hempty] at hr'

end Replicas

end CrSqlite
