import CrSqlite.UpdateLog
import Mathlib.Data.List.MinMax

/-!
# VersionLimits - counters at the largest integer

A connection runs while peers read what it committed.  `crsql_nextdbversion()` is the
largest stored version plus one, and the triggers add one to the version of a cell.  Both
versions also come with received changes, up to the largest integer.

Main results:

- Theorem {lit}`rises_loggedEntries_iff`: the cells whose version the trigger raises.
- Theorem {lit}`versions_rise_iff`: the runs in which both counters go on rising.
-/

namespace CrSqlite

/-! ## The cells of a write -/

/-- The columns a row is logged under: one of key columns only has a sentinel. -/
def rowColumns (info : TableInfo) : List Text :=
  if info.nonPks = [] then [pkoSentinel] else info.nonPks.map ColumnInfo.name

/-- The cells of one row that a statement writes, and those for which its trigger runs the
statement that logs. -/
structure WrittenCells where
  key : Key
  written : List Text
  logged : List Text

/-- What a local statement that the constraints admit writes.  An UPDATE that moves a row to
another key writes all of its cells there. -/
def writtenCells (t : CrrTable) : LocalWrite → Option WrittenCells
  | .insert r =>
      if admits t t.rows r then
        some ⟨r.key, rowColumns t.info, t.info.nonPks.map ColumnInfo.name⟩
      else none
  | .update i r =>
      t.rows[i]?.bind fun old =>
        if admits t (t.rows.eraseIdx i) r then
          some ⟨r.key,
            if canonKey r.key = canonKey old.key then changedColumns t.info old r
            else rowColumns t.info,
            loggedColumns t.info old r⟩
        else none
  | .delete i => t.rows[i]?.map fun old => ⟨old.key, [delSentinel], [delSentinel]⟩

/-- The cell has a new entry that no peer has read past, with a version above the versions
before. -/
def Rises (seen : Int) (es es' : List ClockEntry) : Prop :=
  ∃ e' ∈ es', seen < e'.dbVersion ∧ ∀ e ∈ es, e.colVersion < e'.colVersion

/-- There is a version above those of the entries: the trigger adds one to an entry that the
primary key of the clock table finds, and starts with one beside the others. -/
def CanRise (key : Key) (es : List ClockEntry) : Prop :=
  ∀ e ∈ es, e.colVersion < if SqlValue.null ∈ key then 1 else maxInt64

instance (key : Key) (es : List ClockEntry) : Decidable (CanRise key es) :=
  inferInstanceAs (Decidable (∀ e ∈ es, _))

/-! ## One cell -/

section OneCell

variable {seen next : Int} {key : Key} {col : Text} {es : List ClockEntry}

/-- Nothing rises above itself. -/
theorem not_rises_self : ¬ Rises seen es es := by
  rintro ⟨e', he', -, habove⟩
  exact lt_irrefl _ (habove e' he')

/-- An entry added beside the others. -/
theorem rises_append_iff (hseen : seen < next) :
    Rises seen es (es ++ [⟨key, col, 1, next, none⟩]) ↔ ∀ e ∈ es, e.colVersion < 1 := by
  constructor
  · rintro ⟨e', he', -, habove⟩
    rcases List.mem_append.mp he' with hold | hnew
    · exact absurd (habove e' hold) (lt_irrefl _)
    · rw [List.mem_singleton.mp hnew] at habove
      exact habove
  · intro h
    exact ⟨_, List.mem_append_right es (List.mem_singleton_self _), hseen, h⟩

/-- Entries that are raised. -/
theorem rises_bump_iff (hseen : seen < next) (hne : es ≠ []) :
    Rises seen es (es.map (ClockEntry.bump next)) ↔ ∀ e ∈ es, e.colVersion < maxInt64 := by
  constructor
  · rintro ⟨e', he', -, habove⟩ e he
    obtain ⟨o, -, rfl⟩ := List.mem_map.mp he'
    exact (habove e he).trans_le (min_le_right _ _)
  · intro h
    -- the one with the largest version is above all after it was raised
    obtain ⟨o, ho⟩ : ∃ o, o ∈ es.argmax ClockEntry.colVersion :=
      Option.ne_none_iff_exists'.mp fun hnone => hne (List.argmax_eq_none.mp hnone)
    have hmem := List.argmax_mem ho
    refine ⟨o.bump next, List.mem_map_of_mem hmem, hseen, fun e he => ?_⟩
    have hle : e.colVersion ≤ o.colVersion := List.le_of_mem_argmax he ho
    exact lt_min (by omega) (h e he)

/-- The cells whose version the trigger raises. -/
theorem rises_loggedEntries_iff (hseen : seen < next) :
    Rises seen es (loggedEntries next key col es) ↔ CanRise key es := by
  unfold loggedEntries CanRise
  by_cases hnull : SqlValue.null ∈ key
  · rw [if_pos (Or.inr hnull), if_pos hnull]
    exact rises_append_iff hseen
  · rw [if_neg hnull]
    by_cases hnil : es = []
    · rw [if_pos (Or.inl hnil), rises_append_iff hseen, hnil]
      simp
    · rw [if_neg (not_or.mpr ⟨hnil, hnull⟩)]
      exact rises_bump_iff hseen hnil

end OneCell

/-! ## One write -/

/-- A write logs no cell twice. -/
theorem nodup_logged {t : CrrTable} (hcols : (t.info.baseCols.map ColumnInfo.name).Nodup)
    {w : LocalWrite} {c : WrittenCells} (h : writtenCells t w = some c) : c.logged.Nodup := by
  have hnonPks := nodup_nonPks hcols
  cases w with
  | insert r =>
      simp only [writtenCells, Option.ite_none_right_eq_some] at h
      rw [← Option.some.inj h.2]
      exact hnonPks
  | update i r =>
      simp only [writtenCells, Option.bind_eq_some_iff, Option.ite_none_right_eq_some] at h
      obtain ⟨old, -, -, h⟩ := h
      rw [← Option.some.inj h]
      exact hnonPks.filter _
  | delete i =>
      simp only [writtenCells, Option.map_eq_some_iff] at h
      obtain ⟨old, -, rfl⟩ := h
      exact List.nodup_singleton _

/-- The clock table after a write. -/
theorem clock_of_writtenCells {t : CrrTable} {w : LocalWrite} {c : WrittenCells} (next : Int)
    (h : writtenCells t w = some c) :
    ∃ t', localWrite next t w = some t' ∧ t'.info = t.info ∧
      t'.clock = logChanges false next c.key c.logged t.clock := by
  cases w with
  | insert r =>
      simp only [writtenCells, Option.ite_none_right_eq_some] at h
      obtain ⟨hadm, h⟩ := h
      rw [← Option.some.inj h, localWrite, insertRow, if_pos hadm]
      refine ⟨_, rfl, ?_⟩
      unfold insertTrigger
      split
      · rename_i hnil
        have hnil' : t.info.nonPks = [] := hnil
        exact ⟨rfl, by rw [hnil']; rfl⟩
      · exact ⟨rfl, rfl⟩
  | update i r =>
      simp only [writtenCells, Option.bind_eq_some_iff, Option.ite_none_right_eq_some] at h
      obtain ⟨old, hold, hadm, h⟩ := h
      rw [← Option.some.inj h]
      refine ⟨updateTrigger false next old r { t with rows := t.rows.set i r }, ?_, rfl, rfl⟩
      simp only [localWrite, updateRow, hold, hadm, if_true]
  | delete i =>
      simp only [writtenCells, Option.map_eq_some_iff] at h
      obtain ⟨old, hold, rfl⟩ := h
      refine ⟨deleteTrigger false next { t with rows := t.rows.eraseIdx i } old, ?_, rfl, rfl⟩
      simp only [localWrite, deleteRow, hold]

/-! ## A connection and its readers -/

/-- A connection, and the largest db version that was there to be read: a peer that pulls
with `db_version > c` has a `c` up to it. -/
structure Watched where
  session : Session
  seen : Int

/-- Tables that were just turned into CRRs, and peers that have read nothing. -/
def Db.watched (db : Db) : Watched :=
  ⟨⟨db, db⟩, 0⟩

/-- Peers read what is committed. -/
def Watched.step [Sqlite] (o : Watched) (op : Op) : Watched where
  session := o.session.step op
  seen :=
    match op with
    | .commit => max o.seen o.session.current.maxDbVersion
    | _ => o.seen

/-- `crsql_nextdbversion()` does not overflow and is greater than every version that the
transaction found; within it the function keeps its value. -/
def Session.NextAbove (s : Session) : Prop :=
  s.current.getDbVersion < maxInt64 ∧
    ∀ t ∈ s.start.tables, ∀ e ∈ t.clock, e.dbVersion < s.current.nextDbVersion

/-- Every cell that a local statement writes gets a version above the stored one, and a db
version that every peer still reads. -/
def Watched.WriteRises (o : Watched) (tbl : Text) (w : LocalWrite) : Prop :=
  ∀ t ∈ o.session.current.findTable tbl, ∀ c ∈ writtenCells t w,
    ∀ t' ∈ (o.session.current.write tbl w).findTable tbl, ∀ col ∈ c.written,
      Rises o.seen (entriesOf c.key col t.clock) (entriesOf c.key col t'.clock)

/-- Both counters go on rising with the step. -/
def Watched.StepRises [Sqlite] (o : Watched) (op : Op) : Prop :=
  (o.step op).session.NextAbove ∧ ∀ tbl w, op = .stmt (.write tbl w) → o.WriteRises tbl w

/-- What is committed leaves room for a version, and a write changes only cells for which
the trigger logs and whose versions leave room. -/
def Watched.StepLeavesRoom (o : Watched) : Op → Prop
  | .stmt (.write tbl w) =>
      ∀ t ∈ o.session.current.findTable tbl, ∀ c ∈ writtenCells t w, ∀ col ∈ c.written,
        col ∈ c.logged ∧ CanRise c.key (entriesOf c.key col t.clock)
  | .stmt (.merge _) => True
  | .commit => o.session.current.BelowMax
  | .rollback => True

instance (o : Watched) (op : Op) : Decidable (o.StepLeavesRoom op) :=
  match op with
  | .stmt (.write _ _) => inferInstanceAs (Decidable (∀ t ∈ _, _))
  | .stmt (.merge _) => inferInstanceAs (Decidable True)
  | .commit => inferInstanceAs (Decidable (Db.BelowMax _))
  | .rollback => inferInstanceAs (Decidable True)

/-! ## What holds while there is room -/

/-- The connection is in a transaction that began in a committed state, and peers have read
at most what was stored there. -/
structure Watched.InRoom (o : Watched) : Prop where
  start : o.session.start.Committed
  current : InTransaction o.session.start o.session.current
  columns : ∀ t ∈ o.session.start.tables, (t.info.baseCols.map ColumnInfo.name).Nodup
  seen : o.seen ≤ o.session.start.maxDbVersion

/-- A fresh database is committed. -/
theorem Db.Fresh.committed {db : Db} (h : db.Fresh) : db.Committed := by
  have hnone {t : CrrTable} (ht : t ∈ db.tables) {e : ClockEntry} : e ∉ t.clock := by
    rw [h.clock t ht]
    exact List.not_mem_nil
  exact ⟨h.cache, h.names, fun t ht e he => absurd he (hnone ht),
    fun t ht e he => absurd he (hnone ht), fun t ht e he => absurd he (hnone ht)⟩

theorem Db.Fresh.inRoom {db : Db} (h : db.Fresh) : db.watched.InRoom :=
  ⟨h.committed, .refl h.committed, h.columns, h.committed.maxDbVersion_nonneg⟩

section InRoom

variable {o : Watched}

theorem Watched.InRoom.next_eq (h : o.InRoom) :
    o.session.current.nextDbVersion = o.session.start.maxDbVersion + 1 :=
  h.current.nextDbVersion_eq h.start

/-- The next version is above all that are stored. -/
theorem Watched.InRoom.nextAbove (h : o.InRoom) : o.session.NextAbove := by
  refine ⟨?_, fun t ht e he => ?_⟩
  · rw [h.current.getDbVersion_eq h.start]
    exact h.start.maxDbVersion_lt
  · rw [h.next_eq]
    have hle := le_maxDbVersion ht he
    omega

/-- The declarations do not change. -/
theorem Watched.InRoom.currentColumns (h : o.InRoom) :
    ∀ t ∈ o.session.current.tables, (t.info.baseCols.map ColumnInfo.name).Nodup := by
  intro t ht
  have hschema : t.schema ∈ o.session.start.tables.map CrrTable.schema := by
    rw [← h.current.schemas]
    exact List.mem_map_of_mem ht
  obtain ⟨u, hu, hut⟩ := List.mem_map.mp hschema
  have hcols := h.columns u hu
  rw [CrrTable.info, hut] at hcols
  exact hcols

/-- The writes whose cells all get a higher version. -/
theorem Watched.InRoom.writeRises_iff (h : o.InRoom) (tbl : Text) (w : LocalWrite) :
    o.WriteRises tbl w ↔ o.StepLeavesRoom (.stmt (.write tbl w)) := by
  refine forall₂_congr fun t ht => forall₂_congr fun c hc => ?_
  obtain ⟨t', hwrite, hinfo, hclock⟩ :=
    clock_of_writtenCells o.session.current.nextDbVersion hc
  have hname : t.info.tblName = tbl := findTable_name ht
  have hfind : (o.session.current.write tbl w).findTable tbl = some t' := by
    have hfound : o.session.current.cacheDbVersion.findTable tbl = some t := ht
    rw [Db.write, ht, Option.bind_some, hwrite]
    simp only
    rw [findTable_setTable hfound (by rw [hinfo, hname]), if_pos rfl]
  have hseen : o.seen < o.session.current.nextDbVersion := by
    have := h.seen
    rw [h.next_eq]
    omega
  have hnodup := nodup_logged (h.currentColumns t (findTable_mem ht)) hc
  rw [hfind]
  simp only [Option.mem_def, Option.some.injEq, forall_eq']
  refine forall₂_congr fun col hcol => ?_
  rw [hclock, entriesOf_logChanges hnodup]
  split_ifs with hlogged
  · rw [rises_loggedEntries_iff hseen, and_iff_right hlogged]
  · exact iff_of_false not_rises_self fun hboth => hlogged hboth.1

/-- A commit after which the next version does not overflow. -/
theorem belowMax_of_nextAbove {db : Db} (h : (⟨db.commit, db.commit⟩ : Session).NextAbove) :
    db.BelowMax := by
  have hget : db.commit.getDbVersion = db.maxDbVersion := by
    have hcache : db.commit.dbVersion = -1 := by
      unfold Db.commit
      split <;> rfl
    rw [Db.getDbVersion, hcache, if_neg (not_not_intro rfl),
      maxDbVersion_congr (commit_tables db)]
  intro t ht e he
  have hlt : db.maxDbVersion < maxInt64 := hget ▸ h.1
  exact (le_maxDbVersion ht he).trans_lt hlt

variable [Sqlite]

/-- Every step that leaves room keeps the invariant. -/
theorem Watched.InRoom.step (h : o.InRoom) {op : Op} (hok : o.StepLeavesRoom op) :
    (o.step op).InRoom := by
  cases op with
  | stmt s => exact ⟨h.start, inTransaction_exec h.start h.current s, h.columns, h.seen⟩
  | commit =>
      have hbelow : o.session.current.commit.BelowMax := by
        intro t ht
        rw [commit_tables] at ht
        exact hok t ht
      have hcommitted := h.current.committed_commit h.start hbelow
      refine ⟨hcommitted, .refl hcommitted, ?_, ?_⟩
      · intro t ht
        have hmem : t ∈ o.session.current.commit.tables := ht
        rw [commit_tables] at hmem
        exact h.currentColumns t hmem
      · have hmax : o.session.current.commit.maxDbVersion = o.session.current.maxDbVersion :=
          maxDbVersion_congr (commit_tables _)
        have hle := h.current.maxDbVersion_le h.start
        exact (max_le (h.seen.trans hle) le_rfl).trans_eq hmax.symm
  | rollback =>
      have hcommitted := committed_rollback h.start o.session.current
      exact ⟨hcommitted, .refl hcommitted, h.columns, h.seen⟩

/-- The steps with which both counters rise. -/
theorem Watched.InRoom.stepRises_iff (h : o.InRoom) (op : Op) :
    o.StepRises op ↔ o.StepLeavesRoom op := by
  constructor
  · rintro ⟨hnext, hwrite⟩
    cases op with
    | stmt s =>
        cases s with
        | write tbl w => exact (h.writeRises_iff tbl w).mp (hwrite tbl w rfl)
        | merge ch => trivial
    | commit => exact belowMax_of_nextAbove hnext
    | rollback => trivial
  · intro hok
    refine ⟨(h.step hok).nextAbove, ?_⟩
    rintro tbl w rfl
    exact (h.writeRises_iff tbl w).mpr hok

end InRoom

/-! ## Runs -/

/-- The runs from freshly tracked tables in which the next db version stays above what is
stored and every cell that is written gets a higher version and is sent: those that commit
no version of the largest integer, and write only cells that are logged and leave room. -/
theorem versions_rise_iff [Sqlite] {start : Db} (hstart : start.Fresh) (ops : List Op) :
    Run.Allowed Watched.step Watched.StepRises start.watched ops ↔
      Run.Allowed Watched.step Watched.StepLeavesRoom start.watched ops :=
  Run.allowed_congr Watched.InRoom (fun _ op h => h.stepRises_iff op)
    (fun _ _ h hok => h.step hok) hstart.inRoom

/-- A run with a change of a large version that leaves room. -/
theorem versions_rise_iff_foo :
    @Run.Allowed _ _ (@Watched.step integralSqlite) (@Watched.StepRises integralSqlite)
      (fooDb [2]).watched
      [.stmt (.write ['f', 'o', 'o'] (.insert (fooRow 1 2))), .commit,
        .stmt (.merge ⟨['f', 'o', 'o'], ['1'], ['b'], some ['3'], 2 ^ 62, 2 ^ 62, [1]⟩), .commit,
        .stmt (.write ['f', 'o', 'o'] (.update 0 (fooRow 1 4))), .commit] :=
  (@versions_rise_iff integralSqlite (fooDb [2]) (fooDb_fresh [2]) _).mpr (by decide)

/-- One change can exhaust both counters: after it the next version is the smallest integer,
and a local write leaves the version of its cell as it is. -/
theorem merge_exhausts_versions :
    let ch : Change := ⟨['f', 'o', 'o'], ['1'], ['b'], some ['3'], maxInt64, maxInt64, [1]⟩
    let o := @Run.exec _ _ (@Watched.step integralSqlite) (fooDb [2]).watched
      [.stmt (.merge ch), .commit]
    ch.Int64 ∧ ¬ o.session.NextAbove ∧
      o.session.current.nextDbVersion = minInt64 ∧
      ¬ o.WriteRises ['f', 'o', 'o'] (.update 0 (fooRow 1 4)) := by
  refine ⟨by decide, fun h => absurd h.1 (by decide), by decide, fun h => ?_⟩
  obtain ⟨e', he', hseen, -⟩ := h _ rfl _ rfl _ rfl ['b'] (by decide)
  have hversion : e'.dbVersion = minInt64 := by
    revert e'
    decide
  rw [hversion] at hseen
  exact absurd hseen (by decide)

end CrSqlite
