import CrSqlite.Reachable

/-!
# UpdateLog - what a local UPDATE logs

The update trigger asks for each column whether `NEW.c != OLD.c`, and leaves the rest to
the primary key of the clock table: an entry in conflict is raised, else one is added.
What it should log is said here over the clock table as a whole, and compared.

Main results:

- Theorem {lit}`logChanges_eq_loggedClock`: under its condition the trigger logs exactly
  the columns that change.
- Theorem {lit}`updateLogged_iff`: the updates that are logged exactly.
-/

namespace CrSqlite

/-! ## What an UPDATE should log -/

/-- The columns outside the key whose new value `IS NOT` the old one. -/
def changedColumns (info : TableInfo) (old new : BaseRow) : List Text :=
  (info.nonPks.map ColumnInfo.name).filter fun c => ¬ (new.val c).Is (old.val c)

/-- The entries of a key and a column name. -/
def entriesOf (key : Key) (col : Text) (clock : List ClockEntry) : List ClockEntry :=
  clock.filter fun e => canonKey e.key = canonKey key ∧ e.colName = col

/-- An entry one version later, of this site. -/
def ClockEntry.raise (next : Int) (e : ClockEntry) : ClockEntry :=
  { e with colVersion := e.colVersion + 1, dbVersion := next, siteId := none }

/-- The clock table after an UPDATE as it should be: the entries of the changed columns are
raised, those that are missing are created, and every other entry is as before. -/
def loggedClock (next : Int) (key : Key) (cols : List Text) (clock : List ClockEntry) :
    List ClockEntry :=
  (clock.map fun e =>
      if canonKey e.key = canonKey key ∧ e.colName ∈ cols then e.raise next else e) ++
    (cols.filter fun c => entriesOf key c clock = []).map fun c => ⟨key, c, 1, next, none⟩

/-- When the trigger logs a change of a column: neither value is NULL, and there is no
entry to raise, or one that the primary key of the clock table finds and whose version has
not reached the largest integer. -/
def Logs (clock : List ClockEntry) (old new : BaseRow) (col : Text) : Prop :=
  SqlValue.Ne (new.val col) (old.val col) ∧
    (entriesOf old.key col clock = [] ∨
      SqlValue.null ∉ old.key ∧ ∀ e ∈ entriesOf old.key col clock, e.colVersion < maxInt64)

instance (clock : List ClockEntry) (old new : BaseRow) (col : Text) :
    Decidable (Logs clock old new col) :=
  inferInstanceAs (Decidable (_ ∧ _))

/-! ## One column -/

theorem Ne.not_is {v w : SqlValue} (h : SqlValue.Ne v w) : ¬ v.Is w :=
  h.2.2

/-- The entries of a key and a column. -/
theorem mem_entriesOf {key : Key} {col : Text} {clock : List ClockEntry} {e : ClockEntry} :
    e ∈ entriesOf key col clock ↔
      e ∈ clock ∧ canonKey e.key = canonKey key ∧ e.colName = col := by
  simp [entriesOf]

section OneColumn

variable {next : Int} {key : Key} {col : Text} {clock : List ClockEntry}

/-- A key with a NULL conflicts with no entry. -/
theorem not_conflicts_of_null (hnull : SqlValue.null ∈ key) (v d : Int) (s : Option Blob)
    (e : ClockEntry) : ¬ Keyed.Conflicts ClockEntry.ident ⟨key, col, v, d, s⟩ e := by
  intro h
  have hnone : keyClass key = none := keyClass_eq_none_iff.mpr hnull
  exact h.1 (by rw [ClockEntry.ident, hnone, Option.map_none])

/-- A key without NULLs conflicts with its own entries. -/
theorem conflicts_iff_entry (hnull : SqlValue.null ∉ key) (v d : Int) (s : Option Blob)
    (e : ClockEntry) : Keyed.Conflicts ClockEntry.ident ⟨key, col, v, d, s⟩ e ↔
      canonKey e.key = canonKey key ∧ e.colName = col := by
  have hc : keyClass key = some (canonKey key) := keyClass_eq_some_iff.mpr ⟨hnull, rfl⟩
  have hident : ClockEntry.ident ⟨key, col, v, d, s⟩ = some (canonKey key, col) :=
    ClockEntry.ident_eq_some_iff.mpr ⟨hc, rfl⟩
  rw [Keyed.conflicts_iff hident, ClockEntry.ident_eq_some_iff, keyClass_of_canonKey hc]

/-- Without an entry of the column one is added. -/
theorem logChange_of_nil (h : entriesOf key col clock = []) :
    logChange false next key clock col = clock ++ [⟨key, col, 1, next, none⟩] := by
  have hany : (clock.any fun b => Keyed.Conflicts ClockEntry.ident
      ⟨key, col, 1, next, none⟩ b) = false := by
    rw [List.any_eq_false]
    intro e he
    by_cases hnull : SqlValue.null ∈ key
    · simpa using not_conflicts_of_null hnull 1 next none e
    · rw [decide_eq_true_eq, conflicts_iff_entry hnull]
      intro hkey
      have hmem : e ∈ entriesOf key col clock := mem_entriesOf.mpr ⟨he, hkey⟩
      rw [h] at hmem
      exact List.not_mem_nil hmem
  simp [logChange, Keyed.upsert, hany]

/-- Under a key with a NULL an entry is added in any case. -/
theorem logChange_of_null (hnull : SqlValue.null ∈ key) :
    logChange false next key clock col = clock ++ [⟨key, col, 1, next, none⟩] := by
  have hany : (clock.any fun b => Keyed.Conflicts ClockEntry.ident
      ⟨key, col, 1, next, none⟩ b) = false := by
    rw [List.any_eq_false]
    intro e _
    simpa using not_conflicts_of_null hnull 1 next none e
  simp [logChange, Keyed.upsert, hany]

/-- Under a key without NULLs the entries of the column are raised. -/
theorem logChange_of_ne_nil (hnull : SqlValue.null ∉ key) (h : entriesOf key col clock ≠ []) :
    logChange false next key clock col =
      clock.map fun e =>
        if canonKey e.key = canonKey key ∧ e.colName = col then e.bump next else e := by
  obtain ⟨e, he⟩ := List.exists_mem_of_ne_nil _ h
  obtain ⟨hmem, hkey⟩ := mem_entriesOf.mp he
  have hany : (clock.any fun b => Keyed.Conflicts ClockEntry.ident
      ⟨key, col, 1, next, none⟩ b) = true := by
    rw [List.any_eq_true]
    exact ⟨e, hmem, by rw [decide_eq_true_eq, conflicts_iff_entry hnull]; exact hkey⟩
  rw [logChange, if_neg Bool.false_ne_true, Keyed.upsert, if_pos hany]
  simp only [conflicts_iff_entry hnull]

/-- Changes that keep key and column name pass through the selection. -/
theorem entriesOf_map {g : ClockEntry → ClockEntry}
    (hg : ∀ e, (g e).key = e.key ∧ (g e).colName = e.colName) :
    entriesOf key col (clock.map g) = (entriesOf key col clock).map g := by
  rw [entriesOf, List.filter_map, entriesOf]
  congr 1
  apply List.filter_congr
  intro e _
  simp [hg]

/-- Logging a column leaves the entries of every other column. -/
theorem entriesOf_logChange_of_ne {col' : Text} (hne : col' ≠ col) :
    entriesOf key col' (logChange false next key clock col) = entriesOf key col' clock := by
  by_cases hnil : entriesOf key col clock = []
  · rw [logChange_of_nil hnil]
    simp [entriesOf, Ne.symm hne]
  by_cases hnull : SqlValue.null ∈ key
  · rw [logChange_of_null hnull]
    simp [entriesOf, Ne.symm hne]
  rw [logChange_of_ne_nil hnull hnil, entriesOf_map]
  · refine (List.map_congr_left fun e he => ?_).trans (List.map_id _)
    have hcol := (mem_entriesOf.mp he).2.2
    rw [if_neg fun h => hne (hcol.symm.trans h.2)]
    rfl
  · intro e
    split <;> exact ⟨rfl, rfl⟩

/-- The entries of a column after the trigger logged it. -/
def loggedEntries (next : Int) (key : Key) (col : Text) (es : List ClockEntry) :
    List ClockEntry :=
  if es = [] ∨ SqlValue.null ∈ key then es ++ [⟨key, col, 1, next, none⟩]
  else es.map (ClockEntry.bump next)

theorem entriesOf_fresh : entriesOf key col [⟨key, col, 1, next, none⟩] =
    [⟨key, col, 1, next, none⟩] := by
  simp [entriesOf]

/-- Entries in two lists are in both. -/
theorem entriesOf_append (xs ys : List ClockEntry) :
    entriesOf key col (xs ++ ys) = entriesOf key col xs ++ entriesOf key col ys :=
  List.filter_append xs ys

/-- To log a column changes its entry, or makes one. -/
theorem entriesOf_logChange_self :
    entriesOf key col (logChange false next key clock col) =
      loggedEntries next key col (entriesOf key col clock) := by
  by_cases hnil : entriesOf key col clock = []
  · rw [logChange_of_nil hnil, entriesOf_append, entriesOf_fresh, loggedEntries,
      if_pos (Or.inl hnil)]
  by_cases hnull : SqlValue.null ∈ key
  · rw [logChange_of_null hnull, entriesOf_append, entriesOf_fresh, loggedEntries,
      if_pos (Or.inr hnull)]
  rw [logChange_of_ne_nil hnull hnil, entriesOf_map, loggedEntries,
    if_neg (not_or.mpr ⟨hnil, hnull⟩)]
  · apply List.map_congr_left
    intro e he
    rw [if_pos (mem_entriesOf.mp he).2]
  · intro e
    split <;> exact ⟨rfl, rfl⟩

end OneColumn

/-! ## All columns -/

section AllColumns

variable {next : Int} {key : Key} {cols : List Text}

/-- The trigger logs each of its columns once. -/
theorem entriesOf_logChanges (hcols : cols.Nodup) (clock : List ClockEntry) (col : Text) :
    entriesOf key col (logChanges false next key cols clock) =
      if col ∈ cols then loggedEntries next key col (entriesOf key col clock)
      else entriesOf key col clock := by
  induction cols generalizing clock with
  | nil => rfl
  | cons c cs ih =>
      obtain ⟨hc, hcs⟩ := List.nodup_cons.mp hcols
      have hstep : logChanges false next key (c :: cs) clock =
          logChanges false next key cs (logChange false next key clock c) := rfl
      rw [hstep, ih hcs]
      by_cases hcol : col = c
      · subst hcol
        rw [if_neg hc, if_pos List.mem_cons_self, entriesOf_logChange_self]
      · rw [entriesOf_logChange_of_ne hcol]
        simp [hcol]

/-- What should be logged of a column. -/
theorem entriesOf_loggedClock (hcols : cols.Nodup) (clock : List ClockEntry) (col : Text) :
    entriesOf key col (loggedClock next key cols clock) =
      if col ∈ cols then
        if entriesOf key col clock = [] then [⟨key, col, 1, next, none⟩]
        else (entriesOf key col clock).map (ClockEntry.raise next)
      else entriesOf key col clock := by
  have hraised : entriesOf key col (clock.map fun e =>
      if canonKey e.key = canonKey key ∧ e.colName ∈ cols then e.raise next else e) =
      if col ∈ cols then (entriesOf key col clock).map (ClockEntry.raise next)
      else entriesOf key col clock := by
    rw [entriesOf_map]
    · split_ifs with hcol
      · apply List.map_congr_left
        intro e he
        obtain ⟨-, hkey, rfl⟩ := mem_entriesOf.mp he
        rw [if_pos ⟨hkey, hcol⟩]
      · refine (List.map_congr_left fun e he => ?_).trans (List.map_id _)
        obtain ⟨-, -, rfl⟩ := mem_entriesOf.mp he
        rw [if_neg fun h => hcol h.2]
        rfl
    · intro e
      split <;> exact ⟨rfl, rfl⟩
  have hnew : ∀ cs : List Text, cs.Nodup →
      entriesOf key col (cs.map fun c => ⟨key, c, 1, next, none⟩) =
        if col ∈ cs then [⟨key, col, 1, next, none⟩] else [] := by
    intro cs hcs
    induction cs with
    | nil => rfl
    | cons c cs ih =>
        obtain ⟨hc, hcs⟩ := List.nodup_cons.mp hcs
        rw [List.map_cons, ← List.singleton_append, entriesOf_append, ih hcs]
        by_cases hcol : col = c
        · subst hcol
          rw [entriesOf_fresh, if_neg hc, if_pos List.mem_cons_self, List.append_nil]
        · simp [entriesOf, hcol, Ne.symm hcol]
  rw [loggedClock, entriesOf_append, hraised, hnew _ (hcols.filter _)]
  by_cases hcol : col ∈ cols
  · by_cases hnil : entriesOf key col clock = []
    · simp [hcol, hnil]
    · simp [hcol, hnil]
  · simp [hcol]

/-- Where each column has no entry, or one that can be raised, the trigger logs its columns
exactly. -/
theorem logChanges_eq_loggedClock (hcols : cols.Nodup) {clock : List ClockEntry}
    (h : ∀ c ∈ cols, entriesOf key c clock = [] ∨
      SqlValue.null ∉ key ∧ ∀ e ∈ entriesOf key c clock, e.colVersion < maxInt64) :
    logChanges false next key cols clock = loggedClock next key cols clock := by
  induction cols generalizing clock with
  | nil => simp [loggedClock]
  | cons c cs ih =>
      obtain ⟨hc, hcs⟩ := List.nodup_cons.mp hcols
      have hne : ∀ d ∈ cs, d ≠ c := fun d hd h => hc (h ▸ hd)
      have hother : ∀ d ∈ cs, entriesOf key d (logChange false next key clock c) =
          entriesOf key d clock := fun d hd => entriesOf_logChange_of_ne (hne d hd)
      have hstep : logChanges false next key (c :: cs) clock =
          logChanges false next key cs (logChange false next key clock c) := rfl
      have hrest : ∀ d ∈ cs, entriesOf key d (logChange false next key clock c) = [] ∨
          SqlValue.null ∉ key ∧
            ∀ e ∈ entriesOf key d (logChange false next key clock c), e.colVersion < maxInt64 := by
        intro d hd
        rw [hother d hd]
        exact h d (List.mem_cons_of_mem c hd)
      have hfilter : (cs.filter fun d => entriesOf key d (logChange false next key clock c) = []) =
          cs.filter fun d => entriesOf key d clock = [] := by
        apply List.filter_congr
        intro d hd
        rw [hother d hd]
      rw [hstep, ih hcs hrest, loggedClock, hfilter, loggedClock]
      by_cases hnil : entriesOf key c clock = []
      · -- the entry of the first column is added behind the others
        have hold : (clock.map fun e =>
            if canonKey e.key = canonKey key ∧ e.colName ∈ cs then e.raise next else e) =
            clock.map fun e =>
              if canonKey e.key = canonKey key ∧ e.colName ∈ c :: cs then e.raise next else e := by
          apply List.map_congr_left
          intro e he
          have hec : ¬ (canonKey e.key = canonKey key ∧ e.colName = c) := by
            intro hkey
            have hmem : e ∈ entriesOf key c clock := mem_entriesOf.mpr ⟨he, hkey⟩
            rw [hnil] at hmem
            exact List.not_mem_nil hmem
          have hiff : (canonKey e.key = canonKey key ∧ e.colName ∈ cs) ↔
              (canonKey e.key = canonKey key ∧ e.colName ∈ c :: cs) := by
            rw [List.mem_cons]
            tauto
          simp only [hiff]
        rw [logChange_of_nil hnil, List.map_append, hold]
        simp [hnil, hc]
      · -- the entries of the first column are raised where they stand
        obtain ⟨hnull, hbelow⟩ := (h c List.mem_cons_self).resolve_left hnil
        rw [logChange_of_ne_nil hnull hnil, List.map_map]
        simp only [List.filter_cons, hnil, decide_false, Bool.false_eq_true, if_false]
        congr 1
        apply List.map_congr_left
        intro e he
        by_cases hec : canonKey e.key = canonKey key ∧ e.colName = c
        · have hlt := hbelow e (mem_entriesOf.mpr ⟨he, hec⟩)
          have hbump : e.bump next = e.raise next := by
            have hmin : min (e.colVersion + 1) maxInt64 = e.colVersion + 1 := by omega
            rw [ClockEntry.bump, ClockEntry.raise, hmin]
          have hcol : e.colName ∉ cs := fun hmem => hne _ hmem hec.2
          simp [hec, hbump, ClockEntry.raise, hec.2 ▸ hcol]
        · have hiff : (canonKey e.key = canonKey key ∧ e.colName ∈ cs) ↔
              (canonKey e.key = canonKey key ∧ e.colName ∈ c :: cs) := by
            rw [List.mem_cons]
            tauto
          simp only [Function.comp_apply, if_neg hec, hiff]

/-- Entries that are the same up to order when each is changed in one of two ways, of
which the first never gives the larger version, are changed to the same versions. -/
theorem colVersion_eq_of_perm {f g : ClockEntry → ClockEntry} {es : List ClockEntry}
    (hle : ∀ e ∈ es, (f e).colVersion ≤ (g e).colVersion) (h : (es.map f).Perm (es.map g)) :
    ∀ e ∈ es, (f e).colVersion = (g e).colVersion := by
  have hsum := (h.map ClockEntry.colVersion).sum_eq
  rw [List.map_map, List.map_map] at hsum
  intro e he
  by_contra hne
  have hlt : (f e).colVersion < (g e).colVersion := lt_of_le_of_ne (hle e he) hne
  exact absurd hsum (List.sum_lt_sum _ _ hle ⟨e, he, hlt⟩).ne

/-- Where the entries of a column are as they should be, the trigger logged the column
and could raise them. -/
theorem logged_of_perm {es : List ClockEntry} {col : Text} {logged : Prop} [Decidable logged]
    (h : (if logged then loggedEntries next key col es else es).Perm
      (if es = [] then [⟨key, col, 1, next, none⟩] else es.map (ClockEntry.raise next))) :
    logged ∧ (es = [] ∨ SqlValue.null ∉ key ∧ ∀ e ∈ es, e.colVersion < maxInt64) := by
  by_cases hnil : es = []
  · refine ⟨?_, Or.inl hnil⟩
    by_contra hnot
    rw [if_neg hnot, if_pos hnil, hnil] at h
    exact List.cons_ne_nil _ _ h.symm.eq_nil
  rw [if_neg hnil] at h
  by_cases hlogged : logged
  · rw [if_pos hlogged] at h
    have hnull : SqlValue.null ∉ key := by
      intro hnull
      rw [loggedEntries, if_pos (Or.inr hnull)] at h
      have hlen := h.length_eq
      simp at hlen
    rw [loggedEntries, if_neg (not_or.mpr ⟨hnil, hnull⟩)] at h
    have heq := colVersion_eq_of_perm (fun e _ => min_le_left _ _) h
    refine ⟨hlogged, Or.inr ⟨hnull, ?_⟩⟩
    intro e he
    have hmin : min (e.colVersion + 1) maxInt64 = e.colVersion + 1 := heq e he
    omega
  · rw [if_neg hlogged, ← List.map_id es, List.map_map] at h
    obtain ⟨e, he⟩ := List.exists_mem_of_ne_nil _ hnil
    have hle : ∀ e ∈ es, (id e).colVersion ≤ (e.raise next).colVersion :=
      fun e _ => (lt_add_one e.colVersion).le
    have heq : e.colVersion = e.colVersion + 1 := colVersion_eq_of_perm hle h e he
    omega

end AllColumns

/-! ## The UPDATE as a whole -/

/-- An UPDATE of one row of a table that leaves its key as it is and that the constraints
admit. -/
structure Updates (db : Db) (t : CrrTable) (i : Nat) (old new : BaseRow) : Prop where
  found : db.findTable t.info.tblName = some t
  row : t.rows[i]? = some old
  key : new.key = old.key
  admitted : admits t (t.rows.eraseIdx i) new = true

/-- The UPDATE is logged exactly: in the clock table of its table the entries of the
changed columns and no others are new, in any order, and the other tables are as before. -/
def UpdateLogged (db : Db) (t : CrrTable) (old new : BaseRow) (db' : Db) : Prop :=
  (∃ t', db'.findTable t.info.tblName = some t' ∧
    t'.clock.Perm (loggedClock db.nextDbVersion old.key (changedColumns t.info old new) t.clock)) ∧
  ∀ tbl, tbl ≠ t.info.tblName → db'.findTable tbl = db.findTable tbl

/-- The columns for which the trigger asks nothing more. -/
def loggedColumns (info : TableInfo) (old new : BaseRow) : List Text :=
  (info.nonPks.map ColumnInfo.name).filter fun c => SqlValue.Ne (new.val c) (old.val c)

/-- A changed column is logged exactly when SQL finds the values different. -/
theorem mem_loggedColumns {info : TableInfo} {old new : BaseRow} {col : Text}
    (h : col ∈ changedColumns info old new) :
    col ∈ loggedColumns info old new ↔ SqlValue.Ne (new.val col) (old.val col) := by
  have hname := (List.mem_filter.mp h).1
  simp [loggedColumns, hname]

/-- The trigger asks about no column that does not change. -/
theorem loggedColumns_eq {info : TableInfo} {old new : BaseRow}
    (h : ∀ col ∈ changedColumns info old new, SqlValue.Ne (new.val col) (old.val col)) :
    loggedColumns info old new = changedColumns info old new := by
  apply List.filter_congr
  intro c hc
  rw [decide_eq_decide]
  constructor
  · exact fun hne => Ne.not_is hne
  · exact fun hnot => h c (List.mem_filter.mpr ⟨hc, by simpa using hnot⟩)

/-- The state after the UPDATE. -/
theorem Updates.clock_eq {db : Db} {t : CrrTable} {i : Nat} {old new : BaseRow}
    (h : Updates db t i old new) : ∃ t',
      t'.info = t.info ∧
      t'.clock = logChanges false db.nextDbVersion old.key (loggedColumns t.info old new)
        t.clock ∧
      db.write t.info.tblName (.update i new) = db.cacheDbVersion.setTable t' := by
  have hw : localWrite db.nextDbVersion t (.update i new) =
      some (updateTrigger false db.nextDbVersion old new { t with rows := t.rows.set i new }) := by
    simp only [localWrite, updateRow, h.row, h.admitted, if_true]
  refine ⟨updateTrigger false db.nextDbVersion old new { t with rows := t.rows.set i new },
    rfl, ?_, ?_⟩
  · rw [updateTrigger, h.key]
    rfl
  · rw [Db.write, h.found, Option.bind_some, hw]

section Main

variable [Sqlite] {db : Db} {t : CrrTable} {i : Nat} {old new : BaseRow}

/-- In every state reached an UPDATE is logged exactly when for each column that changes
neither value is NULL and there is no entry to raise, or one that can be raised. -/
theorem updateLogged_iff (hdb : db.Reached) (h : Updates db t i old new) :
    UpdateLogged db t old new (db.write t.info.tblName (.update i new)) ↔
      ∀ col ∈ changedColumns t.info old new, Logs t.clock old new col := by
  have hnames : (t.info.nonPks.map ColumnInfo.name).Nodup :=
    nodup_nonPks (hdb.columns t (findTable_mem h.found))
  have hchanged : (changedColumns t.info old new).Nodup := hnames.filter _
  have hlogged : (loggedColumns t.info old new).Nodup := hnames.filter _
  obtain ⟨t', hinfo, hclock, hwrite⟩ := h.clock_eq
  have hname : t'.info.tblName = t.info.tblName := by rw [hinfo]
  have hfind : db.cacheDbVersion.findTable t.info.tblName = some t := h.found
  rw [hwrite]
  constructor
  · rintro ⟨⟨u, hu, hperm⟩, -⟩
    rw [findTable_setTable hfind hname, if_pos rfl, Option.some.injEq] at hu
    subst hu
    rw [hclock] at hperm
    intro col hcol
    -- the entries of one column before and after
    have hentries : (entriesOf old.key col (logChanges false db.nextDbVersion old.key
        (loggedColumns t.info old new) t.clock)).Perm (entriesOf old.key col (loggedClock
        db.nextDbVersion old.key (changedColumns t.info old new) t.clock)) := hperm.filter _
    rw [entriesOf_logChanges hlogged, entriesOf_loggedClock hchanged, if_pos hcol] at hentries
    obtain ⟨hmem, hraise⟩ := logged_of_perm hentries
    exact ⟨(mem_loggedColumns hcol).mp hmem, hraise⟩
  · intro hlogs
    have hcols : loggedColumns t.info old new = changedColumns t.info old new :=
      loggedColumns_eq fun col hcol => (hlogs col hcol).1
    refine ⟨⟨t', ?_, ?_⟩, ?_⟩
    · rw [findTable_setTable hfind hname, if_pos rfl]
    · rw [hclock, hcols, logChanges_eq_loggedClock hchanged fun c hc => (hlogs c hc).2]
    · intro tbl hne
      rw [findTable_setTable hfind hname, if_neg hne]
      rfl

end Main

/-- The update of a logged row, in a later transaction. -/
theorem updateLogged_iff_foo :
    let db := ((fooDb [2]).write ['f', 'o', 'o'] (.insert (fooRow 1 2))).commit
    let t : CrrTable := ⟨fooSchema, [fooRow 1 2], [⟨[.integer 1], ['b'], 1, 1, none⟩]⟩
    UpdateLogged db t (fooRow 1 2) (fooRow 1 3)
      (db.write ['f', 'o', 'o'] (.update 0 (fooRow 1 3))) :=
  (@updateLogged_iff integralSqlite _ ⟨fooSchema, [fooRow 1 2], _⟩ 0 (fooRow 1 2) (fooRow 1 3)
    (@Db.Reached.commit integralSqlite _ (@Db.Reached.exec integralSqlite _
      (@Db.Fresh.reached integralSqlite _ (fooDb_fresh [2]))
      (.write ['f', 'o', 'o'] (.insert (fooRow 1 2))) trivial))
    ⟨rfl, rfl, rfl, by decide⟩).mpr (by decide)

/-- The row with the key 1 whose other column is NULL. -/
def fooNullRow : BaseRow :=
  ⟨[.integer 1], fun _ => .null⟩

/-- Not every UPDATE is logged: the first value of a column that was NULL is not. -/
theorem update_of_null_not_logged :
    ¬ ∀ (db : Db) (t : CrrTable) (i : Nat) (old new : BaseRow),
      @Db.Reached integralSqlite db → Updates db t i old new →
      UpdateLogged db t old new (db.write t.info.tblName (.update i new)) := by
  intro h
  have hreached := @Db.Reached.commit integralSqlite _ (@Db.Reached.exec integralSqlite _
    (@Db.Fresh.reached integralSqlite _ (fooDb_fresh [2]))
    (.write ['f', 'o', 'o'] (.insert fooNullRow)) trivial)
  obtain ⟨⟨t', ht', hperm⟩, -⟩ := h _
    ⟨fooSchema, [fooNullRow], [⟨[.integer 1], ['b'], 1, 1, none⟩]⟩ 0 fooNullRow (fooRow 1 5)
    hreached ⟨rfl, rfl, rfl, by decide⟩
  obtain rfl := Option.some.inj ht'
  revert hperm
  decide

end CrSqlite
