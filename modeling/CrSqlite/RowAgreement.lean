import CrSqlite.MergeStatements
import Mathlib

/-!
# RowAgreement - rows and clock entries exist together

Whether a key's row exists should be readable off the clock table: the key has
entries and none of them is the delete sentinel.  The delete check of a merge
and the feed rely on it.

Main results:

- Theorem {lit}`rowsAgree_step`: every statement under the stated condition
  keeps the agreement.
- Theorem {lit}`rowsAgree_run`: so does every run of such statements from empty
  tables.
- Theorem {lit}`rowsAgree_fails_after_reinsert`: inserting a deleted key again
  breaks it.
-/

namespace CrSqlite

/-! ## Which keys have rows and entries -/

/-- A key with its numbers made comparable; two keys that SQL's `IS` finds equal
in every column have the same one. -/
def canonKey (key : Key) : List SqlValue :=
  key.map SqlValue.canon

/-- Some row of the table has the key. -/
def HasRow (rows : List BaseRow) (k : List SqlValue) : Prop :=
  ∃ r ∈ rows, canonKey r.key = k

/-- Some entry of the clock table has the key and the column name. -/
def HasEntry (clock : List ClockEntry) (k : List SqlValue) (col : Text) : Prop :=
  ∃ e ∈ clock, canonKey e.key = k ∧ e.colName = col

/-- The base table and the clock table agree about the rows that exist. -/
def RowsAgree (t : CrrTable) : Prop :=
  ∀ key : Key, (∃ r ∈ t.rows, canonKey r.key = canonKey key) ↔
    (∃ e ∈ t.clock, canonKey e.key = canonKey key) ∧
      ∀ e ∈ t.clock, canonKey e.key = canonKey key → e.colName ≠ delSentinel

/-- The agreement in terms of the two predicates. -/
theorem rowsAgree_iff {t : CrrTable} : RowsAgree t ↔
    ∀ k, HasRow t.rows k ↔ (∃ col, HasEntry t.clock k col) ∧
      ¬ HasEntry t.clock k delSentinel := by
  have hdel : ∀ k, (¬ HasEntry t.clock k delSentinel) ↔
      ∀ e ∈ t.clock, canonKey e.key = k → e.colName ≠ delSentinel := by
    intro k
    simp [HasEntry]
  have hex : ∀ k, (∃ col, HasEntry t.clock k col) ↔ ∃ e ∈ t.clock, canonKey e.key = k := by
    intro k
    constructor
    · rintro ⟨col, e, he, hk, -⟩
      exact ⟨e, he, hk⟩
    · rintro ⟨e, he, hk⟩
      exact ⟨e.colName, e, he, hk, rfl⟩
  constructor
  · intro h k
    rw [hdel, hex]
    constructor
    · rintro ⟨r, hr, rfl⟩
      exact (h r.key).mp ⟨r, hr, rfl⟩
    · rintro ⟨⟨e, he, rfl⟩, hnot⟩
      exact (h e.key).mpr ⟨⟨e, he, rfl⟩, hnot⟩
  · intro h key
    have hkey := h (canonKey key)
    rw [hdel, hex] at hkey
    exact hkey

/-- A key of the class of another one without NULLs is such a key. -/
theorem keyClass_of_canonKey {key key' : Key} {c : List SqlValue}
    (hc : keyClass key' = some c) : canonKey key = c ↔ keyClass key = some c := by
  obtain ⟨hnull, rfl⟩ := keyClass_eq_some_iff.mp hc
  rw [keyClass_eq_some_iff]
  refine ⟨fun h => ⟨?_, h⟩, fun h => h.2⟩
  intro hmem
  have hcanon : SqlValue.null ∈ key'.map SqlValue.canon := by
    have h' : key.map SqlValue.canon = key'.map SqlValue.canon := h
    rw [← h']
    exact List.mem_map.mpr ⟨.null, hmem, rfl⟩
  obtain ⟨v, hv, hvn⟩ := List.mem_map.mp hcanon
  exact hnull (SqlValue.canon_eq_null_iff.mp hvn ▸ hv)

theorem canonKey_of_keyClass {key : Key} {c : List SqlValue} (h : keyClass key = some c) :
    canonKey key = c :=
  (keyClass_eq_some_iff.mp h).2

/-- For a key without NULLs the lookups find out. -/
theorem hasEntry_iff {t : CrrTable} {key : Key} {c : List SqlValue} {col : Text}
    (hc : keyClass key = some c) : HasEntry t.clock c col ↔ t.entry c col ≠ none := by
  rw [CrrTable.entry, ← Keyed.exists_key_iff]
  simp only [HasEntry, ClockEntry.ident_eq_some_iff, keyClass_of_canonKey hc]

/-- A key without NULLs has a row exactly when one is found. -/
theorem hasRow_iff {t : CrrTable} {key : Key} {c : List SqlValue}
    (hc : keyClass key = some c) : HasRow t.rows c ↔ t.row c ≠ none := by
  rw [CrrTable.row, ← Keyed.exists_key_iff]
  simp only [HasRow, BaseRow.ident, keyClass_of_canonKey hc]

/-- Rows or entries in conflict have the same canonical key. -/
private theorem canonKey_of_conflicts {a b : ClockEntry}
    (h : Keyed.Conflicts ClockEntry.ident a b) :
    canonKey a.key = canonKey b.key ∧ a.colName = b.colName := by
  obtain ⟨⟨c, col⟩, hc⟩ := Option.ne_none_iff_exists'.mp h.1
  have ha := ClockEntry.ident_eq_some_iff.mp hc
  have hb := ClockEntry.ident_eq_some_iff.mp (h.2 ▸ hc)
  exact ⟨(canonKey_of_keyClass ha.1).trans (canonKey_of_keyClass hb.1).symm,
    ha.2.trans hb.2.symm⟩

/-! ## What the writes do to entries -/

/-- To log a column makes its entry, and no other. -/
private theorem hasEntry_logChange {next : Int} {key : Key} {col col' : Text}
    {clock : List ClockEntry} {k : List SqlValue} :
    HasEntry (logChange false next key clock col) k col' ↔
      HasEntry clock k col' ∨ (k = canonKey key ∧ col' = col) := by
  simp only [logChange, Bool.false_eq_true, if_false]
  constructor
  · rintro ⟨e, he, rfl, rfl⟩
    rcases Keyed.mem_upsert he with he | rfl | ⟨o, ho, -, rfl⟩
    · exact Or.inl ⟨e, he, rfl, rfl⟩
    · exact Or.inr ⟨rfl, rfl⟩
    · exact Or.inl ⟨o, ho, rfl, rfl⟩
  · rintro (⟨e, he, hk, hcol⟩ | ⟨rfl, rfl⟩)
    · rcases Keyed.mem_upsert_or ClockEntry.ident (f := ClockEntry.bump next)
        (a := ⟨key, col, 1, next, none⟩) he with he' | ⟨-, he'⟩
      · exact ⟨e, he', hk, hcol⟩
      · exact ⟨_, he', hk, hcol⟩
    · rcases Keyed.exists_mem_upsert ClockEntry.ident
        (f := ClockEntry.bump next) (a := ⟨key, col', 1, next, none⟩) (l := clock)
        with h | ⟨b, -, hconf, hb⟩
      · exact ⟨_, h, rfl, rfl⟩
      · obtain ⟨hk, hcol⟩ := canonKey_of_conflicts hconf
        exact ⟨_, hb, hk.symm, hcol.symm⟩

/-- A trigger adds entries of its row for the columns it logs. -/
theorem hasEntry_logChanges {next : Int} {key : Key} {cols : List Text} {col : Text}
    {clock : List ClockEntry} {k : List SqlValue} :
    HasEntry (logChanges false next key cols clock) k col ↔
      HasEntry clock k col ∨ (k = canonKey key ∧ col ∈ cols) := by
  induction cols generalizing clock with
  | nil => simp
  | cons d ds ih =>
      have h : logChanges false next key (d :: ds) clock =
          logChanges false next key ds (logChange false next key clock d) := rfl
      rw [h, ih, hasEntry_logChange, List.mem_cons]
      tauto

/-- A merge adds the winner's entry. -/
theorem hasEntry_setWinnerClock {next : Int} {key : Key} {col col' : Text}
    {ch : Change} {t : CrrTable} {k : List SqlValue} :
    HasEntry (setWinnerClock next key col ch t).clock k col' ↔
      HasEntry t.clock k col' ∨ (k = canonKey key ∧ col' = col) := by
  unfold setWinnerClock
  constructor
  · rintro ⟨e, he, rfl, rfl⟩
    rcases Keyed.mem_put.mp he with rfl | ⟨he, -⟩
    · exact Or.inr ⟨rfl, rfl⟩
    · exact Or.inl ⟨e, he, rfl, rfl⟩
  · rintro (⟨e, he, hk, hcol⟩ | ⟨rfl, rfl⟩)
    · by_cases hconf : Keyed.Conflicts ClockEntry.ident
        ⟨key, col, ch.colVersion, max next ch.dbVersion, bindSiteId ch.siteId⟩ e
      · obtain ⟨hk', hcol'⟩ := canonKey_of_conflicts hconf
        exact ⟨_, Keyed.mem_put.mpr (Or.inl rfl), hk'.trans hk, hcol'.trans hcol⟩
      · exact ⟨e, Keyed.mem_put.mpr (Or.inr ⟨he, hconf⟩), hk, hcol⟩
    · exact ⟨_, Keyed.mem_put.mpr (Or.inl rfl), rfl, rfl⟩

/-! ## What the writes do to rows -/

/-- A key has a row when it is one of the keys. -/
private theorem hasRow_iff_mem {rows : List BaseRow} {k : List SqlValue} :
    HasRow rows k ↔ k ∈ rows.map fun r => canonKey r.key := by
  simp [HasRow]

/-- A row at the end is one of its key. -/
theorem hasRow_append {rows : List BaseRow} {r : BaseRow} {k : List SqlValue} :
    HasRow (rows ++ [r]) k ↔ HasRow rows k ∨ k = canonKey r.key := by
  simp [hasRow_iff_mem]

/-- A row that keeps its key takes no row from a key. -/
private theorem hasRow_set {rows : List BaseRow} {i : Nat} {old r : BaseRow}
    {k : List SqlValue} (hi : rows[i]? = some old)
    (hkey : canonKey r.key = canonKey old.key) :
    HasRow (rows.set i r) k ↔ HasRow rows k := by
  obtain ⟨hlt, hget⟩ := List.getElem?_eq_some_iff.mp hi
  have hself : rows.set i old = rows := by
    rw [← hget]
    exact List.set_getElem_self hlt
  rw [hasRow_iff_mem, hasRow_iff_mem, List.map_set, hkey, ← List.map_set, hself]

/-- The key of a row that is taken away has none. -/
private theorem hasRow_eraseIdx {rows : List BaseRow} {i : Nat} {old : BaseRow}
    {k : List SqlValue} (hi : rows[i]? = some old)
    (hother : ∀ r ∈ rows.eraseIdx i, canonKey r.key ≠ canonKey old.key) :
    HasRow (rows.eraseIdx i) k ↔ HasRow rows k ∧ k ≠ canonKey old.key := by
  obtain ⟨hlt, hget⟩ := List.getElem?_eq_some_iff.mp hi
  have hsplit : ∀ r, r ∈ rows → r ∈ rows.eraseIdx i ∨ r = old := by
    intro r hr
    rw [← List.take_append_drop i rows, ← List.getElem_cons_drop hlt, hget] at hr
    rw [List.eraseIdx_eq_take_drop_succ]
    simp only [List.mem_append, List.mem_cons] at hr ⊢
    tauto
  constructor
  · rintro ⟨r, hr, rfl⟩
    exact ⟨⟨r, List.mem_of_mem_eraseIdx hr, rfl⟩, hother r hr⟩
  · rintro ⟨⟨r, hr, rfl⟩, hne⟩
    rcases hsplit r hr with hr | rfl
    · exact ⟨r, hr, rfl⟩
    · exact absurd rfl hne

/-- Nor has a key whose rows are erased. -/
theorem hasRow_erase {rows : List BaseRow} {key : Key} {c k : List SqlValue}
    (hc : keyClass key = some c) :
    HasRow (Keyed.erase BaseRow.ident c rows) k ↔ HasRow rows k ∧ k ≠ c := by
  constructor
  · rintro ⟨r, hr, rfl⟩
    obtain ⟨hmem, hne⟩ := Keyed.mem_erase.mp hr
    exact ⟨⟨r, hmem, rfl⟩, fun h => hne ((keyClass_of_canonKey hc).mp h)⟩
  · rintro ⟨⟨r, hr, rfl⟩, hne⟩
    exact ⟨r, Keyed.mem_erase.mpr ⟨hr, fun h => hne (canonKey_of_keyClass h)⟩, rfl⟩

/-- An upsert leaves a row under its key. -/
theorem hasRow_upsert {rows : List BaseRow} {col : Text} {v : SqlValue}
    {new : BaseRow} {k : List SqlValue} :
    HasRow (Keyed.upsert BaseRow.ident (BaseRow.setColumn col v) new rows) k ↔
      HasRow rows k ∨ k = canonKey new.key := by
  constructor
  · rintro ⟨r, hr, rfl⟩
    rcases Keyed.mem_upsert hr with hr | rfl | ⟨o, ho, -, rfl⟩
    · exact Or.inl ⟨r, hr, rfl⟩
    · exact Or.inr rfl
    · exact Or.inl ⟨o, ho, rfl⟩
  · rintro (⟨r, hr, rfl⟩ | rfl)
    · rcases Keyed.mem_upsert_or BaseRow.ident (f := BaseRow.setColumn col v)
        (a := new) hr with hr' | ⟨-, hr'⟩
      · exact ⟨r, hr', rfl⟩
      · exact ⟨_, hr', rfl⟩
    · rcases Keyed.exists_mem_upsert BaseRow.ident
        (f := BaseRow.setColumn col v) (a := new) (l := rows) with h | ⟨b, -, hconf, hb⟩
      · exact ⟨new, h, rfl⟩
      · obtain ⟨c, hc⟩ := Option.ne_none_iff_exists'.mp hconf.1
        have hb' : b.ident = some c := hconf.2 ▸ hc
        exact ⟨_, hb, (canonKey_of_keyClass hb').trans (canonKey_of_keyClass hc).symm⟩

/-! ## The invariant and the condition -/

/-- Unique keys in both tables, and agreement about the rows that exist. -/
structure Agreement (t : CrrTable) : Prop where
  unique_rows : Keyed.Unique BaseRow.ident t.rows
  unique_clock : Keyed.Unique ClockEntry.ident t.clock
  agree : RowsAgree t

/-- The key text of a change is read alike by both decoders, as a key without
NULLs, if it is read as a key at all; and if the change is merged as a key alone, a row
has the key already or the constraints admit one with this key and the defaults. -/
def ReadsAsKey [Sqlite] (t : CrrTable) (ch : Change) : Prop :=
  ∀ parts ∈ splitQuoteConcat ch.pk t.info.pks.length, ∀ key ∈ readLiterals parts,
    SqlValue.null ∉ key ∧
      (extractWhereList t.info.pks ch.pk).map whereTexts = some parts ∧
      (KeyOnly t ch → HasRow t.rows (canonKey key) ∨
        constraintsOk t.schema ⟨key, t.schema.dflt⟩ = true)

/-- The statements that the triggers and the merge handle: an INSERT that
succeeds goes to a table with a non-key column and under a key that is not
marked deleted, an UPDATE that succeeds keeps the key, a DELETE of a row whose
key has a NULL leaves no second row with that key, a merged change carries a key
without NULLs, under which its insert is not ignored; and no column is called like the
delete sentinel. -/
def KeepsAgreement [Sqlite] (t : CrrTable) : Stmt → Prop
  | .write _ (.insert r) => admits t t.rows r = true →
      t.info.nonPks ≠ [] ∧ columnExists delSentinel t.info.nonPks = false ∧
        ¬ HasEntry t.clock (canonKey r.key) delSentinel
  | .write _ (.update i r) => ∀ old ∈ t.rows[i]?,
      admits t (t.rows.eraseIdx i) r = true →
      columnExists delSentinel t.info.nonPks = false ∧
        canonKey r.key = canonKey old.key
  | .write _ (.delete i) => ∀ old ∈ t.rows[i]?, SqlValue.null ∈ old.key →
      ∀ r ∈ t.rows.eraseIdx i, canonKey r.key ≠ canonKey old.key
  | .merge ch => ReadsAsKey t ch

instance (rows : List BaseRow) (k : List SqlValue) : Decidable (HasRow rows k) :=
  inferInstanceAs (Decidable (∃ r ∈ rows, _))

instance (clock : List ClockEntry) (k : List SqlValue) (col : Text) :
    Decidable (HasEntry clock k col) :=
  inferInstanceAs (Decidable (∃ e ∈ clock, _))

instance [Sqlite] (t : CrrTable) (ch : Change) : Decidable (ReadsAsKey t ch) :=
  inferInstanceAs (Decidable (∀ parts ∈ splitQuoteConcat ch.pk t.info.pks.length, _))

instance [Sqlite] (t : CrrTable) (s : Stmt) : Decidable (KeepsAgreement t s) :=
  match s with
  | .write _ (.insert r) =>
      inferInstanceAs (Decidable (admits t t.rows r = true → _))
  | .write _ (.update i _) => inferInstanceAs (Decidable (∀ old ∈ t.rows[i]?, _))
  | .write _ (.delete i) => inferInstanceAs (Decidable (∀ old ∈ t.rows[i]?, _))
  | .merge ch => inferInstanceAs (Decidable (ReadsAsKey t ch))

/-! ## Every statement keeps the agreement -/

/-- A row that is admitted conflicts with none. -/
theorem not_conflicts_of_admits {t : CrrTable} {others : List BaseRow} {r : BaseRow}
    (h : admits t others r = true) : ∀ b ∈ others, ¬ Keyed.Conflicts BaseRow.ident r b := by
  intro b hb hconf
  simp only [admits, Bool.and_eq_true, Bool.not_eq_true', List.any_eq_false] at h
  exact h.2 b hb (by simpa using hconf)

/-- A write that adds a row of a key that is not marked deleted, with entries of it, keeps
the agreement. -/
private theorem rowsAgree_added {t u : CrrTable} {k₀ : List SqlValue} {cols : List Text}
    (h : RowsAgree t) (hnew : cols ≠ [] ∨ HasRow t.rows k₀) (hcols : delSentinel ∉ cols)
    (hnot : ¬ HasEntry t.clock k₀ delSentinel)
    (hrows : ∀ k, HasRow u.rows k ↔ HasRow t.rows k ∨ k = k₀)
    (hentries : ∀ k col, HasEntry u.clock k col ↔
      HasEntry t.clock k col ∨ (k = k₀ ∧ col ∈ cols)) : RowsAgree u := by
  have hagree := rowsAgree_iff.mp h
  refine rowsAgree_iff.mpr fun k => ?_
  simp only [hrows, hentries, hagree k]
  constructor
  · rintro (⟨⟨col, hcol⟩, hno⟩ | rfl)
    · exact ⟨⟨col, Or.inl hcol⟩, by tauto⟩
    · rcases hnew with hne | hrow
      · obtain ⟨col, hcol⟩ := List.exists_mem_of_ne_nil _ hne
        exact ⟨⟨col, Or.inr ⟨rfl, hcol⟩⟩, by tauto⟩
      · obtain ⟨col, hcol⟩ := ((hagree k).mp hrow).1
        exact ⟨⟨col, Or.inl hcol⟩, by tauto⟩
  · rintro ⟨⟨col, hcol | ⟨rfl, -⟩⟩, hno⟩
    · exact Or.inl ⟨⟨col, hcol⟩, by tauto⟩
    · exact Or.inr rfl

/-- A write that removes the row of a key and marks the key deleted keeps the
agreement. -/
private theorem rowsAgree_removed {t u : CrrTable} {k₀ : List SqlValue} (h : RowsAgree t)
    (hrows : ∀ k, HasRow u.rows k ↔ HasRow t.rows k ∧ k ≠ k₀)
    (hentries : ∀ k col, HasEntry u.clock k col ↔
      HasEntry t.clock k col ∨ (k = k₀ ∧ col = delSentinel)) : RowsAgree u := by
  have hagree := rowsAgree_iff.mp h
  refine rowsAgree_iff.mpr fun k => ?_
  simp only [hrows, hentries, hagree k]
  constructor
  · rintro ⟨⟨⟨col, hcol⟩, hno⟩, hne⟩
    exact ⟨⟨col, Or.inl hcol⟩, by tauto⟩
  · rintro ⟨⟨col, hcol⟩, hno⟩
    have hne : k ≠ k₀ := fun h => hno (Or.inr ⟨h, trivial⟩)
    exact ⟨⟨⟨col, by tauto⟩, fun h => hno (Or.inl h)⟩, hne⟩

/-- An INSERT under a key that is not marked deleted logs every column of the new row. -/
private theorem agreement_insert {next : Int} {t : CrrTable} {r : BaseRow}
    (ht : Agreement t) (hadm : admits t t.rows r = true) (hcols : t.info.nonPks ≠ [])
    (hname : columnExists delSentinel t.info.nonPks = false)
    (hdel : ¬ HasEntry t.clock (canonKey r.key) delSentinel) :
    Agreement (insertTrigger false next r { t with rows := t.rows ++ [r] }) := by
  have hinfo : ({ t with rows := t.rows ++ [r] } : CrrTable).info = t.info := rfl
  have hnot : delSentinel ∉ t.info.nonPks.map ColumnInfo.name := by
    intro hmem
    obtain ⟨c, hc, hcn⟩ := List.mem_map.mp hmem
    simp [columnExists_iff.mpr ⟨c, hc, hcn⟩] at hname
  have hne : t.info.nonPks.map ColumnInfo.name ≠ [] := by simpa using hcols
  rw [insertTrigger, hinfo, if_neg hcols]
  exact ⟨ht.unique_rows.append (not_conflicts_of_admits hadm), unique_logChanges ht.unique_clock,
    rowsAgree_added ht.agree (Or.inl hne) hnot hdel (fun _ => hasRow_append)
      fun _ _ => hasEntry_logChanges⟩

/-- An UPDATE that keeps the key logs columns of a row that is there. -/
private theorem agreement_update {next : Int} {t : CrrTable} {i : Nat} {old r : BaseRow}
    (ht : Agreement t) (hi : t.rows[i]? = some old)
    (hadm : admits t (t.rows.eraseIdx i) r = true)
    (hname : columnExists delSentinel t.info.nonPks = false)
    (hkey : canonKey r.key = canonKey old.key) :
    Agreement (updateTrigger false next old r { t with rows := t.rows.set i r }) := by
  have hrow : HasRow t.rows (canonKey r.key) := ⟨old, List.mem_of_getElem? hi, hkey.symm⟩
  have hlogged : delSentinel ∉ (t.info.nonPks.map ColumnInfo.name).filter fun c =>
      SqlValue.Ne (r.val c) (old.val c) := by
    intro hmem
    obtain ⟨c, hc, hcn⟩ := List.mem_map.mp (List.mem_filter.mp hmem).1
    simp [columnExists_iff.mpr ⟨c, hc, hcn⟩] at hname
  have hrows : ∀ k, HasRow (t.rows.set i r) k ↔ HasRow t.rows k ∨ k = canonKey r.key := by
    intro k
    rw [hasRow_set hi hkey]
    exact ⟨Or.inl, fun h => h.elim id fun heq => heq ▸ hrow⟩
  exact ⟨ht.unique_rows.set (not_conflicts_of_admits hadm), unique_logChanges ht.unique_clock,
    rowsAgree_added ht.agree (Or.inr hrow) hlogged
      ((rowsAgree_iff.mp ht.agree (canonKey r.key)).mp hrow).2 hrows fun _ _ => hasEntry_logChanges⟩

/-- A DELETE leaves the sentinel alone for its key, when no other row has the key. -/
private theorem agreement_delete {next : Int} {t : CrrTable} {i : Nat} {old : BaseRow}
    (ht : Agreement t) (hi : t.rows[i]? = some old)
    (hother : SqlValue.null ∈ old.key →
      ∀ r ∈ t.rows.eraseIdx i, canonKey r.key ≠ canonKey old.key) :
    Agreement (deleteTrigger false next { t with rows := t.rows.eraseIdx i } old) := by
  have hother' : ∀ r ∈ t.rows.eraseIdx i, canonKey r.key ≠ canonKey old.key := by
    by_cases hnull : SqlValue.null ∈ old.key
    · exact hother hnull
    · intro r hr hk
      have hc : keyClass old.key = some (canonKey old.key) :=
        keyClass_eq_some_iff.mpr ⟨hnull, rfl⟩
      have hne : Keyed.find BaseRow.ident (canonKey old.key) (t.rows.eraseIdx i) = none := by
        rw [Keyed.find_eraseIdx ht.unique_rows hi]
        exact if_pos hc
      exact Keyed.find_eq_none_iff.mp hne r hr ((keyClass_of_canonKey hc).mp hk)
  refine ⟨ht.unique_rows.eraseIdx i, unique_logChanges ht.unique_clock,
    rowsAgree_removed ht.agree (fun _ => hasRow_eraseIdx hi hother') fun k col => ?_⟩
  rw [← List.mem_singleton (b := delSentinel)]
  exact hasEntry_logChanges

/-- The winner's clock keeps the keys of the clock table unique. -/
theorem unique_setWinnerClock {next : Int} {key : Key} {col : Text} {ch : Change}
    {t : CrrTable} (h : Keyed.Unique ClockEntry.ident t.clock) :
    Keyed.Unique ClockEntry.ident (setWinnerClock next key col ch t).clock :=
  h.put

/-- A row whose key has no NULL, nor any of its columns. -/
theorem notNullOk_of {info : TableInfo} {r : BaseRow} (hnull : SqlValue.null ∉ r.key)
    (hcols : ∀ c ∈ info.nonPks, c.notnull = true → r.val c.name ≠ .null) :
    notNullOk info r = true := by
  rw [notNullOk, Bool.and_eq_true, List.all_eq_true, List.all_eq_true]
  constructor
  · rintro ⟨c, v⟩ hcv
    have hv : v ≠ .null := fun h => hnull (h ▸ (List.of_mem_zip hcv).2)
    simp [hv]
  · intro c hc
    by_cases hn : c.notnull = true
    · simp [hn, hcols c hc hn]
    · simp [hn]

/-- The row of a column write is within the NOT NULL constraints. -/
theorem notNullOk_update {t : CrrTable} {key : Key} {col : Text} {v : SqlValue}
    (hs : t.schema.Lenient) (hnull : SqlValue.null ∉ key)
    (hv : ∀ c ∈ t.info.nonPks, c.name = col → c.notnull = true → v ≠ .null) :
    notNullOk t.info ⟨key, Function.update t.schema.dflt col v⟩ = true := by
  refine notNullOk_of hnull ?_
  intro c hc hn
  by_cases hname : c.name = col
  · simpa [hname] using hv c hc hname hn
  · simpa [hname] using hs.dflt_notnull c hc hn

/-- A declaration without obstacles admits a row of defaults under a key without NULLs. -/
theorem CrrSchema.Lenient.dflt_ok {s : CrrSchema} (hs : s.Lenient) {key : Key}
    (hnull : SqlValue.null ∉ key) : CrSqlite.constraintsOk s ⟨key, s.dflt⟩ = true := by
  rw [hs.constraintsOk]
  exact notNullOk_of hnull hs.dflt_notnull

/-- A row with the defaults is admitted under a new key. -/
theorem admits_default {t : CrrTable} {key : Key}
    (hok : constraintsOk t.schema ⟨key, t.schema.dflt⟩ = true)
    (hlen : key.length = t.info.pks.length)
    (hnew : ∀ b ∈ t.rows, ¬ Keyed.Conflicts BaseRow.ident ⟨key, t.schema.dflt⟩ b) :
    admits t t.rows ⟨key, t.schema.dflt⟩ = true := by
  have hany : (t.rows.any fun b => Keyed.Conflicts BaseRow.ident
      ⟨key, t.schema.dflt⟩ b) = false := by
    rw [List.any_eq_false]
    intro b hb
    simpa using hnew b hb
  rw [admits, hok, hany]
  simp [hlen]

/-- A key-only insert that the constraints admit leaves a row of the key, and every other
row as it was. -/
theorem hasRow_insertOrIgnore {next : Int} {t : CrrTable} {key : Key}
    (hnull : SqlValue.null ∉ key) (hlen : key.length = t.info.pks.length)
    (hok : HasRow t.rows (canonKey key) ∨
      constraintsOk t.schema ⟨key, t.schema.dflt⟩ = true) {k : List SqlValue} :
    HasRow (insertOrIgnore next key t).rows k ↔ HasRow t.rows k ∨ k = canonKey key := by
  rw [insertOrIgnore_eq]
  split
  · exact hasRow_append
  · rename_i hadm
    refine ⟨Or.inl, ?_⟩
    rintro (h | rfl)
    · exact h
    · by_contra hno
      refine hadm (admits_default (hok.resolve_left hno) hlen ?_)
      intro b hb hconf
      have hc : keyClass key = some (canonKey key) :=
        keyClass_eq_some_iff.mpr ⟨hnull, rfl⟩
      exact hno ⟨b, hb, canonKey_of_keyClass ((Keyed.conflicts_iff hc).mp hconf)⟩

/-- A merge that reads its key keeps the agreement: a delete leaves the sentinel alone, a key or a
column leaves a row, and a refused change leaves all. -/
private theorem agreement_merge [Sqlite] {next : Int} {ch : Change} {t t' : CrrTable}
    (ht : Agreement t) (hok : ReadsAsKey t ch) (h : mergeTable next ch t = .ok t') :
    Agreement t' := by
  rcases mergeTable_cases h with rfl |
    ⟨key, parts, wheres, hparts, hread, hlen, hwheres, -, hcheck, hm⟩
  · exact ht
  obtain ⟨hnull, htexts, hdefault⟩ := hok parts hparts key hread
  rw [hwheres, Option.map_some, Option.some.injEq] at htexts
  have hc : keyClass key = some (canonKey key) := keyClass_eq_some_iff.mpr ⟨hnull, rfl⟩
  have hdel : ¬ HasEntry t.clock (canonKey key) delSentinel := by
    rw [hasEntry_iff hc]
    have hiff := checkForLocalDelete_iff ht.unique_clock (htexts ▸ hread) hc
    intro hne
    simp [hiff.mpr hne] at hcheck
  -- the winner's clock adds one entry to the clock table of `u`, which is that of `t`
  have hentries : ∀ (u : CrrTable) col₀, u.clock = t.clock → ∀ k col,
      HasEntry (setWinnerClock next key col₀ ch u).clock k col ↔
        HasEntry t.clock k col ∨ (k = canonKey key ∧ col = col₀) := by
    intro u col₀ hclock k col
    rw [hasEntry_setWinnerClock, hclock]
  have hone : ∀ {k : List SqlValue} {col col₀ : Text},
      (k = canonKey key ∧ col ∈ [col₀]) ↔ (k = canonKey key ∧ col = col₀) := by
    intro k col col₀
    rw [List.mem_singleton]
  cases hm with
  | del =>
      have hclock : (deleteWhere next key t).clock = t.clock := by rw [deleteWhere_eq]
      have hrows : (mergeDelete next key ch t).rows =
          Keyed.erase BaseRow.ident (canonKey key) t.rows := deleteWhere_rows hc
      refine ⟨by rw [hrows]; exact ht.unique_rows.erase,
        unique_setWinnerClock (by rw [hclock]; exact ht.unique_clock),
        rowsAgree_removed ht.agree (fun k => ?_) (hentries _ delSentinel hclock)⟩
      rw [hrows]
      exact hasRow_erase hc
  | pko hcid hcol =>
      have hadmits := hdefault ⟨hcid, hcol⟩
      have hclock : (insertOrIgnore next key t).clock = t.clock := by
        rw [insertOrIgnore_eq]
        split <;> rfl
      have hunique : Keyed.Unique BaseRow.ident (insertOrIgnore next key t).rows := by
        rw [insertOrIgnore_eq]
        split
        · rename_i hadm
          exact ht.unique_rows.append (not_conflicts_of_admits hadm)
        · exact ht.unique_rows
      have hcols : delSentinel ∉ [pkoSentinel] := by decide
      refine ⟨hunique, unique_setWinnerClock (by rw [hclock]; exact ht.unique_clock),
        rowsAgree_added ht.agree (Or.inl (by simp)) hcols hdel
          (fun _ => hasRow_insertOrIgnore hnull hlen hadmits) fun k col => ?_⟩
      rw [hone]
      exact hentries _ pkoSentinel hclock k col
  | column hcid hpko hcol hval hsplit hwin hreadv hupsert =>
      have hu := upsertColumn_eq_some hupsert
      subst hu
      have hcols : delSentinel ∉ [ch.cid] := by simpa using hcid.symm
      refine ⟨ht.unique_rows.upsert (BaseRow.ident_setColumn _ _),
        unique_setWinnerClock ht.unique_clock,
        rowsAgree_added ht.agree (Or.inl (by simp)) hcols hdel (fun _ => hasRow_upsert)
          fun k col => ?_⟩
      rw [hone]
      exact hentries _ ch.cid rfl k col

/-- Every statement under the condition keeps the agreement. -/
theorem rowsAgree_step [Sqlite] {next : Int} {s : Stmt} {t t' : CrrTable}
    (ht : Agreement t) (hok : KeepsAgreement t s) (h : TableStep next s t t') :
    Agreement t' := by
  cases h with
  | write h =>
      rename_i tbl w
      cases w with
      | insert r =>
          simp only [localWrite, insertRow] at h
          split at h
          · rename_i hadm
            obtain ⟨hcols, hname, hdel⟩ := hok hadm
            rw [← Option.some.inj h]
            exact agreement_insert ht hadm hcols hname hdel
          · simp at h
      | update i r =>
          simp only [localWrite, updateRow] at h
          split at h
          · rw [← Option.some.inj h]
            exact ht
          · rename_i old hi
            split at h
            · rename_i hadm
              obtain ⟨hname, hkey⟩ := hok old hi hadm
              rw [← Option.some.inj h]
              exact agreement_update ht hi hadm hname hkey
            · simp at h
      | delete i =>
          simp only [localWrite, deleteRow, Option.some.injEq] at h
          split at h
          · rw [← h]
            exact ht
          · rename_i old hi
            rw [← h]
            exact agreement_delete ht hi (hok old hi)
  | merge h => exact agreement_merge ht hok h

/-! ## Runs -/

/-- The condition on the steps of a connection: a statement meets the condition
in the table it works on. -/
def StepKeepsAgreement [Sqlite] (s : Session) : Op → Prop
  | .stmt st => ∀ t ∈ s.current.findTable st.tbl, KeepsAgreement t st
  | .commit => True
  | .rollback => True

instance [Sqlite] (s : Session) (op : Op) : Decidable (StepKeepsAgreement s op) :=
  match op with
  | .stmt st => inferInstanceAs (Decidable (∀ t ∈ s.current.findTable st.tbl, _))
  | .commit => inferInstanceAs (Decidable True)
  | .rollback => inferInstanceAs (Decidable True)

/-- In an empty table rows and entries agree. -/
theorem agreement_empty {t : CrrTable} (hrows : t.rows = []) (hclock : t.clock = []) :
    Agreement t := by
  refine ⟨hrows ▸ Keyed.Unique.nil, hclock ▸ Keyed.Unique.nil, ?_⟩
  simp [RowsAgree, hrows, hclock]

/-- In every run whose statements meet the condition and whose merges are taken as they are
written, from tables that were empty when they became CRRs, base tables and clock tables
agree in every state reached. -/
theorem rowsAgree_run [Sqlite] [Affinity] {db : Db} {ops : List Op}
    (hnames : (db.tables.map fun t => t.info.tblName).Nodup)
    (hempty : ∀ t ∈ db.tables, t.rows = [] ∧ t.clock = [])
    (hok : Run.Allowed Session.stepSql (fun s op => TakenAsWritten s op ∧ StepKeepsAgreement s op)
      ⟨db, db⟩ ops) :
    ∀ t ∈ (Run.exec Session.stepSql ⟨db, db⟩ ops).current.tables, RowsAgree t := by
  obtain ⟨hexec, hallowed⟩ := exec_stepSql hnames hok
  rw [hexec]
  intro t ht
  have hinv := Session.tables_invariant Agreement
    (fun s st u u' hst hu hagree hstep => rowsAgree_step hagree (hst u hu) hstep)
    (fun u hu => agreement_empty (hempty u hu).1 (hempty u hu).2) hallowed t ht
  exact hinv.agree

/-- The condition is met by an insert, a delete of another key, an update and
merges of all kinds, and the theorem applies. -/
theorem rowsAgree_run_foo :
    let ops : List Op :=
      [.stmt (.write ['f', 'o', 'o'] (.insert (fooRow 1 2))),
        .stmt (.write ['f', 'o', 'o'] (.update 0 (fooRow 1 3))), .commit,
        .stmt (.merge ⟨['f', 'o', 'o'], ['2'], ['b'], some ['7'], 1, 5, [1]⟩),
        .stmt (.merge ⟨['f', 'o', 'o'], ['1'], delSentinel, none, 1, 6, [1]⟩), .rollback,
        .stmt (.write ['f', 'o', 'o'] (.delete 0)), .commit]
    ∀ t ∈ (@Run.exec _ _ (@Session.stepSql integralSqlite noAffinity) ⟨fooDb [2], fooDb [2]⟩
      ops).current.tables, RowsAgree t :=
  @rowsAgree_run integralSqlite noAffinity (fooDb [2]) _ (by decide) (by decide) (by decide)

/-- The agreement fails for unrestricted runs, even of local statements alone:
insert a row, delete it and insert its key again. -/
theorem rowsAgree_fails_after_reinsert :
    ¬ ∀ (db : Db) (ops : List Op), (∀ t ∈ db.tables, t.rows = [] ∧ t.clock = []) →
      (∀ ch, Op.stmt (.merge ch) ∉ ops) →
      ∀ t ∈ (@Run.exec _ _ (@Session.stepSql integralSqlite noAffinity)
        ⟨db, db⟩ ops).current.tables, RowsAgree t := by
  intro h
  let ops : List Op :=
    [.stmt (.write ['f', 'o', 'o'] (.insert (fooRow 1 2))), .commit,
      .stmt (.write ['f', 'o', 'o'] (.delete 0)), .commit,
      .stmt (.write ['f', 'o', 'o'] (.insert (fooRow 1 3))), .commit]
  have hboth : ∃ t ∈ (@Run.exec _ _ (@Session.stepSql integralSqlite noAffinity)
      ⟨fooDb [2], fooDb [2]⟩ ops).current.tables,
      (∃ r ∈ t.rows, canonKey r.key = canonKey [.integer 1]) ∧
        ∃ e ∈ t.clock, canonKey e.key = canonKey [.integer 1] ∧ e.colName = delSentinel := by
    decide
  obtain ⟨t, ht, hrow, e, he, hkey, hdel⟩ := hboth
  have hagree := h (fooDb [2]) ops (by decide) (by simp [ops]) t ht
  exact ((hagree [.integer 1]).mp hrow).2 e he hkey hdel

end CrSqlite
