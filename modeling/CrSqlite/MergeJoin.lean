import CrSqlite.RowAgreement
import CrSqlite.Library.Gossip
import Mathlib.Data.Prod.Lex
import Mathlib.Order.WithBot

/-!
# MergeJoin - merging changes is a join

What a table says about a key is an element of a lattice: deleted at the top,
otherwise whether the row exists and for each column the pair of version and
printed value.  Merging a well-formed change joins the change into it.

Main results:

- Theorem {lit}`mergeTable_view`: a merge joins the change into the table's view.
- Theorem {lit}`view_injective`: tables with the same view hold the same rows.
- Theorem {lit}`mergeInsert_confluent`: two sequences with the same set of
  changes end in the same base table, which the set determines.
- Theorem {lit}`merges_do_not_join`: what goes wrong with keys that are equal and spelled
  otherwise, names with quotes and defaults that are NULL.
-/

namespace CrSqlite

/-! ## The lattice of cells -/

/-- A column's version with the printed value, compared lexicographically. -/
abbrev Stamp := ℤ ×ₗ Text

/-- What is known of one key: {lit}`⊤` for deleted, otherwise whether there is a
row, and the stamp of every column that has one. -/
abbrev Cell := WithTop (Bool × (Text → WithBot Stamp))

/-- What is known of every key. -/
abbrev View := List SqlValue → Cell

namespace Cell

/-- The stamp of one column. -/
def stamp (col : Text) (x : Cell) : WithTop (WithBot Stamp) :=
  x.map fun p => p.2 col

/-- Whether there is a row. -/
def present (x : Cell) : WithTop Bool :=
  x.map Prod.fst

/-- The stamp of a column in a join of cells is the join of its stamps. -/
theorem stamp_sup (col : Text) (x y : Cell) :
    (x ⊔ y).stamp col = x.stamp col ⊔ y.stamp col := by
  cases x using WithTop.recTopCoe with
  | top => simp [stamp]
  | coe x =>
      cases y using WithTop.recTopCoe with
      | top => simp [stamp]
      | coe y => rfl

/-- A join of cells is present when one of them is. -/
theorem present_sup (x y : Cell) : (x ⊔ y).present = x.present ⊔ y.present := by
  cases x using WithTop.recTopCoe with
  | top => simp [present]
  | coe x =>
      cases y using WithTop.recTopCoe with
      | top => simp [present]
      | coe y => rfl

@[simp]
theorem stamp_bot (col : Text) : (⊥ : Cell).stamp col = ((⊥ : WithBot Stamp) : WithTop _) :=
  rfl

@[simp]
theorem stamp_coe (col : Text) (p : Bool × (Text → WithBot Stamp)) :
    stamp col (p : WithTop (Bool × (Text → WithBot Stamp))) = (p.2 col : WithTop _) :=
  rfl

@[simp]
theorem stamp_top (col : Text) : (⊤ : Cell).stamp col = ⊤ :=
  rfl

@[simp]
theorem present_bot : (⊥ : Cell).present = ((false : Bool) : WithTop Bool) :=
  rfl

@[simp]
theorem present_coe (p : Bool × (Text → WithBot Stamp)) :
    present (p : WithTop (Bool × (Text → WithBot Stamp))) = (p.1 : WithTop Bool) :=
  rfl

@[simp]
theorem present_top : (⊤ : Cell).present = ⊤ :=
  rfl

/-- Cells are ordered by the presence of a row and by the stamps. -/
theorem le_iff {x y : Cell} :
    x ≤ y ↔ x.present ≤ y.present ∧ ∀ col, x.stamp col ≤ y.stamp col := by
  cases y using WithTop.recTopCoe with
  | top => simp
  | coe y =>
      cases x using WithTop.recTopCoe with
      | top => simp
      | coe x =>
          simp only [WithTop.coe_le_coe, present_coe, stamp_coe]
          exact Iff.rfl

end Cell

/-- The stamps of a local and a received value. -/
private theorem stamp_le_iff {a b : ℤ} {u v : Text} :
    ((toLex (a, u) : Stamp) : WithBot Stamp) ≤ ((toLex (b, v) : Stamp) : WithBot Stamp) ↔
      a < b ∨ a = b ∧ u ≤ v := by
  rw [WithBot.coe_le_coe]
  exact Prod.Lex.toLex_le_toLex

/-- To join a function that is not least at one place only changes that place. -/
private theorem sup_update_bot {α β : Type*} [DecidableEq α] [SemilatticeSup β]
    [OrderBot β] (f : α → β) (a : α) (x : β) :
    f ⊔ Function.update ⊥ a x = Function.update f a (f a ⊔ x) := by
  funext b
  by_cases h : b = a
  · subst h
    simp
  · simp [h]

/-! ## Lookups after the writes of a merge -/

section Lookups

variable {ch : Change} {key : Key}

/-- A merged delete takes the row of its key away. -/
private theorem row_mergeDelete {next : Int} {t : CrrTable} {c c' : List SqlValue}
    (hc : keyClass key = some c) :
    (mergeDelete next key ch t).row c' = if c' = c then none else t.row c' := by
  have hrows : (mergeDelete next key ch t).rows = Keyed.erase BaseRow.ident c t.rows :=
    deleteWhere_rows hc
  rw [CrrTable.row, hrows, Keyed.find_erase]
  rfl

/-- A merged key has its row, which a new one has with the defaults. -/
private theorem row_mergePkOnlyInsert {next : Int} {t : CrrTable} {c c' : List SqlValue}
    (hs : t.schema.Lenient) (hc : keyClass key = some c) (hlen : key.length = t.info.pks.length) :
    (mergePkOnlyInsert next key ch t).row c' =
      if c' = c then some ((t.row c).getD ⟨key, t.schema.dflt⟩) else t.row c' := by
  have hrow : (mergePkOnlyInsert next key ch t).row c' = (insertOrIgnore next key t).row c' := rfl
  have hident : BaseRow.ident ⟨key, t.schema.dflt⟩ = some c := hc
  rw [hrow, insertOrIgnore_eq]
  split
  · rename_i hadm
    have hnone : t.row c = none := by
      rw [CrrTable.row, Keyed.find_eq_none_iff]
      intro b hb hbc
      exact not_conflicts_of_admits hadm b hb ((Keyed.conflicts_iff hident).mpr hbc)
    have happ : CrrTable.row { t with rows := t.rows ++ [⟨key, t.schema.dflt⟩] } c' =
        (t.row c').or (if c = c' then some ⟨key, t.schema.dflt⟩ else none) := by
      have h := Keyed.find_append BaseRow.ident (k := c') (l := t.rows)
        (a := ⟨key, t.schema.dflt⟩)
      simp only [hident, Option.some.injEq] at h
      exact h
    rw [happ]
    by_cases heq : c' = c
    · subst heq
      simp [hnone]
    · simp [heq, Ne.symm heq]
  · rename_i hadm
    by_cases heq : c' = c
    · subst heq
      have hne : t.row c' ≠ none := by
        intro hnone
        refine hadm (admits_default (hs.dflt_ok (keyClass_eq_some_iff.mp hc).1) hlen ?_)
        intro b hb hconf
        exact Keyed.find_eq_none_iff.mp hnone b hb ((Keyed.conflicts_iff hident).mp hconf)
      obtain ⟨r, hr⟩ := Option.ne_none_iff_exists'.mp hne
      simp [hr]
    · rw [if_neg heq]

/-- A merged column is set in the row of its key, which a new one has with the defaults. -/
private theorem row_upsert {t : CrrTable} {c c' : List SqlValue} {col : Text}
    {v : SqlValue} (hc : keyClass key = some c) :
    CrrTable.row { t with
      rows := Keyed.upsert BaseRow.ident (BaseRow.setColumn col v)
        ⟨key, Function.update t.schema.dflt col v⟩ t.rows } c' =
      if c' = c then
        some (BaseRow.setColumn col v ((t.row c).getD ⟨key, t.schema.dflt⟩))
      else t.row c' := by
  have hident : BaseRow.ident ⟨key, Function.update t.schema.dflt col v⟩ = some c := hc
  have h := Keyed.find_upsert (BaseRow.ident_setColumn col v) (k := c') (l := t.rows)
    (a := ⟨key, Function.update t.schema.dflt col v⟩)
  simp only [hident, Option.some.injEq] at h
  unfold CrrTable.row
  rw [h]
  by_cases heq : c' = c
  · subst heq
    cases Keyed.find BaseRow.ident c' t.rows <;> simp [BaseRow.setColumn]
  · simp [heq, Ne.symm heq]

end Lookups

/-! ## The view of a table -/

/-- A column outside the key whose name is not taken by a sentinel. -/
def IsColumn (info : TableInfo) (col : Text) : Prop :=
  columnExists col info.nonPks = true ∧ col ≠ delSentinel ∧ col ≠ pkoSentinel

instance (info : TableInfo) (col : Text) : Decidable (IsColumn info col) :=
  inferInstanceAs (Decidable (_ ∧ _))

section View

variable [Sqlite]

/-- The stamp of a column in a table. -/
def stampOf (t : CrrTable) (c : List SqlValue) (col : Text) : WithBot Stamp :=
  if IsColumn t.info col then
    match t.entry c col, t.row c with
    | some e, some r => ((toLex (e.colVersion, quote (r.val col)) : Stamp) : WithBot Stamp)
    | _, _ => ⊥
  else ⊥

/-- What a table says about every key. -/
def view (t : CrrTable) : View := fun c =>
  if t.entry c delSentinel = none then
    (((t.row c).isSome, stampOf t c) : Bool × (Text → WithBot Stamp))
  else ⊤

/-- The key a change is about. -/
def changeKey (info : TableInfo) (ch : Change) : Option Key :=
  (splitQuoteConcat ch.pk info.pks.length).bind readLiterals

/-- What a change says about its key. -/
def changeCell (info : TableInfo) (ch : Change) : Cell :=
  if ch.cid = delSentinel then ⊤
  else if IsColumn info ch.cid then
    ((true, Function.update ⊥ ch.cid
      ((toLex (ch.colVersion, ch.val.getD []) : Stamp) : WithBot Stamp)) :
      Bool × (Text → WithBot Stamp))
  else ((true, ⊥) : Bool × (Text → WithBot Stamp))

/-- What a change says about every key. -/
def changeView (info : TableInfo) (ch : Change) : View :=
  match changeKey info ch with
  | none => ⊥
  | some key => Function.update ⊥ (canonKey key) (changeCell info ch)

/-! ## Well-formed changes -/

/-- A change another replica with the same declaration reports: its key text and
its value are printed from stored values, the key has no NULL, and the names and
the site id are within the limits of the code. -/
structure WellFormed (s : CrrSchema) (ch : Change) (key : Key) : Prop where
  tbl : ch.tbl = s.info.tblName
  pk : ch.pk = quoteConcat key
  length : key.length = s.info.pks.length
  quotable : ∀ v ∈ key, Quotable v
  notNull : SqlValue.null ∉ key
  val : IsColumn s.info ch.cid → ∃ v, Quotable v ∧ ch.val = some (quote v) ∧
    ∀ c ∈ s.info.nonPks, c.name = ch.cid → c.notnull = true → v ≠ .null
  tbl_length : ch.tbl.length ≤ maxTblNameLen
  cid_length : ch.cid.length ≤ maxTblNameLen
  siteId_length : ch.siteId.length ≤ siteIdLen

variable {s : CrrSchema} {ch : Change} {key : Key}

theorem WellFormed.keyClass_eq (h : WellFormed s ch key) :
    keyClass key = some (canonKey key) :=
  keyClass_eq_some_iff.mpr ⟨h.notNull, rfl⟩

theorem WellFormed.printable (h : WellFormed s ch key) :
    ∀ v ∈ key, Storable v ∧ ∀ n, v ≠ .inf n := fun v hv =>
  ⟨(quotable_iff.mp (h.quotable v hv)).1, (quotable_iff.mp (h.quotable v hv)).2.1⟩

/-- Its key text splits into the printed values. -/
theorem WellFormed.split (h : WellFormed s ch key) :
    splitQuoteConcat ch.pk s.info.pks.length = some (key.map quote) := by
  rw [h.pk, ← h.length]
  exact splitQuoteConcat_quoteConcat key h.printable

theorem WellFormed.changeKey_eq (h : WellFormed s ch key) :
    changeKey s.info ch = some key := by
  rw [changeKey, h.split, Option.bind_some, readLiterals_quote h.quotable]

/-- It is about the cell of its key only. -/
theorem WellFormed.changeView_eq (h : WellFormed s ch key) :
    changeView s.info ch = Function.update ⊥ (canonKey key) (changeCell s.info ch) := by
  rw [changeView, h.changeKey_eq]

/-! ## The invariant of merged tables -/

/-- A table as merges leave it: nothing in its declaration is in the way of a row of
defaults, its keys are without NULLs, it agrees with the clock table, and it has printable
values where there is an entry and the default where no column entry says otherwise. -/
structure Sound (t : CrrTable) : Prop where
  lenient : t.schema.Lenient
  agreement : Agreement t
  keys : ∀ r ∈ t.rows, SqlValue.null ∉ r.key
  quotable : ∀ c r, t.row c = some r → ∀ col, IsColumn t.info col →
    t.entry c col ≠ none → Quotable (r.val col)
  default : ∀ c r, t.row c = some r → ∀ col, columnExists col t.info.nonPks = true →
    ¬ (IsColumn t.info col ∧ t.entry c col ≠ none) → r.val col = t.schema.dflt col

/-- The empty table is sound. -/
theorem Sound.empty {t : CrrTable} (hs : t.schema.Lenient) (hrows : t.rows = [])
    (hclock : t.clock = []) : Sound t where
  lenient := hs
  agreement := agreement_empty hrows hclock
  keys := by simp [hrows]
  quotable := by simp [CrrTable.row, hrows]
  default := by simp [CrrTable.row, hrows]

/-! ## The view after a merge -/

/-- A view that differs at one key only. -/
private theorem view_eq_sup {t t' : CrrTable} {c : List SqlValue} {x : Cell}
    (hc : view t' c = view t c ⊔ x) (hother : ∀ c', c' ≠ c → view t' c' = view t c') :
    view t' = view t ⊔ Function.update ⊥ c x := by
  rw [sup_update_bot]
  funext c'
  by_cases h : c' = c
  · subst h
    simpa using hc
  · simpa [h] using hother c' h

/-- A cell depends on the row and the entries of its key. -/
private theorem view_congr {t t' : CrrTable} {c : List SqlValue}
    (hschema : t'.schema = t.schema) (hrow : t'.row c = t.row c)
    (hentry : ∀ col, t'.entry c col = t.entry c col) : view t' c = view t c := by
  have hinfo : t'.info = t.info := by rw [CrrTable.info, CrrTable.info, hschema]
  have hstamp : stampOf t' c = stampOf t c := by
    funext col
    simp only [stampOf, hinfo, hrow, hentry]
  simp only [view, hrow, hentry, hstamp]

/-- In a sound table an entry of a key that is not deleted has a row. -/
theorem Sound.row_of_entry {t : CrrTable} (ht : Sound t) {c : List SqlValue}
    (hc : keyClass key = some c) (hdel : t.entry c delSentinel = none) {col : Text}
    (hcol : t.entry c col ≠ none) : t.row c ≠ none := by
  rw [← hasRow_iff hc, rowsAgree_iff.mp ht.agreement.agree, hasEntry_iff hc]
  exact ⟨⟨col, (hasEntry_iff hc).mpr hcol⟩, by simp [hdel]⟩

/-- A key with a delete sentinel has no row. -/
theorem Sound.row_of_deleted {t : CrrTable} (ht : Sound t) {c : List SqlValue}
    (hc : keyClass key = some c) (hdel : t.entry c delSentinel ≠ none) :
    t.row c = none := by
  have h := rowsAgree_iff.mp ht.agreement.agree c
  rw [hasRow_iff hc, hasEntry_iff hc] at h
  by_contra hne
  exact (h.mp hne).2 hdel

/-- What the merge of a well-formed change comes down to. -/
theorem mergeTable_eq (next : Int) {t : CrrTable} (hu : Keyed.Unique ClockEntry.ident t.clock)
    (hwf : WellFormed t.schema ch key) :
    mergeTable next ch t =
      if t.entry (canonKey key) delSentinel ≠ none then .ok t
      else if ch.cid = delSentinel then .ok (mergeDelete next key ch t)
      else if ch.cid = pkoSentinel ∨ !columnExists ch.cid t.info.nonPks then
        .ok (mergePkOnlyInsert next key ch t)
      else mergeColumn next key ch t := by
  have hwhere := whereTexts_quoteConcat hwf.length hwf.printable
  rw [← hwf.pk] at hwhere
  obtain ⟨wheres, hw, htexts⟩ := Option.map_eq_some_iff.mp hwhere
  have hread := readLiterals_quote hwf.quotable
  have hcheck := checkForLocalDelete_iff hu (htexts ▸ hread) hwf.keyClass_eq
  have hsplit : quoteConcatedValuesAsList ch.pk t.info.pks.length = some (key.map quote) :=
    hwf.split
  have hw' : extractWhereList t.info.pks ch.pk = some wheres := hw
  have hreadable : (readLiterals (whereTexts wheres)).isSome = true := by
    rw [htexts, hread]
    rfl
  simp only [mergeTable, hw', hsplit, hread, hreadable, if_true]
  by_cases h : t.entry (canonKey key) delSentinel = none
  · have hfalse : checkForLocalDelete t wheres = false := by
      rw [← Bool.not_eq_true, hcheck]
      exact fun hne => hne h
    simp [hfalse, h]
  · simp [hcheck.mpr h, h]

/-- A column change is dropped when the stamp in the table is at least its own,
and is written when it is at least the stamp in the table. -/
theorem mergeColumn_cases_of_wellFormed (next : Int) {t : CrrTable} (ht : Sound t)
    (hwf : WellFormed t.schema ch key) (hcol : IsColumn t.info ch.cid)
    (hdel : t.entry (canonKey key) delSentinel = none) :
    ∃ v, Quotable v ∧ ch.val = some (quote v) ∧
      ((mergeColumn next key ch t = .ok t ∧ t.row (canonKey key) ≠ none ∧
          ((toLex (ch.colVersion, quote v) : Stamp) : WithBot Stamp) ≤
            stampOf t (canonKey key) ch.cid) ∨
        (∃ u, upsertColumn next key ch.cid v t = some u ∧
          mergeColumn next key ch t = .ok (setWinnerClock next key ch.cid ch u) ∧
          stampOf t (canonKey key) ch.cid ≤
            ((toLex (ch.colVersion, quote v) : Stamp) : WithBot Stamp))) := by
  obtain ⟨v, hv, hval, hnn⟩ := hwf.val hcol
  have hc := hwf.keyClass_eq
  have hvs := quotable_iff.mp hv
  have hsplit : (ch.val.bind fun val => splitQuoteConcat val 1) = some [quote v] := by
    rw [hval, Option.bind_some, splitQuoteConcat_quote hvs.1 hvs.2.1]
  have hnotNull : notNullOk t.info ⟨key, Function.update t.schema.dflt ch.cid v⟩ = true :=
    notNullOk_update ht.lenient hwf.notNull hnn
  obtain ⟨u, hu⟩ := Option.ne_none_iff_exists'.mp
    (upsertColumn_ne_none next ht.lenient.check hwf.length hnotNull)
  have hcolumn : ∀ r : BaseRow, r.column t.info ch.cid = r.val ch.cid := fun r => by
    rw [BaseRow.column, if_pos hcol.1]
  have hwin : didCidWin key (quote v) ch t = .ok true →
      mergeColumn next key ch t = .ok (setWinnerClock next key ch.cid ch u) := by
    intro h
    simp only [mergeColumn, hsplit, h, readLiteral_quote hv, Option.bind_some, hu]
  have hlose : didCidWin key (quote v) ch t = .ok false → mergeColumn next key ch t = .ok t := by
    intro h
    simp only [mergeColumn, hsplit, h]
  have hdid := didCidWin_eq (quote v) ch t hc
  refine ⟨v, hv, hval, ?_⟩
  cases hentry : t.entry (canonKey key) ch.cid with
  | none =>
      refine Or.inr ⟨u, hu, hwin (by rw [hdid, hentry]), ?_⟩
      simp [stampOf, hentry]
  | some e =>
      obtain ⟨r, hr⟩ := Option.ne_none_iff_exists'.mp
        (ht.row_of_entry hc hdel (Option.ne_none_iff_exists'.mpr ⟨e, hentry⟩))
      have hstamp : stampOf t (canonKey key) ch.cid =
          ((toLex (e.colVersion, quote (r.val ch.cid)) : Stamp) : WithBot Stamp) := by
        simp only [stampOf, if_pos hcol, hentry, hr]
      rw [hentry] at hdid
      simp only [hr, hcolumn] at hdid
      rw [hstamp, stamp_le_iff, stamp_le_iff]
      by_cases hlt : e.colVersion < ch.colVersion
      · exact Or.inr ⟨u, hu, hwin (by rw [hdid, if_pos hlt]), Or.inl hlt⟩
      by_cases hgt : ch.colVersion < e.colVersion
      · refine Or.inl ⟨hlose (by rw [hdid, if_neg hlt, if_pos hgt]), by simp [hr], Or.inl hgt⟩
      rw [if_neg hlt, if_neg hgt] at hdid
      have heq : e.colVersion = ch.colVersion := by omega
      by_cases hval : quote (r.val ch.cid) < quote v
      · exact Or.inr ⟨u, hu, hwin (by simp [hdid, hval]), Or.inr ⟨heq, le_of_lt hval⟩⟩
      · exact Or.inl ⟨hlose (by simp [hdid, hval]), by simp [hr],
          Or.inr ⟨heq.symm, le_of_not_gt hval⟩⟩

/-- The change keeps the agreement of every table with the declaration. -/
theorem WellFormed.readsAsKey {t : CrrTable} (h : WellFormed t.schema ch key)
    (hs : t.schema.Lenient) : ReadsAsKey t ch := by
  have hwhere := whereTexts_quoteConcat h.length h.printable
  rw [← h.pk] at hwhere
  have hsplit : splitQuoteConcat ch.pk t.info.pks.length = some (key.map quote) := h.split
  intro parts hparts key' hkey'
  rw [hsplit, Option.mem_some_iff] at hparts
  subst hparts
  rw [readLiterals_quote h.quotable, Option.mem_some_iff] at hkey'
  subst hkey'
  exact ⟨h.notNull, hwhere, fun _ => Or.inr (hs.dflt_ok h.notNull)⟩

/-- A merge brings no key into the two tables but the one of its change. -/
theorem WellFormed.merged_keys {next : Int} {t t' : CrrTable}
    (hwf : WellFormed t.schema ch key) (h : mergeTable next ch t = .ok t') :
    (∀ r ∈ t'.rows, (∃ o ∈ t.rows, o.key = r.key) ∨ r.key = key) ∧
      ∀ e ∈ t'.clock, (∃ o ∈ t.clock, o.key = e.key) ∨ e.key = key := by
  rcases mergeTable_cases h with rfl | ⟨key', parts, wheres, hparts, hkey, -, -, -, -, hm⟩
  · exact ⟨fun r hr => Or.inl ⟨r, hr, rfl⟩, fun e he => Or.inl ⟨e, he, rfl⟩⟩
  · have hsplit : splitQuoteConcat ch.pk t.info.pks.length = some (key.map quote) := hwf.split
    rw [hsplit, Option.some.injEq] at hparts
    subst hparts
    rw [readLiterals_quote hwf.quotable, Option.some.injEq] at hkey
    subst hkey
    refine ⟨fun r hr => hm.row_key hr, fun e he => ?_⟩
    obtain ⟨col, -, hclock⟩ := hm.clock_eq
    rw [hclock] at he
    rcases Keyed.mem_put.mp he with rfl | ⟨he, -⟩
    · exact Or.inr rfl
    · exact Or.inl ⟨e, he, rfl⟩

/-! ### What one write changes -/

/-- Two tables that differ in one row and one entry of one key at most. -/
structure WritesOnly (t t' : CrrTable) (c : List SqlValue) (col : Text) : Prop where
  schema : t'.schema = t.schema
  row : ∀ c', c' ≠ c → t'.row c' = t.row c'
  entry : ∀ c' col', c' ≠ c ∨ col' ≠ col → t'.entry c' col' = t.entry c' col'

omit [Sqlite] in
/-- A merge keeps the declaration. -/
theorem WritesOnly.info_eq {t t' : CrrTable} {c : List SqlValue} {col : Text}
    (h : WritesOnly t t' c col) : t'.info = t.info := by
  rw [CrrTable.info, CrrTable.info, h.schema]

omit [Sqlite] in
/-- The winner's clock is one entry, whatever was done to the row before. -/
private theorem writesOnly_setWinnerClock {next : Int} {t u : CrrTable} {c : List SqlValue}
    {col : Text} (hc : keyClass key = some c) (hschema : u.schema = t.schema)
    (hclock : u.clock = t.clock) (hrow : ∀ c', c' ≠ c → u.row c' = t.row c') :
    WritesOnly t (setWinnerClock next key col ch u) c col ∧
      (setWinnerClock next key col ch u).entry c col =
        some ⟨key, col, ch.colVersion, max next ch.dbVersion, bindSiteId ch.siteId⟩ := by
  have hentry : ∀ c' col', u.entry c' col' = t.entry c' col' := by
    intro c' col'
    rw [CrrTable.entry, CrrTable.entry, hclock]
  refine ⟨⟨hschema, hrow, fun c' col' hne => ?_⟩, ?_⟩
  · rw [entry_setWinnerClock, hc, hentry, if_neg]
    rintro ⟨hkey, hcol⟩
    rcases hne with hne | hne
    · exact hne (Option.some.inj hkey).symm
    · exact hne hcol.symm
  · rw [entry_setWinnerClock, if_pos ⟨hc, rfl⟩]

/-- The view changes at the key of the write only. -/
private theorem WritesOnly.view_eq {t t' : CrrTable} {c : List SqlValue} {col : Text}
    (h : WritesOnly t t' c col) {x : Cell} (hat : view t' c = view t c ⊔ x) :
    view t' = view t ⊔ Function.update ⊥ c x :=
  view_eq_sup hat fun c' hne => view_congr h.schema (h.row c' hne) fun col' =>
    h.entry c' col' (Or.inl hne)

/-- The stamp of a column that was not written stays, when the row keeps its value. -/
private theorem WritesOnly.stampOf_eq {t t' : CrrTable} {c : List SqlValue} {col col' : Text}
    (h : WritesOnly t t' c col) (ht : Sound t) (hc : keyClass key = some c)
    (hdel : t.entry c delSentinel = none) (hne : col' ≠ col)
    (hval : ∀ o, t.row c = some o → ∃ r, t'.row c = some r ∧ r.val col' = o.val col') :
    stampOf t' c col' = stampOf t c col' := by
  rw [stampOf, stampOf, h.info_eq, h.entry c col' (Or.inr hne)]
  cases he : t.entry c col' with
  | none => rfl
  | some e =>
      obtain ⟨o, ho⟩ := Option.ne_none_iff_exists'.mp
        (ht.row_of_entry hc hdel (Option.ne_none_iff_exists'.mpr ⟨e, he⟩))
      obtain ⟨r, hr, hsame⟩ := hval o ho
      simp only [ho, hr, hsame]

/-- Soundness after a merge, from what the merge did under its own key. -/
private theorem Sound.of_merged {next : Int} {t t' : CrrTable} {col : Text} (ht : Sound t)
    (hwf : WellFormed t.schema ch key) (hmerge : mergeTable next ch t = .ok t')
    (hwrites : WritesOnly t t' (canonKey key) col)
    (hquot : ∀ r, t'.row (canonKey key) = some r → ∀ col', IsColumn t.info col' →
      t'.entry (canonKey key) col' ≠ none → Quotable (r.val col'))
    (hdflt : ∀ r, t'.row (canonKey key) = some r → ∀ col',
      columnExists col' t.info.nonPks = true →
      ¬ (IsColumn t.info col' ∧ t'.entry (canonKey key) col' ≠ none) →
      r.val col' = t.schema.dflt col') : Sound t' := by
  have hinfo := hwrites.info_eq
  refine ⟨?_, rowsAgree_step (s := .merge ch) ht.agreement (hwf.readsAsKey ht.lenient)
    (.merge hmerge), ?_, ?_, ?_⟩
  · rw [hwrites.schema]
    exact ht.lenient
  · intro r hr
    rcases (hwf.merged_keys hmerge).1 r hr with ⟨o, ho, hkey⟩ | hkey
    · exact hkey ▸ ht.keys o ho
    · exact hkey ▸ hwf.notNull
  · intro c r hr col' hcol hentry
    rw [hinfo] at hcol
    by_cases hc : c = canonKey key
    · subst hc
      exact hquot r hr col' hcol hentry
    · rw [hwrites.row c hc] at hr
      rw [hwrites.entry c col' (Or.inl hc)] at hentry
      exact ht.quotable c r hr col' hcol hentry
  · intro c r hr col' hcol hentry
    rw [hinfo] at hcol hentry
    rw [hwrites.schema]
    by_cases hc : c = canonKey key
    · subst hc
      exact hdflt r hr col' hcol hentry
    · rw [hwrites.row c hc] at hr
      rw [hwrites.entry c col' (Or.inl hc)] at hentry
      exact ht.default c r hr col' hcol hentry

/-! ### The three writes -/

section Branches

variable {next : Int} {t : CrrTable} (ht : Sound t) (hwf : WellFormed t.schema ch key)

include ht hwf

/-- A merged delete is joined to the cell of its key, which is deleted then. -/
private theorem view_mergeDelete (hcid : ch.cid = delSentinel)
    (hmerge : mergeTable next ch t = .ok (mergeDelete next key ch t)) :
    Sound (mergeDelete next key ch t) ∧
      view (mergeDelete next key ch t) = view t ⊔ changeView t.info ch := by
  have hc := hwf.keyClass_eq
  have hrow : ∀ c, (mergeDelete next key ch t).row c =
      if c = canonKey key then none else t.row c := fun c => row_mergeDelete hc
  obtain ⟨hwrites, hentry⟩ : WritesOnly t (mergeDelete next key ch t) (canonKey key) delSentinel ∧
      (mergeDelete next key ch t).entry (canonKey key) delSentinel =
        some ⟨key, delSentinel, ch.colVersion, max next ch.dbVersion, bindSiteId ch.siteId⟩ :=
    writesOnly_setWinnerClock hc (by rw [deleteWhere_eq]) (by rw [deleteWhere_eq])
      fun c hne => (hrow c).trans (if_neg hne)
  constructor
  · refine ht.of_merged hwf hmerge hwrites ?_ ?_
    · intro r hr
      simp [hrow] at hr
    · intro r hr
      simp [hrow] at hr
  · have hview := hwf.changeView_eq
    rw [CrrTable.info, hview]
    refine hwrites.view_eq ?_
    simp [view, hentry, changeCell, hcid]

variable (hdel : t.entry (canonKey key) delSentinel = none)

include hdel

/-- A merged key is joined to its cell, which is present then and keeps its stamps. -/
private theorem view_mergePkOnlyInsert (hcid : ch.cid ≠ delSentinel)
    (hcol : ch.cid = pkoSentinel ∨ columnExists ch.cid t.info.nonPks = false)
    (hmerge : mergeTable next ch t = .ok (mergePkOnlyInsert next key ch t)) :
    Sound (mergePkOnlyInsert next key ch t) ∧
      view (mergePkOnlyInsert next key ch t) = view t ⊔ changeView t.info ch := by
  have hc := hwf.keyClass_eq
  have hrow : ∀ c, (mergePkOnlyInsert next key ch t).row c =
      if c = canonKey key then some ((t.row (canonKey key)).getD ⟨key, t.schema.dflt⟩)
      else t.row c := fun c => row_mergePkOnlyInsert ht.lenient hc hwf.length
  obtain ⟨hwrites, -⟩ :
      WritesOnly t (mergePkOnlyInsert next key ch t) (canonKey key) pkoSentinel ∧ _ :=
    writesOnly_setWinnerClock hc (by rw [insertOrIgnore_eq]; split <;> rfl)
      (by rw [insertOrIgnore_eq]; split <;> rfl) fun c hne => (hrow c).trans (if_neg hne)
  have hentry : ∀ col, col ≠ pkoSentinel →
      (mergePkOnlyInsert next key ch t).entry (canonKey key) col = t.entry (canonKey key) col :=
    fun col hne => hwrites.entry _ col (Or.inr hne)
  constructor
  · refine ht.of_merged hwf hmerge hwrites ?_ ?_
    · intro r hr col hcol' hne
      rw [hentry col hcol'.2.2] at hne
      obtain ⟨o, ho⟩ := Option.ne_none_iff_exists'.mp (ht.row_of_entry hc hdel hne)
      simp only [hrow, if_true, ho, Option.getD_some, Option.some.injEq] at hr
      exact hr ▸ ht.quotable _ o ho col hcol' hne
    · intro r hr col hcol' hne
      have hne' : ¬ (IsColumn t.info col ∧ t.entry (canonKey key) col ≠ none) := by
        rintro ⟨h, h'⟩
        exact hne ⟨h, by rwa [hentry col h.2.2]⟩
      simp only [hrow, if_true, Option.some.injEq] at hr
      cases ho : t.row (canonKey key) with
      | none =>
          rw [ho, Option.getD_none] at hr
          rw [← hr]
      | some o =>
          rw [ho, Option.getD_some] at hr
          exact hr ▸ ht.default _ o ho col hcol' hne'
  · have hview := hwf.changeView_eq
    rw [CrrTable.info, hview]
    refine hwrites.view_eq ?_
    have hstamp : stampOf (mergePkOnlyInsert next key ch t) (canonKey key) =
        stampOf t (canonKey key) := by
      funext col
      by_cases hpko : col = pkoSentinel
      · have hnot : ∀ info, ¬ IsColumn info col := fun _ h => h.2.2 hpko
        rw [stampOf, stampOf, if_neg (hnot _), if_neg (hnot _)]
      · exact hwrites.stampOf_eq ht hc hdel hpko fun o ho => ⟨o, by simp [hrow, ho], rfl⟩
    have hnot : ¬ IsColumn t.schema.info ch.cid := by
      rintro ⟨h, -, h'⟩
      rcases hcol with hcol | hcol
      · exact h' hcol
      · simp [CrrTable.info, h] at hcol
    have hdel' := hentry delSentinel pkoSentinel_ne_delSentinel.symm
    simp only [view, hdel', hdel, if_true, hstamp, hrow, changeCell, hcid, hnot, if_false]
    rw [← WithTop.coe_sup]
    simp [Prod.mk_sup_mk]

/-- A column that wins is joined to the cell of its key: the stamp of the column is the one of the
change, which is not below the one before, and the others stay. -/
private theorem view_mergeColumn {v : SqlValue} {u : CrrTable} (hcol : IsColumn t.info ch.cid)
    (hv : Quotable v) (hval : ch.val = some (quote v))
    (hu : upsertColumn next key ch.cid v t = some u)
    (hle : stampOf t (canonKey key) ch.cid ≤
      ((toLex (ch.colVersion, quote v) : Stamp) : WithBot Stamp))
    (hmerge : mergeTable next ch t = .ok (setWinnerClock next key ch.cid ch u)) :
    Sound (setWinnerClock next key ch.cid ch u) ∧
      view (setWinnerClock next key ch.cid ch u) = view t ⊔ changeView t.info ch := by
  have hc := hwf.keyClass_eq
  have hueq := upsertColumn_eq_some hu
  have hrow : ∀ c, (setWinnerClock next key ch.cid ch u).row c =
      if c = canonKey key then
        some (((t.row (canonKey key)).getD ⟨key, t.schema.dflt⟩).setColumn ch.cid v)
      else t.row c := by
    intro c
    have h : (setWinnerClock next key ch.cid ch u).row c = u.row c := rfl
    rw [h, hueq, row_upsert hc]
  obtain ⟨hwrites, hentry⟩ : WritesOnly t (setWinnerClock next key ch.cid ch u) (canonKey key) ch.cid ∧
      (setWinnerClock next key ch.cid ch u).entry (canonKey key) ch.cid =
        some ⟨key, ch.cid, ch.colVersion, max next ch.dbVersion, bindSiteId ch.siteId⟩ :=
    writesOnly_setWinnerClock hc (by rw [hueq]) (by rw [hueq])
      fun c hne => (hrow c).trans (if_neg hne)
  have hother : ∀ col, col ≠ ch.cid → (setWinnerClock next key ch.cid ch u).entry
      (canonKey key) col = t.entry (canonKey key) col := fun col hne =>
    hwrites.entry _ col (Or.inr hne)
  -- the columns other than the written one are those of the old row
  have hset : ∀ (r : BaseRow) col, col ≠ ch.cid → (r.setColumn ch.cid v).val col = r.val col := by
    intro r col hne
    simp [BaseRow.setColumn, hne]
  constructor
  · refine ht.of_merged hwf hmerge hwrites ?_ ?_
    · intro r hr col hcol' hne
      simp only [hrow, if_true, Option.some.injEq] at hr
      by_cases heq : col = ch.cid
      · rw [← hr, heq]
        simpa [BaseRow.setColumn] using hv
      · rw [hother col heq] at hne
        obtain ⟨o, ho⟩ := Option.ne_none_iff_exists'.mp (ht.row_of_entry hc hdel hne)
        rw [← hr, ho, Option.getD_some, hset o col heq]
        exact ht.quotable _ o ho col hcol' hne
    · intro r hr col hcol' hne
      simp only [hrow, if_true, Option.some.injEq] at hr
      have heq : col ≠ ch.cid := by
        rintro rfl
        exact hne ⟨hcol, by simp [hentry]⟩
      rw [hother col heq] at hne
      rw [← hr, hset _ col heq]
      cases ho : t.row (canonKey key) with
      | none => rfl
      | some o => exact ht.default _ o ho col hcol' hne
  · have hview := hwf.changeView_eq
    rw [CrrTable.info, hview]
    refine hwrites.view_eq ?_
    have hstamp : stampOf (setWinnerClock next key ch.cid ch u) (canonKey key) =
        stampOf t (canonKey key) ⊔ Function.update ⊥ ch.cid
          ((toLex (ch.colVersion, quote v) : Stamp) : WithBot Stamp) := by
      rw [sup_update_bot, sup_eq_right.mpr hle]
      funext col
      by_cases heq : col = ch.cid
      · subst heq
        simp [stampOf, hwrites.info_eq, hcol, hentry, hrow, BaseRow.setColumn]
      · rw [Function.update_of_ne heq]
        exact hwrites.stampOf_eq ht hc hdel heq fun o ho => ⟨_, by simp [hrow, ho], hset o col heq⟩
    have hdel' := hother delSentinel hcol.2.1.symm
    have hcol' : IsColumn t.schema.info ch.cid := hcol
    simp only [view, hdel', hdel, if_true, hstamp, hrow, changeCell, hcol.2.1, hcol', hval,
      if_false, Option.getD_some]
    rw [← WithTop.coe_sup]
    simp [Prod.mk_sup_mk]

end Branches

/-- Merging a well-formed change into a sound table succeeds and joins the change
into the table's view. -/
theorem mergeTable_view (next : Int) {t : CrrTable} (ht : Sound t)
    (hwf : WellFormed t.schema ch key) :
    ∃ t', mergeTable next ch t = .ok t' ∧ Sound t' ∧
      view t' = view t ⊔ changeView t.info ch := by
  have heq := mergeTable_eq next ht.agreement.unique_clock hwf
  have hview : changeView t.info ch = Function.update ⊥ (canonKey key) (changeCell t.info ch) :=
    hwf.changeView_eq
  by_cases hdel : t.entry (canonKey key) delSentinel = none
  swap
  · rw [if_pos hdel] at heq
    refine ⟨t, heq, ht, ?_⟩
    rw [hview]
    refine view_eq_sup ?_ fun c _ => rfl
    simp [view, hdel]
  rw [if_neg (not_not_intro hdel)] at heq
  by_cases hcid : ch.cid = delSentinel
  · rw [if_pos hcid] at heq
    exact ⟨_, heq, view_mergeDelete ht hwf hcid heq⟩
  rw [if_neg hcid] at heq
  by_cases hpko : ch.cid = pkoSentinel ∨ columnExists ch.cid t.info.nonPks = false
  · rw [if_pos (by simpa using hpko)] at heq
    exact ⟨_, heq, view_mergePkOnlyInsert ht hwf hdel hcid hpko heq⟩
  rw [if_neg (by simpa using hpko)] at heq
  rw [not_or, Bool.not_eq_false] at hpko
  have hcol : IsColumn t.info ch.cid := ⟨hpko.2, hcid, hpko.1⟩
  obtain ⟨v, hv, hval, ⟨hlose, hrow, hle⟩ | ⟨u, hu, hwin, hle⟩⟩ :=
    mergeColumn_cases_of_wellFormed next ht hwf hcol hdel
  · refine ⟨t, heq.trans hlose, ht, ?_⟩
    rw [hview]
    refine view_eq_sup ?_ fun c _ => rfl
    rw [eq_comm, sup_eq_left]
    obtain ⟨r, hr⟩ := Option.ne_none_iff_exists'.mp hrow
    simp only [changeCell, hcid, hcol, view, hdel, if_true, if_false, hr, hval,
      Option.getD_some, WithTop.coe_le_coe]
    refine Prod.mk_le_mk.mpr ⟨le_rfl, ?_⟩
    rw [update_le_iff]
    exact ⟨hle, fun _ _ => bot_le⟩
  · have hmerge := heq.trans hwin
    exact ⟨_, hmerge, view_mergeColumn ht hwf hdel hcol hv hval hu hle hmerge⟩

/-! ## Sequences of merges -/

/-- `INSERT INTO crsql_changes` of one change after the other; a change that is
refused is skipped. -/
def Db.mergeAll (db : Db) (chs : List Change) : Db :=
  chs.foldl (fun db ch => (db.mergeInsert ch).1) db

/-- The same with merges as their statements. -/
def Db.mergeAllSql [Affinity] (db : Db) (chs : List Change) : Db :=
  chs.foldl (fun db ch => (db.mergeSql ch).1) db

/-- Changes that are taken as they are written are merged alike. -/
theorem mergeAllSql_eq [Affinity] {db : Db} {chs : List Change}
    (hnames : (db.tables.map fun t => t.info.tblName).Nodup)
    (h : ∀ ch ∈ chs, db.TakesAsWritten ch) : db.mergeAllSql chs = db.mergeAll chs := by
  induction chs generalizing db with
  | nil => rfl
  | cons ch chs ih =>
      obtain ⟨hch, hchs⟩ := List.forall_mem_cons.mp h
      rw [Db.mergeAllSql, Db.mergeAll, List.foldl_cons, List.foldl_cons, mergeSql_eq hnames hch]
      refine ih ?_ fun ch' hch' => (hchs ch' hch').of_schema (schema_exec db (.merge ch) ch'.tbl)
      rw [← show db.exec (.merge ch) = (db.mergeInsert ch).1 from rfl, names_exec]
      exact hnames

/-- A well-formed change merges without an error, and is joined to the table it is about. -/
theorem findTable_mergeInsert {db : Db} {t : CrrTable} (hwf : WellFormed s ch key)
    (hdb : db.findTable s.info.tblName = some t) (hschema : t.schema = s) (ht : Sound t) :
    (db.mergeInsert ch).2 = none ∧
    ∃ t', (db.mergeInsert ch).1.findTable s.info.tblName = some t' ∧ t'.schema = s ∧
      Sound t' ∧ view t' = view t ⊔ changeView s.info ch ∧
      (∀ r ∈ t'.rows, (∃ o ∈ t.rows, o.key = r.key) ∨ r.key = key) ∧
      ∀ e ∈ t'.clock, (∃ o ∈ t.clock, o.key = e.key) ∨ e.key = key := by
  subst hschema
  obtain ⟨t', hmerge, ht', hview⟩ := mergeTable_view db.nextDbVersion ht hwf
  have hdb' : db.findTable ch.tbl = some t := hwf.tbl ▸ hdb
  have hschema' := (TableStep.merge hmerge).schema_eq
  obtain ⟨hrc, htables, -⟩ := mergeInsert_of_ok hwf.tbl_length hwf.cid_length
    hwf.siteId_length hdb' hmerge
  have hname : t'.info.tblName = t.info.tblName := by
    rw [CrrTable.info, CrrTable.info, hschema']
  have hfind := findTable_setTable hdb hname t.schema.info.tblName
  rw [if_pos rfl] at hfind
  refine ⟨hrc, t', ?_, hschema', ht', hview, (hwf.merged_keys hmerge).1,
    (hwf.merged_keys hmerge).2⟩
  rw [← hfind, Db.findTable, Db.findTable, htables]

/-- Merging a sequence joins all its changes into the table's view, and brings no
other keys into the table. -/
theorem mergeAll_view {db : Db} {t : CrrTable} {chs : List Change}
    (hdb : db.findTable s.info.tblName = some t) (hschema : t.schema = s) (ht : Sound t)
    (hwf : ∀ ch ∈ chs, ∃ key, WellFormed s ch key) :
    ∃ t', (db.mergeAll chs).findTable s.info.tblName = some t' ∧ t'.schema = s ∧
      Sound t' ∧ view t' = Gossip.joinAll (view t) (chs.map (changeView s.info)) ∧
      (∀ r ∈ t'.rows, (∃ o ∈ t.rows, o.key = r.key) ∨
        ∃ ch ∈ chs, changeKey s.info ch = some r.key) ∧
      ∀ e ∈ t'.clock, (∃ o ∈ t.clock, o.key = e.key) ∨
        ∃ ch ∈ chs, changeKey s.info ch = some e.key := by
  induction chs generalizing db t with
  | nil =>
      exact ⟨t, hdb, hschema, ht, rfl, fun r hr => Or.inl ⟨r, hr, rfl⟩,
        fun e he => Or.inl ⟨e, he, rfl⟩⟩
  | cons ch chs ih =>
      obtain ⟨key, hch⟩ := hwf ch (by simp)
      obtain ⟨-, u, hu, huschema, husound, huview, hurows, huclock⟩ :=
        findTable_mergeInsert hch hdb hschema ht
      obtain ⟨t', ht', hschema', hsound, hview, hrows, hclock⟩ :=
        ih hu huschema husound fun ch' hch' => hwf ch' (List.mem_cons_of_mem ch hch')
      have hfirst : ∀ k, k = key → ∃ ch' ∈ ch :: chs, changeKey s.info ch' = some k := by
        rintro k rfl
        exact ⟨ch, by simp, hch.changeKey_eq⟩
      refine ⟨t', ht', hschema', hsound, ?_, ?_, ?_⟩
      · rw [hview, huview]
        rfl
      · intro r hr
        rcases hrows r hr with ⟨o, ho, hkey⟩ | ⟨ch', hch', hkey⟩
        · rcases hurows o ho with ⟨o', ho', hkey'⟩ | hkey'
          · exact Or.inl ⟨o', ho', hkey'.trans hkey⟩
          · exact Or.inr (hfirst r.key (hkey ▸ hkey'))
        · exact Or.inr ⟨ch', List.mem_cons_of_mem ch hch', hkey⟩
      · intro e he
        rcases hclock e he with ⟨o, ho, hkey⟩ | ⟨ch', hch', hkey⟩
        · rcases huclock o ho with ⟨o', ho', hkey'⟩ | hkey'
          · exact Or.inl ⟨o', ho', hkey'.trans hkey⟩
          · exact Or.inr (hfirst e.key (hkey ▸ hkey'))
        · exact Or.inr ⟨ch', List.mem_cons_of_mem ch hch', hkey⟩

/-! ## The view determines the rows -/

/-- Two base tables hold the same rows, as SQL compares keys and with identical
values. -/
def SameRows (t t' : CrrTable) : Prop :=
  (∀ r ∈ t.rows, ∃ r' ∈ t'.rows, canonKey r'.key = canonKey r.key ∧
    ∀ c ∈ t.info.nonPks, r'.val c.name = r.val c.name) ∧
  ∀ r' ∈ t'.rows, ∃ r ∈ t.rows, canonKey r.key = canonKey r'.key ∧
    ∀ c ∈ t'.info.nonPks, r.val c.name = r'.val c.name

/-- Two base tables hold exactly the same rows. -/
def SameBaseTables (t t' : CrrTable) : Prop :=
  (∀ r ∈ t.rows, ∃ r' ∈ t'.rows, r'.key = r.key ∧
    ∀ c ∈ t.info.nonPks, r'.val c.name = r.val c.name) ∧
  ∀ r' ∈ t'.rows, ∃ r ∈ t.rows, r.key = r'.key ∧
    ∀ c ∈ t'.info.nonPks, r.val c.name = r'.val c.name

omit [Sqlite] in
/-- Where keys that SQL finds equal are spelled alike, the same rows are exactly the same. -/
theorem SameRows.sameBaseTables {t t' : CrrTable} (h : SameRows t t')
    (hspelled : ∀ r ∈ t.rows, ∀ r' ∈ t'.rows, canonKey r'.key = canonKey r.key →
      r'.key = r.key) : SameBaseTables t t' := by
  constructor
  · intro r hr
    obtain ⟨r', hr', hkey, hval⟩ := h.1 r hr
    exact ⟨r', hr', hspelled r hr r' hr' hkey, hval⟩
  · intro r' hr'
    obtain ⟨r, hr, hkey, hval⟩ := h.2 r' hr'
    exact ⟨r, hr, (hspelled r hr r' hr' hkey.symm).symm, hval⟩

/-- A row of a sound table is the one found under its key. -/
theorem Sound.row_eq {t : CrrTable} (ht : Sound t) {r : BaseRow} (hr : r ∈ t.rows) :
    keyClass r.key = some (canonKey r.key) ∧ t.row (canonKey r.key) = some r := by
  have hc : keyClass r.key = some (canonKey r.key) :=
    keyClass_eq_some_iff.mpr ⟨ht.keys r hr, rfl⟩
  exact ⟨hc, Keyed.find_of_mem ht.agreement.unique_rows hr hc⟩

/-- A key with a row is not marked deleted. -/
theorem Sound.not_deleted {t : CrrTable} (ht : Sound t) {r : BaseRow} (hr : r ∈ t.rows) :
    t.entry (canonKey r.key) delSentinel = none := by
  obtain ⟨hc, hrow⟩ := ht.row_eq hr
  by_contra hne
  simp [ht.row_of_deleted hc hne] at hrow

/-- The cell of a row has the stamps of its columns. -/
theorem view_of_row {t : CrrTable} {c : List SqlValue} {r : BaseRow}
    (hrow : t.row c = some r) (hdel : t.entry c delSentinel = none) :
    view t c = ((true, stampOf t c) : Bool × (Text → WithBot Stamp)) := by
  simp [view, hrow, hdel]

/-- Rows found under the same key in tables with the same view are the same up to
the key's spelling. -/
private theorem row_val_eq {t t' : CrrTable} (ht : Sound t) (ht' : Sound t')
    (hschema : t'.schema = t.schema) {c : List SqlValue} {r r' : BaseRow}
    (hr : t.row c = some r) (hr' : t'.row c = some r') (hstamp : stampOf t c = stampOf t' c)
    {col : Text} (hcol : columnExists col t.info.nonPks = true) : r'.val col = r.val col := by
  have hinfo : t'.info = t.info := by rw [CrrTable.info, CrrTable.info, hschema]
  have hat := congrFun hstamp col
  by_cases hc : IsColumn t.info col
  · simp only [stampOf, hinfo, if_pos hc, hr, hr'] at hat
    cases he : t.entry c col with
    | none =>
        cases he' : t'.entry c col with
        | none =>
            rw [ht.default c r hr col hcol (by simp [he]),
              ht'.default c r' hr' col (hinfo ▸ hcol) (by simp [he']), hschema]
        | some e' => simp [he, he'] at hat
    | some e =>
        cases he' : t'.entry c col with
        | none => simp [he, he'] at hat
        | some e' =>
            simp only [he, he', WithBot.coe_inj, EmbeddingLike.apply_eq_iff_eq,
              Prod.mk.injEq] at hat
            refine (quote_injective ?_ ?_ hat.2).symm
            · exact ht.quotable c r hr col hc (by simp [he])
            · exact ht'.quotable c r' hr' col (hinfo ▸ hc) (by simp [he'])
  · rw [ht.default c r hr col hcol fun h => hc h.1,
      ht'.default c r' hr' col (hinfo ▸ hcol) fun h => hc (hinfo ▸ h.1), hschema]

/-- Tables with the same cells have rows with the same keys and values. -/
private theorem exists_row_of_view_eq {t t' : CrrTable} (ht : Sound t) (ht' : Sound t')
    (hschema : t'.schema = t.schema) (hview : view t = view t') {r : BaseRow}
    (hr : r ∈ t.rows) :
    ∃ r' ∈ t'.rows, canonKey r'.key = canonKey r.key ∧
      ∀ c ∈ t.info.nonPks, r'.val c.name = r.val c.name := by
  obtain ⟨hc, hrow⟩ := ht.row_eq hr
  have hat := congrFun hview (canonKey r.key)
  rw [view_of_row hrow (ht.not_deleted hr), view] at hat
  split at hat
  · rw [WithTop.coe_inj, Prod.mk.injEq] at hat
    obtain ⟨r', hr'⟩ := Option.isSome_iff_exists.mp hat.1.symm
    have hident : BaseRow.ident r' = some (canonKey r.key) := Keyed.key_of_find hr'
    refine ⟨r', Keyed.mem_of_find hr',
      canonKey_of_keyClass hident, ?_⟩
    intro c hcmem
    exact row_val_eq ht ht' hschema hrow hr' hat.2 (columnExists_iff.mpr ⟨c, hcmem, rfl⟩)
  · simp at hat

/-- Sound tables of one declaration with the same view hold the same rows. -/
theorem view_injective {t t' : CrrTable} (ht : Sound t) (ht' : Sound t')
    (hschema : t'.schema = t.schema) (hview : view t = view t') : SameRows t t' :=
  ⟨fun _ hr => exists_row_of_view_eq ht ht' hschema hview hr,
    fun _ hr => exists_row_of_view_eq ht' ht hschema.symm hview.symm hr⟩

/-! ## What a set of changes determines -/

/-- The change is about the key. -/
def About (info : TableInfo) (ch : Change) (k : List SqlValue) : Prop :=
  ∃ key, changeKey info ch = some key ∧ canonKey key = k

/-- A change's version and printed value. -/
def Change.stamp (ch : Change) : Stamp :=
  toLex (ch.colVersion, ch.val.getD [])

/-- The base table that a set of changes determines: a key has a row when the set
has a change for it and none of them is a delete; a column that the set touches
holds the value of the change with the greatest version and printed value, and
any other column its default.  Keys are spelled as in a change of the set. -/
structure Determined (chs : List Change) (t : CrrTable) : Prop where
  row_iff : ∀ k, HasRow t.rows k ↔ (∃ ch ∈ chs, About t.info ch k) ∧
    ∀ ch ∈ chs, About t.info ch k → ch.cid ≠ delSentinel
  key : ∀ r ∈ t.rows, ∃ ch ∈ chs, changeKey t.info ch = some r.key
  value : ∀ r ∈ t.rows, ∀ col, IsColumn t.info col →
    (∃ ch ∈ chs, About t.info ch (canonKey r.key) ∧ ch.cid = col) →
    ∃ ch ∈ chs, About t.info ch (canonKey r.key) ∧ ch.cid = col ∧
      Quotable (r.val col) ∧ ch.val = some (quote (r.val col)) ∧
      ∀ ch' ∈ chs, About t.info ch' (canonKey r.key) → ch'.cid = col → ch'.stamp ≤ ch.stamp
  default : ∀ r ∈ t.rows, ∀ c ∈ t.info.nonPks,
    (∀ ch ∈ chs, About t.info ch (canonKey r.key) → IsColumn t.info c.name →
      ch.cid ≠ c.name) → r.val c.name = t.schema.dflt c.name

/-- A change has its cell at the keys it is about. -/
private theorem changeView_about {info : TableInfo} {k : List SqlValue}
    (h : About info ch k) : changeView info ch k = changeCell info ch := by
  obtain ⟨key, hkey, rfl⟩ := h
  simp [changeView, hkey]

/-- A change has the least cell at other keys. -/
private theorem changeView_not_about {info : TableInfo} {k : List SqlValue}
    (h : ¬ About info ch k) : changeView info ch k = ⊥ := by
  cases hkey : changeKey info ch with
  | none => simp [changeView, hkey]
  | some key =>
      have hne : k ≠ canonKey key := fun heq => h ⟨key, hkey, heq.symm⟩
      simp [changeView, hkey, hne]

section Determined

variable {t : CrrTable} {chs : List Change}
  (hview : view t = Gossip.joinAll ⊥ (chs.map (changeView t.info)))

include hview

/-- Seen through a join-preserving map, the view at a key is that of a change
about the key or that of no change. -/
private theorem view_attained {L : Type*} [LinearOrder L] {φ : Cell → L}
    (hφ : ∀ x y, φ (x ⊔ y) = φ x ⊔ φ y) (k : List SqlValue) :
    φ (view t k) = φ ⊥ ∨
      ∃ ch ∈ chs, About t.info ch k ∧ φ (view t k) = φ (changeCell t.info ch) := by
  have h := Gossip.joinAll_attained (fun v : View => φ (v k))
    (fun v w => hφ (v k) (w k)) ⊥ (chs.map (changeView t.info))
  rw [← hview] at h
  rcases h with h | ⟨u, hu, h⟩
  · exact Or.inl h
  · obtain ⟨ch, hch, rfl⟩ := List.mem_map.mp hu
    by_cases hab : About t.info ch k
    · rw [changeView_about hab] at h
      exact Or.inr ⟨ch, hch, hab, h⟩
    · rw [changeView_not_about hab] at h
      exact Or.inl h

/-- The cells of merged changes are below those of the table. -/
private theorem changeCell_le_view {ch : Change} (hch : ch ∈ chs) {k : List SqlValue}
    (h : About t.info ch k) : changeCell t.info ch ≤ view t k := by
  have hle : changeView t.info ch ≤ view t := by
    rw [hview]
    exact Gossip.mem_le_joinAll (List.mem_map.mpr ⟨ch, hch, rfl⟩)
  simpa [changeView_about h] using hle k

/-- A cell is deleted exactly when a delete of its key was merged. -/
private theorem view_eq_top_iff (k : List SqlValue) : view t k = ⊤ ↔
    ∃ ch ∈ chs, About t.info ch k ∧ ch.cid = delSentinel := by
  constructor
  · intro htop
    rcases view_attained hview Cell.present_sup k with h | ⟨ch, hch, hab, h⟩
    · simp [htop] at h
    · refine ⟨ch, hch, hab, ?_⟩
      by_contra hcid
      rw [htop, changeCell, if_neg hcid] at h
      split at h <;> simp at h
  · rintro ⟨ch, hch, hab, hcid⟩
    have hle := changeCell_le_view hview hch hab
    rwa [changeCell, if_pos hcid, top_le_iff] at hle

/-- A key that is not deleted has a row exactly when some change is about it. -/
private theorem view_present_iff {k : List SqlValue} (htop : view t k ≠ ⊤) :
    (t.row k).isSome = true ↔ ∃ ch ∈ chs, About t.info ch k := by
  have hcoe : view t k = (((t.row k).isSome, stampOf t k) : Bool × (Text → WithBot Stamp)) := by
    unfold view at htop ⊢
    split
    · rfl
    · rename_i hdel
      simp [hdel] at htop
  constructor
  · intro hsome
    rcases view_attained hview Cell.present_sup k with h | ⟨ch, hch, hab, -⟩
    · simp [hcoe, hsome] at h
    · exact ⟨ch, hch, hab⟩
  · rintro ⟨ch, hch, hab⟩
    have hcid : ch.cid ≠ delSentinel := fun hcid =>
      htop ((view_eq_top_iff hview k).mpr ⟨ch, hch, hab, hcid⟩)
    have hle := changeCell_le_view hview hch hab
    rw [hcoe, changeCell, if_neg hcid] at hle
    split at hle <;> exact top_le_iff.mp (WithTop.coe_le_coe.mp hle).1

/-- The stamp of a column that some change is about is the greatest of theirs. -/
private theorem stampOf_attained {r : BaseRow} (ht : Sound t) (hr : r ∈ t.rows) {col : Text}
    (hcol : IsColumn t.info col) :
    stampOf t (canonKey r.key) col = ⊥ ∨
      ∃ ch ∈ chs, About t.info ch (canonKey r.key) ∧ ch.cid = col ∧
        stampOf t (canonKey r.key) col = ((ch.stamp : Stamp) : WithBot Stamp) := by
  obtain ⟨hc, hrow⟩ := ht.row_eq hr
  have hcoe := view_of_row hrow (ht.not_deleted hr)
  rcases view_attained hview (Cell.stamp_sup col) (canonKey r.key) with h | ⟨ch, hch, hab, h⟩
  · rw [hcoe] at h
    exact Or.inl (by simpa using h)
  · have hcid : ch.cid ≠ delSentinel := by
      intro hcid
      have htop := (view_eq_top_iff hview _).mpr ⟨ch, hch, hab, hcid⟩
      simp [htop] at hcoe
    rw [hcoe, changeCell, if_neg hcid] at h
    split at h
    · simp only [Cell.stamp_coe, WithTop.coe_inj] at h
      by_cases heq : ch.cid = col
      · subst heq
        exact Or.inr ⟨ch, hch, hab, rfl, by simpa [Change.stamp] using h⟩
      · rw [Function.update_of_ne (Ne.symm heq)] at h
        exact Or.inl h
    · exact Or.inl (by simpa using h)

/-- The stamp of a merged change is not above the one of its column. -/
private theorem stamp_le_stampOf {r : BaseRow} (ht : Sound t) (hr : r ∈ t.rows) {ch : Change}
    (hch : ch ∈ chs) (hab : About t.info ch (canonKey r.key)) (hcol : IsColumn t.info ch.cid) :
    ((ch.stamp : Stamp) : WithBot Stamp) ≤ stampOf t (canonKey r.key) ch.cid := by
  obtain ⟨hc, hrow⟩ := ht.row_eq hr
  have hle := changeCell_le_view hview hch hab
  rw [view_of_row hrow (ht.not_deleted hr), changeCell, if_neg hcol.2.1, if_pos hcol,
    WithTop.coe_le_coe] at hle
  simpa [Change.stamp] using hle.2 ch.cid

/-- A sound table whose view is the join of a set of well-formed changes is the
one the set determines. -/
private theorem determined_of_view (ht : Sound t)
    (hwf : ∀ ch ∈ chs, ∃ key, WellFormed t.schema ch key)
    (hkeys : ∀ r ∈ t.rows, ∃ ch ∈ chs, changeKey t.info ch = some r.key) :
    Determined chs t := by
  have habout : ∀ ch ∈ chs, ∀ k, About t.info ch k → ∃ key, keyClass key = some k := by
    rintro ch hch k ⟨key, hkey, rfl⟩
    obtain ⟨key', hch'⟩ := hwf ch hch
    have heq : some key' = some key := hch'.changeKey_eq.symm.trans hkey
    exact ⟨key, Option.some.inj heq ▸ hch'.keyClass_eq⟩
  refine ⟨?_, hkeys, ?_, ?_⟩
  · intro k
    constructor
    · rintro ⟨r, hr, rfl⟩
      obtain ⟨-, hrow⟩ := ht.row_eq hr
      have hcoe := view_of_row hrow (ht.not_deleted hr)
      have htop : view t (canonKey r.key) ≠ ⊤ := by simp [hcoe]
      exact ⟨(view_present_iff hview htop).mp (by simp [hrow]),
        fun ch hch hab hcid => htop ((view_eq_top_iff hview _).mpr ⟨ch, hch, hab, hcid⟩)⟩
    · rintro ⟨⟨ch, hch, hab⟩, hnot⟩
      obtain ⟨key, hc⟩ := habout ch hch k hab
      have htop : view t k ≠ ⊤ := by
        intro htop
        obtain ⟨ch', hch', hab', hcid⟩ := (view_eq_top_iff hview k).mp htop
        exact hnot ch' hch' hab' hcid
      rw [hasRow_iff hc]
      have hsome := (view_present_iff hview htop).mpr ⟨ch, hch, hab⟩
      exact Option.isSome_iff_ne_none.mp hsome
  · rintro r hr col hcol ⟨ch, hch, hab, rfl⟩
    obtain ⟨-, hrow⟩ := ht.row_eq hr
    have hle := stamp_le_stampOf hview ht hr hch hab hcol
    rcases stampOf_attained hview ht hr hcol with hbot | ⟨win, hwin, hwab, hwcid, hstamp⟩
    · simp [hbot] at hle
    obtain ⟨key, hkey⟩ := hwf win hwin
    obtain ⟨v, hv, hval, -⟩ := hkey.val (hwcid ▸ hcol)
    have hentry : t.entry (canonKey r.key) ch.cid ≠ none := by
      intro hnone
      simp [stampOf, hcol, hnone] at hstamp
    obtain ⟨e, he⟩ := Option.ne_none_iff_exists'.mp hentry
    have hquot := ht.quotable _ r hrow ch.cid hcol hentry
    have hvalue : quote (r.val ch.cid) = quote v := by
      simp only [stampOf, if_pos hcol, he, hrow, Change.stamp, hval, Option.getD_some,
        WithBot.coe_inj, EmbeddingLike.apply_eq_iff_eq, Prod.mk.injEq] at hstamp
      exact hstamp.2
    refine ⟨win, hwin, hwab, hwcid, hquot, by rw [hval, hvalue], ?_⟩
    intro ch' hch' hab' hcid'
    have hle' := stamp_le_stampOf hview ht hr hch' hab' (hcid' ▸ hcol)
    rw [hcid', hstamp] at hle'
    exact WithBot.coe_le_coe.mp hle'
  · intro r hr c hc hnone
    obtain ⟨-, hrow⟩ := ht.row_eq hr
    refine ht.default _ r hrow c.name (columnExists_iff.mpr ⟨c, hc, rfl⟩) ?_
    rintro ⟨hcol, hentry⟩
    obtain ⟨e, he⟩ := Option.ne_none_iff_exists'.mp hentry
    rcases stampOf_attained hview ht hr hcol with hbot | ⟨win, hwin, hwab, hwcid, -⟩
    · simp [stampOf, hcol, he, hrow] at hbot
    · exact hnone win hwin hwab hcol hwcid

end Determined

/-! ## Confluence -/

/-- The cells of an empty table are least. -/
theorem view_empty {t : CrrTable} (hrows : t.rows = []) (hclock : t.clock = []) :
    view t = ⊥ := by
  funext c
  have hstamp : stampOf t c = ⊥ := by
    funext col
    simp [stampOf, CrrTable.entry, hclock]
  simp only [view, CrrTable.entry, CrrTable.row, hclock, hrows, Keyed.find_nil, hstamp]
  rfl

/-- Changes whose keys SQL finds equal spell them alike. -/
def SpelledAlike (info : TableInfo) (chs : List Change) : Prop :=
  ∀ ch ∈ chs, ∀ ch' ∈ chs, ∀ key ∈ changeKey info ch, ∀ key' ∈ changeKey info ch',
    canonKey key' = canonKey key → key' = key

/-- Merging is a join: two sequences of well-formed changes with the same members in any
order and any repetition, each merged into the empty table, end in the same rows up to the
spelling of keys that SQL finds equal, and in exactly the same ones where these are spelled
alike; and they are the rows that the set of changes determines. -/
theorem mergeInsert_confluent [Affinity] (hs : s.Lenient) (hplain : s.info.PlainNames)
    {db₁ db₂ : Db} {chs₁ chs₂ : List Change}
    (hnames₁ : (db₁.tables.map fun t => t.info.tblName).Nodup)
    (hnames₂ : (db₂.tables.map fun t => t.info.tblName).Nodup)
    (hdb₁ : db₁.findTable s.info.tblName = some ⟨s, [], []⟩)
    (hdb₂ : db₂.findTable s.info.tblName = some ⟨s, [], []⟩)
    (hwf : ∀ ch ∈ chs₁, (∃ key, WellFormed s ch key) ∧ AsStored s.info ch)
    (hset : ∀ ch, ch ∈ chs₁ ↔ ch ∈ chs₂) :
    ∃ t₁ t₂, (db₁.mergeAllSql chs₁).findTable s.info.tblName = some t₁ ∧
      (db₂.mergeAllSql chs₂).findTable s.info.tblName = some t₂ ∧
      SameRows t₁ t₂ ∧ (SpelledAlike s.info chs₁ → SameBaseTables t₁ t₂) ∧
      Determined chs₁ t₁ ∧ Determined chs₂ t₂ := by
  have hempty : Sound (⟨s, [], []⟩ : CrrTable) := Sound.empty hs rfl rfl
  have hbot : view (⟨s, [], []⟩ : CrrTable) = ⊥ := view_empty rfl rfl
  have hwf₁ : ∀ ch ∈ chs₁, ∃ key, WellFormed s ch key := fun ch hch => (hwf ch hch).1
  have hwf₂ : ∀ ch ∈ chs₂, ∃ key, WellFormed s ch key := fun ch hch =>
    hwf₁ ch ((hset ch).mpr hch)
  have htakes : ∀ {db : Db}, db.findTable s.info.tblName = some ⟨s, [], []⟩ →
      ∀ ch ∈ chs₁, db.TakesAsWritten ch := by
    intro db hdb ch hch t ht
    obtain ⟨⟨key, hkey⟩, hstored⟩ := hwf ch hch
    rw [hkey.tbl, hdb, Option.mem_def, Option.some.injEq] at ht
    rw [← ht]
    exact ⟨hplain, hstored⟩
  rw [mergeAllSql_eq hnames₁ (htakes hdb₁),
    mergeAllSql_eq hnames₂ fun ch hch => htakes hdb₂ ch ((hset ch).mpr hch)]
  obtain ⟨t₁, ht₁, hs₁, hsound₁, hview₁, hkeys₁, -⟩ := mergeAll_view hdb₁ rfl hempty hwf₁
  obtain ⟨t₂, ht₂, hs₂, hsound₂, hview₂, hkeys₂, -⟩ := mergeAll_view hdb₂ rfl hempty hwf₂
  rw [hbot] at hview₁ hview₂
  have hjoin : view t₁ = view t₂ := by
    rw [hview₁, hview₂]
    apply Gossip.joinAll_eq_of_mem_iff
    intro v
    simp only [List.mem_map, hset]
  have hdet : ∀ {t : CrrTable} {chs : List Change}, t.schema = s → Sound t →
      view t = Gossip.joinAll ⊥ (chs.map (changeView s.info)) →
      (∀ ch ∈ chs, ∃ key, WellFormed s ch key) →
      (∀ r ∈ t.rows, (∃ o ∈ ([] : List BaseRow), o.key = r.key) ∨
        ∃ ch ∈ chs, changeKey s.info ch = some r.key) → Determined chs t := by
    rintro t chs rfl ht hv hw hk
    exact determined_of_view hv ht hw fun r hr => by
      simpa [CrrTable.info] using hk r hr
  have hdet₁ := hdet hs₁ hsound₁ hview₁ hwf₁ hkeys₁
  have hdet₂ := hdet hs₂ hsound₂ hview₂ hwf₂ hkeys₂
  have hsame : SameRows t₁ t₂ := view_injective hsound₁ hsound₂ (hs₂.trans hs₁.symm) hjoin
  refine ⟨t₁, t₂, ht₁, ht₂, hsame, fun hspelled => ?_, hdet₁, hdet₂⟩
  refine hsame.sameBaseTables fun r hr r' hr' hkey => ?_
  obtain ⟨ch, hch, hread⟩ := hdet₁.key r hr
  obtain ⟨ch', hch', hread'⟩ := hdet₂.key r' hr'
  rw [CrrTable.info, hs₁] at hread
  rw [CrrTable.info, hs₂] at hread'
  exact hspelled ch hch ch' ((hset ch').mpr hch') _ hread _ hread' hkey

end View

/-! ## Merges of the table `foo` -/

/-- A change of a row of `foo` as a peer reports it. -/
def fooChange (v : SqlValue) (cid : Text) (val : Option Int) (colVersion : Int) : Change :=
  ⟨['f', 'o', 'o'], @quote integralSqlite v, cid,
    val.map fun n => @quote integralSqlite (.integer n), colVersion, 1, [7]⟩

/-- Such a change is well formed for a declaration with a key of one column. -/
theorem wellFormed_fooChange {s : CrrSchema} {v : SqlValue} {cid : Text} {val : Option Int}
    {colVersion : Int} (htbl : s.info.tblName = ['f', 'o', 'o'])
    (hlength : s.info.pks.length = 1) (hv : @Quotable integralSqlite v) (hnull : v ≠ .null)
    (hcid : cid.length ≤ maxTblNameLen)
    (hval : IsColumn s.info cid → ∃ n, val = some n ∧ minInt64 ≤ n ∧ n ≤ maxInt64) :
    @WellFormed integralSqlite s (fooChange v cid val colVersion) [v] := by
  refine @WellFormed.mk integralSqlite _ _ _ htbl.symm ?_ hlength.symm ?_ ?_ ?_
    (show List.length ['f', 'o', 'o'] ≤ maxTblNameLen by decide) hcid
    (show List.length [7] ≤ siteIdLen by decide)
  · simp [quoteConcat, fooChange]
  · intro w hw
    rw [List.mem_singleton.mp hw]
    exact hv
  · rw [List.mem_singleton]
    exact fun h => hnull h.symm
  · intro hcol
    obtain ⟨n, rfl, hn⟩ := hval hcol
    exact ⟨.integer n, hn, rfl, fun _ _ _ _ => by simp⟩

/-- A change of the column `b` is well formed. -/
private theorem wellFormed_b {s : CrrSchema} {v : SqlValue} {n colVersion : Int}
    (htbl : s.info.tblName = ['f', 'o', 'o']) (hlength : s.info.pks.length = 1)
    (hv : @Quotable integralSqlite v) (hnull : v ≠ .null) (hn : minInt64 ≤ n ∧ n ≤ maxInt64) :
    @WellFormed integralSqlite s (fooChange v ['b'] (some n) colVersion) [v] :=
  wellFormed_fooChange htbl hlength hv hnull (by decide) fun _ => ⟨n, rfl, hn⟩

/-- A key that is a small integer survives printing. -/
private theorem quotable_integer {n : Int} (hn : minInt64 ≤ n ∧ n ≤ maxInt64) :
    @Quotable integralSqlite (.integer n) :=
  hn

/-- The theorem applies to a column change, a key-only insert and a delete of the
table `foo`, taken in two orders and one of them twice. -/
theorem mergeInsert_confluent_foo :
    let col := fooChange (.integer 1) ['b'] (some 5) 1
    let pko := fooChange (.integer 2) pkoSentinel none 1
    let del := fooChange (.integer 2) delSentinel none 1
    ∃ t₁ t₂,
      (@Db.mergeAllSql integralSqlite noAffinity (fooDb [1]) [col, pko, del]).findTable
        ['f', 'o', 'o'] = some t₁ ∧
      (@Db.mergeAllSql integralSqlite noAffinity (fooDb [2]) [del, pko, col, pko]).findTable
        ['f', 'o', 'o'] = some t₂ ∧
      SameRows t₁ t₂ ∧
      (@SpelledAlike integralSqlite fooSchema.info [col, pko, del] → SameBaseTables t₁ t₂) ∧
      @Determined integralSqlite [col, pko, del] t₁ ∧
      @Determined integralSqlite [del, pko, col, pko] t₂ := by
  intro col pko del
  refine @mergeInsert_confluent integralSqlite fooSchema noAffinity fooSchema_lenient (by decide)
    (fooDb [1]) (fooDb [2]) [col, pko, del] [del, pko, col, pko] (by decide) (by decide) rfl rfl
    ?_ ?_
  · intro ch hch
    simp only [List.mem_cons, List.not_mem_nil, or_false] at hch
    have hsentinel (cid : Text) (hcid : cid.length ≤ maxTblNameLen)
        (hnot : ¬ IsColumn fooSchema.info cid) : @WellFormed integralSqlite fooSchema
          (fooChange (.integer 2) cid none 1) [.integer 2] :=
      wellFormed_fooChange rfl rfl (quotable_integer (by decide)) (by simp) hcid
        fun h => absurd h hnot
    rcases hch with rfl | rfl | rfl
    · exact ⟨⟨_, wellFormed_b rfl rfl (quotable_integer (by decide)) (by simp) (by decide)⟩,
        by decide⟩
    · exact ⟨⟨_, hsentinel _ (by decide) (by decide)⟩, by decide⟩
    · exact ⟨⟨_, hsentinel _ (by decide) (by decide)⟩, by decide⟩
  · intro ch
    simp only [List.mem_cons, List.not_mem_nil, or_false]
    tauto

/-- Merging is a join for a declaration: every two sequences with the same members end in
exactly the same base table, and it is the one that the changes determine. -/
def Joins [Sqlite] [Affinity] (s : CrrSchema) : Prop :=
  ∀ (db₁ db₂ : Db) (chs₁ chs₂ : List Change),
    db₁.findTable s.info.tblName = some ⟨s, [], []⟩ →
    db₂.findTable s.info.tblName = some ⟨s, [], []⟩ →
    (∀ ch ∈ chs₁, ∃ key, WellFormed s ch key) → (∀ ch, ch ∈ chs₁ ↔ ch ∈ chs₂) →
    ∃ t₁ t₂, (db₁.mergeAllSql chs₁).findTable s.info.tblName = some t₁ ∧
      (db₂.mergeAllSql chs₂).findTable s.info.tblName = some t₂ ∧
      SameBaseTables t₁ t₂ ∧ Determined chs₁ t₁

/-- A replica with an empty table of the declaration. -/
def emptyDb (s : CrrSchema) : Db :=
  { fooDb [1] with tables := [⟨s, [], []⟩] }

theorem findTable_emptyDb (s : CrrSchema) :
    (emptyDb s).findTable s.info.tblName = some ⟨s, [], []⟩ := by
  simp [emptyDb, Db.findTable, CrrTable.info]

/-- Two changes whose order decides about a row. -/
private theorem not_joins_of_order {s : CrrSchema} {ch ch' : Change} {key key' : Key}
    (hch : @WellFormed integralSqlite s ch key) (hch' : @WellFormed integralSqlite s ch' key')
    (hdiffer : ∀ t₁ ∈ (@Db.mergeAllSql integralSqlite noAffinity (emptyDb s) [ch, ch']).findTable
        s.info.tblName,
      ∀ t₂ ∈ (@Db.mergeAllSql integralSqlite noAffinity (emptyDb s) [ch', ch]).findTable
        s.info.tblName,
      ∃ r ∈ t₁.rows, ∀ r' ∈ t₂.rows, r'.key = r.key →
        ∃ c ∈ t₁.info.nonPks, r'.val c.name ≠ r.val c.name) :
    ¬ @Joins integralSqlite noAffinity s := by
  intro h
  obtain ⟨t₁, t₂, ht₁, ht₂, hsame, -⟩ := h (emptyDb s) (emptyDb s) [ch, ch'] [ch', ch]
    (findTable_emptyDb s) (findTable_emptyDb s)
    (by
      intro c hc
      rcases List.mem_pair.mp hc with rfl | rfl
      · exact ⟨key, hch⟩
      · exact ⟨key', hch'⟩)
    (by
      intro c
      rw [List.mem_pair, List.mem_pair, or_comm])
  obtain ⟨r, hr, hrow⟩ := hdiffer t₁ ht₁ t₂ ht₂
  obtain ⟨r', hr', hkey, hval⟩ := hsame.1 r hr
  obtain ⟨c, hc, hne⟩ := hrow r' hr' hkey
  exact hne (hval c hc)

/-- `CREATE TABLE foo (a NOT NULL PRIMARY KEY, b, c NOT NULL DEFAULT NULL)`. -/
def strictSchema : CrrSchema where
  info :=
    { tblName := ['f', 'o', 'o']
      baseCols := [⟨0, ['a'], [], true, 1⟩, ⟨1, ['b'], [], false, 0⟩, ⟨2, ['c'], [], true, 0⟩] }
  dflt _ := .null
  pks_ne_nil := by decide

/-- A change of `b` is refused, as it inserts a row with the default of `c`. -/
private theorem not_joins_strict : ¬ @Joins integralSqlite noAffinity strictSchema := by
  intro h
  have hb : @WellFormed integralSqlite strictSchema (fooChange (.integer 1) ['b'] (some 5) 1)
      [.integer 1] :=
    wellFormed_b rfl rfl (quotable_integer (by decide)) (by simp) (by decide)
  obtain ⟨t₁, t₂, ht₁, -, -, hdet⟩ := h (emptyDb strictSchema) (emptyDb strictSchema) _ _
    (findTable_emptyDb _) (findTable_emptyDb _)
    (List.forall_mem_singleton.mpr ⟨_, hb⟩) fun ch => Iff.rfl
  have hempty : ∀ t ∈ (@Db.mergeAllSql integralSqlite noAffinity (emptyDb strictSchema)
      [fooChange (.integer 1) ['b'] (some 5) 1]).findTable strictSchema.info.tblName,
      t.rows.length = 0 ∧ t.info = strictSchema.info := by decide
  obtain ⟨hrows, hinfo⟩ := hempty t₁ ht₁
  obtain ⟨r, hr, -⟩ := (@Determined.row_iff integralSqlite _ _ hdet (canonKey [.integer 1])).mpr
    ⟨⟨_, List.mem_singleton_self _, [.integer 1], by
        rw [hinfo]
        exact @WellFormed.changeKey_eq integralSqlite _ _ _ hb, rfl⟩,
      List.forall_mem_singleton.mpr fun _ => by decide⟩
  rw [List.length_eq_zero_iff.mp hrows] at hr
  exact absurd hr List.not_mem_nil

/-- Merging is no join as it stands: the keys 1 and 1.0 are one key, which stays as it was
merged first; with a key column called `a""` the version that is merged last wins; and where
a NOT NULL column has the default NULL a change of another column is refused. -/
theorem merges_do_not_join :
    ¬ @Joins integralSqlite noAffinity fooSchema ∧
    ¬ @Joins integralSqlite noAffinity quotedSchema ∧
    ¬ @Joins integralSqlite noAffinity strictSchema := by
  have hone {s : CrrSchema} (htbl : s.info.tblName = ['f', 'o', 'o'])
      (hlength : s.info.pks.length = 1) (n colVersion : Int) (hn : minInt64 ≤ n ∧ n ≤ maxInt64) :
      @WellFormed integralSqlite s (fooChange (.integer 1) ['b'] (some n) colVersion)
        [.integer 1] :=
    wellFormed_b htbl hlength (quotable_integer (by decide)) (by simp) hn
  have hreal : @WellFormed integralSqlite fooSchema (fooChange (.real 1) ['b'] (some 5) 1)
      [.real 1] :=
    wellFormed_b rfl rfl rfl (by simp) (by decide)
  refine ⟨?_, ?_, not_joins_strict⟩
  · exact not_joins_of_order (hone rfl rfl 5 1 (by decide)) hreal (by decide)
  · exact not_joins_of_order (hone rfl rfl 5 1 (by decide)) (hone rfl rfl 6 2 (by decide))
      (by decide)

end CrSqlite
