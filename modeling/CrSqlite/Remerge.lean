import CrSqlite.Reachable
import CrSqlite.MergeJoin
import CrSqlite.TrackedPeers

/-!
# Remerge - merging a change a second time

A change that is known already should change nothing when it arrives again.  A delete
finds its own sentinel and a column change its own version and value; a key-only change
writes its clock entry anew each time it comes.

Main results:

- Theorem {lit}`remergeTable_iff`: when the second merge leaves a table as it is.
- Theorem {lit}`remerge_iff`: in every state reached, when the second merge changes neither
  tables nor versions.
-/

namespace CrSqlite

/-! ## Printed keys -/

/-- The value that the printed text of a value is read as: a text ends at its first NUL
byte. -/
def SqlValue.asRead : SqlValue → SqlValue
  | .text t => .text (t.takeWhile fun c => c ≠ nul)
  | v => v

/-- A key that was printed and read has its NULLs. -/
theorem null_mem_asRead {key : Key} : SqlValue.null ∈ key.map SqlValue.asRead ↔ .null ∈ key := by
  rw [List.mem_map]
  constructor
  · rintro ⟨v, hv, hnull⟩
    cases v <;> simp_all [SqlValue.asRead]
  · exact fun h => ⟨.null, h, rfl⟩

section Reading

variable [Sqlite]

/-- A value that was printed and read is printed as before. -/
@[simp]
theorem quote_asRead (v : SqlValue) : quote v.asRead = quote v := by
  cases v with
  | text t => simp [SqlValue.asRead, quote, List.takeWhile_takeWhile]
  | _ => rfl

/-- A value that was read can be printed. -/
theorem quotable_asRead {v : SqlValue} (hv : Storable v) (hfin : ∀ n, v ≠ .inf n) :
    Quotable v.asRead := by
  cases v with
  | text t =>
      intro hmem
      simpa using List.mem_takeWhile_imp hmem
  | inf n => exact absurd rfl (hfin n)
  | null => trivial
  | blob b => trivial
  | integer i => exact hv
  | real q => exact hv

/-- A key that was printed and read is printed as before. -/
theorem map_quote_asRead (key : Key) : (key.map SqlValue.asRead).map quote = key.map quote := by
  rw [List.map_map]
  exact List.map_congr_left fun v _ => quote_asRead v

/-- A change as `crsql_changes` prints it: its key and, where it is about a column, its
value are values that a column stores. -/
structure Printed (info : TableInfo) (ch : Change) (key : Key) : Prop where
  pk : ch.pk = quoteConcat key
  length : key.length = info.pks.length
  storable : ∀ v ∈ key, Storable v
  val : IsColumn info ch.cid → ∃ v, Storable v ∧ ch.val = some (quote v)

/-- Both decoders read the key text of a change as the key. -/
structure ReadsKey (info : TableInfo) (ch : Change) (wheres : List (Text × Text)) (key : Key) :
    Prop where
  where_eq : extractWhereList info.pks ch.pk = some wheres
  where_reads : readLiterals (whereTexts wheres) = some key
  values : (quoteConcatedValuesAsList ch.pk info.pks.length).bind readLiterals = some key
  length : key.length = info.pks.length

/-- A printed key without an infinity is read up to the NUL bytes of its texts. -/
theorem Printed.readsKey {info : TableInfo} {ch : Change} {key : Key} (h : Printed info ch key)
    (hfin : ∀ n, SqlValue.inf n ∉ key) :
    ∃ wheres, ReadsKey info ch wheres (key.map SqlValue.asRead) := by
  have hfin' : ∀ v ∈ key, Storable v ∧ ∀ n, v ≠ .inf n :=
    fun v hv => ⟨h.storable v hv, fun n hn => hfin n (hn ▸ hv)⟩
  have hread : readLiterals (key.map quote) = some (key.map SqlValue.asRead) := by
    rw [← map_quote_asRead]
    apply readLiterals_quote
    intro v hv
    obtain ⟨w, hw, rfl⟩ := List.mem_map.mp hv
    exact quotable_asRead (hfin' w hw).1 (hfin' w hw).2
  have hwhere := whereTexts_quoteConcat h.length hfin'
  rw [← h.pk] at hwhere
  obtain ⟨wheres, hw, htexts⟩ := Option.map_eq_some_iff.mp hwhere
  refine ⟨wheres, hw, by rw [htexts, hread], ?_, by rw [List.length_map, h.length]⟩
  rw [quoteConcatedValuesAsList, h.pk, ← h.length, splitQuoteConcat_quoteConcat key hfin',
    Option.bind_some, hread]

end Reading

/-! ## What one write leaves -/

/-- The same rows in the same places, and the same clock entries in any order. -/
structure SameContents (t t' : CrrTable) : Prop where
  rows : t'.rows = t.rows
  clock : t'.clock.Perm t.clock

theorem SameContents.refl (t : CrrTable) : SameContents t t :=
  ⟨rfl, List.Perm.refl _⟩

section Writes

variable {next : Int} {t : CrrTable} {ch : Change} {key : Key}

/-- Under a key with a NULL no entry is replaced. -/
theorem put_of_null (hnull : SqlValue.null ∈ key) (col : Text) (v d : Int) (s : Option Blob)
    (clock : List ClockEntry) : Keyed.put ClockEntry.ident ⟨key, col, v, d, s⟩ clock =
      clock ++ [⟨key, col, v, d, s⟩] := by
  have hident : ClockEntry.ident ⟨key, col, v, d, s⟩ = none := by
    rw [ClockEntry.ident, keyClass_eq_none_iff.mpr hnull, Option.map_none]
  have hkeep : clock.filter (fun e => ¬ Keyed.Conflicts ClockEntry.ident ⟨key, col, v, d, s⟩ e) =
      clock := by
    rw [List.filter_eq_self]
    intro e _
    simp [Keyed.Conflicts, hident]
  rw [Keyed.put, hkeep]

/-- An entry of the same key replaces one that was just put. -/
theorem put_put {e e' : ClockEntry} (hident : e'.ident = e.ident) (hne : e.ident ≠ none)
    (clock : List ClockEntry) : Keyed.put ClockEntry.ident e' (Keyed.put ClockEntry.ident e clock) =
      clock.filter (fun b => ¬ Keyed.Conflicts ClockEntry.ident e b) ++ [e'] := by
  have hconf : ∀ b, Keyed.Conflicts ClockEntry.ident e' b ↔ Keyed.Conflicts ClockEntry.ident e b := by
    intro b
    rw [Keyed.Conflicts, Keyed.Conflicts, hident]
  have hself : Keyed.Conflicts ClockEntry.ident e e := ⟨hne, rfl⟩
  simp only [Keyed.put, hconf, List.filter_append, List.filter_filter, Bool.and_self]
  simp [hself]

/-- Putting an entry again leaves the clock table as it is exactly when the two entries are
the same. -/
theorem put_put_perm_iff {e e' : ClockEntry} (hident : e'.ident = e.ident) (hne : e.ident ≠ none)
    (clock : List ClockEntry) :
    (Keyed.put ClockEntry.ident e' (Keyed.put ClockEntry.ident e clock)).Perm
      (Keyed.put ClockEntry.ident e clock) ↔ e' = e := by
  rw [put_put hident hne, Keyed.put, List.perm_append_left_iff, List.perm_singleton,
    List.cons_eq_cons]
  simp

/-- A merged key writes its entry. -/
theorem clock_mergePkOnlyInsert (next : Int) (key : Key) (ch : Change) (t : CrrTable) :
    (mergePkOnlyInsert next key ch t).clock = Keyed.put ClockEntry.ident
      ⟨key, pkoSentinel, ch.colVersion, max next ch.dbVersion, bindSiteId ch.siteId⟩ t.clock := by
  rw [mergePkOnlyInsert, setWinnerClock, insertOrIgnore_eq]
  split <;> rfl

/-- A key-only merge that the constraints admit leaves a row of its key. -/
theorem row_ne_none_mergePkOnlyInsert
    (hok : constraintsOk t.schema ⟨key, t.schema.dflt⟩ = true) (hnull : SqlValue.null ∉ key)
    (hlen : key.length = t.info.pks.length) (next : Int) (ch : Change) :
    (mergePkOnlyInsert next key ch t).row (canonKey key) ≠ none := by
  have hc : keyClass key = some (canonKey key) := keyClass_eq_some_iff.mpr ⟨hnull, rfl⟩
  rw [CrrTable.row, mergePkOnlyInsert, setWinnerClock, insertOrIgnore_eq,
    ← Keyed.exists_key_iff]
  split
  · exact ⟨_, List.mem_append_right _ (List.mem_singleton.mpr rfl), hc⟩
  · rename_i hadm
    by_contra hno
    refine hadm (admits_default hok hlen ?_)
    intro b hb hconf
    exact hno ⟨b, hb, (Keyed.conflicts_iff hc).mp hconf⟩

/-- Where there is a row of the key, a key-only merge writes nothing but its entry. -/
theorem mergePkOnlyInsert_of_row (hnull : SqlValue.null ∉ key)
    (hrow : t.row (canonKey key) ≠ none) (next : Int) (ch : Change) :
    mergePkOnlyInsert next key ch t = setWinnerClock next key pkoSentinel ch t := by
  have hc : keyClass key = some (canonKey key) := keyClass_eq_some_iff.mpr ⟨hnull, rfl⟩
  obtain ⟨b, hb, hkey⟩ := Keyed.exists_key_iff.mpr hrow
  have hadm : admits t t.rows ⟨key, t.schema.dflt⟩ ≠ true := fun hadm =>
    not_conflicts_of_admits hadm b hb ((Keyed.conflicts_iff hc).mpr hkey)
  rw [mergePkOnlyInsert, insertOrIgnore_eq, if_neg hadm]

/-- A merged key keeps the declaration. -/
theorem schema_mergePkOnlyInsert (next : Int) (key : Key) (ch : Change) (t : CrrTable) :
    (mergePkOnlyInsert next key ch t).schema = t.schema := by
  rw [mergePkOnlyInsert, setWinnerClock, insertOrIgnore_eq]
  split <;> rfl

/-- The second of two key-only merges writes nothing but its entry: there is a row of the
key by then, or the constraints keep it out again. -/
theorem mergePkOnlyInsert_again (hnull : SqlValue.null ∉ key)
    (hlen : key.length = t.info.pks.length) (next next' : Int) (ch : Change) :
    mergePkOnlyInsert next' key ch (mergePkOnlyInsert next key ch t) =
      setWinnerClock next' key pkoSentinel ch (mergePkOnlyInsert next key ch t) := by
  by_cases hok : constraintsOk t.schema ⟨key, t.schema.dflt⟩ = true
  · exact mergePkOnlyInsert_of_row hnull
      (row_ne_none_mergePkOnlyInsert hok hnull hlen next ch) next' ch
  · have hadm : ∀ u : CrrTable, u.schema = t.schema →
        admits u u.rows ⟨key, u.schema.dflt⟩ ≠ true := by
      intro u hu hadm
      simp only [admits, Bool.and_eq_true] at hadm
      rw [hu] at hadm
      exact hok hadm.1.2
    rw [mergePkOnlyInsert, insertOrIgnore_eq,
      if_neg (hadm _ (schema_mergePkOnlyInsert next key ch t))]

/-- The sentinel of a key survives the winner's clock of another column. -/
theorem deleted_setWinnerClock {c : List SqlValue} {col : Text} (hcol : col ≠ delSentinel) :
    (setWinnerClock next key col ch t).entry c delSentinel = t.entry c delSentinel := by
  rw [entry_setWinnerClock, if_neg fun h => hcol h.2]

/-- After a column write the row of the key holds the value. -/
theorem row_upsertColumn {u : CrrTable} {col : Text} {v : SqlValue} (hnull : SqlValue.null ∉ key)
    (hcol : columnExists col t.info.nonPks = true) (h : upsertColumn next key col v t = some u) :
    ∃ r, u.row (canonKey key) = some r ∧ r.column u.info col = v := by
  have hkey : BaseRow.ident ⟨key, Function.update t.schema.dflt col v⟩ = some (canonKey key) :=
    keyClass_eq_some_iff.mpr ⟨hnull, rfl⟩
  have hfind := Keyed.find_upsert (BaseRow.ident_setColumn col v) (l := t.rows)
    (a := ⟨key, Function.update t.schema.dflt col v⟩) (k := canonKey key)
  rw [if_pos hkey] at hfind
  have hinfo : u.info = t.info := by
    rw [upsertColumn_eq_some h]
    rfl
  refine ⟨(Keyed.find BaseRow.ident (canonKey key) t.rows).elim
    ⟨key, Function.update t.schema.dflt col v⟩ (BaseRow.setColumn col v), ?_, ?_⟩
  · rw [upsertColumn_eq_some h]
    exact hfind
  · rw [hinfo, BaseRow.column, if_pos hcol]
    cases Keyed.find BaseRow.ident (canonKey key) t.rows <;> simp [BaseRow.setColumn]

end Writes

/-! ## The merge of a readable change -/

/-- The change is for a key that the table has marked deleted. -/
def DeletedLocally [Sqlite] (t : CrrTable) (ch : Change) : Prop :=
  ∃ wheres ∈ extractWhereList t.info.pks ch.pk, checkForLocalDelete t wheres = true

instance [Sqlite] (t : CrrTable) (ch : Change) : Decidable (DeletedLocally t ch) :=
  inferInstanceAs (Decidable (∃ wheres ∈ extractWhereList t.info.pks ch.pk, _))

section Table

variable [Sqlite] {next next' : Int} {t t₁ : CrrTable} {ch : Change} {key : Key}
  {wheres : List (Text × Text)}

/-- A change for a deleted key is dropped. -/
theorem mergeTable_of_deleted (h : DeletedLocally t ch) : mergeTable next ch t = .ok t := by
  obtain ⟨wheres, hw, hcheck⟩ := h
  rw [Option.mem_def] at hw
  simp only [mergeTable, hw, hcheck, if_true]

/-- A key that is not read is merged only where it is marked deleted. -/
theorem deletedLocally_of_unread (h : mergeTable next ch t = .ok t₁)
    (hsplit : quoteConcatedValuesAsList ch.pk t.info.pks.length = none) : DeletedLocally t ch := by
  unfold mergeTable at h
  split at h
  · cases h
  · rename_i wheres hw
    split at h
    · rename_i hcheck
      exact ⟨wheres, hw, hcheck⟩
    · rw [hsplit] at h
      cases h

/-- The merge of a change whose key is read. -/
theorem ReadsKey.mergeTable_eq (h : ReadsKey t.info ch wheres key) (next : Int) :
    mergeTable next ch t =
      if checkForLocalDelete t wheres then .ok t
      else if ch.cid = delSentinel then .ok (mergeDelete next key ch t)
      else if KeyOnly t ch then .ok (mergePkOnlyInsert next key ch t)
      else mergeColumn next key ch t := by
  obtain ⟨parts, hparts, hkey⟩ := Option.bind_eq_some_iff.mp h.values
  have hreadable : (readLiterals (whereTexts wheres)).isSome = true := by
    rw [h.where_reads]
    rfl
  simp only [mergeTable, h.where_eq, hparts, hkey, hreadable, if_true]
  split_ifs <;> simp_all [KeyOnly]

/-- A key is deleted locally exactly when the query finds its sentinel. -/
theorem ReadsKey.deletedLocally_iff (h : ReadsKey t.info ch wheres key) :
    DeletedLocally t ch ↔ checkForLocalDelete t wheres = true := by
  rw [DeletedLocally, h.where_eq]
  simp

/-- With a unique clock table the check finds the sentinel of a key without NULLs, and none
for a key with one. -/
theorem ReadsKey.check_iff (h : ReadsKey t.info ch wheres key)
    (hu : Keyed.Unique ClockEntry.ident t.clock) : checkForLocalDelete t wheres = true ↔
      SqlValue.null ∉ key ∧ t.entry (canonKey key) delSentinel ≠ none := by
  by_cases hnull : SqlValue.null ∈ key
  · have hnone : ∀ e : ClockEntry, whereTrue e.key key = false := by
      intro e
      rw [← Bool.not_eq_true, whereTrue_iff]
      exact fun hw => hw.1 (keyClass_eq_none_iff.mpr hnull)
    have hfilter : t.clock.filter (fun e => whereTrue e.key key && e.colName = delSentinel) = [] :=
      List.filter_eq_nil_iff.mpr fun e _ => by simp [hnone]
    simp [checkForLocalDelete, h.where_reads, hfilter, hnull]
  · rw [checkForLocalDelete_iff hu h.where_reads (keyClass_eq_some_iff.mpr ⟨hnull, rfl⟩)]
    simp [hnull, canonKey]

/-! ## Keys with a NULL -/

/-- A merge under a key with a NULL adds an entry each time. -/
theorem ReadsKey.length_of_null (h : ReadsKey t.info ch wheres key)
    (hu : Keyed.Unique ClockEntry.ident t.clock) (hnull : SqlValue.null ∈ key)
    (hm : mergeTable next ch t = .ok t₁) : t₁.clock.length = t.clock.length + 1 := by
  have hcheck : checkForLocalDelete t wheres = false := by
    rw [← Bool.not_eq_true, h.check_iff hu]
    exact fun hne => hne.1 hnull
  have hput : ∀ (col : Text) (u : CrrTable), u.clock = t.clock →
      (setWinnerClock next key col ch u).clock.length = t.clock.length + 1 := by
    intro col u hclock
    rw [setWinnerClock, put_of_null hnull, hclock, List.length_append, List.length_singleton]
  rw [h.mergeTable_eq, hcheck, if_neg Bool.false_ne_true] at hm
  split_ifs at hm with hdel hpko
  · rw [← Except.ok.inj hm]
    exact hput delSentinel _ (by rw [deleteWhere_eq])
  · rw [← Except.ok.inj hm]
    refine hput pkoSentinel _ ?_
    rw [insertOrIgnore_eq]
    split <;> rfl
  · -- no entry is compared with, so the column is written
    have hwin : ∀ text, didCidWin key text ch t = .ok true := by
      intro text
      have hnone : t.clock.find? (fun e => whereTrue e.key key && e.colName = ch.cid) = none := by
        rw [List.find?_eq_none]
        intro e _ hw
        have htrue : whereTrue e.key key = true := (Bool.and_eq_true _ _ ▸ hw).1
        exact (whereTrue_iff.mp htrue).1 (keyClass_eq_none_iff.mpr hnull)
      simp only [didCidWin, hnone]
    unfold mergeColumn at hm
    split at hm
    · rename_i text _
      rw [hwin text] at hm
      dsimp only at hm
      split at hm
      · cases hm
      · rename_i u hupsert
        obtain ⟨v, -, hu⟩ := Option.bind_eq_some_iff.mp hupsert
        rw [← Except.ok.inj hm]
        refine hput ch.cid _ ?_
        rw [upsertColumn_eq_some hu]
    · cases hm

/-! ## Keys without NULLs -/

/-- What SQL reads a printed value as prints the same. -/
theorem quote_of_readLiteral {v w : SqlValue} {text : Text} (hv : Storable v)
    (hsplit : splitQuoteConcat (quote v) 1 = some [text]) (hread : readLiteral text = some w) :
    quote w = text := by
  by_cases hinf : ∃ n, v = .inf n
  · obtain ⟨n, rfl⟩ := hinf
    have hkey : ∀ v ∈ [SqlValue.inf n], Storable v := by simpa using hv
    have hnone := splitQuoteConcat_inf hkey (List.mem_singleton.mpr rfl)
    simp [quoteConcat, hsplit] at hnone
  rw [not_exists] at hinf
  rw [splitQuoteConcat_quote hv hinf, Option.some.injEq, List.cons_eq_cons] at hsplit
  rw [← hsplit.1, ← quote_asRead, readLiteral_quote (quotable_asRead hv hinf),
    Option.some.injEq] at hread
  rw [← hread, quote_asRead, hsplit.1]

/-- A column write leaves the sentinels as they are. -/
theorem deleted_mergeColumn {c : List SqlValue} (hcid : ch.cid ≠ delSentinel)
    (h : mergeColumn next key ch t = .ok t₁) :
    t₁.entry c delSentinel = t.entry c delSentinel := by
  unfold mergeColumn at h
  split at h
  · split at h
    · cases h
    · rw [← Except.ok.inj h]
    · split at h
      · cases h
      · rename_i u hu
        obtain ⟨v, -, hupsert⟩ := Option.bind_eq_some_iff.mp hu
        rw [← Except.ok.inj h, deleted_setWinnerClock hcid, upsertColumn_eq_some hupsert]
        rfl
  · cases h

/-- A column change that loses leaves the table as it is. -/
theorem mergeColumn_of_lose {text : Text}
    (hsplit : (ch.val.bind fun val => splitQuoteConcat val 1) = some [text])
    (hlose : didCidWin key text ch t = .ok false) : mergeColumn next key ch t = .ok t := by
  simp only [mergeColumn, hsplit, hlose]

/-- The second merge of a column change finds its own version and value. -/
theorem remerge_column (hnull : SqlValue.null ∉ key)
    (hcol : columnExists ch.cid t.info.nonPks = true) {v : SqlValue} (hv : Storable v)
    (hval : ch.val = some (quote v)) (h : mergeColumn next key ch t = .ok t₁) :
    mergeColumn next' key ch t₁ = .ok t₁ := by
  have hc : keyClass key = some (canonKey key) := keyClass_eq_some_iff.mpr ⟨hnull, rfl⟩
  unfold mergeColumn at h
  split at h
  · rename_i text hsplit
    split at h
    · cases h
    · rename_i hlose
      rw [← Except.ok.inj h]
      exact mergeColumn_of_lose hsplit hlose
    · split at h
      · cases h
      · rename_i u hu
        obtain ⟨w, hread, hupsert⟩ := Option.bind_eq_some_iff.mp hu
        have hprinted : quote w = text := by
          rw [hval, Option.bind_some] at hsplit
          exact quote_of_readLiteral hv hsplit hread
        obtain ⟨r, hr, hrw⟩ := row_upsertColumn hnull hcol hupsert
        rw [← Except.ok.inj h]
        refine mergeColumn_of_lose hsplit ?_
        have hrow : (setWinnerClock next key ch.cid ch u).row (canonKey key) = some r := hr
        rw [didCidWin_eq text ch _ hc, entry_setWinnerClock, if_pos ⟨hc, rfl⟩, hrow]
        have hrw' : r.column (setWinnerClock next key ch.cid ch u).info ch.cid = w := hrw
        simp [hrw', hprinted]
  · cases h

/-- The merge of a change that is not dropped. -/
theorem ReadsKey.mergeTable_live (h : ReadsKey t.info ch wheres key)
    (hnot : ¬ DeletedLocally t ch) (next : Int) : mergeTable next ch t =
      if ch.cid = delSentinel then .ok (mergeDelete next key ch t)
      else if KeyOnly t ch then .ok (mergePkOnlyInsert next key ch t)
      else mergeColumn next key ch t := by
  have hcheck : checkForLocalDelete t wheres = false := by
    rw [← Bool.not_eq_true]
    exact fun hcheck => hnot (h.deletedLocally_iff.mpr hcheck)
  rw [h.mergeTable_eq, hcheck, if_neg Bool.false_ne_true]

/-- A key-only change that is not dropped. -/
theorem ReadsKey.mergeTable_keyOnly (h : ReadsKey t.info ch wheres key)
    (hnot : ¬ DeletedLocally t ch) (hko : KeyOnly t ch) (next : Int) :
    mergeTable next ch t = .ok (mergePkOnlyInsert next key ch t) := by
  rw [h.mergeTable_live hnot, if_neg hko.1, if_pos hko]

/-- A key without NULLs is deleted locally exactly when the clock table has its sentinel. -/
theorem ReadsKey.deletedLocally_iff_entry (h : ReadsKey t.info ch wheres key)
    (hu : Keyed.Unique ClockEntry.ident t.clock) (hnull : SqlValue.null ∉ key) :
    DeletedLocally t ch ↔ t.entry (canonKey key) delSentinel ≠ none := by
  rw [h.deletedLocally_iff, h.check_iff hu]
  exact and_iff_right hnull

/-- A delete that was merged is dropped the second time: it finds its own sentinel. -/
theorem ReadsKey.deletedLocally_mergeDelete
    (h : ReadsKey (mergeDelete next key ch t).info ch wheres key)
    (hu : Keyed.Unique ClockEntry.ident (mergeDelete next key ch t).clock)
    (hnull : SqlValue.null ∉ key) : DeletedLocally (mergeDelete next key ch t) ch := by
  have hc : keyClass key = some (canonKey key) := keyClass_eq_some_iff.mpr ⟨hnull, rfl⟩
  rw [h.deletedLocally_iff_entry hu hnull, mergeDelete, entry_setWinnerClock, if_pos ⟨hc, rfl⟩]
  exact Option.some_ne_none _

omit [Sqlite] in
/-- A key-only change marks nothing deleted. -/
theorem deleted_mergePkOnlyInsert (k : List SqlValue) :
    (mergePkOnlyInsert next key ch t).entry k delSentinel = t.entry k delSentinel := by
  rw [mergePkOnlyInsert, deleted_setWinnerClock pkoSentinel_ne_delSentinel, insertOrIgnore_eq]
  split <;> rfl

omit [Sqlite] in
/-- A key-only change that is merged again only rewrites its clock entry, which stays as it is
exactly when it gets the db version that is stored already. -/
theorem sameContents_mergePkOnlyInsert (hnull : SqlValue.null ∉ key)
    (hlen : key.length = t.info.pks.length) :
    SameContents (mergePkOnlyInsert next key ch t)
        (mergePkOnlyInsert next' key ch (mergePkOnlyInsert next key ch t)) ↔
      max next' ch.dbVersion = max next ch.dbVersion := by
  have hc : keyClass key = some (canonKey key) := keyClass_eq_some_iff.mpr ⟨hnull, rfl⟩
  have hident : ∀ d : Int, ClockEntry.ident
      ⟨key, pkoSentinel, ch.colVersion, d, bindSiteId ch.siteId⟩ =
        some (canonKey key, pkoSentinel) := fun d => by
    rw [ClockEntry.ident, hc, Option.map_some]
  have hperm := put_put_perm_iff ((hident (max next' ch.dbVersion)).trans
    (hident (max next ch.dbVersion)).symm) (by rw [hident]; exact Option.some_ne_none _) t.clock
  rw [← clock_mergePkOnlyInsert next key ch t] at hperm
  rw [mergePkOnlyInsert_again hnull hlen next next' ch]
  constructor
  · intro hsame
    exact congrArg ClockEntry.dbVersion (hperm.mp hsame.clock)
  · intro hversion
    refine ⟨rfl, hperm.mpr ?_⟩
    rw [hversion]

/-- When the second merge leaves the table as it is: under a key without NULLs, and if the
change is merged as a key alone, with the db version that is stored already. -/
theorem remergeTable_iff (hread : ReadsKey t.info ch wheres key)
    (hu : Keyed.Unique ClockEntry.ident t.clock) (hnot : ¬ DeletedLocally t ch)
    (hval : IsColumn t.info ch.cid → ∃ v, Storable v ∧ ch.val = some (quote v))
    (h : mergeTable next ch t = .ok t₁) :
    (∃ t₂, mergeTable next' ch t₁ = .ok t₂ ∧ SameContents t₁ t₂) ↔
      SqlValue.null ∉ key ∧
        (KeyOnly t ch → max next' ch.dbVersion = max next ch.dbVersion) := by
  have hinfo : t₁.info = t.info := by
    rw [CrrTable.info, (TableStep.merge h).schema_eq]
    rfl
  have hu₁ := (TableStep.merge h).unique_clock hu
  have hread₁ : ReadsKey t₁.info ch wheres key := hinfo ▸ hread
  by_cases hnull : SqlValue.null ∈ key
  · refine ⟨?_, fun hnot => absurd hnull hnot.1⟩
    rintro ⟨t₂, hm, hsame⟩
    have hlen := hread₁.length_of_null hu₁ hnull hm
    rw [hsame.clock.length_eq] at hlen
    omega
  have hkeyOnly : KeyOnly t₁ ch ↔ KeyOnly t ch := by rw [KeyOnly, KeyOnly, hinfo]
  have hdel : t.entry (canonKey key) delSentinel = none :=
    not_not.mp (mt (hread.deletedLocally_iff_entry hu hnull).mpr hnot)
  have hnot₁ : t₁.entry (canonKey key) delSentinel = none → ¬ DeletedLocally t₁ ch :=
    fun hnone hdeleted => (hread₁.deletedLocally_iff_entry hu₁ hnull).mp hdeleted hnone
  rw [hread.mergeTable_live hnot] at h
  by_cases hcid : ch.cid = delSentinel
  · -- the second delete finds the sentinel of the first
    rw [if_pos hcid] at h
    obtain rfl := Except.ok.inj h
    exact ⟨fun _ => ⟨hnull, fun hko => absurd hcid hko.1⟩, fun _ =>
      ⟨_, mergeTable_of_deleted (hread₁.deletedLocally_mergeDelete hu₁ hnull), .refl _⟩⟩
  rw [if_neg hcid] at h
  by_cases hko : KeyOnly t ch
  · rw [if_pos hko] at h
    obtain rfl := Except.ok.inj h
    rw [hread₁.mergeTable_keyOnly (hnot₁ (by rw [deleted_mergePkOnlyInsert, hdel]))
      (hkeyOnly.mpr hko)]
    simp only [Except.ok.injEq, exists_eq_left', sameContents_mergePkOnlyInsert hnull hread.length,
      hnull, hko, not_false_eq_true, true_and, true_implies]
  · -- the second column change finds its own version and value
    rw [if_neg hko] at h
    have hpko : ch.cid ≠ pkoSentinel ∧ columnExists ch.cid t.info.nonPks = true := by
      simp only [KeyOnly, not_and, not_or, hcid, not_false_eq_true, true_implies,
        ne_eq] at hko
      simpa using hko
    obtain ⟨v, hv, hchval⟩ := hval ⟨hpko.2, hcid, hpko.1⟩
    refine ⟨fun _ => ⟨hnull, fun hko' => absurd hko' hko⟩, fun _ => ⟨t₁, ?_, .refl t₁⟩⟩
    rw [hread₁.mergeTable_live (hnot₁ (by rw [deleted_mergeColumn hcid h, hdel])), if_neg hcid,
      if_neg (mt hkeyOnly.mp hko)]
    exact remerge_column hnull hpko.2 hv hchval h

end Table

/-! ## The whole database -/

/-- The changes that `crsql_mergeInsert` accepts. -/
theorem mergeInsert_eq_none_iff [Sqlite] {db : Db} {ch : Change} :
    (db.mergeInsert ch).2 = none ↔ ch.WithinLimits ∧ ∃ t t', db.findTable ch.tbl = some t ∧
      mergeTable db.nextDbVersion ch t = .ok t' := by
  constructor
  · intro h
    rcases mergeInsert_cases db ch with ⟨hne, -⟩ | ⟨t, t', ht, hm, -⟩
    · exact absurd h hne
    · exact ⟨withinLimits_of_ok h, t, t', ht, hm⟩
  · rintro ⟨⟨htbl, hcid, hsite⟩, t, t', ht, hm⟩
    exact (mergeInsert_of_ok htbl hcid hsite ht hm).1

/-- Two states with the same contents, table by table. -/
def Db.SameTables (db db' : Db) : Prop :=
  List.Forall₂ SameContents db.tables db'.tables

/-- A merge ends without an error and changes neither the tables nor, once committed, the
db version. -/
structure MergesNothing (db : Db) (result : Db × Option Text) : Prop where
  accepted : result.2 = none
  tables : db.SameTables result.1
  version : result.1.commit.getDbVersion = db.getDbVersion

/-- An entry other than the key-only entry of a key carries the largest db version. -/
def Db.MaxBeside (db : Db) (t : CrrTable) (key : Key) : Prop :=
  ∃ u ∈ db.tables, ∃ e ∈ u.clock, e.dbVersion = maxInt64 ∧
    ¬ (u.info.tblName = t.info.tblName ∧ canonKey e.key = canonKey key ∧ e.colName = pkoSentinel)

/-- The changes whose second merge does nothing: those for a deleted key, and those whose
key has no NULL, unless they are merged as a key alone while the db versions can grow. -/
def Remergeable [Sqlite] (db : Db) (t : CrrTable) (ch : Change) (key : Key) : Prop :=
  DeletedLocally t ch ∨ SqlValue.null ∉ key ∧ (KeyOnly t ch →
    db.nextDbVersion ≤ ch.dbVersion ∧ (ch.dbVersion = maxInt64 ∨ db.MaxBeside t key))

/-- A table is replaced by one of the same contents. -/
theorem sameTables_setTable {db : Db} {t t' : CrrTable} (ht : t ∈ db.tables)
    (hname : t'.info.tblName = t.info.tblName)
    (honly : ∀ u ∈ db.tables, u.info.tblName = t.info.tblName → u = t) :
    db.SameTables (db.setTable t') ↔ SameContents t t' := by
  rw [Db.SameTables, setTable_tables, List.forall₂_map_right_iff, List.forall₂_same]
  constructor
  · intro h
    simpa [hname] using h t ht
  · intro h u hu
    by_cases hu' : u.info.tblName = t'.info.tblName
    · rw [if_pos hu', honly u hu (hu'.trans hname)]
      exact h
    · rw [if_neg hu']
      exact .refl u

/-- The same contents have the same largest version. -/
theorem Db.SameTables.maxDbVersion_eq {db db' : Db} (h : db.SameTables db') :
    db'.maxDbVersion = db.maxDbVersion := by
  have hperm : db'.storedVersions.Perm db.storedVersions := by
    unfold Db.SameTables at h
    unfold Db.storedVersions
    generalize db.tables = ts, db'.tables = ts' at h
    induction h with
    | nil => exact List.Perm.refl _
    | cons hsame _ ih =>
        rw [List.flatMap_cons, List.flatMap_cons]
        exact (hsame.clock.map _).append ih
  have hmax : db'.storedVersions.max? = db.storedVersions.max? := by
    ext v
    rw [List.max?_eq_some_iff, List.max?_eq_some_iff]
    simp only [hperm.mem_iff]
  rw [Db.maxDbVersion, Db.maxDbVersion, hmax]

/-- Among versions of 64 bits the largest one is reached when an entry carries it. -/
theorem Db.Int64.maxDbVersion_eq_iff {db : Db} (h : db.Int64) :
    db.maxDbVersion = maxInt64 ↔ ∃ t ∈ db.tables, ∃ e ∈ t.clock, e.dbVersion = maxInt64 := by
  constructor
  · intro hmax
    rcases maxDbVersion_cases db with h0 | ⟨t, ht, e, he, heq⟩
    · rw [h0] at hmax
      exact absurd hmax (by decide)
    · exact ⟨t, ht, e, he, heq.trans hmax⟩
  · rintro ⟨t, ht, e, he, hmax⟩
    exact le_antisymm h.maxDbVersion.2 (hmax ▸ le_maxDbVersion ht he)

/-- Behind a commit the version is not cached. -/
@[simp]
theorem commit_dbVersion (db : Db) : db.commit.dbVersion = -1 := by
  unfold Db.commit
  split <;> rfl

/-- After a commit the version is the largest one that is stored. -/
theorem commit_getDbVersion (db : Db) : db.commit.getDbVersion = db.maxDbVersion := by
  rw [Db.getDbVersion, commit_dbVersion, if_neg (not_not_intro rfl),
    maxDbVersion_congr (commit_tables db)]

section Main

variable {db : Db} {t : CrrTable} {ch : Change} {key : Key}

/-- A key-only merge stores the version of the next one exactly when the change brings the
largest version that there is. -/
theorem stored_again_iff {next dbVersion stored : Int} (hdb : IsInt64 dbVersion)
    (hle : max next dbVersion ≤ stored) :
    max (if stored = maxInt64 then minInt64 else stored + 1) dbVersion = max next dbVersion ↔
      next ≤ dbVersion ∧ stored = maxInt64 := by
  have hlow := hdb.1
  split_ifs with heq
  · simp only [heq, and_true]
    omega
  · simp only [heq, and_false, iff_false]
    omega

/-- The versions stored after a key-only merge. -/
theorem exists_max_iff (hnames : (db.tables.map fun u => u.info.tblName).Nodup)
    (ht : t ∈ db.tables) (hnull : SqlValue.null ∉ key) {next : Int} (hle : next ≤ ch.dbVersion) :
    (∃ u ∈ (db.setTable (mergePkOnlyInsert next key ch t)).tables, ∃ e ∈ u.clock,
        e.dbVersion = maxInt64) ↔
      ch.dbVersion = maxInt64 ∨ db.MaxBeside t key := by
  have hc : keyClass key = some (canonKey key) := keyClass_eq_some_iff.mpr ⟨hnull, rfl⟩
  have hinfo : (mergePkOnlyInsert next key ch t).info = t.info := by
    rw [mergePkOnlyInsert, setWinnerClock, insertOrIgnore_eq]
    split <;> rfl
  have honly : ∀ u ∈ db.tables, u.info.tblName = t.info.tblName → u = t :=
    fun u hu hname => List.inj_on_of_nodup_map hnames hu ht hname
  -- the entry of the merge, and the entries it leaves
  have hmem : ∀ e, e ∈ (mergePkOnlyInsert next key ch t).clock ↔
      e = ⟨key, pkoSentinel, ch.colVersion, ch.dbVersion, bindSiteId ch.siteId⟩ ∨
        e ∈ t.clock ∧ ¬ (canonKey e.key = canonKey key ∧ e.colName = pkoSentinel) := by
    intro e
    have hident : ClockEntry.ident
        ⟨key, pkoSentinel, ch.colVersion, ch.dbVersion, bindSiteId ch.siteId⟩ =
          some (canonKey key, pkoSentinel) := by
      rw [ClockEntry.ident, hc, Option.map_some]
    rw [clock_mergePkOnlyInsert, max_eq_right hle, Keyed.mem_put, Keyed.conflicts_iff hident,
      ClockEntry.ident_eq_some_iff, keyClass_of_canonKey hc]
  constructor
  · rintro ⟨u, hu, e, he, hmax⟩
    rw [setTable_tables, List.mem_map] at hu
    obtain ⟨v, hv, rfl⟩ := hu
    rw [hinfo] at he
    by_cases hname : v.info.tblName = t.info.tblName
    · rw [if_pos hname, hmem] at he
      rcases he with rfl | ⟨he, hother⟩
      · exact Or.inl hmax
      · exact Or.inr ⟨t, ht, e, he, hmax, fun h => hother h.2⟩
    · rw [if_neg hname] at he
      exact Or.inr ⟨v, hv, e, he, hmax, fun h => hname h.1⟩
  · have htable : mergePkOnlyInsert next key ch t ∈
        (db.setTable (mergePkOnlyInsert next key ch t)).tables := by
      rw [setTable_tables, List.mem_map]
      exact ⟨t, ht, if_pos (by rw [hinfo])⟩
    rintro (hmax | ⟨u, hu, e, he, hmax, hother⟩)
    · exact ⟨_, htable, _, (hmem _).mpr (Or.inl rfl), hmax⟩
    · by_cases hname : u.info.tblName = t.info.tblName
      · rw [honly u hu hname] at he
        exact ⟨_, htable, e, (hmem e).mpr (Or.inr ⟨he, fun h => hother ⟨hname, h⟩⟩), hmax⟩
      · refine ⟨u, ?_, e, he, hmax⟩
        rw [setTable_tables, List.mem_map]
        exact ⟨u, hu, if_neg (by rw [hinfo]; exact hname)⟩

variable [Sqlite]

/-- A merge succeeds in keeping the declaration of its table. -/
theorem info_of_mergeTable {next : Int} {t' : CrrTable} (h : mergeTable next ch t = .ok t') :
    t'.info = t.info := by
  rw [CrrTable.info, (TableStep.merge h).schema_eq]
  rfl

/-- Between transactions a merge does nothing when it does nothing to its table. -/
theorem mergesNothing_iff (hnames : (db.tables.map fun u => u.info.tblName).Nodup)
    (hcache : db.getDbVersion = db.maxDbVersion) (hlimits : ch.WithinLimits)
    (ht : db.findTable ch.tbl = some t) : MergesNothing db (db.mergeInsert ch) ↔
      ∃ t', mergeTable db.nextDbVersion ch t = .ok t' ∧ SameContents t t' := by
  have hmem := findTable_mem ht
  have honly : ∀ u ∈ db.tables, u.info.tblName = t.info.tblName → u = t :=
    fun u hu h => List.inj_on_of_nodup_map hnames hu hmem h
  constructor
  · intro h
    rcases mergeInsert_cases db ch with ⟨hne, -⟩ | ⟨u, t', hu, hm, -, htables, -⟩
    · exact absurd h.accepted hne
    rw [ht, Option.some.injEq] at hu
    subst hu
    have hname : t'.info.tblName = t.info.tblName := by rw [info_of_mergeTable hm]
    refine ⟨t', hm, ?_⟩
    rw [← sameTables_setTable hmem hname honly, Db.SameTables, ← htables]
    exact h.tables
  · rintro ⟨t', hm, hsame⟩
    obtain ⟨hnone, htables, -⟩ :=
      mergeInsert_of_ok hlimits.1 hlimits.2.1 hlimits.2.2 ht hm
    have hname : t'.info.tblName = t.info.tblName := by rw [info_of_mergeTable hm]
    have hsameTables : db.SameTables (db.mergeInsert ch).1 := by
      rw [Db.SameTables, htables]
      exact (sameTables_setTable hmem hname honly).mpr hsame
    refine ⟨hnone, hsameTables, ?_⟩
    rw [commit_getDbVersion, hsameTables.maxDbVersion_eq, hcache]

/-- Between the two merges the tables are those that the first one left, the db version is
stored, and the table of the change is found. -/
theorem commit_mergeInsert (hlimits : ch.WithinLimits) (ht : db.findTable ch.tbl = some t)
    {t₁ : CrrTable} (hm : mergeTable db.nextDbVersion ch t = .ok t₁) :
    (db.mergeInsert ch).1.commit.tables = (db.setTable t₁).tables ∧
      (db.mergeInsert ch).1.commit.getDbVersion = (db.mergeInsert ch).1.commit.maxDbVersion ∧
      (db.mergeInsert ch).1.commit.findTable ch.tbl = some t₁ := by
  have htables : (db.mergeInsert ch).1.commit.tables = (db.setTable t₁).tables := by
    rw [commit_tables]
    exact (mergeInsert_of_ok hlimits.1 hlimits.2.1 hlimits.2.2 ht hm).2.1
  have hname : t₁.info.tblName = ch.tbl := by
    rw [info_of_mergeTable hm]
    exact findTable_name ht
  have hfind := findTable_setTable ht hname ch.tbl
  rw [if_pos rfl] at hfind
  refine ⟨htables, ?_, ?_⟩
  · rw [commit_getDbVersion, maxDbVersion_congr (commit_tables _)]
  · rw [Db.findTable, htables]
    exact hfind

/-- In every state reached, merging an accepted change again in a later transaction does
nothing exactly when its key is marked deleted, or has no NULL and the change is not merged
as a key alone while the db versions can grow; the change is taken as it is written. -/
theorem remerge_iff [Affinity] (hdb : db.ReachedSql) (ht : db.findTable ch.tbl = some t)
    (hch : Printed t.info ch key) (h64 : ch.Int64) (hplain : t.info.PlainNames)
    (hstored : AsStored t.info ch) (hok : (db.mergeSql ch).2 = none) :
    let first := (db.mergeSql ch).1.commit
    MergesNothing first (first.mergeSql ch) ↔
      Remergeable db t ch (key.map SqlValue.asRead) := by
  have htakes : db.TakesAsWritten ch := by
    intro u hu
    obtain rfl := Option.some.inj (ht.symm.trans hu)
    exact ⟨hplain, hstored⟩
  have horderly : (db.mergeSql ch).1.commit.Orderly := (hdb.orderly.mergeSql h64).commit
  replace hdb := hdb.orderly
  rw [mergeSql_eq hdb.names htakes] at hok horderly ⊢
  obtain ⟨hlimits, t', t₁, ht', hm⟩ := mergeInsert_eq_none_iff.mp hok
  rw [ht, Option.some.injEq] at ht'
  subst ht'
  obtain ⟨hfirst_tables, hfirst_get, hfirst_find⟩ := commit_mergeInsert hlimits ht hm
  have hmem := findTable_mem ht
  dsimp only
  -- the state between the two merges
  generalize (db.mergeInsert ch).1.commit = first at horderly hfirst_tables hfirst_get hfirst_find ⊢
  have htakes_first : first.TakesAsWritten ch := by
    intro u hu
    obtain rfl := Option.some.inj (hfirst_find.symm.trans hu)
    rw [info_of_mergeTable hm]
    exact ⟨hplain, hstored⟩
  rw [mergeSql_eq horderly.names htakes_first,
    mergesNothing_iff horderly.names hfirst_get hlimits hfirst_find]
  by_cases hdeleted : DeletedLocally t ch
  · -- the change was dropped and is dropped again
    rw [mergeTable_of_deleted hdeleted] at hm
    obtain rfl := Except.ok.inj hm
    exact ⟨fun _ => Or.inl hdeleted,
      fun _ => ⟨t, mergeTable_of_deleted hdeleted, .refl t⟩⟩
  have hfin : ∀ n, SqlValue.inf n ∉ key := by
    intro n hinf
    refine hdeleted (deletedLocally_of_unread hm ?_)
    rw [quoteConcatedValuesAsList, hch.pk, ← hch.length]
    exact splitQuoteConcat_inf hch.storable hinf
  obtain ⟨wheres, hread⟩ := hch.readsKey hfin
  rw [remergeTable_iff hread (hdb.unique t hmem).clock hdeleted hch.val hm, Remergeable,
    or_iff_right hdeleted]
  apply and_congr_right
  intro hnull
  apply imp_congr_right
  intro hko
  have hm' := hread.mergeTable_keyOnly hdeleted hko db.nextDbVersion
  rw [hm, Except.ok.injEq] at hm'
  have hstored : max db.nextDbVersion ch.dbVersion ≤ first.maxDbVersion := by
    have hentry : (⟨key.map SqlValue.asRead, pkoSentinel, ch.colVersion,
        max db.nextDbVersion ch.dbVersion, bindSiteId ch.siteId⟩ : ClockEntry) ∈ t₁.clock := by
      rw [hm', clock_mergePkOnlyInsert]
      exact Keyed.mem_put.mpr (Or.inl rfl)
    exact le_maxDbVersion (findTable_mem hfirst_find) hentry
  have hnext : first.nextDbVersion =
      if first.maxDbVersion = maxInt64 then minInt64 else first.maxDbVersion + 1 := by
    rw [Db.nextDbVersion, hfirst_get]
  rw [hnext, stored_again_iff h64.2 hstored]
  apply and_congr_right
  intro hle
  rw [horderly.int64.maxDbVersion_eq_iff, hfirst_tables, hm']
  exact exists_max_iff hdb.names hmem hnull hle

end Main

/-- The key 1 can be stored. -/
theorem storable_one [Sqlite] : ∀ v ∈ ([.integer 1] : Key), Storable v := by
  intro v hv
  rw [List.mem_singleton.mp hv]
  exact (by decide : IsInt64 1)

/-- The change of a column of a row that is known in another version. -/
theorem remerge_iff_foo :
    let db := (fooDb [2]).write ['f', 'o', 'o'] (.insert (fooRow 1 2))
    let ch : Change := ⟨['f', 'o', 'o'], ['1'], ['b'], some ['7'], 3, 5, [1]⟩
    let first := (@Db.mergeSql integralSqlite noAffinity db ch).1.commit
    MergesNothing first (@Db.mergeSql integralSqlite noAffinity first ch) :=
  (@remerge_iff ((fooDb [2]).write ['f', 'o', 'o'] (.insert (fooRow 1 2)))
    ⟨fooSchema, [fooRow 1 2], [⟨[.integer 1], ['b'], 1, 1, none⟩]⟩
    ⟨['f', 'o', 'o'], ['1'], ['b'], some ['7'], 3, 5, [1]⟩ [.integer 1] integralSqlite noAffinity
    (@Db.ReachedSql.execSql _ integralSqlite noAffinity
      (@Db.Fresh.reachedSql _ integralSqlite noAffinity (fooDb_fresh [2]))
      (.write ['f', 'o', 'o'] (.insert (fooRow 1 2))) trivial)
    rfl (@Printed.mk integralSqlite _ _ _ (by decide) rfl (@storable_one integralSqlite)
      fun _ => ⟨.integer 7, (by decide : IsInt64 7), by decide⟩)
    (by decide) (by decide) (by decide) (by decide)).mpr
    (Or.inr ⟨by decide, fun h => absurd h (by decide)⟩)

/-- Not every change is merged a second time without effect: a key-only change stores a new
db version each time. -/
theorem remerge_keyOnly_moves_clock :
    ¬ ∀ (db : Db) (t : CrrTable) (ch : Change) (key : Key),
      @Db.ReachedSql integralSqlite noAffinity db →
      db.findTable ch.tbl = some t → @Printed integralSqlite t.info ch key → ch.Int64 →
      (@Db.mergeSql integralSqlite noAffinity db ch).2 = none →
      MergesNothing (@Db.mergeSql integralSqlite noAffinity db ch).1.commit
        (@Db.mergeSql integralSqlite noAffinity
          (@Db.mergeSql integralSqlite noAffinity db ch).1.commit ch) := by
  intro h
  have hnothing := h (fooDb [2]) ⟨fooSchema, [], []⟩
    ⟨['f', 'o', 'o'], ['1'], pkoSentinel, none, 1, 1, [1]⟩ [.integer 1]
    (@Db.Fresh.reachedSql _ integralSqlite noAffinity (fooDb_fresh [2])) rfl
    (@Printed.mk integralSqlite _ _ _ (by decide) rfl (@storable_one integralSqlite)
      fun hcol => absurd hcol (by decide))
    (by decide) (by decide)
  have hversion := hnothing.version
  revert hversion
  decide

end CrSqlite
