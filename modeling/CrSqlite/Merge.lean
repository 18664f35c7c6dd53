import CrSqlite.Tables

/-!
# Merge - applying one received change to a table

The part of `crsql_mergeInsert` that works on one table
(changes-vtab-write.c): the delete check, the delete, the key-only insert and
the column write with its comparison of versions and values.  The statements on
the base table run with the sync bit set.

Main results:

- Theorem {lit}`mergeTable_cases`: everything a successful merge can do.
-/

namespace CrSqlite

/-- A row of `crsql_changes`, as it is reported and as it is inserted.  A NULL
site id and an empty one are the same to the code. -/
structure Change where
  tbl : Text
  pk : Text
  cid : Text
  val : Option Text
  colVersion : Int
  dbVersion : Int
  siteId : Blob
deriving DecidableEq

/-- The text of an error message. -/
def message (s : String) : Text :=
  s.toList

/-! ## The delete check -/

/-- `crsql_checkForLocalDelete` returns `DELETED_LOCALLY`: exactly one delete
sentinel is found for the key.  Any SQL error counts as none found. -/
def checkForLocalDelete [Sqlite] (t : CrrTable) (pkWhereList : List (Text × Text)) :
    Bool :=
  match readLiterals (whereTexts pkWhereList) with
  | some vals =>
      (t.clock.filter fun e => whereTrue e.key vals && e.colName = delSentinel).length = 1
  | none =>
      match pkWhereList with
      | [(_, raw)] =>
          Sqlite.rawDeleteCount raw (t.clock.map fun e => (e.key, e.colName)) = some 1
      | _ => false

/-! ## The clock of the winner -/

/-- The site id as it is bound: NULL when there are no bytes. -/
def bindSiteId (siteId : Blob) : Option Blob :=
  if siteId = [] then none else some siteId

/-- `crsql_setWinnerClock`: insert or replace the entry, with the larger of the
next db version and the received one. -/
def setWinnerClock (next : Int) (key : Key) (colName : Text) (ch : Change)
    (t : CrrTable) : CrrTable :=
  { t with
    clock := Keyed.put ClockEntry.ident
      ⟨key, colName, ch.colVersion, max next ch.dbVersion, bindSiteId ch.siteId⟩ t.clock }

/-! ## The three writes -/

/-- `INSERT OR IGNORE INTO tbl (keys) VALUES (..)` under the sync bit. -/
def insertOrIgnore (next : Int) (key : Key) (t : CrrTable) : CrrTable :=
  (insertRow true next ⟨key, t.schema.dflt⟩ t).getD t

/-- `DELETE FROM tbl WHERE ..` under the sync bit. -/
def deleteWhere (next : Int) (vals : Key) (t : CrrTable) : CrrTable :=
  (t.rows.filter fun r => whereTrue r.key vals).foldl (deleteTrigger true next)
    { t with rows := t.rows.filter fun r => !whereTrue r.key vals }

/-- One column of a row set to a value. -/
def BaseRow.setColumn (colName : Text) (v : SqlValue) (r : BaseRow) : BaseRow :=
  { r with val := Function.update r.val colName v }

@[simp]
theorem BaseRow.ident_setColumn (colName : Text) (v : SqlValue) (r : BaseRow) :
    (r.setColumn colName v).ident = r.ident :=
  rfl

/-- `INSERT INTO tbl (keys, col) VALUES (..) ON CONFLICT DO UPDATE SET col = val`
under the sync bit; none is a failed constraint, which the new row meets first. -/
def upsertColumn (next : Int) (key : Key) (colName : Text) (v : SqlValue)
    (t : CrrTable) : Option CrrTable :=
  let new : BaseRow := ⟨key, Function.update t.schema.dflt colName v⟩
  if constraintsOk t.schema new then
    match t.rows.find? fun b => Keyed.Conflicts BaseRow.ident new b with
    | none => insertRow true next new t
    | some old =>
        if t.schema.check (old.setColumn colName v) then
          some (updateTrigger true next old (old.setColumn colName v)
            { t with
              rows := Keyed.upsert BaseRow.ident (BaseRow.setColumn colName v) new t.rows })
        else none
  else none

/-- `crsql_mergeDelete`. -/
def mergeDelete (next : Int) (key : Key) (ch : Change) (t : CrrTable) : CrrTable :=
  setWinnerClock next key delSentinel ch (deleteWhere next key t)

/-- `crsql_mergePkOnlyInsert`. -/
def mergePkOnlyInsert (next : Int) (key : Key) (ch : Change) (t : CrrTable) : CrrTable :=
  setWinnerClock next key pkoSentinel ch (insertOrIgnore next key t)

/-! ## The comparison -/

/-- `crsql_didCidWin`: no local version or an older one loses, a newer one wins,
and between equal versions the greater printed value wins. -/
def didCidWin [Sqlite] (key : Key) (sanitizedInsertVal : Text) (ch : Change)
    (t : CrrTable) : Except Text Bool :=
  match t.clock.find? fun e => whereTrue e.key key && e.colName = ch.cid with
  | none => .ok true
  | some e =>
      if e.colVersion < ch.colVersion then .ok true
      else if ch.colVersion < e.colVersion then .ok false
      else
        match t.rows.find? fun r => whereTrue r.key key with
        | none => .error (message "could not find row to merge with for tbl " ++ t.info.tblName)
        | some r => .ok (quote (r.column t.info ch.cid) < sanitizedInsertVal)

/-- The last part of `crsql_mergeInsert`, for a column of the table. -/
def mergeColumn [Sqlite] (next : Int) (key : Key) (ch : Change) (t : CrrTable) :
    Except Text CrrTable :=
  match ch.val.bind fun val => splitQuoteConcat val 1 with
  | some [val] =>
      match didCidWin key val ch t with
      | .error msg => .error msg
      | .ok false => .ok t
      | .ok true =>
          match (readLiteral val).bind fun v => upsertColumn next key ch.cid v t with
          | none => .error (message "Failed inserting changeset")
          | some t' => .ok (setWinnerClock next key ch.cid ch t')
  | _ => .error (message "Failed sanitizing value for changeset")

/-- How a column change ends whose key does not read as a condition: the value is
looked at first. -/
def unreadableColumn (ch : Change) : Text :=
  if (ch.val.bind fun val => splitQuoteConcat val 1).isNone then
    message "Failed sanitizing value for changeset"
  else message "Failed preparing stmt to select local column version"

/-- `crsql_mergeInsert` once the table is known.  A failing SQL statement of the
delete and key-only branches leaves the error message empty.  The text of a key of one
column goes into the conditions as it is, with a delimiter at its end too. -/
def mergeTable [Sqlite] (next : Int) (ch : Change) (t : CrrTable) :
    Except Text CrrTable :=
  match extractWhereList t.info.pks ch.pk with
  | none => .error (message "crsql - failed decoding primary keys for insert")
  | some pkWhereList =>
      -- delete wins: a change for a key deleted here is dropped without an error
      if checkForLocalDelete t pkWhereList then .ok t
      else
        match quoteConcatedValuesAsList ch.pk t.info.pks.length with
        | none => .error (message "Failed sanitizing pk values")
        | some pkVals =>
            match readLiterals pkVals with
            | none =>
                if ch.cid = delSentinel ∨ ch.cid = pkoSentinel ∨
                    !columnExists ch.cid t.info.nonPks then .error []
                else .error (unreadableColumn ch)
            | some key =>
                let readable := (readLiterals (whereTexts pkWhereList)).isSome
                if ch.cid = delSentinel then
                  if readable then .ok (mergeDelete next key ch t) else .error []
                else if ch.cid = pkoSentinel ∨ !columnExists ch.cid t.info.nonPks then
                  .ok (mergePkOnlyInsert next key ch t)
                else if readable then mergeColumn next key ch t
                else .error (unreadableColumn ch)

/-! ## The base table after a merge -/

@[simp]
theorem insertTrigger_true (next : Int) (new : BaseRow) (t : CrrTable) :
    insertTrigger true next new t = t := by
  simp [insertTrigger]

@[simp]
theorem updateTrigger_true (next : Int) (old new : BaseRow) (t : CrrTable) :
    updateTrigger true next old new t = t := by
  simp [updateTrigger]

@[simp]
theorem deleteTrigger_true (next : Int) (t : CrrTable) (old : BaseRow) :
    deleteTrigger true next t old = t := by
  simp [deleteTrigger]

/-- A key is inserted where the row with its defaults is admitted. -/
theorem insertOrIgnore_eq (next : Int) (key : Key) (t : CrrTable) :
    insertOrIgnore next key t =
      if admits t t.rows ⟨key, t.schema.dflt⟩ then
        { t with rows := t.rows ++ [⟨key, t.schema.dflt⟩] }
      else t := by
  unfold insertOrIgnore insertRow
  split <;> simp

/-- With the sync bit set nothing is logged of the rows that a DELETE takes. -/
theorem foldl_deleteTrigger_true (next : Int) (l : List BaseRow) (t : CrrTable) :
    l.foldl (deleteTrigger true next) t = t := by
  induction l with
  | nil => rfl
  | cons r l ih => simpa using ih

/-- The rows that meet the key are deleted. -/
theorem deleteWhere_eq (next : Int) (vals : Key) (t : CrrTable) :
    deleteWhere next vals t =
      { t with rows := t.rows.filter fun r => !whereTrue r.key vals } :=
  foldl_deleteTrigger_true next _ _

/-- A delete by a key without NULLs removes the row of that key. -/
theorem deleteWhere_rows {next : Int} {vals : Key} {t : CrrTable}
    {c : List SqlValue} (hc : keyClass vals = some c) :
    (deleteWhere next vals t).rows = Keyed.erase BaseRow.ident c t.rows := by
  rw [deleteWhere_eq, Keyed.erase]
  apply List.filter_congr
  intro r _
  by_cases h : keyClass r.key = some c
  · have htrue : whereTrue r.key vals = true := whereTrue_iff.mpr
      ⟨by simp [hc], h.trans hc.symm⟩
    simp [htrue, BaseRow.ident, h]
  · have hfalse : whereTrue r.key vals = false := by
      rw [← Bool.not_eq_true, whereTrue_iff]
      exact fun hw => h (hw.2.trans hc)
    simp [hfalse, BaseRow.ident, h]

/-- A column write that succeeds is an insert-or-update of the base table and
nothing else. -/
theorem upsertColumn_eq_some {next : Int} {key : Key} {col : Text} {v : SqlValue}
    {t t' : CrrTable} (h : upsertColumn next key col v t = some t') :
    t' = { t with
      rows := Keyed.upsert BaseRow.ident (BaseRow.setColumn col v)
        ⟨key, Function.update t.schema.dflt col v⟩ t.rows } := by
  unfold upsertColumn at h
  simp only at h
  split at h
  · split at h
    · rename_i hnone
      unfold insertRow at h
      split at h
      · have hany : (t.rows.any fun b => Keyed.Conflicts BaseRow.ident
            ⟨key, Function.update t.schema.dflt col v⟩ b) = false := by
          simpa using hnone
        simp only [insertTrigger_true, Option.some.injEq] at h
        rw [← h, Keyed.upsert, hany]
        rfl
      · simp at h
    · split at h
      · simp only [updateTrigger_true, Option.some.injEq] at h
        exact h.symm
      · simp at h
  · simp at h

/-- A column write within the NOT NULL constraints succeeds without CHECK constraints. -/
theorem upsertColumn_ne_none (next : Int) {key : Key} {col : Text} {v : SqlValue}
    {t : CrrTable} (hcheck : ∀ r, t.schema.check r = true)
    (hlen : key.length = t.info.pks.length)
    (hnn : notNullOk t.info ⟨key, Function.update t.schema.dflt col v⟩ = true) :
    upsertColumn next key col v t ≠ none := by
  have hok : constraintsOk t.schema ⟨key, Function.update t.schema.dflt col v⟩ = true := by
    rw [constraintsOk, hcheck, Bool.and_true]
    exact hnn
  unfold upsertColumn
  simp only [hok, if_true, hcheck]
  split
  · rename_i hnone
    have hany : (t.rows.any fun b => Keyed.Conflicts BaseRow.ident
        ⟨key, Function.update t.schema.dflt col v⟩ b) = false := by
      simpa using hnone
    simp [insertRow, admits, hlen, hok, hany]
  · simp

/-! ## The clock table after a merge -/

/-- The winner's entry answers for its own key and column, every other entry is
found as before. -/
theorem entry_setWinnerClock {next : Int} {key : Key} {col : Text} {ch : Change}
    {t : CrrTable} {c : List SqlValue} {col' : Text} :
    (setWinnerClock next key col ch t).entry c col' =
      if keyClass key = some c ∧ col = col' then
        some ⟨key, col, ch.colVersion, max next ch.dbVersion, bindSiteId ch.siteId⟩
      else t.entry c col' := by
  unfold CrrTable.entry setWinnerClock
  rw [Keyed.find_put]
  simp only [ClockEntry.ident_eq_some_iff]

/-- With one entry for each key and column, the delete check finds out whether
the key has a delete sentinel. -/
theorem checkForLocalDelete_iff [Sqlite] {t : CrrTable} {wheres : List (Text × Text)}
    {key : Key} {c : List SqlValue} (hu : Keyed.Unique ClockEntry.ident t.clock)
    (hread : readLiterals (whereTexts wheres) = some key) (hc : keyClass key = some c) :
    checkForLocalDelete t wheres = true ↔ t.entry c delSentinel ≠ none := by
  have hfilter : (t.clock.filter fun e => whereTrue e.key key && e.colName = delSentinel) =
      t.clock.filter fun e => e.ident = some (c, delSentinel) := by
    apply List.filter_congr
    intro e _
    rw [Bool.eq_iff_iff]
    simp only [Bool.and_eq_true, decide_eq_true_eq, whereTrue_iff, hc,
      ClockEntry.ident_eq_some_iff]
    simp
  simp only [checkForLocalDelete, hread, hfilter, Keyed.length_filter_key hu]
  by_cases h : Keyed.find ClockEntry.ident (c, delSentinel) t.clock = none
  · simp [CrrTable.entry, h]
  · simp [CrrTable.entry, h]

/-- The lookups of the comparison by a key without NULLs. -/
theorem didCidWin_eq [Sqlite] {key : Key} {c : List SqlValue} (text : Text)
    (ch : Change) (t : CrrTable) (hc : keyClass key = some c) :
    didCidWin key text ch t =
      match t.entry c ch.cid with
      | none => .ok true
      | some e =>
          if e.colVersion < ch.colVersion then .ok true
          else if ch.colVersion < e.colVersion then .ok false
          else
            match t.row c with
            | none =>
                .error (message "could not find row to merge with for tbl " ++ t.info.tblName)
            | some r => .ok (quote (r.column t.info ch.cid) < text) := by
  have hwhere : ∀ k, whereTrue k key = decide (keyClass k = some c) := by
    intro k
    rw [Bool.eq_iff_iff, whereTrue_iff, hc]
    simp
  have hentry : (t.clock.find? fun e => whereTrue e.key key && e.colName = ch.cid) =
      t.entry c ch.cid := by
    unfold CrrTable.entry Keyed.find
    congr 1
    funext e
    rw [Bool.eq_iff_iff]
    simp [hwhere, ClockEntry.ident_eq_some_iff]
  have hrow : (t.rows.find? fun r => whereTrue r.key key) = t.row c := by
    unfold CrrTable.row Keyed.find
    congr 1
    funext r
    exact hwhere r.key
  rw [didCidWin, hentry, hrow]

/-! ## Everything a merge can do -/

/-- The change that a successful merge made to a table, other than none at
all. -/
inductive Merged [Sqlite] (next : Int) (ch : Change) (key : Key) (t : CrrTable) :
    CrrTable → Prop
  | del (hcid : ch.cid = delSentinel) : Merged next ch key t (mergeDelete next key ch t)
  | pko (hcid : ch.cid ≠ delSentinel)
      (hcol : ch.cid = pkoSentinel ∨ columnExists ch.cid t.info.nonPks = false) :
      Merged next ch key t (mergePkOnlyInsert next key ch t)
  | column {v : SqlValue} {val text : Text} (hcid : ch.cid ≠ delSentinel)
      (hpko : ch.cid ≠ pkoSentinel)
      (hcol : columnExists ch.cid t.info.nonPks = true)
      (hval : ch.val = some val) (hsplit : splitQuoteConcat val 1 = some [text])
      (hwin : didCidWin key text ch t = .ok true) (hread : readLiteral text = some v)
      {u : CrrTable} (hupsert : upsertColumn next key ch.cid v t = some u) :
      Merged next ch key t (setWinnerClock next key ch.cid ch u)

/-- A merge brings no key into the base table but the one of its change. -/
theorem Merged.row_key [Sqlite] {next : Int} {ch : Change} {key : Key} {t t' : CrrTable}
    (h : Merged next ch key t t') {r : BaseRow} (hr : r ∈ t'.rows) :
    (∃ o ∈ t.rows, o.key = r.key) ∨ r.key = key := by
  cases h with
  | del =>
      simp only [mergeDelete, setWinnerClock, deleteWhere_eq] at hr
      exact Or.inl ⟨r, (List.mem_filter.mp hr).1, rfl⟩
  | pko =>
      simp only [mergePkOnlyInsert, setWinnerClock, insertOrIgnore_eq] at hr
      split at hr
      · rcases List.mem_append.mp hr with hr | hr
        · exact Or.inl ⟨r, hr, rfl⟩
        · exact Or.inr (by rw [List.mem_singleton.mp hr])
      · exact Or.inl ⟨r, hr, rfl⟩
  | column _ _ _ _ _ _ _ hupsert =>
      rw [upsertColumn_eq_some hupsert] at hr
      rcases Keyed.mem_upsert hr with hr | rfl | ⟨o, ho, -, rfl⟩
      · exact Or.inl ⟨r, hr, rfl⟩
      · exact Or.inr rfl
      · exact Or.inl ⟨o, ho, rfl⟩

/-- A merge leaves the clock table as it is up to one entry, which carries the
key of its change, the larger db version and the site id of the change. -/
theorem Merged.clock_eq [Sqlite] {next : Int} {ch : Change} {key : Key} {t t' : CrrTable}
    (h : Merged next ch key t t') :
    ∃ col, (col = ch.cid ∨ col = pkoSentinel) ∧ t'.clock = Keyed.put ClockEntry.ident
      ⟨key, col, ch.colVersion, max next ch.dbVersion, bindSiteId ch.siteId⟩ t.clock := by
  cases h with
  | del hcid =>
      exact ⟨delSentinel, Or.inl hcid.symm, by simp [mergeDelete, setWinnerClock, deleteWhere_eq]⟩
  | pko =>
      refine ⟨pkoSentinel, Or.inr rfl, ?_⟩
      simp only [mergePkOnlyInsert, setWinnerClock, insertOrIgnore_eq]
      split <;> rfl
  | column _ _ _ _ _ _ _ hupsert =>
      rw [upsertColumn_eq_some hupsert]
      exact ⟨ch.cid, Or.inl rfl, rfl⟩

/-- As many values are read as there are literals. -/
private theorem length_of_readLiterals [Sqlite] {ts : List Text} {key : Key}
    (h : readLiterals ts = some key) : key.length = ts.length := by
  induction ts generalizing key with
  | nil =>
      rw [readLiterals, Option.some.injEq] at h
      rw [← h]
      rfl
  | cons t ts ih =>
      unfold readLiterals at h
      split at h
      · rename_i v vs _ hvs
        rw [Option.some.injEq] at h
        rw [← h, List.length_cons, List.length_cons, ih hvs]
      · simp at h

/-- A key text splits into as many parts as are asked for. -/
theorem length_of_splitQuoteConcat {t : Text} {n : Nat} {parts : List Text}
    (h : splitQuoteConcat t n = some parts) : parts.length = n := by
  unfold splitQuoteConcat at h
  rw [Option.bind_eq_some_iff] at h
  obtain ⟨⟨ps, left⟩, -, hps⟩ := h
  simp only at hps
  split at hps
  · simp at hps
  · rename_i hnot
    rw [Option.some.injEq] at hps
    subst hps
    by_contra hlen
    exact hnot (Or.inl hlen)

/-- Where the WHERE list of a key is read, it is read as the VALUES list is. -/
theorem readLiterals_of_whereTexts [Sqlite] {info : TableInfo} {pk : Text}
    {wheres : List (Text × Text)} {parts : List Text} {key : Key} (hwheres : extractWhereList info.pks pk = some wheres)
    (hparts : quoteConcatedValuesAsList pk info.pks.length = some parts)
    (hread : readLiterals (whereTexts wheres) = some key) : readLiterals parts = some key := by
  have hlen := length_of_splitQuoteConcat hparts
  rwa [whereTexts_eq_parts hwheres hparts hlen (by rw [hread]; rfl)] at hread

/-- A merged column is dropped or merged. -/
private theorem mergeColumn_cases [Sqlite] {next : Int} {key : Key} {ch : Change}
    {t t' : CrrTable} (hdel : ch.cid ≠ delSentinel) (hpko : ch.cid ≠ pkoSentinel)
    (hcol : columnExists ch.cid t.info.nonPks = true)
    (h : mergeColumn next key ch t = .ok t') :
    t' = t ∨ Merged next ch key t t' := by
  unfold mergeColumn at h
  split at h
  · rename_i text hsplit
    obtain ⟨val, hval, hparts⟩ := Option.bind_eq_some_iff.mp hsplit
    split at h
    · simp at h
    · exact Or.inl (Except.ok.inj h).symm
    · rename_i hwin
      split at h
      · simp at h
      · rename_i u hu
        obtain ⟨v, hread, hupsert⟩ := Option.bind_eq_some_iff.mp hu
        rw [← Except.ok.inj h]
        exact Or.inr (.column hdel hpko hcol hval hparts hwin hread hupsert)
  · simp at h

/-- A change that is merged as a key alone. -/
def KeyOnly (t : CrrTable) (ch : Change) : Prop :=
  ch.cid ≠ delSentinel ∧ (ch.cid = pkoSentinel ∨ columnExists ch.cid t.info.nonPks = false)

instance (t : CrrTable) (ch : Change) : Decidable (KeyOnly t ch) :=
  inferInstanceAs (Decidable (_ ∧ _))

/-- A successful merge leaves the table alone or does one of the three writes
under the key that the text stands for, which is not marked deleted.  Only a key-only
change does without a WHERE list that reads as the key. -/
theorem mergeTable_cases [Sqlite] {next : Int} {ch : Change} {t t' : CrrTable}
    (h : mergeTable next ch t = .ok t') :
    t' = t ∨ ∃ key parts wheres,
      splitQuoteConcat ch.pk t.info.pks.length = some parts ∧
      readLiterals parts = some key ∧ key.length = t.info.pks.length ∧
      extractWhereList t.info.pks ch.pk = some wheres ∧
      (KeyOnly t ch ∨ readLiterals (whereTexts wheres) = some key) ∧
      checkForLocalDelete t wheres = false ∧ Merged next ch key t t' := by
  unfold mergeTable at h
  split at h
  · simp at h
  · rename_i wheres hwheres
    split at h
    · exact Or.inl (Except.ok.inj h).symm
    · rename_i hcheck
      have hcheck' : checkForLocalDelete t wheres = false := by simpa using hcheck
      split at h
      · simp at h
      · rename_i parts hparts
        have hlen := length_of_splitQuoteConcat hparts
        split at h
        · split_ifs at h
        · rename_i key hkey
          have hklen := (length_of_readLiterals hkey).trans hlen
          have hreads (hr : (readLiterals (whereTexts wheres)).isSome = true) :
              readLiterals (whereTexts wheres) = some key := by
            rw [whereTexts_eq_parts hwheres hparts hlen hr, hkey]
          have hdone (hr : KeyOnly t ch ∨ readLiterals (whereTexts wheres) = some key)
              (hm : Merged next ch key t t') : t' = t ∨ ∃ key parts wheres,
              splitQuoteConcat ch.pk t.info.pks.length = some parts ∧
              readLiterals parts = some key ∧ key.length = t.info.pks.length ∧
              extractWhereList t.info.pks ch.pk = some wheres ∧
              (KeyOnly t ch ∨ readLiterals (whereTexts wheres) = some key) ∧
              checkForLocalDelete t wheres = false ∧ Merged next ch key t t' :=
            Or.inr ⟨key, parts, wheres, hparts, hkey, hklen, hwheres, hr, hcheck', hm⟩
          dsimp only at h
          split_ifs at h with hdel hreadable hpko hreadable
          · exact hdone (Or.inr (hreads hreadable)) (Except.ok.inj h ▸ .del hdel)
          · have hcol : ch.cid = pkoSentinel ∨ columnExists ch.cid t.info.nonPks = false := by
              simpa using hpko
            exact hdone (Or.inl ⟨hdel, hcol⟩) (Except.ok.inj h ▸ .pko hdel hcol)
          · rw [not_or] at hpko
            rcases mergeColumn_cases hdel hpko.1 (by simpa using hpko.2) h with heq | hm
            · exact Or.inl heq
            · exact hdone (Or.inr (hreads hreadable)) hm

end CrSqlite
