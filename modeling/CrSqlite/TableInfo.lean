import CrSqlite.QuoteConcat
import Mathlib.Data.List.Sort

/-!
# TableInfo - table descriptions and key lookups

What the extension knows of a table (tableinfo.c) and how it turns the text of a
key into a WHERE list and a VALUES list (changes-vtab-common.c).  A list of SQL
texts joined by separators is kept as the list of its parts.

Main results:

- Theorem {lit}`whereTrue_iff`: a WHERE list holds of a row exactly when the two
  keys are one key to a unique index.
- Theorem {lit}`whereTexts_quoteConcat`: the text of a key without infinities is
  read back as that key.
-/

namespace CrSqlite

/-! ## Columns and tables -/

/-- One row of `pragma_table_info`. -/
structure ColumnInfo where
  cid : Nat
  name : Text
  type : Text
  notnull : Bool
  pk : Nat
deriving DecidableEq

/-- A table and its columns in `cid` order. -/
structure TableInfo where
  tblName : Text
  baseCols : List ColumnInfo
deriving DecidableEq

namespace TableInfo

/-- The field `pks`, filled by `crsql_pks`: the key columns in key order. -/
def pks (info : TableInfo) : List ColumnInfo :=
  (info.baseCols.filter fun c => 0 < c.pk).insertionSort fun a b => a.pk ≤ b.pk

/-- The field `nonPks`, filled by `crsql_nonPks`. -/
def nonPks (info : TableInfo) : List ColumnInfo :=
  info.baseCols.filter fun c => c.pk = 0

end TableInfo

/-- `crsql_columnExists`: names are compared byte for byte. -/
def columnExists (colName : Text) (colInfos : List ColumnInfo) : Bool :=
  colInfos.any fun c => c.name = colName

theorem columnExists_iff {colName : Text} {colInfos : List ColumnInfo} :
    columnExists colName colInfos = true ↔ ∃ c ∈ colInfos, c.name = colName := by
  simp [columnExists]

/-- The sentinel `DELETE_CID_SENTINEL`. -/
def delSentinel : Text :=
  ['_', '_', 'c', 'r', 's', 'q', 'l', '_', 'd', 'e', 'l']

/-- The sentinel `PKS_ONLY_CID_SENTINEL`. -/
def pkoSentinel : Text :=
  ['_', '_', 'c', 'r', 's', 'q', 'l', '_', 'p', 'k', 'o']

theorem pkoSentinel_ne_delSentinel : pkoSentinel ≠ delSentinel := by
  decide

/-! ## The two decoders of a key text -/

/-- `crsql_extractWhereList`: the comparisons `"name" = text` of the WHERE list.
The text of a single-column key is taken over unchecked. -/
def extractWhereList (columnInfos : List ColumnInfo) (quoteConcatedVals : Text) :
    Option (List (Text × Text)) :=
  let parts :=
    if columnInfos.length = 1 then some [quoteConcatedVals]
    else splitQuoteConcat quoteConcatedVals columnInfos.length
  parts.map fun parts => (columnInfos.map ColumnInfo.name).zip parts

/-- `crsql_quoteConcatedValuesAsList`: the texts of the VALUES list. -/
def quoteConcatedValuesAsList (quoteConcatedVals : Text) (len : Nat) :
    Option (List Text) :=
  splitQuoteConcat quoteConcatedVals len

/-- The constants a list of literals stands for; none is an SQL error. -/
def readLiterals [Sqlite] : List Text → Option Key
  | [] => some []
  | t :: ts =>
      match readLiteral t, readLiterals ts with
      | some v, some vs => some (v :: vs)
      | _, _ => none

/-- The key columns, compared one by one with the constants of a WHERE list. -/
def whereTrue : Key → Key → Bool
  | [], [] => true
  | v :: vs, w :: ws => SqlValue.Eq v w && whereTrue vs ws
  | _, _ => false

/-! ## Keys as a unique index compares them -/

/-- The class of a key begins with that of its first value. -/
theorem keyClass_cons_eq_some_iff {v : SqlValue} {vs : Key} {c : List SqlValue} :
    keyClass (v :: vs) = some c ↔
      v ≠ .null ∧ ∃ d, keyClass vs = some d ∧ c = v.canon :: d := by
  simp only [keyClass_eq_some_iff, List.mem_cons, not_or, List.map_cons]
  constructor
  · rintro ⟨⟨hv, hvs⟩, rfl⟩
    exact ⟨fun h => hv h.symm, _, ⟨hvs, rfl⟩, rfl⟩
  · rintro ⟨hv, d, ⟨hvs, rfl⟩, rfl⟩
    exact ⟨⟨fun h => hv h.symm, hvs⟩, rfl⟩

/-- A WHERE list holds of a key exactly when both are one key to an index. -/
theorem whereTrue_iff {key vals : Key} :
    whereTrue key vals = true ↔ keyClass vals ≠ none ∧ keyClass key = keyClass vals := by
  induction key generalizing vals with
  | nil =>
      cases vals with
      | nil => simp [whereTrue, keyClass]
      | cons w ws =>
          simp only [whereTrue, Bool.false_eq_true, false_iff, not_and]
          intro _ h
          have hnil : keyClass [] = some [] := rfl
          rw [hnil, eq_comm, keyClass_cons_eq_some_iff] at h
          obtain ⟨-, d, -, hd⟩ := h
          simp at hd
  | cons v vs ih =>
      cases vals with
      | nil =>
          simp only [whereTrue, Bool.false_eq_true, false_iff, not_and]
          intro _ h
          have hnil : keyClass [] = some [] := rfl
          rw [hnil, keyClass_cons_eq_some_iff] at h
          obtain ⟨-, d, -, hd⟩ := h
          simp at hd
      | cons w ws =>
          simp only [whereTrue, Bool.and_eq_true, decide_eq_true_eq, ih]
          constructor
          · rintro ⟨⟨hv, hvw⟩, hws, hvs⟩
            obtain ⟨d, hd⟩ := Option.ne_none_iff_exists'.mp hws
            have hw : w ≠ .null := fun h => hv (by
              rw [← SqlValue.canon_eq_null_iff, hvw, h]
              rfl)
            have hcw : keyClass (w :: ws) = some (w.canon :: d) :=
              keyClass_cons_eq_some_iff.mpr ⟨hw, d, hd, rfl⟩
            have hcv : keyClass (v :: vs) = some (w.canon :: d) :=
              keyClass_cons_eq_some_iff.mpr ⟨hv, d, hvs.trans hd, by rw [hvw]⟩
            exact ⟨by simp [hcw], hcv.trans hcw.symm⟩
          · rintro ⟨hne, heq⟩
            obtain ⟨c, hc⟩ := Option.ne_none_iff_exists'.mp hne
            rw [hc] at heq
            obtain ⟨-, d, hd, rfl⟩ := keyClass_cons_eq_some_iff.mp hc
            obtain ⟨hv, d', hd', hcons⟩ := keyClass_cons_eq_some_iff.mp heq
            obtain ⟨hcanon, rfl⟩ := List.cons_eq_cons.mp hcons
            exact ⟨⟨hv, hcanon.symm⟩, by simp [hd], hd'.trans hd.symm⟩

/-! ## Reading a printed key -/

/-- Printed values are read back. -/
theorem readLiterals_quote [Sqlite] {key : Key} (hkey : ∀ v ∈ key, Quotable v) :
    readLiterals (key.map quote) = some key := by
  induction key with
  | nil => rfl
  | cons v key ih =>
      have hrest := ih fun w hw => hkey w (List.mem_cons_of_mem v hw)
      simp only [List.map_cons, readLiterals, readLiteral_quote (hkey v (by simp)), hrest]

/-- The texts of a WHERE list over the key columns. -/
def whereTexts (wheres : List (Text × Text)) : List Text :=
  wheres.map Prod.snd

/-- Both decoders find the printed values of a key. -/
theorem whereTexts_quoteConcat [Sqlite] {cols : List ColumnInfo} {key : Key}
    (hlen : key.length = cols.length)
    (hkey : ∀ v ∈ key, Storable v ∧ ∀ n, v ≠ .inf n) :
    (extractWhereList cols (quoteConcat key)).map whereTexts = some (key.map quote) := by
  have hsplit := splitQuoteConcat_quoteConcat key hkey
  have hzip : (cols.map ColumnInfo.name).length ≥ (key.map quote).length := by
    simp [hlen]
  have hsnd : whereTexts ((cols.map ColumnInfo.name).zip (key.map quote)) =
      key.map quote := List.map_snd_zip hzip
  unfold extractWhereList
  split
  · rename_i hone
    obtain ⟨v, rfl⟩ := List.length_eq_one_iff.mp (hlen.trans hone)
    simpa [quoteConcat] using hsnd
  · rw [← hlen, hsplit]
    exact congrArg some hsnd

/-- Where the WHERE list of a key reads, it compares with the parts of the key's text. -/
theorem whereTexts_eq_parts [Sqlite] {cols : List ColumnInfo} {pk : Text}
    {wheres : List (Text × Text)} {parts : List Text}
    (hwheres : extractWhereList cols pk = some wheres)
    (hparts : splitQuoteConcat pk cols.length = some parts) (hlen : parts.length = cols.length)
    (hread : (readLiterals (whereTexts wheres)).isSome) : whereTexts wheres = parts := by
  have hsnd : ∀ ps : List Text, ps.length = cols.length →
      whereTexts ((cols.map ColumnInfo.name).zip ps) = ps := by
    intro ps hps
    exact List.map_snd_zip (by simp [hps])
  unfold extractWhereList at hwheres
  dsimp only at hwheres
  split_ifs at hwheres with hone
  · obtain rfl := Option.some.inj hwheres
    rw [hsnd [pk] (by simp [hone])] at hread ⊢
    rw [hone] at hparts
    rcases splitQuoteConcat_one hparts with rfl | hlast
    · rfl
    · -- the text ends with a delimiter, so it is no literal
      obtain ⟨key, hkey⟩ := Option.isSome_iff_exists.mp hread
      simp only [readLiterals] at hkey
      split at hkey
      · rename_i v vs hv _
        exact absurd hlast (getLast_of_readLiteral hv)
      · cases hkey
  · rw [hparts] at hwheres
    obtain rfl := Option.some.inj hwheres
    exact hsnd parts hlen

end CrSqlite
