import CrSqlite.ChangesRead
import CrSqlite.GeneratedSql
import Mathlib.Algebra.Order.BigOperators.Group.List

/-!
# KeyDecoders - key texts between replicas

The text of a key is decoded twice for a merge, into a WHERE list and into a
VALUES list, and it travels from a table to a table with the same key.

Main results:

- Theorem {lit}`decodersAgree_iff`: both decoders take the same texts and use the
  same parts, except that a key of one column is not looked at for the WHERE list.
- Theorem {lit}`keyTravels_iff`: the text of a key finds the row with that key on the
  other side, unless a key column has a double quote in its name.
-/

namespace CrSqlite

open SqlText GeneratedSql

/-! ## The two decoders -/

/-- What `crsql_extractWhereList` returns. -/
def whereListText (cols : List ColumnInfo) (quoteConcatedVals : Text) : Option Text :=
  (extractWhereList cols quoteConcatedVals).map fun wheres => (whereList wheres).render

/-- What `crsql_quoteConcatedValuesAsList` returns. -/
def valuesListText (quoteConcatedVals : Text) (len : Nat) : Option Text :=
  (quoteConcatedValuesAsList quoteConcatedVals len).map fun parts => (valuesList parts).render

/-- The statements `crsql_mergeInsert` prepares or runs for a change of the table. -/
def mergeInsertStatements (info : TableInfo) (ch : Change) : List Statement :=
  match extractWhereList info.pks ch.pk with
  | none => []
  | some wheres =>
      mergeStatements info ch (whereList wheres)
        ((quoteConcatedValuesAsList ch.pk info.pks.length).map valuesList)

/-- One comparison of a WHERE list. -/
def comparisonText (c : ColumnInfo) (part : Text) : Text :=
  doubleQuote :: (c.name ++ doubleQuote :: (" = ".toList ++ part))

/-- Both decoders check the key text, and alike. -/
structure DecodersAgree (cols : List ColumnInfo) (pk : Text) : Prop where
  fail_iff : whereListText cols pk = none ↔ valuesListText pk cols.length = none
  where_eq : ∀ parts, splitQuoteConcat pk cols.length = some parts →
    whereListText cols pk =
      some (List.intercalate " AND ".toList (List.zipWith comparisonText cols parts))
  values_eq : ∀ parts, splitQuoteConcat pk cols.length = some parts →
    valuesListText pk cols.length = some (List.intercalate [','] parts)
  validated : ∀ info ch, info.pks = cols → ch.pk = pk → ∀ s ∈ mergeInsertStatements info ch,
    ∃ parts, splitQuoteConcat pk cols.length = some parts ∧
      s ∈ mergeStatements info ch (whereList (comparisons cols parts)) (some (valuesList parts))

/-- Statements with a separator are printed with the separator. -/
private theorem render_intercalate (sep : Statement) (parts : List Statement) :
    Statement.render (List.intercalate sep parts) =
      List.intercalate sep.render (parts.map Statement.render) := by
  induction parts with
  | nil => rfl
  | cons p parts ih =>
      cases parts with
      | nil => simp [List.intercalate]
      | cons p' parts =>
          rw [List.intercalate_cons_cons, Statement.render_append, Statement.render_append, ih,
            List.map_cons, List.map_cons, List.map_cons, List.intercalate_cons_cons]

/-- A list of values is printed with commas. -/
theorem render_valuesList (parts : List Text) :
    (valuesList parts).render = List.intercalate [','] parts := by
  have hparts : (parts.map fun p => [Fragment.value p]).map Statement.render = parts := by
    simp [Statement.render, Fragment.render, Function.comp_def]
  rw [valuesList, render_intercalate, hparts]
  simp [Statement.render, Fragment.render, text, PlainText.of]

/-- A WHERE list is printed with ANDs. -/
theorem render_whereList (cols : List ColumnInfo) (parts : List Text) :
    (whereList (comparisons cols parts)).render =
      List.intercalate " AND ".toList (List.zipWith comparisonText cols parts) := by
  have hsep : Statement.render [conjunction] = " AND ".toList := by
    simp [Statement.render, Fragment.render, text, PlainText.of]
  rw [whereList, render_intercalate, List.map_map, hsep]
  congr 1
  rw [comparisons, List.zip_map_left, List.map_map, ← List.map_uncurry_zip_eq_zipWith]
  apply List.map_congr_left
  intro w _
  change _ = comparisonText w.1 w.2
  simp [Statement.render, Fragment.render, rawName, bare, text, PlainText.of, comparisonText,
    Directive.print, Quote.char]

/-- Whether the WHERE list is made of the parts the splitter finds. -/
private theorem decodersAgree_iff_extract {cols : List ColumnInfo} {pk : Text} :
    DecodersAgree cols pk ↔
      extractWhereList cols pk = (splitQuoteConcat pk cols.length).map (comparisons cols) := by
  constructor
  · intro h
    cases hsplit : splitQuoteConcat pk cols.length with
    | none =>
        have hnone := h.fail_iff.mpr (by rw [valuesListText, quoteConcatedValuesAsList, hsplit]; rfl)
        exact Option.map_eq_none_iff.mp hnone
    | some parts =>
        by_cases hone : cols.length = 1
        · obtain ⟨c, rfl⟩ := List.length_eq_one_iff.mp hone
          obtain ⟨p, rfl⟩ := List.length_eq_one_iff.mp (length_of_splitQuoteConcat hsplit)
          have hwhere : whereListText [c] pk = some (comparisonText c pk) := by
            have hrender := render_whereList [c] [pk]
            simpa [whereListText, extractWhereList, comparisons] using hrender
          have htext := hwhere.symm.trans (h.where_eq [p] hsplit)
          have hp : pk = p := by
            simpa [comparisonText, List.intercalate] using htext
          simp [extractWhereList, comparisons, hp]
        · simp [extractWhereList, hone, hsplit, comparisons]
  · intro h
    have hvalues : ∀ parts, splitQuoteConcat pk cols.length = some parts →
        valuesListText pk cols.length = some (List.intercalate [','] parts) := by
      intro parts hparts
      rw [valuesListText, quoteConcatedValuesAsList, hparts, Option.map_some, render_valuesList]
    refine ⟨?_, fun parts hparts => ?_, hvalues, ?_⟩
    · rw [whereListText, h, valuesListText, quoteConcatedValuesAsList]
      simp
    · rw [whereListText, h, hparts, Option.map_some, Option.map_some, render_whereList]
    · rintro info ch rfl rfl s hs
      rw [mergeInsertStatements, h] at hs
      cases hsplit : splitQuoteConcat ch.pk info.pks.length with
      | none =>
          rw [hsplit] at hs
          cases hs
      | some parts =>
          rw [quoteConcatedValuesAsList, hsplit] at hs
          exact ⟨parts, rfl, hs⟩

/-- One scanned piece is the text, but for a delimiter behind it. -/
private theorem scanned_singleton {t p : Text} {flag : Bool} (h : Scanned t [(p, flag)]) :
    t = p ++ [qcDelim] ∨ t = p ∧ p ≠ [] ∧ Piece p [] := by
  cases h with
  | delimited hp hrest =>
      cases hrest
      exact Or.inl rfl
  | abutting hp hne _ hrest =>
      cases hrest
      exact Or.inr ⟨List.append_nil p, hne, hp⟩

/-- A text is its own single part exactly when it is one piece, with nothing behind it. -/
theorem splitQuoteConcat_self_iff {t : Text} :
    splitQuoteConcat t 1 = some [t] ↔ t ≠ [] ∧ Piece t [] := by
  rw [splitQuoteConcat_eq_some_iff]
  constructor
  · rintro ⟨ps, hps, hlen, hfst⟩
    obtain ⟨⟨p, flag⟩, rfl⟩ := List.length_eq_one_iff.mp hlen
    obtain rfl : p = t := by simpa using hfst
    rcases scanned_singleton hps with hlong | ⟨-, hne, hp⟩
    · simp at hlong
    · exact ⟨hne, hp⟩
  · rintro ⟨hne, hp⟩
    refine ⟨[(t, false)], ?_, rfl, rfl⟩
    have h := Scanned.abutting hp hne (by simp) .nil
    rwa [List.append_nil] at h

/-- The decoders agree on a key of more than one column; on a key of one column
exactly when its text is one piece, with nothing behind it. -/
theorem decodersAgree_iff {cols : List ColumnInfo} {pk : Text} :
    DecodersAgree cols pk ↔ (cols.length = 1 → pk ≠ [] ∧ Piece pk []) := by
  rw [decodersAgree_iff_extract]
  by_cases hone : cols.length = 1
  · rw [← splitQuoteConcat_self_iff, hone]
    obtain ⟨c, rfl⟩ := List.length_eq_one_iff.mp hone
    cases hsplit : splitQuoteConcat pk 1 with
    | none => simp [extractWhereList]
    | some parts =>
        obtain ⟨p, rfl⟩ := List.length_eq_one_iff.mp (length_of_splitQuoteConcat hsplit)
        simp [extractWhereList, comparisons, eq_comm]
  · have hmap : extractWhereList cols pk =
        (splitQuoteConcat pk cols.length).map (comparisons cols) := by
      rw [extractWhereList, if_neg hone]
      rfl
    simp [hmap, hone]

/-- Key text that is no literal at all goes into the first statement. -/
theorem decoders_differ :
    ¬DecodersAgree [⟨0, ['a'], [], true, 1⟩] "1 OR 1".toList := by
  intro h
  have hnone := h.fail_iff.mpr (by decide)
  exact absurd hnone (by decide)

/-! ## Printed values are literals -/

/-- A text whose quotes were doubled has doubled quotes. -/
private theorem doubled_escape (t : Text) : Doubled (escape t) := by
  induction t with
  | nil => exact .nil
  | cons c t ih =>
      rw [escape]
      split_ifs with hc
      · subst hc
        exact .quote ih
      · exact .char hc ih

/-- Hexadecimal digits have no quotes. -/
private theorem doubled_hexText (b : Blob) : Doubled (hexText b) := by
  induction b with
  | nil => exact .nil
  | cons x b ih =>
      have hx : x.toNat < 256 := x.toNat_lt
      exact .char (hexDigit_ne_apostrophe (by omega))
        (.char (hexDigit_ne_apostrophe (by omega)) ih)

/-- Digits behind a sign are a number. -/
private theorem number_toDigits (n : Nat) (sign : Text) (hsign : sign = [] ∨ sign = ['-']) :
    SqlNumber (sign ++ Nat.toDigits 10 n) := by
  have hdigits : Digits (Nat.toDigits 10 n) := fun c hc =>
    Nat.isDigit_of_mem_toDigits (by decide) (by decide) hc
  exact ⟨sign, Nat.toDigits 10 n, [], [], [], by simp, hsign, hdigits, digits_nil,
    Or.inr ⟨rfl, rfl⟩, Or.inl Nat.toDigits_ne_nil, Or.inl rfl⟩

/-- A text of the shape of a real is a number. -/
private theorem number_realShape {t : Text} (ht : RealShape t) : SqlNumber t := by
  obtain ⟨sign, ip, fp, ex, rfl, hsign, hne, hip, -, hfp, hex⟩ := ht
  refine ⟨sign, ip, ['.'], fp, ex, by simp, hsign, hip, hfp, Or.inl rfl, Or.inl hne, ?_⟩
  rcases hex with rfl | ⟨s, ds, rfl, hs, hne, hds⟩
  · exact Or.inl rfl
  · refine Or.inr ⟨'e', [s], ds, rfl, Or.inl rfl, ?_, hne, hds⟩
    rcases hs with rfl | rfl
    · exact Or.inr (Or.inl rfl)
    · exact Or.inr (Or.inr rfl)

/-- What `quote()` prints of a finite value is a literal. -/
theorem literal_quote [Sqlite] {v : SqlValue} (hv : Storable v) (hfin : ∀ n, v ≠ .inf n) :
    Literal (quote v) := by
  cases v with
  | null => exact .null
  | integer i =>
      cases i with
      | ofNat n => exact .number (number_toDigits n [] (Or.inl rfl))
      | negSucc n => exact .number (number_toDigits (n + 1) ['-'] (Or.inr rfl))
  | real q => exact .number (number_realShape (Sqlite.printReal_shape q hv))
  | inf negative => exact absurd rfl (hfin negative)
  | text t => exact .string ⟨_, doubled_escape _, rfl⟩
  | blob b => exact .hex ⟨_, doubled_hexText b, rfl⟩

/-! ## Tables with the same key -/

/-- What a table declares of its key: the positions and the names of the key
columns. -/
def keyDecl (info : TableInfo) : List (Nat × Text) :=
  (info.baseCols.filter fun c => 0 < c.pk).map fun c => (c.pk, c.name)

/-- The column names of a table are told apart without regard to case. -/
def DistinctNames (info : TableInfo) : Prop :=
  info.baseCols.Pairwise fun a b => sameName a.name b.name = false

/-- Two tables declare the same key, their columns in any order. -/
structure SameKey (a b : TableInfo) : Prop where
  decl : (keyDecl a).Perm (keyDecl b)
  positions : ((keyDecl a).map Prod.fst).Nodup
  names : DistinctNames a
  names' : DistinctNames b

/-- The key columns are sorted by their places in the key. -/
private theorem keyDecl_sorted (info : TableInfo) :
    info.pks.map (fun c => (c.pk, c.name)) =
      (keyDecl info).insertionSort fun p q => p.1 ≤ q.1 :=
  List.map_insertionSort _ _ _ _ fun _ _ _ _ => Iff.rfl

/-- Both tables sort their key columns alike. -/
theorem SameKey.pks_names {a b : TableInfo} (h : SameKey a b) :
    a.pks.map ColumnInfo.name = b.pks.map ColumnInfo.name := by
  have hpos : ∀ info : TableInfo, info.pks.map ColumnInfo.name =
      (info.pks.map fun c => (c.pk, c.name)).map Prod.snd := by
    intro info
    rw [List.map_map]
    rfl
  have hsorted : ∀ l : List (Nat × Text),
      (l.insertionSort fun p q => p.1 ≤ q.1).Pairwise fun p q => p.1 ≤ q.1 := fun l =>
    haveI : Std.Total fun p q : Nat × Text => p.1 ≤ q.1 := ⟨fun p q => Nat.le_total p.1 q.1⟩
    haveI : IsTrans (Nat × Text) fun p q => p.1 ≤ q.1 := ⟨fun _ _ _ => Nat.le_trans⟩
    List.pairwise_insertionSort _ l
  have hperm := (List.perm_insertionSort (fun p q : Nat × Text => p.1 ≤ q.1) (keyDecl a)).trans
    (h.decl.trans (List.perm_insertionSort (fun p q : Nat × Text => p.1 ≤ q.1) (keyDecl b)).symm)
  have heq : (keyDecl a).insertionSort (fun p q => p.1 ≤ q.1) =
      (keyDecl b).insertionSort fun p q => p.1 ≤ q.1 := by
    refine List.Perm.eq_of_pairwise (fun p q hp hq hpq hqp => ?_) (hsorted _) (hsorted _) hperm
    have hp := (List.mem_insertionSort _).mp hp
    have hq := h.decl.mem_iff.mpr ((List.mem_insertionSort _).mp hq)
    exact List.inj_on_of_nodup_map h.positions hp hq (Nat.le_antisymm hpq hqp)
  rw [hpos, hpos, keyDecl_sorted, keyDecl_sorted, heq]

/-! ## Reading the statements -/

/-- What SQL reads a double-quoted name as in a row of the table: the column of that
name, and otherwise the name itself as a string. -/
def readName (cols : List ColumnInfo) (vals : Text → SqlValue) (name : Text) : SqlValue :=
  match cols.find? fun c => sameName c.name name with
  | some c => vals c.name
  | none => .text name

/-- The expression of `crsql_quoteConcat` over names, each with its quotes doubled. -/
def quoteExpr (names : List Text) : Statement :=
  List.intercalate quoteSeparator
    (names.map fun n => quoteCall (escapedName n bare))

/-- SQL reads the text as such an expression, whose value in the row is `t`. -/
def EncodesAs [Sqlite] (cols : List ColumnInfo) (vals : Text → SqlValue) (sql t : Text) : Prop :=
  ∃ names, scan sql = some (quoteExpr names).tokens ∧
    t = CrSqlite.quoteConcat (names.map (readName cols vals))

/-- SQL reads a WHERE list as the comparisons it is written for, and they hold in the
row. -/
def Selects [Sqlite] (cols : List ColumnInfo) (vals : Text → SqlValue)
    (wheres : List (Text × Text)) : Prop :=
  (whereList wheres).ReadsBack ∧
    ∀ q ∈ wheres, ∃ v, readLiteral q.2 = some v ∧ SqlValue.Eq (readName cols vals q.1) v

/-- The text of every key without NULLs is built on one side, and on the other side
finds the row with that key. -/
structure KeyTravels [Sqlite] (a b : TableInfo) : Prop where
  parts : ∀ key : Key, (∀ v ∈ key, Storable v ∧ ∀ n, v ≠ .inf n) →
    splitQuoteConcat (CrSqlite.quoteConcat key) key.length = some (key.map quote)
  finds : ∀ vals, (∀ c ∈ a.pks, Quotable (vals c.name) ∧ vals c.name ≠ .null) →
    ∃ t, EncodesAs a.baseCols vals (GeneratedSql.quoteConcat a.pks).render t ∧
      ∃ wheres, extractWhereList b.pks t = some wheres ∧
        ∀ vals', Selects b.baseCols vals' wheres ↔
          ∀ c ∈ a.pks, SqlValue.Eq (vals' c.name) (vals c.name)

/-- A column has its own value where names are distinct. -/
theorem readName_of_mem {info : TableInfo} (h : DistinctNames info) {c : ColumnInfo}
    (hc : c ∈ info.baseCols) (vals : Text → SqlValue) :
    readName info.baseCols vals c.name = vals c.name := by
  have hfind : info.baseCols.find? (fun d => sameName d.name c.name) = some c := by
    obtain ⟨l, r, hl⟩ := List.append_of_mem hc
    rw [DistinctNames, hl, List.pairwise_append] at h
    have hself : sameName c.name c.name = true := by simp [sameName]
    have hnone : l.find? (fun d => sameName d.name c.name) = none :=
      List.find?_eq_none.mpr fun d hd => by simp [h.2.2 d hd c List.mem_cons_self]
    rw [hl, List.find?_append, hnone, Option.none_or]
    exact List.find?_cons_of_pos hself
  rw [readName, hfind]

theorem mem_baseCols_of_mem_pks {info : TableInfo} {c : ColumnInfo} (hc : c ∈ info.pks) :
    c ∈ info.baseCols :=
  (List.mem_filter.mp ((List.mem_insertionSort _).mp hc)).1

/-- Statements with a separator have the tokens of the separator between theirs. -/
private theorem tokens_intercalate (sep : Statement) (parts : List Statement) :
    Statement.tokens (List.intercalate sep parts) =
      List.intercalate sep.tokens (parts.map Statement.tokens) := by
  induction parts with
  | nil => rfl
  | cons p parts ih =>
      cases parts with
      | nil => simp [List.intercalate]
      | cons p' parts =>
          have happend : ∀ s s' : Statement, Statement.tokens (s ++ s') =
              Statement.tokens s ++ Statement.tokens s' := fun _ _ => List.flatMap_append
          rw [List.intercalate_cons_cons, happend, happend, ih, List.map_cons, List.map_cons,
            List.map_cons, List.intercalate_cons_cons]

/-- With plain key columns the expression is read with their names. -/
theorem scan_quoteConcat {cols : List ColumnInfo} (h : KeyNamesPlain cols) :
    scan (GeneratedSql.quoteConcat cols).render =
      some (quoteExpr (cols.map ColumnInfo.name)).tokens := by
  have hback := (readsBack_iff (spaced_quoteConcat cols) (closed_quoteConcat cols)).mpr
    (readable_quoteConcat_iff.mpr h)
  have htokens : (GeneratedSql.quoteConcat cols).tokens =
      (quoteExpr (cols.map ColumnInfo.name)).tokens := by
    rw [GeneratedSql.quoteConcat, quoteExpr, tokens_intercalate, tokens_intercalate,
      List.map_map, List.map_map, List.map_map]
    rfl
  rw [← htokens]
  exact hback

/-- The WHERE list of a printed key compares its columns with the printed values. -/
theorem extractWhereList_quoteConcat [Sqlite] {cols : List ColumnInfo} {key : Key}
    (hlen : key.length = cols.length) (hkey : ∀ v ∈ key, Storable v ∧ ∀ n, v ≠ .inf n) :
    extractWhereList cols (CrSqlite.quoteConcat key) =
      some (comparisons cols (key.map quote)) := by
  by_cases hone : cols.length = 1
  · obtain ⟨v, rfl⟩ := List.length_eq_one_iff.mp (hlen.trans hone)
    simp [extractWhereList, hone, comparisons, CrSqlite.quoteConcat, List.intercalate]
  · rw [extractWhereList, if_neg hone, ← hlen, splitQuoteConcat_quoteConcat key hkey]
    rfl

/-- With plain key columns the text of a key finds the row with that key. -/
private theorem finds_of_plain [Sqlite] {a b : TableInfo} (h : SameKey a b)
    (hplain : KeyNamesPlain a.pks) {vals : Text → SqlValue}
    (hvals : ∀ c ∈ a.pks, Quotable (vals c.name) ∧ vals c.name ≠ .null) :
    ∃ t, EncodesAs a.baseCols vals (GeneratedSql.quoteConcat a.pks).render t ∧
      ∃ wheres, extractWhereList b.pks t = some wheres ∧
        ∀ vals', Selects b.baseCols vals' wheres ↔
          ∀ c ∈ a.pks, SqlValue.Eq (vals' c.name) (vals c.name) := by
  have hnames := h.pks_names
  let key : Key := a.pks.map fun c => vals c.name
  have hkey : ∀ v ∈ key, Storable v ∧ ∀ n, v ≠ .inf n := by
    intro v hv
    obtain ⟨c, hc, rfl⟩ := List.mem_map.mp hv
    have hquotable := quotable_iff.mp (hvals c hc).1
    exact ⟨hquotable.1, hquotable.2.1⟩
  have hlen : key.length = b.pks.length := by
    have hlength := congrArg List.length hnames
    simpa [key] using hlength
  refine ⟨CrSqlite.quoteConcat key, ⟨_, scan_quoteConcat hplain, ?_⟩, _,
    extractWhereList_quoteConcat hlen hkey, fun vals' => ?_⟩
  · rw [List.map_map]
    congr 1
    exact List.map_congr_left fun c hc =>
      (readName_of_mem h.names (mem_baseCols_of_mem_pks hc) vals).symm
  · have hcompare : comparisons b.pks (key.map quote) =
        a.pks.map fun c => (c.name, quote (vals c.name)) := by
      rw [comparisons, ← hnames, List.map_map, List.zip_map']
      rfl
    have hlit : ∀ p ∈ key.map quote, Literal p := by
      intro p hp
      obtain ⟨v, hv, rfl⟩ := List.mem_map.mp hp
      exact literal_quote (hkey v hv).1 (hkey v hv).2
    have hplain' : KeyNamesPlain b.pks := by
      intro c hc
      have hmem : c.name ∈ a.pks.map ColumnInfo.name := by
        rw [hnames]
        exact List.mem_map_of_mem hc
      obtain ⟨d, hd, hdc⟩ := List.mem_map.mp hmem
      exact hdc ▸ hplain d hd
    have hback : (whereList (comparisons b.pks (key.map quote))).ReadsBack :=
      (readsBack_iff (spaced_whereList _) (closed_whereList hlit)).mpr
        ((readable_whereList_iff (by simpa using hlen)).mpr hplain')
    have hread : ∀ c ∈ a.pks, readName b.baseCols vals' c.name = vals' c.name := by
      intro c hc
      have hmem : c.name ∈ b.pks.map ColumnInfo.name := by
        rw [← hnames]
        exact List.mem_map_of_mem hc
      obtain ⟨d, hd, hdc⟩ := List.mem_map.mp hmem
      rw [← hdc]
      exact readName_of_mem h.names' (mem_baseCols_of_mem_pks hd) vals'
    rw [Selects, and_iff_right hback, hcompare, List.forall_mem_map]
    refine forall₂_congr fun c hc => ?_
    rw [readLiteral_quote (hvals c hc).1, hread c hc]
    simp

/-! ## Names with double quotes -/

/-- Only a double quote is one in lower case. -/
private theorem toLower_eq_doubleQuote {c : Char} : c.toLower = doubleQuote ↔ c = doubleQuote := by
  unfold Char.toLower doubleQuote
  split_ifs with h
  · have h1 : 65 ≤ c.val.toNat := UInt32.le_iff_toNat_le.mp h.1
    have h2 : c.val.toNat ≤ 90 := UInt32.le_iff_toNat_le.mp h.2
    constructor
    · intro heq
      have hval := congrArg (fun d : Char => d.val.toNat) heq
      have hsum : (c.val + ('a'.val - 'A'.val)).toNat = c.val.toNat + 32 := by
        have h32 : ('a'.val - 'A'.val).toNat = 32 := by decide
        rw [UInt32.toNat_add, h32]
        exact Nat.mod_eq_of_lt (by omega)
      have h34 : (Char.ofNat 34).val.toNat = 34 := rfl
      simp only [hsum, h34] at hval
      omega
    · rintro rfl
      exact absurd h1 (by decide)
  · rfl

/-- Folding the case of a name keeps its double quotes. -/
private theorem length_doubled_toLower (n : Text) :
    (doubled doubleQuote (n.map Char.toLower)).length = (doubled doubleQuote n).length := by
  induction n with
  | nil => rfl
  | cons c n ih =>
      simp only [List.map_cons, doubled, toLower_eq_doubleQuote]
      split_ifs
      · simp [ih]
      · simp [ih]

/-- To double quotes makes no text shorter. -/
private theorem le_length_doubled (q : Char) (t : Text) : t.length ≤ (doubled q t).length := by
  induction t with
  | nil => exact Nat.le_refl _
  | cons c t ih =>
      rw [doubled]
      split_ifs
      · simp only [List.length_cons]
        omega
      · simpa using ih

/-- A text that does not get longer has no quote. -/
private theorem notMem_of_length_doubled {q : Char} {t : Text}
    (h : (doubled q t).length ≤ t.length) : q ∉ t := by
  induction t with
  | nil => exact List.not_mem_nil
  | cons c t ih =>
      have hle := le_length_doubled q t
      rw [doubled] at h
      split_ifs at h with hc
      · simp only [List.length_cons] at h
        omega
      · rw [List.mem_cons, not_or]
        exact ⟨Ne.symm hc, ih (by simpa using h)⟩

/-- The number of characters of joined texts, each counted with a separator. -/
private theorem length_intercalate (sep : Text) {parts : List Text} (hne : parts ≠ []) :
    (List.intercalate sep parts).length + sep.length =
      (parts.map fun p => p.length + sep.length).sum := by
  induction parts with
  | nil => exact absurd rfl hne
  | cons p parts ih =>
      cases parts with
      | nil => simp [List.intercalate]
      | cons p' parts =>
          have ih := ih (List.cons_ne_nil _ _)
          rw [List.intercalate_cons_cons, List.map_cons, List.sum_cons, ← ih]
          simp only [List.length_append]
          omega

/-- The length of a concatenation of quoted names, printed either way. -/
private theorem length_quoteCalls (directive : Directive) {names : List Text} (hne : names ≠ []) :
    (Statement.render (List.intercalate quoteSeparator
      (names.map fun n => quoteCall (.quoted .double directive n bare)))).length + 11 =
      (names.map fun n => (directive.print doubleQuote n).length + 20).sum := by
  have hsep : (Statement.render quoteSeparator).length = 11 := by
    simp [Statement.render, Fragment.render, fixedString, text, PlainText.of, Directive.print]
  have hpart : ∀ n : Text, (quoteCall (.quoted .double directive n bare)).render.length =
      (directive.print doubleQuote n).length + 9 := by
    intro n
    simp [quoteCall, Statement.render, Fragment.render, bare, text, PlainText.of, Quote.char]
  have hparts : (names.map fun n =>
      (quoteCall (.quoted .double directive n bare)).render) ≠ [] := by
    simpa using hne
  have h := length_intercalate (Statement.render quoteSeparator) hparts
  rw [render_intercalate, List.map_map]
  rw [hsep, List.map_map] at h
  refine h.trans (congrArg List.sum (List.map_congr_left fun n _ => ?_))
  rw [Function.comp_apply, hpart]

/-- An expression over names that cover the key columns is at least as long as one
over the key columns with their quotes doubled. -/
private theorem sum_le_of_covers {cols : List ColumnInfo} {names : List Text}
    (hnodup : (cols.map fun c => c.name.map Char.toLower).Nodup)
    (hcovers : ∀ c ∈ cols, ∃ n ∈ names, sameName c.name n = true) :
    (cols.map fun c => (doubled doubleQuote c.name).length + 20).sum ≤
      (names.map fun n => (doubled doubleQuote n).length + 20).sum := by
  let width : Text → Nat := fun n => (doubled doubleQuote n).length + 20
  have hfold : ∀ n : Text, width (n.map Char.toLower) = width n := fun n =>
    congrArg (· + 20) (length_doubled_toLower n)
  have hsubset : (cols.map fun c => c.name.map Char.toLower) ⊆
      names.map fun n => n.map Char.toLower := by
    intro x hx
    obtain ⟨c, hc, rfl⟩ := List.mem_map.mp hx
    obtain ⟨n, hn, hsame⟩ := hcovers c hc
    exact List.mem_map.mpr ⟨n, hn, (by simpa [sameName] using hsame : _ = _).symm⟩
  obtain ⟨l, hperm, hsub⟩ := List.subperm_of_subset hnodup hsubset
  have hle : ((cols.map fun c => c.name.map Char.toLower).map width).sum ≤
      ((names.map fun n => n.map Char.toLower).map width).sum := by
    rw [← (hperm.map width).sum_eq]
    exact (hsub.map width).sum_le_sum fun _ _ => Nat.zero_le _
  rw [List.map_map, List.map_map] at hle
  simpa only [Function.comp_def, hfold] using hle

/-- Where the sums are in order the terms that are not below each other are equal. -/
private theorem forall_le_of_sum_le {α : Type} {l : List α} {f g : α → Nat}
    (hgf : ∀ x ∈ l, g x ≤ f x) (hsum : (l.map f).sum ≤ (l.map g).sum) : ∀ x ∈ l, f x ≤ g x := by
  induction l with
  | nil => exact fun _ h => nomatch h
  | cons a l ih =>
      simp only [List.map_cons, List.sum_cons, List.forall_mem_cons] at hsum hgf ⊢
      have hle : (l.map g).sum ≤ (l.map f).sum := List.sum_le_sum hgf.2
      exact ⟨by omega, ih hgf.2 (by omega)⟩

/-- The names an expression is over. -/
private def namesOf (ts : List Token) : List Text :=
  ts.filterMap fun
    | .name n => some n
    | _ => none

/-- The names in the printed expression are those that it is made of. -/
private theorem namesOf_quoteExpr (names : List Text) :
    namesOf (quoteExpr names).tokens = names := by
  have hplain : ∀ t : PlainText, namesOf (t.chars.map Token.char) = [] := by
    intro t
    simp [namesOf, List.filterMap_map]
  have happend : ∀ ts us, namesOf (ts ++ us) = namesOf ts ++ namesOf us := fun _ _ =>
    List.filterMap_append
  have hpart : ∀ n : Text, namesOf (quoteCall (escapedName n bare)).tokens = [n] := by
    intro n
    have htokens : (quoteCall (escapedName n bare)).tokens =
        (PlainText.of "quote(").chars.map Token.char ++
          ([.name n] ++ (PlainText.of ")").chars.map Token.char) := by
      simp [quoteCall, Statement.tokens, Fragment.tokens, text, escapedName, bare, quotedToken,
        Quote.char]
    rw [htokens, happend, happend, hplain, hplain]
    rfl
  have hsep : namesOf (Statement.tokens quoteSeparator) = [] := by
    have hne : singleQuote ≠ doubleQuote := by decide
    have htokens : Statement.tokens quoteSeparator =
        (PlainText.of " || ").chars.map Token.char ++
          ([.string (PlainText.of "|").chars] ++
            (PlainText.of " || ").chars.map Token.char) := by
      simp [Statement.tokens, Fragment.tokens, text, fixedString, quotedToken, Quote.char, hne]
    rw [htokens, happend, happend, hplain]
    rfl
  unfold quoteExpr
  rw [tokens_intercalate]
  induction names with
  | nil => rfl
  | cons n names ih =>
      cases names with
      | nil => simpa [List.intercalate] using hpart n
      | cons n' names =>
          rw [List.map_cons, List.map_cons, List.map_cons, List.map_cons,
            List.intercalate_cons_cons, happend, happend, hpart, hsep]
          simpa using ih

/-- The expression is over names that cover the key columns: a column that none of
them is could change without the key text. -/
private theorem covers_of_travels [Sqlite] {a b : TableInfo} (h : KeyTravels a b)
    {names : List Text}
    (hscan : scan (GeneratedSql.quoteConcat a.pks).render = some (quoteExpr names).tokens) :
    ∀ c ∈ a.pks, ∃ n ∈ names, sameName c.name n = true := by
  intro c hc
  by_contra hnone
  let zeros : Text → SqlValue := fun _ => .integer 0
  let one : Text → SqlValue := Function.update zeros c.name (.integer 1)
  have hzero : ∀ d ∈ a.pks, Quotable (zeros d.name) ∧ zeros d.name ≠ .null := by
    intro d _
    exact ⟨⟨by decide, by decide⟩, by simp [zeros]⟩
  have hone : ∀ d ∈ a.pks, Quotable (one d.name) ∧ one d.name ≠ .null := by
    intro d _
    by_cases hd : d.name = c.name
    · rw [hd]
      simp only [one, Function.update_self]
      exact ⟨⟨by decide, by decide⟩, by simp⟩
    · simp only [one, Function.update_of_ne hd]
      exact ⟨⟨by decide, by decide⟩, by simp [zeros]⟩
  have hread : ∀ n ∈ names, readName a.baseCols one n = readName a.baseCols zeros n := by
    intro n hn
    unfold readName
    split
    · rename_i d hfind
      have hsame : sameName d.name n = true := by simpa using List.find?_some hfind
      have hd : d.name ≠ c.name := fun heq => hnone ⟨n, hn, heq ▸ hsame⟩
      exact Function.update_of_ne hd _ _
    · rfl
  have hnames : ∀ {ns}, scan (GeneratedSql.quoteConcat a.pks).render =
      some (quoteExpr ns).tokens → ns = names := by
    intro ns hns
    have htokens := Option.some.inj (hns.symm.trans hscan)
    rw [← namesOf_quoteExpr ns, htokens, namesOf_quoteExpr]
  obtain ⟨t, ⟨ns, hns, ht⟩, wheres, hwheres, hselects⟩ := h.finds zeros hzero
  obtain ⟨t', ⟨ns', hns', ht'⟩, wheres', hwheres', hselects'⟩ := h.finds one hone
  obtain rfl := hnames hns
  obtain rfl := hnames hns'
  have htext : t' = t := by
    rw [ht, ht', List.map_congr_left hread]
  rw [htext, hwheres] at hwheres'
  obtain rfl := Option.some.inj hwheres'
  have hfound := (hselects zeros).mpr fun d _ => by decide
  have hsame := (hselects' zeros).mp hfound c hc
  simp only [one, zeros, Function.update_self] at hsame
  exact absurd hsame (by decide)

/-- The printed expression reads back. -/
private theorem readsBack_quoteExpr (names : List Text) : (quoteExpr names).ReadsBack := by
  have hspaced : (quoteExpr names).Spaced := by
    apply Statement.spaced_intercalate
    · intro s s' hs hs'
      refine (Statement.spaced_append_plain (by simp)).mpr ⟨hs, ?_⟩
      simpa [fixedString, text] using hs'
    · intro p hp
      obtain ⟨n, -, rfl⟩ := List.mem_map.mp hp
      simp [quoteCall, escapedName, text]
  have hclosed : (quoteExpr names).Closed := by
    refine (Statement.forall_mem_intercalate
      (by simp [text, fixedString, Fragment.Closed])).mpr ?_
    intro p hp
    obtain ⟨n, -, rfl⟩ := List.mem_map.mp hp
    simp [text, escapedName, Fragment.Closed]
  refine (readsBack_iff hspaced hclosed).mpr ((Statement.forall_mem_intercalate
    (by simp [text, fixedString, Fragment.ReadsBack])).mpr ?_)
  intro p hp
  obtain ⟨n, -, rfl⟩ := List.mem_map.mp hp
  simp [text, escapedName, Fragment.ReadsBack]

/-- Distinct key columns are told apart without regard to case. -/
private theorem nodup_lower_pks {info : TableInfo} (h : DistinctNames info) :
    (info.pks.map fun c => c.name.map Char.toLower).Nodup := by
  have hperm : info.pks.Perm (info.baseCols.filter fun c => 0 < c.pk) :=
    List.perm_insertionSort _ _
  rw [(hperm.map _).nodup_iff]
  have hpairwise : (info.baseCols.filter fun c => 0 < c.pk).Pairwise fun a b =>
      sameName a.name b.name = false := h.sublist List.filter_sublist
  rw [List.Nodup, List.pairwise_map]
  exact hpairwise.imp fun hab heq => by simp [sameName, heq] at hab

/-- If the text of every key finds its row, no key column has a double quote. -/
private theorem plain_of_travels [Sqlite] {a b : TableInfo} (hnames : DistinctNames a)
    (h : KeyTravels a b) : KeyNamesPlain a.pks := by
  intro c hc
  obtain ⟨t, ⟨names, hscan, -⟩, -⟩ := h.finds (fun _ => .integer 0) fun d _ =>
    ⟨⟨by decide, by decide⟩, by simp⟩
  have hcovers := covers_of_travels h hscan
  have hne : names ≠ [] := by
    rintro rfl
    obtain ⟨n, hn, -⟩ := hcovers c hc
    cases hn
  have hpks : a.pks.map ColumnInfo.name ≠ [] := List.ne_nil_of_mem (List.mem_map_of_mem hc)
  have hrender := congrArg List.length (scan_injective hscan (readsBack_quoteExpr names))
  have hraw : (GeneratedSql.quoteConcat a.pks).render.length + 11 =
      (a.pks.map fun d => d.name.length + 20).sum := by
    have h := length_quoteCalls .raw hpks
    rw [List.map_map, List.map_map] at h
    exact h
  have hescaped : (quoteExpr names).render.length + 11 =
      (names.map fun n => (doubled doubleQuote n).length + 20).sum :=
    length_quoteCalls .escaped hne
  have hcover := sum_le_of_covers (nodup_lower_pks hnames) hcovers
  have hsum : (a.pks.map fun d => (doubled doubleQuote d.name).length + 20).sum ≤
      (a.pks.map fun d => d.name.length + 20).sum := by
    omega
  have hle := forall_le_of_sum_le (fun d _ => by
    have := le_length_doubled doubleQuote d.name
    omega) hsum c hc
  exact notMem_of_length_doubled (by omega)

/-- Printed values are split again, and the text of a key finds the row with that key
in a table with the same key, exactly when no key column has a double quote in its
name. -/
theorem keyTravels_iff [Sqlite] {a b : TableInfo} (h : SameKey a b) :
    KeyTravels a b ↔ KeyNamesPlain a.pks :=
  ⟨plain_of_travels h.names,
    fun hplain => ⟨splitQuoteConcat_quoteConcat, fun _ => finds_of_plain h hplain⟩⟩

/-- A table with the key `(k, l)`. -/
def keyFirst : TableInfo :=
  ⟨"t".toList, [⟨0, ['k'], [], true, 1⟩, ⟨1, ['l'], [], true, 2⟩, ⟨2, ['v'], [], false, 0⟩]⟩

/-- The same table with its columns the other way round. -/
def keyLast : TableInfo :=
  ⟨"t".toList, [⟨0, ['v'], [], false, 0⟩, ⟨1, ['l'], [], true, 2⟩, ⟨2, ['k'], [], true, 1⟩]⟩

/-- A key travels between tables that declare its columns in another order. -/
theorem keyTravels_reordered :
    @KeyTravels integralSqlite keyFirst keyLast ↔ KeyNamesPlain keyFirst.pks :=
  @keyTravels_iff integralSqlite keyFirst keyLast
    ⟨by decide, by decide, by unfold DistinctNames; decide, by unfold DistinctNames; decide⟩

/-- A table whose key column is named `a""`. -/
def misnamedKey : TableInfo :=
  ⟨"t".toList, [⟨0, ['a', doubleQuote, doubleQuote], [], true, 1⟩]⟩

/-- Between two such tables the text of a key does not find its row. -/
theorem misnamedKey_lost :
    SameKey misnamedKey misnamedKey ∧ ¬@KeyTravels integralSqlite misnamedKey misnamedKey := by
  have hnames : DistinctNames misnamedKey := List.pairwise_singleton _ _
  refine ⟨⟨.refl _, by decide, hnames, hnames⟩, fun h => ?_⟩
  have hplain := @plain_of_travels integralSqlite _ _ hnames h
  exact hplain _ (List.mem_cons_self : _ ∈ misnamedKey.pks) (by decide)

end CrSqlite
