import CrSqlite.AsOrdered
import CrSqlite.FractKeys
import CrSqlite.Value
import Mathlib.Data.List.MinMax

/-!
# FractConflict - rows that share an order key

`crsql_fract_fix_conflict_return_old_key` of core/rs/fractindex-core: where the row behind
which another one is to go shares its order key, that row gets a key in front of it, and
its old key is returned.  The function puts two statements together from the names it is
given and runs them in the middle of the statement that called it.  Texts are lists of
tokens here, and a statement runs only where the texts put into it are SQL.

Main results:

- Theorem {lit}`readPredicates_pkPredicates`: with one key column the comparisons are SQL,
  with more they are not.
- Theorem {lit}`readArgs_fixArgs`: the arguments of the triggers are read as they are meant,
  for any number of key and collection columns.
- Theorem {lit}`fixConflict_eq_none`: where the second statement is no SQL, the function fails.
- Theorem {lit}`fixConflict_spec`: elsewhere the row gets a key right in front of its old one.
-/

namespace CrSqlite.Ordered

open FractIndex

/-! ## Tables in order -/

/-- A table that `crsql_fract_as_ordered` was called for.  The call counts the columns that
are among those it was given, so the order column is none of the collection columns. -/
structure OrderedTable where
  table : Text
  columns : List Text
  pks : List Text
  orderCol : Text
  collection : List Text
  /-- Whether `_rowid_` names something: not in a table WITHOUT ROWID. -/
  rowidVisible : Bool
  pks_ne_nil : pks ≠ []
  pks_subset : pks ⊆ columns
  collection_subset : collection ⊆ columns
  orderCol_notMem : orderCol ∉ collection

/-- A row, with the order key that is its value in the order column. -/
structure OrderedRow where
  cells : Text → SqlValue
  order : Str

/-- The value of a row in a column. -/
def OrderedTable.value (o : OrderedTable) (r : OrderedRow) (column : Text) : SqlValue :=
  if column = o.orderCol then .text r.order else r.cells column

/-- The values of two rows are equal in the columns. -/
def Agree (columns : List Text) (v w : Text → SqlValue) : Prop :=
  ∀ c ∈ columns, SqlValue.Eq (v c) (w c)

instance (columns : List Text) (v w : Text → SqlValue) : Decidable (Agree columns v w) :=
  inferInstanceAs (Decidable (∀ c ∈ columns, _))

/-- No two rows have the same primary key. -/
def OrderedTable.UniqueKeys (o : OrderedTable) (rows : List OrderedRow) : Prop :=
  rows.Pairwise fun r s => ¬ Agree o.pks (o.value r) (o.value s)

instance (o : OrderedTable) (rows : List OrderedRow) : Decidable (o.UniqueKeys rows) :=
  inferInstanceAs (Decidable (List.Pairwise _ rows))

/-- A write fails that leaves two rows with the same primary key. -/
def OrderedTable.checked (o : OrderedTable) (rows : List OrderedRow) : Option (List OrderedRow) :=
  if o.UniqueKeys rows then some rows else none

/-- `crsql_fract_key_between`. -/
def fractKeyBetween (left right : Option Str) : Option Str :=
  match keyBetween left right with
  | .ok key => key
  | .err _ | .panic => none

/-- `ORDER BY ... ASC LIMIT 1`. -/
def smallest (keys : List Str) : Option Str :=
  keys.argmin Str.bytes

/-- `ORDER BY ... DESC LIMIT 1`. -/
def greatest (keys : List Str) : Option Str :=
  keys.argmax Str.bytes

/-! ## Statements from texts -/

/-- A token of SQL; a name is what stands between double quotes. -/
inductive SqlToken where
  | word (w : String)
  | name (n : Text)
  | param (i : Nat)
  | symbol (c : Char)
deriving DecidableEq

/-- The comparisons with the key values; the texts of two of them are put together with
`, AND` between them. -/
def pkPredicates (pkNames : List Text) : List SqlToken :=
  List.intercalate [.symbol ',', .word "AND"]
    (pkNames.zipIdx.map fun (pkName, i) => [.name pkName, .symbol '=', .param (i + 1)])

def listColumns (collection : List Text) : List SqlToken :=
  List.intercalate [.symbol ','] (collection.map fun c => [.name c])

/-- `"table"."column" = t."column"`, with ` AND ` between two of them. -/
def listJoinPredicates (table : Text) (collection : List Text) : List SqlToken :=
  List.intercalate [.word "AND"] (collection.map fun col =>
    [.name table, .symbol '.', .name col, .symbol '=', .word "t", .symbol '.', .name col])

/-- A condition of columns and parameters. -/
def readPredicates : List SqlToken → Option (List (Text × Nat))
  | [.name n, .symbol '=', .param i] => some [(n, i)]
  | .name n :: .symbol '=' :: .param i :: .word "AND" :: ts =>
      (readPredicates ts).map ((n, i) :: ·)
  | _ => none

/-- A list of columns. -/
def readColumns : List SqlToken → Option (List Text)
  | [.name n] => some [n]
  | .name n :: .symbol ',' :: ts => (readColumns ts).map (n :: ·)
  | _ => none

/-- A column with the name of its table. -/
structure QualifiedName where
  table : Text
  column : Text

/-- The name of the inner query. -/
def innerName : Text :=
  "t".toList

/-- A condition of columns of two tables. -/
def readJoin : List SqlToken → Option (List (QualifiedName × QualifiedName))
  | [.name t, .symbol '.', .name c, .symbol '=', .word u, .symbol '.', .name d] =>
      some [(⟨t, c⟩, ⟨u.toList, d⟩)]
  | .name t :: .symbol '.' :: .name c :: .symbol '=' :: .word u :: .symbol '.' :: .name d ::
      .word "AND" :: ts => (readJoin ts).map ((⟨t, c⟩, ⟨u.toList, d⟩) :: ·)
  | _ => none

/-- A table of a FROM clause, with its name there and its columns. -/
structure Source where
  name : Text
  columns : List Text

/-- The table whose column a name stands for: the name is wrong when there is none, and
ambiguous when there are several. -/
def resolveColumn (sources : List Source) (q : QualifiedName) : Option (Nat × Text) :=
  match sources.zipIdx.filter fun (s, _) => fold s.name = fold q.table ∧ q.column ∈ s.columns with
  | [(_, i)] => some (i, q.column)
  | _ => none

/-- Both sides of a comparison. -/
def resolveComparison (sources : List Source) (p : QualifiedName × QualifiedName) :
    Option ((Nat × Text) × (Nat × Text)) := do
  let l ← resolveColumn sources p.1
  let r ← resolveColumn sources p.2
  some (l, r)

/-- Every comparison of a condition. -/
def resolveJoin (sources : List Source) (join : List (QualifiedName × QualifiedName)) :
    Option (List ((Nat × Text) × (Nat × Text))) :=
  join.mapM (resolveComparison sources)

/-! ## The arguments of the call -/

/-- What the function is called with. -/
structure FixArgs where
  table : Text
  orderCol : Text
  collection : List Text
  pkNames : List Text
  pkValues : List SqlValue

/-- `text` of an argument that is a name. -/
def textOf : SqlValue → Text
  | .text t => t
  | .integer i => printInt i
  | _ => []

def isInteger : SqlValue → Bool
  | .integer _ => true
  | _ => false

/-- `pull_collection_column_names`: the arguments up to the first integer. -/
def pullCollectionColumnNames (start : Nat) (args : List SqlValue) : List SqlValue :=
  (args.drop start).takeWhile fun v => !isInteger v

/-- How `crsql_fract_fix_conflict_return_old_key` reads its arguments. -/
def readArgs (args : List SqlValue) : Option FixArgs :=
  if args.length < 4 then none
  else
    let collection := pullCollectionColumnNames 2 args
    let nextIndex := 2 + collection.length + 1
    let both := args.length - nextIndex
    if both = 0 ∨ both % 2 ≠ 0 then none
    else
      let pkCount := both / 2
      some {
        table := textOf (args.getD 0 .null)
        orderCol := textOf (args.getD 1 .null)
        collection := collection.map textOf
        pkNames := ((args.drop nextIndex).take pkCount).map textOf
        pkValues := (args.drop (nextIndex + pkCount)).take pkCount }

/-- The arguments that the triggers give, with the key values of the anchor. -/
def OrderedTable.fixArgs (o : OrderedTable) (after : Text → SqlValue) : List SqlValue :=
  [.text o.table, .text o.orderCol] ++ o.collection.map .text ++ [.integer (-1)] ++
    o.pks.map .text ++ o.pks.map after

/-! ## The two statements -/

/-- The second statement, ready to run. -/
structure FixUpdate where
  predicates : List (Text × Nat)
  columns : List Text
  join : List ((Nat × Text) × (Nat × Text))

/-- `prepare_v2` of the first statement: the order key of the row with the given key. -/
def prepareSelect (a : FixArgs) : Option (List (Text × Nat)) :=
  readPredicates (pkPredicates a.pkNames)

/-- `prepare_v2` of the second statement.  Its inner SELECT joins the table with a query
of the collection columns. -/
def prepareUpdate (o : OrderedTable) (a : FixArgs) : Option FixUpdate := do
  let predicates ← readPredicates (pkPredicates a.pkNames)
  let columns ← readColumns (listColumns a.collection)
  let join ← readJoin (listJoinPredicates a.table a.collection)
  let join ← resolveJoin [⟨a.table, o.columns⟩, ⟨innerName, columns⟩] join
  some ⟨predicates, columns, join⟩

/-- The rows whose columns equal the bound parameters. -/
def Matches (o : OrderedTable) (predicates : List (Text × Nat)) (params : List SqlValue)
    (r : OrderedRow) : Prop :=
  ∀ p ∈ predicates, SqlValue.Eq (o.value r p.1) ((params[p.2 - 1]?).getD .null)

instance (o : OrderedTable) (predicates : List (Text × Nat)) (params : List SqlValue)
    (r : OrderedRow) : Decidable (Matches o predicates params r) :=
  inferInstanceAs (Decidable (∀ p ∈ predicates, _))

/-- A row of the table and one of the inner query that the join keeps. -/
def JoinHolds (o : OrderedTable) (join : List ((Nat × Text) × (Nat × Text)))
    (r t : OrderedRow) : Prop :=
  ∀ p ∈ join, SqlValue.Eq (o.value (if p.1.1 = 0 then r else t) p.1.2)
    (o.value (if p.2.1 = 0 then r else t) p.2.2)

instance (o : OrderedTable) (join : List ((Nat × Text) × (Nat × Text)))
    (r t : OrderedRow) : Decidable (JoinHolds o join r t) :=
  inferInstanceAs (Decidable (∀ p ∈ join, _))

/-- The greatest order key below a given one among the joined rows. -/
def keyBelow (o : OrderedTable) (stmt : FixUpdate) (params : List SqlValue) (target : Str)
    (rows : List OrderedRow) : Option Str :=
  greatest ((rows.filter fun r => r.order.bytes < target.bytes ∧
    ∃ t ∈ rows, Matches o stmt.predicates params t ∧ JoinHolds o stmt.join r t).map
      OrderedRow.order)

/-- `fix_conflict_return_old_key` on the table that its arguments name. -/
def fixConflict (o : OrderedTable) (a : FixArgs) (rows : List OrderedRow) :
    Option (List OrderedRow × Str) := do
  let predicates ← prepareSelect a
  let anchor ← rows.find? fun r => Matches o predicates a.pkValues r
  let targetOrder := anchor.order
  let stmt ← prepareUpdate o a
  let key ← fractKeyBetween (keyBelow o stmt a.pkValues targetOrder rows) (some targetOrder)
  let rows ← o.checked (rows.map fun r =>
    if Matches o stmt.predicates a.pkValues r then { r with order := key } else r)
  some (rows, targetOrder)

/-! ## When the statements are SQL -/

/-- A comma in front of AND is no SQL. -/
theorem readPredicates_pkPredicates (names : List Text) :
    readPredicates (pkPredicates names) =
      match names with
      | [p] => some [(p, 1)]
      | _ => none := by
  match names with
  | [] => rfl
  | [p] => rfl
  | p :: q :: names => simp [pkPredicates, List.intercalate, readPredicates]

/-- The names of the collection columns are read back where there are some. -/
theorem readColumns_listColumns {collection : List Text} (hne : collection ≠ []) :
    readColumns (listColumns collection) = some collection := by
  induction collection with
  | nil => exact absurd rfl hne
  | cons c cs ih =>
      cases cs with
      | nil => rfl
      | cons d cs =>
          have hrest := ih (List.cons_ne_nil d cs)
          simp only [listColumns, List.intercalate, List.map_cons, List.intersperse_cons_cons,
            List.flatten_cons, List.cons_append, List.nil_append] at hrest ⊢
          rw [readColumns, hrest]
          · rfl

/-- The join over the collection columns is read back where there are some. -/
theorem readJoin_listJoinPredicates {table : Text} {collection : List Text}
    (hne : collection ≠ []) :
    readJoin (listJoinPredicates table collection) =
      some (collection.map fun c => (⟨table, c⟩, ⟨innerName, c⟩)) := by
  induction collection with
  | nil => exact absurd rfl hne
  | cons c cs ih =>
      cases cs with
      | nil => rfl
      | cons d cs =>
          have hrest := ih (List.cons_ne_nil d cs)
          simp only [listJoinPredicates, List.intercalate, List.map_cons, List.intersperse_cons_cons,
            List.flatten_cons, List.cons_append, List.nil_append] at hrest ⊢
          rw [readJoin, hrest]
          · rfl

section Resolve

variable {table : Text} {columns collection : List Text} {c : Text}

/-- A column of the table is found under the table's name. -/
theorem resolveColumn_table (ht : fold table ≠ fold innerName) (hc : c ∈ columns) :
    resolveColumn [⟨table, columns⟩, ⟨innerName, collection⟩] ⟨table, c⟩ = some (0, c) := by
  simp [resolveColumn, List.zipIdx_cons, hc, Ne.symm ht]

/-- A collection column is found in the inner query. -/
theorem resolveColumn_inner (ht : fold table ≠ fold innerName) (hc : c ∈ collection) :
    resolveColumn [⟨table, columns⟩, ⟨innerName, collection⟩] ⟨innerName, c⟩ = some (1, c) := by
  simp [resolveColumn, List.zipIdx_cons, hc, ht]

/-- In a table with the name of the inner query every column is ambiguous. -/
theorem resolveColumn_ambiguous (ht : fold table = fold innerName) (hc : c ∈ columns)
    (hcoll : c ∈ collection) :
    resolveColumn [⟨table, columns⟩, ⟨innerName, collection⟩] ⟨table, c⟩ = none := by
  simp [resolveColumn, List.zipIdx_cons, hc, hcoll, ht]

/-- The join compares the collection columns of the two. -/
theorem resolveJoin_eq (ht : fold table ≠ fold innerName) (hsub : collection ⊆ columns)
    {cs : List Text} (hcs : cs ⊆ collection) :
    resolveJoin [⟨table, columns⟩, ⟨innerName, collection⟩]
        (cs.map fun c => (⟨table, c⟩, ⟨innerName, c⟩)) =
      some (cs.map fun c => ((0, c), (1, c))) := by
  induction cs with
  | nil => rfl
  | cons c cs ih =>
      have hc := hcs List.mem_cons_self
      have hrest := ih fun d hd => hcs (List.mem_cons_of_mem c hd)
      rw [resolveJoin] at hrest ⊢
      rw [List.map_cons, List.mapM_cons, hrest, resolveComparison,
        resolveColumn_table ht (hsub hc), resolveColumn_inner ht hc]
      rfl

/-- In a table that is called like the inner query the columns are ambiguous. -/
theorem resolveJoin_ambiguous (ht : fold table = fold innerName) (hsub : collection ⊆ columns)
    (hne : collection ≠ []) :
    resolveJoin [⟨table, columns⟩, ⟨innerName, collection⟩]
      (collection.map fun c => (⟨table, c⟩, ⟨innerName, c⟩)) = none := by
  obtain ⟨c, cs, hcs⟩ := List.exists_cons_of_ne_nil hne
  have hc : c ∈ collection := hcs ▸ List.mem_cons_self
  have hcoll : collection.map (fun c => (QualifiedName.mk table c, QualifiedName.mk innerName c)) =
      (⟨table, c⟩, ⟨innerName, c⟩) ::
        cs.map fun c => (⟨table, c⟩, ⟨innerName, c⟩) := by
    rw [hcs, List.map_cons]
  rw [resolveJoin, hcoll, List.mapM_cons, resolveComparison,
    resolveColumn_ambiguous ht (hsub hc) hc]
  rfl

end Resolve

/-- What the arguments of the triggers are read as. -/
def OrderedTable.fixCall (o : OrderedTable) (after : Text → SqlValue) : FixArgs where
  table := o.table
  orderCol := o.orderCol
  collection := o.collection
  pkNames := o.pks
  pkValues := o.pks.map after

/-- The integer between the names of the collection columns and those of the key columns
keeps them apart, however many there are. -/
theorem readArgs_fixArgs (o : OrderedTable) (after : Text → SqlValue) :
    readArgs (o.fixArgs after) = some (o.fixCall after) := by
  have hpos : 0 < o.pks.length := List.length_pos_iff.mpr o.pks_ne_nil
  have hpull : pullCollectionColumnNames 2 (o.fixArgs after) = o.collection.map .text := by
    have hall : ∀ v ∈ o.collection.map SqlValue.text, (!isInteger v) = true := by
      intro v hv
      obtain ⟨c, -, rfl⟩ := List.mem_map.mp hv
      rfl
    rw [pullCollectionColumnNames, OrderedTable.fixArgs]
    simp only [List.append_assoc, List.cons_append, List.nil_append, List.drop_succ_cons,
      List.drop_zero]
    rw [List.takeWhile_append_of_pos hall]
    simp [isInteger]
  have hlen : (o.fixArgs after).length =
      2 + o.collection.length + 1 + (o.pks.length + o.pks.length) := by
    simp [OrderedTable.fixArgs]
    omega
  have hdrop : (o.fixArgs after).drop (2 + o.collection.length + 1) =
      o.pks.map .text ++ o.pks.map after := by
    rw [OrderedTable.fixArgs, List.append_assoc _ (o.pks.map _)]
    apply List.drop_left'
    simp
    omega
  have hvalues : (o.fixArgs after).drop (2 + o.collection.length + 1 + o.pks.length) =
      o.pks.map after := by
    rw [← List.drop_drop, hdrop]
    exact List.drop_left' (List.length_map ..)
  have htext : ∀ cs : List Text, (cs.map SqlValue.text).map textOf = cs := by
    intro cs
    rw [List.map_map]
    exact List.map_id cs
  rw [readArgs, if_neg (by omega)]
  simp only [hpull, List.length_map]
  have hboth : (o.fixArgs after).length - (2 + o.collection.length + 1) =
      o.pks.length + o.pks.length := by omega
  have hhalf : (o.pks.length + o.pks.length) / 2 = o.pks.length := by omega
  rw [hboth, if_neg (by omega), hhalf, hdrop, hvalues, OrderedTable.fixCall]
  simp only [Option.some.injEq, FixArgs.mk.injEq]
  refine ⟨rfl, rfl, htext _, ?_, ?_⟩
  · rw [List.take_left' (List.length_map ..)]
    exact htext _
  · exact List.take_of_length_le (by simp)

/-! ## The row gets out of the way -/

theorem sqlEq_refl {v : SqlValue} (hv : v ≠ .null) : SqlValue.Eq v v :=
  ⟨hv, rfl⟩

theorem sqlEq_symm {v w : SqlValue} (h : SqlValue.Eq v w) : SqlValue.Eq w v :=
  ⟨fun hw => h.1 (SqlValue.canon_eq_null_iff.mp (by rw [h.2, hw]; rfl)), h.2.symm⟩

theorem sqlEq_trans {u v w : SqlValue} (h : SqlValue.Eq u v) (h' : SqlValue.Eq v w) :
    SqlValue.Eq u w :=
  ⟨h.1, h.2.trans h'.2⟩

theorem Agree.symm {columns : List Text} {v w : Text → SqlValue} (h : Agree columns v w) :
    Agree columns w v :=
  fun c hc => sqlEq_symm (h c hc)

/-- Rows that agree with one row agree. -/
theorem Agree.trans {columns : List Text} {u v w : Text → SqlValue} (h : Agree columns u v)
    (h' : Agree columns v w) : Agree columns u w :=
  fun c hc => sqlEq_trans (h c hc) (h' c hc)

theorem greatest_mem {keys : List Str} {m : Str} (h : greatest keys = some m) : m ∈ keys :=
  List.argmax_mem h

/-- No key is above the greatest one. -/
theorem not_greatest_lt {keys : List Str} {m k : Str} (h : greatest keys = some m)
    (hk : k ∈ keys) : ¬ m.bytes < k.bytes :=
  List.not_lt_of_mem_argmax hk h

theorem greatest_eq_none_iff {keys : List Str} : greatest keys = none ↔ keys = [] :=
  List.argmax_eq_none

/-- Primary keys tell rows apart at any two places. -/
theorem uniqueKeys_iff {o : OrderedTable} {rows : List OrderedRow} :
    o.UniqueKeys rows ↔ ∀ {i j : Nat} {r s : OrderedRow}, rows[i]? = some r → rows[j]? = some s →
      i ≠ j → ¬ Agree o.pks (o.value r) (o.value s) := by
  rw [OrderedTable.UniqueKeys, List.pairwise_iff_getElem]
  constructor
  · intro h i j r s hr hs hne hagree
    obtain ⟨hi, rfl⟩ := List.getElem?_eq_some_iff.mp hr
    obtain ⟨hj, rfl⟩ := List.getElem?_eq_some_iff.mp hs
    rcases Nat.lt_or_gt_of_ne hne with hlt | hgt
    · exact h i j hi hj hlt hagree
    · exact h j i hj hi hgt hagree.symm
  · intro h i j hi hj hlt
    exact h (List.getElem?_eq_getElem hi) (List.getElem?_eq_getElem hj) (Nat.ne_of_lt hlt)

/-- Valid order keys that the checks on lengths let pass, and primary keys that tell the rows
apart. -/
structure OrderedTable.WF (o : OrderedTable) (rows : List OrderedRow) : Prop where
  valid : ∀ r ∈ rows, ValidKey r.order
  short : ∀ r ∈ rows, r.order.len < 256
  unique : o.UniqueKeys rows

/-- A key of less than 256 bytes passes the check in eight bits. -/
theorem fits_of_short {key : Str} (hkey : ValidKey key) (hlen : key.len < 256) :
    fits key = true := by
  obtain ⟨i, f, hparts⟩ := hkey.parts
  have hle : i.length ≤ key.len := by
    rw [Str.len_of_ascii hparts.ascii, hparts.eq, List.length_append]
    exact Nat.le_add_right _ _
  rw [fits, hparts.headLen, Nat.mod_eq_of_lt hlen]
  exact decide_eq_true hle

section Rows

variable {o : OrderedTable} {rows : List OrderedRow} {x : Nat} {anchor : OrderedRow}
  {after : Text → SqlValue}

/-- Between two keys of rows, of which one or both may be absent, there is a key. -/
theorem OrderedTable.WF.exists_newKey (h : o.WF rows) (left right : Option Str)
    (hleft : ∀ k ∈ left, ∃ r ∈ rows, r.order = k) (hright : ∀ k ∈ right, ∃ r ∈ rows, r.order = k)
    (hlt : ∀ k ∈ left, ∀ l ∈ right, k.bytes < l.bytes) :
    ∃ k, fractKeyBetween left right = some k ∧ NewKey left right k := by
  have hrow : ∀ {key : Option Str}, (∀ k ∈ key, ∃ r ∈ rows, r.order = k) →
      (∀ k ∈ key, ValidKey k) ∧ ∀ k ∈ key, fits k = true := by
    intro key hkey
    refine ⟨fun k hk => ?_, fun k hk => ?_⟩
    · obtain ⟨r, hr, rfl⟩ := hkey k hk
      exact h.valid r hr
    · obtain ⟨r, hr, rfl⟩ := hkey k hk
      exact fits_of_short (h.valid r hr) (h.short r hr)
  obtain ⟨k, hk, hnew⟩ := keyBetween_of_fits ⟨(hrow hleft).1, (hrow hright).1, hlt⟩
    (hrow hleft).2 (hrow hright).2
  exact ⟨k, by rw [fractKeyBetween, hk], hnew⟩

/-- There is a key between any two keys of the table. -/
theorem OrderedTable.WF.exists_key (h : o.WF rows) (left right : Option Str)
    (hleft : ∀ k ∈ left, ∃ r ∈ rows, r.order = k) (hright : ∀ k ∈ right, ∃ r ∈ rows, r.order = k)
    (hlt : ∀ k ∈ left, ∀ l ∈ right, k.bytes < l.bytes) :
    ∃ k, fractKeyBetween left right = some k ∧ Within left right k := by
  obtain ⟨k, hk, hnew⟩ := h.exists_newKey left right hleft hright hlt
  exact ⟨k, hk, hnew.within⟩

/-- A row that is found by its primary key is the only one. -/
theorem OrderedTable.WF.agree_iff (h : o.WF rows) (hx : rows[x]? = some anchor)
    (hafter : ∀ p ∈ o.pks, after p = o.value anchor p)
    (hkey : ∀ p ∈ o.pks, o.value anchor p ≠ .null) {j : Nat} {r : OrderedRow}
    (hr : rows[j]? = some r) : Agree o.pks (o.value r) after ↔ j = x := by
  have hself : Agree o.pks after (o.value anchor) := fun p hp => by
    rw [hafter p hp]
    exact sqlEq_refl (hkey p hp)
  constructor
  · intro hagree
    by_contra hne
    exact uniqueKeys_iff.mp h.unique hr hx hne (hagree.trans hself)
  · rintro rfl
    rw [hr] at hx
    obtain rfl := Option.some.inj hx
    exact hself.symm

/-- A row is found by its primary key. -/
theorem OrderedTable.WF.find?_agree (h : o.WF rows) (hx : rows[x]? = some anchor)
    (hafter : ∀ p ∈ o.pks, after p = o.value anchor p)
    (hkey : ∀ p ∈ o.pks, o.value anchor p ≠ .null) :
    (rows.find? fun r => Agree o.pks (o.value r) after) = some anchor := by
  cases hfound : rows.find? fun r => Agree o.pks (o.value r) after with
  | none =>
      have hno := List.find?_eq_none.mp hfound anchor (List.mem_of_getElem? hx)
      exact absurd ((h.agree_iff hx hafter hkey hx).mpr rfl) (by simpa using hno)
  | some r =>
      have hr : Agree o.pks (o.value r) after := by simpa using List.find?_some hfound
      obtain ⟨j, hj⟩ := List.mem_iff_getElem?.mp (List.mem_of_find?_eq_some hfound)
      obtain rfl := (h.agree_iff hx hafter hkey hj).mp hr
      rw [← hj, hx]

end Rows

section Fix

variable {o : OrderedTable} {rows : List OrderedRow} {x : Nat} {anchor : OrderedRow}
  {after : Text → SqlValue}

/-- When the second statement is SQL: with one key column, with a collection column, and
for a table that has not the name of the inner query. -/
def OrderedTable.CanFix (o : OrderedTable) : Prop :=
  o.pks.length = 1 ∧ o.collection ≠ [] ∧ fold o.table ≠ fold innerName

instance (o : OrderedTable) : Decidable o.CanFix :=
  inferInstanceAs (Decidable (_ ∧ _ ∧ _))

/-- Where the conflict cannot be fixed the statement cannot be prepared. -/
theorem prepareUpdate_eq_none (h : ¬ o.CanFix) : prepareUpdate o (o.fixCall after) = none := by
  unfold prepareUpdate OrderedTable.fixCall
  simp only [readPredicates_pkPredicates]
  by_cases hpk : o.pks.length = 1
  · obtain ⟨p, hp⟩ := List.length_eq_one_iff.mp hpk
    by_cases hne : o.collection = []
    · simp [hp, hne, listColumns, List.intercalate, readColumns]
    · have ht : fold o.table = fold innerName := by
        by_contra ht
        exact h ⟨hpk, hne, ht⟩
      have hjoin := resolveJoin_ambiguous ht o.collection_subset hne
      simp [hp, readColumns_listColumns hne, readJoin_listJoinPredicates hne, hjoin]
  · match hpks : o.pks with
    | [] => exact absurd hpks o.pks_ne_nil
    | [p] => exact absurd (by rw [hpks]; rfl) hpk
    | p :: q :: pks => rfl

/-- Where its second statement is no SQL, the function fails. -/
theorem fixConflict_eq_none (h : ¬ o.CanFix) : fixConflict o (o.fixCall after) rows = none := by
  unfold fixConflict
  rw [prepareUpdate_eq_none h]
  cases prepareSelect (o.fixCall after) with
  | none => rfl
  | some predicates =>
      simp only [Option.bind_eq_bind, Option.bind_some]
      cases rows.find? fun r => Matches o predicates (o.fixCall after).pkValues r <;> rfl

/-- The second statement of a table with one key column. -/
def OrderedTable.fixUpdate (o : OrderedTable) (p : Text) : FixUpdate :=
  ⟨[(p, 1)], o.collection, o.collection.map fun c => ((0, c), (1, c))⟩

/-- Where it can, the statement means what it is written for. -/
theorem prepareUpdate_eq_some (h : o.CanFix) {p : Text} (hp : o.pks = [p]) :
    prepareUpdate o (o.fixCall after) = some (o.fixUpdate p) := by
  have hjoin := resolveJoin_eq h.2.2 o.collection_subset (List.Subset.refl o.collection)
  unfold prepareUpdate OrderedTable.fixCall OrderedTable.fixUpdate
  simp [readPredicates_pkPredicates, hp, readColumns_listColumns h.2.1,
    readJoin_listJoinPredicates h.2.1, hjoin]

/-- The statement finds the row of the primary key. -/
theorem matches_iff {p : Text} (hp : o.pks = [p]) (r : OrderedRow) :
    Matches o (o.fixUpdate p).predicates (o.fixCall after).pkValues r ↔ Agree o.pks (o.value r) after := by
  simp [Matches, Agree, OrderedTable.fixCall, OrderedTable.fixUpdate, hp]

/-- The join holds in the row's own list. -/
theorem joinHolds_iff (p : Text) (r t : OrderedRow) :
    JoinHolds o (o.fixUpdate p).join r t ↔
      Agree o.collection (o.value r) (o.value t) := by
  simp [JoinHolds, Agree, OrderedTable.fixUpdate]

/-- A new order key does not change the values in other columns. -/
theorem value_order {c : Text} (hc : c ≠ o.orderCol) (r : OrderedRow) (key : Str) :
    o.value { r with order := key } c = o.value r c := by
  simp [OrderedTable.value, hc]

/-- A row with the order key of another row of its list, so that the order column alone is no
key. -/
theorem OrderedTable.WF.ne_orderCol (h : o.WF rows) {p : Text} (hp : o.pks = [p])
    (hx : rows[x]? = some anchor) {j : Nat} {r : OrderedRow} (hr : rows[j]? = some r)
    (hj : j ≠ x) (horder : r.order = anchor.order) : p ≠ o.orderCol := by
  rintro rfl
  have hkey : ∀ q ∈ o.pks, o.value anchor q ≠ .null := by
    simp [hp, OrderedTable.value]
  refine hj ((h.agree_iff hx (fun _ _ => rfl) hkey hr).mp ?_)
  simp [Agree, hp, OrderedTable.value, horder, SqlValue.Eq]

/-- An anchor that its values in the key columns find. -/
structure IsAnchor (o : OrderedTable) (rows : List OrderedRow) (after : Text → SqlValue) (x : Nat)
    (anchor : OrderedRow) : Prop where
  at_x : rows[x]? = some anchor
  after_eq : ∀ p ∈ o.pks, after p = o.value anchor p
  ne_null : ∀ p ∈ o.pks, o.value anchor p ≠ .null

theorem IsAnchor.mem (ha : IsAnchor o rows after x anchor) : anchor ∈ rows :=
  List.mem_of_getElem? ha.at_x

/-- The keys that the statement looks for are those below the anchor in its list. -/
theorem keyBelow_spec (h : o.WF rows) (ha : IsAnchor o rows after x anchor) {p : Text}
    (hp : o.pks = [p]) :
    (∀ k ∈ keyBelow o (o.fixUpdate p) (o.fixCall after).pkValues anchor.order rows,
      k.bytes < anchor.order.bytes ∧ ∃ r ∈ rows, r.order = k) ∧
    ∀ r ∈ rows, Agree o.collection (o.value r) (o.value anchor) →
      r.order.bytes < anchor.order.bytes →
        ∃ k, keyBelow o (o.fixUpdate p) (o.fixCall after).pkValues anchor.order rows = some k ∧
          r.order.bytes ≤ k.bytes := by
  refine ⟨fun k hk => ?_, fun r hr hlist hlt => ?_⟩
  · obtain ⟨r, hr, rfl⟩ := List.mem_map.mp (greatest_mem hk)
    obtain ⟨hr, hlt⟩ := List.mem_filter.mp hr
    exact ⟨(of_decide_eq_true hlt).1, r, hr, rfl⟩
  · have hmem : r.order ∈ (rows.filter fun r => r.order.bytes < anchor.order.bytes ∧
        ∃ t ∈ rows, Matches o (o.fixUpdate p).predicates (o.fixCall after).pkValues t ∧
          JoinHolds o (o.fixUpdate p).join r t).map OrderedRow.order := by
      refine List.mem_map_of_mem (List.mem_filter.mpr ⟨hr, decide_eq_true ⟨hlt, anchor, ha.mem, ?_⟩⟩)
      exact ⟨(matches_iff hp anchor).mpr
        ((h.agree_iff ha.at_x ha.after_eq ha.ne_null ha.at_x).mpr rfl),
        (joinHolds_iff p r anchor).mpr hlist⟩
    cases hk : keyBelow o (o.fixUpdate p) (o.fixCall after).pkValues anchor.order rows with
    | none =>
        rw [keyBelow, greatest_eq_none_iff] at hk
        rw [hk] at hmem
        exact absurd hmem List.not_mem_nil
    | some k => exact ⟨k, rfl, not_lt.mp (not_greatest_lt hk hmem)⟩

/-- The statement changes the order key of the anchor, and of no other row. -/
theorem fixRows_eq (h : o.WF rows) (ha : IsAnchor o rows after x anchor) {p : Text}
    (hp : o.pks = [p]) (key : Str) :
    (rows.map fun r => if Matches o (o.fixUpdate p).predicates (o.fixCall after).pkValues r then
      { r with order := key } else r) = rows.modify x fun r => { r with order := key } := by
  apply List.ext_getElem?
  intro j
  rw [List.getElem?_map, List.getElem?_modify]
  cases hr : rows[j]? with
  | none => rfl
  | some r =>
      simp only [Option.map_some, matches_iff hp,
        h.agree_iff ha.at_x ha.after_eq ha.ne_null hr, eq_comm (a := x)]
      rfl

/-- A new order key does not matter to the primary keys. -/
theorem uniqueKeys_modify (h : o.UniqueKeys rows) {p : Text} (hp : o.pks = [p])
    (hne : p ≠ o.orderCol) (key : Str) :
    o.UniqueKeys (rows.modify x fun r => { r with order := key }) := by
  have hvalue : ∀ {j : Nat} {r : OrderedRow},
      (rows.modify x fun r => { r with order := key })[j]? = some r →
        ∃ s, rows[j]? = some s ∧ o.value r p = o.value s p := by
    intro j r hr
    rw [List.getElem?_modify] at hr
    obtain ⟨s, hs, rfl⟩ := Option.map_eq_some_iff.mp hr
    refine ⟨s, hs, ?_⟩
    split
    · exact value_order hne s key
    · rfl
  refine uniqueKeys_iff.mpr fun {i j r s} hr hs hij hagree => ?_
  obtain ⟨r', hr', hrp⟩ := hvalue hr
  obtain ⟨s', hs', hsp⟩ := hvalue hs
  refine uniqueKeys_iff.mp h hr' hs' hij ?_
  simpa [Agree, hp, hrp, hsp] using hagree

/-- The anchor gets a key below its own and above the lower keys of its list. -/
theorem fixConflict_spec (hcan : o.CanFix) (h : o.WF rows) (ha : IsAnchor o rows after x anchor)
    {p : Text} (hp : o.pks = [p]) (hne : p ≠ o.orderCol) :
    ∃ key, fixConflict o (o.fixCall after) rows =
        some (rows.modify x fun r => { r with order := key }, anchor.order) ∧
      (∃ i f, Parts key i f) ∧ key.bytes < anchor.order.bytes ∧
      ∀ r ∈ rows, Agree o.collection (o.value r) (o.value anchor) →
        r.order.bytes < anchor.order.bytes → r.order.bytes < key.bytes := by
  have hselect : prepareSelect (o.fixCall after) = some (o.fixUpdate p).predicates := by
    rw [prepareSelect, readPredicates_pkPredicates]
    simp [OrderedTable.fixCall, OrderedTable.fixUpdate, hp]
  have hfind : (rows.find? fun r => Matches o (o.fixUpdate p).predicates (o.fixCall after).pkValues r) =
      some anchor := by
    simpa only [matches_iff hp] using h.find?_agree ha.at_x ha.after_eq ha.ne_null
  obtain ⟨hbelow, habove⟩ := keyBelow_spec h ha hp
  obtain ⟨key, hkey, hparts, hwithin, -⟩ := h.exists_newKey _ (some anchor.order)
    (fun k hk => (hbelow k hk).2) (fun k hk => ⟨anchor, ha.mem, Option.some.inj hk⟩)
    (fun k hk l hl => by
      obtain rfl := Option.some.inj hl
      exact (hbelow k hk).1)
  refine ⟨key, ?_, hparts, hwithin.2 _ rfl, fun r hr hlist hlt => ?_⟩
  · have hunique := uniqueKeys_modify (x := x) h.unique hp hne key
    have hrows := fixRows_eq h ha hp key
    simp [fixConflict, hselect, hfind, prepareUpdate_eq_some hcan hp, hkey, hrows,
      OrderedTable.checked, hunique]
  · obtain ⟨k, hk, hle⟩ := habove r hr hlist hlt
    exact lt_of_le_of_lt hle (hwithin.1 k hk)

end Fix

end CrSqlite.Ordered
