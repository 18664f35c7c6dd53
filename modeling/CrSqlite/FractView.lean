import CrSqlite.FractConflict

/-!
# FractView - placing a row behind another one

The view of an ordered table (core/rs/fractindex-core/src/fractindex_view.rs) has a column
`after_*` for each key column.  Its two triggers insert a row, or move one, behind the row
that these columns name: a row with an order key of its own is followed by a key between it
and the next one, and a row that shares its key gets out of the way.

Main results:

- Theorem {lit}`write_spec`: a written row stands at its place, and the others stay.
- Theorem {lit}`place_unique` and {lit}`place_shared`: where the new row comes to stand.
- Theorem {lit}`places_behind_iff`: exactly when the row stands right behind the other one
  and nothing else has changed its place.
-/

namespace CrSqlite.Ordered

open FractIndex SqlText

/-! ## The triggers of the view -/

/-- What is written to the view: a new row, or the row with the key of `NEW`. -/
inductive Placement where
  | insert
  | move
deriving DecidableEq

namespace OrderedTable

/-- The names that a trigger prints without doubling their quotes; the triggers on the table
print the collection columns so. -/
def rawNames (o : OrderedTable) : Placement → List Text
  | .insert => o.collection
  | .move => o.table :: o.orderCol :: o.columns

/-- The statement of the trigger and the triggers that it fires can be prepared: a name with
a double quote is read as another name, which nothing has, and the triggers on the table
use `_rowid_`. -/
def Runs (o : OrderedTable) (kind : Placement) : Prop :=
  o.rowidVisible = true ∧ ∀ n ∈ o.rawNames kind, doubleQuote ∉ n

instance (o : OrderedTable) (kind : Placement) : Decidable (o.Runs kind) :=
  inferInstanceAs (Decidable (_ ∧ _))

/-- The rows of the list that `NEW` belongs to. -/
def list (o : OrderedTable) (new : Text → SqlValue) (rows : List OrderedRow) : List OrderedRow :=
  rows.filter fun r => Agree o.collection (o.value r) new

/-- The order key of the row that the columns `after_*` name. -/
def anchorKey (o : OrderedTable) (after : Text → SqlValue) (rows : List OrderedRow) :
    Option Str :=
  (rows.find? fun r => Agree o.pks (o.value r) after).map OrderedRow.order

/-- The next order key of the list. -/
def keyAbove (o : OrderedTable) (new : Text → SqlValue) (key : Option Str)
    (rows : List OrderedRow) : Option Str :=
  smallest (((o.list new rows).filter fun r =>
    key.any fun k => k.bytes < r.order.bytes).map OrderedRow.order)

/-- The CASE of both triggers: the order key of the row, or none for -1. -/
def orderBehind (o : OrderedTable) (new after : Text → SqlValue) (rows : List OrderedRow) :
    Option (List OrderedRow × Option Str) :=
  let key := o.anchorKey after rows
  match (o.list new rows).countP fun r => some r.order = key with
  | 1 => (fractKeyBetween key (o.keyAbove new key rows)).map fun k => (rows, some k)
  | 0 => some (rows, none)
  | _ => (readArgs (o.fixArgs after)).bind fun a =>
      (fixConflict o a rows).map fun (rows, k) => (rows, some k)

/-- The rows besides the one that is written. -/
def others (o : OrderedTable) (new : Text → SqlValue) (rows : List OrderedRow) :
    Placement → List OrderedRow
  | .insert => rows
  | .move => rows.filter fun r => ¬ Agree o.pks (o.value r) new

/-- The key that the triggers on the table put in the place of -1.  No other row has -1 or 1,
which they leave out. -/
def frontKey (o : OrderedTable) (kind : Placement) (new : Text → SqlValue)
    (rows : List OrderedRow) : Option Str :=
  fractKeyBetween none
    (smallest ((o.list new (o.others new rows kind)).map OrderedRow.order))

/-- The write to the table. -/
def write (o : OrderedTable) (kind : Placement) (new : Text → SqlValue) (key : Str)
    (rows : List OrderedRow) : Option (List OrderedRow) :=
  match kind with
  | .insert => o.checked (rows ++ [⟨new, key⟩])
  | .move => o.checked (rows.map fun r => if Agree o.pks (o.value r) new then ⟨new, key⟩ else r)

/-- The triggers `_fractindex_insert_trig` and `_fractindex_update_trig`.  An UPDATE that finds
no row computes nothing. -/
def place (o : OrderedTable) (kind : Placement) (new after : Text → SqlValue)
    (rows : List OrderedRow) : Option (List OrderedRow) :=
  if ¬ o.Runs kind then none
  else if kind = .move ∧ ∀ r ∈ rows, ¬ Agree o.pks (o.value r) new then some rows
  else do
    let (rows, key) ← o.orderBehind new after rows
    let key ← key.or (o.frontKey kind new rows)
    o.write kind new key rows

/-! ## What a placement is to do -/

/-- A row stands right behind another one of its list. -/
structure Behind (o : OrderedTable) (rows : List OrderedRow) (x y : Nat) : Prop where
  exists_rows : ∃ a b, rows[x]? = some a ∧ rows[y]? = some b ∧
    Agree o.collection (o.value b) (o.value a) ∧ a.order.bytes < b.order.bytes ∧
    ∀ (z : Nat) (c : OrderedRow), rows[z]? = some c → Agree o.collection (o.value c) (o.value a) →
      ¬ (a.order.bytes < c.order.bytes ∧ c.order.bytes < b.order.bytes)

/-- The rows of a list besides the placed one are in the order they were in. -/
def KeepsOrder (o : OrderedTable) (rows rows' : List OrderedRow) (y : Nat) : Prop :=
  ∀ i j r s, i ≠ y → j ≠ y → rows[i]? = some r → rows[j]? = some s →
    Agree o.collection (o.value r) (o.value s) → r.order.bytes < s.order.bytes →
      ∃ r' s', rows'[i]? = some r' ∧ rows'[j]? = some s' ∧ r'.order.bytes < s'.order.bytes

/-- A row `y` to be placed behind the row `x` of a list: a new row of the list, or another
row that comes to be in it.  Its primary key is no other row's. -/
structure Placing (o : OrderedTable) (kind : Placement) (new after : Text → SqlValue)
    (rows : List OrderedRow) (x y : Nat) (anchor : OrderedRow) : Prop where
  at_x : rows[x]? = some anchor
  after_eq : ∀ p ∈ o.pks, after p = o.value anchor p
  same_list : Agree o.collection new (o.value anchor)
  inserted : kind = .insert → y = rows.length
  moved : kind = .move → y ≠ x ∧ ∃ r, rows[y]? = some r ∧ ∀ p ∈ o.pks, new p = o.value r p
  fresh : ∀ key j r, rows[j]? = some r → j ≠ y →
    ¬ Agree o.pks (o.value r) (o.value ⟨new, key⟩)

/-- Another row of the list has the order key of the anchor. -/
def Shared (o : OrderedTable) (rows : List OrderedRow) (x : Nat) (anchor : OrderedRow) : Prop :=
  ∃ j ≠ x, ∃ r, rows[j]? = some r ∧ Agree o.collection (o.value r) (o.value anchor) ∧
    r.order = anchor.order

/-- When the row comes to stand right behind the anchor: the statements can be prepared, the
key of the anchor finds it, and the anchor has its order key for itself or can get out of the
way.  An UPDATE that finds no row leaves all rows where they are. -/
def PlacesBehind (o : OrderedTable) (kind : Placement) (new : Text → SqlValue)
    (rows : List OrderedRow) (x y : Nat) (anchor : OrderedRow) : Prop :=
  o.Runs kind ∧
    if kind = .move ∧ ∃ p ∈ o.pks, new p = .null then o.Behind rows x y
    else (∀ p ∈ o.pks, o.value anchor p ≠ .null) ∧ (¬ o.Shared rows x anchor ∨ o.CanFix)

/-! ## The write -/

section Write

variable {o : OrderedTable} {kind : Placement} {new after : Text → SqlValue} {rows : List OrderedRow}
  {x y : Nat} {anchor : OrderedRow}

/-- The place of the written row, whose primary key is no other row's. -/
structure Writable (o : OrderedTable) (kind : Placement) (new : Text → SqlValue)
    (rows : List OrderedRow) (y : Nat) : Prop where
  unique : o.UniqueKeys rows
  inserted : kind = .insert → y = rows.length
  moved : kind = .move → ∃ r, rows[y]? = some r ∧ Agree o.pks (o.value r) new
  fresh : ∀ key j r, rows[j]? = some r → j ≠ y →
    ¬ Agree o.pks (o.value r) (o.value ⟨new, key⟩)

/-- A row that an UPDATE finds has its key for every order key that it might get. -/
theorem agree_new {r : OrderedRow} (h : Agree o.pks (o.value r) new) :
    Agree o.pks (o.value r) (o.value ⟨new, r.order⟩) := by
  intro p hp
  by_cases hcol : p = o.orderCol
  · subst hcol
    exact ⟨by simp [value], by simp [value]⟩
  · have hnew := h p hp
    simpa [value, hcol] using hnew

/-- A row that can be written is written at its place, and the others stay. -/
theorem Writable.getElem?_write (h : Writable o kind new rows y) (key : Str) :
    ∃ rows', (∀ j, rows'[j]? = if j = y then some ⟨new, key⟩ else rows[j]?) ∧
      o.write kind new key rows = o.checked rows' := by
  cases kind with
  | insert =>
      obtain rfl := h.inserted rfl
      refine ⟨_, fun j => ?_, rfl⟩
      rcases Nat.lt_trichotomy j rows.length with hlt | rfl | hgt
      · rw [List.getElem?_append_left hlt, if_neg (Nat.ne_of_lt hlt)]
      · simp
      · rw [if_neg (Nat.ne_of_gt hgt), List.getElem?_eq_none (Nat.le_of_lt hgt),
          List.getElem?_eq_none (by simp; omega)]
  | move =>
      refine ⟨_, fun j => ?_, rfl⟩
      obtain ⟨r, hr, hagree⟩ := h.moved rfl
      rw [List.getElem?_map]
      by_cases hj : j = y
      · subst hj
        rw [hr, if_pos rfl, Option.map_some, if_pos hagree]
      · rw [if_neg hj]
        cases hs : rows[j]? with
        | none => rfl
        | some s =>
            have hne : ¬ Agree o.pks (o.value s) new := fun hs' =>
              h.fresh s.order j s hs hj (agree_new hs')
            rw [Option.map_some, if_neg hne]

/-- A written row stands at its place, and the others stay. -/
theorem Writable.write_spec (h : Writable o kind new rows y) (key : Str) :
    ∃ rows', o.write kind new key rows = some rows' ∧
      ∀ j, rows'[j]? = if j = y then some ⟨new, key⟩ else rows[j]? := by
  obtain ⟨rows', hrows', hwrite⟩ := h.getElem?_write key
  refine ⟨rows', ?_, hrows'⟩
  have hunique : o.UniqueKeys rows' := by
    refine uniqueKeys_iff.mpr fun {i j r s} hr hs hij hagree => ?_
    rw [hrows'] at hr hs
    split at hr
    next hi =>
      obtain rfl := Option.some.inj hr
      rw [if_neg fun hj => hij (hi.trans hj.symm)] at hs
      exact h.fresh key j s hs (fun hj => hij (hi.trans hj.symm)) hagree.symm
    next hi =>
      split at hs
      next hj =>
        obtain rfl := Option.some.inj hs
        exact h.fresh key i r hr hi hagree
      next hj => exact uniqueKeys_iff.mp h.unique hr hs hij hagree
  rw [hwrite, checked, if_pos hunique]

/-- The anchor is not the row that is placed. -/
theorem Placing.ne (hp : o.Placing kind new after rows x y anchor) : x ≠ y := by
  cases hk : kind with
  | insert =>
      rw [hp.inserted hk]
      exact Nat.ne_of_lt (List.getElem?_eq_some_iff.mp hp.at_x).1
  | move => exact (hp.moved hk).1.symm

/-- A placed row can be written, unless it is a moved row with a NULL in its key. -/
theorem Placing.writable (h : o.WF rows) (hp : o.Placing kind new after rows x y anchor)
    (hnull : ¬ (kind = .move ∧ ∃ p ∈ o.pks, new p = .null)) : Writable o kind new rows y where
  unique := h.unique
  inserted := hp.inserted
  moved hk := by
    obtain ⟨-, r, hr, hnew⟩ := hp.moved hk
    refine ⟨r, hr, fun p hpk => ?_⟩
    rw [hnew p hpk]
    refine sqlEq_refl fun hnone => hnull ⟨hk, p, hpk, ?_⟩
    rw [hnew p hpk, hnone]
  fresh := hp.fresh

/-- A moved row with a NULL in its key is not found. -/
theorem not_found (hnull : ∃ p ∈ o.pks, new p = .null) (r : OrderedRow) : ¬ Agree o.pks (o.value r) new := by
  obtain ⟨p, hpk, hnone⟩ := hnull
  intro hagree
  exact (sqlEq_symm (hagree p hpk)).1 hnone

end Write

/-! ## The order key -/

section Key

variable {o : OrderedTable} {kind : Placement} {new after : Text → SqlValue} {rows : List OrderedRow}
  {x y : Nat} {anchor : OrderedRow}

theorem smallest_mem {keys : List Str} {m : Str} (h : smallest keys = some m) : m ∈ keys :=
  List.argmin_mem h

/-- No key is below the smallest one. -/
theorem not_lt_smallest {keys : List Str} {m k : Str} (h : smallest keys = some m)
    (hk : k ∈ keys) : ¬ k.bytes < m.bytes :=
  List.not_lt_of_mem_argmin hk h

/-- A list with a key has a smallest one. -/
theorem exists_smallest {keys : List Str} {k : Str} (hk : k ∈ keys) :
    ∃ m, smallest keys = some m ∧ ¬ k.bytes < m.bytes := by
  cases hm : smallest keys with
  | none =>
      rw [List.argmin_eq_none.mp hm] at hk
      exact absurd hk List.not_mem_nil
  | some m => exact ⟨m, rfl, not_lt_smallest hm hk⟩

theorem mem_list_iff {r : OrderedRow} :
    r ∈ o.list new rows ↔ r ∈ rows ∧ Agree o.collection (o.value r) new := by
  simp [list]

/-- One element of a list is there anyway; it is the only one of its kind or there is another. -/
theorem countP_eq_one_iff {α : Type} {p : α → Bool} {l : List α} {i : Nat} {a : α}
    (hi : l[i]? = some a) (ha : p a = true) :
    0 < l.countP p ∧ (l.countP p = 1 ↔ ∀ j b, j ≠ i → l[j]? = some b → p b = false) := by
  induction l generalizing i with
  | nil => cases hi
  | cons c l ih =>
      cases i with
      | zero =>
          obtain rfl : c = a := Option.some.inj hi
          rw [List.countP_cons_of_pos ha]
          refine ⟨Nat.succ_pos _, ?_⟩
          rw [Nat.add_eq_right, List.countP_eq_zero]
          constructor
          · intro h j b hj hb
            obtain ⟨k, rfl⟩ := Nat.exists_eq_succ_of_ne_zero hj
            simpa using h b (List.mem_of_getElem? hb)
          · intro h b hb
            obtain ⟨k, hk⟩ := List.mem_iff_getElem?.mp hb
            simp [h (k + 1) b (Nat.succ_ne_zero k) hk]
      | succ i =>
          obtain ⟨hpos, hiff⟩ := ih hi
          cases hc : p c with
          | true =>
              rw [List.countP_cons_of_pos hc]
              refine ⟨Nat.succ_pos _, iff_of_false (by omega) fun h => ?_⟩
              rw [h 0 c (Nat.succ_ne_zero i).symm rfl] at hc
              cases hc
          | false =>
              rw [List.countP_cons_of_neg (by simp [hc])]
              refine ⟨hpos, hiff.trans ⟨fun h j b hj hb => ?_, fun h j b hj hb => ?_⟩⟩
              · cases j with
                | zero =>
                    obtain rfl : c = b := Option.some.inj hb
                    exact hc
                | succ j => exact h j b (fun heq => hj (congrArg Nat.succ heq)) hb
              · exact h (j + 1) b (fun heq => hj (Nat.succ.inj heq)) hb

/-- The key of the anchor is found. -/
theorem anchorKey_eq_some (h : o.WF rows) (ha : IsAnchor o rows after x anchor) :
    o.anchorKey after rows = some anchor.order := by
  rw [anchorKey, h.find?_agree ha.at_x ha.after_eq ha.ne_null, Option.map_some]

/-- A key with a NULL finds no row. -/
theorem anchorKey_eq_none (hafter : ∀ p ∈ o.pks, after p = o.value anchor p)
    (hnull : ∃ p ∈ o.pks, o.value anchor p = .null) : o.anchorKey after rows = none := by
  obtain ⟨p, hp, hnone⟩ := hnull
  have hnot : ∀ r ∈ rows, ¬ Agree o.pks (o.value r) after := fun r _ =>
    not_found ⟨p, hp, by rw [hafter p hp, hnone]⟩ r
  rw [anchorKey, List.find?_eq_none.mpr (by simpa using hnot), Option.map_none]

/-- The anchor is counted, and is alone exactly when its key is not shared. -/
theorem count_anchor (hp : o.Placing kind new after rows x y anchor) :
    0 < (o.list new rows).countP (fun r => some r.order = some anchor.order) ∧
      ((o.list new rows).countP (fun r => some r.order = some anchor.order) = 1 ↔
        ¬ o.Shared rows x anchor) := by
  rw [list, List.countP_filter]
  have hself : (decide (some anchor.order = some anchor.order) &&
      decide (Agree o.collection (o.value anchor) new)) = true := by
    simpa using hp.same_list.symm
  obtain ⟨hpos, hiff⟩ := countP_eq_one_iff
    (p := fun r : OrderedRow => decide (some r.order = some anchor.order) &&
      decide (Agree o.collection (o.value r) new)) hp.at_x hself
  refine ⟨hpos, hiff.trans ?_⟩
  simp only [Shared, not_exists, not_and, Bool.and_eq_false_iff, decide_eq_false_iff_not,
    Option.some.injEq]
  constructor
  · intro h j hj r hr hlist horder
    exact (h j r hj hr).elim (fun hne => hne horder)
      fun hne => hne (hlist.trans hp.same_list.symm)
  · intro h j r hj hr
    by_contra hboth
    rw [not_or, not_not, not_not] at hboth
    exact h j hj r hr (hboth.2.trans hp.same_list) hboth.1

/-- Without a row that the key of the anchor finds, the order key is -1. -/
theorem orderBehind_null (hafter : ∀ p ∈ o.pks, after p = o.value anchor p)
    (hnull : ∃ p ∈ o.pks, o.value anchor p = .null) :
    o.orderBehind new after rows = some (rows, none) := by
  simp [orderBehind, anchorKey_eq_none hafter hnull]

/-- Behind an anchor with a key of its own the new key is between its key and the next one. -/
theorem orderBehind_unique (h : o.WF rows) (hp : o.Placing kind new after rows x y anchor)
    (ha : IsAnchor o rows after x anchor) (hunique : ¬ o.Shared rows x anchor) :
    o.orderBehind new after rows =
      (fractKeyBetween (some anchor.order) (o.keyAbove new (some anchor.order) rows)).map
        fun k => (rows, some k) := by
  rw [orderBehind, anchorKey_eq_some h ha]
  simp only [(count_anchor hp).2.mpr hunique]

/-- Behind an anchor with a shared key the conflict is fixed first. -/
theorem orderBehind_shared (h : o.WF rows) (hp : o.Placing kind new after rows x y anchor)
    (ha : IsAnchor o rows after x anchor) (hshared : o.Shared rows x anchor) :
    o.orderBehind new after rows =
      (fixConflict o (o.fixCall after) rows).map fun (rows, k) => (rows, some k) := by
  obtain ⟨hpos, hone⟩ := count_anchor hp
  rw [orderBehind, anchorKey_eq_some h ha, readArgs_fixArgs]
  split
  next hcount => exact absurd hshared (hone.mp hcount)
  next hcount => exact absurd hcount (Nat.ne_of_gt hpos)
  next => rfl

/-- The next key is above the one of the anchor, and not above other greater ones. -/
theorem exists_key_above (h : o.WF rows) (hx : anchor ∈ rows)
    (hlist : Agree o.collection new (o.value anchor)) :
    ∃ k, fractKeyBetween (some anchor.order) (o.keyAbove new (some anchor.order) rows) = some k ∧
      anchor.order.bytes < k.bytes ∧
      ∀ r ∈ rows, Agree o.collection (o.value r) (o.value anchor) →
        anchor.order.bytes < r.order.bytes → ¬ r.order.bytes < k.bytes := by
  have hmem : ∀ {k : Str}, k ∈ (((o.list new rows).filter fun r =>
      (some anchor.order).any fun k => k.bytes < r.order.bytes).map OrderedRow.order) →
      ∃ r ∈ rows, anchor.order.bytes < r.order.bytes ∧ r.order = k := by
    intro k hk
    obtain ⟨r, hr, rfl⟩ := List.mem_map.mp hk
    obtain ⟨hr, hlt⟩ := List.mem_filter.mp hr
    exact ⟨r, (mem_list_iff.mp hr).1, by simpa using hlt, rfl⟩
  obtain ⟨k, hk, hwithin⟩ := h.exists_key (some anchor.order)
    (o.keyAbove new (some anchor.order) rows)
    (fun k hk => ⟨anchor, hx, Option.some.inj hk⟩)
    (fun k hk => by
      obtain ⟨r, hr, -, heq⟩ := hmem (smallest_mem hk)
      exact ⟨r, hr, heq⟩)
    (fun k hk l hl => by
      obtain rfl := Option.some.inj hk
      obtain ⟨r, -, hlt, rfl⟩ := hmem (smallest_mem hl)
      exact hlt)
  refine ⟨k, hk, hwithin.1 _ rfl, fun r hr hagree hlt hrk => ?_⟩
  have hrmem : r.order ∈ (((o.list new rows).filter fun r =>
      (some anchor.order).any fun k => k.bytes < r.order.bytes).map OrderedRow.order) :=
    List.mem_map_of_mem (List.mem_filter.mpr
      ⟨mem_list_iff.mpr ⟨hr, hagree.trans hlist.symm⟩, by simpa using hlt⟩)
  obtain ⟨m, hm, hle⟩ := exists_smallest hrmem
  exact hle (lt_trans hrk (hwithin.2 m hm))

/-- The key that stands for -1 is below the one of the anchor. -/
theorem frontKey_lt (h : o.WF rows) (hp : o.Placing kind new after rows x y anchor) {k : Str}
    (hk : o.frontKey kind new rows = some k) : k.bytes < anchor.order.bytes := by
  have hanchor : anchor ∈ rows := List.mem_of_getElem? hp.at_x
  have hsub : ∀ r ∈ o.others new rows kind, r ∈ rows := by
    intro r hr
    cases kind with
    | insert => exact hr
    | move => exact (List.mem_filter.mp hr).1
  have hothers : anchor ∈ o.others new rows kind := by
    cases hkind : kind with
    | insert => exact hanchor
    | move =>
        refine List.mem_filter.mpr ⟨hanchor, decide_eq_true fun hagree => ?_⟩
        exact hp.fresh anchor.order x anchor hp.at_x hp.ne (agree_new hagree)
  have hmem : anchor.order ∈ (o.list new (o.others new rows kind)).map OrderedRow.order :=
    List.mem_map_of_mem (mem_list_iff.mpr ⟨hothers, hp.same_list.symm⟩)
  obtain ⟨m, hm, hle⟩ := exists_smallest hmem
  obtain ⟨k', hk', hwithin⟩ := h.exists_key none (some m) (by simp)
    (fun l hl => by
      obtain rfl := Option.some.inj hl
      obtain ⟨r, hr, heq⟩ := List.mem_map.mp (smallest_mem hm)
      exact ⟨r, hsub r (mem_list_iff.mp hr).1, heq⟩)
    (by simp)
  rw [frontKey, hm, hk'] at hk
  obtain rfl := Option.some.inj hk
  exact lt_of_lt_of_le (hwithin.2 m rfl) (not_lt.mp hle)

end Key

/-! ## The placed row -/

section Placed

variable {o : OrderedTable} {kind : Placement} {new after : Text → SqlValue} {rows : List OrderedRow}
  {x y : Nat} {anchor : OrderedRow}

/-- The list of a row does not depend on its order key. -/
theorem agree_collection_iff {r s : OrderedRow} (hcells : r.cells = s.cells)
    {v : Text → SqlValue} :
    Agree o.collection (o.value r) v ↔ Agree o.collection (o.value s) v := by
  have hvalue : ∀ c ∈ o.collection, o.value r c = o.value s c := by
    intro c hc
    have hne : c ≠ o.orderCol := fun heq => o.orderCol_notMem (heq ▸ hc)
    simp [value, hne, hcells]
  exact forall₂_congr fun c hc => by rw [hvalue c hc]

/-- The order key does not matter to the list of the new row. -/
theorem agree_collection_new {key : Str} {v : Text → SqlValue} :
    Agree o.collection (o.value ⟨new, key⟩) v ↔ Agree o.collection new v := by
  refine forall₂_congr fun c hc => ?_
  have hne : c ≠ o.orderCol := fun heq => o.orderCol_notMem (heq ▸ hc)
  simp [value, hne]

/-- A row with a key above the one of the anchor and below the greater ones of the list stands
right behind it. -/
theorem behind_of_key {rows' : List OrderedRow} {a : OrderedRow} {key : Str} (hne : x ≠ y)
    (hrows' : ∀ j, rows'[j]? = if j = y then some ⟨new, key⟩ else rows[j]?)
    (hx : rows[x]? = some a) (hlist : Agree o.collection new (o.value a))
    (hlt : a.order.bytes < key.bytes)
    (habove : ∀ r ∈ rows, Agree o.collection (o.value r) (o.value a) →
      a.order.bytes < r.order.bytes → ¬ r.order.bytes < key.bytes) : o.Behind rows' x y := by
  refine ⟨a, ⟨new, key⟩, by rw [hrows', if_neg hne, hx], by rw [hrows', if_pos rfl],
    agree_collection_new.mpr hlist, hlt, fun z c hc hagree hbetween => ?_⟩
  rw [hrows'] at hc
  split at hc
  · obtain rfl := Option.some.inj hc
    exact lt_irrefl _ hbetween.2
  · exact habove c (List.mem_of_getElem? hc) hagree hbetween.1 hbetween.2

/-- A row is placed with the key behind the anchor, or in front of the list. -/
theorem place_eq (hruns : o.Runs kind) (hw : Writable o kind new rows y) :
    o.place kind new after rows = (o.orderBehind new after rows).bind fun (rows, key) =>
      (key.or (o.frontKey kind new rows)).bind fun key => o.write kind new key rows := by
  have hfound : ¬ (kind = .move ∧ ∀ r ∈ rows, ¬ Agree o.pks (o.value r) new) := by
    rintro ⟨hk, hnone⟩
    obtain ⟨r, hr, hagree⟩ := hw.moved hk
    exact hnone r (List.mem_of_getElem? hr) hagree
  rw [place, if_neg (not_not.mpr hruns), if_neg hfound]
  rfl

/-- Behind an anchor with an order key of its own. -/
theorem place_unique (h : o.WF rows) (hp : o.Placing kind new after rows x y anchor)
    (ha : IsAnchor o rows after x anchor) (hruns : o.Runs kind)
    (hw : Writable o kind new rows y) (hunique : ¬ o.Shared rows x anchor) :
    ∃ rows', o.place kind new after rows = some rows' ∧ o.Behind rows' x y ∧
      o.KeepsOrder rows rows' y := by
  obtain ⟨key, hkey, hlt, habove⟩ := exists_key_above h ha.mem hp.same_list
  obtain ⟨rows', hwrite, hrows'⟩ := hw.write_spec key
  refine ⟨rows', ?_, behind_of_key hp.ne hrows' hp.at_x hp.same_list hlt habove, ?_⟩
  · rw [place_eq hruns hw, orderBehind_unique h hp ha hunique, hkey]
    exact hwrite
  · intro i j r s hi hj hr hs _ hlt
    exact ⟨r, s, by rw [hrows', if_neg hi, hr], by rw [hrows', if_neg hj, hs], hlt⟩

section Lowered

variable {low : Str} {p : Text}

/-- The rows after the anchor got a lower key. -/
theorem getElem?_lowered (hx : rows[x]? = some anchor) (j : Nat) :
    (rows.modify x fun r => { r with order := low })[j]? =
      if j = x then some { anchor with order := low } else rows[j]? := by
  rw [List.getElem?_modify]
  by_cases hj : j = x
  · subst hj
    simp [hx]
  · simp [hj, Ne.symm hj]

/-- A row can still be written when the anchor has a smaller key. -/
theorem Writable.lowered (hw : Writable o kind new rows y) (hx : rows[x]? = some anchor)
    (hne : x ≠ y) (hpk : o.pks = [p]) (hcol : p ≠ o.orderCol) :
    Writable o kind new (rows.modify x fun r => { r with order := low }) y where
  unique := uniqueKeys_modify hw.unique hpk hcol low
  inserted hk := by rw [hw.inserted hk, List.length_modify]
  moved hk := by
    rw [getElem?_lowered hx, if_neg hne.symm]
    exact hw.moved hk
  fresh key j r hr hj hagree := by
    rw [getElem?_lowered hx] at hr
    split at hr
    next hjx =>
      obtain rfl := Option.some.inj hr
      have hvalue := value_order hcol anchor low
      refine hw.fresh key x anchor hx hne ?_
      simpa [Agree, hpk, hvalue] using hagree
    next => exact hw.fresh key j r hr hj hagree

/-- A lower key above the other lower ones of the list changes no order. -/
theorem keepsOrder_lowered {rows' : List OrderedRow} (hx : rows[x]? = some anchor)
    (hlow : low.bytes < anchor.order.bytes)
    (hbelow : ∀ r ∈ rows, Agree o.collection (o.value r) (o.value anchor) →
      r.order.bytes < anchor.order.bytes → r.order.bytes < low.bytes)
    (hrows' : ∀ j, j ≠ y →
      rows'[j]? = (rows.modify x fun r => { r with order := low })[j]?) :
    o.KeepsOrder rows rows' y := by
  intro i j r s hi hj hr hs hlist hlt
  have hi' := (hrows' i hi).trans (getElem?_lowered hx i)
  have hj' := (hrows' j hj).trans (getElem?_lowered hx j)
  by_cases hix : i = x
  · subst hix
    obtain rfl := Option.some.inj (hx.symm.trans hr)
    have hjx : j ≠ i := by
      rintro rfl
      obtain rfl := Option.some.inj (hr.symm.trans hs)
      exact lt_irrefl _ hlt
    exact ⟨{ anchor with order := low }, s, by rw [hi', if_pos rfl], by rw [hj', if_neg hjx, hs],
      lt_trans hlow hlt⟩
  · by_cases hjx : j = x
    · subst hjx
      obtain rfl := Option.some.inj (hx.symm.trans hs)
      exact ⟨r, { anchor with order := low }, by rw [hi', if_neg hix, hr], by rw [hj', if_pos rfl],
        hbelow r (List.mem_of_getElem? hr) hlist hlt⟩
    · exact ⟨r, s, by rw [hi', if_neg hix, hr], by rw [hj', if_neg hjx, hs], hlt⟩

end Lowered

/-- Behind an anchor that gets out of the way: the placed row gets its key. -/
theorem place_shared (h : o.WF rows) (hp : o.Placing kind new after rows x y anchor)
    (ha : IsAnchor o rows after x anchor) (hruns : o.Runs kind)
    (hw : Writable o kind new rows y) (hshared : o.Shared rows x anchor) (hcan : o.CanFix) :
    ∃ rows', o.place kind new after rows = some rows' ∧ o.Behind rows' x y ∧
      o.KeepsOrder rows rows' y := by
  obtain ⟨p, hpk⟩ := List.length_eq_one_iff.mp hcan.1
  have hcol : p ≠ o.orderCol := by
    obtain ⟨j, hj, r, hr, -, horder⟩ := hshared
    exact h.ne_orderCol hpk hp.at_x hr hj horder
  obtain ⟨low, hfix, -, hlow, hbelow⟩ := fixConflict_spec hcan h ha hpk hcol
  obtain ⟨rows', hwrite, hrows'⟩ := (hw.lowered hp.at_x hp.ne hpk hcol).write_spec anchor.order
  have hcells : ∀ v : Text → SqlValue,
      Agree o.collection (o.value { anchor with order := low }) v ↔
        Agree o.collection (o.value anchor) v := fun v =>
    agree_collection_iff (r := { anchor with order := low }) (s := anchor) rfl
  refine ⟨rows', ?_, ?_, keepsOrder_lowered hp.at_x hlow hbelow fun j hj => ?_⟩
  · rw [place_eq hruns hw, orderBehind_shared h hp ha hshared, hfix]
    exact hwrite
  · refine behind_of_key hp.ne hrows' (by rw [getElem?_lowered hp.at_x, if_pos rfl])
      ((hcells new).mpr hp.same_list.symm).symm hlow fun r hr hlist hlt hgt => ?_
    obtain ⟨j, hj⟩ := List.mem_iff_getElem?.mp hr
    rw [getElem?_lowered hp.at_x] at hj
    split at hj
    · obtain rfl := Option.some.inj hj
      exact lt_irrefl _ hlt
    · have hmem := List.mem_of_getElem? hj
      have hlist' := ((hcells _).mp hlist.symm).symm
      exact lt_asymm hlt (hbelow r hmem hlist' hgt)
  · rw [hrows', if_neg hj]

/-- A key with a NULL puts the row in front of the list. -/
theorem place_null (h : o.WF rows) (hp : o.Placing kind new after rows x y anchor)
    (hruns : o.Runs kind) (hw : Writable o kind new rows y)
    (hnull : ∃ p ∈ o.pks, o.value anchor p = .null) {rows' : List OrderedRow}
    (hplace : o.place kind new after rows = some rows') : ¬ o.Behind rows' x y := by
  rw [place_eq hruns hw, orderBehind_null hp.after_eq hnull] at hplace
  simp only [Option.bind_some, Option.none_or, Option.bind_eq_some_iff] at hplace
  obtain ⟨key, hkey, hwrite⟩ := hplace
  obtain ⟨rows'', hwrite', hrows'⟩ := hw.write_spec key
  obtain rfl := Option.some.inj (hwrite.symm.trans hwrite')
  rintro ⟨a, b, ha, hb, -, hlt, -⟩
  rw [hrows', if_neg hp.ne, hp.at_x] at ha
  rw [hrows', if_pos rfl] at hb
  obtain rfl := Option.some.inj ha
  obtain rfl := Option.some.inj hb
  exact lt_asymm hlt (frontKey_lt h hp hkey)

/-- Where the conflict cannot be fixed the row cannot be placed. -/
theorem place_fails (h : o.WF rows) (hp : o.Placing kind new after rows x y anchor)
    (ha : IsAnchor o rows after x anchor) (hruns : o.Runs kind)
    (hw : Writable o kind new rows y) (hshared : o.Shared rows x anchor) (hcan : ¬ o.CanFix) :
    o.place kind new after rows = none := by
  rw [place_eq hruns hw, orderBehind_shared h hp ha hshared, fixConflict_eq_none hcan]
  rfl

/-- An UPDATE that finds no row leaves all rows where they are. -/
theorem place_not_found (hruns : o.Runs .move) (hnull : ∃ p ∈ o.pks, new p = .null) :
    o.place .move new after rows = some rows := by
  rw [place, if_neg (not_not.mpr hruns), if_pos ⟨rfl, fun r _ => not_found hnull r⟩]

/-- When a row that is inserted or moved behind another one comes to stand right behind it, and
the rows besides it keep their order. -/
theorem places_behind_iff (h : o.WF rows) (hp : o.Placing kind new after rows x y anchor) :
    (∃ rows', o.place kind new after rows = some rows' ∧ o.Behind rows' x y ∧
      o.KeepsOrder rows rows' y) ↔ o.PlacesBehind kind new rows x y anchor := by
  rw [PlacesBehind]
  by_cases hruns : o.Runs kind
  · rw [and_iff_right hruns]
    by_cases hnull : kind = .move ∧ ∃ p ∈ o.pks, new p = .null
    · obtain ⟨rfl, hnull⟩ := hnull
      rw [if_pos ⟨rfl, hnull⟩, place_not_found hruns hnull]
      constructor
      · rintro ⟨rows', heq, hbehind, -⟩
        rwa [Option.some.inj heq]
      · exact fun hbehind => ⟨rows, rfl, hbehind,
          fun i j r s _ _ hr hs _ hlt => ⟨r, s, hr, hs, hlt⟩⟩
    · rw [if_neg hnull]
      have hw := hp.writable h hnull
      by_cases hkey : ∀ p ∈ o.pks, o.value anchor p ≠ .null
      · rw [and_iff_right hkey]
        have ha : IsAnchor o rows after x anchor := ⟨hp.at_x, hp.after_eq, hkey⟩
        by_cases hshared : o.Shared rows x anchor
        · rw [or_iff_right (not_not.mpr hshared)]
          by_cases hcan : o.CanFix
          · exact iff_of_true (place_shared h hp ha hruns hw hshared hcan) hcan
          · rw [place_fails h hp ha hruns hw hshared hcan]
            simp [hcan]
        · exact iff_of_true (place_unique h hp ha hruns hw hshared) (Or.inl hshared)
      · have hnone : ∃ p ∈ o.pks, o.value anchor p = .null := by
          by_contra hnone
          exact hkey fun p hpk heq => hnone ⟨p, hpk, heq⟩
        refine iff_of_false ?_ fun hboth => hkey hboth.1
        rintro ⟨rows', hplace, hbehind, -⟩
        exact place_null h hp hruns hw hnone hplace hbehind
  · have hnone : o.place kind new after rows = none := if_pos hruns
    rw [hnone]
    simp [hruns]

end Placed

/-! ## One and two key columns -/

/-- A table with two key columns. -/
def twoKeys : OrderedTable where
  table := "todo".toList
  columns := ["a".toList, "b".toList, "list".toList, "ordering".toList]
  pks := ["a".toList, "b".toList]
  orderCol := "ordering".toList
  collection := ["list".toList]
  rowidVisible := true
  pks_ne_nil := List.cons_ne_nil _ _
  pks_subset := by decide
  collection_subset := by decide
  orderCol_notMem := by decide

/-- A row whose key starts with the given text, in the one list of the table. -/
def keyed (a : String) (column : Text) : SqlValue :=
  if column = "a".toList then .text a.toList else .text []

/-- Two rows with one order key. -/
def sharing : List OrderedRow :=
  [⟨keyed "x", ['a', '0']⟩, ⟨keyed "y", ['a', '0']⟩]

/-- The same table with one key column. -/
def oneKey : OrderedTable where
  table := "todo".toList
  columns := ["a".toList, "list".toList, "ordering".toList]
  pks := ["a".toList]
  orderCol := "ordering".toList
  collection := ["list".toList]
  rowidVisible := true
  pks_ne_nil := List.cons_ne_nil _ _
  pks_subset := by decide
  collection_subset := by decide
  orderCol_notMem := by decide

/-- The first of two rows with the order key `a1` is moved down, and the new row gets `a1`. -/
example : (oneKey.place .insert (keyed "7") (keyed "3") [⟨keyed "2", "a0V".toList⟩,
      ⟨keyed "3", "a1".toList⟩, ⟨keyed "6", "a1".toList⟩]).map (List.map OrderedRow.order) =
    some ["a0V".toList, "a0l".toList, "a1".toList, "a1".toList] := by
  decide +kernel

/-- The rows that share a key have valid keys. -/
theorem wf_sharing : twoKeys.WF sharing where
  valid r hr := by
    rcases List.mem_pair.mp hr with rfl | rfl <;> exact bounds_a0_a1.lower _ rfl
  short := by decide
  unique := by decide +kernel

/-- A new row behind the first one. -/
theorem placing_sharing :
    twoKeys.Placing .insert (keyed "z") (keyed "x") sharing 0 2 ⟨keyed "x", ['a', '0']⟩ where
  at_x := rfl
  after_eq := by decide
  same_list := by decide
  inserted _ := rfl
  moved hk := by cases hk
  fresh key j r hr _ hagree := by
    have hnew : twoKeys.value ⟨keyed "z", key⟩ "a".toList = .text "z".toList := rfl
    have ha := hagree "a".toList (by decide)
    rw [hnew] at ha
    rcases List.mem_pair.mp (List.mem_of_getElem? hr) with rfl | rfl
    · exact absurd ha (by decide +kernel)
    · exact absurd ha (by decide +kernel)

/-- With two key columns no row can be put behind one that shares its order key. -/
theorem places_behind_iff_sharing :
    (∃ rows', twoKeys.place .insert (keyed "z") (keyed "x") sharing = some rows' ∧
      twoKeys.Behind rows' 0 2 ∧ twoKeys.KeepsOrder sharing rows' 2) ↔
        twoKeys.PlacesBehind .insert (keyed "z") sharing 0 2 ⟨keyed "x", ['a', '0']⟩ :=
  places_behind_iff wf_sharing placing_sharing

/-- The statement that is to make place for the new row is no SQL. -/
theorem two_keys_fail :
    ¬∀ (o : OrderedTable) (kind : Placement) (new after : Text → SqlValue) (rows : List OrderedRow)
      (x y : Nat) (anchor : OrderedRow), o.WF rows → o.Placing kind new after rows x y anchor →
        ∃ rows', o.place kind new after rows = some rows' ∧ o.Behind rows' x y ∧
          o.KeepsOrder rows rows' y := by
  intro h
  obtain ⟨rows', hplace, -⟩ := h twoKeys .insert (keyed "z") (keyed "x") sharing 0 2 _
    wf_sharing placing_sharing
  have hnone : (twoKeys.place .insert (keyed "z") (keyed "x") sharing).isNone = true := by
    decide +kernel
  rw [hplace] at hnone
  cases hnone

end OrderedTable

end CrSqlite.Ordered
