import CrSqlite.FractView
import CrSqlite.Library.Ranked
import CrSqlite.Library.Run

/-!
# FractLists - a table as a board of lists

What fractional indexing is for: every list of an ordered table has an order, and a statement
puts a row in front of its list, at its end, or right behind another row.  The keys are how the
table remembers the order; rows that other replicas wrote may share a key, so a list is a list
of groups.  A board has the groups and no keys, and the table does what the board does.

Main results:

- Theorem {lit}`execute_isSome_iff`: the table refuses what the board does not accept.
- Theorem {lit}`board_step`: a statement on the table is that statement on the board.
- Theorem {lit}`board_run`: so is every run of statements.
-/

namespace CrSqlite.Ordered

open FractIndex Ranked

/-! ## Statements -/

/-- The values of a row in the columns besides the order column. -/
abbrev Cells := Text → SqlValue

/-- Where a row is to go: -1 and 1 in the order column, or the columns `after_*` of the view. -/
inductive Spot where
  | first
  | last
  | behind (after : Cells)

/-- The statements on an ordered table and its view. -/
inductive TableWrite where
  /-- INSERT of a row, or UPDATE of the row with its key. -/
  | put (kind : Placement) (new : Cells) (spot : Spot)
  /-- UPDATE that does not set the order column. -/
  | edit (new : Cells)
  | delete (key : Cells)

/-- A state, and which statements of the run went through. -/
structure Tracked (σ : Type) where
  state : σ
  done : List Bool

def Tracked.map {σ τ : Type} (f : σ → τ) (t : Tracked σ) : Tracked τ :=
  ⟨f t.state, t.done⟩

/-- What the triggers find out about the order column. -/
class OrderColumn where
  /-- Its declared type has the affinity TEXT. -/
  isText : Bool

namespace OrderedTable

/-- The key that the triggers on the table put in the place of 1. -/
def backKey (o : OrderedTable) (kind : Placement) (new : Cells) (rows : List OrderedRow) :
    Option Str :=
  fractKeyBetween
    (greatest ((o.list new (o.others new rows kind)).map OrderedRow.order)) none

/-- A write of -1 or 1, with the triggers `_fractindex_pend_trig` and `_fractindex_ezmove`,
which print the same names.  An order column of the affinity TEXT stores a text, and `NEW` has no
affinity: the text is not equal to the number, and the row keeps it. -/
def putAtEnd [OrderColumn] (o : OrderedTable) (kind : Placement) (new : Cells) (given : Int)
    (key : Option Str) (rows : List OrderedRow) : Option (List OrderedRow) :=
  if ¬ o.Runs .insert then none
  else if kind = .move ∧ ∀ r ∈ rows, ¬ Agree o.pks (o.value r) new then some rows
  else if OrderColumn.isText then o.write kind new (printInt given) rows
  else key.bind fun key => o.write kind new key rows

/-- The rows after a statement, unless it fails. -/
def execute [OrderColumn] (o : OrderedTable) (rows : List OrderedRow) :
    TableWrite → Option (List OrderedRow)
  | .put kind new .first => o.putAtEnd kind new (-1) (o.frontKey kind new rows) rows
  | .put kind new .last => o.putAtEnd kind new 1 (o.backKey kind new rows) rows
  | .put kind new (.behind after) => o.place kind new after rows
  | .edit new =>
      o.checked (rows.map fun r => if Agree o.pks (o.value r) new then ⟨new, r.order⟩ else r)
  | .delete key => some (rows.filter fun r => ¬ Agree o.pks (o.value r) key)

/-- A statement that fails changes nothing. -/
def step [OrderColumn] (o : OrderedTable) (rows : List OrderedRow) (stmt : TableWrite) :
    List OrderedRow :=
  (o.execute rows stmt).getD rows

/-- The rows after a statement, and whether it went through. -/
def track [OrderColumn] (o : OrderedTable) (t : Tracked (List OrderedRow)) (stmt : TableWrite) :
    Tracked (List OrderedRow) :=
  ⟨o.step t.state stmt, t.done ++ [(o.execute t.state stmt).isSome]⟩

end OrderedTable

/-! ## Boards -/

/-- The rows of a table, and the groups of each list. -/
structure Board where
  contents : Multiset Cells
  lists : Cells → List (Multiset Cells)

namespace Board

/-- A row has the primary key. -/
def Has (b : Board) (pks : List Text) (key : Cells) : Prop :=
  ∃ c ∈ b.contents, Agree pks c key

/-- The row with the primary key shares its place in the list. -/
def Crowded (b : Board) (pks : List Text) (list key : Cells) : Prop :=
  ∃ g ∈ b.lists list, (∃ c ∈ g, Agree pks c key) ∧ 1 < g.card

instance (b : Board) (pks : List Text) (key : Cells) : Decidable (b.Has pks key) :=
  Multiset.decidableExistsMultiset

instance (b : Board) (pks : List Text) (list key : Cells) : Decidable (b.Crowded pks list key) :=
  have (g : Multiset Cells) : Decidable (∃ c ∈ g, Agree pks c key) :=
    Multiset.decidableExistsMultiset
  inferInstanceAs (Decidable (∃ g ∈ b.lists list, _))

/-- The groups of a list with a new row. -/
def join (pks : List Text) (new : Cells) (A : List (Multiset Cells)) :
    Spot → List (Multiset Cells)
  | .first => {new} :: A
  | .last => A ++ [{new}]
  | .behind after => behind (fun c => Agree pks c after) new A

/-- A row leaves the place that it has, and goes to a new one in its list. -/
def put (o : OrderedTable) (new : Cells) (spot : Spot) (b : Board) : Board where
  contents := new ::ₘ b.contents.filter fun c => ¬ Agree o.pks c new
  lists v :=
    let A := without (fun c => Agree o.pks c new) (b.lists v)
    if Agree o.collection new v then join o.pks new A spot else A

/-- The row with the key gets other values, where it is. -/
def edit (o : OrderedTable) (new : Cells) (b : Board) : Board :=
  let f := fun c => if Agree o.pks c new then new else c
  ⟨b.contents.map f, fun v => (b.lists v).map (Multiset.map f)⟩

def delete (o : OrderedTable) (key : Cells) (b : Board) : Board where
  contents := b.contents.filter fun c => ¬ Agree o.pks c key
  lists v := without (fun c => Agree o.pks c key) (b.lists v)

/-- A statement that is accepted; an UPDATE needs a row to work on. -/
def perform (o : OrderedTable) (b : Board) : TableWrite → Board
  | .put kind new spot => if kind = .move ∧ ¬ b.Has o.pks new then b else b.put o new spot
  | .edit new => b.edit o new
  | .delete key => b.delete o key

end Board

namespace OrderedTable

/-- Which triggers a statement fires. -/
def firing (kind : Placement) : Spot → Placement
  | .behind _ => kind
  | _ => .insert

/-- A row that shares its place can get out of the way of the one behind it. -/
def MakesWay (o : OrderedTable) (b : Board) (new : Cells) : Spot → Prop
  | .behind after => ¬ b.Crowded o.pks new after ∨ o.CanFix
  | _ => True

instance (o : OrderedTable) (b : Board) (new : Cells) (spot : Spot) :
    Decidable (o.MakesWay b new spot) :=
  match spot with
  | .behind _ => inferInstanceAs (Decidable (_ ∨ _))
  | .first | .last => inferInstanceAs (Decidable True)

/-- The table refuses a statement whose triggers cannot be prepared, a row with a primary key
that is there, and a place behind a row that cannot get out of the way. -/
def Accepts (o : OrderedTable) (b : Board) : TableWrite → Prop
  | .put .insert new spot =>
      o.Runs (firing .insert spot) ∧ ¬ b.Has o.pks new ∧ o.MakesWay b new spot
  | .put .move new spot => o.Runs (firing .move spot) ∧ (b.Has o.pks new → o.MakesWay b new spot)
  | _ => True

instance (o : OrderedTable) (b : Board) (stmt : TableWrite) : Decidable (o.Accepts b stmt) :=
  match stmt with
  | .put .insert _ _ => inferInstanceAs (Decidable (_ ∧ _ ∧ _))
  | .put .move _ _ => inferInstanceAs (Decidable (_ ∧ (_ → _)))
  | .edit _ | .delete _ => inferInstanceAs (Decidable True)

/-- A statement on a board. -/
def boardStep (o : OrderedTable) (b : Board) (stmt : TableWrite) : Board :=
  if o.Accepts b stmt then b.perform o stmt else b

def boardTrack (o : OrderedTable) (t : Tracked Board) (stmt : TableWrite) : Tracked Board :=
  ⟨o.boardStep t.state stmt, t.done ++ [decide (o.Accepts t.state stmt)]⟩

/-! ## The board of a table -/

/-- The rows of a list with their keys. -/
def entries (o : OrderedTable) (v : Cells) (rows : Multiset OrderedRow) :
    Multiset (List Nat × Cells) :=
  (rows.filter fun r => Agree o.collection r.cells v).map fun r => (r.order.bytes, r.cells)

/-- The lists of a table in the order of their keys. -/
def board (o : OrderedTable) (rows : List OrderedRow) : Board where
  contents := (rows : Multiset OrderedRow).map OrderedRow.cells
  lists v := arrange (o.entries v rows)

/-- Primary keys tell the rows apart, and their order keys have an integer part and a
fraction. -/
structure Kept (o : OrderedTable) (rows : List OrderedRow) : Prop where
  unique : o.UniqueKeys rows
  parts : ∀ r ∈ rows, ∃ i f, Parts r.order i f

/-- The keys that a statement meets can be compared, and a statement behind a row means another
row of the same list; an UPDATE that does not set the order column leaves the row in its list. -/
structure Ready (o : OrderedTable) (rows : List OrderedRow) (stmt : TableWrite) : Prop where
  not_smallest : ∀ r ∈ rows, r.order ≠ smallestInteger
  short : ∀ r ∈ rows, r.order.len < 256
  same_list : ∀ kind new after, stmt = .put kind new (.behind after) → ∀ r ∈ rows,
    Agree o.pks r.cells after → Agree o.collection new r.cells
  other_row : ∀ kind new after, stmt = .put kind new (.behind after) → ∀ r ∈ rows,
    Agree o.pks r.cells after → ¬ Agree o.pks r.cells new
  stays : ∀ new, stmt = .edit new → ∀ r ∈ rows, Agree o.pks r.cells new →
    ∀ c ∈ o.collection, SqlValue.Is (r.cells c) (new c)

/-! ## Keys and lists without the order column -/

section Cells

variable {o : OrderedTable} {r : OrderedRow} {rows rows' : List OrderedRow} {v new key : Cells}
  {s t : Multiset OrderedRow} {order : Str}

theorem agree_list_iff : Agree o.collection (o.value r) v ↔ Agree o.collection r.cells v :=
  agree_collection_new

/-- The order key does not matter to the primary key of a row. -/
theorem agree_pks_iff (hcol : o.orderCol ∉ o.pks) :
    Agree o.pks (o.value r) v ↔ Agree o.pks r.cells v := by
  refine forall₂_congr fun p hp => ?_
  have hne : p ≠ o.orderCol := fun heq => hcol (heq ▸ hp)
  simp [value, hne]

theorem has_board_iff {pks : List Text} :
    (o.board rows).Has pks key ↔ ∃ r ∈ rows, Agree pks r.cells key := by
  simp [Board.Has, board]

/-- An entry of a list is a row of it, with its order key. -/
theorem mem_entries {p : List Nat × Cells} : p ∈ o.entries v s ↔
    ∃ r ∈ s, Agree o.collection r.cells v ∧ (r.order.bytes, r.cells) = p := by
  simp only [entries, Multiset.mem_map, Multiset.mem_filter, and_assoc]

/-- A row of the list is one more entry. -/
theorem entries_cons_of_agree (h : Agree o.collection r.cells v) :
    o.entries v (r ::ₘ s) = (r.order.bytes, r.cells) ::ₘ o.entries v s := by
  rw [entries, Multiset.filter_cons_of_pos (p := fun r : OrderedRow => Agree o.collection r.cells v)
    s h, Multiset.map_cons, entries]

/-- A row of another list is none. -/
theorem entries_cons_of_not_agree (h : ¬ Agree o.collection r.cells v) :
    o.entries v (r ::ₘ s) = o.entries v s := by
  rw [entries, Multiset.filter_cons_of_neg (p := fun r : OrderedRow => Agree o.collection r.cells v)
    s h, entries]

/-- Rows and entries are filtered alike. -/
theorem entries_filter (p : Cells → Prop) [DecidablePred p] :
    o.entries v (s.filter fun r => ¬ p r.cells) =
      (o.entries v s).filter fun x => ¬ p x.2 := by
  rw [entries, entries, Multiset.filter_map, Multiset.filter_filter, Multiset.filter_filter]
  congr 1
  exact Multiset.filter_congr fun r _ => and_comm

/-- Keys that tell rows apart do so in any order of the rows. -/
theorem uniqueKeys_perm (h : rows.Perm rows') : o.UniqueKeys rows ↔ o.UniqueKeys rows' :=
  h.pairwise_iff fun hne hagree => hne hagree.symm

/-- A row that is found by its primary key, and the rows that are not. -/
theorem perm_of_agree (hcol : o.orderCol ∉ o.pks) (hunique : o.UniqueKeys rows)
    (h : ∃ r ∈ rows, Agree o.pks r.cells key) :
    ∃ r rest, rows.Perm (r :: rest) ∧ Agree o.pks r.cells key ∧
      ∀ s ∈ rest, ¬ Agree o.pks s.cells key := by
  obtain ⟨r, hr, hagree⟩ := h
  obtain ⟨l, l', rfl⟩ := List.append_of_mem hr
  have hperm : (l ++ r :: l').Perm (r :: (l ++ l')) := List.perm_middle
  refine ⟨r, l ++ l', hperm, hagree, fun s hs hsame => ?_⟩
  have hpair := List.rel_of_pairwise_cons ((uniqueKeys_perm hperm).mp hunique) hs
  exact hpair (((agree_pks_iff hcol).mpr hagree).trans ((agree_pks_iff hcol).mpr hsame).symm)

/-- The rows with other keys, of which one is known. -/
theorem filter_of_perm {rest : List OrderedRow} (hperm : rows.Perm (r :: rest))
    (hne : ¬ Agree o.pks r.cells new) :
    (rows : Multiset OrderedRow).filter (fun r => ¬ Agree o.pks r.cells new) =
      r ::ₘ (rest : Multiset OrderedRow).filter fun r => ¬ Agree o.pks r.cells new := by
  rw [Multiset.coe_eq_coe.mpr hperm, ← Multiset.cons_coe, Multiset.filter_cons_of_pos
    (p := fun r : OrderedRow => ¬ Agree o.pks r.cells new) _ hne]

/-- What a write leaves: the row, and those with other keys. -/
theorem write_eq (hcol : o.orderCol ∉ o.pks) (hunique : o.UniqueKeys rows) {kind : Placement}
    (hkind : (∃ r ∈ rows, Agree o.pks r.cells new) ↔ kind = .move) (order : Str) :
    ∃ rows', o.write kind new order rows = some rows' ∧ o.UniqueKeys rows' ∧
      (rows' : Multiset OrderedRow) =
        ⟨new, order⟩ ::ₘ (rows : Multiset OrderedRow).filter fun r => ¬ Agree o.pks r.cells new := by
  -- the others are unique among themselves, and none of them has the key
  have hchecked : ∀ {rows' rest : List OrderedRow}, rows'.Perm (⟨new, order⟩ :: rest) →
      o.UniqueKeys rest → (∀ r ∈ rest, ¬ Agree o.pks r.cells new) →
      o.checked rows' = some rows' ∧ o.UniqueKeys rows' := by
    intro rows' rest hperm hrest hfresh
    have hall : o.UniqueKeys rows' := by
      refine (uniqueKeys_perm hperm).mpr (List.pairwise_cons.mpr ⟨fun r hr hagree => ?_, hrest⟩)
      refine hfresh r hr fun p hp => ?_
      have hne : p ≠ o.orderCol := fun heq => hcol (heq ▸ hp)
      have hnew := sqlEq_symm (hagree p hp)
      simpa [value, hne] using hnew
    exact ⟨if_pos hall, hall⟩
  cases kind with
  | insert =>
      have hfresh : ∀ r ∈ rows, ¬ Agree o.pks r.cells new := by
        intro r hr hagree
        cases hkind.mp ⟨r, hr, hagree⟩
      have hperm : (rows ++ [OrderedRow.mk new order]).Perm (⟨new, order⟩ :: rows) :=
        List.perm_append_singleton _ _
      obtain ⟨hwrite, hall⟩ := hchecked hperm hunique hfresh
      refine ⟨_, hwrite, hall, ?_⟩
      rw [Multiset.filter_eq_self.mpr hfresh, Multiset.cons_coe]
      exact Multiset.coe_eq_coe.mpr hperm
  | move =>
      obtain ⟨r, rest, hrows, hagree, hrest⟩ := perm_of_agree hcol hunique (hkind.mpr rfl)
      have hmap : (rest.map fun s : OrderedRow =>
          if Agree o.pks (o.value s) new then ⟨new, order⟩ else s) = rest :=
        (List.map_congr_left fun s hs => if_neg fun hs' =>
          hrest s hs ((agree_pks_iff hcol).mp hs')).trans (List.map_id rest)
      have hperm := hrows.map fun s : OrderedRow =>
        if Agree o.pks (o.value s) new then ⟨new, order⟩ else s
      rw [List.map_cons, if_pos ((agree_pks_iff hcol).mpr hagree), hmap] at hperm
      have hunique' := List.pairwise_cons.mp ((uniqueKeys_perm hrows).mp hunique)
      obtain ⟨hwrite, hall⟩ := hchecked hperm hunique'.2 hrest
      refine ⟨_, hwrite, hall, ?_⟩
      rw [Multiset.coe_eq_coe.mpr hrows, ← Multiset.cons_coe,
        Multiset.filter_cons_of_neg (p := fun r : OrderedRow => ¬ Agree o.pks r.cells new) _
          (not_not.mpr hagree),
        Multiset.filter_eq_self.mpr hrest, Multiset.cons_coe]
      exact Multiset.coe_eq_coe.mpr hperm

/-- The board with a row at its new place: the other rows may have got other keys, as long as
the groups do not show it. -/
theorem board_eq_put {spot : Spot}
    (hrows' : (rows' : Multiset OrderedRow) = ⟨new, order⟩ ::ₘ t)
    (hcells : t.map OrderedRow.cells = ((rows : Multiset OrderedRow).filter fun r =>
      ¬ Agree o.pks r.cells new).map OrderedRow.cells)
    (hothers : ∀ v, ¬ Agree o.collection new v → o.entries v t =
      (o.entries v rows).filter fun x => ¬ Agree o.pks x.2 new)
    (hlist : ∀ v, Agree o.collection new v → arrange ((order.bytes, new) ::ₘ o.entries v t) =
      Board.join o.pks new (without (fun c => Agree o.pks c new) (arrange (o.entries v rows)))
        spot) :
    o.board rows' = (o.board rows).put o new spot := by
  rw [board, Board.put, Board.mk.injEq, hrows']
  constructor
  · rw [Multiset.map_cons, hcells, board, Multiset.filter_map]
    rfl
  · funext v
    by_cases hv : Agree o.collection new v
    · rw [if_pos hv, entries_cons_of_agree (r := ⟨new, order⟩) hv]
      exact hlist v hv
    · rw [if_neg hv, entries_cons_of_not_agree (r := ⟨new, order⟩) hv, hothers v hv,
        arrange_filter fun c => Agree o.pks c new]
      rfl

end Cells

/-! ## In front and at the end -/

section Ends

variable {o : OrderedTable} {kind : Placement} {new : Cells} {rows : List OrderedRow}
  {r : OrderedRow} {order : Str} {spot : Spot}

/-- A list with a key has a greatest one. -/
theorem exists_greatest {keys : List Str} {k : Str} (hk : k ∈ keys) :
    ∃ m, greatest keys = some m ∧ ¬ m.bytes < k.bytes := by
  cases hm : greatest keys with
  | none =>
      rw [greatest_eq_none_iff.mp hm] at hk
      exact absurd hk List.not_mem_nil
  | some m => exact ⟨m, rfl, not_greatest_lt hm hk⟩

/-- The other rows are rows. -/
theorem mem_of_mem_others (hr : r ∈ o.others new rows kind) : r ∈ rows := by
  cases kind with
  | insert => exact hr
  | move => exact (List.mem_filter.mp hr).1

/-- A row with another key is one of the others. -/
theorem mem_others (hcol : o.orderCol ∉ o.pks) (hr : r ∈ rows)
    (hne : ¬ Agree o.pks r.cells new) : r ∈ o.others new rows kind := by
  cases kind with
  | insert => exact hr
  | move =>
      exact List.mem_filter.mpr ⟨hr, decide_eq_true fun hagree => hne ((agree_pks_iff hcol).mp hagree)⟩

/-- An order key of the list besides the one of the written row. -/
theorem mem_orders (hr : r ∈ o.others new rows kind) (hlist : Agree o.collection r.cells new) :
    r.order ∈ (o.list new (o.others new rows kind)).map OrderedRow.order :=
  List.mem_map_of_mem (mem_list_iff.mpr ⟨hr, agree_list_iff.mpr hlist⟩)

/-- An order key of the list is that of a row. -/
theorem exists_row_of_mem_orders {k : Str}
    (hk : k ∈ (o.list new (o.others new rows kind)).map OrderedRow.order) :
    ∃ r ∈ rows, r.order = k := by
  obtain ⟨r, hr, rfl⟩ := List.mem_map.mp hk
  exact ⟨r, mem_of_mem_others (mem_list_iff.mp hr).1, rfl⟩

/-- There is a key in front of the list. -/
theorem WF.exists_frontKey (h : o.WF rows) (kind : Placement) (new : Cells) :
    ∃ k, o.frontKey kind new rows = some k ∧ (∃ i f, Parts k i f) ∧
      ∀ r ∈ o.others new rows kind, Agree o.collection r.cells new →
        k.bytes < r.order.bytes := by
  obtain ⟨k, hk, hparts, hwithin, -⟩ := h.exists_newKey none
    (smallest ((o.list new (o.others new rows kind)).map OrderedRow.order)) (by simp)
    (fun m hm => exists_row_of_mem_orders (smallest_mem hm)) (by simp)
  refine ⟨k, hk, hparts, fun r hr hlist => ?_⟩
  obtain ⟨m, hm, hle⟩ := exists_smallest (mem_orders hr hlist)
  exact lt_of_lt_of_le (hwithin.2 m hm) (not_lt.mp hle)

/-- There is a key behind the list. -/
theorem WF.exists_backKey (h : o.WF rows) (kind : Placement) (new : Cells) :
    ∃ k, o.backKey kind new rows = some k ∧ (∃ i f, Parts k i f) ∧
      ∀ r ∈ o.others new rows kind, Agree o.collection r.cells new →
        r.order.bytes < k.bytes := by
  obtain ⟨k, hk, hparts, hwithin, -⟩ := h.exists_newKey
    (greatest ((o.list new (o.others new rows kind)).map OrderedRow.order)) none
    (fun m hm => exists_row_of_mem_orders (greatest_mem hm)) (by simp) (by simp)
  refine ⟨k, hk, hparts, fun r hr hlist => ?_⟩
  obtain ⟨m, hm, hle⟩ := exists_greatest (mem_orders hr hlist)
  exact lt_of_le_of_lt (not_lt.mp hle) (hwithin.1 m hm)

theorem WF.kept (h : o.WF rows) : o.Kept rows :=
  ⟨h.unique, fun r hr => (h.valid r hr).parts⟩

/-- A row with a key of two parts, and rows that had such keys. -/
theorem Kept.cons {rows' : List OrderedRow} (h : o.Kept rows) (hunique : o.UniqueKeys rows')
    (hparts : ∃ i f, Parts order i f)
    (hrows' : (rows' : Multiset OrderedRow) =
      ⟨new, order⟩ ::ₘ (rows : Multiset OrderedRow).filter fun r => ¬ Agree o.pks r.cells new) :
    o.Kept rows' := by
  refine ⟨hunique, fun r hr => ?_⟩
  rw [← Multiset.mem_coe, hrows', Multiset.mem_cons] at hr
  rcases hr with rfl | hr
  · exact hparts
  · exact h.parts r (Multiset.mem_coe.mp (Multiset.mem_of_mem_filter hr))

/-- A write whose key puts the row at its place among the others. -/
theorem write_board (hcol : o.orderCol ∉ o.pks) (hkept : o.Kept rows)
    (hparts : ∃ i f, Parts order i f)
    (hkind : (∃ r ∈ rows, Agree o.pks r.cells new) ↔ kind = .move)
    (hlist : ∀ v, Agree o.collection new v →
      arrange ((order.bytes, new) ::ₘ (o.entries v rows).filter fun x => ¬ Agree o.pks x.2 new) =
        Board.join o.pks new (without (fun c => Agree o.pks c new) (arrange (o.entries v rows)))
          spot) :
    ∃ rows', o.write kind new order rows = some rows' ∧ o.Kept rows' ∧
      o.board rows' = (o.board rows).put o new spot := by
  obtain ⟨rows', hwrite, hall, hrows'⟩ := write_eq hcol hkept.unique hkind order
  refine ⟨rows', hwrite, hkept.cons hall hparts hrows',
    board_eq_put hrows' rfl (fun v _ => ?_) fun v hv => ?_⟩
  · exact entries_filter fun c => Agree o.pks c new
  · rw [entries_filter fun c => Agree o.pks c new]
    exact hlist v hv

/-- The entries of a list besides the one of the written row belong to the other rows. -/
theorem exists_other (hcol : o.orderCol ∉ o.pks) {v : Cells} (hv : Agree o.collection new v)
    {p : List Nat × Cells}
    (hp : p ∈ (o.entries v rows).filter fun x => ¬ Agree o.pks x.2 new) :
    ∃ r ∈ o.others new rows kind, Agree o.collection r.cells new ∧ r.order.bytes = p.1 := by
  obtain ⟨hp, hne⟩ := Multiset.mem_filter.mp hp
  obtain ⟨r, hr, hlist, rfl⟩ := mem_entries.mp hp
  exact ⟨r, mem_others hcol (Multiset.mem_coe.mp hr) hne, hlist.trans hv.symm, rfl⟩

variable [OrderColumn] (htype : OrderColumn.isText = false)

include htype

/-- A row put at an end is written with the key there. -/
theorem putAtEnd_eq (hcol : o.orderCol ∉ o.pks) (hruns : o.Runs .insert)
    (hkind : (∃ r ∈ rows, Agree o.pks r.cells new) ↔ kind = .move) (given : Int)
    (key : Option Str) :
    o.putAtEnd kind new given key rows = key.bind fun key => o.write kind new key rows := by
  have hfound : ¬ (kind = .move ∧ ∀ r ∈ rows, ¬ Agree o.pks (o.value r) new) := by
    rintro ⟨hmove, hnone⟩
    obtain ⟨r, hr, hagree⟩ := hkind.mpr hmove
    exact hnone r hr ((agree_pks_iff hcol).mpr hagree)
  rw [putAtEnd, if_neg (not_not.mpr hruns), if_neg hfound, htype, if_neg Bool.false_ne_true]

/-- -1 puts a row in front of its list. -/
theorem first_spec (hcol : o.orderCol ∉ o.pks) (h : o.WF rows) (hruns : o.Runs .insert)
    (hkind : (∃ r ∈ rows, Agree o.pks r.cells new) ↔ kind = .move) :
    ∃ rows', o.execute rows (.put kind new .first) = some rows' ∧ o.Kept rows' ∧
      o.board rows' = (o.board rows).put o new .first := by
  obtain ⟨k, hk, hparts, hfront⟩ := h.exists_frontKey kind new
  rw [execute, putAtEnd_eq htype hcol hruns hkind, hk, Option.bind_some]
  refine write_board hcol h.kept hparts hkind fun v hv => ?_
  rw [arrange_first, arrange_filter fun c => Agree o.pks c new]
  · rfl
  · intro p hp
    obtain ⟨r, hr, hlist, heq⟩ := exists_other hcol hv hp
    exact heq ▸ hfront r hr hlist

/-- 1 puts a row at the end of its list. -/
theorem last_spec (hcol : o.orderCol ∉ o.pks) (h : o.WF rows) (hruns : o.Runs .insert)
    (hkind : (∃ r ∈ rows, Agree o.pks r.cells new) ↔ kind = .move) :
    ∃ rows', o.execute rows (.put kind new .last) = some rows' ∧ o.Kept rows' ∧
      o.board rows' = (o.board rows).put o new .last := by
  obtain ⟨k, hk, hparts, hback⟩ := h.exists_backKey kind new
  rw [execute, putAtEnd_eq htype hcol hruns hkind, hk, Option.bind_some]
  refine write_board hcol h.kept hparts hkind fun v hv => ?_
  rw [arrange_last, arrange_filter fun c => Agree o.pks c new]
  · rfl
  · intro p hp
    obtain ⟨r, hr, hlist, heq⟩ := exists_other hcol hv hp
    exact heq ▸ hback r hr hlist

end Ends

/-! ## Behind a row -/

section Behind

variable {o : OrderedTable} {kind : Placement} {new after after' : Cells} {rows : List OrderedRow}
  {anchor : OrderedRow} {x : Nat}

/-- Key values that SQL does not tell apart find the same rows. -/
theorem place_congr (h : ∀ p ∈ o.pks, SqlValue.Is (after p) (after' p)) :
    o.place kind new after rows = o.place kind new after' rows := by
  have hkey : o.anchorKey after rows = o.anchorKey after' rows := by
    rw [anchorKey, anchorKey]
    congr 2
    funext r
    refine decide_eq_decide.mpr (forall₂_congr fun p hp => and_congr_right fun _ => ?_)
    rw [show _ = _ from h p hp]
  have hparams : ∀ i : Nat, SqlValue.Is (((o.fixCall after).pkValues[i]?).getD .null)
      (((o.fixCall after').pkValues[i]?).getD .null) := by
    intro i
    rw [fixCall, fixCall, List.getElem?_map, List.getElem?_map]
    cases hi : o.pks[i]? with
    | none => rfl
    | some p => exact h p (List.mem_of_getElem? hi)
  have hmatches : ∀ (predicates : List (Text × Nat)) (r : OrderedRow),
      Matches o predicates (o.fixCall after).pkValues r ↔
        Matches o predicates (o.fixCall after').pkValues r := fun predicates r =>
    forall₂_congr fun p _ => and_congr_right fun _ => by rw [show _ = _ from hparams _]
  have hfix : fixConflict o (o.fixCall after) rows = fixConflict o (o.fixCall after') rows := by
    simp only [fixConflict, keyBelow, hmatches]
    rfl
  have hbehind : o.orderBehind new after rows = o.orderBehind new after' rows := by
    rw [orderBehind, orderBehind, hkey, readArgs_fixArgs, readArgs_fixArgs, Option.bind_some,
      Option.bind_some, hfix]
  rw [place, place, hbehind]

/-- A row put behind another one is written with the key there, or in front. -/
theorem place_bind (hcol : o.orderCol ∉ o.pks) (hruns : o.Runs kind)
    (hkind : (∃ r ∈ rows, Agree o.pks r.cells new) ↔ kind = .move) :
    o.place kind new after rows = (o.orderBehind new after rows).bind fun (rows, key) =>
      (key.or (o.frontKey kind new rows)).bind fun key => o.write kind new key rows := by
  have hfound : ¬ (kind = .move ∧ ∀ r ∈ rows, ¬ Agree o.pks (o.value r) new) := by
    rintro ⟨hmove, hnone⟩
    obtain ⟨r, hr, hagree⟩ := hkind.mpr hmove
    exact hnone r hr ((agree_pks_iff hcol).mpr hagree)
  rw [place, if_neg (not_not.mpr hruns), if_neg hfound]
  rfl

/-- Behind a row that is not there the new row is in front. -/
theorem behind_nothing (hcol : o.orderCol ∉ o.pks) (h : o.WF rows) (hruns : o.Runs kind)
    (hkind : (∃ r ∈ rows, Agree o.pks r.cells new) ↔ kind = .move)
    (hnone : ∀ r ∈ rows, ¬ Agree o.pks r.cells after) :
    ∃ rows', o.place kind new after rows = some rows' ∧ o.Kept rows' ∧
      o.board rows' = (o.board rows).put o new (.behind after) := by
  obtain ⟨k, hk, hparts, hfront⟩ := h.exists_frontKey kind new
  have hkey : o.anchorKey after rows = none := by
    rw [anchorKey, List.find?_eq_none.mpr, Option.map_none]
    intro r hr hagree
    exact hnone r hr ((agree_pks_iff hcol).mp (of_decide_eq_true hagree))
  have hbehind : o.orderBehind new after rows = some (rows, none) := by
    simp [orderBehind, hkey]
  have hplace : o.place kind new after rows = o.write kind new k rows := by
    rw [place_bind hcol hruns hkind, hbehind, Option.bind_some]
    dsimp only
    rw [Option.none_or, hk, Option.bind_some]
  rw [hplace]
  refine write_board hcol h.kept hparts hkind fun v hv => ?_
  rw [arrange_first, ← arrange_filter fun c => Agree o.pks c new, Board.join, behind_arrange_none]
  · intro p hp hagree
    obtain ⟨r, hr, -, rfl⟩ := mem_entries.mp (Multiset.mem_filter.mp hp).1
    exact hnone r (Multiset.mem_coe.mp hr) hagree
  · intro p hp
    obtain ⟨r, hr, hlist, heq⟩ := exists_other hcol hv hp
    exact heq ▸ hfront r hr hlist

/-- The next key is between the one of the anchor and the other greater ones of the list. -/
theorem WF.exists_key_next (h : o.WF rows) (hx : anchor ∈ rows) (new : Cells) :
    ∃ k, fractKeyBetween (some anchor.order) (o.keyAbove new (some anchor.order) rows) = some k ∧
      (∃ i f, Parts k i f) ∧ anchor.order.bytes < k.bytes ∧ ∀ r ∈ rows, Agree o.collection r.cells new →
        anchor.order.bytes < r.order.bytes → k.bytes < r.order.bytes := by
  have hmem : ∀ {k : Str}, k ∈ (((o.list new rows).filter fun r =>
      (some anchor.order).any fun k => k.bytes < r.order.bytes).map OrderedRow.order) →
      ∃ r ∈ rows, anchor.order.bytes < r.order.bytes ∧ r.order = k := by
    intro k hk
    obtain ⟨r, hr, rfl⟩ := List.mem_map.mp hk
    obtain ⟨hr, hlt⟩ := List.mem_filter.mp hr
    exact ⟨r, (mem_list_iff.mp hr).1, by simpa using hlt, rfl⟩
  obtain ⟨k, hk, hparts, hwithin, -⟩ := h.exists_newKey (some anchor.order)
    (o.keyAbove new (some anchor.order) rows)
    (fun k hk => ⟨anchor, hx, Option.some.inj hk⟩)
    (fun k hk => by
      obtain ⟨r, hr, -, heq⟩ := hmem (smallest_mem hk)
      exact ⟨r, hr, heq⟩)
    (fun k hk l hl => by
      obtain rfl := Option.some.inj hk
      obtain ⟨r, -, hlt, rfl⟩ := hmem (smallest_mem hl)
      exact hlt)
  refine ⟨k, hk, hparts, hwithin.1 _ rfl, fun r hr hlist hlt => ?_⟩
  have hrmem : r.order ∈ (((o.list new rows).filter fun r =>
      (some anchor.order).any fun k => k.bytes < r.order.bytes).map OrderedRow.order) :=
    List.mem_map_of_mem (List.mem_filter.mpr
      ⟨mem_list_iff.mpr ⟨hr, agree_list_iff.mpr hlist⟩, by simpa using hlt⟩)
  obtain ⟨m, hm, hle⟩ := exists_smallest hrmem
  exact lt_of_lt_of_le (hwithin.2 m hm) (not_lt.mp hle)

/-- A row to put another one behind: it is in the list of the new row, and it is not the row
that moves. -/
structure Follows (o : OrderedTable) (new after : Cells) (rows : List OrderedRow) (x : Nat)
    (anchor : OrderedRow) : Prop where
  at_x : rows[x]? = some anchor
  found : Agree o.pks anchor.cells after
  same_list : Agree o.collection new anchor.cells
  other_row : ¬ Agree o.pks anchor.cells new

variable (hf : o.Follows new after rows x anchor)

include hf in
/-- The anchor and the other rows are all rows. -/
theorem Follows.perm : rows.Perm (anchor :: rows.eraseIdx x) := by
  obtain ⟨hlt, rfl⟩ := List.getElem?_eq_some_iff.mp hf.at_x
  exact (List.getElem_cons_eraseIdx_perm hlt).symm

include hf in
theorem Follows.mem : anchor ∈ rows :=
  List.mem_of_getElem? hf.at_x

include hf in
/-- No other row has the key of the anchor. -/
theorem Follows.not_found (hcol : o.orderCol ∉ o.pks) (hunique : o.UniqueKeys rows) :
    ∀ r ∈ rows.eraseIdx x, ¬ Agree o.pks r.cells after := by
  intro r hr hagree
  have hpair := List.rel_of_pairwise_cons ((uniqueKeys_perm hf.perm).mp hunique) hr
  exact hpair (((agree_pks_iff hcol).mpr hf.found).trans ((agree_pks_iff hcol).mpr hagree).symm)

include hf in
/-- The entries of the list of the anchor. -/
theorem Follows.entries_eq {v : Cells} (hv : Agree o.collection new v) :
    o.entries v rows =
      (anchor.order.bytes, anchor.cells) ::ₘ o.entries v (rows.eraseIdx x) := by
  rw [Multiset.coe_eq_coe.mpr hf.perm, ← Multiset.cons_coe,
    entries_cons_of_agree (hf.same_list.symm.trans hv)]

include hf in
/-- The anchor is an entry of the list that the new row goes to. -/
theorem Follows.entries_filter_eq {v : Cells} (hv : Agree o.collection new v) :
    ((o.entries v rows).filter fun p => ¬ Agree o.pks p.2 new) =
      (anchor.order.bytes, anchor.cells) ::ₘ
        (o.entries v (rows.eraseIdx x)).filter fun p => ¬ Agree o.pks p.2 new := by
  rw [hf.entries_eq hv,
    Multiset.filter_cons_of_pos (p := fun p : List Nat × Cells => ¬ Agree o.pks p.2 new) _
      hf.other_row]

include hf in
/-- The row that is found is the anchor. -/
theorem Follows.isAnchor (hcol : o.orderCol ∉ o.pks) :
    IsAnchor o rows (o.value anchor) x anchor where
  at_x := hf.at_x
  after_eq _ _ := rfl
  ne_null p hp hnull := (((agree_pks_iff hcol).mpr hf.found) p hp).1 hnull

include hf in
/-- A row is named by its primary key alone. -/
theorem Follows.place_eq (hcol : o.orderCol ∉ o.pks) :
    o.place kind new after rows = o.place kind new (o.value anchor) rows :=
  place_congr fun p hp => (((agree_pks_iff hcol).mpr hf.found) p hp).2.symm

/-- How many rows of the list besides the anchor have its order key. -/
def tied (o : OrderedTable) (new : Cells) (rows : List OrderedRow) (x : Nat)
    (anchor : OrderedRow) : Nat :=
  (o.list new (rows.eraseIdx x)).countP fun r => some r.order = some anchor.order

include hf in
/-- The rows with the order key of the anchor are those tied with it, and itself. -/
theorem Follows.countP_eq :
    (o.list new rows).countP (fun r => some r.order = some anchor.order) =
      o.tied new rows x anchor + 1 := by
  have hself : Agree o.collection (o.value anchor) new := agree_list_iff.mpr hf.same_list.symm
  have hlists : o.list new (anchor :: rows.eraseIdx x) = anchor :: o.list new (rows.eraseIdx x) :=
    List.filter_cons_of_pos (decide_eq_true hself)
  have hperm : (o.list new rows).Perm (o.list new (anchor :: rows.eraseIdx x)) :=
    hf.perm.filter _
  rw [hperm.countP_eq, hlists, List.countP_cons_of_pos (by simp), tied]

/-- The values of a rank are the rows of the list with that key. -/
theorem card_level_entries (l : List OrderedRow) (k : Str) :
    (level (o.entries new l) k.bytes).card =
      (o.list new l).countP fun r => some r.order = some k := by
  induction l with
  | nil => rfl
  | cons r l ih =>
      rw [← Multiset.cons_coe]
      by_cases hlist : Agree o.collection r.cells new
      · have hlists : o.list new (r :: l) = r :: o.list new l :=
          List.filter_cons_of_pos (decide_eq_true (agree_list_iff.mpr hlist))
        rw [entries_cons_of_agree hlist, hlists]
        by_cases hk : r.order = k
        · rw [hk, level_cons_self, Multiset.card_cons, List.countP_cons_of_pos (by simp [hk]), ih]
        · rw [level_cons_ne fun heq => hk (Str.bytes_injective heq),
            List.countP_cons_of_neg (by simp [hk]), ih]
      · have hnot : ¬ Agree o.collection (o.value r) new := fun h => hlist (agree_list_iff.mp h)
        have hlists : o.list new (r :: l) = o.list new l :=
          List.filter_cons_of_neg (by simpa using hnot)
        rw [entries_cons_of_not_agree hlist, hlists, ih]

include hf in
/-- The anchor shares its place on the board exactly when a row of its list has its key. -/
theorem Follows.crowded_iff (hcol : o.orderCol ∉ o.pks) (hunique : o.UniqueKeys rows) :
    (o.board rows).Crowded o.pks new after ↔ o.tied new rows x anchor ≠ 0 := by
  have hnew : Agree o.collection new new := hf.same_list.trans hf.same_list.symm
  have hcard : (level (o.entries new rows) anchor.order.bytes).card =
      o.tied new rows x anchor + 1 := (card_level_entries rows anchor.order).trans hf.countP_eq
  constructor
  · rintro ⟨g, hg, ⟨c, hc, hagree⟩, hlt⟩
    obtain ⟨k, -, rfl⟩ := List.mem_map.mp hg
    have hmem := mem_level.mp hc
    rw [hf.entries_eq hnew, Multiset.mem_cons] at hmem
    rcases hmem with heq | hmem
    · obtain ⟨rfl, rfl⟩ := Prod.mk.inj heq
      rw [hcard] at hlt
      omega
    · obtain ⟨r, hr, -, heq⟩ := mem_entries.mp hmem
      obtain ⟨rfl, rfl⟩ := Prod.mk.inj heq
      exact absurd hagree (hf.not_found hcol hunique r (Multiset.mem_coe.mp hr))
  · intro hne
    have hself : (anchor.order.bytes, anchor.cells) ∈ o.entries new rows :=
      mem_entries.mpr ⟨anchor, Multiset.mem_coe.mpr hf.mem, hf.same_list.symm, rfl⟩
    refine ⟨_, List.mem_map_of_mem (mem_ranks.mpr ⟨_, hself, rfl⟩),
      ⟨anchor.cells, mem_level.mpr hself, hf.found⟩, ?_⟩
    rw [hcard]
    omega

include hf in
/-- Behind a row with an order key of its own. -/
theorem Follows.alone (hcol : o.orderCol ∉ o.pks) (h : o.WF rows) (hruns : o.Runs kind)
    (hkind : (∃ r ∈ rows, Agree o.pks r.cells new) ↔ kind = .move)
    (halone : o.tied new rows x anchor = 0) :
    ∃ rows', o.place kind new after rows = some rows' ∧ o.Kept rows' ∧
      o.board rows' = (o.board rows).put o new (.behind after) := by
  obtain ⟨k, hk, hparts, hlt, habove⟩ := h.exists_key_next hf.mem new
  have hbehind : o.orderBehind new (o.value anchor) rows = some (rows, some k) := by
    rw [orderBehind, anchorKey_eq_some h (hf.isAnchor hcol)]
    simp only [hf.countP_eq, halone, hk, Option.map_some]
  have hplace : o.place kind new after rows = o.write kind new k rows := by
    rw [hf.place_eq hcol, place_bind hcol hruns hkind, hbehind]
    rfl
  rw [hplace]
  refine write_board hcol h.kept hparts hkind fun v hv => ?_
  have hothers : ∀ p ∈ (o.entries v (rows.eraseIdx x)).filter fun p => ¬ Agree o.pks p.2 new,
      ∃ r ∈ rows.eraseIdx x, Agree o.collection r.cells new ∧ (r.order.bytes, r.cells) = p := by
    intro p hp
    obtain ⟨r, hr, hlist, heq⟩ := mem_entries.mp (Multiset.mem_filter.mp hp).1
    exact ⟨r, Multiset.mem_coe.mp hr, hlist.trans hv.symm, heq⟩
  rw [← arrange_filter fun c => Agree o.pks c new, hf.entries_filter_eq hv, Board.join]
  refine arrange_behind_alone (fun p hp => ?_) hf.found hlt fun p hp hgt => ?_
  · obtain ⟨r, hr, hlist, rfl⟩ := hothers p hp
    refine ⟨hf.not_found hcol h.unique r hr, fun heq => ?_⟩
    have hnone := List.countP_eq_zero.mp halone r (mem_list_iff.mpr ⟨hr, agree_list_iff.mpr hlist⟩)
    simp [Str.bytes_injective heq] at hnone
  · obtain ⟨r, hr, hlist, rfl⟩ := hothers p hp
    exact habove r (List.eraseIdx_subset hr) hlist hgt

include hf in
/-- When others have the order key of the anchor, it gets out of their way. -/
theorem Follows.orderBehind_tied (hcol : o.orderCol ∉ o.pks) (h : o.WF rows)
    (htied : o.tied new rows x anchor ≠ 0) :
    o.orderBehind new (o.value anchor) rows =
      (fixConflict o (o.fixCall (o.value anchor)) rows).map fun (rows, k) => (rows, some k) := by
  rw [orderBehind, anchorKey_eq_some h (hf.isAnchor hcol), readArgs_fixArgs]
  simp only [hf.countP_eq]
  split
  next hcount => exact absurd (Nat.succ.inj hcount) htied
  next hcount => exact absurd hcount (Nat.succ_ne_zero _)
  next => rfl

include hf in
/-- Behind a row that gets out of the way. -/
theorem Follows.makesWay (hcol : o.orderCol ∉ o.pks) (h : o.WF rows) (hruns : o.Runs kind)
    (hkind : (∃ r ∈ rows, Agree o.pks r.cells new) ↔ kind = .move)
    (htied : o.tied new rows x anchor ≠ 0) (hcan : o.CanFix) :
    ∃ rows', o.place kind new after rows = some rows' ∧ o.Kept rows' ∧
      o.board rows' = (o.board rows).put o new (.behind after) := by
  obtain ⟨p, hpk⟩ := List.length_eq_one_iff.mp hcan.1
  have hne : p ≠ o.orderCol := fun heq => hcol (by simp [hpk, heq])
  obtain ⟨low, hfix, hparts, hlow, hbelow⟩ := fixConflict_spec hcan h (hf.isAnchor hcol) hpk hne
  generalize hlowered : rows.modify x (fun r => { r with order := low }) = lowered at hfix
  have hunique : o.UniqueKeys lowered := hlowered ▸ uniqueKeys_modify h.unique hpk hne low
  have hperm : lowered.Perm ({ anchor with order := low } :: rows.eraseIdx x) := by
    obtain ⟨hlt, rfl⟩ := List.getElem?_eq_some_iff.mp hf.at_x
    rw [← hlowered, List.modify_eq_set_get _ hlt]
    exact List.set_perm_cons_eraseIdx hlt _
  have hkind' : (∃ r ∈ lowered, Agree o.pks r.cells new) ↔ kind = .move := by
    rw [← hkind]
    simp only [hperm.mem_iff, hf.perm.mem_iff, List.mem_cons, or_and_right, exists_or,
      exists_eq_left]
  have hkept : o.Kept lowered := by
    refine ⟨hunique, fun r hr => ?_⟩
    rcases List.mem_cons.mp (hperm.mem_iff.mp hr) with rfl | hr
    · exact hparts
    · exact h.kept.parts r (List.eraseIdx_subset hr)
  obtain ⟨rows', hwrite, hall, hrows'⟩ := write_eq hcol hunique hkind' anchor.order
  refine ⟨rows', ?_, hkept.cons hall (h.kept.parts anchor hf.mem) hrows', board_eq_put hrows' ?_ (fun v hv => ?_) fun v hv => ?_⟩
  · rw [hf.place_eq hcol, place_bind hcol hruns hkind, hf.orderBehind_tied hcol h htied, hfix]
    exact hwrite
  · rw [filter_of_perm hperm hf.other_row, filter_of_perm hf.perm hf.other_row,
      Multiset.map_cons, Multiset.map_cons]
  · have hnot : ¬ Agree o.collection anchor.cells v := fun hlist => hv (hf.same_list.trans hlist)
    rw [filter_of_perm hperm hf.other_row,
      entries_cons_of_not_agree (r := { anchor with order := low }) hnot,
      entries_filter fun c => Agree o.pks c new, Multiset.coe_eq_coe.mpr hf.perm,
      ← Multiset.cons_coe, entries_cons_of_not_agree hnot]
  · have hlist : Agree o.collection anchor.cells v := hf.same_list.symm.trans hv
    rw [filter_of_perm hperm hf.other_row,
      entries_cons_of_agree (r := { anchor with order := low }) hlist,
      entries_filter fun c => Agree o.pks c new, ← arrange_filter fun c => Agree o.pks c new,
      hf.entries_filter_eq hv, Board.join]
    refine arrange_behind_shared (fun p hp => ?_) hf.found hlow fun p hp hlt => ?_
    · obtain ⟨r, hr, -, rfl⟩ := mem_entries.mp (Multiset.mem_filter.mp hp).1
      exact hf.not_found hcol h.unique r (Multiset.mem_coe.mp hr)
    · obtain ⟨r, hr, hrlist, rfl⟩ := mem_entries.mp (Multiset.mem_filter.mp hp).1
      refine hbelow r (List.eraseIdx_subset (Multiset.mem_coe.mp hr)) ?_ hlt
      exact (agree_list_iff.mpr hrlist).trans (agree_list_iff.mpr hlist).symm

include hf in
/-- A row that shares its key and cannot get out of the way. -/
theorem Follows.refuses (hcol : o.orderCol ∉ o.pks) (h : o.WF rows) (hruns : o.Runs kind)
    (hkind : (∃ r ∈ rows, Agree o.pks r.cells new) ↔ kind = .move)
    (htied : o.tied new rows x anchor ≠ 0) (hcan : ¬ o.CanFix) :
    o.place kind new after rows = none := by
  rw [hf.place_eq hcol, place_bind hcol hruns hkind, hf.orderBehind_tied hcol h htied,
    fixConflict_eq_none hcan]
  rfl

end Behind

/-! ## What the table refuses -/

section Refused

variable {o : OrderedTable} {kind : Placement} {new after : Cells} {rows rows' : List OrderedRow}
  {spot : Spot}

/-- Getting out of the way changes order keys only. -/
theorem fixConflict_cells {a : FixArgs} {k : Str} (h : fixConflict o a rows = some (rows', k)) :
    rows'.map OrderedRow.cells = rows.map OrderedRow.cells := by
  simp only [fixConflict, checked, Option.bind_eq_bind, Option.bind_eq_some_iff,
    Option.some.injEq, Prod.mk.injEq, Option.ite_none_right_eq_some] at h
  obtain ⟨-, -, -, -, -, -, key, -, -, ⟨-, rfl⟩, rfl, -⟩ := h
  rw [List.map_map]
  refine List.map_congr_left fun r _ => ?_
  rw [Function.comp_apply]
  split <;> rfl

/-- To make way changes order keys only. -/
theorem orderBehind_cells {key : Option Str}
    (h : o.orderBehind new after rows = some (rows', key)) :
    rows'.map OrderedRow.cells = rows.map OrderedRow.cells := by
  rw [orderBehind] at h
  split at h
  · obtain ⟨k, -, heq⟩ := Option.map_eq_some_iff.mp h
    rw [(Prod.mk.inj heq).1]
  · rw [(Prod.mk.inj (Option.some.inj h)).1]
  · obtain ⟨a, -, h⟩ := Option.bind_eq_some_iff.mp h
    obtain ⟨⟨rows₁, k⟩, hfix, heq⟩ := Option.map_eq_some_iff.mp h
    rw [← (Prod.mk.inj heq).1]
    exact fixConflict_cells hfix

/-- A new row whose primary key is there cannot be written. -/
theorem write_insert_eq_none (hcol : o.orderCol ∉ o.pks)
    (h : ∃ c ∈ rows.map OrderedRow.cells, Agree o.pks c new) (order : Str) :
    o.write .insert new order rows = none := by
  obtain ⟨c, hc, hagree⟩ := h
  obtain ⟨r, hr, rfl⟩ := List.mem_map.mp hc
  rw [write, checked, if_neg]
  intro hunique
  have hpair := (List.pairwise_append.mp hunique).2.2 r hr ⟨new, order⟩ (List.mem_singleton_self _)
  refine hpair (((agree_pks_iff hcol).mpr hagree).trans fun p hp => ?_)
  have hne : p ≠ o.orderCol := fun heq => hcol (heq ▸ hp)
  have hnull : new p ≠ .null := (sqlEq_symm (hagree p hp)).1
  simpa [value, hne] using sqlEq_refl hnull

variable [OrderColumn]

/-- An insert under a key that is there fails. -/
theorem execute_duplicate (hcol : o.orderCol ∉ o.pks) (h : (o.board rows).Has o.pks new) :
    o.execute rows (.put .insert new spot) = none := by
  have hcells : ∃ c ∈ rows.map OrderedRow.cells, Agree o.pks c new := by
    obtain ⟨r, hr, hagree⟩ := has_board_iff.mp h
    exact ⟨_, List.mem_map_of_mem hr, hagree⟩
  have hend : ∀ given key, o.putAtEnd .insert new given key rows = none := by
    intro given key
    rw [putAtEnd]
    split
    · rfl
    · rw [if_neg fun hmove => nomatch hmove.1]
      split
      · exact write_insert_eq_none hcol hcells _
      · cases key with
        | none => rfl
        | some k => exact write_insert_eq_none hcol hcells k
  cases spot with
  | first => exact hend _ _
  | last => exact hend _ _
  | behind after =>
      rw [execute, place]
      split
      · rfl
      · rw [if_neg fun hmove => nomatch hmove.1]
        simp only [Option.bind_eq_bind, Option.bind_eq_none_iff]
        rintro ⟨rows', key⟩ hbehind k -
        refine write_insert_eq_none hcol ?_ k
        rwa [orderBehind_cells hbehind]

/-- A statement whose trigger cannot be prepared fails. -/
theorem execute_not_runs (h : ¬ o.Runs (firing kind spot)) :
    o.execute rows (.put kind new spot) = none := by
  cases spot with
  | first => exact if_pos h
  | last => exact if_pos h
  | behind after => exact if_pos h

/-- An UPDATE that finds no row changes nothing. -/
theorem execute_not_found (hcol : o.orderCol ∉ o.pks) (hruns : o.Runs (firing .move spot))
    (h : ¬ (o.board rows).Has o.pks new) :
    o.execute rows (.put .move new spot) = some rows := by
  have hnone : ∀ r ∈ rows, ¬ Agree o.pks (o.value r) new := fun r hr hagree =>
    h (has_board_iff.mpr ⟨r, hr, (agree_pks_iff hcol).mp hagree⟩)
  have hend : ∀ given key, o.Runs .insert →
      o.putAtEnd .move new given key rows = some rows := fun given key hruns => by
    rw [putAtEnd, if_neg (not_not.mpr hruns), if_pos ⟨rfl, hnone⟩]
  cases spot with
  | first => exact hend _ _ hruns
  | last => exact hend _ _ hruns
  | behind after =>
      have hmove : o.Runs .move := hruns
      rw [execute, place, if_neg (not_not.mpr hmove), if_pos ⟨rfl, hnone⟩]

end Refused

/-! ## Statements on the board -/

section Steps

variable {o : OrderedTable} {kind : Placement} {new key : Cells} {rows : List OrderedRow}
  {spot : Spot} {stmt : TableWrite}

theorem Ready.wf (h : o.Ready rows stmt) (hkept : o.Kept rows) : o.WF rows :=
  ⟨fun r hr => ⟨hkept.parts r hr, h.not_smallest r hr⟩, h.short, hkept.unique⟩

/-- The row that a statement names with `after_*`, where there is one. -/
theorem Ready.follows {after : Cells} (h : o.Ready rows (.put kind new (.behind after)))
    (hfound : ∃ r ∈ rows, Agree o.pks r.cells after) :
    ∃ x anchor, o.Follows new after rows x anchor := by
  obtain ⟨anchor, hmem, hagree⟩ := hfound
  obtain ⟨x, hx⟩ := List.mem_iff_getElem?.mp hmem
  exact ⟨x, anchor, hx, hagree, h.same_list _ _ _ rfl anchor hmem hagree,
    h.other_row _ _ _ rfl anchor hmem hagree⟩

variable [OrderColumn]

/-- A row that is put does to the board what the statement says. -/
theorem put_spec (htype : OrderColumn.isText = false) (hcol : o.orderCol ∉ o.pks) (hkept : o.Kept rows)
    (h : o.Ready rows (.put kind new spot)) (hruns : o.Runs (firing kind spot))
    (hkind : (∃ r ∈ rows, Agree o.pks r.cells new) ↔ kind = .move)
    (hway : o.MakesWay (o.board rows) new spot) :
    ∃ rows', o.execute rows (.put kind new spot) = some rows' ∧ o.Kept rows' ∧
      o.board rows' = (o.board rows).put o new spot := by
  have hwf := h.wf hkept
  cases spot with
  | first => exact first_spec htype hcol hwf hruns hkind
  | last => exact last_spec htype hcol hwf hruns hkind
  | behind after =>
      by_cases hfound : ∃ r ∈ rows, Agree o.pks r.cells after
      · obtain ⟨x, anchor, hf⟩ := h.follows hfound
        by_cases htied : o.tied new rows x anchor = 0
        · exact hf.alone hcol hwf hruns hkind htied
        · refine hf.makesWay hcol hwf hruns hkind htied (hway.resolve_left fun hcrowded => ?_)
          exact hcrowded ((hf.crowded_iff hcol hkept.unique).mpr htied)
      · refine behind_nothing hcol hwf hruns hkind fun r hr hagree => hfound ⟨r, hr, hagree⟩

/-- A row that cannot be put leaves everything as it was. -/
theorem put_refused (hcol : o.orderCol ∉ o.pks) (hkept : o.Kept rows)
    (h : o.Ready rows (.put kind new spot)) (hruns : o.Runs (firing kind spot))
    (hkind : (∃ r ∈ rows, Agree o.pks r.cells new) ↔ kind = .move)
    (hway : ¬ o.MakesWay (o.board rows) new spot) :
    o.execute rows (.put kind new spot) = none := by
  have hwf := h.wf hkept
  cases spot with
  | first => exact absurd trivial hway
  | last => exact absurd trivial hway
  | behind after =>
      obtain ⟨hcrowded, hcan⟩ := not_or.mp hway
      have hcrowded := not_not.mp hcrowded
      have hfound : ∃ r ∈ rows, Agree o.pks r.cells after := by
        obtain ⟨g, hg, ⟨c, hc, hagree⟩, -⟩ := hcrowded
        obtain ⟨k, -, rfl⟩ := List.mem_map.mp hg
        obtain ⟨r, hr, -, heq⟩ := mem_entries.mp (mem_level.mp hc)
        obtain ⟨-, rfl⟩ := Prod.mk.inj heq
        exact ⟨r, Multiset.mem_coe.mp hr, hagree⟩
      obtain ⟨x, anchor, hf⟩ := h.follows hfound
      exact hf.refuses hcol hwf hruns hkind ((hf.crowded_iff hcol hkept.unique).mp hcrowded) hcan

omit [OrderColumn] in
/-- Equality in SQL does not tell identical values apart. -/
theorem sqlEq_congr {u v w : SqlValue} (h : SqlValue.Is u v) :
    SqlValue.Eq u w ↔ SqlValue.Eq v w :=
  and_congr (not_congr (SqlValue.canon_eq_null_iff.symm.trans
    ((Eq.congr_left h).trans SqlValue.canon_eq_null_iff))) (Eq.congr_left h)

omit [OrderColumn] in
/-- An edit keeps the primary keys. -/
theorem agree_edited (hcol : o.orderCol ∉ o.pks) {r s : OrderedRow}
    (h : Agree o.pks (o.value (if Agree o.pks (o.value r) new then ⟨new, r.order⟩ else r))
      (o.value s)) : Agree o.pks (o.value r) (o.value s) := by
  split at h
  next hagree =>
    refine hagree.trans fun p hp => ?_
    have hne : p ≠ o.orderCol := fun heq => hcol (heq ▸ hp)
    simpa [value, hne] using h p hp
  next => exact h

/-- An edit leaves the row at its place, and does to the board what the statement says. -/
theorem edit_spec (hcol : o.orderCol ∉ o.pks) (hkept : o.Kept rows)
    (h : o.Ready rows (.edit new)) :
    ∃ rows', o.execute rows (.edit new) = some rows' ∧ o.Kept rows' ∧
      o.board rows' = (o.board rows).edit o new := by
  let f := fun r : OrderedRow =>
    if Agree o.pks (o.value r) new then OrderedRow.mk new r.order else r
  have hcells : ∀ r, (f r).cells = if Agree o.pks r.cells new then new else r.cells := by
    intro r
    by_cases hagree : Agree o.pks r.cells new
    · rw [if_pos hagree, show f r = ⟨new, r.order⟩ from if_pos ((agree_pks_iff hcol).mpr hagree)]
    · rw [if_neg hagree, show f r = r from if_neg fun h => hagree ((agree_pks_iff hcol).mp h)]
  have horder : ∀ r, (f r).order = r.order := fun r => by
    by_cases hagree : Agree o.pks (o.value r) new
    · rw [show f r = ⟨new, r.order⟩ from if_pos hagree]
    · rw [show f r = r from if_neg hagree]
  have hall : o.UniqueKeys (rows.map f) :=
    List.pairwise_map.mpr (hkept.unique.imp fun hne hagree =>
      hne (agree_edited hcol (agree_edited hcol hagree).symm).symm)
  have hparts : ∀ r ∈ rows.map f, ∃ i g, Parts r.order i g := by
    intro r hr
    obtain ⟨s, hs, rfl⟩ := List.mem_map.mp hr
    rw [horder]
    exact hkept.parts s hs
  refine ⟨rows.map f, if_pos hall, ⟨hall, hparts⟩, ?_⟩
  rw [board, Board.edit, Board.mk.injEq]
  constructor
  · rw [board, Multiset.map_map, ← Multiset.map_coe, Multiset.map_map]
    exact Multiset.map_congr rfl fun r _ => hcells r
  · funext v
    have hlist : ∀ r ∈ (rows : Multiset OrderedRow),
        (Agree o.collection (f r).cells v ↔ Agree o.collection r.cells v) := by
      intro r hr
      rw [hcells]
      split
      next hagree =>
        exact forall₂_congr fun c hc =>
          (sqlEq_congr (h.stays new rfl r (Multiset.mem_coe.mp hr) hagree c hc)).symm
      next => rfl
    have hfilter : (rows : Multiset OrderedRow).filter
        ((fun r => Agree o.collection r.cells v) ∘ f) =
          (rows : Multiset OrderedRow).filter fun r => Agree o.collection r.cells v :=
      Multiset.filter_congr hlist
    rw [board, ← arrange_map, ← Multiset.map_coe, entries, Multiset.filter_map,
      Multiset.map_map, entries, Multiset.map_map, hfilter]
    congr 1
    refine Multiset.map_congr rfl fun r _ => ?_
    rw [Function.comp_apply, Function.comp_apply, horder, hcells]

/-- So does a delete. -/
theorem delete_spec (hcol : o.orderCol ∉ o.pks) (hkept : o.Kept rows) :
    ∃ rows', o.execute rows (.delete key) = some rows' ∧ o.Kept rows' ∧
      o.board rows' = (o.board rows).delete o key := by
  have hfilter : ((rows.filter fun r => ¬ Agree o.pks (o.value r) key : List OrderedRow) :
      Multiset OrderedRow) = (rows : Multiset OrderedRow).filter fun r =>
        ¬ Agree o.pks r.cells key := by
    rw [← Multiset.filter_coe]
    exact Multiset.filter_congr fun r _ => not_congr (agree_pks_iff hcol)
  refine ⟨_, rfl, ⟨hkept.unique.filter _, fun r hr => hkept.parts r (List.mem_of_mem_filter hr)⟩, ?_⟩
  rw [board, hfilter, Board.delete, Board.mk.injEq]
  constructor
  · rw [board, Multiset.filter_map]
    rfl
  · funext v
    rw [entries_filter fun c => Agree o.pks c key, arrange_filter fun c => Agree o.pks c key]
    rfl

/-- A statement that the board accepts. -/
theorem execute_accepted (htype : OrderColumn.isText = false) (hcol : o.orderCol ∉ o.pks) (hkept : o.Kept rows)
    (h : o.Ready rows stmt) (hacc : o.Accepts (o.board rows) stmt) :
    ∃ rows', o.execute rows stmt = some rows' ∧ o.Kept rows' ∧
      o.board rows' = o.boardStep (o.board rows) stmt := by
  rw [boardStep, if_pos hacc]
  match stmt with
  | .put .insert new spot =>
      obtain ⟨hruns, hnew, hway⟩ := hacc
      rw [Board.perform, if_neg fun hmove => nomatch hmove.1]
      refine put_spec htype hcol hkept h hruns ?_ hway
      exact iff_of_false (fun hhas => hnew (has_board_iff.mpr hhas)) (nomatch ·)
  | .put .move new spot =>
      by_cases hhas : (o.board rows).Has o.pks new
      · rw [Board.perform, if_neg fun hmove => hmove.2 hhas]
        exact put_spec htype hcol hkept h hacc.1 (iff_of_true (has_board_iff.mp hhas) rfl)
          (hacc.2 hhas)
      · rw [Board.perform, if_pos ⟨rfl, hhas⟩]
        exact ⟨rows, execute_not_found hcol hacc.1 hhas, hkept, rfl⟩
  | .edit new => exact edit_spec hcol hkept h
  | .delete key => exact delete_spec hcol hkept

/-- A statement that the board does not accept. -/
theorem execute_refused (hcol : o.orderCol ∉ o.pks) (hkept : o.Kept rows)
    (h : o.Ready rows stmt) (hacc : ¬ o.Accepts (o.board rows) stmt) :
    o.execute rows stmt = none := by
  match stmt with
  | .put .insert new spot =>
      by_cases hruns : o.Runs (firing .insert spot)
      · by_cases hhas : (o.board rows).Has o.pks new
        · exact execute_duplicate hcol hhas
        · refine put_refused hcol hkept h hruns ?_ fun hway => hacc ⟨hruns, hhas, hway⟩
          exact iff_of_false (fun hfound => hhas (has_board_iff.mpr hfound)) (nomatch ·)
      · exact execute_not_runs hruns
  | .put .move new spot =>
      by_cases hruns : o.Runs (firing .move spot)
      · obtain ⟨hhas, hway⟩ := Classical.not_imp.mp fun himp => hacc ⟨hruns, himp⟩
        exact put_refused hcol hkept h hruns (iff_of_true (has_board_iff.mp hhas) rfl) hway
      · exact execute_not_runs hruns
  | .edit new => exact absurd trivial hacc
  | .delete key => exact absurd trivial hacc

/-- The table refuses what the board does not accept. -/
theorem execute_isSome_iff (htype : OrderColumn.isText = false) (hcol : o.orderCol ∉ o.pks) (hkept : o.Kept rows)
    (h : o.Ready rows stmt) :
    (o.execute rows stmt).isSome ↔ o.Accepts (o.board rows) stmt := by
  by_cases hacc : o.Accepts (o.board rows) stmt
  · obtain ⟨rows', hexec, -⟩ := execute_accepted htype hcol hkept h hacc
    simp [hexec, hacc]
  · simp [execute_refused hcol hkept h hacc, hacc]

/-- Every statement keeps the keys apart and in shape. -/
theorem kept_step (htype : OrderColumn.isText = false) (hcol : o.orderCol ∉ o.pks) (hkept : o.Kept rows)
    (h : o.Ready rows stmt) : o.Kept (o.step rows stmt) := by
  rw [step]
  by_cases hacc : o.Accepts (o.board rows) stmt
  · obtain ⟨rows', hexec, hall, -⟩ := execute_accepted htype hcol hkept h hacc
    rwa [hexec]
  · rwa [execute_refused hcol hkept h hacc]

/-- A statement on the table is that statement on its board. -/
theorem board_step (htype : OrderColumn.isText = false) (hcol : o.orderCol ∉ o.pks) (hkept : o.Kept rows)
    (h : o.Ready rows stmt) :
    o.board (o.step rows stmt) = o.boardStep (o.board rows) stmt := by
  rw [step]
  by_cases hacc : o.Accepts (o.board rows) stmt
  · obtain ⟨rows', hexec, -, hboard⟩ := execute_accepted htype hcol hkept h hacc
    rw [hexec, Option.getD_some, hboard]
  · rw [execute_refused hcol hkept h hacc, Option.getD_none, boardStep, if_neg hacc]

/-- A statement does to the board of the table what it does to the board. -/
theorem board_track (htype : OrderColumn.isText = false) (hcol : o.orderCol ∉ o.pks)
    {t : Tracked (List OrderedRow)} (hkept : o.Kept t.state) (h : o.Ready t.state stmt) :
    (o.track t stmt).map o.board = o.boardTrack (t.map o.board) stmt := by
  have haccepts : (o.execute t.state stmt).isSome = decide (o.Accepts (o.board t.state) stmt) :=
    Bool.eq_iff_iff.mpr ((execute_isSome_iff htype hcol hkept h).trans decide_eq_true_iff.symm)
  rw [track, Tracked.map, board_step htype hcol hkept h, haccepts]
  rfl

/-- A run of statements on the table is that run on its board, and the same statements fail. -/
theorem board_run (htype : OrderColumn.isText = false) (hcol : o.orderCol ∉ o.pks)
    (hkept : o.Kept rows) {stmts : List TableWrite}
    (hrun : Run.Allowed o.track (fun t stmt => o.Ready t.state stmt) ⟨rows, []⟩ stmts) :
    (Run.exec o.track ⟨rows, []⟩ stmts).map o.board =
      Run.exec o.boardTrack ⟨o.board rows, []⟩ stmts :=
  Run.exec_refines (Tracked.map o.board) (fun t => o.Kept t.state)
    (fun _ _ hkept h => kept_step htype hcol hkept h)
    (fun _ _ hkept h => board_track htype hcol hkept h) hkept hrun

end Steps

/-- Two rows at the end of a list, and one behind the first of them. -/
def threeRows : List TableWrite :=
  [.put .insert (keyed "2") .last, .put .insert (keyed "3") .last,
    .put .insert (keyed "6") (.behind (keyed "2"))]

/-- Three rows, of which one is put behind another. -/
theorem board_run_threeRows :
    (Run.exec (@track ⟨false⟩ oneKey) ⟨[], []⟩ threeRows).map oneKey.board =
        Run.exec oneKey.boardTrack ⟨oneKey.board [], []⟩ threeRows ∧
      (Run.exec (@track ⟨false⟩ oneKey) ⟨[], []⟩ threeRows).state.map OrderedRow.order =
        ["a0".toList, "a1".toList, "a0V".toList] := by
  refine ⟨@board_run _ _ ⟨false⟩ rfl (by decide) ⟨List.Pairwise.nil, by simp⟩ threeRows
    ⟨?_, ?_, ?_, trivial⟩, by decide +kernel⟩
  · exact ⟨by simp, by simp, by simp, by simp, by simp⟩
  · refine ⟨by decide +kernel, by decide +kernel, ?_, ?_, ?_⟩
    all_goals simp
  · refine ⟨by decide +kernel, by decide +kernel, ?_, ?_, by simp⟩
    · rintro kind new after ⟨⟩
      decide +kernel
    · rintro kind new after ⟨⟩
      decide +kernel

/-- In an order column of the affinity TEXT a row that is put at the end keeps the text `1`, and
stands in front of its list. -/
example : ((@execute ⟨true⟩ oneKey [⟨keyed "2", "a0".toList⟩]
    (.put .insert (keyed "3") .last)).map (List.map OrderedRow.order)) =
      some ["a0".toList, "1".toList] ∧ "1".toList < "a0".toList := by
  decide +kernel

end OrderedTable

end CrSqlite.Ordered
