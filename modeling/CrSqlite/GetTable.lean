import CrSqlite.Library.Heap
import CrSqlite.Library.Run
import Mathlib.Algebra.Order.Group.Multiset
import Mathlib.Data.Int.ModEq
import Mathlib.Data.List.Basic

/-!
# GetTable - a query result in memory

`crsql_get_table` and `crsql_free_table` (get-table.c): the rows of a query are copied, one
string for each value, into an array that grows as they come.  Every allocation may find no
memory, and SQLite may end the query with any code.  Sizes are 32 bits wide as in the source;
`sqlite3_realloc` takes an `int`, so an array of 2^28 pointers is none any more.

Main results:

- Theorem {lit}`execCalls_spec`: the callback puts the table of its calls together.
- Theorem {lit}`getTable_spec`: what is left in memory, and what the array holds.
- Theorem {lit}`freeTable_spec`: the array and its strings are freed, and nothing else.
- Theorem {lit}`getTable_freeTable`: both together leave memory as it was.
-/

namespace CrSqlite.GetTable

open Memory

/-! ## Memory -/

abbrev Chars := List Char

/-- A cell of the array: not written yet, the number of cells, or a string. -/
inductive Cell where
  | unset
  | count (n : Nat)
  | string (z : Option Nat)

inductive Block where
  | slots (cells : List Cell)
  | text (t : Chars)

def readCell (a i : Nat) : Mem Block Cell := do
  match ← load a with
  | .slots cells =>
      match cells[i]? with
      | some c => pure c
      | none => undefined
  | .text _ => undefined

def writeCell (a i : Nat) (c : Cell) : Mem Block Unit := do
  match ← load a with
  | .slots cells => if i < cells.length then store a (.slots (cells.set i c)) else undefined
  | .text _ => undefined

/-- `sizeof(char *)`. -/
def sizeofPointer : Nat := 8

/-- The first cells stay, and cells that are added are not written. -/
def resize (n : Nat) : Block → Block
  | .slots cells => .slots (cells.take n ++ List.replicate (n - cells.length) .unset)
  | .text t => .text t

/-- `sqlite3_realloc` of `n` pointers: a size that is not positive as an `int` frees the
array. -/
def reallocCells (a n : Nat) : Mem Block (Option Nat) :=
  let bytes := Int.bmod (sizeofPointer * n : Nat) (2 ^ 32)
  if bytes ≤ 0 then do
    free a
    pure none
  else realloc a (resize (bytes.toNat / sizeofPointer))

/-! ## crsql_get_table_cb -/

def SQLITE_OK : Nat := 0
def SQLITE_ERROR : Nat := 1
def SQLITE_ABORT : Nat := 4
def SQLITE_NOMEM : Nat := 7

theorem nomem_ne_ok : SQLITE_NOMEM ≠ SQLITE_OK := by
  decide

theorem error_ne_ok : SQLITE_ERROR ≠ SQLITE_OK := by
  decide

structure TabResult where
  azResult : Nat
  zErrMsg : Option Nat
  nAlloc : Nat
  nRow : Nat
  nColumn : Nat
  nData : Nat
  rc : Nat

/-- What SQLite calls the callback with: the names of the columns, and the values of a row
unless there is none. -/
structure Call where
  colv : List Chars
  argv : Option (List (Option Chars))
  length_eq : ∀ row ∈ argv, row.length = colv.length

/-- The accumulator after a step, and whether the step went through. -/
structure Step where
  p : TabResult
  ok : Bool

/-- `malloc_failed`. -/
def mallocFailed (p : TabResult) : Step :=
  ⟨{ p with rc := SQLITE_NOMEM }, false⟩

/-- Space for `need` more cells. -/
def makeRoom (p : TabResult) (need : Nat) : Mem Block Step :=
  if (p.nData + need) % 2 ^ 32 > p.nAlloc then do
    let p := { p with nAlloc := (p.nAlloc * 2 + need) % 2 ^ 32 }
    match ← reallocCells p.azResult p.nAlloc with
    | some azNew => pure ⟨{ p with azResult := azNew }, true⟩
    | none => pure (mallocFailed p)
  else pure ⟨p, true⟩

/-- The loops over names and values: a copy of each string is put into the next cell. -/
def copyStrings (p : TabResult) : List (Option Chars) → Mem Block Step
  | [] => pure ⟨p, true⟩
  | none :: values => do
      writeCell p.azResult p.nData (.string none)
      copyStrings { p with nData := p.nData + 1 } values
  | some t :: values => do
      match ← malloc (.text t) with
      | some z =>
          writeCell p.azResult p.nData (.string (some z))
          copyStrings { p with nData := p.nData + 1 } values
      | none => pure (mallocFailed p)

def incompatible : Chars :=
  "sqlite3_get_table() called with two or more incompatible queries".toList

/-- The names of the columns, in front of the first row. -/
def copyNames (p : TabResult) (call : Call) : Mem Block Step :=
  if p.nRow = 0 then
    copyStrings { p with nColumn := call.colv.length } (call.colv.map some)
  else if p.nColumn ≠ call.colv.length then do
    freeIfAny p.zErrMsg
    let z ← malloc (.text incompatible)
    pure ⟨{ p with zErrMsg := z, rc := SQLITE_ERROR }, false⟩
  else pure ⟨p, true⟩

def copyRow (p : TabResult) : Option (List (Option Chars)) → Mem Block Step
  | some argv => do
      let s ← copyStrings p argv
      if s.ok then pure ⟨{ s.p with nRow := s.p.nRow + 1 }, true⟩ else pure s
  | none => pure ⟨p, true⟩

/-- Cells for the row, and for the names in front of the first one. -/
def need (p : TabResult) (call : Call) : Nat :=
  if p.nRow = 0 ∧ call.argv.isSome then call.colv.length * 2 else call.colv.length

/-- The callback. -/
def getTableCb (p : TabResult) (call : Call) : Mem Block Step := do
  let s ← makeRoom p (need p call)
  if s.ok then
    let s ← copyNames s.p call
    if s.ok then copyRow s.p call.argv else pure s
  else pure s

/-! ## crsql_get_table -/

/-- What `sqlite3_exec` meets: the calls that the query makes, the code that it ends with, and
whether memory ran out inside of SQLite; and its error message. -/
structure Exec where
  calls : List Call
  finish : Nat
  outOfMemory : Bool
  message : Chars

/-- The callback is called until it does not return zero. -/
def execCalls (p : TabResult) : List Call → Mem Block Step
  | [] => pure ⟨p, true⟩
  | call :: calls => do
      let s ← getTableCb p call
      if s.ok then execCalls s.p calls else pure s

/-- `sqlite3_exec`, with its code and the message, where one is wanted. -/
def exec (p : TabResult) (e : Exec) (wantMsg : Bool) :
    Mem Block (TabResult × Nat × Option Nat) := do
  let s ← execCalls p e.calls
  let rc := if e.outOfMemory then SQLITE_NOMEM else if s.ok then e.finish else SQLITE_ABORT
  if rc ≠ SQLITE_OK ∧ wantMsg then
    match ← malloc (.text e.message) with
    | some msg => pure (s.p, rc, some msg)
    | none => pure (s.p, SQLITE_NOMEM, none)
  else pure (s.p, rc, none)

/-- The loop of `crsql_free_table`. -/
def freeCells (a : Nat) : Nat → Nat → Mem Block Unit
  | _, 0 => pure ()
  | i, n + 1 => do
      match ← readCell a i with
      | .string z =>
          freeIfAny z
          freeCells a (i + 1) n
      | _ => undefined

/-- `crsql_free_table`; the number of cells is in front of the ones that are handed out. -/
def freeTable : Option Nat → Mem Block Unit
  | some a => do
      match ← readCell a 0 with
      | .count n =>
          freeCells a 1 (n - 1)
          free a
      | _ => undefined
  | none => pure ()

/-- What `crsql_get_table` returns. -/
structure Outcome where
  rc : Nat
  pazResult : Option Nat
  pnRow : Nat
  pnColumn : Nat
  pzErrMsg : Option Nat

/-- The message of the callback takes the place of the one of SQLite. -/
def replaceMsg (zErrMsg msg : Option Nat) (wantMsg : Bool) : Mem Block (Option Nat) :=
  match zErrMsg with
  | some z =>
      if wantMsg then do
        freeIfAny msg
        match ← load z with
        | .text t =>
            let msg ← malloc (.text t)
            free z
            pure msg
        | .slots _ => undefined
      else do
        free z
        pure msg
  | none => pure msg

/-- The array is shrunk to the cells that are in use. -/
def handOut (res : TabResult) (rc : Nat) (msg : Option Nat) : Mem Block Outcome :=
  if res.nAlloc > res.nData then do
    match ← reallocCells res.azResult res.nData with
    | some azNew => pure ⟨rc, some azNew, res.nRow, res.nColumn, msg⟩
    | none =>
        freeTable (some res.azResult)
        pure ⟨SQLITE_NOMEM, none, 0, 0, msg⟩
  else pure ⟨rc, some res.azResult, res.nRow, res.nColumn, msg⟩

/-- `crsql_get_table`. -/
def getTable (e : Exec) (wantMsg : Bool) : Mem Block Outcome := do
  match ← malloc (.slots (List.replicate 20 .unset)) with
  | none => pure ⟨SQLITE_NOMEM, none, 0, 0, none⟩
  | some azResult =>
      writeCell azResult 0 (.string none)
      let (res, rc, msg) ← exec ⟨azResult, none, 20, 0, 0, 1, SQLITE_OK⟩ e wantMsg
      writeCell res.azResult 0 (.count res.nData)
      if rc % 256 = SQLITE_ABORT then
        freeTable (some res.azResult)
        let msg ← replaceMsg res.zErrMsg msg wantMsg
        pure ⟨res.rc, none, 0, 0, msg⟩
      else
        freeIfAny res.zErrMsg
        if rc ≠ SQLITE_OK then
          freeTable (some res.azResult)
          pure ⟨rc, none, 0, 0, msg⟩
        else handOut res rc msg

/-! ## The table -/

/-- What the calls put together: names in front of the first row, and the values row by row. -/
structure Table where
  nRow : Nat
  nColumn : Nat
  cells : List (Option Chars)

/-- A call has as many columns as those before. -/
def Table.Fits (t : Table) (call : Call) : Prop :=
  t.nRow = 0 ∨ t.nColumn = call.colv.length

def Table.add (t : Table) (call : Call) : Table where
  nRow := t.nRow + call.argv.toList.length
  nColumn := if t.nRow = 0 then call.colv.length else t.nColumn
  cells := t.cells ++ (if t.nRow = 0 then call.colv.map some else []) ++ call.argv.getD []

def tableOf (calls : List Call) : Table :=
  Run.exec Table.add ⟨0, 0, []⟩ calls

/-- All calls have the same number of columns. -/
def Compatible (calls : List Call) : Prop :=
  Run.Allowed Table.add Table.Fits ⟨0, 0, []⟩ calls

/-- The cells that a call behind the table makes room for: its values, and its names in front
of the first row. -/
def Table.room (t : Table) (call : Call) : Nat :=
  if t.nRow = 0 ∧ call.argv.isSome then call.colv.length * 2 else call.colv.length

/-- The cells that the calls make room for one after the other. -/
def Table.rooms (t : Table) : List Call → Nat
  | [] => 0
  | call :: calls => t.room call + (t.add call).rooms calls

/-! ## Cells in memory -/

section Cells

variable {e : Setting Block} {h : Heap Block} {s rest : Multiset (Nat × Block)}
  {a i k n : Nat} {b : Block} {c c₀ : Cell} {cells : List Cell}

/-- A cell of the array, with the text of its string. -/
abbrev Entry := Option (Nat × Chars)

def cellOf (e : Entry) : Cell :=
  .string (e.map Prod.fst)

/-- The array: a cell in front, the ones in use, and the ones that are left. -/
def slotsOf (c₀ : Cell) (cs : List Entry) (k : Nat) : Block :=
  .slots (c₀ :: (cs.map cellOf ++ List.replicate k .unset))

/-- The strings that the array points to. -/
def strings (cs : List Entry) : Multiset (Nat × Block) :=
  ((cs.filterMap id).map fun e => (e.1, Block.text e.2) : List (Nat × Block))

theorem strings_nil : strings [] = 0 :=
  rfl

theorem strings_none (cs : List Entry) : strings (none :: cs) = strings cs :=
  rfl

/-- The string of a cell is in front of the others. -/
theorem strings_some (z : Nat) (t : Chars) (cs : List Entry) :
    strings (some (z, t) :: cs) = (z, .text t) ::ₘ strings cs :=
  rfl

theorem strings_append (cs ds : List Entry) : strings (cs ++ ds) = strings cs + strings ds := by
  rw [strings, List.filterMap_append, List.map_append, ← Multiset.coe_add, strings, strings]

/-- A cell of the array is read. -/
theorem readCell_spec (ho : Owns e h ((a, .slots cells) ::ₘ s)) (hi : cells[i]? = some c) :
    wp (readCell a i) h fun c' h' => c' = c ∧ h' = h := by
  refine wp_bind (wp_mono ho.load ?_)
  rintro _ _ ⟨rfl, rfl⟩
  simp only [hi]
  exact wp_pure ⟨rfl, rfl⟩

/-- A cell of the array is written. -/
theorem writeCell_spec (ho : Owns e h ((a, .slots cells) ::ₘ s)) (hi : i < cells.length)
    (c : Cell) :
    wp (writeCell a i c) h fun _ h' => Owns e h' ((a, .slots (cells.set i c)) ::ₘ s) := by
  refine wp_bind (wp_mono ho.load ?_)
  rintro _ _ ⟨rfl, rfl⟩
  simp only [if_pos hi]
  exact ho.store _

/-- As long as the size is an `int`, the array is resized or stays. -/
theorem reallocCells_spec (ho : Owns e h ((a, b) ::ₘ s)) (hpos : 0 < n) (hn : n < 2 ^ 28) :
    wp (reallocCells a n) h fun q h' => match q with
      | some q => Owns e h' ((q, resize n b) ::ₘ s)
      | none => Owns e h' ((a, b) ::ₘ s) ∧ ¬ e.plenty := by
  have hsize : 0 < sizeofPointer * n := Nat.mul_pos (by decide) hpos
  have hcells : sizeofPointer * n / sizeofPointer = n := Nat.mul_div_cancel_left n (by decide)
  have hlt : sizeofPointer * n < 2 ^ 31 := by
    unfold sizeofPointer
    omega
  unfold reallocCells
  generalize sizeofPointer * n = size at hsize hcells hlt
  have hbytes : Int.bmod (size : Int) (2 ^ 32) = size := by
    rw [Int.bmod_def]
    push_cast
    split_ifs <;> omega
  rw [hbytes, if_neg (by omega), Int.toNat_natCast, hcells]
  exact ho.realloc _

/-- The array has more or fewer cells left, and the same ones in use. -/
theorem resize_slotsOf (c₀ : Cell) (cs : List Entry) (k : Nat) (hn : cs.length + 1 ≤ n) :
    resize n (slotsOf c₀ cs k) = slotsOf c₀ cs (n - (cs.length + 1)) := by
  obtain ⟨m, rfl⟩ := Nat.exists_eq_add_of_le' hn
  have htake : (cs.map cellOf ++ List.replicate k Cell.unset).take (m + cs.length) =
      cs.map cellOf ++ List.replicate (min m k) .unset := by
    rw [List.take_append, List.take_of_length_le (by simp), List.length_map, Nat.add_sub_cancel,
      List.take_replicate]
  have hleft : m + (cs.length + 1) - (cs.length + k + 1) = m - k := by omega
  rw [slotsOf, resize, ← Nat.add_assoc, List.take_succ_cons, htake, List.cons_append,
    List.append_assoc, List.length_cons, List.length_append, List.length_map,
    List.length_replicate, Nat.add_assoc m, hleft, List.replicate_append_replicate, slotsOf,
    Nat.add_sub_cancel, show min m k + (m - k) = m by omega]

/-- The first cell that is left is taken into use. -/
theorem set_slotsOf (c₀ : Cell) (cs : List Entry) (k : Nat) (e : Entry) :
    Block.slots ((c₀ :: (cs.map cellOf ++ List.replicate (k + 1) .unset)).set (cs.length + 1)
      (cellOf e)) = slotsOf c₀ (cs ++ [e]) k := by
  rw [slotsOf, List.set_cons_succ, List.set_append_right _ _ (by simp), List.length_map,
    Nat.sub_self, List.replicate_succ, List.set_cons_zero, List.map_append, List.append_assoc]
  rfl

/-- The loop of `crsql_free_table` frees the strings from a cell on. -/
theorem freeCells_spec {tail : List Cell} {cs : List Entry}
    (ho : Owns e h ((a, .slots cells) ::ₘ (strings cs + rest)))
    (hcells : cells.drop i = cs.map cellOf ++ tail) :
    wp (freeCells a i cs.length) h fun _ h' => Owns e h' ((a, .slots cells) ::ₘ rest) := by
  induction cs generalizing h i with
  | nil =>
      rw [strings_nil, Multiset.zero_add] at ho
      exact wp_pure ho
  | cons entry cs ih =>
      have hcell : cells[i]? = some (cellOf entry) := by
        rw [← Nat.add_zero i, ← List.getElem?_drop, hcells]
        rfl
      have hdrop : cells.drop (i + 1) = cs.map cellOf ++ tail := by
        rw [← List.drop_drop, hcells]
        rfl
      refine wp_bind (wp_mono (readCell_spec ho hcell) ?_)
      rintro _ _ ⟨rfl, rfl⟩
      refine wp_bind (wp_mono (Q := fun _ h' =>
        Owns e h' ((a, .slots cells) ::ₘ (strings cs + rest))) ?_ fun _ h' ho' => ih ho' hdrop)
      cases entry with
      | none => exact wp_pure ho
      | some zt =>
          rw [strings_some, Multiset.cons_add, Multiset.cons_swap] at ho
          exact ho.free

/-- `crsql_free_table` frees the array and the strings in it. -/
theorem freeTable_spec {cs : List Entry}
    (ho : Owns e h ((a, slotsOf (.count (cs.length + 1)) cs k) ::ₘ (strings cs + rest))) :
    wp (freeTable (some a)) h fun _ h' => Owns e h' rest := by
  refine wp_bind (wp_mono (readCell_spec (i := 0) ho rfl) ?_)
  rintro _ _ ⟨rfl, rfl⟩
  refine wp_bind (wp_mono (freeCells_spec (i := 1) ho rfl) fun _ h' ho' => ?_)
  exact ho'.free

end Cells

/-! ## The callback fills the array -/

section Filling

variable {e : Setting Block} {h : Heap Block} {p : TabResult} {cs : List Entry} {t : Table}
  {call : Call}

/-- The most cells that are asked for; three times as many pointers still have an `int` for
their size. -/
def maxCells : Nat := 2 ^ 26

/-- The accumulator and what it owns, while nothing went wrong. -/
structure Holds (e : Setting Block) (h : Heap Block) (p : TabResult) (cs : List Entry) : Prop where
  owns : Owns e h ((p.azResult, slotsOf (.string none) cs (p.nAlloc - p.nData)) ::ₘ strings cs)
  nData : p.nData = cs.length + 1
  room : p.nData ≤ p.nAlloc
  small : p.nAlloc < 2 ^ 28
  clean : p.zErrMsg = none
  rc : p.rc = SQLITE_OK

/-- The accumulator after a failure: memory ran out, or the calls have different columns. -/
structure Failed (e : Setting Block) (h : Heap Block) (fits : Prop) (p : TabResult) : Prop where
  owns : ∃ cs k, Owns e h ((p.azResult, slotsOf (.string none) cs k) ::ₘ
    (strings cs + block p.zErrMsg (.text incompatible))) ∧ p.nData = cs.length + 1
  rc : p.rc ≠ SQLITE_OK
  cause : ¬ e.plenty ∨ ¬ fits

/-- How a step ends. -/
inductive Ends (e : Setting Block) (h : Heap Block) (fits : Prop) (Q : TabResult → Prop) :
    Step → Prop where
  | through {p : TabResult} : Q p → Ends e h fits Q ⟨p, true⟩
  | failed {p : TabResult} : Failed e h fits p → Ends e h fits Q ⟨p, false⟩

/-- A step after another one, unless that failed. -/
theorem wp_andThen (fits : Prop) {fits' : Prop} {Q R : Heap Block → TabResult → Prop} {m : Mem Block Step}
    {f : TabResult → Mem Block Step} (himp : fits' → fits)
    (hm : wp m h fun s h' => Ends e h' fits (Q h') s)
    (hf : ∀ p h', Q h' p → wp (f p) h' fun s h'' => Ends e h'' fits' (R h'') s) :
    wp (do
      let s ← m
      if s.ok then f s.p else pure s) h fun s h' => Ends e h' fits' (R h') s := by
  refine wp_bind (wp_mono hm ?_)
  rintro _ h' (hq | hfail)
  · exact hf _ h' hq
  · exact wp_pure (.failed ⟨hfail.owns, hfail.rc, hfail.cause.imp id fun hno hfits =>
      hno (himp hfits)⟩)

/-- An accumulator without an error owns no message. -/
theorem Holds.owns_block (hh : Holds e h p cs) (b : Block) :
    Owns e h ((p.azResult, slotsOf (.string none) cs (p.nAlloc - p.nData)) ::ₘ
      (strings cs + block p.zErrMsg b)) := by
  rw [hh.clean, block, Multiset.add_zero]
  exact hh.owns

/-- An accumulator whose allocation fails. -/
theorem Holds.failed (hh : Holds e h p cs) {fits : Prop} (hcause : ¬ e.plenty ∨ ¬ fits) :
    Failed e h fits { p with rc := SQLITE_NOMEM } where
  owns := ⟨cs, _, hh.owns_block _, hh.nData⟩
  rc := nomem_ne_ok
  cause := hcause

/-- The array gets `n` more cells. -/
theorem makeRoom_spec (hh : Holds e h p cs) {n : Nat} {fits : Prop}
    (hn : p.nData + n ≤ maxCells + 1) :
    wp (makeRoom p n) h fun s h' => Ends e h' fits (fun p' =>
      (Holds e h' p' cs ∧ p'.nData + n ≤ p'.nAlloc) ∧
        p' = { p with azResult := p'.azResult, nAlloc := p'.nAlloc }) s := by
  have hsmall := hh.small
  have hdata := hh.nData
  have hroom := hh.room
  unfold maxCells at hn
  rw [makeRoom, Nat.mod_eq_of_lt (by omega)]
  split
  next hgt =>
    have hmod : (p.nAlloc * 2 + n) % 2 ^ 32 = p.nAlloc * 2 + n := Nat.mod_eq_of_lt (by omega)
    rw [hmod]
    refine wp_bind (wp_mono (reallocCells_spec hh.owns (by dsimp only; omega)
      (by dsimp only; omega)) fun q h' ho => ?_)
    cases q with
    | some azNew =>
        have hnew : Owns e h' ((azNew, slotsOf (.string none) cs (p.nAlloc * 2 + n - p.nData)) ::ₘ
            strings cs) := by
          rw [hdata, ← resize_slotsOf _ _ (p.nAlloc - p.nData) (by omega)]
          exact ho
        exact wp_pure (.through ⟨⟨⟨hnew, hdata, by dsimp only; omega, by dsimp only; omega,
          hh.clean, hh.rc⟩, by dsimp only; omega⟩, rfl⟩)
    | none =>
        obtain ⟨ho, hplenty⟩ := ho
        refine wp_pure (.failed ⟨⟨cs, p.nAlloc - p.nData, ?_, hdata⟩, nomem_ne_ok, Or.inl hplenty⟩)
        simp only [hh.clean, block, Multiset.add_zero]
        exact ho
  next hle => exact wp_pure (.through ⟨⟨hh, by omega⟩, rfl⟩)

/-- The strings of a list are copied into the next cells. -/
theorem copyStrings_spec (fits : Prop) {values : List (Option Chars)} (hh : Holds e h p cs)
    (hroom : p.nData + values.length ≤ p.nAlloc) :
    wp (copyStrings p values) h fun s h' => Ends e h' fits (fun p' =>
      (∃ new, Holds e h' p' (cs ++ new) ∧ new.map (Option.map Prod.snd) = values) ∧
        p' = { p with nData := p.nData + values.length }) s := by
  induction values generalizing h p cs with
  | nil => exact wp_pure (.through ⟨⟨[], by rwa [List.append_nil], rfl⟩, rfl⟩)
  | cons value values ih =>
      rw [List.length_cons] at hroom
      obtain ⟨k, hk⟩ : ∃ k, p.nAlloc - p.nData = k + 1 := ⟨p.nAlloc - p.nData - 1, by omega⟩
      have hdata := hh.nData
      have howns := hh.owns
      rw [hk] at howns
      -- the cell is written, and the rest of the values is copied behind it
      have hnext : ∀ (entry : Entry) {h' : Heap Block}, entry.map Prod.snd = value →
          Owns e h' ((p.azResult, slotsOf (.string none) (cs ++ [entry]) k) ::ₘ
            strings (cs ++ [entry])) →
          wp (copyStrings { p with nData := p.nData + 1 } values) h' fun s h'' =>
            Ends e h'' fits (fun p' => (∃ new, Holds e h'' p' (cs ++ new) ∧
              new.map (Option.map Prod.snd) = value :: values) ∧
                p' = { p with nData := p.nData + (value :: values).length }) s := by
        intro entry h' hentry ho
        have hh' : Holds e h' { p with nData := p.nData + 1 } (cs ++ [entry]) := by
          refine ⟨?_, by simp [hdata], by dsimp only; omega, hh.small, hh.clean, hh.rc⟩
          dsimp only
          rwa [show p.nAlloc - (p.nData + 1) = k by omega]
        refine wp_mono (ih hh' (by dsimp only; omega)) ?_
        rintro _ h'' (⟨⟨new, hnew, hvalues⟩, rfl⟩ | hfail)
        · refine .through ⟨⟨entry :: new, ?_, ?_⟩, ?_⟩
          · rwa [List.append_cons]
          · rw [List.map_cons, hentry, hvalues]
          · simp only [List.length_cons, Nat.add_assoc, Nat.add_comm 1]
        · exact .failed hfail
      have hcell : p.nData < (Cell.string none ::
          (cs.map cellOf ++ List.replicate (k + 1) .unset)).length := by
        simp
        omega
      cases value with
      | none =>
          refine wp_bind (wp_mono (writeCell_spec howns hcell (cellOf none)) fun _ h' ho => ?_)
          rw [hdata, set_slotsOf] at ho
          refine hnext none rfl ?_
          rwa [strings_append, strings_none, strings_nil, Multiset.add_zero]
      | some t =>
          refine wp_bind (wp_mono (howns.malloc (.text t)) fun q h' ho => ?_)
          cases q with
          | some z =>
              have ho' : Owns e h' ((p.azResult, slotsOf (.string none) cs (k + 1)) ::ₘ
                  ((z, .text t) ::ₘ strings cs)) := by
                rw [Multiset.cons_swap]
                exact ho
              refine wp_bind (wp_mono (writeCell_spec ho' hcell (cellOf (some (z, t))))
                fun _ h'' ho'' => ?_)
              rw [hdata, set_slotsOf] at ho''
              refine hnext (some (z, t)) rfl ?_
              rw [strings_append, strings_some, strings_nil, Multiset.add_cons, Multiset.add_zero]
              exact ho''
          | none =>
              obtain ⟨ho, hplenty⟩ := ho
              rw [← hk] at ho
              exact wp_pure (.failed (Holds.failed ⟨ho, hdata, hh.room, hh.small, hh.clean, hh.rc⟩
                (Or.inl hplenty)))

/-- The accumulator shows a table. -/
structure Shows (t : Table) (p : TabResult) (cs : List Entry) : Prop where
  cells : cs.map (Option.map Prod.snd) = t.cells
  nRow : p.nRow = t.nRow
  nColumn : p.nColumn = t.nColumn

/-- The table with the names of a call, where it is the first one. -/
def Table.addNames (t : Table) (call : Call) : Table :=
  if t.nRow = 0 then
    { t with nColumn := call.colv.length, cells := t.cells ++ call.colv.map some }
  else t

/-- The names are copied in front of the first row, and a call of another width is an error. -/
theorem copyNames_spec (hh : Holds e h p cs) (hs : Shows t p cs)
    (hroom : t.nRow = 0 → p.nData + call.colv.length ≤ p.nAlloc) :
    wp (copyNames p call) h fun s h' => Ends e h' (t.Fits call) (fun p' =>
      ∃ cs', Holds e h' p' cs' ∧ Shows (t.addNames call) p' cs' ∧ t.Fits call ∧
        p'.nAlloc = p.nAlloc ∧
        p'.nData = p.nData + if t.nRow = 0 then call.colv.length else 0) s := by
  rw [copyNames]
  by_cases hfirst : t.nRow = 0
  · rw [if_pos (hs.nRow.trans hfirst)]
    have hh' : Holds e h { p with nColumn := call.colv.length } cs :=
      ⟨hh.owns, hh.nData, hh.room, hh.small, hh.clean, hh.rc⟩
    refine wp_mono (copyStrings_spec (t.Fits call) hh' (by simpa using hroom hfirst)) ?_
    rintro _ h' (⟨⟨new, hnew, hvalues⟩, rfl⟩ | hfail)
    · refine .through ⟨cs ++ new, hnew, ⟨?_, ?_, ?_⟩, Or.inl hfirst, rfl, ?_⟩
      · rw [List.map_append, hs.cells, hvalues, Table.addNames, if_pos hfirst]
      · rw [Table.addNames, if_pos hfirst]
        exact hs.nRow
      · rw [Table.addNames, if_pos hfirst]
      · rw [if_pos hfirst, List.length_map]
    · exact .failed hfail
  · rw [if_neg (hs.nRow ▸ hfirst), hs.nColumn]
    by_cases hcolumns : t.nColumn = call.colv.length
    · rw [if_neg (not_not.mpr hcolumns)]
      refine wp_pure (.through ⟨cs, hh, ?_, Or.inr hcolumns, rfl, by rw [if_neg hfirst]; rfl⟩)
      rwa [Table.addNames, if_neg hfirst]
    · rw [if_pos hcolumns, hh.clean]
      have hunfit : ¬ t.Fits call := fun h => h.elim hfirst hcolumns
      refine wp_bind (wp_pure (wp_bind (wp_mono (hh.owns.malloc (.text incompatible))
        fun q h' ho => wp_pure (.failed ⟨⟨cs, p.nAlloc - p.nData, ?_, hh.nData⟩, error_ne_ok,
          Or.inr hunfit⟩))))
      cases q with
      | some z =>
          rw [block, Multiset.add_comm, Multiset.singleton_add, Multiset.cons_swap]
          exact ho
      | none =>
          rw [block, Multiset.add_zero]
          exact ho.1

/-- The values of a row are copied. -/
theorem copyRow_spec (fits : Prop) {argv : Option (List (Option Chars))} (hh : Holds e h p cs)
    (hs : Shows t p cs) (hroom : p.nData + (argv.getD []).length ≤ p.nAlloc) :
    wp (copyRow p argv) h fun s h' => Ends e h' fits (fun p' =>
      ∃ cs', Holds e h' p' cs' ∧ Shows
        ⟨t.nRow + argv.toList.length, t.nColumn, t.cells ++ argv.getD []⟩ p' cs' ∧
        p'.nData = p.nData + (argv.getD []).length) s := by
  cases argv with
  | none =>
      refine wp_pure (.through ⟨cs, hh, ⟨?_, hs.nRow, hs.nColumn⟩, rfl⟩)
      rw [Option.getD_none, List.append_nil, hs.cells]
  | some argv =>
      refine wp_andThen fits (f := fun p => pure ⟨{ p with nRow := p.nRow + 1 }, true⟩) id
        (copyStrings_spec fits hh hroom) ?_
      rintro _ h' ⟨⟨new, hnew, hvalues⟩, rfl⟩
      refine wp_pure (.through ⟨cs ++ new,
        ⟨hnew.owns, hnew.nData, hnew.room, hnew.small, hnew.clean, hnew.rc⟩, ⟨?_, ?_, hs.nColumn⟩,
        rfl⟩)
      · rw [List.map_append, hs.cells, hvalues, Option.getD_some]
      · exact congrArg (· + 1) hs.nRow

/-- The table with a call is the one with its names and its values. -/
theorem add_eq (t : Table) (call : Call) : t.add call =
    ⟨(t.addNames call).nRow + call.argv.toList.length, (t.addNames call).nColumn,
      (t.addNames call).cells ++ call.argv.getD []⟩ := by
  by_cases hfirst : t.nRow = 0
  · simp only [Table.add, Table.addNames, if_pos hfirst]
  · simp only [Table.add, Table.addNames, if_neg hfirst, List.append_nil]

/-- A row is not wider than its names. -/
theorem length_getD_argv (call : Call) : (call.argv.getD []).length ≤ call.colv.length := by
  cases hargv : call.argv with
  | none => exact Nat.zero_le _
  | some argv => exact Nat.le_of_eq (call.length_eq argv hargv)

/-- A call adds its row to the table. -/
theorem getTableCb_spec (hh : Holds e h p cs) (hs : Shows t p cs)
    (hrooms : p.nData + t.room call ≤ maxCells + 1) :
    wp (getTableCb p call) h fun s h' => Ends e h' (t.Fits call) (fun p' =>
      ∃ cs', Holds e h' p' cs' ∧ Shows (t.add call) p' cs' ∧ t.Fits call ∧
        p'.nData ≤ p.nData + t.room call) s := by
  have hargv := length_getD_argv call
  have hneed : need p call = (if t.nRow = 0 then call.colv.length else 0) +
      (call.argv.getD []).length ∨ (t.nRow ≠ 0 ∧ call.argv = none) := by
    rw [need, hs.nRow]
    cases hcall : call.argv with
    | none =>
        by_cases hfirst : t.nRow = 0
        · exact Or.inl (by simp [hfirst])
        · exact Or.inr ⟨hfirst, rfl⟩
    | some argv =>
        have hlen := call.length_eq argv hcall
        refine Or.inl ?_
        by_cases hfirst : t.nRow = 0
        · simp [hfirst, hlen, Nat.mul_two]
        · simp [hfirst, hlen]
  have hle : (if t.nRow = 0 then call.colv.length else 0) + (call.argv.getD []).length ≤
      need p call := by
    rcases hneed with heq | ⟨hfirst, hnone⟩
    · exact Nat.le_of_eq heq.symm
    · simp [hfirst, hnone]
  have hmax : need p call = t.room call := by
    rw [need, Table.room, hs.nRow]
  refine wp_andThen (t.Fits call) (f := fun p => do
      let s ← copyNames p call
      if s.ok then copyRow s.p call.argv else pure s) id
    (makeRoom_spec hh (by omega)) ?_
  rintro p₁ h₁ ⟨⟨hh₁, hroom⟩, heq⟩
  have hdata : p₁.nData = p.nData := by rw [heq]
  have hs₁ : Shows t p₁ cs := ⟨hs.cells, by rw [heq]; exact hs.nRow, by rw [heq]; exact hs.nColumn⟩
  refine wp_andThen (t.Fits call) (f := fun p => copyRow p call.argv) id
    (copyNames_spec hh₁ hs₁ fun hfirst => ?_) ?_
  · rw [if_pos hfirst] at hle
    omega
  · rintro p₂ h₂ ⟨cs₂, hh₂, hs₂, hfits, halloc, hdata₂⟩
    refine wp_mono (copyRow_spec (t.Fits call) hh₂ hs₂ (by omega)) ?_
    rintro _ h₃ (⟨cs₃, hh₃, hs₃, hdata₃⟩ | hfail)
    · refine .through ⟨cs₃, hh₃, ?_, hfits, by omega⟩
      rwa [add_eq]
    · exact .failed hfail

/-- The calls add their rows one after the other. -/
theorem execCalls_spec {calls : List Call} (hh : Holds e h p cs) (hs : Shows t p cs)
    (hrooms : p.nData + t.rooms calls ≤ maxCells + 1) :
    wp (execCalls p calls) h fun s h' =>
      Ends e h' (Run.Allowed Table.add Table.Fits t calls) (fun p' =>
        ∃ cs', Holds e h' p' cs' ∧ Shows (Run.exec Table.add t calls) p' cs' ∧
          Run.Allowed Table.add Table.Fits t calls) s := by
  induction calls generalizing h p cs t with
  | nil => exact wp_pure (.through ⟨cs, hh, hs, trivial⟩)
  | cons call calls ih =>
      rw [Table.rooms] at hrooms
      refine wp_andThen (t.Fits call) (f := fun p => execCalls p calls) And.left
        (getTableCb_spec hh hs (by omega)) ?_
      rintro p₁ h₁ ⟨cs₁, hh₁, hs₁, hfits, hdata⟩
      refine wp_mono (ih hh₁ hs₁ (by omega)) ?_
      rintro _ h₂ (⟨cs₂, hh₂, hs₂, hall⟩ | hfail)
      · exact .through ⟨cs₂, hh₂, hs₂, hfits, hall⟩
      · exact .failed ⟨hfail.owns, hfail.rc, hfail.cause.imp id fun hno hall => hno hall.2⟩

end Filling

/-! ## What is returned -/

section Returning

variable {e : Setting Block} {h : Heap Block} {x : Exec} {wantMsg : Bool}

/-- The query ends well, and its calls make a table. -/
structure Exec.Succeeds (x : Exec) : Prop where
  compatible : Compatible x.calls
  finish : x.finish = SQLITE_OK
  memory : x.outOfMemory = false

/-- How `sqlite3_exec` leaves the accumulator, its code and its message. -/
inductive Ran (e : Setting Block) (h : Heap Block) (x : Exec) (wantMsg : Bool) :
    TabResult × Nat × Option Nat → Prop where
  | done {p : TabResult} {cs : List Entry} : Holds e h p cs → Shows (tableOf x.calls) p cs →
      x.Succeeds → Ran e h x wantMsg (p, SQLITE_OK, none)
  | stopped {p : TabResult} {cs : List Entry} {k rc : Nat} {msg : Option Nat} :
      Owns e h ((p.azResult, slotsOf (.string none) cs k) ::ₘ (strings cs +
        (block p.zErrMsg (.text incompatible) + block msg (.text x.message)))) →
      p.nData = cs.length + 1 → rc ≠ SQLITE_OK → ¬ (e.plenty ∧ x.Succeeds) →
      (rc % 256 = SQLITE_ABORT → p.rc = SQLITE_OK → x.finish % 256 = SQLITE_ABORT) →
      (msg.isSome → wantMsg = true) → Ran e h x wantMsg (p, rc, msg)

/-- The message of a query that did not end well. -/
theorem stopped_spec {p : TabResult} {cs : List Entry} {k rc : Nat}
    (ho : Owns e h ((p.azResult, slotsOf (.string none) cs k) ::ₘ (strings cs +
      block p.zErrMsg (.text incompatible))))
    (hdata : p.nData = cs.length + 1) (hrc : rc ≠ SQLITE_OK) (hno : ¬ (e.plenty ∧ x.Succeeds))
    (habort : rc % 256 = SQLITE_ABORT → p.rc = SQLITE_OK → x.finish % 256 = SQLITE_ABORT) :
    wp (if rc ≠ SQLITE_OK ∧ wantMsg then do
        match ← malloc (.text x.message) with
        | some msg => pure (p, rc, some msg)
        | none => pure (p, SQLITE_NOMEM, none)
      else pure (p, rc, none)) h fun r h' => Ran e h' x wantMsg r := by
  have hnone : ∀ {h'}, Owns e h' ((p.azResult, slotsOf (.string none) cs k) ::ₘ (strings cs +
      block p.zErrMsg (.text incompatible))) → Owns e h' ((p.azResult,
        slotsOf (.string none) cs k) ::ₘ (strings cs + (block p.zErrMsg (.text incompatible) +
          block none (.text x.message)))) := by
    intro h' ho
    rwa [block_none, Multiset.add_zero]
  split
  next hboth =>
    refine wp_bind (wp_mono (ho.malloc (.text x.message)) fun q h' ho' => ?_)
    cases q with
    | some msg =>
        refine wp_pure (.stopped (k := k) ?_ hdata hrc hno habort fun _ => hboth.2)
        rw [← Multiset.add_assoc, Multiset.add_comm _ (block (some msg) _), block_some,
          Multiset.singleton_add, Multiset.cons_swap]
        exact ho'
    | none => exact wp_pure (.stopped (hnone ho'.1) hdata nomem_ne_ok hno (fun h => by cases h)
        fun h => by cases h)
  next =>
    exact wp_pure (.stopped (hnone ho) hdata hrc hno habort fun h => by cases h)

/-- The query leaves the table of its calls, or stops. -/
theorem exec_spec {p : TabResult} {cs : List Entry} (hh : Holds e h p cs)
    (hs : Shows ⟨0, 0, []⟩ p cs)
    (hrooms : p.nData + Table.rooms ⟨0, 0, []⟩ x.calls ≤ maxCells + 1) :
    wp (exec p x wantMsg) h fun r h' => Ran e h' x wantMsg r := by
  refine wp_bind (wp_mono (execCalls_spec hh hs hrooms) ?_)
  rintro _ h' (⟨cs', hh', hs', hall⟩ | ⟨⟨cs', k, ho, hdata⟩, hrc, hcause⟩)
  · dsimp only
    rw [if_pos rfl]
    by_cases hwell : x.outOfMemory = false ∧ x.finish = SQLITE_OK
    · rw [hwell.1, hwell.2]
      exact wp_pure (.done hh' hs' ⟨hall, hwell.2, hwell.1⟩)
    · refine stopped_spec (hh'.owns_block _) hh'.nData ?_ (fun h => hwell ⟨h.2.memory, h.2.finish⟩) ?_
      · cases hmem : x.outOfMemory with
        | true => exact nomem_ne_ok
        | false => exact fun hfinish => hwell ⟨hmem, hfinish⟩
      · cases x.outOfMemory with
        | true => exact fun h => by cases h
        | false => exact fun h _ => h
  · dsimp only
    rw [if_neg Bool.false_ne_true]
    refine stopped_spec ho hdata ?_ (fun h => ?_) fun _ h => absurd h hrc
    · cases x.outOfMemory <;> decide
    · exact hcause.elim (fun hno => hno h.1) fun hno => hno h.2.compatible

/-- What `crsql_get_table` returns, and what it leaves in memory. -/
inductive Returned (e : Setting Block) (h : Heap Block) (x : Exec) (wantMsg : Bool) :
    Outcome → Prop where
  /-- The cells of the table, with their number in front. -/
  | table {a : Nat} {cs : List Entry} :
      Owns e h ((a, slotsOf (.count (cs.length + 1)) cs 0) ::ₘ strings cs) →
      cs.map (Option.map Prod.snd) = (tableOf x.calls).cells → x.Succeeds →
      Returned e h x wantMsg
        ⟨SQLITE_OK, some a, (tableOf x.calls).nRow, (tableOf x.calls).nColumn, none⟩
  /-- A message at most. -/
  | nothing {rc : Nat} {msg : Option Nat} (text : Chars) :
      Owns e h (block msg (.text text)) → ¬ (e.plenty ∧ x.Succeeds) →
      (rc = SQLITE_OK → x.finish % 256 = SQLITE_ABORT) →
      (msg.isSome → wantMsg = true ∧ (text = x.message ∨ text = incompatible)) →
      Returned e h x wantMsg ⟨rc, none, 0, 0, msg⟩

/-- One message is left of the two. -/
theorem replaceMsg_spec {zErrMsg msg : Option Nat}
    (ho : Owns e h (block zErrMsg (.text incompatible) + block msg (.text x.message)))
    (hmsg : msg.isSome → wantMsg = true) :
    wp (replaceMsg zErrMsg msg wantMsg) h fun msg' h' => ∃ text,
      Owns e h' (block msg' (.text text)) ∧
        (msg'.isSome → wantMsg = true ∧ (text = x.message ∨ text = incompatible)) := by
  cases zErrMsg with
  | none =>
      rw [block_none, Multiset.zero_add] at ho
      exact wp_pure ⟨x.message, ho, fun hsome => ⟨hmsg hsome, Or.inl rfl⟩⟩
  | some z =>
      rw [block_some, Multiset.singleton_add] at ho
      cases wantMsg with
      | false =>
          rw [replaceMsg, if_neg Bool.false_ne_true]
          exact wp_bind (wp_mono ho.free fun _ h' ho' =>
            wp_pure ⟨x.message, ho', fun hsome => ⟨hmsg hsome, Or.inl rfl⟩⟩)
      | true =>
          rw [replaceMsg, if_pos rfl]
          rw [← Multiset.singleton_add, Multiset.add_comm] at ho
          refine wp_bind (wp_mono ho.freeIfAny fun _ h' ho' => ?_)
          refine wp_bind (wp_mono (Owns.load ho') ?_)
          rintro _ _ ⟨rfl, rfl⟩
          refine wp_bind (wp_mono (ho'.malloc _) fun q h₂ ho₂ => ?_)
          refine wp_bind (wp_mono (Q := fun _ h₃ => Owns e h₃ (block q (.text incompatible))) ?_
            fun _ h₃ ho₃ => wp_pure ⟨incompatible, ho₃, fun _ => ⟨rfl, Or.inr rfl⟩⟩)
          cases q with
          | some q =>
              refine Owns.free (b := .text incompatible) ?_
              rw [block, ← Multiset.singleton_add, Multiset.add_comm]
              exact ho₂
          | none => exact Owns.free ho₂.1

/-- The number of cells is put in front of them. -/
theorem writeCount_spec {a k : Nat} {cs : List Entry} {s : Multiset (Nat × Block)}
    (ho : Owns e h ((a, slotsOf (.string none) cs k) ::ₘ s)) (n : Nat) :
    wp (writeCell a 0 (.count n)) h fun _ h' => Owns e h' ((a, slotsOf (.count n) cs k) ::ₘ s) :=
  writeCell_spec ho (Nat.succ_pos _) (.count n)

/-- The array is handed out with the cells in use, or there is no memory for it. -/
theorem handOut_spec {p : TabResult} {cs : List Entry} {h₀ : Heap Block} (hh : Holds e h₀ p cs)
    (ho : Owns e h ((p.azResult, slotsOf (.count p.nData) cs (p.nAlloc - p.nData)) ::ₘ strings cs))
    (hs : Shows (tableOf x.calls) p cs) (hwell : x.Succeeds) :
    wp (handOut p SQLITE_OK none) h fun o h' => Returned e h' x wantMsg o := by
  have hroom := hh.room
  have hsmall := hh.small
  have hdata := hh.nData
  rw [handOut, hs.nRow, hs.nColumn]
  split
  next hmore =>
    refine wp_bind (wp_mono (reallocCells_spec ho (by omega) (by omega)) fun q h₁ ho₁ => ?_)
    cases q with
    | some azNew =>
        refine wp_pure (.table ?_ hs.cells hwell)
        rw [← hdata, ← Nat.sub_self (cs.length + 1), ← resize_slotsOf _ _ _ (Nat.le_refl _),
          ← hdata]
        exact ho₁
    | none =>
        rw [hdata, ← Multiset.add_zero (strings _)] at ho₁
        exact wp_bind (wp_mono (freeTable_spec ho₁.1) fun _ h₂ ho₂ =>
          wp_pure (.nothing [] ho₂ (fun h => ho₁.2 h.1) (fun h => by cases h)
            fun h => by cases h))
  next hfull =>
    refine wp_pure (.table ?_ hs.cells hwell)
    rwa [Nat.sub_eq_zero_of_le (by omega), hdata] at ho

/-- `crsql_get_table` returns the table of the query, or nothing. -/
theorem getTable_spec (ho : Owns e h 0) (hrooms : Table.rooms ⟨0, 0, []⟩ x.calls ≤ maxCells) :
    wp (getTable x wantMsg) h fun o h' => Returned e h' x wantMsg o := by
  refine wp_bind (wp_mono (ho.malloc (.slots (List.replicate 20 .unset))) fun q h₁ ho₁ => ?_)
  cases q with
  | none =>
      exact wp_pure (.nothing [] ho₁.1 (fun h => ho₁.2 h.1) (fun h => by cases h)
        fun h => by cases h)
  | some azResult =>
      refine wp_bind (wp_mono (writeCell_spec ho₁ (by simp) (.string none)) fun _ h₂ ho₂ => ?_)
      have hh : Holds e h₂ ⟨azResult, none, 20, 0, 0, 1, SQLITE_OK⟩ [] :=
        ⟨ho₂, rfl, by dsimp only; omega, by dsimp only; omega, rfl, rfl⟩
      refine wp_bind (wp_mono (exec_spec hh ⟨rfl, rfl, rfl⟩ (by dsimp only; omega)) ?_)
      rintro _ h₃ (⟨hh₃, hs₃, hwell⟩ | ⟨ho₃, hdata, hrc, hno, habort, hmsg⟩)
      · refine wp_bind (wp_mono (writeCount_spec hh₃.owns _) fun _ h₄ ho₄ => ?_)
        rw [if_neg (by decide), hh₃.clean]
        refine wp_bind (wp_pure ?_)
        rw [if_neg (by decide)]
        exact handOut_spec hh₃ ho₄ hs₃ hwell
      · refine wp_bind (wp_mono (writeCount_spec ho₃ _) fun _ h₄ ho₄ => ?_)
        rw [hdata] at ho₄
        split
        next hrcAbort =>
          refine wp_bind (wp_mono (freeTable_spec ho₄) fun _ h₅ ho₅ => ?_)
          refine wp_bind (wp_mono (replaceMsg_spec ho₅ hmsg) ?_)
          rintro msg h₆ ⟨text, ho₆, htext⟩
          exact wp_pure (.nothing _ ho₆ hno (habort hrcAbort) htext)
        next =>
          rw [← Multiset.singleton_add, add_left_comm (strings _), add_left_comm {_}] at ho₄
          refine wp_bind (wp_mono ho₄.freeIfAny fun _ h₅ ho₅ => ?_)
          exact wp_bind (wp_mono (freeTable_spec ho₅) fun _ h₆ ho₆ =>
            wp_pure (.nothing _ ho₆ hno (fun h => absurd h hrc) fun hsome =>
              ⟨hmsg hsome, Or.inl rfl⟩))

/-- A caller frees what it is given, and memory is as it was before. -/
theorem getTable_freeTable (hfresh : ∀ p, h.next ≤ p → h.blocks p = none)
    (hrooms : Table.rooms ⟨0, 0, []⟩ x.calls ≤ maxCells) :
    wp (getTable x wantMsg) h fun o h' =>
      Returned ⟨h.blocks, ∀ n, h.grants n = true⟩ h' x wantMsg o ∧
        wp (do
          freeTable o.pazResult
          freeIfAny o.pzErrMsg) h' fun _ h'' => h''.blocks = h.blocks := by
  have ho : Owns ⟨h.blocks, ∀ n, h.grants n = true⟩ h 0 :=
    owns_zero_iff.mpr ⟨id, hfresh, rfl⟩
  refine wp_mono (getTable_spec ho hrooms) fun o h' hreturned => ⟨hreturned, ?_⟩
  rcases hreturned with ⟨ho', -, -⟩ | ⟨_, ho', -, -, -⟩
  · rw [← Multiset.add_zero (strings _)] at ho'
    exact wp_bind (wp_mono (freeTable_spec ho') fun _ h'' ho'' =>
      wp_pure (owns_zero_iff.mp ho'').2.2)
  · rw [← Multiset.add_zero (block _ _)] at ho'
    exact wp_bind (wp_pure (wp_mono ho'.freeIfAny fun _ h'' ho'' =>
      (owns_zero_iff.mp ho'').2.2))

/-- Two rows of two columns, with a NULL. -/
def twoRows : Exec where
  calls :=
    [⟨["a".toList, "b".toList], some [some "1".toList, none], by decide⟩,
      ⟨["a".toList, "b".toList], some [some "2".toList, some "x".toList], by decide⟩]
  finish := SQLITE_OK
  outOfMemory := false
  message := []

/-- Two rows of two columns are returned and freed. -/
theorem getTable_freeTable_twoRows :
    wp (getTable twoRows true) ⟨fun _ => none, 0, fun _ => true⟩ fun o h' =>
      Returned ⟨fun _ => none, ∀ _ : Nat, true = true⟩ h' twoRows true o ∧
        wp (do
          freeTable o.pazResult
          freeIfAny o.pzErrMsg) h' fun _ h'' => h''.blocks = fun _ => none :=
  getTable_freeTable (fun _ _ => rfl) (by decide)

end Returning

end CrSqlite.GetTable
