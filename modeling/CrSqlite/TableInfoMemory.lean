import CrSqlite.ExtData
import CrSqlite.Library.Heap
import CrSqlite.Library.Run
import Mathlib.Algebra.BigOperators.Group.List.Basic
import Mathlib.Algebra.Order.Group.Multiset
import Mathlib.Tactic.Abel

/-!
# TableInfoMemory - the table descriptions in memory

A description is a block with the name of the table, the array of its columns, whose texts it
owns, and two more arrays with copies of the key columns and of the others (tableinfo.c).  A
connection holds an array of them, frees it and pulls it anew (ext-data.c), and frees it at its
end.  Every allocation finds memory here: the source does not check one of them.

Main results:

- Theorem {lit}`getTableInfo_spec`: a description, or nothing, is left in memory.
- Theorem {lit}`freeAllTableInfos_spec`: all of it is freed.
- Theorem {lit}`run_spec`: memory holds the descriptions that were read last.
- Theorem {lit}`session_spec`: nothing is freed twice, read after it was freed or left behind
  exactly when no pull comes back empty while descriptions are held, and no row of a table
  without key columns is read.
- Theorem {lit}`Shows.ensure`: up to there memory holds what {lit}`ExtData` describes.
-/

namespace CrSqlite.TableInfoMemory

open Memory

/-! ## Memory -/

/-- `crsql_ColumnInfo` with pointers to its texts. -/
structure ColumnCell where
  cid : Nat
  name : Option Nat
  type : Option Nat
  notnull : Bool
  pk : Nat

/-- `crsql_TableInfo`. -/
structure InfoCell where
  tblName : Option Nat
  baseCols : Option Nat
  baseColsLen : Nat
  pks : Option Nat
  pksLen : Nat
  nonPks : Option Nat
  nonPksLen : Nat

inductive Block where
  | text (t : Text)
  | columns (cells : List (Option ColumnCell))
  | info (cell : InfoCell)
  | infos (slots : List (Option Nat))

/-- A pointer that is read from or written to is not null. -/
def deref : Option Nat → Mem Block Nat
  | some p => pure p
  | none => undefined

/-- `sqlite3_malloc` of no bytes is the null pointer. -/
def mallocColumns (n : Nat) : Mem Block (Option Nat) :=
  if n = 0 then pure none else malloc (.columns (List.replicate n none))

def getColumn (a : Option Nat) (i : Nat) : Mem Block ColumnCell := do
  match ← load (← deref a) with
  | .columns cells =>
      match cells[i]? with
      | some (some c) => pure c
      | _ => undefined
  | _ => undefined

def setColumn (a : Option Nat) (i : Nat) (c : ColumnCell) : Mem Block Unit := do
  let a ← deref a
  match ← load a with
  | .columns cells =>
      if i < cells.length then store a (.columns (cells.set i (some c))) else undefined
  | _ => undefined

def getInfo (p : Nat) : Mem Block InfoCell := do
  match ← load p with
  | .info cell => pure cell
  | _ => undefined

def getText (z : Option Nat) : Mem Block Text := do
  match ← load (← deref z) with
  | .text t => pure t
  | _ => undefined

def getSlot (a : Option Nat) (i : Nat) : Mem Block (Option Nat) := do
  match ← load (← deref a) with
  | .infos slots =>
      match slots[i]? with
      | some p => pure p
      | none => undefined
  | _ => undefined

def setSlot (a : Option Nat) (i : Nat) (p : Nat) : Mem Block Unit := do
  let a ← deref a
  match ← load a with
  | .infos slots => if i < slots.length then store a (.infos (slots.set i (some p))) else undefined
  | _ => undefined

/-- `crsql_strdup`. -/
def strdup (t : Text) : Mem Block (Option Nat) :=
  malloc (.text t)

/-! ## Freeing -/

def freeColumnInfoContents (a : Option Nat) (i : Nat) : Mem Block Unit := do
  let c ← getColumn a i
  freeIfAny c.name
  freeIfAny c.type

/-- The loop over the contents of some columns. -/
def freeContents (a : Option Nat) : Nat → Nat → Mem Block Unit
  | _, 0 => pure ()
  | i, n + 1 => do
      freeColumnInfoContents a i
      freeContents a (i + 1) n

def freeColumnInfos (columnInfos : Option Nat) (len : Nat) : Mem Block Unit :=
  match columnInfos with
  | none => pure ()
  | some a => do
      freeContents (some a) 0 len
      free a

def freeTableInfo : Option Nat → Mem Block Unit
  | none => pure ()
  | some p => do
      let tableInfo ← getInfo p
      freeColumnInfos tableInfo.baseCols tableInfo.baseColsLen
      freeIfAny tableInfo.tblName
      freeIfAny tableInfo.pks
      freeIfAny tableInfo.nonPks
      free p

def freeTableInfos (a : Option Nat) : Nat → Nat → Mem Block Unit
  | _, 0 => pure ()
  | i, n + 1 => do
      freeTableInfo (← getSlot a i)
      freeTableInfos a (i + 1) n

def freeAllTableInfos (tableInfos : Option Nat) (len : Nat) : Mem Block Unit := do
  freeTableInfos tableInfos 0 len
  freeIfAny tableInfos

/-! ## Building a description -/

/-- `crsql_numPks`. -/
def numPks (colInfos : Option Nat) : Nat → Nat → Mem Block Nat
  | _, 0 => pure 0
  | i, n + 1 => do
      let c ← getColumn colInfos i
      let ret ← numPks colInfos (i + 1) n
      pure (if 0 < c.pk then ret + 1 else ret)

/-- The loops of `crsql_pks` and `crsql_nonPks`; `j` at the end. -/
def copyColumns (keep : Nat → Bool) (colInfos ret : Option Nat) : Nat → Nat → Nat → Mem Block Nat
  | _, j, 0 => pure j
  | i, j, n + 1 => do
      let c ← getColumn colInfos i
      if keep c.pk then
        setColumn ret j c
        copyColumns keep colInfos ret (i + 1) (j + 1) n
      else copyColumns keep colInfos ret (i + 1) j n

/-- `qsort` with `cmpPks`. -/
def sortColumns (a : Option Nat) : Mem Block Unit := do
  let a ← deref a
  match ← load a with
  | .columns cells =>
      match cells.mapM id with
      | some cs => store a (.columns ((cs.insertionSort fun c d => c.pk ≤ d.pk).map some))
      | none => undefined
  | _ => undefined

def assert (p : Prop) [Decidable p] : Mem Block Unit :=
  if p then pure () else undefined

/-- `crsql_pks`, and its length. -/
def pks (colInfos : Option Nat) (colInfosLen : Nat) : Mem Block (Option Nat × Nat) := do
  let pksLen ← numPks colInfos 0 colInfosLen
  if pksLen = 0 then pure (none, 0)
  else
    let ret ← mallocColumns pksLen
    let j ← copyColumns (fun pk => 0 < pk) colInfos ret 0 0 colInfosLen
    sortColumns ret
    assert (j = pksLen)
    pure (ret, pksLen)

/-- `crsql_nonPks`, and its length. -/
def nonPks (colInfos : Option Nat) (colInfosLen : Nat) : Mem Block (Option Nat × Nat) := do
  let nonPksLen := colInfosLen - (← numPks colInfos 0 colInfosLen)
  if nonPksLen = 0 then pure (none, 0)
  else
    let ret ← mallocColumns nonPksLen
    let j ← copyColumns (fun pk => pk = 0) colInfos ret 0 0 colInfosLen
    assert (j = nonPksLen)
    pure (ret, nonPksLen)

/-- `crsql_tableInfo`. -/
def tableInfo (tblName : Text) (colInfos : Option Nat) (colInfosLen : Nat) :
    Mem Block Nat := do
  let ret ← deref (← malloc (.info ⟨none, none, 0, none, 0, none, 0⟩))
  let tblName ← strdup tblName
  let (nonPks, nonPksLen) ← nonPks colInfos colInfosLen
  let (pks, pksLen) ← pks colInfos colInfosLen
  store ret (.info ⟨tblName, colInfos, colInfosLen, pks, pksLen, nonPks, nonPksLen⟩)
  pure ret

/-- What the pragma brings for a table: a count, or the code of an error as a negative number;
whether its statement is prepared; and the rows of that. -/
structure PragmaRead where
  count : Int
  prepared : Bool
  rows : List ColumnInfo

/-- The loop over the rows, and how many there were; none when they are more than was
counted. -/
def readRows (columnInfos : Option Nat) (numColInfos : Nat) :
    Nat → List ColumnInfo → Mem Block (Option Nat)
  | i, [] => pure (some i)
  | i, row :: rows =>
      if numColInfos ≤ i then do
        freeContents columnInfos 0 i
        freeIfAny columnInfos
        pure none
      else do
        let name ← strdup row.name
        let type ← strdup row.type
        setColumn columnInfos i ⟨row.cid, name, type, row.notnull, row.pk⟩
        readRows columnInfos numColInfos (i + 1) rows

/-- `crsql_getTableInfo`; none unless it returns SQLITE_OK. -/
def getTableInfo (tblName : Text) (r : PragmaRead) : Mem Block (Option Nat) :=
  if r.count < 0 ∨ r.prepared = false ∨ r.rows = [] then pure none
  else do
    let numColInfos := r.count.toNat
    let columnInfos ← mallocColumns numColInfos
    match ← readRows columnInfos numColInfos 0 r.rows with
    | none => pure none
    | some i =>
        if i < numColInfos then do
          freeContents columnInfos 0 i
          freeIfAny columnInfos
          pure none
        else do
          let ret ← tableInfo tblName columnInfos numColInfos
          pure (some ret)

/-! ## The descriptions of a connection -/

/-- What a pull reads: the names of the clock tables, or a failure, and the pragmas. -/
structure Pull where
  clockTables : Option (List Text)
  pragma : Text → PragmaRead

/-- The name of a clock table without its suffix `__crsql_clock`. -/
def baseTableName (clockTable : Text) : Text :=
  clockTable.take (clockTable.length - 13)

/-- The fields of `crsql_ExtData` for the descriptions. -/
structure ExtFields where
  pragmaSchemaVersionForTableInfos : Int
  zpTableInfos : Option Nat
  tableInfosLen : Nat

/-- The loop of `crsql_pullAllTableInfos`. -/
def pullTableInfos (p : Pull) (tableInfos : Option Nat) : Nat → List Text → Mem Block Bool
  | _, [] => pure true
  | i, clockTable :: clockTables => do
      let z ← malloc (.text (baseTableName clockTable))
      let tblName ← getText z
      match ← getTableInfo tblName (p.pragma tblName) with
      | none =>
          freeIfAny z
          pure false
      | some info =>
          setSlot tableInfos i info
          freeIfAny z
          pullTableInfos p tableInfos (i + 1) clockTables

/-- `crsql_pullAllTableInfos`, and whether it returns SQLITE_OK. -/
def pullAllTableInfos (x : ExtFields) (p : Pull) : Mem Block (ExtFields × Bool) :=
  match p.clockTables with
  | none => pure (x, false)
  | some [] => pure (x, true)
  | some clockTables => do
      let tableInfos ← malloc (.infos (List.replicate clockTables.length none))
      if ← pullTableInfos p tableInfos 0 clockTables then
        pure ({ x with zpTableInfos := tableInfos, tableInfosLen := clockTables.length }, true)
      else
        freeAllTableInfos tableInfos clockTables.length
        pure (x, false)

/-- The descriptions are freed and pulled again. -/
def refetchTableInfos (x : ExtFields) (p : Pull) : Mem Block ExtFields := do
  freeAllTableInfos x.zpTableInfos x.tableInfosLen
  let (x, ok) ← pullAllTableInfos x p
  if ok then pure x
  else
    freeAllTableInfos x.zpTableInfos x.tableInfosLen
    pure { x with zpTableInfos := none, tableInfosLen := 0 }

/-- `crsql_ensureTableInfosAreUpToDate` with the schema version that the pragma brings. -/
def ensureTableInfosAreUpToDate (x : ExtFields) (schemaVersion : Option Int) (p : Pull) :
    Mem Block ExtFields :=
  match schemaVersion with
  | none => pure x
  | some v =>
      if x.pragmaSchemaVersionForTableInfos < v then
        refetchTableInfos { x with pragmaSchemaVersionForTableInfos := v } p
      else if x.zpTableInfos = none then refetchTableInfos x p
      else pure x

/-- `crsql_findTableInfo`. -/
def findTableInfo (tblInfos : Option Nat) (tblName : Text) : Nat → Nat → Mem Block (Option Nat)
  | _, 0 => pure none
  | i, n + 1 => do
      let p ← deref (← getSlot tblInfos i)
      let tblInfo ← getInfo p
      if (← getText tblInfo.tblName) = tblName then pure (some p)
      else findTableInfo tblInfos tblName (i + 1) n

/-- What `changesNext` does with the description of the table of a row. -/
def changesNext (x : ExtFields) (tbl : Text) : Mem Block Unit := do
  match ← findTableInfo x.zpTableInfos tbl 0 x.tableInfosLen with
  | none => pure ()
  | some p =>
      let tblInfo ← getInfo p
      if tblInfo.pksLen = 0 then
        freeTableInfo (some p)
        -- the message has the name of the table
        let tblInfo ← getInfo p
        let _ ← getText tblInfo.tblName
        pure ()
      else pure ()

/-- `createCrr` has a description of its own. -/
def createCrr (tblName : Text) (r : PragmaRead) : Mem Block Unit := do
  freeTableInfo (← getTableInfo tblName r)

/-- What happens on the connection; `crsql_mergeInsert` looks for a table after it has made sure
of the descriptions. -/
inductive Op where
  | ensure (schemaVersion : Option Int) (p : Pull)
  | find (tbl : Text)
  | next (tbl : Text)
  | createCrr (tblName : Text) (r : PragmaRead)

def step (x : ExtFields) : Op → Mem Block ExtFields
  | .ensure schemaVersion p => ensureTableInfosAreUpToDate x schemaVersion p
  | .find tbl => do
      let _ ← findTableInfo x.zpTableInfos tbl 0 x.tableInfosLen
      pure x
  | .next tbl => do
      changesNext x tbl
      pure x
  | .createCrr tblName r => do
      createCrr tblName r
      pure x

def run (x : ExtFields) : List Op → Mem Block ExtFields
  | [] => pure x
  | op :: ops => do
      let x ← step x op
      run x ops

/-- `crsql_newExtData`. -/
def newExtFields : ExtFields :=
  ⟨-1, none, 0⟩

/-- A connection from its beginning to `crsql_freeExtData`. -/
def session (ops : List Op) : Mem Block Unit := do
  let x ← run newExtFields ops
  freeAllTableInfos x.zpTableInfos x.tableInfosLen

/-! ## What is owned -/

/-- A column in memory. -/
structure Column where
  name : Nat
  type : Nat
  info : ColumnInfo

def Column.cell (c : Column) : ColumnCell :=
  ⟨c.info.cid, some c.name, some c.type, c.info.notnull, c.info.pk⟩

/-- The texts of columns. -/
def texts (cs : List Column) : Multiset (Nat × Block) :=
  (cs.map fun c => {(c.name, Block.text c.info.name)} + {(c.type, Block.text c.info.type)}).sum

theorem texts_nil : texts [] = 0 :=
  rfl

/-- The texts of a column are in front of those of the others. -/
theorem texts_cons (c : Column) (cs : List Column) : texts (c :: cs) =
    {(c.name, .text c.info.name)} + {(c.type, .text c.info.type)} + texts cs := by
  rw [texts, List.map_cons, List.sum_cons]
  rfl

/-- The texts of columns in a row are put together. -/
theorem texts_append (cs ds : List Column) : texts (cs ++ ds) = texts cs + texts ds := by
  rw [texts, List.map_append, List.sum_append]
  rfl

/-- An array of columns, of which the last `k` are not written yet. -/
def columns (cs : List Column) (k : Nat) : Block :=
  .columns ((cs.map Column.cell).map some ++ List.replicate k none)

/-- A description in memory. -/
structure Stored where
  addr : Nat
  tblName : Nat
  baseCols : Nat
  pks : Option Nat
  nonPks : Option Nat
  name : Text
  cols : List Column

namespace Stored

def info (x : Stored) : TableInfo :=
  ⟨x.name, x.cols.map Column.info⟩

/-- The key columns in key order. -/
def pkCols (x : Stored) : List Column :=
  (x.cols.filter fun c => 0 < c.info.pk).insertionSort fun c d => c.info.pk ≤ d.info.pk

def nonPkCols (x : Stored) : List Column :=
  x.cols.filter fun c => c.info.pk = 0

def cell (x : Stored) : InfoCell :=
  ⟨some x.tblName, some x.baseCols, x.cols.length, x.pks, x.pkCols.length, x.nonPks,
    x.nonPkCols.length⟩

/-- The blocks besides the one that is pointed to. -/
def parts (x : Stored) : Multiset (Nat × Block) :=
  texts x.cols + {(x.baseCols, columns x.cols 0)} + {(x.tblName, .text x.name)} +
    block x.pks (columns x.pkCols 0) + block x.nonPks (columns x.nonPkCols 0)

def owned (x : Stored) : Multiset (Nat × Block) :=
  x.parts + {(x.addr, .info x.cell)}

end Stored

def ownedAll (xs : List Stored) : Multiset (Nat × Block) :=
  (xs.map Stored.owned).sum

theorem ownedAll_nil : ownedAll [] = 0 :=
  rfl

theorem ownedAll_cons (x : Stored) (xs : List Stored) :
    ownedAll (x :: xs) = x.owned + ownedAll xs := by
  rw [ownedAll, List.map_cons, List.sum_cons, ownedAll]

theorem ownedAll_append (xs ys : List Stored) :
    ownedAll (xs ++ ys) = ownedAll xs + ownedAll ys := by
  rw [ownedAll, List.map_append, List.sum_append, ownedAll, ownedAll]

/-- An array of descriptions, of which the last `k` are not there yet. -/
def infos (xs : List Stored) (k : Nat) : Block :=
  .infos ((xs.map Stored.addr).map some ++ List.replicate k none)

/-! ## Reading and writing -/

section Cells

variable {e : Setting Block} {h : Heap Block} {s : Multiset (Nat × Block)} {a i k : Nat}

/-- A column is read from an array that is there. -/
theorem getColumn_spec {cells : List (Option ColumnCell)} {c : ColumnCell} (ho : Owns e h s)
    (hmem : (a, .columns cells) ∈ s) (hi : cells[i]? = some (some c)) :
    wp (getColumn (some a) i) h fun c' h' => c' = c ∧ h' = h := by
  refine wp_bind (wp_pure (wp_bind (wp_mono (ho.load_of_mem hmem) ?_)))
  rintro _ _ ⟨rfl, rfl⟩
  simp only [hi]
  exact wp_pure ⟨rfl, rfl⟩

/-- A description is read where it is allocated. -/
theorem getInfo_spec {cell : InfoCell} (ho : Owns e h s) (hmem : (a, .info cell) ∈ s) :
    wp (getInfo a) h fun cell' h' => cell' = cell ∧ h' = h := by
  refine wp_bind (wp_mono (ho.load_of_mem hmem) ?_)
  rintro _ _ ⟨rfl, rfl⟩
  exact wp_pure ⟨rfl, rfl⟩

/-- A text is read where it is allocated. -/
theorem getText_spec {t : Text} (ho : Owns e h s) (hmem : (a, .text t) ∈ s) :
    wp (getText (some a)) h fun t' h' => t' = t ∧ h' = h := by
  refine wp_bind (wp_pure (wp_bind (wp_mono (ho.load_of_mem hmem) ?_)))
  rintro _ _ ⟨rfl, rfl⟩
  exact wp_pure ⟨rfl, rfl⟩

/-- A pointer is read from the array of descriptions. -/
theorem getSlot_spec {slots : List (Option Nat)} {p : Option Nat} (ho : Owns e h s)
    (hmem : (a, .infos slots) ∈ s) (hi : slots[i]? = some p) :
    wp (getSlot (some a) i) h fun p' h' => p' = p ∧ h' = h := by
  refine wp_bind (wp_pure (wp_bind (wp_mono (ho.load_of_mem hmem) ?_)))
  rintro _ _ ⟨rfl, rfl⟩
  simp only [hi]
  exact wp_pure ⟨rfl, rfl⟩

/-- The next cell that is not written yet. -/
theorem set_append_replicate {α : Type} (xs : List α) (y : α) (k : Nat) :
    (xs.map some ++ List.replicate (k + 1) none).set xs.length (some y) =
      (xs ++ [y]).map some ++ List.replicate k none := by
  rw [List.set_append_right _ _ (by simp), List.length_map, Nat.sub_self, List.replicate_succ,
    List.set_cons_zero, List.map_append, List.append_assoc]
  rfl

/-- The next column of an array is written. -/
theorem setColumn_spec {cs : List Column} (ho : Owns e h ((a, columns cs (k + 1)) ::ₘ s))
    (c : Column) :
    wp (setColumn (some a) cs.length c.cell) h fun _ h' =>
      Owns e h' ((a, columns (cs ++ [c]) k) ::ₘ s) := by
  have hroom : cs.length <
      ((cs.map Column.cell).map some ++ List.replicate (k + 1) none).length := by simp
  have hset := set_append_replicate (cs.map Column.cell) c.cell k
  have hcells : cs.map Column.cell ++ [c.cell] = (cs ++ [c]).map Column.cell := by simp
  rw [List.length_map, hcells] at hset
  refine wp_bind (wp_pure (wp_bind (wp_mono ho.load ?_)))
  rintro _ _ ⟨rfl, rfl⟩
  simp only [columns, if_pos hroom, hset]
  exact ho.store _

/-- The next slot of an array is written. -/
theorem setSlot_spec {xs : List Stored} (ho : Owns e h ((a, infos xs (k + 1)) ::ₘ s))
    (x : Stored) :
    wp (setSlot (some a) xs.length x.addr) h fun _ h' =>
      Owns e h' ((a, infos (xs ++ [x]) k) ::ₘ s) := by
  have hroom : xs.length <
      ((xs.map Stored.addr).map some ++ List.replicate (k + 1) none).length := by simp
  have hset := set_append_replicate (xs.map Stored.addr) x.addr k
  have hslots : xs.map Stored.addr ++ [x.addr] = (xs ++ [x]).map Stored.addr := by simp
  rw [List.length_map, hslots] at hset
  refine wp_bind (wp_pure (wp_bind (wp_mono ho.load ?_)))
  rintro _ _ ⟨rfl, rfl⟩
  simp only [infos, if_pos hroom, hset]
  exact ho.store _

/-- What is dropped up to a place begins with the element there. -/
theorem getElem?_of_drop {α : Type} {xs ys : List α} {y : α} (hdrop : xs.drop i = y :: ys) :
    xs[i]? = some y ∧ xs.drop (i + 1) = ys := by
  constructor
  · rw [← Nat.add_zero i, ← List.getElem?_drop, hdrop, List.getElem?_cons_zero]
  · rw [← List.drop_drop, hdrop, List.drop_one, List.tail_cons]

end Cells

/-! ## Freeing what is owned -/

section Freeing

variable {e : Setting Block} {h : Heap Block} {s : Multiset (Nat × Block)} {a i k : Nat}

/-- The texts of the columns of an array are freed. -/
theorem freeContents_spec {cells rest : List (Option ColumnCell)} {cs : List Column}
    (ho : Owns e h (texts cs + s)) (hmem : (a, .columns cells) ∈ s)
    (hdrop : cells.drop i = (cs.map Column.cell).map some ++ rest) :
    wp (freeContents (some a) i cs.length) h fun _ h' => Owns e h' s := by
  induction cs generalizing h i with
  | nil =>
      rw [texts_nil, Multiset.zero_add] at ho
      exact wp_pure ho
  | cons c cs ih =>
      obtain ⟨hi, hnext⟩ := getElem?_of_drop hdrop
      have hin : (a, Block.columns cells) ∈ texts (c :: cs) + s :=
        Multiset.mem_add.mpr (Or.inr hmem)
      refine wp_bind (wp_mono (Q := fun _ h' => Owns e h' (texts cs + s)) ?_
        fun _ h' ho' => ih ho' hnext)
      refine wp_bind (wp_mono (getColumn_spec ho hin hi) ?_)
      rintro _ _ ⟨rfl, rfl⟩
      rw [texts_cons, add_assoc, add_assoc, Multiset.singleton_add] at ho
      refine wp_bind (wp_mono ho.free fun _ h₁ ho₁ => ?_)
      rw [Multiset.singleton_add] at ho₁
      exact ho₁.free

/-- The columns are freed with their texts and the array. -/
theorem freeColumnInfos_spec {cs : List Column}
    (ho : Owns e h (texts cs + {(a, columns cs k)} + s)) :
    wp (freeColumnInfos (some a) cs.length) h fun _ h' => Owns e h' s := by
  rw [add_assoc] at ho
  refine wp_bind (wp_mono (freeContents_spec (i := 0) ho (Multiset.mem_add.mpr (Or.inl
    (Multiset.mem_singleton_self _))) rfl) fun _ h' ho' => ?_)
  exact Owns.free ho'

/-- A description is freed with all that it owns. -/
theorem freeTableInfo_spec {x : Stored} (ho : Owns e h (x.owned + s)) :
    wp (freeTableInfo (some x.addr)) h fun _ h' => Owns e h' s := by
  have hin : (x.addr, Block.info x.cell) ∈ x.owned + s := by simp [Stored.owned]
  refine wp_bind (wp_mono (getInfo_spec ho hin) ?_)
  rintro _ _ ⟨rfl, rfl⟩
  simp only [Stored.owned, Stored.parts, add_assoc] at ho
  rw [← add_assoc] at ho
  refine wp_bind (wp_mono (freeColumnInfos_spec ho) fun _ h₁ ho₁ => ?_)
  rw [Multiset.singleton_add] at ho₁
  refine wp_bind (wp_mono ho₁.free fun _ h₂ ho₂ => ?_)
  refine wp_bind (wp_mono ho₂.freeIfAny fun _ h₃ ho₃ => ?_)
  refine wp_bind (wp_mono ho₃.freeIfAny fun _ h₄ ho₄ => ?_)
  exact Owns.free ho₄

/-- The descriptions of an array are freed. -/
theorem freeTableInfos_spec {slots : List (Option Nat)} {xs : List Stored}
    (ho : Owns e h (ownedAll xs + s)) (hmem : (a, .infos slots) ∈ s)
    (hdrop : slots.drop i = (xs.map Stored.addr).map some ++ List.replicate k none) :
    wp (freeTableInfos (some a) i (xs.length + k)) h fun _ h' => Owns e h' s := by
  induction xs generalizing h i with
  | nil =>
      rw [ownedAll_nil, Multiset.zero_add] at ho
      rw [List.length_nil, Nat.zero_add]
      -- the slots that are left are null
      induction k generalizing i with
      | zero => exact wp_pure ho
      | succ k ihk =>
          obtain ⟨hi, hnext⟩ := getElem?_of_drop hdrop
          refine wp_bind (wp_mono (getSlot_spec ho hmem hi) ?_)
          rintro _ _ ⟨rfl, rfl⟩
          exact wp_bind (wp_pure (ihk hnext))
  | cons x xs ih =>
      obtain ⟨hi, hnext⟩ := getElem?_of_drop hdrop
      rw [List.length_cons, Nat.succ_add]
      refine wp_bind (wp_mono (getSlot_spec ho (Multiset.mem_add.mpr (Or.inr hmem)) hi) ?_)
      rintro _ _ ⟨rfl, rfl⟩
      rw [ownedAll_cons, add_assoc] at ho
      exact wp_bind (wp_mono (freeTableInfo_spec ho) fun _ h' ho' => ih ho' hnext)

/-- All descriptions are freed, and their array. -/
theorem freeAllTableInfos_spec {xs : List Stored}
    (ho : Owns e h (ownedAll xs + ({(a, infos xs k)} + s))) :
    wp (freeAllTableInfos (some a) (xs.length + k)) h fun _ h' => Owns e h' s := by
  refine wp_bind (wp_mono (freeTableInfos_spec (i := 0) ho (Multiset.mem_add.mpr (Or.inl
    (Multiset.mem_singleton_self _))) rfl) fun _ h' ho' => ?_)
  exact Owns.free ho'

end Freeing

/-! ## Building what is owned -/

section Building

variable {e : Setting Block} {h : Heap Block} {s : Multiset (Nat × Block)} {a i k : Nat}
  {cells : List (Option ColumnCell)} {cs : List Column}

/-- The loop counts the key columns. -/
theorem numPks_spec {rest : List (Option ColumnCell)} (ho : Owns e h s)
    (hmem : (a, .columns cells) ∈ s)
    (hdrop : cells.drop i = (cs.map Column.cell).map some ++ rest) :
    wp (numPks (some a) i cs.length) h fun n h' =>
      n = (cs.filter fun c => 0 < c.info.pk).length ∧ h' = h := by
  induction cs generalizing i with
  | nil => exact wp_pure ⟨rfl, rfl⟩
  | cons c cs ih =>
      obtain ⟨hi, hnext⟩ := getElem?_of_drop hdrop
      refine wp_bind (wp_mono (getColumn_spec ho hmem hi) ?_)
      rintro _ _ ⟨rfl, rfl⟩
      refine wp_bind (wp_mono (ih hnext) ?_)
      rintro _ _ ⟨rfl, rfl⟩
      refine wp_pure ⟨?_, rfl⟩
      by_cases hpk : 0 < c.info.pk
      · simp [Column.cell, hpk]
      · simp [Column.cell, hpk]

/-- The columns that are kept are copied behind those that are there. -/
theorem copyColumns_spec (keep : Nat → Bool) {q : Nat} (done : List Column)
    {rest : List (Option ColumnCell)} (ho : Owns e h ((q, columns done k) ::ₘ s))
    (hmem : (a, .columns cells) ∈ s)
    (hdrop : cells.drop i = (cs.map Column.cell).map some ++ rest)
    (hroom : k = (cs.filter fun c => keep c.info.pk).length) :
    wp (copyColumns keep (some a) (some q) i done.length cs.length) h fun j h' =>
      j = done.length + k ∧
        Owns e h' ((q, columns (done ++ cs.filter fun c => keep c.info.pk) 0) ::ₘ s) := by
  induction cs generalizing h i k done with
  | nil =>
      obtain rfl : k = 0 := hroom
      exact wp_pure ⟨rfl, by rwa [List.filter_nil, List.append_nil]⟩
  | cons c cs ih =>
      obtain ⟨hi, hnext⟩ := getElem?_of_drop hdrop
      refine wp_bind (wp_mono (getColumn_spec ho (Multiset.mem_cons_of_mem hmem) hi) ?_)
      rintro _ _ ⟨rfl, rfl⟩
      by_cases hkeep : keep c.cell.pk = true
      · have hfilter : (c :: cs).filter (fun c : Column => keep c.info.pk) =
            c :: cs.filter fun c : Column => keep c.info.pk := List.filter_cons_of_pos hkeep
        rw [hfilter, List.length_cons] at hroom
        subst hroom
        rw [if_pos hkeep, hfilter]
        refine wp_bind (wp_mono (setColumn_spec ho c) fun _ h' ho' => ?_)
        have hlen : done.length + 1 = (done ++ [c]).length := by simp
        rw [hlen]
        refine wp_mono (ih _ ho' hnext rfl) ?_
        rintro j h'' ⟨rfl, ho''⟩
        refine ⟨by simp [Nat.add_assoc, Nat.add_comm 1], ?_⟩
        rwa [List.append_cons]
      · have hfilter : (c :: cs).filter (fun c : Column => keep c.info.pk) =
            cs.filter fun c : Column => keep c.info.pk := List.filter_cons_of_neg hkeep
        rw [hfilter] at hroom ⊢
        rw [if_neg hkeep]
        exact ih done ho hnext hroom

/-- A list without a gap is its elements. -/
theorem mapM_id_map_some {α : Type} (xs : List α) : (xs.map some).mapM id = some xs := by
  induction xs with
  | nil => rfl
  | cons x xs ih => simp [ih]

/-- The columns are sorted by their places in the key. -/
theorem sortColumns_spec (ho : Owns e h ((a, columns cs 0) ::ₘ s)) :
    wp (sortColumns (some a)) h fun _ h' => Owns e h'
      ((a, columns (cs.insertionSort fun c d => c.info.pk ≤ d.info.pk) 0) ::ₘ s) := by
  refine wp_bind (wp_pure (wp_bind (wp_mono ho.load ?_)))
  rintro _ _ ⟨rfl, rfl⟩
  have hsort : (cs.map Column.cell).insertionSort (fun c d => c.pk ≤ d.pk) =
      (cs.insertionSort fun c d => c.info.pk ≤ d.info.pk).map Column.cell :=
    (List.map_insertionSort _ _ Column.cell cs fun _ _ _ _ => Iff.rfl).symm
  simp only [columns, List.replicate_zero, List.append_nil, mapM_id_map_some, hsort]
  exact ho.store _

/-- An array for columns is allocated, and none where there are no columns. -/
theorem mallocColumns_spec (hplenty : e.plenty) (ho : Owns e h s) (n : Nat) :
    wp (mallocColumns n) h fun q h' =>
      (q = none ↔ n = 0) ∧ Owns e h' (block q (columns [] n) + s) := by
  rw [mallocColumns]
  split
  next hzero =>
    refine wp_pure ⟨iff_of_true rfl hzero, ?_⟩
    rwa [block_none, Multiset.zero_add]
  next hpos =>
    refine wp_mono (ho.malloc_of_plenty hplenty _) ?_
    rintro _ h' ⟨p, rfl, ho'⟩
    exact ⟨iff_of_false (by simp) hpos, ho'⟩

/-- The key columns in an array of their own. -/
theorem pks_spec (hplenty : e.plenty) (ho : Owns e h s) (hmem : (a, columns cs 0) ∈ s) :
    wp (pks (some a) cs.length) h fun r h' =>
      r.2 = (cs.filter fun c => 0 < c.info.pk).length ∧
        Owns e h' (block r.1 (columns ((cs.filter fun c => 0 < c.info.pk).insertionSort
          fun c d => c.info.pk ≤ d.info.pk) 0) + s) := by
  refine wp_bind (wp_mono (numPks_spec (i := 0) ho hmem rfl) ?_)
  rintro _ _ ⟨rfl, rfl⟩
  split
  next hzero =>
    refine wp_pure ⟨hzero.symm, ?_⟩
    rwa [block_none, Multiset.zero_add]
  next hpos =>
    refine wp_bind (wp_mono (mallocColumns_spec hplenty ho _) ?_)
    rintro q h₁ ⟨hq, ho₁⟩
    obtain ⟨p, rfl⟩ := Option.ne_none_iff_exists'.mp (mt hq.mp hpos)
    refine wp_bind (wp_mono (copyColumns_spec (fun pk => 0 < pk) (i := 0) []
      ho₁ hmem rfl rfl) ?_)
    rintro j h₂ ⟨rfl, ho₂⟩
    refine wp_bind (wp_mono (sortColumns_spec ho₂) fun _ h₃ ho₃ => ?_)
    rw [List.length_nil, Nat.zero_add, assert, if_pos rfl]
    exact wp_bind (wp_pure (wp_pure ⟨rfl, ho₃⟩))

/-- The columns outside the key are those that are left over. -/
theorem length_filter_nonPk (cs : List Column) :
    cs.length - (cs.filter fun c => 0 < c.info.pk).length =
      (cs.filter fun c => c.info.pk = 0).length := by
  have hsplit := List.length_eq_length_filter_add (l := cs) fun c => 0 < c.info.pk
  have hnot : (cs.filter fun c => !decide (0 < c.info.pk)) = cs.filter fun c => c.info.pk = 0 :=
    List.filter_congr fun c _ => by simp [Nat.pos_iff_ne_zero]
  rw [hnot] at hsplit
  omega

/-- The other columns in an array of their own. -/
theorem nonPks_spec (hplenty : e.plenty) (ho : Owns e h s) (hmem : (a, columns cs 0) ∈ s) :
    wp (nonPks (some a) cs.length) h fun r h' =>
      r.2 = (cs.filter fun c => c.info.pk = 0).length ∧
        Owns e h' (block r.1 (columns (cs.filter fun c => c.info.pk = 0) 0) + s) := by
  refine wp_bind (wp_mono (numPks_spec (i := 0) ho hmem rfl) ?_)
  rintro _ _ ⟨rfl, rfl⟩
  rw [length_filter_nonPk]
  dsimp only
  split
  next hzero =>
    refine wp_pure ⟨hzero.symm, ?_⟩
    rwa [block_none, Multiset.zero_add]
  next hpos =>
    refine wp_bind (wp_mono (mallocColumns_spec hplenty ho _) ?_)
    rintro q h₁ ⟨hq, ho₁⟩
    obtain ⟨p, rfl⟩ := Option.ne_none_iff_exists'.mp (mt hq.mp hpos)
    refine wp_bind (wp_mono (copyColumns_spec (fun pk => pk = 0) (i := 0) []
      ho₁ hmem rfl rfl) ?_)
    rintro j h₂ ⟨rfl, ho₂⟩
    rw [List.length_nil, Nat.zero_add, assert, if_pos rfl]
    exact wp_bind (wp_pure (wp_pure ⟨rfl, ho₂⟩))

/-- The description of a table whose columns have been read. -/
theorem tableInfo_spec (hplenty : e.plenty) (name : Text)
    (ho : Owns e h (texts cs + {(a, columns cs 0)} + s)) :
    wp (tableInfo name (some a) cs.length) h fun p h' =>
      ∃ x : Stored, x.name = name ∧ x.cols = cs ∧ p = x.addr ∧ Owns e h' (x.owned + s) := by
  have hin : (a, columns cs 0) ∈ texts cs + {(a, columns cs 0)} + s := by simp
  refine wp_bind (wp_mono (ho.malloc_of_plenty hplenty _) ?_)
  rintro _ h₁ ⟨ret, rfl, ho₁⟩
  refine wp_bind (wp_pure (wp_bind (wp_mono (ho₁.malloc_of_plenty hplenty (.text name)) ?_)))
  rintro _ h₂ ⟨tblName, rfl, ho₂⟩
  have hin₂ := Multiset.mem_cons_of_mem (b := (tblName, Block.text name))
    (Multiset.mem_cons_of_mem (b := (ret, Block.info ⟨none, none, 0, none, 0, none, 0⟩)) hin)
  refine wp_bind (wp_mono (nonPks_spec hplenty ho₂ hin₂) ?_)
  rintro ⟨nonPks, _⟩ h₃ ⟨rfl, ho₃⟩
  refine wp_bind (wp_mono (pks_spec hplenty ho₃ (Multiset.mem_add.mpr (Or.inr hin₂))) ?_)
  rintro ⟨pks, _⟩ h₄ ⟨rfl, ho₄⟩
  let x : Stored := ⟨ret, tblName, a, pks, nonPks, name, cs⟩
  have ho₄' : Owns e h₄ ((ret, .info ⟨none, none, 0, none, 0, none, 0⟩) ::ₘ (x.parts + s)) := by
    convert ho₄ using 1
    simp only [← Multiset.singleton_add, x, Stored.parts, Stored.pkCols, Stored.nonPkCols]
    abel
  have hlen : (cs.filter fun c => 0 < c.info.pk).length = x.pkCols.length :=
    (List.length_insertionSort _ _).symm
  rw [hlen]
  refine wp_bind (wp_mono (ho₄'.store (.info x.cell)) fun _ h₅ ho₅ => wp_pure ?_)
  refine ⟨x, rfl, rfl, rfl, ?_⟩
  rw [Stored.owned, add_assoc, add_left_comm, Multiset.singleton_add]
  exact ho₅

/-- The rows are copied into the array, or freed with it when they are too many. -/
theorem readRows_spec (hplenty : e.plenty) {q : Option Nat} (cs : List Column)
    (rows : List ColumnInfo)
    (hq : q = none ↔ cs.length + k = 0)
    (ho : Owns e h (texts cs + (block q (columns cs k) + s))) :
    wp (readRows q (cs.length + k) cs.length rows) h fun r h' =>
      if rows.length ≤ k then
        ∃ new, r = some (cs.length + rows.length) ∧ new.map Column.info = rows ∧
          Owns e h' (texts (cs ++ new) + (block q (columns (cs ++ new) (k - rows.length)) + s))
      else r = none ∧ Owns e h' s := by
  induction rows generalizing h cs k with
  | nil =>
      refine wp_pure ?_
      rw [List.length_nil, if_pos (Nat.zero_le _)]
      exact ⟨[], rfl, rfl, by rwa [List.append_nil]⟩
  | cons row rows ih =>
      rw [readRows]
      cases k with
      | zero =>
          have hmany : ¬ (row :: rows).length ≤ 0 := Nat.not_succ_le_zero _
          rw [if_pos (Nat.le_of_eq (Nat.add_zero _))]
          simp only [if_neg hmany]
          cases q with
          | none =>
              -- an array of no columns
              obtain rfl : cs = [] := List.eq_nil_of_length_eq_zero (hq.mp rfl)
              rw [texts_nil, Multiset.zero_add, block_none, Multiset.zero_add] at ho
              exact wp_bind (wp_pure (wp_bind (wp_pure (wp_pure ⟨rfl, ho⟩))))
          | some a =>
              refine wp_bind (wp_mono (freeContents_spec (i := 0) ho (Multiset.mem_add.mpr
                (Or.inl (Multiset.mem_singleton_self _))) rfl) fun _ h₁ ho₁ => ?_)
              exact wp_bind (wp_mono ho₁.freeIfAny fun _ h₂ ho₂ => wp_pure ⟨rfl, ho₂⟩)
      | succ k =>
          obtain ⟨a, rfl⟩ := Option.ne_none_iff_exists'.mp
            (mt hq.mp (show cs.length + (k + 1) ≠ 0 by omega))
          rw [if_neg (by omega)]
          refine wp_bind (wp_mono (ho.malloc_of_plenty hplenty (.text row.name)) ?_)
          rintro _ h₁ ⟨name, rfl, ho₁⟩
          refine wp_bind (wp_mono (ho₁.malloc_of_plenty hplenty (.text row.type)) ?_)
          rintro _ h₂ ⟨type, rfl, ho₂⟩
          let c : Column := ⟨name, type, row⟩
          have hcolumns : Owns e h₂ ((a, columns cs (k + 1)) ::ₘ (texts (cs ++ [c]) + s)) := by
            convert ho₂ using 1
            simp only [texts_append, texts_cons, texts_nil, block_some, ← Multiset.singleton_add, c]
            abel
          refine wp_bind (wp_mono (setColumn_spec hcolumns c) fun _ h₃ ho₃ => ?_)
          rw [← Multiset.singleton_add, add_left_comm] at ho₃
          have hlen : cs.length + (k + 1) = (cs ++ [c]).length + k := by simp; omega
          have hlen' : cs.length + 1 = (cs ++ [c]).length := by simp
          rw [hlen, hlen']
          refine wp_mono (ih _ (by simp) ho₃) fun r h₄ hr => ?_
          rw [List.length_cons]
          by_cases hle : rows.length ≤ k
          · rw [if_pos hle] at hr
            rw [if_pos (Nat.succ_le_succ hle)]
            obtain ⟨new, rfl, hnew, ho₄⟩ := hr
            refine ⟨c :: new, by simp [Nat.add_assoc, Nat.add_comm 1], by simp [hnew, c], ?_⟩
            rwa [List.append_cons, Nat.add_sub_add_right]
          · rw [if_neg hle] at hr
            rwa [if_neg (by omega)]

/-- The columns that the pragma brings, unless a read fails or the two reads differ. -/
def PragmaRead.columns (r : PragmaRead) : Option (List ColumnInfo) :=
  if r.prepared = true ∧ r.rows ≠ [] ∧ (r.rows.length : Int) = r.count then some r.rows else none

/-- A description is left in memory, or nothing. -/
theorem getTableInfo_spec (hplenty : e.plenty) (ho : Owns e h s) (name : Text) (r : PragmaRead) :
    wp (getTableInfo name r) h fun q h' => match r.columns with
      | some rows => ∃ x : Stored, x.name = name ∧ x.cols.map Column.info = rows ∧
          q = some x.addr ∧ Owns e h' (x.owned + s)
      | none => q = none ∧ Owns e h' s := by
  rw [getTableInfo]
  split
  next hfail =>
    have hnone : r.columns = none := by
      refine if_neg ?_
      rintro ⟨hprepared, hrows, hcount⟩
      rcases hfail with hneg | hno | hempty
      · omega
      · rw [hprepared] at hno
        cases hno
      · exact hrows hempty
    rw [hnone]
    exact wp_pure ⟨rfl, ho⟩
  next hgood =>
    rw [not_or, not_or] at hgood
    obtain ⟨hcount, hprepared, hrows⟩ := hgood
    refine wp_bind (wp_mono (mallocColumns_spec hplenty ho _) ?_)
    rintro q h₁ ⟨hq, ho₁⟩
    have hread := readRows_spec (k := r.count.toNat) (s := s) (h := h₁) (q := q) hplenty []
      r.rows (by rwa [List.length_nil, Nat.zero_add])
      (by rwa [texts_nil, Multiset.zero_add])
    rw [List.length_nil, Nat.zero_add] at hread
    have hcolumns : r.columns = if r.rows.length = r.count.toNat then some r.rows else none :=
      if_congr (by simp [hprepared, hrows]; omega) rfl rfl
    rw [hcolumns]
    refine wp_bind (wp_mono hread fun i h₂ hi => ?_)
    by_cases hle : r.rows.length ≤ r.count.toNat
    · rw [if_pos hle] at hi
      obtain ⟨new, rfl, hnew, ho₂⟩ := hi
      have hlen : r.rows.length = new.length := by rw [← hnew, List.length_map]
      obtain ⟨a, rfl⟩ := Option.ne_none_iff_exists'.mp
        (mt hq.mp fun hzero => hrows (List.eq_nil_of_length_eq_zero (by omega)))
      rw [List.nil_append] at ho₂
      rw [Nat.zero_add]
      dsimp only
      by_cases hlt : r.rows.length < r.count.toNat
      · rw [if_pos hlt, if_neg (Nat.ne_of_lt hlt), hlen]
        refine wp_bind (wp_mono (freeContents_spec (i := 0) ho₂ (Multiset.mem_add.mpr
          (Or.inl (Multiset.mem_singleton_self _))) rfl) fun _ h₃ ho₃ => ?_)
        exact wp_bind (wp_mono ho₃.freeIfAny fun _ h₄ ho₄ => wp_pure ⟨rfl, ho₄⟩)
      · have heq : r.rows.length = r.count.toNat := by omega
        rw [if_neg hlt, if_pos heq, ← heq, hlen]
        rw [← heq, Nat.sub_self, block_some, ← add_assoc] at ho₂
        refine wp_bind (wp_mono (tableInfo_spec hplenty name ho₂) ?_)
        rintro _ h₃ ⟨x, hname, rfl, rfl, ho₃⟩
        exact wp_pure ⟨x, hname, hnew, rfl, ho₃⟩
    · rw [if_neg hle] at hi
      obtain ⟨rfl, ho₂⟩ := hi
      rw [if_neg fun heq => hle (Nat.le_of_eq heq)]
      exact wp_pure ⟨rfl, ho₂⟩

/-- What is read of a table. -/
def Pull.tableInfo (p : Pull) (clockTable : Text) : Option TableInfo :=
  (p.pragma (baseTableName clockTable)).columns.map (TableInfo.mk (baseTableName clockTable))

/-- What a pull reads, unless it fails. -/
def Pull.read (p : Pull) : Option (List TableInfo) :=
  p.clockTables.bind fun clockTables => clockTables.mapM p.tableInfo

/-- How far the loop of a pull gets. -/
inductive PulledUpTo (e : Setting Block) (s : Multiset (Nat × Block)) (a : Nat) (xs : List Stored)
    (n : Nat) (h : Heap Block) : Option (List TableInfo) → Bool → Prop where
  | all (new : List Stored) : Owns e h (ownedAll (xs ++ new) + ({(a, infos (xs ++ new) 0)} + s)) →
      PulledUpTo e s a xs n h (some (new.map Stored.info)) true
  | part (new : List Stored) (k : Nat) :
      Owns e h (ownedAll (xs ++ new) + ({(a, infos (xs ++ new) k)} + s)) → new.length + k = n →
      PulledUpTo e s a xs n h none false

/-- The loop pulls the descriptions of the tables up to the first one that fails. -/
theorem pullTableInfos_spec (hplenty : e.plenty) (p : Pull) {names : List Text} {xs : List Stored}
    (ho : Owns e h (ownedAll xs + ({(a, infos xs names.length)} + s))) :
    wp (pullTableInfos p (some a) xs.length names) h fun ok h' =>
      PulledUpTo e s a xs names.length h' (names.mapM p.tableInfo) ok := by
  induction names generalizing h xs with
  | nil => exact wp_pure (.all [] (by rwa [List.append_nil]))
  | cons name names ih =>
      refine wp_bind (wp_mono (ho.malloc_of_plenty hplenty (.text (baseTableName name))) ?_)
      rintro _ h₁ ⟨z, rfl, ho₁⟩
      refine wp_bind (wp_mono (getText_spec ho₁ (Multiset.mem_cons_self _ _)) ?_)
      rintro _ _ ⟨rfl, rfl⟩
      refine wp_bind (wp_mono (getTableInfo_spec hplenty ho₁ (baseTableName name)
        (p.pragma (baseTableName name))) fun q h₂ hq => ?_)
      cases hcolumns : (p.pragma (baseTableName name)).columns with
      | none =>
          rw [hcolumns] at hq
          obtain ⟨rfl, ho₂⟩ := hq
          have hread : (name :: names).mapM p.tableInfo = none := by
            simp [Pull.tableInfo, hcolumns]
          rw [hread]
          refine wp_bind (wp_mono (Owns.free ho₂) fun _ h₃ ho₃ => wp_pure ?_)
          exact .part [] _ (by rwa [List.append_nil]) (Nat.zero_add _)
      | some rows =>
          rw [hcolumns] at hq
          obtain ⟨x, hname, hrows, rfl, ho₂⟩ := hq
          have hinfo : p.tableInfo name = some x.info := by
            rw [Pull.tableInfo, hcolumns, Option.map_some, ← hname, ← hrows]
            rfl
          have hslots : Owns e h₂ ((a, infos xs (names.length + 1)) ::ₘ
              ((z, .text (baseTableName name)) ::ₘ (ownedAll (xs ++ [x]) + s))) := by
            convert ho₂ using 1
            simp only [ownedAll_append, ownedAll_cons, ownedAll_nil, ← Multiset.singleton_add,
              List.length_cons]
            abel
          refine wp_bind (wp_mono (setSlot_spec hslots x) fun _ h₃ ho₃ => ?_)
          rw [Multiset.cons_swap] at ho₃
          refine wp_bind (wp_mono (Owns.free ho₃) fun _ h₄ ho₄ => ?_)
          rw [← Multiset.singleton_add, add_left_comm] at ho₄
          have hlen : xs.length + 1 = (xs ++ [x]).length := by simp
          rw [hlen]
          refine wp_mono (ih ho₄) fun ok h₅ hok => ?_
          rw [List.mapM_cons, hinfo]
          generalize names.mapM p.tableInfo = read at hok
          cases hok with
          | all new ho₅ =>
              refine .all (x :: new) ?_
              rwa [List.append_cons]
          | part new k ho₅ hleft =>
              refine .part (x :: new) k ?_ ?_
              · rwa [List.append_cons]
              · rw [List.length_cons, List.length_cons, ← hleft, Nat.succ_add]

/-- How a pull ends: with an error, without a table, or with descriptions. -/
inductive Pulled (e : Setting Block) (s : Multiset (Nat × Block)) (x : ExtFields)
    (h : Heap Block) : Option (List TableInfo) → ExtFields × Bool → Prop where
  | failed : Owns e h s → Pulled e s x h none (x, false)
  | untouched : Owns e h s → Pulled e s x h (some []) (x, true)
  | pulled {a : Nat} {xs : List Stored} : xs ≠ [] →
      Owns e h (ownedAll xs + ({(a, infos xs 0)} + s)) →
      Pulled e s x h (some (xs.map Stored.info))
        ({ x with zpTableInfos := some a, tableInfosLen := xs.length }, true)

/-- A map that succeeds keeps the length. -/
theorem length_eq_of_mapM {α β : Type} {f : α → Option β} {xs : List α} {ys : List β}
    (h : xs.mapM f = some ys) : ys.length = xs.length := by
  induction xs generalizing ys with
  | nil =>
      obtain rfl : [] = ys := Option.some.inj h
      rfl
  | cons x xs ih =>
      rw [List.mapM_cons] at h
      obtain ⟨y, -, h⟩ := Option.bind_eq_some_iff.mp h
      obtain ⟨ys', hys, h⟩ := Option.bind_eq_some_iff.mp h
      obtain rfl := Option.some.inj h
      rw [List.length_cons, List.length_cons, ih hys]

/-- All descriptions are pulled into a new array, or everything is freed again. -/
theorem pullAllTableInfos_spec (hplenty : e.plenty) (ho : Owns e h s) (x : ExtFields) (p : Pull) :
    wp (pullAllTableInfos x p) h fun r h' => Pulled e s x h' p.read r := by
  rw [pullAllTableInfos, Pull.read]
  split
  next hnone =>
    rw [hnone]
    exact wp_pure (.failed ho)
  next hnil =>
    rw [hnil]
    exact wp_pure (.untouched ho)
  next names hne hnames =>
    rw [hnames]
    refine wp_bind (wp_mono (ho.malloc_of_plenty hplenty _) ?_)
    rintro _ h₁ ⟨a, rfl, ho₁⟩
    rw [← Multiset.singleton_add] at ho₁
    have hstart : Owns e h₁ (ownedAll [] + ({(a, infos [] names.length)} + s)) := by
      rw [ownedAll_nil, Multiset.zero_add]
      exact ho₁
    refine wp_bind (wp_mono (pullTableInfos_spec hplenty p hstart) fun ok h₂ hok => ?_)
    have hlen : ∀ l, names.mapM p.tableInfo = some l → l.length = names.length :=
      fun l hl => length_eq_of_mapM hl
    rw [Option.bind_some]
    generalize names.mapM p.tableInfo = read at hok hlen
    cases hok with
    | all new ho₂ =>
        have hnew : new.length = names.length := by
          rw [← hlen _ rfl, List.length_map]
        rw [if_pos rfl, ← hnew]
        refine wp_pure (.pulled ?_ ho₂)
        rintro rfl
        exact hne (List.eq_nil_of_length_eq_zero hnew.symm)
    | part new k ho₂ hleft =>
        rw [if_neg Bool.false_ne_true, ← hleft]
        exact wp_bind (wp_mono (freeAllTableInfos_spec ho₂) fun _ h₃ ho₃ => wp_pure (.failed ho₃))

end Building

/-! ## The descriptions in use -/

section Using

variable {e : Setting Block} {h : Heap Block} {s : Multiset (Nat × Block)} {a i : Nat}
  {xs : List Stored}

/-- A description owns a part of what all of them own. -/
theorem owned_of_mem {x : Stored} (hx : x ∈ xs) : ∃ t, ownedAll xs = x.owned + t := by
  obtain ⟨ys, zs, rfl⟩ := List.append_of_mem hx
  refine ⟨ownedAll ys + ownedAll zs, ?_⟩
  rw [ownedAll_append, ownedAll_cons, add_left_comm]

/-- The table of a name is found by its description. -/
theorem findTableInfo_spec {slots rest : List (Option Nat)} {tbl : Text} (ho : Owns e h s)
    (hmem : (a, .infos slots) ∈ s)
    (hinfos : ∀ x ∈ xs, (x.addr, .info x.cell) ∈ s ∧ (x.tblName, .text x.name) ∈ s)
    (hdrop : slots.drop i = (xs.map Stored.addr).map some ++ rest) :
    wp (findTableInfo (some a) tbl i xs.length) h fun q h' =>
      q = (xs.find? fun x => x.name = tbl).map Stored.addr ∧ h' = h := by
  induction xs generalizing i with
  | nil => exact wp_pure ⟨rfl, rfl⟩
  | cons x xs ih =>
      obtain ⟨hi, hnext⟩ := getElem?_of_drop hdrop
      obtain ⟨hcell, hname⟩ := hinfos x List.mem_cons_self
      refine wp_bind (wp_mono (getSlot_spec ho hmem hi) ?_)
      rintro _ _ ⟨rfl, rfl⟩
      refine wp_bind (wp_pure (wp_bind (wp_mono (getInfo_spec ho hcell) ?_)))
      rintro _ _ ⟨rfl, rfl⟩
      refine wp_bind (wp_mono (getText_spec ho hname) ?_)
      rintro _ _ ⟨rfl, rfl⟩
      by_cases htbl : x.name = tbl
      · rw [if_pos htbl, List.find?_cons_of_pos (by simpa using htbl)]
        exact wp_pure ⟨rfl, rfl⟩
      · rw [if_neg htbl, List.find?_cons_of_neg (by simpa using htbl)]
        exact ih (fun y hy => hinfos y (List.mem_cons_of_mem _ hy)) hnext

/-- The description that `createCrr` makes is freed again. -/
theorem createCrr_spec (hplenty : e.plenty) (ho : Owns e h s) (name : Text) (r : PragmaRead) :
    wp (createCrr name r) h fun _ h' => Owns e h' s := by
  refine wp_bind (wp_mono (getTableInfo_spec hplenty ho name r) fun q h₁ hq => ?_)
  cases hcolumns : r.columns with
  | none =>
      rw [hcolumns] at hq
      obtain ⟨rfl, ho₁⟩ := hq
      exact wp_pure ho₁
  | some rows =>
      rw [hcolumns] at hq
      obtain ⟨x, -, -, rfl, ho₁⟩ := hq
      exact freeTableInfo_spec ho₁

end Using

/-! ## What the connection holds -/

/-- The descriptions that a connection should hold, and the schema version they are from. -/
structure Cache where
  schemaVersion : Int
  tableInfos : List TableInfo

namespace Cache

/-- They are due to be pulled. -/
def Due (c : Cache) (v : Int) : Prop :=
  c.schemaVersion < v ∨ c.tableInfos = []

instance (c : Cache) (v : Int) : Decidable (c.Due v) :=
  inferInstanceAs (Decidable (_ ∨ _))

def step (c : Cache) : Op → Cache
  | .ensure (some v) p =>
      if c.Due v then ⟨max c.schemaVersion v, p.read.getD []⟩ else c
  | _ => c

/-- A pull that is due finds tables, unless there were none; and a table has key columns when
`changesNext` gets to it. -/
def Safe (c : Cache) : Op → Prop
  | .ensure (some v) p => c.Due v → c.tableInfos = [] ∨ p.read.getD [] ≠ []
  | .next tbl => ∀ t ∈ c.tableInfos.find? fun t => t.tblName = tbl, t.pks ≠ []
  | _ => True

end Cache

section Running

variable {e : Setting Block} {h : Heap Block} {x : ExtFields} {c : Cache} {op : Op}

/-- The fields of the connection, and the memory that they lead to. -/
inductive Holds (e : Setting Block) (h : Heap Block) : ExtFields → Cache → Prop where
  | nothing {v : Int} : Owns e h 0 → Holds e h ⟨v, none, 0⟩ ⟨v, []⟩
  | tables {v : Int} {a : Nat} {xs : List Stored} : xs ≠ [] →
      Owns e h (ownedAll xs + ({(a, infos xs 0)} + 0)) →
      Holds e h ⟨v, some a, xs.length⟩ ⟨v, xs.map Stored.info⟩

/-- The field points to memory that was freed. -/
structure Dangling (e : Setting Block) (h : Heap Block) (x : ExtFields) : Prop where
  owns : Owns e h 0
  freed : ∃ a, x.zpTableInfos = some a ∧ e.others a = none
  len : x.tableInfosLen ≠ 0

/-- Without descriptions there is no array. -/
theorem Holds.nothing_of_nil (hh : Holds e h x c) (hnil : c.tableInfos = []) :
    x = ⟨c.schemaVersion, none, 0⟩ := by
  cases hh with
  | nothing => rfl
  | tables hne => exact absurd (List.map_eq_nil_iff.mp hnil) hne

theorem Holds.version (hh : Holds e h x c) :
    x.pragmaSchemaVersionForTableInfos = c.schemaVersion := by
  cases hh <;> rfl

/-- The pointer is null exactly when there are no descriptions. -/
theorem Holds.null_iff (hh : Holds e h x c) : x.zpTableInfos = none ↔ c.tableInfos = [] := by
  cases hh with
  | nothing => exact iff_of_true rfl rfl
  | tables hne => exact iff_of_false (by simp) (by simpa using hne)

/-- A new version is one of the cache, too. -/
theorem Holds.setVersion (hh : Holds e h x c) (v : Int) :
    Holds e h { x with pragmaSchemaVersionForTableInfos := v } { c with schemaVersion := v } := by
  cases hh with
  | nothing ho => exact .nothing ho
  | tables hne ho => exact .tables hne ho

/-- What a connection holds is freed. -/
theorem Holds.free (hh : Holds e h x c) :
    wp (freeAllTableInfos x.zpTableInfos x.tableInfosLen) h fun _ h' => Owns e h' 0 := by
  cases hh with
  | nothing ho => exact wp_bind (wp_pure (wp_pure ho))
  | tables hne ho => exact freeAllTableInfos_spec ho

/-- After that the field is no pointer to memory any more. -/
theorem Holds.dangling {h' : Heap Block} (hh : Holds e h x c) (hne : c.tableInfos ≠ [])
    (ho : Owns e h' 0) : Dangling e h' x := by
  cases hh with
  | nothing => exact absurd rfl hne
  | @tables v a xs hxs ho' =>
      have hmem : (a, infos xs 0) ∈ ownedAll xs + ({(a, infos xs 0)} + 0) := by simp
      exact ⟨ho, ⟨a, rfl, (ho'.owned a _ hmem).2⟩,
        fun hzero => hxs (List.eq_nil_of_length_eq_zero hzero)⟩

/-- A read behind a dangling pointer is a fault. -/
theorem Dangling.getSlot (hd : Dangling e h x) (i : Nat) :
    getSlot x.zpTableInfos i h = .error .notAllocated := by
  obtain ⟨a, ha, hnone⟩ := hd.freed
  rw [ha]
  exact bind_eq_error (Or.inr (wp_pure (bind_eq_error (Or.inl
    (hd.owns.load_eq_error (by simp) hnone)))))

/-- To free behind a dangling pointer is a fault. -/
theorem Dangling.free (hd : Dangling e h x) :
    freeAllTableInfos x.zpTableInfos x.tableInfosLen h = .error .notAllocated := by
  obtain ⟨n, hn⟩ := Nat.exists_eq_succ_of_ne_zero hd.len
  rw [hn]
  exact bind_eq_error (Or.inl (bind_eq_error (Or.inl (hd.getSlot 0))))

/-- A search behind a dangling pointer is a fault. -/
theorem Dangling.find (hd : Dangling e h x) (tbl : Text) :
    findTableInfo x.zpTableInfos tbl 0 x.tableInfosLen h = .error .notAllocated := by
  obtain ⟨n, hn⟩ := Nat.exists_eq_succ_of_ne_zero hd.len
  rw [hn]
  exact bind_eq_error (Or.inl (hd.getSlot 0))

/-- Memory is used that is not allocated, or the field points to memory that was freed. -/
def Breaks (e : Setting Block) (m : Mem Block ExtFields) (h : Heap Block) : Prop :=
  m h = .error .notAllocated ∨ wp m h fun x h' => Dangling e h' x

/-- What follows a step that leaves a dangling pointer breaks with it. -/
theorem Breaks.bind {m : Mem Block ExtFields} {f : ExtFields → Mem Block ExtFields}
    (hm : Breaks e m h) (hf : ∀ x h', Dangling e h' x → Breaks e (f x) h') :
    Breaks e (m >>= f) h := by
  rcases hm with hnone | ⟨x, h', hrun, hd⟩
  · exact Or.inl (bind_eq_error (Or.inl hnone))
  · rcases hf x h' hd with hnone | hwp
    · exact Or.inl (bind_eq_error (Or.inr ⟨x, h', hrun, hnone⟩))
    · exact Or.inr (wp_bind ⟨x, h', hrun, hwp⟩)

/-! ## Steps -/

/-- A refetch replaces the old descriptions, where it finds tables or there was nothing to
free. -/
theorem refetchTableInfos_spec (hplenty : e.plenty) (hh : Holds e h x c) (p : Pull)
    (hsafe : c.tableInfos = [] ∨ p.read.getD [] ≠ []) :
    wp (refetchTableInfos x p) h fun x' h' =>
      Holds e h' x' { c with tableInfos := p.read.getD [] } := by
  refine wp_bind (wp_mono hh.free fun _ h₁ ho₁ => ?_)
  refine wp_bind (wp_mono (pullAllTableInfos_spec hplenty ho₁ x p) fun r h₂ hr => ?_)
  have hversion := hh.version
  generalize p.read = read at hr hsafe ⊢
  cases hr with
  | failed ho₂ =>
      obtain rfl := hh.nothing_of_nil (hsafe.resolve_right fun hne => hne rfl)
      exact wp_bind (wp_bind (wp_pure (wp_pure (wp_pure (.nothing ho₂)))))
  | untouched ho₂ =>
      obtain rfl := hh.nothing_of_nil (hsafe.resolve_right fun hne => hne rfl)
      exact wp_pure (.nothing ho₂)
  | pulled hne ho₂ =>
      rw [← hversion]
      exact wp_pure (.tables hne ho₂)

/-- A pull that brings nothing, while descriptions are held. -/
theorem refetchTableInfos_breaks (hplenty : e.plenty) (hh : Holds e h x c) (p : Pull)
    (hheld : c.tableInfos ≠ []) (hread : p.read.getD [] = []) :
    Breaks e (refetchTableInfos x p) h := by
  obtain ⟨_, h₁, hfree, ho₁⟩ := hh.free
  obtain ⟨r, h₂, hpull, hr⟩ := pullAllTableInfos_spec hplenty ho₁ x p
  generalize p.read = read at hr hread
  cases hr with
  | failed ho₂ =>
      -- the descriptions are freed once more
      exact Or.inl (bind_eq_error (Or.inr ⟨_, h₁, hfree, bind_eq_error (Or.inr
        ⟨_, h₂, hpull, bind_eq_error (Or.inl (hh.dangling hheld ho₂).free)⟩)⟩))
  | untouched ho₂ =>
      exact Or.inr (wp_bind ⟨_, h₁, hfree, wp_bind ⟨_, h₂, hpull,
        wp_pure (hh.dangling hheld ho₂)⟩⟩)
  | pulled hne => exact absurd (List.map_eq_nil_iff.mp hread) hne

/-- The check against the schema version does to memory what it does to the cache. -/
theorem ensureTableInfosAreUpToDate_spec (hplenty : e.plenty) (hh : Holds e h x c)
    (schemaVersion : Option Int) (p : Pull) (hsafe : c.Safe (.ensure schemaVersion p)) :
    wp (ensureTableInfosAreUpToDate x schemaVersion p) h fun x' h' =>
      Holds e h' x' (c.step (.ensure schemaVersion p)) := by
  cases schemaVersion with
  | none => exact wp_pure hh
  | some v =>
      rw [ensureTableInfosAreUpToDate, hh.version, Cache.step]
      by_cases hgrown : c.schemaVersion < v
      · have hdue : c.Due v := Or.inl hgrown
        rw [if_pos hgrown, if_pos hdue, max_eq_right hgrown.le]
        exact refetchTableInfos_spec hplenty (hh.setVersion v) p (hsafe hdue)
      · rw [if_neg hgrown, max_eq_left (not_lt.mp hgrown)]
        by_cases hnull : x.zpTableInfos = none
        · have hdue : c.Due v := Or.inr (hh.null_iff.mp hnull)
          rw [if_pos hnull, if_pos hdue]
          exact refetchTableInfos_spec hplenty hh p (hsafe hdue)
        · have hdue : ¬ c.Due v := not_or.mpr ⟨hgrown, mt hh.null_iff.mpr hnull⟩
          rw [if_neg hnull, if_neg hdue]
          exact wp_pure hh

/-- A refetch that is not safe leaves a dangling pointer, or is a fault. -/
theorem ensureTableInfosAreUpToDate_breaks (hplenty : e.plenty) (hh : Holds e h x c)
    (schemaVersion : Option Int) (p : Pull) (hbad : ¬ c.Safe (.ensure schemaVersion p)) :
    Breaks e (ensureTableInfosAreUpToDate x schemaVersion p) h := by
  cases schemaVersion with
  | none => exact absurd trivial hbad
  | some v =>
      rw [Cache.Safe, Classical.not_imp, not_or, not_not] at hbad
      obtain ⟨hdue, hheld, hread⟩ := hbad
      rw [ensureTableInfosAreUpToDate, hh.version, if_pos (hdue.resolve_right hheld)]
      exact refetchTableInfos_breaks hplenty (hh.setVersion v) p hheld hread

/-- The key columns of the stored description are those of the table. -/
theorem info_pks (x : Stored) : x.info.pks = x.pkCols.map Column.info := by
  rw [TableInfo.pks, Stored.info, List.filter_map, Stored.pkCols]
  exact (List.map_insertionSort _ _ Column.info _ fun _ _ _ _ => Iff.rfl).symm

/-- A description is found by its name. -/
theorem find?_info (xs : List Stored) (tbl : Text) :
    ((xs.map Stored.info).find? fun t => t.tblName = tbl) =
      (xs.find? fun x => x.name = tbl).map Stored.info := by
  rw [List.find?_map]
  rfl

/-- The description of a table that a connection holds. -/
theorem Holds.find (hh : Holds e h x c) (tbl : Text) :
    wp (findTableInfo x.zpTableInfos tbl 0 x.tableInfosLen) h fun q h' => h' = h ∧
      match c.tableInfos.find? fun t => t.tblName = tbl with
      | none => q = none
      | some t => ∃ (y : Stored) (s : Multiset (Nat × Block)),
          q = some y.addr ∧ y.info = t ∧ Owns e h (y.owned + s) := by
  cases hh with
  | nothing ho => exact wp_pure ⟨rfl, rfl⟩
  | @tables v a xs hne ho =>
      have hmem : (a, infos xs 0) ∈ ownedAll xs + ({(a, infos xs 0)} + 0) := by simp
      refine wp_mono (findTableInfo_spec (i := 0) ho hmem (fun y hy => ?_) rfl) ?_
      · obtain ⟨t, ht⟩ := owned_of_mem hy
        simp [ht, Stored.owned, Stored.parts]
      · rintro _ _ ⟨rfl, rfl⟩
        rw [find?_info]
        cases hfind : xs.find? fun y => y.name = tbl with
        | none => exact ⟨rfl, rfl⟩
        | some y =>
            obtain ⟨t, ht⟩ := owned_of_mem (List.mem_of_find?_eq_some hfind)
            rw [ht, add_assoc] at ho
            exact ⟨rfl, y, _, rfl, rfl, ho⟩

/-- A scan reads the descriptions and changes nothing. -/
theorem changesNext_spec (hh : Holds e h x c) (tbl : Text) (hsafe : c.Safe (.next tbl)) :
    wp (changesNext x tbl) h fun _ h' => h' = h := by
  refine wp_bind (wp_mono (hh.find tbl) ?_)
  rintro q _ ⟨rfl, hq⟩
  rw [Cache.Safe] at hsafe
  cases hfind : c.tableInfos.find? fun t => t.tblName = tbl with
  | none =>
      rw [hfind] at hq
      obtain rfl := hq
      exact wp_pure rfl
  | some t =>
      rw [hfind] at hq hsafe
      obtain ⟨y, s, rfl, rfl, ho⟩ := hq
      have hpks : y.cell.pksLen ≠ 0 := by
        intro hzero
        refine hsafe _ rfl ?_
        rw [info_pks, List.eq_nil_of_length_eq_zero hzero, List.map_nil]
      have hin : (y.addr, Block.info y.cell) ∈ y.owned + s := by simp [Stored.owned]
      refine wp_bind (wp_mono (getInfo_spec ho hin) ?_)
      rintro _ _ ⟨rfl, rfl⟩
      rw [if_neg hpks]
      exact wp_pure rfl

/-- The description of a table without key columns is read after it was freed. -/
theorem changesNext_breaks (hh : Holds e h x c) (tbl : Text) (hbad : ¬ c.Safe (.next tbl)) :
    changesNext x tbl h = .error .notAllocated := by
  rw [Cache.Safe] at hbad
  obtain ⟨q, _, hrun, rfl, hq⟩ := hh.find tbl
  refine bind_eq_error (Or.inr ⟨q, _, hrun, ?_⟩)
  cases hfind : c.tableInfos.find? fun t => t.tblName = tbl with
  | none =>
      rw [hfind] at hbad
      exact absurd (fun t ht => by cases ht) hbad
  | some t =>
      rw [hfind] at hq hbad
      obtain ⟨y, s, rfl, rfl, ho⟩ := hq
      have hpks : y.cell.pksLen = 0 := by
        by_contra hne
        refine hbad fun t ht => ?_
        obtain rfl := Option.some.inj ht
        rw [info_pks]
        exact fun hnil => hne (List.length_eq_zero_iff.mpr (List.map_eq_nil_iff.mp hnil))
      have hin : (y.addr, Block.info y.cell) ∈ y.owned + s := by simp [Stored.owned]
      obtain ⟨_, _, hget, rfl, rfl⟩ := getInfo_spec ho hin
      refine bind_eq_error (Or.inr ⟨_, _, hget, ?_⟩)
      dsimp only
      rw [if_pos hpks]
      obtain ⟨_, h₁, hfree, ho₁⟩ := freeTableInfo_spec ho
      refine bind_eq_error (Or.inr ⟨_, h₁, hfree, ?_⟩)
      have hnodup := ho.nodup
      rw [Stored.owned, add_comm y.parts, add_assoc, Multiset.singleton_add, Multiset.map_cons,
        Multiset.nodup_cons, Multiset.map_add, Multiset.mem_add, not_or] at hnodup
      have hnone := (ho.owned y.addr _ hin).2
      exact bind_eq_error (Or.inl (bind_eq_error (Or.inl (ho₁.load_eq_error hnodup.1.2 hnone))))

/-! ## Runs -/

/-- A safe operation does to memory what it does to the cache. -/
theorem step_spec (hplenty : e.plenty) (hh : Holds e h x c) (op : Op) (hsafe : c.Safe op) :
    wp (step x op) h fun x' h' => Holds e h' x' (c.step op) := by
  cases op with
  | ensure schemaVersion p =>
      exact ensureTableInfosAreUpToDate_spec hplenty hh schemaVersion p hsafe
  | find tbl =>
      refine wp_bind (wp_mono (hh.find tbl) ?_)
      rintro q _ ⟨rfl, -⟩
      exact wp_pure hh
  | next tbl =>
      refine wp_bind (wp_mono (changesNext_spec hh tbl hsafe) ?_)
      rintro _ _ rfl
      exact wp_pure hh
  | createCrr tblName r =>
      refine wp_bind (wp_mono (Q := fun _ h' => Holds e h' x c) ?_ fun _ h' hh' => wp_pure hh')
      cases hh with
      | nothing ho =>
          exact wp_mono (createCrr_spec hplenty ho tblName r) fun _ _ ho' => .nothing ho'
      | tables hne ho =>
          exact wp_mono (createCrr_spec hplenty ho tblName r) fun _ _ ho' => .tables hne ho'

/-- An operation that is not safe breaks. -/
theorem step_breaks (hplenty : e.plenty) (hh : Holds e h x c) (op : Op) (hbad : ¬ c.Safe op) :
    Breaks e (step x op) h := by
  cases op with
  | ensure schemaVersion p =>
      exact ensureTableInfosAreUpToDate_breaks hplenty hh schemaVersion p hbad
  | find tbl => exact absurd trivial hbad
  | next tbl => exact Or.inl (bind_eq_error (Or.inl (changesNext_breaks hh tbl hbad)))
  | createCrr tblName r => exact absurd trivial hbad

/-- Behind a dangling pointer every operation that uses the array is a fault. -/
theorem Dangling.step (hplenty : e.plenty) (hd : Dangling e h x) (op : Op) :
    Breaks e (step x op) h := by
  cases op with
  | ensure schemaVersion p =>
      cases schemaVersion with
      | none => exact Or.inr (wp_pure hd)
      | some v =>
          obtain ⟨a, ha, -⟩ := hd.freed
          rw [TableInfoMemory.step, ensureTableInfosAreUpToDate, if_neg (c := x.zpTableInfos = none)
            (by simp [ha])]
          split
          next =>
            have hd' : Dangling e h { x with pragmaSchemaVersionForTableInfos := v } :=
              ⟨hd.owns, hd.freed, hd.len⟩
            exact Or.inl (bind_eq_error (Or.inl hd'.free))
          next => exact Or.inr (wp_pure hd)
  | find tbl => exact Or.inl (bind_eq_error (Or.inl (hd.find tbl)))
  | next tbl => exact Or.inl (bind_eq_error (Or.inl (bind_eq_error (Or.inl (hd.find tbl)))))
  | createCrr tblName r =>
      exact Or.inr (wp_bind (wp_mono (createCrr_spec hplenty hd.owns tblName r) fun _ h' ho =>
        wp_pure ⟨ho, hd.freed, hd.len⟩))

/-- A run behind a dangling pointer ends with it or in a fault. -/
theorem Dangling.run (hplenty : e.plenty) (hd : Dangling e h x) (ops : List Op) :
    Breaks e (run x ops) h := by
  induction ops generalizing h x with
  | nil => exact Or.inr (wp_pure hd)
  | cons op ops ih => exact (hd.step hplenty op).bind fun x' h' hd' => ih hd'

/-- Memory holds what was read last. -/
theorem run_spec (hplenty : e.plenty) (hh : Holds e h x c) {ops : List Op}
    (hops : Run.Allowed Cache.step Cache.Safe c ops) :
    wp (run x ops) h fun x' h' => Holds e h' x' (Run.exec Cache.step c ops) := by
  induction ops generalizing h x c with
  | nil => exact wp_pure hh
  | cons op ops ih =>
      exact wp_bind (wp_mono (step_spec hplenty hh op hops.1) fun x' h' hh' => ih hh' hops.2)

/-- A run with an operation that is not safe breaks. -/
theorem run_breaks (hplenty : e.plenty) (hh : Holds e h x c) {ops : List Op}
    (hops : ¬ Run.Allowed Cache.step Cache.Safe c ops) : Breaks e (run x ops) h := by
  induction ops generalizing h x c with
  | nil => exact absurd trivial hops
  | cons op ops ih =>
      by_cases hsafe : c.Safe op
      · obtain ⟨x', h', hrun, hh'⟩ := step_spec hplenty hh op hsafe
        rcases ih hh' fun hrest => hops ⟨hsafe, hrest⟩ with hnone | hwp
        · exact Or.inl (bind_eq_error (Or.inr ⟨x', h', hrun, hnone⟩))
        · exact Or.inr (wp_bind ⟨x', h', hrun, hwp⟩)
      · exact (step_breaks hplenty hh op hsafe).bind fun x' h' hd => hd.run hplenty ops

/-- Where every allocation finds memory: a connection that goes well holds what was read last, and
leaves memory as it was.  Every other one uses a block that is not allocated any more. -/
theorem session_spec (hfresh : ∀ p, h.next ≤ p → h.blocks p = none)
    (hplenty : ∀ n, h.grants n = true) (ops : List Op) :
    (Run.Allowed Cache.step Cache.Safe ⟨-1, []⟩ ops →
      (wp (run newExtFields ops) h fun x h' =>
        Holds ⟨h.blocks, True⟩ h' x (Run.exec Cache.step ⟨-1, []⟩ ops)) ∧
      wp (session ops) h fun _ h' => h'.blocks = h.blocks) ∧
    (¬ Run.Allowed Cache.step Cache.Safe ⟨-1, []⟩ ops →
      session ops h = .error .notAllocated) := by
  have ho : Owns ⟨h.blocks, True⟩ h 0 := owns_zero_iff.mpr ⟨fun _ => hplenty, hfresh, rfl⟩
  have hh : Holds ⟨h.blocks, True⟩ h newExtFields ⟨-1, []⟩ := .nothing ho
  constructor
  · intro hops
    have hrun := run_spec trivial hh hops
    exact ⟨hrun, wp_bind (wp_mono hrun fun x h' hh' =>
      wp_mono hh'.free fun _ h'' ho' => (owns_zero_iff.mp ho').2.2)⟩
  · intro hops
    rcases run_breaks trivial hh hops with hnone | hwp
    · exact bind_eq_error (Or.inl hnone)
    · exact bind_eq_error (Or.inr (wp_mono hwp fun x h' hd => hd.free))

end Running

/-! ## The model without memory -/

/-- What `zpTableInfos` points to. -/
def tableInfosPtr : List TableInfo → TableInfosPtr
  | [] => .null
  | ts => .infos ts

/-- The pointer of the other model is null exactly when there are no descriptions. -/
theorem tableInfosPtr_eq_null_iff {ts : List TableInfo} : tableInfosPtr ts = .null ↔ ts = [] := by
  cases ts with
  | nil => exact iff_of_true rfl rfl
  | cons t ts => exact iff_of_false (fun h => by cases h) (List.cons_ne_nil t ts)

structure Shows (c : Cache) (ext : ExtData) : Prop where
  version : ext.pragmaSchemaVersionForTableInfos = c.schemaVersion
  ptr : ext.zpTableInfos = tableInfosPtr c.tableInfos
  len : ext.tableInfosLen = c.tableInfos.length

section Showing

variable {c : Cache} {ext : ExtData} {st : Storage} {p : Pull}

/-- A refetch of one model is a refetch of the other. -/
theorem Shows.refetch (hs : Shows c ext) {fails : Bool}
    (hread : p.read = if fails = true then none else some st.tableInfos)
    (hsafe : c.tableInfos = [] ∨ p.read.getD [] ≠ []) :
    Shows { c with tableInfos := p.read.getD [] } (ext.refetchTableInfos st fails).1 := by
  cases fails with
  | true =>
      rw [if_pos rfl] at hread
      rw [hread]
      exact ⟨hs.version, rfl, rfl⟩
  | false =>
      rw [if_neg Bool.false_ne_true] at hread
      rw [hread, Option.getD_some] at hsafe ⊢
      rw [ExtData.refetchTableInfos, ExtData.pullAllTableInfos, if_neg Bool.false_ne_true]
      by_cases hnil : st.tableInfos = []
      · have hnull : ext.zpTableInfos = .null :=
          hs.ptr.trans (tableInfosPtr_eq_null_iff.mpr (hsafe.resolve_right fun hne => hne hnil))
        have hlen : ext.tableInfosLen = 0 := by
          rw [hs.len, hsafe.resolve_right fun hne => hne hnil]
          rfl
        rw [if_pos hnil, if_pos rfl, hnil, ExtData.freeAllTableInfos, if_pos hnull]
        exact ⟨hs.version, rfl, hlen⟩
      · rw [if_neg hnil, if_pos rfl]
        refine ⟨hs.version, ?_, rfl⟩
        obtain ⟨t, ts, hts⟩ := List.exists_cons_of_ne_nil hnil
        rw [hts]
        rfl

/-- As long as memory is in order, it holds what the model without memory describes. -/
theorem Shows.ensure (hs : Shows c ext) {fault : Option TableInfosFault} {v : Option Int}
    (hv : v = if fault = some .schemaVersion then none else some st.schemaVersion)
    (hread : p.read = if fault = some .pull then none else some st.tableInfos)
    (hsafe : c.Safe (.ensure v p)) :
    Shows (c.step (.ensure v p)) (ext.ensureTableInfosAreUpToDate st fault).1 := by
  rw [ExtData.ensureTableInfosAreUpToDate, ExtData.fetchPragmaSchemaVersion]
  by_cases hfault : fault = some .schemaVersion
  · obtain rfl : v = none := by rw [hv, if_pos hfault]
    rw [if_pos (decide_eq_true hfault)]
    exact hs
  · obtain rfl : v = some st.schemaVersion := by rw [hv, if_neg hfault]
    have hread' : p.read =
        if decide (fault = some .pull) = true then none else some st.tableInfos := by
      simpa using hread
    rw [if_neg (by simpa using hfault), hs.version, Cache.step]
    by_cases hgrown : c.schemaVersion < st.schemaVersion
    · have hdue : c.Due st.schemaVersion := Or.inl hgrown
      have hs' : Shows { c with schemaVersion := st.schemaVersion }
          { ext with pragmaSchemaVersionForTableInfos := st.schemaVersion } :=
        ⟨rfl, hs.ptr, hs.len⟩
      rw [if_pos hgrown, if_pos hdue, max_eq_right hgrown.le]
      dsimp only
      rw [if_pos (Or.inl rfl)]
      exact hs'.refetch hread' (hsafe hdue)
    · rw [if_neg hgrown, max_eq_left (not_lt.mp hgrown)]
      dsimp only
      by_cases hnil : c.tableInfos = []
      · have hdue : c.Due st.schemaVersion := Or.inr hnil
        rw [if_pos hdue, if_pos (Or.inr (hs.ptr.trans (tableInfosPtr_eq_null_iff.mpr hnil)))]
        exact hs.refetch hread' (hsafe hdue)
      · have hdue : ¬ c.Due st.schemaVersion := not_or.mpr ⟨hgrown, hnil⟩
        have hkept : ¬ (false = true ∨ ext.zpTableInfos = .null) := by
          rw [hs.ptr, tableInfosPtr_eq_null_iff]
          simpa using hnil
        rw [if_neg hdue, if_neg hkept]
        exact hs

end Showing

/-! ## A table that is dropped -/

instance (c : Cache) (op : Op) : Decidable (c.Safe op) :=
  match op with
  | .ensure (some v) p =>
      inferInstanceAs (Decidable (c.Due v → c.tableInfos = [] ∨ p.read.getD [] ≠ []))
  | .ensure none _ => inferInstanceAs (Decidable True)
  | .next tbl =>
      inferInstanceAs (Decidable (∀ t ∈ c.tableInfos.find? fun t => t.tblName = tbl, t.pks ≠ []))
  | .find _ => inferInstanceAs (Decidable True)
  | .createCrr _ _ => inferInstanceAs (Decidable True)

/-- The columns of a table with one key column. -/
def fooRead : PragmaRead where
  count := 2
  prepared := true
  rows := [⟨0, "a".toList, "INTEGER".toList, true, 1⟩, ⟨1, "b".toList, [], false, 0⟩]

def fooPull : Pull where
  clockTables := some ["foo__crsql_clock".toList]
  pragma := fun _ => fooRead

def noPull : Pull where
  clockTables := some []
  pragma := fun _ => fooRead

/-- The only table is created, read and then dropped. -/
def dropped : List Op :=
  [.ensure (some 1) fooPull, .next "foo".toList, .ensure (some 2) noPull]

/-- The first two operations keep memory in order, the third one reads what was freed. -/
theorem session_spec_dropped :
    wp (session (dropped.take 2)) ⟨fun _ => none, 0, fun _ => true⟩
        (fun _ h' => h'.blocks = fun _ => none) ∧
      session dropped ⟨fun _ => none, 0, fun _ => true⟩ = .error .notAllocated :=
  ⟨((session_spec (fun _ _ => rfl) (fun _ => rfl) (dropped.take 2)).1 (by decide)).2,
    (session_spec (fun _ _ => rfl) (fun _ => rfl) dropped).2 (by decide)⟩

end CrSqlite.TableInfoMemory
