import CrSqlite.Library.Buffer
import Mathlib.Algebra.Ring.Nat
import Mathlib.Data.Int.ModEq
import Mathlib.Data.List.Basic
import Mathlib.Tactic.SplitIfs

/-!
# Joiners - strings joined in memory

The functions of the extension that join strings (util.c, tableinfo.c,
changes-vtab-common.c), down to the cells they allocate and write.  Offsets and most
lengths are of type `int`, and so is the size `sqlite3_malloc` is called with.

Main results:

- Theorem {lit}`joinLoop_eq`: the loop of the joiners writes the joined string to a block
  of its size while no string begins at 2^31 or behind.
- Theorem {lit}`joiners_exact_iff`: a joiner writes the joined string to every cell of its
  block exactly when the sizes it computes are those of an `int`.
-/

namespace CrSqlite
namespace Joiners

/-! ## Strings and memory -/

/-- A string: its bytes in front of the terminator. -/
structure CString where
  bytes : List UInt8
  noNul : (0 : UInt8) ∉ bytes

namespace CString

/-- `strlen`. -/
def strlen (s : CString) : Nat :=
  s.bytes.length

/-- The bytes with the terminator. -/
def terminated (s : CString) : List UInt8 :=
  s.bytes ++ [0]

end CString

/-- The value of an `int` after a conversion. -/
def toInt (x : Int) : Int :=
  if x % 2 ^ 32 < 2 ^ 31 then x % 2 ^ 32 else x % 2 ^ 32 - 2 ^ 32

/-- `sqlite3_malloc`: null for a size that is not positive, and where there is no memory.
`grants` tells for which sizes there is. -/
def sqlite3Malloc (grants : Nat → Bool) (size : Int) : Option (Buffer UInt8) :=
  if 0 < toInt size ∧ grants (toInt size).toNat = true then
    some (Buffer.fresh (toInt size).toNat)
  else none

/-- `strcpy` to the offset `j` of a block. -/
def strcpy (s : CString) (j : Int) (dest : Buffer UInt8) : Option (Buffer UInt8) :=
  Buffer.copy j s.terminated dest

/-! ## The joiners

A joiner that writes outside of its block, or through a null pointer, is none. -/

variable (grants : Nat → Bool)

/-- `joinHelper`: the block and the offset in it that is returned. -/
def joinHelper : List CString → Nat → Option (Buffer UInt8 × Int)
  | [], accum =>
      (sqlite3Malloc grants (accum + 1)).bind fun b =>
        (Buffer.copy accum [0] b).map fun b => (b, (accum : Int))
  | s :: rest, accum =>
      (joinHelper rest (accum + s.strlen)).bind fun r =>
        (Buffer.copy (r.2 - s.strlen) s.bytes r.1).map fun b => (b, r.2 - s.strlen)

/-- `crsql_join`. -/
def crsqlJoin (strs : List CString) : Option (Buffer UInt8 × Int) :=
  joinHelper grants strs 0

/-- The loop over the strings: each is copied to the offset `j`, and a separator goes behind
each but the last. -/
def joinLoop (separate : Int → Buffer UInt8 → Option (Buffer UInt8)) (sepLen : Nat) :
    List CString → Int → Buffer UInt8 → Option (Buffer UInt8)
  | [], _, dest => some dest
  | [s], j, dest => strcpy s j dest
  | s :: t :: rest, j, dest =>
      (strcpy s j dest).bind fun dest =>
        (separate (toInt (j + s.strlen)) dest).bind fun dest =>
          joinLoop separate sepLen (t :: rest) (toInt (toInt (j + s.strlen) + sepLen)) dest

/-- `crsql_joinWith`. -/
def joinWith (dest : Buffer UInt8) (src : List CString) (delim : UInt8) : Option (Buffer UInt8) :=
  joinLoop (fun j dest => Buffer.put j delim dest) 1 src 0 dest

/-- The loops that add up lengths in an `int`. -/
def sumLengths (strs : List CString) : Int :=
  strs.foldl (fun n s => toInt (n + s.strlen)) 0

/-- The array of pointers that `sqlite3_malloc` has room for. -/
def mallocPointers (len : Nat) : Option Unit :=
  (sqlite3Malloc grants (len * 8 : Nat)).bind fun b => if len * 8 ≤ b.length then some () else none

/-- `crsql_join2`; null for no strings. -/
def crsqlJoin2 (map : CString → CString) (strs : List CString) (delim : CString) :
    Option (Option (Buffer UInt8)) :=
  if strs.length = 0 then some none
  else
    ((mallocPointers grants strs.length).bind fun _ =>
      let toJoin := strs.map map
      let resultLen := toInt (sumLengths toJoin + ((strs.length - 1) * delim.strlen : Nat))
      (sqlite3Malloc grants (toInt (resultLen + 1))).bind fun ret =>
        (Buffer.put resultLen 0 ret).bind (joinLoop (strcpy delim) delim.strlen toJoin 0)).map some

/-- The comma and the quote of `crsql_asIdentifierList`. -/
def comma : UInt8 := 44

def quote : UInt8 := 34

/-- `%w` doubles the quotes of a name. -/
def doubleQuotes : List UInt8 → List UInt8
  | [] => []
  | b :: bs => if b = quote then b :: b :: doubleQuotes bs else b :: doubleQuotes bs

/-- To double quotes puts no terminator in. -/
theorem zero_notMem_doubleQuotes {bs : List UInt8} (h : 0 ∉ bs) : 0 ∉ doubleQuotes bs := by
  induction bs with
  | nil => exact h
  | cons b bs ih =>
      rw [List.mem_cons, not_or] at h
      unfold doubleQuotes
      split <;> simp [h.1, ih h.2]

/-- A quoted identifier holds no terminator. -/
theorem zero_notMem_identifier (pre name : CString) :
    (0 : UInt8) ∉ pre.bytes ++ quote :: doubleQuotes name.bytes ++ [quote] := by
  have hquote : (0 : UInt8) ≠ quote := by decide
  simp [pre.noNul, hquote, zero_notMem_doubleQuotes name.noNul]

/-- What `sqlite3_mprintf` makes of `%s"%w"`. -/
def identifier (pre name : CString) : CString where
  bytes := pre.bytes ++ quote :: doubleQuotes name.bytes ++ [quote]
  noNul := zero_notMem_identifier pre name

/-- `crsql_asIdentifierList` of columns with these names; null for no columns. -/
def crsqlAsIdentifierList (names : List CString) (pre : CString) :
    Option (Option (Buffer UInt8)) :=
  if names.length = 0 then some none
  else
    ((mallocPointers grants names.length).bind fun _ =>
      let mapped := names.map (identifier pre)
      let finalLen := toInt (sumLengths mapped + (names.length - 1 : Nat))
      (sqlite3Malloc grants (finalLen + 1)).bind fun ret =>
        (Buffer.put finalLen 0 ret).bind fun ret => joinWith ret mapped comma).map some

/-- `crsql_quotedValuesAsList`. -/
def crsqlQuotedValuesAsList (parts : List CString) : Option (Buffer UInt8) :=
  let len := toInt (sumLengths parts + ((parts.length : Int) - 1))
  (sqlite3Malloc grants (toInt (len + 1))).bind fun ret =>
    (joinWith ret parts comma).bind fun ret => Buffer.put len 0 ret

/-! ## Sizes of type int -/

/-- A number below 2^31 is an int as it is. -/
theorem toInt_of_lt {x : Int} (hlo : 0 ≤ x) (hhi : x < 2 ^ 31) : toInt x = x := by
  unfold toInt
  split <;> omega

/-- An int is below 2^31. -/
theorem toInt_lt (x : Int) : toInt x < 2 ^ 31 := by
  unfold toInt
  split <;> omega

/-- A number that is no `int` becomes a smaller one. -/
theorem toInt_lt_self {x : Int} (hx : 2 ^ 31 ≤ x) : toInt x < x :=
  Int.lt_of_lt_of_le (toInt_lt x) hx

/-- A number is not below the int that it is cut to. -/
theorem toInt_le {x : Int} (hx : 0 ≤ x) : toInt x ≤ x := by
  by_cases hlt : x < 2 ^ 31
  · exact Int.le_of_eq (toInt_of_lt hx hlt)
  · exact Int.le_of_lt (toInt_lt_self (Int.not_lt.mp hlt))

/-- A sum may be cut to an int at every step or at the end. -/
theorem toInt_toInt_add (x y : Int) : toInt (toInt x + y) = toInt (x + y) := by
  have hmod : (toInt x + y) % 2 ^ 32 = (x + y) % 2 ^ 32 := by
    unfold toInt
    split <;> omega
  rw [toInt, hmod, ← toInt]

/-- A size that `sqlite3_malloc` is asked for as it is, and gets. -/
def Fits (n : Nat) : Prop :=
  n < 2 ^ 31 ∧ grants n = true

instance (n : Nat) : Decidable (Fits grants n) :=
  inferInstanceAs (Decidable (_ ∧ _))

variable {grants}

/-- An allocation that fits succeeds. -/
theorem sqlite3Malloc_of_fits {n : Nat} (h : Fits grants (n + 1)) {size : Int}
    (hsize : toInt size = toInt (n + 1 : Nat)) :
    sqlite3Malloc grants size = some (Buffer.fresh (n + 1)) := by
  have heq : toInt (n + 1 : Nat) = (n + 1 : Nat) := toInt_of_lt (by omega) (by have := h.1; omega)
  have hpos : 0 < ((n + 1 : Nat) : Int) := by omega
  rw [sqlite3Malloc, hsize, heq, Int.toNat_natCast, if_pos ⟨hpos, h.2⟩]

/-- A block that is as long as it should be had a size that fits. -/
theorem fits_of_sqlite3Malloc {n : Nat} {size : Int} {b : Buffer UInt8}
    (h : sqlite3Malloc grants size = some b) (hlength : b.length = n) : Fits grants n := by
  unfold sqlite3Malloc at h
  split at h
  · rename_i hgranted
    obtain rfl := Option.some.inj h
    rw [Buffer.length_fresh] at hlength
    rw [← hlength]
    refine ⟨?_, hgranted.2⟩
    have hlt := toInt_lt size
    omega
  · cases h

/-- The sum of the lengths is an int. -/
theorem sumLengths_eq (strs : List CString) :
    sumLengths strs = toInt (strs.map CString.strlen).sum := by
  have hfold : ∀ (n : Int), strs.foldl (fun n s => toInt (n + s.strlen)) (toInt n) =
      toInt (n + ((strs.map CString.strlen).sum : Nat)) := by
    induction strs with
    | nil => intro n; simp
    | cons s strs ih =>
        intro n
        rw [List.foldl_cons, toInt_toInt_add, ih, List.map_cons, List.sum_cons]
        congr 1
        push_cast
        omega
  have h := hfold 0
  rw [Int.zero_add] at h
  exact h

/-! ## The joined string -/

/-- The strings with a separator between any two of them. -/
def joined (sep : List UInt8) (strs : List CString) : List UInt8 :=
  List.intercalate sep (strs.map CString.bytes)

/-- Joined texts begin with the first one and a separator. -/
theorem joined_cons_cons (sep : List UInt8) (s t : CString) (strs : List CString) :
    joined sep (s :: t :: strs) = s.bytes ++ sep ++ joined sep (t :: strs) :=
  List.intercalate_cons_cons

/-- The length of joined texts. -/
theorem length_joined (sep : List UInt8) (s : CString) (strs : List CString) :
    (joined sep (s :: strs)).length =
      ((s :: strs).map CString.strlen).sum + strs.length * sep.length := by
  induction strs generalizing s with
  | nil => simp [joined, CString.strlen]
  | cons t strs ih =>
      have hstrlen : s.strlen = s.bytes.length := rfl
      rw [joined_cons_cons, List.length_append, List.length_append, ih, List.map_cons,
        List.sum_cons, List.map_cons, List.sum_cons, List.map_cons, List.sum_cons,
        List.length_cons, Nat.succ_mul]
      omega

/-- The offset at which the last string begins. -/
def lastOffset (sepLen : Nat) : List CString → Nat
  | s :: t :: rest => s.strlen + sepLen + lastOffset sepLen (t :: rest)
  | _ => 0

/-- The last text begins within the joined ones. -/
theorem lastOffset_le (sep : List UInt8) (strs : List CString) :
    lastOffset sep.length strs ≤ (joined sep strs).length := by
  induction strs with
  | nil => exact Nat.zero_le _
  | cons s strs ih =>
      cases strs with
      | nil => exact Nat.zero_le _
      | cons t strs =>
          rw [joined_cons_cons, lastOffset]
          simp only [List.length_append, CString.strlen]
          omega

/-! ## The loop over the strings -/

/-- What a separator must do: take the place of the cells behind those that are filled. -/
def Separates (separate : Int → Buffer UInt8 → Option (Buffer UInt8)) (sep : List UInt8) : Prop :=
  ∀ (front : List UInt8) (rest : Buffer UInt8), sep.length + 1 ≤ rest.length →
    ∃ rest', separate front.length (Buffer.filled front ++ rest) =
        some (Buffer.filled (front ++ sep) ++ rest') ∧ rest'.length + sep.length = rest.length

/-- A byte is written as a separator. -/
theorem separates_put (delim : UInt8) :
    Separates (fun j dest => Buffer.put j delim dest) [delim] := by
  intro front rest hle
  refine ⟨rest.drop 1, ?_, ?_⟩
  · change Buffer.copy _ [delim] _ = _
    rw [Buffer.copy_append (by rw [Buffer.length_filled]) (by simp at hle ⊢; omega),
      Buffer.filled_append, List.append_assoc]
    rfl
  · simp only [List.length_drop, List.length_singleton] at hle ⊢
    omega

/-- A text is copied as a separator. -/
theorem separates_strcpy (delim : CString) : Separates (strcpy delim) delim.bytes := by
  intro front rest hle
  have hlength : delim.terminated.length = delim.bytes.length + 1 := by
    rw [CString.terminated, List.length_append, List.length_singleton]
  refine ⟨some 0 :: rest.drop (delim.bytes.length + 1), ?_, ?_⟩
  · rw [strcpy, Buffer.copy_append (by rw [Buffer.length_filled]) (by omega), hlength,
      CString.terminated, Buffer.filled_append, Buffer.filled_append]
    simp [Buffer.filled]
  · rw [List.length_cons, List.length_drop]
    omega

/-- A string that is copied behind the cells that are filled. -/
theorem strcpy_append (s : CString) (front : List UInt8) {rest : Buffer UInt8}
    (hle : s.strlen + 1 ≤ rest.length) :
    strcpy s front.length (Buffer.filled front ++ rest) =
      some (Buffer.filled (front ++ s.bytes) ++ some 0 :: rest.drop (s.strlen + 1)) := by
  have hlength : s.terminated.length = s.strlen + 1 := by
    rw [CString.terminated, List.length_append, List.length_singleton, CString.strlen]
  rw [strcpy, Buffer.copy_append (by rw [Buffer.length_filled]) (by omega), hlength,
    CString.terminated, Buffer.filled_append, Buffer.filled_append]
  simp [Buffer.filled]

/-- While the last string begins below 2^31, the loop joins the strings behind what is
written, up to the terminator in the last cell. -/
theorem joinLoop_eq {separate : Int → Buffer UInt8 → Option (Buffer UInt8)} {sep : List UInt8}
    (hsep : Separates separate sep) {strs : List CString} (hne : strs ≠ [])
    (front : List UInt8) {rest : Buffer UInt8} (hrest : rest.length = (joined sep strs).length + 1)
    (hlast : front.length + lastOffset sep.length strs < 2 ^ 31) :
    joinLoop separate sep.length strs front.length (Buffer.filled front ++ rest) =
      some (Buffer.filled (front ++ joined sep strs ++ [0])) := by
  induction strs generalizing front rest with
  | nil => exact absurd rfl hne
  | cons s strs ih =>
      cases strs with
      | nil =>
          have hjoined : joined sep [s] = s.bytes := List.intercalate_singleton
          rw [hjoined] at hrest ⊢
          rw [joinLoop, strcpy_append s front (by rw [CString.strlen]; omega),
            List.drop_of_length_le (by rw [CString.strlen]; omega), Buffer.filled_append _ [0]]
          rfl
      | cons t strs =>
          rw [joined_cons_cons] at hrest ⊢
          simp only [List.length_append] at hrest
          rw [lastOffset] at hlast
          have hstrlen : s.strlen = s.bytes.length := rfl
          rw [joinLoop, strcpy_append s front (by omega), Option.bind_some]
          have hoffset : toInt ((front.length : Int) + s.strlen) =
              ((front ++ s.bytes).length : Nat) := by
            rw [List.length_append, toInt_of_lt (by omega) (by omega), hstrlen, Int.natCast_add]
          rw [hoffset]
          obtain ⟨rest', hseparate, hrest'⟩ := hsep (front ++ s.bytes)
            (some 0 :: rest.drop (s.strlen + 1)) (by
              rw [List.length_cons, List.length_drop]
              omega)
          rw [hseparate, Option.bind_some]
          have hnext : toInt (((front ++ s.bytes).length : Int) + sep.length) =
              ((front ++ s.bytes ++ sep).length : Nat) := by
            have hlength : (front ++ s.bytes).length = front.length + s.bytes.length :=
              List.length_append
            have hlength' : (front ++ s.bytes ++ sep).length = (front ++ s.bytes).length + sep.length :=
              List.length_append
            rw [toInt_of_lt (by omega) (by omega), hlength', Int.natCast_add]
          rw [hnext, ih (by simp) (front ++ s.bytes ++ sep) ?_ ?_]
          · simp only [List.append_assoc]
          · rw [List.length_cons, List.length_drop] at hrest'
            omega
          · rw [List.length_append, List.length_append]
            omega

/-- No copy and no separator moves the block. -/
theorem length_joinLoop {separate : Int → Buffer UInt8 → Option (Buffer UInt8)} {sepLen : Nat}
    (hsep : ∀ {j b b'}, separate j b = some b' → b'.length = b.length) {strs : List CString}
    {j : Int} {dest dest' : Buffer UInt8}
    (h : joinLoop separate sepLen strs j dest = some dest') : dest'.length = dest.length := by
  induction strs generalizing j dest with
  | nil =>
      rw [joinLoop] at h
      rw [Option.some.inj h]
  | cons s strs ih =>
      cases strs with
      | nil => exact Buffer.length_copy h
      | cons t strs =>
          rw [joinLoop] at h
          obtain ⟨dest₁, hcopy, h⟩ := Option.bind_eq_some_iff.mp h
          obtain ⟨dest₂, hseparate, h⟩ := Option.bind_eq_some_iff.mp h
          rw [ih h, hsep hseparate, Buffer.length_copy hcopy]

/-- The block that is expected: every cell written, the terminator in the last one. -/
def expected (text : List UInt8) : Buffer UInt8 :=
  Buffer.filled (text ++ [0])

theorem length_expected (text : List UInt8) : (expected text).length = text.length + 1 := by
  rw [expected, Buffer.length_filled, List.length_append, List.length_singleton]

/-- The loop on a block of the size of the joined string. -/
theorem joinLoop_fresh {separate : Int → Buffer UInt8 → Option (Buffer UInt8)} {sep : List UInt8}
    (hsep : Separates separate sep) {strs : List CString} (hne : strs ≠ []) {dest : Buffer UInt8}
    (hlength : dest.length = (joined sep strs).length + 1)
    (hlast : lastOffset sep.length strs < 2 ^ 31) :
    joinLoop separate sep.length strs 0 dest = some (expected (joined sep strs)) := by
  have h := joinLoop_eq hsep hne [] hlength (by simpa using hlast)
  exact h

/-! ## Where offsets are no int -/

/-- The loop of `crsql_joinWith` does not write behind where its offset and what is left to
copy end. -/
theorem getElem?_joinLoop {delim : UInt8} {strs : List CString} {j : Int}
    {dest dest' : Buffer UInt8}
    (h : joinLoop (fun j dest => Buffer.put j delim dest) 1 strs j dest = some dest') {k : Nat}
    (hk : j + (joined [delim] strs).length < k) : dest'[k]? = dest[k]? := by
  induction strs generalizing j dest with
  | nil =>
      rw [joinLoop] at h
      rw [Option.some.inj h]
  | cons s strs ih =>
      cases strs with
      | nil =>
          have hjoined : joined [delim] [s] = s.bytes := List.intercalate_singleton
          rw [hjoined] at hk
          refine Buffer.getElem?_copy h ?_
          rw [CString.terminated, List.length_append, List.length_singleton]
          omega
      | cons t strs =>
          rw [joined_cons_cons, List.length_append, List.length_append, List.length_singleton] at hk
          have hstrlen : s.strlen = s.bytes.length := rfl
          rw [joinLoop] at h
          obtain ⟨dest₁, hcopy, h⟩ := Option.bind_eq_some_iff.mp h
          obtain ⟨dest₂, hput, h⟩ := Option.bind_eq_some_iff.mp h
          have hj := (Buffer.copy_eq_some hcopy).1
          have hoffset : toInt (j + s.strlen) ≤ j + s.strlen := toInt_le (by omega)
          have hpos := (Buffer.copy_eq_some hput).1
          have hnext : toInt (toInt (j + s.strlen) + 1) ≤ toInt (j + s.strlen) + 1 :=
            toInt_le (by omega)
          rw [ih h (by push_cast at hnext ⊢; omega), Buffer.getElem?_copy hput (by simp; omega),
            Buffer.getElem?_copy hcopy]
          rw [CString.terminated, List.length_append, List.length_singleton]
          omega

/-- A run of the loop that writes the last cell of a block of the size of the joined string
had no string begin at 2^31 or behind. -/
theorem lastOffset_lt_of_joinLoop {delim : UInt8} {strs : List CString} {o : Nat}
    {dest dest' : Buffer UInt8} (ho : o < 2 ^ 31)
    (h : joinLoop (fun j dest => Buffer.put j delim dest) 1 strs o dest = some dest')
    (hfresh : dest[o + (joined [delim] strs).length]? = some none)
    (hwritten : dest'[o + (joined [delim] strs).length]? ≠ some none) :
    o + lastOffset 1 strs < 2 ^ 31 := by
  induction strs generalizing o dest with
  | nil => simpa [lastOffset] using ho
  | cons s strs ih =>
      cases strs with
      | nil => simpa [lastOffset] using ho
      | cons t strs =>
          rw [joined_cons_cons, List.length_append, List.length_append, List.length_singleton]
            at hfresh hwritten
          have hstrlen : s.strlen = s.bytes.length := rfl
          rw [joinLoop] at h
          obtain ⟨dest₁, hcopy, h⟩ := Option.bind_eq_some_iff.mp h
          obtain ⟨dest₂, hput, h⟩ := Option.bind_eq_some_iff.mp h
          have hoffset : toInt ((o : Int) + s.strlen) ≤ o + s.strlen := toInt_le (by omega)
          have hpos := (Buffer.copy_eq_some hput).1
          -- the last cell is behind this string and its separator
          have hkeep : dest₂[o + (s.bytes.length + 1 + (joined [delim] (t :: strs)).length)]? =
              some none := by
            rw [Buffer.getElem?_copy hput (by simp; omega), Buffer.getElem?_copy hcopy]
            · exact hfresh
            · rw [CString.terminated, List.length_append, List.length_singleton]
              omega
          rw [lastOffset]
          by_cases hlt : o + s.strlen + 1 < 2 ^ 31
          · have hnext : toInt (toInt ((o : Int) + s.strlen) + (1 : Nat)) =
                ((o + s.strlen + 1 : Nat) : Int) := by
              rw [toInt_of_lt (x := (o : Int) + s.strlen) (by omega) (by omega),
                toInt_of_lt (by omega) (by omega)]
              omega
            rw [hnext] at h
            have heq : o + s.strlen + 1 + (joined [delim] (t :: strs)).length =
                o + (s.bytes.length + 1 + (joined [delim] (t :: strs)).length) := by omega
            have hrest := ih hlt h (by rw [heq]; exact hkeep) (by rw [heq]; exact hwritten)
            omega
          · -- the offset falls behind, and the last cell is never reached
            exfalso
            refine hwritten ?_
            have hnext : toInt (toInt ((o : Int) + s.strlen) + (1 : Nat)) < o + s.strlen + 1 := by
              by_cases hone : (o : Int) + s.strlen < 2 ^ 31
              · rw [toInt_of_lt (x := (o : Int) + s.strlen) (by omega) hone]
                exact toInt_lt_self (by omega)
              · have hless := toInt_lt_self (x := (o : Int) + s.strlen) (by omega)
                have hle : toInt (toInt ((o : Int) + s.strlen) + (1 : Nat)) ≤
                    toInt ((o : Int) + s.strlen) + (1 : Nat) := toInt_le (by omega)
                omega
            rw [getElem?_joinLoop h (by omega)]
            exact hkeep

/-! ## What each joiner returns -/

/-- A joiner that writes the text to each block of the right size, and moves no block,
returns what is expected exactly when the block fits. -/
theorem bind_malloc_eq_iff {size : Int} {text : List UInt8}
    {write : Buffer UInt8 → Option (Buffer UInt8)}
    (hsize : toInt size = toInt (text.length + 1 : Nat))
    (hwrite : ∀ ret, ret.length = text.length + 1 → text.length + 1 < 2 ^ 31 →
      write ret = some (expected text))
    (hlength : ∀ ret ret', write ret = some ret' → ret'.length = ret.length) :
    (sqlite3Malloc grants size).bind write = some (expected text) ↔
      Fits grants (text.length + 1) := by
  constructor
  · intro h
    obtain ⟨ret, hmalloc, h⟩ := Option.bind_eq_some_iff.mp h
    refine fits_of_sqlite3Malloc hmalloc ?_
    rw [← hlength ret _ h, length_expected]
  · intro h
    rw [sqlite3Malloc_of_fits h hsize, Option.bind_some]
    exact hwrite _ (Buffer.length_fresh _) h.1

/-- The array of pointers is allocated when eight bytes for each fit. -/
theorem mallocPointers_eq_some_iff {len : Nat} (hlen : 0 < len) :
    mallocPointers grants len = some () ↔ Fits grants (len * 8) := by
  constructor
  · intro h
    obtain ⟨b, hmalloc, h⟩ := Option.bind_eq_some_iff.mp h
    refine fits_of_sqlite3Malloc hmalloc (Nat.le_antisymm ?_ ?_)
    · unfold sqlite3Malloc at hmalloc
      split at hmalloc
      · obtain rfl := Option.some.inj hmalloc
        have hle : toInt (len * 8 : Nat) ≤ (len * 8 : Nat) := toInt_le (by omega)
        rw [Buffer.length_fresh]
        omega
      · cases hmalloc
    · by_contra hlt
      rw [if_neg hlt] at h
      cases h
  · intro h
    obtain ⟨n, hn⟩ : ∃ n, len * 8 = n + 1 := ⟨len * 8 - 1, by omega⟩
    rw [mallocPointers, hn, sqlite3Malloc_of_fits (hn ▸ h) rfl, Option.bind_some,
      Buffer.length_fresh, if_pos le_rfl]

/-- What follows the allocation of the pointers. -/
theorem bind_mallocPointers_eq_some_iff {len : Nat} (hlen : 0 < len) {β : Type}
    {next : Option β} {b : β} : (mallocPointers grants len).bind (fun _ => next) = some b ↔
      Fits grants (len * 8) ∧ next = some b := by
  rw [Option.bind_eq_some_iff, ← mallocPointers_eq_some_iff hlen]
  constructor
  · rintro ⟨⟨⟩, hmalloc, hnext⟩
    exact ⟨hmalloc, hnext⟩
  · rintro ⟨hmalloc, hnext⟩
    exact ⟨(), hmalloc, hnext⟩

/-- The terminator that is written before the loop. -/
theorem put_last {n : Nat} {ret : Buffer UInt8} (hret : ret.length = n + 1) (hn : n + 1 < 2 ^ 31) :
    ∃ ret', Buffer.put (toInt n) 0 ret = some ret' ∧ ret'.length = n + 1 := by
  rw [toInt_of_lt (by omega) (by omega)]
  have hput := @Buffer.copy_append _ (ret.take n) (ret.drop n) n [0]
    (by rw [List.length_take, min_eq_left (by omega)])
    (by rw [List.length_drop, List.length_singleton]; omega)
  rw [List.take_append_drop] at hput
  exact ⟨_, hput, (Buffer.length_copy hput).trans hret⟩

/-- An int is an int. -/
theorem toInt_toInt (x : Int) : toInt (toInt x) = toInt x := by
  have h := toInt_toInt_add x 0
  rwa [Int.add_zero, Int.add_zero] at h

/-- The loop writes the joined texts exactly when the last offset is an int. -/
theorem joinWith_eq_some_iff (s : CString) (strs : List CString) (delim : UInt8) :
    joinWith (Buffer.fresh ((joined [delim] (s :: strs)).length + 1)) (s :: strs) delim =
        some (expected (joined [delim] (s :: strs))) ↔ lastOffset 1 (s :: strs) < 2 ^ 31 := by
  constructor
  · intro h
    have hlast := lastOffset_lt_of_joinLoop (o := 0) (by decide) h
      (by rw [Buffer.fresh, List.getElem?_replicate, if_pos (by omega)])
      (by simp [expected, Buffer.filled])
    omega
  · exact joinLoop_fresh (separates_put delim) (by simp) (Buffer.length_fresh _)

/-- It does so in a buffer of less than 2^31 bytes. -/
theorem joinWith_of_length {s : CString} {strs : List CString} {delim : UInt8} {ret : Buffer UInt8}
    (hret : ret.length = (joined [delim] (s :: strs)).length + 1)
    (hlt : (joined [delim] (s :: strs)).length + 1 < 2 ^ 31) :
    joinWith ret (s :: strs) delim = some (expected (joined [delim] (s :: strs))) := by
  have hle := lastOffset_le [delim] (s :: strs)
  exact joinLoop_fresh (separates_put delim) (by simp) hret (by omega)

/-- The loop keeps the length of the buffer. -/
theorem length_joinWith {ret ret' : Buffer UInt8} {strs : List CString} {delim : UInt8}
    (h : joinWith ret strs delim = some ret') : ret'.length = ret.length :=
  length_joinLoop (fun hput => Buffer.length_copy hput) h

/-- The `int` into which the lengths and the separators are added up. -/
theorem toInt_sumLengths (sep : List UInt8) (s : CString) (strs : List CString) :
    toInt (sumLengths (s :: strs) + (strs.length * sep.length : Nat)) =
      toInt (joined sep (s :: strs)).length := by
  rw [sumLengths_eq, toInt_toInt_add, length_joined, Int.natCast_add]

/-- `crsql_join2` writes the joined texts exactly when its allocations fit. -/
theorem crsqlJoin2_eq_some_iff (map : CString → CString) (s : CString) (strs : List CString)
    (delim : CString) :
    crsqlJoin2 grants map (s :: strs) delim =
        some (some (expected (joined delim.bytes ((s :: strs).map map)))) ↔
      Fits grants ((strs.length + 1) * 8) ∧
        Fits grants ((joined delim.bytes ((s :: strs).map map)).length + 1) := by
  have hsum := toInt_sumLengths delim.bytes (map s) (strs.map map)
  rw [List.length_map] at hsum
  have hstrlen : delim.strlen = delim.bytes.length := rfl
  rw [crsqlJoin2, if_neg (by simp), Option.map_eq_some_iff]
  simp only [Option.some.injEq, exists_eq_right, List.length_cons, Nat.add_sub_cancel, hstrlen,
    List.map_cons, hsum]
  rw [bind_mallocPointers_eq_some_iff (Nat.succ_pos _), and_congr_right_iff]
  intro _
  refine bind_malloc_eq_iff ?_ ?_ ?_
  · rw [toInt_toInt, toInt_toInt_add, Int.natCast_add]
    rfl
  · intro ret hret hlt
    obtain ⟨ret', hput, hret'⟩ := put_last hret hlt
    have hle := lastOffset_le delim.bytes (map s :: strs.map map)
    rw [hput, Option.bind_some]
    exact joinLoop_fresh (separates_strcpy delim) (by simp) hret' (by omega)
  · intro ret ret' h
    obtain ⟨ret₁, hput, h⟩ := Option.bind_eq_some_iff.mp h
    rw [length_joinLoop (fun hcopy => Buffer.length_copy hcopy) h, Buffer.length_copy hput]

/-- So does `crsql_asIdentifierList` with the identifiers. -/
theorem crsqlAsIdentifierList_eq_some_iff (s : CString) (strs : List CString) (pre : CString) :
    crsqlAsIdentifierList grants (s :: strs) pre =
        some (some (expected (joined [comma] ((s :: strs).map (identifier pre))))) ↔
      Fits grants ((strs.length + 1) * 8) ∧
        Fits grants ((joined [comma] ((s :: strs).map (identifier pre))).length + 1) := by
  have hsum := toInt_sumLengths [comma] (identifier pre s) (strs.map (identifier pre))
  rw [List.length_map, List.length_singleton, Nat.mul_one] at hsum
  rw [crsqlAsIdentifierList, if_neg (by simp), Option.map_eq_some_iff]
  simp only [Option.some.injEq, exists_eq_right, List.length_cons, Nat.add_sub_cancel,
    List.map_cons, hsum]
  rw [bind_mallocPointers_eq_some_iff (Nat.succ_pos _), and_congr_right_iff]
  intro _
  refine bind_malloc_eq_iff ?_ ?_ ?_
  · rw [toInt_toInt_add, Int.natCast_add]
    rfl
  · intro ret hret hlt
    obtain ⟨ret', hput, hret'⟩ := put_last hret hlt
    rw [hput, Option.bind_some]
    exact joinWith_of_length hret' hlt
  · intro ret ret' h
    obtain ⟨ret₁, hput, h⟩ := Option.bind_eq_some_iff.mp h
    rw [length_joinWith h, Buffer.length_copy hput]

/-- So does `crsql_quotedValuesAsList` with the values. -/
theorem crsqlQuotedValuesAsList_eq_some_iff (s : CString) (strs : List CString) :
    crsqlQuotedValuesAsList grants (s :: strs) = some (expected (joined [comma] (s :: strs))) ↔
      Fits grants ((joined [comma] (s :: strs)).length + 1) := by
  have hsum := toInt_sumLengths [comma] s strs
  rw [List.length_singleton, Nat.mul_one] at hsum
  have hminus : ((s :: strs).length : Int) - 1 = (strs.length : Nat) := by
    rw [List.length_cons]
    omega
  simp only [crsqlQuotedValuesAsList, hminus, hsum]
  refine bind_malloc_eq_iff ?_ ?_ ?_
  · rw [toInt_toInt, toInt_toInt_add, Int.natCast_add]
    rfl
  · intro ret hret hlt
    -- the terminator is there already, and is written once more
    rw [joinWith_of_length hret hlt, Option.bind_some, toInt_of_lt (by omega) (by omega), expected,
      Buffer.filled_append]
    exact Buffer.copy_append (by rw [Buffer.length_filled]) le_rfl
  · intro ret ret' h
    obtain ⟨ret₁, hjoin, h⟩ := Option.bind_eq_some_iff.mp h
    rw [Buffer.length_copy h, length_joinWith hjoin]

/-! ## crsql_join -/

/-- The strings one behind the other. -/
def concatenated (strs : List CString) : List UInt8 :=
  strs.flatMap CString.bytes

/-- The recursion fills the block from its end, down to the offset where its strings
begin. -/
theorem joinHelper_eq {strs : List CString} {accum : Nat}
    (h : Fits grants (accum + (concatenated strs).length + 1)) :
    joinHelper grants strs accum =
      some (Buffer.fresh accum ++ expected (concatenated strs), (accum : Int)) := by
  induction strs generalizing accum with
  | nil =>
      have hfresh : (Buffer.fresh (accum + 1) : Buffer UInt8) = Buffer.fresh accum ++ [none] := by
        rw [Buffer.fresh, List.replicate_succ']
        rfl
      have hmalloc : sqlite3Malloc grants ((accum : Int) + 1) = some (Buffer.fresh (accum + 1)) :=
        sqlite3Malloc_of_fits h rfl
      rw [joinHelper, hmalloc, Option.bind_some, hfresh, Buffer.copy_append (by rw [Buffer.length_fresh]) le_rfl]
      rfl
  | cons s strs ih =>
      have hconcat : concatenated (s :: strs) = s.bytes ++ concatenated strs :=
        List.flatMap_cons
      have hstrlen : s.strlen = s.bytes.length := rfl
      rw [hconcat, List.length_append, ← Nat.add_assoc] at h
      have hfresh : (Buffer.fresh (accum + s.strlen) : Buffer UInt8) =
          Buffer.fresh accum ++ Buffer.fresh s.strlen := by
        rw [Buffer.fresh, List.replicate_add]
        rfl
      have hrest := @ih (accum + s.strlen) (by rwa [hstrlen])
      rw [joinHelper, hrest, Option.bind_some, hfresh, List.append_assoc]
      have hback : ((accum + s.strlen : Nat) : Int) - s.strlen = accum := by omega
      simp only [hback]
      rw [Buffer.copy_append (by rw [Buffer.length_fresh])
        (by rw [List.length_append, Buffer.length_fresh]; omega), ← hstrlen,
        List.drop_append_of_le_length (by rw [Buffer.length_fresh]),
        List.drop_of_length_le (by rw [Buffer.length_fresh]), hconcat]
      simp [expected, Buffer.filled_append]

/-- The block is the one that was allocated where the recursion ended. -/
theorem length_joinHelper {strs : List CString} {accum : Nat} {r : Buffer UInt8 × Int}
    (h : joinHelper grants strs accum = some r) :
    ∃ b, sqlite3Malloc grants (accum + (concatenated strs).length + 1 : Nat) = some b ∧
      r.1.length = b.length := by
  induction strs generalizing accum r with
  | nil =>
      obtain ⟨b, hmalloc, h⟩ := Option.bind_eq_some_iff.mp h
      obtain ⟨b', hcopy, rfl⟩ := Option.map_eq_some_iff.mp h
      exact ⟨b, hmalloc, Buffer.length_copy hcopy⟩
  | cons s strs ih =>
      obtain ⟨r', hrest, h⟩ := Option.bind_eq_some_iff.mp h
      obtain ⟨b', hcopy, rfl⟩ := Option.map_eq_some_iff.mp h
      obtain ⟨b, hmalloc, hlength⟩ := ih hrest
      have hsize : accum + (concatenated (s :: strs)).length + 1 =
          accum + s.strlen + (concatenated strs).length + 1 := by
        simp only [concatenated, List.flatMap_cons, List.length_append, CString.strlen]
        omega
      rw [hsize]
      exact ⟨b, hmalloc, (Buffer.length_copy hcopy).trans hlength⟩

/-- So does `crsql_join` without a separator. -/
theorem crsqlJoin_eq_some_iff (strs : List CString) :
    crsqlJoin grants strs = some (expected (concatenated strs), 0) ↔
      Fits grants ((concatenated strs).length + 1) := by
  constructor
  · intro h
    obtain ⟨b, hmalloc, hlength⟩ := length_joinHelper h
    rw [length_expected] at hlength
    exact fits_of_sqlite3Malloc hmalloc hlength.symm
  · intro h
    exact @joinHelper_eq grants strs 0 (by rwa [Nat.zero_add])

/-- A joiner returns a block every cell of which it has written, with the joined strings and
the terminator in the last cell, and writes nowhere else, exactly when its sizes fit: the one
of the block, and for those that map the strings the one of the pointers.  `crsql_joinWith`
is given the block, and needs every string to begin below 2^31. -/
theorem joiners_exact_iff (grants : Nat → Bool) (s : CString) (strs : List CString) :
    (crsqlJoin grants (s :: strs) = some (expected (concatenated (s :: strs)), 0) ↔
        Fits grants ((concatenated (s :: strs)).length + 1)) ∧
      (∀ delim, joinWith (Buffer.fresh ((joined [delim] (s :: strs)).length + 1)) (s :: strs) delim =
          some (expected (joined [delim] (s :: strs))) ↔ lastOffset 1 (s :: strs) < 2 ^ 31) ∧
      (∀ map delim, crsqlJoin2 grants map (s :: strs) delim =
          some (some (expected (joined delim.bytes ((s :: strs).map map)))) ↔
        Fits grants ((strs.length + 1) * 8) ∧
          Fits grants ((joined delim.bytes ((s :: strs).map map)).length + 1)) ∧
      (∀ pre, crsqlAsIdentifierList grants (s :: strs) pre =
          some (some (expected (joined [comma] ((s :: strs).map (identifier pre))))) ↔
        Fits grants ((strs.length + 1) * 8) ∧
          Fits grants ((joined [comma] ((s :: strs).map (identifier pre))).length + 1)) ∧
      (crsqlQuotedValuesAsList grants (s :: strs) = some (expected (joined [comma] (s :: strs))) ↔
        Fits grants ((joined [comma] (s :: strs)).length + 1)) :=
  ⟨crsqlJoin_eq_some_iff (s :: strs), joinWith_eq_some_iff s strs,
    fun map delim => crsqlJoin2_eq_some_iff map s strs delim,
    fun pre => crsqlAsIdentifierList_eq_some_iff s strs pre,
    crsqlQuotedValuesAsList_eq_some_iff s strs⟩

/-- A text of one letter holds no terminator. -/
theorem zero_notMem_replicate (n : Nat) : (0 : UInt8) ∉ List.replicate n (97 : UInt8) := by
  intro h
  exact absurd (List.eq_of_mem_replicate h) (by decide)

/-- The length of one text repeated. -/
theorem length_concatenated_replicate (n : Nat) (s : CString) :
    (concatenated (List.replicate n s)).length = n * s.strlen := by
  induction n with
  | zero => simp [concatenated]
  | succ n ih =>
      rw [List.replicate_succ, concatenated, List.flatMap_cons, List.length_append, ← concatenated,
        ih, Nat.succ_mul, Nat.add_comm, CString.strlen]

/-- Two thousand strings of 1100000 bytes, as many as a table has columns: the sum of their
lengths is no `int`. -/
theorem join_exceeds_int :
    ¬ ∀ strs : List CString, strs ≠ [] →
      crsqlJoin (fun _ => true) strs = some (expected (concatenated strs), 0) := by
  intro h
  have hlong : ∀ n m, 0 < n → n * m + 1 < 2 ^ 31 := by
    intro n m hn
    have hjoin := h (List.replicate n ⟨List.replicate m 97, zero_notMem_replicate m⟩)
      (List.ne_nil_of_length_pos (by rwa [List.length_replicate]))
    have hfits := ((crsqlJoin_eq_some_iff _).mp hjoin).1
    rwa [length_concatenated_replicate, CString.strlen, List.length_replicate] at hfits
  exact absurd (hlong 2000 1100000 (by decide)) (by decide)

end Joiners

end CrSqlite
