import Mathlib.Data.List.Basic
import Mathlib.Data.Nat.Basic

/-!
# Library - Buffers written piece by piece

A block of allocated cells, each of which holds nothing until it is written.  A copy to an
offset of the block is none when it does not lie inside the block, so a value says that no
write went astray, and a block of filled cells that every cell was written.

Main results:

- Theorem {lit}`Buffer.copy_append`: a copy behind the cells in front.
- Theorem {lit}`Buffer.getElem?_copy`: a copy leaves the cells behind it alone.
-/

/-- The cells of a block; none is a cell that was not written. -/
abbrev Buffer (β : Type*) := List (Option β)

namespace Buffer

variable {β : Type*}

/-- A block as it is allocated. -/
def fresh (n : Nat) : Buffer β :=
  List.replicate n none

/-- A block whose cells were all written. -/
def filled (xs : List β) : Buffer β :=
  xs.map some

/-- Copy to the offset `i`. -/
def copy (i : Int) (xs : List β) (b : Buffer β) : Option (Buffer β) :=
  if 0 ≤ i ∧ i + xs.length ≤ b.length then
    some (b.take i.toNat ++ filled xs ++ b.drop (i.toNat + xs.length))
  else none

/-- Write one cell. -/
def put (i : Int) (x : β) (b : Buffer β) : Option (Buffer β) :=
  copy i [x] b

@[simp]
theorem length_fresh (n : Nat) : (fresh n : Buffer β).length = n :=
  List.length_replicate

@[simp]
theorem length_filled (xs : List β) : (filled xs).length = xs.length :=
  List.length_map some

theorem filled_append (xs ys : List β) : filled (xs ++ ys) = filled xs ++ filled ys :=
  List.map_append

/-- A copy stays within the buffer and changes nothing else. -/
theorem copy_eq_some {i : Int} {xs : List β} {b b' : Buffer β} (h : copy i xs b = some b') :
    0 ≤ i ∧ i + xs.length ≤ b.length ∧
      b' = b.take i.toNat ++ filled xs ++ b.drop (i.toNat + xs.length) := by
  unfold copy at h
  split at h
  · rename_i hin
    exact ⟨hin.1, hin.2, (Option.some.inj h).symm⟩
  · cases h

/-- A copy does not move the block. -/
theorem length_copy {i : Int} {xs : List β} {b b' : Buffer β} (h : copy i xs b = some b') :
    b'.length = b.length := by
  obtain ⟨hpos, hle, rfl⟩ := copy_eq_some h
  simp only [List.length_append, List.length_take, length_filled, List.length_drop]
  omega

/-- A copy behind the cells in front takes the place of the cells that come next. -/
theorem copy_append {front rest : Buffer β} {i : Int} {xs : List β} (hi : i = front.length)
    (hle : xs.length ≤ rest.length) :
    copy i xs (front ++ rest) = some (front ++ (filled xs ++ rest.drop xs.length)) := by
  subst hi
  rw [copy, if_pos ⟨Int.natCast_nonneg _, by rw [List.length_append]; omega⟩, Int.toNat_natCast,
    List.take_left, List.drop_append, List.drop_of_length_le (Nat.le_add_right _ _),
    Nat.add_sub_cancel_left, List.nil_append, List.append_assoc]

/-- The cells behind a copy stay as they were. -/
theorem getElem?_copy {i : Int} {xs : List β} {b b' : Buffer β} (h : copy i xs b = some b')
    {k : Nat} (hk : i + xs.length ≤ k) : b'[k]? = b[k]? := by
  obtain ⟨hpos, hle, rfl⟩ := copy_eq_some h
  have hfront : (b.take i.toNat ++ filled xs).length = i.toNat + xs.length := by
    rw [List.length_append, List.length_take, length_filled]
    omega
  rw [List.getElem?_append_right (by omega), hfront, List.getElem?_drop]
  congr 1
  omega

end Buffer
