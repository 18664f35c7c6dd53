import Mathlib.Data.Set.Basic
import Mathlib.Data.List.Lemmas

/-!
# Library - Cursors over stamped items

A reader follows a collection whose items carry stamps.  It keeps the largest
stamp it was given as its cursor and asks for the items above it.  Nothing is
missed as long as every item that comes or changes gets a stamp above the
cursor.

Main results:

- Theorem {lit}`Covered.write`: items with new stamps keep the reader covered.
- Theorem {lit}`Covered.rewrite`: so do old items under a new form that was seen if the
  old one was.
- Theorem {lit}`Covered.pull`: after asking for the items above the cursor the
  reader has seen them all.
- Theorem {lit}`chain_append`: a chain of segments grows by a segment that starts
  where the chain ends.
- Theorem {lit}`advance_eq_getLast`: for items in order of their stamps the new
  cursor is the stamp of the last one.
-/

namespace Cursor

section Coverage

variable {α : Type*} (stamp : α → Int)

/-- Every current item up to the cursor has been seen. -/
def Covered (current seen : Set α) (c : Int) : Prop :=
  ∀ x ∈ current, stamp x ≤ c → x ∈ seen

variable {stamp} {current current' seen seen' : Set α} {c : Int}

/-- Items that are not old ones have stamps above the cursor. -/
theorem Covered.write (h : Covered stamp current seen c)
    (hnew : ∀ x ∈ current', x ∈ current ∨ c < stamp x) : Covered stamp current' seen c := by
  intro x hx hle
  rcases hnew x hx with hold | hlt
  · exact h x hold hle
  · exact absurd hle (not_le.mpr hlt)

/-- Items that do not stand for old ones with the same stamp have stamps above the
cursor, and what stands for a seen item counts as seen. -/
theorem Covered.rewrite (h : Covered stamp current seen c)
    (hold : ∀ x ∈ current', c < stamp x ∨
      ∃ y ∈ current, stamp y = stamp x ∧ (y ∈ seen → x ∈ seen')) :
    Covered stamp current' seen' c := by
  intro x hx hle
  rcases hold x hx with hlt | ⟨y, hy, hstamp, hseen⟩
  · exact absurd hle (not_le.mpr hlt)
  · exact hseen (h y hy (hstamp.trans_le hle))

/-- A reader that is covered and is given the items above its cursor has seen
every current item. -/
theorem Covered.pull (h : Covered stamp current seen c) (hkeep : seen ⊆ seen')
    (hpull : ∀ x ∈ current, c < stamp x → x ∈ seen') : current ⊆ seen' := by
  intro x hx
  rcases lt_or_ge c (stamp x) with hlt | hle
  · exact hpull x hx hlt
  · exact hkeep (h x hx hle)

theorem Covered.of_subset (h : current ⊆ seen) (c : Int) : Covered stamp current seen c :=
  fun _ hx _ => h hx

end Coverage

/-! ## The next cursor -/

/-- The cursor after items with the given stamps. -/
def advance (c : Int) (stamps : List Int) : Int :=
  stamps.foldl max c

@[simp]
theorem advance_nil (c : Int) : advance c [] = c :=
  rfl

@[simp]
theorem advance_cons (c x : Int) (xs : List Int) :
    advance c (x :: xs) = advance (max c x) xs :=
  rfl

/-- The cursor stays below every bound of the old cursor and the stamps. -/
theorem advance_le {c m : Int} {xs : List Int} (hc : c ≤ m) (hxs : ∀ x ∈ xs, x ≤ m) :
    advance c xs ≤ m := by
  induction xs generalizing c with
  | nil => exact hc
  | cons x xs ih =>
      obtain ⟨hx, hrest⟩ := List.forall_mem_cons.mp hxs
      exact ih (max_le hc hx) hrest

theorem advance_append (c : Int) (xs ys : List Int) :
    advance c (xs ++ ys) = advance (advance c xs) ys :=
  List.foldl_append

/-- For stamps in order that are not below the cursor, the last stamp is the next
cursor. -/
theorem advance_eq_getLast {c : Int} {xs : List Int} (hne : xs ≠ [])
    (hc : ∀ x ∈ xs, c ≤ x) (hxs : xs.Pairwise (· ≤ ·)) :
    advance c xs = xs.getLast hne := by
  induction xs generalizing c with
  | nil => exact absurd rfl hne
  | cons x xs ih =>
      rw [advance_cons, max_eq_right (hc x (by simp))]
      cases xs with
      | nil => rfl
      | cons y ys =>
          rw [List.pairwise_cons] at hxs
          rw [ih (List.cons_ne_nil y ys) hxs.1 hxs.2]
          exact (List.getLast_cons (List.cons_ne_nil y ys)).symm

/-! ## Chains of segments -/

section Chain

variable {α β : Type*} (first last : α → β)

/-- Every segment starts where the one before it ends, the first one at the given
place. -/
def Chain : β → List α → Prop
  | _, [] => True
  | b, x :: xs => first x = b ∧ Chain (last x) xs

/-- Where a chain from the given place ends. -/
def chainEnd (b : β) (xs : List α) : β :=
  (xs.getLast?.map last).getD b

variable {first last}

@[simp]
theorem chainEnd_nil (b : β) : chainEnd last b [] = b :=
  rfl

@[simp]
theorem chainEnd_append (b : β) (xs : List α) (x : α) :
    chainEnd last b (xs ++ [x]) = last x := by
  simp [chainEnd]

/-- A chain goes on from its first element. -/
theorem chainEnd_cons (b : β) (x : α) (xs : List α) :
    chainEnd last b (x :: xs) = chainEnd last (last x) xs := by
  cases xs with
  | nil => rfl
  | cons y ys => simp [chainEnd, List.getLast?_cons]

/-- A chain grows by a segment that starts where it ends. -/
theorem chain_append {b : β} {xs : List α} {x : α} :
    Chain first last b (xs ++ [x]) ↔
      Chain first last b xs ∧ first x = chainEnd last b xs := by
  induction xs generalizing b with
  | nil => simp [Chain]
  | cons y ys ih => rw [List.cons_append, Chain, ih, Chain, chainEnd_cons, and_assoc]

end Chain

end Cursor
