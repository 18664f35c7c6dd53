import Mathlib.Order.Lattice
import Mathlib.Order.BoundedOrder.Basic
import Mathlib.Logic.Function.Basic
import Mathlib.Data.List.Basic

/-!
# Library - Gossip over a join semilattice

State-based replication in the abstract.  Every replica holds an element of a
join semilattice; a one-way sync replaces the receiver's element by its join
with the sender's.  Nothing is assumed about the number of replicas or the order
of the syncs.

Main results:

- Theorem {lit}`Gossip.joinAll_eq_of_mem_iff`: folding joins over two lists with
  the same members gives the same element, whatever the order and repetition.
- Theorem {lit}`Gossip.all_eq`: once every ordered pair of replicas has been
  synced, all replicas hold the same element.
-/

namespace Gossip

/-! ## Joining a list of updates -/

section JoinAll

variable {S : Type*} [SemilatticeSup S]

/-- Join the updates of a list into a state, one after the other. -/
def joinAll (s : S) (updates : List S) : S :=
  updates.foldl (· ⊔ ·) s

@[simp]
theorem joinAll_nil (s : S) : joinAll s [] = s :=
  rfl

@[simp]
theorem joinAll_cons (s u : S) (us : List S) :
    joinAll s (u :: us) = joinAll (s ⊔ u) us :=
  rfl

/-- A join is below a bound when all states are. -/
theorem joinAll_le_iff {s b : S} {us : List S} :
    joinAll s us ≤ b ↔ s ≤ b ∧ ∀ u ∈ us, u ≤ b := by
  induction us generalizing s with
  | nil => simp
  | cons u us ih => simp [ih, and_assoc]

theorem le_joinAll (s : S) (us : List S) : s ≤ joinAll s us :=
  (joinAll_le_iff.mp le_rfl).1

theorem mem_le_joinAll {s u : S} {us : List S} (hu : u ∈ us) :
    u ≤ joinAll s us :=
  (joinAll_le_iff.mp le_rfl).2 u hu

/-- Only the set of updates matters. -/
theorem joinAll_eq_of_mem_iff {s : S} {us vs : List S}
    (h : ∀ u, u ∈ us ↔ u ∈ vs) : joinAll s us = joinAll s vs := by
  apply le_antisymm
  · exact joinAll_le_iff.mpr
      ⟨le_joinAll s vs, fun u hu => mem_le_joinAll ((h u).mp hu)⟩
  · exact joinAll_le_iff.mpr
      ⟨le_joinAll s us, fun u hu => mem_le_joinAll ((h u).mpr hu)⟩

/-- Joining a list is one join with what the list amounts to. -/
theorem joinAll_eq_sup {s v b : S} {us : List S} (hb : b ≤ s)
    (hv : joinAll b us = v) : joinAll s us = s ⊔ v := by
  subst hv
  apply le_antisymm
  · exact joinAll_le_iff.mpr
      ⟨le_sup_left, fun u hu => le_trans (mem_le_joinAll hu) le_sup_right⟩
  · refine sup_le (le_joinAll s us) (joinAll_le_iff.mpr ⟨?_, ?_⟩)
    · exact le_trans hb (le_joinAll s us)
    · exact fun u hu => mem_le_joinAll hu

/-- Seen through a join-preserving map into a linear order, the joined state is
the start state or one of the updates. -/
theorem joinAll_attained {L : Type*} [LinearOrder L] (φ : S → L)
    (hφ : ∀ a b, φ (a ⊔ b) = φ a ⊔ φ b) (s : S) (us : List S) :
    φ (joinAll s us) = φ s ∨ ∃ u ∈ us, φ (joinAll s us) = φ u := by
  induction us generalizing s with
  | nil => exact Or.inl rfl
  | cons u us ih =>
      rw [joinAll_cons]
      rcases ih (s ⊔ u) with h | ⟨v, hv, h⟩
      · rw [h, hφ]
        rcases le_total (φ s) (φ u) with hle | hle
        · exact Or.inr ⟨u, by simp, sup_eq_right.mpr hle⟩
        · exact Or.inl (sup_eq_left.mpr hle)
      · exact Or.inr ⟨v, List.mem_cons_of_mem u hv, h⟩

end JoinAll

/-! ## One-way syncs between replicas -/

section Sync

variable {ι S : Type*} [DecidableEq ι] [SemilatticeSup S]

/-- Replica `i` joins what replica `j` holds. -/
def sync (s : ι → S) (p : ι × ι) : ι → S :=
  Function.update s p.1 (s p.1 ⊔ s p.2)

/-- A sequence of one-way syncs. -/
def syncAll (s : ι → S) (ps : List (ι × ι)) : ι → S :=
  ps.foldl sync s

/-- A sync takes nothing away. -/
theorem le_sync (s : ι → S) (p : ι × ι) (m : ι) : s m ≤ sync s p m := by
  unfold sync
  by_cases hm : m = p.1
  · subst hm
    simp
  · simp [hm]

/-- A sync stays below a common bound. -/
theorem sync_le {s : ι → S} {p : ι × ι} {b : S} (h : ∀ m, s m ≤ b) (m : ι) :
    sync s p m ≤ b := by
  unfold sync
  by_cases hm : m = p.1
  · subst hm
    simp [h]
  · simp [hm, h]

/-- No replica ever loses anything. -/
theorem le_syncAll (s : ι → S) (ps : List (ι × ι)) (m : ι) :
    s m ≤ syncAll s ps m := by
  induction ps generalizing s with
  | nil => exact le_rfl
  | cons p ps ih => exact le_trans (le_sync s p m) (ih (sync s p))

/-- No replica ever holds more than what all replicas started with. -/
theorem syncAll_le {s : ι → S} {ps : List (ι × ι)} {b : S}
    (h : ∀ m, s m ≤ b) (m : ι) : syncAll s ps m ≤ b := by
  induction ps generalizing s with
  | nil => exact h m
  | cons p ps ih => exact ih (fun m => sync_le h m)

/-- A sync that takes place carries the sender's start state over. -/
theorem le_syncAll_of_mem {s : ι → S} {ps : List (ι × ι)} {i j : ι}
    (h : (i, j) ∈ ps) : s j ≤ syncAll s ps i := by
  induction ps generalizing s with
  | nil => simp at h
  | cons p ps ih =>
      rcases List.mem_cons.mp h with rfl | h
      · refine le_trans ?_ (le_syncAll (sync s (i, j)) ps i)
        simp [sync]
      · exact le_trans (le_sync s p j) (ih h)

/-- Once every ordered pair has been synced, all replicas agree. -/
theorem all_eq {s : ι → S} {ps : List (ι × ι)}
    (h : ∀ i j, i ≠ j → (i, j) ∈ ps) (i j : ι) :
    syncAll s ps i = syncAll s ps j := by
  have hle : ∀ i j, syncAll s ps i ≤ syncAll s ps j := by
    intro i j
    apply syncAll_le
    intro m
    by_cases hm : m = j
    · subst hm
      exact le_syncAll s ps m
    · exact le_syncAll_of_mem (h j m (Ne.symm hm))
  exact le_antisymm (hle i j) (hle j i)

end Sync

end Gossip
