import Mathlib.Data.Multiset.Filter
import Mathlib.Logic.Function.Basic

/-!
# Library - Blocks that are allocated and freed

A heap of blocks, each with its contents.  Memory may run out at any allocation.  A program
that frees a block twice, or reads or writes one that is not there, ends with a fault, so a
program that has an outcome does nothing of the kind.

Main results:

- Theorem {lit}`wp_bind`: what a program has to do for the one that follows.
- Theorems {lit}`Owns.malloc`, {lit}`Owns.free`, {lit}`Owns.realloc` and {lit}`Owns.store`: what
  a program owns besides the blocks of others, which stay as they are.
-/

namespace Memory

/-- The blocks of a heap, the address of the next one, and whether the allocations to come
find memory. -/
structure Heap (β : Type) where
  blocks : Nat → Option β
  next : Nat
  grants : Nat → Bool

/-- What goes wrong: a block is used that is not allocated (any more), or something else that is
not defined is done. -/
inductive Fault where
  | notAllocated
  | undefined
deriving DecidableEq

/-- A program on a heap. -/
abbrev Mem (β α : Type) :=
  StateT (Heap β) (Except Fault) α

variable {β α γ : Type}

/-! ## Operations -/

/-- The answer to an allocation. -/
def granted : Mem β Bool := fun h =>
  .ok (h.grants 0, { h with grants := fun n => h.grants (n + 1) })

def newBlock (b : β) : Mem β Nat := fun h =>
  .ok (h.next, { h with blocks := Function.update h.blocks h.next (some b), next := h.next + 1 })

/-- Memory for a block, or the null pointer. -/
def malloc (b : β) : Mem β (Option Nat) := do
  if ← granted then
    let p ← newBlock b
    pure (some p)
  else pure none

/-- The block that a pointer leads to. -/
def deref (p : Nat) (h : Heap β) : Except Fault β :=
  match h.blocks p with
  | some b => .ok b
  | none => .error .notAllocated

def load (p : Nat) : Mem β β := fun h =>
  (deref p h).map fun b => (b, h)

def store (p : Nat) (b : β) : Mem β Unit := fun h =>
  (deref p h).map fun _ => ((), { h with blocks := Function.update h.blocks p (some b) })

def free (p : Nat) : Mem β Unit := fun h =>
  (deref p h).map fun _ => ((), { h with blocks := Function.update h.blocks p none })

/-- Nothing happens to the null pointer. -/
def freeIfAny : Option Nat → Mem β Unit
  | some p => free p
  | none => pure ()

/-- Another block in the place of an old one, or the null pointer, and then the old one stays. -/
def realloc (p : Nat) (resize : β → β) : Mem β (Option Nat) := do
  let b ← load p
  match ← malloc (resize b) with
  | some q =>
      free p
      pure (some q)
  | none => pure none

/-- What is not defined. -/
def undefined : Mem β α := fun _ => .error .undefined

/-! ## Outcomes -/

/-- The program has an outcome, and it is as required. -/
def wp (m : Mem β α) (h : Heap β) (Q : α → Heap β → Prop) : Prop :=
  ∃ a h', m h = .ok (a, h') ∧ Q a h'

variable {h h' : Heap β} {Q R : α → Heap β → Prop}

theorem wp_pure {a : α} (hQ : Q a h) : wp (pure a) h Q :=
  ⟨a, h, rfl, hQ⟩

/-- A weaker postcondition holds. -/
theorem wp_mono {m : Mem β α} (hm : wp m h Q) (hQ : ∀ a h', Q a h' → R a h') : wp m h R := by
  obtain ⟨a, h', hrun, hq⟩ := hm
  exact ⟨a, h', hrun, hQ a h' hq⟩

/-- What follows starts where the first part ends. -/
theorem wp_bind {m : Mem β α} {f : α → Mem β γ} {Q : γ → Heap β → Prop}
    (hm : wp m h fun a h' => wp (f a) h' Q) : wp (m >>= f) h Q := by
  obtain ⟨a, h', hrun, c, h'', hrun', hQ⟩ := hm
  refine ⟨c, h'', ?_, hQ⟩
  change (m h).bind (fun p => f p.1 p.2) = .ok (c, h'')
  rw [hrun]
  exact hrun'

/-- The fault of a part is that of the whole. -/
theorem bind_eq_error {m : Mem β α} {f : α → Mem β γ} {fault : Fault}
    (hm : m h = .error fault ∨ wp m h fun a h' => f a h' = .error fault) :
    (m >>= f) h = .error fault := by
  change (m h).bind (fun p => f p.1 p.2) = .error fault
  rcases hm with hfault | ⟨a, h', hrun, hfault⟩
  · rw [hfault]
    rfl
  · rw [hrun]
    exact hfault

/-! ## What a program owns -/

/-- What a program finds: the blocks of others, and perhaps memory for everything. -/
structure Setting (β : Type) where
  others : Nat → Option β
  plenty : Prop

/-- The blocks of the heap are those of others and the owned ones. -/
structure Owns (e : Setting β) (h : Heap β) (s : Multiset (Nat × β)) : Prop where
  plenty : e.plenty → ∀ n, h.grants n = true
  fresh : ∀ p, h.next ≤ p → h.blocks p = none
  nodup : (s.map Prod.fst).Nodup
  owned : ∀ p b, (p, b) ∈ s → h.blocks p = some b ∧ e.others p = none
  rest : ∀ p, p ∉ s.map Prod.fst → h.blocks p = e.others p

variable {e : Setting β} {s : Multiset (Nat × β)} {p : Nat} {b b' : β}

/-- Nothing is owned at the start, and a program that owns nothing left the heap as it was. -/
theorem owns_zero_iff :
    Owns e h 0 ↔ (e.plenty → ∀ n, h.grants n = true) ∧ (∀ p, h.next ≤ p → h.blocks p = none) ∧
      h.blocks = e.others := by
  constructor
  · intro ho
    exact ⟨ho.plenty, ho.fresh, funext fun p => ho.rest p (by simp)⟩
  · rintro ⟨hplenty, hfresh, heq⟩
    exact ⟨hplenty, hfresh, by simp, by simp, by simp [heq]⟩

/-- Blocks are owned when they are allocated, apart from the others and from each other. -/
theorem owns_mk {blocks : Nat → Option β} {next : Nat} (hplenty : e.plenty → ∀ n, h.grants n = true)
    (fresh : ∀ p, next ≤ p → blocks p = none) (nodup : (s.map Prod.fst).Nodup)
    (owned : ∀ p b, (p, b) ∈ s → blocks p = some b ∧ e.others p = none)
    (rest : ∀ p, p ∉ s.map Prod.fst → blocks p = e.others p) : Owns e ⟨blocks, next, h.grants⟩ s :=
  ⟨hplenty, fresh, nodup, owned, rest⟩

theorem deref_eq_ok (hblock : h.blocks p = some b) : deref p h = .ok b := by
  rw [deref, hblock]

/-- The next address is not owned. -/
theorem Owns.notMem_next (ho : Owns e h s) : h.next ∉ s.map Prod.fst := by
  intro hmem
  obtain ⟨⟨p, b⟩, hpb, heq⟩ := Multiset.mem_map.mp hmem
  have hnone := ho.fresh h.next (Nat.le_refl _)
  obtain rfl : p = h.next := heq
  rw [(ho.owned _ b hpb).1] at hnone
  cases hnone

/-- A new block is owned. -/
theorem Owns.newBlock (ho : Owns e h s) (b : β) :
    wp (newBlock b) h fun p h' => Owns e h' ((p, b) ::ₘ s) := by
  have hnext := ho.notMem_next
  refine ⟨_, _, rfl, owns_mk ho.plenty (fun p hp => ?_) ?_ (fun p c hmem => ?_) fun p hp => ?_⟩
  · have hne : p ≠ h.next := by
      rintro rfl
      exact absurd hp (Nat.not_succ_le_self _)
    rw [Function.update_of_ne hne]
    exact ho.fresh p (Nat.le_of_succ_le hp)
  · rw [Multiset.map_cons, Multiset.nodup_cons]
    exact ⟨hnext, ho.nodup⟩
  · rcases Multiset.mem_cons.mp hmem with heq | hmem
    · obtain ⟨rfl, rfl⟩ := Prod.mk.inj heq
      rw [Function.update_self]
      exact ⟨rfl, (ho.rest _ hnext).symm.trans (ho.fresh _ (Nat.le_refl _))⟩
    · have hne : p ≠ h.next := fun heq =>
        hnext (Multiset.mem_map.mpr ⟨(p, c), hmem, heq⟩)
      rw [Function.update_of_ne hne]
      exact ho.owned p c hmem
  · rw [Multiset.map_cons, Multiset.mem_cons, not_or] at hp
    have hne : p ≠ h.next := hp.1
    rw [Function.update_of_ne hne]
    exact ho.rest p hp.2

/-- Whether memory is granted changes nothing. -/
theorem Owns.granted (ho : Owns e h s) :
    wp (granted : Mem β Bool) h fun ok h' => Owns e h' s ∧ (e.plenty → ok = true) :=
  ⟨_, _, rfl, ⟨fun hp n => ho.plenty hp (n + 1), ho.fresh, ho.nodup, ho.owned, ho.rest⟩,
    fun hp => ho.plenty hp 0⟩

/-- An allocated block is owned, and none is where memory ran out. -/
theorem Owns.malloc (ho : Owns e h s) (b : β) :
    wp (malloc b) h fun q h' => match q with
      | some p => Owns e h' ((p, b) ::ₘ s)
      | none => Owns e h' s ∧ ¬ e.plenty := by
  refine wp_bind (wp_mono ho.granted fun ok h' ho' => ?_)
  cases ok with
  | true => exact wp_bind (wp_mono (ho'.1.newBlock b) fun p h'' ho'' => wp_pure ho'')
  | false => exact wp_pure ⟨ho'.1, fun hp => nomatch ho'.2 hp⟩

/-- An owned block is read. -/
theorem Owns.load (ho : Owns e h ((p, b) ::ₘ s)) :
    wp (load p) h fun c h' => c = b ∧ h' = h := by
  refine ⟨b, h, ?_, rfl, rfl⟩
  rw [Memory.load, deref_eq_ok (ho.owned p b (Multiset.mem_cons_self _ _)).1]
  rfl

/-- One of several owned blocks is read. -/
theorem Owns.load_of_mem (ho : Owns e h s) (hmem : (p, b) ∈ s) :
    wp (Memory.load p) h fun c h' => c = b ∧ h' = h := by
  obtain ⟨t, rfl⟩ := Multiset.exists_cons_of_mem hmem
  exact ho.load

/-- An owned block is written. -/
theorem Owns.store (ho : Owns e h ((p, b) ::ₘ s)) (b' : β) :
    wp (store p b') h fun _ h' => Owns e h' ((p, b') ::ₘ s) := by
  obtain ⟨hblock, hnone⟩ := ho.owned p b (Multiset.mem_cons_self _ _)
  have hnodup := ho.nodup
  rw [Multiset.map_cons, Multiset.nodup_cons] at hnodup
  refine ⟨(), _, by rw [Memory.store, deref_eq_ok hblock]; rfl,
    owns_mk ho.plenty (fun q hq => ?_) ?_ (fun q c hmem => ?_) fun q hq => ?_⟩
  · have hne : q ≠ p := by
      rintro rfl
      rw [ho.fresh q hq] at hblock
      cases hblock
    rw [Function.update_of_ne hne]
    exact ho.fresh q hq
  · rw [Multiset.map_cons, Multiset.nodup_cons]
    exact hnodup
  · rcases Multiset.mem_cons.mp hmem with heq | hmem
    · obtain ⟨rfl, rfl⟩ := Prod.mk.inj heq
      rw [Function.update_self]
      exact ⟨rfl, hnone⟩
    · have hne : q ≠ p := fun heq => hnodup.1 (Multiset.mem_map.mpr ⟨(q, c), hmem, heq⟩)
      rw [Function.update_of_ne hne]
      exact ho.owned q c (Multiset.mem_cons_of_mem hmem)
  · rw [Multiset.map_cons, Multiset.mem_cons, not_or] at hq
    have hne : q ≠ p := hq.1
    rw [Function.update_of_ne hne]
    refine ho.rest q ?_
    rw [Multiset.map_cons, Multiset.mem_cons, not_or]
    exact hq

/-- An owned block is freed, and is owned no more. -/
theorem Owns.free (ho : Owns e h ((p, b) ::ₘ s)) :
    wp (free p) h fun _ h' => Owns e h' s := by
  obtain ⟨hblock, hnone⟩ := ho.owned p b (Multiset.mem_cons_self _ _)
  have hnodup := ho.nodup
  rw [Multiset.map_cons, Multiset.nodup_cons] at hnodup
  refine ⟨(), _, by rw [Memory.free, deref_eq_ok hblock]; rfl,
    owns_mk ho.plenty (fun q hq => ?_) hnodup.2 (fun q c hmem => ?_) fun q hq => ?_⟩
  · by_cases heq : q = p
    · rw [heq, Function.update_self]
    · rw [Function.update_of_ne heq]
      exact ho.fresh q hq
  · have hne : q ≠ p := fun heq => hnodup.1 (Multiset.mem_map.mpr ⟨(q, c), hmem, heq⟩)
    rw [Function.update_of_ne hne]
    exact ho.owned q c (Multiset.mem_cons_of_mem hmem)
  · by_cases heq : q = p
    · rw [heq, Function.update_self, hnone]
    · rw [Function.update_of_ne heq]
      refine ho.rest q ?_
      rw [Multiset.map_cons, Multiset.mem_cons, not_or]
      exact ⟨heq, hq⟩

/-- With plenty of memory a block is allocated. -/
theorem Owns.malloc_of_plenty (ho : Owns e h s) (hplenty : e.plenty) (b : β) :
    wp (Memory.malloc b) h fun q h' => ∃ p, q = some p ∧ Owns e h' ((p, b) ::ₘ s) := by
  refine wp_mono (ho.malloc b) fun q h' ho' => ?_
  cases q with
  | some p => exact ⟨p, rfl, ho'⟩
  | none => exact absurd hplenty ho'.2

/-- What was owned, and is no longer, is not there. -/
theorem Owns.load_eq_error (ho : Owns e h s) (hp : p ∉ s.map Prod.fst)
    (hnone : e.others p = none) : Memory.load p h = .error .notAllocated := by
  rw [Memory.load, deref, ho.rest p hp, hnone]
  rfl

/-- What a pointer that may be null owns. -/
def block (q : Option Nat) (b : β) : Multiset (Nat × β) :=
  match q with
  | some p => {(p, b)}
  | none => 0

theorem block_some (p : Nat) (b : β) : block (some p) b = {(p, b)} :=
  rfl

theorem block_none (b : β) : block none b = 0 :=
  rfl

/-- A pointer that is not null is freed. -/
theorem Owns.freeIfAny {q : Option Nat} (ho : Owns e h (block q b + s)) :
    wp (freeIfAny q) h fun _ h' => Owns e h' s := by
  cases q with
  | some p => exact ho.free
  | none =>
      rw [block_none, Multiset.zero_add] at ho
      exact wp_pure ho

/-- A block is moved with its contents, or stays where memory ran out. -/
theorem Owns.realloc (ho : Owns e h ((p, b) ::ₘ s)) (resize : β → β) :
    wp (realloc p resize) h fun q h' => match q with
      | some q => Owns e h' ((q, resize b) ::ₘ s)
      | none => Owns e h' ((p, b) ::ₘ s) ∧ ¬ e.plenty := by
  refine wp_bind (wp_mono ho.load ?_)
  rintro c h₁ ⟨rfl, rfl⟩
  refine wp_bind (wp_mono (ho.malloc (resize c)) fun q h₂ ho₂ => ?_)
  cases q with
  | some q =>
      have hboth : Owns e h₂ ((p, c) ::ₘ (q, resize c) ::ₘ s) := by
        rw [Multiset.cons_swap]
        exact ho₂
      exact wp_bind (wp_mono hboth.free fun _ h₃ ho₃ => wp_pure ho₃)
  | none => exact wp_pure ho₂

end Memory
