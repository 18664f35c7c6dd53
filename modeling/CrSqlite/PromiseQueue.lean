import Mathlib.Data.List.Basic
import Mathlib.Tactic.SplitIfs

/-!
# PromiseQueue - tasks one behind the other

The queue of the browser wrapper (js/browser/wa-crsqlite/src/PromiseQueue.ts).  Each task
is chained to the promise of the one before it.  A task that fails takes the tasks behind
it along, and the first handler of the failure lets later tasks begin a new chain.

Main results:

- Theorem {lit}`serial_settled`: only the newest chain runs tasks, and the other chains
  hand an error down, however the chains take turns.
- Theorem {lit}`settled_failure`: the first failure of a chain ends it.
-/

namespace CrSqlite

/-- A task that waits for the promise before it. -/
structure QueueEntry (τ : Type*) where
  promise : Nat
  task : τ
  exceptionCountAtEnqueue : Nat

/-- The promises of a chain that have not settled, oldest first, and the error that the
promise before them was rejected with. -/
structure Chain (τ ε : Type*) where
  entries : List (QueueEntry τ)
  error : Option ε

/-- `PromiseQueue`.  The chains come newest first, and `#queue` is the end of the newest. -/
structure PromiseQueue (τ ε : Type*) where
  exceptionCount : Nat
  chains : List (Chain τ ε)

namespace PromiseQueue

variable {τ ε : Type*}

/-- `new PromiseQueue()`. -/
def new : PromiseQueue τ ε :=
  ⟨0, [⟨[], none⟩]⟩

/-- `add`. -/
def add (promise : Nat) (task : τ) (q : PromiseQueue τ ε) : PromiseQueue τ ε :=
  { q with
    chains := q.chains.modifyHead fun c =>
      { c with entries := c.entries ++ [⟨promise, task, q.exceptionCount⟩] } }

/-- The next promise of a chain to settle, and the error it is rejected with if its task is
not to run. -/
def head (q : PromiseQueue τ ε) (i : Nat) : Option (QueueEntry τ × Option ε) :=
  match q.chains[i]? with
  | none => none
  | some c =>
      match c.entries with
      | [] => none
      | x :: _ => some (x, c.error)

/-- The promise `x` at the head of a chain is settled.  The handler of an error begins a
new chain unless an earlier handler did so. -/
def settled (i : Nat) (x : QueueEntry τ) (error : Option ε) (q : PromiseQueue τ ε) :
    PromiseQueue τ ε :=
  let chains := q.chains.modify i fun c => ⟨c.entries.tail, error⟩
  if error.isSome ∧ x.exceptionCountAtEnqueue = q.exceptionCount then
    ⟨q.exceptionCount + 1, ⟨[], none⟩ :: chains⟩
  else { q with chains := chains }

/-- All promises of the queue that have not settled. -/
def pending (q : PromiseQueue τ ε) : List (QueueEntry τ) :=
  q.chains.flatMap Chain.entries

/-! ## One chain runs -/

/-- The newest chain has no error and counts as many exceptions as the queue; every other
chain has an error and counts fewer. -/
structure Serial (q : PromiseQueue τ ε) : Prop where
  newest : ∃ c cs, q.chains = c :: cs ∧ c.error = none ∧
    (∀ x ∈ c.entries, x.exceptionCountAtEnqueue = q.exceptionCount) ∧
    ∀ d ∈ cs, d.error ≠ none ∧ ∀ x ∈ d.entries, x.exceptionCountAtEnqueue < q.exceptionCount

theorem serial_new : (new : PromiseQueue τ ε).Serial :=
  ⟨⟨[], none⟩, [], rfl, rfl, by simp, by simp⟩

/-- A new task waits behind the others. -/
theorem serial_add {q : PromiseQueue τ ε} (hq : q.Serial) (promise : Nat) (task : τ) :
    (q.add promise task).Serial := by
  obtain ⟨c, cs, hchains, herror, hcount, hold⟩ := hq.newest
  refine ⟨{ c with entries := c.entries ++ [⟨promise, task, q.exceptionCount⟩] }, cs, ?_,
    herror, ?_, hold⟩
  · rw [add, hchains, List.modifyHead_cons]
  · intro x hx
    rcases List.mem_append.mp hx with hx | hx
    · exact hcount x hx
    · rw [List.mem_singleton.mp hx]
      rfl

/-- The chain that a promise is at the head of. -/
theorem head_eq_some_iff {q : PromiseQueue τ ε} {i : Nat} {x : QueueEntry τ}
    {error : Option ε} : q.head i = some (x, error) ↔
      ∃ c, q.chains[i]? = some c ∧ c.entries.head? = some x ∧ c.error = error := by
  unfold head
  cases q.chains[i]? with
  | none => simp
  | some c => cases h : c.entries <;> simp [h]

/-- A task runs on the newest chain only. -/
theorem Serial.runs_newest {q : PromiseQueue τ ε} (hq : q.Serial) {i : Nat}
    {x : QueueEntry τ} (h : q.head i = some (x, none)) :
    i = 0 ∧ x.exceptionCountAtEnqueue = q.exceptionCount := by
  obtain ⟨c, cs, hchains, -, hcount, hold⟩ := hq.newest
  obtain ⟨d, hd, hx, herror⟩ := head_eq_some_iff.mp h
  rw [hchains] at hd
  cases i with
  | zero =>
      obtain rfl : c = d := Option.some.inj hd
      exact ⟨rfl, hcount x (List.mem_of_mem_head? hx)⟩
  | succ i => exact absurd herror (hold d (List.mem_of_getElem? hd)).1

/-- A promise that an error is handed down to is not of the newest chain. -/
theorem Serial.rejects_old {q : PromiseQueue τ ε} (hq : q.Serial) {i : Nat}
    {x : QueueEntry τ} {e : ε} (h : q.head i = some (x, some e)) :
    i ≠ 0 ∧ x.exceptionCountAtEnqueue < q.exceptionCount := by
  obtain ⟨c, cs, hchains, hnone, -, hold⟩ := hq.newest
  obtain ⟨d, hd, hx, herror⟩ := head_eq_some_iff.mp h
  rw [hchains] at hd
  cases i with
  | zero =>
      obtain rfl : c = d := Option.some.inj hd
      rw [hnone] at herror
      cases herror
  | succ i =>
      exact ⟨Nat.succ_ne_zero i,
        (hold d (List.mem_of_getElem? hd)).2 x (List.mem_of_mem_head? hx)⟩

/-- An old chain has failed. -/
theorem Serial.error_of_old {q : PromiseQueue τ ε} (hq : q.Serial) {i : Nat} (hi : i ≠ 0)
    {c : Chain τ ε} (hc : q.chains[i]? = some c) : c.error ≠ none := by
  obtain ⟨d, cs, hchains, -, -, hold⟩ := hq.newest
  obtain ⟨j, rfl⟩ := Nat.exists_eq_succ_of_ne_zero hi
  rw [hchains] at hc
  exact (hold c (List.mem_of_getElem? hc)).1

/-- The first failure of a chain ends it: the rest of the chain will be rejected, and what
is added from now on begins anew. -/
theorem settled_failure {q : PromiseQueue τ ε} (hq : q.Serial) {i : Nat} {x : QueueEntry τ}
    (h : q.head i = some (x, none)) (e : ε) :
    ∃ xs cs, q.chains = ⟨x :: xs, none⟩ :: cs ∧
      q.settled i x (some e) = ⟨q.exceptionCount + 1, ⟨[], none⟩ :: ⟨xs, some e⟩ :: cs⟩ := by
  obtain ⟨rfl, hcount⟩ := hq.runs_newest h
  obtain ⟨c, cs, hchains, hnone, -, -⟩ := hq.newest
  obtain ⟨d, hd, hx, -⟩ := head_eq_some_iff.mp h
  rw [hchains] at hd
  obtain rfl : c = d := Option.some.inj hd
  obtain ⟨entries, error⟩ := c
  obtain rfl : error = none := hnone
  obtain ⟨xs, rfl⟩ := List.head?_eq_some_iff.mp hx
  exact ⟨xs, cs, hchains, by simp [settled, hcount, hchains]⟩

/-- A promise that is resolved leaves the queue to the next of its chain. -/
theorem settled_resolved (q : PromiseQueue τ ε) (i : Nat) (x : QueueEntry τ) :
    q.settled i x none =
      { q with chains := q.chains.modify i fun c => ⟨c.entries.tail, none⟩ } := by
  simp [settled]

/-- A promise that an error is handed down to leaves the newest chain alone. -/
theorem settled_rejected {q : PromiseQueue τ ε} (hq : q.Serial) {i : Nat} {x : QueueEntry τ}
    {e : ε} (h : q.head i = some (x, some e)) :
    q.settled i x (some e) =
      { q with chains := q.chains.modify i fun c => ⟨c.entries.tail, some e⟩ } := by
  have hlt := (hq.rejects_old h).2
  rw [settled, if_neg fun hboth => Nat.ne_of_lt hlt hboth.2]

/-- However the chains take turns, only the newest one runs tasks and the others hand an
error down. -/
theorem serial_settled {q : PromiseQueue τ ε} (hq : q.Serial) {i : Nat} {x : QueueEntry τ}
    {error : Option ε} (h : q.head i = some (x, error)) {result : Option ε}
    (hresult : error ≠ none → result = error) : (q.settled i x result).Serial := by
  obtain ⟨c, cs, hchains, hnone, hcount, hold⟩ := hq.newest
  cases error with
  | some e =>
      obtain rfl := hresult (Option.some_ne_none e)
      rw [settled_rejected hq h]
      obtain ⟨j, rfl⟩ := Nat.exists_eq_succ_of_ne_zero (hq.rejects_old h).1
      refine ⟨c, cs.modify j fun c => ⟨c.entries.tail, some e⟩, ?_, hnone, hcount, ?_⟩
      · rw [hchains, List.modify_succ_cons]
      · intro d hd
        obtain ⟨k, hk⟩ := List.mem_iff_getElem?.mp hd
        rw [List.getElem?_modify] at hk
        obtain ⟨d', hd', rfl⟩ := Option.map_eq_some_iff.mp hk
        have hmem := hold d' (List.mem_of_getElem? hd')
        split
        · exact ⟨Option.some_ne_none e, fun x hx => hmem.2 x (List.mem_of_mem_tail hx)⟩
        · exact hmem
  | none =>
      cases result with
      | some e =>
          obtain ⟨xs, ds, hds, heq⟩ := settled_failure hq h e
          rw [hchains] at hds
          obtain ⟨rfl, rfl⟩ := List.cons.inj hds
          rw [heq]
          refine ⟨⟨[], none⟩, ⟨xs, some e⟩ :: cs, rfl, rfl, by simp, ?_⟩
          intro d hd
          rcases List.mem_cons.mp hd with rfl | hd
          · refine ⟨Option.some_ne_none e, fun y hy => ?_⟩
            exact Nat.lt_succ_of_le (Nat.le_of_eq (hcount y (List.mem_cons_of_mem x hy)))
          · exact ⟨(hold d hd).1, fun y hy => Nat.lt_succ_of_lt ((hold d hd).2 y hy)⟩
      | none =>
          obtain ⟨rfl, -⟩ := hq.runs_newest h
          rw [settled_resolved]
          refine ⟨⟨c.entries.tail, none⟩, cs, ?_, rfl, ?_, hold⟩
          · rw [hchains, List.modify_zero_cons]
          · exact fun y hy => hcount y (List.mem_of_mem_tail hy)

/-! ## What is pending -/

theorem pending_new : (new : PromiseQueue τ ε).pending = [] :=
  rfl

/-- The task at the head is pending. -/
theorem mem_pending_of_head {q : PromiseQueue τ ε} {i : Nat} {x : QueueEntry τ}
    {error : Option ε} (h : q.head i = some (x, error)) : x ∈ q.pending := by
  obtain ⟨c, hc, hx, -⟩ := head_eq_some_iff.mp h
  exact List.mem_flatMap.mpr ⟨c, List.mem_of_getElem? hc, List.mem_of_mem_head? hx⟩

/-- An added task is pending besides the others. -/
theorem pending_add {q : PromiseQueue τ ε} (hq : q.Serial) (promise : Nat) (task : τ) :
    (q.add promise task).pending.Perm (⟨promise, task, q.exceptionCount⟩ :: q.pending) := by
  obtain ⟨c, cs, hchains, -⟩ := hq.newest
  rw [pending, add, pending, hchains, List.modifyHead_cons, List.flatMap_cons, List.flatMap_cons,
    List.append_assoc]
  exact List.perm_middle

/-- The task at the head is taken off its chain. -/
private theorem flatMap_modify {cs : List (Chain τ ε)} {i : Nat} {c : Chain τ ε}
    {x : QueueEntry τ} (hc : cs[i]? = some c) (hx : c.entries.head? = some x)
    (error : Option ε) :
    (cs.flatMap Chain.entries).Perm
      (x :: (cs.modify i fun c => ⟨c.entries.tail, error⟩).flatMap Chain.entries) := by
  induction cs generalizing i with
  | nil => cases hc
  | cons d cs ih =>
      cases i with
      | zero =>
          obtain rfl : d = c := Option.some.inj hc
          obtain ⟨xs, hxs⟩ := List.head?_eq_some_iff.mp hx
          simp [hxs]
      | succ i =>
          rw [List.modify_succ_cons, List.flatMap_cons, List.flatMap_cons]
          exact ((ih hc).append_left _).trans List.perm_middle

/-- The settled promise is the only one that is pending no longer. -/
theorem pending_settled {q : PromiseQueue τ ε} {i : Nat} {x : QueueEntry τ}
    {error : Option ε} (h : q.head i = some (x, error)) (result : Option ε) :
    q.pending.Perm (x :: (q.settled i x result).pending) := by
  obtain ⟨c, hc, hx, -⟩ := head_eq_some_iff.mp h
  unfold settled
  dsimp only
  split <;> exact flatMap_modify hc hx result

/-- Taking the head of a chain away keeps the chains in order. -/
theorem settled_pairwise {R : QueueEntry τ → QueueEntry τ → Prop} {q : PromiseQueue τ ε}
    (h : ∀ c ∈ q.chains, c.entries.Pairwise R) (i : Nat) (x : QueueEntry τ)
    (result : Option ε) : ∀ c ∈ (q.settled i x result).chains, c.entries.Pairwise R := by
  have hmodify : ∀ c ∈ q.chains.modify i fun c => ⟨c.entries.tail, result⟩,
      c.entries.Pairwise R := by
    intro c hc
    obtain ⟨j, hj⟩ := List.mem_iff_getElem?.mp hc
    rw [List.getElem?_modify] at hj
    obtain ⟨d, hd, rfl⟩ := Option.map_eq_some_iff.mp hj
    have hpair := h d (List.mem_of_getElem? hd)
    split
    · exact hpair.sublist (List.tail_sublist _)
    · exact hpair
  unfold settled
  dsimp only
  split
  · intro c hc
    rcases List.mem_cons.mp hc with rfl | hc
    · exact List.Pairwise.nil
    · exact hmodify c hc
  · exact hmodify

end PromiseQueue

end CrSqlite
