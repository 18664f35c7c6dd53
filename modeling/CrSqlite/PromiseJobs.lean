import CrSqlite.Library.Run
import Mathlib.Data.List.Basic
import Mathlib.Algebra.Ring.Nat

/-!
# PromiseJobs - the promise queue, job by job

The queue of the browser wrapper (js/browser/wa-crsqlite/src/PromiseQueue.ts) with the two
promises of every call of `add`: the one of `then`, whose job calls the task, and the one of
`catch`, whose job runs the handler.  A job that is due may run at any time and a task may
end at any time, so every order of the jobs is one of the runs here.

Main results:

- Theorem {lit}`serialises`: one task runs at a time, in the order they were added, and
  exactly the tasks between a failed task and the handler of its failure are rejected
  without running.
-/

namespace CrSqlite

/-- Where a call of `add` has got to: its task is not called yet, runs, has left a result
for the handler of `catch`, or the promise that was returned is settled. -/
inductive AddPhase (α ε : Type*) where
  | waiting
  | running
  | handling (r : Except ε α)
  | settled (r : Except ε α)
deriving DecidableEq

/-- A call of `add`.  Its `then` was called on the promise of `previous`, or on
`Promise.resolve()`. -/
structure AddCall (α ε : Type*) where
  previous : Option Nat
  exceptionCountAtEnqueue : Nat
  phase : AddPhase α ε
deriving DecidableEq

/-- `PromiseQueue` with its calls of `add` in their order, and what was seen of them: the
tasks in the order in which they were called, how tasks ended, and for each handler that ran
on an error the number of tasks added by then. -/
structure PromiseJobs (α ε : Type*) where
  exceptionCount : Nat
  queue : Option Nat
  calls : List (AddCall α ε)
  started : List Nat
  ended : List (Nat × Except ε α)
  handlers : List (Nat × Nat)
deriving DecidableEq

/-- What can happen next. -/
inductive QueueEvent (α ε : Type*) where
  | add
  | job (n : Nat)
  | taskEnds (n : Nat) (r : Except ε α)

namespace PromiseJobs

variable {α ε : Type*}

/-! ## The jobs -/

/-- `new PromiseQueue()`. -/
def new : PromiseJobs α ε :=
  ⟨0, none, [], [], [], []⟩

/-- `add`; the promise of the call becomes the queue. -/
def add (q : PromiseJobs α ε) : PromiseJobs α ε :=
  { q with
    calls := q.calls ++ [⟨q.queue, q.exceptionCount, .waiting⟩]
    queue := some q.calls.length }

def setPhase (n : Nat) (p : AddPhase α ε) (q : PromiseJobs α ε) : PromiseJobs α ε :=
  { q with calls := q.calls.modify n fun c => { c with phase := p } }

/-- How the promise that `then` was called on is settled: some none when it is fulfilled. -/
def settledWith (q : PromiseJobs α ε) : Option Nat → Option (Option ε)
  | none => some none
  | some m =>
      match q.calls[m]?.map AddCall.phase with
      | some (.settled (.ok _)) => some none
      | some (.settled (.error e)) => some (some e)
      | _ => none

/-- The handler of `catch`, and the promise that it settles. -/
def handle (n : Nat) (exceptionCountAtEnqueue : Nat) (r : Except ε α) (q : PromiseJobs α ε) :
    PromiseJobs α ε :=
  match r with
  | .ok _ => q.setPhase n (.settled r)
  | .error _ =>
      let seen := { q with handlers := q.handlers ++ [(n, q.calls.length)] }
      if exceptionCountAtEnqueue = q.exceptionCount then
        ({ seen with exceptionCount := q.exceptionCount + 1, queue := none }).setPhase n (.settled r)
      else seen.setPhase n (.settled r)

/-- The next job of a call, if one is due. -/
def job (n : Nat) (q : PromiseJobs α ε) : PromiseJobs α ε :=
  match q.calls[n]? with
  | none => q
  | some c =>
      match c.phase with
      | .waiting =>
          match q.settledWith c.previous with
          | none => q
          | some none => { q.setPhase n .running with started := q.started ++ [n] }
          | some (some e) => q.setPhase n (.handling (.error e))
      | .handling r => q.handle n c.exceptionCountAtEnqueue r
      | .running | .settled _ => q

/-- The task of a call that runs comes to its end. -/
def taskEnds (n : Nat) (r : Except ε α) (q : PromiseJobs α ε) : PromiseJobs α ε :=
  match q.calls[n]?.map AddCall.phase with
  | some .running => { q.setPhase n (.handling r) with ended := q.ended ++ [(n, r)] }
  | _ => q

def step (q : PromiseJobs α ε) : QueueEvent α ε → PromiseJobs α ε
  | .add => q.add
  | .job n => q.job n
  | .taskEnds n r => q.taskEnds n r

/-! ## What a step can do -/

/-- The `n`-th call of `add`. -/
def At (q : PromiseJobs α ε) (n : Nat) (c : AddCall α ε) : Prop :=
  q.calls[n]? = some c

theorem At.unique {q : PromiseJobs α ε} {n : Nat} {c d : AddCall α ε} (hc : q.At n c)
    (hd : q.At n d) : c = d :=
  Option.some.inj (hc.symm.trans hd)

/-- A job of the `n`-th call can run. -/
def Due (q : PromiseJobs α ε) (n : Nat) : Prop :=
  ∃ c, q.At n c ∧
    (c.phase = .waiting ∧ q.settledWith c.previous ≠ none ∨ ∃ r, c.phase = .handling r)

/-- The task of the `n`-th call runs. -/
def Running (q : PromiseJobs α ε) (n : Nat) : Prop :=
  ∃ c, q.At n c ∧ c.phase = .running

/-- The promise of the `n`-th call is settled. -/
def Settled (q : PromiseJobs α ε) (n : Nat) (r : Except ε α) : Prop :=
  ∃ c, q.At n c ∧ c.phase = .settled r

/-- A job is due for a call that waits behind a settled promise, and for one whose handler is to
run. -/
theorem At.due_iff {q : PromiseJobs α ε} {n : Nat} {c : AddCall α ε} (hc : q.At n c) :
    q.Due n ↔
      c.phase = .waiting ∧ q.settledWith c.previous ≠ none ∨ ∃ r, c.phase = .handling r :=
  ⟨fun ⟨_, hd, h⟩ => hd.unique hc ▸ h, fun h => ⟨c, hc, h⟩⟩

/-- A call runs when its phase says so. -/
theorem At.running_iff {q : PromiseJobs α ε} {n : Nat} {c : AddCall α ε} (hc : q.At n c) :
    q.Running n ↔ c.phase = .running :=
  ⟨fun ⟨_, hd, h⟩ => hd.unique hc ▸ h, fun h => ⟨c, hc, h⟩⟩

/-- One phase of one call changes. -/
inductive Advances (q : PromiseJobs α ε) : PromiseJobs α ε → Prop where
  | start {n : Nat} {c : AddCall α ε} (hc : q.At n c) (hphase : c.phase = .waiting)
      (hprevious : q.settledWith c.previous = some none) :
      Advances q { q.setPhase n .running with started := q.started ++ [n] }
  | pass {n : Nat} {c : AddCall α ε} {e : ε} (hc : q.At n c) (hphase : c.phase = .waiting)
      (hprevious : q.settledWith c.previous = some (some e)) :
      Advances q (q.setPhase n (.handling (.error e)))
  | ends {n : Nat} {c : AddCall α ε} (hc : q.At n c) (hphase : c.phase = .running)
      (r : Except ε α) :
      Advances q { q.setPhase n (.handling r) with ended := q.ended ++ [(n, r)] }
  | fulfill {n : Nat} {c : AddCall α ε} {v : α} (hc : q.At n c)
      (hphase : c.phase = .handling (.ok v)) :
      Advances q (q.setPhase n (.settled (.ok v)))
  | cut {n : Nat} {c : AddCall α ε} {e : ε} (hc : q.At n c)
      (hphase : c.phase = .handling (.error e))
      (hcount : c.exceptionCountAtEnqueue = q.exceptionCount) :
      Advances q (({ q with
        handlers := q.handlers ++ [(n, q.calls.length)]
        exceptionCount := q.exceptionCount + 1
        queue := none }).setPhase n (.settled (.error e)))
  | reject {n : Nat} {c : AddCall α ε} {e : ε} (hc : q.At n c)
      (hphase : c.phase = .handling (.error e))
      (hcount : c.exceptionCountAtEnqueue ≠ q.exceptionCount) :
      Advances q (({ q with handlers := q.handlers ++ [(n, q.calls.length)] }).setPhase n
        (.settled (.error e)))

/-- A job that is not due does nothing, and one that is due moves one call on. -/
theorem job_cases (q : PromiseJobs α ε) (n : Nat) :
    ¬ q.Due n ∧ q.job n = q ∨ q.Advances (q.job n) := by
  unfold job
  cases hc : q.calls[n]? with
  | none =>
      refine Or.inl ⟨fun ⟨c, hc', _⟩ => ?_, rfl⟩
      rw [At, hc] at hc'
      cases hc'
  | some c =>
      have hdue := At.due_iff hc
      cases hphase : c.phase with
      | waiting =>
          cases hprevious : q.settledWith c.previous with
          | none => exact Or.inl ⟨by simp [hdue, hphase, hprevious], by simp [hphase, hprevious]⟩
          | some error =>
              cases error with
              | none =>
                  simp only [hphase, hprevious]
                  exact Or.inr (.start hc hphase hprevious)
              | some e =>
                  simp only [hphase, hprevious]
                  exact Or.inr (.pass hc hphase hprevious)
      | running => exact Or.inl ⟨by simp [hdue, hphase], by simp [hphase]⟩
      | settled r => exact Or.inl ⟨by simp [hdue, hphase], by simp [hphase]⟩
      | handling r =>
          simp only [hphase, handle]
          cases r with
          | ok v => exact Or.inr (.fulfill hc hphase)
          | error e =>
              by_cases hcount : c.exceptionCountAtEnqueue = q.exceptionCount
              · simp only [hcount, if_true]
                exact Or.inr (.cut hc hphase hcount)
              · simp only [hcount, if_false]
                exact Or.inr (.reject hc hphase hcount)

/-- Only a task that runs can end, and its end moves one call on. -/
theorem taskEnds_cases (q : PromiseJobs α ε) (n : Nat) (r : Except ε α) :
    ¬ q.Running n ∧ q.taskEnds n r = q ∨ q.Advances (q.taskEnds n r) := by
  unfold taskEnds
  cases hc : q.calls[n]? with
  | none =>
      refine Or.inl ⟨fun ⟨c, hc', _⟩ => ?_, rfl⟩
      rw [At, hc] at hc'
      cases hc'
  | some c =>
      have hrunning := At.running_iff hc
      cases hphase : c.phase with
      | running =>
          simp only [Option.map_some, hphase]
          exact Or.inr (.ends hc hphase r)
      | waiting => exact Or.inl ⟨by simp [hrunning, hphase], by simp [hphase]⟩
      | handling r => exact Or.inl ⟨by simp [hrunning, hphase], by simp [hphase]⟩
      | settled r => exact Or.inl ⟨by simp [hrunning, hphase], by simp [hphase]⟩

theorem At.lt {q : PromiseJobs α ε} {n : Nat} {c : AddCall α ε} (hc : q.At n c) :
    n < q.calls.length :=
  (List.getElem?_eq_some_iff.mp hc).1

theorem exists_at {q : PromiseJobs α ε} {n : Nat} (hn : n < q.calls.length) : ∃ c, q.At n c :=
  ⟨q.calls[n], List.getElem?_eq_getElem hn⟩

/-- A new call stands behind the others and waits for the last promise of the live chain. -/
theorem at_add_iff {q : PromiseJobs α ε} {n : Nat} {c : AddCall α ε} :
    q.add.At n c ↔
      q.At n c ∨ n = q.calls.length ∧ c = ⟨q.queue, q.exceptionCount, .waiting⟩ := by
  unfold At add
  rcases Nat.lt_trichotomy n q.calls.length with hlt | heq | hgt
  · rw [List.getElem?_append_left hlt]
    exact (or_iff_left fun h => absurd h.1 (Nat.ne_of_lt hlt)).symm
  · subst heq
    simp [eq_comm]
  · have hnone : q.calls[n]? = none := List.getElem?_eq_none (Nat.le_of_lt hgt)
    have hnone' : (q.calls ++ [AddCall.mk q.queue q.exceptionCount AddPhase.waiting])[n]? = none :=
      List.getElem?_eq_none (by rw [List.length_append, List.length_singleton]; omega)
    simp [hnone, hnone', Nat.ne_of_gt hgt]

/-- The calls after the phase of one has changed. -/
theorem at_setPhase_iff {q : PromiseJobs α ε} {n : Nat} {c : AddCall α ε} (hc : q.At n c)
    {p : AddPhase α ε} {m : Nat} {d : AddCall α ε} :
    (q.setPhase n p).At m d ↔ m = n ∧ d = { c with phase := p } ∨ m ≠ n ∧ q.At m d := by
  unfold At setPhase
  rw [List.getElem?_modify]
  by_cases hm : n = m
  · subst hm
    simp [show q.calls[n]? = some c from hc, eq_comm]
  · simp [hm, Ne.symm hm]

@[simp]
theorem length_setPhase (q : PromiseJobs α ε) (n : Nat) (p : AddPhase α ε) :
    (q.setPhase n p).calls.length = q.calls.length :=
  List.length_modify ..

/-! ## Chains of calls -/

/-- The calls that were added under one exception count are a chain: each `then` was called
on the promise of the call before. -/
structure Linked (q : PromiseJobs α ε) : Prop where
  count_le : ∀ {n c}, q.At n c → c.exceptionCountAtEnqueue ≤ q.exceptionCount
  mono : ∀ {m n c d}, q.At m c → q.At n d → m ≤ n →
    c.exceptionCountAtEnqueue ≤ d.exceptionCountAtEnqueue
  previous_some : ∀ {n c m}, q.At n c → c.previous = some m → m + 1 = n ∧
    ∀ d, q.At m d → d.exceptionCountAtEnqueue = c.exceptionCountAtEnqueue
  previous_none : ∀ {n c}, q.At n c → c.previous = none → ∀ m < n, ∀ d, q.At m d →
    d.exceptionCountAtEnqueue ≠ c.exceptionCountAtEnqueue
  queue_some : ∀ {m}, q.queue = some m → m + 1 = q.calls.length ∧
    ∀ d, q.At m d → d.exceptionCountAtEnqueue = q.exceptionCount
  queue_none : q.queue = none → ∀ n c, q.At n c → c.exceptionCountAtEnqueue ≠ q.exceptionCount

theorem linked_new : (new : PromiseJobs α ε).Linked := by
  constructor <;> simp [new, At]

/-- A new call keeps the queue linked. -/
theorem Linked.add {q : PromiseJobs α ε} (hq : q.Linked) : q.add.Linked := by
  refine ⟨?_, ?_, ?_, ?_, ?_, ?_⟩
  · intro n c hc
    rcases at_add_iff.mp hc with hc | ⟨-, rfl⟩
    · exact hq.count_le hc
    · exact le_rfl
  · intro m n c d hc hd hle
    rcases at_add_iff.mp hc with hc | ⟨rfl, rfl⟩ <;> rcases at_add_iff.mp hd with hd | ⟨rfl, rfl⟩
    · exact hq.mono hc hd hle
    · exact hq.count_le hc
    · exact absurd hd.lt (by omega)
    · exact le_rfl
  · intro n c m hc hprevious
    rcases at_add_iff.mp hc with hc | ⟨rfl, rfl⟩
    · refine (hq.previous_some hc hprevious).imp id fun heq d hd => ?_
      have hlt := hc.lt
      have hm := (hq.previous_some hc hprevious).1
      exact heq d ((at_add_iff.mp hd).resolve_right fun h => by omega)
    · refine (hq.queue_some hprevious).imp id fun heq d hd => ?_
      have hm := (hq.queue_some hprevious).1
      exact heq d ((at_add_iff.mp hd).resolve_right fun h => by omega)
  · intro n c hc hprevious m hm d hd
    rcases at_add_iff.mp hc with hc | ⟨rfl, rfl⟩
    · have hlt := hc.lt
      exact hq.previous_none hc hprevious m hm d
        ((at_add_iff.mp hd).resolve_right fun h => by omega)
    · exact hq.queue_none hprevious m d ((at_add_iff.mp hd).resolve_right fun h => by omega)
  · intro m hm
    obtain rfl : q.calls.length = m := Option.some.inj hm
    refine ⟨by simp [PromiseJobs.add], fun d hd => ?_⟩
    rcases at_add_iff.mp hd with hd | ⟨-, rfl⟩
    · exact absurd hd.lt (by omega)
    · rfl
  · exact fun h => nomatch h

/-- Phases are no part of a chain. -/
theorem Linked.of_same {q q' : PromiseJobs α ε} (hq : q.Linked)
    (hcount : q'.exceptionCount = q.exceptionCount) (hqueue : q'.queue = q.queue)
    (hlength : q'.calls.length = q.calls.length)
    (hat : ∀ {n c}, q'.At n c → ∃ d, q.At n d ∧ d.previous = c.previous ∧
      d.exceptionCountAtEnqueue = c.exceptionCountAtEnqueue) : q'.Linked := by
  refine ⟨?_, ?_, ?_, ?_, ?_, ?_⟩
  · intro n c hc
    obtain ⟨c', hc', -, hcnt⟩ := hat hc
    rw [← hcnt, hcount]
    exact hq.count_le hc'
  · intro m n c d hc hd hle
    obtain ⟨c', hc', -, hcnt⟩ := hat hc
    obtain ⟨d', hd', -, hdnt⟩ := hat hd
    rw [← hcnt, ← hdnt]
    exact hq.mono hc' hd' hle
  · intro n c m hc hprevious
    obtain ⟨c', hc', hprev, hcnt⟩ := hat hc
    refine (hq.previous_some hc' (hprev.trans hprevious)).imp id fun heq d hd => ?_
    obtain ⟨d', hd', -, hdnt⟩ := hat hd
    rw [← hcnt, ← hdnt]
    exact heq d' hd'
  · intro n c hc hprevious m hm d hd
    obtain ⟨c', hc', hprev, hcnt⟩ := hat hc
    obtain ⟨d', hd', -, hdnt⟩ := hat hd
    rw [← hcnt, ← hdnt]
    exact hq.previous_none hc' (hprev.trans hprevious) m hm d' hd'
  · intro m hm
    rw [hqueue] at hm
    rw [hlength, hcount]
    refine (hq.queue_some hm).imp id fun heq d hd => ?_
    obtain ⟨d', hd', -, hdnt⟩ := hat hd
    rw [← hdnt]
    exact heq d' hd'
  · intro hnone n c hc
    obtain ⟨c', hc', -, hcnt⟩ := hat hc
    rw [← hcnt, hcount]
    exact hq.queue_none (hqueue ▸ hnone) n c' hc'

/-- A change of phase keeps the queue linked. -/
theorem Linked.setPhase {q : PromiseJobs α ε} (hq : q.Linked) {n : Nat} {c : AddCall α ε}
    (hc : q.At n c) (p : AddPhase α ε) : (q.setPhase n p).Linked := by
  refine hq.of_same rfl rfl (length_setPhase q n p) fun {m d} hd => ?_
  rcases (at_setPhase_iff hc).mp hd with ⟨rfl, rfl⟩ | ⟨-, hd⟩
  · exact ⟨c, hc, rfl, rfl⟩
  · exact ⟨d, hd, rfl, rfl⟩

/-- A higher count ends the chains that there are. -/
theorem Linked.cut {q : PromiseJobs α ε} (hq : q.Linked) (handlers : List (Nat × Nat)) :
    Linked { q with
      handlers := handlers
      exceptionCount := q.exceptionCount + 1
      queue := none } where
  count_le hc := Nat.le_succ_of_le (hq.count_le hc)
  mono := hq.mono
  previous_some := hq.previous_some
  previous_none := hq.previous_none
  queue_some h := nomatch h
  queue_none _ n c hc := by
    have hle := hq.count_le (n := n) (c := c) hc
    change c.exceptionCountAtEnqueue ≠ q.exceptionCount + 1
    omega

/-- A call that moves on keeps the queue linked. -/
theorem Linked.advances {q q' : PromiseJobs α ε} (hq : q.Linked) (h : q.Advances q') :
    q'.Linked := by
  cases h with
  | start hc => exact (hq.setPhase hc _).of_same rfl rfl rfl fun hd => ⟨_, hd, rfl, rfl⟩
  | pass hc => exact hq.setPhase hc _
  | ends hc => exact (hq.setPhase hc _).of_same rfl rfl rfl fun hd => ⟨_, hd, rfl, rfl⟩
  | fulfill hc => exact hq.setPhase hc _
  | cut hc => exact (hq.cut _).setPhase hc _
  | @reject n c _ hc =>
      have hseen : Linked { q with handlers := q.handlers ++ [(n, q.calls.length)] } :=
        hq.of_same rfl rfl rfl fun hd => ⟨_, hd, rfl, rfl⟩
      exact hseen.setPhase hc _

/-! ## What was seen of the calls -/

/-- A task that was called, failed, and whose failure was handled. -/
def Failed (q : PromiseJobs α ε) (k : Nat) (e : ε) : Prop :=
  k ∈ q.started ∧ ∃ c, q.At k c ∧ c.phase = .settled (.error e)

/-- The result of a call is the one its task ended with, or the error of an earlier task of
the chain, and then its task was not called. -/
def Result (q : PromiseJobs α ε) (n : Nat) (exceptionCountAtEnqueue : Nat) (r : Except ε α) :
    Prop :=
  (n ∈ q.started ∧ ∀ r', (n, r') ∈ q.ended ↔ r' = r) ∨
    n ∉ q.started ∧ ∃ e, r = .error e ∧ ∃ k < n, q.Failed k e ∧
      ∀ d, q.At k d → d.exceptionCountAtEnqueue = exceptionCountAtEnqueue

/-- The invariant of what was seen.  A chain whose count is the queue's has handled no
failure, and every older chain ended with the failure of one of its tasks. -/
structure Logged (q : PromiseJobs α ε) : Prop where
  waiting : ∀ {n c}, q.At n c → c.phase = .waiting → n ∉ q.started
  running : ∀ {n c}, q.At n c → c.phase = .running → n ∈ q.started ∧ ∀ r, (n, r) ∉ q.ended
  result : ∀ {n c r}, q.At n c → c.phase = .handling r ∨ c.phase = .settled r →
    q.Result n c.exceptionCountAtEnqueue r
  alive : ∀ {n c e}, q.At n c → c.phase = .settled (.error e) →
    c.exceptionCountAtEnqueue < q.exceptionCount ∧ ∃ m, (n, m) ∈ q.handlers
  clear : ∀ {n c}, q.At n c → n ∈ q.started → ∀ m < n, ∀ d, q.At m d →
    d.exceptionCountAtEnqueue = c.exceptionCountAtEnqueue → ∃ v, d.phase = .settled (.ok v)
  dead : ∀ {n c}, q.At n c → c.exceptionCountAtEnqueue < q.exceptionCount →
    ∃ k e, q.Failed k e ∧ ∀ d, q.At k d → d.exceptionCountAtEnqueue = c.exceptionCountAtEnqueue
  seen : ∀ {k m}, (k, m) ∈ q.handlers → ∃ c e, q.At k c ∧ c.phase = .settled (.error e)
  handled : ∀ {k m}, (k, m) ∈ q.handlers → k ∈ q.started → m ≤ q.calls.length ∧
    ∀ n c d, q.At n c → q.At k d →
      (c.exceptionCountAtEnqueue ≤ d.exceptionCountAtEnqueue ↔ n < m)
  sorted : q.started.Pairwise (· < ·)
  started_lt : ∀ n ∈ q.started, n < q.calls.length
  started_of_ended : ∀ {n r}, (n, r) ∈ q.ended → n ∈ q.started

theorem logged_new : (new : PromiseJobs α ε).Logged := by
  constructor <;> simp [new, At]

/-- A step that moves one call from a phase that is not the last to another. -/
structure Changes (q q' : PromiseJobs α ε) (n : Nat) (c : AddCall α ε) (p : AddPhase α ε) :
    Prop where
  was : q.At n c
  unsettled : ∀ r, c.phase ≠ .settled r
  at_iff : ∀ {m d}, q'.At m d ↔ m = n ∧ d = { c with phase := p } ∨ m ≠ n ∧ q.At m d
  length : q'.calls.length = q.calls.length
  count : q.exceptionCount ≤ q'.exceptionCount
  started : ∀ m, m ∈ q'.started ↔ m ∈ q.started ∨ m = n ∧ n ∈ q'.started
  ended : ∀ m r, (m, r) ∈ q'.ended ↔ (m, r) ∈ q.ended ∨ m = n ∧ (n, r) ∈ q'.ended
  handlers : ∀ k m, (k, m) ∈ q'.handlers ↔ (k, m) ∈ q.handlers ∨ k = n ∧ (n, m) ∈ q'.handlers

section Changes

variable {q q' : PromiseJobs α ε} {n : Nat} {c : AddCall α ε} {p : AddPhase α ε}

/-- A change of one call leaves the others as they are. -/
theorem Changes.at_of_ne (h : Changes q q' n c p) {m : Nat} {d : AddCall α ε} (hm : m ≠ n) :
    q'.At m d ↔ q.At m d := by
  rw [h.at_iff]
  exact ⟨fun hd => hd.elim (fun hd => absurd hd.1 hm) And.right, fun hd => Or.inr ⟨hm, hd⟩⟩

theorem Changes.at_self (h : Changes q q' n c p) : q'.At n { c with phase := p } :=
  h.at_iff.mpr (Or.inl ⟨rfl, rfl⟩)

/-- A call that is settled stays so. -/
theorem Changes.settled (h : Changes q q' n c p) {m : Nat} {d : AddCall α ε} {r : Except ε α}
    (hd : q.At m d) (hphase : d.phase = .settled r) : m ≠ n ∧ q'.At m d := by
  have hm : m ≠ n := by
    rintro rfl
    rw [hd.unique h.was] at hphase
    exact h.unsettled r hphase
  exact ⟨hm, (h.at_of_ne hm).mpr hd⟩

/-- A change of one call starts no other. -/
theorem Changes.started_of_ne (h : Changes q q' n c p) {m : Nat} (hm : m ≠ n) :
    m ∈ q'.started ↔ m ∈ q.started := by
  rw [h.started]
  exact or_iff_left fun h => hm h.1

/-- A failure that was handled stays one. -/
theorem Changes.failed (h : Changes q q' n c p) {k : Nat} {e : ε} (hk : q.Failed k e) :
    q'.Failed k e := by
  obtain ⟨hstarted, d, hd, hphase⟩ := hk
  exact ⟨(h.started k).mpr (Or.inl hstarted), d, (h.settled hd hphase).2, hphase⟩

/-- The counts of the calls do not change. -/
theorem Changes.count_of_at (h : Changes q q' n c p) {m : Nat} {d : AddCall α ε}
    (hd : q'.At m d) :
    ∃ d', q.At m d' ∧ d'.exceptionCountAtEnqueue = d.exceptionCountAtEnqueue := by
  rcases h.at_iff.mp hd with ⟨rfl, rfl⟩ | ⟨-, hd⟩
  · exact ⟨c, h.was, rfl⟩
  · exact ⟨d, hd, rfl⟩

/-- A failure keeps the count that its call was made at. -/
theorem Changes.failed_count (h : Changes q q' n c p) {k : Nat} {e : ε} {count : Nat}
    (hk : q.Failed k e ∧ ∀ d, q.At k d → d.exceptionCountAtEnqueue = count) :
    q'.Failed k e ∧ ∀ d, q'.At k d → d.exceptionCountAtEnqueue = count := by
  refine ⟨h.failed hk.1, fun d hd => ?_⟩
  obtain ⟨d', hd', hcount⟩ := h.count_of_at hd
  rw [← hcount]
  exact hk.2 d' hd'

/-- Another call's result is what it was. -/
theorem Changes.result_of_ne (h : Changes q q' n c p) {m : Nat} (hm : m ≠ n) {count : Nat}
    {r : Except ε α} (hr : q.Result m count r) : q'.Result m count r := by
  rcases hr with ⟨hstarted, hended⟩ | ⟨hstarted, e, rfl, k, hk, hfailed⟩
  · refine Or.inl ⟨(h.started_of_ne hm).mpr hstarted, fun r' => ?_⟩
    rw [h.ended, ← hended]
    exact or_iff_left fun h => hm h.1
  · exact Or.inr ⟨fun hm' => hstarted ((h.started_of_ne hm).mp hm'), e, rfl, k, hk,
      h.failed_count hfailed⟩

/-- What is left to show of a step: what it does to its own call. -/
theorem Logged.of_changes (hq : q.Logged) (h : Changes q q' n c p)
    (hwaiting : p ≠ .waiting)
    (hrunning : p = .running → n ∈ q'.started ∧ ∀ r, (n, r) ∉ q'.ended)
    (hresult : ∀ r, p = .handling r ∨ p = .settled r → q'.Result n c.exceptionCountAtEnqueue r)
    (halive : ∀ e, p = .settled (.error e) →
      c.exceptionCountAtEnqueue < q'.exceptionCount ∧ ∃ m, (n, m) ∈ q'.handlers)
    (hclear : n ∈ q'.started → ∀ m < n, ∀ d, q.At m d →
      d.exceptionCountAtEnqueue = c.exceptionCountAtEnqueue → ∃ v, d.phase = .settled (.ok v))
    (hdead : ∀ m d, q.At m d → d.exceptionCountAtEnqueue < q'.exceptionCount →
      d.exceptionCountAtEnqueue < q.exceptionCount ∨
        d.exceptionCountAtEnqueue = c.exceptionCountAtEnqueue ∧ ∃ e, q'.Failed n e)
    (hseen : ∀ m, (n, m) ∈ q'.handlers → ∃ e, p = .settled (.error e))
    (hhandled : ∀ m, (n, m) ∈ q'.handlers → n ∈ q'.started → m ≤ q.calls.length ∧
      ∀ k d, q.At k d → (d.exceptionCountAtEnqueue ≤ c.exceptionCountAtEnqueue ↔ k < m))
    (hsorted : q'.started.Pairwise (· < ·))
    (hended : ∀ r, (n, r) ∈ q'.ended → n ∈ q'.started) : q'.Logged where
  waiting := by
    intro m d hd hphase
    rcases h.at_iff.mp hd with ⟨rfl, rfl⟩ | ⟨hm, hd⟩
    · exact absurd hphase hwaiting
    · rw [h.started_of_ne hm]
      exact hq.waiting hd hphase
  running := by
    intro m d hd hphase
    rcases h.at_iff.mp hd with ⟨rfl, rfl⟩ | ⟨hm, hd⟩
    · exact hrunning hphase
    · rw [h.started_of_ne hm]
      refine (hq.running hd hphase).imp id fun hended r hr => ?_
      exact hended r (((h.ended m r).mp hr).resolve_right fun h => hm h.1)
  result := by
    intro m d r hd hphase
    rcases h.at_iff.mp hd with ⟨rfl, rfl⟩ | ⟨hm, hd⟩
    · exact hresult r hphase
    · exact h.result_of_ne hm (hq.result hd hphase)
  alive := by
    intro m d e hd hphase
    rcases h.at_iff.mp hd with ⟨rfl, rfl⟩ | ⟨hm, hd⟩
    · exact halive e hphase
    · obtain ⟨hlt, x, hx⟩ := hq.alive hd hphase
      exact ⟨Nat.lt_of_lt_of_le hlt h.count, x, (h.handlers m x).mpr (Or.inl hx)⟩
  clear := by
    intro m d hd hstarted k hk f hf hcount
    rcases h.at_iff.mp hd with ⟨rfl, rfl⟩ | ⟨hm, hd⟩
    · exact hclear hstarted k hk f ((h.at_of_ne (Nat.ne_of_lt hk)).mp hf) hcount
    · have hstarted := (h.started_of_ne hm).mp hstarted
      obtain ⟨f', hf', hcount'⟩ := h.count_of_at hf
      obtain ⟨v, hv⟩ := hq.clear hd hstarted k hk f' hf' (hcount'.trans hcount)
      rw [((h.settled hf' hv).2).unique hf] at hv
      exact ⟨v, hv⟩
  dead := by
    intro m d hd hlt
    obtain ⟨d', hd', hcount⟩ := h.count_of_at hd
    rw [← hcount] at hlt ⊢
    rcases hdead m d' hd' hlt with hlt | ⟨heq, e, hfailed⟩
    · obtain ⟨k, e, hk⟩ := hq.dead hd' hlt
      exact ⟨k, e, h.failed_count hk⟩
    · refine ⟨n, e, hfailed, fun f hf => ?_⟩
      rw [hf.unique h.at_self, heq]
  seen := by
    intro k m hm
    rcases (h.handlers k m).mp hm with hm | ⟨rfl, hm⟩
    · obtain ⟨d, e, hd, hphase⟩ := hq.seen hm
      exact ⟨d, e, (h.settled hd hphase).2, hphase⟩
    · obtain ⟨e, he⟩ := hseen m hm
      exact ⟨_, e, h.at_self, he⟩
  handled := by
    intro k m hm hstarted
    rw [h.length]
    rcases (h.handlers k m).mp hm with hm | ⟨rfl, hm⟩
    · obtain ⟨d, e, hd, hphase⟩ := hq.seen hm
      have hne := (h.settled hd hphase).1
      obtain ⟨hle, hiff⟩ := hq.handled hm ((h.started_of_ne hne).mp hstarted)
      refine ⟨hle, fun i f g hf hg => ?_⟩
      obtain ⟨f', hf', hfcount⟩ := h.count_of_at hf
      rw [← hfcount]
      exact hiff i f' g hf' ((h.at_of_ne hne).mp hg)
    · refine (hhandled m hm hstarted).imp id fun hiff i f g hf hg => ?_
      obtain ⟨f', hf', hfcount⟩ := h.count_of_at hf
      rw [← hfcount, hg.unique h.at_self]
      exact hiff i f' hf'
  sorted := hsorted
  started_lt := by
    intro m hm
    rw [h.length]
    rcases (h.started m).mp hm with hm | ⟨rfl, -⟩
    · exact hq.started_lt m hm
    · exact h.was.lt
  started_of_ended := by
    intro m r hr
    rcases (h.ended m r).mp hr with hr | ⟨rfl, hr⟩
    · exact (h.started m).mpr (Or.inl (hq.started_of_ended hr))
    · exact hended r hr

/-- A result stays what it was while no task is called and none ends. -/
theorem Changes.result_of_same (h : Changes q q' n c p) (hstarted : q'.started = q.started)
    (hended : q'.ended = q.ended) {m count : Nat} {r : Except ε α} (hr : q.Result m count r) :
    q'.Result m count r := by
  unfold Result
  rw [hstarted, hended]
  refine hr.imp id (And.imp id ?_)
  rintro ⟨e, rfl, k, hk, hfailed⟩
  exact ⟨e, rfl, k, hk, h.failed_count hfailed⟩

end Changes

section Advances

variable {q q' : PromiseJobs α ε} {n : Nat} {c : AddCall α ε}

private theorem mem_iff_or {β : Type*} {xs : List β} {x y : β} :
    x ∈ xs ↔ x ∈ xs ∨ x = y ∧ y ∈ xs :=
  ⟨Or.inl, fun h => h.elim id fun h => h.1 ▸ h.2⟩

/-- The same for a log of pairs. -/
private theorem pair_mem_iff_or {β γ : Type*} {xs : List (β × γ)} {x y : β} {z : γ} :
    (x, z) ∈ xs ↔ (x, z) ∈ xs ∨ x = y ∧ (y, z) ∈ xs :=
  ⟨Or.inl, fun h => h.elim id fun h => h.1 ▸ h.2⟩

/-- A promise that is fulfilled is that of a settled call. -/
theorem settledWith_ok {m : Nat} (h : q.settledWith (some m) = some none) :
    ∃ d v, q.At m d ∧ d.phase = .settled (.ok v) := by
  unfold settledWith at h
  cases hd : q.calls[m]? with
  | none => simp [hd] at h
  | some d =>
      refine ⟨d, ?_⟩
      cases hphase : d.phase with
      | settled r =>
          cases r with
          | ok v => exact ⟨v, hd, rfl⟩
          | error e => simp [hd, hphase] at h
      | waiting => simp [hd, hphase] at h
      | running => simp [hd, hphase] at h
      | handling r => simp [hd, hphase] at h

/-- A promise that is rejected is that of a call settled with the same error. -/
theorem settledWith_error {previous : Option Nat} {e : ε}
    (h : q.settledWith previous = some (some e)) :
    ∃ m d, previous = some m ∧ q.At m d ∧ d.phase = .settled (.error e) := by
  cases previous with
  | none => simp [settledWith] at h
  | some m =>
      unfold settledWith at h
      cases hd : q.calls[m]? with
      | none => simp [hd] at h
      | some d =>
          refine ⟨m, d, rfl, hd, ?_⟩
          cases hphase : d.phase with
          | settled r =>
              cases r with
              | ok v => simp [hd, hphase] at h
              | error e' => simpa [hd, hphase] using h
          | waiting => simp [hd, hphase] at h
          | running => simp [hd, hphase] at h
          | handling r => simp [hd, hphase] at h

/-- A handler that ran on a call has settled it. -/
theorem Logged.not_seen (hq : q.Logged) (hc : q.At n c) (hopen : ∀ r, c.phase ≠ .settled r)
    (m : Nat) : (n, m) ∉ q.handlers := by
  intro hm
  obtain ⟨d, e, hd, hphase⟩ := hq.seen hm
  rw [hd.unique hc] at hphase
  exact hopen _ hphase

/-- A chain without a settled call behind its failed one: what runs behind calls that are
fulfilled is of the newest chain. -/
theorem Logged.newest (hq : q.Logged) (hl : q.Linked) (hc : q.At n c)
    (hopen : ∀ r, c.phase ≠ .settled r)
    (hclear : ∀ m < n, ∀ d, q.At m d → d.exceptionCountAtEnqueue = c.exceptionCountAtEnqueue →
      ∃ v, d.phase = .settled (.ok v)) :
    c.exceptionCountAtEnqueue = q.exceptionCount := by
  by_contra hne
  have hlt : c.exceptionCountAtEnqueue < q.exceptionCount :=
    Nat.lt_of_le_of_ne (hl.count_le hc) hne
  obtain ⟨k, e, ⟨hstarted, d, hd, hphase⟩, hcount⟩ := hq.dead hc hlt
  rcases Nat.lt_trichotomy k n with hkn | rfl | hkn
  · obtain ⟨v, hv⟩ := hclear k hkn d hd (hcount d hd)
    rw [hphase] at hv
    cases hv
  · rw [hd.unique hc] at hphase
    exact hopen _ hphase
  · obtain ⟨v, hv⟩ := hq.clear hd hstarted n hkn c hc (hcount d hd).symm
    exact hopen _ hv

/-- A task that has started and is not settled was added under the present count. -/
theorem Logged.newest_of_started (hq : q.Logged) (hl : q.Linked) (hc : q.At n c)
    (hopen : ∀ r, c.phase ≠ .settled r) (hstarted : n ∈ q.started) :
    c.exceptionCountAtEnqueue = q.exceptionCount :=
  hq.newest hl hc hopen (hq.clear hc hstarted)

/-- A job that calls a task finds the calls before it in the chain fulfilled. -/
theorem Logged.clear_of_start (hq : q.Logged) (hl : q.Linked) (hc : q.At n c)
    (hprevious : q.settledWith c.previous = some none) :
    ∀ m < n, ∀ d, q.At m d → d.exceptionCountAtEnqueue = c.exceptionCountAtEnqueue →
      ∃ v, d.phase = .settled (.ok v) := by
  intro m hm d hd hcount
  cases hprev : c.previous with
  | none => exact absurd hcount (hl.previous_none hc hprev m hm d hd)
  | some i =>
      rw [hprev] at hprevious
      obtain ⟨f, v, hf, hphase⟩ := settledWith_ok hprevious
      obtain ⟨hi, hfcount⟩ := hl.previous_some hc hprev
      by_cases hmi : m = i
      · subst hmi
        exact ⟨v, hd.unique hf ▸ hphase⟩
      · rcases hq.result hf (Or.inr hphase) with ⟨hstarted, -⟩ | ⟨-, e, he, -⟩
        · exact hq.clear hf hstarted m (by omega) d hd (hcount.trans (hfcount f hf).symm)
        · cases he

/-- A task that starts behind a fulfilled promise keeps the log. -/
theorem Logged.start (hq : q.Logged) (hl : q.Linked) (hc : q.At n c)
    (hphase : c.phase = .waiting) (hprevious : q.settledWith c.previous = some none) :
    Logged { q.setPhase n .running with started := q.started ++ [n] } := by
  have hopen : ∀ r, c.phase ≠ .settled r := by simp [hphase]
  have hclear := hq.clear_of_start hl hc hprevious
  have hnewest := hq.newest hl hc hopen hclear
  have hnew := hq.waiting hc hphase
  have hchanges : Changes q { q.setPhase n .running with started := q.started ++ [n] } n c
      .running :=
    { was := hc
      unsettled := hopen
      at_iff := at_setPhase_iff hc
      length := length_setPhase q n _
      count := le_rfl
      started := fun m => by simp
      ended := fun m r => pair_mem_iff_or
      handlers := fun k m => pair_mem_iff_or }
  refine hq.of_changes hchanges (by simp) (fun _ => ⟨by simp, fun r hr => ?_⟩) (by simp)
    (by simp) (fun _ => hclear) (fun m d _ hlt => Or.inl hlt)
    (fun m hm => absurd hm (hq.not_seen hc hopen m))
    (fun m hm => absurd hm (hq.not_seen hc hopen m)) ?_ (by simp)
  · exact hnew (hq.started_of_ended hr)
  · refine List.pairwise_append.mpr ⟨hq.sorted, by simp, fun m hm i hi => ?_⟩
    rw [List.mem_singleton.mp hi]
    -- a task behind this one in the newest chain would have found it settled
    rcases Nat.lt_trichotomy m n with hlt | rfl | hgt
    · exact hlt
    · exact absurd hm hnew
    · obtain ⟨d, hd⟩ := exists_at (hq.started_lt m hm)
      have hle := hl.mono hc hd (Nat.le_of_lt hgt)
      have hle' := hl.count_le hd
      obtain ⟨v, hv⟩ := hq.clear hd hm n hgt c hc (by omega)
      exact absurd hv (hopen _)

/-- An error that is passed on without a start keeps the log. -/
theorem Logged.pass (hq : q.Logged) (hl : q.Linked) (hc : q.At n c)
    (hphase : c.phase = .waiting) {e : ε} (hprevious : q.settledWith c.previous = some (some e)) :
    (q.setPhase n (.handling (.error e))).Logged := by
  have hopen : ∀ r, c.phase ≠ .settled r := by simp [hphase]
  have hnew := hq.waiting hc hphase
  have hchanges : Changes q (q.setPhase n (.handling (.error e))) n c (.handling (.error e)) :=
    { was := hc
      unsettled := hopen
      at_iff := at_setPhase_iff hc
      length := length_setPhase q n _
      count := le_rfl
      started := fun m => mem_iff_or
      ended := fun m r => pair_mem_iff_or
      handlers := fun k m => pair_mem_iff_or }
  refine hq.of_changes hchanges (by simp) (by simp) (fun r hr => ?_) (by simp)
    (fun hstarted => absurd hstarted hnew) (fun m d _ hlt => Or.inl hlt)
    (fun m hm => absurd hm (hq.not_seen hc hopen m))
    (fun m hm => absurd hm (hq.not_seen hc hopen m)) hq.sorted
    (fun r hr => hq.started_of_ended hr)
  obtain rfl : Except.error e = r := by simpa using hr
  obtain ⟨m, d, hprev, hd, hdphase⟩ := settledWith_error hprevious
  obtain ⟨hm, hcount⟩ := hl.previous_some hc hprev
  refine hchanges.result_of_same rfl rfl (Or.inr ⟨hnew, e, rfl, ?_⟩)
  rcases hq.result hd (Or.inr hdphase) with ⟨hstarted, -⟩ | ⟨-, e', he', k, hk, hfailed, heq⟩
  · exact ⟨m, by omega, ⟨hstarted, d, hd, hdphase⟩, hcount⟩
  · cases he'
    exact ⟨k, by omega, hfailed, fun f hf => (heq f hf).trans (hcount d hd)⟩

/-- A task that ends keeps the log. -/
theorem Logged.ends (hq : q.Logged) (hc : q.At n c) (hphase : c.phase = .running)
    (r : Except ε α) :
    Logged { q.setPhase n (.handling r) with ended := q.ended ++ [(n, r)] } := by
  have hopen : ∀ r, c.phase ≠ .settled r := by simp [hphase]
  obtain ⟨hstarted, hended⟩ := hq.running hc hphase
  have hchanges : Changes q { q.setPhase n (.handling r) with ended := q.ended ++ [(n, r)] } n c
      (.handling r) :=
    { was := hc
      unsettled := hopen
      at_iff := at_setPhase_iff hc
      length := length_setPhase q n _
      count := le_rfl
      started := fun m => mem_iff_or
      ended := fun m r' => by grind [setPhase]
      handlers := fun k m => pair_mem_iff_or }
  refine hq.of_changes hchanges (by simp) (by simp) (fun r' hr' => Or.inl ⟨hstarted, fun r'' => ?_⟩)
    (by simp) (fun _ => hq.clear hc hstarted) (fun m d _ hlt => Or.inl hlt)
    (fun m hm => absurd hm (hq.not_seen hc hopen m))
    (fun m hm => absurd hm (hq.not_seen hc hopen m)) hq.sorted (fun _ _ => hstarted)
  obtain rfl : r = r' := by simpa using hr'
  simp [hended]

/-- A call that is fulfilled keeps the log. -/
theorem Logged.fulfill (hq : q.Logged) (hc : q.At n c) {v : α}
    (hphase : c.phase = .handling (.ok v)) : (q.setPhase n (.settled (.ok v))).Logged := by
  have hopen : ∀ r, c.phase ≠ .settled r := by simp [hphase]
  have hchanges : Changes q (q.setPhase n (.settled (.ok v))) n c (.settled (.ok v)) :=
    { was := hc
      unsettled := hopen
      at_iff := at_setPhase_iff hc
      length := length_setPhase q n _
      count := le_rfl
      started := fun m => mem_iff_or
      ended := fun m r => pair_mem_iff_or
      handlers := fun k m => pair_mem_iff_or }
  refine hq.of_changes hchanges (by simp) (by simp) (fun r hr => ?_) (by simp)
    (fun hstarted => hq.clear hc hstarted) (fun m d _ hlt => Or.inl hlt)
    (fun m hm => absurd hm (hq.not_seen hc hopen m))
    (fun m hm => absurd hm (hq.not_seen hc hopen m)) hq.sorted
    (fun r hr => hq.started_of_ended hr)
  obtain rfl : Except.ok v = r := by simpa using hr
  exact hchanges.result_of_same rfl rfl (hq.result hc (Or.inl hphase))

/-- The handler of a failure is the first one of its chain. -/
theorem Logged.cut (hq : q.Logged) (hl : q.Linked) (hc : q.At n c) {e : ε}
    (hphase : c.phase = .handling (.error e))
    (hcount : c.exceptionCountAtEnqueue = q.exceptionCount) :
    Logged (({ q with
      handlers := q.handlers ++ [(n, q.calls.length)]
      exceptionCount := q.exceptionCount + 1
      queue := none }).setPhase n (.settled (.error e))) := by
  have hopen : ∀ r, c.phase ≠ .settled r := by simp [hphase]
  have hnot := hq.not_seen hc hopen
  have hresult := hq.result hc (Or.inl hphase)
  have hstarted : n ∈ q.started := by
    rcases hresult with ⟨hstarted, -⟩ | ⟨-, e', -, k, -, ⟨-, d, hd, hdphase⟩, heq⟩
    · exact hstarted
    · have hlt := (hq.alive hd hdphase).1
      rw [heq d hd] at hlt
      omega
  have hchanges : Changes q (({ q with
      handlers := q.handlers ++ [(n, q.calls.length)]
      exceptionCount := q.exceptionCount + 1
      queue := none }).setPhase n (.settled (.error e))) n c (.settled (.error e)) :=
    { was := hc
      unsettled := hopen
      at_iff := at_setPhase_iff (q := { q with
        handlers := q.handlers ++ [(n, q.calls.length)]
        exceptionCount := q.exceptionCount + 1
        queue := none }) hc
      length := length_setPhase _ n _
      count := Nat.le_succ _
      started := fun m => mem_iff_or
      ended := fun m r => pair_mem_iff_or
      handlers := fun k m => by grind [setPhase] }
  have hmem : ∀ m, (n, m) ∈ q.handlers ++ [(n, q.calls.length)] → m = q.calls.length :=
    fun m hm => by simpa [hnot m] using hm
  refine hq.of_changes hchanges (by simp) (by simp) (fun r hr => ?_)
    (fun e' _ => ⟨?_, q.calls.length, by simp [setPhase]⟩) (fun _ => hq.clear hc hstarted)
    (fun m d hd hlt => ?_) (fun _ _ => ⟨e, rfl⟩) (fun m hm _ => ?_) hq.sorted
    (fun _ _ => hstarted)
  · obtain rfl : Except.error e = r := by simpa using hr
    exact hchanges.result_of_same rfl rfl hresult
  · change c.exceptionCountAtEnqueue < q.exceptionCount + 1
    omega
  · change d.exceptionCountAtEnqueue < q.exceptionCount + 1 at hlt
    rcases Nat.lt_or_eq_of_le (Nat.le_of_lt_succ hlt) with hlt | heq
    · exact Or.inl hlt
    · exact Or.inr ⟨heq.trans hcount.symm, e, hstarted, _, hchanges.at_self, rfl⟩
  · rw [hmem m hm]
    refine ⟨le_rfl, fun k d hd => ⟨fun _ => hd.lt, fun _ => ?_⟩⟩
    rw [hcount]
    exact hl.count_le hd

/-- A later handler of a failure finds the count changed. -/
theorem Logged.reject (hq : q.Logged) (hl : q.Linked) (hc : q.At n c) {e : ε}
    (hphase : c.phase = .handling (.error e))
    (hcount : c.exceptionCountAtEnqueue ≠ q.exceptionCount) :
    Logged (({ q with handlers := q.handlers ++ [(n, q.calls.length)] }).setPhase n
      (.settled (.error e))) := by
  have hopen : ∀ r, c.phase ≠ .settled r := by simp [hphase]
  have hold : n ∉ q.started := fun hstarted =>
    hcount (hq.newest_of_started hl hc hopen hstarted)
  have hchanges : Changes q (({ q with handlers := q.handlers ++ [(n, q.calls.length)] }).setPhase n
      (.settled (.error e))) n c (.settled (.error e)) :=
    { was := hc
      unsettled := hopen
      at_iff := at_setPhase_iff (q := { q with
        handlers := q.handlers ++ [(n, q.calls.length)] }) hc
      length := length_setPhase _ n _
      count := le_rfl
      started := fun m => mem_iff_or
      ended := fun m r => pair_mem_iff_or
      handlers := fun k m => by grind [setPhase] }
  refine hq.of_changes hchanges (by simp) (by simp) (fun r hr => ?_)
    (fun e' _ => ⟨?_, q.calls.length, by simp [setPhase]⟩) (fun hstarted => absurd hstarted hold)
    (fun m d _ hlt => Or.inl hlt) (fun _ _ => ⟨e, rfl⟩) (fun m _ hstarted => absurd hstarted hold)
    hq.sorted (fun r hr => hq.started_of_ended hr)
  · obtain rfl : Except.error e = r := by simpa using hr
    exact hchanges.result_of_same rfl rfl (hq.result hc (Or.inl hphase))
  · exact Nat.lt_of_le_of_ne (hl.count_le hc) hcount

/-- A call that moves on keeps the log. -/
theorem Logged.advances (hq : q.Logged) (hl : q.Linked) (h : q.Advances q') : q'.Logged := by
  cases h with
  | start hc hphase hprevious => exact hq.start hl hc hphase hprevious
  | pass hc hphase hprevious => exact hq.pass hl hc hphase hprevious
  | ends hc hphase r => exact hq.ends hc hphase r
  | fulfill hc hphase => exact hq.fulfill hc hphase
  | cut hc hphase hcount => exact hq.cut hl hc hphase hcount
  | reject hc hphase hcount => exact hq.reject hl hc hphase hcount

end Advances

/-- A new call keeps the log. -/
theorem Logged.add {q : PromiseJobs α ε} (hq : q.Logged) : q.add.Logged := by
  have hold : ∀ {n c}, q.add.At n c → n ≠ q.calls.length → q.At n c := fun hc hn =>
    (at_add_iff.mp hc).resolve_right fun h => hn h.1
  have hkeep : ∀ {n c}, q.At n c → q.add.At n c := fun hc => at_add_iff.mpr (Or.inl hc)
  have hstarted : q.calls.length ∉ q.started := fun h =>
    absurd (hq.started_lt _ h) (Nat.lt_irrefl _)
  have hfailed : ∀ {k e count}, (q.Failed k e ∧ ∀ d, q.At k d → d.exceptionCountAtEnqueue = count) →
      q.add.Failed k e ∧ ∀ d, q.add.At k d → d.exceptionCountAtEnqueue = count := by
    rintro k e count ⟨⟨hk, d, hd, hphase⟩, hcount⟩
    exact ⟨⟨hk, d, hkeep hd, hphase⟩, fun f hf => hcount f (hold hf (Nat.ne_of_lt hd.lt))⟩
  have hlength : q.add.calls.length = q.calls.length + 1 := by simp [PromiseJobs.add]
  refine ⟨?_, ?_, ?_, ?_, ?_, ?_, ?_, ?_, hq.sorted, ?_, hq.started_of_ended⟩
  · intro n c hc hphase
    rcases at_add_iff.mp hc with hc | ⟨rfl, -⟩
    · exact hq.waiting hc hphase
    · exact hstarted
  · intro n c hc hphase
    rcases at_add_iff.mp hc with hc | ⟨-, rfl⟩
    · exact hq.running hc hphase
    · cases hphase
  · intro n c r hc hphase
    rcases at_add_iff.mp hc with hc | ⟨-, rfl⟩
    · refine (hq.result hc hphase).imp id (And.imp id ?_)
      rintro ⟨e, rfl, k, hk, hk'⟩
      exact ⟨e, rfl, k, hk, hfailed hk'⟩
    · rcases hphase with hphase | hphase <;> cases hphase
  · intro n c e hc hphase
    rcases at_add_iff.mp hc with hc | ⟨-, rfl⟩
    · exact hq.alive hc hphase
    · cases hphase
  · intro n c hc hn m hm d hd hcount
    rcases at_add_iff.mp hc with hc | ⟨rfl, -⟩
    · have hlt := hc.lt
      exact hq.clear hc hn m hm d (hold hd (by omega)) hcount
    · exact absurd hn hstarted
  · intro n c hc hlt
    rcases at_add_iff.mp hc with hc | ⟨-, rfl⟩
    · obtain ⟨k, e, hk⟩ := hq.dead hc hlt
      exact ⟨k, e, hfailed hk⟩
    · exact absurd hlt (Nat.lt_irrefl _)
  · intro k m hm
    obtain ⟨d, e, hd, hphase⟩ := hq.seen hm
    exact ⟨d, e, hkeep hd, hphase⟩
  · intro k m hm hk
    obtain ⟨hle, hiff⟩ := hq.handled hm hk
    obtain ⟨f, e, hf, hphase⟩ := hq.seen hm
    refine ⟨by omega, fun n c d hc hd => ?_⟩
    have hd := hold hd (Nat.ne_of_lt hf.lt)
    rcases at_add_iff.mp hc with hc | ⟨rfl, rfl⟩
    · exact hiff n c d hc hd
    · have hlt := (hq.alive hf hphase).1
      rw [hf.unique hd] at hlt
      change q.exceptionCount ≤ d.exceptionCountAtEnqueue ↔ q.calls.length < m
      omega
  · intro n hn
    have hlt := hq.started_lt n hn
    omega

/-- A step does nothing, adds a call, or moves one call on. -/
theorem step_cases (q : PromiseJobs α ε) (event : QueueEvent α ε) :
    q.step event = q ∨ q.step event = q.add ∨ q.Advances (q.step event) := by
  cases event with
  | add => exact Or.inr (Or.inl rfl)
  | job n => exact (q.job_cases n).imp And.right Or.inr
  | taskEnds n r => exact (q.taskEnds_cases n r).imp And.right Or.inr

/-- Every step keeps the queue linked and its log true. -/
theorem invariant_step {q : PromiseJobs α ε} (hq : q.Linked ∧ q.Logged) (event : QueueEvent α ε) :
    (q.step event).Linked ∧ (q.step event).Logged := by
  rcases q.step_cases event with heq | heq | hadvances
  · rw [heq]
    exact hq
  · rw [heq]
    exact ⟨hq.1.add, hq.2.add⟩
  · exact ⟨hq.1.advances hadvances, hq.2.advances hq.1 hadvances⟩

/-! ## What one job changes -/

/-- The job of a call begins its task. -/
def begins (q : PromiseJobs α ε) (n : Nat) : Bool :=
  match q.calls[n]? with
  | some ⟨previous, _, .waiting⟩ =>
      match q.settledWith previous with
      | some none => true
      | _ => false
  | _ => false

/-- The job of a call is the handler of the failure that ends the chain. -/
def cuts (q : PromiseJobs α ε) (n : Nat) : Bool :=
  match q.calls[n]? with
  | some ⟨_, count, .handling (.error _)⟩ => count == q.exceptionCount
  | _ => false

/-- What the queue keeps of its calls. -/
structure Keeps (q q' : PromiseJobs α ε) : Prop where
  length : q'.calls.length = q.calls.length
  count : ∀ {m c}, q'.At m c → ∃ d, q.At m d ∧
    d.exceptionCountAtEnqueue = c.exceptionCountAtEnqueue
  settled : ∀ {m r}, q.Settled m r → q'.Settled m r

/-- What a job does that is not the begin of a task. -/
structure HandsOn (q q' : PromiseJobs α ε) : Prop extends q.Keeps q' where
  started : q'.started = q.started
  ended : q'.ended = q.ended
  running : ∀ m, q'.Running m ↔ q.Running m

/-- What a job does that begins the task of its call. -/
structure BeginsTask (q q' : PromiseJobs α ε) (n : Nat) : Prop extends q.Keeps q' where
  exceptionCount : q'.exceptionCount = q.exceptionCount
  started : q'.started = q.started ++ [n]
  ended : q'.ended = q.ended
  running : ∀ m, q'.Running m ↔ m = n ∨ q.Running m

/-- What the end of a task does. -/
structure EndsTask (q q' : PromiseJobs α ε) (n : Nat) (r : Except ε α) : Prop
    extends q.Keeps q' where
  exceptionCount : q'.exceptionCount = q.exceptionCount
  started : q'.started = q.started
  ended : q'.ended = q.ended ++ [(n, r)]
  running : ∀ m, q'.Running m ↔ m ≠ n ∧ q.Running m

theorem Keeps.refl (q : PromiseJobs α ε) : q.Keeps q :=
  ⟨rfl, fun hc => ⟨_, hc, rfl⟩, id⟩

theorem HandsOn.refl (q : PromiseJobs α ε) : q.HandsOn q :=
  ⟨.refl q, rfl, rfl, fun _ => Iff.rfl⟩

section SetPhase

variable {q : PromiseJobs α ε} {n : Nat} {c : AddCall α ε}

/-- After a change of phase the changed call runs if its new phase says so, the others as
before. -/
theorem running_setPhase (hc : q.At n c) (p : AddPhase α ε) (m : Nat) :
    (q.setPhase n p).Running m ↔ m = n ∧ p = .running ∨ m ≠ n ∧ q.Running m := by
  constructor
  · rintro ⟨d, hd, hphase⟩
    rcases (at_setPhase_iff hc).mp hd with ⟨rfl, rfl⟩ | ⟨hm, hd⟩
    · exact Or.inl ⟨rfl, hphase⟩
    · exact Or.inr ⟨hm, d, hd, hphase⟩
  · rintro (⟨rfl, rfl⟩ | ⟨hm, d, hd, hphase⟩)
    · exact ⟨_, (at_setPhase_iff hc).mpr (Or.inl ⟨rfl, rfl⟩), rfl⟩
    · exact ⟨d, (at_setPhase_iff hc).mpr (Or.inr ⟨hm, hd⟩), hphase⟩

/-- A phase that is not the last one is left. -/
theorem keeps_setPhase (hc : q.At n c) (hopen : ∀ r, c.phase ≠ .settled r) (p : AddPhase α ε) :
    q.Keeps (q.setPhase n p) where
  length := length_setPhase q n p
  count hd := by
    rcases (at_setPhase_iff hc).mp hd with ⟨rfl, rfl⟩ | ⟨-, hd⟩
    · exact ⟨c, hc, rfl⟩
    · exact ⟨_, hd, rfl⟩
  settled := by
    rintro m r ⟨d, hd, hphase⟩
    have hm : m ≠ n := by
      rintro rfl
      rw [hd.unique hc] at hphase
      exact hopen r hphase
    exact ⟨d, (at_setPhase_iff hc).mpr (Or.inr ⟨hm, hd⟩), hphase⟩

/-- A phase in which the task does not run is left for another such phase. -/
theorem handsOn_setPhase (hc : q.At n c) (hopen : ∀ r, c.phase ≠ .settled r)
    (hwas : c.phase ≠ .running) {p : AddPhase α ε} (hp : p ≠ .running) :
    q.HandsOn (q.setPhase n p) where
  toKeeps := keeps_setPhase hc hopen p
  started := rfl
  ended := rfl
  running m := by
    rw [running_setPhase hc]
    constructor
    · rintro (⟨-, hrun⟩ | ⟨-, hrun⟩)
      · exact absurd hrun hp
      · exact hrun
    · intro hrun
      refine Or.inr ⟨?_, hrun⟩
      rintro rfl
      exact hwas (hc.running_iff.mp hrun)

end SetPhase

/-- A job begins the task of its call or hands something on.  The exception count is counted up
by the handler of the failure that ends the chain. -/
theorem job_spec (q : PromiseJobs α ε) (n : Nat) :
    q.begins n = true ∧ q.BeginsTask (q.job n) n ∨
      q.begins n = false ∧ q.HandsOn (q.job n) ∧
        (q.cuts n = false → (q.job n).exceptionCount = q.exceptionCount) := by
  unfold job begins cuts
  cases hc : q.calls[n]? with
  | none => exact Or.inr ⟨rfl, .refl q, fun _ => rfl⟩
  | some c =>
      have hat : q.At n c := hc
      obtain ⟨previous, count, phase⟩ := c
      cases phase with
      | waiting =>
          have hopen : ∀ r, AddPhase.waiting ≠ AddPhase.settled (ε := ε) (α := α) r := by simp
          dsimp only
          cases hprevious : q.settledWith previous with
          | none => exact Or.inr ⟨rfl, .refl q, fun _ => rfl⟩
          | some error =>
              cases error with
              | none =>
                  have hkeeps := keeps_setPhase hat hopen .running
                  refine Or.inl ⟨rfl, ⟨hkeeps.length, hkeeps.count, hkeeps.settled⟩, rfl, rfl,
                    rfl, fun m => ?_⟩
                  refine (running_setPhase hat .running m).trans ?_
                  constructor
                  · rintro (⟨rfl, -⟩ | ⟨-, hrun⟩)
                    · exact Or.inl rfl
                    · exact Or.inr hrun
                  · intro h
                    by_cases hm : m = n
                    · exact Or.inl ⟨hm, rfl⟩
                    · exact Or.inr ⟨hm, h.resolve_left hm⟩
              | some e =>
                  exact Or.inr ⟨rfl, handsOn_setPhase hat hopen (by simp) (by simp), fun _ => rfl⟩
      | running => exact Or.inr ⟨rfl, .refl q, fun _ => rfl⟩
      | settled r => exact Or.inr ⟨rfl, .refl q, fun _ => rfl⟩
      | handling r =>
          refine Or.inr ⟨rfl, ?_⟩
          dsimp only [handle]
          have hsame : ∀ p, p ≠ .running → q.HandsOn (q.setPhase n p) := fun p hp =>
            handsOn_setPhase hat (by simp) (by simp) hp
          cases r with
          | ok v => exact ⟨hsame _ (by simp), fun _ => rfl⟩
          | error e =>
              have h := hsame (.settled (.error e)) (by simp)
              by_cases hcount : count = q.exceptionCount
              · simp only [hcount, if_true]
                exact ⟨⟨⟨h.length, h.count, h.settled⟩, h.started, h.ended, h.running⟩, by simp⟩
              · simp only [hcount, if_false]
                exact ⟨⟨⟨h.length, h.count, h.settled⟩, h.started, h.ended, h.running⟩,
                  fun _ => rfl⟩

/-- A task that runs comes to its end. -/
theorem taskEnds_spec {q : PromiseJobs α ε} {n : Nat} (hrun : q.Running n) (r : Except ε α) :
    q.EndsTask (q.taskEnds n r) n r := by
  obtain ⟨c, hc, hphase⟩ := hrun
  have hcall : q.calls[n]?.map AddCall.phase = some .running := by
    rw [show q.calls[n]? = some c from hc, Option.map_some, hphase]
  have hkeeps := keeps_setPhase hc (by simp [hphase]) (.handling r)
  unfold taskEnds
  simp only [hcall]
  refine ⟨⟨hkeeps.length, hkeeps.count, hkeeps.settled⟩, rfl, rfl, rfl, fun m => ?_⟩
  refine (running_setPhase hc (.handling r) m).trans ?_
  simp

/-- The end of a task that does not run changes nothing. -/
theorem taskEnds_of_not_running {q : PromiseJobs α ε} {n : Nat} (hrun : ¬ q.Running n)
    (r : Except ε α) : q.taskEnds n r = q := by
  unfold taskEnds
  split
  next hphase =>
    obtain ⟨c, hc, hp⟩ := Option.map_eq_some_iff.mp hphase
    exact absurd ⟨c, hc, hp⟩ hrun
  next => rfl

/-- A new call does not run yet. -/
theorem running_add (q : PromiseJobs α ε) (m : Nat) : q.add.Running m ↔ q.Running m := by
  constructor
  · rintro ⟨c, hc, hphase⟩
    rcases at_add_iff.mp hc with hc | ⟨-, rfl⟩
    · exact ⟨c, hc, hphase⟩
    · cases hphase
  · rintro ⟨c, hc, hphase⟩
    exact ⟨c, at_add_iff.mpr (Or.inl hc), hphase⟩

/-- A new call unsettles no promise. -/
theorem settled_add {q : PromiseJobs α ε} {m : Nat} {r : Except ε α} (h : q.Settled m r) :
    q.add.Settled m r := by
  obtain ⟨c, hc, hphase⟩ := h
  exact ⟨c, at_add_iff.mpr (Or.inl hc), hphase⟩

/-! ## Calls that are not cut off -/

/-- No call of a kind is in a chain that has ended before it was called. -/
def Unskipped (q : PromiseJobs α ε) (P : Nat → Prop) : Prop :=
  ∀ n c, q.At n c → P n → n ∉ q.started → c.exceptionCountAtEnqueue = q.exceptionCount

section Unskipped

variable {q : PromiseJobs α ε} {P : Nat → Prop}

/-- A new call skips none of those before. -/
theorem Unskipped.add (h : q.Unskipped P) (P' : Nat → Prop)
    (hP : ∀ n < q.calls.length, P' n → P n) : q.add.Unskipped P' := by
  intro n c hc hn hstarted
  rcases at_add_iff.mp hc with hc | ⟨-, rfl⟩
  · exact h n c hc (hP n hc.lt hn) hstarted
  · rfl

/-- Nothing is skipped where the count stays and the started calls stay started. -/
theorem Unskipped.of_keeps {q' : PromiseJobs α ε} (h : q.Unskipped P) (hkeeps : q.Keeps q')
    (hcount : q'.exceptionCount = q.exceptionCount) (hstarted : ∀ n ∈ q.started, n ∈ q'.started) :
    q'.Unskipped P := by
  intro n c hc hn hnot
  obtain ⟨d, hd, heq⟩ := hkeeps.count hc
  rw [hcount, ← heq]
  exact h n d hd hn fun hmem => hnot (hstarted n hmem)

/-- A call that was fulfilled or came before a call of its chain that was called was called. -/
theorem Logged.started_of_clear (hq : q.Logged) {m n : Nat} {c d : AddCall α ε} (hc : q.At n c)
    (hn : n ∈ q.started) (hd : q.At m d) (hm : m < n)
    (hcount : d.exceptionCountAtEnqueue = c.exceptionCountAtEnqueue) : m ∈ q.started := by
  obtain ⟨v, hv⟩ := hq.clear hc hn m hm d hd hcount
  rcases hq.result hd (Or.inr hv) with hown | ⟨-, e, he, -⟩
  · exact hown.1
  · cases he

/-- The calls of the kind are called in their order, and before all that is added later. -/
theorem Unskipped.in_order (h : q.Unskipped P) (hl : q.Linked) (hq : q.Logged) {m n : Nat}
    (hP : P m) (hm : m < n) (hn : n ∈ q.started) : m ∈ q.started := by
  by_contra hnot
  obtain ⟨c, hc⟩ := exists_at (hq.started_lt n hn)
  obtain ⟨d, hd⟩ := exists_at (Nat.lt_trans hm (hq.started_lt n hn))
  have hcount := h m d hd hP hnot
  have hle := hl.mono hd hc (Nat.le_of_lt hm)
  have hle' := hl.count_le hc
  exact hnot (hq.started_of_clear hc hn hd hm (by omega))

/-- A call of the kind has the result that its own task ended with. -/
theorem Unskipped.ended (h : q.Unskipped P) (hq : q.Logged) {n : Nat} {r : Except ε α} (hP : P n)
    (hr : q.Settled n r) : n ∈ q.started ∧ (n, r) ∈ q.ended := by
  obtain ⟨c, hc, hphase⟩ := hr
  rcases hq.result hc (Or.inr hphase) with hown | ⟨hnot, e, -, k, -, ⟨-, d, hd, hd'⟩, hcount⟩
  · exact ⟨hown.1, (hown.2 r).mpr rfl⟩
  · have hlt := (hq.alive hd hd').1
    have heq := h n c hc hP hnot
    rw [hcount d hd] at hlt
    omega

/-- A chain ends with the failure of a task that was called. -/
theorem Logged.started_of_cuts (hq : q.Logged) {n : Nat} (h : q.cuts n = true) :
    ∃ c, q.At n c ∧ c.exceptionCountAtEnqueue = q.exceptionCount ∧ n ∈ q.started := by
  unfold cuts at h
  split at h
  next previous count e hc =>
    refine ⟨_, hc, beq_iff_eq.mp h, ?_⟩
    rcases hq.result hc (Or.inl rfl) with hown | ⟨-, e', -, k, -, ⟨-, d, hd, hd'⟩, hcount⟩
    · exact hown.1
    · have hlt := (hq.alive hd hd').1
      rw [hcount d hd, beq_iff_eq.mp h] at hlt
      exact absurd hlt (Nat.lt_irrefl _)
  next => cases h

/-- A job keeps this, unless it ends the chain with a call of the kind in it. -/
theorem Unskipped.job (h : q.Unskipped P) (hq : q.Logged) {n : Nat}
    (hcuts : q.cuts n = true → ∀ m < q.calls.length, n < m → ¬ P m) : (q.job n).Unskipped P := by
  rcases q.job_spec n with ⟨-, hbegins⟩ | ⟨-, hhands, hcount⟩
  · refine h.of_keeps hbegins.toKeeps hbegins.exceptionCount fun m hm => ?_
    rw [hbegins.started]
    exact List.mem_append_left _ hm
  · cases hcut : q.cuts n with
    | false =>
        exact h.of_keeps hhands.toKeeps (hcount hcut) fun m hm => hhands.started ▸ hm
    | true =>
        intro m d hd hm hnot
        rw [hhands.started] at hnot
        obtain ⟨d', hd', -⟩ := hhands.count hd
        have hmcount := h m d' hd' hm hnot
        obtain ⟨c, hc, hcount, hstarted⟩ := hq.started_of_cuts hcut
        rcases Nat.lt_trichotomy m n with hlt | rfl | hgt
        · exact absurd (hq.started_of_clear hc hstarted hd' hlt (hmcount.trans hcount.symm)) hnot
        · exact absurd hstarted hnot
        · exact absurd hm (hcuts hcut m hd'.lt hgt)

end Unskipped

/-! ## Progress -/

/-- An event that is not one of `add` and moves the queue on. -/
def MovesOn (q : PromiseJobs α ε) : QueueEvent α ε → Prop
  | .add => False
  | .job n => q.Due n
  | .taskEnds n _ => q.Running n

/-- While a call is not settled, a job is due or a task runs. -/
theorem Linked.moves_on {q : PromiseJobs α ε} (hl : q.Linked) {n : Nat} {c : AddCall α ε}
    (hc : q.At n c) (hopen : ∀ r, ¬ q.Settled n r) : ∃ m ≤ n, q.Due m ∨ q.Running m := by
  -- from an unsettled call back to the first one that is unsettled
  induction n using Nat.strong_induction_on generalizing c with
  | _ n ih =>
      cases hphase : c.phase with
      | running => exact ⟨n, le_rfl, Or.inr ⟨c, hc, hphase⟩⟩
      | handling r => exact ⟨n, le_rfl, Or.inl ⟨c, hc, Or.inr ⟨r, hphase⟩⟩⟩
      | settled r => exact absurd ⟨c, hc, hphase⟩ (hopen r)
      | waiting =>
          cases hprev : c.previous with
          | none =>
              exact ⟨n, le_rfl, Or.inl ⟨c, hc, Or.inl ⟨hphase, by simp [hprev, settledWith]⟩⟩⟩
          | some m =>
              have hm := (hl.previous_some hc hprev).1
              have hlt := hc.lt
              obtain ⟨d, hd⟩ := q.exists_at (n := m) (by omega)
              by_cases hsettled : ∃ r, q.Settled m r
              · refine ⟨n, le_rfl, Or.inl ⟨c, hc, Or.inl ⟨hphase, ?_⟩⟩⟩
                obtain ⟨r, f, hf, hr⟩ := hsettled
                have hcall : q.calls[m]? = some f := hf
                cases r <;> simp [hprev, settledWith, hcall, hr]
              · obtain ⟨i, hi, hmoves⟩ := ih m (by omega) hd (not_exists.mp hsettled)
                exact ⟨i, by omega, hmoves⟩

/-- The steps that are left for a call. -/
def stepsLeft : AddPhase α ε → Nat
  | .waiting => 3
  | .running => 2
  | .handling _ => 1
  | .settled _ => 0

/-- The steps that are left for all calls. -/
def remaining (q : PromiseJobs α ε) : Nat :=
  (q.calls.map fun c => stepsLeft c.phase).sum

/-- A sum falls with one of its terms. -/
private theorem sum_modify_lt {β : Type*} {f : β → β} {g : β → Nat} {xs : List β} {n : Nat}
    {x : β} (hx : xs[n]? = some x) (hlt : g (f x) < g x) :
    ((xs.modify n f).map g).sum < (xs.map g).sum := by
  induction xs generalizing n with
  | nil => simp at hx
  | cons y xs ih =>
      cases n with
      | zero =>
          obtain rfl : y = x := Option.some.inj hx
          simpa using hlt
      | succ n =>
          have hrest := ih hx
          simpa using hrest

/-- A call that gets nearer to its end leaves fewer steps. -/
theorem remaining_setPhase {q : PromiseJobs α ε} {n : Nat} {c : AddCall α ε} (hc : q.At n c)
    {p : AddPhase α ε} (hlt : stepsLeft p < stepsLeft c.phase) :
    (q.setPhase n p).remaining < q.remaining :=
  sum_modify_lt (f := fun c : AddCall α ε => { c with phase := p })
    (g := fun c : AddCall α ε => stepsLeft c.phase) hc hlt

/-- Every call that moves on leaves fewer steps. -/
theorem Advances.remaining {q q' : PromiseJobs α ε} (h : q.Advances q') :
    q'.remaining < q.remaining := by
  cases h with
  | start hc hphase => exact remaining_setPhase hc (by simp [hphase, stepsLeft])
  | pass hc hphase => exact remaining_setPhase hc (by simp [hphase, stepsLeft])
  | ends hc hphase => exact remaining_setPhase hc (by simp [hphase, stepsLeft])
  | fulfill hc hphase => exact remaining_setPhase hc (by simp [hphase, stepsLeft])
  | cut hc hphase => exact remaining_setPhase hc (by simp [hphase, stepsLeft])
  | reject hc hphase => exact remaining_setPhase hc (by simp [hphase, stepsLeft])

/-- A step that moves on is one of a call. -/
theorem MovesOn.advances {q : PromiseJobs α ε} {event : QueueEvent α ε} (h : q.MovesOn event) :
    q.Advances (q.step event) := by
  cases event with
  | add => exact h.elim
  | job n => exact (q.job_cases n).resolve_left fun hidle => hidle.1 h
  | taskEnds n r => exact (q.taskEnds_cases n r).resolve_left fun hidle => hidle.1 h

/-- Events that move the queue on come to an end. -/
theorem length_le_remaining {q : PromiseJobs α ε} {events : List (QueueEvent α ε)}
    (h : Run.Allowed step MovesOn q events) : events.length ≤ q.remaining := by
  induction events generalizing q with
  | nil => exact Nat.zero_le _
  | cons event events ih =>
      have hlt := h.1.advances.remaining
      have hle := ih h.2
      rw [List.length_cons]
      omega

/-! ## Serialised tasks -/

/-- What the queue promises: one task runs at a time, tasks are called in the order they
were added and once each, and every promise settles, with the outcome of its own task or
without a call with the error of a failed task before it.  The latter happens to exactly the
tasks behind a failed one that were added before the handler of its failure ran. -/
structure Serialises (q : PromiseJobs α ε) : Prop where
  one_runs : ∀ m n, q.Running m → q.Running n → m = n
  in_order : q.started.Pairwise (· < ·)
  ends_once : ∀ n r r', (n, r) ∈ q.ended → (n, r') ∈ q.ended → r = r'
  outcome : ∀ n r, q.Settled n r → (n ∈ q.started ∧ (n, r) ∈ q.ended) ∨
    n ∉ q.started ∧ ∃ k < n, ∃ e, (k, .error e) ∈ q.ended ∧ r = .error e
  rejected : ∀ k e m, (k, .error e) ∈ q.ended → (k, m) ∈ q.handlers → ∀ n, k < n → n < m →
    n ∉ q.started ∧ ∀ r, q.Settled n r → r = .error e
  rejected_only : ∀ n r, q.Settled n r → n ∉ q.started →
    ∃ k e m, (k, .error e) ∈ q.ended ∧ (k, m) ∈ q.handlers ∧ k < n ∧ n < m
  moves_on : ∀ n < q.calls.length, (∀ r, ¬ q.Settled n r) → ∃ m ≤ n, q.Due m ∨ q.Running m
  settles : ∀ events, Run.Allowed step MovesOn q events → events.length ≤ q.remaining ∧
    ((∀ n, ¬ (Run.exec step q events).Due n ∧ ¬ (Run.exec step q events).Running n) →
      ∀ n < (Run.exec step q events).calls.length, ∃ r, (Run.exec step q events).Settled n r)

section Serialises

variable {q : PromiseJobs α ε}

/-- Of two calls the later one does not run while the earlier one does. -/
theorem Logged.one_runs (hq : q.Logged) (hl : q.Linked) {m n : Nat} (hm : q.Running m)
    (hn : q.Running n) : ¬ m < n := by
  intro hlt
  obtain ⟨c, hc, hcphase⟩ := hm
  obtain ⟨d, hd, hdphase⟩ := hn
  have hcstarted := (hq.running hc hcphase).1
  have hdstarted := (hq.running hd hdphase).1
  have hccount := hq.newest_of_started hl hc (by simp [hcphase]) hcstarted
  have hdcount := hq.newest_of_started hl hd (by simp [hdphase]) hdstarted
  obtain ⟨v, hv⟩ := hq.clear hd hdstarted m hlt c hc (hccount.trans hdcount.symm)
  rw [hcphase] at hv
  cases hv

/-- At most one task runs. -/
theorem Logged.running_unique (hq : q.Logged) (hl : q.Linked) {m n : Nat} (hm : q.Running m)
    (hn : q.Running n) : m = n :=
  Nat.le_antisymm (Nat.not_lt.mp (hq.one_runs hl hn hm)) (Nat.not_lt.mp (hq.one_runs hl hm hn))

/-- A task that ended left its result with its call. -/
theorem Logged.phase_of_ended (hq : q.Logged) {n : Nat} {r : Except ε α} (hr : (n, r) ∈ q.ended) :
    ∃ c, q.At n c ∧ (c.phase = .handling r ∨ c.phase = .settled r) := by
  have hstarted := hq.started_of_ended hr
  obtain ⟨c, hc⟩ := exists_at (hq.started_lt n hstarted)
  have hown : ∀ r', c.phase = .handling r' ∨ c.phase = .settled r' → r = r' := fun r' hr' =>
    (hq.result hc hr').elim (fun hown => (hown.2 r).mp hr) fun hpassed => absurd hstarted hpassed.1
  refine ⟨c, hc, ?_⟩
  cases hphase : c.phase with
  | waiting => exact absurd hstarted (hq.waiting hc hphase)
  | running => exact absurd hr ((hq.running hc hphase).2 r)
  | handling r' => exact Or.inl (by rw [hown r' (Or.inl hphase)])
  | settled r' => exact Or.inr (by rw [hown r' (Or.inr hphase)])

/-- The first failure of a chain is the only one. -/
theorem Logged.failed_unique (hq : q.Logged) {k k' : Nat} {e e' : ε} (hk : q.Failed k e)
    (hk' : q.Failed k' e')
    (hcount : ∀ c d, q.At k c → q.At k' d → c.exceptionCountAtEnqueue = d.exceptionCountAtEnqueue) :
    k = k' ∧ e = e' := by
  obtain ⟨hstarted, c, hc, hphase⟩ := hk
  obtain ⟨hstarted', d, hd, hphase'⟩ := hk'
  have heq := hcount c d hc hd
  rcases Nat.lt_trichotomy k k' with hlt | rfl | hlt
  · obtain ⟨v, hv⟩ := hq.clear hd hstarted' k hlt c hc heq
    rw [hphase] at hv
    cases hv
  · rw [hd.unique hc, hphase] at hphase'
    cases hphase'
    exact ⟨rfl, rfl⟩
  · obtain ⟨v, hv⟩ := hq.clear hc hstarted k' hlt d hd heq.symm
    rw [hphase'] at hv
    cases hv

/-- A failure whose handler ran ended its chain with the calls added by then. -/
theorem Logged.failed_of_handled (hq : q.Logged) {k m : Nat} {e : ε}
    (he : (k, .error e) ∈ q.ended) (hm : (k, m) ∈ q.handlers) : q.Failed k e := by
  obtain ⟨d, e', hd, hphase⟩ := hq.seen hm
  obtain ⟨c, hc, hcphase⟩ := hq.phase_of_ended he
  rw [hc.unique hd, hphase] at hcphase
  obtain rfl : e' = e := by simpa using hcphase
  exact ⟨hq.started_of_ended he, d, hd, hphase⟩

/-- A call between a failure and its handler is not started and settles with an error only. -/
theorem Logged.rejected (hq : q.Logged) (hl : q.Linked) {k m n : Nat} {e : ε}
    (he : (k, .error e) ∈ q.ended) (hm : (k, m) ∈ q.handlers) (hkn : k < n) (hnm : n < m) :
    n ∉ q.started ∧ ∀ r, q.Settled n r → r = .error e := by
  have hfailed := hq.failed_of_handled he hm
  obtain ⟨hstarted, d, hd, hphase⟩ := hfailed
  obtain ⟨hle, hiff⟩ := hq.handled hm hstarted
  obtain ⟨c, hc⟩ := exists_at (q := q) (n := n) (by omega)
  have hcount : c.exceptionCountAtEnqueue = d.exceptionCountAtEnqueue :=
    Nat.le_antisymm ((hiff n c d hc hd).mpr hnm) (hl.mono hd hc (Nat.le_of_lt hkn))
  have hnot : n ∉ q.started := by
    intro hn
    obtain ⟨v, hv⟩ := hq.clear hc hn k hkn d hd hcount.symm
    rw [hphase] at hv
    cases hv
  refine ⟨hnot, fun r hr => ?_⟩
  obtain ⟨c', hc', hrphase⟩ := hr
  obtain rfl := hc.unique hc'
  rcases hq.result hc (Or.inr hrphase) with hown | ⟨-, e', rfl, k', -, hfailed', hcount'⟩
  · exact absurd hown.1 hnot
  · have hunique := hq.failed_unique ⟨hstarted, d, hd, hphase⟩ hfailed' fun f g hf hg => by
      rw [hf.unique hd, hcount' g hg, hcount]
    rw [hunique.2]

/-- A call that settles without a start stands between a failure and its handler. -/
theorem Logged.rejected_only (hq : q.Logged) {n : Nat} {r : Except ε α} (hr : q.Settled n r)
    (hn : n ∉ q.started) :
    ∃ k e m, (k, .error e) ∈ q.ended ∧ (k, m) ∈ q.handlers ∧ k < n ∧ n < m := by
  obtain ⟨c, hc, hphase⟩ := hr
  rcases hq.result hc (Or.inr hphase) with hown | ⟨-, e, -, k, hk, ⟨hstarted, d, hd, hd'⟩, hcount⟩
  · exact absurd hown.1 hn
  · obtain ⟨-, m, hm⟩ := hq.alive hd hd'
    have hended : (k, .error e) ∈ q.ended := by
      rcases hq.result hd (Or.inr hd') with hown | hpassed
      · exact (hown.2 _).mpr rfl
      · exact absurd hstarted hpassed.1
    refine ⟨k, e, m, hended, hm, hk, ?_⟩
    exact ((hq.handled hm hstarted).2 n c d hc hd).mp (Nat.le_of_eq (hcount d hd).symm)

/-- A promise has the result of its own task, or the error of one before. -/
theorem Logged.outcome (hq : q.Logged) {n : Nat} {r : Except ε α} (hr : q.Settled n r) :
    (n ∈ q.started ∧ (n, r) ∈ q.ended) ∨
      n ∉ q.started ∧ ∃ k < n, ∃ e, (k, .error e) ∈ q.ended ∧ r = .error e := by
  obtain ⟨c, hc, hphase⟩ := hr
  rcases hq.result hc (Or.inr hphase) with ⟨hstarted, hended⟩ | ⟨hn, e, rfl, k, hk, hfailed, -⟩
  · exact Or.inl ⟨hstarted, (hended r).mpr rfl⟩
  · obtain ⟨hstarted, d, hd, hd'⟩ := hfailed
    refine Or.inr ⟨hn, k, hk, e, ?_, rfl⟩
    rcases hq.result hd (Or.inr hd') with hown | hpassed
    · exact (hown.2 _).mpr rfl
    · exact absurd hstarted hpassed.1

/-- In every run the queue is linked and its log true. -/
theorem invariant_exec (h : q.Linked ∧ q.Logged) (events : List (QueueEvent α ε)) :
    (Run.exec step q events).Linked ∧ (Run.exec step q events).Logged :=
  Run.invariant (fun q : PromiseJobs α ε => q.Linked ∧ q.Logged)
    (fun _ event h (_ : True) => invariant_step h event) h
    (Run.allowed_of_forall (fun _ _ => trivial) q events)

/-- Where no job is due and no task runs, every promise is settled. -/
theorem Linked.settled_of_idle (hl : q.Linked) (hidle : ∀ n, ¬ q.Due n ∧ ¬ q.Running n) {n : Nat}
    (hn : n < q.calls.length) : ∃ r, q.Settled n r := by
  by_contra hopen
  obtain ⟨c, hc⟩ := exists_at hn
  obtain ⟨m, -, hmoves⟩ := hl.moves_on hc (not_exists.mp hopen)
  exact hmoves.elim (hidle m).1 (hidle m).2

/-- The queue serialises its tasks, however calls of `add`, jobs and the ends of tasks take
turns. -/
theorem serialises (events : List (QueueEvent α ε)) :
    (Run.exec step (new : PromiseJobs α ε) events).Serialises := by
  obtain ⟨hl, hq⟩ := invariant_exec (q := new) ⟨linked_new, logged_new⟩ events
  refine ⟨fun m n => hq.running_unique hl, hq.sorted, fun n r r' hr hr' => ?_, fun n r => hq.outcome,
    fun k e m he hm n => hq.rejected hl he hm, fun n r => hq.rejected_only, fun n hn hopen => ?_,
    fun later h => ⟨length_le_remaining h, fun hidle n hn => ?_⟩⟩
  · obtain ⟨c, hc, hphase⟩ := hq.phase_of_ended hr
    rcases hq.result hc hphase with hown | hpassed
    · exact ((hown.2 r').mp hr').symm
    · exact absurd (hq.started_of_ended hr) hpassed.1
  · obtain ⟨c, hc⟩ := exists_at hn
    exact hl.moves_on hc hopen
  · exact (invariant_exec ⟨hl, hq⟩ later).1.settled_of_idle hidle hn

end Serialises

/-- Two calls, the first of which fails; a third one is added before the handler runs and a
fourth one behind it.  Only the first and the fourth are called. -/
example : ((Run.exec step (new : PromiseJobs Nat String)
    [.add, .add, .job 0, .taskEnds 0 (.error "e"), .add, .job 0, .add, .job 1, .job 3, .job 1,
      .job 2, .taskEnds 3 (.ok 3), .job 2, .job 3]).started = [0, 3]) := by
  decide

end PromiseJobs

end CrSqlite
