import CrSqlite.Library.Run
import CrSqlite.PromiseJobs
import CrSqlite.Wrapper
import Mathlib.Logic.Function.Basic

/-!
# Transactions - two queues on one connection

`DB.transaction` of js/browser/wa-crsqlite/src/wrapper.ts.  Transactions wait for each other
in one promise queue, and every statement goes through another one, those of a callback
among those from elsewhere.  The two queues are run job by job, and a callback may make any
calls and end in any way.

Main results:

- Theorem {lit}`Transactions.serialised`: transactions come one after the other, and the
  promise of each tells of its last statement only, not of its callback.
-/

namespace CrSqlite

/-! ## The wrapper -/

/-- Who uses the connection: a call from outside of every callback, or a call of
`transaction` with its BEGIN, the calls of its callback, and its COMMIT or ROLLBACK. -/
inductive Issuer where
  | outside
  | begins (t : Nat)
  | body (t : Nat)
  | ends (t : Nat)
deriving DecidableEq

/-- Where the task of a call of `transaction` has got to, with the promises of its BEGIN and
of its COMMIT or ROLLBACK and with the outcome of its callback. -/
inductive TxPhase where
  | waiting
  | beginning (b : Nat)
  | refused (b : Nat)
  | inside (b : Nat)
  | ending (b : Nat) (r : Except Str Unit) (e : Nat)
  | ended (b : Nat) (r : Except Str Unit) (e : Nat)

namespace TxPhase

/-- The promise of the BEGIN. -/
def beginPromise : TxPhase → Option Nat
  | .waiting => none
  | .beginning b | .refused b | .inside b | .ending b _ _ | .ended b _ _ => some b

/-- The promise of the COMMIT or ROLLBACK. -/
def endPromise : TxPhase → Option Nat
  | .ending _ _ e | .ended _ _ e => some e
  | _ => none

/-- The outcome of the callback. -/
def callbackResult : TxPhase → Option (Except Str Unit)
  | .ending _ r _ | .ended _ r _ => some r
  | _ => none

/-- The callback runs. -/
def isInside : TxPhase → Bool
  | .inside _ => true
  | _ => false

/-- The task runs. -/
def isActive : TxPhase → Bool
  | .beginning _ | .inside _ | .ending _ _ _ => true
  | _ => false

/-- The BEGIN was issued and what ends the transaction was not. -/
def isOpen : TxPhase → Bool
  | .beginning _ | .inside _ => true
  | _ => false

/-- A callback that runs has a BEGIN before it. -/
theorem exists_of_isInside {p : TxPhase} (h : p.isInside = true) : ∃ b, p = .inside b := by
  cases p with
  | inside b => exact ⟨b, rfl⟩
  | waiting | beginning b | refused b | ending b r e | ended b r e => cases h

/-- The task of an open transaction runs. -/
theorem isActive_of_isOpen {p : TxPhase} (h : p.isOpen = true) : p.isActive = true := by
  cases p with
  | beginning b | inside b => rfl
  | waiting | refused b | ending b r e | ended b r e => cases h

end TxPhase

/-- A result that is no error is a value. -/
theorem exists_of_isOk {α ε : Type*} {r : Except ε α} (h : r.isOk = true) : ∃ v, r = .ok v := by
  cases r with
  | ok v => exact ⟨v, rfl⟩
  | error e => cases h

section Parameters

variable [WaSqlite]

/-- The task of `exec` without bindings. -/
abbrev execTask (sql : Str) : Task :=
  .statements sql false none

/-- The text of the statement that a transaction ends with. -/
def endText : Except Str Unit → Str
  | .ok () => "COMMIT".toList
  | .error _ => "ROLLBACK".toList

/-- A use of the connection: the task of a call, a step of `iterate`, or the reset at its
end. -/
inductive Use where
  | task (t : Task)
  | next (s : StmtObject)
  | reset (s : StmtObject)

def Use.perform : Use → Action Result
  | .task t => t.perform
  | .next s => do
      match ← api fun db => firstRow (WaSqlite.steps s.base db) with
      | some row => pure (.row row)
      | none => pure .null
  | .reset s => do
      let code ← api (WaSqlite.reset s.base)
      pure (.code code)

/-- A task that was added to the queue of statements. -/
structure Issued where
  issuer : Issuer
  task : Task

/-- A use of the connection that has taken place, with the call whose task it is; `iterate`
does not wait for the queue. -/
structure Executed where
  call : Option Nat
  issuer : Issuer
  use : Use
  before : World
  after : World
  result : Except Str Result

/-- A `DB` with `queue` and `txQueue`.  Promises are numbered by the calls of `add` that they
were made for; `requests` is what the callbacks asked for. -/
structure Transactions where
  world : World
  queue : PromiseJobs Result Str
  txQueue : PromiseJobs Unit Str
  cache : List (Str × Nat)
  handlers : List (Nat × Str)
  issued : List Issued
  requests : List (Nat × Use)
  executions : List Executed
  phase : Nat → TxPhase

/-- What happens next: a call from outside or of a callback, a step of `iterate`, a call of
`transaction`, the end of a callback; a job of one of the queues, the end of a statement, the
`finally` handler of a promise, and a transaction that goes on behind an `await`. -/
inductive TxEvent where
  | call (c : Call)
  | iterate (stmt : StmtObject) (done : Bool)
  | transaction
  | bodyCall (t : Nat) (c : Call)
  | bodyIterate (t : Nat) (stmt : StmtObject) (done : Bool)
  | callbackEnds (t : Nat) (r : Except Str Unit)
  | transactionJob (t : Nat)
  | statementJob (n : Nat)
  | statementEnds (n : Nat)
  | handler (promise : Nat)
  | resume (t : Nat)

namespace Transactions

/-- A wrapper without calls. -/
def new (world : World) : Transactions :=
  ⟨world, .new, .new, [], [], [], [], [], fun _ => .waiting⟩

/-- How a promise of the queue of statements is settled. -/
def outcome (s : Transactions) (promise : Nat) : Option (Except Str Result) :=
  match s.queue.calls[promise]?.map AddCall.phase with
  | some (.settled r) => some r
  | _ => none

/-- The promise that is in the cache for a call. -/
def existing (c : Call) (s : Transactions) : Option Nat :=
  (c.key s.world.mode).bind fun key => s.cache.lookup key

/-- The end of `serialize`. -/
def enqueue (issuer : Issuer) (c : Call) (task : Task) (s : Transactions) : Transactions :=
  let promise := s.queue.calls.length
  let s' := { s with
    queue := s.queue.add
    issued := s.issued ++ [⟨issuer, task⟩] }
  match c.key s.world.mode with
  | none => { s' with cache := [] }
  | some [] => s'
  | some key => { s' with
      cache := s.cache ++ [(key, promise)]
      handlers := s.handlers ++ [(promise, key)] }

/-- `serialize`, with the promise that it returns. -/
def serialize (issuer : Issuer) (c : Call) (task : Task) (s : Transactions) : Transactions × Nat :=
  match s.existing c with
  | some promise => (s, promise)
  | none => (s.enqueue issuer c task, s.queue.calls.length)

/-- A call of `DB` or `Stmt`. -/
def call (issuer : Issuer) (c : Call) (s : Transactions) : Transactions :=
  match c.task with
  | none => { s with world := (c.now s.world).2 }
  | some task => (s.serialize issuer c task).1

/-- `exec` without bindings. -/
def exec (issuer : Issuer) (sql : Str) (s : Transactions) : Transactions × Nat :=
  s.serialize issuer (.exec sql none) (execTask sql)

def setPhase (t : Nat) (p : TxPhase) (s : Transactions) : Transactions :=
  { s with phase := Function.update s.phase t p }

/-- The connection is used. -/
def execute (call : Option Nat) (issuer : Issuer) (use : Use) (s : Transactions) : Transactions :=
  { s with
    world := (use.perform s.world).2
    executions := s.executions ++
      [⟨call, issuer, use, s.world, (use.perform s.world).2, (use.perform s.world).1⟩] }

/-- What `iterate` does: it steps its statement, and resets it at the end. -/
def iterateUse (stmt : StmtObject) (done : Bool) : Use :=
  if done then .reset stmt else .next stmt

/-- A callback asks for uses of the connection. -/
def request (t : Nat) (uses : List Use) (s : Transactions) : Transactions :=
  { s with requests := s.requests ++ uses.map (t, ·) }

/-- A call of the callback of a transaction. -/
def bodyCall (t : Nat) (c : Call) (s : Transactions) : Transactions :=
  if (s.phase t).isInside then (s.request t (c.task.toList.map Use.task)).call (.body t) c else s

/-- A step of `iterate` in the callback of a transaction. -/
def bodyIterate (t : Nat) (stmt : StmtObject) (done : Bool) (s : Transactions) : Transactions :=
  if (s.phase t).isInside then
    (s.request t [iterateUse stmt done]).execute none (.body t) (iterateUse stmt done)
  else s

/-- The callback of a transaction is done. -/
def callbackEnds (t : Nat) (r : Except Str Unit) (s : Transactions) : Transactions :=
  match s.phase t with
  | .inside b =>
      let (s', e) := s.exec (.ends t) (endText r)
      s'.setPhase t (.ending b r e)
  | _ => s

/-- A job of the queue of transactions, which may begin a transaction. -/
def transactionJob (t : Nat) (s : Transactions) : Transactions :=
  let s' := { s with txQueue := s.txQueue.job t }
  if s.txQueue.begins t then
    let (s'', b) := s'.exec (.begins t) "BEGIN".toList
    s''.setPhase t (.beginning b)
  else s'

/-- A job of the queue of statements, which may begin a statement. -/
def statementJob (n : Nat) (s : Transactions) : Transactions :=
  let s' := { s with queue := s.queue.job n }
  if s.queue.begins n then
    match s.issued[n]? with
    | none => s'
    | some i => s'.execute (some n) i.issuer (.task i.task)
  else s'

/-- A statement that has begun comes to its end. -/
def statementEnds (n : Nat) (s : Transactions) : Transactions :=
  match s.executions.find? fun x => x.call = some n with
  | none => s
  | some x => { s with queue := s.queue.taskEnds n x.result }

/-- A result as that of a task without one. -/
def discard (r : Except Str Result) : Except Str Unit :=
  r.map fun _ => ()

/-- A transaction goes on when the promise that it waits for is settled.  Where its callback
failed and the ROLLBACK did not, its task returns. -/
def resume (t : Nat) (s : Transactions) : Transactions :=
  match s.phase t with
  | .beginning b =>
      match s.outcome b with
      | some (.ok _) => s.setPhase t (.inside b)
      | some (.error e) =>
          { s.setPhase t (.refused b) with txQueue := s.txQueue.taskEnds t (.error e) }
      | none => s
  | .ending b r e =>
      match s.outcome e with
      | some o => { s.setPhase t (.ended b r e) with txQueue := s.txQueue.taskEnds t (discard o) }
      | none => s
  | _ => s

/-- `res.finally(() => cache.delete(key))`, once the promise is settled. -/
def runHandler (promise : Nat) (s : Transactions) : Transactions :=
  match s.outcome promise, s.handlers.lookup promise with
  | some _, some key => { s with
      cache := s.cache.filter fun entry => entry.1 ≠ key
      handlers := s.handlers.filter fun h => h.1 ≠ promise }
  | _, _ => s

def step (s : Transactions) : TxEvent → Transactions
  | .call c => s.call .outside c
  | .iterate stmt done => s.execute none .outside (iterateUse stmt done)
  | .transaction => { s with txQueue := s.txQueue.add }
  | .bodyCall t c => s.bodyCall t c
  | .bodyIterate t stmt done => s.bodyIterate t stmt done
  | .callbackEnds t r => s.callbackEnds t r
  | .transactionJob t => s.transactionJob t
  | .statementJob n => s.statementJob n
  | .statementEnds n => s.statementEnds n
  | .handler promise => s.runHandler promise
  | .resume t => s.resume t

/-! ## Fields -/

/-- An outcome is that of a settled promise. -/
theorem outcome_eq_some {s : Transactions} {n : Nat} {o : Except Str Result} :
    s.outcome n = some o ↔ s.queue.Settled n o := by
  unfold outcome PromiseJobs.Settled PromiseJobs.At
  constructor
  · intro h
    split at h
    next r hphase =>
      obtain ⟨c, hc, hp⟩ := Option.map_eq_some_iff.mp hphase
      exact ⟨c, hc, hp.trans (by rw [Option.some.inj h])⟩
    next => cases h
  · rintro ⟨c, hc, hphase⟩
    rw [hc, Option.map_some, hphase]

/-- Whose task the `n`-th one of the queue is. -/
def issuer (s : Transactions) (n : Nat) : Option Issuer :=
  s.issued[n]?.map Issued.issuer

/-- The `n`-th task is one of a transaction. -/
def Owned (s : Transactions) (n : Nat) : Prop :=
  ∃ i, s.issuer n = some i ∧ i ≠ .outside

/-- A call at the end of the queue. -/
def push (issuer : Issuer) (task : Task) (s : Transactions) : Transactions :=
  { s with
    queue := s.queue.add
    issued := s.issued ++ [⟨issuer, task⟩] }

/-- Apart from the cache, `enqueue` puts a call at the end of the queue. -/
theorem enqueue_eq (i : Issuer) (c : Call) (task : Task) (s : Transactions) :
    ∃ cache handlers, s.enqueue i c task =
      { s.push i task with cache := cache, handlers := handlers } := by
  unfold enqueue
  dsimp only
  split
  · exact ⟨_, _, rfl⟩
  · exact ⟨_, _, rfl⟩
  · exact ⟨_, _, rfl⟩

/-- Where no promise is cached a call is put at the end of the queue. -/
theorem serialize_eq {i : Issuer} {c : Call} {s : Transactions} (h : s.existing c = none)
    (task : Task) : ∃ cache handlers, s.serialize i c task =
      ({ s.push i task with cache := cache, handlers := handlers }, s.queue.calls.length) := by
  obtain ⟨cache, handlers, heq⟩ := enqueue_eq i c task s
  exact ⟨cache, handlers, by rw [serialize, h, heq]⟩

/-- The tasks with an issuer are in the queue. -/
theorem issuer_lt {s : Transactions} {n : Nat} {i : Issuer} (h : s.issuer n = some i) :
    n < s.issued.length := by
  obtain ⟨x, hx, -⟩ := Option.map_eq_some_iff.mp h
  exact (List.getElem?_eq_some_iff.mp hx).1

/-- A call at the end has its issuer, and the others have theirs. -/
theorem issuer_push {s : Transactions} {i : Issuer} {task : Task} {n : Nat} {j : Issuer} :
    (s.push i task).issuer n = some j ↔ s.issuer n = some j ∨ n = s.issued.length ∧ j = i := by
  unfold issuer push
  rcases Nat.lt_trichotomy n s.issued.length with hlt | rfl | hgt
  · rw [List.getElem?_append_left hlt]
    exact (or_iff_left fun h => absurd h.1 (Nat.ne_of_lt hlt)).symm
  · simp [eq_comm]
  · have hnone : (s.issued ++ [Issued.mk i task])[n]? = none :=
      List.getElem?_eq_none (by rw [List.length_append, List.length_singleton]; omega)
    rw [hnone, List.getElem?_eq_none (Nat.le_of_lt hgt)]
    exact (or_iff_left fun h => Nat.ne_of_gt hgt h.1).symm

@[simp]
theorem phase_setPhase_self (t : Nat) (p : TxPhase) (s : Transactions) :
    (s.setPhase t p).phase t = p :=
  Function.update_self ..

/-- The phase of the others. -/
theorem phase_setPhase_of_ne {t u : Nat} (h : u ≠ t) (p : TxPhase) (s : Transactions) :
    (s.setPhase t p).phase u = s.phase u :=
  Function.update_of_ne h ..

/-! ## The queue of transactions -/

/-- What the task of a transaction ends with: the error of its BEGIN, or the outcome of its
COMMIT or ROLLBACK, whatever its callback did. -/
def EndsWith (s : Transactions) (t : Nat) (r : Except Str Unit) : Prop :=
  (∃ b e, s.phase t = .refused b ∧ s.outcome b = some (.error e) ∧ r = .error e) ∨
    ∃ b c n o, s.phase t = .ended b c n ∧ s.outcome n = some o ∧ r = discard o

/-- The tasks of the transactions: one runs at a time, and those that ended did so with the error
of their BEGIN or with the outcome of their COMMIT or ROLLBACK. -/
structure Tasks (s : Transactions) : Prop where
  linked : s.txQueue.Linked
  logged : s.txQueue.Logged
  active_iff : ∀ t, s.txQueue.Running t ↔ (s.phase t).isActive = true
  waiting : ∀ t, t ∉ s.txQueue.started → s.phase t = .waiting
  ended : ∀ t r, (t, r) ∈ s.txQueue.ended → s.EndsWith t r

section Tasks

variable {s s' : Transactions}

/-- What a task ended with depends on its phase and on the promises. -/
theorem EndsWith.congr {t : Nat} {r : Except Str Unit} (h : s.EndsWith t r)
    (hphase : s'.phase t = s.phase t)
    (houtcome : ∀ n o, s.outcome n = some o → s'.outcome n = some o) : s'.EndsWith t r := by
  rcases h with ⟨b, e, hb, ho, hr⟩ | ⟨b, c, n, o, hb, ho, hr⟩
  · exact Or.inl ⟨b, e, hphase.trans hb, houtcome b _ ho, hr⟩
  · exact Or.inr ⟨b, c, n, o, hphase.trans hb, houtcome n o ho, hr⟩

/-- A task that has ended is neither waiting nor active. -/
theorem EndsWith.phase_ne {t : Nat} {r : Except Str Unit} (h : s.EndsWith t r) :
    s.phase t ≠ .waiting ∧ (s.phase t).isActive = false := by
  rcases h with ⟨b, e, hb, -⟩ | ⟨b, c, n, o, hb, -⟩ <;> rw [hb] <;>
    exact ⟨TxPhase.noConfusion, rfl⟩

/-- What is settled stays settled. -/
theorem outcome_mono (h : ∀ {n r}, s.queue.Settled n r → s'.queue.Settled n r) {n : Nat}
    {o : Except Str Result} (ho : s.outcome n = some o) : s'.outcome n = some o :=
  outcome_eq_some.mpr (h (outcome_eq_some.mp ho))

/-- The tasks depend on their queue, the phases and the promises. -/
theorem Tasks.congr (h : s.Tasks) (htx : s'.txQueue = s.txQueue) (hphase : s'.phase = s.phase)
    (houtcome : ∀ n o, s.outcome n = some o → s'.outcome n = some o) : s'.Tasks := by
  obtain ⟨hlinked, hlogged, hactive, hwaiting, hended⟩ := h
  refine ⟨htx ▸ hlinked, htx ▸ hlogged, by rwa [htx, hphase], by rwa [htx, hphase],
    fun t r hr => ?_⟩
  rw [htx] at hr
  exact (hended t r hr).congr (congrFun hphase t) houtcome

/-- Nothing has been called to begin with. -/
theorem tasks_new (world : World) : (new world).Tasks where
  linked := PromiseJobs.linked_new
  logged := PromiseJobs.logged_new
  active_iff t := by
    simp [new, PromiseJobs.new, PromiseJobs.Running, PromiseJobs.At, TxPhase.isActive]
  waiting _ _ := rfl
  ended t r hr := by simp [new, PromiseJobs.new] at hr

/-- One transaction is active at a time. -/
theorem Tasks.active_unique (h : s.Tasks) {t u : Nat} (ht : (s.phase t).isActive = true)
    (hu : (s.phase u).isActive = true) : t = u :=
  h.logged.running_unique h.linked ((h.active_iff t).mpr ht) ((h.active_iff u).mpr hu)

/-- When a transaction begins no other one is active. -/
theorem Tasks.not_active_of_begins (h : s.Tasks) {t : Nat} (hbegins : s.txQueue.begins t = true) :
    s.phase t = .waiting ∧ ∀ u, (s.phase u).isActive = false := by
  obtain ⟨hlinked, hlogged⟩ := PromiseJobs.invariant_step ⟨h.linked, h.logged⟩ (.job t)
  have hjob := ((s.txQueue.job_spec t).resolve_right fun hb => by simp [hb.1] at hbegins).2
  have hsorted := hlogged.sorted
  rw [PromiseJobs.step, hjob.started] at hsorted
  have hnot : t ∉ s.txQueue.started := fun ht => Nat.lt_irrefl t
    ((List.pairwise_append.mp hsorted).2.2 t ht t (List.mem_singleton_self t))
  have hwaiting := h.waiting t hnot
  refine ⟨hwaiting, fun u => eq_false_of_ne_true fun hu => ?_⟩
  obtain rfl := hlogged.running_unique hlinked ((hjob.running u).mpr (Or.inr
    ((h.active_iff u).mpr hu))) ((hjob.running t).mpr (Or.inl rfl))
  rw [hwaiting] at hu
  cases hu

/-- While the callback of a transaction runs no other one awaits calls. -/
theorem Tasks.body_of_open (htasks : s.Tasks) {t : Nat} (hinside : (s.phase t).isInside = true) (u : Nat)
    (hu : (s.phase u).isOpen = true) : u = t := by
  obtain ⟨b, hb⟩ := TxPhase.exists_of_isInside hinside
  exact htasks.active_unique (TxPhase.isActive_of_isOpen hu) (by rw [hb]; rfl)

/-- A new task waits. -/
theorem Tasks.add (h : s.Tasks) : Tasks { s with txQueue := s.txQueue.add } where
  linked := h.linked.add
  logged := h.logged.add
  active_iff t := (s.txQueue.running_add t).trans (h.active_iff t)
  waiting := h.waiting
  ended := h.ended

/-- A job that begins no transaction. -/
theorem Tasks.job (h : s.Tasks) {t : Nat} (hbegins : s.txQueue.begins t = false) :
    Tasks { s with txQueue := s.txQueue.job t } := by
  obtain ⟨hlinked, hlogged⟩ := PromiseJobs.invariant_step ⟨h.linked, h.logged⟩ (.job t)
  have hhands := ((s.txQueue.job_spec t).resolve_left fun hb => by simp [hb.1] at hbegins).2.1
  exact ⟨hlinked, hlogged, fun u => (hhands.running u).trans (h.active_iff u),
    fun u hu => h.waiting u (hhands.started ▸ hu), fun u r hr => h.ended u r (hhands.ended ▸ hr)⟩

/-- A job that begins a transaction. -/
theorem Tasks.begin (h : s.Tasks) {t : Nat} (hbegins : s.txQueue.begins t = true) (b : Nat) :
    Tasks (setPhase t (.beginning b) { s with txQueue := s.txQueue.job t }) := by
  obtain ⟨hlinked, hlogged⟩ := PromiseJobs.invariant_step ⟨h.linked, h.logged⟩ (.job t)
  have hjob := ((s.txQueue.job_spec t).resolve_right fun hb => by simp [hb.1] at hbegins).2
  have hwaiting := (h.not_active_of_begins hbegins).1
  refine ⟨hlinked, hlogged, fun u => (hjob.running u).trans ?_, fun u hu => ?_, fun u r hr => ?_⟩
  · by_cases hu : u = t
    · rw [hu, phase_setPhase_self]
      exact iff_of_true (Or.inl rfl) rfl
    · rw [phase_setPhase_of_ne hu, or_iff_right hu]
      exact h.active_iff u
  · change u ∉ (s.txQueue.job t).started at hu
    rw [hjob.started, List.mem_append, not_or] at hu
    rw [phase_setPhase_of_ne fun heq => hu.2 (List.mem_singleton.mpr heq)]
    exact h.waiting u hu.1
  · have hu := h.ended u r (hjob.ended ▸ hr)
    have hne : u ≠ t := by
      rintro rfl
      exact hu.phase_ne.1 hwaiting
    exact hu.congr (phase_setPhase_of_ne hne _ _) fun _ _ => id

/-- A transaction goes on within its task. -/
theorem Tasks.of_phase (h : s.Tasks) {t : Nat} (hactive : (s.phase t).isActive = true)
    {p : TxPhase} (hp : p.isActive = true) : (s.setPhase t p).Tasks := by
  refine ⟨h.linked, h.logged, fun u => ?_, fun u hu => ?_, fun u r hr => ?_⟩
  · by_cases hu : u = t
    · rw [hu, phase_setPhase_self]
      exact iff_of_true ((h.active_iff t).mpr hactive) hp
    · rw [phase_setPhase_of_ne hu]
      exact h.active_iff u
  · have hwaiting := h.waiting u hu
    have hne : u ≠ t := by
      rintro rfl
      rw [hwaiting] at hactive
      cases hactive
    rw [phase_setPhase_of_ne hne, hwaiting]
  · have hu := h.ended u r hr
    have hne : u ≠ t := by
      rintro rfl
      rw [hu.phase_ne.2] at hactive
      cases hactive
    exact hu.congr (phase_setPhase_of_ne hne _ _) fun _ _ => id

/-- The task of a transaction ends. -/
theorem Tasks.leave (h : s.Tasks) {t : Nat} (hactive : (s.phase t).isActive = true) {p : TxPhase}
    (hp : p.isActive = false) {r : Except Str Unit} (hends : (s.setPhase t p).EndsWith t r) :
    Tasks { s.setPhase t p with txQueue := s.txQueue.taskEnds t r } := by
  obtain ⟨hlinked, hlogged⟩ := PromiseJobs.invariant_step ⟨h.linked, h.logged⟩ (.taskEnds t r)
  have hend := PromiseJobs.taskEnds_spec ((h.active_iff t).mpr hactive) r
  refine ⟨hlinked, hlogged, fun u => (hend.running u).trans ?_, fun u hu => ?_,
    fun u r' hr => ?_⟩
  · by_cases hu : u = t
    · rw [hu, show (s.setPhase t p).phase t = _ from phase_setPhase_self .., hp]
      exact iff_of_false (fun h => h.1 rfl) Bool.false_ne_true
    · rw [and_iff_right hu, show (s.setPhase t p).phase u = _ from phase_setPhase_of_ne hu ..]
      exact h.active_iff u
  · have hwaiting := h.waiting u (hend.started ▸ hu)
    have hne : u ≠ t := by
      rintro rfl
      rw [hwaiting] at hactive
      cases hactive
    exact (phase_setPhase_of_ne hne _ _).trans hwaiting
  · have hr : (u, r') ∈ s.txQueue.ended ++ [(t, r)] := hend.ended ▸ hr
    rcases List.mem_append.mp hr with hr | hr
    · have hu := h.ended u r' hr
      have hne : u ≠ t := by
        rintro rfl
        rw [hu.phase_ne.2] at hactive
        cases hactive
      exact hu.congr (phase_setPhase_of_ne hne _ _) fun _ _ => id
    · obtain ⟨rfl, rfl⟩ := Prod.mk.inj (List.mem_singleton.mp hr)
      exact hends

/-- `serialize` leaves the transactions where they are and settles nothing. -/
theorem serialize_keeps (i : Issuer) (c : Call) (task : Task) (s : Transactions) :
    (s.serialize i c task).1.txQueue = s.txQueue ∧ (s.serialize i c task).1.phase = s.phase ∧
      ∀ n o, s.outcome n = some o → (s.serialize i c task).1.outcome n = some o := by
  cases hexisting : s.existing c with
  | some promise =>
      rw [serialize, hexisting]
      exact ⟨rfl, rfl, fun _ _ => id⟩
  | none =>
      obtain ⟨cache, handlers, heq⟩ := serialize_eq (i := i) hexisting task
      rw [heq]
      exact ⟨rfl, rfl, fun _ _ => outcome_mono PromiseJobs.settled_add⟩

/-- A call of a statement leaves the tasks alone. -/
theorem Tasks.serialize (h : s.Tasks) (i : Issuer) (c : Call) (task : Task) :
    (s.serialize i c task).1.Tasks :=
  h.congr (serialize_keeps i c task s).1 (serialize_keeps i c task s).2.1
    (serialize_keeps i c task s).2.2

/-- So does every call. -/
theorem Tasks.call (h : s.Tasks) (i : Issuer) (c : Call) : (s.call i c).Tasks := by
  unfold Transactions.call
  split
  · exact h.congr rfl rfl fun _ _ => id
  · exact h.serialize i c _

/-- Every step keeps this, also one that disturbs a transaction. -/
theorem Tasks.step (h : s.Tasks) (event : TxEvent) : (s.step event).Tasks := by
  cases event with
  | call c => exact h.call _ c
  | iterate stmt done => exact h.congr rfl rfl fun _ _ => id
  | transaction => exact h.add
  | bodyCall t c =>
      rw [Transactions.step, bodyCall]
      split
      · have hrequest : (s.request t (c.task.toList.map Use.task)).Tasks :=
          h.congr rfl rfl fun _ _ => id
        exact hrequest.call _ c
      · exact h
  | bodyIterate t stmt done =>
      rw [Transactions.step, bodyIterate]
      split
      · exact h.congr rfl rfl fun _ _ => id
      · exact h
  | callbackEnds t r =>
      rw [Transactions.step, callbackEnds]
      split
      next b hphase =>
        have hkeeps := serialize_keeps (.ends t) (.exec (endText r) none) (execTask (endText r)) s
        have htasks := h.serialize (.ends t) (.exec (endText r) none) (execTask (endText r))
        exact htasks.of_phase (by rw [hkeeps.2.1, hphase]; rfl) rfl
      next => exact h
  | transactionJob t =>
      rw [Transactions.step, transactionJob]
      cases hbegins : s.txQueue.begins t with
      | false => exact h.job hbegins
      | true =>
          obtain ⟨htx, hphase, houtcome⟩ := serialize_keeps (.begins t) (.exec "BEGIN".toList none)
            (execTask "BEGIN".toList) { s with txQueue := s.txQueue.job t }
          refine (h.begin hbegins (Transactions.serialize (.begins t) (.exec "BEGIN".toList none)
            (execTask "BEGIN".toList) { s with txQueue := s.txQueue.job t }).2).congr htx ?_ houtcome
          exact congrArg (Function.update · t _) hphase
  | statementJob n =>
      have hkeeps {m : Nat} {o : Except Str Result} (hm : s.queue.Settled m o) :
          (s.queue.job n).Settled m o := by
        rcases s.queue.job_spec n with ⟨-, hjob⟩ | ⟨-, hhands, -⟩
        · exact hjob.settled hm
        · exact hhands.settled hm
      rw [Transactions.step, statementJob]
      split
      · split
        · exact h.congr rfl rfl fun _ _ => outcome_mono hkeeps
        · exact h.congr rfl rfl fun _ _ => outcome_mono hkeeps
      · exact h.congr rfl rfl fun _ _ => outcome_mono hkeeps
  | statementEnds n =>
      rw [Transactions.step, statementEnds]
      split
      · exact h
      next x hx =>
        refine h.congr rfl rfl fun _ _ => outcome_mono fun {m r} hm => ?_
        by_cases hrun : s.queue.Running n
        · exact (PromiseJobs.taskEnds_spec hrun x.result).settled hm
        · change (s.queue.taskEnds n x.result).Settled m r
          rwa [PromiseJobs.taskEnds_of_not_running hrun]
  | handler promise =>
      rw [Transactions.step, runHandler]
      split
      · exact h.congr rfl rfl fun _ _ => id
      · exact h
  | resume t =>
      rw [Transactions.step, resume]
      split
      next b hphase =>
        have hactive : (s.phase t).isActive = true := by rw [hphase]; rfl
        split
        · exact h.of_phase hactive rfl
        next e ho =>
          exact h.leave hactive rfl (Or.inl ⟨b, e, phase_setPhase_self .., ho, rfl⟩)
        · exact h
      next b r n hphase =>
        have hactive : (s.phase t).isActive = true := by rw [hphase]; rfl
        split
        next o ho =>
          exact h.leave hactive rfl (Or.inr ⟨b, r, n, o, phase_setPhase_self .., ho, rfl⟩)
        · exact h
      · exact h

/-- What a step does to the queue of transactions. -/
theorem txQueue_step (s : Transactions) (event : TxEvent) :
    (s.step event).txQueue = s.txQueue ∨ (s.step event).txQueue = s.txQueue.add ∨
      (∃ t, event = .transactionJob t ∧ (s.step event).txQueue = s.txQueue.job t) ∨
      ∃ t r, (s.step event).txQueue = s.txQueue.taskEnds t r := by
  have hcall (q : Transactions) (i : Issuer) (c : Call) : (q.call i c).txQueue = q.txQueue := by
    unfold call
    split
    · rfl
    · exact (serialize_keeps ..).1
  cases event with
  | call c => exact Or.inl (hcall s _ c)
  | iterate stmt done => exact Or.inl rfl
  | transaction => exact Or.inr (Or.inl rfl)
  | bodyCall t c =>
      rw [step, bodyCall]
      split
      · exact Or.inl (hcall _ _ c)
      · exact Or.inl rfl
  | bodyIterate t stmt done =>
      rw [step, bodyIterate]
      split <;> exact Or.inl rfl
  | callbackEnds t r =>
      rw [step, callbackEnds]
      split
      · exact Or.inl (serialize_keeps (.ends t) (.exec (endText r) none) (execTask (endText r)) s).1
      · exact Or.inl rfl
  | transactionJob t =>
      refine Or.inr (Or.inr (Or.inl ⟨t, rfl, ?_⟩))
      rw [step, transactionJob]
      split
      · exact (serialize_keeps (.begins t) (.exec "BEGIN".toList none) (execTask "BEGIN".toList)
          { s with txQueue := s.txQueue.job t }).1
      · rfl
  | statementJob n =>
      rw [step, statementJob]
      split
      · split <;> exact Or.inl rfl
      · exact Or.inl rfl
  | statementEnds n =>
      rw [step, statementEnds]
      split <;> exact Or.inl rfl
  | handler promise =>
      rw [step, runHandler]
      split <;> exact Or.inl rfl
  | resume t =>
      rw [step, resume]
      split
      · split
        · exact Or.inl rfl
        · exact Or.inr (Or.inr (Or.inr ⟨t, _, rfl⟩))
        · exact Or.inl rfl
      · split
        · exact Or.inr (Or.inr (Or.inr ⟨t, _, rfl⟩))
        · exact Or.inl rfl
      · exact Or.inl rfl

end Tasks

/-! ## Runs -/

/-- What holds of the transactions in every run: one is active at a time, they begin in the order
of their calls, and a promise is settled with what its task ended with, or with the error that an
earlier one ended with. -/
structure Serialised (s : Transactions) : Prop where
  active_unique : ∀ t u, (s.phase t).isActive = true → (s.phase u).isActive = true → t = u
  in_order : s.txQueue.started.Pairwise (· < ·)
  settled : ∀ t r, s.txQueue.Settled t r → (t ∈ s.txQueue.started ∧ s.EndsWith t r) ∨
    (t ∉ s.txQueue.started ∧ ∃ k < t, ∃ e, s.EndsWith k (.error e) ∧ r = .error e)

/-- However the calls, the jobs of the queues and the ends of the statements take turns, the
transactions come one after the other. -/
theorem serialised (world : World) (events : List TxEvent) :
    (Run.exec step (new world) events).Serialised := by
  have h := Run.invariant Tasks (fun _ event h (_ : True) => h.step event) (tasks_new world)
    (Run.allowed_of_forall (fun _ _ => trivial) (new world) events)
  refine ⟨fun t u => h.active_unique, h.logged.sorted, fun t r hr => ?_⟩
  rcases h.logged.outcome hr with ⟨hstarted, hended⟩ | ⟨hnot, k, hk, e, hended, hr⟩
  · exact Or.inl ⟨hstarted, h.ended t r hended⟩
  · exact Or.inr ⟨hnot, k, hk, e, h.ended k _ hended, hr⟩

end Transactions

end Parameters

end CrSqlite
