import CrSqlite.Wrapper
import Mathlib.Data.List.Forall2

/-!
# QueryCache - calls that share a promise

A call whose key is in the cache of the wrapper gets the promise that is there.  The cache
should not be noticed: the results of all calls and the database should be what they are
without it, and only calls of the same read-only statement should share a promise.  The key
leaves out the case of the statement, the prepared statement and what was bound to it
before, calls of different methods have the same key, and not every write is recognised.

Main results:

- Theorem {lit}`sim_step`: a step of the wrapper is one of the wrapper without a cache, up
  to the turns of the calls that were answered from the cache.
- Theorem {lit}`cache_transparent`: in every run whose calls share harmlessly the cache is
  not noticed.
-/

namespace CrSqlite

/-! ## Chains beside chains -/

section Pairs

variable {α β : Type*} {R S : α → β → Prop} {l : List α} {l' : List β}

/-- Related lists have related elements. -/
private theorem forall₂_get (h : List.Forall₂ R l l') {i : Nat} {a : α} (ha : l[i]? = some a) :
    ∃ b, l'[i]? = some b ∧ R a b := by
  induction h generalizing i with
  | nil => cases ha
  | cons hr _ ih =>
      cases i with
      | zero =>
          obtain rfl := Option.some.inj ha
          exact ⟨_, rfl, hr⟩
      | succ i => exact ih ha

/-- Lists that are modified at one place stay related. -/
private theorem forall₂_modify (h : List.Forall₂ R l l') (i : Nat) {f : α → α} {g : β → β}
    (hne : ∀ j a b, j ≠ i → l[j]? = some a → R a b → S a b)
    (heq : ∀ a b, l[i]? = some a → R a b → S (f a) (g b)) :
    List.Forall₂ S (l.modify i f) (l'.modify i g) := by
  induction h generalizing i with
  | nil => simp
  | cons hr hrest ih =>
      cases i with
      | zero =>
          rw [List.modify_zero_cons, List.modify_zero_cons]
          refine .cons (heq _ _ rfl hr) ?_
          rw [List.forall₂_iff_get]
          refine ⟨hrest.length_eq, fun j hj hj' => ?_⟩
          exact hne (j + 1) _ _ (Nat.succ_ne_zero j) (List.getElem?_eq_getElem hj)
            (hrest.get hj hj')
      | succ i =>
          rw [List.modify_succ_cons, List.modify_succ_cons]
          exact .cons (hne 0 _ _ (Nat.succ_ne_zero i).symm rfl hr)
            (ih i (fun j a b hj => hne (j + 1) a b fun h => hj (Nat.succ.inj h)) heq)

end Pairs

section Sharing

variable [WaSqlite]

namespace Wrapper

/-! ## Harmless sharing -/

/-- The tasks of the newest chain. -/
def waiting (w : Wrapper) : List (QueueEntry Task) :=
  match w.queue.chains with
  | [] => []
  | ch :: _ => ch.entries

/-- A call may get a promise made for the same task that is still to run, or that ran in
the present state and left it as it was. -/
structure Sharable (w : Wrapper) (c : Call) (p : Nat) : Prop where
  same : ∃ d, w.callOf p = some d ∧ d.task = c.task
  current : p ∈ w.waiting.map QueueEntry.promise ∨
    ∃ r ∈ w.ran, r.promise = p ∧ r.before = w.world ∧ r.after = w.world ∧
      ∃ v, w.outcome p = some (.ok v)

/-- The regular expression takes the text of a call for a write if it is one. -/
def Recognised (c : Call) : Prop :=
  WaSqlite.readOnly c.sql = true ∨ matchesWrite (WaSqlite.toLowerCase c.sql) = true

/-- Call `m` was made behind the pending promise `t` and got the promise `p`, which is `t`
or has run. -/
def Behind (w : Wrapper) (t m p : Nat) : Prop :=
  w.promiseOf m = some p ∧ p ≠ m ∧ t < m ∧ (p = t ∨ w.outcome p ≠ none)

/-- A step does not show the cache: a call whose key is in the cache may be answered from it
and is a recognised write if it is a write, and between the turn of the promise a call got
and its own turn nothing fails or changes the state. -/
def Harmless (w : Wrapper) : WrapperOp → Prop
  | .call c =>
      match c.task with
      | some _ => ∀ p, w.existing c = some p → w.Sharable c p ∧ Recognised c
      | none => (c.now w.world).2 = w.world ∨
          ∀ x ∈ w.waiting, ∀ m p, w.Behind x.promise m p → p = x.promise
  | .settle i => ∀ x, w.queue.head i = some (x, none) → ∀ m p, w.Behind x.promise m p →
      (∃ v, x.task.perform w.world = (.ok v, w.world)) ∨
      (p = x.promise ∧ ∃ e, (x.task.perform w.world).1 = .error e)
  | .handler _ => True

/-- A call that was answered from the cache got the promise of a call with the same task,
that is, of the same method with the same text or prepared statement, the same bindings and
the same shape of the result; and its statement does not write. -/
def SharesReads (w : Wrapper) : Prop :=
  ∀ n c p, w.calls[n]? = some (c, p) → p ≠ n →
    (∃ d, w.callOf p = some d ∧ d.task = c.task ∧ d.sql = c.sql) ∧
      WaSqlite.readOnly c.sql = true

/-- Only calls of one read-only statement share a promise, and the run of the wrapper is also
one without the cache: with the calls in the same places and with turns for all of them,
every result and the state are the same. -/
def Transparent (world : World) (ops : List WrapperOp) : Prop :=
  (Run.exec (step true) (new world) ops).SharesReads ∧ ∃ ops', ops.Sublist ops' ∧ (∀ n, (Run.exec (step false) (new world) ops').callOf n =
      (Run.exec (step true) (new world) ops).callOf n) ∧
    (Run.exec (step false) (new world) ops').world =
      (Run.exec (step true) (new world) ops).world ∧
    (∀ n o, (Run.exec (step false) (new world) ops').resultOf n = some o →
      (Run.exec (step true) (new world) ops).resultOf n = some o) ∧
    ((Run.exec (step true) (new world) ops).queue.pending = [] →
      ∀ n, (Run.exec (step false) (new world) ops').resultOf n =
        (Run.exec (step true) (new world) ops).resultOf n)

/-! ## The wrapper beside the one without a cache -/

/-- The promise `p` is settled by what a task behind a chain's error, or else a task in the
present state, would be settled by. -/
def Answers (c : Wrapper) (error : Option Str) (task : Task) (p : Nat) : Prop :=
  match error with
  | some e => c.outcome p = some (.error e)
  | none => ∃ v, c.outcome p = some (.ok v) ∧ task.perform c.world = (.ok v, c.world)

/-- The promise `p` that a call of a chain got from the cache. -/
structure SharedWith (c : Wrapper) (d : Chain Task Str) (x : QueueEntry Task) (p : Nat) :
    Prop where
  promise : c.promiseOf x.promise = some p
  lt : p < x.promise
  made : ∃ k, c.calls[p]? = some (k, p) ∧ k.task = some x.task
  answered : p ∈ d.entries.map QueueEntry.promise ∨ c.Answers d.error x.task p

/-- A chain without the cache and the one with it. -/
structure ChainSim (c : Wrapper) (d e : Chain Task Str) : Prop where
  error : e.error = d.error
  entries : e.entries = d.entries.filter fun x => c.promiseOf x.promise = some x.promise
  shared : ∀ x ∈ d.entries, c.promiseOf x.promise ≠ some x.promise →
    ∃ p, c.SharedWith d x p

/-- The wrapper `c` with the cache beside the wrapper `u` without. -/
structure Sim (c u : Wrapper) : Prop where
  wf : c.WF
  wf' : u.WF
  world : u.world = c.world
  calls : ∀ n, u.callOf n = c.callOf n
  length : u.calls.length = c.calls.length
  own : ∀ n < u.calls.length, u.promiseOf n = some n
  count : u.queue.exceptionCount = c.queue.exceptionCount
  chains : List.Forall₂ (ChainSim c) u.queue.chains c.queue.chains
  outcomes : ∀ n o, u.outcome n = some o → c.resultOf n = some o

/-- A call that was not answered from the cache has its own promise. -/
theorem promiseOf_of_made {w : Wrapper} {p : Nat} {k : Call} (h : w.calls[p]? = some (k, p)) :
    w.promiseOf p = some p := by
  rw [promiseOf, h]
  rfl

/-- A chain with one call more at its head that was answered from the cache. -/
theorem ChainSim.drop {c : Wrapper} {d e : Chain Task Str} {x : QueueEntry Task}
    {xs : List (QueueEntry Task)} (h : ChainSim c d e) (hd : d.entries = x :: xs)
    (hx : c.promiseOf x.promise ≠ some x.promise) : ChainSim c ⟨xs, d.error⟩ e where
  error := h.error
  entries := by
    rw [h.entries, hd, List.filter_cons_of_neg (by simpa using hx)]
  shared y hy hown := by
    obtain ⟨p, hp⟩ := h.shared y (hd ▸ List.mem_cons_of_mem x hy) hown
    obtain ⟨k, hk, -⟩ := hp.made
    refine ⟨p, hp.promise, hp.lt, hp.made, hp.answered.imp_left fun hmem => ?_⟩
    rw [hd, List.map_cons, List.mem_cons] at hmem
    rcases hmem with rfl | hmem
    · exact absurd (promiseOf_of_made hk) hx
    · exact hmem

/-- At the head of a chain the promise that a call shares is settled. -/
theorem SharedWith.answers_of_head {c : Wrapper} {d : Chain Task Str} {x : QueueEntry Task}
    {xs : List (QueueEntry Task)} {p : Nat} (h : c.SharedWith d x p) (hd : d.entries = x :: xs)
    (hsorted : d.entries.Pairwise fun x y => x.promise < y.promise) :
    c.Answers d.error x.task p := by
  rcases h.answered with hmem | hans
  · have hlt := h.lt
    rw [hd, List.map_cons, List.mem_cons] at hmem
    rcases hmem with rfl | hmem
    · exact absurd hlt (Nat.lt_irrefl _)
    · obtain ⟨y, hy, rfl⟩ := List.mem_map.mp hmem
      rw [hd, List.pairwise_cons] at hsorted
      exact absurd (hsorted.1 y hy) (Nat.lt_asymm hlt)
  · exact hans

/-- The chain of a promise at the head, and the chain beside it. -/
theorem Sim.chains_at {c u : Wrapper} (h : Sim c u) {i : Nat} {x : QueueEntry Task}
    {error : Option Str} (hx : u.queue.head i = some (x, error)) : ∃ d e,
    u.queue.chains[i]? = some d ∧ c.queue.chains[i]? = some e ∧ ChainSim c d e ∧
      d.entries.head? = some x ∧ d.error = error ∧
      d.entries.Pairwise fun x y => x.promise < y.promise := by
  obtain ⟨d, hd, hhead, herror⟩ := PromiseQueue.head_eq_some_iff.mp hx
  obtain ⟨e, he, hsim⟩ := forall₂_get h.chains hd
  exact ⟨d, e, hd, he, hsim, hhead, herror, h.wf'.sorted d (List.mem_of_getElem? hd)⟩

/-- The turn of a call that was answered from the cache is not noticed. -/
theorem sim_flush {c u : Wrapper} (h : Sim c u) {i : Nat} {x : QueueEntry Task}
    {error : Option Str} (hx : u.queue.head i = some (x, error))
    (hown : c.promiseOf x.promise ≠ some x.promise) : Sim c (u.settle i) := by
  obtain ⟨d, e, hd, he, hsim, hhead, herror, hsorted⟩ := h.chains_at hx
  obtain ⟨xs, hxs⟩ := List.head?_eq_some_iff.mp hhead
  obtain ⟨p, hp⟩ := hsim.shared x (hxs ▸ List.mem_cons_self) hown
  have hans := hp.answers_of_head hxs hsorted
  rw [herror] at hans
  -- the promise is settled by what the shared one was, and nothing else happens
  have hsettled : c.outcome p = some (u.settlement (x, error)).1 ∧
      (u.settlement (x, error)).2 = u.world ∧
      u.queue.settled i x (thrown (u.settlement (x, error)).1) = { u.queue with
        chains := u.queue.chains.modify i fun ch => ⟨ch.entries.tail, error⟩ } := by
    cases error with
    | some e => exact ⟨hans, rfl, PromiseQueue.settled_rejected h.wf'.serial hx⟩
    | none =>
        obtain ⟨v, hv, hperform⟩ := hans
        simp only [settlement, h.world, hperform]
        exact ⟨hv, trivial, PromiseQueue.settled_resolved u.queue i x⟩
  obtain ⟨hr, hsame, hqueue⟩ := hsettled
  rw [← settle_queue hx] at hqueue
  have hcalls := settle_calls hx
  exact {
    wf := h.wf
    wf' := h.wf'.settle i
    world := by rw [settle_world hx, hsame, h.world]
    calls := fun n => by
      rw [callOf, hcalls]
      exact h.calls n
    length := by rw [hcalls, h.length]
    own := fun n hn => by
      rw [promiseOf, hcalls]
      exact h.own n (hcalls ▸ hn)
    count := by rw [hqueue, h.count]
    chains := by
      rw [hqueue, ← List.modify_id i c.queue.chains]
      apply forall₂_modify h.chains i (fun j a b _ _ hab => hab)
      intro a b ha hab
      obtain rfl := Option.some.inj (hd.symm.trans ha)
      have := hab.drop hxs hown
      rw [herror] at this
      rw [hxs]
      exact this
    outcomes := by
      intro n o ho
      rw [settle_outcome hx, Option.or_eq_some_iff] at ho
      rcases ho with ho | ⟨-, ho⟩
      · exact h.outcomes n o ho
      · split_ifs at ho with hn
        rw [hn, resultOf, hp.promise, Option.bind_some, hr, ho] }

/-- Some turns of the wrapper without a cache bring a promise that both wrappers made to the
head of every chain. -/
theorem exists_flush {c u : Wrapper} (h : Sim c u) : ∃ ops : List WrapperOp,
    Sim c (Run.exec (step false) u ops) ∧
    ∀ i x error, (Run.exec (step false) u ops).queue.head i = some (x, error) →
      c.promiseOf x.promise = some x.promise := by
  induction hn : u.queue.pending.length generalizing u with
  | zero =>
      refine ⟨[], h, fun i x error hx => ?_⟩
      rw [List.length_eq_zero_iff] at hn
      have hmem := PromiseQueue.mem_pending_of_head hx
      rw [Run.exec_nil, hn] at hmem
      cases hmem
  | succ n ih =>
      by_cases hall : ∀ i x error, u.queue.head i = some (x, error) →
          c.promiseOf x.promise = some x.promise
      · exact ⟨[], h, hall⟩
      · push Not at hall
        obtain ⟨i, x, error, hx, hown⟩ := hall
        have hlen : (u.settle i).queue.pending.length = n := by
          have hperm := (PromiseQueue.pending_settled hx
            (thrown (u.settlement (x, error)).1)).length_eq
          rw [← settle_queue hx, List.length_cons, hn] at hperm
          exact (Nat.succ.inj hperm).symm
        obtain ⟨ops, hsim, hheads⟩ := ih (sim_flush h hx hown) hlen
        exact ⟨.settle i :: ops, hsim, hheads⟩

/-! ## The turn of a promise that both wrappers made -/

section Mono

variable {c c' : Wrapper}

/-- An answer stays one while more promises are settled. -/
theorem Answers.mono {error : Option Str} {task : Task} {p : Nat} (h : c.Answers error task p)
    (houtcome : ∀ p o, c.outcome p = some o → c'.outcome p = some o)
    (hworld : error = none → c'.world = c.world) : c'.Answers error task p := by
  cases error with
  | some e => exact houtcome _ _ h
  | none =>
      obtain ⟨v, hv, hperform⟩ := h
      exact ⟨v, houtcome _ _ hv, by rw [hworld rfl, hperform]⟩

/-- Two chains stay beside one another while the wrapper does something else. -/
theorem ChainSim.mono {d e : Chain Task Str} (h : ChainSim c d e)
    (hpromise : ∀ x ∈ d.entries, c'.promiseOf x.promise = c.promiseOf x.promise)
    (hcalls : ∀ (p : Nat) k, c.calls[p]? = some k → c'.calls[p]? = some k)
    (houtcome : ∀ p o, c.outcome p = some o → c'.outcome p = some o)
    (hworld : d.error = none → c'.world = c.world) : ChainSim c' d e where
  error := h.error
  entries := by
    rw [h.entries]
    apply List.filter_congr
    intro x hx
    rw [hpromise x hx]
  shared x hx hown := by
    rw [hpromise x hx] at hown
    obtain ⟨p, hp⟩ := h.shared x hx hown
    obtain ⟨k, hk, htask⟩ := hp.made
    exact ⟨p, (hpromise x hx).trans hp.promise, hp.lt, ⟨k, hcalls p _ hk, htask⟩,
      hp.answered.imp_right fun hans => hans.mono houtcome hworld⟩

/-- Two chains without the promise that is settled. -/
theorem ChainSim.tail {d e : Chain Task Str} {x : QueueEntry Task}
    {xs : List (QueueEntry Task)} (h : ChainSim c d e) (hd : d.entries = x :: xs)
    (hown : c.promiseOf x.promise = some x.promise) (hcalls : c'.calls = c.calls)
    {error : Option Str} (hans : ∀ y ∈ xs, ∀ p, c.SharedWith d y p →
      p ∈ xs.map QueueEntry.promise ∨ c'.Answers error y.task p) :
    ChainSim c' ⟨xs, error⟩ ⟨e.entries.tail, error⟩ where
  error := rfl
  entries := by
    rw [h.entries, hd, List.filter_cons_of_pos (by simpa using hown), List.tail_cons]
    apply List.filter_congr
    intro y _
    rw [promiseOf, promiseOf, hcalls]
  shared y hy hne := by
    have hpromise : c'.promiseOf y.promise = c.promiseOf y.promise := by
      rw [promiseOf, promiseOf, hcalls]
    rw [hpromise] at hne
    obtain ⟨p, hp⟩ := h.shared y (hd ▸ List.mem_cons_of_mem x hy) hne
    exact ⟨p, hpromise.trans hp.promise, hp.lt, hcalls ▸ hp.made, hans y hy p hp⟩

end Mono

/-- A call behind a promise that is settled is answered by what it would get in its turn. -/
theorem answered_settle {c : Wrapper} (hwf : c.WF) {i : Nat} {x : QueueEntry Task}
    {d : Chain Task Str} {xs : List (QueueEntry Task)}
    (hx : c.queue.head i = some (x, d.error)) (hd : d.entries = x :: xs)
    (hsorted : d.entries.Pairwise fun x y => x.promise < y.promise)
    (hharm : c.Harmless (.settle i)) {y : QueueEntry Task} (hy : y ∈ xs) {p : Nat}
    (hp : c.SharedWith d y p) : p ∈ xs.map QueueEntry.promise ∨
      (c.settle i).Answers (thrown (c.settlement (x, d.error)).1) y.task p := by
  have hmem := PromiseQueue.mem_pending_of_head hx
  have hworld := settle_world hx
  have hlt : x.promise < y.promise := by
    rw [hd, List.pairwise_cons] at hsorted
    exact hsorted.1 y hy
  -- what the guard says of a call that got the promise `x` or one that is settled
  have hbehind (herr : d.error = none) (h : p = x.promise ∨ c.outcome p ≠ none) :
      (∃ v, x.task.perform c.world = (.ok v, c.world)) ∨
      (p = x.promise ∧ ∃ e, (x.task.perform c.world).1 = .error e) :=
    hharm x (herr ▸ hx) y.promise p ⟨hp.promise, Nat.ne_of_lt hp.lt, hlt, h⟩
  rcases hp.answered with hin | hans
  · rw [hd, List.map_cons, List.mem_cons] at hin
    rcases hin with rfl | hin
    · right
      have hself := hwf.settle_self hx
      cases herr : d.error with
      | some e =>
          rw [herr] at hself
          exact hself
      | none =>
          rw [herr] at hself hworld
          rcases hbehind herr (Or.inl rfl) with ⟨v, hv⟩ | ⟨-, e, he⟩
          · have htask : y.task = x.task := by
              obtain ⟨k, hk, hk'⟩ := hp.made
              obtain ⟨k', hk₁, hk₂⟩ := hwf.task x hmem
              obtain ⟨rfl, -⟩ := Prod.mk.inj (Option.some.inj (hk.symm.trans hk₁))
              exact Option.some.inj (hk'.symm.trans hk₂)
            simp only [settlement, hv] at hself hworld ⊢
            exact ⟨v, hself, by rw [hworld, htask, hv]⟩
          · simp only [settlement] at hself ⊢
            rw [he] at hself ⊢
            exact hself
    · exact Or.inl hin
  · right
    cases herr : d.error with
    | some e =>
        rw [herr] at hans
        exact settle_keeps hx hans
    | none =>
        rw [herr] at hans hworld
        obtain ⟨v, hv, hperform⟩ := hans
        rcases hbehind herr (Or.inr (by rw [hv]; exact Option.some_ne_none _)) with
          ⟨v', hv'⟩ | ⟨rfl, -⟩
        · simp only [settlement, hv'] at hworld ⊢
          exact ⟨v, settle_keeps hx hv, by rw [hworld, hperform]⟩
        · rw [hwf.unsettled x hmem] at hv
          cases hv

/-- The turn of a promise that both wrappers made. -/
theorem sim_settle {c u : Wrapper} (h : Sim c u) {i : Nat} {x : QueueEntry Task}
    {error : Option Str} (hc : c.queue.head i = some (x, error))
    (hu : u.queue.head i = some (x, error)) (hown : c.promiseOf x.promise = some x.promise)
    (hharm : c.Harmless (.settle i)) : Sim (c.settle i) (u.settle i) := by
  obtain ⟨d, e, hd, he, hsim, hhead, rfl, hsorted⟩ := h.chains_at hu
  obtain ⟨xs, hxs⟩ := List.head?_eq_some_iff.mp hhead
  have hsettlement : u.settlement (x, d.error) = c.settlement (x, d.error) := by
    cases d.error <;> simp only [settlement, h.world]
  have hcalls := settle_calls hc
  have hcalls' := settle_calls hu
  have hmodify : List.Forall₂ (ChainSim (c.settle i))
      (u.queue.chains.modify i fun ch =>
        ⟨ch.entries.tail, thrown (c.settlement (x, d.error)).1⟩)
      (c.queue.chains.modify i fun ch =>
        ⟨ch.entries.tail, thrown (c.settlement (x, d.error)).1⟩) := by
    apply forall₂_modify h.chains i
    · intro j a b hj ha hab
      refine hab.mono (fun y _ => by rw [promiseOf, promiseOf, hcalls])
        (fun p k hk => hcalls ▸ hk) (fun _ _ => settle_keeps hc) fun hnone => ?_
      rw [settle_world hc]
      cases hderr : d.error with
      | some e => rfl
      | none =>
          -- a chain without an error is the newest, but that one has its turn
          rw [hderr] at hu
          have hzero := (h.wf'.serial.runs_newest hu).1
          exact absurd hnone (h.wf'.serial.error_of_old (hzero ▸ hj) ha)
    · intro a b ha hab
      obtain rfl := Option.some.inj (hd.symm.trans ha)
      rw [hxs]
      exact hab.tail hxs hown hcalls fun y hy p hp =>
        answered_settle h.wf hc hxs hsorted hharm hy hp
  exact {
    wf := h.wf.settle i
    wf' := h.wf'.settle i
    world := by rw [settle_world hc, settle_world hu, hsettlement]
    calls := fun n => by
      rw [callOf, callOf, hcalls, hcalls']
      exact h.calls n
    length := by rw [hcalls, hcalls', h.length]
    own := fun n hn => by
      rw [promiseOf, hcalls']
      exact h.own n (hcalls' ▸ hn)
    count := by
      rw [settle_queue hc, settle_queue hu, hsettlement, PromiseQueue.settled,
        PromiseQueue.settled, h.count]
      split <;> simp
    chains := by
      rw [settle_queue hc, settle_queue hu, hsettlement, PromiseQueue.settled,
        PromiseQueue.settled, h.count]
      split
      · exact .cons ⟨rfl, rfl, by simp⟩ hmodify
      · exact hmodify
    outcomes := by
      intro n o ho
      rw [settle_outcome hu, Option.or_eq_some_iff] at ho
      rw [resultOf, promiseOf, hcalls]
      rcases ho with ho | ⟨-, ho⟩
      · obtain ⟨p, hp, hresult⟩ := Option.bind_eq_some_iff.mp (h.outcomes n o ho)
        exact Option.bind_eq_some_iff.mpr ⟨p, hp, settle_keeps hc hresult⟩
      · split_ifs at ho with hn
        rw [hn]
        refine Option.bind_eq_some_iff.mpr ⟨x.promise, hown, ?_⟩
        rw [h.wf.settle_self hc, ← ho, hsettlement] }

/-! ## Calls -/

/-- A shared task stays in the queue while calls are added. -/
theorem SharedWith.concat {c : Wrapper} {d : Chain Task Str} {y : QueueEntry Task} {p : Nat}
    (h : c.SharedWith d y p) (x : QueueEntry Task) :
    c.SharedWith { d with entries := d.entries ++ [x] } y p where
  promise := h.promise
  lt := h.lt
  made := h.made
  answered := h.answered.imp_left fun hmem => by
    rw [List.map_append]
    exact List.mem_append_left _ hmem

/-- Two chains with one promise more that both wrappers made. -/
theorem ChainSim.concat {c : Wrapper} {d e : Chain Task Str} (h : ChainSim c d e)
    {x : QueueEntry Task} (hown : c.promiseOf x.promise = some x.promise) :
    ChainSim c { d with entries := d.entries ++ [x] } { e with entries := e.entries ++ [x] } where
  error := h.error
  entries := by
    rw [List.filter_append, List.filter_cons_of_pos (by simpa using hown), h.entries,
      List.filter_nil]
  shared y hy hne := by
    rcases List.mem_append.mp hy with hy | hy
    · obtain ⟨p, hp⟩ := h.shared y hy hne
      exact ⟨p, hp.concat x⟩
    · rw [List.mem_singleton.mp hy] at hne
      exact absurd hown hne

/-- Two chains of which one has a call more that was answered from the cache. -/
theorem ChainSim.share {c : Wrapper} {d e : Chain Task Str} (h : ChainSim c d e)
    {x : QueueEntry Task} {p : Nat} (hp : c.SharedWith d x p) :
    ChainSim c { d with entries := d.entries ++ [x] } e where
  error := h.error
  entries := by
    have hne : c.promiseOf x.promise ≠ some x.promise := by
      rw [hp.promise]
      exact fun heq => Nat.ne_of_lt hp.lt (Option.some.inj heq)
    rw [List.filter_append, List.filter_cons_of_neg (by simpa using hne), h.entries,
      List.filter_nil, List.append_nil]
  shared y hy hne := by
    rcases List.mem_append.mp hy with hy | hy
    · obtain ⟨q, hq⟩ := h.shared y hy hne
      exact ⟨q, hq.concat x⟩
    · rw [List.mem_singleton.mp hy]
      exact ⟨p, hp.concat x⟩

section Calls

variable {c u : Wrapper} {k : Call} {task : Task}

/-- A call at the end leaves the promises of the others. -/
theorem promiseOf_concat {c' : Wrapper} {p : Nat} (hcalls : c'.calls = c.calls ++ [(k, p)])
    {n : Nat} (hn : n < c.calls.length) : c'.promiseOf n = c.promiseOf n := by
  rw [promiseOf, promiseOf, hcalls, List.getElem?_append_left hn]

/-- The queued tasks are those of calls. -/
theorem Sim.promise_lt (h : Sim c u) {d : Chain Task Str} (hd : d ∈ u.queue.chains)
    {x : QueueEntry Task} (hx : x ∈ d.entries) : x.promise < c.calls.length := by
  rw [← h.length]
  exact h.wf'.fresh.2 x (List.mem_flatMap.mpr ⟨d, hd, hx⟩)

/-- The calls of both wrappers with one more that the wrapper without a cache enqueues. -/
theorem Sim.concat_calls (h : Sim c u) (c' u' : Wrapper) {p : Nat}
    (hc : c'.calls = c.calls ++ [(k, p)])
    (hu : u'.calls = u.calls ++ [(k, u.calls.length)]) :
    (∀ n, u'.callOf n = c'.callOf n) ∧ u'.calls.length = c'.calls.length ∧
      ∀ n < u'.calls.length, u'.promiseOf n = some n := by
  refine ⟨fun n => ?_, by simp [hc, hu, h.length], fun n hn => ?_⟩
  · have hsame := h.calls n
    rw [callOf, callOf] at hsame ⊢
    rw [hc, hu, List.getElem?_append, List.getElem?_append, h.length]
    split
    · exact hsame
    · rw [List.getElem?_singleton, List.getElem?_singleton]
      split <;> rfl
  · rw [hu, List.length_append, List.length_singleton] at hn
    rcases Nat.lt_succ_iff_lt_or_eq.mp hn with hn | rfl
    · rw [promiseOf_concat hu hn]
      exact h.own n hn
    · rw [promiseOf, hu, List.getElem?_concat_length]
      rfl

/-- The results of the earlier calls are the same beside one more call. -/
theorem Sim.concat_outcomes (h : Sim c u) (c' : Wrapper) {p : Nat}
    (hc : c'.calls = c.calls ++ [(k, p)])
    (hkeep : ∀ q o, c.outcome q = some o → c'.outcome q = some o) {n : Nat}
    {o : Except Str Result} (ho : u.outcome n = some o) : c'.resultOf n = some o := by
  have hn : n < c.calls.length := by
    obtain ⟨d, hd, -⟩ := h.wf'.result n o ho
    rw [← h.length]
    exact (List.getElem?_eq_some_iff.mp hd).1
  obtain ⟨q, hq, hresult⟩ := Option.bind_eq_some_iff.mp (h.outcomes n o ho)
  exact Option.bind_eq_some_iff.mpr
    ⟨q, (promiseOf_concat hc hn).trans hq, hkeep q o hresult⟩

/-- Apart from the cache a call is put at the end of the queue. -/
theorem enqueue_eq (k : Call) (task : Task) (w : Wrapper) : ∃ cache handlers,
    w.enqueue k task = { w with
      queue := w.queue.add w.calls.length task
      cache := cache
      handlers := handlers
      calls := w.calls ++ [(k, w.calls.length)] } := by
  unfold enqueue
  dsimp only
  split <;> exact ⟨_, _, rfl⟩

/-- A call that is not answered from the cache. -/
theorem sim_enqueue (h : Sim c u) (htask : k.task = some task) :
    Sim (c.enqueue k task) (u.enqueue k task) := by
  have hwf := h.wf.enqueue htask
  have hwf' := h.wf'.enqueue htask
  obtain ⟨cache, handlers, hc⟩ := enqueue_eq k task c
  obtain ⟨cache', handlers', hu⟩ := enqueue_eq k task u
  have hsame := h.concat_calls _ _ (congrArg Wrapper.calls hc) (congrArg Wrapper.calls hu)
  have hout (n : Nat) (o : Except Str Result) (ho : u.outcome n = some o) :
      (c.enqueue k task).resultOf n = some o :=
    h.concat_outcomes _ (congrArg Wrapper.calls hc)
      (fun q o hq => by
        rw [hc]
        exact hq) ho
  rw [hc, hu] at hsame
  rw [hc] at hwf hout ⊢
  rw [hu] at hwf' ⊢
  obtain ⟨hcalls, hlength, hown⟩ := hsame
  exact {
    wf := hwf
    wf' := hwf'
    world := h.world
    calls := hcalls
    length := hlength
    own := hown
    count := h.count
    chains := by
      rw [PromiseQueue.add, PromiseQueue.add, List.modifyHead_eq_modify_zero,
        List.modifyHead_eq_modify_zero, h.count, h.length]
      have hmono {d e : Chain Task Str} (hd : d ∈ u.queue.chains) (hde : ChainSim c d e) :
          ChainSim { c with
            queue := c.queue.add c.calls.length task
            cache := cache
            handlers := handlers
            calls := c.calls ++ [(k, c.calls.length)] } d e :=
        hde.mono
          (fun x hx => promiseOf_concat rfl (h.promise_lt hd hx))
          (fun p k hk => getElem?_concat hk _) (fun _ _ ho => ho) (fun _ => rfl)
      refine forall₂_modify h.chains 0
        (fun j a b _ ha hab => hmono (List.mem_of_getElem? ha) hab) fun a b ha hab => ?_
      refine (hmono (List.mem_of_getElem? ha) hab).concat ?_
      rw [promiseOf, List.getElem?_concat_length]
      rfl
    outcomes := hout }

/-- A call that may share a promise waits behind it or is answered by it. -/
theorem sharedWith_of_sharable (h : Sim c u) (htask : k.task = some task) {p : Nat}
    (hshare : c.Sharable k p) {d e : Chain Task Str} (hd : u.queue.chains[0]? = some d)
    (hde : ChainSim c d e) (he : c.queue.chains[0]? = some e) :
    SharedWith { c with calls := c.calls ++ [(k, p)] } d
      ⟨u.calls.length, task, u.queue.exceptionCount⟩ p := by
  obtain ⟨l, hl, hlk⟩ := hshare.same
  obtain ⟨ds, dss, hchains, hnone, -⟩ := h.wf'.serial.newest
  rw [hchains] at hd
  obtain rfl : ds = d := Option.some.inj hd
  -- the promise was made by its own call
  have hmade : ∃ l', c.calls[p]? = some (l', p) ∧ (p ∈ ds.entries.map QueueEntry.promise ∨
      ∃ v, c.outcome p = some (.ok v) ∧ l'.perform c.world = (.ok v, c.world)) := by
    rcases hshare.current with hmem | ⟨r, hr, rfl, hbefore, hafter, v, hv⟩
    · obtain ⟨y, hy, rfl⟩ := List.mem_map.mp hmem
      have hy' : y ∈ e.entries := by
        unfold waiting at hy
        cases hcs : c.queue.chains with
        | nil => simp [hcs] at he
        | cons e' es =>
            rw [hcs] at hy he
            exact Option.some.inj he ▸ hy
      obtain ⟨l', hl', -⟩ := h.wf.task y (List.mem_flatMap.mpr
        ⟨e, List.mem_of_getElem? he, hy'⟩)
      rw [hde.entries] at hy'
      exact ⟨l', hl', Or.inl (List.mem_map_of_mem (List.mem_filter.mp hy').1)⟩
    · obtain ⟨l', hl', hstate, hresult⟩ := h.wf.ran r hr
      rw [hbefore] at hstate hresult
      refine ⟨l', hl', Or.inr ⟨v, hv, ?_⟩⟩
      rw [hv] at hresult
      exact Prod.ext (Option.some.inj hresult).symm (hstate.trans hafter)
  obtain ⟨l', hl', hcurrent⟩ := hmade
  have hll : l' = l := by
    rw [callOf, hl', Option.map_some, Option.some.injEq] at hl
    exact hl
  have hlt := (List.getElem?_eq_some_iff.mp hl').1
  have htask' : l'.task = some task := by rw [hll, hlk, htask]
  refine ⟨?_, h.length ▸ hlt, ⟨l', getElem?_concat hl' _, htask'⟩, hcurrent.imp_right ?_⟩
  · rw [promiseOf, h.length, List.getElem?_concat_length]
    rfl
  · rintro ⟨v, hv, hperform⟩
    rw [hnone]
    refine ⟨v, hv, ?_⟩
    rw [Call.perform, htask'] at hperform
    exact hperform

/-- A call that is answered from the cache. -/
theorem sim_share (h : Sim c u) (htask : k.task = some task) {p : Nat}
    (hp : c.existing k = some p) (hshare : c.Sharable k p) :
    Sim { c with calls := c.calls ++ [(k, p)] } (u.enqueue k task) := by
  have hwf := h.wf.share k (existing_mem hp)
  have hwf' := h.wf'.enqueue htask
  obtain ⟨cache', handlers', hu⟩ := enqueue_eq k task u
  have hsame := h.concat_calls { c with calls := c.calls ++ [(k, p)] } _ rfl
    (congrArg Wrapper.calls hu)
  rw [hu] at hsame hwf' ⊢
  obtain ⟨hcalls, hlength, hown⟩ := hsame
  exact {
    wf := hwf
    wf' := hwf'
    world := h.world
    calls := hcalls
    length := hlength
    own := hown
    count := h.count
    chains := by
      rw [PromiseQueue.add, List.modifyHead_eq_modify_zero, ← List.modify_id 0 c.queue.chains]
      have hmono {d e : Chain Task Str} (hd : d ∈ u.queue.chains) (hde : ChainSim c d e) :
          ChainSim { c with calls := c.calls ++ [(k, p)] } d e :=
        hde.mono
          (fun x hx => promiseOf_concat rfl (h.promise_lt hd hx))
          (fun p k hk => getElem?_concat hk _) (fun _ _ ho => ho) (fun _ => rfl)
      refine forall₂_modify h.chains 0
        (fun j a b _ ha hab => hmono (List.mem_of_getElem? ha) hab) fun a b ha hab => ?_
      obtain ⟨e, he, hae⟩ := forall₂_get h.chains ha
      exact (hmono (List.mem_of_getElem? ha) hab).share
        (sharedWith_of_sharable h htask hshare ha hae he)
    outcomes := fun n o ho => h.concat_outcomes (k := k) (p := p)
      { c with calls := c.calls ++ [(k, p)] } rfl (fun _ _ hq => hq) ho }

/-- No call waits on the newest chain for a promise that is settled: the calls that wait there
are behind a call that has a promise of its own. -/
private theorem mem_of_sharedWith (h : Sim c u)
    (hheads : ∀ i x error, u.queue.head i = some (x, error) →
      c.promiseOf x.promise = some x.promise)
    (hbehind : ∀ x ∈ c.waiting, ∀ m p, c.Behind x.promise m p → p = x.promise)
    {d e : Chain Task Str} (hd : u.queue.chains[0]? = some d) (he : c.queue.chains[0]? = some e)
    (hde : ChainSim c d e) {x : QueueEntry Task} (hx : x ∈ d.entries) {p : Nat}
    (hp : c.SharedWith d x p) (hxown : c.promiseOf x.promise ≠ some x.promise) :
    p ∈ d.entries.map QueueEntry.promise := by
  rcases hp.answered with hmem | hans
  · exact hmem
  · exfalso
    obtain ⟨y, ys, hy⟩ := List.exists_cons_of_ne_nil (List.ne_nil_of_mem hx)
    have hhead : u.queue.head 0 = some (y, d.error) :=
      PromiseQueue.head_eq_some_iff.mpr ⟨d, hd, by rw [hy]; rfl, rfl⟩
    have hyown := hheads 0 y d.error hhead
    have hsorted := h.wf'.sorted d (List.mem_of_getElem? hd)
    have hlt : y.promise < x.promise := by
      rw [hy, List.pairwise_cons] at hsorted
      rw [hy] at hx
      rcases List.mem_cons.mp hx with rfl | hx
      · exact absurd hyown hxown
      · exact hsorted.1 x hx
    have hye : y ∈ e.entries := by
      rw [hde.entries, hy]
      exact List.mem_filter.mpr ⟨List.mem_cons_self, by simpa using hyown⟩
    have hyw : y ∈ c.waiting := by
      unfold waiting
      cases hcs : c.queue.chains with
      | nil => simp [hcs] at he
      | cons e' es =>
          rw [hcs] at he
          rw [Option.some.inj he]
          exact hye
    have hsettled : c.outcome p ≠ none := by
      obtain ⟨d', ds, hds, hnone, -⟩ := h.wf'.serial.newest
      rw [hds] at hd
      obtain rfl : d' = d := Option.some.inj hd
      rw [hnone] at hans
      obtain ⟨v, hv, -⟩ := hans
      rw [hv]
      exact Option.some_ne_none _
    have hpy := hbehind y hyw x.promise p
      ⟨hp.promise, Nat.ne_of_lt hp.lt, hlt, Or.inr hsettled⟩
    refine hsettled ?_
    rw [hpy]
    exact h.wf.unsettled y (List.mem_flatMap.mpr ⟨e, List.mem_of_getElem? he, hye⟩)

/-- A call that does its work at once, while a promise that both wrappers made is at the
head of every chain. -/
theorem sim_callNow (h : Sim c u) (htask : k.task = none)
    (hheads : ∀ i x error, u.queue.head i = some (x, error) →
      c.promiseOf x.promise = some x.promise)
    (hharm : (k.now c.world).2 = c.world ∨
      ∀ x ∈ c.waiting, ∀ m p, c.Behind x.promise m p → p = x.promise) :
    Sim (c.callNow k) (u.callNow k) := by
  obtain ⟨hcalls, hlength, hown⟩ := h.concat_calls (k := k) (c.callNow k) (u.callNow k) rfl rfl
  have hout (w : Wrapper) (n : Nat) : (w.callNow k).outcome n =
      (w.outcome n).or (if n = w.calls.length then some (k.now w.world).1 else none) :=
    outcome_append rfl n
  have hkeep (q : Nat) (o : Except Str Result) (ho : c.outcome q = some o) :
      (c.callNow k).outcome q = some o := by
    rw [hout, ho, Option.some_or]
  exact {
    wf := h.wf.now htask
    wf' := h.wf'.now htask
    world := by
      rw [callNow, callNow, h.world]
    calls := hcalls
    length := hlength
    own := hown
    count := h.count
    chains := by
      change List.Forall₂ (ChainSim (c.callNow k)) u.queue.chains c.queue.chains
      rw [List.forall₂_iff_get]
      refine ⟨h.chains.length_eq, fun i hi hi' => ?_⟩
      have hde := h.chains.get hi hi'
      have hd := List.getElem?_eq_getElem hi
      have he := List.getElem?_eq_getElem hi'
      by_cases hsame : (k.now c.world).2 = c.world
      · exact hde.mono (fun x hx => promiseOf_concat rfl (h.promise_lt (List.get_mem _ _) hx))
          (fun p k hk => getElem?_concat hk _) hkeep (fun _ => hsame)
      · by_cases hi0 : i = 0
        · subst hi0
          exact {
            error := hde.error
            entries := by
              rw [hde.entries]
              apply List.filter_congr
              intro x hx
              have hpromise : (c.callNow k).promiseOf x.promise = c.promiseOf x.promise :=
                promiseOf_concat rfl (h.promise_lt (List.get_mem _ _) hx)
              rw [hpromise]
            shared := fun x hx hne => by
              have hpromise : (c.callNow k).promiseOf x.promise = c.promiseOf x.promise :=
                promiseOf_concat rfl (h.promise_lt (List.get_mem _ _) hx)
              rw [hpromise] at hne
              obtain ⟨p, hp⟩ := hde.shared x hx hne
              obtain ⟨l, hl, hltask⟩ := hp.made
              exact ⟨p, hpromise.trans hp.promise, hp.lt, ⟨l, getElem?_concat hl _, hltask⟩,
                Or.inl (mem_of_sharedWith h hheads (hharm.resolve_left hsame) hd he hde hx hp
                  hne)⟩ }
        · exact hde.mono
            (fun x hx => promiseOf_concat rfl (h.promise_lt (List.get_mem _ _) hx))
            (fun p k hk => getElem?_concat hk _) hkeep
            (fun hnone => absurd hnone (h.wf'.serial.error_of_old hi0 hd))
    outcomes := by
      intro n o ho
      rw [hout, Option.or_eq_some_iff] at ho
      rcases ho with ho | ⟨-, ho⟩
      · exact h.concat_outcomes (k := k) (c.callNow k) rfl hkeep ho
      · split_ifs at ho with hn
        rw [hn, resultOf, promiseOf, callNow, h.length, List.getElem?_concat_length,
          Option.map_some, Option.bind_some, ← callNow, hout, h.wf.fresh.1, Option.none_or,
          if_pos rfl, ← ho, h.world] }

end Calls

/-! ## Steps and runs -/

/-- Two wrappers without calls. -/
theorem sim_new (world : World) : Sim (new world) (new world) where
  wf := wf_new world
  wf' := wf_new world
  world := rfl
  calls _ := rfl
  length := rfl
  own _ hn := absurd hn (Nat.not_lt_zero _)
  count := rfl
  chains := .cons ⟨rfl, rfl, by simp⟩ .nil
  outcomes _ _ ho := by cases ho

/-- A handler changes nothing but the cache. -/
theorem sim_runHandler {c u : Wrapper} (h : Sim c u) (promise : Nat) :
    Sim (c.runHandler promise) (u.runHandler promise) := by
  have hwf := h.wf.runHandler promise
  have hwf' := h.wf'.runHandler promise
  have hsame (w : Wrapper) : ∃ cache handlers,
      w.runHandler promise = { w with cache := cache, handlers := handlers } := by
    unfold runHandler
    split <;> exact ⟨_, _, rfl⟩
  obtain ⟨cache, handlers, hc⟩ := hsame c
  obtain ⟨cache', handlers', hu⟩ := hsame u
  rw [hc] at hwf ⊢
  rw [hu] at hwf' ⊢
  exact {
    wf := hwf
    wf' := hwf'
    world := h.world
    calls := h.calls
    length := h.length
    own := h.own
    count := h.count
    chains := h.chains.imp fun d e hde =>
      hde.mono (fun _ _ => rfl) (fun _ _ hk => hk) (fun _ _ ho => ho) (fun _ => rfl)
    outcomes := h.outcomes }

/-- A promise that both wrappers made and that has its turn without the cache has it with
the cache. -/
theorem Sim.head_of_own {c u : Wrapper} (h : Sim c u) {i : Nat} {x : QueueEntry Task}
    {error : Option Str} (hu : u.queue.head i = some (x, error))
    (hown : c.promiseOf x.promise = some x.promise) : c.queue.head i = some (x, error) := by
  obtain ⟨d, e, -, he, hde, hhead, rfl, -⟩ := h.chains_at hu
  obtain ⟨xs, hxs⟩ := List.head?_eq_some_iff.mp hhead
  refine PromiseQueue.head_eq_some_iff.mpr ⟨e, he, ?_, hde.error⟩
  rw [hde.entries, hxs, List.filter_cons_of_pos (by simpa using hown)]
  rfl

/-- With a promise that both wrappers made at the head of every chain the heads are the
same. -/
theorem Sim.head_eq {c u : Wrapper} (h : Sim c u)
    (hheads : ∀ i x error, u.queue.head i = some (x, error) →
      c.promiseOf x.promise = some x.promise) (i : Nat) :
    u.queue.head i = c.queue.head i := by
  cases hu : u.queue.head i with
  | some head =>
      obtain ⟨x, error⟩ := head
      exact (h.head_of_own hu (hheads i x error hu)).symm
  | none =>
      cases hc : c.queue.head i with
      | none => rfl
      | some head =>
          obtain ⟨x, error⟩ := head
          obtain ⟨e, he, hhead, rfl⟩ := PromiseQueue.head_eq_some_iff.mp hc
          have hlt : i < u.queue.chains.length := by
            rw [h.chains.length_eq]
            exact (List.getElem?_eq_some_iff.mp he).1
          obtain ⟨e', he', hde⟩ := forall₂_get h.chains (List.getElem?_eq_getElem hlt)
          obtain rfl := Option.some.inj (he.symm.trans he')
          have hx : x ∈ u.queue.chains[i].entries := by
            have hmem := List.mem_of_mem_head? hhead
            rw [hde.entries] at hmem
            exact (List.mem_filter.mp hmem).1
          obtain ⟨y, ys, hy⟩ := List.exists_cons_of_ne_nil (List.ne_nil_of_mem hx)
          have hsome : u.queue.head i = some (y, u.queue.chains[i].error) :=
            PromiseQueue.head_eq_some_iff.mpr
              ⟨_, List.getElem?_eq_getElem hlt, by rw [hy]; rfl, rfl⟩
          rw [hu] at hsome
          cases hsome

/-- A harmless step of the wrapper is one of the wrapper without a cache, behind the turns
of calls that were answered from the cache. -/
theorem sim_step {c u : Wrapper} (h : Sim c u) {op : WrapperOp} (hharm : c.Harmless op) :
    ∃ ops, Sim (c.step true op) (Run.exec (step false) u (ops ++ [op])) := by
  obtain ⟨ops, hsim, hheads⟩ := exists_flush h
  refine ⟨ops, ?_⟩
  rw [Run.exec_append, Run.exec_cons, Run.exec_nil]
  generalize Run.exec (step false) u ops = u' at hsim hheads ⊢
  cases op with
  | call k =>
      rw [step, step]
      cases htask : k.task with
      | none =>
          have hguard := hharm
          simp only [Harmless, htask] at hguard
          simpa only [call, htask] using sim_callNow hsim htask hheads hguard
      | some task =>
          have hguard := hharm
          simp only [Harmless, htask] at hguard
          simp only [call, htask, if_true, Bool.false_eq_true, if_false]
          cases hp : c.existing k with
          | none => exact sim_enqueue hsim htask
          | some p => exact sim_share hsim htask hp (hguard p hp).1
  | settle i =>
      rw [step, step]
      cases hc : c.queue.head i with
      | none =>
          have hu := (hsim.head_eq hheads i).trans hc
          rw [settle, settle, hc, hu]
          exact hsim
      | some head =>
          obtain ⟨x, error⟩ := head
          have hu := (hsim.head_eq hheads i).trans hc
          exact sim_settle hsim hc hu (hheads i x error hu) hharm
  | handler promise => exact sim_runHandler hsim promise

/-- A run of harmless steps beside one of the wrapper without a cache. -/
theorem sim_run {c u : Wrapper} (h : Sim c u) {ops : List WrapperOp}
    (hops : Run.Allowed (step true) Harmless c ops) : ∃ ops', ops.Sublist ops' ∧
      Sim (Run.exec (step true) c ops) (Run.exec (step false) u ops') := by
  induction ops generalizing c u with
  | nil => exact ⟨[], List.Sublist.refl _, h⟩
  | cons op ops ih =>
      obtain ⟨ops₁, h₁⟩ := sim_step h hops.1
      obtain ⟨ops₂, hsub, h₂⟩ := ih h₁ hops.2
      refine ⟨(ops₁ ++ [op]) ++ ops₂, (List.sublist_append_right ops₁ [op]).append hsub, ?_⟩
      rw [Run.exec_append]
      exact h₂

/-- When nothing is pending, every call has the result that it has without the cache. -/
theorem Sim.results {c u : Wrapper} (h : Sim c u)
    (hheads : ∀ i x error, u.queue.head i = some (x, error) →
      c.promiseOf x.promise = some x.promise) (hidle : c.queue.pending = []) (n : Nat) :
    u.resultOf n = c.resultOf n := by
  have hidle' : u.queue.pending = [] := by
    rw [List.eq_nil_iff_forall_not_mem]
    intro x hx
    obtain ⟨d, hd, hxd⟩ := List.mem_flatMap.mp hx
    obtain ⟨i, hi⟩ := List.mem_iff_getElem?.mp hd
    obtain ⟨y, ys, hy⟩ := List.exists_cons_of_ne_nil (List.ne_nil_of_mem hxd)
    have hu : u.queue.head i = some (y, d.error) :=
      PromiseQueue.head_eq_some_iff.mpr ⟨d, hi, by rw [hy]; rfl, rfl⟩
    have hmem := PromiseQueue.mem_pending_of_head (h.head_of_own hu (hheads i y d.error hu))
    rw [hidle] at hmem
    cases hmem
  by_cases hn : n < u.calls.length
  · have hown := h.own n hn
    have hgiven : n ∈ u.calls.map Prod.snd := by
      obtain ⟨x, hx, hxn⟩ := Option.map_eq_some_iff.mp hown
      exact List.mem_map.mpr ⟨x, List.mem_of_getElem? hx, hxn⟩
    have hsettled := h.wf'.given n hgiven
    rw [hidle'] at hsettled
    obtain ⟨o, ho⟩ := Option.ne_none_iff_exists'.mp (hsettled.resolve_right (by simp))
    rw [resultOf, hown, Option.bind_some, ho, h.outcomes n o ho]
  · have hnone (w : Wrapper) (hw : ¬ n < w.calls.length) : w.resultOf n = none := by
      rw [resultOf, promiseOf, List.getElem?_eq_none (Nat.le_of_not_lt hw)]
      rfl
    rw [hnone u hn, hnone c (h.length ▸ hn)]

/-! ## Who shares a promise -/

/-- A call that shares its promise reads, and is one of the same task. -/
theorem SharesReads.append {w w' : Wrapper} (h : w.SharesReads) {c : Call} {p : Nat}
    (hcalls : w'.calls = w.calls ++ [(c, p)])
    (hp : p ≠ w.calls.length → (∃ d, w.callOf p = some d ∧ d.task = c.task ∧ d.sql = c.sql) ∧
      WaSqlite.readOnly c.sql = true) : w'.SharesReads := by
  have hkeep {q : Nat} {d : Call} (hd : w.callOf q = some d) : w'.callOf q = some d := by
    obtain ⟨x, hx, rfl⟩ := Option.map_eq_some_iff.mp hd
    rw [callOf, hcalls, getElem?_concat hx]
    rfl
  intro n k q hn hne
  have hold : (∃ d, w.callOf q = some d ∧ d.task = k.task ∧ d.sql = k.sql) ∧
      WaSqlite.readOnly k.sql = true := by
    rw [hcalls, List.getElem?_append] at hn
    split at hn
    · exact h n k q hn hne
    · rw [List.getElem?_singleton] at hn
      split_ifs at hn with hlast
      obtain ⟨rfl, rfl⟩ := Prod.mk.inj (Option.some.inj hn)
      exact hp (by omega)
  obtain ⟨⟨d, hd, hsame⟩, hread⟩ := hold
  exact ⟨⟨d, hkeep hd, hsame⟩, hread⟩

/-- A harmless call shares its promise only where both read. -/
theorem SharesReads.call {w : Wrapper} (h : w.SharesReads) {c : Call}
    (hharm : w.Harmless (.call c)) : (w.call true c).SharesReads := by
  cases htask : c.task with
  | none =>
      have hcall : w.call true c = w.callNow c := by simp only [Wrapper.call, htask]
      rw [hcall]
      exact h.append rfl fun hne => absurd rfl hne
  | some task =>
      simp only [Harmless, htask] at hharm
      cases hp : w.existing c with
      | none =>
          have hcall : w.call true c = w.enqueue c task := by
            simp only [Wrapper.call, htask, if_true, hp]
          obtain ⟨cache, handlers, heq⟩ := enqueue_eq c task w
          rw [hcall]
          exact h.append (congrArg Wrapper.calls heq) fun hne => absurd rfl hne
      | some p =>
          have hcall : w.call true c = { w with calls := w.calls ++ [(c, p)] } := by
            simp only [Wrapper.call, htask, if_true, hp]
          obtain ⟨hshare, hrec⟩ := hharm p hp
          obtain ⟨d, hd, hdc⟩ := hshare.same
          rw [hcall]
          have hsql : d.sql = c.sql :=
            (Call.sql_task (hdc.trans htask)).symm.trans (Call.sql_task htask)
          refine h.append rfl fun _ => ⟨⟨d, hd, hdc, hsql⟩, ?_⟩
          -- a text that the expression matches has no key
          refine hrec.resolve_right fun hwrite => ?_
          rw [existing, Call.key_eq_none hwrite] at hp
          cases hp

/-- In a run of harmless steps only calls of one read-only statement share a promise. -/
theorem sharesReads_run {world : World} {ops : List WrapperOp}
    (hops : Run.Allowed (step true) Harmless (new world) ops) :
    (Run.exec (step true) (new world) ops).SharesReads := by
  refine Run.invariant SharesReads ?_ (fun n c p hn => by cases hn) hops
  intro w op h hharm
  have hsame {w' : Wrapper} (hcalls : w'.calls = w.calls) : w'.SharesReads := by
    intro n c p hn hne
    rw [hcalls] at hn
    rw [callOf, hcalls]
    exact h n c p hn hne
  cases op with
  | call c => exact h.call hharm
  | settle i =>
      cases hhead : w.queue.head i with
      | none =>
          rw [step, settle, hhead]
          exact h
      | some head => exact hsame (settle_calls hhead)
  | handler promise =>
      refine hsame ?_
      rw [step, runHandler]
      split <;> rfl

/-- Without the cache every call gets a promise of its own. -/
theorem promise_of_uncached {world : World} (ops : List WrapperOp) {n : Nat} {x : Call × Nat}
    (h : (Run.exec (step false) (new world) ops).calls[n]? = some x) : x.2 = n := by
  have hops : Run.Allowed (step false) (fun _ _ => True) (new world) ops :=
    Run.allowed_of_forall (fun _ _ => trivial) _ ops
  have hinv := Run.invariant (fun w : Wrapper => ∀ (n : Nat) x, w.calls[n]? = some x → x.2 = n)
    ?_ (by intro n x hx; cases hx) hops
  · exact hinv n x h
  · intro w op hw _ n x hx
    have hconcat (k : Call)
        (hx : (w.calls ++ [(k, w.calls.length)])[n]? = some x) : x.2 = n := by
      rw [List.getElem?_append] at hx
      split at hx
      · exact hw n x hx
      · rename_i hlt
        rw [List.getElem?_singleton] at hx
        split_ifs at hx with hn
        rw [← Option.some.inj hx]
        omega
    cases op with
    | call k =>
        rw [step, call] at hx
        split at hx
        · exact hconcat k hx
        · rename_i task _
          simp only [Bool.false_eq_true, if_false] at hx
          obtain ⟨cache, handlers, heq⟩ := enqueue_eq k task w
          rw [heq] at hx
          exact hconcat k hx
    | settle i =>
        rw [step] at hx
        cases hhead : w.queue.head i with
        | none =>
            rw [settle, hhead] at hx
            exact hw n x hx
        | some head =>
            rw [settle_calls hhead] at hx
            exact hw n x hx
    | handler promise =>
        rw [step, runHandler] at hx
        split at hx <;> exact hw n x hx

end Wrapper

end Sharing

/-! ## One statement, twice -/

/-- A database in which `SELECT 1` is the only statement. -/
@[reducible]
def selectOne : WaSqlite where
  Number := Int
  toLowerCase := List.map Char.toLower
  numberToString := printInt
  numberOfNat := Int.ofNat
  Db := Unit
  prepareNext sql _ := (.ok (if sql = "SELECT 1".toList then some (0, []) else none), ())
  readOnly _ := true
  finalize _ _ := ()
  bind _ _ _ _ := (.ok (), ())
  columnNames _ _ := ["1".toList]
  steps _ _ := .row [.number (1 : Int)] () (.done ())
  reset _ _ := (.ok 0, ())

/-- The start of a connection to it. -/
def selectOneWorld : @World selectOne :=
  @World.mk selectOne () fun _ => .o

/-- `execA("SELECT 1")`. -/
def selectOneA : @Call selectOne :=
  @Call.execA selectOne "SELECT 1".toList none

/-- `execO("SELECT 1")`. -/
def selectOneO : @Call selectOne :=
  @Call.execO selectOne "SELECT 1".toList none

end CrSqlite
