import CrSqlite.TransactionLayout
import Mathlib.Data.List.TakeWhile

/-!
# TransactionIsolation - isolation and the outcome of transactions

A transaction has the connection for itself, and its promise tells whether it was committed,
when nothing from outside is added between its BEGIN and its COMMIT or ROLLBACK, its statements
share no promise and are not behind a failure, and no callback fails with a transaction that
could be rolled back.  A callback that fails with one is told to nobody: its error is caught,
and the promise is that of the ROLLBACK.

Main results:

- Theorem {lit}`Transactions.inv_step`: what an undisturbed step keeps.
- Theorem {lit}`Transactions.isolated_and_reported`: in an undisturbed run each transaction is
  isolated and its promise reports its outcome.
- Theorem {lit}`Transactions.neither_isolated_nor_reported`: two runs in which that is not so.
-/

namespace CrSqlite

section Parameters

variable [WaSqlite]

/-- What SQLite tells about transactions: what is committed, whether a transaction is open,
and which statements commit nothing.  A ROLLBACK is an error where there is no transaction. -/
class SqliteCommits where
  Content : Type
  committed : WaSqlite.Db → Content
  inTransaction : WaSqlite.Db → Bool
  committed_bind : ∀ stmt i v db, committed (WaSqlite.bind stmt i v db).2 = committed db
  committed_begin : ∀ w : World,
    committed ((execTask "BEGIN".toList).perform w).2.db = committed w.db
  committed_commit : ∀ (w : World) e, ((execTask "COMMIT".toList).perform w).1 = .error e →
    committed ((execTask "COMMIT".toList).perform w).2.db = committed w.db
  committed_rollback : ∀ w : World,
    committed ((execTask "ROLLBACK".toList).perform w).2.db = committed w.db
  rollback_idle : ∀ w : World, inTransaction w.db = false →
    (∃ e, ((execTask "ROLLBACK".toList).perform w).1 = .error e) ∧
      inTransaction ((execTask "ROLLBACK".toList).perform w).2.db = false

namespace Transactions

/-! ## Isolation and report -/

/-- What is executed behind the BEGIN of a transaction and before its COMMIT or ROLLBACK. -/
def between (t : Nat) (xs : List Executed) : List Executed :=
  ((xs.takeWhile fun x => x.issuer ≠ .ends t).dropWhile fun x => x.issuer ≠ .begins t).tail

/-- What the callback of a transaction asked for. -/
def requestsOf (t : Nat) (s : Transactions) : List Use :=
  (s.requests.filter fun r => r.1 = t).map Prod.snd

/-- What a transaction executed from its BEGIN to its COMMIT or ROLLBACK is what its callback
asked for. -/
def Isolated (s : Transactions) (t : Nat) : Prop :=
  (∃ x ∈ s.executions, x.issuer = .ends t) →
    (between t s.executions).map Executed.use = s.requestsOf t

def CallbackFailed (s : Transactions) (t : Nat) : Prop :=
  ∃ e, (s.phase t).callbackResult = some (.error e)

def CommitFailed (s : Transactions) (t : Nat) : Prop :=
  (s.phase t).callbackResult = some (.ok ()) ∧
    ∃ n e, (s.phase t).endPromise = some n ∧ s.outcome n = some (.error e)

/-- The promise that a transaction waits for is settled. -/
def Resumes (s : Transactions) (t : Nat) : Prop :=
  ∃ b, s.outcome b ≠ none ∧ (s.phase t = .beginning b ∨ ∃ c r, s.phase t = .ending c r b)

/-- Nothing is left to be done: no job is due, and no statement and no callback runs. -/
structure Idle (s : Transactions) : Prop where
  queue : ∀ n, ¬ s.queue.Due n ∧ ¬ s.queue.Running n
  txQueue : ∀ t, ¬ s.txQueue.Due t
  inside : ∀ t, (s.phase t).isInside = false
  resume : ∀ t, ¬ s.Resumes t

/-- The promise of a transaction is rejected exactly when its callback or its COMMIT failed,
and then nothing of it is committed, nor is it open any more.  Where nothing is left to be done
every promise is settled. -/
structure Reported [SqliteCommits] (s : Transactions) (t : Nat) : Prop where
  rejected_iff : ∀ r, s.txQueue.Settled t r →
    ((∃ e, r = .error e) ↔ s.CallbackFailed t ∨ s.CommitFailed t)
  nothing_persists : ∀ e, s.txQueue.Settled t (.error e) →
    ∃ x ∈ s.executions, ∃ y ∈ s.executions, x.issuer = .begins t ∧ y.issuer = .ends t ∧
      SqliteCommits.committed y.after.db = SqliteCommits.committed x.before.db ∧
      SqliteCommits.inTransaction y.after.db = false
  settles : t < s.txQueue.calls.length → s.Idle → ∃ r, s.txQueue.Settled t r

/-- The calls of the callback of a transaction that wait in the queue. -/
def pending (t : Nat) (s : Transactions) : List Use :=
  (s.issued.zipIdx.filter fun p => p.1.issuer = .body t ∧ p.2 ∉ s.queue.started).map
    fun p => .task p.1.task

section Undisturbed

variable [SqliteCommits]

open SqliteCommits

/-- A statement that begins does what a transaction relies on: BEGIN succeeds, a statement of
the callback commits nothing, a COMMIT that fails leaves no transaction open, and where the
callback failed there is no transaction that ROLLBACK could end. -/
def Proceeds (s : Transactions) (i : Issued) : Prop :=
  match i.issuer with
  | .outside => True
  | .begins _ => (i.task.perform s.world).1.isOk = true
  | .body _ => committed (i.task.perform s.world).2.db = committed s.world.db
  | .ends t =>
      ((s.phase t).callbackResult.map Except.isOk = some false →
        inTransaction s.world.db = false) ∧
      ((s.phase t).callbackResult.map Except.isOk = some true →
        (i.task.perform s.world).1.isOk = true ∨
          inTransaction (i.task.perform s.world).2.db = false)

/-- A step that does not get into the way of a transaction.  Nothing is added from outside
between its BEGIN and its COMMIT or ROLLBACK, nor does an `iterate` from outside step while it
holds the connection.  Its statements share no promise with others and proceed, and none of
them waits behind a statement that fails.  An `iterate` of its callback, which does not wait for
the queue, steps only when nothing of the callback is in the queue, and commits nothing.  No
transaction is called before one that fails has ended. -/
def Undisturbed (s : Transactions) : TxEvent → Prop
  | .call c => c.task.isNone = true ∨ s.existing c ≠ none ∨
      ∀ t ∈ s.txQueue.started, (s.phase t).isOpen = false
  | .iterate _ _ => ∀ t ∈ s.txQueue.started, ¬ s.Holds t
  | .bodyCall t c => (s.phase t).isInside = true → c.task.isNone = true ∨ s.existing c = none
  | .bodyIterate t stmt done => (s.phase t).isInside = true → s.pending t = [] ∧
      committed ((iterateUse stmt done).perform s.world).2.db = committed s.world.db
  | .callbackEnds t r => (s.phase t).isInside = true → s.existing (.exec (endText r) none) = none
  | .transactionJob t =>
      (s.txQueue.begins t = true → s.existing (.exec "BEGIN".toList none) = none) ∧
        (s.txQueue.cuts t = true → t + 1 = s.txQueue.calls.length)
  | .statementJob n =>
      (s.queue.cuts n = true → ∀ i ∈ s.issued.drop (n + 1), i.issuer = .outside) ∧
        (s.queue.begins n = true → ∀ i ∈ s.issued[n]?, s.Proceeds i)
  | .transaction | .statementEnds _ | .handler _ | .resume _ => True

variable [DecidableEq Content]

instance (s : Transactions) (i : Issued) : Decidable (s.Proceeds i) :=
  match i with
  | ⟨.outside, _⟩ => inferInstanceAs (Decidable True)
  | ⟨.begins _, _⟩ => inferInstanceAs (Decidable (_ = true))
  | ⟨.body _, _⟩ => inferInstanceAs (Decidable (committed _ = committed _))
  | ⟨.ends _, _⟩ => inferInstanceAs (Decidable ((_ → _ = false) ∧ (_ → _ ∨ _)))

instance (s : Transactions) (event : TxEvent) : Decidable (s.Undisturbed event) :=
  match event with
  | .call _ => inferInstanceAs (Decidable (_ ∨ _))
  | .iterate _ _ => inferInstanceAs (Decidable (∀ t ∈ s.txQueue.started, ¬ ((∃ _ ∈ _, _) ∧ ∀ _ ∈ _, _)))
  | .bodyCall _ _ => inferInstanceAs (Decidable (_ → _))
  | .bodyIterate _ _ _ => inferInstanceAs (Decidable (_ → _))
  | .callbackEnds _ _ => inferInstanceAs (Decidable (_ → _))
  | .transactionJob _ => inferInstanceAs (Decidable (_ ∧ _))
  | .statementJob _ => inferInstanceAs (Decidable (_ ∧ _))
  | .transaction | .statementEnds _ | .handler _ | .resume _ => inferInstanceAs (Decidable True)

end Undisturbed

/-! ## What was executed -/

/-- A transaction that holds the connection behind an execution held it before, or has just
begun. -/
theorem holding_concat {t : Nat} {xs : List Executed} {x : Executed}
    (h : Holding t (xs ++ [x])) : x.issuer = .begins t ∨ Holding t xs ∧ x.issuer ≠ .ends t := by
  obtain ⟨⟨y, hy, hyt⟩, hends⟩ := h
  rcases List.mem_append.mp hy with hy | hy
  · exact Or.inr ⟨⟨⟨y, hy, hyt⟩, fun z hz => hends z (List.mem_append_left _ hz)⟩,
      hends x (List.mem_append_right _ (List.mem_singleton_self x))⟩
  · rw [List.mem_singleton.mp hy] at hyt
    exact Or.inl hyt

/-- What is executed while a transaction does not hold the connection is not between its BEGIN and
its end. -/
theorem between_concat_of_not_holding {t : Nat} {xs : List Executed} (h : ¬ Holding t xs)
    (x : Executed) : between t (xs ++ [x]) = between t xs := by
  unfold between
  by_cases hends : ∀ y ∈ xs, y.issuer ≠ .ends t
  · have hbegins : ∀ y ∈ xs, decide (y.issuer ≠ .begins t) = true := fun y hy =>
      decide_eq_true fun hyt => h ⟨⟨y, hy, hyt⟩, hends⟩
    have hends' : ∀ y ∈ xs, decide (y.issuer ≠ .ends t) = true := fun y hy =>
      decide_eq_true (hends y hy)
    rw [List.takeWhile_append_of_pos hends', List.dropWhile_append_of_pos hbegins,
      List.takeWhile_eq_self_iff.mpr hends', List.dropWhile_eq_nil_iff.mpr hbegins]
    by_cases hx : x.issuer = .ends t
    · simp [hx]
    · by_cases hb : x.issuer = .begins t <;> simp [hx, hb]
  · rw [List.takeWhile_append, if_neg]
    intro hlength
    have hself := (List.takeWhile_prefix (l := xs) fun y => decide (y.issuer ≠ .ends t)).eq_of_length
      hlength
    exact hends fun y hy => of_decide_eq_true (List.takeWhile_eq_self_iff.mp hself y hy)

/-- What is executed while it does is, up to its end. -/
theorem between_concat_of_holding {t : Nat} {xs : List Executed} (h : Holding t xs)
    (x : Executed) :
    between t (xs ++ [x]) = between t xs ++ if x.issuer = .ends t then [] else [x] := by
  obtain ⟨⟨y, hy, hyt⟩, hends⟩ := h
  have hends' : ∀ y ∈ xs, decide (y.issuer ≠ .ends t) = true := fun y hy =>
    decide_eq_true (hends y hy)
  have hdrop : xs.dropWhile (fun y => decide (y.issuer ≠ .begins t)) ≠ [] := by
    rw [Ne, List.dropWhile_eq_nil_iff]
    exact fun hall => of_decide_eq_true (hall y hy) hyt
  have htail : ([x].takeWhile fun y => decide (y.issuer ≠ .ends t)) =
      if x.issuer = .ends t then [] else [x] := by
    by_cases hx : x.issuer = .ends t <;> simp [hx]
  unfold between
  rw [List.takeWhile_append_of_pos hends', List.takeWhile_eq_self_iff.mpr hends',
    List.dropWhile_append, if_neg (by rwa [List.isEmpty_iff]), List.tail_append_of_ne_nil hdrop,
    htail]

/-- What a callback asks for is put behind what it asked for before. -/
theorem requestsOf_request (s : Transactions) (t : Nat) (uses : List Use) (u : Nat) :
    (s.request t uses).requestsOf u = s.requestsOf u ++ if t = u then uses else [] := by
  unfold requestsOf request
  rw [List.filter_append, List.map_append]
  congr 1
  by_cases hu : t = u
  · rw [if_pos hu, List.filter_eq_self.mpr, List.map_map]
    · exact List.map_id uses
    · intro r hr
      obtain ⟨use, -, rfl⟩ := List.mem_map.mp hr
      exact decide_eq_true hu
  · rw [if_neg hu, List.map_eq_nil_iff, List.filter_eq_nil_iff]
    intro r hr
    obtain ⟨use, -, rfl⟩ := List.mem_map.mp hr
    exact fun heq => hu (of_decide_eq_true heq)

section Pending

variable {s u : Transactions}

/-- What waits depends on the calls and on those that have started. -/
theorem pending_congr (hissued : u.issued = s.issued)
    (hstarted : u.queue.started = s.queue.started) (t : Nat) : u.pending t = s.pending t := by
  rw [pending, pending, hissued, hstarted]

/-- A call at the end of the queue. -/
theorem Queued.pending_push (h : s.Queued) (i : Issuer) (task : Task) (t : Nat) :
    (s.push i task).pending t = s.pending t ++ if i = .body t then [.task task] else [] := by
  have hnot : s.issued.length ∉ s.queue.started := fun hmem =>
    Nat.lt_irrefl _ (h.length ▸ h.logged.started_lt _ hmem)
  rw [pending, pending, show (s.push i task).issued = s.issued ++ [Issued.mk i task] from rfl,
    show (s.push i task).queue.started = s.queue.started from rfl, List.zipIdx_append, List.filter_append, List.map_append, Nat.zero_add, List.zipIdx_singleton]
  by_cases hi : i = .body t <;> simp [hi, hnot]

/-- A call of a callback that waits is one of its transaction and was not called. -/
theorem pending_eq_nil {t : Nat} (h : ∀ n, s.issuer n = some (.body t) → n ∈ s.queue.started) :
    s.pending t = [] := by
  rw [pending, List.map_eq_nil_iff, List.filter_eq_nil_iff]
  intro p hp hpending
  obtain ⟨hbody, hnot⟩ := of_decide_eq_true hpending
  refine hnot (h p.2 ?_)
  rw [issuer, List.mem_zipIdx_iff_getElem?.mp hp, Option.map_some, hbody]

/-- A task begins: if it is of a callback, it is the first one of those that wait. -/
theorem pending_begin {n : Nat} {i : Issued} (hi : s.issued[n]? = some i)
    (hissued : u.issued = s.issued) (hnot : n ∉ s.queue.started)
    (hstarted : u.queue.started = s.queue.started ++ [n]) {t : Nat}
    (hbefore : ∀ m < n, s.issuer m = some (.body t) → m ∈ s.queue.started) :
    s.pending t = (if i.issuer = .body t then [.task i.task] else []) ++ u.pending t := by
  obtain ⟨hlt, hget⟩ := List.getElem?_eq_some_iff.mp hi
  have hsplit : s.issued = s.issued.take n ++ i :: s.issued.drop (n + 1) := by
    rw [← hget, List.getElem_cons_drop, List.take_append_drop]
  have hlength : (s.issued.take n).length = n := List.length_take_of_le (Nat.le_of_lt hlt)
  have hzip : s.issued.zipIdx = (s.issued.take n).zipIdx ++
      (i, n) :: (s.issued.drop (n + 1)).zipIdx (n + 1) := by
    conv_lhs => rw [hsplit]
    rw [List.zipIdx_append, hlength, Nat.zero_add, List.zipIdx_cons]
  have hmem (m : Nat) : m ∈ u.queue.started ↔ m ∈ s.queue.started ∨ m = n := by
    rw [hstarted, List.mem_append, List.mem_singleton]
  -- nothing waits before the task, and what is behind it waits as before
  have hfirst (q : Transactions) (hq : ∀ m ∈ s.queue.started, m ∈ q.queue.started) :
      (s.issued.take n).zipIdx.filter
        (fun p => decide (p.1.issuer = .body t ∧ p.2 ∉ q.queue.started)) = [] := by
    rw [List.filter_eq_nil_iff]
    intro p hp hpending
    obtain ⟨hbody, hwaits⟩ := of_decide_eq_true hpending
    have hp := List.mem_zipIdx_iff_getElem?.mp hp
    have hpn : p.2 < n := by
      have hlt := (List.getElem?_eq_some_iff.mp hp).1
      rwa [hlength] at hlt
    rw [List.getElem?_take_of_lt hpn] at hp
    exact hwaits (hq _ (hbefore p.2 hpn (by rw [issuer, hp, Option.map_some, hbody])))
  have hrest : ((s.issued.drop (n + 1)).zipIdx (n + 1)).filter
        (fun p => decide (p.1.issuer = .body t ∧ p.2 ∉ u.queue.started)) =
      ((s.issued.drop (n + 1)).zipIdx (n + 1)).filter
        (fun p => decide (p.1.issuer = .body t ∧ p.2 ∉ s.queue.started)) := by
    refine List.filter_congr fun p hp => ?_
    have hne : p.2 ≠ n := Nat.ne_of_gt (List.le_snd_of_mem_zipIdx hp)
    simp [hmem, hne]
  have hself : n ∈ u.queue.started := (hmem n).mpr (Or.inr rfl)
  unfold pending
  rw [hissued, hzip, List.filter_append, List.filter_append, hfirst s fun _ hm => hm,
    hfirst u fun m hm => (hmem m).mpr (Or.inl hm), List.nil_append, List.nil_append,
    List.filter_cons, List.filter_cons, hrest]
  by_cases hbody : i.issuer = .body t <;> simp [hbody, hnot, hself]

end Pending

/-! ## Isolation and persistence -/

section Kept

variable [SqliteCommits] {s s' : Transactions}

open SqliteCommits

/-- What is executed for a transaction does what it relies on. -/
def Complies (s : Transactions) (x : Executed) : Prop :=
  match x.issuer with
  | .outside => True
  | .begins _ => (∃ v, x.result = .ok v) ∧ committed x.after.db = committed x.before.db
  | .body _ => committed x.after.db = committed x.before.db
  | .ends t =>
      (∀ e, x.result = .error e → committed x.after.db = committed x.before.db ∧
        inTransaction x.after.db = false) ∧
      ((∃ e, (s.phase t).callbackResult = some (.error e)) → ∃ e, x.result = .error e)

/-- What was executed for a callback and what waits in the queue is what it asked for, and while
a transaction is open and when it has failed nothing of it is committed. -/
structure Kept (s : Transactions) : Prop where
  requested : ∀ t, (between t s.executions).map Executed.use ++ s.pending t = s.requestsOf t
  base : ∀ t, Holding t s.executions → ∃ x ∈ s.executions, x.issuer = .begins t ∧
    committed s.world.db = committed x.before.db
  began : ∀ x ∈ s.executions, ∀ t, x.issuer = .begins t → ∃ v, x.result = .ok v
  failed : ∀ y ∈ s.executions, ∀ t e, y.issuer = .ends t → y.result = .error e →
    ∃ x ∈ s.executions, x.issuer = .begins t ∧
      committed y.after.db = committed x.before.db ∧ inTransaction y.after.db = false
  rolledBack : ∀ y ∈ s.executions, ∀ t, y.issuer = .ends t →
    (∃ e, (s.phase t).callbackResult = some (.error e)) → ∃ e, y.result = .error e

/-- Nothing has been executed to begin with. -/
theorem kept_new (world : World) : (new world).Kept where
  requested t := rfl
  base t ht := by simp [new, Holding] at ht
  began := by simp [new]
  failed := by simp [new]
  rolledBack := by simp [new]

/-- Nothing is executed. -/
theorem Kept.congr (h : s.Kept) (hexecutions : s'.executions = s.executions)
    (hworld : committed s'.world.db = committed s.world.db)
    (hrequested : ∀ t, ∃ uses, s'.pending t = s.pending t ++ uses ∧
      s'.requestsOf t = s.requestsOf t ++ uses)
    (hresult : ∀ y ∈ s.executions, ∀ t, y.issuer = .ends t →
      (s'.phase t).callbackResult = (s.phase t).callbackResult) : s'.Kept := by
  obtain ⟨hkept, hbase, hbegan, hfailed, hrolled⟩ := h
  refine ⟨fun t => ?_, ?_, ?_, ?_, ?_⟩
  · obtain ⟨uses, hpending, hrequests⟩ := hrequested t
    rw [hexecutions, hpending, hrequests, ← List.append_assoc, hkept]
  · rwa [hexecutions, hworld]
  · rwa [hexecutions]
  · rwa [hexecutions]
  · rw [hexecutions]
    intro y hy t hyt
    rw [hresult y hy t hyt]
    exact hrolled y hy t hyt

/-- Something is executed that complies.  While a transaction is open it is of it. -/
theorem Kept.execute (h : s.Kept) {x : Executed} (hexecutions : s'.executions = s.executions ++ [x])
    (hbefore : x.before = s.world) (hafter : x.after = s'.world) (hphase : s'.phase = s.phase)
    (hholding : ∀ t, Holding t s.executions ↔ x.issuer = .body t ∨ x.issuer = .ends t)
    (hrequested : ∀ t, ∃ uses, s'.requestsOf t = s.requestsOf t ++ uses ∧
      s.pending t ++ uses = (if x.issuer = .body t then [x.use] else []) ++ s'.pending t)
    (hcomplies : s.Complies x) : s'.Kept := by
  have hnot {t : Nat} (hx : x.issuer = .begins t) : ¬ Holding t s.executions := fun hold => by
    rcases (hholding t).mp hold with heq | heq <;> rw [hx] at heq <;> cases heq
  have hlast : x ∈ s'.executions := by
    rw [hexecutions]
    exact List.mem_append_right _ (List.mem_singleton_self x)
  have hold : ∀ y ∈ s.executions, y ∈ s'.executions := fun y hy => by
    rw [hexecutions]
    exact List.mem_append_left _ hy
  have hmem {y : Executed} (hy : y ∈ s'.executions) : y ∈ s.executions ∨ y = x := by
    rw [hexecutions] at hy
    exact (List.mem_append.mp hy).imp id List.mem_singleton.mp
  have hbase (t : Nat) (hx : x.issuer = .body t ∨ x.issuer = .ends t)
      (hsame : committed x.after.db = committed x.before.db) :
      ∃ y ∈ s'.executions, y.issuer = .begins t ∧
        committed x.after.db = committed y.before.db := by
    obtain ⟨y, hy, hyt, hcommitted⟩ := h.base t ((hholding t).mpr hx)
    exact ⟨y, hold y hy, hyt, by rw [hsame, hbefore, hcommitted]⟩
  unfold Complies at hcomplies
  refine ⟨fun t => ?_, fun t ht => ?_, fun y hy t hyt => ?_, fun y hy t e hyt hye => ?_,
    fun y hy t hyt hcallback => ?_⟩
  · obtain ⟨uses, hrequests, hpending⟩ := hrequested t
    rw [hexecutions, hrequests, ← h.requested t, List.append_assoc, hpending, ← List.append_assoc]
    congr 1
    by_cases ht : Holding t s.executions
    · rw [between_concat_of_holding ht, List.map_append]
      rcases (hholding t).mp ht with hx | hx <;> simp [hx]
    · rw [between_concat_of_not_holding ht, if_neg fun hx => ht ((hholding t).mpr (Or.inl hx)),
        List.append_nil]
  · rw [hexecutions] at ht
    rw [← hafter]
    rcases holding_concat ht with hx | ⟨ht, hx⟩
    · rw [hx] at hcomplies
      exact ⟨x, hlast, hx, hcomplies.2⟩
    · have hbody := ((hholding t).mp ht).resolve_right hx
      rw [hbody] at hcomplies
      exact hbase t (Or.inl hbody) hcomplies
  · rcases hmem hy with hy | rfl
    · exact h.began y hy t hyt
    · rw [hyt] at hcomplies
      exact hcomplies.1
  · rcases hmem hy with hy | rfl
    · obtain ⟨z, hz, hzt⟩ := h.failed y hy t e hyt hye
      exact ⟨z, hold z hz, hzt⟩
    · rw [hyt] at hcomplies
      obtain ⟨hsame, hidle⟩ := hcomplies.1 e hye
      obtain ⟨z, hz, hzt, hcommitted⟩ := hbase t (Or.inr hyt) hsame
      exact ⟨z, hz, hzt, hcommitted, hidle⟩
  · rw [hphase] at hcallback
    rcases hmem hy with hy | rfl
    · exact h.rolledBack y hy t hyt hcallback
    · rw [hyt] at hcomplies
      exact hcomplies.2 hcallback

end Kept

/-! ## Steps -/

section Steps

variable {s : Transactions}

variable [SqliteCommits]

open SqliteCommits

/-- The use of the connection that begins. -/
def executionOf (s : Transactions) (call : Option Nat) (issuer : Issuer) (use : Use) : Executed :=
  ⟨call, issuer, use, s.world, (use.perform s.world).2, (use.perform s.world).1⟩

/-- A statement that proceeds does what its transaction relies on. -/
theorem Layout.complies (h : s.Layout) {n : Nat} {i : Issued} (hi : s.issued[n]? = some i)
    (hproceeds : s.Proceeds i) :
    s.Complies (s.executionOf (some n) i.issuer (.task i.task)) := by
  unfold Proceeds at hproceeds
  unfold Complies
  change match i.issuer with
    | .outside => True
    | .begins _ => (∃ v, (i.task.perform s.world).1 = .ok v) ∧
        committed (i.task.perform s.world).2.db = committed s.world.db
    | .body _ => committed (i.task.perform s.world).2.db = committed s.world.db
    | .ends t => (∀ e, (i.task.perform s.world).1 = .error e →
        committed (i.task.perform s.world).2.db = committed s.world.db ∧
          inTransaction (i.task.perform s.world).2.db = false) ∧
        ((∃ e, (s.phase t).callbackResult = some (.error e)) →
          ∃ e, (i.task.perform s.world).1 = .error e)
  cases hissuer : i.issuer with
  | outside => trivial
  | begins t =>
      rw [hissuer] at hproceeds
      refine ⟨exists_of_isOk hproceeds, ?_⟩
      rw [h.begin_task n i t hi hissuer]
      exact committed_begin s.world
  | body t =>
      rw [hissuer] at hproceeds
      exact hproceeds
  | ends t =>
      obtain ⟨r, hr, htask⟩ := h.end_task n i t hi hissuer
      simp only [hissuer, hr] at hproceeds ⊢
      rw [htask] at hproceeds ⊢
      cases r with
      | ok _ =>
          refine ⟨fun e he => ⟨committed_commit s.world e he, ?_⟩, ?_⟩
          · refine (hproceeds.2 rfl).resolve_left fun hok => ?_
            obtain ⟨v, hv⟩ := exists_of_isOk hok
            cases hv.symm.trans he
          · rintro ⟨e, he⟩
            cases he
      | error e =>
          obtain ⟨hfails, hidle⟩ := rollback_idle s.world (hproceeds.1 rfl)
          exact ⟨fun _ _ => ⟨SqliteCommits.committed_rollback s.world, hidle⟩, fun _ => hfails⟩

/-- The statements that were issued and executed. -/
structure Statements (s : Transactions) : Prop where
  queued : s.Queued
  layout : s.Layout
  kept : s.Kept

/-- A call of an issuer is added. -/
theorem Statements.kept_push (h : s.Statements) (i : Issuer) (task : Task) (hi : ∀ t, i ≠ .body t) :
    (s.push i task).Kept :=
  h.kept.congr rfl rfl (fun t => ⟨[], by
    rw [h.queued.pending_push, if_neg (hi t)], (List.append_nil _).symm⟩) fun _ _ _ _ => rfl

/-- The cache is no part of the invariant. -/
theorem Statements.of_cache (h : s.Statements) (cache : List (Str × Nat)) (handlers : List (Nat × Str)) :
    Statements { s with cache := cache, handlers := handlers } where
  queued := h.queued.congr rfl rfl rfl
  layout := h.layout.congr rfl rfl fun _ => id
  kept := h.kept.congr rfl rfl
    (fun _ => ⟨[], (List.append_nil _).symm, (List.append_nil _).symm⟩) fun _ _ _ _ => rfl

/-- What a computation that goes on keeps. -/
theorem committed_bind_action {α β : Type} {x : Action α} {f : α → Action β} {w : World}
    (hx : committed (x w).2.db = committed w.db)
    (hf : ∀ a w', committed (f a w').2.db = committed w'.db) :
    committed ((x >>= f) w).2.db = committed w.db := by
  rw [← hx]
  change committed (ExceptT.bindCont f (x w).1 (x w).2).2.db = _
  cases (x w).1 with
  | ok a => exact hf a (x w).2
  | error e => rfl

/-- To bind values commits nothing. -/
theorem committed_bindFrom (stmt : Nat) (vs : List Value) (k : Nat) (w : World) :
    committed (bindFrom stmt k vs w).2.db = committed w.db := by
  induction vs generalizing k w with
  | nil => rfl
  | cons v vs ih =>
      exact committed_bind_action (committed_bind stmt (k + 1) v w.db) fun _ w' => ih (k + 1) w'

/-- A call that enqueues nothing commits nothing. -/
theorem committed_now {c : Call} (hc : c.task = none) (w : World) :
    committed (c.now w).2.db = committed w.db := by
  cases c with
  | bind stmt args =>
      exact committed_bind_action (committed_bindFrom stmt.base args 0 w) fun _ _ => rfl
  | raw stmt isRaw => rfl
  | exec | execO | execA | run | get | all => cases hc

/-- A call from outside is added while no transaction awaits calls. -/
theorem Statements.call_outside (h : s.Statements) (htasks : s.Tasks) {c : Call}
    (hc : c.task.isNone = true ∨ s.existing c ≠ none ∨
      ∀ t ∈ s.txQueue.started, (s.phase t).isOpen = false) : (s.call .outside c).Statements := by
  unfold call
  split
  next htask =>
    exact ⟨h.queued.congr rfl rfl rfl, h.layout.congr rfl rfl fun _ => id,
      h.kept.congr rfl (committed_now htask s.world)
        (fun _ => ⟨[], (List.append_nil _).symm, (List.append_nil _).symm⟩) fun _ _ _ _ => rfl⟩
  next task htask =>
    cases hexisting : s.existing c with
    | some promise =>
        rw [serialize, hexisting]
        exact h
    | none =>
        obtain ⟨cache, handlers, heq⟩ := serialize_eq (i := .outside) hexisting task
        rw [heq]
        have hclosed (t : Nat) : (s.phase t).isOpen = false := by
          by_cases ht : t ∈ s.txQueue.started
          · refine (hc.resolve_left ?_).resolve_left (fun hne => hne hexisting) t ht
            rw [htask]
            exact Bool.false_ne_true
          · rw [htasks.waiting t ht]
            rfl
        refine Statements.of_cache ⟨h.queued.push _ _, h.layout.push _ (Or.inl rfl) fun t ht => ?_,
          h.kept_push _ _ fun _ => Issuer.noConfusion⟩ cache handlers
        rw [hclosed t] at ht
        cases ht

/-- A call of a callback. -/
theorem Statements.bodyCall (h : s.Statements) (htasks : s.Tasks) {t : Nat} {c : Call}
    (hc : (s.phase t).isInside = true → c.task.isNone = true ∨ s.existing c = none) :
    (s.bodyCall t c).Statements := by
  unfold Transactions.bodyCall
  split
  next hinside =>
    unfold call
    split
    next htask =>
      refine ⟨h.queued.congr rfl rfl rfl, h.layout.congr rfl rfl fun _ => id,
        h.kept.congr rfl (committed_now htask s.world)
          (fun u => ⟨[], (List.append_nil _).symm, ?_⟩) fun _ _ _ _ => rfl⟩
      refine (requestsOf_request s t _ u).trans ?_
      rw [htask]
      by_cases hu : t = u <;> simp [hu]
    next task htask =>
      have hexisting : s.existing c = none :=
        (hc hinside).resolve_left (by rw [htask]; exact Bool.false_ne_true)
      obtain ⟨cache, handlers, heq⟩ := serialize_eq (i := .body t)
        (s := s.request t (c.task.toList.map Use.task)) hexisting task
      rw [heq]
      refine Statements.of_cache ⟨?_, ?_, ?_⟩ cache handlers
      · exact (h.queued.push (.body t) task).congr rfl rfl rfl
      · refine (h.layout.push task (Or.inr ⟨t, rfl, hinside⟩) fun u hu => ?_).congr rfl rfl
          fun _ => id
        rw [htasks.body_of_open hinside u hu]
      · refine h.kept.congr rfl rfl (fun u => ⟨_, h.queued.pending_push (.body t) task u, ?_⟩)
          fun _ _ _ _ => rfl
        refine (requestsOf_request s t _ u).trans ?_
        rw [htask]
        by_cases hu : t = u <;> simp [hu]
  next => exact h

/-- A use that does not wait for the queue, of a callback or while no transaction is open. -/
theorem Statements.direct (h : s.Statements) {s' : Transactions} {i : Issuer} {use : Use}
    (hi : i = .outside ∨ ∃ t, i = .body t)
    (hqueued : s'.Queued) (hlayout : s'.Layout)
    (hexecutions : s'.executions = s.executions ++ [s.executionOf none i use])
    (hworld : s'.world = (use.perform s.world).2) (hphase : s'.phase = s.phase)
    (hholding : ∀ t, s.Holds t ↔ i = .body t)
    (hrequested : ∀ t, ∃ uses, s'.requestsOf t = s.requestsOf t ++ uses ∧
      s.pending t ++ uses = (if i = .body t then [use] else []) ++ s'.pending t)
    (hbody : ∀ t, i = .body t → committed (use.perform s.world).2.db = committed s.world.db) :
    s'.Statements := by
  refine ⟨hqueued, hlayout, h.kept.execute hexecutions rfl hworld.symm hphase (fun t => ?_)
    hrequested ?_⟩
  · rw [holding_iff h.queued h.layout, hholding]
    refine (or_iff_left fun hend => ?_).symm
    rcases hi with rfl | ⟨u, rfl⟩ <;> exact Issuer.noConfusion hend
  · unfold Complies
    rcases hi with rfl | ⟨u, rfl⟩
    · trivial
    · exact hbody u rfl

/-- A step of `iterate` from outside, while no transaction holds the connection. -/
theorem Statements.iterate (h : s.Statements) (htasks : s.Tasks) {stmt : StmtObject} {done : Bool}
    (hholds : ∀ t ∈ s.txQueue.started, ¬ s.Holds t) :
    (s.execute none .outside (iterateUse stmt done)).Statements := by
  refine h.direct (Or.inl rfl) (h.queued.direct_use (Or.inl rfl) _)
    (h.layout.congr rfl rfl fun _ => id) rfl rfl rfl (fun t => iff_of_false ?_ Issuer.noConfusion)
    (fun t => ⟨[], (List.append_nil _).symm, List.append_nil _⟩)
    (fun t ht => Issuer.noConfusion ht)
  by_cases ht : t ∈ s.txQueue.started
  · exact hholds t ht
  · rintro ⟨⟨b, -, hb⟩, -⟩
    rw [htasks.waiting t ht] at hb
    cases hb

/-- While the callback of a transaction runs it is the one that is open. -/
theorem Statements.holds_iff (h : s.Statements) {t : Nat} (hinside : (s.phase t).isInside = true) (u : Nat) :
    s.Holds u ↔ u = t := by
  obtain ⟨b, hphase⟩ := TxPhase.exists_of_isInside hinside
  have hbegin : (s.phase t).beginPromise = some b := by rw [hphase]; rfl
  have hend : (s.phase t).endPromise = none := by rw [hphase]; rfl
  have hstarted : b ∈ s.queue.started :=
    h.layout.begun t b hbegin (by rw [hphase]; exact TxPhase.noConfusion)
  constructor
  · rintro ⟨⟨b', hb', hbegin'⟩, hends⟩
    by_contra hne
    have hissuer := (h.layout.begins_iff b t).mpr hbegin
    have hissuer' := (h.layout.begins_iff b' u).mpr hbegin'
    -- neither BEGIN stands within the other transaction
    rcases Nat.lt_trichotomy b b' with hlt | rfl | hgt
    · have hbody := (h.layout.body_iff b' t).mpr ⟨issuer_lt hissuer', b, hbegin, hlt, fun e he => by
        rw [hend] at he
        cases he⟩
      rw [hissuer'] at hbody
      cases hbody
    · exact hne (Issuer.begins.inj (Option.some.inj (hissuer'.symm.trans hissuer)))
    · cases hend' : (s.phase u).endPromise with
      | none =>
          have hbody := (h.layout.body_iff b u).mpr ⟨issuer_lt hissuer, b', hbegin', hgt,
            fun e he => by rw [hend'] at he; cases he⟩
          rw [hissuer] at hbody
          cases hbody
      | some e =>
          have hissuerEnd := (h.layout.ends_iff e u).mpr hend'
          rcases Nat.lt_trichotomy b e with hbe | rfl | hbe
          · have hbody := (h.layout.body_iff b u).mpr ⟨issuer_lt hissuer, b', hbegin', hgt,
              fun e' he => by rw [hend'] at he; exact Option.some.inj he ▸ hbe⟩
            rw [hissuer] at hbody
            cases hbody
          · rw [hissuer] at hissuerEnd
            cases hissuerEnd
          · exact hends e (h.queued.in_order hissuerEnd Issuer.noConfusion hbe hstarted) hend'
  · rintro rfl
    exact ⟨⟨b, hstarted, hbegin⟩, fun e _ he => by rw [hend] at he; cases he⟩

/-- A step of `iterate` in a callback of which nothing waits is what the callback asks for
next. -/
theorem Statements.bodyIterate (h : s.Statements) {t : Nat} {stmt : StmtObject} {done : Bool}
    (hok : (s.phase t).isInside = true → s.pending t = [] ∧
      committed ((iterateUse stmt done).perform s.world).2.db = committed s.world.db) :
    (s.bodyIterate t stmt done).Statements := by
  unfold Transactions.bodyIterate
  split
  next hinside =>
    obtain ⟨hpending, hsame⟩ := hok hinside
    refine h.direct (Or.inr ⟨t, rfl⟩)
      ((h.queued.direct_use (Or.inr ⟨t, rfl⟩) _).congr rfl rfl rfl)
      (h.layout.congr rfl rfl fun _ => id) rfl rfl rfl (fun u => ?_) (fun u => ⟨_, requestsOf_request s t _ u, ?_⟩) fun _ _ => hsame
    · rw [h.holds_iff hinside]
      exact ⟨fun hu => by rw [hu], fun hu => (Issuer.body.inj hu).symm⟩
    · by_cases hu : t = u
      · subst hu
        rw [if_pos rfl, if_pos rfl, hpending]
        exact congrArg ([iterateUse stmt done] ++ ·) hpending.symm
      · rw [if_neg hu, if_neg fun heq => hu (Issuer.body.inj heq), List.append_nil]
        rfl
  next => exact h

/-- The callback of a transaction ends, and its COMMIT or ROLLBACK is added. -/
theorem Statements.callbackEnds (h : s.Statements) (htasks : s.Tasks) {t : Nat} {r : Except Str Unit}
    (hok : (s.phase t).isInside = true → s.existing (.exec (endText r) none) = none) :
    (s.callbackEnds t r).Statements := by
  unfold Transactions.callbackEnds
  split
  next b hphase =>
    have hinside : (s.phase t).isInside = true := by rw [hphase]; rfl
    obtain ⟨cache, handlers, heq⟩ := serialize_eq (i := .ends t) (hok hinside)
      (execTask (endText r))
    rw [exec, heq]
    refine Statements.of_cache (s := (s.push (.ends t) (execTask (endText r))).setPhase t
      (.ending b r s.queue.calls.length)) ⟨?_, ?_, ?_⟩ cache handlers
    · exact (h.queued.push _ _).congr rfl rfl rfl
    · rw [← h.queued.length]
      exact h.layout.push_end hphase r fun u hu => htasks.body_of_open hinside u hu
    · refine (h.kept_push (.ends t) (execTask (endText r)) fun _ => Issuer.noConfusion).congr rfl
        rfl (fun _ => ⟨[], (List.append_nil _).symm, (List.append_nil _).symm⟩) fun y hy u hyu => ?_
      have hu : u ≠ t := by
        rintro rfl
        obtain ⟨n, -, hn⟩ := (h.queued.executed_iff (i := .ends u) Issuer.noConfusion
          fun _ => Issuer.noConfusion).mp ⟨y, hy, hyu⟩
        rw [h.layout.ends_iff, hphase] at hn
        cases hn
      exact congrArg TxPhase.callbackResult (phase_setPhase_of_ne hu _ _)
  next => exact h

/-- A job of the queue of transactions. -/
theorem Statements.transactionJob (h : s.Statements) (htasks : s.Tasks) {t : Nat}
    (hexisting : s.txQueue.begins t = true → s.existing (.exec "BEGIN".toList none) = none) :
    (s.transactionJob t).Statements := by
  unfold Transactions.transactionJob
  cases hbegins : s.txQueue.begins t with
  | false =>
      exact ⟨h.queued.congr rfl rfl rfl, h.layout.congr rfl rfl fun _ => id, h.kept.congr rfl rfl
          (fun _ => ⟨[], (List.append_nil _).symm, (List.append_nil _).symm⟩) fun _ _ _ _ => rfl⟩
  | true =>
      obtain ⟨hwaiting, hactive⟩ := htasks.not_active_of_begins hbegins
      have hclosed (u : Nat) : (s.phase u).isOpen = false :=
        eq_false_of_ne_true fun hu => by
          have hnot := hactive u
          rw [TxPhase.isActive_of_isOpen hu] at hnot
          cases hnot
      obtain ⟨cache, handlers, heq⟩ := serialize_eq (i := .begins t)
        (s := { s with txQueue := s.txQueue.job t }) (hexisting hbegins)
        (execTask "BEGIN".toList)
      dsimp only
      rw [if_pos rfl, exec, heq]
      refine Statements.of_cache (s := setPhase t (.beginning s.queue.calls.length)
        { s.push (.begins t) (execTask "BEGIN".toList) with txQueue := s.txQueue.job t })
        ⟨?_, ?_, ?_⟩ cache handlers
      · exact (h.queued.push _ _).congr rfl rfl rfl
      · rw [← h.queued.length]
        exact (h.layout.push_begin hwaiting hclosed).congr rfl rfl fun _ => id
      · refine (h.kept_push (.begins t) (execTask "BEGIN".toList)
          fun _ => Issuer.noConfusion).congr rfl rfl
          (fun _ => ⟨[], (List.append_nil _).symm, (List.append_nil _).symm⟩) fun y hy u hyu => ?_
        have hu : u ≠ t := by
          rintro rfl
          obtain ⟨n, -, hn⟩ := (h.queued.executed_iff (i := .ends u) Issuer.noConfusion
            fun _ => Issuer.noConfusion).mp ⟨y, hy, hyu⟩
          rw [h.layout.ends_iff, hwaiting] at hn
          cases hn
        exact congrArg TxPhase.callbackResult (phase_setPhase_of_ne hu _ _)

/-- A job of the queue of statements. -/
theorem Statements.statementJob (h : s.Statements) {n : Nat}
    (hcuts : s.queue.cuts n = true → ∀ i ∈ s.issued.drop (n + 1), i.issuer = .outside)
    (hproceeds : s.queue.begins n = true → ∀ i ∈ s.issued[n]?, s.Proceeds i) :
    (s.statementJob n).Statements := by
  unfold Transactions.statementJob
  cases hbegins : s.queue.begins n with
  | false =>
      have hhands := ((s.queue.job_spec n).resolve_left fun hb => by simp [hb.1] at hbegins).2.1
      refine ⟨h.queued.job hbegins hcuts, h.layout.congr rfl rfl fun m hm => ?_, h.kept.congr rfl rfl
          (fun t => ⟨[], ?_, (List.append_nil _).symm⟩) fun _ _ _ _ => rfl⟩
      · exact hhands.started.symm ▸ hm
      · rw [List.append_nil]
        exact pending_congr (s := s) (u := { s with queue := s.queue.job n }) rfl hhands.started t
  | true =>
      have hjob := ((s.queue.job_spec n).resolve_right fun hb => by simp [hb.1] at hbegins).2
      obtain ⟨hstarted, hnot, -⟩ := h.queued.started_job hbegins
      have hlt : n < s.issued.length := by
        obtain ⟨-, hlogged⟩ := PromiseJobs.invariant_step ⟨h.queued.linked, h.queued.logged⟩
          (.job n)
        rw [h.queued.length, ← hjob.length]
        refine hlogged.started_lt n ?_
        rw [PromiseJobs.step, hstarted]
        exact List.mem_append_right _ (List.mem_singleton_self n)
      have hi : s.issued[n]? = some s.issued[n] := List.getElem?_eq_getElem hlt
      dsimp only
      rw [if_pos rfl, hi]
      refine ⟨h.queued.begin hi hbegins, h.layout.congr rfl rfl fun m hm => ?_,
        h.kept.execute rfl rfl rfl rfl (begins_iff_holding hi hbegins h.queued h.layout)
          (fun t => ⟨[], (List.append_nil _).symm, ?_⟩)
          (h.layout.complies hi (hproceeds hbegins _ hi))⟩
      · exact hstarted.symm ▸ List.mem_append_left _ hm
      · rw [List.append_nil]
        exact pending_begin (u := execute (some n) s.issued[n].issuer (.task s.issued[n].task)
          { s with queue := s.queue.job n }) hi rfl hnot hstarted fun m hm hissuer =>
            h.queued.begun_before hi hbegins hissuer Issuer.noConfusion hm

/-- The end of a statement executes nothing. -/
theorem Statements.statementEnds (h : s.Statements) (n : Nat) : (s.statementEnds n).Statements := by
  unfold Transactions.statementEnds
  split
  next => exact h
  next x hx =>
    have hmem := List.mem_of_find?_eq_some hx
    have hcall : x.call = some n := by simpa using List.find?_some hx
    have hstarted : (s.queue.taskEnds n x.result).started = s.queue.started := by
      by_cases hrun : s.queue.Running n
      · exact (PromiseJobs.taskEnds_spec hrun x.result).started
      · rw [PromiseJobs.taskEnds_of_not_running hrun]
    refine ⟨h.queued.ends hmem hcall, h.layout.congr rfl rfl fun m hm => hstarted.symm ▸ hm,
      h.kept.congr rfl rfl (fun t => ⟨[], ?_, (List.append_nil _).symm⟩) fun _ _ _ _ => rfl⟩
    rw [List.append_nil]
    exact pending_congr (s := s) (u := { s with queue := s.queue.taskEnds n x.result }) rfl hstarted t

/-- A transaction goes on. -/
theorem Statements.resume (h : s.Statements) (t : Nat) : (s.resume t).Statements := by
  have hkept (p : TxPhase) (hp : ∀ r, (s.phase t).callbackResult = some r →
      p.callbackResult = some r) (hend : (s.phase t).callbackResult = none →
      (s.phase t).endPromise = none) : (s.setPhase t p).Kept := by
    refine h.kept.congr rfl rfl
      (fun _ => ⟨[], (List.append_nil _).symm, (List.append_nil _).symm⟩) fun y hy u hyu => ?_
    by_cases hu : u = t
    · subst hu
      rw [phase_setPhase_self]
      cases hr : (s.phase u).callbackResult with
      | some r => exact hp r hr
      | none =>
          obtain ⟨n, -, hn⟩ := (h.queued.executed_iff (i := .ends u) Issuer.noConfusion
            fun _ => Issuer.noConfusion).mp ⟨y, hy, hyu⟩
          rw [h.layout.ends_iff, hend hr] at hn
          cases hn
    · rw [phase_setPhase_of_ne hu]
  unfold Transactions.resume
  split
  next b hphase =>
    have hissuer := (h.layout.begins_iff b t).mpr (by rw [hphase]; rfl)
    split
    next ho =>
      obtain ⟨hstarted, -⟩ := h.queued.execution_of_outcome hissuer Issuer.noConfusion ho
      refine ⟨h.queued.congr rfl rfl rfl, h.layout.enter hphase hstarted, hkept _ (fun r hr => ?_) fun _ => ?_⟩
      · rw [hphase] at hr
        cases hr
      · rw [hphase]
        rfl
    next e ho =>
      -- a BEGIN that was called has succeeded
      obtain ⟨-, x, hx, hxt, hresult⟩ :=
        h.queued.execution_of_outcome hissuer Issuer.noConfusion ho
      obtain ⟨v, hv⟩ := h.kept.began x hx t hxt
      rw [hv] at hresult
      cases hresult
    next => exact h
  next b r e hphase =>
    split
    next o ho =>
      refine ⟨h.queued.congr rfl rfl rfl, (h.layout.leave hphase).congr rfl rfl fun _ => id,
        (hkept (.ended b r e) (fun r' hr => ?_) fun hnone => ?_).congr rfl
          rfl (fun _ => ⟨[], (List.append_nil _).symm, (List.append_nil _).symm⟩)
          fun _ _ _ _ => rfl⟩
      · rwa [hphase] at hr
      · rw [hphase] at hnone
        cases hnone
    next => exact h
  next => exact h

/-- What every undisturbed step keeps. -/
structure Inv (s : Transactions) : Prop extends s.Statements where
  tasks : s.Tasks
  unskipped : s.txQueue.Unskipped fun _ => True

/-- A wrapper without calls. -/
theorem inv_new (world : World) : (new world).Inv where
  queued := queued_new world
  layout := layout_new world
  kept := kept_new world
  tasks := tasks_new world
  unskipped t c hc := by simp [new, PromiseJobs.new, PromiseJobs.At] at hc

/-- An undisturbed step keeps what is executed in step with what the callbacks ask for. -/
theorem Statements.step (h : s.Statements) (htasks : s.Tasks) {event : TxEvent}
    (hok : s.Undisturbed event) : (s.step event).Statements := by
  cases event with
  | call c => exact h.call_outside htasks hok
  | iterate stmt done => exact h.iterate htasks hok
  | transaction =>
      exact ⟨h.queued.congr rfl rfl rfl, h.layout.congr rfl rfl fun _ => id, h.kept.congr rfl rfl
        (fun _ => ⟨[], (List.append_nil _).symm, (List.append_nil _).symm⟩) fun _ _ _ _ => rfl⟩
  | bodyCall t c => exact h.bodyCall htasks hok
  | bodyIterate t stmt done => exact h.bodyIterate hok
  | callbackEnds t r => exact h.callbackEnds htasks hok
  | transactionJob t => exact h.transactionJob htasks hok.1
  | statementJob n => exact h.statementJob hok.1 hok.2
  | statementEnds n => exact h.statementEnds n
  | handler promise =>
      rw [Transactions.step, runHandler]
      split
      · exact h.of_cache _ _
      · exact h
  | resume t => exact h.resume t

/-- The tasks of transactions are not cut off. -/
theorem unskipped_step (h : s.txQueue.Unskipped fun _ => True) (htasks : s.Tasks)
    {event : TxEvent} (hok : s.Undisturbed event) :
    (s.step event).txQueue.Unskipped fun _ => True := by
  rcases s.txQueue_step event with heq | heq | ⟨t, rfl, heq⟩ | ⟨t, r, heq⟩ <;> rw [heq]
  · exact h
  · exact h.add _ fun _ _ _ => trivial
  · refine h.job htasks.logged fun hcut u hu hlt _ => ?_
    have hlast := hok.2 hcut
    omega
  · by_cases hrun : s.txQueue.Running t
    · have hend := PromiseJobs.taskEnds_spec hrun r
      exact h.of_keeps hend.toKeeps hend.exceptionCount fun m hm => hend.started ▸ hm
    · rwa [PromiseJobs.taskEnds_of_not_running hrun]

/-- An undisturbed step keeps the invariant. -/
theorem inv_step (h : s.Inv) (event : TxEvent) (hok : s.Undisturbed event) :
    (s.step event).Inv where
  toStatements := h.toStatements.step h.tasks hok
  tasks := h.tasks.step event
  unskipped := unskipped_step h.unskipped h.tasks hok

end Steps

/-! ## Runs -/

/-- A result is an error with or without its value. -/
theorem discard_error_iff {o : Except Str Result} :
    (∃ e, discard o = .error e) ↔ ∃ e, o = .error e := by
  cases o with
  | ok v => exact iff_of_false (fun ⟨_, he⟩ => nomatch he) fun ⟨_, he⟩ => nomatch he
  | error e => exact iff_of_true ⟨e, rfl⟩ ⟨e, rfl⟩

section Undisturbed

variable [SqliteCommits] {s : Transactions}

/-- When a transaction is over, all that its callback asked for was executed. -/
theorem Inv.isolated (h : s.Inv) (t : Nat) : s.Isolated t := by
  intro hends
  obtain ⟨e, he, hissuer⟩ := (h.queued.executed_iff (i := .ends t) Issuer.noConfusion
    fun _ => Issuer.noConfusion).mp hends
  have hpending : s.pending t = [] := pending_eq_nil fun n hn => by
    obtain ⟨-, b, -, -, hlt⟩ := (h.layout.body_iff n t).mp hn
    exact h.queued.in_order hn Issuer.noConfusion (hlt e ((h.layout.ends_iff e t).mp hissuer)) he
  have hrequested := h.kept.requested t
  rwa [hpending, List.append_nil] at hrequested

/-- What the promise of a transaction tells of its COMMIT or ROLLBACK. -/
theorem Inv.settled (h : s.Inv) {t : Nat} {r : Except Str Unit} (hr : s.txQueue.Settled t r) :
    ∃ b c n o, s.phase t = .ended b c n ∧ s.outcome n = some o ∧ r = discard o ∧
      ∃ x ∈ s.executions, x.issuer = .ends t ∧ x.result = o := by
  obtain ⟨-, hended⟩ := h.unskipped.ended h.tasks.logged trivial hr
  rcases h.tasks.ended t r hended with ⟨b, e, hphase, -⟩ | ⟨b, c, n, o, hphase, ho, hr⟩
  · exact absurd hphase (h.layout.not_refused t b)
  · have hissuer := (h.layout.ends_iff n t).mpr (by rw [hphase]; rfl)
    exact ⟨b, c, n, o, hphase, ho, hr,
      (h.queued.execution_of_outcome hissuer Issuer.noConfusion ho).2⟩

/-- Where nothing is left to be done no transaction is active. -/
theorem Inv.not_running_of_idle (h : s.Inv) (hidle : s.Idle) (t : Nat) :
    ¬ s.txQueue.Running t := by
  intro hrun
  have houtcome {n : Nat} {i : Issuer} (hn : s.issuer n = some i) : s.outcome n ≠ none := by
    have hlt := issuer_lt hn
    rw [h.queued.length] at hlt
    obtain ⟨o, ho⟩ := h.queued.linked.settled_of_idle hidle.queue hlt
    rw [outcome_eq_some.mpr ho]
    exact Option.some_ne_none o
  have hactive := (h.tasks.active_iff t).mp hrun
  cases hphase : s.phase t with
  | beginning b =>
      have hissuer := (h.layout.begins_iff b t).mpr (by rw [hphase]; rfl)
      exact hidle.resume t ⟨b, houtcome hissuer, Or.inl hphase⟩
  | inside b =>
      have hinside := hidle.inside t
      rw [hphase] at hinside
      cases hinside
  | ending b r e =>
      have hissuer := (h.layout.ends_iff e t).mpr (by rw [hphase]; rfl)
      exact hidle.resume t ⟨e, houtcome hissuer, Or.inr ⟨b, r, hphase⟩⟩
  | waiting | refused b | ended b r e =>
      rw [hphase] at hactive
      cases hactive

/-- A promise tells of the outcome of the callback and of the COMMIT, and is settled in the
end. -/
theorem Inv.reported (h : s.Inv) (t : Nat) : s.Reported t where
  rejected_iff r hr := by
    obtain ⟨b, c, n, o, hphase, ho, rfl, x, hx, hxt, hresult⟩ := h.settled hr
    rw [discard_error_iff, CallbackFailed, CommitFailed, hphase, TxPhase.callbackResult,
      TxPhase.endPromise]
    cases c with
    | ok v =>
        constructor
        · rintro ⟨e, rfl⟩
          exact Or.inr ⟨rfl, n, e, rfl, ho⟩
        · rintro (⟨e, he⟩ | ⟨-, n', e, hn, he⟩)
          · cases he
          · obtain rfl := Option.some.inj hn
            exact ⟨e, Option.some.inj (ho.symm.trans he)⟩
    | error e =>
        refine iff_of_true ?_ (Or.inl ⟨e, rfl⟩)
        rw [← hresult]
        exact h.kept.rolledBack x hx t hxt ⟨e, by rw [hphase]; rfl⟩
  nothing_persists e hr := by
    obtain ⟨b, c, n, o, -, -, hdiscard, y, hy, hyt, hresult⟩ := h.settled hr
    obtain ⟨e', rfl⟩ := discard_error_iff.mp ⟨e, hdiscard.symm⟩
    obtain ⟨x, hx, hxt, hcommitted, hidle⟩ := h.kept.failed y hy t e' hyt hresult
    exact ⟨x, hx, y, hy, hxt, hyt, hcommitted, hidle⟩
  settles hlt hidle := h.tasks.linked.settled_of_idle
    (fun u => ⟨hidle.txQueue u, h.not_running_of_idle hidle u⟩) hlt

/-- In an undisturbed run each transaction is isolated, and its promise reports its outcome. -/
theorem isolated_and_reported {world : World} {events : List TxEvent}
    (h : Run.Allowed step Undisturbed (new world) events) (t : Nat) :
    (Run.exec step (new world) events).Isolated t ∧
      (Run.exec step (new world) events).Reported t := by
  have hinv := Run.invariant Inv (fun _ event h hok => inv_step h event hok) (inv_new world) h
  exact ⟨hinv.isolated t, hinv.reported t⟩

end Undisturbed

end Transactions

end Parameters

/-! ## A table that is counted -/

namespace Transactions

section CountRows

/-- A database that counts the rows of a table, with what was committed when a transaction is
open. -/
local instance countRows : WaSqlite where
  Number := Int
  toLowerCase := List.map Char.toLower
  numberToString := printInt
  numberOfNat := Int.ofNat
  Db := Nat × Option Nat
  prepareNext sql db := (.ok (
    if sql = "BEGIN".toList then some (0, [])
    else if sql = "COMMIT".toList then some (1, [])
    else if sql = "ROLLBACK".toList then some (2, [])
    else if sql = "INSERT INTO t DEFAULT VALUES".toList then some (3, [])
    else none), db)
  readOnly sql := sql ≠ "INSERT INTO t DEFAULT VALUES".toList
  finalize _ db := db
  bind _ _ _ db := (.ok (), db)
  columnNames _ _ := []
  steps
    | 0, (rows, none) => .done (rows, some rows)
    | 0, db => .error "cannot start a transaction within a transaction".toList db
    | 1, (rows, some _) => .done (rows, none)
    | 1, db => .error "cannot commit - no transaction is active".toList db
    | 2, (_, some rows) => .done (rows, none)
    | 2, db => .error "cannot rollback - no transaction is active".toList db
    | _, (rows, saved) => .done (rows + 1, saved)
  reset _ db := (.ok 0, db)

/-- What of it is committed. -/
def committedRows (db : Nat × Option Nat) : Nat :=
  db.2.getD db.1

/-- The task of `exec` on it. -/
def countExec (sql : String) : Action Result :=
  (execTask sql.toList).perform

/-- A BEGIN commits nothing. -/
theorem committedRows_begin (w : World) :
    committedRows (countExec "BEGIN" w).2.db = committedRows w.db := by
  obtain ⟨⟨rows, saved⟩, mode⟩ := w
  cases saved <;> rfl

/-- A COMMIT that fails commits nothing. -/
theorem committedRows_commit (w : World) (e : Str) (he : (countExec "COMMIT" w).1 = .error e) :
    committedRows (countExec "COMMIT" w).2.db = committedRows w.db := by
  obtain ⟨⟨rows, saved⟩, mode⟩ := w
  cases saved with
  | none => rfl
  | some n => cases show Except.ok Result.null = Except.error e from he

/-- A ROLLBACK commits nothing. -/
theorem committedRows_rollback (w : World) :
    committedRows (countExec "ROLLBACK" w).2.db = committedRows w.db := by
  obtain ⟨⟨rows, saved⟩, mode⟩ := w
  cases saved <;> rfl

/-- A ROLLBACK without a transaction is an error. -/
theorem rollback_countRows (w : World) (h : w.db.2.isSome = false) :
    (∃ e, (countExec "ROLLBACK" w).1 = .error e) ∧
      (countExec "ROLLBACK" w).2.db.2.isSome = false := by
  obtain ⟨⟨rows, saved⟩, mode⟩ := w
  cases saved with
  | none => exact ⟨⟨_, rfl⟩, rfl⟩
  | some n => cases h

/-- What SQLite tells about transactions holds of it. -/
local instance countRowsCommits : SqliteCommits where
  Content := Nat
  committed := committedRows
  inTransaction db := db.2.isSome
  committed_bind _ _ _ _ := rfl
  committed_begin := committedRows_begin
  committed_commit := committedRows_commit
  committed_rollback := committedRows_rollback
  rollback_idle := rollback_countRows

local instance : DecidableEq countRowsCommits.Content :=
  inferInstanceAs (DecidableEq Nat)

/-- The start of a connection to it. -/
def emptyTable : World :=
  ⟨(0, none), fun _ => .o⟩

/-- A call that inserts a row. -/
def insertCall : Call :=
  .exec "INSERT INTO t DEFAULT VALUES".toList none

/-- The `n`-th statement begins and ends, and its promise is settled. -/
def runOf (n : Nat) : List TxEvent :=
  [.statementJob n, .statementEnds n, .statementJob n, .handler n]

/-- A row is inserted, a transaction inserts another one, and a third one is inserted behind
the COMMIT. -/
def insertThree : List TxEvent :=
  [.call insertCall, .transaction, .transactionJob 0] ++ runOf 0 ++ runOf 1 ++
    [.resume 0, .bodyCall 0 insertCall] ++ runOf 2 ++ [.callbackEnds 0 (.ok ()), .call insertCall] ++
    runOf 3 ++ runOf 4 ++ [.resume 0, .transactionJob 0]

/-- The second of the three rows is the transaction's. -/
theorem isolated_and_reported_insertThree :
    (Run.exec step (new emptyTable) insertThree).Isolated 0 ∧
      (Run.exec step (new emptyTable) insertThree).Reported 0 :=
  isolated_and_reported (by decide +kernel) 0

/-- A row is inserted from outside while the callback of a transaction runs. -/
def insertBetween : List TxEvent :=
  [.transaction, .transactionJob 0] ++ runOf 0 ++ [.resume 0, .call insertCall] ++ runOf 1 ++
    [.callbackEnds 0 (.ok ())] ++ runOf 2 ++ [.resume 0, .transactionJob 0]

/-- The callback of a transaction inserts a row and fails. -/
def failBehindInsert : List TxEvent :=
  [.transaction, .transactionJob 0] ++ runOf 0 ++ [.resume 0, .bodyCall 0 insertCall] ++ runOf 1 ++
    [.callbackEnds 0 (.error "stop".toList)] ++ runOf 2 ++ [.resume 0, .transactionJob 0]

/-- Something is executed in the transaction, and its callback has asked for nothing. -/
theorem between_insertBetween :
    (between 0 (Run.exec step (new emptyTable) insertBetween).executions).length = 1 ∧
      requestsOf 0 (Run.exec step (new emptyTable) insertBetween) = [] ∧
      ((Run.exec step (new emptyTable) insertBetween).executions.any
        fun x => x.issuer = .ends 0) = true := by
  decide +kernel

/-- The promise is fulfilled, and the callback has failed. -/
theorem settled_failBehindInsert :
    (Run.exec step (new emptyTable) failBehindInsert).txQueue.calls.map AddCall.phase =
      [.settled (.ok ())] ∧
    ((Run.exec step (new emptyTable) failBehindInsert).phase 0).callbackResult =
      some (.error "stop".toList) := by
  decide +kernel

/-- The insertion from outside is part of the transaction.  The promise of a transaction whose
callback failed is fulfilled: the ROLLBACK was done. -/
theorem neither_isolated_nor_reported :
    ¬ (Run.exec step (new emptyTable) insertBetween).Isolated 0 ∧
      ¬ (Run.exec step (new emptyTable) failBehindInsert).Reported 0 := by
  constructor
  · obtain ⟨hlength, hnone, hends⟩ := between_insertBetween
    intro hisolated
    obtain ⟨x, hx, hxt⟩ := List.any_eq_true.mp hends
    have heq := hisolated ⟨x, hx, of_decide_eq_true hxt⟩
    rw [hnone, List.map_eq_nil_iff] at heq
    rw [heq] at hlength
    cases hlength
  · obtain ⟨hcalls, hfailed⟩ := settled_failBehindInsert
    intro hreported
    obtain ⟨c, hc, hphase⟩ := List.map_eq_singleton_iff.mp hcalls
    have hsettled : (Run.exec step (new emptyTable) failBehindInsert).txQueue.Settled 0 (.ok ()) :=
      ⟨c, by rw [PromiseJobs.At, hc, List.getElem?_cons_zero], hphase⟩
    obtain ⟨e, he⟩ := (hreported.rejected_iff _ hsettled).mpr (Or.inl ⟨_, hfailed⟩)
    cases he

end CountRows

end Transactions

end CrSqlite
