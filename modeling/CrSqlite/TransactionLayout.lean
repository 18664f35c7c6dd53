import CrSqlite.Transactions

/-!
# TransactionLayout - where the statements of a transaction stand

What is kept of the queue of statements while nothing gets into the way of a transaction: its
statements are called in their order, and stand together from the BEGIN to the COMMIT or
ROLLBACK.

Main results:

- Theorem {lit}`Transactions.begins_iff_holding`: while a transaction is open, exactly its own
  statements begin.
-/

namespace CrSqlite

section Parameters

variable [WaSqlite]

namespace Transactions

/-! ## The queue of statements -/

/-- The tasks that were called are those that were executed, each as what it is, and none of a
transaction was cut off. -/
structure Queued (s : Transactions) : Prop where
  linked : s.queue.Linked
  logged : s.queue.Logged
  length : s.issued.length = s.queue.calls.length
  started : s.executions.filterMap Executed.call = s.queue.started
  own : ∀ x ∈ s.executions, ∀ n, x.call = some n → s.issuer n = some x.issuer
  direct : ∀ x ∈ s.executions, x.call = none → x.issuer = .outside ∨ ∃ t, x.issuer = .body t
  ended : ∀ n r, (n, r) ∈ s.queue.ended → ∃ x ∈ s.executions, x.call = some n ∧ x.result = r
  unskipped : s.queue.Unskipped s.Owned

section Queued

variable {s s' : Transactions}

/-- The queue of statements depends on the calls and on what was executed. -/
theorem Queued.congr (h : s.Queued) (hqueue : s'.queue = s.queue) (hissued : s'.issued = s.issued)
    (hexecutions : s'.executions = s.executions) : s'.Queued := by
  obtain ⟨hlinked, hlogged, hlength, hstarted, hown, hdirect, hended, hunskipped⟩ := h
  have hissuer : s'.issuer = s.issuer := by
    funext n
    rw [issuer, hissued]
    rfl
  have howned : s'.Owned = s.Owned := by
    funext n
    rw [Owned, hissuer]
    rfl
  exact ⟨hqueue ▸ hlinked, hqueue ▸ hlogged, by rw [hissued, hqueue, hlength],
    by rw [hexecutions, hqueue, hstarted], by rwa [hexecutions, hissuer], by rwa [hexecutions],
    by rwa [hqueue, hexecutions], by rwa [howned, hqueue]⟩

/-- A task has started exactly when it was executed. -/
theorem Queued.mem_started_iff (h : s.Queued) {n : Nat} :
    n ∈ s.queue.started ↔ ∃ x ∈ s.executions, x.call = some n := by
  rw [← h.started, List.mem_filterMap]

/-- The statements of transactions are called in their order. -/
theorem Queued.in_order (h : s.Queued) {m n : Nat} {i : Issuer} (hm : s.issuer m = some i)
    (hi : i ≠ .outside) (hlt : m < n) (hn : n ∈ s.queue.started) : m ∈ s.queue.started :=
  h.unskipped.in_order h.linked h.logged ⟨i, hm, hi⟩ hlt hn

/-- A statement of a transaction has the result of its execution. -/
theorem Queued.execution_of_outcome (h : s.Queued) {n : Nat} {i : Issuer}
    (hn : s.issuer n = some i) (hi : i ≠ .outside) {o : Except Str Result}
    (ho : s.outcome n = some o) :
    n ∈ s.queue.started ∧ ∃ x ∈ s.executions, x.issuer = i ∧ x.result = o := by
  obtain ⟨hstarted, hended⟩ := h.unskipped.ended h.logged ⟨i, hn, hi⟩ (outcome_eq_some.mp ho)
  obtain ⟨x, hx, hcall, hresult⟩ := h.ended n o hended
  have hown := h.own x hx n hcall
  rw [hn] at hown
  exact ⟨hstarted, x, hx, (Option.some.inj hown).symm, hresult⟩

/-- Nothing is queued to begin with. -/
theorem queued_new (world : World) : (new world).Queued where
  linked := PromiseJobs.linked_new
  logged := PromiseJobs.logged_new
  length := rfl
  started := rfl
  own := by simp [new]
  direct := by simp [new]
  ended := by simp [new, PromiseJobs.new]
  unskipped := fun n c hc => by simp [new, PromiseJobs.new, PromiseJobs.At] at hc

/-- A call at the end has not started. -/
theorem Queued.push (h : s.Queued) (i : Issuer) (task : Task) : (s.push i task).Queued where
  linked := h.linked.add
  logged := h.logged.add
  length := by
    rw [Transactions.push, List.length_append, List.length_singleton, h.length, PromiseJobs.add,
      List.length_append, List.length_singleton]
  started := h.started
  own x hx n hn := issuer_push.mpr (Or.inl (h.own x hx n hn))
  direct := h.direct
  ended := h.ended
  unskipped := by
    refine h.unskipped.add _ fun n hn howned => ?_
    obtain ⟨j, hj, hne⟩ := howned
    refine ⟨j, (issuer_push.mp hj).resolve_right fun hlast => ?_, hne⟩
    rw [hlast.1, h.length] at hn
    exact Nat.lt_irrefl _ hn

/-- A job that begins no task. -/
theorem Queued.job (h : s.Queued) {n : Nat} (hbegins : s.queue.begins n = false)
    (hcuts : s.queue.cuts n = true → ∀ i ∈ s.issued.drop (n + 1), i.issuer = .outside) :
    Queued { s with queue := s.queue.job n } := by
  obtain ⟨hlinked, hlogged⟩ := PromiseJobs.invariant_step ⟨h.linked, h.logged⟩ (.job n)
  have hhands := ((s.queue.job_spec n).resolve_left fun hb => by simp [hb.1] at hbegins).2.1
  refine ⟨hlinked, hlogged, h.length.trans hhands.length.symm, h.started.trans hhands.started.symm,
    h.own, h.direct, fun m r hr => h.ended m r (hhands.ended ▸ hr),
    h.unskipped.job h.logged fun hcut m _ hm howned => ?_⟩
  obtain ⟨j, hj, hne⟩ := howned
  obtain ⟨x, hx, rfl⟩ := Option.map_eq_some_iff.mp hj
  refine hne (hcuts hcut x (List.mem_of_getElem? (i := m - (n + 1)) ?_))
  rw [List.getElem?_drop, show n + 1 + (m - (n + 1)) = m by omega, hx]

/-- A job that begins a task, which is executed. -/
theorem Queued.begin (h : s.Queued) {n : Nat} {i : Issued} (hi : s.issued[n]? = some i)
    (hbegins : s.queue.begins n = true) :
    Queued (execute (some n) i.issuer (.task i.task) { s with queue := s.queue.job n }) := by
  obtain ⟨hlinked, hlogged⟩ := PromiseJobs.invariant_step ⟨h.linked, h.logged⟩ (.job n)
  have hjob := ((s.queue.job_spec n).resolve_right fun hb => by simp [hb.1] at hbegins).2
  refine ⟨hlinked, hlogged, h.length.trans hjob.length.symm, ?_, ?_, ?_, ?_,
    h.unskipped.of_keeps hjob.toKeeps hjob.exceptionCount fun m hm => ?_⟩
  · rw [execute, List.filterMap_append, h.started]
    exact hjob.started.symm
  · intro x hx m hm
    rcases List.mem_append.mp hx with hx | hx
    · exact h.own x hx m hm
    · obtain rfl := List.mem_singleton.mp hx
      obtain rfl := Option.some.inj hm
      exact congrArg (Option.map Issued.issuer) hi
  · intro x hx hcall
    rcases List.mem_append.mp hx with hx | hx
    · exact h.direct x hx hcall
    · obtain rfl := List.mem_singleton.mp hx
      cases hcall
  · intro m r hr
    obtain ⟨x, hx, hcall, hresult⟩ := h.ended m r (hjob.ended ▸ hr)
    exact ⟨x, List.mem_append_left _ hx, hcall, hresult⟩
  · rw [execute, hjob.started]
    exact List.mem_append_left _ hm

/-- A use that does not wait for the queue. -/
theorem Queued.direct_use (h : s.Queued) {i : Issuer} (hi : i = .outside ∨ ∃ t, i = .body t)
    (use : Use) : (s.execute none i use).Queued := by
  refine ⟨h.linked, h.logged, h.length, ?_, ?_, ?_, ?_, h.unskipped⟩
  · rw [execute, List.filterMap_append, h.started]
    exact List.append_nil _
  · intro x hx m hm
    rcases List.mem_append.mp hx with hx | hx
    · exact h.own x hx m hm
    · obtain rfl := List.mem_singleton.mp hx
      cases hm
  · intro x hx hcall
    rcases List.mem_append.mp hx with hx | hx
    · exact h.direct x hx hcall
    · obtain rfl := List.mem_singleton.mp hx
      exact hi
  · intro m r hr
    obtain ⟨x, hx, hx'⟩ := h.ended m r hr
    exact ⟨x, List.mem_append_left _ hx, hx'⟩

/-- A task ends with the result that it was executed with. -/
theorem Queued.ends (h : s.Queued) {n : Nat} {x : Executed} (hx : x ∈ s.executions)
    (hcall : x.call = some n) : Queued { s with queue := s.queue.taskEnds n x.result } := by
  obtain ⟨hlinked, hlogged⟩ := PromiseJobs.invariant_step ⟨h.linked, h.logged⟩
    (.taskEnds n x.result)
  by_cases hrun : s.queue.Running n
  · have hend := PromiseJobs.taskEnds_spec hrun x.result
    refine ⟨hlinked, hlogged, h.length.trans hend.length.symm, h.started.trans hend.started.symm,
      h.own, h.direct, fun m r hr => ?_,
      h.unskipped.of_keeps hend.toKeeps hend.exceptionCount fun m hm => hend.started ▸ hm⟩
    rw [hend.ended] at hr
    rcases List.mem_append.mp hr with hr | hr
    · exact h.ended m r hr
    · obtain ⟨rfl, rfl⟩ := Prod.mk.inj (List.mem_singleton.mp hr)
      exact ⟨x, hx, hcall, rfl⟩
  · rw [PromiseJobs.taskEnds_of_not_running hrun]
    exact h

end Queued

/-! ## What was issued -/

/-- Where the statements of a transaction stand in the queue: its BEGIN, behind it the calls of
its callback, and behind these its COMMIT or ROLLBACK. -/
structure Layout (s : Transactions) : Prop where
  begins_iff : ∀ n t, s.issuer n = some (.begins t) ↔ (s.phase t).beginPromise = some n
  ends_iff : ∀ n t, s.issuer n = some (.ends t) ↔ (s.phase t).endPromise = some n
  body_iff : ∀ n t, s.issuer n = some (.body t) ↔ n < s.issued.length ∧
    ∃ b, (s.phase t).beginPromise = some b ∧ b < n ∧ ∀ e, (s.phase t).endPromise = some e → n < e
  before_end : ∀ t b e, (s.phase t).beginPromise = some b → (s.phase t).endPromise = some e → b < e
  alone : ∀ t b, s.phase t = .beginning b → s.issued.length = b + 1
  begun : ∀ t b, (s.phase t).beginPromise = some b → s.phase t ≠ .beginning b →
    b ∈ s.queue.started
  not_refused : ∀ t b, s.phase t ≠ .refused b
  begin_task : ∀ (n : Nat) (i : Issued) t, s.issued[n]? = some i → i.issuer = .begins t →
    i.task = execTask "BEGIN".toList
  end_task : ∀ (n : Nat) (i : Issued) t, s.issued[n]? = some i → i.issuer = .ends t →
    ∃ r, (s.phase t).callbackResult = some r ∧ i.task = execTask (endText r)

section Layout

variable {s s' : Transactions}

/-- The layout depends on the phases and on the calls. -/
theorem Layout.congr (h : s.Layout) (hphase : s'.phase = s.phase) (hissued : s'.issued = s.issued)
    (hstarted : ∀ n ∈ s.queue.started, n ∈ s'.queue.started) : s'.Layout := by
  obtain ⟨hbegins, hends, hbody, hbefore, halone, hbegun, hrefused, hbtask, hetask⟩ := h
  have hissuer : s'.issuer = s.issuer := by
    funext n
    rw [issuer, hissued]
    rfl
  refine ⟨?_, ?_, ?_, ?_, ?_, ?_, ?_, ?_, ?_⟩
  · rwa [hissuer, hphase]
  · rwa [hissuer, hphase]
  · rwa [hissuer, hphase, hissued]
  · rwa [hphase]
  · rwa [hphase, hissued]
  · rw [hphase]
    exact fun t b hb hne => hstarted b (hbegun t b hb hne)
  · rwa [hphase]
  · rwa [hissued]
  · rwa [hissued, hphase]

theorem layout_new (world : World) : (new world).Layout := by
  constructor <;> simp [new, issuer, TxPhase.beginPromise, TxPhase.endPromise]

theorem Layout.end_lt (h : s.Layout) {t e : Nat} (he : (s.phase t).endPromise = some e) :
    e < s.issued.length :=
  issuer_lt ((h.ends_iff e t).mpr he)

theorem Layout.begin_lt (h : s.Layout) {t b : Nat} (hb : (s.phase t).beginPromise = some b) :
    b < s.issued.length :=
  issuer_lt ((h.begins_iff b t).mpr hb)

/-- Where no calls of a transaction are awaited, its part of the queue is over. -/
theorem Layout.over (h : s.Layout) {t : Nat} (hopen : (s.phase t).isOpen = false) :
    ¬ ∃ b, (s.phase t).beginPromise = some b ∧ b < s.issued.length ∧
      ∀ e, (s.phase t).endPromise = some e → s.issued.length < e := by
  rintro ⟨b, hb, -, hlt⟩
  have hend : ∀ e, (s.phase t).endPromise ≠ some e := fun e he =>
    Nat.lt_asymm (hlt e he) (h.end_lt he)
  cases hphase : s.phase t with
  | waiting => simp [hphase, TxPhase.beginPromise] at hb
  | beginning b => simp [hphase, TxPhase.isOpen] at hopen
  | refused b => exact h.not_refused t b hphase
  | inside b => simp [hphase, TxPhase.isOpen] at hopen
  | ending b r e => exact hend e (by rw [hphase, TxPhase.endPromise])
  | ended b r e => exact hend e (by rw [hphase, TxPhase.endPromise])

/-- A call makes the queue longer by one. -/
theorem length_push (i : Issuer) (task : Task) (s : Transactions) :
    (s.push i task).issued.length = s.issued.length + 1 := by
  rw [push, List.length_append, List.length_singleton]

/-- The body of a transaction after a call of it or of something else. -/
theorem Layout.body_push (h : s.Layout) (i : Issuer) (task : Task) {t : Nat}
    (hlast : i = .body t ↔ ∃ b, (s.phase t).beginPromise = some b ∧ b < s.issued.length ∧
      ∀ e, (s.phase t).endPromise = some e → s.issued.length < e) (n : Nat) :
    (s.push i task).issuer n = some (.body t) ↔ n < (s.push i task).issued.length ∧
      ∃ b, (s.phase t).beginPromise = some b ∧ b < n ∧
        ∀ e, (s.phase t).endPromise = some e → n < e := by
  rw [issuer_push, h.body_iff, length_push]
  rcases Nat.lt_trichotomy n s.issued.length with hlt | rfl | hgt
  · constructor
    · rintro (⟨-, hb⟩ | ⟨rfl, -⟩)
      · exact ⟨by omega, hb⟩
      · exact absurd hlt (Nat.lt_irrefl _)
    · exact fun hb => Or.inl ⟨hlt, hb.2⟩
  · constructor
    · rintro (⟨hlt, -⟩ | ⟨-, hi⟩)
      · exact absurd hlt (Nat.lt_irrefl _)
      · exact ⟨Nat.lt_succ_self _, hlast.mp hi.symm⟩
    · exact fun hb => Or.inr ⟨rfl, (hlast.mpr hb.2).symm⟩
  · constructor
    · rintro (⟨hlt, -⟩ | ⟨rfl, -⟩) <;> omega
    · rintro ⟨hlt, -⟩
      omega

/-- A call in the queue is an old one or the new one. -/
theorem getElem?_push {i : Issuer} {task : Task} {n : Nat} {x : Issued}
    (hx : (s.push i task).issued[n]? = some x) :
    s.issued[n]? = some x ∨ n = s.issued.length ∧ x = ⟨i, task⟩ := by
  rw [push, List.getElem?_append] at hx
  split at hx
  · exact Or.inl hx
  · rw [List.getElem?_singleton] at hx
    split_ifs at hx with hn
    exact Or.inr ⟨by omega, (Option.some.inj hx).symm⟩

/-- A call that is not of a transaction, or is one of a callback. -/
theorem Layout.push (h : s.Layout) {i : Issuer} (task : Task)
    (hi : i = .outside ∨ ∃ t, i = .body t ∧ (s.phase t).isInside = true)
    (hothers : ∀ t, (s.phase t).isOpen = true → i = .body t) : (s.push i task).Layout := by
  have hbegins (t : Nat) : Issuer.begins t ≠ i := by
    rcases hi with rfl | ⟨u, rfl, -⟩ <;> exact Issuer.noConfusion
  have hends (t : Nat) : Issuer.ends t ≠ i := by
    rcases hi with rfl | ⟨u, rfl, -⟩ <;> exact Issuer.noConfusion
  refine ⟨fun n t => ?_, fun n t => ?_, fun n t => h.body_push i task ?_ n, h.before_end,
    fun t b hb => ?_, h.begun, h.not_refused, fun n x t hx hxi => ?_, fun n x t hx hxi => ?_⟩
  · rw [issuer_push, or_iff_left fun hn => hbegins t hn.2]
    exact h.begins_iff n t
  · rw [issuer_push, or_iff_left fun hn => hends t hn.2]
    exact h.ends_iff n t
  · constructor
    · rintro rfl
      obtain ⟨u, heq, hinside⟩ := hi.resolve_left Issuer.noConfusion
      obtain rfl := Issuer.body.inj heq
      cases hphase : s.phase t with
      | inside b =>
          have hb : (s.phase t).beginPromise = some b := by rw [hphase, TxPhase.beginPromise]
          exact ⟨b, rfl, h.begin_lt hb, fun e he => by cases he⟩
      | waiting | beginning b | refused b | ending b r e | ended b r e =>
          simp [hphase, TxPhase.isInside] at hinside
    · intro hb
      by_contra hne
      refine h.over (t := t) ?_ hb
      cases hopen : (s.phase t).isOpen with
      | false => rfl
      | true => exact absurd (hothers t hopen) hne
  · have hopen : i = .body t := hothers t (by rw [show s.phase t = .beginning b from hb]; rfl)
    obtain ⟨u, heq, hinside⟩ := hi.resolve_left (by rw [hopen]; exact Issuer.noConfusion)
    obtain rfl := Issuer.body.inj (hopen.symm.trans heq)
    rw [show s.phase t = .beginning b from hb] at hinside
    cases hinside
  · rcases getElem?_push hx with hx | ⟨-, rfl⟩
    · exact h.begin_task n x t hx hxi
    · exact absurd hxi.symm (hbegins t)
  · rcases getElem?_push hx with hx | ⟨-, rfl⟩
    · exact h.end_task n x t hx hxi
    · exact absurd hxi.symm (hends t)

/-- The BEGIN of a transaction, while no other one awaits calls. -/
theorem Layout.push_begin (h : s.Layout) {t : Nat} (hwaiting : s.phase t = .waiting)
    (hclosed : ∀ u, (s.phase u).isOpen = false) :
    ((s.push (.begins t) (execTask "BEGIN".toList)).setPhase t
      (.beginning s.issued.length)).Layout := by
  have hself := phase_setPhase_self t (.beginning s.issued.length)
    (s.push (.begins t) (execTask "BEGIN".toList))
  have hother {u : Nat} (hu : u ≠ t) := phase_setPhase_of_ne hu (.beginning s.issued.length)
    (s.push (.begins t) (execTask "BEGIN".toList))
  have hnone (n : Nat) : s.issuer n ≠ some (.begins t) ∧ s.issuer n ≠ some (.ends t) ∧
      s.issuer n ≠ some (.body t) := by
    rw [Ne, Ne, Ne, h.begins_iff, h.ends_iff, h.body_iff, hwaiting]
    simp [TxPhase.beginPromise, TxPhase.endPromise]
  refine ⟨fun n u => ?_, fun n u => ?_, fun n u => ?_, fun u b e hb he => ?_, fun u b hb => ?_,
    fun u b hb hne => ?_, fun u b hb => ?_, fun n x u hx hxu => ?_, fun n x u hx hxu => ?_⟩
  · refine issuer_push.trans ?_
    by_cases hu : u = t
    · subst hu
      rw [hself, or_iff_right (hnone n).1]
      simp [TxPhase.beginPromise, eq_comm]
    · rw [hother hu, or_iff_left fun hn => hu (Issuer.begins.inj hn.2)]
      exact h.begins_iff n u
  · refine issuer_push.trans ?_
    rw [or_iff_left fun hn => Issuer.noConfusion hn.2]
    by_cases hu : u = t
    · subst hu
      rw [hself, iff_false_left (hnone n).2.1]
      simp [TxPhase.endPromise]
    · rw [hother hu]
      exact h.ends_iff n u
  · by_cases hu : u = t
    · subst hu
      rw [hself]
      refine (issuer_push (n := n)).trans ?_
      rw [or_iff_left fun hn => Issuer.noConfusion hn.2, iff_false_left (hnone n).2.2]
      rintro ⟨hlt, b, hb, hbn, -⟩
      obtain rfl := Option.some.inj hb
      have hle := Nat.lt_of_lt_of_eq hlt (length_push ..)
      omega
    · rw [hother hu]
      refine h.body_push _ _ ⟨fun hb => Issuer.noConfusion hb, fun hb => ?_⟩ n
      exact absurd hb (h.over (hclosed u))
  · by_cases hu : u = t
    · subst hu
      rw [hself] at he
      cases he
    · rw [hother hu] at hb he
      exact h.before_end u b e hb he
  · by_cases hu : u = t
    · subst hu
      rw [hself] at hb
      exact (length_push ..).trans (congrArg (· + 1) (TxPhase.beginning.inj hb))
    · rw [hother hu] at hb
      have hopen := hclosed u
      rw [show s.phase u = .beginning b from hb] at hopen
      cases hopen
  · by_cases hu : u = t
    · subst hu
      rw [hself] at hb hne
      exact absurd (congrArg TxPhase.beginning (Option.some.inj hb)) hne
    · rw [hother hu] at hb hne
      exact h.begun u b hb hne
  · by_cases hu : u = t
    · subst hu
      rw [hself] at hb
      cases hb
    · rw [hother hu] at hb
      exact h.not_refused u b hb
  · rcases getElem?_push hx with hx | ⟨-, rfl⟩
    · exact h.begin_task n x u hx hxu
    · rfl
  · rcases getElem?_push hx with hx' | ⟨-, rfl⟩
    · by_cases hu : u = t
      · rw [hu] at hxu
        exact absurd ((congrArg (Option.map Issued.issuer) hx').trans (congrArg some hxu))
          (hnone n).2.1
      · rw [hother hu]
        exact h.end_task n x u hx' hxu
    · cases hxu

/-- The COMMIT or ROLLBACK of a transaction, while no other one awaits calls. -/
theorem Layout.push_end (h : s.Layout) {t b : Nat} (hinside : s.phase t = .inside b)
    (r : Except Str Unit) (hothers : ∀ u, (s.phase u).isOpen = true → u = t) :
    ((s.push (.ends t) (execTask (endText r))).setPhase t
      (.ending b r s.issued.length)).Layout := by
  have hself := phase_setPhase_self t (.ending b r s.issued.length)
    (s.push (.ends t) (execTask (endText r)))
  have hother {u : Nat} (hu : u ≠ t) := phase_setPhase_of_ne hu (.ending b r s.issued.length)
    (s.push (.ends t) (execTask (endText r)))
  have hclosed {u : Nat} (hu : u ≠ t) : (s.phase u).isOpen = false :=
    eq_false_of_ne_true fun hopen => hu (hothers u hopen)
  have hbegin : (s.phase t).beginPromise = some b := by rw [hinside, TxPhase.beginPromise]
  have hend : (s.phase t).endPromise = none := by rw [hinside]; rfl
  refine ⟨fun n u => ?_, fun n u => ?_, fun n u => ?_, fun u b' e hb he => ?_, fun u b' hb => ?_,
    fun u b' hb hne => ?_, fun u b' hb => ?_, fun n x u hx hxu => ?_, fun n x u hx hxu => ?_⟩
  · refine issuer_push.trans ?_
    rw [or_iff_left fun hn => Issuer.noConfusion hn.2]
    by_cases hu : u = t
    · subst hu
      rw [hself, h.begins_iff, hbegin, TxPhase.beginPromise]
    · rw [hother hu]
      exact h.begins_iff n u
  · refine issuer_push.trans ?_
    by_cases hu : u = t
    · subst hu
      rw [hself, h.ends_iff, hend]
      simp [TxPhase.endPromise, eq_comm]
    · rw [hother hu, or_iff_left fun hn => hu (Issuer.ends.inj hn.2)]
      exact h.ends_iff n u
  · by_cases hu : u = t
    · subst hu
      rw [hself]
      refine (issuer_push (n := n)).trans ?_
      change _ ↔ n < (s.push (.ends u) (execTask (endText r))).issued.length ∧ _
      rw [or_iff_left fun hn => Issuer.noConfusion hn.2, h.body_iff, hbegin, hend, length_push]
      simp only [TxPhase.beginPromise, TxPhase.endPromise, Option.some.injEq, reduceCtorEq]
      constructor
      · rintro ⟨hlt, b', rfl, hb', -⟩
        exact ⟨by omega, b, rfl, hb', fun e he => he ▸ hlt⟩
      · rintro ⟨-, b', rfl, hb', hlt⟩
        exact ⟨hlt _ rfl, b, rfl, hb', fun e he => he.elim⟩
    · rw [hother hu]
      refine h.body_push _ _ ⟨fun hb => Issuer.noConfusion hb, fun hb => ?_⟩ n
      exact absurd hb (h.over (hclosed hu))
  · by_cases hu : u = t
    · subst hu
      rw [hself] at hb he
      obtain rfl := Option.some.inj hb
      obtain rfl := Option.some.inj he
      exact h.begin_lt hbegin
    · rw [hother hu] at hb he
      exact h.before_end u b' e hb he
  · by_cases hu : u = t
    · subst hu
      rw [hself] at hb
      cases hb
    · rw [hother hu] at hb
      have hopen := hclosed hu
      rw [show s.phase u = .beginning b' from hb] at hopen
      cases hopen
  · by_cases hu : u = t
    · subst hu
      rw [hself] at hb
      obtain rfl := Option.some.inj hb
      exact h.begun u b hbegin (by rw [hinside]; exact TxPhase.noConfusion)
    · rw [hother hu] at hb hne
      exact h.begun u b' hb hne
  · by_cases hu : u = t
    · subst hu
      rw [hself] at hb
      cases hb
    · rw [hother hu] at hb
      exact h.not_refused u b' hb
  · rcases getElem?_push hx with hx | ⟨-, rfl⟩
    · exact h.begin_task n x u hx hxu
    · cases hxu
  · by_cases hu : u = t
    · subst hu
      rw [hself]
      rcases getElem?_push hx with hx' | ⟨-, rfl⟩
      · have hissuer : s.issuer n = some (.ends u) := by rw [issuer, hx', Option.map_some, hxu]
        rw [h.ends_iff, hend] at hissuer
        cases hissuer
      · exact ⟨r, rfl, rfl⟩
    · rw [hother hu]
      rcases getElem?_push hx with hx | ⟨-, rfl⟩
      · exact h.end_task n x u hx hxu
      · exact absurd (Issuer.ends.inj hxu).symm hu

/-- A transaction goes on with the promises that it has. -/
theorem Layout.of_phase (h : s.Layout) {p : TxPhase} {t : Nat}
    (hbegin : p.beginPromise = (s.phase t).beginPromise)
    (hend : p.endPromise = (s.phase t).endPromise)
    (hresult : ∀ r, (s.phase t).callbackResult = some r → p.callbackResult = some r)
    (hphase : (∀ b, p ≠ .beginning b) ∧ ∀ b, p ≠ .refused b)
    (hstarted : ∀ b, p.beginPromise = some b → b ∈ s.queue.started) :
    (s.setPhase t p).Layout := by
  have hbegins (u : Nat) : ((s.setPhase t p).phase u).beginPromise = (s.phase u).beginPromise := by
    by_cases hu : u = t
    · rw [hu, phase_setPhase_self, hbegin]
    · rw [phase_setPhase_of_ne hu]
  have hends (u : Nat) : ((s.setPhase t p).phase u).endPromise = (s.phase u).endPromise := by
    by_cases hu : u = t
    · rw [hu, phase_setPhase_self, hend]
    · rw [phase_setPhase_of_ne hu]
  refine ⟨fun n u => ?_, fun n u => ?_, fun n u => ?_, fun u b e hb he => ?_, fun u b hb => ?_,
    fun u b hb hne => ?_, fun u b hb => ?_, h.begin_task, fun n x u hx hxu => ?_⟩
  · rw [hbegins]
    exact h.begins_iff n u
  · rw [hends]
    exact h.ends_iff n u
  · rw [hbegins, hends]
    exact h.body_iff n u
  · rw [hbegins] at hb
    rw [hends] at he
    exact h.before_end u b e hb he
  · by_cases hu : u = t
    · rw [hu, phase_setPhase_self] at hb
      exact absurd hb (hphase.1 b)
    · rw [phase_setPhase_of_ne hu] at hb
      exact h.alone u b hb
  · by_cases hu : u = t
    · rw [hu, phase_setPhase_self] at hb
      exact hstarted b hb
    · rw [phase_setPhase_of_ne hu] at hb hne
      exact h.begun u b hb hne
  · by_cases hu : u = t
    · rw [hu, phase_setPhase_self] at hb
      exact hphase.2 b hb
    · rw [phase_setPhase_of_ne hu] at hb
      exact h.not_refused u b hb
  · obtain ⟨r, hr, htask⟩ := h.end_task n x u hx hxu
    by_cases hu : u = t
    · rw [hu] at hr
      exact ⟨r, by rw [hu, phase_setPhase_self]; exact hresult r hr, htask⟩
    · exact ⟨r, by rwa [phase_setPhase_of_ne hu], htask⟩

/-- The BEGIN is done. -/
theorem Layout.enter (h : s.Layout) {t b : Nat} (hphase : s.phase t = .beginning b)
    (hstarted : b ∈ s.queue.started) : (s.setPhase t (.inside b)).Layout := by
  refine h.of_phase ?_ ?_ ?_ ?_ ?_
  · rw [hphase, TxPhase.beginPromise, TxPhase.beginPromise]
  · rw [hphase]; rfl
  · intro r hr
    rw [hphase] at hr
    cases hr
  · exact ⟨fun _ => TxPhase.noConfusion, fun _ => TxPhase.noConfusion⟩
  · intro b' hb
    obtain rfl := Option.some.inj hb
    exact hstarted

/-- The COMMIT or ROLLBACK is done. -/
theorem Layout.leave (h : s.Layout) {t b e : Nat} {r : Except Str Unit}
    (hphase : s.phase t = .ending b r e) : (s.setPhase t (.ended b r e)).Layout := by
  refine h.of_phase ?_ ?_ ?_ ?_ ?_
  · rw [hphase, TxPhase.beginPromise, TxPhase.beginPromise]
  · rw [hphase, TxPhase.endPromise, TxPhase.endPromise]
  · intro c hc
    rwa [hphase] at hc
  · exact ⟨fun _ => TxPhase.noConfusion, fun _ => TxPhase.noConfusion⟩
  · intro b' hb
    obtain rfl := Option.some.inj hb
    exact h.begun t b (by rw [hphase, TxPhase.beginPromise])
      (by rw [hphase]; exact TxPhase.noConfusion)

end Layout

/-! ## The transaction that is open -/

/-- The BEGIN of a transaction has begun, and no COMMIT or ROLLBACK of it. -/
def Holds (s : Transactions) (t : Nat) : Prop :=
  (∃ b ∈ s.queue.started, (s.phase t).beginPromise = some b) ∧
    ∀ e ∈ s.queue.started, (s.phase t).endPromise ≠ some e

/-- The BEGIN of a transaction was executed, and no COMMIT or ROLLBACK of it. -/
def Holding (t : Nat) (xs : List Executed) : Prop :=
  (∃ x ∈ xs, x.issuer = .begins t) ∧ ∀ x ∈ xs, x.issuer ≠ .ends t

section Holding

variable {s : Transactions}

/-- A BEGIN, COMMIT or ROLLBACK was executed when its task was called. -/
theorem Queued.executed_iff (h : s.Queued) {i : Issuer} (hi : i ≠ .outside)
    (hbody : ∀ t, i ≠ .body t) :
    (∃ x ∈ s.executions, x.issuer = i) ↔ ∃ n ∈ s.queue.started, s.issuer n = some i := by
  constructor
  · rintro ⟨x, hx, rfl⟩
    cases hcall : x.call with
    | none =>
        rcases h.direct x hx hcall with hout | ⟨t, ht⟩
        · exact absurd hout hi
        · exact absurd ht (hbody t)
    | some n => exact ⟨n, h.mem_started_iff.mpr ⟨x, hx, hcall⟩, h.own x hx n hcall⟩
  · rintro ⟨n, hn, hissuer⟩
    obtain ⟨x, hx, hcall⟩ := h.mem_started_iff.mp hn
    have hown := h.own x hx n hcall
    rw [hissuer] at hown
    exact ⟨x, hx, (Option.some.inj hown).symm⟩

/-- What was executed shows which transaction holds the connection. -/
theorem holding_iff (hq : s.Queued) (hl : s.Layout) (t : Nat) :
    Holding t s.executions ↔ s.Holds t := by
  unfold Holding Holds
  rw [hq.executed_iff Issuer.noConfusion fun _ => Issuer.noConfusion]
  refine and_congr (exists_congr fun b => and_congr_right fun _ => hl.begins_iff b t) ?_
  constructor
  · intro hends e he hend
    obtain ⟨x, hx, hxt⟩ := (hq.executed_iff (i := .ends t) Issuer.noConfusion
      fun _ => Issuer.noConfusion).mpr ⟨e, he, (hl.ends_iff e t).mpr hend⟩
    exact hends x hx hxt
  · intro hends x hx hxt
    obtain ⟨e, he, hissuer⟩ := (hq.executed_iff (i := .ends t) Issuer.noConfusion
      fun _ => Issuer.noConfusion).mp ⟨x, hx, hxt⟩
    exact hends e he ((hl.ends_iff e t).mp hissuer)

section Begin

variable {n : Nat} {i : Issued} (hi : s.issued[n]? = some i) (hbegins : s.queue.begins n = true)

include hbegins

/-- A job that begins starts the next task, behind those that have started. -/
theorem Queued.started_job (h : s.Queued) :
    (s.queue.job n).started = s.queue.started ++ [n] ∧ n ∉ s.queue.started ∧
      ∀ m ∈ s.queue.started, m < n := by
  obtain ⟨-, hlogged⟩ := PromiseJobs.invariant_step ⟨h.linked, h.logged⟩ (.job n)
  have hjob := ((s.queue.job_spec n).resolve_right fun hb => by simp [hb.1] at hbegins).2
  have hsorted := hlogged.sorted
  rw [PromiseJobs.step, hjob.started] at hsorted
  have hlt : ∀ m ∈ s.queue.started, m < n := fun m hm =>
    (List.pairwise_append.mp hsorted).2.2 m hm n (List.mem_singleton_self n)
  exact ⟨hjob.started, fun hn => Nat.lt_irrefl n (hlt n hn), hlt⟩

include hi

/-- When a statement begins, those of transactions before it have begun. -/
theorem Queued.begun_before (h : s.Queued) {m : Nat} {j : Issuer} (hm : s.issuer m = some j)
    (hj : j ≠ .outside) (hlt : m < n) : m ∈ s.queue.started := by
  have hstarted := (h.started_job hbegins).1
  have hmem : m ∈ (s.queue.job n).started := (h.begin hi hbegins).in_order hm hj hlt (by
    rw [execute, hstarted]
    exact List.mem_append_right _ (List.mem_singleton_self n))
  rw [hstarted] at hmem
  exact (List.mem_append.mp hmem).resolve_right fun hmn =>
    Nat.ne_of_lt hlt (List.mem_singleton.mp hmn)

/-- While a transaction is open exactly its own statements begin. -/
theorem begins_iff_holding (hq : s.Queued) (hl : s.Layout) (t : Nat) :
    Holding t s.executions ↔ i.issuer = .body t ∨ i.issuer = .ends t := by
  obtain ⟨-, hnot, hlt⟩ := hq.started_job hbegins
  have hissuer : s.issuer n = some i.issuer := congrArg (Option.map Issued.issuer) hi
  rw [holding_iff hq hl]
  constructor
  · rintro ⟨⟨b, hb, hbegin⟩, hends⟩
    have hbody (he : ∀ e, (s.phase t).endPromise = some e → n < e) : i.issuer = .body t :=
      Option.some.inj (hissuer.symm.trans
        ((hl.body_iff n t).mpr ⟨issuer_lt hissuer, b, hbegin, hlt b hb, he⟩))
    cases hend : (s.phase t).endPromise with
    | none => exact Or.inl (hbody fun e he => by rw [hend] at he; cases he)
    | some e =>
        have hissuer' := (hl.ends_iff e t).mpr hend
        rcases Nat.lt_trichotomy n e with hne | rfl | hne
        · refine Or.inl (hbody fun e' he => ?_)
          rw [hend] at he
          exact Option.some.inj he ▸ hne
        · exact Or.inr (Option.some.inj (hissuer.symm.trans hissuer'))
        · exact absurd hend
            (hends e (hq.begun_before hi hbegins hissuer' Issuer.noConfusion hne))
  · rintro (hbody | hend)
    · rw [hbody] at hissuer
      obtain ⟨hlast, b, hb, hbn, he⟩ := (hl.body_iff n t).mp hissuer
      refine ⟨⟨b, hl.begun t b hb fun hphase => ?_, hb⟩, fun e hstarted hend => hnot ?_⟩
      · have halone := hl.alone t b hphase
        omega
      · exact hq.in_order hissuer Issuer.noConfusion (he e hend) hstarted
    · rw [hend] at hissuer
      have hend := (hl.ends_iff n t).mp hissuer
      refine ⟨?_, fun e hstarted he => hnot ?_⟩
      · cases hphase : s.phase t with
        | waiting | beginning b | refused b | inside b =>
            rw [hphase] at hend
            cases hend
        | ending b r e | ended b r e =>
            have hb : (s.phase t).beginPromise = some b := by rw [hphase]; rfl
            rw [← hphase]
            exact ⟨b, hl.begun t b hb (by rw [hphase]; exact TxPhase.noConfusion), hb⟩
      · rw [hend] at he
        exact Option.some.inj he ▸ hstarted

end Begin

end Holding

end Transactions

end Parameters

end CrSqlite
