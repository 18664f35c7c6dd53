import CrSqlite.Library.Run
import Mathlib.Data.List.Basic

/-!
# Replicator - starting and stopping the client

A replicator is started with a socket, and stopped, at any time.  A call of `start` is
suspended while the database is wrapped, while the cursor is read, while the stream
starts and once more when it is back from `#opened`; what it finds when it goes on is
the fields of the replicator, which a later start may have set
(js/sync-reference/client-core, index.ts and changeStream.ts).

Main results:

- Theorem {lit}`stop_unsubscribes`: a stop leaves no stream subscribed, as long as the
  subscribed streams are the current one.
- Theorem {lit}`single_step`: a step in which no call creates a stream over another one
  and no stopped call finds a socket keeps a single stream.
- Theorem {lit}`replicator_iff`: the replicator behaves throughout a run exactly when
  every step is one of these.
- Theorem {lit}`restart_leaves_two_streams`: a start behind a stop, with the first start
  still suspended, leads to two subscribed streams.
-/

namespace CrSqlite

/-! ## The state -/

/-- Where a call of `start` is suspended: at `wrapDb`, at `seqIdFor` with the database it
has wrapped, in the `start` of its stream, or at the await of `#opened`. -/
inductive StartPoint where
  | wrapDb
  | seqIdFor (db : Nat)
  | streamStart (stream : Nat)
  | opened
  | finished
deriving DecidableEq

/-- A call of `start`; `stopped` tells that the replicator was stopped since. -/
structure StartCall where
  point : StartPoint
  stopped : Bool
deriving DecidableEq

/-- A stream of the replicator, as far as it is started and subscribed to the updates
of its database. -/
structure LocalStream where
  db : Nat
  started : Bool
  subscribed : Bool
deriving DecidableEq

/-- `Replicator`, its calls, the streams and databases it has created, and the sockets
to which a call has attached the handlers, with the call's `stopped`. -/
structure Replicator where
  started : Bool
  ws : Option Nat
  localDb : Option Nat
  changeStream : Option Nat
  calls : List StartCall
  streams : List LocalStream
  wrapped : Nat
  attached : List (Nat × Bool)

/-- What happens to a replicator.  `resume` lets a suspended call go on, and `reject`
fails what it waits for. -/
inductive ReplicatorOp where
  | start (socket : Nat)
  | stop
  | handleClose (socket : Nat)
  | resume (call : Nat)
  | reject (call : Nat)

namespace Replicator

/-- A new replicator. -/
def init : Replicator :=
  ⟨false, none, none, none, [], [], 0, []⟩

/-! ## The operations -/

/-- `stop` of a stream. -/
def stopStream (s : Replicator) (i : Nat) : Replicator :=
  { s with
    streams := s.streams.modify i fun st => { st with started := false, subscribed := false } }

/-- `dispose` of a database ends the subscriptions that were made through it. -/
def dispose (s : Replicator) (db : Nat) : Replicator :=
  { s with
    streams := s.streams.map fun st => if st.db = db then { st with subscribed := false } else st }

/-- What `stop` does with the current stream. -/
def stopCurrent (s : Replicator) : Replicator :=
  match s.changeStream with
  | none => s
  | some i => s.stopStream i

/-- What `stop` does with the current database. -/
def disposeLocal (s : Replicator) : Replicator :=
  match s.localDb with
  | none => s
  | some db => s.dispose db

/-- `stop`.  The close event of the socket comes later. -/
def stop (s : Replicator) : Replicator :=
  { s with
    started := false
    ws := none
    localDb := none
    changeStream := none
    streams := s.stopCurrent.disposeLocal.streams
    calls := s.calls.map fun c => { c with stopped := true } }

/-- A call is suspended somewhere else, or ends. -/
def moveTo (s : Replicator) (i : Nat) (p : StartPoint) : Replicator :=
  { s with calls := s.calls.modify i fun c => { c with point := p } }

/-- `start`: it throws when the replicator was started, and `#opened` throws when there
is a stream. -/
def start (s : Replicator) (socket : Nat) : Replicator :=
  if s.started then s
  else
    let point : StartPoint := if s.changeStream.isSome then .finished else .wrapDb
    { s with started := true, ws := some socket, calls := s.calls ++ [⟨point, false⟩] }

/-- The database is there. -/
def resumeWrapDb (s : Replicator) (i : Nat) : Replicator :=
  let wrapped := { s with localDb := some s.wrapped, wrapped := s.wrapped + 1 }
  if s.started then wrapped.moveTo i (.seqIdFor s.wrapped) else wrapped.stop.moveTo i .opened

/-- A stream is created, and its `start` subscribes it before it waits. -/
def createStream (s : Replicator) (db : Nat) : Replicator :=
  { s with
    changeStream := some s.streams.length
    streams := s.streams ++ [⟨db, true, true⟩] }

/-- The cursor is there. -/
def resumeSeqIdFor (s : Replicator) (i db : Nat) : Replicator :=
  if s.started then (s.createStream db).moveTo i (.streamStart s.streams.length)
  else s.stop.moveTo i .opened

/-- The cursors of the stream are there; a stream that was stopped meanwhile is stopped
again. -/
def resumeStreamStart (s : Replicator) (i stream : Nat) : Replicator :=
  match s.streams[stream]? with
  | some st => if st.started then s.moveTo i .opened else (s.stopStream stream).moveTo i .opened
  | none => s.moveTo i .opened

/-- `#opened` is back: the handlers are attached to the socket of the replicator, if
there is one. -/
def resumeOpened (s : Replicator) (i : Nat) (stopped : Bool) : Replicator :=
  match s.ws with
  | none => s.moveTo i .finished
  | some socket => { s with attached := s.attached ++ [(socket, stopped)] }.moveTo i .finished

/-- A suspended call goes on. -/
def resume (s : Replicator) (i : Nat) : Replicator :=
  match s.calls[i]? with
  | none => s
  | some c =>
      match c.point with
      | .wrapDb => s.resumeWrapDb i
      | .seqIdFor db => s.resumeSeqIdFor i db
      | .streamStart stream => s.resumeStreamStart i stream
      | .opened => s.resumeOpened i c.stopped
      | .finished => s

/-- What a call waits for fails, and `start` with it. -/
def reject (s : Replicator) (i : Nat) : Replicator :=
  match s.calls[i]? with
  | none => s
  | some c => if c.point = .opened then s else s.moveTo i .finished

/-- One step; `#handleClose` is only called by a socket that has the handlers. -/
def step (s : Replicator) : ReplicatorOp → Replicator
  | .start socket => s.start socket
  | .stop => s.stop
  | .handleClose socket =>
      if socket ∈ s.attached.map Prod.fst then { s with ws := none }.stop else s
  | .resume i => s.resume i
  | .reject i => s.reject i

/-! ## The property and its condition -/

/-- The stream with the given number is subscribed to local updates. -/
def Subscribed (s : Replicator) (i : Nat) : Prop :=
  ∃ st, s.streams[i]? = some st ∧ st.subscribed = true

/-- At most one stream is subscribed, none when the replicator is stopped and its calls
have ended, and no call that was stopped has attached handlers. -/
structure Behaves (s : Replicator) : Prop where
  single : ∀ i j, s.Subscribed i → s.Subscribed j → i = j
  stopped : s.started = false → (∀ c ∈ s.calls, c.point = .finished) → ∀ i, ¬ s.Subscribed i
  attached : ∀ a ∈ s.attached, a.2 = false

/-- A call that creates a stream finds none, and one that was stopped finds no socket
when it is back from `#opened`. -/
def CallFinds (s : Replicator) : StartCall → Prop
  | ⟨.seqIdFor _, _⟩ => s.started = true → s.changeStream = none
  | ⟨.opened, stopped⟩ => stopped = true → s.ws = none
  | _ => True

instance (s : Replicator) (c : StartCall) : Decidable (s.CallFinds c) :=
  match c with
  | ⟨.seqIdFor _, _⟩ => inferInstanceAs (Decidable (_ → _))
  | ⟨.opened, _⟩ => inferInstanceAs (Decidable (_ → _))
  | ⟨.wrapDb, _⟩ | ⟨.streamStart _, _⟩ | ⟨.finished, _⟩ => inferInstanceAs (Decidable True)

/-- No call meets what a later start has set, where it would use it. -/
def FindsOwn (s : Replicator) : ReplicatorOp → Prop
  | .resume i => ∀ c ∈ s.calls[i]?, s.CallFinds c
  | _ => True

instance (s : Replicator) (op : ReplicatorOp) : Decidable (s.FindsOwn op) :=
  match op with
  | .resume i => inferInstanceAs (Decidable (∀ c ∈ s.calls[i]?, s.CallFinds c))
  | .start _ | .stop | .handleClose _ | .reject _ => inferInstanceAs (Decidable True)

/-! ## Subscriptions -/

/-- The other streams stay subscribed. -/
theorem stopStream_subscribed {s : Replicator} {k i : Nat} :
    (s.stopStream k).Subscribed i ↔ s.Subscribed i ∧ i ≠ k := by
  simp only [Subscribed, stopStream, List.getElem?_modify]
  by_cases hik : k = i
  · subst hik
    simp
  · simp [hik, Ne.symm hik]

/-- A stopped stream leaves the others started. -/
theorem stopStream_started {s : Replicator} {k : Nat}
    (h : ∀ st ∈ s.streams, st.subscribed = true → st.started = true) :
    ∀ st ∈ (s.stopStream k).streams, st.subscribed = true → st.started = true := by
  intro st hst hsub
  obtain ⟨i, hi⟩ := List.mem_iff_getElem?.mp hst
  rw [stopStream, List.getElem?_modify, Option.map_eq_map, Option.map_eq_some_iff] at hi
  obtain ⟨old, hold, rfl⟩ := hi
  by_cases hki : k = i
  · simp [hki] at hsub
  · rw [if_neg hki] at hsub ⊢
    exact h old (List.mem_of_getElem? hold) hsub

/-- To dispose of a database subscribes nothing. -/
theorem dispose_subscribed {s : Replicator} {db i : Nat} (h : (s.dispose db).Subscribed i) :
    s.Subscribed i := by
  obtain ⟨st', hst', hsub⟩ := h
  rw [dispose, List.getElem?_map, Option.map_eq_some_iff] at hst'
  obtain ⟨st, hst, rfl⟩ := hst'
  refine ⟨st, hst, ?_⟩
  split at hsub
  · simp at hsub
  · exact hsub

/-- A new stream is subscribed. -/
theorem createStream_subscribed {s : Replicator} {db i : Nat} :
    (s.createStream db).Subscribed i ↔ s.Subscribed i ∨ i = s.streams.length := by
  rw [Subscribed, Subscribed, createStream]
  dsimp only
  rcases Nat.lt_trichotomy i s.streams.length with hlt | rfl | hgt
  · rw [List.getElem?_append_left hlt]
    simp [Nat.ne_of_lt hlt]
  · simp
  · have hlength : (s.createStream db).streams.length ≤ i := by
      rw [createStream, List.length_append, List.length_singleton]
      exact hgt
    rw [List.getElem?_eq_none (by exact hlength), List.getElem?_eq_none (Nat.le_of_lt hgt)]
    simp [Nat.ne_of_gt hgt]

/-- A stop leaves no stream subscribed, as long as every subscribed stream is the
current one. -/
theorem stop_unsubscribes {s : Replicator} (h : ∀ i, s.Subscribed i → s.changeStream = some i)
    (i : Nat) : ¬ s.stop.Subscribed i := by
  intro hi
  have hcurrent : s.stopCurrent.Subscribed i := by
    have hlocal : s.stopCurrent.disposeLocal.Subscribed i := hi
    unfold disposeLocal at hlocal
    split at hlocal
    · exact hlocal
    · exact dispose_subscribed hlocal
  unfold stopCurrent at hcurrent
  split at hcurrent
  · rename_i hnone
    have hsome := h i hcurrent
    simp [hnone] at hsome
  · rename_i k hk
    obtain ⟨hold, hne⟩ := stopStream_subscribed.mp hcurrent
    exact hne (Option.some.inj (hk.symm.trans (h i hold))).symm

/-! ## Runs -/

/-- The current stream is the subscribed one, it is started, and so is its replicator;
only calls that were not stopped have attached handlers. -/
structure Single (s : Replicator) : Prop where
  subscribed : ∀ i, s.Subscribed i ↔ s.changeStream = some i
  started : ∀ st ∈ s.streams, st.subscribed = true → st.started = true
  running : s.changeStream ≠ none → s.started = true
  attached : ∀ a ∈ s.attached, a.2 = false

/-- Nothing is subscribed to begin with. -/
theorem single_init : init.Single where
  subscribed _ := ⟨fun h => absurd h.choose_spec.1 nofun, nofun⟩
  started := nofun
  running := nofun
  attached := nofun

/-- One stream at most behaves. -/
theorem Single.behaves {s : Replicator} (h : s.Single) : s.Behaves where
  single i j hi hj :=
    Option.some.inj (((h.subscribed i).mp hi).symm.trans ((h.subscribed j).mp hj))
  stopped hstopped _ i hi := by
    have hrunning := h.running (by rw [(h.subscribed i).mp hi]; nofun)
    simp [hstopped] at hrunning
  attached := h.attached

theorem Single.moveTo {s : Replicator} (h : s.Single) (i : Nat) (p : StartPoint) :
    (s.moveTo i p).Single :=
  { h with }

/-- A stream that was stopped or disposed of is not subscribed, and the others are as
they were. -/
private theorem stop_started {s : Replicator}
    (h : ∀ st ∈ s.streams, st.subscribed = true → st.started = true) :
    ∀ st ∈ s.stop.streams, st.subscribed = true → st.started = true := by
  have hcurrent : ∀ st ∈ s.stopCurrent.streams, st.subscribed = true → st.started = true := by
    intro st hst hsub
    unfold stopCurrent at hst
    split at hst
    · exact h st hst hsub
    · exact stopStream_started h st hst hsub
  intro st hst hsub
  have hlocal : st ∈ s.stopCurrent.disposeLocal.streams := hst
  unfold disposeLocal at hlocal
  split at hlocal
  · exact hcurrent st hlocal hsub
  · obtain ⟨old, hold, rfl⟩ := List.mem_map.mp hlocal
    split at hsub
    · simp at hsub
    · rename_i hne
      rw [if_neg hne]
      exact hcurrent old hold hsub

/-- A stop leaves no stream. -/
theorem Single.stop {s : Replicator} (h : s.Single) : s.stop.Single where
  subscribed i :=
    ⟨fun hi => absurd hi (stop_unsubscribes (fun j hj => (h.subscribed j).mp hj) i), nofun⟩
  started := stop_started h.started
  running hne := absurd rfl hne
  attached := h.attached

/-- A start waits for its database first. -/
private theorem Single.start {s : Replicator} (h : s.Single) (socket : Nat) :
    (s.start socket).Single := by
  unfold Replicator.start
  split
  · exact h
  · exact { h with running := fun _ => rfl }

/-- A start that has its database makes a stream where it is the only one. -/
private theorem Single.resumeWrapDb {s : Replicator} (h : s.Single) (i : Nat) :
    (s.resumeWrapDb i).Single := by
  have hwrapped :
      ({ s with localDb := some s.wrapped, wrapped := s.wrapped + 1 } : Replicator).Single :=
    { h with }
  unfold Replicator.resumeWrapDb
  dsimp only
  split
  · exact hwrapped.moveTo i _
  · exact hwrapped.stop.moveTo i _

/-- A stream that is created over none is the only one. -/
private theorem Single.resumeSeqIdFor {s : Replicator} (h : s.Single) (i db : Nat)
    (hok : s.started = true → s.changeStream = none) : (s.resumeSeqIdFor i db).Single := by
  unfold Replicator.resumeSeqIdFor
  split
  · rename_i hstarted
    have hnone := hok hstarted
    have hcreated : (s.createStream db).Single := by
      refine ⟨fun j => ?_, fun st hst hsub => ?_, fun _ => hstarted, h.attached⟩
      · rw [createStream_subscribed, h.subscribed, hnone, createStream, Option.some.injEq]
        simp [eq_comm]
      · rcases List.mem_append.mp hst with hold | hnew
        · exact h.started st hold hsub
        · rw [List.mem_singleton.mp hnew]
    exact hcreated.moveTo i _
  · exact h.stop.moveTo i _

/-- A stream that has started is the one in use. -/
private theorem Single.resumeStreamStart {s : Replicator} (h : s.Single) (i stream : Nat) :
    (s.resumeStreamStart i stream).Single := by
  unfold Replicator.resumeStreamStart
  split
  · rename_i st hst
    split
    · exact h.moveTo i _
    · rename_i hstopped
      -- it is not the current one, which is started
      have hother : ¬ s.Subscribed stream := by
        rintro ⟨st', hst', hsub⟩
        rw [hst, Option.some.injEq] at hst'
        exact hstopped (h.started st (List.mem_of_getElem? hst) (hst' ▸ hsub))
      have hsame : (s.stopStream stream).Single := by
        refine { h with subscribed := fun j => ?_, started := stopStream_started h.started }
        rw [stopStream_subscribed]
        constructor
        · exact fun hj => (h.subscribed j).mp hj.1
        · intro hj
          have hsub := (h.subscribed j).mpr hj
          exact ⟨hsub, fun heq => hother (heq ▸ hsub)⟩
      exact hsame.moveTo i _
  · exact h.moveTo i _

/-- A start that was stopped meanwhile takes its own stream away. -/
private theorem Single.resumeOpened {s : Replicator} (h : s.Single) (i : Nat) (stopped : Bool)
    (hok : stopped = true → s.ws = none) : (s.resumeOpened i stopped).Single := by
  unfold Replicator.resumeOpened
  split
  · exact h.moveTo i _
  · rename_i socket hws
    have hattached :
        ({ s with attached := s.attached ++ [(socket, stopped)] } : Replicator).Single := by
      refine { h with attached := fun a ha => ?_ }
      rcases List.mem_append.mp ha with hold | hnew
      · exact h.attached a hold
      · rw [List.mem_singleton.mp hnew]
        by_contra hstopped
        simp [hok (by simpa using hstopped)] at hws
    exact hattached.moveTo i _

/-- Every call that goes on and finds its own stream keeps one at most. -/
private theorem Single.resume {s : Replicator} (h : s.Single) (i : Nat)
    (hok : s.FindsOwn (.resume i)) : (s.resume i).Single := by
  unfold Replicator.resume
  split
  · exact h
  · rename_i c hc
    have hfinds : s.CallFinds c := hok c hc
    obtain ⟨point, stopped⟩ := c
    cases point with
    | wrapDb => exact h.resumeWrapDb i
    | seqIdFor db => exact h.resumeSeqIdFor i db hfinds
    | streamStart stream => exact h.resumeStreamStart i stream
    | opened => exact h.resumeOpened i stopped hfinds
    | finished => exact h

/-- A step in which no call creates a stream over another one, and no stopped call finds
a socket, keeps a single stream. -/
theorem single_step {s : Replicator} (op : ReplicatorOp) (h : s.Single) (hok : s.FindsOwn op) :
    (s.step op).Single := by
  cases op with
  | start socket => exact h.start socket
  | stop => exact h.stop
  | handleClose socket =>
      rw [step]
      split
      · exact Single.stop (s := { s with ws := none }) { h with }
      · exact h
  | resume i => exact h.resume i hok
  | reject i =>
      rw [step, reject]
      split
      · exact h
      · split
        · exact h
        · exact h.moveTo i _

/-- Every other step has two subscribed streams, or attaches handlers for a call that
was stopped. -/
theorem not_behaves_of_not_findsOwn {s : Replicator} (h : s.Single) {op : ReplicatorOp}
    (hbad : ¬ s.FindsOwn op) : ¬ (s.step op).Behaves := by
  cases op with
  | start socket => exact absurd trivial hbad
  | stop => exact absurd trivial hbad
  | handleClose socket => exact absurd trivial hbad
  | reject i => exact absurd trivial hbad
  | resume i =>
      obtain ⟨c, hc, hfinds⟩ : ∃ c, s.calls[i]? = some c ∧ ¬ s.CallFinds c := by
        simpa [FindsOwn] using hbad
      obtain ⟨point, stopped⟩ := c
      intro hbehaves
      rw [step, Replicator.resume, hc] at hbehaves
      cases point with
      | wrapDb => exact hfinds trivial
      | streamStart stream => exact hfinds trivial
      | finished => exact hfinds trivial
      | seqIdFor db =>
          obtain ⟨hstarted, hsome⟩ := Classical.not_imp.mp hfinds
          obtain ⟨k, hk⟩ := Option.ne_none_iff_exists'.mp hsome
          have hk : s.Subscribed k := (h.subscribed k).mpr hk
          dsimp only at hbehaves
          rw [Replicator.resumeSeqIdFor, if_pos hstarted] at hbehaves
          have hsame := hbehaves.single k s.streams.length
            (createStream_subscribed.mpr (Or.inl hk)) (createStream_subscribed.mpr (Or.inr rfl))
          obtain ⟨st, hst, -⟩ := hk
          have hlt := (List.getElem?_eq_some_iff.mp hst).1
          omega
      | opened =>
          obtain ⟨hstopped, hsome⟩ := Classical.not_imp.mp hfinds
          obtain ⟨socket, hws⟩ := Option.ne_none_iff_exists'.mp hsome
          dsimp only at hbehaves
          rw [Replicator.resumeOpened, hws] at hbehaves
          have hfalse := hbehaves.attached (socket, stopped) (List.mem_append_right _ (by simp))
          simp [hstopped] at hfalse

/-- The replicator behaves throughout a run exactly when no call creates a stream over
another one and no stopped call finds a socket. -/
theorem replicator_iff (ops : List ReplicatorOp) :
    Run.Always step Behaves init ops ↔ Run.Allowed step FindsOwn init ops :=
  Run.always_iff_allowed Single (fun _ h => h.behaves) (fun _ op h hok => single_step op h hok)
    (fun _ _ h hbad => not_behaves_of_not_findsOwn h hbad) single_init

/-- The second start comes while the first one still waits for its database.  Both go
on, each creates a stream, and the first attaches its handlers to the second socket; a
stop then ends one of the streams only. -/
theorem restart_leaves_two_streams :
    let ops : List ReplicatorOp :=
      [.start 1, .stop, .start 2, .resume 0, .resume 1, .resume 0, .resume 1, .resume 0,
        .resume 0, .resume 1, .resume 1]
    let s := Run.exec step init ops
    s.streams = [⟨0, true, true⟩, ⟨1, true, true⟩] ∧ s.attached = [(2, true), (2, false)] ∧
    s.stop.started = false ∧ (∀ c ∈ s.stop.calls, c.point = .finished) ∧
    s.stop.streams = [⟨0, true, true⟩, ⟨1, false, false⟩] ∧
    ¬ s.Behaves ∧ ¬ s.stop.Behaves := by
  intro ops s
  have hstreams : s.streams = [⟨0, true, true⟩, ⟨1, true, true⟩] := by decide
  have hstopped : s.stop.streams = [⟨0, true, true⟩, ⟨1, false, false⟩] := by decide
  refine ⟨hstreams, by decide, by decide, by decide, hstopped, fun h => ?_, fun h => ?_⟩
  · have hsame := h.single 0 1 ⟨⟨0, true, true⟩, by rw [hstreams]; rfl, rfl⟩
      ⟨⟨1, true, true⟩, by rw [hstreams]; rfl, rfl⟩
    simp at hsame
  · exact h.stopped (by decide) (by decide) 0 ⟨⟨0, true, true⟩, by rw [hstopped]; rfl, rfl⟩

end Replicator

end CrSqlite
