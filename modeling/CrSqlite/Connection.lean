import CrSqlite.ChangeStream
import CrSqlite.Library.Run

/-!
# Connection - the life of a connection to the server

A connection waits for an establish message, opens the database asynchronously and
puts what arrives meanwhile behind the promise.  When the database is open it asks
itself for the changes, which starts the stream, and works the waiting messages off.
The close of the socket clears the fields and runs the hook of the stream, once
(js/sync-reference/server-core, connection.ts and establishedConnection.ts).

What runs on a promise runs before the next event of the socket.

Main results:

- Theorem {lit}`processMsg_eq`: what a message does to an established connection.
- Theorem {lit}`orderly_step`: a step that opens no database behind the close keeps the
  messages in order and the closed connection silent.
- Theorem {lit}`connection_lifecycle_iff`: a connection behaves throughout a run exactly
  when no database is opened behind the close.
- Theorem {lit}`stream_outlives_connection`: a database that is opened behind the close
  leaves a subscribed stream.
-/

namespace CrSqlite

/-! ## Messages -/

/-- `ConnectionCodeKey`. -/
inductive ConnectionCodeKey where
  | ok
  | duplicateSite
  | dbOpenFail
  | msgDecodeFailure
  | invalidMsgState
  | error
  | outOfOrderDelivery
deriving DecidableEq

/-- `connectionCode`. -/
def connectionCode : ConnectionCodeKey → Nat
  | .ok => 1000
  | .duplicateSite => 4001
  | .dbOpenFail => 4002
  | .msgDecodeFailure => 4003
  | .invalidMsgState => 4004
  | .error => 4005
  | .outOfOrderDelivery => 4006

/-- The `code` of something thrown: a key of the table, a code of the database's own,
or nothing. -/
inductive ErrorCode where
  | key (k : ConnectionCodeKey)
  | other
  | missing
deriving DecidableEq

/-- `Msg`, with the fields that decide what becomes of the connection. -/
inductive Msg where
  | establish
  | request
  | receive (seqStart seqEnd : Seq)
  | ack
deriving DecidableEq

/-- Data that has arrived: its number, the message if it can be decoded, and what the
work of its handler on the database throws. -/
structure Arrival where
  number : Nat
  msg : Option Msg
  fault : Option ErrorCode

/-- What `processMsg` was called with. -/
inductive Processed where
  | request
  | msg (number : Nat)
deriving DecidableEq

/-- The number of a message that has arrived. -/
def Processed.number : Processed → Option Nat
  | .request => none
  | .msg n => some n

/-! ## The connection -/

/-- `EstablishedConnection`: whether it has a stream, and the expected sequence. -/
structure EstablishedConnection where
  changeStream : Bool
  expectedSeq : Option Seq
deriving DecidableEq

/-- The test of `#applyChanges`. -/
def EstablishedConnection.outOfOrder (e : EstablishedConnection) (start : Seq) : Bool :=
  match e.expectedSeq with
  | none => false
  | some expected =>
      expected.1 < start.1 || (expected.1 < start.1 && start.2 != expected.2)

/-- `Connection`.  `opening` tells that the `dbFactory` call is pending, `queue` holds
what waits for the promise, `onClosed` tells that a stream has registered its hook, and
`subscribed` counts the streams that listen to the database.  `processed` and
`processedAtClose` are what was processed so far and before the socket closed. -/
structure Connection where
  establishedConnection : Option EstablishedConnection
  establishPromise : Bool
  opening : Bool
  queue : List Arrival
  onClosed : Bool
  subscribed : Nat
  closed : Bool
  arrived : Nat
  processed : List Processed
  processedAtClose : List Processed
  closes : List (Option Nat)

namespace Connection

/-- A connection on a new socket. -/
def init : Connection :=
  ⟨none, false, false, [], false, 0, false, 0, [], [], []⟩

/-- `closeForError` with a code, if it has one; the socket closes later. -/
def closeForError (c : Connection) (code : Option Nat) : Connection :=
  { c with closes := c.closes ++ [code] }

/-- `close`. -/
def close (c : Connection) (k : ConnectionCodeKey) : Connection :=
  c.closeForError (some (connectionCode k))

/-- What `#onMsg` does with something thrown. -/
def closeFor (c : Connection) : Option ErrorCode → Connection
  | none => c
  | some (.key k) => c.close k
  | some .other => c.closeForError none
  | some .missing => c.close .error

/-- `#applyChanges`. -/
def applyChanges (c : Connection) (e : EstablishedConnection) (seqStart seqEnd : Seq)
    (fault : Option ErrorCode) : Connection × Option ErrorCode :=
  if e.outOfOrder seqStart then (c, some (.key .outOfOrderDelivery))
  else if fault.isSome then (c, fault)
  else ({ c with establishedConnection := some { e with expectedSeq := some seqEnd } }, none)

/-- `#changesRequested`: the new stream registers its hook, which throws when there is
one, and `begin` subscribes it before the first pull. -/
def changesRequested (c : Connection) (e : EstablishedConnection) (fault : Option ErrorCode) :
    Connection × Option ErrorCode :=
  if e.changeStream then (c, some (.key .invalidMsgState))
  else if c.onClosed then (c, some .missing)
  else
    ({ c with
        establishedConnection := some { e with changeStream := true }
        onClosed := true
        subscribed := c.subscribed + 1 }, fault)

/-- `processMsg`, and what it throws. -/
def processMsg (c : Connection) (e : EstablishedConnection) (m : Msg)
    (fault : Option ErrorCode) : Connection × Option ErrorCode :=
  match m with
  | .ack => (c, if e.changeStream then fault else some (.key .invalidMsgState))
  | .receive seqStart seqEnd => c.applyChanges e seqStart seqEnd fault
  | .request => c.changesRequested e fault
  | .establish => (c, some (.key .invalidMsgState))

/-- `#establish`; the site id may not be one. -/
def establish (c : Connection) (fault : Option ErrorCode) : Connection :=
  if fault.isSome then c.close .dbOpenFail
  else { c with establishPromise := true, opening := true }

/-- A message waits for the promise. -/
def enqueue (c : Connection) (a : Arrival) : Connection :=
  { c with queue := c.queue ++ [a] }

/-- `processMsg` is called. -/
def note (c : Connection) (p : Processed) : Connection :=
  { c with processed := c.processed ++ [p] }

/-- `#onMsg`. -/
def onMsg (c : Connection) (a : Arrival) : Connection :=
  match a.msg with
  | none => c.close .msgDecodeFailure
  | some m =>
      if c.establishedConnection.isSome || c.establishPromise then
        if m = .establish then c.close .invalidMsgState
        else
          match c.establishedConnection with
          | none => c.enqueue a
          | some e =>
              let handled := (c.note (.msg a.number)).processMsg e m a.fault
              handled.1.closeFor handled.2
      else if m = .establish then c.establish a.fault
      else c.close .invalidMsgState

/-- The promise has resolved: what waits for it is worked off. -/
def drain (c : Connection) : Connection :=
  c.queue.foldl onMsg { c with queue := [] }

/-- The fields when `dbFactory` has resolved and the request is about to be processed. -/
def openedWith (c : Connection) (e : EstablishedConnection) : Connection :=
  { c with opening := false, establishedConnection := some e }.note .request

/-- `dbFactory` has resolved.  When the request throws, the promise rejects and nothing
that waits for it runs. -/
def opened (c : Connection) (fault : Option ErrorCode) : Connection :=
  let e : EstablishedConnection := ⟨false, none⟩
  let requested := (c.openedWith e).processMsg e .request fault
  if requested.2.isSome then { requested.1 with queue := [] } else requested.1.drain

/-- `dbFactory` has rejected. -/
def openFailed (c : Connection) : Connection :=
  ({ c with opening := false, establishPromise := false }.close .dbOpenFail).drain

/-- `#closed`, and the hook `#connClosed` of the stream. -/
def socketClosed (c : Connection) : Connection :=
  { c with
    closed := true
    establishedConnection := none
    establishPromise := false
    subscribed := if c.onClosed then c.subscribed - 1 else c.subscribed
    processedAtClose := c.processed }

end Connection

/-- What happens to a connection. -/
inductive ConnectionOp where
  | msg (m : Option Msg) (fault : Option ErrorCode)
  | opened (fault : Option ErrorCode)
  | openFailed
  | socketClosed

namespace Connection

/-- One step; a closed socket has no listeners. -/
def step (c : Connection) : ConnectionOp → Connection
  | .msg m fault =>
      if c.closed then c else { c with arrived := c.arrived + 1 }.onMsg ⟨c.arrived, m, fault⟩
  | .opened fault => if c.opening then c.opened fault else c
  | .openFailed => if c.opening then c.openFailed else c
  | .socketClosed => if c.closed then c else c.socketClosed

/-- The messages are processed in the order of their arrival, each at most once, behind
the request that starts the stream; behind the close nothing was processed and no
stream is subscribed. -/
structure Behaves (c : Connection) : Prop where
  ordered : (c.processed.filterMap Processed.number).Pairwise (· < ·)
  started : ∀ p ∈ c.processed.head?, p = .request
  silent : c.closed = true → c.processed = c.processedAtClose ∧ c.subscribed = 0

/-- The database is not opened behind the close. -/
def OpensInTime (c : Connection) : ConnectionOp → Prop
  | .opened _ => ¬ (c.opening = true ∧ c.closed = true)
  | _ => True

instance (c : Connection) (op : ConnectionOp) : Decidable (c.OpensInTime op) :=
  match op with
  | .opened _ => inferInstanceAs (Decidable (¬ (_ ∧ _)))
  | .msg _ _ | .openFailed | .socketClosed => inferInstanceAs (Decidable True)

/-! ## What a message does -/

/-- A stream is subscribed exactly when it has registered its hook. -/
def Subscribes (c : Connection) : Prop :=
  c.subscribed = if c.onClosed then 1 else 0

/-- An established connection has processed the given things. -/
structure Handled (c c' : Connection) (ps : List Processed) : Prop where
  established : c'.establishedConnection.isSome = true
  establishPromise : c'.establishPromise = c.establishPromise
  opening : c'.opening = c.opening
  queue : c'.queue = c.queue
  closed : c'.closed = c.closed
  arrived : c'.arrived = c.arrived
  processedAtClose : c'.processedAtClose = c.processedAtClose
  processed : c'.processed = c.processed ++ ps
  subscribes : c.Subscribes → c'.Subscribes

theorem Handled.refl {c : Connection} (hc : c.establishedConnection.isSome = true) :
    Handled c c [] :=
  ⟨hc, rfl, rfl, rfl, rfl, rfl, rfl, (List.append_nil _).symm, id⟩

/-- Messages are handled one after the other. -/
theorem Handled.trans {c₁ c₂ c₃ : Connection} {ps qs : List Processed} (h : Handled c₁ c₂ ps)
    (h' : Handled c₂ c₃ qs) : Handled c₁ c₃ (ps ++ qs) where
  established := h'.established
  establishPromise := h'.establishPromise.trans h.establishPromise
  opening := h'.opening.trans h.opening
  queue := h'.queue.trans h.queue
  closed := h'.closed.trans h.closed
  arrived := h'.arrived.trans h.arrived
  processedAtClose := h'.processedAtClose.trans h.processedAtClose
  processed := by rw [h'.processed, h.processed, List.append_assoc]
  subscribes hs := h'.subscribes (h.subscribes hs)

/-- An error closes the connection with a code. -/
theorem closeFor_eq (c : Connection) (fault : Option ErrorCode) :
    ∃ codes, c.closeFor fault = { c with closes := codes } := by
  rcases fault with _ | k | _ | _
  · exact ⟨c.closes, rfl⟩
  · exact ⟨_, rfl⟩
  · exact ⟨_, rfl⟩
  · exact ⟨_, rfl⟩

/-- What a message does to an established connection: it may set the stream, which is
subscribed then and has its hook, and the expected sequence. -/
theorem processMsg_eq {c : Connection} {e : EstablishedConnection}
    (he : c.establishedConnection = some e) (m : Msg) (fault : Option ErrorCode) :
    ∃ e' hook n, (c.processMsg e m fault).1 =
        { c with establishedConnection := some e', onClosed := hook, subscribed := n } ∧
      ((hook = c.onClosed ∧ n = c.subscribed) ∨
        (c.onClosed = false ∧ hook = true ∧ n = c.subscribed + 1)) := by
  have hsame : c = { c with establishedConnection := some e } := by
    rw [← he]
  cases m with
  | ack => exact ⟨e, _, _, hsame, Or.inl ⟨rfl, rfl⟩⟩
  | establish => exact ⟨e, _, _, hsame, Or.inl ⟨rfl, rfl⟩⟩
  | receive seqStart seqEnd =>
      rw [processMsg, applyChanges]
      split
      · exact ⟨e, _, _, hsame, Or.inl ⟨rfl, rfl⟩⟩
      · split
        · exact ⟨e, _, _, hsame, Or.inl ⟨rfl, rfl⟩⟩
        · exact ⟨_, _, _, rfl, Or.inl ⟨rfl, rfl⟩⟩
  | request =>
      rw [processMsg, changesRequested]
      split
      · exact ⟨e, _, _, hsame, Or.inl ⟨rfl, rfl⟩⟩
      · split
        · exact ⟨e, _, _, hsame, Or.inl ⟨rfl, rfl⟩⟩
        · rename_i hhook
          exact ⟨_, _, _, rfl, Or.inr ⟨by simpa using hhook, rfl, rfl⟩⟩

/-- A message is handled by the established connection. -/
theorem processMsg_handled {c : Connection} {e : EstablishedConnection}
    (he : c.establishedConnection = some e) (m : Msg) (fault : Option ErrorCode) :
    Handled c (c.processMsg e m fault).1 [] := by
  obtain ⟨e', hook, n, heq, hsub⟩ := processMsg_eq he m fault
  rw [heq]
  refine ⟨rfl, rfl, rfl, rfl, rfl, rfl, rfl, (List.append_nil _).symm, fun hs => ?_⟩
  rcases hsub with ⟨rfl, rfl⟩ | ⟨hnone, rfl, rfl⟩
  · exact hs
  · simp only [Subscribes, hnone, Bool.false_eq_true, if_false] at hs
    simp [Subscribes, hs]

/-- A message is refused, starts the opening of the database, waits for it, or is
processed. -/
theorem onMsg_cases (c : Connection) (a : Arrival) :
    (∃ codes, c.onMsg a = { c with closes := codes }) ∨
    (c.establishedConnection = none ∧ c.establishPromise = false ∧ a.msg = some .establish ∧
      c.onMsg a = { c with establishPromise := true, opening := true }) ∨
    (c.establishedConnection = none ∧ c.establishPromise = true ∧ a.msg ≠ some .establish ∧
      c.onMsg a = c.enqueue a) ∨
    (c.establishedConnection.isSome = true ∧ Handled c (c.onMsg a) [.msg a.number]) := by
  have hrefused : ∀ k, c.onMsg a = c.close k → ∃ codes, c.onMsg a = { c with closes := codes } :=
    fun _ hk => ⟨_, hk⟩
  cases hmsg : a.msg with
  | none => exact Or.inl (hrefused .msgDecodeFailure (by rw [onMsg, hmsg]))
  | some m =>
      by_cases hm : m = .establish
      · by_cases hbusy : (c.establishedConnection.isSome || c.establishPromise) = true
        · exact Or.inl (hrefused .invalidMsgState (by simp only [onMsg, hmsg, hbusy, hm, if_true]))
        · have heq : c.onMsg a = c.establish a.fault := by
            simp only [onMsg, hmsg, if_neg hbusy, if_pos hm]
          obtain ⟨hnone, hpromise⟩ := Bool.or_eq_false_iff.mp (Bool.not_eq_true _ ▸ hbusy)
          rw [establish] at heq
          split at heq
          · exact Or.inl (hrefused .dbOpenFail heq)
          · have hnone : c.establishedConnection = none := by simpa using hnone
            exact Or.inr (Or.inl ⟨hnone, hpromise, by rw [hm], heq⟩)
      · rcases Option.eq_none_or_eq_some c.establishedConnection with he | ⟨e, he⟩
        · by_cases hpromise : c.establishPromise = true
          · refine Or.inr (Or.inr (Or.inl ⟨he, hpromise, by simpa using hm, ?_⟩))
            have heq : c.onMsg a = c.enqueue a := by
              simp only [onMsg, hmsg, he, hpromise, Bool.or_true, if_true, if_neg hm]
            exact heq
          · refine Or.inl (hrefused .invalidMsgState ?_)
            simp only [onMsg, hmsg, he, Option.isSome_none, Bool.false_or, if_neg hpromise, if_neg hm]
        · have hnoted : Handled c (c.note (.msg a.number)) [.msg a.number] :=
            ⟨by simp [note, he], rfl, rfl, rfl, rfl, rfl, rfl, rfl, id⟩
          have hdone := hnoted.trans (processMsg_handled (e := e) (by simp [note, he]) m a.fault)
          have heq : c.onMsg a = ((c.note (.msg a.number)).processMsg e m a.fault).1.closeFor
              ((c.note (.msg a.number)).processMsg e m a.fault).2 := by
            simp only [onMsg, hmsg, he, Option.isSome_some, Bool.true_or, if_true, if_neg hm]
          obtain ⟨codes, hcodes⟩ := closeFor_eq
            ((c.note (.msg a.number)).processMsg e m a.fault).1
            ((c.note (.msg a.number)).processMsg e m a.fault).2
          refine Or.inr (Or.inr (Or.inr ⟨by simp [he], ?_⟩))
          rw [heq, hcodes]
          exact ⟨hdone.established, hdone.establishPromise, hdone.opening, hdone.queue,
            hdone.closed, hdone.arrived, hdone.processedAtClose, hdone.processed, hdone.subscribes⟩

/-- What waited for the promise is processed in its order. -/
theorem foldl_onMsg_handled (queue : List Arrival) {c : Connection}
    (hc : c.establishedConnection.isSome = true) :
    ∃ ps, Handled c (queue.foldl onMsg c) ps ∧
      (ps.filterMap Processed.number).Sublist (queue.map Arrival.number) := by
  induction queue generalizing c with
  | nil => exact ⟨[], Handled.refl hc, List.Sublist.refl _⟩
  | cons a queue ih =>
      have hnone : c.establishedConnection ≠ none := Option.isSome_iff_ne_none.mp hc
      rw [List.foldl_cons]
      rcases c.onMsg_cases a with ⟨codes, heq⟩ | ⟨he, -⟩ | ⟨he, -⟩ | ⟨-, hone⟩
      · obtain ⟨ps, hps, hsub⟩ := ih (c := { c with closes := codes }) hc
        rw [heq]
        refine ⟨ps, ?_, hsub.cons _⟩
        exact (⟨hc, rfl, rfl, rfl, rfl, rfl, rfl, (List.append_nil _).symm, id⟩ :
          Handled c { c with closes := codes } []).trans hps
      · exact absurd he hnone
      · exact absurd he hnone
      · obtain ⟨ps, hps, hsub⟩ := ih hone.established
        exact ⟨_, hone.trans hps, hsub.cons_cons a.number⟩

/-- Without a promise what waited for it is refused. -/
theorem foldl_onMsg_refused (queue : List Arrival) {c : Connection}
    (hc : c.establishedConnection = none) (hpromise : c.establishPromise = false)
    (hqueue : ∀ a ∈ queue, a.msg ≠ some .establish) :
    ∃ codes, queue.foldl onMsg c = { c with closes := codes } := by
  induction queue generalizing c with
  | nil => exact ⟨c.closes, rfl⟩
  | cons a queue ih =>
      obtain ⟨ha, hrest⟩ := List.forall_mem_cons.mp hqueue
      rw [List.foldl_cons]
      rcases c.onMsg_cases a with ⟨codes, heq⟩ | ⟨-, -, hmsg, -⟩ | ⟨-, htrue, -⟩ | ⟨hsome, -⟩
      · rw [heq]
        exact ih (c := { c with closes := codes }) hc hpromise hrest
      · exact absurd hmsg ha
      · simp [hpromise] at htrue
      · simp [hc] at hsome

/-- An opened connection has processed the request, and then of what waited. -/
theorem opened_handled (c : Connection) (fault : Option ErrorCode) :
    ∃ ps, Handled { c.openedWith ⟨false, none⟩ with queue := [] } (c.opened fault) ps ∧
      (ps.filterMap Processed.number).Sublist (c.queue.map Arrival.number) := by
  have hreq := processMsg_handled (c := c.openedWith ⟨false, none⟩) rfl .request fault
  unfold opened
  dsimp only
  generalize (c.openedWith ⟨false, none⟩).processMsg ⟨false, none⟩ .request fault = requested
    at hreq ⊢
  have hempty : Handled { c.openedWith ⟨false, none⟩ with queue := [] }
      { requested.1 with queue := [] } [] :=
    ⟨hreq.established, hreq.establishPromise, hreq.opening, rfl, hreq.closed, hreq.arrived,
      hreq.processedAtClose, hreq.processed, hreq.subscribes⟩
  split
  · exact ⟨[], hempty, List.nil_sublist _⟩
  · obtain ⟨ps, hps, hsub⟩ := foldl_onMsg_handled requested.1.queue hempty.established
    refine ⟨ps, hempty.trans hps, ?_⟩
    rw [hreq.queue] at hsub
    exact hsub

/-! ## Runs -/

/-- What was processed or waits is numbered by its arrival; only a pending opening has
messages waiting, and only an established connection has processed any; a stream is
subscribed exactly while its hook may run. -/
structure Orderly (c : Connection) : Prop where
  ordered : (c.processed.filterMap Processed.number ++ c.queue.map Arrival.number).Pairwise (· < ·)
  arrived : ∀ n ∈ c.processed.filterMap Processed.number ++ c.queue.map Arrival.number,
    n < c.arrived
  started : ∀ p ∈ c.processed.head?, p = .request
  established : c.establishedConnection.isSome = true → c.processed ≠ [] ∧ c.opening = false
  waiting : c.closed = false → c.establishedConnection = none → c.processed = []
  queued : c.queue ≠ [] → c.opening = true
  queue : ∀ a ∈ c.queue, a.msg ≠ some .establish
  promise : c.establishPromise = true →
    c.opening = true ∨ c.establishedConnection.isSome = true
  silent : c.closed = true → c.processed = c.processedAtClose ∧ c.subscribed = 0
  cleared : c.closed = true → c.establishedConnection = none ∧ c.establishPromise = false
  subscribes : c.closed = false → c.Subscribes

/-- A connection without messages. -/
theorem orderly_init : init.Orderly := by
  refine ⟨List.Pairwise.nil, nofun, nofun, nofun, fun _ _ => rfl, fun h => absurd rfl h, nofun,
    nofun, nofun, nofun, fun _ => rfl⟩

theorem Orderly.behaves {c : Connection} (h : c.Orderly) : c.Behaves :=
  ⟨(List.pairwise_append.mp h.ordered).1, h.started, h.silent⟩

/-! ### One step -/

/-- An error code is sent. -/
private theorem Orderly.closeForError {c : Connection} (h : c.Orderly) (codes : List (Option Nat)) :
    ({ c with closes := codes } : Connection).Orderly :=
  { h with }

/-- What an established connection processes has arrived behind what it has processed,
and nothing waits any more. -/
private theorem Orderly.handled {c c' : Connection} (h : c.Orderly) (hclosed : c.closed = false)
    (hne : c.processed ≠ []) (hqueue : c.queue = []) (hopening : c.opening = false)
    {ps : List Processed} (hps : Handled c c' ps)
    (hordered : (c'.processed.filterMap Processed.number).Pairwise (· < ·))
    (harrived : ∀ n ∈ c'.processed.filterMap Processed.number, n < c'.arrived) : c'.Orderly := by
  have hq : c'.queue = [] := hps.queue.trans hqueue
  have hc : c'.closed = false := hps.closed.trans hclosed
  refine ⟨by simpa [hq] using hordered, by simpa [hq] using harrived, ?_, fun _ => ⟨?_, ?_⟩, ?_,
    fun hne => absurd hq hne, by simp [hq], fun _ => Or.inr hps.established, ?_, ?_,
    fun _ => hps.subscribes (h.subscribes hclosed)⟩
  · rw [hps.processed, List.head?_append_of_ne_nil _ hne]
    exact h.started
  · rw [hps.processed]
    simp [hne]
  · rw [hps.opening]
    exact hopening
  · intro _ hnone
    have hsome := hps.established
    simp [hnone] at hsome
  · intro htrue
    simp [hc] at htrue
  · intro htrue
    simp [hc] at htrue

/-- A message comes in: before the database is open it is kept, and then it is handled in turn. -/
private theorem Orderly.onMsg {c : Connection} (h : c.Orderly) (hclosed : c.closed = false)
    (m : Option Msg) (fault : Option ErrorCode) :
    (({ c with arrived := c.arrived + 1 } : Connection).onMsg ⟨c.arrived, m, fault⟩).Orderly := by
  have hlater : ∀ n ∈ c.processed.filterMap Processed.number ++ c.queue.map Arrival.number,
      n < c.arrived + 1 := fun n hn => Nat.lt_succ_of_lt (h.arrived n hn)
  have harrived : ({ c with arrived := c.arrived + 1 } : Connection).Orderly :=
    { h with arrived := hlater }
  rcases onMsg_cases { c with arrived := c.arrived + 1 } ⟨c.arrived, m, fault⟩ with
    ⟨codes, heq⟩ | ⟨hnone, hpromise, -, heq⟩ | ⟨hnone, hpromise, hmsg, heq⟩ | ⟨hsome, hone⟩
  · rw [heq]
    exact harrived.closeForError codes
  · rw [heq]
    exact { harrived with
      established := fun hsome => by simp [show c.establishedConnection = none from hnone] at hsome
      queued := fun _ => rfl
      promise := fun _ => Or.inl rfl
      cleared := fun htrue => by simp [hclosed] at htrue }
  · rw [heq]
    have hopening : c.opening = true :=
      (h.promise hpromise).resolve_right (by simp [show c.establishedConnection = none from hnone])
    refine { harrived with ordered := ?_, arrived := ?_, queued := fun _ => hopening, queue := ?_ }
    · rw [enqueue, List.map_append, ← List.append_assoc]
      refine List.pairwise_append.mpr ⟨h.ordered, List.pairwise_singleton _ _, fun n hn k hk => ?_⟩
      rw [List.mem_singleton.mp hk]
      exact h.arrived n hn
    · intro n hn
      rw [enqueue, List.map_append, ← List.append_assoc] at hn
      rcases List.mem_append.mp hn with hold | hnew
      · exact hlater n hold
      · rw [List.mem_singleton.mp hnew]
        exact Nat.lt_succ_self _
    · intro a ha
      rcases List.mem_append.mp ha with hold | hnew
      · exact h.queue a hold
      · rw [List.mem_singleton.mp hnew]
        exact hmsg
  · obtain ⟨hne, hopening⟩ := h.established hsome
    have hqueue : c.queue = [] := by
      by_contra hq
      simp [h.queued hq] at hopening
    have hprocessed := congrArg (List.filterMap Processed.number) hone.processed
    rw [List.filterMap_append] at hprocessed
    refine harrived.handled hclosed hne hqueue hopening hone ?_ ?_
    · rw [hprocessed]
      refine List.pairwise_append.mpr ⟨(List.pairwise_append.mp h.ordered).1,
        List.pairwise_singleton _ _, fun n hn k hk => ?_⟩
      rw [List.mem_singleton.mp hk]
      exact h.arrived n (List.mem_append_left _ hn)
    · intro n hn
      rw [hprocessed] at hn
      rw [hone.arrived]
      rcases List.mem_append.mp hn with hold | hnew
      · exact hlater n (List.mem_append_left _ hold)
      · rw [List.mem_singleton.mp hnew]
        exact Nat.lt_succ_self _

/-- The database is open, and what was kept is handled in order. -/
private theorem Orderly.opened {c : Connection} (h : c.Orderly) (hopening : c.opening = true)
    (hclosed : c.closed = false) (fault : Option ErrorCode) : (c.opened fault).Orderly := by
  have hnone : c.establishedConnection = none := by
    by_contra hsome
    have hfalse := (h.established (Option.isSome_iff_ne_none.mpr hsome)).2
    simp [hopening] at hfalse
  have hempty : c.processed = [] := h.waiting hclosed hnone
  obtain ⟨ps, hps, hsub⟩ := c.opened_handled fault
  have hordered : (c.queue.map Arrival.number).Pairwise (· < ·) := by
    simpa [hempty] using h.ordered
  have harrived : ∀ n ∈ c.queue.map Arrival.number, n < c.arrived := by
    simpa [hempty] using h.arrived
  have hstart : ({ c.openedWith ⟨false, none⟩ with queue := [] } : Connection).Orderly := by
    have hone : (c.openedWith ⟨false, none⟩).processed = [.request] := by
      rw [openedWith, note, hempty]
      rfl
    refine ⟨?_, ?_, ?_, fun _ => ⟨?_, rfl⟩, nofun, fun hne => absurd rfl hne, nofun,
      fun _ => Or.inr rfl, fun htrue => ?_, fun htrue => ?_, fun _ => h.subscribes hclosed⟩
    · rw [List.map_nil, List.append_nil, hone]
      exact List.Pairwise.nil
    · rw [List.map_nil, List.append_nil, hone]
      nofun
    · simp [hone]
    · simp [hone]
    · simp [openedWith, note, hclosed] at htrue
    · simp [openedWith, note, hclosed] at htrue
  have hnumbers : (c.opened fault).processed.filterMap Processed.number =
      ps.filterMap Processed.number := by
    rw [hps.processed, openedWith, note, hempty]
    rfl
  refine hstart.handled hclosed (by simp [openedWith, note]) rfl rfl hps ?_ ?_
  · rw [hnumbers]
    exact hordered.sublist hsub
  · intro n hn
    rw [hnumbers] at hn
    rw [hps.arrived]
    exact harrived n (hsub.subset hn)

/-- The database could not be opened, and the connection is closed. -/
private theorem Orderly.openFailed {c : Connection} (h : c.Orderly) (hopening : c.opening = true) :
    c.openFailed.Orderly := by
  have hnone : c.establishedConnection = none := by
    by_contra hsome
    have hfalse := (h.established (Option.isSome_iff_ne_none.mpr hsome)).2
    simp [hopening] at hfalse
  obtain ⟨codes, heq⟩ := foldl_onMsg_refused c.queue
    (c := { c with opening := false, establishPromise := false, queue := [],
                   closes := c.closes ++ [some (connectionCode .dbOpenFail)] })
    hnone rfl h.queue
  have heq : c.openFailed = { c with opening := false, establishPromise := false, queue := [],
                                     closes := codes } := heq
  rw [heq]
  exact { h with
    ordered := by simpa using (List.pairwise_append.mp h.ordered).1
    arrived := fun n hn => h.arrived n (by
      rw [List.map_nil, List.append_nil] at hn
      exact List.mem_append_left _ hn)
    established := fun hsome => ⟨(h.established hsome).1, rfl⟩
    queued := fun hne => absurd rfl hne
    queue := nofun
    promise := nofun
    cleared := fun _ => ⟨hnone, rfl⟩ }

/-- The socket is closed, and so is the stream. -/
private theorem Orderly.socketClosed {c : Connection} (h : c.Orderly) (hclosed : c.closed = false) :
    c.socketClosed.Orderly := by
  have hzero : c.socketClosed.subscribed = 0 := by
    have hsub := h.subscribes hclosed
    rw [Subscribes] at hsub
    rw [Connection.socketClosed]
    split <;> simp_all
  exact { h with
    established := nofun
    waiting := nofun
    promise := nofun
    silent := fun _ => ⟨rfl, hzero⟩
    cleared := fun _ => ⟨rfl, rfl⟩
    subscribes := nofun }

/-- A step that opens no database behind the close keeps the messages in order and the
closed connection silent. -/
theorem orderly_step {c : Connection} (op : ConnectionOp) (h : c.Orderly) (hok : c.OpensInTime op) :
    (c.step op).Orderly := by
  cases op with
  | msg m fault =>
      rw [step]
      split
      · exact h
      · rename_i hclosed
        exact h.onMsg (by simpa using hclosed) m fault
  | opened fault =>
      rw [step]
      split
      · rename_i hopening
        have hclosed : c.closed = false := by
          by_contra htrue
          exact hok ⟨hopening, by simpa using htrue⟩
        exact h.opened hopening hclosed fault
      · exact h
  | openFailed =>
      rw [step]
      split
      · rename_i hopening
        exact h.openFailed hopening
      · exact h
  | socketClosed =>
      rw [step]
      split
      · exact h
      · rename_i hclosed
        exact h.socketClosed (by simpa using hclosed)

/-- A database that is opened behind the close processes the request there. -/
theorem not_behaves_of_opened {c : Connection} (h : c.Orderly) {op : ConnectionOp}
    (hbad : ¬ c.OpensInTime op) : ¬ (c.step op).Behaves := by
  cases op with
  | msg m fault => exact absurd trivial hbad
  | openFailed => exact absurd trivial hbad
  | socketClosed => exact absurd trivial hbad
  | opened fault =>
      obtain ⟨hopening, hclosed⟩ := not_not.mp hbad
      rw [step, if_pos hopening]
      obtain ⟨ps, hps, -⟩ := c.opened_handled fault
      intro hbehaves
      have hsame := (hbehaves.silent (hps.closed.trans hclosed)).1
      rw [hps.processed, hps.processedAtClose, openedWith, note] at hsame
      have hlength := congrArg List.length (hsame.trans (h.silent hclosed).1.symm)
      simp at hlength

/-! ### The life of a connection -/

/-- A connection behaves throughout a run exactly when no database is opened behind the
close of its socket. -/
theorem connection_lifecycle_iff (ops : List ConnectionOp) :
    Run.Always step Behaves init ops ↔ Run.Allowed step OpensInTime init ops :=
  Run.always_iff_allowed Orderly (fun _ h => h.behaves) (fun _ op h hok => orderly_step op h hok)
    (fun _ _ h hbad => not_behaves_of_opened h hbad) orderly_init

/-- The socket closes while the database is opened; the stream is subscribed behind the
close, its hook never runs, and the message that was waiting is processed. -/
theorem stream_outlives_connection :
    let c := Run.exec step init
      [.msg (some .establish) none, .msg (some (.receive (0, 0) (1, 0))) none, .socketClosed,
        .opened none]
    c.closed = true ∧ c.subscribed = 1 ∧ c.processedAtClose = [] ∧
    c.processed = [.request, .msg 1] ∧ ¬ c.Behaves := by
  intro c
  refine ⟨by decide, by decide, by decide, by decide, fun h => ?_⟩
  have hzero := (h.silent (by decide)).2
  revert hzero
  decide

end Connection

end CrSqlite
