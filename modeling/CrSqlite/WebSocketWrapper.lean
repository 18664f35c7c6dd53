import CrSqlite.Replicator
import Mathlib.Algebra.Group.Nat.Defs

/-!
# WebSocketWrapper - reconnecting to the server

The client opens a socket and starts its replicator when the socket is open.  A socket that
fails, that closes abnormally or that the replicator gives up is followed by another one, after
a time that doubles with each attempt (js/sync-reference/client-websocket).  All sockets share
one wrapper, and with it the handlers that the replicator has attached; a socket that was
replaced may still open, fail or close.

Main results:

- Theorem {lit}`tries_run`: one timer at most is pending, the delays double up to a minute, and
  the client goes on trying until a socket closes normally.
- Theorem {lit}`sound_iff`: the replicator runs on the socket in use, and no start is refused,
  throughout a run exactly when it was stopped wherever the next socket takes over.
-/

namespace CrSqlite.WebSocketWrapper

/-! ## The sockets -/

inductive SocketState where
  | connecting
  | isOpen
  | closing
  | closed (code : Nat)
deriving DecidableEq

/-- A `WebSocket`; `onclose` is set when it opens. -/
structure Socket where
  state : SocketState
  opened : Bool
deriving DecidableEq

inductive Event where
  | opened
  | timeout (ms : Nat)

/-- The wrapper with the sockets it has created and the delays of its timers; what it has logged,
the newest first; its replicator, and how many calls of `start` have thrown. -/
structure Client where
  sockets : List Socket
  ws : Option Nat
  backoff : Nat
  reconnecting : Bool
  timers : List Nat
  log : List Event
  replicator : Replicator
  refused : Nat

def defaultBackoff : Nat := 5000

/-- An abnormal closure. -/
def abnormal : Nat := 1006

namespace Client

def start (s : Client) : Client :=
  if s.reconnecting then s
  else { s with ws := some s.sockets.length, sockets := s.sockets ++ [⟨.connecting, false⟩] }

/-- `#reconnect`. -/
def reconnect (s : Client) : Client :=
  if s.reconnecting then s
  else
    { s with
      reconnecting := true
      backoff := min 60000 (s.backoff * 2)
      timers := s.timers ++ [s.backoff]
      log := .timeout s.backoff :: s.log }

/-- The callback of `setTimeout`. -/
def timeout (s : Client) : Client :=
  match s.timers with
  | [] => s
  | _ :: timers => { s with timers := timers, reconnecting := false }.start

def closeSocket (sock : Socket) : Socket :=
  match sock.state with
  | .connecting | .isOpen => { sock with state := .closing }
  | .closing | .closed _ => sock

/-- `close` of the wrapper closes the socket in use. -/
def close (s : Client) : Client :=
  match s.ws with
  | none => s
  | some n => { s with sockets := s.sockets.modify n closeSocket }

def closeForError (s : Client) : Client :=
  s.close.reconnect

/-- `stop` of the replicator, which closes its socket. -/
def stop (s : Client) : Client :=
  if s.replicator.ws.isSome then { s.close with replicator := s.replicator.step .stop }
  else { s with replicator := s.replicator.step .stop }

/-- `ws.onopen`, where the replicator is started with the wrapper for its socket. -/
def onopen (s : Client) : Client :=
  { s with
    backoff := defaultBackoff
    log := .opened :: s.log
    refused := if s.replicator.started then s.refused + 1 else s.refused
    replicator := s.replicator.step (.start 0) }

/-- `ws.onerror`. -/
def onerror (s : Client) : Client :=
  s.stop.reconnect

/-- `ws.onclose`. -/
def onclose (s : Client) (code : Nat) : Client :=
  let s := { s with replicator := s.replicator.step (.handleClose 0) }
  if code = abnormal then s.reconnect else s

end Client

/-- What happens to the sockets and the timer, and to the replicator. -/
inductive Op where
  | opened (n : Nat)
  | failed (n : Nat)
  | closed (n : Nat) (code : Nat)
  | timeout
  | close
  | closeForError
  | stop
  | resume (call : Nat)
  | reject (call : Nat)

def setState (s : Client) (n : Nat) (sock : Socket) : Client :=
  { s with sockets := s.sockets.set n sock }

/-- An error event is followed by a close event; a socket that never opened closes in no other
way. -/
def step (s : Client) : Op → Client
  | .opened n =>
      match s.sockets[n]? with
      | some ⟨.connecting, _⟩ => (setState s n ⟨.isOpen, true⟩).onopen
      | _ => s
  | .failed n =>
      match s.sockets[n]? with
      | none | some ⟨.closed _, _⟩ => s
      | some ⟨_, false⟩ => (setState s n ⟨.closed abnormal, false⟩).onerror
      | some ⟨_, true⟩ => ((setState s n ⟨.closed abnormal, true⟩).onerror).onclose abnormal
  | .closed n code =>
      match s.sockets[n]? with
      | some ⟨.isOpen, true⟩ | some ⟨.closing, true⟩ =>
          (setState s n ⟨.closed code, true⟩).onclose code
      | _ => s
  | .timeout => s.timeout
  | .close => s.close
  | .closeForError => s.closeForError
  | .stop => s.stop
  | .resume i => { s with replicator := s.replicator.step (.resume i) }
  | .reject i => { s with replicator := s.replicator.step (.reject i) }

/-- `startSyncWith`. -/
def initial : Client :=
  Client.start ⟨[], none, defaultBackoff, false, [], [], Replicator.init, 0⟩

/-! ## Attempts -/

/-- The delays since the last socket opened, the newest first. -/
def sinceOpened : List Event → List Nat
  | .timeout ms :: log => ms :: sinceOpened log
  | _ => []

/-- The delay of an attempt. -/
def delay (k : Nat) : Nat :=
  min 60000 (defaultBackoff * 2 ^ k)

/-- Each delay is twice the one before, up to a minute. -/
theorem delay_succ (k : Nat) : delay (k + 1) = min 60000 (delay k * 2) := by
  rw [delay, delay, Nat.pow_succ]
  generalize 2 ^ k = x
  unfold defaultBackoff
  omega

/-- One timer is pending while the wrapper reconnects, and the delays since the last opening are
the doubled ones. -/
structure Attempts (s : Client) : Prop where
  timers : s.timers.length = if s.reconnecting then 1 else 0
  delays : ∃ k, sinceOpened s.log = ((List.range k).map delay).reverse ∧ s.backoff = delay k

/-- The wrapper reconnects when its socket has closed abnormally. -/
def GoesOn (s : Client) : Prop :=
  s.reconnecting = false → ∀ n opened, s.ws = some n →
    s.sockets[n]? ≠ some ⟨.closed abnormal, opened⟩

section Attempts

variable {s : Client} {n code : Nat} {sock : Socket}

/-- A timer is pending behind a reconnect. -/
theorem reconnecting_reconnect (s : Client) : s.reconnect.reconnecting = true := by
  rw [Client.reconnect]
  split
  next h => exact h
  next => rfl

/-- A reconnect sets the one timer. -/
theorem Attempts.reconnect (h : Attempts s) : Attempts s.reconnect := by
  rw [Client.reconnect]
  split
  next => exact h
  next hidle =>
    obtain ⟨k, hlog, hbackoff⟩ := h.delays
    have hnone := h.timers
    rw [if_neg hidle] at hnone
    refine ⟨?_, k + 1, ?_, ?_⟩
    · rw [List.length_append, hnone]
      rfl
    · rw [sinceOpened, hlog, hbackoff, List.range_succ, List.map_append, List.reverse_append]
      rfl
    · rw [delay_succ, ← hbackoff]

/-- While a timer is pending nothing is asked. -/
theorem goesOn_reconnect (s : Client) : GoesOn s.reconnect := fun h => by
  rw [reconnecting_reconnect] at h
  cases h

/-- To close the socket leaves the timer alone. -/
theorem attempts_close (h : Attempts s) : Attempts s.close := by
  rw [Client.close]
  split
  · exact h
  · exact ⟨h.timers, h.delays⟩

/-- A socket that has closed is not closed again. -/
theorem closeSocket_eq_closed {opened : Bool}
    (h : Client.closeSocket sock = ⟨.closed code, opened⟩) : sock = ⟨.closed code, opened⟩ := by
  rw [Client.closeSocket] at h
  split at h
  · cases h
  · cases h
  · exact h
  · exact h

/-- To close the socket closes none abnormally. -/
theorem goesOn_close (h : GoesOn s) : GoesOn s.close := by
  rw [Client.close]
  split
  next => exact h
  next m hm =>
    intro hidle n opened hn hclosed
    obtain rfl : m = n := Option.some.inj (hm.symm.trans hn)
    rw [List.getElem?_modify] at hclosed
    simp only [if_true] at hclosed
    obtain ⟨sock, hsock, hclosed⟩ := Option.map_eq_some_iff.mp hclosed
    rw [closeSocket_eq_closed hclosed] at hsock
    exact h hidle m opened hn hsock

/-- A stop leaves the timer alone. -/
theorem attempts_stop (h : Attempts s) : Attempts s.stop := by
  rw [Client.stop]
  split
  · exact ⟨(attempts_close h).timers, (attempts_close h).delays⟩
  · exact ⟨h.timers, h.delays⟩

/-- A stop closes no socket abnormally. -/
theorem goesOn_stop (h : GoesOn s) : GoesOn s.stop := by
  rw [Client.stop]
  split
  · exact goesOn_close h
  · exact h

/-- A closed socket sets the timer at most once. -/
theorem attempts_onclose (h : Attempts s) (code : Nat) : Attempts (s.onclose code) := by
  have hclosed : Attempts { s with replicator := s.replicator.step (.handleClose 0) } :=
    ⟨h.timers, h.delays⟩
  rw [Client.onclose]
  split
  · exact hclosed.reconnect
  · exact hclosed

/-- A timer that fires takes itself away and doubles the delay. -/
theorem attempts_timeout (h : Attempts s) : Attempts s.timeout := by
  rw [Client.timeout]
  split
  next => exact h
  next ms timers htimers =>
    have hlength := h.timers
    rw [htimers, List.length_cons] at hlength
    have hnone : timers = [] := by
      refine List.eq_nil_of_length_eq_zero ?_
      split at hlength <;> omega
    rw [Client.start, if_neg Bool.false_ne_true, hnone]
    exact ⟨rfl, h.delays⟩

/-- A timer that fires opens a new socket. -/
theorem goesOn_timeout (h : GoesOn s) : GoesOn s.timeout := by
  rw [Client.timeout]
  split
  next => exact h
  next =>
    rw [Client.start, if_neg Bool.false_ne_true]
    intro _ n opened hn hclosed
    obtain rfl : s.sockets.length = n := Option.some.inj hn
    rw [List.getElem?_append_right (Nat.le_refl _), Nat.sub_self] at hclosed
    cases hclosed

/-- Every step keeps the timer and the delays. -/
theorem attempts_step (h : Attempts s) (op : Op) : Attempts (step s op) := by
  cases op with
  | opened n =>
      rw [step]
      split
      · exact ⟨h.timers, 0, rfl, rfl⟩
      · exact h
  | failed n =>
      have hset : ∀ sock, Attempts (setState s n sock) := fun _ => ⟨h.timers, h.delays⟩
      rw [step]
      split
      · exact h
      · exact h
      · exact (attempts_stop (hset _)).reconnect
      · exact attempts_onclose (attempts_stop (hset _)).reconnect abnormal
  | closed n code =>
      have hset : ∀ sock, Attempts (setState s n sock) := fun _ => ⟨h.timers, h.delays⟩
      rw [step]
      split
      · exact attempts_onclose (hset _) code
      · exact attempts_onclose (hset _) code
      · exact h
  | timeout => exact attempts_timeout h
  | close => exact attempts_close h
  | closeForError => exact (attempts_close h).reconnect
  | stop => exact attempts_stop h
  | resume i => exact ⟨h.timers, h.delays⟩
  | reject i => exact ⟨h.timers, h.delays⟩

/-- Another state of a socket that is not an abnormal closure. -/
theorem goesOn_setState (h : GoesOn s) (hsock : ∀ opened, sock ≠ ⟨.closed abnormal, opened⟩) :
    GoesOn (setState s n sock) := by
  intro hidle m opened hm hclosed
  rw [setState, List.getElem?_set] at hclosed
  split at hclosed
  next heq =>
    split at hclosed
    next => exact hsock opened (Option.some.inj hclosed)
    next => cases hclosed
  next => exact h hidle m opened hm hclosed

/-- The handler of an abnormal closure sets a timer. -/
theorem goesOn_onclose_abnormal (s : Client) : GoesOn (s.onclose abnormal) := by
  rw [Client.onclose, if_pos rfl]
  exact goesOn_reconnect _

/-- Every step leaves a timer behind an abnormal closure. -/
theorem goesOn_step (h : GoesOn s) (op : Op) : GoesOn (step s op) := by
  have hclosed : ∀ {n code : Nat}, GoesOn ((setState s n ⟨.closed code, true⟩).onclose code) := by
    intro n code
    by_cases habnormal : code = abnormal
    · rw [habnormal]
      exact goesOn_onclose_abnormal _
    · rw [Client.onclose, if_neg habnormal]
      refine goesOn_setState h fun opened heq => habnormal ?_
      exact SocketState.closed.inj (Socket.mk.inj heq).1
  cases op with
  | opened n =>
      rw [step]
      split
      · have hopen : ∀ opened, (⟨.isOpen, true⟩ : Socket) ≠ ⟨.closed abnormal, opened⟩ :=
          fun opened heq => by cases heq
        exact goesOn_setState h hopen
      · exact h
  | failed n =>
      rw [step]
      split
      · exact h
      · exact h
      · exact goesOn_reconnect _
      · exact goesOn_onclose_abnormal _
  | closed n code =>
      rw [step]
      split
      · exact hclosed
      · exact hclosed
      · exact h
  | timeout => exact goesOn_timeout h
  | close => exact goesOn_close h
  | closeForError => exact goesOn_reconnect _
  | stop => exact goesOn_stop h
  | resume i => exact h
  | reject i => exact h

/-- Whatever happens to the sockets: at most one timer is pending, exactly while the wrapper
reconnects; the delays since the last opening are 5, 10, 20, 40 and from then on 60 seconds; and
the wrapper reconnects whenever the socket in use has failed or closed abnormally. -/
theorem tries_run (ops : List Op) :
    (Run.exec step initial ops).timers.length =
        (if (Run.exec step initial ops).reconnecting then 1 else 0) ∧
      (∃ k, sinceOpened (Run.exec step initial ops).log = ((List.range k).map delay).reverse) ∧
      GoesOn (Run.exec step initial ops) := by
  have hinitial : Attempts initial ∧ GoesOn initial :=
    ⟨⟨rfl, 0, rfl, rfl⟩, fun _ n opened hn hclosed => by
      obtain rfl : 0 = n := Option.some.inj hn
      cases hclosed⟩
  have h := Run.invariant (fun s => Attempts s ∧ GoesOn s)
    (fun s op h _ => ⟨attempts_step h.1 op, goesOn_step h.2 op⟩) hinitial
    (show Run.Allowed step (fun _ _ => True) initial ops from
      Run.allowed_of_forall (fun _ _ => trivial) _ ops)
  obtain ⟨k, hdelays, -⟩ := h.1.delays
  exact ⟨h.1.timers, ⟨k, hdelays⟩, h.2⟩

example : (List.range 6).map delay = [5000, 10000, 20000, 40000, 60000, 60000] := by decide

end Attempts

/-! ## The replicator and the socket in use -/

def current (s : Client) : Option Socket :=
  s.ws.bind fun n => s.sockets[n]?

/-- The socket has opened and has not closed yet. -/
def Socket.Live (sock : Socket) : Prop :=
  sock.state = .isOpen ∨ sock.state = .closing

instance (sock : Socket) : Decidable sock.Live :=
  inferInstanceAs (Decidable (_ ∨ _))

def InUse (s : Client) : Prop :=
  ∃ sock ∈ current s, sock.Live

/-- The replicator runs only while its socket is live, and was stopped whenever it was
started. -/
structure Sound (s : Client) : Prop where
  running : s.replicator.started = true → InUse s
  refused : s.refused = 0

/-- A replaced socket opens only while the replicator is stopped and the socket in use is open or
closing; while the replicator runs, the socket in use closes only behind its handlers; and the
timer finds the replicator stopped. -/
def TakesOver (s : Client) : Op → Prop
  | .opened n => (∃ sock ∈ s.sockets[n]?, sock.state = .connecting) →
      s.ws = some n ∨ s.replicator.started = false ∧ InUse s
  | .closed n _ => s.ws = some n → InUse s → (∃ sock ∈ s.sockets[n]?, sock.opened = true) →
      s.replicator.started = true → 0 ∈ s.replicator.attached.map Prod.fst
  | .timeout => s.timers ≠ [] → s.replicator.started = false
  | _ => True

section Sound

variable {s : Client} {n code : Nat} {sock : Socket} {r : Replicator}

/-- The socket in use has its new state. -/
theorem current_setState_self (h : current s = some sock) (hn : s.ws = some n) (sock' : Socket) :
    current (setState s n sock') = some sock' := by
  rw [current, hn, Option.bind_some] at h
  obtain ⟨hlt, -⟩ := List.getElem?_eq_some_iff.mp h
  rw [current, setState]
  dsimp only
  rw [hn, Option.bind_some, List.getElem?_set_self hlt]

/-- The state of another socket does not matter to the one in use. -/
theorem current_setState_of_ne (hn : s.ws ≠ some n) (sock' : Socket) :
    current (setState s n sock') = current s := by
  rw [current, current, setState]
  dsimp only
  cases hws : s.ws with
  | none => rfl
  | some m =>
      have hne : n ≠ m := fun heq => hn (heq ▸ hws)
      rw [Option.bind_some, Option.bind_some, List.getElem?_set_ne hne]

/-- A reconnect waits with the new socket. -/
theorem current_reconnect (s : Client) : current s.reconnect = current s := by
  rw [Client.reconnect]
  split <;> rfl

/-- To close concerns the socket in use. -/
theorem current_close (s : Client) : current s.close = (current s).map Client.closeSocket := by
  rw [Client.close]
  split
  next hnone => rw [current, hnone, Option.bind_none, Option.map_none]
  next n hn =>
    rw [current, current]
    dsimp only
    rw [hn, Option.bind_some, Option.bind_some, List.getElem?_modify]
    simp only [if_true]
    rfl

/-- A live socket is live while it closes. -/
theorem live_closeSocket (h : sock.Live) : (Client.closeSocket sock).Live := by
  obtain ⟨state, opened⟩ := sock
  rcases h with h | h
  · cases h
    exact Or.inr rfl
  · cases h
    exact Or.inr rfl

/-- A socket in use is so while it closes. -/
theorem inUse_close (h : InUse s) : InUse s.close := by
  obtain ⟨sock, hsock, hlive⟩ := h
  refine ⟨Client.closeSocket sock, ?_, live_closeSocket hlive⟩
  rw [current_close, hsock]
  rfl

/-- A stop stops the replicator. -/
theorem started_stop (s : Client) : s.stop.replicator.started = false := by
  rw [Client.stop]
  split <;> rfl

/-- A reconnect leaves the replicator alone. -/
theorem started_reconnect (s : Client) : s.reconnect.replicator = s.replicator := by
  rw [Client.reconnect]
  split <;> rfl

/-- A reconnect starts nothing. -/
theorem refused_reconnect (s : Client) : s.reconnect.refused = s.refused := by
  rw [Client.reconnect]
  split <;> rfl

/-- To close a socket starts nothing. -/
theorem refused_close (s : Client) : s.close.refused = s.refused := by
  rw [Client.close]
  split <;> rfl

/-- A stop starts nothing. -/
theorem refused_stop (s : Client) : s.stop.refused = s.refused := by
  rw [Client.stop]
  split
  · exact refused_close s
  · rfl

/-- To close a socket leaves the replicator alone. -/
theorem replicator_close (s : Client) : s.close.replicator = s.replicator := by
  rw [Client.close]
  split <;> rfl

/-- A call that goes on leaves the replicator running or not, or stops it once more. -/
theorem resume_cases (r : Replicator) (i : Nat) :
    (r.step (.resume i)).started = r.started ∧ (r.step (.resume i)).ws = r.ws ∨
      r.started = false ∧ (r.step (.resume i)).started = false ∧
        (r.step (.resume i)).ws = none := by
  rw [Replicator.step, Replicator.resume]
  split
  next => exact Or.inl ⟨rfl, rfl⟩
  next =>
    split
    next =>
      rw [Replicator.resumeWrapDb]
      split
      next => exact Or.inl ⟨rfl, rfl⟩
      next hstopped => exact Or.inr ⟨eq_false_of_ne_true hstopped, rfl, rfl⟩
    next =>
      rw [Replicator.resumeSeqIdFor]
      split
      next => exact Or.inl ⟨rfl, rfl⟩
      next hstopped => exact Or.inr ⟨eq_false_of_ne_true hstopped, rfl, rfl⟩
    next =>
      rw [Replicator.resumeStreamStart]
      split
      next =>
        split
        · exact Or.inl ⟨rfl, rfl⟩
        · exact Or.inl ⟨rfl, rfl⟩
      next => exact Or.inl ⟨rfl, rfl⟩
    next =>
      rw [Replicator.resumeOpened]
      split
      · exact Or.inl ⟨rfl, rfl⟩
      · exact Or.inl ⟨rfl, rfl⟩
    next => exact Or.inl ⟨rfl, rfl⟩

/-- A call that goes on does not start the replicator. -/
theorem started_of_resume {i : Nat} (h : (r.step (.resume i)).started = true) :
    r.started = true := by
  rcases resume_cases r i with ⟨heq, -⟩ | ⟨-, hstopped, -⟩
  · exact heq.symm.trans h
  · exact absurd (hstopped.symm.trans h) Bool.false_ne_true

/-- A failed start does not start the replicator. -/
theorem started_of_reject {i : Nat} (h : (r.step (.reject i)).started = true) :
    r.started = true := by
  rw [Replicator.step, Replicator.reject] at h
  split at h
  next => exact h
  next =>
    split at h
    · exact h
    · exact h

/-- The handler of a closed socket starts nothing, and stops the replicator where it is attached.
-/
theorem started_of_handleClose {i : Nat} (h : (r.step (.handleClose i)).started = true) :
    i ∉ r.attached.map Prod.fst ∧ r.started = true := by
  rw [Replicator.step] at h
  split at h
  next => cases h
  next hnot => exact ⟨hnot, h⟩

/-- A start starts the replicator. -/
theorem started_start (r : Replicator) (i : Nat) : (r.step (.start i)).started = true := by
  rw [Replicator.step, Replicator.start]
  split
  next h => exact h
  next => rfl

theorem current_eq (hn : s.ws = some n) : current s = s.sockets[n]? := by
  rw [current, hn, Option.bind_some]

/-- The handler of a closure leaves the socket in use. -/
theorem current_onclose (s : Client) (code : Nat) : current (s.onclose code) = current s := by
  rw [Client.onclose]
  split
  · exact current_reconnect _
  · rfl

/-- The handler of a closure stops the replicator. -/
theorem replicator_onclose (s : Client) (code : Nat) :
    (s.onclose code).replicator = s.replicator.step (.handleClose 0) := by
  rw [Client.onclose]
  split
  · exact started_reconnect _
  · rfl

/-- The handler of a closure starts nothing. -/
theorem refused_onclose (s : Client) (code : Nat) : (s.onclose code).refused = s.refused := by
  rw [Client.onclose]
  split
  · exact refused_reconnect _
  · rfl

theorem refused_onopen_of_stopped (h : s.replicator.started = false) :
    s.onopen.refused = s.refused :=
  if_neg (by rw [h]; exact Bool.false_ne_true)

theorem refused_onopen_of_started (h : s.replicator.started = true) :
    s.onopen.refused = s.refused + 1 :=
  if_pos h

/-- A socket that opens is in use, or it finds the replicator stopped and one in use. -/
theorem onopen_sound (h : Sound s) (hsock : s.sockets[n]? = some sock)
    (hstate : sock.state = .connecting)
    (hop : s.ws = some n ∨ s.replicator.started = false ∧ InUse s) :
    Sound (setState s n ⟨.isOpen, true⟩).onopen := by
  have hstopped : s.replicator.started = false := by
    rcases hop with hn | ⟨hstopped, -⟩
    · cases hstarted : s.replicator.started with
      | false => rfl
      | true =>
          -- the socket in use is this one, which has not opened
          obtain ⟨sock', hsock', hlive⟩ := h.running hstarted
          rw [current_eq hn, hsock] at hsock'
          rw [← Option.some.inj hsock', Socket.Live, hstate] at hlive
          rcases hlive with hlive | hlive <;> cases hlive
    · exact hstopped
  refine ⟨fun _ => ?_, ?_⟩
  · have hcurrent : ∃ sock' ∈ current (setState s n ⟨.isOpen, true⟩), sock'.Live := by
      by_cases hn : s.ws = some n
      · exact ⟨_, current_setState_self ((current_eq hn).trans hsock) hn _, Or.inl rfl⟩
      · rw [current_setState_of_ne hn]
        exact (hop.resolve_left hn).2
    exact hcurrent
  · exact (refused_onopen_of_stopped (s := setState s n ⟨.isOpen, true⟩) hstopped).trans h.refused

/-- A socket that closes takes the replicator with it, unless another one is in use. -/
theorem onclose_sound (h : Sound s) (hsock : s.sockets[n]? = some sock) (hlive : sock.Live)
    (hopened : sock.opened = true) (hop : TakesOver s (.closed n code)) :
    Sound ((setState s n ⟨.closed code, true⟩).onclose code) := by
  refine ⟨fun hstarted => ?_, (refused_onclose _ _).trans h.refused⟩
  rw [replicator_onclose] at hstarted
  obtain ⟨hnot, hstarted⟩ := started_of_handleClose hstarted
  by_cases hn : s.ws = some n
  · exact absurd (hop hn ⟨sock, (current_eq hn).trans hsock, hlive⟩ ⟨sock, hsock, hopened⟩ hstarted)
      hnot
  · rw [InUse, current_onclose, current_setState_of_ne hn]
    exact h.running hstarted

/-- A step that takes over keeps the replicator on a live socket. -/
theorem sound_step (h : Sound s) (op : Op) (hop : TakesOver s op) : Sound (step s op) := by
  have hstopped : ∀ {t : Client}, t.replicator.started = false → t.refused = 0 → Sound t :=
    fun hstopped hrefused =>
      ⟨fun hstarted => absurd (hstopped.symm.trans hstarted) Bool.false_ne_true, hrefused⟩
  cases op with
  | opened n =>
      rw [step]
      split
      next opened hsock => exact onopen_sound h hsock rfl (hop ⟨_, hsock, rfl⟩)
      next => exact h
  | failed n =>
      have hfailed : ∀ sock, Sound (setState s n sock).onerror := fun sock => by
        rw [Client.onerror]
        refine hstopped ?_ ?_
        · rw [started_reconnect, started_stop]
        · rw [refused_reconnect, refused_stop]
          exact h.refused
      rw [step]
      split
      · exact h
      · exact h
      · exact hfailed _
      · refine ⟨fun hstarted => ?_, (refused_onclose _ _).trans (hfailed _).refused⟩
        rw [replicator_onclose] at hstarted
        rw [InUse, current_onclose]
        exact (hfailed _).running (started_of_handleClose hstarted).2
  | closed n code =>
      rw [step]
      split
      next hsock => exact onclose_sound h hsock (Or.inl rfl) rfl hop
      next hsock => exact onclose_sound h hsock (Or.inr rfl) rfl hop
      next => exact h
  | timeout =>
      rw [step, Client.timeout]
      split
      next => exact h
      next ms timers htimers =>
        have hstop := hop (by rw [htimers]; exact List.cons_ne_nil _ _)
        rw [Client.start, if_neg Bool.false_ne_true]
        exact hstopped hstop h.refused
  | close =>
      refine ⟨fun hstarted => inUse_close (h.running ?_), (refused_close s).trans h.refused⟩
      rwa [step, replicator_close] at hstarted
  | closeForError =>
      rw [step, Client.closeForError]
      refine ⟨fun hstarted => ?_, ?_⟩
      · rw [started_reconnect, replicator_close] at hstarted
        rw [InUse, current_reconnect]
        exact inUse_close (h.running hstarted)
      · rw [refused_reconnect, refused_close, h.refused]
  | stop => exact hstopped (started_stop s) ((refused_stop s).trans h.refused)
  | resume i => exact ⟨fun hstarted => h.running (started_of_resume hstarted), h.refused⟩
  | reject i => exact ⟨fun hstarted => h.running (started_of_reject hstarted), h.refused⟩

/-- Every other step leaves it on a dead one, or starts it twice. -/
theorem not_sound_step (op : Op) (hop : ¬ TakesOver s op) : ¬ Sound (step s op) := by
  intro hsound
  cases op with
  | opened n =>
      rw [TakesOver, Classical.not_imp, not_or] at hop
      obtain ⟨⟨sock, hsock, hstate⟩, hn, hother⟩ := hop
      obtain ⟨state, opened⟩ := sock
      obtain rfl : state = .connecting := hstate
      have hstep : step s (.opened n) = (setState s n ⟨.isOpen, true⟩).onopen := by
        simp only [step, Option.mem_def.mp hsock]
      rw [hstep] at hsound
      cases hstarted : s.replicator.started with
      | true =>
          have hrefused :=
            refused_onopen_of_started (s := setState s n ⟨.isOpen, true⟩) hstarted
          exact Nat.succ_ne_zero _ (hrefused.symm.trans hsound.refused)
      | false =>
          refine hother ⟨hstarted, ?_⟩
          have huse : InUse (setState s n ⟨.isOpen, true⟩) := hsound.running (started_start _ 0)
          rwa [InUse, current_setState_of_ne hn] at huse
  | closed n code =>
      simp only [TakesOver, Classical.not_imp] at hop
      obtain ⟨hn, ⟨sock, hsock, hlive⟩, ⟨sock', hsock', hopened⟩, hstarted, hnot⟩ := hop
      have hsocket : s.sockets[n]? = some sock := (current_eq hn).symm.trans hsock
      obtain rfl : sock = sock' := Option.some.inj (hsocket.symm.trans hsock')
      have hstep : step s (.closed n code) = (setState s n ⟨.closed code, true⟩).onclose code := by
        obtain ⟨state, opened⟩ := sock
        obtain rfl : opened = true := hopened
        rcases hlive with hstate | hstate
        · obtain rfl : state = .isOpen := hstate
          simp only [step, hsocket]
        · obtain rfl : state = .closing := hstate
          simp only [step, hsocket]
      rw [hstep] at hsound
      have hrunning : ((setState s n ⟨.closed code, true⟩).onclose code).replicator.started = true := by
        rw [replicator_onclose]
        exact (congrArg Replicator.started (if_neg hnot)).trans hstarted
      obtain ⟨sock', hsock', hlive'⟩ := hsound.running hrunning
      rw [current_onclose, current_setState_self hsock hn] at hsock'
      rw [← Option.some.inj hsock'] at hlive'
      rcases hlive' with hstate | hstate <;> cases hstate
  | timeout =>
      rw [TakesOver, Classical.not_imp] at hop
      obtain ⟨htimers, hstarted⟩ := hop
      obtain ⟨ms, timers, htimers⟩ := List.exists_cons_of_ne_nil htimers
      have hstep : step s .timeout = { s with
          timers := timers
          reconnecting := false
          ws := some s.sockets.length
          sockets := s.sockets ++ [⟨.connecting, false⟩] } := by
        simp only [step, Client.timeout, htimers, Client.start, Bool.false_eq_true, if_false]
      rw [hstep] at hsound
      obtain ⟨sock, hsock, hlive⟩ := hsound.running (Bool.not_eq_false _ ▸ hstarted)
      have hnew : some (⟨.connecting, false⟩ : Socket) = some sock := by
        rw [← Option.mem_def.mp hsock, current, Option.bind_some,
          List.getElem?_append_right (Nat.le_refl _), Nat.sub_self]
        rfl
      rw [← Option.some.inj hnew] at hlive
      rcases hlive with hstate | hstate <;> cases hstate
  | _ => exact hop trivial

/-- The replicator runs only on a socket in use that is open or closing, and no call of `start` is
refused, throughout a run exactly when no replaced socket takes over, the socket in use does not
close before the running replicator has attached its handlers, and the timer never finds the
replicator running. -/
theorem sound_iff (ops : List Op) :
    Run.Always step Sound initial ops ↔ Run.Allowed step TakesOver initial ops :=
  Run.always_iff_allowed Sound (fun _ h => h) (fun _ op h hop => sound_step h op hop)
    (fun _ op _ hop => not_sound_step op hop) ⟨fun h => (by cases h), rfl⟩

end Sound

end CrSqlite.WebSocketWrapper
