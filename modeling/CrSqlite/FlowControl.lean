import CrSqlite.ChangeStream
import CrSqlite.Library.Run

/-!
# FlowControl - the number of unacknowledged messages

Both streams count the messages that were not acknowledged, stop sending at a maximum
and go on when an acknowledgement brings the count below it.  The client's stream
notices the maximum but does not stop, and its runs that are suspended at a pull send
later without another look at the count.

Main results:

- Theorem {lit}`ServerStream.balanced_step`: every step of the server's stream keeps the
  count.
- Theorem {lit}`ClientStream.inWindow_step`: so does every step of the client's stream
  but a pull that finds changes with the window full.
- Theorem {lit}`flowControlled_run`: flow control holds after every run of the server's
  stream, and after every such run of the client's.
- Theorem {lit}`client_exceeds_maximum`: an event with ten unacknowledged messages is
  shipped as the eleventh.
-/

namespace CrSqlite

/-- Flow control: the count is in its bounds, no message was sent at the maximum, only
at the maximum is a change blocked, and a blocked change that no pull followed yet is
owed one only as long as the count is at the maximum. -/
structure FlowControlled (max outstandingAcks : Int) (blockedSend owed : Bool)
    (sent : List Sent) : Prop where
  nonneg : 0 ≤ outstandingAcks
  le : outstandingAcks ≤ max
  sent : ∀ m ∈ sent, m.unacked < max
  blocked : blockedSend = true → outstandingAcks = max
  owed : owed = true → outstandingAcks = max

/-! ## The count -/

/-- The count is the number of sent messages without the acknowledged ones, and never
passed the maximum. -/
structure Counted (max outstandingAcks : Int) (acked : Nat) (sent : List Sent) : Prop where
  answered : acked ≤ sent.length
  count : outstandingAcks = sent.length - acked
  le : outstandingAcks ≤ max
  below : ∀ m ∈ sent, m.unacked < max

section Counted

variable {max outstandingAcks : Int} {acked : Nat} {sent : List Sent}

/-- There are no more acks than messages. -/
theorem Counted.nonneg (h : Counted max outstandingAcks acked sent) : 0 ≤ outstandingAcks := by
  have hacked := h.answered
  have hcount := h.count
  omega

/-- A message below the maximum is counted. -/
theorem Counted.send (h : Counted max outstandingAcks acked sent) (hlt : outstandingAcks < max)
    (m : ReceiveMsg) :
    Counted max (outstandingAcks + 1) acked (sent ++ [⟨m, outstandingAcks⟩]) := by
  have hacked := h.answered
  have hcount := h.count
  refine ⟨?_, ?_, by omega, fun x hx => ?_⟩
  · rw [List.length_append]
    omega
  · rw [List.length_append, List.length_singleton]
    omega
  · rcases List.mem_append.mp hx with hold | hnew
    · exact h.below x hold
    · rw [List.mem_singleton.mp hnew]
      exact hlt

/-- The acknowledgement of a sent message is counted. -/
theorem Counted.ack (h : Counted max outstandingAcks acked sent) (hlt : acked < sent.length) :
    Counted max (outstandingAcks - 1) (acked + 1) sent := by
  have hcount := h.count
  have hle := h.le
  exact ⟨hlt, by omega, by omega, h.below⟩

end Counted

/-! ## The stream of the server -/

namespace ServerStream

/-- Every acknowledgement answers a sent message. -/
def AcksAnswer (s : ServerStream) : ServerOp → Prop
  | .ack => s.acked < s.sent.length
  | _ => True

instance (s : ServerStream) (op : ServerOp) : Decidable (s.AcksAnswer op) :=
  match op with
  | .ack => inferInstanceAs (Decidable (_ < _))
  | .write _ | .notify _ | .close => inferInstanceAs (Decidable True)

/-- What holds of the server's stream between two steps. -/
structure Balanced (s : ServerStream) : Prop where
  counted : Counted serverMaxOutstandingAcks s.outstandingAcks s.acked s.sent
  owed : s.owed = true → s.blockedSend = true
  blocked : s.blockedSend = true → s.outstandingAcks = serverMaxOutstandingAcks

/-- A balanced server stream is flow controlled. -/
theorem Balanced.flowControlled {s : ServerStream} (h : s.Balanced) :
    FlowControlled serverMaxOutstandingAcks s.outstandingAcks s.blockedSend s.owed s.sent :=
  ⟨h.counted.nonneg, h.counted.le, h.counted.below, h.blocked, fun ho => h.blocked (h.owed ho)⟩

theorem balanced_created (db : Db) (site : Blob) (seqStart : Seq) :
    (created db site seqStart).Balanced :=
  ⟨⟨le_rfl, rfl, by simp [created, serverMaxOutstandingAcks], by simp [created]⟩, nofun, nofun⟩

section Steps

variable [Sqlite] {s : ServerStream}

/-- A pull below the maximum sends at most one message, and nothing is owed behind it. -/
private theorem balanced_pull
    (h : Counted serverMaxOutstandingAcks s.outstandingAcks s.acked s.sent)
    (hlt : s.outstandingAcks < serverMaxOutstandingAcks) : s.unblocked.pullAndSend.Balanced := by
  rcases s.unblocked.pullAndSend_cases with heq | ⟨changes, m, -, -, heq⟩
  · rw [heq]
    exact ⟨h, nofun, nofun⟩
  · rw [heq]
    exact ⟨h.send hlt m, nofun, nofun⟩

/-- An event at the maximum is blocked, and another one pulls. -/
private theorem Balanced.dbChanged (h : s.Balanced) (selfSourced : Bool) :
    (s.dbChanged selfSourced).Balanced := by
  rcases s.dbChanged_cases selfSourced with ⟨-, heq⟩ | ⟨hmax, heq⟩ | ⟨hne, heq⟩
  · rw [heq]
    exact h
  · rw [heq]
    exact ⟨h.counted, fun _ => rfl, fun _ => hmax⟩
  · rw [heq]
    exact balanced_pull h.counted (lt_of_le_of_ne h.counted.le hne)

/-- An ack pulls for a blocked event. -/
private theorem Balanced.processAck (h : s.Balanced) (hlt : s.acked < s.sent.length) :
    s.processAck.Balanced := by
  have hack := h.counted.ack hlt
  rcases s.processAck_cases with ⟨-, heq⟩ | ⟨heq, hnot⟩ | ⟨hmax, heq⟩
  · rw [heq]
    exact h
  · rw [heq]
    -- at the maximum nothing is blocked, so nothing is anywhere
    exact ⟨hack, h.owed, fun hb => absurd ⟨h.blocked hb, hb⟩ hnot⟩
  · rw [heq]
    refine balanced_pull hack ?_
    simp only [acknowledged]
    omega

/-- Every step keeps the count, whatever happens at the database. -/
theorem balanced_step (op : ServerOp) (h : s.Balanced) (hok : s.AcksAnswer op) :
    (s.step op).Balanced := by
  cases op with
  | write db => exact ⟨h.counted, h.owed, h.blocked⟩
  | notify selfSourced => exact h.dbChanged selfSourced
  | ack => exact h.processAck hok
  | close => exact ⟨h.counted, h.owed, h.blocked⟩

theorem balanced_begin (db : Db) (site : Blob) (seqStart : Seq) :
    (begin db site seqStart).Balanced :=
  (balanced_created db site seqStart).dbChanged false

end Steps

end ServerStream

/-! ## The stream of the client -/

namespace ClientStream

/-- A suspended run whose query found changes. -/
def foundChanges (p : ClientPull) : Bool :=
  (p.result.bind id).any fun changes => !changes.isEmpty

/-- How many suspended runs go on with changes to send. -/
def laden (s : ClientStream) : Nat :=
  s.pulls.countP foundChanges

/-- The query that is to be executed finds changes. -/
def Finds [Sqlite] (s : ClientStream) (i : Nat) : Prop :=
  match s.pulls[i]? with
  | some ⟨startSeq, none⟩ =>
      ((s.db.pullLocal startSeq).any fun changes => !changes.isEmpty) = true
  | _ => False

instance [Sqlite] (s : ClientStream) (i : Nat) : Decidable (s.Finds i) := by
  unfold Finds
  split <;> infer_instance

/-- Every acknowledgement answers a sent message, and no query finds changes when the
unacknowledged messages and those that suspended runs are about to send reach the
maximum. -/
def PullsInWindow [Sqlite] (s : ClientStream) : ClientOp → Prop
  | .ack => s.acked < s.sent.length
  | .fetch i => s.Finds i → s.outstandingAcks + s.laden < clientMaxOutstandingAcks
  | _ => True

instance [Sqlite] (s : ClientStream) (op : ClientOp) : Decidable (s.PullsInWindow op) :=
  match op with
  | .ack => inferInstanceAs (Decidable (_ < _))
  | .fetch _ => inferInstanceAs (Decidable (_ → _))
  | .write _ | .loaded _ | .event | .resume _ | .tracked | .stop =>
      inferInstanceAs (Decidable True)

/-- What holds of the client's stream between two such steps: there is room for what
all suspended runs send, and nothing is ever blocked. -/
structure InWindow (s : ClientStream) : Prop where
  counted : Counted clientMaxOutstandingAcks s.outstandingAcks s.acked s.sent
  room : s.outstandingAcks + s.laden ≤ clientMaxOutstandingAcks
  unblocked : s.blockedSend = false
  owed : s.owed = false

/-- A client stream in its window is flow controlled. -/
theorem InWindow.flowControlled {s : ClientStream} (h : s.InWindow) :
    FlowControlled clientMaxOutstandingAcks s.outstandingAcks s.blockedSend s.owed s.sent := by
  refine ⟨h.counted.nonneg, h.counted.le, h.counted.below, ?_, ?_⟩
  · rw [h.unblocked]
    nofun
  · rw [h.owed]
    nofun

/-- A new client stream is in its window. -/
theorem inWindow_start (db : Db) (siteId : Blob) : (start db siteId).InWindow :=
  ⟨⟨le_rfl, rfl, by simp [start, clientMaxOutstandingAcks], by simp [start]⟩,
    by simp [start, laden, clientMaxOutstandingAcks], rfl, rfl⟩

section Steps

variable {s : ClientStream}

/-- A run that has called its pull has nothing to send yet. -/
theorem laden_pulling (s : ClientStream) : s.pulling.laden = s.laden := by
  simp [laden, pulling, callPull, foundChanges]

/-- A run that goes on leaves the others, and one less to send for if it sends. -/
private theorem laden_eraseIdx {i : Nat} {p : ClientPull} (hp : s.pulls[i]? = some p) :
    laden { s with pulls := s.pulls.eraseIdx i } + (if foundChanges p then 1 else 0) =
      s.laden := by
  obtain ⟨hi, rfl⟩ := List.getElem?_eq_some_iff.mp hp
  have hperm := (List.getElem_cons_eraseIdx_perm hi).countP_eq foundChanges
  rw [List.countP_cons] at hperm
  exact hperm

/-- An executed query adds one run that has something to send, if it finds changes. -/
private theorem laden_fetch [Sqlite] (i : Nat) :
    (s.fetch i).laden = s.laden + if s.Finds i then 1 else 0 := by
  by_cases hi : i < s.pulls.length
  · simp only [laden, ClientStream.fetch, List.modify_eq_take_cons_drop hi]
    conv_rhs => rw [← List.take_append_drop i s.pulls, List.drop_eq_getElem_cons hi]
    simp only [List.countP_append, List.countP_cons]
    rcases hp : s.pulls[i] with ⟨startSeq, result⟩
    cases result with
    | none =>
        simp only [Finds, List.getElem?_eq_getElem hi, hp, foundChanges, if_true,
          Option.bind_some, id, Option.bind_none, Option.any_none, Bool.false_eq_true, if_false]
        omega
    | some r =>
        simp [Finds, List.getElem?_eq_getElem hi, hp]
  · simp [laden, ClientStream.fetch, Finds, List.getElem?_eq_none (Nat.le_of_not_lt hi),
      List.modify_eq_self (Nat.le_of_not_lt hi)]

/-- An event starts a run, which has to pull. -/
private theorem InWindow.localDbChanged (h : s.InWindow) : s.localDbChanged.InWindow := by
  rcases s.localDbChanged_cases with ⟨-, heq⟩ | ⟨-, -, heq⟩
  · rw [heq]
    exact h
  · rw [heq]
    refine ⟨h.counted, ?_, rfl, rfl⟩
    rw [laden_pulling]
    exact h.room

/-- A run that goes on sends what it found, within the maximum. -/
private theorem InWindow.resume (h : s.InWindow) (i : Nat) : (s.resume i).InWindow := by
  have hroom := h.room
  rcases s.resume_cases i with heq | ⟨startSeq, result, hpull, heq | ⟨changes, m, hres, hship, heq⟩⟩
  · rw [heq]
    exact h
  · have hladen := laden_eraseIdx hpull
    rw [heq]
    refine ⟨h.counted, ?_, h.unblocked, h.owed⟩
    dsimp only
    omega
  · -- the suspended run makes room for its own message
    have hladen := laden_eraseIdx hpull
    have hsome : changes ≠ [] := by
      rintro rfl
      simp [shipped] at hship
    rw [if_pos (by simpa [hres, foundChanges] using hsome)] at hladen
    have hlt : s.outstandingAcks < clientMaxOutstandingAcks := by omega
    rw [heq]
    refine ⟨h.counted.send hlt m, ?_, h.unblocked, h.owed⟩
    have hlad : laden (sending { s with pulls := s.pulls.eraseIdx i } m) =
        laden { s with pulls := s.pulls.eraseIdx i } := rfl
    rw [hlad]
    simp only [sending]
    omega

/-- A query that finds changes within the maximum. -/
private theorem InWindow.fetch [Sqlite] (h : s.InWindow) {i : Nat}
    (hok : s.PullsInWindow (.fetch i)) : (s.fetch i).InWindow := by
  have hroom := h.room
  have hacks : (s.fetch i).outstandingAcks = s.outstandingAcks := rfl
  refine ⟨h.counted, ?_, h.unblocked, h.owed⟩
  rw [hacks, laden_fetch]
  split_ifs with hfinds
  · have hlt := hok hfinds
    omega
  · omega

/-- Every step but a pull that finds changes with the window full keeps the count. -/
theorem inWindow_step [Sqlite] (op : ClientOp) (h : s.InWindow) (hok : s.PullsInWindow op) :
    (s.step op).InWindow := by
  cases op with
  | write db => exact ⟨h.counted, h.room, h.unblocked, h.owed⟩
  | loaded lastSeq =>
      rw [step, loaded]
      split_ifs
      · exact h
      · exact ⟨h.counted, h.room, h.unblocked, h.owed⟩
      · exact ⟨h.counted, h.room, h.unblocked, h.owed⟩
  | event => exact h.localDbChanged
  | fetch i => exact h.fetch hok
  | resume i => exact h.resume i
  | ack =>
      have hroom := h.room
      have hladen : s.processAck.laden = s.laden := rfl
      refine ⟨h.counted.ack hok, ?_, h.unblocked, h.owed⟩
      rw [step, hladen]
      simp only [processAck]
      omega
  | tracked =>
      rw [step, tracked, if_neg (by simp [h.unblocked])]
      exact h
  | stop => exact ⟨h.counted, h.room, h.unblocked, h.owed⟩

end Steps

end ClientStream

/-! ## Runs -/

/-- Flow control holds in every run of the server's stream, and in every run of the
client's stream whose pulls find changes only while there is room for one more
message. -/
theorem flowControlled_run [Sqlite] :
    (∀ (db : Db) (site : Blob) (seqStart : Seq) (ops : List ServerOp),
      Run.Allowed ServerStream.step ServerStream.AcksAnswer (.begin db site seqStart) ops →
      let s := Run.exec ServerStream.step (.begin db site seqStart) ops
      FlowControlled serverMaxOutstandingAcks s.outstandingAcks s.blockedSend s.owed s.sent) ∧
    ∀ (db : Db) (siteId : Blob) (ops : List ClientOp),
      Run.Allowed ClientStream.step ClientStream.PullsInWindow (.start db siteId) ops →
      let s := Run.exec ClientStream.step (.start db siteId) ops
      FlowControlled clientMaxOutstandingAcks s.outstandingAcks s.blockedSend s.owed s.sent := by
  constructor
  · intro db site seqStart ops hops
    exact (Run.invariant ServerStream.Balanced
      (fun _ op h hok => ServerStream.balanced_step op h hok)
      (ServerStream.balanced_begin db site seqStart) hops).flowControlled
  · intro db siteId ops hops
    exact (Run.invariant ClientStream.InWindow
      (fun _ op h hok => ClientStream.inWindow_step op h hok)
      (ClientStream.inWindow_start db siteId) hops).flowControlled

/-- The run theorem applies to a server that is blocked and goes on, and to a client
with ten unacknowledged messages that gets an acknowledgement before its next event. -/
theorem flowControlled_run_foo :
    let serverOps := ((List.range 7).flatMap fun n =>
      [ServerOp.write (fooRowsDb siteA (n + 1)), .notify false]) ++ [.ack, .ack]
    let clientOps := .loaded (0, 0) :: ((List.range 10).flatMap fun n =>
      shipRow siteB (n + 1)) ++ [.ack, .tracked] ++ shipRow siteB 11
    let s := Run.exec (@ServerStream.step integralSqlite)
      (@ServerStream.begin integralSqlite (fooDb siteA) siteB (0, 0)) serverOps
    let c := Run.exec (@ClientStream.step integralSqlite) (.start (fooDb siteB) siteB) clientOps
    FlowControlled serverMaxOutstandingAcks s.outstandingAcks s.blockedSend s.owed s.sent ∧
    FlowControlled clientMaxOutstandingAcks c.outstandingAcks c.blockedSend c.owed c.sent :=
  ⟨(@flowControlled_run integralSqlite).1 _ _ _ _ (by decide +kernel),
    (@flowControlled_run integralSqlite).2 _ _ _ (by decide +kernel)⟩

/-- With ten unacknowledged messages the client's stream ships the next event as the
eleventh. -/
theorem client_exceeds_maximum :
    let ops := .loaded (0, 0) :: (List.range 11).flatMap fun n => shipRow siteB (n + 1)
    let c := Run.exec (@ClientStream.step integralSqlite) (.start (fooDb siteB) siteB) ops
    c.outstandingAcks = 11 ∧ c.pulls = [] ∧ c.blockedSend = false ∧
    ¬ FlowControlled clientMaxOutstandingAcks c.outstandingAcks c.blockedSend c.owed c.sent := by
  intro ops c
  have hcount : c.outstandingAcks = 11 := by decide +kernel
  refine ⟨hcount, by decide +kernel, by decide +kernel, fun h => ?_⟩
  have hle := h.le
  rw [hcount, clientMaxOutstandingAcks] at hle
  omega

end CrSqlite
