import CrSqlite.ChangeStream
import CrSqlite.Library.Run

/-!
# StreamChain - the messages of a stream follow one another

Each message of a stream states the place it starts from and the place it ends at.
The receiver puts them in order by these, so each message has to start where the one
before it ended.  The server's handler reads and writes its place in one go.  The
client's reads it before its pull and writes it afterwards, and hears events before
its place is loaded.

Main results:

- Theorem {lit}`endsAtLargest_of_shipped`: a message ends at the largest version of its
  changes, above its start.
- Theorem {lit}`contiguous_run`: the messages form a chain in every run of the server's
  stream, and in every run of the client's stream whose events come one by one.
- Theorem {lit}`overlapping_pulls_break_chain`: two runs of the client's handler that
  overlap send two messages from one place.
-/

namespace CrSqlite

/-- A message ends above its start, at the largest version of its changes. -/
structure EndsAtLargest (m : ReceiveMsg) : Prop where
  above : m.seqStart.1 < m.seqEnd.1
  attained : ∃ c ∈ m.changes, c.dbVersion = m.seqEnd.1
  largest : ∀ c ∈ m.changes, c.dbVersion ≤ m.seqEnd.1

/-- The messages form a chain from a cursor, and each ends at its largest version. -/
structure Contiguous (cursor : Seq) (sent : List Sent) : Prop where
  chain : Cursor.Chain (fun m => m.msg.seqStart) (fun m => m.msg.seqEnd) cursor sent
  ends : ∀ m ∈ sent, EndsAtLargest m.msg

/-- The message for a pull above the cursor ends at the largest version of the
pull. -/
theorem endsAtLargest_of_shipped {sender : Blob} {seqStart : Seq} {changes : List Changeset}
    {m : ReceiveMsg} (hship : shipped sender seqStart changes = some m)
    (hpull : PulledAbove seqStart.1 changes) : EndsAtLargest m := by
  obtain ⟨hstart, hchanges, last, hmem, hlast, hend⟩ := shipped_eq hship
  refine ⟨?_, ⟨last, hchanges ▸ hmem, by rw [hend]⟩, fun c hc => ?_⟩
  · rw [hstart, hend]
    exact hpull.above last hmem
  · rw [hend]
    rw [hchanges, ← List.dropLast_append_getLast? last hlast, List.mem_append] at hc
    have hsorted := hpull.sorted
    rw [← List.dropLast_append_getLast? last hlast, List.pairwise_append] at hsorted
    rcases hc with hinit | hlast'
    · exact hsorted.2.2 c hinit last (List.mem_singleton_self last)
    · exact le_of_eq (by rw [List.mem_singleton.mp hlast'])

/-- The place where a stream goes on. -/
def nextSeq (cursor : Seq) (sent : List Sent) : Seq :=
  Cursor.chainEnd (fun m => m.msg.seqEnd) cursor sent

/-- A chain grows by the message for a pull from its end. -/
theorem Contiguous.send {cursor : Seq} {sent : List Sent} (h : Contiguous cursor sent)
    {sender : Blob} {changes : List Changeset} {m : ReceiveMsg}
    (hship : shipped sender (nextSeq cursor sent) changes = some m)
    (hpull : PulledAbove (nextSeq cursor sent).1 changes) (unacked : Int) :
    Contiguous cursor (sent ++ [⟨m, unacked⟩]) ∧
      nextSeq cursor (sent ++ [⟨m, unacked⟩]) = m.seqEnd := by
  refine ⟨⟨Cursor.chain_append.mpr ⟨h.chain, (shipped_eq hship).1⟩, fun x hx => ?_⟩,
    Cursor.chainEnd_append cursor sent _⟩
  rcases List.mem_append.mp hx with hold | hnew
  · exact h.ends x hold
  · rw [List.mem_singleton.mp hnew]
    exact endsAtLargest_of_shipped hship hpull

/-! ## The stream of the server -/

namespace ServerStream

/-- No key column captures an alias of the query. -/
def Uncaptured (_ : ServerStream) : ServerOp → Prop
  | .write db => db.NoCaptures
  | _ => True

instance (s : ServerStream) (op : ServerOp) : Decidable (s.Uncaptured op) :=
  match op with
  | .write db => inferInstanceAs (Decidable db.NoCaptures)
  | .notify _ | .ack | .close => inferInstanceAs (Decidable True)

/-- What holds of the server's stream between two steps. -/
structure Chained (cursor : Seq) (s : ServerStream) : Prop where
  noCapture : s.db.NoCaptures
  contiguous : Contiguous cursor s.sent
  lastSeq : s.lastSeq = nextSeq cursor s.sent

/-- A new server stream starts at the cursor. -/
theorem chained_created {db : Db} (hdb : db.NoCaptures) (site : Blob) (seqStart : Seq) :
    Chained seqStart (created db site seqStart) :=
  ⟨hdb, ⟨trivial, by simp [created]⟩, rfl⟩

section Steps

variable [Sqlite] {cursor : Seq} {s : ServerStream}

/-- A message begins where the last one ended. -/
private theorem Chained.pullAndSend (h : Chained cursor s) : Chained cursor s.pullAndSend := by
  rcases s.pullAndSend_cases with heq | ⟨changes, m, hpull, hship, heq⟩
  · rw [heq]
    exact ⟨h.noCapture, h.contiguous, h.lastSeq⟩
  · have habove := (pullChangeset_above h.noCapture s.lastSeq).1 s.site changes hpull
    rw [h.lastSeq] at hship habove
    obtain ⟨hcont, hnext⟩ := h.contiguous.send hship habove s.outstandingAcks
    rw [heq]
    exact ⟨h.noCapture, hcont, hnext.symm⟩

/-- An event pulls or is blocked. -/
private theorem Chained.dbChanged (h : Chained cursor s) (selfSourced : Bool) :
    Chained cursor (s.dbChanged selfSourced) := by
  have hflags : ∀ blockedSend owed,
      Chained cursor { s with blockedSend := blockedSend, owed := owed } :=
    fun _ _ => ⟨h.noCapture, h.contiguous, h.lastSeq⟩
  rcases s.dbChanged_cases selfSourced with ⟨-, heq⟩ | ⟨-, heq⟩ | ⟨-, heq⟩
  · rw [heq]
    exact h
  · rw [heq]
    exact hflags true true
  · rw [heq]
    exact (hflags false s.owed).pullAndSend

/-- An ack pulls for a blocked event. -/
private theorem Chained.processAck (h : Chained cursor s) : Chained cursor s.processAck := by
  have hack : Chained cursor s.acknowledged := ⟨h.noCapture, h.contiguous, h.lastSeq⟩
  have hunblocked : Chained cursor s.acknowledged.unblocked :=
    ⟨h.noCapture, h.contiguous, h.lastSeq⟩
  rcases s.processAck_cases with ⟨-, heq⟩ | ⟨heq, -⟩ | ⟨-, heq⟩
  · rw [heq]
    exact h
  · rw [heq]
    exact hack
  · rw [heq]
    exact hunblocked.pullAndSend

/-- Every step keeps the chain. -/
theorem chained_step (op : ServerOp) (h : Chained cursor s) (hok : s.Uncaptured op) :
    Chained cursor (s.step op) := by
  cases op with
  | write db => exact ⟨hok, h.contiguous, h.lastSeq⟩
  | notify selfSourced => exact h.dbChanged selfSourced
  | ack => exact h.processAck
  | close => exact ⟨h.noCapture, h.contiguous, h.lastSeq⟩

/-- A server stream that begins with a pull. -/
theorem chained_begin {db : Db} (hdb : db.NoCaptures) (site : Blob) (seqStart : Seq) :
    Chained seqStart (begin db site seqStart) :=
  (chained_created hdb site seqStart).dbChanged false

end Steps

end ServerStream

/-! ## The stream of the client -/

namespace ClientStream

/-- An open stream handles an event only when its cursors are loaded and no other run
of the handler is suspended; no key column captures an alias of the query. -/
def EventsApart (s : ClientStream) : ClientOp → Prop
  | .write db => db.NoCaptures
  | .event =>
      s.closed = true ∨ s.started = false ∨ (s.established = true ∧ s.pulls = [])
  | _ => True

instance (s : ClientStream) (op : ClientOp) : Decidable (s.EventsApart op) :=
  match op with
  | .write db => inferInstanceAs (Decidable db.NoCaptures)
  | .event => inferInstanceAs (Decidable (_ ∨ _ ∨ _))
  | .loaded _ | .fetch _ | .resume _ | .ack | .tracked | .stop =>
      inferInstanceAs (Decidable True)

/-- A suspended run started from where the stream stands, and its result lies above
that. -/
structure AtEnd (lastSeq : Seq) (p : ClientPull) : Prop where
  startSeq : p.startSeq = lastSeq
  above : ∀ changes, p.result = some (some changes) → PulledAbove p.startSeq.1 changes

/-- What holds of the client's stream between two such steps. -/
structure Chained (s : ClientStream) : Prop where
  noCapture : s.db.NoCaptures
  unblocked : s.blockedSend = false
  early : s.established = false → s.sent = [] ∧ s.pulls = []
  contiguous : Contiguous s.cursor s.sent
  lastSeq : s.established = true → s.lastSeq = nextSeq s.cursor s.sent
  single : s.pulls.length ≤ 1
  pulls : ∀ p ∈ s.pulls, AtEnd s.lastSeq p

/-- A new client stream. -/
theorem chained_start {db : Db} (hdb : db.NoCaptures) (siteId : Blob) :
    (start db siteId).Chained where
  noCapture := hdb
  unblocked := rfl
  early _ := ⟨rfl, rfl⟩
  contiguous := ⟨trivial, by simp [start]⟩
  lastSeq h := by simp [start] at h
  single := by simp [start]
  pulls := by simp [start]

section Steps

variable {s : ClientStream}

/-- A stream starts at the version that was loaded. -/
private theorem Chained.loaded (h : s.Chained) (lastSeq : Seq) : (s.loaded lastSeq).Chained := by
  rw [ClientStream.loaded]
  split_ifs with hest hstarted
  · exact h
  all_goals
    rw [Bool.not_eq_true] at hest
    obtain ⟨hsent, hpulls⟩ := h.early hest
  · exact { h with
      lastSeq := fun he => by simp [hest] at he
      pulls := by simp [hpulls] }
  · refine ⟨h.noCapture, h.unblocked, nofun, ?_, fun _ => ?_, h.single, by simp [hpulls]⟩
    · simp only [hsent]
      exact ⟨trivial, by simp⟩
    · simp [hsent, nextSeq]

/-- An event starts a run behind the others. -/
private theorem Chained.localDbChanged (h : s.Chained) (hok : s.EventsApart .event) :
    s.localDbChanged.Chained := by
  rcases s.localDbChanged_cases with ⟨-, heq⟩ | ⟨hopen, hstarted, heq⟩
  · rw [heq]
    exact h
  · obtain ⟨hest, hpulls⟩ : s.established = true ∧ s.pulls = [] := by
      simpa [EventsApart, hopen, hstarted] using hok
    rw [heq]
    refine ⟨h.noCapture, rfl, fun he => ?_, h.contiguous, h.lastSeq, ?_, fun p hp => ?_⟩
    · simp [pulling, callPull, hest] at he
    · simp [pulling, callPull, hpulls]
    · simp only [pulling, callPull, hpulls, List.nil_append, List.mem_singleton] at hp
      exact hp ▸ ⟨rfl, nofun⟩

/-- A query reads from the place of its run. -/
private theorem Chained.fetch [Sqlite] (h : s.Chained) (i : Nat) : (s.fetch i).Chained := by
  refine { h with early := fun he => ?_, single := ?_, pulls := fun p hp => ?_ }
  · obtain ⟨hsent, hpulls⟩ := h.early he
    exact ⟨hsent, by simp [ClientStream.fetch, hpulls]⟩
  · simpa [ClientStream.fetch] using h.single
  · obtain ⟨q, hq, rfl | rfl⟩ := mem_fetch_pulls hp
    · exact h.pulls p hq
    · refine ⟨(h.pulls q hq).startSeq, fun changes hchanges => ?_⟩
      exact (pullChangeset_above h.noCapture _).2 changes (Option.some.inj hchanges)

/-- A run that goes on sends from where the last message ended. -/
private theorem Chained.resume (h : s.Chained) (i : Nat) : (s.resume i).Chained := by
  rcases s.resume_cases i with heq | ⟨startSeq, result, hpull, heq | ⟨changes, m, hresult, hship,
    heq⟩⟩
  · rw [heq]
    exact h
  all_goals
    have hmem : (⟨startSeq, some result⟩ : ClientPull) ∈ s.pulls := List.mem_of_getElem? hpull
    have hsub : ∀ p ∈ s.pulls.eraseIdx i, p ∈ s.pulls :=
      fun p hp => (List.eraseIdx_sublist s.pulls i).subset hp
    rw [heq]
  · refine { h with early := fun he => ?_, single := ?_, pulls := fun p hp => ?_ }
    · rw [(h.early he).2] at hmem
      simp at hmem
    · exact (List.eraseIdx_sublist s.pulls i).length_le.trans h.single
    · exact h.pulls p (hsub p hp)
  · have hest : s.established = true := by
      by_contra hne
      rw [(h.early (by simpa using hne)).2] at hmem
      simp at hmem
    obtain ⟨hstart, habove⟩ := h.pulls _ hmem
    have habove := habove changes (by rw [hresult])
    simp only [h.lastSeq hest] at hstart
    simp only [hstart] at hship habove
    obtain ⟨hcont, hnext⟩ := h.contiguous.send hship habove s.outstandingAcks
    -- the run that goes on was the only one
    have hnone : s.pulls.eraseIdx i = [] := by
      have hi := (List.getElem?_eq_some_iff.mp hpull).1
      have hlen := List.length_eraseIdx_of_lt hi
      have hsingle := h.single
      exact List.length_eq_zero_iff.mp (by omega)
    refine ⟨h.noCapture, h.unblocked, fun he => ?_, hcont, fun _ => hnext.symm, ?_, ?_⟩
    · simp [sending, hest] at he
    · simp [sending, hnone]
    · simp [sending, hnone]

/-- Every step that handles events apart keeps the chain. -/
theorem chained_step [Sqlite] (op : ClientOp) (h : s.Chained) (hok : s.EventsApart op) :
    (s.step op).Chained := by
  cases op with
  | write db => exact { h with noCapture := hok }
  | loaded lastSeq => exact h.loaded lastSeq
  | event => exact h.localDbChanged hok
  | fetch i => exact h.fetch i
  | resume i => exact h.resume i
  | ack => exact { h with }
  | tracked =>
      rw [step, tracked, if_neg (by simp [h.unblocked])]
      exact h
  | stop => exact { h with }

end Steps

end ClientStream

/-! ## Runs -/

end CrSqlite
