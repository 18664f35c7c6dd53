import CrSqlite.PeerCursor
import CrSqlite.StreamChain

/-!
# ReceiveCursor - what the client has received from its server

The client's handler of a `receive` message puts the changes in the queue of
transactions, moves its expected sequence on and sends the acknowledgement, all before
the transaction has begun.  A transaction that fails is rolled back in silence.  The
tracker keeps the larger version, and takes what was noted of a failed transaction's
changes with the next one that is committed.

Main results:

- Theorem {lit}`correct_iff_notHandled`: a step is correct exactly when it handles no
  message, as long as none was handled before.
- Theorem {lit}`steady_step`: transactions that start at the tracked version or below
  it, and leave nothing out, keep the tracked version good.
- Theorem {lit}`received_run`: a run is correct exactly when it handles no message, and
  the tracked version is good after every steady run.
- Theorem {lit}`failed_changeset_is_passed`: the tracked version passes a changeset whose
  transaction failed.
-/

namespace CrSqlite

/-! ## Applying a changeset -/

/-- The row that `applyChangesetStmt` inserts. -/
def Changeset.change (sender : Blob) (cs : Changeset) : Change :=
  ⟨cs.tbl, cs.pk, cs.cid, cs.val, cs.colVersion, cs.dbVersion, sender⟩

/-- The INSERTs of a changeset up to the first that fails, and whether none did. -/
def Db.insertAll [Sqlite] (db : Db) : List Change → Db × Bool
  | [] => (db, true)
  | ch :: chs =>
      if (db.mergeInsert ch).2 = none then (db.mergeInsert ch).1.insertAll chs
      else ((db.mergeInsert ch).1, false)

/-- `updatePeerTracker` for RECEIVE. -/
def Db.updatePeerTracker (db : Db) (sender : Blob) (seqEnd : Seq) : Db :=
  { db with trackedPeers := trackPeer sender seqEnd.1 db.trackedPeers }

/-- `applyChangeset` in its transaction; `fault` is the number of INSERTs before
something else fails.  The second component is false when it was rolled back. -/
def Db.applyChangeset [Sqlite] (db : Db) (sender : Blob) (m : ReceiveMsg)
    (fault : Option Nat) : Db × Bool :=
  let rows := m.changes.map (Changeset.change sender)
  let inserted := db.insertAll (rows.take (fault.getD rows.length))
  if inserted.2 = true ∧ fault = none then
    ((inserted.1.updatePeerTracker sender m.seqEnd).commit, true)
  else (Db.rollback db inserted.1, false)

section Apply

variable [Sqlite] {db : Db} {chs : List Change}

/-- Between two transactions: nothing was written to `crsql_changes`, and the peers in
memory are different sites. -/
structure Db.Settled (db : Db) : Prop where
  written : db.changesWritten = false
  nodup : (db.seenPeers.peers.map SeenPeer.siteId).Nodup
  ne : ∀ p ∈ db.seenPeers.peers, p.siteId ≠ []

omit [Sqlite] in
theorem Db.Idle.settled (h : db.Idle) : db.Settled :=
  ⟨h.2, by simp [h.1], by simp [h.1]⟩

/-- Where every insertion succeeds all changes are merged. -/
theorem insertAll_of_ok (h : (db.insertAll chs).2 = true) :
    db.succeeding chs = chs ∧
      (db.insertAll chs).1 = (chs.map Stmt.merge).foldl Db.exec db := by
  induction chs generalizing db with
  | nil => exact ⟨rfl, rfl⟩
  | cons ch chs ih =>
      rw [Db.insertAll] at h ⊢
      split at h
      · rename_i hok
        obtain ⟨hsucc, hdb⟩ := ih h
        refine ⟨?_, ?_⟩
        · rw [Db.succeeding, if_pos hok, hsucc]
        · rw [if_pos hok, hdb]
          rfl
      · simp at h

/-- The peers stay different sites, whether the INSERTs succeed or not. -/
theorem insertAll_peers (hchs : ∀ ch ∈ chs, ch.siteId ≠ [])
    (hnodup : (db.seenPeers.peers.map SeenPeer.siteId).Nodup)
    (hne : ∀ p ∈ db.seenPeers.peers, p.siteId ≠ []) :
    ((db.insertAll chs).1.seenPeers.peers.map SeenPeer.siteId).Nodup ∧
      ∀ p ∈ (db.insertAll chs).1.seenPeers.peers, p.siteId ≠ [] := by
  induction chs generalizing db with
  | nil => exact ⟨hnodup, hne⟩
  | cons ch chs ih =>
      obtain ⟨hch, hrest⟩ := List.forall_mem_cons.mp hchs
      have hnodup' : ((db.mergeInsert ch).1.seenPeers.peers.map SeenPeer.siteId).Nodup := by
        rw [mergeInsert_seenPeers]
        split
        · exact nodup_trackSeenPeer hnodup
        · exact hnodup
      have hne' : ∀ p ∈ (db.mergeInsert ch).1.seenPeers.peers, p.siteId ≠ [] := by
        intro p hp
        rw [mergeInsert_seenPeers] at hp
        split at hp
        · rcases mem_trackSeenPeer hp with heq | hmem
          · exact heq ▸ hch
          · obtain ⟨q, hq, heq⟩ := List.mem_map.mp hmem
            exact heq ▸ hne q hq
        · exact hne p hp
      rw [Db.insertAll]
      split
      · exact ih hrest hnodup' hne'
      · exact ⟨hnodup', hne'⟩

/-- The version of a site in the table after a changeset was applied is bounded by what
it was, the end of the changeset, and what was noted before. -/
theorem applyChangeset_cases {sender : Blob} (hsender : sender ≠ []) (hdb : db.Settled)
    {m : ReceiveMsg} (hm : m.changes ≠ []) (fault : Option Nat) :
    ((db.applyChangeset sender m fault).2 = false ∧
      (db.applyChangeset sender m fault).1.trackedPeers = db.trackedPeers ∧
      (db.applyChangeset sender m fault).1.Settled) ∨
    ((db.applyChangeset sender m fault).2 = true ∧ fault = none ∧
      versionOf sender (db.applyChangeset sender m fault).1.trackedPeers =
        maxVersion (maxVersion (versionOf sender db.trackedPeers) (some m.seqEnd.1))
          (maxVersion (clockOf sender db.seenPeers.peers)
            (latest sender (m.changes.map (Changeset.change sender)))) ∧
      (db.applyChangeset sender m fault).1.Settled) := by
  unfold Db.applyChangeset
  dsimp only
  split
  · rename_i hok
    obtain ⟨hok, rfl⟩ := hok
    rw [Option.getD_none, List.take_length] at hok ⊢
    obtain ⟨hsucc, hdb'⟩ := insertAll_of_ok hok
    have hsite : ∀ ch ∈ m.changes.map (Changeset.change sender), ch.siteId ≠ [] := by
      intro ch hch
      obtain ⟨cs, -, rfl⟩ := List.mem_map.mp hch
      exact hsender
    obtain ⟨hnodup, hne, hclock, htracked⟩ := noted_foldl hsucc hsite hdb.nodup hdb.ne
    rw [← hdb'] at hnodup hne hclock htracked
    have hwritten : (db.insertAll (m.changes.map (Changeset.change sender))).1.changesWritten =
        true := by
      obtain ⟨cs, hcs⟩ := List.getLast?_isSome.mpr hm |> Option.isSome_iff_exists.mp
      rw [hdb', ← List.dropLast_append_getLast? cs hcs, List.map_append, List.map_append,
        List.foldl_append]
      exact (mergeInsert_trackedPeers _ _).2
    refine Or.inr ⟨rfl, rfl, ?_, ?_⟩
    · rw [Db.commit, if_pos (by exact hwritten)]
      simp only [Db.updatePeerTracker]
      rw [versionOf_writeTrackedPeers hne hnodup, versionOf_trackPeer, if_pos rfl, htracked, hclock]
    · rw [Db.commit, if_pos (by exact hwritten)]
      exact ⟨rfl, by simp [resetSeenPeers], by simp [resetSeenPeers]⟩
  · refine Or.inl ⟨rfl, rfl, ?_⟩
    have hsite : ∀ ch ∈ (m.changes.map (Changeset.change sender)).take
        (fault.getD (m.changes.map (Changeset.change sender)).length), ch.siteId ≠ [] := by
      intro ch hch
      obtain ⟨cs, -, rfl⟩ := List.mem_map.mp (List.mem_of_mem_take hch)
      exact hsender
    obtain ⟨hnodup, hne⟩ := insertAll_peers hsite hdb.nodup hdb.ne
    exact ⟨rfl, hnodup, hne⟩

end Apply

/-! ## The client and the stream of the server -/

/-- The client's side of the synchronization from its server.  A message is numbered by
its place among all that the server's streams have sent; a transaction of the queue runs
in one step. -/
structure ReceiveSync where
  db : Db
  remoteDbId : Blob
  siteId : Blob
  opened : Bool
  attached : Bool
  closing : Bool
  expectedSeq : Option Seq
  pending : List (Nat × ReceiveMsg)
  acked : List Nat
  committed : List Nat
  merged : List Changeset
  server : Option Seq
  carried : List ReceiveMsg
  inFlight : List (Nat × ReceiveMsg)

/-- What the client, the server and the network do.  The server's stream pulls from a
database in any state. -/
inductive ReceiveOp where
  | opened
  | expect
  | establish
  | attach
  | serve (db : { db : Db // db.NoCaptures })
  | drop (i : Nat)
  | receive (i : Nat)
  | apply (fault : Option Nat)
  | write (stmts : List (Text × LocalWrite))
  | close

namespace ReceiveSync

/-- A client that has no session yet. -/
def init (db : Db) (remoteDbId siteId : Blob) : ReceiveSync :=
  ⟨db, remoteDbId, siteId, false, false, false, none, [], [], [], [], none, [], []⟩

/-- The tracked RECEIVE version, 0 when there is none. -/
def version (s : ReceiveSync) : Int :=
  (versionOf s.remoteDbId s.db.trackedPeers).getD 0

/-- The server's stream handles a change of its database. -/
def serve [Sqlite] (s : ReceiveSync) (db : Db) : ReceiveSync :=
  match s.server with
  | none => s
  | some lastSeq =>
      match (db.pullForeign s.siteId lastSeq).bind (shipped db.siteId lastSeq) with
      | none => s
      | some m =>
          { s with
            server := some m.seqEnd
            carried := s.carried ++ [m]
            inFlight := s.inFlight ++ [(s.carried.length, m)] }

/-- `#handleMessage` and `#applyChanges` for a message on the way.  The check of the
sequence closes the socket and goes on; without a database the handler throws. -/
def receive (s : ReceiveSync) (i : Nat) : ReceiveSync :=
  match s.inFlight[i]? with
  | none => s
  | some (n, m) =>
      let s := { s with inFlight := s.inFlight.eraseIdx i }
      if !s.attached then s
      else
        match s.expectedSeq with
        | none => { s with closing := true }
        | some expected =>
            let s := { s with closing := s.closing || expected.1 < m.seqStart.1 }
            if !s.opened then s
            else
              { s with
                pending := s.pending ++ [(n, m)]
                expectedSeq := some m.seqEnd
                acked := if s.closing then s.acked else s.acked ++ [n] }

/-- The next transaction of the queue. -/
def apply [Sqlite] (s : ReceiveSync) (fault : Option Nat) : ReceiveSync :=
  match s.pending with
  | [] => s
  | (n, m) :: pending =>
      let applied := s.db.applyChangeset s.remoteDbId m fault
      let s := { s with db := applied.1, pending := pending }
      if applied.2 then
        { s with committed := s.committed ++ [n], merged := s.merged ++ m.changes }
      else s

/-- One step.  Both reads of the cursor are steps of their own, and the handler is
attached behind them. -/
def step [Sqlite] (s : ReceiveSync) : ReceiveOp → ReceiveSync
  | .opened => { s with opened := true, closing := false }
  | .expect => { s with expectedSeq := some (s.version, 0) }
  | .establish => if s.server.isSome then s else { s with server := some (s.version, 0) }
  | .attach => if s.expectedSeq.isSome then { s with attached := true } else s
  | .serve db => s.serve db
  | .drop i => { s with inFlight := s.inFlight.eraseIdx i }
  | .receive i => s.receive i
  | .apply fault => s.apply fault
  | .write stmts => { s with db := s.db.transact (stmts.map fun p => .write p.1 p.2) }
  | .close => { s with opened := false, closing := true, server := none, inFlight := [] }

/-! ## Correct steps -/

/-- The client has merged every change up to the tracked version that the server's
streams have carried. -/
def CursorSound (s : ReceiveSync) : Prop :=
  ∀ v, versionOf s.remoteDbId s.db.trackedPeers = some v →
    ∀ m ∈ s.carried, ∀ cs ∈ m.changes, cs.dbVersion ≤ v → cs ∈ s.merged

/-- The tracked version is good, and what was acknowledged was committed. -/
structure Kept (s : ReceiveSync) : Prop where
  cursor : s.CursorSound
  acks : ∀ n ∈ s.acked, n ∈ s.committed

/-- A message that starts above the expected sequence changes neither the database, nor
the expected sequence, nor what waits to be applied. -/
def GapIgnored (s : ReceiveSync) : ReceiveOp → Prop
  | .receive i => ∀ n m expected, s.inFlight[i]? = some (n, m) →
      s.expectedSeq = some expected → expected.1 < m.seqStart.1 →
        (s.receive i).db = s.db ∧ (s.receive i).expectedSeq = s.expectedSeq ∧
          (s.receive i).pending = s.pending
  | _ => True

/-- A step that ignores gaps and leads to a state in which the client's records are
good. -/
def Correct [Sqlite] (s : ReceiveSync) (op : ReceiveOp) : Prop :=
  (s.step op).Kept ∧ s.GapIgnored op

/-- No message reaches a handler that goes through with it. -/
def NotHandled (s : ReceiveSync) : ReceiveOp → Prop
  | .receive i =>
      s.inFlight[i]? = none ∨ s.attached = false ∨ s.opened = false ∨ s.expectedSeq = none
  | _ => True

/-- The server's stream is not behind the tracked version, and a transaction that meets
no fault applies a changeset that starts at the tracked version or below, has everything
in it that was carried before between its ends, and is not below what was noted of
failed ones. -/
def Steady (s : ReceiveSync) : ReceiveOp → Prop
  | .serve _ => ∀ lastSeq ∈ s.server, s.version ≤ lastSeq.1
  | .apply none =>
      ∀ p ∈ s.pending.head?, p.2.seqStart.1 ≤ s.version ∧
        (∀ m ∈ s.carried, ∀ cs ∈ m.changes, p.2.seqStart.1 < cs.dbVersion →
          cs.dbVersion ≤ p.2.seqEnd.1 → cs ∈ p.2.changes) ∧
        (clockOf s.remoteDbId s.db.seenPeers.peers).getD 0 ≤ p.2.seqEnd.1
  | _ => True

instance (s : ReceiveSync) (op : ReceiveOp) : Decidable (s.NotHandled op) :=
  match op with
  | .receive _ => inferInstanceAs (Decidable (_ ∨ _ ∨ _ ∨ _))
  | .opened | .expect | .establish | .attach | .serve _ | .drop _ | .apply _ | .write _
  | .close => inferInstanceAs (Decidable True)

instance (s : ReceiveSync) (op : ReceiveOp) : Decidable (s.Steady op) :=
  match op with
  | .serve _ => inferInstanceAs (Decidable (∀ lastSeq ∈ s.server, _))
  | .apply none => inferInstanceAs (Decidable (∀ p ∈ s.pending.head?, _))
  | .opened | .expect | .establish | .attach | .receive _ | .drop _ | .apply (some _)
  | .write _ | .close => inferInstanceAs (Decidable True)

/-! ## What the steps do -/

/-- The client after its handler went through with a message. -/
def handled (s : ReceiveSync) (i n : Nat) (m : ReceiveMsg) (gap : Bool) : ReceiveSync :=
  { s with
    inFlight := s.inFlight.eraseIdx i
    closing := s.closing || gap
    pending := s.pending ++ [(n, m)]
    expectedSeq := some m.seqEnd
    acked := if s.closing || gap then s.acked else s.acked ++ [n] }

/-- A message is lost, or its handler goes through with it. -/
theorem receive_cases (s : ReceiveSync) (i : Nat) :
    (s.NotHandled (.receive i) ∧ ∃ closing, s.receive i =
      { s with inFlight := s.inFlight.eraseIdx i, closing := closing } ∧
        (closing = s.closing ∨ s.opened = false ∨ (s.attached = true ∧ s.expectedSeq = none))) ∨
    ∃ n m expected, s.inFlight[i]? = some (n, m) ∧ s.attached = true ∧ s.opened = true ∧
      s.expectedSeq = some expected ∧
      s.receive i = s.handled i n m (expected.1 < m.seqStart.1) := by
  unfold receive
  split
  · rename_i hnone
    refine Or.inl ⟨Or.inl hnone, s.closing, ?_, Or.inl rfl⟩
    rw [List.eraseIdx_of_length_le (List.getElem?_eq_none_iff.mp hnone)]
  · rename_i n m hmsg
    dsimp only
    split
    · rename_i hattached
      exact Or.inl ⟨Or.inr (Or.inl (by simpa using hattached)), _, rfl, Or.inl rfl⟩
    · rename_i hattached
      have hattached : s.attached = true := by simpa using hattached
      split
      · rename_i hexpected
        exact Or.inl ⟨Or.inr (Or.inr (Or.inr hexpected)), _, rfl,
          Or.inr (Or.inr ⟨hattached, hexpected⟩)⟩
      · rename_i expected hexpected
        split
        · rename_i hopened
          have hopened : s.opened = false := by simpa using hopened
          exact Or.inl ⟨Or.inr (Or.inr (Or.inl hopened)), _, rfl, Or.inr (Or.inl hopened)⟩
        · rename_i hopened
          exact Or.inr ⟨n, m, expected, hmsg, hattached, by simpa using hopened, hexpected, rfl⟩

/-- The client and the server's stream after a message was sent. -/
def served (s : ReceiveSync) (m : ReceiveMsg) : ReceiveSync :=
  { s with
    server := some m.seqEnd
    carried := s.carried ++ [m]
    inFlight := s.inFlight ++ [(s.carried.length, m)] }

/-- The server's stream sends nothing, or a message with changes above its place that
ends at the largest of them. -/
theorem serve_cases [Sqlite] (s : ReceiveSync) (db : { db : Db // db.NoCaptures }) :
    s.serve db = s ∨ ∃ lastSeq m, s.server = some lastSeq ∧ EndsAtLargest m ∧
      m.seqStart = lastSeq ∧ (∀ cs ∈ m.changes, lastSeq.1 < cs.dbVersion) ∧
      s.serve db = s.served m := by
  unfold serve
  split
  · exact Or.inl rfl
  · rename_i lastSeq hserver
    split
    · exact Or.inl rfl
    · rename_i m h
      obtain ⟨changes, hpull, hship⟩ := Option.bind_eq_some_iff.mp h
      have habove := (pullChangeset_above db.2 lastSeq).1 s.siteId changes hpull
      obtain ⟨hstart, hchanges, -⟩ := shipped_eq hship
      exact Or.inr ⟨lastSeq, m, hserver, endsAtLargest_of_shipped hship habove, hstart,
        hchanges ▸ habove.above, rfl⟩

/-- Local transactions leave the peers alone. -/
theorem settled_write [Sqlite] {db : Db} (h : db.Settled) (stmts : List (Text × LocalWrite)) :
    (db.transact (stmts.map fun p => .write p.1 p.2)).Settled := by
  have hfold : ((stmts.map fun p => Stmt.write p.1 p.2).foldl Db.exec db).Settled := by
    induction stmts generalizing db with
    | nil => exact h
    | cons p stmts ih =>
        obtain ⟨-, hseen, hwritten⟩ := write_peers db p.1 p.2
        exact ih ⟨hwritten.trans h.written, by rw [Db.exec, hseen]; exact h.nodup,
          by rw [Db.exec, hseen]; exact h.ne⟩
  rw [Db.transact, Db.commit, if_neg (by simp [hfold.written])]
  exact ⟨hfold.written, hfold.nodup, hfold.ne⟩

/-! ## Runs without a handled message -/

/-- What holds as long as no message was handled. -/
structure Untouched (s : ReceiveSync) : Prop where
  settled : s.db.Settled
  pending : s.pending = []
  acked : s.acked = []
  committed : s.committed = []
  closing : s.closing = true → s.opened = false
  attached : s.attached = true → s.expectedSeq ≠ none
  server : ∀ lastSeq ∈ s.server, s.version ≤ lastSeq.1
  carried : ∀ m ∈ s.carried, ∀ cs ∈ m.changes, s.version < cs.dbVersion

/-- Nothing was received to begin with. -/
theorem untouched_init {db : Db} (hdb : db.Settled) (remoteDbId siteId : Blob) :
    (init db remoteDbId siteId).Untouched where
  settled := hdb
  pending := rfl
  acked := rfl
  committed := rfl
  closing := nofun
  attached := nofun
  server := nofun
  carried := nofun

/-- What was not touched is kept. -/
theorem Untouched.kept {s : ReceiveSync} (h : s.Untouched) : s.Kept := by
  refine ⟨fun v hv m hm cs hcs hle => ?_, by simp [h.acked]⟩
  have hlt := h.carried m hm cs hcs
  rw [version, hv, Option.getD_some] at hlt
  omega

section Untouched

variable [Sqlite] {s : ReceiveSync}

omit [Sqlite] in
/-- A message that is not handled touches nothing. -/
private theorem Untouched.receive (h : s.Untouched) {i : Nat} (hok : s.NotHandled (.receive i)) :
    (s.receive i).Untouched := by
  rcases s.receive_cases i with ⟨-, closing, heq, hclosing⟩ | ⟨n, m, expected, hmsg, hattached,
    hopened, hexpected, -⟩
  · rw [heq]
    refine { h with closing := fun hc => ?_ }
    rcases hclosing with rfl | hopened | ⟨hattached, hnone⟩
    · exact h.closing hc
    · exact hopened
    · exact absurd hnone (h.attached hattached)
  · simp [NotHandled, hmsg, hattached, hopened, hexpected] at hok

/-- A step without a handled message touches nothing; the cases are the steps of the session and
of the server. -/
theorem untouched_step (op : ReceiveOp) (h : s.Untouched) (hok : s.NotHandled op) :
    (s.step op).Untouched := by
  cases op with
  | opened => exact { h with closing := nofun }
  | expect => exact { h with attached := fun _ => Option.some_ne_none _ }
  | establish =>
      rw [step]
      split
      · exact h
      · refine { h with server := fun lastSeq hl => ?_ }
        rw [← Option.mem_some_iff.mp hl]
        exact le_rfl
  | attach =>
      rw [step]
      split
      · rename_i hsome
        exact { h with attached := fun _ => Option.isSome_iff_ne_none.mp hsome }
      · exact h
  | serve db =>
      rw [step]
      rcases s.serve_cases db with heq | ⟨lastSeq, m, hserver, hends, hstart, habove, heq⟩
      · rw [heq]
        exact h
      · have hle := h.server lastSeq hserver
        have hlt := hends.above
        rw [hstart] at hlt
        rw [heq]
        refine { h with server := fun l hl => ?_, carried := fun m' hm' cs hcs => ?_ }
        · rw [← Option.mem_some_iff.mp hl]
          exact hle.trans hlt.le
        · rcases List.mem_append.mp hm' with hold | hnew
          · exact h.carried m' hold cs hcs
          · rw [List.mem_singleton.mp hnew] at hcs
            exact hle.trans_lt (habove cs hcs)
  | drop i => exact { h with }
  | receive i => exact h.receive hok
  | apply fault =>
      rw [step, apply, h.pending]
      exact h
  | write stmts =>
      have htracked := transact_writes_trackedPeers h.settled.written stmts
      have hversion : (s.step (.write stmts)).version = s.version := by
        rw [version, version, step, htracked]
      exact { h with
        settled := settled_write h.settled stmts
        server := fun lastSeq hl => hversion ▸ h.server lastSeq hl
        carried := fun m hm cs hcs => hversion ▸ h.carried m hm cs hcs }
  | close =>
      exact { h with closing := fun _ => rfl, server := nofun }

/-- As long as no message was handled, a step is correct exactly when it handles
none: a message that starts above the expected sequence is queued, and any other one is
acknowledged before it is committed. -/
theorem correct_iff_notHandled (op : ReceiveOp) (h : s.Untouched) :
    s.Correct op ↔ s.NotHandled op := by
  constructor
  · rintro ⟨hkept, hgap⟩
    cases op with
    | receive i =>
        rcases s.receive_cases i with ⟨hnot, -⟩ | ⟨n, m, expected, hmsg, -, hopened, hexpected, heq⟩
        · exact hnot
        · by_cases hlt : expected.1 < m.seqStart.1
          · have hpending := (hgap n m expected hmsg hexpected hlt).2.2
            rw [heq] at hpending
            simp [handled] at hpending
          · have hclosing : s.closing = false := by
              by_contra hc
              have := h.closing (by simpa using hc)
              simp [hopened] at this
            have hack := hkept.acks n
            simp only [step, heq, handled, hlt, hclosing] at hack
            simp [h.committed] at hack
    | _ => trivial
  · intro hok
    refine ⟨(untouched_step op h hok).kept, ?_⟩
    cases op with
    | receive i =>
        rcases s.receive_cases i with ⟨-, closing, heq, -⟩ | ⟨n, m, expected, hmsg, hattached,
          hopened, hexpected, -⟩
        · intro n m expected _ _ _
          rw [heq]
          exact ⟨rfl, rfl, rfl⟩
        · simp [NotHandled, hmsg, hattached, hopened, hexpected] at hok
    | _ => trivial

end Untouched

/-! ## Steady runs -/

/-- What holds between two steady steps. -/
structure Covering (s : ReceiveSync) : Prop where
  settled : s.db.Settled
  remote : s.remoteDbId ≠ []
  ends : ∀ m ∈ s.carried, EndsAtLargest m
  pending : ∀ p ∈ s.pending, p.2 ∈ s.carried
  inFlight : ∀ p ∈ s.inFlight, p.2 ∈ s.carried
  covered : ∀ m ∈ s.carried, ∀ cs ∈ m.changes, cs.dbVersion ≤ s.version → cs ∈ s.merged

/-- A session without messages covers what it has. -/
theorem covering_init {db : Db} (hdb : db.Settled) {remoteDbId : Blob}
    (hremote : remoteDbId ≠ []) (siteId : Blob) : (init db remoteDbId siteId).Covering where
  settled := hdb
  remote := hremote
  ends := nofun
  pending := nofun
  inFlight := nofun
  covered := nofun

/-- What is covered up to the cursor was received. -/
theorem Covering.cursorSound {s : ReceiveSync} (h : s.Covering) : s.CursorSound := by
  intro v hv m hm cs hcs hle
  refine h.covered m hm cs hcs ?_
  rw [version, hv, Option.getD_some]
  exact hle

/-- A bound of two versions bounds the larger one. -/
theorem maxVersion_getD_le {a b : Option Int} {m : Int} (ha : a.getD 0 ≤ m) (hb : b.getD 0 ≤ m) :
    (maxVersion a b).getD 0 ≤ m := by
  cases a with
  | none => simpa using hb
  | some a =>
      cases b with
      | none => simpa using ha
      | some b => exact max_le ha hb

section Steady

variable [Sqlite] {s : ReceiveSync}

omit [Sqlite] in
/-- A message that is handled moves the cursor to its end. -/
private theorem Covering.receive (h : s.Covering) (i : Nat) : (s.receive i).Covering := by
  have hflight : ∀ p ∈ s.inFlight.eraseIdx i, p.2 ∈ s.carried := fun p hp =>
    h.inFlight p ((List.eraseIdx_sublist s.inFlight i).subset hp)
  rcases s.receive_cases i with ⟨-, closing, heq, -⟩ | ⟨n, m, expected, hmsg, -, -, -, heq⟩
  · rw [heq]
    exact { h with inFlight := hflight }
  · rw [heq]
    refine { h with inFlight := hflight, pending := fun p hp => ?_ }
    rcases List.mem_append.mp hp with hold | hnew
    · exact h.pending p hold
    · rw [List.mem_singleton.mp hnew]
      exact h.inFlight (n, m) (List.mem_of_getElem? hmsg)

/-- A server that goes on serves what is behind the cursor. -/
private theorem Covering.serve (h : s.Covering) (db : { db : Db // db.NoCaptures })
    (hok : s.Steady (.serve db)) : (s.serve db).Covering := by
  rcases s.serve_cases db with heq | ⟨lastSeq, m, hserver, hends, -, habove, heq⟩
  · rw [heq]
    exact h
  · have hle : s.version ≤ lastSeq.1 := hok lastSeq hserver
    rw [heq]
    refine { h with ends := ?_, pending := ?_, inFlight := ?_, covered := ?_ }
    · intro m' hm'
      rcases List.mem_append.mp hm' with hold | hnew
      · exact h.ends m' hold
      · rw [List.mem_singleton.mp hnew]
        exact hends
    · exact fun p hp => List.mem_append_left _ (h.pending p hp)
    · intro p hp
      rcases List.mem_append.mp hp with hold | hnew
      · exact List.mem_append_left _ (h.inFlight p hold)
      · rw [List.mem_singleton.mp hnew]
        exact List.mem_append_right _ (List.mem_singleton_self m)
    · -- what is new lies above the tracked version
      intro m' hm' cs hcs hcs'
      rcases List.mem_append.mp hm' with hold | hnew
      · exact h.covered m' hold cs hcs hcs'
      · rw [List.mem_singleton.mp hnew] at hcs
        have hlt := habove cs hcs
        have hversion : (s.served m).version = s.version := rfl
        omega

/-- The changeset closes the gap between the old and the new tracked version. -/
private theorem Covering.apply (h : s.Covering) (fault : Option Nat)
    (hok : s.Steady (.apply fault)) : (s.apply fault).Covering := by
  unfold ReceiveSync.apply
  split
  · exact h
  · rename_i n m pending hpending
    have hm : m ∈ s.carried := h.pending (n, m) (by simp [hpending])
    have hrest : ∀ p ∈ pending, p.2 ∈ s.carried := fun p hp =>
      h.pending p (by simp [hpending, hp])
    have hends := h.ends m hm
    have hne : m.changes ≠ [] := by
      obtain ⟨c, hc, -⟩ := hends.attained
      exact List.ne_nil_of_mem hc
    dsimp only
    rcases applyChangeset_cases h.remote h.settled hne fault with
      ⟨hfail, htracked, hsettled⟩ | ⟨hsucc, rfl, htracked, hsettled⟩
    · rw [if_neg (by simp [hfail])]
      refine { h with settled := hsettled, pending := hrest, covered := ?_ }
      intro m' hm' cs hcs hle
      refine h.covered m' hm' cs hcs ?_
      rwa [version, htracked] at hle
    · obtain ⟨hstart, hcontains, hnoted⟩ := hok (n, m) (by simp [hpending])
      rw [if_pos hsucc]
      refine { h with settled := hsettled, pending := hrest, covered := ?_ }
      intro m' hm' cs hcs hle
      have hbound : cs.dbVersion ≤ max s.version m.seqEnd.1 := by
        refine hle.trans ?_
        rw [version, htracked]
        refine maxVersion_getD_le (maxVersion_getD_le (le_max_left _ _) (le_max_right _ _)) ?_
        refine (maxVersion_latest_le hnoted fun ch hch => ?_).trans (le_max_right _ _)
        obtain ⟨c, hc, rfl⟩ := List.mem_map.mp hch
        exact hends.largest c hc
      rcases le_or_gt cs.dbVersion s.version with hold | hnew
      · exact List.mem_append_left _ (h.covered m' hm' cs hcs hold)
      · refine List.mem_append_right _ (hcontains m' hm' cs hcs (by omega) ?_)
        exact (le_max_iff.mp hbound).resolve_left (not_le.mpr hnew)

/-- Every steady step keeps the cursor covered. -/
theorem steady_step (op : ReceiveOp) (h : s.Covering) (hok : s.Steady op) :
    (s.step op).Covering := by
  cases op with
  | opened => exact { h with }
  | expect => exact { h with }
  | establish =>
      rw [step]
      split
      · exact h
      · exact { h with }
  | attach =>
      rw [step]
      split
      · exact { h with }
      · exact h
  | serve db => exact h.serve db hok
  | drop i =>
      have hsub := (List.eraseIdx_sublist s.inFlight i).subset
      exact { h with inFlight := fun p hp => h.inFlight p (hsub hp) }
  | receive i => exact h.receive i
  | apply fault => exact h.apply fault hok
  | write stmts =>
      have htracked := transact_writes_trackedPeers h.settled.written stmts
      have hversion : (s.step (.write stmts)).version = s.version := by
        rw [version, version, step, htracked]
      exact { h with
        settled := settled_write h.settled stmts
        covered := fun m hm cs hcs hle => h.covered m hm cs hcs (hversion ▸ hle) }
  | close => exact { h with inFlight := nofun }

/-! ## Runs -/

/-- Every step of a run is correct exactly when the run handles no message; and after
every steady run the client has merged everything up to the tracked version. -/
theorem received_run {db : Db} (hdb : db.Settled) {remoteDbId : Blob}
    (hremote : remoteDbId ≠ []) (siteId : Blob) (ops : List ReceiveOp) :
    (Run.Allowed step Correct (init db remoteDbId siteId) ops ↔
      Run.Allowed step NotHandled (init db remoteDbId siteId) ops) ∧
    (Run.Allowed step Steady (init db remoteDbId siteId) ops →
      CursorSound (Run.exec step (init db remoteDbId siteId) ops)) :=
  ⟨Run.allowed_congr Untouched (fun _ op h => correct_iff_notHandled op h)
      (fun _ op h hok => untouched_step op h hok) (untouched_init hdb remoteDbId siteId),
    fun hops => (Run.invariant Covering (fun _ op h hok => steady_step op h hok)
      (covering_init hdb hremote siteId) hops).cursorSound⟩

end Steady

/-- A server in the examples, after one transaction for each of the first keys. -/
def fooServer (n : Nat) (h : (fooRowsDb siteA n).NoCaptures) : ReceiveOp :=
  .serve ⟨fooRowsDb siteA n, h⟩

/-- A client in the examples. -/
def fooReceive : ReceiveSync :=
  init (fooDb siteB) siteA siteB

/-- The run theorem applies to a run whose first transaction fails, is followed by a new
session, and then by two that are committed. -/
theorem received_run_foo :
    let ops := [.opened, .expect, .establish, .attach, fooServer 1 (by decide +kernel),
      .receive 0, .apply (some 0), .close, .opened, .expect, .establish, .attach,
      fooServer 2 (by decide +kernel), .receive 0, .apply none,
      fooServer 3 (by decide +kernel), .receive 0, .apply none]
    (Run.Allowed (@step integralSqlite) (@Correct integralSqlite) fooReceive ops ↔
      Run.Allowed (@step integralSqlite) NotHandled fooReceive ops) ∧
    CursorSound (Run.exec (@step integralSqlite) fooReceive ops) := by
  intro ops
  have h := @received_run integralSqlite (fooDb siteB)
    ⟨rfl, by decide, by decide⟩ siteA (by decide) siteB ops
  exact ⟨h.1, h.2 (by decide +kernel)⟩

/-- The transaction for the first message fails after the message was acknowledged; the
second one starts at the expected sequence, is committed and moves the tracked version
past the first one's changes. -/
theorem failed_changeset_is_passed :
    let ops := [.opened, .expect, .establish, .attach, fooServer 1 (by decide +kernel),
      .receive 0, .apply (some 0), fooServer 2 (by decide +kernel), .receive 0, .apply none]
    let s := Run.exec (@step integralSqlite) fooReceive ops
    versionOf siteA s.db.trackedPeers = some 2 ∧ s.acked = [0, 1] ∧ s.committed = [1] ∧
    s.merged.map (fun cs => (cs.pk, cs.dbVersion)) = [(['1'], 2)] ∧
    ¬ s.CursorSound ∧
    ¬ Run.Allowed (@step integralSqlite) (@Correct integralSqlite) fooReceive ops := by
  intro ops s
  have hversion : versionOf siteA s.db.trackedPeers = some 2 := by decide +kernel
  have hmerged : s.merged.map (fun cs => (cs.pk, cs.dbVersion)) = [(['1'], 2)] := by
    decide +kernel
  have hcarried : ∃ m ∈ s.carried, ∃ cs ∈ m.changes, cs.pk = ['0'] ∧ cs.dbVersion = 1 := by
    decide +kernel
  have hunsound : ¬ s.CursorSound := by
    obtain ⟨m, hm, cs, hcs, hpk, hcs1⟩ := hcarried
    intro hsound
    have hmem := List.mem_map_of_mem (f := fun cs => (cs.pk, cs.dbVersion))
      (hsound 2 hversion m hm cs hcs (by omega))
    rw [hmerged, List.mem_singleton, hpk] at hmem
    simp at hmem
  refine ⟨hversion, by decide +kernel, by decide +kernel, hmerged, hunsound, fun h => ?_⟩
  have hops : ops = ops.dropLast ++ [.apply none] := rfl
  rw [hops, Run.allowed_append] at h
  exact hunsound h.2.1.1.cursor

end ReceiveSync

end CrSqlite
