import CrSqlite.ChangeStream
import CrSqlite.DeltaSync

/-!
# SendCursor - what the client has sent to its server

The client's application and its stream share one connection.  Statements, pulls and
writes of the tracker wait in one queue, so a pull may see what an open transaction has
written, and a write of the tracker may be rolled back with it.  The stream resumes from
the tracked version in every session.

Main results:

- Theorem {lit}`pullLocal_follows`: what a pull of a committed state brings covers the
  state up to its last version.
- Theorem {lit}`sending_step`: steps whose pulls see only committed states, and whose
  transactions keep what was read for the server, keep the cursors good.
- Theorem {lit}`nothingSkipped_run`: after every run of such steps the tracked version
  and the stream's place skip no committed local change.
- Theorem {lit}`pull_inside_transaction_skips`: a pull between two statements of one
  transaction makes the stream skip what the second one writes.
-/

namespace CrSqlite

/-! ## Coverage of the local changes -/

/-- The entries whose change, as it is reported now, is among the given ones. -/
def Db.shippedIn [Sqlite] (db : Db) (changes : List Changeset) : Set (TableInfo × ClockEntry) :=
  { x | db.shippedForm x ∈ changes }

/-- A cursor is not above what a state has stored, and every local entry up to it is
reported with one of the changes. -/
structure Sends [Sqlite] (db : Db) (changes : List Changeset) (c : Seq) : Prop where
  le : c.1 ≤ db.maxDbVersion
  covered : Cursor.Covered (fun x => x.2.dbVersion) db.localEntries (db.shippedIn changes) c.1

/-- A later state has no smaller version, a local entry that it has up to the old largest
version is an old one, and what is reported of this entry stays as it is, if it is among
what was handed over. -/
def LocalKept [Sqlite] (db db' : Db) (handed : List Changeset) : Prop :=
  db.maxDbVersion ≤ db'.maxDbVersion ∧
    ∀ u ∈ db'.tables, ∀ e ∈ u.clock, e.siteId = none → e.dbVersion ≤ db.maxDbVersion →
      ∃ t ∈ db.tables, e ∈ t.clock ∧
        (db.shippedForm (t.info, e) ∈ handed →
          db'.shippedForm (u.info, e) = db.shippedForm (t.info, e))

instance [Sqlite] (db db' : Db) (handed : List Changeset) : Decidable (LocalKept db db' handed) :=
  inferInstanceAs (Decidable (_ ∧ ∀ u ∈ db'.tables, ∀ e ∈ u.clock, _ → _ → ∃ t ∈ db.tables, _))

section Sends

variable [Sqlite] {db db' : Db} {changes changes' handed : List Changeset} {c : Seq}

theorem Sends.mono (h : Sends db changes c) (hchanges : changes ⊆ changes') :
    Sends db changes' c :=
  ⟨h.le, fun x hx hle => hchanges (h.covered x hx hle)⟩

/-- The cursor 0 needs no changes. -/
theorem Sends.zero (hdb : db.Committed) : Sends db changes (0, 0) := by
  refine ⟨hdb.maxDbVersion_nonneg, ?_⟩
  rintro ⟨info, e⟩ ⟨t, ht, -, he, -⟩ hle
  exact absurd hle (not_le.mpr (hdb.pos t ht e he))

/-- A state that keeps what was handed over leaves the cursor good. -/
theorem Sends.keep (h : Sends db changes c) (hkept : LocalKept db db' handed)
    (hsub : changes ⊆ handed) : Sends db' changes c := by
  refine ⟨h.le.trans hkept.1, h.covered.rewrite ?_⟩
  rintro ⟨info, e⟩ ⟨u, hu, rfl, he, hsite⟩
  rcases lt_or_ge db.maxDbVersion e.dbVersion with hlt | hle
  · exact Or.inl (h.le.trans_lt hlt)
  · obtain ⟨t, ht, het, hform⟩ := hkept.2 u hu e he hsite hle
    refine Or.inr ⟨(t.info, e), ⟨t, ht, rfl, het, hsite⟩, rfl, fun hseen => ?_⟩
    have hsame := hform (hsub hseen)
    exact (congrArg (· ∈ changes) hsame).mpr hseen

/-- The end of a transaction of statements keeps what was handed over, if it changes no
report of an entry that it does not write. -/
theorem LocalKept.of_transaction (hdb : db.Committed) (htx : InTransaction db db')
    (hforms : FormsKept Db.shippedForm db db'.commit handed) : LocalKept db db'.commit handed := by
  refine ⟨(htx.maxDbVersion_le hdb).trans_eq (maxDbVersion_congr (commit_tables db')).symm, ?_⟩
  intro u hu e he _ hle
  rcases htx.fresh u (commit_tables db' ▸ hu) e he with ⟨t, ht, heq, het⟩ | ⟨hlt, -⟩
  · have hinfo : t.info = u.info := congrArg CrrSchema.info heq
    refine ⟨t, ht, het, fun hform => ?_⟩
    rw [← hinfo]
    exact hforms t ht e het hform u hu hinfo.symm he
  · exact absurd hlt (not_lt.mpr hle)

/-- A rollback keeps everything. -/
theorem LocalKept.of_rollback (db' : Db) : LocalKept db (Db.rollback db db') handed :=
  ⟨le_rfl, fun u hu _ he _ _ => ⟨u, hu, he, fun _ => rfl⟩⟩

/-- What a pull of a committed state brings covers the state up to its last
version. -/
theorem pullLocal_follows (hcap : db.NoCaptures) (h : Sends db changes c)
    {pulled : List Changeset} (hpull : db.pullLocal c = some pulled) {last : Changeset}
    (hlast : pulled.getLast? = some last) :
    Sends db (changes ++ pulled) (last.dbVersion, 0) := by
  refine ⟨?_, .of_subset ?_ _⟩
  · obtain ⟨x, ⟨t, ht, -, he, -⟩, -, heq⟩ :=
      (mem_pullLocal hcap hpull).mp (List.mem_of_getLast? hlast)
    rw [← heq]
    exact le_maxDbVersion ht he
  · refine h.covered.pull (fun x hx => List.mem_append_left _ hx) fun x hx hlt => ?_
    exact List.mem_append_right _ ((mem_pullLocal hcap hpull).mpr ⟨x, hx, hlt, rfl⟩)

end Sends

/-! ## The connection of the client -/

/-- The client's side of the synchronization with its server and what the server makes
of it.  The stream works on the connection's view of the database; `stored` and
`storedSend` are what is left after a rollback, `altered` says that the open transaction
has changed the schema. -/
structure SendSync where
  stored : Db
  inTx : Bool
  wrote : Bool
  altered : Bool
  send : Seq
  storedSend : Seq
  stream : ClientStream
  loading : Option Seq
  tracking : List Seq
  acks : List Seq
  expectedSeq : Option Seq
  taken : Nat
  refused : Bool
  late : List ReceiveMsg
  merged : List Changeset

/-- What the application, the stream, the server and the network do.  `alter` is a
statement that declares, changes or drops tables, with their clock tables as the
extension leaves them; `deliver false` is a message whose changes the server fails to
apply. -/
inductive SendOp where
  | begin
  | stmt (s : Stmt)
  | alter (tables : List CrrTable)
  | commit
  | rollback
  | event
  | fetch (i : Nat)
  | resume (i : Nat)
  | deliver (applied : Bool)
  | deliverLate (i : Nat)
  | ack
  | track
  | tracked
  | stop
  | start (siteId : Blob)
  | load
  | loaded

namespace SendSync

/-- A client whose first session starts; the server is not tracked. -/
def init (db : Db) (siteId : Blob) : SendSync where
  stored := db
  inTx := false
  wrote := false
  altered := false
  send := (0, 0)
  storedSend := (0, 0)
  stream := .start db siteId
  loading := none
  tracking := []
  acks := []
  expectedSeq := none
  taken := 0
  refused := false
  late := []
  merged := []

/-- A transaction has ended in the given state. -/
def ended (s : SendSync) (db : Db) (send : Seq) : SendSync :=
  { s with
    stored := db
    inTx := false
    wrote := false
    altered := false
    send := send
    storedSend := send
    stream := { s.stream with db := db } }

/-- A statement inside the open transaction, or in one of its own. -/
def exec [Sqlite] (s : SendSync) (st : Stmt) : SendSync :=
  let db := s.stream.db.exec st
  if s.inTx then { s with wrote := true, stream := { s.stream with db := db } }
  else s.ended db.commit s.send

/-- A change of the schema inside the open transaction, or in one of its own. -/
def alter (s : SendSync) (tables : List CrrTable) : SendSync :=
  let db := { s.stream.db with tables := tables }
  if s.inTx then { s with wrote := true, altered := true, stream := { s.stream with db := db } }
  else s.ended db.commit s.send

/-- The server takes the next message of the session: it refuses a message that starts
above the end of the last one, and one whose changes cannot be applied. -/
def deliver (s : SendSync) (applied : Bool) : SendSync :=
  match s.stream.sent[s.taken]? with
  | none => s
  | some ⟨m, _⟩ =>
      if s.refused then s
      else if (∃ expected ∈ s.expectedSeq, expected.1 < m.seqStart.1) ∨ applied = false then
        { s with refused := true }
      else
        { s with
          merged := s.merged ++ m.changes
          expectedSeq := some m.seqEnd
          taken := s.taken + 1
          acks := s.acks ++ [m.seqEnd] }

/-- The server takes a message of a session that is over for the client. -/
def deliverLate (s : SendSync) (i : Nat) : SendSync :=
  match s.late[i]? with
  | none => s
  | some m => { s with merged := s.merged ++ m.changes, late := s.late.eraseIdx i }

/-- The client gets an acknowledgement, up to the write of the tracker. -/
def ack (s : SendSync) : SendSync :=
  match s.acks with
  | [] => s
  | seqEnd :: acks =>
      { s with acks := acks, tracking := s.tracking ++ [seqEnd], stream := s.stream.processAck }

/-- `updatePeerTracker` for SEND: the larger version and the new sequence number. -/
def track (s : SendSync) : SendSync :=
  match s.tracking with
  | [] => s
  | seqEnd :: tracking =>
      let send := (max s.send.1 seqEnd.1, seqEnd.2)
      { s with
        tracking := tracking
        send := send
        storedSend := if s.inTx then s.storedSend else send }

/-- The socket closes: what is on the way may still reach the server, but nothing
reaches the client. -/
def stop (s : SendSync) : SendSync :=
  { s with
    stream := { s.stream with started := false, closed := true }
    acks := []
    late := if s.refused then s.late else s.late ++ (s.stream.sent.drop s.taken).map Sent.msg
    refused := true }

/-- A new session of a stopped client. -/
def start (s : SendSync) (siteId : Blob) : SendSync :=
  if s.stream.started then s
  else
    { s with
      stream := .start s.stream.db siteId
      loading := none
      expectedSeq := none
      taken := 0
      refused := false }

/-- One step. -/
def step [Sqlite] (s : SendSync) : SendOp → SendSync
  | .begin => { s with inTx := true }
  | .stmt st => s.exec st
  | .alter tables => s.alter tables
  | .commit => if s.inTx then s.ended s.stream.db.commit s.send else s
  | .rollback =>
      if s.inTx then s.ended (Db.rollback s.stored s.stream.db) s.storedSend else s
  | .event => { s with stream := s.stream.localDbChanged }
  | .fetch i => { s with stream := s.stream.fetch i }
  | .resume i => { s with stream := s.stream.resume i }
  | .deliver applied => s.deliver applied
  | .deliverLate i => s.deliverLate i
  | .ack => s.ack
  | .track => s.track
  | .tracked => { s with stream := s.stream.tracked }
  | .stop => s.stop
  | .start siteId => s.start siteId
  | .load => { s with loading := some s.send }
  | .loaded =>
      match s.loading with
      | none => s
      | some lastSeq => { s with loading := none, stream := s.stream.loaded lastSeq }

/-- The changes of messages. -/
def changesOf (sent : List Sent) : List Changeset :=
  sent.flatMap fun m => m.msg.changes

/-- The server has merged every committed local change, as it is reported now, up to the
tracked version, and what it has not merged up to the stream's place was sent. -/
structure NothingSkipped [Sqlite] (s : SendSync) : Prop where
  tracked : ∀ x ∈ s.stored.localEntries, x.2.dbVersion ≤ s.send.1 →
    s.stored.shippedForm x ∈ s.merged
  stored : ∀ x ∈ s.stored.localEntries, x.2.dbVersion ≤ s.storedSend.1 →
    s.stored.shippedForm x ∈ s.merged
  sent : ∀ x ∈ s.stored.localEntries, x.2.dbVersion ≤ s.stream.lastSeq.1 →
    s.stored.shippedForm x ∈ s.merged ++ changesOf s.stream.sent

/-- The changes that pulls have read and not sent yet. -/
def pulled (s : SendSync) : List Changeset :=
  s.stream.pulls.flatMap fun p => p.result.join.getD []

/-- The changes that were read for the server. -/
def handed (s : SendSync) : List Changeset :=
  s.merged ++ (changesOf s.stream.sent ++ s.pulled)

/-- A transaction of statements may end in the given state: versions stay below the largest
integer, and no report that was handed over changes unless its entry is written. -/
def EndsWell [Sqlite] (s : SendSync) (db : Db) : Prop :=
  db.BelowMax ∧ FormsKept Db.shippedForm s.stored db s.handed

/-- A transaction that has changed the schema may end in the given state. -/
def AltersWell [Sqlite] (s : SendSync) (db : Db) : Prop :=
  db.Committed ∧ db.NoCaptures ∧ LocalKept s.stored db s.handed

instance [Sqlite] (s : SendSync) (db : Db) : Decidable (s.EndsWell db) :=
  inferInstanceAs (Decidable (_ ∧ _))

instance [Sqlite] (s : SendSync) (db : Db) : Decidable (s.AltersWell db) :=
  inferInstanceAs (Decidable (_ ∧ _ ∧ _))

/-- No query of a pull is executed while a transaction is open that has executed a
statement, transactions end well, and none that has changed the schema is rolled back. -/
def KeepsPlaces [Sqlite] (s : SendSync) : SendOp → Prop
  | .stmt st => s.inTx = true ∨ s.EndsWell (s.stream.db.exec st).commit
  | .alter tables =>
      s.inTx = true ∨ s.AltersWell (Db.commit { s.stream.db with tables := tables })
  | .commit =>
      s.inTx = false ∨
        if s.altered then s.AltersWell s.stream.db.commit else s.EndsWell s.stream.db.commit
  | .rollback => s.altered = false
  | .fetch _ => s.wrote = false
  | _ => True

instance [Sqlite] (s : SendSync) (op : SendOp) : Decidable (s.KeepsPlaces op) :=
  match op with
  | .stmt _ | .alter _ | .commit => inferInstanceAs (Decidable (_ ∨ _))
  | .rollback | .fetch _ => inferInstanceAs (Decidable (_ = false))
  | .begin | .event | .resume _ | .deliver _ | .deliverLate _ | .ack | .track
  | .tracked | .stop | .start _ | .load | .loaded => inferInstanceAs (Decidable True)

/-! ## What holds between two steps -/

/-- Every place that a session works with is known to be good, in terms of the changes
beyond the merged ones. -/
structure Marks (K : List Changeset → Seq → Prop) (s : SendSync) : Prop where
  send : K [] s.send
  storedSend : K [] s.storedSend
  loading : ∀ c, s.loading = some c → K [] c
  tracking : ∀ c ∈ s.tracking, K [] c
  acks : ∀ c ∈ s.acks, K [] c
  lastSeq : K (changesOf s.stream.sent) s.stream.lastSeq
  sent : ∀ k m, s.stream.sent[k]? = some m →
    K (changesOf (s.stream.sent.take (k + 1))) m.msg.seqEnd
  startSeq : ∀ p ∈ s.stream.pulls, K (changesOf s.stream.sent) p.startSeq
  result : ∀ p ∈ s.stream.pulls, ∀ changes, p.result = some (some changes) →
    ∀ last, changes.getLast? = some last →
      K (changesOf s.stream.sent ++ changes) (last.dbVersion, 0)

/-- The marks stay good when more is known of changes that were handed over. -/
theorem Marks.imp {K K' : List Changeset → Seq → Prop} {s : SendSync} (h : Marks K s)
    (hK : ∀ cs c, cs ⊆ changesOf s.stream.sent ++ s.pulled → K cs c → K' cs c) :
    Marks K' s where
  send := hK _ _ (List.nil_subset _) h.send
  storedSend := hK _ _ (List.nil_subset _) h.storedSend
  loading c hc := hK _ _ (List.nil_subset _) (h.loading c hc)
  tracking c hc := hK _ _ (List.nil_subset _) (h.tracking c hc)
  acks c hc := hK _ _ (List.nil_subset _) (h.acks c hc)
  lastSeq := hK _ _ (List.subset_append_left _ _) h.lastSeq
  sent k m hm := by
    refine hK _ _ (fun cs hcs => List.mem_append_left _ ?_) (h.sent k m hm)
    obtain ⟨x, hx, hmem⟩ := List.mem_flatMap.mp hcs
    exact List.mem_flatMap.mpr ⟨x, List.mem_of_mem_take hx, hmem⟩
  startSeq p hp := hK _ _ (List.subset_append_left _ _) (h.startSeq p hp)
  result p hp changes hchanges last hlast := by
    refine hK _ _ (List.append_subset.mpr ⟨List.subset_append_left _ _, fun cs hcs => ?_⟩)
      (h.result p hp changes hchanges last hlast)
    refine List.mem_append_right _ (List.mem_flatMap.mpr ⟨p, hp, ?_⟩)
    rw [hchanges]
    exact hcs

/-- The merged changes and the given ones are what is reported of every committed local
entry up to the cursor. -/
def Knows [Sqlite] (s : SendSync) (cs : List Changeset) (c : Seq) : Prop :=
  Sends s.stored (s.merged ++ cs) c

/-- The connection is inside a transaction that began in a committed state, the stream's
places are good, and the server has merged the messages it took. -/
structure Sending [Sqlite] (s : SendSync) : Prop where
  committed : s.stored.Committed
  noCapture : s.stored.NoCaptures
  inside : s.altered = false → InTransaction s.stored s.stream.db
  unwritten : s.wrote = false → s.stream.db = s.stored
  unaltered : s.wrote = false → s.altered = false
  outside : s.inTx = false → s.wrote = false
  taken : s.taken ≤ s.stream.sent.length
  merges : ∀ m ∈ s.stream.sent.take s.taken, m.msg.changes ⊆ s.merged
  marks : Marks s.Knows s

section Steps

variable [Sqlite] {s : SendSync}

/-- More changes let the cursor know no less. -/
theorem Knows.mono {cs cs' : List Changeset} {c : Seq} (h : s.Knows cs c) (hcs : cs ⊆ cs') :
    s.Knows cs' c :=
  Sends.mono h (List.append_subset.mpr
    ⟨List.subset_append_left _ _, List.subset_append_of_subset_right _ hcs⟩)

/-- What is sent and known up to a cursor is not skipped. -/
theorem Sending.nothingSkipped (h : Sending s) : NothingSkipped s where
  tracked x hx hle := by
    have hseen := h.marks.send.covered x hx hle
    rw [List.append_nil] at hseen
    exact hseen
  stored x hx hle := by
    have hseen := h.marks.storedSend.covered x hx hle
    rw [List.append_nil] at hseen
    exact hseen
  sent x hx hle := h.marks.lastSeq.covered x hx hle

/-- A client that has tracked nothing. -/
theorem sending_init {db : Db} (hdb : db.Committed) (hcap : db.NoCaptures) (siteId : Blob) :
    Sending (init db siteId) where
  committed := hdb
  noCapture := hcap
  inside _ := .refl hdb
  unwritten _ := rfl
  unaltered _ := rfl
  outside _ := rfl
  taken := le_rfl
  merges := by simp [init]
  marks :=
    { send := .zero hdb
      storedSend := .zero hdb
      loading := nofun
      tracking := nofun
      acks := nofun
      lastSeq := .zero hdb
      sent := by simp [init, ClientStream.start]
      startSeq := by simp [init, ClientStream.start]
      result := by simp [init, ClientStream.start] }

/-! ## The end of a transaction -/

/-- The end of a transaction, with what it stores. -/
private theorem Sending.ended (h : Sending s) {db : Db} {send : Seq} (hdb : db.Committed)
    (hcap : db.NoCaptures) (hsend : s.Knows [] send) (hkept : LocalKept s.stored db s.handed) :
    Sending (s.ended db send) := by
  have hknows : ∀ cs c, cs ⊆ changesOf s.stream.sent ++ s.pulled → s.Knows cs c →
      (s.ended db send).Knows cs c := fun cs c hcs hc =>
    hc.keep hkept (List.append_subset.mpr
      ⟨List.subset_append_left _ _, List.subset_append_of_subset_right _ hcs⟩)
  have hmarks := h.marks.imp hknows
  have hnew := hknows [] send (List.nil_subset _) hsend
  exact
    { committed := hdb
      noCapture := hcap
      inside := fun _ => .refl hdb
      unwritten := fun _ => rfl
      unaltered := fun _ => rfl
      outside := fun _ => rfl
      taken := h.taken
      merges := h.merges
      marks := { hmarks with send := hnew, storedSend := hnew } }

/-- A transaction of statements ends. -/
private theorem Sending.commit (h : Sending s) {db : Db} (htx : InTransaction s.stored db)
    (hend : s.EndsWell db.commit) : Sending (s.ended db.commit s.send) := by
  refine h.ended (htx.committed_commit h.committed hend.1) ?_ h.marks.send
    (.of_transaction h.committed htx hend.2)
  refine noCaptures_of_schemas ?_ h.noCapture
  rw [commit_tables]
  exact htx.schemas

/-- A transaction with a change of the schema ends. -/
private theorem Sending.commit_altered (h : Sending s) {db : Db} (hend : s.AltersWell db) :
    Sending (s.ended db s.send) :=
  h.ended hend.1 hend.2.1 h.marks.send hend.2.2

private theorem Sending.rollback (h : Sending s) :
    Sending (s.ended (Db.rollback s.stored s.stream.db) s.storedSend) :=
  h.ended (committed_rollback h.committed _) h.noCapture h.marks.storedSend (.of_rollback _)

/-- A statement that keeps what was read. -/
private theorem Sending.exec (h : Sending s) (st : Stmt) (hok : s.KeepsPlaces (.stmt st)) :
    Sending (s.exec st) := by
  unfold SendSync.exec
  dsimp only
  split
  · rename_i hin
    exact { h with
      inside := fun halt => inTransaction_exec h.committed (h.inside halt) st
      unwritten := nofun
      unaltered := nofun
      outside := fun hout => absurd hout (by simp [hin])
      marks := { h.marks with } }
  · rename_i hout
    have htx := h.inside (h.unaltered (h.outside (Bool.eq_false_of_not_eq_true hout)))
    exact h.commit (inTransaction_exec h.committed htx st) (hok.resolve_left hout)

/-- A schema change that keeps what was read. -/
private theorem Sending.alter (h : Sending s) (tables : List CrrTable)
    (hok : s.KeepsPlaces (.alter tables)) : Sending (s.alter tables) := by
  unfold SendSync.alter
  dsimp only
  split
  · rename_i hin
    exact { h with
      inside := nofun
      unwritten := nofun
      unaltered := nofun
      outside := fun hout => absurd hout (by simp [hin])
      marks := { h.marks with } }
  · rename_i hout
    exact h.commit_altered (hok.resolve_left hout)

/-! ## The stream -/

/-- An event changes neither the database nor what was sent. -/
private theorem Sending.localDbChanged (h : Sending s) :
    Sending { s with stream := s.stream.localDbChanged } := by
  rcases s.stream.localDbChanged_cases with ⟨-, heq⟩ | ⟨-, -, heq⟩
  · rw [heq]
    exact h
  · rw [heq]
    refine { h with marks := { h.marks with startSeq := fun p hp => ?_, result := fun p hp => ?_ } }
    · rcases List.mem_append.mp hp with hold | hnew
      · exact h.marks.startSeq p hold
      · rw [List.mem_singleton.mp hnew]
        exact h.marks.lastSeq
    · rcases List.mem_append.mp hp with hold | hnew
      · exact h.marks.result p hold
      · rw [List.mem_singleton.mp hnew]
        nofun

/-- A query outside of a written transaction reads all that is stored behind the cursor. -/
private theorem Sending.fetch (h : Sending s) (hwrote : s.wrote = false) (i : Nat) :
    Sending { s with stream := s.stream.fetch i } := by
  refine { h with marks := { h.marks with startSeq := fun p hp => ?_, result := fun p hp => ?_ } }
  · obtain ⟨q, hq, rfl | rfl⟩ := ClientStream.mem_fetch_pulls hp
    · exact h.marks.startSeq p hq
    · exact h.marks.startSeq q hq
  · obtain ⟨q, hq, rfl | rfl⟩ := ClientStream.mem_fetch_pulls hp
    · exact h.marks.result p hq
    · intro changes hchanges last hlast
      rw [h.unwritten hwrote] at hchanges
      have hfollows := pullLocal_follows h.noCapture (h.marks.startSeq q hq)
        (Option.some.inj hchanges) hlast
      rw [List.append_assoc] at hfollows
      exact hfollows

omit [Sqlite] in
theorem changesOf_append (sent : List Sent) (m : Sent) :
    changesOf (sent ++ [m]) = changesOf sent ++ m.msg.changes := by
  simp [changesOf]

/-- A run of the handler goes on behind its pull and sends a message. -/
private theorem Sending.send (h : Sending s) {p : ClientPull} (hp : p ∈ s.stream.pulls)
    {pulls : List ClientPull} (hpulls : pulls ⊆ s.stream.pulls) {changes : List Changeset}
    (hresult : p.result = some (some changes)) {m : ReceiveMsg}
    (hship : shipped s.stream.siteId p.startSeq changes = some m) :
    Sending { s with stream := ClientStream.sending { s.stream with pulls := pulls } m } := by
  obtain ⟨-, hchanges, last, -, hlast, hend⟩ := shipped_eq hship
  let new : Sent := ⟨m, s.stream.outstandingAcks⟩
  have hm := h.marks.result p hp changes hresult last hlast
  rw [← hend, ← hchanges] at hm
  have hsent : changesOf (s.stream.sent ++ [new]) = changesOf s.stream.sent ++ m.changes :=
    changesOf_append _ _
  have hnew : s.Knows (changesOf (s.stream.sent ++ [new])) m.seqEnd := by
    rw [hsent]
    exact hm
  have hgrow : changesOf s.stream.sent ⊆ changesOf (s.stream.sent ++ [new]) := by
    rw [hsent]
    exact List.subset_append_left _ _
  have hresults : ∀ q ∈ pulls, ∀ cs, q.result = some (some cs) →
      ∀ l, cs.getLast? = some l →
        s.Knows (changesOf (s.stream.sent ++ [new]) ++ cs) (l.dbVersion, 0) :=
    fun q hq cs hcs l hl => (h.marks.result q (hpulls hq) cs hcs l hl).mono
      (List.append_subset.mpr
        ⟨List.subset_append_of_subset_left _ hgrow, List.subset_append_right _ _⟩)
  have hends : ∀ k x, (s.stream.sent ++ [new])[k]? = some x →
      s.Knows (changesOf ((s.stream.sent ++ [new]).take (k + 1))) x.msg.seqEnd := by
    intro k x hx
    rcases Nat.lt_or_ge k s.stream.sent.length with hlt | hge
    · rw [List.getElem?_append_left hlt] at hx
      rw [List.take_append_of_le_length (by omega)]
      exact h.marks.sent k x hx
    · rw [List.getElem?_append_right hge, List.getElem?_singleton] at hx
      rw [List.take_of_length_le (by simp; omega)]
      split at hx
      · rw [← Option.some.inj hx]
        exact hnew
      · simp at hx
  exact { h with
    taken := by
      simp only [ClientStream.sending, List.length_append]
      exact h.taken.trans (by omega)
    merges := by
      simp only [ClientStream.sending, List.take_append_of_le_length h.taken]
      exact h.merges
    marks := { h.marks with
      lastSeq := hnew
      sent := hends
      startSeq := fun q hq => (h.marks.startSeq q (hpulls hq)).mono hgrow
      result := hresults } }

/-- A run that goes on sends what its query has read, and moves the cursor to its end. -/
private theorem Sending.resume (h : Sending s) (i : Nat) :
    Sending { s with stream := s.stream.resume i } := by
  rcases s.stream.resume_cases i with heq | ⟨startSeq, result, hpull, heq | ⟨changes, m, hresult,
    hship, heq⟩⟩
  · rw [heq]
    exact h
  all_goals
    have hsub : s.stream.pulls.eraseIdx i ⊆ s.stream.pulls :=
      (List.eraseIdx_sublist s.stream.pulls i).subset
    rw [heq]
  · exact { h with
      marks := { h.marks with
        startSeq := fun p hp => h.marks.startSeq p (hsub hp)
        result := fun p hp => h.marks.result p (hsub hp) } }
  · exact h.send (List.mem_of_getElem? hpull) hsub (by rw [hresult]) hship

/-- The stream starts from the version that was loaded. -/
private theorem Sending.loaded (h : Sending s) {lastSeq : Seq} (hload : s.loading = some lastSeq) :
    Sending { s with loading := none, stream := s.stream.loaded lastSeq } := by
  have hlast : s.Knows (changesOf s.stream.sent) lastSeq :=
    (h.marks.loading lastSeq hload).mono (List.nil_subset _)
  rw [ClientStream.loaded]
  split_ifs
  · exact { h with marks := { h.marks with loading := nofun } }
  · exact { h with marks := { h.marks with loading := nofun, lastSeq := hlast } }
  · exact { h with marks := { h.marks with loading := nofun, lastSeq := hlast } }

/-! ## The server and the network -/

/-- More changes are merged. -/
private theorem Sending.merge (h : Sending s) (changes : List Changeset) :
    Sending { s with merged := s.merged ++ changes } := by
  have hmono : s.merged ⊆ s.merged ++ changes := List.subset_append_left _ _
  have hknows : ∀ cs c, cs ⊆ changesOf s.stream.sent ++ s.pulled → s.Knows cs c →
      Sends s.stored (s.merged ++ changes ++ cs) c := by
    refine fun cs c _ hc => Sends.mono hc (List.append_subset.mpr ⟨?_, ?_⟩)
    · exact List.subset_append_of_subset_left _ hmono
    · exact List.subset_append_right _ _
  exact { h with
    merges := fun m hm => List.Subset.trans (h.merges m hm) hmono
    marks := { h.marks.imp hknows with } }

/-- The server has merged the message it takes and those before it. -/
private theorem Sending.deliver (h : Sending s) (applied : Bool) : Sending (s.deliver applied) := by
  unfold SendSync.deliver
  split
  · exact h
  · rename_i m unacked hnext
    split
    · exact h
    · split
      · exact { h with marks := { h.marks with } }
      · have hlt : s.taken < s.stream.sent.length := (List.getElem?_eq_some_iff.mp hnext).1
        have htake : s.stream.sent.take (s.taken + 1) =
            s.stream.sent.take s.taken ++ [⟨m, unacked⟩] := by
          rw [List.take_add_one, hnext]
          rfl
        have hmerge := h.merge m.changes
        have hmerges : ∀ x ∈ s.stream.sent.take (s.taken + 1),
            x.msg.changes ⊆ s.merged ++ m.changes := by
          intro x hx
          rw [htake] at hx
          rcases List.mem_append.mp hx with hold | hnew
          · exact hmerge.merges x hold
          · rw [List.mem_singleton.mp hnew]
            exact List.subset_append_right _ _
        have hend : Sends s.stored (s.merged ++ m.changes ++ []) m.seqEnd := by
          refine Sends.mono (h.marks.sent s.taken _ hnext) ?_
          rw [List.append_nil]
          refine List.append_subset.mpr ⟨List.subset_append_left _ _, ?_⟩
          intro cs hcs
          obtain ⟨x, hx, hmem⟩ := List.mem_flatMap.mp hcs
          exact hmerges x hx hmem
        refine { hmerge with
          taken := hlt
          merges := hmerges
          marks := { hmerge.marks with acks := fun c hc => ?_ } }
        rcases List.mem_append.mp hc with hold | hnew
        · exact hmerge.marks.acks c hold
        · rw [List.mem_singleton.mp hnew]
          exact hend

/-- A message that comes late was sent before. -/
private theorem Sending.deliverLate (h : Sending s) (i : Nat) : Sending (s.deliverLate i) := by
  unfold SendSync.deliverLate
  split
  · exact h
  · rename_i m hm
    have hmerge := h.merge m.changes
    exact { hmerge with marks := { hmerge.marks with } }

/-- An ack tracks a version whose changes were merged. -/
private theorem Sending.ack (h : Sending s) : Sending s.ack := by
  unfold SendSync.ack
  split
  · exact h
  · rename_i seqEnd acks hacks
    have hmem : ∀ c ∈ seqEnd :: acks, s.Knows [] c := hacks ▸ h.marks.acks
    refine { h with marks := { h.marks with tracking := fun c hc => ?_, acks := fun c hc => ?_ } }
    · rcases List.mem_append.mp hc with hold | hnew
      · exact h.marks.tracking c hold
      · rw [List.mem_singleton.mp hnew]
        exact hmem seqEnd (List.mem_cons_self ..)
    · exact hmem c (List.mem_cons_of_mem _ hc)

/-- The tracker takes the larger of two good versions. -/
private theorem Sending.track (h : Sending s) : Sending s.track := by
  unfold SendSync.track
  split
  · exact h
  · rename_i seqEnd tracking htracking
    have hmem : ∀ c ∈ seqEnd :: tracking, s.Knows [] c := htracking ▸ h.marks.tracking
    have hmax : s.Knows [] (max s.send.1 seqEnd.1, seqEnd.2) := by
      rcases le_total s.send.1 seqEnd.1 with hle | hle
      · rw [max_eq_right hle]
        exact hmem seqEnd (List.mem_cons_self ..)
      · rw [max_eq_left hle]
        exact ⟨h.marks.send.le, h.marks.send.covered⟩
    refine { h with marks := { h.marks with send := hmax, storedSend := ?_, tracking := ?_ } }
    · dsimp only
      split
      · exact h.marks.storedSend
      · exact hmax
    · exact fun c hc => hmem c (List.mem_cons_of_mem _ hc)

/-- A new session starts from the version tracked. -/
private theorem Sending.start (h : Sending s) (siteId : Blob) : Sending (s.start siteId) := by
  unfold SendSync.start
  split
  · exact h
  · exact { h with
      taken := le_rfl
      merges := by simp
      marks := { h.marks with
        loading := nofun
        lastSeq := .zero h.committed
        sent := by simp [ClientStream.start]
        startSeq := by simp [ClientStream.start]
        result := by simp [ClientStream.start] } }

/-! ## Runs -/

/-- Every step whose pull sees a committed state keeps the places good. -/
theorem sending_step (op : SendOp) (h : Sending s) (hok : s.KeepsPlaces op) :
    Sending (s.step op) := by
  cases op with
  | begin => exact { h with outside := nofun, marks := { h.marks with } }
  | stmt st => exact h.exec st hok
  | alter tables => exact h.alter tables hok
  | commit =>
      rw [step]
      split
      · rename_i hin
        have hend := hok.resolve_left (by simp [hin])
        split at hend
        · exact h.commit_altered hend
        · rename_i halt
          exact h.commit (h.inside (Bool.eq_false_of_not_eq_true halt)) hend
      · exact h
  | rollback =>
      rw [step]
      split
      · exact h.rollback
      · exact h
  | event => exact h.localDbChanged
  | fetch i => exact h.fetch hok i
  | resume i => exact h.resume i
  | deliver applied => exact h.deliver applied
  | deliverLate i => exact h.deliverLate i
  | ack => exact h.ack
  | track => exact h.track
  | tracked =>
      rw [step, ClientStream.tracked]
      split
      · exact h.localDbChanged
      · exact h
  | stop => exact { h with marks := { h.marks with acks := nofun } }
  | start siteId => exact h.start siteId
  | load =>
      exact { h with marks := { h.marks with
        loading := fun c hc => Option.some.inj hc ▸ h.marks.send } }
  | loaded =>
      rw [step]
      split
      · exact h
      · rename_i lastSeq hload
        exact h.loaded hload

/-- After every run whose pulls see committed states only, nothing is skipped. -/
theorem nothingSkipped_run {db : Db} (hdb : db.Committed) (hcap : db.NoCaptures)
    (siteId : Blob) {ops : List SendOp}
    (hops : Run.Allowed step KeepsPlaces (init db siteId) ops) :
    NothingSkipped (Run.exec step (init db siteId) ops) :=
  (Run.invariant Sending (fun _ op h hok => sending_step op h hok)
    (sending_init hdb hcap siteId) hops).nothingSkipped

end Steps

/-- The start of a client's session at an empty table `foo`. -/
def fooSend : SendSync :=
  init (fooDb siteA) siteB

/-- The insertion of a row with the given key. -/
def insertFoo (key : Int) : SendOp :=
  .stmt (.write ['f', 'o', 'o'] (.insert (fooRow key 2)))

/-- The declaration of a second table. -/
def barInfo : TableInfo :=
  { fooSchema.info with tblName := ['b', 'a', 'r'] }

/-- The second table while it is empty. -/
def barTable : CrrTable :=
  ⟨{ fooSchema with
    info := barInfo
    pks_ne_nil := by decide }, [], []⟩

/-- The run theorem applies to a run with a committed and a rolled back transaction, a
pull between them, a message that the server fails to apply, a transaction that declares
a table and writes, and a second session. -/
theorem nothingSkipped_run_foo :
    let before : List SendOp :=
      [.load, .loaded, .begin, insertFoo 1, .event, insertFoo 2, .commit, .fetch 0, .resume 0,
        .deliver true, .ack, .begin, .track, insertFoo 3, .rollback, insertFoo 4, .event,
        .fetch 0, .resume 0, .deliver false]
    let wider := (Run.exec (@step integralSqlite) fooSend before).stored.tables ++ [barTable]
    @NothingSkipped integralSqlite (Run.exec (@step integralSqlite) fooSend
      (before ++ [.begin, .alter wider, insertFoo 5, .commit, .stop, .start siteB, .load,
        .loaded, .event, .fetch 0, .resume 0, .deliver true, .ack, .track])) :=
  @nothingSkipped_run integralSqlite (fooDb siteA)
    ⟨rfl, by decide, by decide, by decide, by decide⟩ (by decide) siteB _ (by decide +kernel)

/-- A pull between two statements of one transaction gets the first one's change, whose
version the second one's change shares: the tracked version reaches it, and the second
change is never sent. -/
theorem pull_inside_transaction_skips :
    let s := Run.exec (@step integralSqlite) fooSend
      [.load, .loaded, .begin, insertFoo 1, .event, .fetch 0, insertFoo 2, .commit, .resume 0,
        .deliver true, .ack, .track, .event, .fetch 0, .resume 0]
    s.send = (1, 0) ∧ s.stream.lastSeq = (1, 0) ∧
    s.merged.map (fun cs => (cs.pk, cs.dbVersion)) = [(['1'], 1)] ∧
    ¬ @NothingSkipped integralSqlite s := by
  intro s
  have hsend : s.send = (1, 0) := by decide +kernel
  have hmerged : s.merged.map (fun cs => (cs.pk, cs.dbVersion)) = [(['1'], 1)] := by
    decide +kernel
  have hentry : ∃ t ∈ s.stored.tables, ∃ e ∈ t.clock,
      e = ⟨[.integer 2], ['b'], 1, 1, none⟩ := by decide +kernel
  refine ⟨hsend, by decide +kernel, hmerged, fun h => ?_⟩
  obtain ⟨t, ht, e, he, rfl⟩ := hentry
  have hshipped :=
    @NothingSkipped.tracked integralSqlite _ h (t.info, _) ⟨t, ht, rfl, he, rfl⟩ (by rw [hsend])
  have hmem := List.mem_map_of_mem (f := fun cs => (cs.pk, cs.dbVersion)) hshipped
  rw [hmerged, List.mem_singleton] at hmem
  have hpk : (['2'] : Text) = ['1'] := congrArg Prod.fst hmem
  exact absurd hpk (by decide)

end SendSync

end CrSqlite
