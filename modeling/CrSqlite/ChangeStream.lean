import CrSqlite.DeltaSync

/-!
# ChangeStream - the streams of changes between client and server

Both ends of a client-server connection follow their own database and ship what is
new to the other end in `receive` messages (client-core/src/changeStream.ts,
server-core/src/changeStream.ts).  The server's handler of a database change runs to
its end; the client's is suspended while its pull is under way.  The throttling of the
client's handler only delays it, so the handler runs at any time here.

Main results:

- Theorem {lit}`pullChangeset_above`: a pull brings versions above its cursor, in
  order.
- Theorem {lit}`shipped_eq`: what a handler sends for the changes of a pull.
- Theorems {lit}`dbChanged_cases`, {lit}`processAck_cases` and {lit}`resume_cases`: what the
  handlers do to their streams.
-/

namespace CrSqlite

/-! ## Messages -/

/-- `[Version, number]`. -/
abbrev Seq := Int × Nat

/-- `Changeset` of the client-server messages; the receiver supplies the site id. -/
structure Changeset where
  tbl : Text
  pk : Text
  cid : Text
  val : Option Text
  colVersion : Int
  dbVersion : Int
deriving DecidableEq

/-- The columns of a reported row that a message carries. -/
def Change.changeset (ch : Change) : Changeset :=
  ⟨ch.tbl, ch.pk, ch.cid, ch.val, ch.colVersion, ch.dbVersion⟩

/-- `ChangesReceivedMsg`. -/
structure ReceiveMsg where
  sender : Blob
  seqStart : Seq
  seqEnd : Seq
  changes : List Changeset
deriving DecidableEq

/-- A message with the number of unacknowledged messages before it. -/
structure Sent where
  msg : ReceiveMsg
  unacked : Int
deriving DecidableEq

/-- The message for the changes of a pull, none when there are no changes. -/
def shipped (sender : Blob) (seqStart : Seq) (changes : List Changeset) : Option ReceiveMsg :=
  changes.getLast?.map fun c => ⟨sender, seqStart, (c.dbVersion, 0), changes⟩

/-! ## Pulls -/

/-- `pullChangesetStmt.all`: the changes a scan reports, none when it throws. -/
def Db.pullAll [Sqlite] (db : Db) (cs : List Constraint) : Option (List Changeset) :=
  let scan := runPlan db.changesFilter cs
  if scan.2 = none then some (scan.1.map Change.changeset) else none

/-- `pullChangeset` of the server: `db_version > ? AND site_id != ?`. -/
def Db.pullForeign [Sqlite] (db : Db) (requestor : Blob) (since : Seq) :
    Option (List Changeset) :=
  db.pullAll [.dbVersion .gt since.1, .siteId .ne (some requestor)]

/-- `pullChangeset` of the client: `db_version > ? AND site_id IS NULL`. -/
def Db.pullLocal [Sqlite] (db : Db) (since : Seq) : Option (List Changeset) :=
  db.pullAll [.dbVersion .gt since.1, .siteId .isNull none]

/-- The plans of the two queries hand both operands over and leave nothing to check
again. -/
theorem queryPlan_pulls (c : Int) (b : Blob) :
    queryPlan [.dbVersion .gt c, .siteId .ne (some b)] = some (6, [.integer c, .blob b]) ∧
      queryPlan [.dbVersion .gt c, .siteId .isNull none] = some (14, [.integer c, .null]) := by
  constructor
  · rw [queryPlan, changesBestIndex_eq]
    · simp [bitsOf, idxBits, planUsage, versions, sites, ConstraintOp.isEquality]
      rfl
    · simp [Constraint.Supported, ConstraintOp.onSiteId]
  · rw [queryPlan, changesBestIndex_eq]
    · simp [bitsOf, idxBits, planUsage, versions, sites, ConstraintOp.isEquality]
      rfl
    · simp [Constraint.Supported, ConstraintOp.onSiteId]

section Pulls

variable [Sqlite] {db : Db}

/-- The site that a query is bound to is one that can be stored, or none. -/
private theorem requestorSiteId_cases (v : SqlValue) :
    ∃ s, requestorSiteId v = siteIdValue s := by
  cases v with
  | null => exact ⟨none, rfl⟩
  | _ => exact ⟨some _, rfl⟩

/-- A query with a bound on the version and a site gets the entries above the bound
that pass its test of the site. -/
private theorem mem_filterRows (hcap : db.NoCaptures) {idxNum : Nat}
    (hversion : idxNum &&& 2 ≠ 0) (hsite : idxNum &&& 4 ≠ 0) {c : Int} {v : SqlValue}
    {s : Option Blob} (hs : requestorSiteId v = siteIdValue s) {row : ChangeRow} :
    row ∈ db.filterRows idxNum [.integer c, v] ↔
      ∃ t ∈ db.tables, ∃ e ∈ t.clock,
        (decide (e.siteId = s) = decide (idxNum &&& 8 = 8) ∧ c < e.dbVersion) ∧
          changeRow t.info e = row := by
  rw [filterRows_eq, if_pos hversion, if_pos hsite, if_pos hversion]
  simp only [List.drop_succ_cons, List.drop_zero, List.getD_cons_zero, hs,
    Sqlite.valueInt64_integer, mem_changesUnionQuery]
  refine exists_congr fun t => and_congr_right fun ht => exists_congr fun e =>
    and_congr_right fun _ => and_congr_left fun _ => ?_
  rw [passes_iff_of_noCapture (hcap t ht)]

/-- What is known of the changes of a pull above a cursor. -/
structure PulledAbove (c : Int) (changes : List Changeset) : Prop where
  above : ∀ x ∈ changes, c < x.dbVersion
  sorted : changes.Pairwise fun x y => x.dbVersion ≤ y.dbVersion

/-- A pull that does not throw reports all its rows. -/
private theorem pullAll_eq_some {cs : List Constraint} {idxNum : Nat} {argv : List SqlValue}
    (hplan : queryPlan cs = some (idxNum, argv)) {changes : List Changeset}
    (h : db.pullAll cs = some changes) :
    changes = (db.filterRows idxNum argv).map fun row => (db.report row).changeset := by
  simp only [Db.pullAll, runPlan, hplan] at h
  split at h
  · rename_i hok
    rw [Db.changesFilter] at hok h
    rw [scan_eq (scan_ok_iff.mp hok), List.map_map, Option.some.injEq] at h
    exact h.symm
  · simp at h

/-- What a pull finds is above its cursor. -/
private theorem pullAll_above (hcap : db.NoCaptures) {cs : List Constraint} {idxNum : Nat}
    {c : Int} {v : SqlValue} (hplan : queryPlan cs = some (idxNum, [.integer c, v]))
    (hversion : idxNum &&& 2 ≠ 0) (hsite : idxNum &&& 4 ≠ 0)
    {changes : List Changeset} (h : db.pullAll cs = some changes) :
    PulledAbove c changes := by
  obtain ⟨s, hs⟩ := requestorSiteId_cases v
  rw [pullAll_eq_some hplan h]
  refine ⟨?_, ?_⟩
  · intro x hx
    obtain ⟨row, hrow, rfl⟩ := List.mem_map.mp hx
    obtain ⟨t, -, e, -, ⟨-, hlt⟩, rfl⟩ := (mem_filterRows hcap hversion hsite hs).mp hrow
    exact hlt
  · rw [List.pairwise_map, filterRows_eq]
    exact pairwise_changesUnionQuery db _ _ _

/-- The pulls of both ends bring versions above the cursor, in order. -/
theorem pullChangeset_above (hcap : db.NoCaptures) (since : Seq) :
    (∀ b changes, db.pullForeign b since = some changes → PulledAbove since.1 changes) ∧
      ∀ changes, db.pullLocal since = some changes → PulledAbove since.1 changes :=
  ⟨fun b _ h => pullAll_above hcap (queryPlan_pulls since.1 b).1 (by decide) (by decide) h,
    fun _ h => pullAll_above hcap (queryPlan_pulls since.1 []).2 (by decide) (by decide) h⟩

/-- The change that a message carries for a clock entry. -/
def Db.shippedForm (db : Db) (x : TableInfo × ClockEntry) : Changeset :=
  (db.report (changeRow x.1 x.2)).changeset

omit [Sqlite] in
/-- The entries of the local changes. -/
def Db.localEntries (db : Db) : Set (TableInfo × ClockEntry) :=
  { x | ∃ t ∈ db.tables, t.info = x.1 ∧ x.2 ∈ t.clock ∧ x.2.siteId = none }

/-- The pull of the client brings the local changes above its cursor. -/
theorem mem_pullLocal (hcap : db.NoCaptures) {since : Seq} {changes : List Changeset}
    (h : db.pullLocal since = some changes) {cs : Changeset} :
    cs ∈ changes ↔ ∃ x ∈ db.localEntries, since.1 < x.2.dbVersion ∧ db.shippedForm x = cs := by
  rw [pullAll_eq_some (queryPlan_pulls since.1 []).2 h, List.mem_map]
  constructor
  · rintro ⟨row, hrow, rfl⟩
    obtain ⟨t, ht, e, he, ⟨hsite, hlt⟩, rfl⟩ :=
      (mem_filterRows hcap (by decide) (by decide) (s := none) rfl).mp hrow
    exact ⟨(t.info, e), ⟨t, ht, rfl, he, by simpa using hsite⟩, hlt, rfl⟩
  · rintro ⟨⟨_, e⟩, ⟨t, ht, rfl, he, hsite⟩, hlt, rfl⟩
    exact ⟨_, (mem_filterRows hcap (by decide) (by decide) (s := none) rfl).mpr
      ⟨t, ht, e, he, ⟨by simpa using hsite, hlt⟩, rfl⟩, rfl⟩

end Pulls

/-- A message carries the changes of its pull and ends at the last one. -/
theorem shipped_eq {sender : Blob} {seqStart : Seq} {changes : List Changeset} {m : ReceiveMsg}
    (h : shipped sender seqStart changes = some m) :
    m.seqStart = seqStart ∧ m.changes = changes ∧
      ∃ c ∈ changes, changes.getLast? = some c ∧ m.seqEnd = (c.dbVersion, 0) := by
  obtain ⟨c, hc, rfl⟩ := Option.map_eq_some_iff.mp h
  exact ⟨rfl, rfl, c, List.mem_of_getLast? hc, hc, rfl⟩

/-! ## The stream of the server -/

/-- The default of `maxOutstandingAcks` at the server. -/
def serverMaxOutstandingAcks : Int := 5

/-- The fields of the server's `ChangeStream` with what it works on: the database and
the ids of both ends.  Beside them stands what was sent and acknowledged, and whether
a blocked change is owed a pull: no guard reads this, and only a pull settles it. -/
structure ServerStream where
  db : Db
  site : Blob
  closed : Bool
  outstandingAcks : Int
  blockedSend : Bool
  lastSeq : Seq
  sent : List Sent
  acked : Nat
  owed : Bool

namespace ServerStream

/-- The stream after a message was sent. -/
def sending (s : ServerStream) (m : ReceiveMsg) : ServerStream :=
  { s with
    lastSeq := m.seqEnd
    outstandingAcks := s.outstandingAcks + 1
    sent := s.sent ++ [⟨m, s.outstandingAcks⟩] }

/-- `pullChangeset`, with what is owed settled. -/
def pull [Sqlite] (s : ServerStream) : Option (List Changeset) × ServerStream :=
  (s.db.pullForeign s.site s.lastSeq, { s with owed := false })

/-- The end of `#dbChanged`: pull, and send what there is. -/
def pullAndSend [Sqlite] (s : ServerStream) : ServerStream :=
  match s.pull.1.bind (shipped s.db.siteId s.lastSeq) with
  | none => s.pull.2
  | some m => s.pull.2.sending m

/-- The stream with the flag cleared. -/
def unblocked (s : ServerStream) : ServerStream :=
  { s with blockedSend := false }

/-- `#dbChanged`; a change that came from the stream's own client is not shipped. -/
def dbChanged [Sqlite] (s : ServerStream) (selfSourced : Bool) : ServerStream :=
  if s.closed then s
  else if selfSourced then s
  else if s.outstandingAcks = serverMaxOutstandingAcks then
    { s with blockedSend := true, owed := true }
  else s.unblocked.pullAndSend

/-- The stream after an acknowledgement was counted. -/
def acknowledged (s : ServerStream) : ServerStream :=
  { s with outstandingAcks := s.outstandingAcks - 1, acked := s.acked + 1 }

/-- `processAck`; the connection of a closed stream processes no messages.  A count below
zero only asks for the close of the socket, which comes later. -/
def processAck [Sqlite] (s : ServerStream) : ServerStream :=
  if s.closed then s
  else if s.outstandingAcks - 1 = serverMaxOutstandingAcks - 1 ∧ s.blockedSend then
    s.acknowledged.dbChanged false
  else s.acknowledged

/-- A stream whose `begin` has stored the cursor that the client sent. -/
def created (db : Db) (site : Blob) (seqStart : Seq) : ServerStream :=
  ⟨db, site, false, 0, false, seqStart, [], 0, false⟩

/-- `begin` of a new stream. -/
def begin [Sqlite] (db : Db) (site : Blob) (seqStart : Seq) : ServerStream :=
  (created db site seqStart).dbChanged false

section Cases

variable [Sqlite] (s : ServerStream)

/-- A pull sends nothing, or a message with what it got; in both cases nothing is owed
behind it. -/
theorem pullAndSend_cases :
    s.pullAndSend = { s with owed := false } ∨
      ∃ changes m, s.db.pullForeign s.site s.lastSeq = some changes ∧
        shipped s.db.siteId s.lastSeq changes = some m ∧
        s.pullAndSend = sending { s with owed := false } m := by
  unfold pullAndSend
  split
  · exact Or.inl rfl
  · rename_i m h
    obtain ⟨changes, hpull, hship⟩ := Option.bind_eq_some_iff.mp h
    exact Or.inr ⟨changes, m, hpull, hship, rfl⟩

/-- A change is not for this stream, is blocked, or is followed by a pull. -/
theorem dbChanged_cases (selfSourced : Bool) :
    ((s.closed = true ∨ selfSourced = true) ∧ s.dbChanged selfSourced = s) ∨
    (s.outstandingAcks = serverMaxOutstandingAcks ∧
      s.dbChanged selfSourced = { s with blockedSend := true, owed := true }) ∨
    (s.outstandingAcks ≠ serverMaxOutstandingAcks ∧
      s.dbChanged selfSourced = s.unblocked.pullAndSend) := by
  unfold dbChanged
  split_ifs with hclosed hself hmax
  · exact Or.inl ⟨Or.inl hclosed, rfl⟩
  · exact Or.inl ⟨Or.inr hself, rfl⟩
  · exact Or.inr (Or.inl ⟨hmax, rfl⟩)
  · exact Or.inr (Or.inr ⟨hmax, rfl⟩)

/-- An acknowledgement is counted, and followed by a pull when it brings the count
below the maximum with a change blocked. -/
theorem processAck_cases :
    (s.closed = true ∧ s.processAck = s) ∨
    (s.processAck = s.acknowledged ∧
      ¬ (s.outstandingAcks = serverMaxOutstandingAcks ∧ s.blockedSend = true)) ∨
    (s.outstandingAcks = serverMaxOutstandingAcks ∧
      s.processAck = s.acknowledged.unblocked.pullAndSend) := by
  unfold processAck
  by_cases hclosed : s.closed = true
  · exact Or.inl ⟨hclosed, if_pos hclosed⟩
  · rw [if_neg hclosed]
    split
    · rename_i hcond
      have hmax : s.outstandingAcks = serverMaxOutstandingAcks := by omega
      rcases s.acknowledged.dbChanged_cases false with ⟨h, -⟩ | ⟨h, -⟩ | ⟨-, h⟩
      · simp [acknowledged, hclosed] at h
      · simp only [acknowledged] at h
        omega
      · exact Or.inr (Or.inr ⟨hmax, h⟩)
    · rename_i hcond
      exact Or.inr (Or.inl ⟨rfl, fun h => hcond ⟨by omega, h.2⟩⟩)

end Cases

end ServerStream

/-- What happens to the stream of the server.  A write may leave any database
behind. -/
inductive ServerOp where
  | write (db : Db)
  | notify (selfSourced : Bool)
  | ack
  | close

/-- One step of the server's stream. -/
def ServerStream.step [Sqlite] (s : ServerStream) : ServerOp → ServerStream
  | .write db => { s with db := db }
  | .notify selfSourced => s.dbChanged selfSourced
  | .ack => s.processAck
  | .close => { s with closed := true }

/-! ## The stream of the client -/

/-- `maxOutstandingAcks` of the client. -/
def clientMaxOutstandingAcks : Int := 10

/-- A run of `#localDbChanged` that is suspended at its pull: the cursor it read, and
the result of the query once it was executed. -/
structure ClientPull where
  startSeq : Seq
  result : Option (Option (List Changeset))

/-- The fields of the client's `ChangeStream` with what it works on.  A stream is
established when the cursors that `start` awaits have been read; `cursor` is the one
for sending.  What is owed a blocked change is settled by a run that calls its pull. -/
structure ClientStream where
  db : Db
  siteId : Blob
  started : Bool
  closed : Bool
  established : Bool
  outstandingAcks : Int
  blockedSend : Bool
  lastSeq : Seq
  pulls : List ClientPull
  cursor : Seq
  sent : List Sent
  acked : Nat
  owed : Bool

namespace ClientStream

/-- The call of `pullChangeset`, with what is owed settled: the run is suspended until
the query was executed. -/
def callPull (s : ClientStream) : ClientStream :=
  { s with owed := false, pulls := s.pulls ++ [⟨s.lastSeq, none⟩] }

/-- `#localDbChanged` up to its pull.  The branch for too many unacknowledged messages
does not return, so the flag is cleared behind it. -/
def localDbChanged (s : ClientStream) : ClientStream :=
  if s.closed then s
  else if !s.started then s
  else
    let s :=
      if s.outstandingAcks = clientMaxOutstandingAcks then
        { s with blockedSend := true, owed := true }
      else s
    callPull { s with blockedSend := false }

/-- The query of a suspended run is executed. -/
def fetch [Sqlite] (s : ClientStream) (i : Nat) : ClientStream :=
  { s with
    pulls := s.pulls.modify i fun p =>
      if p.result = none then { p with result := some (s.db.pullLocal p.startSeq) } else p }

/-- The stream after a message was sent. -/
def sending (s : ClientStream) (m : ReceiveMsg) : ClientStream :=
  { s with
    lastSeq := m.seqEnd
    outstandingAcks := s.outstandingAcks + 1
    sent := s.sent ++ [⟨m, s.outstandingAcks⟩] }

/-- `#localDbChanged` behind its pull; a query that threw ends the run. -/
def resume (s : ClientStream) (i : Nat) : ClientStream :=
  match s.pulls[i]? with
  | some ⟨startSeq, some result⟩ =>
      let s := { s with pulls := s.pulls.eraseIdx i }
      match result.bind (shipped s.siteId startSeq) with
      | none => s
      | some m => s.sending m
  | _ => s

/-- `start` up to the cursors it awaits: the stream listens to its database. -/
def start (db : Db) (siteId : Blob) : ClientStream :=
  ⟨db, siteId, true, false, false, 0, false, (0, 0), [], (0, 0), [], 0, false⟩

/-- `start` behind the cursors; a stream that was stopped stays so. -/
def loaded (s : ClientStream) (lastSeq : Seq) : ClientStream :=
  if s.established then s
  else if !s.started then { s with lastSeq := lastSeq }
  else { s with lastSeq := lastSeq, cursor := lastSeq, established := true }

/-- `processAck` up to the write of the tracker; a count below zero makes it throw, and
`tracked` does not follow. -/
def processAck (s : ClientStream) : ClientStream :=
  { s with outstandingAcks := s.outstandingAcks - 1, acked := s.acked + 1 }

/-- `processAck` behind the write of the tracker. -/
def tracked (s : ClientStream) : ClientStream :=
  if s.outstandingAcks = clientMaxOutstandingAcks - 1 ∧ s.blockedSend then s.localDbChanged
  else s

/-- The stream with another run suspended at its pull. -/
def pulling (s : ClientStream) : ClientStream :=
  callPull { s with blockedSend := false }

/-- An event is dropped or starts a run, whatever the number of unacknowledged
messages. -/
theorem localDbChanged_cases (s : ClientStream) :
    ((s.closed = true ∨ s.started = false) ∧ s.localDbChanged = s) ∨
      (s.closed = false ∧ s.started = true ∧ s.localDbChanged = s.pulling) := by
  unfold localDbChanged
  split_ifs with hclosed hstarted hmax
  · exact Or.inl ⟨Or.inl hclosed, rfl⟩
  · exact Or.inl ⟨Or.inr (by simpa using hstarted), rfl⟩
  · exact Or.inr ⟨by simpa using hclosed, by simpa using hstarted, rfl⟩
  · exact Or.inr ⟨by simpa using hclosed, by simpa using hstarted, rfl⟩

/-- A suspended run is as before, or its query was executed. -/
theorem mem_fetch_pulls [Sqlite] {s : ClientStream} {i : Nat} {p : ClientPull}
    (hp : p ∈ (s.fetch i).pulls) :
    ∃ q ∈ s.pulls, p = q ∨ p = ⟨q.startSeq, some (s.db.pullLocal q.startSeq)⟩ := by
  obtain ⟨j, hj, rfl⟩ := List.mem_iff_getElem.mp hp
  simp only [fetch, List.length_modify] at hj
  refine ⟨_, List.getElem_mem hj, ?_⟩
  simp only [fetch, List.getElem_modify]
  split_ifs
  · exact Or.inr rfl
  · exact Or.inl rfl
  · exact Or.inl rfl

/-- A run that goes on behind its pull has ended, with or without a message. -/
theorem resume_cases (s : ClientStream) (i : Nat) :
    s.resume i = s ∨ ∃ startSeq result, s.pulls[i]? = some ⟨startSeq, some result⟩ ∧
      (s.resume i = { s with pulls := s.pulls.eraseIdx i } ∨
        ∃ changes m, result = some changes ∧ shipped s.siteId startSeq changes = some m ∧
          s.resume i = sending { s with pulls := s.pulls.eraseIdx i } m) := by
  unfold resume
  split
  · rename_i startSeq result hpull
    refine Or.inr ⟨startSeq, result, hpull, ?_⟩
    dsimp only
    split
    · exact Or.inl rfl
    · rename_i m h
      obtain ⟨changes, hresult, hship⟩ := Option.bind_eq_some_iff.mp h
      exact Or.inr ⟨changes, m, hresult, hship, rfl⟩
  · exact Or.inl rfl

end ClientStream

/-- What happens to the stream of the client. -/
inductive ClientOp where
  | write (db : Db)
  | loaded (lastSeq : Seq)
  | event
  | fetch (i : Nat)
  | resume (i : Nat)
  | ack
  | tracked
  | stop

/-- One step of the client's stream. -/
def ClientStream.step [Sqlite] (s : ClientStream) : ClientOp → ClientStream
  | .write db => { s with db := db }
  | .loaded lastSeq => s.loaded lastSeq
  | .event => s.localDbChanged
  | .fetch i => s.fetch i
  | .resume i => s.resume i
  | .ack => s.processAck
  | .tracked => s.tracked
  | .stop => { s with started := false, closed := true }

/-- The table `foo` of a site after one transaction for each of the first keys. -/
def fooRowsDb (siteId : Blob) (n : Nat) : Db :=
  (List.range n).foldl
    (fun db k =>
      @Db.transact integralSqlite db [.write ['f', 'o', 'o'] (.insert (fooRow k 2))])
    (fooDb siteId)

/-- The operations of the client for one local change: the change, its event and the
two ends of the pull. -/
def shipRow (siteId : Blob) (n : Nat) : List ClientOp :=
  [.write (fooRowsDb siteId n), .event, .fetch 0, .resume 0]

end CrSqlite
