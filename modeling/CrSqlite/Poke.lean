import CrSqlite.PeerCursor

/-!
# Poke - replicas that poke one another

A peer tells the others its version, is asked for changes above the version that the
asker has recorded for it, and sends them.  The receiver inserts the rows one by one,
each in a transaction of its own, and records the largest version among them at the end,
whatever was recorded before (js/sync-reference/p2p/src/WholeDbReplicator.ts, on a
synchronous database).  The network may lose, repeat, delay and reorder messages.

Main results:

- Theorem {lit}`requested_eq_pull`: the query for the requested changes runs the scan of a
  pull.
- Theorem {lit}`poking_step`: every step keeps the recorded versions, the requests and
  the changes on the way good.
- Theorem {lit}`pokeSafe_run`: after every run that changes no report that was sent, a
  peer has merged every change up to the version that it recorded, and up to the version
  of every poke that it ignores.
- Theorem {lit}`poke_skips_under_captured_alias`: a key column with the name of an alias
  of the query hides a change from the request.
-/

namespace CrSqlite

/-- `SELECT .. FROM crsql_changes WHERE site_id != b AND db_version > c`. -/
def requestConstraints (b : Blob) (c : Int) : List Constraint :=
  [.siteId .ne (some b), .dbVersion .gt c]

/-- The query runs the same scan as a pull. -/
theorem requested_eq_pull [Sqlite] (db : Db) (b : Blob) (c : Int) :
    runPlan db.changesFilter (requestConstraints b c) = db.pull c b := by
  have hplan : queryPlan (requestConstraints b c) = some (6, [.integer c, .blob b]) := by
    rw [queryPlan, changesBestIndex_eq]
    · simp [requestConstraints, bitsOf, idxBits, planUsage, versions, sites,
        ConstraintOp.isEquality]
      rfl
    · simp [requestConstraints, Constraint.Supported, ConstraintOp.onSiteId]
  rw [runPlan, hplan, pull_eq_changesFilter]

/-! ## The peers and the network -/

/-- `changesReceived` after the first await: the rows that were not inserted yet, the
state of the sender that they were read from, and the largest version so far. -/
structure ApplyTask (ι : Type*) where
  sender : ι
  read : Db
  remaining : List Change
  maxVersion : Int

/-- A replica with its rows of `__crsql_wdbreplicator_peers` and its suspended calls of
`changesReceived`. -/
structure PokePeer (ι : Type*) extends Replica where
  versions : ι → Option Int
  tasks : List (ApplyTask ι)

/-- The messages of the protocol.  The changes come with the state they were read
from. -/
inductive PokeMsg (ι : Type*) where
  | poke (poker : ι) (version : Int)
  | requestChanges (sender receiver : ι) (since : Int)
  | applyChanges (sender receiver : ι) (read : Db) (changes : List Change)

/-- The peers and all messages that were ever sent. -/
structure PokeNet (ι : Type*) where
  peers : ι → PokePeer ι
  sent : List (PokeMsg ι)

/-- What the peers and the network do.  Any sent message may be delivered at any later
time, and more than once. -/
inductive PokeOp (ι : Type*) where
  | write (i : ι) (stmts : List (Text × LocalWrite))
  | poke (i : ι)
  | newConnection (i j : ι)
  | deliver (i : ι) (n : Nat)
  | applyRow (i : ι) (k : Nat)
  | finish (i : ι) (k : Nat)
  | fail (i : ι) (k : Nat)

namespace PokePeer

variable {ι : Type*}

/-- The version recorded for a peer, 0 without a row. -/
def version (r : PokePeer ι) (p : ι) : Int :=
  (r.versions p).getD 0

/-- A statement that fails outside of a transaction is rolled back. -/
def insertRow [Sqlite] (r : PokePeer ι) (read : Db) (ch : Change) : PokePeer ι :=
  if (r.db.mergeInsert ch).2 = none then
    { r with db := r.db.transact [.merge ch], processed := r.processed ++ [(read, ch)] }
  else { r with db := Db.rollback r.db (r.db.mergeInsert ch).1 }

/-- The next row of a suspended call; an error ends the call. -/
def applyRow [Sqlite] (r : PokePeer ι) (k : Nat) : PokePeer ι :=
  match r.tasks[k]? with
  | some ⟨sender, read, ch :: remaining, maxVersion⟩ =>
      if (r.db.mergeInsert ch).2 = none then
        { r.insertRow read ch with
          tasks := r.tasks.set k ⟨sender, read, remaining, max maxVersion ch.dbVersion⟩ }
      else { r.insertRow read ch with tasks := r.tasks.eraseIdx k }
  | _ => r

/-- A row of `__crsql_wdbreplicator_peers` is written. -/
def record [DecidableEq ι] (r : PokePeer ι) (p : ι) (v : Int) : PokePeer ι :=
  { r with versions := Function.update r.versions p (some v) }

/-- A call that has inserted all its rows records the largest version. -/
def finish [DecidableEq ι] (r : PokePeer ι) (k : Nat) : PokePeer ι :=
  match r.tasks[k]? with
  | some ⟨sender, _, [], maxVersion⟩ =>
      { r.record sender maxVersion with tasks := r.tasks.eraseIdx k }
  | _ => r

/-- A recorded version is the new one or one from before. -/
theorem record_versions [DecidableEq ι] {r : PokePeer ι} {p q : ι} {v w : Int}
    (h : (r.record p v).versions q = some w) : (q = p ∧ v = w) ∨ r.versions q = some w := by
  by_cases hq : q = p
  · subst hq
    exact Or.inl ⟨rfl, by simpa [record] using h⟩
  · exact Or.inr (by simpa [record, hq] using h)

/-- A suspended call is at its end, inserts its next row, or ends with an error. -/
theorem applyRow_cases [Sqlite] (r : PokePeer ι) (k : Nat) :
    r.applyRow k = r ∨ ∃ sender read ch remaining maxVersion,
      r.tasks[k]? = some ⟨sender, read, ch :: remaining, maxVersion⟩ ∧
      (r.applyRow k =
          { r with
            db := r.db.transact [.merge ch]
            processed := r.processed ++ [(read, ch)]
            tasks := r.tasks.set k ⟨sender, read, remaining, max maxVersion ch.dbVersion⟩ } ∨
        r.applyRow k =
          { r with
            db := Db.rollback r.db (r.db.mergeInsert ch).1
            tasks := r.tasks.eraseIdx k }) := by
  unfold applyRow
  split
  · rename_i sender read ch remaining maxVersion htask
    refine Or.inr ⟨sender, read, ch, remaining, maxVersion, htask, ?_⟩
    split
    · rename_i hinsert
      rw [insertRow, if_pos hinsert]
      exact Or.inl rfl
    · rename_i hinsert
      rw [insertRow, if_neg hinsert]
      exact Or.inr rfl
  · exact Or.inl rfl

end PokePeer

namespace PokeNet

variable {ι : Type*}

/-- Replace a peer. -/
def setPeer [DecidableEq ι] (net : PokeNet ι) (i : ι) (r : PokePeer ι) : PokeNet ι :=
  { net with peers := Function.update net.peers i r }

/-- Send a message. -/
def send (net : PokeNet ι) (m : PokeMsg ι) : PokeNet ι :=
  { net with sent := net.sent ++ [m] }

/-- `poked`: nothing for a version that is recorded already, otherwise a request. -/
def poked (net : PokeNet ι) (i poker : ι) (version : Int) : PokeNet ι :=
  if version ≤ (net.peers i).version poker then net
  else net.send (.requestChanges i poker ((net.peers i).version poker))

/-- `changesRequested`; a query that throws sends nothing, nor does one without
rows. -/
def changesRequested [Sqlite] (net : PokeNet ι) (i requestor : ι) (since : Int) : PokeNet ι :=
  let db := (net.peers i).db
  let rows := runPlan db.changesFilter (requestConstraints (net.peers requestor).db.siteId since)
  if rows.2 = none ∧ rows.1 ≠ [] then net.send (.applyChanges i requestor db rows.1) else net

/-- A message reaches a peer. -/
def deliver [DecidableEq ι] [Sqlite] (net : PokeNet ι) (i : ι) (n : Nat) : PokeNet ι :=
  match net.sent[n]? with
  | some (.poke poker version) => net.poked i poker version
  | some (.requestChanges sender receiver since) =>
      if receiver = i then net.changesRequested i sender since else net
  | some (.applyChanges sender receiver read changes) =>
      if receiver = i then
        net.setPeer i { net.peers i with
          tasks := (net.peers i).tasks ++ [⟨sender, read, changes, 0⟩] }
      else net
  | none => net

/-- `newConnection`: `INSERT OR IGNORE` of version 0. -/
def newConnection [DecidableEq ι] (net : PokeNet ι) (i j : ι) : PokeNet ι :=
  net.setPeer i ((net.peers i).record j ((net.peers i).version j))

/-- One step. -/
def step [DecidableEq ι] [Sqlite] (net : PokeNet ι) : PokeOp ι → PokeNet ι
  | .write i stmts =>
      net.setPeer i { net.peers i with
        db := (net.peers i).db.transact (stmts.map fun p => .write p.1 p.2) }
  | .poke i => net.send (.poke i (net.peers i).db.getDbVersion)
  | .newConnection i j => net.newConnection i j
  | .deliver i n => net.deliver i n
  | .applyRow i k => net.setPeer i ((net.peers i).applyRow k)
  | .finish i k => net.setPeer i ((net.peers i).finish k)
  | .fail i k => net.setPeer i { net.peers i with tasks := (net.peers i).tasks.eraseIdx k }

/-- The rows of all changes that were ever sent, each with the state it was read
from. -/
def sentRows (net : PokeNet ι) : List (Db × Change) :=
  net.sent.flatMap fun
    | .applyChanges _ _ read changes => changes.map fun ch => (read, ch)
    | _ => []

/-- What a peer stores stays below the largest integer, and no transaction changes what
its peer reports for an entry that it does not write and that was sent. -/
def KeepsSent [DecidableEq ι] [Sqlite] (net : PokeNet ι) : PokeOp ι → Prop
  | .write i stmts =>
      let db := (net.peers i).db.transact (stmts.map fun p => .write p.1 p.2)
      db.BelowMax ∧ FormsKept Db.entryReport (net.peers i).db db
        (pulledFrom (net.peers i).db.siteId net.sentRows)
  | .applyRow i k =>
      let db := ((net.peers i).applyRow k).db
      db.BelowMax ∧ FormsKept Db.entryReport (net.peers i).db db
        (pulledFrom (net.peers i).db.siteId net.sentRows)
  | _ => True

instance [DecidableEq ι] [Sqlite] (net : PokeNet ι) (op : PokeOp ι) :
    Decidable (net.KeepsSent op) :=
  match op with
  | .write _ _ => inferInstanceAs (Decidable (_ ∧ _))
  | .applyRow _ _ => inferInstanceAs (Decidable (_ ∧ _))
  | .poke _ | .newConnection _ _ | .deliver _ _ | .finish _ _ | .fail _ _ =>
      inferInstanceAs (Decidable True)

/-- The peer `b` has merged every change that `p` reports now with a version up to a given
one and not as `b`'s own. -/
def MergedUpTo [Sqlite] (net : PokeNet ι) (b p : ι) (version : Int) : Prop :=
  ∀ ch ∈ (net.peers p).db.feed.1, ch.siteId ≠ (net.peers b).db.siteId →
    ch.dbVersion ≤ version → ch ∈ pulledFrom (net.peers p).db.siteId (net.peers b).processed

/-- The peer `b` has merged every change of `p` up to the version that it recorded for
`p`, and up to the version of every poke that it ignores. -/
structure PokeSafe [Sqlite] (net : PokeNet ι) (b p : ι) : Prop where
  recorded : ∀ v, (net.peers b).versions p = some v → MergedUpTo net b p v
  ignored : ∀ version, net.poked b p version = net → MergedUpTo net b p version

/-- Peers that have not met yet, with no key column that captures an alias of the
query. -/
structure Unmet (net : PokeNet ι) : Prop where
  committed : ∀ i, (net.peers i).db.Committed
  noCapture : ∀ i, (net.peers i).db.NoCaptures
  bytes : ∀ i, (net.peers i).db.siteId ≠ []
  versions : ∀ i j, (net.peers i).versions j = none
  processed : ∀ i, (net.peers i).processed = []
  tasks : ∀ i, (net.peers i).tasks = []
  sent : net.sent = []

/-! ## The invariant -/

/-- The given rows, each with the state it was read from, have in them every change that
`p` reports up to the version and not as `b`'s own. -/
def Knows [Sqlite] (site : ι → Blob) (net : PokeNet ι) (b p : ι) (v : Int)
    (rows : List (Db × Change)) : Prop :=
  Tracks (site b) v ((net.peers p).db.reportedIn (pulledFrom (site p) rows)) (net.peers p).db

/-- The rows that a suspended call has still to insert. -/
def taskRows (t : ApplyTask ι) : List (Db × Change) :=
  t.remaining.map fun ch => (t.read, ch)

/-- What holds between two steps: what a peer recorded, what it asks for and what is on
the way to it all continue what it has processed, and that was sent. -/
structure Poking [Sqlite] (site : ι → Blob) (net : PokeNet ι) : Prop where
  siteId : ∀ i, (net.peers i).db.siteId = site i
  committed : ∀ i, (net.peers i).db.Committed
  noCapture : ∀ i, (net.peers i).db.NoCaptures
  versions : ∀ b p v, (net.peers b).versions p = some v →
    Knows site net b p v (net.peers b).processed
  requests : ∀ b p since, .requestChanges b p since ∈ net.sent →
    Knows site net b p since (net.peers b).processed
  changes : ∀ p b read changes, .applyChanges p b read changes ∈ net.sent →
    Knows site net b p (Cursor.advance 0 (changes.map Change.dbVersion))
      ((net.peers b).processed ++ changes.map fun ch => (read, ch))
  tasks : ∀ b, ∀ t ∈ (net.peers b).tasks,
    Knows site net b t.sender (Cursor.advance t.maxVersion (t.remaining.map Change.dbVersion))
      ((net.peers b).processed ++ taskRows t)
  processedSent : ∀ b, (net.peers b).processed ⊆ net.sentRows
  tasksSent : ∀ b, ∀ t ∈ (net.peers b).tasks, taskRows t ⊆ net.sentRows

section Steps

variable [Sqlite] {site : ι → Blob} {net : PokeNet ι}

/-- More processed rows know no less. -/
theorem Knows.mono {b p : ι} {v : Int} {rows rows' : List (Db × Change)}
    (h : Knows site net b p v rows) (hrows : rows ⊆ rows') : Knows site net b p v rows' := by
  exact Tracks.mono h fun x hx => pulledFrom_mono hrows hx

/-- Peers that have not met yet. -/
theorem Unmet.poking (h : Unmet net) : Poking (fun i => (net.peers i).db.siteId) net where
  siteId _ := rfl
  committed := h.committed
  noCapture := h.noCapture
  versions b p v hv := by simp [h.versions] at hv
  requests b p since hm := by simp [h.sent] at hm
  changes p b read changes hm := by simp [h.sent] at hm
  tasks b t ht := by simp [h.tasks] at ht
  processedSent b := by rw [h.processed]; exact List.nil_subset _
  tasksSent b t ht := by simp [h.tasks] at ht

/-- A peer's version for another one is good, with and without a row. -/
theorem Poking.version (h : Poking site net) (b p : ι) :
    Knows site net b p ((net.peers b).version p) (net.peers b).processed := by
  rw [PokePeer.version]
  cases hv : (net.peers b).versions p with
  | none => exact .zero (h.committed p)
  | some v => exact h.versions b p v hv

/-- So is the end of what a peer with a good version is sent. -/
private theorem Poking.pull (h : Poking site net) (hbytes : ∀ i, site i ≠ []) {b p : ι}
    {since : Int} (hsince : Knows site net b p since (net.peers b).processed)
    (hok : ((net.peers p).db.pull since (site b)).2 = none) :
    Knows site net b p
      (Cursor.advance 0 (((net.peers p).db.pull since (site b)).1.map Change.dbVersion))
      ((net.peers b).processed ++
        ((net.peers p).db.pull since (site b)).1.map fun ch => ((net.peers p).db, ch)) := by
  refine ⟨?_, .of_subset (Tracks.foreign_subset hsince (hbytes b) (h.noCapture p) hok ?_ ?_) _⟩
  · refine Cursor.advance_le (h.committed p).maxDbVersion_nonneg fun x hx => ?_
    obtain ⟨ch, hch, rfl⟩ := List.mem_map.mp hx
    exact (pull_bounds (hbytes b) (h.noCapture p) hok hch).2
  · exact fun x hx => pulledFrom_mono (List.subset_append_left _ _) hx
  · intro t _ e _ _ hch
    exact mem_pulledFrom.mpr
      ⟨(net.peers p).db, List.mem_append_right _ (List.mem_map_of_mem hch), h.siteId p⟩

omit [Sqlite] in
theorem sentRows_send_subset (net : PokeNet ι) (m : PokeMsg ι) :
    net.sentRows ⊆ (net.send m).sentRows := by
  simp [sentRows, PokeNet.send]

omit [Sqlite] in
/-- The rows of a sent message were sent. -/
theorem sentRows_of_mem {p b : ι} {read : Db} {changes : List Change}
    (h : .applyChanges p b read changes ∈ net.sent) :
    changes.map (fun ch => (read, ch)) ⊆ net.sentRows :=
  fun _ hx => List.mem_flatMap.mpr ⟨_, h, hx⟩

/-- A new message that continues what its receiver has processed. -/
private theorem Poking.send (h : Poking site net) {m : PokeMsg ι}
    (hrequest : ∀ b p since, m = .requestChanges b p since →
      Knows site net b p since (net.peers b).processed)
    (hchanges : ∀ p b read changes, m = .applyChanges p b read changes →
      Knows site net b p (Cursor.advance 0 (changes.map Change.dbVersion))
        ((net.peers b).processed ++ changes.map fun ch => (read, ch))) :
    Poking site (net.send m) where
  siteId := h.siteId
  committed := h.committed
  noCapture := h.noCapture
  versions := h.versions
  requests b p since hm := by
    rcases List.mem_append.mp hm with hold | hnew
    · exact h.requests b p since hold
    · exact hrequest b p since (List.mem_singleton.mp hnew).symm
  changes p b read changes hm := by
    rcases List.mem_append.mp hm with hold | hnew
    · exact h.changes p b read changes hold
    · exact hchanges p b read changes (List.mem_singleton.mp hnew).symm
  tasks := h.tasks
  processedSent b := List.Subset.trans (h.processedSent b) (sentRows_send_subset net m)
  tasksSent b t ht := List.Subset.trans (h.tasksSent b t ht) (sentRows_send_subset net m)

/-! ## Steps of one peer -/

/-- A peer that forgets nothing, and whose versions stay good for what was sent. -/
structure Grows (site : Blob) (sent : List (Db × Change)) (r r' : PokePeer ι) : Prop where
  siteId : r'.db.siteId = r.db.siteId
  committed : r'.db.Committed
  noCapture : r'.db.NoCaptures
  keeps : ∀ {b v rows}, rows ⊆ sent → Tracks b v (r.db.reportedIn (pulledFrom site rows)) r.db →
    Tracks b v (r'.db.reportedIn (pulledFrom site rows)) r'.db
  processed : r.processed ⊆ r'.processed

variable [DecidableEq ι]

omit [Sqlite] in
@[simp]
theorem setPeer_self (i : ι) (r : PokePeer ι) : (net.setPeer i r).peers i = r := by
  simp [setPeer]

omit [Sqlite] in
theorem setPeer_of_ne {i j : ι} (h : j ≠ i) (r : PokePeer ι) :
    (net.setPeer i r).peers j = net.peers j := by
  simp [setPeer, h]

/-- What was good for a peer stays good when one peer moves on. -/
theorem Knows.setPeer {i : ι} {r : PokePeer ι}
    (hr : Grows (site i) net.sentRows (net.peers i) r) {b p : ι} {v : Int}
    {rows : List (Db × Change)} (hrows : rows ⊆ net.sentRows) (h : Knows site net b p v rows) :
    Knows site (net.setPeer i r) b p v rows := by
  by_cases hp : p = i
  · subst hp
    unfold Knows at h ⊢
    rw [setPeer_self]
    exact hr.keeps hrows h
  · unfold Knows at h ⊢
    rw [setPeer_of_ne hp]
    exact h

/-- A peer that grows, knows its recorded versions and has tasks from messages keeps the
invariant. -/
private theorem Poking.setPeer (h : Poking site net) {i : ι} {r : PokePeer ι}
    (hr : Grows (site i) net.sentRows (net.peers i) r)
    (hversions : ∀ p v, r.versions p = some v → Knows site net i p v r.processed)
    (htasks : ∀ t ∈ r.tasks,
      Knows site net i t.sender (Cursor.advance t.maxVersion (t.remaining.map Change.dbVersion))
        (r.processed ++ taskRows t))
    (hprocessedSent : r.processed ⊆ net.sentRows)
    (htasksSent : ∀ t ∈ r.tasks, taskRows t ⊆ net.sentRows) :
    Poking site (net.setPeer i r) := by
  have hprocessed : ∀ b, (net.peers b).processed ⊆ ((net.setPeer i r).peers b).processed := by
    intro b
    by_cases hb : b = i
    · rw [hb, setPeer_self]
      exact hr.processed
    · rw [setPeer_of_ne hb]
      exact List.Subset.refl _
  refine ⟨fun j => ?_, fun j => ?_, fun j => ?_, fun b p v hv => ?_, fun b p since hm => ?_,
    fun p b read changes hm => ?_, fun b t ht => ?_, fun b => ?_, fun b t ht => ?_⟩
  · by_cases hj : j = i
    · rw [hj, setPeer_self, hr.siteId, h.siteId]
    · rw [setPeer_of_ne hj, h.siteId]
  · by_cases hj : j = i
    · rw [hj, setPeer_self]
      exact hr.committed
    · rw [setPeer_of_ne hj]
      exact h.committed j
  · by_cases hj : j = i
    · rw [hj, setPeer_self]
      exact hr.noCapture
    · rw [setPeer_of_ne hj]
      exact h.noCapture j
  · by_cases hb : b = i
    · subst hb
      rw [setPeer_self] at hv ⊢
      exact (hversions p v hv).setPeer hr hprocessedSent
    · rw [setPeer_of_ne hb] at hv ⊢
      exact (h.versions b p v hv).setPeer hr (h.processedSent b)
  · exact ((h.requests b p since hm).setPeer hr (h.processedSent b)).mono (hprocessed b)
  · have hrows := List.append_subset.mpr ⟨h.processedSent b, sentRows_of_mem hm⟩
    exact ((h.changes p b read changes hm).setPeer hr hrows).mono
      (List.append_subset.mpr ⟨List.subset_append_of_subset_left _ (hprocessed b),
        List.subset_append_right _ _⟩)
  · by_cases hb : b = i
    · subst hb
      rw [setPeer_self] at ht ⊢
      exact (htasks t ht).setPeer hr (List.append_subset.mpr ⟨hprocessedSent, htasksSent t ht⟩)
    · rw [setPeer_of_ne hb] at ht ⊢
      exact (h.tasks b t ht).setPeer hr
        (List.append_subset.mpr ⟨h.processedSent b, h.tasksSent b t ht⟩)
  · by_cases hb : b = i
    · rw [hb, setPeer_self]
      exact hprocessedSent
    · rw [setPeer_of_ne hb]
      exact h.processedSent b
  · by_cases hb : b = i
    · rw [hb, setPeer_self] at ht
      exact htasksSent t ht
    · rw [setPeer_of_ne hb] at ht
      exact h.tasksSent b t ht

omit [DecidableEq ι] in
/-- A peer that only records or queues something. -/
private theorem Poking.grows (h : Poking site net) {i : ι} {r : PokePeer ι}
    (hdb : r.db = (net.peers i).db) (hprocessed : r.processed = (net.peers i).processed) :
    Grows (site i) net.sentRows (net.peers i) r where
  siteId := by rw [hdb]
  committed := hdb ▸ h.committed i
  noCapture := hdb ▸ h.noCapture i
  keeps _ ht := hdb ▸ ht
  processed := by rw [hprocessed]; exact List.Subset.refl _

omit [DecidableEq ι] in
/-- A peer that commits a transaction and may have processed more. -/
private theorem Poking.grows_transact (h : Poking site net) {i : ι} {r : PokePeer ι}
    {stmts : List Stmt} (hdb : r.db = (net.peers i).db.transact stmts) (hbelow : r.db.BelowMax)
    (hkept : FormsKept Db.entryReport (net.peers i).db r.db
      (pulledFrom (net.peers i).db.siteId net.sentRows))
    (hprocessed : (net.peers i).processed ⊆ r.processed) :
    Grows (site i) net.sentRows (net.peers i) r where
  siteId := by rw [hdb, transact_siteId]
  committed := by
    rw [hdb] at hbelow ⊢
    exact committed_transact (h.committed i) stmts hbelow
  noCapture := by
    rw [hdb]
    exact noCaptures_transact (h.committed i) (h.noCapture i) stmts
  keeps hrows ht := by
    rw [h.siteId i, hdb] at hkept
    rw [hdb]
    exact ht.transact_reported (h.committed i) stmts (hkept.mono (pulledFrom_mono hrows))
  processed := hprocessed

/-- A local transaction keeps what was sent. -/
private theorem Poking.write (h : Poking site net) {i : ι} {stmts : List (Text × LocalWrite)}
    (hok : net.KeepsSent (.write i stmts)) : Poking site (net.step (.write i stmts)) :=
  h.setPeer (h.grows_transact rfl hok.1 hok.2 (List.Subset.refl _)) (h.versions i) (h.tasks i)
    (h.processedSent i) (h.tasksSent i)

/-- A row that is inserted moves from the task to what is processed; an error changes
nothing that matters. -/
private theorem Poking.applyRow (h : Poking site net) {i : ι} {k : Nat}
    (hok : net.KeepsSent (.applyRow i k)) : Poking site (net.step (.applyRow i k)) := by
  obtain ⟨hbelow, hkept⟩ := hok
  rw [step]
  rcases (net.peers i).applyRow_cases k with heq | ⟨sender, read, ch, remaining, maxVersion, htask,
    heq | heq⟩
  · rw [heq]
    exact h.setPeer (h.grows rfl rfl) (h.versions i) (h.tasks i) (h.processedSent i)
      (h.tasksSent i)
  · have hgrow : (net.peers i).processed ⊆ (net.peers i).processed ++ [(read, ch)] :=
      List.subset_append_left _ _
    have hsent := h.tasksSent i _ (List.mem_of_getElem? htask)
    simp only [taskRows, List.map_cons, List.cons_subset] at hsent
    rw [heq] at hbelow hkept ⊢
    refine h.setPeer (h.grows_transact rfl hbelow hkept hgrow)
      (fun p v hv => (h.versions i p v hv).mono hgrow) (fun t ht => ?_) ?_ fun t ht => ?_
    · rcases List.mem_or_eq_of_mem_set ht with hold | rfl
      · exact (h.tasks i t hold).mono (List.append_subset.mpr
          ⟨List.subset_append_of_subset_left _ hgrow, List.subset_append_right _ _⟩)
      · have hknown := h.tasks i _ (List.mem_of_getElem? htask)
        simp only [taskRows, List.map_cons, Cursor.advance_cons] at hknown ⊢
        rw [List.append_assoc]
        exact hknown
    · exact List.append_subset.mpr
        ⟨h.processedSent i, List.cons_subset.mpr ⟨hsent.1, List.nil_subset _⟩⟩
    · rcases List.mem_or_eq_of_mem_set ht with hold | rfl
      · exact h.tasksSent i t hold
      · exact hsent.2
  · rw [heq]
    have hsub : (net.peers i).tasks.eraseIdx k ⊆ (net.peers i).tasks :=
      (List.eraseIdx_sublist _ k).subset
    refine h.setPeer ⟨rfl, committed_rollback (h.committed i) _, h.noCapture i, ?_,
      List.Subset.refl _⟩ (h.versions i) (fun t ht => h.tasks i t (hsub ht)) (h.processedSent i)
      fun t ht => h.tasksSent i t (hsub ht)
    exact fun _ ht => ⟨ht.le, ht.covered⟩

/-- A call that has inserted all its rows may record the largest version. -/
private theorem Poking.finish (h : Poking site net) (i : ι) (k : Nat) :
    Poking site (net.step (.finish i k)) := by
  rw [step, PokePeer.finish]
  split
  · rename_i sender read maxVersion htask
    have hknown := h.tasks i _ (List.mem_of_getElem? htask)
    simp only [taskRows, List.map_nil, Cursor.advance_nil, List.append_nil] at hknown
    have hsub : (net.peers i).tasks.eraseIdx k ⊆ (net.peers i).tasks :=
      (List.eraseIdx_sublist _ k).subset
    refine h.setPeer (h.grows rfl rfl) (fun p v hv => ?_) (fun t ht => h.tasks i t (hsub ht))
      (h.processedSent i) fun t ht => h.tasksSent i t (hsub ht)
    rcases PokePeer.record_versions hv with ⟨rfl, rfl⟩ | hold
    · exact hknown
    · exact h.versions i p v hold
  · exact h.setPeer (h.grows rfl rfl) (h.versions i) (h.tasks i) (h.processedSent i)
      (h.tasksSent i)

/-- A new connection is asked from the version recorded. -/
private theorem Poking.newConnection (h : Poking site net) (i j : ι) :
    Poking site (net.newConnection i j) := by
  refine h.setPeer (h.grows rfl rfl) (fun p v hv => ?_) (h.tasks i) (h.processedSent i)
    (h.tasksSent i)
  rcases PokePeer.record_versions hv with ⟨rfl, rfl⟩ | hold
  · exact h.version i p
  · exact h.versions i p v hold

/-! ## Deliveries -/

omit [DecidableEq ι] in
/-- A poke asks from the version recorded. -/
private theorem Poking.poked (h : Poking site net) (i poker : ι) (version : Int) :
    Poking site (net.poked i poker version) := by
  unfold PokeNet.poked
  split
  · exact h
  · refine h.send (fun b p since heq => ?_) nofun
    cases heq
    exact h.version i poker

omit [DecidableEq ι] in
/-- What is sent for a request is all that is behind its version. -/
private theorem Poking.changesRequested (h : Poking site net) (hbytes : ∀ i, site i ≠ [])
    {i requestor : ι} {since : Int}
    (hsince : Knows site net requestor i since (net.peers requestor).processed) :
    Poking site (net.changesRequested i requestor since) := by
  unfold PokeNet.changesRequested
  simp only [requested_eq_pull]
  split
  · rename_i hrows
    refine h.send nofun (fun p b read changes heq => ?_)
    cases heq
    rw [h.siteId requestor] at hrows ⊢
    exact h.pull hbytes hsince hrows.1
  · exact h

/-- A message that is delivered is a task, or is answered. -/
private theorem Poking.deliver (h : Poking site net) (hbytes : ∀ i, site i ≠ []) (i : ι)
    (n : Nat) : Poking site (net.deliver i n) := by
  unfold PokeNet.deliver
  split
  · exact h.poked i _ _
  · rename_i sender receiver since hmsg
    split
    · rename_i heq
      subst heq
      exact h.changesRequested hbytes (h.requests _ _ _ (List.mem_of_getElem? hmsg))
    · exact h
  · rename_i sender receiver read changes hmsg
    split
    · rename_i heq
      subst heq
      have hmem := List.mem_of_getElem? hmsg
      refine h.setPeer (h.grows rfl rfl) (h.versions receiver) (fun t ht => ?_)
        (h.processedSent receiver) fun t ht => ?_
      all_goals rcases List.mem_append.mp ht with hold | hnew
      · exact h.tasks receiver t hold
      · rw [List.mem_singleton.mp hnew]
        exact h.changes _ _ _ _ hmem
      · exact h.tasksSent receiver t hold
      · rw [List.mem_singleton.mp hnew]
        exact sentRows_of_mem hmem
    · exact h
  · exact h

/-! ## Runs -/

/-- Every step keeps what peers record and what is on the way good. -/
theorem poking_step (hbytes : ∀ i, site i ≠ []) (op : PokeOp ι) (h : Poking site net)
    (hok : net.KeepsSent op) : Poking site (net.step op) := by
  cases op with
  | write i stmts => exact h.write hok
  | poke i => exact h.send nofun nofun
  | newConnection i j => exact h.newConnection i j
  | deliver i n => exact h.deliver hbytes i n
  | applyRow i k => exact h.applyRow hok
  | finish i k => exact h.finish i k
  | fail i k =>
      have hsub : (net.peers i).tasks.eraseIdx k ⊆ (net.peers i).tasks :=
        (List.eraseIdx_sublist _ k).subset
      exact h.setPeer (h.grows rfl rfl) (h.versions i) (fun t ht => h.tasks i t (hsub ht))
        (h.processedSent i) fun t ht => h.tasksSent i t (hsub ht)

omit [DecidableEq ι] in
/-- What is known up to a version is merged up to it. -/
private theorem Poking.mergedUpTo (h : Poking site net) {b p : ι} {v : Int}
    (hknows : Knows site net b p v (net.peers b).processed) : MergedUpTo net b p v := by
  intro ch hch hsite hle
  obtain ⟨t, ht, e, he, -, rfl⟩ := mem_changesFilter hch
  have hown : e.siteId ≠ some (site b) := by
    intro heq
    refine hsite ?_
    rw [h.siteId b]
    exact congrArg (Option.getD · (net.peers p).db.siteId) heq
  have hseen := hknows.covered (t.info, e) ⟨t, ht, rfl, he, hown⟩ hle
  rw [h.siteId p]
  exact hseen

omit [DecidableEq ι] in
/-- What a recorded version covers was processed. -/
theorem Poking.pokeSafe (h : Poking site net) (b p : ι) : PokeSafe net b p := by
  refine ⟨fun v hv => h.mergedUpTo (h.versions b p v hv), fun version hsame => ?_⟩
  have hmerged := h.mergedUpTo (h.version b p)
  refine fun ch hch hsite hle => hmerged ch hch hsite (hle.trans ?_)
  by_contra hlt
  rw [PokeNet.poked, if_neg hlt] at hsame
  have hsent := congrArg (fun net => net.sent.length) hsame
  simp [PokeNet.send] at hsent

end Steps

/-- Two peers with the same table that have not met. -/
def twoPeers (schema : CrrSchema) : PokeNet (Fin 2) where
  peers i :=
    { db := ⟨List.replicate siteIdLen (UInt8.ofNat (i.val + 1)), [⟨schema, [], []⟩], [], -1,
        newSeenPeers, false⟩
      processed := []
      versions := fun _ => none
      tasks := [] }
  sent := []

/-- Two peers that have not met. -/
theorem unmet_twoPeers : (twoPeers fooSchema).Unmet where
  committed _ := ⟨rfl, by simp [twoPeers], by simp [twoPeers], by simp [twoPeers, Db.BelowMax],
    by simp [twoPeers]⟩
  noCapture := by decide
  bytes := by decide
  versions _ _ := rfl
  processed _ := rfl
  tasks _ := rfl
  sent := rfl

/-- `CREATE TABLE bar (db_vrsn NOT NULL PRIMARY KEY, b)`. -/
def barSchema : CrrSchema where
  info :=
    { tblName := ['b', 'a', 'r']
      baseCols := [⟨0, dbVrsnAlias, [], true, 1⟩, ⟨1, ['b'], [], false, 0⟩] }
  dflt _ := .null
  pks_ne_nil := by decide

end PokeNet

end CrSqlite
