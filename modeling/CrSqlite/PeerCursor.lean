import CrSqlite.DeltaSync
import CrSqlite.TrackedPeers

/-!
# PeerCursor - the tracked version of a peer as a cursor

Replicas write locally and pull from one another: a replica resumes from the
version it tracks for the other's site id, inserts the rows it is given and
commits.  The version it tracks afterwards is that of the rows with their origin's
site id, whoever sent them.

Main results:

- Theorem {lit}`versionOf_transact_merges`: what a transaction of successful
  INSERTs leaves in the table of tracked peers.
- Theorem {lit}`sound_step`: writes and pulls keep every tracked version a sound
  cursor when no forwarded row raises the version of its origin and no report changes
  behind the back of a reader.
- Theorem {lit}`soundCursor_run`: every tracked version is a sound cursor after
  every run of such steps.
- Theorem {lit}`soundCursor_fails_after_forwarding`: a row that is forwarded with a
  high version makes the receiver skip changes of its origin.
-/

namespace CrSqlite

/-! ## Transactions of a replica without open work -/

/-- No peer is noted in memory and nothing was written to `crsql_changes`. -/
def Db.Idle (db : Db) : Prop :=
  db.seenPeers.peers = [] ∧ db.changesWritten = false

section Idle

variable [Sqlite]

/-- A statement writes changes, or leaves the peers that were seen. -/
private theorem exec_changesWritten (db : Db) (s : Stmt) :
    (db.exec s).changesWritten = true ∨
      ((db.exec s).changesWritten = db.changesWritten ∧
        (db.exec s).seenPeers = db.seenPeers) := by
  cases s with
  | write tbl w =>
      obtain ⟨-, hseen, hwritten⟩ := write_peers db tbl w
      exact Or.inr ⟨hwritten, hseen⟩
  | merge ch => exact Or.inl (mergeInsert_trackedPeers db ch).2

/-- A transaction that is committed leaves no open work. -/
theorem idle_transact {db : Db} (h : db.Idle) (stmts : List Stmt) :
    (db.transact stmts).Idle := by
  have hfold : ∀ db' : Db, (db'.changesWritten = true ∨ db'.Idle) →
      (stmts.foldl Db.exec db').changesWritten = true ∨ (stmts.foldl Db.exec db').Idle := by
    induction stmts with
    | nil => exact fun _ h => h
    | cons s stmts ih =>
        intro db' h'
        refine ih _ ?_
        rcases exec_changesWritten db' s with hw | ⟨hw, hseen⟩
        · exact Or.inl hw
        · rw [Db.Idle, hw, hseen]
          exact h'
  rcases hfold db (Or.inr h) with hw | hidle
  · simp [Db.Idle, Db.transact, Db.commit, hw, resetSeenPeers]
  · rw [Db.transact, Db.commit, if_neg (by simp [hidle.2])]
    exact hidle

/-- A transaction keeps the site. -/
@[simp]
theorem transact_siteId (db : Db) (stmts : List Stmt) :
    (db.transact stmts).siteId = db.siteId := by
  rw [Db.transact, commit_siteId]
  induction stmts generalizing db with
  | nil => rfl
  | cons s stmts ih => rw [List.foldl_cons, ih, exec_siteId]

/-- Local writes have nothing to do with the tracked peers. -/
theorem transact_writes_trackedPeers {db : Db} (h : db.changesWritten = false)
    (stmts : List (Text × LocalWrite)) :
    (db.transact (stmts.map fun p => .write p.1 p.2)).trackedPeers = db.trackedPeers := by
  have hfold : ((stmts.map fun p => Stmt.write p.1 p.2).foldl Db.exec db).trackedPeers =
        db.trackedPeers ∧
      ((stmts.map fun p => Stmt.write p.1 p.2).foldl Db.exec db).changesWritten =
        db.changesWritten := by
    clear h
    induction stmts generalizing db with
    | nil => exact ⟨rfl, rfl⟩
    | cons p stmts ih =>
        obtain ⟨htracked, -, hwritten⟩ := write_peers db p.1 p.2
        rw [List.map_cons, List.foldl_cons]
        exact ⟨ih.1.trans htracked, ih.2.trans hwritten⟩
  rw [Db.transact, Db.commit, if_neg (by simp [hfold.2, h])]
  exact hfold.1

/-! ## Transactions of successful INSERTs -/

/-- The changes whose INSERT succeeds when they are inserted in order. -/
def Db.succeeding (db : Db) : List Change → List Change
  | [] => []
  | ch :: chs =>
      if (db.mergeInsert ch).2 = none then ch :: (db.mergeInsert ch).1.succeeding chs
      else (db.mergeInsert ch).1.succeeding chs

/-- The changes that merge are some of those that were received. -/
theorem succeeding_sublist (db : Db) (chs : List Change) :
    (db.succeeding chs).Sublist chs := by
  induction chs generalizing db with
  | nil => exact .slnil
  | cons ch chs ih =>
      rw [Db.succeeding]
      split
      · exact (ih _).cons_cons ch
      · exact (ih _).cons ch

/-- When all INSERTs succeed, the first one does and so do the others behind it. -/
theorem succeeding_cons {db : Db} {ch : Change} {chs : List Change}
    (h : db.succeeding (ch :: chs) = ch :: chs) :
    (db.mergeInsert ch).2 = none ∧ (db.mergeInsert ch).1.succeeding chs = chs := by
  rw [Db.succeeding] at h
  split at h
  · rename_i hok
    exact ⟨hok, (List.cons.inj h).2⟩
  · have hlen := (succeeding_sublist (db.mergeInsert ch).1 chs).length_le
    rw [h, List.length_cons] at hlen
    omega

/-- The peers in memory after successful INSERTs. -/
structure Noted (db : Db) (chs : List Change) (db' : Db) : Prop where
  nodup : (db'.seenPeers.peers.map SeenPeer.siteId).Nodup
  ne : ∀ p ∈ db'.seenPeers.peers, p.siteId ≠ []
  clock : ∀ s, clockOf s db'.seenPeers.peers =
    maxVersion (clockOf s db.seenPeers.peers) (latest s chs)
  tracked : db'.trackedPeers = db.trackedPeers

/-- Successful INSERTs note their peers. -/
theorem noted_foldl {db : Db} {chs : List Change}
    (hok : db.succeeding chs = chs) (hsite : ∀ ch ∈ chs, ch.siteId ≠ [])
    (hnodup : (db.seenPeers.peers.map SeenPeer.siteId).Nodup)
    (hne : ∀ p ∈ db.seenPeers.peers, p.siteId ≠ []) :
    Noted db chs ((chs.map Stmt.merge).foldl Db.exec db) := by
  induction chs generalizing db with
  | nil => exact ⟨hnodup, hne, fun s => by simp [latest], rfl⟩
  | cons ch chs ih =>
      obtain ⟨hfirst, hrest⟩ := succeeding_cons hok
      obtain ⟨hch, hsites⟩ := List.forall_mem_cons.mp hsite
      have hseen := mergeInsert_seenPeers db ch
      rw [if_pos (withinLimits_of_ok hfirst)] at hseen
      obtain ⟨h1, h2, h3, h4⟩ := ih hrest hsites
        (by rw [hseen]; exact nodup_trackSeenPeer hnodup) (by
          intro p hp
          rw [hseen] at hp
          rcases mem_trackSeenPeer hp with heq | hmem
          · exact heq ▸ hch
          · obtain ⟨q, hq, heq⟩ := List.mem_map.mp hmem
            exact heq ▸ hne q hq)
      refine ⟨h1, h2, fun s => ?_, h4.trans (mergeInsert_trackedPeers db ch).1⟩
      rw [List.map_cons, List.foldl_cons, Db.exec, h3, hseen, clockOf_trackSeenPeer, latest]
      by_cases hs : s = ch.siteId
      · rw [if_pos hs, if_pos hs.symm, maxVersion_assoc]
      · rw [if_neg hs, if_neg (Ne.symm hs), maxVersion_none_left]

/-- After a transaction of successful INSERTs a replica tracks, for every site, the
maximum of what it tracked and the versions of the site's changes. -/
theorem versionOf_transact_merges {db : Db} (hidle : db.Idle) {chs : List Change}
    (hok : db.succeeding chs = chs) (hsite : ∀ ch ∈ chs, ch.siteId ≠ []) (s : Blob) :
    versionOf s (db.transact (chs.map Stmt.merge)).trackedPeers =
      maxVersion (versionOf s db.trackedPeers) (latest s chs) := by
  have hnil := hidle.1
  obtain ⟨hnodup, hne, hclock, htracked⟩ := noted_foldl hok hsite (by simp [hnil])
    (by simp [hnil])
  simp only [hnil, clockOf_nil, maxVersion_none_left] at hclock
  have hw : chs ≠ [] → ((chs.map Stmt.merge).foldl Db.exec db).changesWritten = true := by
    intro hne
    rw [← List.dropLast_append_getLast hne, List.map_append, List.foldl_append]
    exact (mergeInsert_trackedPeers _ _).2
  rw [Db.transact, Db.commit]
  split
  · rw [versionOf_writeTrackedPeers hne hnodup, htracked, hclock]
  · rename_i hfalse
    have hempty : chs = [] := by
      by_contra hne
      exact hfalse (hw hne)
    simp [hempty, latest]

end Idle

/-! ## Versions of the rows of a site -/

/-- Versions that are known already raise nothing. -/
theorem maxVersion_latest_of_covers {known : Option Int} {s : Blob} {chs : List Change}
    (h : ∀ ch ∈ chs, ch.siteId = s → Covers known ch.dbVersion) :
    maxVersion known (latest s chs) = known := by
  induction chs with
  | nil => simp [latest]
  | cons ch chs ih =>
      obtain ⟨hch, hrest⟩ := List.forall_mem_cons.mp h
      rw [latest, ← maxVersion_assoc]
      by_cases hs : ch.siteId = s
      · have hcov : maxVersion known (some ch.dbVersion) = known := hch hs
        rw [if_pos hs, hcov, ih hrest]
      · rw [if_neg hs, maxVersion_none_right, ih hrest]

/-- A bound of the known version and of all rows bounds the version afterwards. -/
theorem maxVersion_latest_le {known : Option Int} {s : Blob} {chs : List Change} {m : Int}
    (hknown : known.getD 0 ≤ m) (hchs : ∀ ch ∈ chs, ch.dbVersion ≤ m) :
    (maxVersion known (latest s chs)).getD 0 ≤ m := by
  induction chs generalizing known with
  | nil => simpa [latest] using hknown
  | cons ch chs ih =>
      obtain ⟨hch, hrest⟩ := List.forall_mem_cons.mp hchs
      rw [latest, ← maxVersion_assoc]
      refine ih ?_ hrest
      split
      · cases known with
        | none => simpa using hch
        | some k => simpa [maxVersion] using ⟨hknown, hch⟩
      · simpa using hknown

/-! ## The network -/

/-- A replica with the changes whose INSERT succeeded in a committed pull, each
with the state it was read from. -/
structure Replica where
  db : Db
  processed : List (Db × Change)

/-- What the replicas do. -/
inductive NetOp (ι : Type*) where
  | write (i : ι) (stmts : List (Text × LocalWrite))
  | pull (b c : ι)

/-- The replica whose database an operation writes. -/
def NetOp.writer {ι : Type*} : NetOp ι → ι
  | .write i _ => i
  | .pull b _ => b

/-- The changes among the processed ones that were pulled from a site. -/
def pulledFrom (site : Blob) (processed : List (Db × Change)) : List Change :=
  (processed.filter fun p => p.1.siteId = site).map Prod.snd

/-- What was pulled from a site. -/
theorem mem_pulledFrom {site : Blob} {processed : List (Db × Change)} {ch : Change} :
    ch ∈ pulledFrom site processed ↔ ∃ db, (db, ch) ∈ processed ∧ db.siteId = site := by
  simp [pulledFrom]

/-- More was processed, and more pulled. -/
theorem pulledFrom_mono {site : Blob} {processed processed' : List (Db × Change)}
    (h : processed ⊆ processed') : pulledFrom site processed ⊆ pulledFrom site processed' := by
  intro ch hch
  obtain ⟨db, hdb, hsite⟩ := mem_pulledFrom.mp hch
  exact mem_pulledFrom.mpr ⟨db, h hdb, hsite⟩

namespace Network

variable {ι : Type*}

/-- The version that `b` resumes from at `c`, 0 when it tracks none. -/
def cursor (net : ι → Replica) (b c : ι) : Int :=
  (versionOf (net c).db.siteId (net b).db.trackedPeers).getD 0

/-- The scan of `c` that a pull of `b` runs. -/
def delta [Sqlite] (net : ι → Replica) (b c : ι) : List Change × Option Text :=
  (net c).db.pull (cursor net b c) (net b).db.siteId

/-- One step of the network.  A pull inserts the rows in one transaction. -/
def step [DecidableEq ι] [Sqlite] (net : ι → Replica) : NetOp ι → ι → Replica
  | .write i stmts =>
      Function.update net i
        { net i with db := (net i).db.transact (stmts.map fun p => .write p.1 p.2) }
  | .pull b c =>
      let rows := (delta net b c).1
      Function.update net b
        ⟨(net b).db.transact (rows.map Stmt.merge),
          (net b).processed ++ ((net b).db.succeeding rows).map fun ch => ((net c).db, ch)⟩

/-- An operation changes no report of an entry that it does not write and that some
replica has pulled. -/
def KeepsReports [DecidableEq ι] [Sqlite] (net : ι → Replica) (op : NetOp ι) : Prop :=
  ∀ d, FormsKept Db.entryReport (net op.writer).db (step net op op.writer).db
    (pulledFrom (net op.writer).db.siteId (step net op d).processed)

/-- Versions stay below the largest integer, and reports that were pulled stay as they
are; a pull ends without an error, and every row it is given is inserted and either has
the sender as its origin or a version not above the one that is tracked for its
origin. -/
def KeepsCursors [DecidableEq ι] [Sqlite] (net : ι → Replica) : NetOp ι → Prop
  | .write i stmts =>
      KeepsReports net (.write i stmts) ∧
        ((net i).db.transact (stmts.map fun p => .write p.1 p.2)).BelowMax
  | .pull b c =>
      let rows := (delta net b c).1
      KeepsReports net (.pull b c) ∧
        (delta net b c).2 = none ∧ (net b).db.succeeding rows = rows ∧
        ((net b).db.transact (rows.map Stmt.merge)).BelowMax ∧
        ∀ ch ∈ rows, ch.siteId = (net c).db.siteId ∨
          Covers (versionOf ch.siteId (net b).db.trackedPeers) ch.dbVersion

instance [Fintype ι] [DecidableEq ι] [Sqlite] (net : ι → Replica) (op : NetOp ι) :
    Decidable (KeepsReports net op) :=
  inferInstanceAs (Decidable (∀ _, _))

instance [Fintype ι] [DecidableEq ι] [Sqlite] (net : ι → Replica) (op : NetOp ι) :
    Decidable (KeepsCursors net op) :=
  match op with
  | .write _ _ => inferInstanceAs (Decidable (_ ∧ _))
  | .pull _ _ => inferInstanceAs (Decidable (_ ∧ _ ∧ _ ∧ _ ∧ _))

/-- Whatever version `b` tracks for `c`: it has processed every change that `c` reports
now with a version up to this one and not as `b`'s own. -/
def SoundCursor [Sqlite] (net : ι → Replica) (b c : ι) : Prop :=
  ∀ v, versionOf (net c).db.siteId (net b).db.trackedPeers = some v →
    ∀ ch ∈ (net c).db.feed.1, ch.siteId ≠ (net b).db.siteId → ch.dbVersion ≤ v →
      ch ∈ pulledFrom (net c).db.siteId (net b).processed

/-- Replicas between transactions that have not synced yet. -/
structure Fresh (net : ι → Replica) : Prop where
  committed : ∀ i, (net i).db.Committed
  noCapture : ∀ i, (net i).db.NoCaptures
  idle : ∀ i, (net i).db.Idle
  untracked : ∀ i, (net i).db.trackedPeers = []
  distinct : Function.Injective fun i => (net i).db.siteId
  bytes : ∀ i, (net i).db.siteId ≠ []

/-! ## The invariant -/

/-- What holds between two steps: every replica tracks every other one with the
version it resumes from. -/
structure Sound [Sqlite] (site : ι → Blob) (net : ι → Replica) : Prop where
  siteId : ∀ i, (net i).db.siteId = site i
  committed : ∀ i, (net i).db.Committed
  noCapture : ∀ i, (net i).db.NoCaptures
  idle : ∀ i, (net i).db.Idle
  tracks : ∀ b c, Tracks (site b) (cursor net b c)
    ((net c).db.reportedIn (pulledFrom (site c) (net b).processed)) (net c).db

section Steps

variable [Sqlite] {site : ι → Blob} {net : ι → Replica}

/-- Replicas that have not met. -/
theorem Fresh.sound (h : Fresh net) : Sound (fun i => (net i).db.siteId) net where
  siteId _ := rfl
  committed := h.committed
  noCapture := h.noCapture
  idle := h.idle
  tracks b c := by
    have hzero : cursor net b c = 0 := by
      rw [cursor, h.untracked b]
      rfl
    rw [hzero]
    exact .zero (h.committed c)

/-- The rows of a pull have bytes in their site ids. -/
private theorem Sound.delta_siteId (h : Sound site net) (hbytes : ∀ i, site i ≠ [])
    {b c : ι} (hok : (delta net b c).2 = none) {ch : Change}
    (hch : ch ∈ (delta net b c).1) : ch.siteId ≠ [] := by
  have hb : (net b).db.siteId ≠ [] := h.siteId b ▸ hbytes b
  obtain ⟨t, ht, e, he, -, -, -, hsite⟩ := mem_pull hb (h.noCapture c) hok hch
  have hstored := (h.committed c).sites t ht e he
  rw [hsite]
  cases hcase : e.siteId with
  | none =>
      rw [Option.getD_none, h.siteId c]
      exact hbytes c
  | some o =>
      rw [hcase] at hstored
      simpa using hstored

/-- What a tracked version covers was pulled. -/
theorem Sound.soundCursor (h : Sound site net) (b c : ι) : SoundCursor net b c := by
  intro v hv ch hch hsite hle
  obtain ⟨t, ht, e, he, -, rfl⟩ := mem_changesFilter hch
  have htracks := h.tracks b c
  rw [cursor, hv, Option.getD_some] at htracks
  have hown : e.siteId ≠ some (site b) := by
    intro heq
    refine hsite ?_
    rw [h.siteId b]
    exact congrArg (Option.getD · (net c).db.siteId) heq
  have hseen := htracks.covered (t.info, e) ⟨t, ht, rfl, he, hown⟩ hle
  rw [h.siteId c]
  exact hseen

variable [DecidableEq ι]

/-- One replica commits a transaction: the others' cursors into it stay good. -/
private theorem Sound.transact (h : Sound site net) {i : ι} {stmts : List Stmt}
    (hbelow : ((net i).db.transact stmts).BelowMax) {processed : List (Db × Change)}
    (htracks : ∀ c, Tracks (site i)
      ((versionOf (site c) ((net i).db.transact stmts).trackedPeers).getD 0)
      ((net c).db.reportedIn (pulledFrom (site c) processed)) (net c).db)
    (hkept : ∀ d, FormsKept Db.entryReport (net i).db ((net i).db.transact stmts)
      (pulledFrom (site i)
        (Function.update net i ⟨(net i).db.transact stmts, processed⟩ d).processed)) :
    Sound site (Function.update net i ⟨(net i).db.transact stmts, processed⟩) := by
  have hdb : ∀ j, (Function.update net i ⟨(net i).db.transact stmts, processed⟩ j).db =
      if j = i then (net i).db.transact stmts else (net j).db := by
    intro j
    by_cases hj : j = i
    · subst hj
      simp
    · simp [hj]
  refine ⟨fun j => ?_, fun j => ?_, fun j => ?_, fun j => ?_, fun b c => ?_⟩
  · rw [hdb]
    split
    · rename_i hj
      rw [transact_siteId, hj, h.siteId]
    · exact h.siteId j
  · rw [hdb]
    split
    · exact committed_transact (h.committed i) stmts hbelow
    · exact h.committed j
  · rw [hdb]
    split
    · exact noCaptures_transact (h.committed i) (h.noCapture i) stmts
    · exact h.noCapture j
  · rw [hdb]
    split
    · exact idle_transact (h.idle i) stmts
    · exact h.idle j
  -- first the reader changes, then the replica it reads
  · have hreader : Tracks (site b)
        (cursor (Function.update net i ⟨(net i).db.transact stmts, processed⟩) b c)
        ((net c).db.reportedIn (pulledFrom (site c)
          (Function.update net i ⟨(net i).db.transact stmts, processed⟩ b).processed))
        (net c).db := by
      have hsite : (Function.update net i ⟨(net i).db.transact stmts, processed⟩ c).db.siteId =
          site c := by
        rw [hdb]
        split
        · rename_i hc
          rw [transact_siteId, hc, h.siteId]
        · exact h.siteId c
      rw [cursor, hsite]
      by_cases hb : b = i
      · subst hb
        simpa using htracks c
      · have hold := h.tracks b c
        rw [cursor, h.siteId c] at hold
        simpa [hb] using hold
    rw [hdb c]
    split
    · rename_i hc
      rw [hc] at hreader ⊢
      exact hreader.transact_reported (h.committed i) stmts (hkept b)
    · exact hreader

/-- A transaction that keeps cursors. -/
private theorem Sound.write (h : Sound site net) {i : ι} {stmts : List (Text × LocalWrite)}
    (hok : KeepsCursors net (.write i stmts)) : Sound site (step net (.write i stmts)) := by
  obtain ⟨hkept, hbelow⟩ := hok
  have hstay : ∀ d, FormsKept Db.entryReport (net i).db
      ((net i).db.transact (stmts.map fun p => .write p.1 p.2))
      (pulledFrom (site i) (step net (.write i stmts) d).processed) := by
    intro d
    have hsame := hkept d
    simp only [NetOp.writer, step, Function.update_self, h.siteId i] at hsame ⊢
    exact hsame
  refine h.transact hbelow (fun c => ?_) hstay
  rw [transact_writes_trackedPeers (h.idle i).2]
  have hold := h.tracks i c
  rwa [cursor, h.siteId c] at hold

/-- A pull that keeps cursors: the tracked version of the sender covers what was pulled, and the
others do not rise. -/
private theorem Sound.pull (h : Sound site net) (hinj : Function.Injective site)
    (hbytes : ∀ i, site i ≠ []) {b c : ι} (hok : KeepsCursors net (.pull b c)) :
    Sound site (step net (.pull b c)) := by
  obtain ⟨hkept, hscan, hins, hbelow, hforward⟩ := hok
  have hb : (net b).db.siteId ≠ [] := h.siteId b ▸ hbytes b
  have hstay : ∀ d, FormsKept Db.entryReport (net b).db
      ((net b).db.transact ((delta net b c).1.map Stmt.merge))
      (pulledFrom (site b) (step net (.pull b c) d).processed) := by
    intro d
    have hsame := hkept d
    simp only [NetOp.writer, step, Function.update_self, h.siteId b] at hsame ⊢
    exact hsame
  refine h.transact hbelow (fun d => ?_) hstay
  have hversion := versionOf_transact_merges (h.idle b) hins
    (fun ch hch => h.delta_siteId hbytes hscan hch) (site d)
  have hold := h.tracks b d
  have hgrow : (net d).db.reportedIn (pulledFrom (site d) (net b).processed) ⊆
      (net d).db.reportedIn (pulledFrom (site d) ((net b).processed ++
        ((net b).db.succeeding (delta net b c).1).map fun ch => ((net c).db, ch))) :=
    fun x hx => pulledFrom_mono (List.subset_append_left _ _) hx
  rw [hversion]
  rw [cursor, h.siteId d] at hold
  by_cases hd : d = c
  · subst hd
    refine ⟨maxVersion_latest_le hold.le fun ch hch =>
      (pull_bounds hb (h.noCapture d) hscan hch).2, .of_subset ?_ _⟩
    have htracks := h.tracks b d
    rw [← h.siteId b] at htracks ⊢
    refine htracks.foreign_subset hb (h.noCapture d) hscan hgrow fun t _ e _ _ hch => ?_
    have hmem : (net d).db.entryReport (t.info, e) ∈ (net b).db.succeeding (delta net b d).1 := by
      rw [hins]
      exact hch
    exact mem_pulledFrom.mpr
      ⟨(net d).db, List.mem_append_right _ (List.mem_map_of_mem hmem), h.siteId d⟩
  · rw [maxVersion_latest_of_covers]
    · exact ⟨hold.le, fun x hx hle => hgrow (hold.covered x hx hle)⟩
    · intro ch hch hsite
      rcases hforward ch hch with hsender | hcov
      · rw [hsite, h.siteId c] at hsender
        exact absurd (hinj hsender) hd
      · rwa [hsite] at hcov

/-- Writes keep every tracked version a sound cursor, and so do pulls that raise no
version of a site other than the sender's, as long as pulled reports stay. -/
theorem sound_step (hinj : Function.Injective site) (hbytes : ∀ i, site i ≠ [])
    (op : NetOp ι) (h : Sound site net) (hok : KeepsCursors net op) :
    Sound site (step net op) := by
  cases op with
  | write i stmts => exact h.write hok
  | pull b c => exact h.pull hinj hbytes hok

end Steps

/-- Every tracked version is a sound cursor after every run of such steps. -/
theorem soundCursor_run [DecidableEq ι] [Sqlite] {net : ι → Replica} (hnet : Fresh net) {ops : List (NetOp ι)}
    (hops : Run.Allowed step KeepsCursors net ops) (b c : ι) :
    SoundCursor (Run.exec step net ops) b c :=
  (Run.invariant (Sound fun i => (net i).db.siteId)
    (fun _ op h hok => sound_step hnet.distinct hnet.bytes op h hok)
    hnet.sound hops).soundCursor b c

/-- Three replicas with an empty table `foo`. -/
def fooNet : Fin 3 → Replica :=
  fun i => ⟨fooDb (List.replicate siteIdLen (UInt8.ofNat (i.val + 1))), []⟩

/-- The replicas of the worked example. -/
theorem fresh_fooNet : Fresh fooNet where
  committed _ := ⟨rfl, by simp [fooNet, fooDb], by simp [fooNet, fooDb],
    by simp [fooNet, fooDb, Db.BelowMax], by simp [fooNet, fooDb]⟩
  noCapture i t ht c hc := by
    rw [List.mem_singleton.mp ht] at hc
    rw [List.mem_singleton.mp hc]
    decide
  idle _ := ⟨rfl, rfl⟩
  untracked _ := rfl
  distinct := by decide
  bytes := by decide

/-- The run theorem applies to a run that forwards a row whose version is known. -/
theorem soundCursor_run_foo :
    let foo : Text := ['f', 'o', 'o']
    let ops : List (NetOp (Fin 3)) :=
      [.write 0 [(foo, .insert (fooRow 1 2))], .pull 1 0, .write 1 [(foo, .insert (fooRow 2 2))],
        .pull 2 0, .pull 2 1]
    @SoundCursor (Fin 3) integralSqlite
      (Run.exec (@step (Fin 3) inferInstance integralSqlite) fooNet ops) 2 1 :=
  @soundCursor_run (Fin 3) inferInstance integralSqlite fooNet fresh_fooNet _ (by decide) 2 1

/-- A row of replica 2 reaches replica 1 through replica 0, where it has a higher
version than replica 2 has reached itself: replica 1 never asks for the row that
replica 2 wrote in between. -/
theorem soundCursor_fails_after_forwarding :
    let foo : Text := ['f', 'o', 'o']
    let ops : List (NetOp (Fin 3)) :=
      [.write 2 [(foo, .insert (fooRow 1 2))], .write 0 [(foo, .insert (fooRow 5 2))],
        .write 0 [(foo, .insert (fooRow 6 2))], .pull 0 2, .write 2 [(foo, .insert (fooRow 2 2))]]
    let net := Run.exec (@step (Fin 3) inferInstance integralSqlite) fooNet ops
    let net' := @step (Fin 3) inferInstance integralSqlite net (.pull 1 0)
    Run.Allowed (@step (Fin 3) inferInstance integralSqlite)
      (@KeepsCursors (Fin 3) inferInstance integralSqlite) fooNet ops ∧
    (@delta (Fin 3) integralSqlite net 1 0).2 = none ∧
    versionOf (net' 2).db.siteId (net' 1).db.trackedPeers = some 3 ∧
    (∀ p ∈ (net' 1).processed, p.2.pk ≠ ['2']) ∧
    (@delta (Fin 3) integralSqlite net' 1 2).1 = [] ∧
    ¬ @SoundCursor (Fin 3) integralSqlite net' 1 2 := by
  intro foo ops net net'
  have hversion : versionOf (net' 2).db.siteId (net' 1).db.trackedPeers = some 3 := by decide
  have hmissing : ∀ p ∈ (net' 1).processed, p.2.pk ≠ ['2'] := by decide
  have hreported : ∃ ch ∈ (@Db.feed integralSqlite (net' 2).db).1,
      ch.pk = ['2'] ∧ ch.siteId ≠ (net' 1).db.siteId ∧ ch.dbVersion ≤ 3 := by decide
  refine ⟨by decide, by decide, hversion, hmissing, by decide, fun hsound => ?_⟩
  obtain ⟨ch, hch, hpk, hsite, hle⟩ := hreported
  obtain ⟨db, hdb, -⟩ := mem_pulledFrom.mp (hsound 3 hversion ch hch hsite hle)
  exact hmissing _ hdb hpk

end Network

end CrSqlite
