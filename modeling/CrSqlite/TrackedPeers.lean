import Mathlib.Data.List.TakeWhile
import CrSqlite.Database

/-!
# TrackedPeers - what the table of tracked peers records

The peers of a transaction are noted in memory before a change is looked at, and
written to `crsql_tracked_peers` by the next commit that comes after a write to
`crsql_changes`.  They are written by `xCommit`, which SQLite calls behind its own
commit, so the write waits for the next commit in a transaction that a rollback ends.
This file compares the table with a ledger of the changes whose INSERT succeeded in a
committed transaction.

Main results:

- Theorem {lit}`recordsCommitted_step`: the agreement of ledger, list and table
  is kept by every step that adds nothing the ledger does not have.
- Theorem {lit}`recordsCommitted_run`: the table records the committed merges
  after every run of such steps.
- Theorem {lit}`recordsCommitted_fails_after_failed_insert`: an INSERT that fails
  raises the version at the next commit.
-/

namespace CrSqlite

/-! ## The effect of an INSERT on the peers -/

/-- A change whose texts have a length that `crsql_mergeInsert` takes. -/
def Change.WithinLimits (ch : Change) : Prop :=
  ch.tbl.length ≤ maxTblNameLen ∧ ch.cid.length ≤ maxTblNameLen ∧
    ch.siteId.length ≤ siteIdLen

instance (ch : Change) : Decidable ch.WithinLimits :=
  inferInstanceAs (Decidable (_ ∧ _))

/-- An INSERT within the limits notes its peer, whether it succeeds or not. -/
theorem mergeInsert_seenPeers [Sqlite] (db : Db) (ch : Change) :
    (db.mergeInsert ch).1.seenPeers =
      if ch.WithinLimits then (trackSeenPeer true db.seenPeers ch.siteId ch.dbVersion).1
      else db.seenPeers := by
  unfold Db.mergeInsert
  simp only
  split
  · rename_i htbl
    exact (if_neg fun h : ch.WithinLimits => absurd h.1 (Nat.not_le.mpr htbl)).symm
  split
  · rename_i hcid
    exact (if_neg fun h : ch.WithinLimits => absurd h.2.1 (Nat.not_le.mpr hcid)).symm
  split
  · rename_i hsite
    exact (if_neg fun h : ch.WithinLimits => absurd h.2.2 (Nat.not_le.mpr hsite)).symm
  · rename_i htbl hcid hsite
    have hlim : ch.WithinLimits :=
      ⟨Nat.not_lt.mp htbl, Nat.not_lt.mp hcid, Nat.not_lt.mp hsite⟩
    rw [if_pos hlim]
    split
    · rfl
    · split <;> rfl

/-- An INSERT beyond the limits fails. -/
theorem withinLimits_of_ok [Sqlite] {db : Db} {ch : Change}
    (h : (db.mergeInsert ch).2 = none) : ch.WithinLimits := by
  unfold Db.mergeInsert at h
  simp only at h
  split_ifs at h
  exact ⟨by omega, by omega, by omega⟩

/-- A merge leaves the stored peers, and marks the transaction. -/
theorem mergeInsert_trackedPeers [Sqlite] (db : Db) (ch : Change) :
    (db.mergeInsert ch).1.trackedPeers = db.trackedPeers ∧
      (db.mergeInsert ch).1.changesWritten = true := by
  unfold Db.mergeInsert
  simp only
  split_ifs
  · exact ⟨rfl, rfl⟩
  · exact ⟨rfl, rfl⟩
  · exact ⟨rfl, rfl⟩
  · split
    · exact ⟨rfl, rfl⟩
    · split <;> exact ⟨rfl, rfl⟩

/-- A local statement has nothing to do with peers. -/
theorem write_peers [Sqlite] (db : Db) (tbl : Text) (w : LocalWrite) :
    (db.write tbl w).trackedPeers = db.trackedPeers ∧
      (db.write tbl w).seenPeers = db.seenPeers ∧
      (db.write tbl w).changesWritten = db.changesWritten := by
  rcases write_cases db tbl w with h | ⟨t, t', -, -, h⟩
  · rw [h]
    exact ⟨rfl, rfl, rfl⟩
  · rw [h]
    exact ⟨rfl, rfl, rfl⟩

/-! ## The ledger -/

/-- A connection with the peers as SQLite's last commit left them in the file, and with a
ledger: the changes whose INSERT succeeded in the open transaction and those whose
INSERT succeeded in a committed one. -/
structure History where
  session : Session
  durable : List TrackedPeer
  pending : List Change
  committed : List Change

/-- The state of a connection that was just opened. -/
def Db.connect (db : Db) : Db :=
  { db with dbVersion := -1, seenPeers := newSeenPeers, changesWritten := false }

/-- A history that has not begun. -/
def History.start (db : Db) : History :=
  ⟨⟨db.connect, db.connect⟩, db.trackedPeers, [], []⟩

/-- The connection with other tracked peers. -/
def Session.setTracked (s : Session) (tracked : List TrackedPeer) : Session :=
  ⟨{ s.start with trackedPeers := tracked }, { s.current with trackedPeers := tracked }⟩

/-- One step of the connection and of its ledger.  A commit takes what `xCommit` wrote at
the commit before into the file, a rollback takes it back. -/
def History.step [Sqlite] (h : History) : Op → History
  | .stmt (.write tbl w) => { h with session := h.session.step (.stmt (.write tbl w)) }
  | .stmt (.merge ch) =>
      { h with
        session := h.session.step (.stmt (.merge ch))
        pending :=
          if (h.session.current.mergeInsert ch).2 = none then ch :: h.pending
          else h.pending }
  | .commit =>
      ⟨h.session.step .commit, h.session.current.trackedPeers, [], h.pending ++ h.committed⟩
  | .rollback =>
      { h with
        session := (h.session.step .rollback).setTracked h.durable
        pending := [] }

/-- The largest db version of the changes with the site id. -/
def latest (siteId : Blob) : List Change → Option Int
  | [] => none
  | ch :: chs =>
      maxVersion (if ch.siteId = siteId then some ch.dbVersion else none)
        (latest siteId chs)

/-- The table holds, for every site id, the maximum of what it held at first and
the db versions of the committed changes. -/
def RecordsCommitted (db : Db) (h : History) : Prop :=
  ∀ s, s ≠ [] → versionOf s h.session.current.trackedPeers =
    maxVersion (versionOf s db.trackedPeers) (latest s h.committed)

/-! ## Steps that add nothing to the ledger -/

/-- A version that is known already, or a smaller one. -/
def Covers (known : Option Int) (version : Int) : Prop :=
  maxVersion known (some version) = known

instance (known : Option Int) (version : Int) : Decidable (Covers known version) :=
  inferInstanceAs (Decidable (_ = _))

/-- The peers are stored with the clocks they have in memory. -/
def Stored (tracked : List TrackedPeer) (peers : List SeenPeer) : Prop :=
  ∀ p ∈ peers, p.siteId ≠ [] → Covers (versionOf p.siteId tracked) p.clock

instance (tracked : List TrackedPeer) (peers : List SeenPeer) :
    Decidable (Stored tracked peers) :=
  inferInstanceAs (Decidable (∀ p ∈ peers, _))

/-- The steps after which the table still records the committed merges: an INSERT
that fails brings no version above the known one of its site, the transaction
that is rolled back has seen no such version and does not follow a commit that raised
one, and at a commit no such version stands behind an empty site id. -/
def KeepsTracked [Sqlite] (h : History) : Op → Prop
  | .stmt (.write _ _) => True
  | .stmt (.merge ch) =>
      (h.session.current.mergeInsert ch).2 ≠ none → ch.WithinLimits → ch.siteId ≠ [] →
        Covers (maxVersion (versionOf ch.siteId h.session.current.trackedPeers)
          (clockOf ch.siteId h.session.current.seenPeers.peers)) ch.dbVersion
  | .commit =>
      Stored h.session.current.trackedPeers
        (h.session.current.seenPeers.peers.dropWhile fun p => p.siteId ≠ [])
  | .rollback =>
      h.durable = h.session.current.trackedPeers ∧
        Stored h.session.current.trackedPeers h.session.current.seenPeers.peers

instance [Sqlite] (h : History) (op : Op) : Decidable (KeepsTracked h op) :=
  match op with
  | .stmt (.write _ _) => inferInstanceAs (Decidable True)
  | .stmt (.merge _) => inferInstanceAs (Decidable (_ → _))
  | .commit => inferInstanceAs (Decidable (Stored _ _))
  | .rollback => inferInstanceAs (Decidable (_ ∧ _))

/-! ## Versions and lists -/

/-- The latest of two lists of changes. -/
theorem latest_append (s : Blob) (xs ys : List Change) :
    latest s (xs ++ ys) = maxVersion (latest s xs) (latest s ys) := by
  induction xs with
  | nil => simp [latest]
  | cons x xs ih => rw [List.cons_append, latest, ih, latest, maxVersion_assoc]

theorem maxVersion_comm (a b : Option Int) : maxVersion a b = maxVersion b a := by
  cases a <;> cases b <;> simp [maxVersion, max_comm]

/-- A clock that is stored raises nothing. -/
private theorem covered_of_stored {tracked : List TrackedPeer} {peers : List SeenPeer}
    (h : Stored tracked peers) {s : Blob} (hs : s ≠ []) :
    maxVersion (versionOf s tracked) (clockOf s peers) = versionOf s tracked := by
  cases hclock : clockOf s peers with
  | none => simp
  | some clock =>
      obtain ⟨p, hp, rfl⟩ := Option.map_eq_some_iff.mp hclock
      have hsite : p.siteId = s := by simpa using List.find?_some hp
      have hcov := h p (List.mem_of_find?_eq_some hp) (hsite ▸ hs)
      rwa [hsite] at hcov

/-- A list whose peers behind the first empty site id are stored is written as if
there were no empty site id. -/
theorem versionOf_writeTrackedPeers_of_stored {tracked : List TrackedPeer}
    {peers : List SeenPeer} (hnodup : (peers.map SeenPeer.siteId).Nodup)
    (hstored : Stored tracked (peers.dropWhile fun p => p.siteId ≠ [])) {s : Blob}
    (hs : s ≠ []) :
    versionOf s (writeTrackedPeers peers tracked) =
      maxVersion (versionOf s tracked) (clockOf s peers) := by
  have hsplit : clockOf s peers =
      (clockOf s (peers.takeWhile fun p => p.siteId ≠ [])).or
        (clockOf s (peers.dropWhile fun p => p.siteId ≠ [])) := by
    conv_lhs => rw [← List.takeWhile_append_dropWhile (p := fun p : SeenPeer => p.siteId ≠ [])
      (l := peers)]
    simp only [clockOf, List.find?_append]
    cases (peers.takeWhile fun p => p.siteId ≠ []).find? fun p => p.siteId = s <;> rfl
  have hne : ∀ p ∈ peers.takeWhile fun p => p.siteId ≠ [], p.siteId ≠ [] := fun p hp => by
    simpa using List.mem_takeWhile_imp hp
  have hnodup' : ((peers.takeWhile fun p => p.siteId ≠ []).map SeenPeer.siteId).Nodup :=
    hnodup.sublist ((List.takeWhile_sublist _).map _)
  rw [writeTrackedPeers_eq_takeWhile, versionOf_writeTrackedPeers hne hnodup', hsplit]
  cases hclock : clockOf s (peers.takeWhile fun p => p.siteId ≠ []) with
  | some clock => rfl
  | none =>
      rw [Option.none_or, covered_of_stored hstored hs, maxVersion_none_right]

/-! ## The agreement of ledger, list and table -/

/-- What holds between two steps: the table records what is committed, the list
in memory adds what is pending, and pending changes mark the transaction as one
that wrote to `crsql_changes`. -/
structure Ledger (db : Db) (h : History) : Prop where
  nodup : (h.session.current.seenPeers.peers.map SeenPeer.siteId).Nodup
  start : h.session.start.trackedPeers = h.session.current.trackedPeers
  records : RecordsCommitted db h
  pending : ∀ s, s ≠ [] →
    maxVersion (versionOf s h.session.current.trackedPeers)
        (clockOf s h.session.current.seenPeers.peers) =
      maxVersion (versionOf s h.session.current.trackedPeers) (latest s h.pending)
  written : h.session.current.changesWritten = false → h.pending = []

/-- A merge is in the ledger of its transaction. -/
private theorem Ledger.merge [Sqlite] {db : Db} {h : History} (hl : Ledger db h)
    {ch : Change} (hok : KeepsTracked h (.stmt (.merge ch))) :
    Ledger db (h.step (.stmt (.merge ch))) := by
  obtain ⟨htracked, hwritten⟩ := mergeInsert_trackedPeers h.session.current ch
  have hseen := mergeInsert_seenPeers h.session.current ch
  refine ⟨?_, ?_, ?_, ?_, ?_⟩
  · simp only [History.step, Session.step, Db.exec, hseen]
    split
    · exact nodup_trackSeenPeer hl.nodup
    · exact hl.nodup
  · simpa only [History.step, Session.step, Db.exec, htracked] using hl.start
  · simpa only [RecordsCommitted, History.step, Session.step, Db.exec, htracked]
      using hl.records
  · intro s hs
    have hp := hl.pending s hs
    simp only [History.step, Session.step, Db.exec, htracked, hseen]
    by_cases hrc : (h.session.current.mergeInsert ch).2 = none
    · rw [if_pos (withinLimits_of_ok hrc), if_pos hrc, clockOf_trackSeenPeer, latest]
      by_cases hsite : s = ch.siteId
      · rw [if_pos hsite, if_pos hsite.symm, ← maxVersion_assoc, hp, maxVersion_assoc,
          maxVersion_comm (latest s h.pending)]
      · rw [if_neg hsite, if_neg (Ne.symm hsite), maxVersion_none_left, hp]
    · rw [if_neg hrc]
      split
      · rename_i hlim
        rw [clockOf_trackSeenPeer]
        by_cases hsite : s = ch.siteId
        · subst hsite
          have hcov : maxVersion _ _ = _ := hok hrc hlim hs
          rw [if_pos rfl, ← maxVersion_assoc, hcov, hp]
        · rw [if_neg hsite, hp]
      · exact hp
  · intro hfalse
    simp [History.step, Session.step, Db.exec, hwritten] at hfalse

/-- A commit stores the peers behind SQLite's own commit, in a transaction that stays open. -/
private theorem Ledger.commit [Sqlite] {db : Db} {h : History} (hl : Ledger db h)
    (hok : KeepsTracked h .commit) : Ledger db (h.step .commit) := by
  cases hw : h.session.current.changesWritten with
  | false =>
      have hnone := hl.written hw
      have hcommit : h.session.current.commit = { h.session.current with dbVersion := -1 } := by
        simp [Db.commit, hw]
      refine ⟨?_, rfl, ?_, ?_, fun _ => rfl⟩
      · simpa only [History.step, Session.step, hcommit] using hl.nodup
      · simpa only [RecordsCommitted, History.step, Session.step, hcommit, hnone,
          List.nil_append] using hl.records
      · intro s hs
        have hp := hl.pending s hs
        rw [hnone] at hp
        simpa only [History.step, Session.step, hcommit] using hp
  | true =>
      have htracked : h.session.current.commit.trackedPeers =
          writeTrackedPeers h.session.current.seenPeers.peers
            h.session.current.trackedPeers := by
        simp [Db.commit, hw]
      have hseen : h.session.current.commit.seenPeers.peers = [] := by
        simp [Db.commit, hw, resetSeenPeers]
      refine ⟨?_, rfl, ?_, ?_, fun _ => rfl⟩
      · simp [History.step, Session.step, hseen]
      · intro s hs
        simp only [History.step, Session.step, htracked, latest_append]
        rw [versionOf_writeTrackedPeers_of_stored hl.nodup hok hs, hl.pending s hs,
          hl.records s hs, maxVersion_assoc, maxVersion_comm (latest s h.committed)]
      · intro s _
        simp [History.step, Session.step, hseen, clockOf_nil, latest]

/-- A rollback takes back the transaction and what was stored behind the last commit. -/
private theorem Ledger.rollback [Sqlite] {db : Db} {h : History} (hl : Ledger db h)
    (hok : KeepsTracked h .rollback) : Ledger db (h.step .rollback) := by
  obtain ⟨hdurable, hstored⟩ := hok
  refine ⟨hl.nodup, rfl, ?_, ?_, fun _ => rfl⟩
  · intro s hs
    simp only [History.step, Session.step, Session.setTracked, hdurable]
    exact hl.records s hs
  · intro s hs
    simp only [History.step, Session.step, Session.setTracked, Db.rollback, hdurable, latest]
    rw [covered_of_stored hstored hs, maxVersion_none_right]

/-- Every step that adds nothing the ledger does not have keeps the agreement. -/
theorem recordsCommitted_step [Sqlite] {db : Db} {h : History} (hl : Ledger db h)
    (op : Op) (hok : KeepsTracked h op) : Ledger db (h.step op) := by
  cases op with
  | stmt s =>
      cases s with
      | write tbl w =>
          obtain ⟨htracked, hseen, hwritten⟩ := write_peers h.session.current tbl w
          exact ⟨by simpa only [History.step, Session.step, Db.exec, hseen] using hl.nodup,
            by simpa only [History.step, Session.step, Db.exec, htracked] using hl.start,
            by simpa only [RecordsCommitted, History.step, Session.step, Db.exec, htracked]
              using hl.records,
            by simpa only [History.step, Session.step, Db.exec, htracked, hseen]
              using hl.pending,
            by simpa only [History.step, Session.step, Db.exec, hwritten] using hl.written⟩
      | merge ch => exact hl.merge hok
  | commit => exact hl.commit hok
  | rollback => exact hl.rollback hok

/-- A history begins with an empty ledger. -/
private theorem Ledger.of_start (db : Db) : Ledger db (History.start db) := by
  refine ⟨List.nodup_nil, rfl, ?_, ?_, fun _ => rfl⟩
  · intro s _
    simp [History.start, Db.connect, latest]
  · intro s _
    simp [History.start, Db.connect, newSeenPeers, clockOf_nil, latest]

/-- After every run of such steps, from a connection just opened, the table of
tracked peers records the committed merges and nothing else. -/
theorem recordsCommitted_run [Sqlite] {db : Db} {ops : List Op}
    (hops : Run.Allowed History.step KeepsTracked (History.start db) ops) :
    RecordsCommitted db (Run.exec History.step (History.start db) ops) :=
  (Run.invariant (Ledger db) (fun _ op hl hok => recordsCommitted_step hl op hok)
    (Ledger.of_start db) hops).records

/-- The steps are allowed when a merge is committed, a local write is committed behind it,
the same change is merged again and rolled back, and an older change of the site fails
before a commit. -/
theorem recordsCommitted_run_foo :
    let col : Change := ⟨['f', 'o', 'o'], ['1'], ['b'], some ['5'], 1, 3, [7]⟩
    let unknown : Change := ⟨['b', 'a', 'r'], ['1'], ['b'], some ['5'], 1, 2, [7]⟩
    RecordsCommitted (fooDb [1])
      (Run.exec (@History.step integralSqlite) (History.start (fooDb [1]))
        [.stmt (.merge col), .commit, .stmt (.write ['f', 'o', 'o'] (.insert (fooRow 1 2))),
          .commit, .stmt (.merge col), .rollback, .stmt (.merge unknown), .commit]) :=
  @recordsCommitted_run integralSqlite _ _ (by decide)

/-- A rollback right behind the commit of a merge loses its version. -/
example :
    let col : Change := ⟨['f', 'o', 'o'], ['1'], ['b'], some ['5'], 1, 3, [7]⟩
    let h := Run.exec (@History.step integralSqlite) (History.start (fooDb [1]))
      [.stmt (.merge col), .commit, .rollback]
    versionOf [7] h.session.current.trackedPeers = none ∧ h.committed = [col] := by
  decide

/-- A change for a table that is not a CRR fails, and the next commit records its
db version for its site. -/
theorem recordsCommitted_fails_after_failed_insert :
    let unknown : Change := ⟨['b', 'a', 'r'], ['1'], ['b'], some ['5'], 1, 5, [7]⟩
    let h := Run.exec (@History.step integralSqlite) (History.start (fooDb [1]))
      [.stmt (.merge unknown), .commit]
    (@Db.mergeInsert integralSqlite (fooDb [1]) unknown).2 ≠ none ∧ h.committed = [] ∧
      versionOf [7] h.session.current.trackedPeers = some 5 ∧
      ¬ RecordsCommitted (fooDb [1]) h := by
  intro unknown h
  have hversion : versionOf [7] h.session.current.trackedPeers = some 5 := by decide
  have hcommitted : h.committed = [] := by decide
  refine ⟨by decide, hcommitted, hversion, fun hrec => ?_⟩
  have h7 := hrec [7] (by decide)
  rw [hversion, hcommitted] at h7
  exact absurd h7 (by decide)

end CrSqlite
