import CrSqlite.Value

/-!
# SeenPeers - the peers seen in a transaction

The in-memory list of peers whose changes were inserted since it was last reset,
and the table `crsql_tracked_peers` it is written to (seen-peers.c).

Main results:

- Theorem {lit}`clockOf_trackSeenPeer`: tracking a peer raises its clock to the
  maximum and leaves the other peers alone.
- Theorem {lit}`versionOf_writeTrackedPeers`: writing a list of peers with
  non-empty, different site ids raises each version to the maximum.
-/

namespace CrSqlite

/-! ## Site ids -/

/-- `memcmp` over the shorter of the two lengths. -/
def memcmp : Blob → Blob → Int
  | a :: as, b :: bs =>
      if a.toNat < b.toNat then -1 else if b.toNat < a.toNat then 1 else memcmp as bs
  | _, _ => 0

/-- `crsql_siteIdCmp`. -/
def siteIdCmp (left right : Blob) : Int :=
  let cmp := memcmp left right
  if cmp = 0 then
    if right.length < left.length then 1
    else if left.length < right.length then -1
    else 0
  else if 0 < cmp then 1 else -1

/-- Blobs of one length that compare equal are equal. -/
private theorem eq_of_memcmp_eq_zero {a b : Blob} (hlen : a.length = b.length)
    (h : memcmp a b = 0) : a = b := by
  induction a generalizing b with
  | nil => exact (List.length_eq_zero_iff.mp hlen.symm).symm
  | cons x a ih =>
      cases b with
      | nil => simp at hlen
      | cons y b =>
          have hlt : ¬ x.toNat < y.toNat := fun hlt => by simp [memcmp, hlt] at h
          have hgt : ¬ y.toNat < x.toNat := fun hgt => by simp [memcmp, hlt, hgt] at h
          simp only [memcmp, hlt, hgt, if_false] at h
          have hxy : x = y := UInt8.toNat_inj.mp (by omega)
          rw [hxy, ih (by simpa using hlen) h]

/-- A blob compares equal to itself. -/
private theorem memcmp_self (a : Blob) : memcmp a a = 0 := by
  induction a with
  | nil => rfl
  | cons x a ih => simp [memcmp, ih]

/-- Two site ids compare as equal exactly when they are the same bytes. -/
theorem siteIdCmp_eq_zero_iff {a b : Blob} : siteIdCmp a b = 0 ↔ a = b := by
  constructor
  · intro h
    have hcmp : memcmp a b = 0 := by
      by_contra hcmp
      by_cases hpos : 0 < memcmp a b <;> simp [siteIdCmp, hcmp, hpos] at h
    have hgt : ¬ b.length < a.length := fun hgt => by simp [siteIdCmp, hcmp, hgt] at h
    have hlt : ¬ a.length < b.length := fun hlt => by
      simp [siteIdCmp, hcmp, hgt, hlt] at h
    exact eq_of_memcmp_eq_zero (by omega) hcmp
  · rintro rfl
    simp [siteIdCmp, memcmp_self]

/-! ## The list of seen peers -/

/-- One slot of the list. -/
structure SeenPeer where
  siteId : Blob
  clock : Int
deriving DecidableEq

/-- `crsql_SeenPeers`: the slots in use, the capacity the code believes in, and
the number of slots that were really allocated. -/
structure SeenPeers where
  peers : List SeenPeer
  capacity : Nat
  allocated : Nat
deriving DecidableEq

/-- `crsql_newSeenPeers`, with `CRSQL_SEEN_PEERS_INITIAL_SIZE` slots. -/
def newSeenPeers : SeenPeers :=
  ⟨[], 5, 5⟩

/-- The first slot with the site id takes the larger clock. -/
def raiseClock (siteId : Blob) (clock : Int) : List SeenPeer → Option (List SeenPeer)
  | [] => none
  | p :: ps =>
      if siteIdCmp siteId p.siteId = 0 then
        some ((if p.clock < clock then { p with clock := clock } else p) :: ps)
      else (raiseClock siteId clock ps).map (p :: ·)

/-- `crsql_trackSeenPeer`; `reallocOk` tells whether a needed reallocation
succeeds.  The second component is false when the call fails. -/
def trackSeenPeer (reallocOk : Bool) (a : SeenPeers) (siteId : Blob) (clock : Int) :
    SeenPeers × Bool :=
  match raiseClock siteId clock a.peers with
  | some peers => ({ a with peers := peers }, true)
  | none =>
      if a.peers.length = a.capacity then
        if reallocOk then
          (⟨a.peers ++ [⟨siteId, clock⟩], a.capacity * 2, a.capacity * 2⟩, true)
        else ({ a with capacity := a.capacity * 2 }, false)
      else ({ a with peers := a.peers ++ [⟨siteId, clock⟩] }, true)

/-- `crsql_resetSeenPeers`. -/
def resetSeenPeers (a : SeenPeers) : SeenPeers :=
  { a with peers := [] }

/-! ## The table of tracked peers -/

/-- A row of `crsql_tracked_peers`. -/
structure TrackedPeer where
  siteId : Blob
  version : Int
  tag : Int
  event : Int
deriving DecidableEq

/-- The statement `pTrackPeersStmt` for tag 0 and event 0: insert, or keep the
larger version. -/
def trackPeer (siteId : Blob) (version : Int) : List TrackedPeer → List TrackedPeer
  | [] => [⟨siteId, version, 0, 0⟩]
  | p :: ps =>
      if p.siteId = siteId ∧ p.tag = 0 ∧ p.event = 0 then
        { p with version := max p.version version } :: ps
      else p :: trackPeer siteId version ps

/-- `crsql_writeTrackedPeers`.  An empty site id was never allocated, is bound as
NULL and breaks the NOT NULL constraint; the loop stops there. -/
def writeTrackedPeers : List SeenPeer → List TrackedPeer → List TrackedPeer
  | [], tracked => tracked
  | p :: ps, tracked =>
      if p.siteId = [] then tracked
      else writeTrackedPeers ps (trackPeer p.siteId p.clock tracked)

/-- The version stored for a site id under tag 0 and event 0. -/
def versionOf (siteId : Blob) (tracked : List TrackedPeer) : Option Int :=
  (tracked.find? fun p => p.siteId = siteId ∧ p.tag = 0 ∧ p.event = 0).map
    TrackedPeer.version

/-- The clock of a site id in the list of seen peers. -/
def clockOf (siteId : Blob) (peers : List SeenPeer) : Option Int :=
  (peers.find? fun p => p.siteId = siteId).map SeenPeer.clock

/-- The larger of two optional versions. -/
def maxVersion : Option Int → Option Int → Option Int
  | none, b => b
  | a, none => a
  | some a, some b => some (max a b)

@[simp]
theorem maxVersion_none_left (a : Option Int) : maxVersion none a = a := by
  cases a <;> rfl

@[simp]
theorem maxVersion_none_right (a : Option Int) : maxVersion a none = a := by
  cases a <;> rfl

theorem maxVersion_assoc (a b c : Option Int) :
    maxVersion (maxVersion a b) c = maxVersion a (maxVersion b c) := by
  cases a <;> cases b <;> cases c <;> simp [maxVersion, max_assoc]

/-! ## What is tracked -/

theorem clockOf_nil (s : Blob) : clockOf s [] = none :=
  rfl

/-- The clock of the first peer of the site is found. -/
theorem clockOf_cons (s : Blob) (p : SeenPeer) (ps : List SeenPeer) :
    clockOf s (p :: ps) = if p.siteId = s then some p.clock else clockOf s ps := by
  by_cases h : p.siteId = s <;> simp [clockOf, h]

/-- A peer at the end has its clock where there is no other. -/
private theorem clockOf_append (s : Blob) (ps : List SeenPeer) (p : SeenPeer) :
    clockOf s (ps ++ [p]) =
      (clockOf s ps).or (if p.siteId = s then some p.clock else none) := by
  induction ps with
  | nil => simp [clockOf_cons, clockOf_nil]
  | cons q ps ih =>
      rw [List.cons_append, clockOf_cons, clockOf_cons, ih]
      by_cases h : q.siteId = s <;> simp [h]

/-- No clock is raised where the site was not seen. -/
theorem raiseClock_eq_none_iff {siteId : Blob} {clock : Int}
    {ps : List SeenPeer} :
    raiseClock siteId clock ps = none ↔ ∀ p ∈ ps, p.siteId ≠ siteId := by
  induction ps with
  | nil => simp [raiseClock]
  | cons p ps ih =>
      simp only [raiseClock, siteIdCmp_eq_zero_iff]
      by_cases h : siteId = p.siteId
      · simp [h]
      · simp [h, ih, Ne.symm h]

/-- The clock of the site is raised, and the others stay. -/
private theorem clockOf_raiseClock {siteId : Blob} {clock : Int}
    {ps qs : List SeenPeer} (h : raiseClock siteId clock ps = some qs) (s : Blob) :
    clockOf s qs = if s = siteId then maxVersion (clockOf s ps) (some clock)
      else clockOf s ps := by
  induction ps generalizing qs with
  | nil => simp [raiseClock] at h
  | cons p ps ih =>
      simp only [raiseClock, siteIdCmp_eq_zero_iff] at h
      by_cases hp : siteId = p.siteId
      · rw [if_pos hp, Option.some.injEq] at h
        subst h
        by_cases hs : s = siteId
        · subst hs
          by_cases hlt : p.clock < clock
          · simp [clockOf_cons, hp, hlt, maxVersion, max_eq_right hlt.le]
          · simp [clockOf_cons, hp, hlt, maxVersion, max_eq_left (not_lt.mp hlt)]
        · have hne : p.siteId ≠ s := fun h => hs (h.symm.trans hp.symm)
          have hne' : (if p.clock < clock then { p with clock := clock } else p).siteId ≠
              s := by
            split <;> exact hne
          rw [clockOf_cons, if_neg hne', if_neg hs, clockOf_cons, if_neg hne]
      · rw [if_neg hp, Option.map_eq_some_iff] at h
        obtain ⟨rs, hrs, rfl⟩ := h
        rw [clockOf_cons, clockOf_cons, ih hrs]
        by_cases hs : p.siteId = s
        · have hne : s ≠ siteId := fun h => hp (h.symm.trans hs.symm)
          simp [hs, hne]
        · simp [hs]

/-- A call that succeeds raises the clock of its peer to the maximum and leaves
the other peers alone. -/
theorem clockOf_trackSeenPeer {a : SeenPeers} {siteId : Blob} {clock : Int}
    (s : Blob) :
    clockOf s (trackSeenPeer true a siteId clock).1.peers =
      if s = siteId then maxVersion (clockOf s a.peers) (some clock)
      else clockOf s a.peers := by
  unfold trackSeenPeer
  cases hraise : raiseClock siteId clock a.peers with
  | some peers => exact clockOf_raiseClock hraise s
  | none =>
      have hnone : clockOf siteId a.peers = none := by
        simpa [clockOf] using raiseClock_eq_none_iff.mp hraise
      have happ : clockOf s (a.peers ++ [⟨siteId, clock⟩]) =
          if s = siteId then maxVersion (clockOf s a.peers) (some clock)
          else clockOf s a.peers := by
        rw [clockOf_append]
        by_cases hs : s = siteId
        · subst hs
          simp [hnone]
        · simp [hs, Ne.symm hs]
      by_cases hcap : a.peers.length = a.capacity
      · simpa [hcap] using happ
      · simpa [hcap] using happ

/-- A raised clock leaves the sites. -/
theorem map_siteId_raiseClock {siteId : Blob} {clock : Int}
    {ps qs : List SeenPeer} (h : raiseClock siteId clock ps = some qs) :
    qs.map SeenPeer.siteId = ps.map SeenPeer.siteId := by
  induction ps generalizing qs with
  | nil => simp [raiseClock] at h
  | cons p ps ih =>
      simp only [raiseClock] at h
      split at h
      · rw [← Option.some.inj h]
        by_cases hlt : p.clock < clock <;> simp [hlt]
      · obtain ⟨rs, hrs, rfl⟩ := Option.map_eq_some_iff.mp h
        rw [List.map_cons, List.map_cons, ih hrs]

/-- A call lists no site id but its own and those listed before. -/
theorem mem_trackSeenPeer {a : SeenPeers} {siteId : Blob} {clock : Int} {p : SeenPeer}
    (h : p ∈ (trackSeenPeer true a siteId clock).1.peers) :
    p.siteId = siteId ∨ p.siteId ∈ a.peers.map SeenPeer.siteId := by
  unfold trackSeenPeer at h
  cases hraise : raiseClock siteId clock a.peers with
  | some peers =>
      rw [hraise] at h
      rw [← map_siteId_raiseClock hraise]
      exact Or.inr (List.mem_map_of_mem h)
  | none =>
      have happ : p ∈ a.peers ++ [⟨siteId, clock⟩] := by
        by_cases hcap : a.peers.length = a.capacity
        · simpa [hraise, hcap] using h
        · simpa [hraise, hcap] using h
      rcases List.mem_append.mp happ with hp | hp
      · exact Or.inr (List.mem_map_of_mem hp)
      · rw [List.mem_singleton.mp hp]
        exact Or.inl rfl

/-- No site id is ever listed twice. -/
theorem nodup_trackSeenPeer {a : SeenPeers} {siteId : Blob} {clock : Int}
    (h : (a.peers.map SeenPeer.siteId).Nodup) :
    ((trackSeenPeer true a siteId clock).1.peers.map SeenPeer.siteId).Nodup := by
  unfold trackSeenPeer
  cases hraise : raiseClock siteId clock a.peers with
  | some peers => simpa only [map_siteId_raiseClock hraise] using h
  | none =>
      have hnew : siteId ∉ a.peers.map SeenPeer.siteId := by
        simpa using raiseClock_eq_none_iff.mp hraise
      have happ : ((a.peers ++ [SeenPeer.mk siteId clock]).map SeenPeer.siteId).Nodup := by
        rw [List.map_append, List.nodup_append]
        refine ⟨h, by simp, ?_⟩
        rintro s hs t ht rfl
        rw [List.mem_singleton.mp ht] at hs
        exact hnew hs
      by_cases hcap : a.peers.length = a.capacity
      · simpa only [hcap, if_true] using happ
      · simpa only [hcap, if_false] using happ

/-! ## What is written at a commit -/

/-- The version of the first row of the site is found. -/
private theorem versionOf_cons (s : Blob) (p : TrackedPeer) (ps : List TrackedPeer) :
    versionOf s (p :: ps) =
      if p.siteId = s ∧ p.tag = 0 ∧ p.event = 0 then some p.version
      else versionOf s ps := by
  by_cases h : p.siteId = s ∧ p.tag = 0 ∧ p.event = 0 <;> simp [versionOf, h]

/-- One write raises the version of its peer to the maximum. -/
theorem versionOf_trackPeer (siteId : Blob) (version : Int)
    (tracked : List TrackedPeer) (s : Blob) :
    versionOf s (trackPeer siteId version tracked) =
      if s = siteId then maxVersion (versionOf s tracked) (some version)
      else versionOf s tracked := by
  induction tracked with
  | nil =>
      by_cases hs : s = siteId
      · simp [trackPeer, versionOf, hs]
      · simp [trackPeer, versionOf, hs, Ne.symm hs]
  | cons p ps ih =>
      by_cases hp : p.siteId = siteId ∧ p.tag = 0 ∧ p.event = 0
      · obtain ⟨hsite, htag, hevent⟩ := hp
        by_cases hs : s = siteId
        · simp [trackPeer, versionOf_cons, hsite, htag, hevent, hs, maxVersion]
        · simp [trackPeer, versionOf_cons, hsite, htag, hevent, hs, Ne.symm hs]
      · rw [trackPeer, if_neg hp, versionOf_cons, versionOf_cons, ih]
        by_cases hs : s = siteId
        · subst hs
          simp [hp]
        · simp [hs]

/-- The peers in front of the first empty site id are the ones that are
written. -/
theorem writeTrackedPeers_eq_takeWhile (peers : List SeenPeer)
    (tracked : List TrackedPeer) :
    writeTrackedPeers peers tracked =
      writeTrackedPeers (peers.takeWhile fun p => p.siteId ≠ []) tracked := by
  induction peers generalizing tracked with
  | nil => rfl
  | cons p ps ih =>
      by_cases hp : p.siteId = []
      · simp [writeTrackedPeers, hp]
      · simp [writeTrackedPeers, hp, ih]

/-- Peers with non-empty, different site ids are all written. -/
theorem versionOf_writeTrackedPeers {peers : List SeenPeer} (hne : ∀ p ∈ peers, p.siteId ≠ [])
    (hnodup : (peers.map SeenPeer.siteId).Nodup) (tracked : List TrackedPeer)
    (s : Blob) :
    versionOf s (writeTrackedPeers peers tracked) =
      maxVersion (versionOf s tracked) (clockOf s peers) := by
  induction peers generalizing tracked with
  | nil => simp [writeTrackedPeers, clockOf_nil]
  | cons p ps ih =>
      rw [List.map_cons, List.nodup_cons] at hnodup
      rw [writeTrackedPeers, if_neg (hne p (by simp)),
        ih (fun q hq => hne q (List.mem_cons_of_mem p hq)) hnodup.2,
        versionOf_trackPeer, clockOf_cons]
      by_cases hs : p.siteId = s
      · have hnone : clockOf s ps = none := by
          subst hs
          simpa [clockOf] using fun q hq h => hnodup.1 (List.mem_map.mpr ⟨q, hq, h⟩)
        simp [hs, hnone]
      · simp [hs, Ne.symm hs]

end CrSqlite
