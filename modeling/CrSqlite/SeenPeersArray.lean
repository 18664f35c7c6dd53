import CrSqlite.SeenPeers
import CrSqlite.Library.Run
import Mathlib.Data.List.Basic
import Mathlib.Data.Int.ModEq

/-!
# SeenPeersArray - the slots of the seen peers in memory

The array behind {lit}`SeenPeers`: the slots that are really allocated, the number of those
in use and the capacity that the code believes in (seen-peers.c).  A reallocation may fail
at any size, and `crsql_trackSeenPeer` doubles the capacity before it knows.

Main results:

- Theorem {lit}`Represents.trackSeenPeer`: where there is room the array does what the list
  of peers does.
- Theorem {lit}`maxima_run_iff`: the runs in which the slots in use are a map from site ids
  to maxima.
-/

namespace CrSqlite

/-- `crsql_SeenPeers` with the slots that are allocated.  A slot is none while it holds
nothing that may be read. -/
structure PeerArray where
  slots : List (Option SeenPeer)
  len : Nat
  capacity : Nat
deriving DecidableEq

namespace PeerArray

/-! ## The calls -/

/-- `sizeof(crsql_SeenPeer)`. -/
def sizeofSeenPeer : Nat := 24

/-- `crsql_newSeenPeers`; the slots are set to zero. -/
def new : PeerArray :=
  ⟨List.replicate 5 (some ⟨[], 0⟩), 0, 5⟩

/-- The first `n` slots are searched, and the one with the site id takes the larger
clock. -/
def raiseSlots (siteId : Blob) (clock : Int) :
    Nat → List (Option SeenPeer) → Option (List (Option SeenPeer))
  | n + 1, some p :: slots =>
      if siteIdCmp siteId p.siteId = 0 then
        some (some (if p.clock < clock then { p with clock := clock } else p) :: slots)
      else (raiseSlots siteId clock n slots).map (some p :: ·)
  | n + 1, none :: slots => (raiseSlots siteId clock n slots).map (none :: ·)
  | _, _ => none

/-- `sqlite3_realloc`, whose size is an `int`.  A size that is not positive frees the
memory; `ok` tells whether there is memory for another one.  The second component is
false for the null pointer. -/
def realloc (size : Nat) (ok : Bool) (slots : List (Option SeenPeer)) :
    List (Option SeenPeer) × Bool :=
  let bytes := Int.bmod size (2 ^ 32)
  if bytes ≤ 0 then ([], false)
  else if ok then
    let count := bytes.toNat / sizeofSeenPeer
    (slots.take count ++ List.replicate (count - slots.length) none, true)
  else (slots, false)

/-- The peer is written behind the slots in use.  Past the last slot the write is not one
to the array. -/
def assign (a : PeerArray) (siteId : Blob) (clock : Int) : PeerArray :=
  { a with slots := a.slots.set a.len (some ⟨siteId, clock⟩), len := a.len + 1 }

/-- `crsql_trackSeenPeer`.  The second component is false when the call fails. -/
def trackSeenPeer (reallocOk : Bool) (a : PeerArray) (siteId : Blob) (clock : Int) :
    PeerArray × Bool :=
  match raiseSlots siteId clock a.len a.slots with
  | some slots => ({ a with slots := slots }, true)
  | none =>
      if a.len = a.capacity then
        let a := { a with capacity := a.capacity * 2 }
        let reallocedPeers := realloc (a.capacity * sizeofSeenPeer) reallocOk a.slots
        if reallocedPeers.2 then (assign { a with slots := reallocedPeers.1 } siteId clock, true)
        else ({ a with slots := reallocedPeers.1 }, false)
      else (assign a siteId clock, true)

/-- `crsql_resetSeenPeers`; the site ids of the slots in use are freed. -/
def resetSeenPeers (a : PeerArray) : PeerArray :=
  { a with slots := List.replicate (min a.len a.slots.length) none ++ a.slots.drop a.len, len := 0 }

/-! ## The list of peers that an array represents -/

/-- The slots in use hold the peers of the list, and the sizes agree. -/
structure Represents (a : PeerArray) (s : SeenPeers) : Prop where
  peers : a.slots.take a.len = s.peers.map some
  len : a.len = s.peers.length
  capacity : a.capacity = s.capacity
  allocated : a.slots.length = s.allocated

/-- There is a slot for a new peer, or the array can be asked to grow. -/
def HasRoom (a : PeerArray) : Prop :=
  a.len < a.slots.length ∨
    a.len = a.capacity ∧ a.capacity * 2 * sizeofSeenPeer < 2 ^ 31

instance (a : PeerArray) : Decidable a.HasRoom :=
  inferInstanceAs (Decidable (_ ∨ _))

section Represents

variable {a : PeerArray} {s : SeenPeers} {siteId : Blob} {clock : Int}

theorem represents_new : new.Represents newSeenPeers :=
  ⟨rfl, rfl, rfl, rfl⟩

/-- An array that is reset is an empty list. -/
theorem Represents.reset (h : a.Represents s) :
    a.resetSeenPeers.Represents (CrSqlite.resetSeenPeers s) := by
  refine ⟨rfl, rfl, h.capacity, ?_⟩
  have hallocated := h.allocated
  simp only [resetSeenPeers, CrSqlite.resetSeenPeers, List.length_append, List.length_replicate,
    List.length_drop]
  omega

/-- The search goes through the peers of the list. -/
theorem raiseSlots_map_some (ps : List SeenPeer) (rest : List (Option SeenPeer)) :
    raiseSlots siteId clock ps.length (ps.map some ++ rest) =
      (raiseClock siteId clock ps).map fun qs => qs.map some ++ rest := by
  induction ps with
  | nil => cases rest <;> rfl
  | cons p ps ih =>
      rw [List.map_cons, List.cons_append, List.length_cons, raiseSlots, raiseClock, ih]
      by_cases hcmp : siteIdCmp siteId p.siteId = 0
      · rw [if_pos hcmp, if_pos hcmp]
        rfl
      · rw [if_neg hcmp, if_neg hcmp]
        cases raiseClock siteId clock ps <;> rfl

theorem Represents.slots_eq (h : a.Represents s) :
    a.slots = s.peers.map some ++ a.slots.drop a.len := by
  rw [← h.peers, List.take_append_drop]

/-- There are no more peers than slots. -/
theorem Represents.len_le (h : a.Represents s) : a.len ≤ a.slots.length := by
  have hlen := congrArg List.length h.peers
  rw [List.length_take, List.length_map, ← h.len] at hlen
  omega

/-- The loop over the slots raises the clock of the list. -/
theorem Represents.raiseSlots (h : a.Represents s) :
    PeerArray.raiseSlots siteId clock a.len a.slots =
      (raiseClock siteId clock s.peers).map fun qs => qs.map some ++ a.slots.drop a.len := by
  have hmap := @raiseSlots_map_some siteId clock s.peers (a.slots.drop a.len)
  rw [← h.slots_eq, ← h.len] at hmap
  exact hmap

/-- A peer that is written to a slot of the array. -/
theorem Represents.assign (h : a.Represents s) (hlt : a.len < a.slots.length) :
    (a.assign siteId clock).Represents { s with peers := s.peers ++ [⟨siteId, clock⟩] } := by
  refine ⟨?_, ?_, h.capacity, ?_⟩
  · change (a.slots.set a.len _).take (a.len + 1) = _
    rw [List.take_add_one, List.take_set_of_le le_rfl, h.peers, List.getElem?_set_self hlt]
    simp
  · change a.len + 1 = _
    rw [h.len, List.length_append, List.length_singleton]
  · change (a.slots.set a.len _).length = _
    rw [List.length_set, h.allocated]

/-- A raised clock adds no peer. -/
theorem length_raiseClock {ps qs : List SeenPeer} (h : raiseClock siteId clock ps = some qs) :
    qs.length = ps.length := by
  have hmap := congrArg List.length (map_siteId_raiseClock h)
  rwa [List.length_map, List.length_map] at hmap

/-- A size that fits into an `int` is granted as it is. -/
theorem realloc_of_lt {slots : List (Option SeenPeer)} {capacity : Nat} (hpos : 0 < capacity)
    (hlt : capacity * sizeofSeenPeer < 2 ^ 31) (ok : Bool) :
    realloc (capacity * sizeofSeenPeer) ok slots =
      if ok then (slots.take capacity ++ List.replicate (capacity - slots.length) none, true)
      else (slots, false) := by
  have hbytes : Int.bmod ((capacity * sizeofSeenPeer : Nat) : Int) (2 ^ 32) =
      (capacity * sizeofSeenPeer : Nat) := by
    unfold sizeofSeenPeer at *
    rw [Int.bmod_def]
    push_cast
    split_ifs <;> omega
  have hsize : 0 < capacity * sizeofSeenPeer := Nat.mul_pos hpos (by decide)
  have hcount : capacity * sizeofSeenPeer / sizeofSeenPeer = capacity :=
    Nat.mul_div_cancel capacity (by decide)
  unfold realloc
  rw [hbytes]
  simp only [Int.toNat_natCast, hcount]
  rw [if_neg (by omega)]

/-- A size between 2^31 and 2^32 is a negative `int`, for which the memory is freed. -/
theorem realloc_of_ge {slots : List (Option SeenPeer)} {size : Nat} (hge : 2 ^ 31 ≤ size)
    (hlt : size < 2 ^ 32) (ok : Bool) :
    realloc size ok slots = (([] : List (Option SeenPeer)), false) := by
  have hbytes : Int.bmod (size : Int) (2 ^ 32) ≤ 0 := by
    rw [Int.bmod_def]
    push_cast
    split_ifs <;> omega
  unfold realloc
  simp only [if_pos hbytes]

/-- A new peer of an array that is not full is written behind the slots in use. -/
theorem trackSeenPeer_of_not_full (hnew : raiseSlots siteId clock a.len a.slots = none)
    (hfull : a.len ≠ a.capacity) (reallocOk : Bool) :
    a.trackSeenPeer reallocOk siteId clock = (a.assign siteId clock, true) := by
  unfold PeerArray.trackSeenPeer
  simp only [hnew, if_neg hfull]

/-- A new peer of a full array whose grown size is a negative `int` frees the array. -/
theorem trackSeenPeer_of_ge (hnew : raiseSlots siteId clock a.len a.slots = none)
    (hfull : a.len = a.capacity) (hge : 2 ^ 31 ≤ a.capacity * 2 * sizeofSeenPeer)
    (hlt : a.capacity * 2 * sizeofSeenPeer < 2 ^ 32) (reallocOk : Bool) :
    a.trackSeenPeer reallocOk siteId clock = (⟨[], a.len, a.capacity * 2⟩, false) := by
  have hrealloc := @realloc_of_ge a.slots _ hge hlt reallocOk
  unfold PeerArray.trackSeenPeer
  simp only [hnew, if_pos hfull, hrealloc]
  rfl

/-- The grown memory keeps the slots it had. -/
theorem Represents.grow (h : a.Represents s) (hle : a.slots.length ≤ a.capacity) :
    Represents ⟨a.slots.take (a.capacity * 2) ++
        List.replicate (a.capacity * 2 - a.slots.length) none, a.len, a.capacity * 2⟩
      ⟨s.peers, s.capacity * 2, s.capacity * 2⟩ := by
  have htake : a.slots.take (a.capacity * 2) = a.slots := List.take_of_length_le (by omega)
  have hlen : a.len ≤ a.slots.length := h.len_le
  refine ⟨?_, h.len, congrArg (· * 2) h.capacity, ?_⟩
  · change List.take a.len _ = _
    rw [htake, List.take_append_of_le_length hlen]
    exact h.peers
  · change List.length (_ ++ _) = s.capacity * 2
    rw [htake, List.length_append, List.length_replicate, ← h.capacity]
    omega

/-- Where there is room for a new peer, the array does what the list of peers does. -/
theorem Represents.trackSeenPeer (h : a.Represents s) (hpos : 0 < a.capacity)
    (hle : a.slots.length ≤ a.capacity)
    (hroom : raiseClock siteId clock s.peers = none → a.HasRoom) (reallocOk : Bool) :
    (a.trackSeenPeer reallocOk siteId clock).2 =
        (CrSqlite.trackSeenPeer reallocOk s siteId clock).2 ∧
      (a.trackSeenPeer reallocOk siteId clock).1.Represents
        (CrSqlite.trackSeenPeer reallocOk s siteId clock).1 := by
  unfold PeerArray.trackSeenPeer CrSqlite.trackSeenPeer
  rw [h.raiseSlots]
  cases hraise : raiseClock siteId clock s.peers with
  | some qs =>
      have hlen := length_raiseClock hraise
      refine ⟨rfl, ?_, h.len.trans hlen.symm, h.capacity, ?_⟩
      · change List.take a.len (qs.map some ++ a.slots.drop a.len) = _
        exact List.take_left' (by rw [List.length_map, hlen, h.len])
      · change (qs.map some ++ a.slots.drop a.len).length = s.allocated
        have hlen_le := h.len_le
        rw [List.length_append, List.length_map, List.length_drop, hlen, ← h.len,
          ← h.allocated]
        omega
  | none =>
      have hroom := hroom hraise
      simp only [Option.map_none, ← h.len, ← h.capacity]
      by_cases hfull : a.len = a.capacity
      · rw [if_pos hfull, if_pos hfull]
        have hsize : a.capacity * 2 * sizeofSeenPeer < 2 ^ 31 :=
          hroom.elim (fun hlt => absurd hlt (by omega)) And.right
        rw [realloc_of_lt (by omega) hsize]
        cases reallocOk with
        | true =>
            refine ⟨rfl, ?_⟩
            have hassign := @Represents.assign _ _ siteId clock (h.grow hle) (by
              change a.len < List.length (_ ++ _)
              rw [List.length_append, List.length_replicate, List.length_take]
              omega)
            simpa [h.capacity] using hassign
        | false => exact ⟨rfl, h.peers, h.len, rfl, h.allocated⟩
      · rw [if_neg hfull, if_neg hfull]
        have hlt : a.len < a.slots.length := hroom.elim id fun hcap => absurd hcap.1 hfull
        refine ⟨rfl, ?_⟩
        simpa only [← h.capacity] using h.assign hlt

end Represents

/-! ## What the slots in use hold -/

/-- The peers in the slots in use. -/
def peers (a : PeerArray) : List SeenPeer :=
  (a.slots.take a.len).filterMap id

/-- The peers of the array are those of the list. -/
theorem Represents.peers_eq {a : PeerArray} {s : SeenPeers} (h : a.Represents s) :
    a.peers = s.peers := by
  rw [PeerArray.peers, h.peers, List.filterMap_map]
  exact List.filterMap_some

end PeerArray

/-! ## Lists of peers -/

theorem mem_siteIds_iff {ps : List SeenPeer} {x : Blob} :
    x ∈ ps.map SeenPeer.siteId ↔ clockOf x ps ≠ none := by
  simp [clockOf]

/-- A peer is in a map exactly when its clock is the one that is found. -/
theorem mem_iff_clockOf {ps : List SeenPeer} (h : (ps.map SeenPeer.siteId).Nodup) {p : SeenPeer} :
    p ∈ ps ↔ clockOf p.siteId ps = some p.clock := by
  induction ps with
  | nil => simp [clockOf]
  | cons q ps ih =>
      rw [List.map_cons, List.nodup_cons] at h
      rw [clockOf_cons, List.mem_cons]
      by_cases hq : q.siteId = p.siteId
      · have hp : p ∉ ps := fun hp => h.1 (hq ▸ List.mem_map_of_mem hp)
        rw [if_pos hq, or_iff_left hp, Option.some.injEq]
        exact ⟨fun heq => by rw [heq], fun hclock => by
          cases p
          cases q
          simp_all⟩
      · rw [if_neg hq, ← ih h.2]
        exact or_iff_right fun heq => hq (by rw [heq])

/-- A call either returns OK and lists the peer, or finds a full array and leaves the
list alone. -/
theorem trackSeenPeer_cases (reallocOk : Bool) (s : SeenPeers) (siteId : Blob) (clock : Int) :
    ((trackSeenPeer reallocOk s siteId clock).2 = true ∧
        (trackSeenPeer reallocOk s siteId clock).1.peers =
          (trackSeenPeer true s siteId clock).1.peers) ∨
      (trackSeenPeer reallocOk s siteId clock).2 = false ∧
        (trackSeenPeer reallocOk s siteId clock).1 = { s with capacity := s.capacity * 2 } ∧
        s.peers.length = s.capacity ∧ siteId ∉ s.peers.map SeenPeer.siteId := by
  unfold trackSeenPeer
  cases hraise : raiseClock siteId clock s.peers with
  | some qs => exact Or.inl ⟨rfl, rfl⟩
  | none =>
      have hnew : siteId ∉ s.peers.map SeenPeer.siteId := by
        simpa using raiseClock_eq_none_iff.mp hraise
      by_cases hfull : s.peers.length = s.capacity
      · cases reallocOk
        · simp [hfull]
          simpa using hnew
        · simp [hfull]
      · simp [hfull]

/-! ## Runs -/

/-- The array, with what was passed to the calls since the last reset and the site ids of
the calls that returned OK. -/
structure Tracking where
  array : PeerArray
  passed : List (Blob × Int)
  returnedOk : List Blob

/-- One call; a reallocation that it needs succeeds or not. -/
inductive TrackingCall where
  | trackSeenPeer (siteId : Blob) (clock : Int) (reallocOk : Bool)
  | resetSeenPeers

namespace Tracking

/-- After `crsql_newSeenPeers`. -/
def start : Tracking :=
  ⟨PeerArray.new, [], []⟩

def step (t : Tracking) : TrackingCall → Tracking
  | .trackSeenPeer siteId clock reallocOk =>
      let r := t.array.trackSeenPeer reallocOk siteId clock
      ⟨r.1, (siteId, clock) :: t.passed, if r.2 then siteId :: t.returnedOk else t.returnedOk⟩
  | .resetSeenPeers => ⟨t.array.resetSeenPeers, [], []⟩

/-- The slots in use are a map from site ids to the maxima of the clocks passed. -/
structure IsMap (t : Tracking) : Prop where
  allocated : t.array.len ≤ t.array.slots.length
  full : t.array.peers.length = t.array.len
  nodup : (t.array.peers.map SeenPeer.siteId).Nodup
  greatest : ∀ p ∈ t.array.peers, IsGreatest {clock | (p.siteId, clock) ∈ t.passed} p.clock
  present : ∀ siteId ∈ t.returnedOk, siteId ∈ t.array.peers.map SeenPeer.siteId

/-- The call leaves a map, and the stored peers as they were if it returns an error. -/
def StepHolds (t : Tracking) (call : TrackingCall) : Prop :=
  (t.step call).IsMap ∧
    ∀ siteId clock reallocOk, call = .trackSeenPeer siteId clock reallocOk →
      (t.array.trackSeenPeer reallocOk siteId clock).2 = false →
        (t.step call).array.peers = t.array.peers

/-- A new peer finds a slot, or an array that can be asked to grow. -/
def Fits (t : Tracking) : TrackingCall → Prop
  | .trackSeenPeer siteId _ _ => siteId ∈ t.array.peers.map SeenPeer.siteId ∨ t.array.HasRoom
  | .resetSeenPeers => True

/-- The invariant: the array represents a list that is the map of maxima.  A site id that
was passed and is missing found the array full, and the capacity has been larger than the
array since. -/
structure Tracks (t : Tracking) (s : SeenPeers) : Prop where
  represents : t.array.Represents s
  positive : 0 < s.capacity
  allocated : s.allocated ≤ s.capacity
  sized : s.capacity * PeerArray.sizeofSeenPeer < 2 ^ 31
  nodup : (s.peers.map SeenPeer.siteId).Nodup
  greatest : ∀ p ∈ s.peers, IsGreatest {clock | (p.siteId, clock) ∈ t.passed} p.clock
  present : ∀ siteId ∈ t.returnedOk, siteId ∈ s.peers.map SeenPeer.siteId
  missing : ∀ q ∈ t.passed, q.1 ∉ s.peers.map SeenPeer.siteId →
    s.peers.length = s.allocated ∧ s.allocated < s.capacity

variable {t : Tracking} {s : SeenPeers} {siteId : Blob} {clock : Int} {reallocOk : Bool}

/-- Nothing is tracked to begin with. -/
theorem tracks_start : start.Tracks newSeenPeers where
  represents := PeerArray.represents_new
  positive := by decide
  allocated := le_rfl
  sized := by decide
  nodup := List.nodup_nil
  greatest := by simp [newSeenPeers]
  present := by simp [start]
  missing := by simp [start]

/-- What is tracked is a map. -/
theorem Tracks.isMap (h : t.Tracks s) : t.IsMap := by
  have hpeers := h.represents.peers_eq
  refine ⟨h.represents.len_le, ?_, ?_, ?_, ?_⟩
  · rw [hpeers, h.represents.len]
  · rw [hpeers]
    exact h.nodup
  · rw [hpeers]
    exact h.greatest
  · rw [hpeers]
    exact h.present

/-- A reset tracks nothing. -/
theorem Tracks.reset (h : t.Tracks s) :
    (t.step .resetSeenPeers).Tracks (CrSqlite.resetSeenPeers s) where
  represents := h.represents.reset
  positive := h.positive
  allocated := h.allocated
  sized := h.sized
  nodup := List.nodup_nil
  greatest := by simp [CrSqlite.resetSeenPeers]
  present := by simp [step]
  missing := by simp [step]

/-- Where the call fits, the array follows the list. -/
theorem Tracks.follows (h : t.Tracks s) (hfits : t.Fits (.trackSeenPeer siteId clock reallocOk)) :
    (t.array.trackSeenPeer reallocOk siteId clock).2 =
        (CrSqlite.trackSeenPeer reallocOk s siteId clock).2 ∧
      (t.array.trackSeenPeer reallocOk siteId clock).1.Represents
        (CrSqlite.trackSeenPeer reallocOk s siteId clock).1 := by
  have hcapacity := h.represents.capacity
  refine h.represents.trackSeenPeer (hcapacity ▸ h.positive) ?_ ?_ reallocOk
  · rw [h.represents.allocated, hcapacity]
    exact h.allocated
  · intro hnone
    refine hfits.resolve_left fun hmem => ?_
    rw [h.represents.peers_eq] at hmem
    obtain ⟨p, hp, rfl⟩ := List.mem_map.mp hmem
    exact raiseClock_eq_none_iff.mp hnone p hp rfl

/-- A new peer of a full list fits only into a capacity that can be doubled. -/
theorem Tracks.fits_room (h : t.Tracks s) (hfits : t.Fits (.trackSeenPeer siteId clock reallocOk))
    (hnew : siteId ∉ s.peers.map SeenPeer.siteId) :
    s.peers.length < s.allocated ∨
      s.peers.length = s.capacity ∧ s.capacity * 2 * PeerArray.sizeofSeenPeer < 2 ^ 31 := by
  have hroom := hfits.resolve_left (by rwa [h.represents.peers_eq])
  rwa [PeerArray.HasRoom, h.represents.len, h.represents.allocated, h.represents.capacity] at hroom

/-- What was passed for another site. -/
private theorem passed_cons_of_ne {passed : List (Blob × Int)} {x : Blob} (hx : x ≠ siteId) :
    {c | (x, c) ∈ (siteId, clock) :: passed} = {c | (x, c) ∈ passed} := by
  ext c
  simp [hx]

/-- What was passed for the site itself. -/
private theorem passed_cons_self {passed : List (Blob × Int)} :
    {c | (siteId, c) ∈ (siteId, clock) :: passed} = insert clock {c | (siteId, c) ∈ passed} := by
  ext c
  simp

/-- A call that returns OK raises its peer to the maximum of what was passed for it. -/
theorem Tracks.greatest_track (h : t.Tracks s)
    (hfits : t.Fits (.trackSeenPeer siteId clock reallocOk)) {p : SeenPeer}
    (hp : p ∈ (CrSqlite.trackSeenPeer true s siteId clock).1.peers) :
    IsGreatest {c | (p.siteId, c) ∈ (siteId, clock) :: t.passed} p.clock := by
  have hclock := (mem_iff_clockOf (nodup_trackSeenPeer h.nodup)).mp hp
  rw [clockOf_trackSeenPeer] at hclock
  by_cases hsite : p.siteId = siteId
  · rw [if_pos hsite, hsite] at hclock
    rw [hsite, passed_cons_self]
    cases hold : clockOf siteId s.peers with
    | some c =>
        rw [hold] at hclock
        have hmem : SeenPeer.mk siteId c ∈ s.peers := (mem_iff_clockOf h.nodup).mpr hold
        have hmax : max c clock = p.clock := Option.some.inj hclock
        rw [← hmax, max_comm]
        exact (h.greatest _ hmem).insert clock
    | none =>
        -- the site id is new, so nothing was passed for it: else the list is full
        rw [hold, maxVersion_none_left, Option.some.injEq] at hclock
        have hnew : siteId ∉ s.peers.map SeenPeer.siteId := fun hmem => mem_siteIds_iff.mp hmem hold
        have hempty : {c | (siteId, c) ∈ t.passed} = ∅ := by
          refine Set.eq_empty_of_forall_notMem fun c hc => ?_
          have hmissing := h.missing (siteId, c) hc hnew
          have hroom := h.fits_room hfits hnew
          omega
        rw [hempty, ← hclock]
        simp
  · rw [if_neg hsite] at hclock
    rw [passed_cons_of_ne hsite]
    exact h.greatest p ((mem_iff_clockOf h.nodup).mpr hclock)

/-- A tracked peer is seen. -/
theorem mem_siteIds_trackSeenPeer {x : Blob} :
    x ∈ (CrSqlite.trackSeenPeer true s siteId clock).1.peers.map SeenPeer.siteId ↔
      x = siteId ∨ x ∈ s.peers.map SeenPeer.siteId := by
  rw [mem_siteIds_iff, mem_siteIds_iff, clockOf_trackSeenPeer]
  by_cases hx : x = siteId
  · subst hx
    cases clockOf x s.peers <;> simp [maxVersion]
  · simp [hx]

/-- The sizes after a call that fits. -/
theorem Tracks.sizes (h : t.Tracks s) (hfits : t.Fits (.trackSeenPeer siteId clock reallocOk)) :
    0 < (CrSqlite.trackSeenPeer reallocOk s siteId clock).1.capacity ∧
      (CrSqlite.trackSeenPeer reallocOk s siteId clock).1.allocated ≤
        (CrSqlite.trackSeenPeer reallocOk s siteId clock).1.capacity ∧
      (CrSqlite.trackSeenPeer reallocOk s siteId clock).1.capacity * PeerArray.sizeofSeenPeer <
        2 ^ 31 := by
  have hpos := h.positive
  have halloc := h.allocated
  have hroom : raiseClock siteId clock s.peers = none → _ := fun hnone =>
    h.fits_room hfits (by simpa using raiseClock_eq_none_iff.mp hnone)
  unfold CrSqlite.trackSeenPeer
  cases hraise : raiseClock siteId clock s.peers with
  | some qs => exact ⟨hpos, halloc, h.sized⟩
  | none =>
      have hroom := hroom hraise
      have hsized := h.sized
      by_cases hfull : s.peers.length = s.capacity
      · have hlarge : s.capacity * 2 * PeerArray.sizeofSeenPeer < 2 ^ 31 :=
          hroom.elim (fun hlt => absurd hlt (by omega)) And.right
        cases reallocOk
        · simp only [hfull, if_true, if_false, Bool.false_eq_true]
          exact ⟨by omega, by omega, hlarge⟩
        · simp only [hfull, if_true]
          exact ⟨by omega, le_rfl, hlarge⟩
      · simp only [hfull, if_false]
        exact ⟨hpos, halloc, hsized⟩

/-- A call that fits keeps the invariant, and returns an error only with the stored peers
as they were. -/
theorem Tracks.track (h : t.Tracks s) (hfits : t.Fits (.trackSeenPeer siteId clock reallocOk)) :
    (t.step (.trackSeenPeer siteId clock reallocOk)).Tracks
        (CrSqlite.trackSeenPeer reallocOk s siteId clock).1 ∧
      ((t.array.trackSeenPeer reallocOk siteId clock).2 = false →
        (CrSqlite.trackSeenPeer reallocOk s siteId clock).1.peers = s.peers) := by
  obtain ⟨hreturns, hrepresents⟩ := h.follows hfits
  obtain ⟨hpos, halloc, hsized⟩ := h.sizes hfits
  rcases trackSeenPeer_cases reallocOk s siteId clock with ⟨hok, hpeers⟩ | ⟨herr, hs, hfull, hnew⟩
  · rw [hok] at hreturns
    refine ⟨⟨hrepresents, hpos, halloc, hsized, ?_, ?_, ?_, ?_⟩, fun hfalse => ?_⟩
    · rw [hpeers]
      exact nodup_trackSeenPeer h.nodup
    · rw [hpeers]
      exact fun p hp => h.greatest_track hfits hp
    · intro x hx
      rw [hpeers, mem_siteIds_trackSeenPeer]
      simp only [step, hreturns, if_true, List.mem_cons] at hx
      exact hx.imp id (h.present x)
    · intro q hq hmissing
      rw [hpeers, mem_siteIds_trackSeenPeer, not_or] at hmissing
      have hpassed : q ∈ t.passed :=
        (List.mem_cons.mp hq).resolve_left fun heq => hmissing.1 (by rw [heq])
      have hsize := h.missing q hpassed hmissing.2
      -- the list is full, so the call found its site id in it
      cases hraise : raiseClock siteId clock s.peers with
      | some qs =>
          have hlen := PeerArray.length_raiseClock hraise
          simpa [CrSqlite.trackSeenPeer, hraise, hlen] using hsize
      | none =>
          have hroom := h.fits_room hfits (by simpa using raiseClock_eq_none_iff.mp hraise)
          omega
    · rw [hreturns] at hfalse
      exact absurd hfalse (by decide)
  · rw [herr] at hreturns
    have hlen := h.represents.len_le
    rw [h.represents.len, h.represents.allocated] at hlen
    have hold := h.allocated
    rw [hs] at hpos halloc hsized hrepresents ⊢
    refine ⟨⟨hrepresents, hpos, halloc, hsized, h.nodup, ?_, ?_, ?_⟩, fun _ => rfl⟩
    · intro p hp
      have hne : p.siteId ≠ siteId := fun heq => hnew (heq ▸ List.mem_map_of_mem hp)
      change IsGreatest {c | (p.siteId, c) ∈ (siteId, clock) :: t.passed} p.clock
      rw [passed_cons_of_ne hne]
      exact h.greatest p hp
    · intro x hx
      simp only [step, hreturns, Bool.false_eq_true, if_false] at hx
      exact h.present x hx
    · intro q _ _
      change s.peers.length = s.allocated ∧ s.allocated < s.capacity * 2
      have hpos := h.positive
      omega

/-- A call that does not fit writes past the array, or frees it. -/
theorem Tracks.not_stepHolds (h : t.Tracks s) {call : TrackingCall} (hfits : ¬ t.Fits call) :
    ¬ t.StepHolds call := by
  cases call with
  | resetSeenPeers => exact absurd trivial hfits
  | trackSeenPeer siteId clock reallocOk =>
      intro hholds
      have hbound := hholds.1.allocated
      simp only [Fits, not_or] at hfits
      obtain ⟨hnew, hroom⟩ := hfits
      rw [h.represents.peers_eq] at hnew
      have hnone : raiseClock siteId clock s.peers = none :=
        raiseClock_eq_none_iff.mpr (by simpa using hnew)
      have hraise : PeerArray.raiseSlots siteId clock t.array.len t.array.slots = none := by
        rw [h.represents.raiseSlots, hnone]
        rfl
      have hlen := h.represents.len_le
      have hcapacity := h.represents.capacity
      have hpos := h.positive
      have hsized := h.sized
      simp only [PeerArray.HasRoom, not_or, not_and, not_lt] at hroom
      by_cases hfull : t.array.len = t.array.capacity
      · have hgrown := PeerArray.trackSeenPeer_of_ge hraise hfull (hroom.2 hfull)
          (by unfold PeerArray.sizeofSeenPeer at *; omega) reallocOk
        simp only [step, hgrown, List.length_nil] at hbound
        omega
      · have hassign := PeerArray.trackSeenPeer_of_not_full hraise hfull reallocOk
        simp only [step, hassign, PeerArray.assign, List.length_set] at hbound
        omega

/-- A call does what it should exactly when the peer fits. -/
theorem Tracks.stepHolds_iff (h : t.Tracks s) (call : TrackingCall) :
    t.StepHolds call ↔ t.Fits call := by
  refine ⟨fun hholds => by_contra fun hfits => h.not_stepHolds hfits hholds, fun hfits => ?_⟩
  cases call with
  | resetSeenPeers => exact ⟨h.reset.isMap, fun _ _ _ hcall => nomatch hcall⟩
  | trackSeenPeer siteId clock reallocOk =>
      obtain ⟨htracks, hpeers⟩ := h.track hfits
      refine ⟨htracks.isMap, fun siteId' clock' reallocOk' hcall hfalse => ?_⟩
      cases hcall
      rw [htracks.represents.peers_eq, h.represents.peers_eq]
      exact hpeers hfalse

/-- The slots in use are a map of maxima after every call of exactly the runs in which each
new peer fits: there is a slot that is really allocated, or the array is full, its capacity
is the one that was allocated, and twice its size is an `int`. -/
theorem maxima_run_iff (calls : List TrackingCall) :
    start.IsMap ∧
      (Run.Allowed step StepHolds start calls ↔ Run.Allowed step Fits start calls) := by
  refine ⟨tracks_start.isMap, Run.allowed_congr (fun t => ∃ s, t.Tracks s) ?_ ?_
    ⟨_, tracks_start⟩⟩
  · rintro t call ⟨s, h⟩
    exact h.stepHolds_iff call
  · rintro t call ⟨s, h⟩ hfits
    cases call with
    | resetSeenPeers => exact ⟨_, h.reset⟩
    | trackSeenPeer siteId clock reallocOk => exact ⟨_, (h.track hfits).1⟩

/-- Five peers fill the array, the growth for the sixth fails and the seventh is written
behind the last slot. -/
theorem failed_growth_writes_past_array :
    ¬ ∀ calls, start.IsMap ∧ Run.Allowed step StepHolds start calls := by
  intro h
  let calls : List TrackingCall :=
    [.trackSeenPeer [1] 1 true, .trackSeenPeer [2] 1 true, .trackSeenPeer [3] 1 true,
      .trackSeenPeer [4] 1 true, .trackSeenPeer [5] 1 true, .trackSeenPeer [6] 1 false]
  have hallowed := (h (calls ++ [.trackSeenPeer [7] 1 true])).2
  have hlast := (Run.allowed_append.mp hallowed).2.1.1.allocated
  exact absurd hlast (by decide)

end Tracking

end CrSqlite
