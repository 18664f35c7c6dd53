import CrSqlite.ChangesRead
import CrSqlite.Versions

/-!
# PokeNotify - when a replica pokes its peers

A temporary trigger tells the replicator of each local write while the statement runs.
The replicator asks for the version in a microtask and pokes with the answer; until then
further writes tell it nothing new.  The question waits in the queue of statements, so
it may be answered inside the transaction, with the version of its start
(js/sync-reference/p2p/src/WholeDbReplicator.ts, js/browser/wa-crsqlite).  A statement
that fails takes the questions behind it in the queue along.

Main results:

- Theorem {lit}`exec_localEntries`: a statement that the triggers do not report brings
  no local entry.
- Theorem {lit}`notifying_step`: steps whose question is answered outside of a
  transaction with local writes keep the last poke good.
- Theorem {lit}`noLostPoke_run`: after every run of such steps the last poke has told the
  version of every committed local change.
- Theorem {lit}`poke_inside_transaction_is_lost`: a question that is answered before the
  COMMIT is never asked again.
-/

namespace CrSqlite

/-! ## The triggers of the replicator -/

/-- A local statement on a row that is there, or that is inserted. -/
def LocalWrite.touches (t : CrrTable) : LocalWrite → Bool
  | .insert _ => true
  | .update i _ => i < t.rows.length
  | .delete i => i < t.rows.length

/-- The triggers call `crsql_wdbreplicator` for a row that a local statement has
inserted, updated or deleted; the sync bit is set while a change is merged. -/
def Db.fires (db : Db) : Stmt → Bool
  | .write tbl w =>
      match db.findTable tbl with
      | none => false
      | some t => w.touches t && (localWrite db.nextDbVersion t w).isSome
  | .merge _ => false

/-- A received change carries the site id of its origin. -/
def Stmt.HasOrigin : Stmt → Prop
  | .write _ _ => True
  | .merge ch => ch.siteId ≠ []

instance (s : Stmt) : Decidable s.HasOrigin :=
  match s with
  | .write _ _ => inferInstanceAs (Decidable True)
  | .merge ch => inferInstanceAs (Decidable (ch.siteId ≠ []))

/-- A write that touches nothing changes nothing. -/
private theorem localWrite_eq_self {next : Int} {t t' : CrrTable} {w : LocalWrite}
    (htouches : w.touches t = false) (h : localWrite next t w = some t') : t' = t := by
  cases w with
  | insert r => simp [LocalWrite.touches] at htouches
  | update i r =>
      have hnone : t.rows[i]? = none := by
        simpa [LocalWrite.touches] using htouches
      rw [localWrite, updateRow, hnone] at h
      exact (Option.some.inj h).symm
  | delete i =>
      have hnone : t.rows[i]? = none := by
        simpa [LocalWrite.touches] using htouches
      rw [localWrite, deleteRow, hnone] at h
      exact (Option.some.inj h).symm

section Exec

variable [Sqlite]

/-- A merge of a change with an origin brings no local entry. -/
private theorem merge_localEntry {next : Int} {ch : Change} {t t' : CrrTable}
    (hsite : ch.siteId ≠ []) (h : mergeTable next ch t = .ok t') {e : ClockEntry}
    (he : e ∈ t'.clock) (hlocal : e.siteId = none) : e ∈ t.clock := by
  rcases mergeTable_cases h with rfl | ⟨key, parts, wheres, -, -, -, -, -, -, hm⟩
  · exact he
  · obtain ⟨col, -, hclock⟩ := hm.clock_eq
    rw [hclock] at he
    rcases Keyed.mem_put.mp he with rfl | ⟨hold, -⟩
    · simp [bindSiteId, hsite] at hlocal
    · exact hold

/-- A statement that the triggers do not report brings no local entry. -/
theorem exec_localEntries {db : Db} {s : Stmt} (horigin : s.HasOrigin)
    (hfires : db.fires s = false) {t' : CrrTable} (ht' : t' ∈ (db.exec s).tables)
    {e : ClockEntry} (he : e ∈ t'.clock) (hlocal : e.siteId = none) :
    ∃ t ∈ db.tables, e ∈ t.clock := by
  rcases exec_cases db s with ⟨htables, -⟩ | ⟨t, u, ht, hstep, htables, -⟩
  · exact ⟨t', htables ▸ ht', he⟩
  · rw [htables] at ht'
    rcases mem_setTable db ht' with rfl | hold
    · refine ⟨t, findTable_mem ht, ?_⟩
      cases hstep with
      | write h =>
          rename_i tbl w
          have htouches : w.touches t = false := by
            have hfind : db.findTable tbl = some t := ht
            simpa [Db.fires, hfind, h] using hfires
          rw [localWrite_eq_self htouches h] at he
          exact he
      | merge h => exact merge_localEntry horigin h he hlocal
    · exact ⟨t', hold, he⟩

end Exec

/-! ## The connection and its replicator -/

/-- Where `crrChanged` stands: `pendingNotification` is set unless it is idle. -/
inductive Notification where
  | idle
  | microtask
  | queued
  | rejected
deriving DecidableEq

/-- A connection with its replicator.  `wrote` tells whether the open transaction has a
local write, `written` whether one was committed, and `poked` is the version last passed
to `network.poke`. -/
structure PokeSession where
  stored : Db
  current : Db
  inTx : Bool
  wrote : Bool
  written : Bool
  notification : Notification
  poked : Option Int

/-- What the application does, and when the replicator's microtask and its query run.
`reject` is the failure of a statement that was queued before them. -/
inductive PokeSessionOp where
  | begin
  | stmt (s : Stmt)
  | commit
  | rollback
  | newConnection
  | microtask
  | query
  | reject

namespace PokeSession

/-- A connection on which the replicator was just installed. -/
def init (db : Db) : PokeSession :=
  ⟨db, db, false, false, false, .idle, none⟩

/-- `crrChanged`. -/
def crrChanged (s : PokeSession) : PokeSession :=
  if s.notification = .idle then { s with notification := .microtask } else s

/-- A transaction has ended in the given state. -/
def ended (s : PokeSession) (db : Db) (written : Bool) : PokeSession :=
  { s with stored := db, current := db, inTx := false, wrote := false, written := written }

/-- A statement has led to the given state, inside the open transaction or in one of its
own. -/
def executed (s : PokeSession) (db : Db) (fired : Bool) : PokeSession :=
  if s.inTx then { s with current := db, wrote := s.wrote || fired }
  else s.ended db.commit (s.written || fired)

/-- A statement and what its triggers tell the replicator. -/
def exec [Sqlite] (s : PokeSession) (st : Stmt) : PokeSession :=
  if s.current.fires st then s.crrChanged.executed (s.current.exec st) true
  else s.executed (s.current.exec st) false

/-- The query for `crsql_dbversion()` and what follows it: the version is cached, the
flag is cleared and the peers are poked. -/
def query (s : PokeSession) : PokeSession :=
  if s.notification = .queued then
    { s with
      current := s.current.cacheDbVersion
      notification := .idle
      poked := some s.current.getDbVersion }
  else s

/-- One step. -/
def step [Sqlite] (s : PokeSession) : PokeSessionOp → PokeSession
  | .begin => { s with inTx := true }
  | .stmt st => s.exec st
  | .commit => if s.inTx then s.ended s.current.commit (s.written || s.wrote) else s
  | .rollback => if s.inTx then s.ended (Db.rollback s.stored s.current) s.written else s
  | .newConnection => s.crrChanged
  | .microtask => if s.notification = .microtask then { s with notification := .queued } else s
  | .query => s.query
  | .reject => if s.notification = .queued then { s with notification := .rejected } else s

/-- No transaction is open, no microtask is pending and no query is in flight. -/
def Quiescent (s : PokeSession) : Prop :=
  s.inTx = false ∧ (s.notification = .idle ∨ s.notification = .rejected)

/-- In a quiescent state behind a committed local write, the last poke told a version
that no committed local change exceeds. -/
def NoLostPoke (s : PokeSession) : Prop :=
  s.Quiescent → s.written = true → ∃ v, s.poked = some v ∧
    ∀ t ∈ s.stored.tables, ∀ e ∈ t.clock, e.siteId = none → e.dbVersion ≤ v

/-- The query is not answered while a transaction with local writes is open, and not
rejected.  Received changes have an origin, and versions stay below the largest
integer. -/
def AnsweredOutside [Sqlite] (s : PokeSession) : PokeSessionOp → Prop
  | .stmt st => st.HasOrigin ∧ (s.inTx = true ∨ (s.current.exec st).commit.BelowMax)
  | .commit => s.inTx = false ∨ s.current.commit.BelowMax
  | .query => s.wrote = false
  | .reject => s.notification ≠ .queued
  | _ => True

instance [Sqlite] (s : PokeSession) (op : PokeSessionOp) : Decidable (s.AnsweredOutside op) :=
  match op with
  | .stmt _ => inferInstanceAs (Decidable (_ ∧ (_ ∨ _)))
  | .commit => inferInstanceAs (Decidable (_ ∨ _))
  | .query => inferInstanceAs (Decidable (_ = _))
  | .reject => inferInstanceAs (Decidable (_ ≠ _))
  | .begin | .rollback | .newConnection | .microtask => inferInstanceAs (Decidable True)

/-! ## What holds between two steps -/

/-- Every local entry of the tables has at most the given version. -/
def Reaches (v : Int) (db : Db) : Prop :=
  ∀ t ∈ db.tables, ∀ e ∈ t.clock, e.siteId = none → e.dbVersion ≤ v

/-- Every local entry of one state is in the other. -/
def LocalSubset (db' db : Db) : Prop :=
  ∀ t' ∈ db'.tables, ∀ e ∈ t'.clock, e.siteId = none → ∃ t ∈ db.tables, e ∈ t.clock

/-- What reaches a version reaches it with less to send. -/
theorem Reaches.of_localSubset {v : Int} {db db' : Db} (h : Reaches v db)
    (hsub : LocalSubset db' db) : Reaches v db' := by
  intro t' ht' e he hlocal
  obtain ⟨t, ht, het⟩ := hsub t' ht' e he hlocal
  exact h t ht e het hlocal

/-- A transaction without local writes has the local entries of its start; one with
local writes has a notification under way; and so has a committed local write that the
last poke does not reach. -/
structure Notifying (s : PokeSession) : Prop where
  committed : s.stored.Committed
  inside : InTransaction s.stored s.current
  outside : s.inTx = false → s.wrote = false
  unwritten : s.wrote = false → LocalSubset s.current s.stored
  wrote : s.wrote = true → s.notification ≠ .idle
  live : s.notification ≠ .rejected
  poked : s.written = true →
    s.notification ≠ .idle ∨ ∃ v, s.poked = some v ∧ Reaches v s.stored

/-- Nothing has to be told to begin with. -/
theorem notifying_init {db : Db} (hdb : db.Committed) : (init db).Notifying where
  committed := hdb
  inside := .refl hdb
  outside _ := rfl
  unwritten _ t ht _ he _ := ⟨t, ht, he⟩
  wrote := nofun
  live := nofun
  poked := nofun

/-- A session that notifies loses no poke. -/
theorem Notifying.noLostPoke {s : PokeSession} (h : s.Notifying) : s.NoLostPoke := by
  rintro ⟨-, hquiet⟩ hwritten
  have hidle : s.notification = .idle := hquiet.resolve_right h.live
  exact (h.poked hwritten).resolve_left (not_not_intro hidle)

section Steps

variable [Sqlite] {s : PokeSession}

omit [Sqlite] in
/-- After `crrChanged` a notification is under way. -/
private theorem Notifying.crrChanged (h : s.Notifying) :
    s.crrChanged.Notifying ∧ s.crrChanged.notification ≠ .idle := by
  unfold PokeSession.crrChanged
  split
  · exact ⟨{ h with wrote := nofun, live := nofun, poked := fun _ => Or.inl nofun }, nofun⟩
  · rename_i hidle
    exact ⟨h, hidle⟩

omit [Sqlite] in
/-- The end of a transaction: a new local entry has its notification under way. -/
private theorem Notifying.ended (h : s.Notifying) {db : Db} (hdb : db.Committed) {written : Bool}
    (hpoked : s.notification ≠ .idle ∨ (written = s.written ∧ LocalSubset db s.stored)) :
    (s.ended db written).Notifying := by
  refine ⟨hdb, .refl hdb, fun _ => rfl, fun _ t ht _ he _ => ⟨t, ht, he⟩, nofun, h.live,
    fun hwritten => ?_⟩
  rcases hpoked with hbusy | ⟨rfl, hsub⟩
  · exact Or.inl hbusy
  · rcases h.poked hwritten with hbusy | ⟨v, hv, hreach⟩
    · exact Or.inl hbusy
    · exact Or.inr ⟨v, hv, hreach.of_localSubset hsub⟩

/-- Without a local write the statement brings no local entry. -/
private theorem Notifying.exec_localSubset (h : s.Notifying) {st : Stmt} (horigin : st.HasOrigin)
    (hwrote : s.wrote = false) (hfires : s.current.fires st = false) :
    LocalSubset (s.current.exec st) s.stored := by
  intro t' ht' e he hlocal
  obtain ⟨t, ht, het⟩ := exec_localEntries horigin hfires ht' he hlocal
  exact h.unwritten hwrote t ht e het hlocal

omit [Sqlite] in
/-- A statement that was executed: a local write has its notification under way, and
any other statement brings no local entry. -/
private theorem Notifying.executed (h : s.Notifying) {db : Db}
    (htx : InTransaction s.stored db) (hbelow : s.inTx = true ∨ db.commit.BelowMax)
    {fired : Bool} (hbusy : fired = true → s.notification ≠ .idle)
    (hsub : s.wrote = false → fired = false → LocalSubset db s.stored) :
    (s.executed db fired).Notifying := by
  unfold PokeSession.executed
  split
  · rename_i hin
    refine { h with
      inside := htx
      outside := fun hout => absurd hout (by simp [hin])
      unwritten := fun hwrote => ?_
      wrote := fun hwrote => ?_ }
    · obtain ⟨hold, hnew⟩ := Bool.or_eq_false_iff.mp hwrote
      exact hsub hold hnew
    · exact (Bool.or_eq_true_iff.mp hwrote).elim h.wrote hbusy
  · rename_i hout
    have hout : s.inTx = false := by simpa using hout
    refine h.ended (htx.committed_commit h.committed (hbelow.resolve_left (by simp [hout]))) ?_
    cases hfired : fired with
    | true => exact Or.inl (hbusy hfired)
    | false =>
        refine Or.inr ⟨Bool.or_false _, ?_⟩
        rw [LocalSubset, commit_tables]
        exact hsub (h.outside hout) hfired

/-- A statement that writes is told of. -/
private theorem Notifying.exec (h : s.Notifying) {st : Stmt}
    (hok : s.AnsweredOutside (.stmt st)) : (s.exec st).Notifying := by
  obtain ⟨horigin, hbelow⟩ := hok
  have htx := inTransaction_exec h.committed h.inside st
  unfold PokeSession.exec
  split
  · obtain ⟨hchanged, hbusy⟩ := h.crrChanged
    have hsame : s.crrChanged.inTx = s.inTx ∧ s.crrChanged.stored = s.stored := by
      unfold PokeSession.crrChanged
      split <;> exact ⟨rfl, rfl⟩
    refine hchanged.executed (by rw [hsame.2]; exact htx) (by rw [hsame.1]; exact hbelow)
      (fun _ => hbusy) nofun
  · rename_i hfires
    have hfires : s.current.fires st = false := by simpa using hfires
    exact h.executed htx hbelow nofun fun hwrote _ => h.exec_localSubset horigin hwrote hfires

omit [Sqlite] in
/-- A commit is behind a poke that will be sent. -/
private theorem Notifying.commit (h : s.Notifying) (hbelow : s.current.commit.BelowMax) :
    (s.ended s.current.commit (s.written || s.wrote)).Notifying := by
  refine h.ended (h.inside.committed_commit h.committed hbelow) ?_
  cases hwrote : s.wrote with
  | false =>
      refine Or.inr ⟨by simp, ?_⟩
      rw [LocalSubset, commit_tables]
      exact h.unwritten hwrote
  | true => exact Or.inl (h.wrote hwrote)

omit [Sqlite] in
/-- The version that is answered outside of a transaction with local writes reaches
every committed entry. -/
private theorem Notifying.query (h : s.Notifying) (hwrote : s.wrote = false) :
    s.query.Notifying := by
  unfold PokeSession.query
  split
  · have hversion := h.inside.getDbVersion_eq h.committed
    refine { h with
      inside := ⟨Or.inr hversion, h.inside.schemas, h.inside.fresh, h.inside.max⟩
      wrote := fun hw => by simp [hwrote] at hw
      live := nofun
      poked := fun _ => Or.inr ⟨_, rfl, ?_⟩ }
    intro t ht e he _
    rw [hversion]
    exact le_maxDbVersion ht he
  · exact h

/-- Every such step keeps the last poke good. -/
theorem notifying_step (op : PokeSessionOp) (h : s.Notifying) (hok : s.AnsweredOutside op) :
    (s.step op).Notifying := by
  cases op with
  | begin => exact { h with outside := nofun }
  | stmt st => exact h.exec hok
  | commit =>
      rw [step]
      split
      · rename_i hin
        exact h.commit (hok.resolve_left (by simp [hin]))
      · exact h
  | rollback =>
      rw [step]
      split
      · exact h.ended (committed_rollback h.committed _)
          (Or.inr ⟨rfl, fun t ht _ he _ => ⟨t, ht, he⟩⟩)
      · exact h
  | newConnection => exact h.crrChanged.1
  | microtask =>
      rw [step]
      split
      · exact { h with wrote := nofun, live := nofun, poked := fun _ => Or.inl nofun }
      · exact h
  | query => exact h.query hok
  | reject =>
      rw [step, if_neg hok]
      exact h

/-- After every run of such steps the last poke has told the version of every committed
local change. -/
theorem noLostPoke_run {db : Db} (hdb : db.Committed) {ops : List PokeSessionOp}
    (hops : Run.Allowed step AnsweredOutside (init db) ops) :
    NoLostPoke (Run.exec step (init db) ops) :=
  (Run.invariant Notifying (fun _ op h hok => notifying_step op h hok)
    (notifying_init hdb) hops).noLostPoke

end Steps

/-- The insertion of a row with the given key. -/
def insertKey (key : Int) : PokeSessionOp :=
  .stmt (.write ['f', 'o', 'o'] (.insert (fooRow key 2)))

/-- The run theorem applies to a run with a write of its own, a transaction that is
committed before the query, a rolled back one, and a merge in a transaction around the
query. -/
theorem noLostPoke_run_foo :
    let far : Change :=
      ⟨['f', 'o', 'o'], ['9'], ['b'], some ['9'], 1, 40, List.replicate siteIdLen 0xC3⟩
    NoLostPoke (Run.exec (@step integralSqlite) (init (fooDb [1]))
      [insertKey 1, .microtask, .begin, .query, insertKey 2, .microtask, insertKey 3, .commit,
        .query, .begin, insertKey 4, .rollback, .microtask, .begin, .stmt (.merge far), .query,
        .commit]) := by
  intro far
  exact @noLostPoke_run integralSqlite (fooDb [1])
    ⟨rfl, by decide, by decide, by decide, by decide⟩ _ (by decide +kernel)

/-- The query runs between the INSERT and the COMMIT, gets the version of the
transaction's start, and nothing asks again. -/
theorem poke_inside_transaction_is_lost :
    let s := Run.exec (@step integralSqlite) (init (fooDb [1]))
      [.begin, insertKey 1, .microtask, .query, .commit]
    s.Quiescent ∧ s.written = true ∧ s.poked = some 0 ∧ s.stored.maxDbVersion = 1 ∧
    ¬ s.NoLostPoke := by
  intro s
  have hquiet : s.Quiescent := ⟨by decide, Or.inl (by decide)⟩
  have hwritten : s.written = true := by decide
  have hpoked : s.poked = some 0 := by decide
  have hentry : ∃ t ∈ s.stored.tables, ∃ e ∈ t.clock, e.siteId = none ∧ e.dbVersion = 1 := by
    decide
  refine ⟨hquiet, hwritten, hpoked, by decide, fun h => ?_⟩
  obtain ⟨v, hv, hreach⟩ := h hquiet hwritten
  obtain ⟨t, ht, e, he, hlocal, hversion⟩ := hentry
  have hle := hreach t ht e he hlocal
  rw [hpoked, Option.some.injEq] at hv
  omega

end PokeSession

end CrSqlite
