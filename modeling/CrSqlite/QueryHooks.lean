import CrSqlite.Library.Run
import CrSqlite.Library.Str
import Mathlib.Data.Nat.Basic

/-!
# QueryHooks - the state behind a query hook

The state machine of `useAsyncQuery` (js/react/src/queryHooks.ts).  A query is prepared,
then fetched with the bindings of the hook, and fetched again when bindings or tables
change.  Promises are not cancelled: their callbacks compare identities.  The statement is
the interface `StmtAsync`: `all` executes it with what is bound then, unless it is answered
with the promise of an execution in flight.

Main results:

- Theorem {lit}`shows_current`: in runs whose fetches find the current bindings bound and in
  which a superseded fetch does not fail, the snapshot is of a current execution.
-/

namespace CrSqlite

/-- `QueryData`. -/
structure QueryData (δ ε : Type) where
  loading : Bool
  error : Option ε
  data : List δ
deriving DecidableEq

/-- `StmtAsync`: its text and the values bound so far. -/
structure HookStmt (ν : Type) where
  sql : Str
  bound : List ν
deriving DecidableEq

/-- An execution of a statement, and when it began. -/
structure Execution (ν : Type) where
  sql : Str
  bound : List ν
  startedAt : Nat
deriving DecidableEq

/-- The promise of `prepareAndGetUsedTables` with its callback.  Once the callback has run
it is settled with the statement or with null. -/
inductive PreparePromise where
  | pending (query : Str)
  | settled (hasStmt : Bool)
  | rejected
deriving DecidableEq

/-- The promise of a `fetch`: chained to the promise of a prepare, or of an execution. -/
inductive FetchPromise (ν : Type) where
  | chained (preparePromise : Nat) (rebind : Bool)
  | executing (e : Execution ν)
  | finished
deriving DecidableEq

/-- `AsyncResultStateMachine` with the promises it has made.  Data and errors are kept with
the execution they come from, and notifications with the time they arrived. -/
structure AsyncResultStateMachine (ν δ ε : Type) where
  pendingFetchPromise : Option Nat
  pendingPreparePromise : Option Nat
  stmt : Option (HookStmt ν)
  queriedTables : Option (List Str)
  data : Option (QueryData δ ε × Execution ν)
  error : Option (QueryData δ ε × Execution ν)
  disposed : Bool
  query : Str
  bindings : Option (List ν)
  prepares : List PreparePromise
  fetches : List (FetchPromise ν)
  now : Nat
  notified : List (Nat × Option (List Str))
deriving DecidableEq

/-- What can happen to the state machine.  `joins` is the fetch whose execution a call of
`all` is answered with. -/
inductive HookEvent (ν δ ε : Type) where
  | getSnapshot (joins : Option Nat)
  | respondToQueryChange (query : Str)
  | respondToBindingsChange (bindings : List ν) (joins : Option Nat)
  | respondToDatabaseChange (changedTbls : Option (List Str)) (joins : Option Nat)
  | prepared (preparePromise : Nat)
  | prepareFails (preparePromise : Nat)
  | fetchChained (fetchPromise : Nat) (joins : Option Nat)
  | allReturns (fetchPromise : Nat) (data : List δ)
  | allFails (fetchPromise : Nat) (error : ε)
  | dispose

/-- `bind` sets the first parameters. -/
def HookStmt.bind {ν : Type} (args : List ν) (stmt : HookStmt ν) : HookStmt ν :=
  { stmt with bound := args ++ stmt.bound.drop args.length }

namespace AsyncResultStateMachine

variable {ν δ ε : Type}

/-! ## The methods -/

/-- `new AsyncResultStateMachine`. -/
def new (query : Str) (bindings : Option (List ν)) : AsyncResultStateMachine ν δ ε where
  pendingFetchPromise := none
  pendingPreparePromise := none
  stmt := none
  queriedTables := none
  data := none
  error := none
  disposed := false
  query := query
  bindings := bindings
  prepares := []
  fetches := []
  now := 0
  notified := []

/-- The values of `this.bindings || []`. -/
def values (s : AsyncResultStateMachine ν δ ε) : List ν :=
  s.bindings.getD []

/-- `prepare`. -/
def prepare (s : AsyncResultStateMachine ν δ ε) : AsyncResultStateMachine ν δ ε :=
  { s with
    queriedTables := none
    error := none
    data := none
    pendingFetchPromise := none
    stmt := none
    prepares := s.prepares ++ [.pending s.query]
    pendingPreparePromise := some s.prepares.length }

/-- The execution that a call of `all` is answered with. -/
def all (stmt : HookStmt ν) (joins : Option Nat) (s : AsyncResultStateMachine ν δ ε) :
    Execution ν :=
  match joins.bind fun j => s.fetches[j]? with
  | some (.executing e) => e
  | _ => ⟨stmt.sql, stmt.bound, s.now⟩

/-- `fetchInternal` from where it has a statement; its promise becomes the `j`-th fetch. -/
def fetchInternal (j : Nat) (stmt : HookStmt ν) (rebind : Bool) (joins : Option Nat)
    (s : AsyncResultStateMachine ν δ ε) : AsyncResultStateMachine ν δ ε :=
  let stmt := if rebind then stmt.bind s.values else stmt
  { s with
    stmt := some stmt
    fetches := s.fetches.set j (.executing (s.all stmt joins))
    pendingFetchPromise := some j }

/-- `fetch`.  There is a prepare to chain to where there is no statement. -/
def fetch (rebind : Bool) (joins : Option Nat) (s : AsyncResultStateMachine ν δ ε) :
    AsyncResultStateMachine ν δ ε :=
  let s := { s with error := none, data := none }
  let j := s.fetches.length
  match s.stmt, s.pendingPreparePromise with
  | some stmt, _ => fetchInternal j stmt rebind joins { s with fetches := s.fetches ++ [.finished] }
  | none, some i =>
      { s with fetches := s.fetches ++ [.chained i rebind], pendingFetchPromise := some j }
  | none, none => s

/-- `getSnapshot`, apart from what it returns. -/
def getSnapshot (rebind : Bool) (joins : Option Nat) (s : AsyncResultStateMachine ν δ ε) :
    AsyncResultStateMachine ν δ ε :=
  if s.disposed ∨ s.data.isSome ∨ s.error.isSome then s
  else
    let s := if s.pendingPreparePromise = none then s.prepare else s
    if s.pendingFetchPromise = none then s.fetch rebind joins else s

/-- What every response clears: the fetch in flight and what is shown. -/
def cancelFetch (s : AsyncResultStateMachine ν δ ε) : AsyncResultStateMachine ν δ ε :=
  { s with pendingFetchPromise := none, error := none, data := none }

/-- `respondToQueryChange`. -/
def respondToQueryChange (query : Str) (s : AsyncResultStateMachine ν δ ε) :
    AsyncResultStateMachine ν δ ε :=
  if s.disposed then s
  else
    getSnapshot true none
      (cancelFetch { s with query := query, pendingPreparePromise := none, queriedTables := none })

def setBindings (bindings : List ν) (s : AsyncResultStateMachine ν δ ε) :
    AsyncResultStateMachine ν δ ε :=
  { s with bindings := some bindings }

/-- `respondToBindingsChange`. -/
def respondToBindingsChange (bindings : List ν) (joins : Option Nat)
    (s : AsyncResultStateMachine ν δ ε) : AsyncResultStateMachine ν δ ε :=
  if s.disposed then s
  else getSnapshot true joins (s.setBindings bindings).cancelFetch

/-- A notification of null names every table. -/
def names (changedTbls : Option (List Str)) (tables : List Str) : Bool :=
  match changedTbls with
  | none => true
  | some changed => tables.any changed.contains

/-- The guard of `respondToDatabaseChange`. -/
def heeds (changedTbls : Option (List Str)) (s : AsyncResultStateMachine ν δ ε) : Bool :=
  changedTbls.isNone || s.queriedTables.any (names changedTbls)

/-- `respondToDatabaseChange`. -/
def respondToDatabaseChange (changedTbls : Option (List Str)) (joins : Option Nat)
    (s : AsyncResultStateMachine ν δ ε) : AsyncResultStateMachine ν δ ε :=
  if s.disposed ∨ s.heeds changedTbls = false then s
  else getSnapshot false joins s.cancelFetch

/-- The statement and the tables of a query are there, and the callback runs. -/
def prepared (usedTables : Str → List Str) (i : Nat) (s : AsyncResultStateMachine ν δ ε) :
    AsyncResultStateMachine ν δ ε :=
  match s.prepares[i]? with
  | some (.pending query) =>
      if s.pendingPreparePromise = some i then
        { s with
          prepares := s.prepares.set i (.settled true)
          stmt := some ⟨query, []⟩
          queriedTables := some (usedTables query) }
      else { s with prepares := s.prepares.set i (.settled false) }
  | _ => s

def prepareFails (i : Nat) (s : AsyncResultStateMachine ν δ ε) : AsyncResultStateMachine ν δ ε :=
  match s.prepares[i]? with
  | some (.pending _) => { s with prepares := s.prepares.set i .rejected }
  | _ => s

/-- The callback that `fetch` has chained to the promise of a prepare. -/
def fetchChained (j : Nat) (joins : Option Nat) (s : AsyncResultStateMachine ν δ ε) :
    AsyncResultStateMachine ν δ ε :=
  match s.fetches[j]? with
  | some (.chained i rebind) =>
      match s.prepares[i]? with
      | some (.settled true) =>
          match s.stmt with
          | some stmt =>
              if s.pendingFetchPromise = some j then fetchInternal j stmt rebind joins s
              else { s with fetches := s.fetches.set j .finished }
          | none => { s with fetches := s.fetches.set j .finished }
      | some (.settled false) | some .rejected => { s with fetches := s.fetches.set j .finished }
      | _ => s
  | _ => s

/-- The callback of an execution that returned. -/
def allReturns (j : Nat) (data : List δ) (s : AsyncResultStateMachine ν δ ε) :
    AsyncResultStateMachine ν δ ε :=
  match s.fetches[j]? with
  | some (.executing e) =>
      let s := { s with fetches := s.fetches.set j .finished }
      if s.pendingFetchPromise = some j then { s with data := some (⟨false, none, data⟩, e) } else s
  | _ => s

/-- The callback of an execution that failed; it does not look at the pending promise. -/
def allFails (j : Nat) (error : ε) (s : AsyncResultStateMachine ν δ ε) :
    AsyncResultStateMachine ν δ ε :=
  match s.fetches[j]? with
  | some (.executing e) =>
      { s with
        fetches := s.fetches.set j .finished
        error := some (⟨false, some error, (s.data.map fun d => d.1.data).getD []⟩, e) }
  | _ => s

/-- `dispose`. -/
def dispose (s : AsyncResultStateMachine ν δ ε) : AsyncResultStateMachine ν δ ε :=
  { s with disposed := true, stmt := none }

/-- The next instant. -/
def tick (s : AsyncResultStateMachine ν δ ε) : AsyncResultStateMachine ν δ ε :=
  { s with now := s.now + 1 }

/-- A notification arrives. -/
def notify (changedTbls : Option (List Str)) (s : AsyncResultStateMachine ν δ ε) :
    AsyncResultStateMachine ν δ ε :=
  { s with notified := (s.now, changedTbls) :: s.notified }

/-- An event at the next instant. -/
def step (usedTables : Str → List Str) (s : AsyncResultStateMachine ν δ ε)
    (event : HookEvent ν δ ε) : AsyncResultStateMachine ν δ ε :=
  match event with
  | .getSnapshot joins => s.tick.getSnapshot false joins
  | .respondToQueryChange query => s.tick.respondToQueryChange query
  | .respondToBindingsChange bindings joins => s.tick.respondToBindingsChange bindings joins
  | .respondToDatabaseChange changedTbls joins =>
      (s.tick.notify changedTbls).respondToDatabaseChange changedTbls joins
  | .prepared i => s.tick.prepared usedTables i
  | .prepareFails i => s.tick.prepareFails i
  | .fetchChained j joins => s.tick.fetchChained j joins
  | .allReturns j data => s.tick.allReturns j data
  | .allFails j error => s.tick.allFails j error
  | .dispose => s.tick.dispose

/-- What `getSnapshot` returns, with the execution it comes from; none stands for the error
that says disposed. -/
def snapshot (s : AsyncResultStateMachine ν δ ε) :
    Option (QueryData δ ε × Option (Execution ν)) :=
  if s.disposed then none
  else
    match s.data, s.error with
    | some (d, e), _ => some (d, some e)
    | none, some (d, e) => some (d, some e)
    | none, none => some (⟨true, none, []⟩, none)

/-! ## Current executions -/

section Current

variable (usedTables : Str → List Str)

/-- An execution of the current query with the current bindings, begun after the last
notification that names one of the query's tables. -/
def Current (s : AsyncResultStateMachine ν δ ε) (e : Execution ν) : Prop :=
  e.sql = s.query ∧ e.bound = s.values ∧
    ∀ n ∈ s.notified, names n.2 (usedTables s.query) = true → n.1 ≤ e.startedAt

/-- What the snapshot shows comes from a current execution. -/
def ShowsCurrent (s : AsyncResultStateMachine ν δ ε) : Prop :=
  ∀ d e, s.snapshot = some (d, some e) → s.Current usedTables e

/-- The promise that an event settles is not the pending one. -/
def Superseded (s : AsyncResultStateMachine ν δ ε) : HookEvent ν δ ε → Prop
  | .prepared i | .prepareFails i => s.pendingPreparePromise ≠ some i
  | .fetchChained j _ | .allReturns j _ | .allFails j _ => s.pendingFetchPromise ≠ some j
  | _ => False

/-- The snapshot is of a current execution after the event, and the same as before where a
superseded promise was settled. -/
def StepHolds (s : AsyncResultStateMachine ν δ ε) (event : HookEvent ν δ ε) : Prop :=
  (s.step usedTables event).ShowsCurrent usedTables ∧
    (s.Superseded event → (s.step usedTables event).snapshot = s.snapshot)

/-- A fetch that begins has the current bindings bound: it binds them and no longer list was
bound before, or they were bound already.  And it joins no execution that is not current. -/
def Ready (rebind : Bool) (joins : Option Nat) (s : AsyncResultStateMachine ν δ ε) : Prop :=
  ∀ stmt, s.stmt = some stmt →
    (if rebind then stmt.bound.length ≤ s.values.length else stmt.bound = s.values) ∧
      ∀ j e, joins = some j → s.fetches[j]? = some (.executing e) → s.Current usedTables e

/-- The condition on an event: a fetch that begins is ready, and no superseded execution
fails while there is no data. -/
def Careful (s : AsyncResultStateMachine ν δ ε) : HookEvent ν δ ε → Prop
  | .respondToBindingsChange bindings joins =>
      s.disposed = true ∨ (s.setBindings bindings).Ready usedTables true joins
  | .respondToDatabaseChange changedTbls joins =>
      s.disposed = true ∨ s.heeds changedTbls = false ∨
        (s.tick.notify changedTbls).Ready usedTables false joins
  | .fetchChained j joins =>
      s.disposed = true ∨ ∀ i rebind, s.fetches[j]? = some (.chained i rebind) →
        s.pendingFetchPromise = some j → Ready usedTables rebind joins s
  | .allFails j _ =>
      s.disposed = true ∨ ∀ e, s.fetches[j]? = some (.executing e) →
        s.pendingFetchPromise = some j ∨ s.data.isSome = true
  | _ => True

/-- The invariant while the machine is not disposed. -/
structure Inv (s : AsyncResultStateMachine ν δ ε) : Prop where
  data : ∀ d e, s.data = some (d, e) → s.Current usedTables e
  error : s.data = none → ∀ d e, s.error = some (d, e) → s.Current usedTables e
  executing : ∀ j e, s.pendingFetchPromise = some j → s.fetches[j]? = some (.executing e) →
    s.Current usedTables e ∧ s.stmt ≠ none
  stmt : ∀ stmt, s.stmt = some stmt → stmt.sql = s.query ∧
    s.queriedTables = some (usedTables s.query) ∧ s.pendingFetchPromise ≠ none
  no_stmt : s.stmt = none → s.data = none ∧ s.error = none ∧ s.queriedTables = none
  waits : s.pendingPreparePromise ≠ none → s.pendingFetchPromise ≠ none
  pending : ∀ i query, s.pendingPreparePromise = some i → s.prepares[i]? = some (.pending query) →
    query = s.query
  time : ∀ n ∈ s.notified, n.1 ≤ s.now

/-- The invariant where a fetch is to begin. -/
structure Reset (s : AsyncResultStateMachine ν δ ε) : Prop where
  disposed : s.disposed = false
  data : s.data = none
  error : s.error = none
  fetch : s.pendingFetchPromise = none
  stmt : ∀ stmt, s.stmt = some stmt → stmt.sql = s.query ∧
    s.queriedTables = some (usedTables s.query)
  no_stmt : s.stmt = none → s.queriedTables = none
  pending : ∀ i query, s.pendingPreparePromise = some i → s.prepares[i]? = some (.pending query) →
    query = s.query
  time : ∀ n ∈ s.notified, n.1 ≤ s.now

variable {usedTables} {s : AsyncResultStateMachine ν δ ε}

/-- A new machine shows nothing yet. -/
theorem inv_new (query : Str) (bindings : Option (List ν)) :
    (new query bindings : AsyncResultStateMachine ν δ ε).Inv usedTables := by
  constructor <;> simp [new]

/-- A machine that settles shows what is current. -/
theorem Inv.showsCurrent (h : s.Inv usedTables) : s.ShowsCurrent usedTables := by
  intro d e hsnapshot
  unfold snapshot at hsnapshot
  cases hdisposed : s.disposed with
  | true => simp [hdisposed] at hsnapshot
  | false =>
      cases hdata : s.data with
      | some x =>
          simp only [hdisposed, hdata, Bool.false_eq_true, if_false, Option.some.injEq,
            Prod.mk.injEq] at hsnapshot
          exact h.data x.1 e (by rw [hdata, ← hsnapshot.2])
      | none =>
          cases herror : s.error with
          | some x =>
              simp only [hdisposed, hdata, herror, Bool.false_eq_true, if_false,
                Option.some.injEq, Prod.mk.injEq] at hsnapshot
              exact h.error hdata x.1 e (by rw [herror, ← hsnapshot.2])
          | none => simp [hdisposed, hdata, herror] at hsnapshot

/-- The execution that a ready fetch is answered with is current. -/
theorem current_all {stmt : HookStmt ν} {joins : Option Nat} (hsql : stmt.sql = s.query)
    (hbound : stmt.bound = s.values)
    (hjoins : ∀ j e, joins = some j → s.fetches[j]? = some (.executing e) → s.Current usedTables e)
    (htime : ∀ n ∈ s.notified, n.1 ≤ s.now) : s.Current usedTables (s.all stmt joins) := by
  have hfresh : s.Current usedTables ⟨stmt.sql, stmt.bound, s.now⟩ :=
    ⟨hsql, hbound, fun n hn _ => htime n hn⟩
  unfold all
  cases hj : joins with
  | none => exact hfresh
  | some j =>
      rw [Option.bind_some]
      cases hfetch : s.fetches[j]? with
      | none => exact hfresh
      | some f =>
          cases f with
          | executing e => exact hjoins j e hj hfetch
          | chained i rebind => exact hfresh
          | finished => exact hfresh

/-- A statement to which the bindings are bound when it is ready. -/
theorem bound_of_ready {stmt : HookStmt ν} {rebind : Bool}
    (h : if rebind then stmt.bound.length ≤ s.values.length else stmt.bound = s.values) :
    (if rebind then stmt.bind s.values else stmt).bound = s.values := by
  cases rebind with
  | true =>
      change s.values ++ stmt.bound.drop s.values.length = s.values
      rw [List.drop_eq_nil_of_le h, List.append_nil]
  | false => exact h

/-- A ready fetch that executes leaves the invariant. -/
theorem inv_fetchInternal {j : Nat} {stmt : HookStmt ν} {rebind : Bool} {joins : Option Nat}
    (hsql : stmt.sql = s.query) (htables : s.queriedTables = some (usedTables s.query))
    (hready : if rebind then stmt.bound.length ≤ s.values.length else stmt.bound = s.values)
    (hjoins : ∀ j e, joins = some j → s.fetches[j]? = some (.executing e) → s.Current usedTables e)
    (hdata : ∀ d e, s.data = some (d, e) → s.Current usedTables e)
    (herror : s.data = none → ∀ d e, s.error = some (d, e) → s.Current usedTables e)
    (hpending : ∀ i query, s.pendingPreparePromise = some i →
      s.prepares[i]? = some (.pending query) → query = s.query)
    (htime : ∀ n ∈ s.notified, n.1 ≤ s.now) :
    (s.fetchInternal j stmt rebind joins).Inv usedTables := by
  have hsql' : (if rebind then stmt.bind s.values else stmt).sql = s.query := by
    cases rebind <;> exact hsql
  have hcurrent := current_all hsql' (bound_of_ready hready) hjoins htime
  refine ⟨hdata, herror, ?_, ?_, ?_, ?_, hpending, htime⟩
  · intro j' e hj' he
    obtain rfl : j = j' := Option.some.inj hj'
    refine ⟨?_, by simp [fetchInternal]⟩
    change (s.fetches.set j _)[j]? = _ at he
    rw [List.getElem?_set_self'] at he
    obtain ⟨f, -, hf⟩ := Option.map_eq_some_iff.mp he
    cases hf
    exact hcurrent
  · intro stmt' hstmt'
    obtain rfl := Option.some.inj hstmt'
    exact ⟨hsql', htables, by simp [fetchInternal]⟩
  · exact fun hnone => nomatch hnone
  · exact fun _ hnone => nomatch hnone

/-- A fetch that begins leaves the invariant. -/
theorem Reset.inv_fetch (h : s.Reset usedTables) {i : Nat} (hi : s.pendingPreparePromise = some i)
    {rebind : Bool} {joins : Option Nat} (hready : s.Ready usedTables rebind joins) :
    (s.fetch rebind joins).Inv usedTables := by
  unfold AsyncResultStateMachine.fetch
  cases hstmt : s.stmt with
  | some stmt =>
      obtain ⟨hbind, hjoins⟩ := hready stmt hstmt
      refine inv_fetchInternal (h.stmt stmt hstmt).1 (h.stmt stmt hstmt).2 hbind ?_
        (fun _ _ hd => nomatch hd) (fun _ _ _ hd => nomatch hd) h.pending h.time
      intro j e hj he
      -- what is appended is no execution to join
      change (s.fetches ++ [FetchPromise.finished])[j]? = _ at he
      by_cases hlt : j < s.fetches.length
      · rw [List.getElem?_append_left hlt] at he
        exact hjoins j e hj he
      · rw [List.getElem?_append_right (by omega)] at he
        cases hsub : j - s.fetches.length <;> simp [hsub] at he
  | none =>
      simp only [hi]
      refine ⟨?_, ?_, ?_, ?_, ?_, ?_, ?_, h.time⟩
      · exact fun d e hd => nomatch hd
      · exact fun _ d e hd => nomatch hd
      · intro j e hj he
        obtain rfl : s.fetches.length = j := Option.some.inj hj
        simp at he
      · exact fun stmt hs => nomatch hs
      · exact fun _ => ⟨rfl, rfl, h.no_stmt hstmt⟩
      · exact fun _ hnone => nomatch hnone
      · intro i' query hi' hq
        exact h.pending i' query (hi.trans hi') hq

/-- A statement that is prepared again resets the machine. -/
theorem reset_prepare (hdisposed : s.disposed = false) (htime : ∀ n ∈ s.notified, n.1 ≤ s.now) :
    s.prepare.Reset usedTables where
  disposed := hdisposed
  data := rfl
  error := rfl
  fetch := rfl
  stmt := fun stmt hstmt => nomatch hstmt
  no_stmt := fun _ => rfl
  pending := by
    intro i query hi hq
    obtain rfl : s.prepares.length = i := Option.some.inj hi
    change (s.prepares ++ [PreparePromise.pending s.query])[s.prepares.length]? = _ at hq
    change query = s.query
    simpa using hq.symm
  time := htime

/-- Where there is no prepare, `getSnapshot` begins one, and the fetch waits for it. -/
theorem inv_getSnapshot_of_no_prepare (hdisposed : s.disposed = false) (hdata : s.data = none)
    (herror : s.error = none) (hprepare : s.pendingPreparePromise = none)
    (htime : ∀ n ∈ s.notified, n.1 ≤ s.now) (rebind : Bool) (joins : Option Nat) :
    (s.getSnapshot rebind joins).Inv usedTables := by
  have hreset : s.prepare.Reset usedTables := reset_prepare hdisposed htime
  have hinv : (s.prepare.fetch rebind joins).Inv usedTables :=
    hreset.inv_fetch (i := s.prepares.length) rfl fun stmt hstmt => nomatch hstmt
  have heq : s.getSnapshot rebind joins = s.prepare.fetch rebind joins := by
    simp [getSnapshot, hdisposed, hdata, herror, hprepare, hreset.fetch]
  rw [heq]
  exact hinv

/-- A machine that was reset fetches anew. -/
theorem Reset.inv_getSnapshot (h : s.Reset usedTables) {rebind : Bool} {joins : Option Nat}
    (hready : s.Ready usedTables rebind joins) : (s.getSnapshot rebind joins).Inv usedTables := by
  cases hprepare : s.pendingPreparePromise with
  | none =>
      exact inv_getSnapshot_of_no_prepare h.disposed h.data h.error hprepare h.time rebind joins
  | some i =>
      have heq : s.getSnapshot rebind joins = s.fetch rebind joins := by
        simp [getSnapshot, h.disposed, h.data, h.error, hprepare, h.fetch]
      rw [heq]
      exact h.inv_fetch hprepare hready

/-! ## The events keep the invariant -/

/-- A transaction from elsewhere moves the clock on. -/
theorem Inv.tick (h : s.Inv usedTables) : s.tick.Inv usedTables :=
  ⟨h.data, h.error, h.executing, h.stmt, h.no_stmt, h.waits, h.pending,
    fun n hn => Nat.le_succ_of_le (h.time n hn)⟩

/-- What is cleared before a fetch that uses the statement. -/
theorem Inv.reset (h : s.Inv usedTables) (hdisposed : s.disposed = false) :
    s.cancelFetch.Reset usedTables :=
  ⟨hdisposed, rfl, rfl, rfl, fun stmt hstmt => ⟨(h.stmt stmt hstmt).1, (h.stmt stmt hstmt).2.1⟩,
    fun hnone => (h.no_stmt hnone).2.2, h.pending, h.time⟩

/-- A read starts a fetch where there is none. -/
theorem Inv.getSnapshot (h : s.Inv usedTables) (joins : Option Nat) :
    (s.getSnapshot false joins).Inv usedTables := by
  by_cases hidle : s.disposed ∨ s.data.isSome ∨ s.error.isSome
  · rw [AsyncResultStateMachine.getSnapshot, if_pos hidle]
    exact h
  · simp only [not_or, Bool.not_eq_true, Option.isSome_eq_false_iff, Option.isNone_iff_eq_none]
      at hidle
    obtain ⟨hdisposed, hdata, herror⟩ := hidle
    cases hprepare : s.pendingPreparePromise with
    | none =>
        exact inv_getSnapshot_of_no_prepare hdisposed hdata herror hprepare h.time false joins
    | some i =>
        cases hfetch : s.pendingFetchPromise with
        | some j =>
            have heq : s.getSnapshot false joins = s := by
              simp [AsyncResultStateMachine.getSnapshot, hdisposed, hdata, herror, hprepare, hfetch]
            rw [heq]
            exact h
        | none =>
            have hstmt : ∀ stmt, s.stmt ≠ some stmt := fun stmt hs => (h.stmt stmt hs).2.2 hfetch
            refine Reset.inv_getSnapshot ⟨hdisposed, hdata, herror, hfetch, ?_, ?_, h.pending,
              h.time⟩ fun stmt hs => absurd hs (hstmt stmt)
            · exact fun stmt hs => absurd hs (hstmt stmt)
            · exact fun hnone => (h.no_stmt hnone).2.2

/-- A new query resets the machine. -/
theorem Inv.respondToQueryChange (h : s.Inv usedTables) (query : Str) :
    (s.respondToQueryChange query).Inv usedTables := by
  unfold AsyncResultStateMachine.respondToQueryChange
  by_cases hdisposed : s.disposed = true
  · rw [if_pos hdisposed]
    exact h
  · rw [if_neg hdisposed]
    exact inv_getSnapshot_of_no_prepare (s := cancelFetch { s with
      query := query, pendingPreparePromise := none, queriedTables := none })
      (Bool.eq_false_of_not_eq_true hdisposed) rfl rfl rfl h.time true none

/-- New bindings fetch again, when the statement is ready. -/
theorem Inv.respondToBindingsChange (h : s.Inv usedTables) {bindings : List ν} {joins : Option Nat}
    (hready : s.disposed = true ∨ (s.setBindings bindings).Ready usedTables true joins) :
    (s.respondToBindingsChange bindings joins).Inv usedTables := by
  unfold AsyncResultStateMachine.respondToBindingsChange
  by_cases hdisposed : s.disposed = true
  · rw [if_pos hdisposed]
    exact h
  · rw [if_neg hdisposed]
    have hreset := h.reset (Bool.eq_false_of_not_eq_true hdisposed)
    have hbound : (s.setBindings bindings).cancelFetch.Reset usedTables :=
      ⟨hreset.disposed, rfl, rfl, rfl, hreset.stmt, hreset.no_stmt, hreset.pending, hreset.time⟩
    exact hbound.inv_getSnapshot (hready.resolve_left hdisposed)

/-- Notifications are not in the future. -/
theorem Inv.time_notify (h : s.Inv usedTables) (changedTbls : Option (List Str)) :
    ∀ n ∈ (s.notify changedTbls).notified, n.1 ≤ s.now := by
  intro n hn
  rcases List.mem_cons.mp hn with rfl | hn
  · exact le_rfl
  · exact h.time n hn

/-- A notification that is not heeded names no table of a query that was executed. -/
theorem Inv.ignore (h : s.Inv usedTables) {changedTbls : Option (List Str)}
    (hheeds : s.heeds changedTbls = false) : (s.notify changedTbls).Inv usedTables := by
  have hkeep : s.stmt ≠ none → ∀ e, s.Current usedTables e →
      (s.notify changedTbls).Current usedTables e := by
    intro hstmt e he
    obtain ⟨stmt, hstmt⟩ := Option.ne_none_iff_exists'.mp hstmt
    refine ⟨he.1, he.2.1, fun n hn hnames => ?_⟩
    rcases List.mem_cons.mp hn with rfl | hn
    · rw [heeds, (h.stmt stmt hstmt).2.1, Option.any_some] at hheeds
      exact absurd (hnames.symm.trans (Bool.or_eq_false_iff.mp hheeds).2) (by decide)
    · exact he.2.2 n hn hnames
  refine ⟨?_, ?_, ?_, h.stmt, h.no_stmt, h.waits, h.pending, h.time_notify changedTbls⟩
  · intro d e hd
    refine hkeep (fun hnone => ?_) e (h.data d e hd)
    exact absurd ((h.no_stmt hnone).1.symm.trans hd) (by simp)
  · intro hdata d e hd
    refine hkeep (fun hnone => ?_) e (h.error hdata d e hd)
    exact absurd ((h.no_stmt hnone).2.1.symm.trans hd) (by simp)
  · intro j e hj he
    obtain ⟨hcurrent, hstmt⟩ := h.executing j e hj he
    exact ⟨hkeep hstmt e hcurrent, hstmt⟩

/-- A change that is heeded fetches again, when the statement is ready. -/
theorem Inv.respondToDatabaseChange (h : s.Inv usedTables) {changedTbls : Option (List Str)}
    {joins : Option Nat} (hdisposed : s.disposed = false)
    (hready : s.heeds changedTbls = false ∨
      (s.notify changedTbls).Ready usedTables false joins) :
    ((s.notify changedTbls).respondToDatabaseChange changedTbls joins).Inv usedTables := by
  unfold AsyncResultStateMachine.respondToDatabaseChange
  by_cases hheeds : (s.notify changedTbls).heeds changedTbls = false
  · rw [if_pos (Or.inr hheeds)]
    exact h.ignore hheeds
  · rw [if_neg (not_or.mpr ⟨by simp [notify, hdisposed], hheeds⟩)]
    have hreset := h.reset hdisposed
    have hnotified : (s.notify changedTbls).cancelFetch.Reset usedTables :=
      ⟨hreset.disposed, rfl, rfl, rfl, hreset.stmt, hreset.no_stmt, hreset.pending,
        h.time_notify changedTbls⟩
    exact hnotified.inv_getSnapshot (hready.resolve_left hheeds)

/-- A prepare that is settled is not pending any more. -/
theorem Inv.pending_set (h : s.Inv usedTables) (i : Nat) {p : PreparePromise}
    (hp : ∀ query, p ≠ .pending query) (i' : Nat) (query : Str)
    (hi' : s.pendingPreparePromise = some i')
    (hq : (s.prepares.set i p)[i']? = some (.pending query)) : query = s.query := by
  rw [List.getElem?_set] at hq
  split_ifs at hq with heq hlt
  · exact absurd (Option.some.inj hq) (hp query)
  · exact h.pending i' query hi' hq

/-- A statement that was prepared is used if it is the newest one. -/
theorem Inv.prepared (h : s.Inv usedTables) (i : Nat) :
    (s.prepared usedTables i).Inv usedTables := by
  unfold AsyncResultStateMachine.prepared
  cases hi : s.prepares[i]? with
  | none => exact h
  | some p =>
      cases p with
      | settled hasStmt => exact h
      | rejected => exact h
      | pending query =>
          by_cases hpending : s.pendingPreparePromise = some i
          · simp only [hpending, if_true]
            obtain rfl : query = s.query := h.pending i query hpending hi
            refine ⟨h.data, h.error, fun j e hj he => ⟨(h.executing j e hj he).1, by simp⟩, ?_, ?_,
              ?_, ?_, h.time⟩
            · intro stmt hstmt
              obtain rfl := Option.some.inj hstmt
              exact ⟨rfl, rfl, h.waits (by simp [hpending])⟩
            · exact fun hnone => nomatch hnone
            · exact fun _ => h.waits (by simp [hpending])
            · intro i' query hi' hq
              exact h.pending_set i (p := .settled true) (by simp) i' query (hpending.trans hi') hq
          · simp only [hpending, if_false]
            exact ⟨h.data, h.error, h.executing, h.stmt, h.no_stmt, h.waits,
              h.pending_set i (by simp), h.time⟩

/-- A statement that could not be prepared leaves an error, if it is the newest one. -/
theorem Inv.prepareFails (h : s.Inv usedTables) (i : Nat) : (s.prepareFails i).Inv usedTables := by
  unfold AsyncResultStateMachine.prepareFails
  split
  · exact ⟨h.data, h.error, h.executing, h.stmt, h.no_stmt, h.waits, h.pending_set i (by simp),
      h.time⟩
  · exact h

/-- A fetch that is over is no execution. -/
theorem Inv.executing_finished (h : s.Inv usedTables) (j : Nat) {j' : Nat} {e : Execution ν}
    (hj' : s.pendingFetchPromise = some j')
    (he : (s.fetches.set j .finished)[j']? = some (.executing e)) :
    s.Current usedTables e ∧ s.stmt ≠ none := by
  rw [List.getElem?_set] at he
  split_ifs at he with heq hlt
  · cases he
  · exact h.executing j' e hj' he

theorem Inv.finish (h : s.Inv usedTables) (j : Nat) :
    Inv usedTables { s with fetches := s.fetches.set j .finished } :=
  ⟨h.data, h.error, fun _ _ => h.executing_finished j, h.stmt, h.no_stmt, h.waits, h.pending, h.time⟩

/-- A chained fetch goes on when the statement is ready. -/
theorem Inv.fetchChained (h : s.Inv usedTables) {j : Nat} {joins : Option Nat}
    (hready : ∀ i rebind, s.fetches[j]? = some (.chained i rebind) →
      s.pendingFetchPromise = some j → s.Ready usedTables rebind joins) :
    (s.fetchChained j joins).Inv usedTables := by
  unfold AsyncResultStateMachine.fetchChained
  cases hfetch : s.fetches[j]? with
  | none => exact h
  | some f =>
      cases f with
      | executing e => exact h
      | finished => exact h
      | chained i rebind =>
          cases hprepare : s.prepares[i]? with
          | none => simpa [hprepare] using h
          | some p =>
              cases p with
              | pending query => simpa [hprepare] using h
              | rejected => simpa [hprepare] using h.finish j
              | settled hasStmt =>
                  cases hasStmt with
                  | false => simpa [hprepare] using h.finish j
                  | true =>
                      cases hstmt : s.stmt with
                      | none => simpa [hprepare, hstmt] using h.finish j
                      | some stmt =>
                          by_cases hpending : s.pendingFetchPromise = some j
                          · obtain ⟨hsql, htables, -⟩ := h.stmt stmt hstmt
                            obtain ⟨hbind, hjoins⟩ := hready i rebind hfetch hpending stmt hstmt
                            simp only [hprepare, if_pos hpending]
                            exact inv_fetchInternal hsql htables hbind hjoins h.data h.error
                              h.pending h.time
                          · simpa [hprepare, hstmt, hpending] using h.finish j

/-- The rows of a fetch are shown if it is the pending one. -/
theorem Inv.allReturns (h : s.Inv usedTables) (j : Nat) (data : List δ) :
    (s.allReturns j data).Inv usedTables := by
  unfold AsyncResultStateMachine.allReturns
  split
  · rename_i e he
    by_cases hpending : s.pendingFetchPromise = some j
    · obtain ⟨hcurrent, hstmt⟩ := h.executing j e hpending he
      simp only [if_pos hpending]
      refine ⟨?_, (fun hnone => nomatch hnone), fun _ _ => h.executing_finished j, h.stmt,
        fun hnone => absurd hnone hstmt, h.waits, h.pending, h.time⟩
      intro d e' hd
      cases hd
      exact hcurrent
    · simp only [if_neg hpending]
      exact h.finish j
  · exact h

/-- A fetch that fails leaves an error, and one that is not pending does so only over rows. -/
theorem Inv.allFails (h : s.Inv usedTables) {j : Nat} (error : ε)
    (hcareful : ∀ e, s.fetches[j]? = some (.executing e) →
      s.pendingFetchPromise = some j ∨ s.data.isSome = true) :
    (s.allFails j error).Inv usedTables := by
  unfold AsyncResultStateMachine.allFails
  split
  · rename_i e he
    refine ⟨h.data, ?_, fun _ _ => h.executing_finished j, h.stmt, ?_, h.waits, h.pending, h.time⟩
    · intro hdata d e' hd
      cases hd
      rcases hcareful e he with hpending | hsome
      · exact (h.executing j e hpending he).1
      · rw [show s.data = none from hdata] at hsome
        cases hsome
    · intro hnone
      rcases hcareful e he with hpending | hsome
      · exact absurd hnone (h.executing j e hpending he).2
      · rw [(h.no_stmt hnone).1] at hsome
        cases hsome
  · exact h

/-! ## What a superseded promise leaves alone -/

/-- The snapshot shows the rows, the error and nothing else. -/
theorem snapshot_congr {s' : AsyncResultStateMachine ν δ ε} (hdisposed : s'.disposed = s.disposed)
    (hdata : s'.data = s.data) (herror : s'.error = s.error) : s'.snapshot = s.snapshot := by
  rw [snapshot, snapshot, hdisposed, hdata, herror]

/-- A prepared statement shows nothing new. -/
theorem snapshot_prepared (i : Nat) : (s.prepared usedTables i).snapshot = s.snapshot := by
  unfold prepared
  split
  · split <;> exact snapshot_congr rfl rfl rfl
  · rfl

/-- A statement that could not be prepared shows nothing new by itself. -/
theorem snapshot_prepareFails (i : Nat) : (s.prepareFails i).snapshot = s.snapshot := by
  unfold prepareFails
  split
  · exact snapshot_congr rfl rfl rfl
  · rfl

/-- A chained fetch shows nothing new. -/
theorem snapshot_fetchChained (j : Nat) (joins : Option Nat) :
    (s.fetchChained j joins).snapshot = s.snapshot := by
  unfold fetchChained fetchInternal
  repeat' split
  all_goals exact snapshot_congr rfl rfl rfl

/-- A fetch that is not pending shows nothing. -/
theorem snapshot_allReturns {j : Nat} (hj : s.pendingFetchPromise ≠ some j) (data : List δ) :
    (s.allReturns j data).snapshot = s.snapshot := by
  unfold allReturns
  split
  · rw [if_neg hj]
    exact snapshot_congr rfl rfl rfl
  · rfl

/-- A superseded fetch that fails is not seen behind data. -/
theorem snapshot_allFails {j : Nat} (error : ε)
    (hdata : s.disposed = true ∨ ∀ e, s.fetches[j]? = some (.executing e) → s.data.isSome = true) :
    (s.allFails j error).snapshot = s.snapshot := by
  unfold allFails
  split
  · rename_i e he
    unfold snapshot
    cases hdisposed : s.disposed with
    | true => rfl
    | false =>
        have hsome := hdata.resolve_left (by simp [hdisposed]) e he
        obtain ⟨d, hd⟩ := Option.isSome_iff_exists.mp hsome
        simp only [hd, Bool.false_eq_true, if_false]
  · rfl

/-- What was superseded shows nothing any more. -/
theorem snapshot_superseded {event : HookEvent ν δ ε} (hevent : s.Superseded event)
    (hcareful : s.Careful usedTables event) : (s.step usedTables event).snapshot = s.snapshot := by
  have htick : s.tick.snapshot = s.snapshot := snapshot_congr rfl rfl rfl
  cases event with
  | prepared i => exact (snapshot_prepared i).trans htick
  | prepareFails i => exact (snapshot_prepareFails i).trans htick
  | fetchChained j joins => exact (snapshot_fetchChained j joins).trans htick
  | allReturns j data => exact (snapshot_allReturns (s := s.tick) hevent data).trans htick
  | allFails j error =>
      refine (snapshot_allFails (s := s.tick) error ?_).trans htick
      exact hcareful.imp id fun h e he => (h e he).resolve_left hevent
  | getSnapshot joins => exact hevent.elim
  | respondToQueryChange query => exact hevent.elim
  | respondToBindingsChange bindings joins => exact hevent.elim
  | respondToDatabaseChange changedTbls joins => exact hevent.elim
  | dispose => exact hevent.elim

/-! ## Runs -/

/-- A fetch disposes of nothing. -/
@[simp]
theorem disposed_fetch (rebind : Bool) (joins : Option Nat) :
    (s.fetch rebind joins).disposed = s.disposed := by
  unfold fetch
  dsimp only
  split <;> rfl

/-- A read disposes of nothing. -/
@[simp]
theorem disposed_getSnapshot (rebind : Bool) (joins : Option Nat) :
    (s.getSnapshot rebind joins).disposed = s.disposed := by
  unfold getSnapshot
  split
  · rfl
  · dsimp only
    split <;> split <;> simp [prepare]

/-- No event takes `dispose` back. -/
theorem disposed_of_step {event : HookEvent ν δ ε}
    (h : (s.step usedTables event).disposed = false) : s.disposed = false := by
  cases event with
  | getSnapshot joins => simpa [step, tick] using h
  | respondToQueryChange query =>
      simp only [step, respondToQueryChange] at h
      split at h
      · exact h
      · simpa [cancelFetch, tick] using h
  | respondToBindingsChange bindings joins =>
      simp only [step, respondToBindingsChange] at h
      split at h
      · exact h
      · simpa [cancelFetch, setBindings, tick] using h
  | respondToDatabaseChange changedTbls joins =>
      simp only [step, respondToDatabaseChange] at h
      split at h
      · exact h
      · simpa [cancelFetch, notify, tick] using h
  | prepared i =>
      simp only [step, prepared] at h
      repeat' split at h
      all_goals exact h
  | prepareFails i =>
      simp only [step, prepareFails] at h
      split at h <;> exact h
  | fetchChained j joins =>
      simp only [step, fetchChained, fetchInternal] at h
      repeat' split at h
      all_goals exact h
  | allReturns j data =>
      simp only [step, allReturns] at h
      repeat' split at h
      all_goals exact h
  | allFails j error =>
      simp only [step, allFails] at h
      split at h <;> exact h
  | dispose => cases h

/-- A careful event keeps the invariant of a machine that is not disposed. -/
theorem Inv.step (h : s.Inv usedTables) (hdisposed : s.disposed = false) {event : HookEvent ν δ ε}
    (hcareful : s.Careful usedTables event) (hkeeps : (s.step usedTables event).disposed = false) :
    (s.step usedTables event).Inv usedTables := by
  have hopen : ¬ s.disposed = true := by simp [hdisposed]
  cases event with
  | getSnapshot joins => exact h.tick.getSnapshot joins
  | respondToQueryChange query => exact h.tick.respondToQueryChange query
  | respondToBindingsChange bindings joins => exact h.tick.respondToBindingsChange hcareful
  | respondToDatabaseChange changedTbls joins =>
      exact h.tick.respondToDatabaseChange hdisposed (hcareful.resolve_left hopen)
  | prepared i => exact h.tick.prepared i
  | prepareFails i => exact h.tick.prepareFails i
  | fetchChained j joins => exact h.tick.fetchChained (hcareful.resolve_left hopen)
  | allReturns j data => exact h.tick.allReturns j data
  | allFails j error => exact h.tick.allFails error (hcareful.resolve_left hopen)
  | dispose => cases hkeeps

/-- In runs of careful events the snapshot is of a current execution, and no superseded
promise changes it. -/
theorem shows_current (query : Str) (bindings : Option (List ν))
    {events : List (HookEvent ν δ ε)}
    (hevents : Run.Allowed (AsyncResultStateMachine.step usedTables) (Careful usedTables)
      (new query bindings) events) :
    Run.Allowed (AsyncResultStateMachine.step usedTables) (StepHolds usedTables)
      (new query bindings) events := by
  have hstep : ∀ (s : AsyncResultStateMachine ν δ ε) event,
      (s.disposed = false → s.Inv usedTables) → s.Careful usedTables event →
        (s.step usedTables event).disposed = false → (s.step usedTables event).Inv usedTables :=
    fun s event h hcareful hkeeps =>
      (h (disposed_of_step hkeeps)).step (disposed_of_step hkeeps) hcareful hkeeps
  refine Run.allowed_mono (fun s => s.disposed = false → s.Inv usedTables) ?_ hstep
    (fun _ => inv_new query bindings) hevents
  intro s event h hcareful
  refine ⟨?_, fun hevent => snapshot_superseded hevent hcareful⟩
  cases hdisposed : (s.step usedTables event).disposed with
  | false => exact (hstep s event h hcareful hdisposed).showsCurrent
  | true =>
      intro d e hsnapshot
      simp [snapshot, hdisposed] at hsnapshot

/-- The hook binds a value while the query is prepared, and the fetch that bound it
returns. -/
theorem shows_current_bound :
    Run.Allowed (AsyncResultStateMachine.step fun _ => [['t']]) (StepHolds fun _ => [['t']])
      (new ['q'] none : AsyncResultStateMachine Nat Nat Nat)
      [.getSnapshot none, .respondToBindingsChange [1] none, .prepared 0, .fetchChained 0 none,
        .fetchChained 1 none, .allReturns 1 [7]] := by
  refine shows_current ['q'] none ⟨trivial, Or.inr ?_, trivial, Or.inr ?_, Or.inr ?_, trivial,
    trivial⟩
  · exact fun stmt hstmt => nomatch hstmt
  · exact fun i rebind _ hpending => absurd hpending (by decide)
  · intro i rebind hfetch _ stmt hstmt
    cases hfetch
    cases hstmt
    exact ⟨by decide, fun j e hj => nomatch hj⟩

/-- The execution of a query fails after another query took its place, and its error is
shown.  And a notification between the two callbacks of a prepare supersedes the fetch that
was to bind the value of the hook, and the statement is executed without it. -/
theorem stale_snapshots :
    ¬ Run.Allowed (AsyncResultStateMachine.step fun _ => [['t']]) (StepHolds fun _ => [['t']])
        (new ['q'] none : AsyncResultStateMachine Nat Nat Nat)
        [.getSnapshot none, .prepared 0, .fetchChained 0 none, .respondToQueryChange ['r'],
          .allFails 0 5] ∧
      ¬ Run.Allowed (AsyncResultStateMachine.step fun _ => [['t']]) (StepHolds fun _ => [['t']])
        (new ['q'] none : AsyncResultStateMachine Nat Nat Nat)
        [.getSnapshot none, .respondToBindingsChange [1] none, .prepared 0,
          .respondToDatabaseChange (some [['t']]) none, .fetchChained 0 none,
          .fetchChained 1 none, .allReturns 2 [7]] := by
  refine ⟨?_, ?_⟩
  · intro h
    have hquery := (h.2.2.2.2.1.1 _ _ rfl).1
    exact absurd hquery (by decide)
  · intro h
    have hbound := (h.2.2.2.2.2.2.1.1 _ _ rfl).2.1
    exact absurd hbound (by decide)

end Current

end AsyncResultStateMachine

end CrSqlite
