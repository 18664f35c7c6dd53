import CrSqlite.Library.Run
import CrSqlite.Library.Str
import CrSqlite.PromiseQueue
import CrSqlite.Value

/-!
# Wrapper - the asynchronous wrapper of the browser

The calls of `DB` and `Stmt` in js/browser/wa-crsqlite/src/wrapper.ts.  A call is a task of
one queue; a call whose key is that of a call in flight gets that call's promise instead.
The key is built from the text of the statement, and a regular expression tells writes from
reads.  wa-sqlite and what JavaScript does with texts and numbers are parameters.  The
wrapper uses wa-sqlite from one task at a time, so a task is one step.

Main results:

- Theorem {lit}`Wrapper.wf_step`: every promise that a call got is pending or settled, by
  what its own task gave or by an error.
-/

namespace CrSqlite

/-! ## What is not of the wrapper -/

/-- The values that are bound and read; a typed array and an array of bytes are the same
here. -/
inductive JsValue (ν : Type) where
  | undefined
  | null
  | boolean (b : Bool)
  | number (n : ν)
  | bigint (i : Int)
  | string (s : Str)
  | bytes (b : Blob)
deriving DecidableEq

/-- What stepping a prepared statement gives, with the state after each step. -/
inductive Steps (δ ν : Type) where
  | row (values : List (JsValue ν)) (db : δ) (rest : Steps δ ν)
  | done (db : δ)
  | error (message : Str) (db : δ)

/-- JavaScript's texts and numbers, and wa-sqlite: the state of a connection with its
prepared statements and the functions of its API. -/
class WaSqlite where
  Number : Type
  toLowerCase : Str → Str
  numberToString : Number → Str
  numberOfNat : Nat → Number
  Db : Type
  /-- `statements` prepares the first statement of a text and leaves the rest. -/
  prepareNext : Str → Db → Except Str (Option (Nat × Str)) × Db
  /-- No statement of a text writes, as `sqlite3_stmt_readonly` tells of each. -/
  readOnly : Str → Bool
  finalize : Nat → Db → Db
  bind : Nat → Nat → JsValue Number → Db → Except Str Unit × Db
  columnNames : Nat → Db → List Str
  steps : Nat → Db → Steps Db Number
  reset : Nat → Db → Except Str Int × Db

/-- How a prepared statement returns rows. -/
inductive RetMode where
  | o
  | a
deriving DecidableEq

/-! ## The key of a call -/

/-- `\s` of a regular expression. -/
def isRegexSpace (c : Char) : Bool :=
  (9 ≤ c.toNat && c.toNat ≤ 13) || (0x2000 ≤ c.toNat && c.toNat ≤ 0x200A) ||
    [0x20, 0xA0, 0x1680, 0x2028, 0x2029, 0x202F, 0x205F, 0x3000, 0xFEFF].contains c.toNat

/-- A word and a space behind it. -/
def startsWithWord (word s : Str) : Bool :=
  word.isPrefixOf s && match s.drop word.length with
    | [] => false
    | c :: _ => isRegexSpace c

/-- `/insert\s|update\s|delete\s/` matches somewhere in the text. -/
def matchesWrite : Str → Bool
  | [] => false
  | c :: s =>
      startsWithWord "insert".toList (c :: s) || startsWithWord "update".toList (c :: s) ||
        startsWithWord "delete".toList (c :: s) || matchesWrite s

section Parameters

variable [WaSqlite]

open WaSqlite hiding bind

/-- The values of the parameters. -/
abbrev Value := JsValue Number

/-- `b != null ? b.toString() : "null"`. -/
def JsValue.keyText : Value → Str
  | .undefined => "null".toList
  | .null => "null".toList
  | .boolean b => (if b then "true" else "false").toList
  | .number n => numberToString n
  | .bigint i => printInt i
  | .string s => s
  | .bytes b => List.intercalate [','] (b.map fun n => Nat.toDigits 10 n.toNat)

/-- `computeCacheKey`; none is null, which stands for a write. -/
def computeCacheKey (sql : Str) (mode : RetMode) (bind : Option (List Value)) : Option Str :=
  let lower := toLowerCase sql
  if matchesWrite lower then none
  else
    match bind with
    | some values =>
        some (lower ++ '|' :: (match mode with | .o => 'o' | .a => 'a') :: '|' ::
          List.intercalate ['|'] (values.map JsValue.keyText))
    | none => some lower

/-! ## Tasks -/

/-- The connection, and the mode of each prepared statement. -/
structure World where
  db : WaSqlite.Db
  mode : Nat → RetMode

/-- An object, property by property. -/
abbrev JsObject := List (Str × Value)

/-- What the promise of a call is resolved with. -/
inductive Result where
  | null
  | code (c : Int)
  | row (r : List Value)
  | object (o : JsObject)
  | rows (rs : List (List Value))
  | objects (os : List JsObject)

/-- A computation that may throw and keeps what it did before. -/
abbrev Action (α : Type) := ExceptT Str (StateM World) α

/-- A function of the API. -/
def api {α : Type} (f : WaSqlite.Db → Except Str α × WaSqlite.Db) : Action α :=
  fun w => ((f w.db).1, { w with db := (f w.db).2 })

/-- `Stmt.bind` from a position on. -/
def bindFrom (stmt : Nat) : Nat → List Value → Action Unit
  | _, [] => pure ()
  | i, v :: vs => do
      api (WaSqlite.bind stmt (i + 1) v)
      bindFrom stmt (i + 1) vs

/-- `DB.bind` turns booleans into numbers. -/
def JsValue.asBound : Value → Value
  | .boolean b => .number (numberOfNat b.toNat)
  | v => v

/-- One step of a statement and its row. -/
def firstRow : Steps WaSqlite.Db Number → Except Str (Option (List Value)) × WaSqlite.Db
  | .row values db _ => (.ok (some values), db)
  | .done db => (.ok none, db)
  | .error message db => (.error message, db)

/-- Steps of a statement until it has no more rows. -/
def allRows : Steps WaSqlite.Db Number → Except Str (List (List Value)) × WaSqlite.Db
  | .row values _ rest => ((allRows rest).1.map (values :: ·), (allRows rest).2)
  | .done db => (.ok [], db)
  | .error message db => (.error message, db)

/-- `o[name] = v`. -/
def setProperty (name : Str) (v : Value) : JsObject → JsObject
  | [] => [(name, v)]
  | (k, w) :: o => if k = name then (k, v) :: o else (k, w) :: setProperty name v o

/-- The object of a row. -/
def toObject (columns : List Str) (row : List Value) : JsObject :=
  (columns.zipIdx).foldl
    (fun o (name, i) => setProperty name ((row[i]?).getD .undefined) o) []

/-- The body of the loop of `statements`: the columns and rows of a statement that has
columns. -/
def runStatement (values : Option (List Value)) (stmt : Nat) :
    Action (Option (List Str × List (List Value))) := do
  let columns ← api fun db => (.ok (columnNames stmt db), db)
  match values with
  | some values => bindFrom stmt 0 (values.map JsValue.asBound)
  | none => pure ()
  let rows ← api fun db => allRows (steps stmt db)
  pure (if columns = [] then none else some (columns, rows))

/-- The loop of `statements`.  Every statement takes up some of the text, and is finalized
whether it fails or not. -/
def runStatements (values : Option (List Value)) : Nat → Str →
    Action (List (List Str × List (List Value)))
  | 0, _ => pure []
  | n + 1, sql => do
      match ← api (prepareNext sql) with
      | none => pure []
      | some (stmt, rest) =>
          let result ← fun w =>
            ((runStatement values stmt w).1,
              { (runStatement values stmt w).2 with
                db := finalize stmt (runStatement values stmt w).2.db })
          let results ← runStatements values n rest
          pure (result.toList ++ results)

/-- `statements`: the rows of the first statement that has columns. -/
def statements (sql : Str) (retObjects : Bool) (values : Option (List Value)) :
    Action Result := do
  match (← runStatements values (sql.length + 1) sql).head? with
  | none => pure .null
  | some (columns, rows) =>
      pure (if retObjects then .objects (rows.map (toObject columns)) else .rows rows)

/-- A prepared statement, with the text it was prepared from. -/
structure StmtObject where
  base : Nat
  sql : Str
deriving DecidableEq

/-- The mode of a prepared statement. -/
def StmtObject.mode (s : StmtObject) : Action RetMode :=
  fun w => (.ok (w.mode s.base), w)

/-- The task of `Stmt.run`. -/
def StmtObject.runTask (s : StmtObject) (bindArgs : List Value) : Action Result := do
  bindFrom s.base 0 bindArgs
  let _ ← api fun db => firstRow (steps s.base db)
  let code ← api (reset s.base)
  pure (.code code)

/-- The task of `Stmt.get`. -/
def StmtObject.getTask (s : StmtObject) (bindArgs : List Value) : Action Result := do
  bindFrom s.base 0 bindArgs
  let mode ← s.mode
  let columns ← api fun db => (.ok (columnNames s.base db), db)
  let row ← api fun db => firstRow (steps s.base db)
  let _ ← api (reset s.base)
  match row, mode with
  | none, _ => pure .null
  | some row, .o => pure (.object (toObject columns row))
  | some row, .a => pure (.row row)

/-- The task of `Stmt.all`. -/
def StmtObject.allTask (s : StmtObject) (bindArgs : List Value) : Action Result := do
  bindFrom s.base 0 bindArgs
  let mode ← s.mode
  let columns ← api fun db => (.ok (columnNames s.base db), db)
  let rows ← api fun db => allRows (steps s.base db)
  let _ ← api (reset s.base)
  match mode with
  | .o => pure (.objects (rows.map (toObject columns)))
  | .a => pure (.rows rows)

/-! ## Calls -/

/-- A call of `DB` or `Stmt`; `bind` and `raw` do not wait for the queue. -/
inductive Call where
  | exec (sql : Str) (bind : Option (List Value))
  | execO (sql : Str) (bind : Option (List Value))
  | execA (sql : Str) (bind : Option (List Value))
  | run (s : StmtObject) (bindArgs : List Value)
  | get (s : StmtObject) (bindArgs : List Value)
  | all (s : StmtObject) (bindArgs : List Value)
  | bind (s : StmtObject) (args : List Value)
  | raw (s : StmtObject) (isRaw : Bool)

/-- What is done when the turn of a call has come. -/
inductive Task where
  | statements (sql : Str) (retObjects : Bool) (bind : Option (List Value))
  | run (s : StmtObject) (bindArgs : List Value)
  | get (s : StmtObject) (bindArgs : List Value)
  | all (s : StmtObject) (bindArgs : List Value)

/-- The task that a call enqueues. -/
def Call.task : Call → Option Task
  | .exec sql values => some (.statements sql false values)
  | .execO sql values => some (.statements sql true values)
  | .execA sql values => some (.statements sql false values)
  | .run s bindArgs => some (.run s bindArgs)
  | .get s bindArgs => some (.get s bindArgs)
  | .all s bindArgs => some (.all s bindArgs)
  | .bind _ _ => none
  | .raw _ _ => none

/-- The text of the statement that a call is about. -/
def Call.sql : Call → Str
  | .exec sql _ => sql
  | .execO sql _ => sql
  | .execA sql _ => sql
  | .run s _ => s.sql
  | .get s _ => s.sql
  | .all s _ => s.sql
  | .bind s _ => s.sql
  | .raw s _ => s.sql

/-- The text of the statement that a task performs. -/
def Task.sql : Task → Str
  | .statements sql _ _ => sql
  | .run s _ => s.sql
  | .get s _ => s.sql
  | .all s _ => s.sql

theorem Call.sql_task {c : Call} {task : Task} (h : c.task = some task) : task.sql = c.sql := by
  cases c <;> cases h <;> rfl

/-- The key that a call is enqueued under. -/
def Call.key (mode : Nat → RetMode) : Call → Option Str
  | .exec sql values => computeCacheKey sql .a values
  | .execO sql values => computeCacheKey sql .o values
  | .execA sql values => computeCacheKey sql .a values
  | .run s bindArgs => computeCacheKey s.sql (mode s.base) (some bindArgs)
  | .get s bindArgs => computeCacheKey s.sql (mode s.base) (some bindArgs)
  | .all s bindArgs => computeCacheKey s.sql (mode s.base) (some bindArgs)
  | .bind _ _ => none
  | .raw _ _ => none

/-- What the regular expression takes for a write has no key. -/
theorem Call.key_eq_none {c : Call} (h : matchesWrite (toLowerCase c.sql) = true)
    (mode : Nat → RetMode) : c.key mode = none := by
  cases c <;> simp_all [Call.key, Call.sql, computeCacheKey]

/-- The task of a call. -/
def Task.perform : Task → Action Result
  | .statements sql retObjects values => CrSqlite.statements sql retObjects values
  | .run s bindArgs => s.runTask bindArgs
  | .get s bindArgs => s.getTask bindArgs
  | .all s bindArgs => s.allTask bindArgs

/-- What a call does that enqueues nothing. -/
def Call.now : Call → Action Result
  | .bind s args => do
      bindFrom s.base 0 args
      pure .null
  | .raw s isRaw => fun w =>
      (.ok .null, { w with mode := fun n =>
        if n = s.base then (if isRaw then .a else .o) else w.mode n })
  | _ => pure .null

/-- What a call does, at once or in its turn. -/
def Call.perform (c : Call) : Action Result :=
  match c.task with
  | some t => t.perform
  | none => c.now

/-! ## The wrapper -/

/-- A task that has run, with the state before and after it. -/
structure Ran where
  promise : Nat
  before : World
  after : World

/-- A `DB` with its statements and the queue.  Promises are numbered by the calls that they
were made for; `calls` tells for each call which promise it got, `handlers` are those given
to `finally`. -/
structure Wrapper where
  world : World
  queue : PromiseQueue Task Str
  cache : List (Str × Nat)
  handlers : List (Nat × Str)
  calls : List (Call × Nat)
  settled : List (Nat × Except Str Result)
  ran : List Ran

/-- What happens: a call, the settling of the next promise of a chain, and the run of a
`finally` handler. -/
inductive WrapperOp where
  | call (c : Call)
  | settle (chain : Nat)
  | handler (promise : Nat)

namespace Wrapper

/-- A wrapper without calls. -/
def new (world : World) : Wrapper :=
  ⟨world, .new, [], [], [], [], []⟩

/-- How a promise was settled. -/
def outcome (w : Wrapper) (promise : Nat) : Option (Except Str Result) :=
  w.settled.lookup promise

/-- The promise that a call got. -/
def promiseOf (w : Wrapper) (n : Nat) : Option Nat :=
  (w.calls[n]?).map Prod.snd

/-- The call a number stands for. -/
def callOf (w : Wrapper) (n : Nat) : Option Call :=
  (w.calls[n]?).map Prod.fst

/-- The result of a call. -/
def resultOf (w : Wrapper) (n : Nat) : Option (Except Str Result) :=
  (w.promiseOf n).bind w.outcome

/-- The promise that is in the cache for a call. -/
def existing (c : Call) (w : Wrapper) : Option Nat :=
  (c.key w.world.mode).bind fun key => w.cache.lookup key

/-- The end of `serialize`: the task is added to the queue, under its key unless that is
empty.  A write has cleared the cache. -/
def enqueue (c : Call) (task : Task) (w : Wrapper) : Wrapper :=
  let promise := w.calls.length
  let w := { w with
    queue := w.queue.add promise task
    calls := w.calls ++ [(c, promise)] }
  match c.key w.world.mode with
  | none => { w with cache := [] }
  | some [] => w
  | some key => { w with
      cache := w.cache ++ [(key, promise)]
      handlers := w.handlers ++ [(promise, key)] }

/-- A call that does its work at once; its promise stands for what it returns or throws. -/
def callNow (c : Call) (w : Wrapper) : Wrapper :=
  { w with
    world := (c.now w.world).2
    calls := w.calls ++ [(c, w.calls.length)]
    settled := w.settled ++ [(w.calls.length, (c.now w.world).1)] }

/-- A call.  Without `useCache` nothing is looked up in the cache. -/
def call (useCache : Bool) (c : Call) (w : Wrapper) : Wrapper :=
  match c.task with
  | none => w.callNow c
  | some task =>
      match if useCache then w.existing c else none with
      | some promise => { w with calls := w.calls ++ [(c, promise)] }
      | none => w.enqueue c task

/-- What settles the promise at the head of a chain: its task, or the error of the promise
before it. -/
def settlement (w : Wrapper) : QueueEntry Task × Option Str → Except Str Result × World
  | (_, some e) => (.error e, w.world)
  | (x, none) => x.task.perform w.world

/-- The error that a result throws. -/
def thrown : Except Str Result → Option Str
  | .ok _ => none
  | .error e => some e

/-- The next promise of a chain is settled. -/
def settle (i : Nat) (w : Wrapper) : Wrapper :=
  match w.queue.head i with
  | none => w
  | some (x, error) =>
      let (result, world) := w.settlement (x, error)
      { w with
        world := world
        queue := w.queue.settled i x (thrown result)
        settled := w.settled ++ [(x.promise, result)]
        ran := if error.isSome then w.ran else w.ran ++ [⟨x.promise, w.world, world⟩] }

/-- `res.finally(() => cache.delete(key))`, once the promise is settled. -/
def runHandler (promise : Nat) (w : Wrapper) : Wrapper :=
  match w.outcome promise, w.handlers.lookup promise with
  | some _, some key => { w with
      cache := w.cache.filter fun entry => entry.1 ≠ key
      handlers := w.handlers.filter fun h => h.1 ≠ promise }
  | _, _ => w

/-- One step of the wrapper, with or without its cache. -/
def step (useCache : Bool) (w : Wrapper) : WrapperOp → Wrapper
  | .call c => w.call useCache c
  | .settle i => w.settle i
  | .handler promise => w.runHandler promise

/-! ## Promises -/

/-- What holds of the promises of a wrapper. -/
structure WF (w : Wrapper) : Prop where
  serial : w.queue.Serial
  sorted : ∀ ch ∈ w.queue.chains, ch.entries.Pairwise fun x y => x.promise < y.promise
  nodup : (w.queue.pending.map QueueEntry.promise).Nodup
  /-- A pending promise is that of its own call. -/
  task : ∀ x ∈ w.queue.pending, ∃ c,
    w.calls[x.promise]? = some (c, x.promise) ∧ c.task = some x.task
  unsettled : ∀ x ∈ w.queue.pending, w.outcome x.promise = none
  /-- A settled promise has the result of its own call, unless it was rejected. -/
  result : ∀ p o, w.outcome p = some o → ∃ c, w.calls[p]? = some (c, p) ∧
    ((∃ e, o = .error e) ∨ ∃ s, (c.perform s).1 = o)
  ran : ∀ r ∈ w.ran, ∃ c, w.calls[r.promise]? = some (c, r.promise) ∧
    (c.perform r.before).2 = r.after ∧ w.outcome r.promise = some (c.perform r.before).1
  /-- Every promise that was handed out is settled or pending. -/
  given : ∀ p ∈ w.calls.map Prod.snd, w.outcome p ≠ none ∨
    p ∈ w.queue.pending.map QueueEntry.promise
  cached : ∀ p ∈ w.cache.map Prod.snd, w.outcome p ≠ none ∨
    p ∈ w.queue.pending.map QueueEntry.promise

/-- A wrapper without calls. -/
theorem wf_new (world : World) : (new world).WF where
  serial := PromiseQueue.serial_new
  sorted ch hch := by
    rw [List.mem_singleton.mp hch]
    exact List.Pairwise.nil
  nodup := List.nodup_nil
  task := by simp [new, PromiseQueue.pending_new]
  unsettled := by simp [new, PromiseQueue.pending_new]
  result := by simp [new, outcome]
  ran := by simp [new]
  given := by simp [new]
  cached := by simp [new]

/-- A call keeps its number. -/
theorem getElem?_concat {calls : List (Call × Nat)} {n : Nat} {d : Call × Nat}
    (h : calls[n]? = some d) (c : Call × Nat) : (calls ++ [c])[n]? = some d := by
  rw [List.getElem?_append_left (List.getElem?_eq_some_iff.mp h).1, h]

/-- A promise that is settled next has its outcome. -/
theorem outcome_append {w w' : Wrapper} {p : Nat} {o : Except Str Result}
    (h : w'.settled = w.settled ++ [(p, o)]) (n : Nat) :
    w'.outcome n = (w.outcome n).or (if n = p then some o else none) := by
  rw [outcome, outcome, h, List.lookup_append]
  by_cases hn : n = p
  · simp [hn]
  · have hbeq : (n == p) = false := beq_false_of_ne hn
    simp [hn, hbeq, List.lookup_cons]

/-- A call with a promise that is there already. -/
theorem WF.share {w : Wrapper} (h : w.WF) (c : Call) {p : Nat} (hp : p ∈ w.cache.map Prod.snd) :
    WF { w with calls := w.calls ++ [(c, p)] } where
  serial := h.serial
  sorted := h.sorted
  nodup := h.nodup
  task x hx := by
    obtain ⟨d, hd, htask⟩ := h.task x hx
    exact ⟨d, getElem?_concat hd _, htask⟩
  unsettled := h.unsettled
  result q o ho := by
    obtain ⟨d, hd, hresult⟩ := h.result q o ho
    exact ⟨d, getElem?_concat hd _, hresult⟩
  ran r hr := by
    obtain ⟨d, hd, hran⟩ := h.ran r hr
    exact ⟨d, getElem?_concat hd _, hran⟩
  given q hq := by
    rw [List.map_append, List.mem_append] at hq
    rcases hq with hq | hq
    · exact h.given q hq
    · rw [List.mem_singleton.mp hq]
      exact h.cached p hp
  cached := h.cached

/-- The promise of the next call is new. -/
theorem WF.fresh {w : Wrapper} (h : w.WF) : w.outcome w.calls.length = none ∧
    ∀ x ∈ w.queue.pending, x.promise < w.calls.length := by
  constructor
  · by_contra hne
    obtain ⟨o, ho⟩ := Option.ne_none_iff_exists'.mp hne
    obtain ⟨c, hc, -⟩ := h.result _ o ho
    exact Nat.lt_irrefl _ (List.getElem?_eq_some_iff.mp hc).1
  · intro x hx
    obtain ⟨c, hc, -⟩ := h.task x hx
    exact (List.getElem?_eq_some_iff.mp hc).1

/-- A call that is added to the queue. -/
theorem WF.add {w : Wrapper} (h : w.WF) {c : Call} {task : Task} (htask : c.task = some task)
    {cache : List (Str × Nat)} (handlers : List (Nat × Str))
    (hcache : ∀ q ∈ cache.map Prod.snd, q ∈ w.cache.map Prod.snd ∨ q = w.calls.length) :
    WF { w with
      queue := w.queue.add w.calls.length task
      cache := cache
      handlers := handlers
      calls := w.calls ++ [(c, w.calls.length)] } := by
  obtain ⟨hnone, hlt⟩ := h.fresh
  have hperm := PromiseQueue.pending_add h.serial w.calls.length task
  have hmem (x : QueueEntry Task) : x ∈ (w.queue.add w.calls.length task).pending ↔
      x = ⟨w.calls.length, task, w.queue.exceptionCount⟩ ∨ x ∈ w.queue.pending := by
    rw [hperm.mem_iff, List.mem_cons]
  have hpending (q : Nat) (hq : w.outcome q ≠ none ∨
      q ∈ w.queue.pending.map QueueEntry.promise) : w.outcome q ≠ none ∨
      q ∈ (w.queue.add w.calls.length task).pending.map QueueEntry.promise := by
    rw [(hperm.map _).mem_iff, List.map_cons, List.mem_cons]
    exact hq.imp_right Or.inr
  have hself : w.calls.length ∈
      (w.queue.add w.calls.length task).pending.map QueueEntry.promise := by
    rw [(hperm.map _).mem_iff]
    exact List.mem_cons_self
  exact {
    serial := PromiseQueue.serial_add h.serial _ _
    sorted := by
      intro ch hch
      obtain ⟨d, ds, hds, -⟩ := h.serial.newest
      rw [PromiseQueue.add, hds, List.modifyHead_cons] at hch
      rcases List.mem_cons.mp hch with rfl | hch
      · refine List.pairwise_append.mpr ⟨h.sorted d (hds ▸ List.mem_cons_self),
          List.pairwise_singleton _ _, ?_⟩
        intro x hx y hy
        rw [List.mem_singleton.mp hy]
        exact hlt x (List.mem_flatMap.mpr ⟨d, hds ▸ List.mem_cons_self, hx⟩)
      · exact h.sorted ch (hds ▸ List.mem_cons_of_mem d hch)
    nodup := by
      rw [(hperm.map _).nodup_iff, List.map_cons, List.nodup_cons]
      refine ⟨fun hin => ?_, h.nodup⟩
      obtain ⟨x, hx, hxp⟩ := List.mem_map.mp hin
      exact Nat.ne_of_lt (hlt x hx) hxp
    task := by
      intro x hx
      rcases (hmem x).mp hx with rfl | hx
      · exact ⟨c, List.getElem?_concat_length, htask⟩
      · obtain ⟨d, hd, hdtask⟩ := h.task x hx
        exact ⟨d, getElem?_concat hd _, hdtask⟩
    unsettled := by
      intro x hx
      rcases (hmem x).mp hx with rfl | hx
      · exact hnone
      · exact h.unsettled x hx
    result := fun q o ho => by
      obtain ⟨d, hd, hresult⟩ := h.result q o ho
      exact ⟨d, getElem?_concat hd _, hresult⟩
    ran := fun r hr => by
      obtain ⟨d, hd, hran⟩ := h.ran r hr
      exact ⟨d, getElem?_concat hd _, hran⟩
    given := by
      intro q hq
      rw [List.map_append, List.mem_append] at hq
      rcases hq with hq | hq
      · exact hpending q (h.given q hq)
      · rw [List.mem_singleton.mp hq]
        exact Or.inr hself
    cached := by
      intro q hq
      rcases hcache q hq with hq | rfl
      · exact hpending q (h.cached q hq)
      · exact Or.inr hself }

/-- A call at the end of the queue waits. -/
theorem WF.enqueue {w : Wrapper} (h : w.WF) {c : Call} {task : Task}
    (htask : c.task = some task) : (w.enqueue c task).WF := by
  unfold Wrapper.enqueue
  dsimp only
  split
  · exact h.add htask _ (by simp)
  · exact h.add htask _ (fun q hq => Or.inl hq)
  · refine h.add htask _ fun q hq => ?_
    rw [List.map_append, List.mem_append] at hq
    exact hq.imp_right fun hq => List.mem_singleton.mp hq

/-- A promise that is found is in the cache. -/
theorem existing_mem {w : Wrapper} {c : Call} {p : Nat} (h : w.existing c = some p) :
    p ∈ w.cache.map Prod.snd := by
  obtain ⟨key, -, hp⟩ := Option.bind_eq_some_iff.mp h
  obtain ⟨l₁, l₂, heq, -⟩ := List.lookup_eq_some_iff.mp hp
  exact List.mem_map.mpr ⟨(key, p), by simp [heq], rfl⟩

/-- A call that does its work at once. -/
theorem WF.now {w : Wrapper} (h : w.WF) {c : Call} (htask : c.task = none) :
    (w.callNow c).WF := by
  obtain ⟨hnone, hlt⟩ := h.fresh
  have hperform : c.perform = c.now := by rw [Call.perform, htask]
  have hout (n : Nat) : (w.callNow c).outcome n =
      (w.outcome n).or (if n = w.calls.length then some (c.now w.world).1 else none) :=
    outcome_append rfl n
  have hkeep {q : Nat} {o : Except Str Result} (hq : w.outcome q = some o) :
      (w.callNow c).outcome q = some o := by
    rw [hout, hq, Option.some_or]
  have hgiven (q : Nat) (hq : w.outcome q ≠ none ∨
      q ∈ w.queue.pending.map QueueEntry.promise) : (w.callNow c).outcome q ≠ none ∨
      q ∈ w.queue.pending.map QueueEntry.promise := by
    refine hq.imp_left fun hne => ?_
    obtain ⟨o, ho⟩ := Option.ne_none_iff_exists'.mp hne
    rw [hkeep ho]
    exact Option.some_ne_none o
  exact {
    serial := h.serial
    sorted := h.sorted
    nodup := h.nodup
    task := fun x hx => by
      obtain ⟨d, hd, hdtask⟩ := h.task x hx
      exact ⟨d, getElem?_concat hd _, hdtask⟩
    unsettled := fun x hx => by
      rw [hout, h.unsettled x hx, if_neg (Nat.ne_of_lt (hlt x hx))]
      rfl
    result := by
      intro q o ho
      rw [hout, Option.or_eq_some_iff] at ho
      rcases ho with ho | ⟨-, ho⟩
      · obtain ⟨d, hd, hresult⟩ := h.result q o ho
        exact ⟨d, getElem?_concat hd _, hresult⟩
      · split_ifs at ho with hq
        subst hq
        exact ⟨c, List.getElem?_concat_length, Or.inr ⟨w.world, by rw [hperform]; exact Option.some.inj ho⟩⟩
    ran := fun r hr => by
      obtain ⟨d, hd, hafter, hresult⟩ := h.ran r hr
      exact ⟨d, getElem?_concat hd _, hafter, hkeep hresult⟩
    given := by
      intro q hq
      rw [callNow, List.map_append, List.mem_append] at hq
      rcases hq with hq | hq
      · exact hgiven q (h.given q hq)
      · left
        rw [List.mem_singleton.mp hq, hout, hnone, if_pos rfl]
        exact Option.some_ne_none _
    cached := fun q hq => hgiven q (h.cached q hq) }

/-- A call is answered from the cache or waits. -/
theorem WF.call {w : Wrapper} (h : w.WF) (useCache : Bool) (c : Call) :
    (w.call useCache c).WF := by
  unfold Wrapper.call
  split
  · rename_i htask
    exact h.now htask
  · rename_i task htask
    split
    · rename_i p hp
      split_ifs at hp
      exact h.share c (existing_mem hp)
    · exact h.enqueue htask

section Settle

variable {w : Wrapper} {i : Nat} {x : QueueEntry Task} {error : Option Str}

/-- An error is handed down. -/
theorem thrown_settlement (w : Wrapper) (x : QueueEntry Task) (h : error ≠ none) :
    thrown (w.settlement (x, error)).1 = error := by
  obtain ⟨e, rfl⟩ := Option.ne_none_iff_exists'.mp h
  rfl

theorem settle_calls (h : w.queue.head i = some (x, error)) : (w.settle i).calls = w.calls := by
  rw [settle, h]

theorem settle_world (h : w.queue.head i = some (x, error)) :
    (w.settle i).world = (w.settlement (x, error)).2 := by
  rw [settle, h]

/-- A settled call is taken off the queue. -/
theorem settle_queue (h : w.queue.head i = some (x, error)) : (w.settle i).queue =
    w.queue.settled i x (thrown (w.settlement (x, error)).1) := by
  rw [settle, h]

/-- A settled call has its outcome. -/
theorem settle_outcome (h : w.queue.head i = some (x, error)) (n : Nat) :
    (w.settle i).outcome n = (w.outcome n).or
      (if n = x.promise then some (w.settlement (x, error)).1 else none) := by
  apply outcome_append
  rw [settle, h]

/-- A settled promise stays settled. -/
theorem settle_keeps (h : w.queue.head i = some (x, error)) {n : Nat} {o : Except Str Result}
    (ho : w.outcome n = some o) : (w.settle i).outcome n = some o := by
  rw [settle_outcome h, ho, Option.some_or]

/-- The promise of the call that is settled. -/
theorem WF.settle_self (hw : w.WF) (h : w.queue.head i = some (x, error)) :
    (w.settle i).outcome x.promise = some (w.settlement (x, error)).1 := by
  rw [settle_outcome h, hw.unsettled x (PromiseQueue.mem_pending_of_head h), Option.none_or,
    if_pos rfl]

end Settle

/-- The call at the head is settled: its promise was not, the handlers and the cache still name
promises that are there, and those behind it wait. -/
theorem WF.settle {w : Wrapper} (h : w.WF) (i : Nat) : (w.settle i).WF := by
  cases hhead : w.queue.head i with
  | none =>
      rw [Wrapper.settle, hhead]
      exact h
  | some head =>
      obtain ⟨x, error⟩ := head
      have hx := PromiseQueue.mem_pending_of_head hhead
      obtain ⟨c, hc, htask⟩ := h.task x hx
      have hperform : c.perform = x.task.perform := by rw [Call.perform, htask]
      have hcalls := settle_calls hhead
      have hperm := PromiseQueue.pending_settled hhead (thrown (w.settlement (x, error)).1)
      rw [← settle_queue hhead] at hperm
      have hnodup : (x.promise :: (w.settle i).queue.pending.map QueueEntry.promise).Nodup :=
        (hperm.map QueueEntry.promise).nodup_iff.mp h.nodup
      have hgiven (q : Nat) (hq : w.outcome q ≠ none ∨
          q ∈ w.queue.pending.map QueueEntry.promise) : (w.settle i).outcome q ≠ none ∨
          q ∈ (w.settle i).queue.pending.map QueueEntry.promise := by
        rcases hq with hne | hq
        · obtain ⟨o, ho⟩ := Option.ne_none_iff_exists'.mp hne
          rw [settle_keeps hhead ho]
          exact Or.inl (Option.some_ne_none o)
        · rw [(hperm.map QueueEntry.promise).mem_iff, List.map_cons, List.mem_cons] at hq
          rcases hq with rfl | hq
          · rw [h.settle_self hhead]
            exact Or.inl (Option.some_ne_none _)
          · exact Or.inr hq
      exact {
        serial := by
          rw [settle_queue hhead]
          exact PromiseQueue.serial_settled h.serial hhead (thrown_settlement w x)
        sorted := by
          rw [settle_queue hhead]
          exact PromiseQueue.settled_pairwise h.sorted i x _
        nodup := (List.nodup_cons.mp hnodup).2
        task := fun y hy => by
          rw [hcalls]
          exact h.task y (hperm.mem_iff.mpr (List.mem_cons_of_mem x hy))
        unsettled := fun y hy => by
          have hne : y.promise ≠ x.promise := fun heq =>
            (List.nodup_cons.mp hnodup).1 (heq ▸ List.mem_map_of_mem hy)
          rw [settle_outcome hhead, h.unsettled y (hperm.mem_iff.mpr (List.mem_cons_of_mem x hy)), if_neg hne]
          rfl
        result := by
          intro q o ho
          rw [hcalls]
          rw [settle_outcome hhead, Option.or_eq_some_iff] at ho
          rcases ho with ho | ⟨-, ho⟩
          · exact h.result q o ho
          · split_ifs at ho with hq
            obtain rfl := Option.some.inj ho
            subst hq
            refine ⟨c, hc, ?_⟩
            cases error with
            | some e => exact Or.inl ⟨e, rfl⟩
            | none => exact Or.inr ⟨w.world, by rw [hperform]; rfl⟩
        ran := by
          intro r hr
          rw [hcalls]
          have hran : r ∈ w.ran ∨ error = none ∧
              r = ⟨x.promise, w.world, (w.settlement (x, error)).2⟩ := by
            rw [Wrapper.settle, hhead] at hr
            cases error with
            | some e => exact Or.inl hr
            | none => exact (List.mem_append.mp hr).imp_right fun hr =>
                ⟨rfl, List.mem_singleton.mp hr⟩
          rcases hran with hr | ⟨rfl, rfl⟩
          · obtain ⟨d, hd, hafter, hresult⟩ := h.ran r hr
            exact ⟨d, hd, hafter, settle_keeps hhead hresult⟩
          · refine ⟨c, hc, ?_, ?_⟩
            · rw [hperform]
              rfl
            · rw [h.settle_self hhead, hperform]
              rfl
        given := fun q hq => hgiven q (h.given q (hcalls ▸ hq))
        cached := fun q hq => hgiven q (h.cached q (by
          rw [Wrapper.settle, hhead] at hq
          exact hq)) }

/-- A handler takes its promise out of the cache. -/
theorem WF.runHandler {w : Wrapper} (h : w.WF) (promise : Nat) : (w.runHandler promise).WF := by
  unfold Wrapper.runHandler
  split
  · exact { h with
      cached := fun q hq => by
        obtain ⟨entry, hentry, rfl⟩ := List.mem_map.mp hq
        exact h.cached _ (List.mem_map_of_mem (List.mem_filter.mp hentry).1) }
  · exact h

/-- Every step keeps the promises in order, with the cache or without. -/
theorem wf_step {w : Wrapper} (h : w.WF) (useCache : Bool) (op : WrapperOp) :
    (w.step useCache op).WF := by
  cases op with
  | call c => exact h.call useCache c
  | settle i => exact h.settle i
  | handler promise => exact h.runHandler promise

end Wrapper

end Parameters

end CrSqlite
