import CrSqlite.Library.Savepoint
import CrSqlite.Value

/-!
# NestedTransactions - the synchronous wrappers

The wrappers of the browser (crsqlite-wasm) and of node (node-allinone) run a callback in a
transaction, or in a savepoint when there is a transaction already.  The first one goes by a flag
of its own, and its savepoints are savepoints everywhere; the second one leaves the choice to
better-sqlite3, which asks SQLite whether a transaction is open, and has no other savepoints.
The libraries below the two, sqlite-wasm's and better-sqlite3, are parameters that do what they
document.

Main results:

- Theorem {lit}`run_settles`: what a callback leaves open was open before.
- Theorem {lit}`run_meaning`: a callback does what it means.
- Theorem {lit}`nested_run`: it means the same with both wrappers.
-/

namespace CrSqlite.NestedTransactions

open Savepoint

/-! ## Callbacks -/

/-- How a statement ends.  Some errors, of a full disk for example, take back the transaction. -/
inductive Answer (σ ρ : Type) where
  | done (data : σ) (rows : ρ)
  | failed
  | rolledBack

inductive Method where
  | transaction
  | savepoint

/-- What a callback does.  It goes by the rows and by the errors that it gets; those of a
statement and of a call may be caught.  The database may be locked when a call is to commit. -/
inductive Callback (σ ρ : Type) where
  | returns
  | throws
  | exec (stmt : σ → Answer σ ρ) (next : Option ρ → Callback σ ρ)
  | call (method : Method) (locked : Bool) (cb : Callback σ ρ) (next : Bool → Callback σ ρ)

/-- The object of a wrapper, with the fields of its own. -/
structure DB (σ τ : Type) where
  baseDb : Conn σ Text
  own : τ

/-- A method that takes a callback. -/
abbrev Call (σ τ : Type) : Type :=
  Bool → (DB σ τ → Bool × DB σ τ) → DB σ τ → Bool × DB σ τ

section Wrappers

variable {σ τ ρ : Type} (mayCommit : σ → Bool)

/-! ## What the libraries do -/

/-- A statement; outside of a transaction it commits, which deferred constraints may forbid. -/
def baseExec (stmt : σ → Answer σ ρ) (c : Conn σ Text) : Option ρ × Conn σ Text :=
  match stmt c.data with
  | .done s rows =>
      if c.levels.isEmpty && !mayCommit s then (none, c) else (some rows, c.put s)
  | .failed => (none, c)
  | .rolledBack => (none, c.orSame Conn.rollback)

/-- `COMMIT`, or `ROLLBACK` when the callback or the `COMMIT` throws. -/
def endTransaction (locked ok : Bool) (db : DB σ τ) : Bool × DB σ τ :=
  match if ok then db.baseDb.commit (fun s => !locked && mayCommit s) else none with
  | some c => (true, { db with baseDb := c })
  | none => (false, { db with baseDb := db.baseDb.orSame Conn.rollback })

/-- `BEGIN`, which is an error in a transaction, and the callback. -/
def baseTransaction : Call σ τ := fun locked cb db =>
  match db.baseDb.openTransaction with
  | none => (false, db)
  | some c =>
      let (ok, db) := cb { db with baseDb := c }
      endTransaction mayCommit locked ok db

/-- `ROLLBACK TO`, and `RELEASE` if that is no error. -/
def undo (name : Text) (c : Conn σ Text) : Conn σ Text :=
  match c.rollbackTo name with
  | none => c
  | some c => c.orSame (Conn.release mayCommit name)

/-- `RELEASE`, or back to the savepoint. -/
def endSavepoint (name : Text) (locked ok : Bool) (db : DB σ τ) : Bool × DB σ τ :=
  match if ok then db.baseDb.release (fun s => !locked && mayCommit s) name else none with
  | some c => (true, { db with baseDb := c })
  | none => (false, { db with baseDb := undo mayCommit name db.baseDb })

/-- `SAVEPOINT` and the callback. -/
def baseSavepoint (name : Text) : Call σ τ := fun locked cb db =>
  let (ok, db) := cb { db with baseDb := db.baseDb.savepoint name }
  endSavepoint mayCommit name locked ok db

/-! ## The wrappers -/

namespace Wasm

/-- `DB` of sqlite-wasm. -/
structure BaseDb (σ : Type) where
  transaction : Call σ Bool
  savepoint : Call σ Bool

/-- Its savepoints have some name. -/
structure BaseDb.Documented (base : BaseDb σ) : Prop where
  transaction_eq : base.transaction = baseTransaction mayCommit
  savepoint_eq : ∃ name, base.savepoint = baseSavepoint mayCommit name

def savepoint (base : BaseDb σ) : Call σ Bool := fun locked cb db =>
  base.savepoint locked cb db

/-- The field of the wrapper is `#inTx`. -/
def transaction (base : BaseDb σ) : Call σ Bool := fun locked cb db =>
  if db.own then savepoint base locked cb db
  else
    let (ok, db) := base.transaction locked cb { db with own := true }
    (ok, { db with own := false })

def call (base : BaseDb σ) : Method → Call σ Bool
  | .transaction => transaction base
  | .savepoint => savepoint base

end Wasm

namespace Node

/-- `Database` of better-sqlite3. -/
structure BaseDb (σ : Type) where
  transaction : Call σ Unit

/-- A transaction in a transaction is a savepoint of some name. -/
structure BaseDb.Documented (base : BaseDb σ) : Prop where
  transaction_eq : ∃ name, ∀ locked cb db, base.transaction locked cb db =
    if db.baseDb.levels.isEmpty then baseTransaction mayCommit locked cb db
    else baseSavepoint mayCommit name locked cb db

def transaction (base : BaseDb σ) : Call σ Unit := fun locked cb db =>
  base.transaction locked cb db

def savepoint (base : BaseDb σ) : Call σ Unit := fun locked cb db =>
  transaction base locked cb db

def call (base : BaseDb σ) : Method → Call σ Unit
  | .transaction => transaction base
  | .savepoint => savepoint base

end Node

/-- A callback runs, and whether it returns. -/
def Callback.run (call : Method → Call σ τ) : Callback σ ρ → DB σ τ → Bool × DB σ τ
  | .returns, db => (true, db)
  | .throws, db => (false, db)
  | .exec stmt next, db =>
      let (answer, c) := baseExec mayCommit stmt db.baseDb
      (next answer).run call { db with baseDb := c }
  | .call method locked cb next, db =>
      let (ok, db) := call method locked (cb.run call) db
      (next ok).run call db

/-! ## What a callback means -/

/-- Where a callback runs: outside of every transaction, in a savepoint that was opened there, or
in a transaction. -/
inductive Place where
  | outside
  | bare
  | inside
deriving DecidableEq

/-- There is no transaction in a bare savepoint. -/
def Place.enter : Method → Place → Option Place
  | .transaction, .bare => none
  | .transaction, _ => some .inside
  | .savepoint, .inside => some .inside
  | .savepoint, _ => some .bare

/-- A call that ends well keeps what was done, and any other one nothing of it. -/
def atomic (p : Place) (locked : Bool) (s : σ) : Bool × σ → Bool × σ
  | (true, s') =>
      if p = .outside ∧ (!locked && mayCommit s') = false then (false, s) else (true, s')
  | (false, _) => (false, s)

/-- What a callback does to the contents, unless a statement takes back a transaction or a
transaction is called in a bare savepoint. -/
def Callback.meaning : Callback σ ρ → Place → σ → Option (Bool × σ)
  | .returns, _, s => some (true, s)
  | .throws, _, s => some (false, s)
  | .exec stmt next, p, s =>
      match stmt s with
      | .done s' rows =>
          if p = .outside ∧ mayCommit s' = false then (next none).meaning p s
          else (next (some rows)).meaning p s'
      | .failed => (next none).meaning p s
      | .rolledBack => if p = .outside then (next none).meaning p s else none
  | .call method locked cb next, p, s =>
      match p.enter method with
      | none => none
      | some q =>
          match cb.meaning q s with
          | none => none
          | some r =>
              let r' := atomic mayCommit p locked s r
              (next r'.1).meaning p r'.2

/-! ## What is left open -/

/-- What is committed may be committed. -/
def Sound (c : Conn σ Text) : Prop :=
  mayCommit c.committed = true

/-- The stack is as before, or SQLite took back the transaction. -/
structure Settles (db db' : DB σ τ) : Prop where
  levels : db'.baseDb.levels = db.baseDb.levels ∨ db'.baseDb.Idle
  sound : Sound mayCommit db'.baseDb
  own : db'.own = db.own

variable {mayCommit} {locked ok : Bool} {name : Text} {cb : DB σ τ → Bool × DB σ τ}
  {db db' db'' : DB σ τ} {c c' : Conn σ Text} {s s' : σ} {x y : τ} {p q : Place}

theorem Settles.refl (hs : Sound mayCommit db.baseDb) : Settles mayCommit db db :=
  ⟨Or.inl rfl, hs, rfl⟩

/-- What settles twice settles. -/
theorem Settles.trans (h : Settles mayCommit db db') (h' : Settles mayCommit db' db'') :
    Settles mayCommit db db'' where
  levels := by
    rcases h'.levels with hl' | hidle
    · rcases h.levels with hl | hidle
      · exact Or.inl (hl'.trans hl)
      · exact Or.inr (hl'.trans hidle)
    · exact Or.inr hidle
  sound := h'.sound
  own := h'.own.trans h.own

/-- Without a transaction there is none afterwards. -/
theorem Settles.idle (h : Settles mayCommit db db') (hidle : db.baseDb.Idle) :
    db'.baseDb.Idle := by
  rcases h.levels with hl | hidle'
  · exact hl.trans hidle
  · exact hidle'

/-- New contents that may be committed are sound. -/
theorem sound_put (hs : Sound mayCommit c) (hmay : c.Idle → mayCommit s = true) :
    Sound mayCommit (c.put s) := by
  by_cases hidle : c.Idle
  · rw [Sound, committed_of_idle (c := c.put s) hidle]
    exact hmay hidle
  · rw [Sound, committed_of_levels (c := c) (d := c.put s) rfl hidle]
    exact hs

/-- A rollback is sound. -/
theorem sound_rollback (hs : Sound mayCommit c) : Sound mayCommit (c.orSame Conn.rollback) := by
  rw [rollback_eq]
  exact hs

/-- A statement settles. -/
theorem settles_baseExec (stmt : σ → Answer σ ρ) (hs : Sound mayCommit db.baseDb) :
    Settles mayCommit db { db with baseDb := (baseExec mayCommit stmt db.baseDb).2 } := by
  rw [baseExec]
  split
  next s rows _ =>
    split
    next => exact .refl hs
    next hmay =>
      refine ⟨Or.inl rfl, sound_put hs fun hidle => ?_, rfl⟩
      rw [Conn.Idle] at hidle
      simpa [hidle] using hmay
  next => exact .refl hs
  next => exact ⟨Or.inr (idle_rollback _), sound_rollback hs, rfl⟩

/-- A transaction settles when its callback does. -/
theorem settles_baseTransaction
    (hcb : ∀ db, Sound mayCommit db.baseDb → Settles mayCommit db (cb db).2)
    (hs : Sound mayCommit db.baseDb) :
    Settles mayCommit db (baseTransaction mayCommit locked cb db).2 := by
  obtain ⟨⟨s, levels⟩, x⟩ := db
  cases levels with
  | cons l levels => exact .refl hs
  | nil =>
      have hcall := hcb ⟨⟨s, [⟨none, s⟩]⟩, x⟩ hs
      change Settles mayCommit _ (endTransaction mayCommit locked _ _).2
      rw [endTransaction]
      split
      next c hc =>
        obtain ⟨-, hc⟩ := Option.ite_none_right_eq_some.mp hc
        obtain ⟨hmay, hc⟩ := Option.ite_none_right_eq_some.mp hc
        obtain rfl := Option.some.inj hc
        simp only [Bool.and_eq_true] at hmay
        exact ⟨Or.inl rfl, hmay.2.2, hcall.own⟩
      next => exact ⟨Or.inl (idle_rollback _), sound_rollback hcall.sound, hcall.own⟩

theorem opened_of_levels (hl : c'.levels = ⟨some name, c.data⟩ :: c.levels) :
    c' = (c.savepoint name).put c'.data := by
  rw [Conn.put, Conn.savepoint, ← hl]

/-- To undo a savepoint takes back what was done in it. -/
theorem undo_savepoint (hmay : c.Idle → mayCommit c.data = true) (s : σ) :
    undo mayCommit name ((c.savepoint name).put s) = c := by
  rw [undo, rollbackTo_savepoint]
  exact congrArg (Option.getD · _) (release_savepoint name hmay)

/-- Without a transaction nothing is undone. -/
theorem undo_idle (hidle : c.Idle) : undo mayCommit name c = c := by
  have hnone : c.rollbackTo name = none := by
    rw [Conn.rollbackTo, Conn.downTo, hidle]
    rfl
  rw [undo, hnone]

/-- Without a transaction nothing is released. -/
theorem release_idle {may : σ → Bool} (hidle : c.Idle) : c.release may name = none := by
  rw [Conn.release, Conn.downTo, hidle]
  rfl

/-- A savepoint settles when its callback does. -/
theorem settles_baseSavepoint
    (hcb : ∀ db, Sound mayCommit db.baseDb → Settles mayCommit db (cb db).2)
    (hs : Sound mayCommit db.baseDb) :
    Settles mayCommit db (baseSavepoint mayCommit name locked cb db).2 := by
  have hstart : Sound mayCommit (db.baseDb.savepoint name) := by
    rwa [Sound, committed_savepoint]
  have hcall := hcb { db with baseDb := db.baseDb.savepoint name } hstart
  change Settles mayCommit _ (endSavepoint mayCommit name locked _ _).2
  generalize cb { db with baseDb := db.baseDb.savepoint name } = r at hcall ⊢
  rw [endSavepoint]
  split
  next c hc =>
    obtain ⟨-, hc⟩ := Option.ite_none_right_eq_some.mp hc
    rcases hcall.levels with hl | hidle
    · rw [opened_of_levels hl, release_savepoint_eq_some_iff] at hc
      obtain ⟨hmay, rfl⟩ := hc
      refine ⟨Or.inl rfl, sound_put hs fun hidle => ?_, hcall.own⟩
      exact (Bool.and_eq_true_iff.mp (hmay hidle)).2
    · rw [release_idle hidle] at hc
      cases hc
  next =>
    rcases hcall.levels with hl | hidle
    · rw [opened_of_levels hl, undo_savepoint fun hidle => by rwa [← committed_of_idle hidle]]
      exact ⟨Or.inl rfl, hs, hcall.own⟩
    · rw [undo_idle hidle]
      exact ⟨Or.inr hidle, hcall.sound, hcall.own⟩

/-! ## What is kept -/

theorem atomic_throws (p : Place) (locked : Bool) (s s' : σ) :
    atomic mayCommit p locked s (false, s') = (false, s) :=
  rfl

/-- What may not be committed changes nothing. -/
theorem atomic_refused (hmay : (!locked && mayCommit s') = false) :
    atomic mayCommit .outside locked s (true, s') = (false, s) :=
  if_pos ⟨rfl, hmay⟩

/-- What may be committed is kept. -/
theorem atomic_kept (hmay : p = .outside → (!locked && mayCommit s') = true) :
    atomic mayCommit p locked s (true, s') = (true, s') := by
  refine if_neg ?_
  rintro ⟨hp, hno⟩
  rw [hmay hp] at hno
  cases hno

/-- A transaction of its own. -/
theorem baseTransaction_eq
    (hcb : cb ⟨⟨s, [⟨none, s⟩]⟩, x⟩ = (ok, ⟨⟨s', [⟨none, s⟩]⟩, y⟩)) :
    baseTransaction mayCommit locked cb ⟨⟨s, []⟩, x⟩ =
      ((atomic mayCommit .outside locked s (ok, s')).1,
        ⟨⟨(atomic mayCommit .outside locked s (ok, s')).2, []⟩, y⟩) := by
  change endTransaction mayCommit locked (cb ⟨⟨s, [⟨none, s⟩]⟩, x⟩).1
    (cb ⟨⟨s, [⟨none, s⟩]⟩, x⟩).2 = _
  rw [hcb]
  cases ok with
  | false => rfl
  | true =>
      cases hmay : !locked && mayCommit s' with
      | false =>
          rw [atomic_refused hmay, endTransaction]
          simp [Conn.commit, hmay, Conn.orSame, Conn.rollback]
      | true =>
          rw [atomic_kept fun _ => hmay, endTransaction]
          simp [Conn.commit, hmay]

/-- A savepoint anywhere. -/
theorem baseSavepoint_eq (hp : p = .outside ↔ c.Idle) (hsound : c.Idle → mayCommit c.data = true)
    (hcb : cb ⟨c.savepoint name, x⟩ = (ok, ⟨(c.savepoint name).put s', y⟩)) :
    baseSavepoint mayCommit name locked cb ⟨c, x⟩ =
      ((atomic mayCommit p locked c.data (ok, s')).1,
        ⟨c.put (atomic mayCommit p locked c.data (ok, s')).2, y⟩) := by
  change endSavepoint mayCommit name locked (cb ⟨c.savepoint name, x⟩).1
    (cb ⟨c.savepoint name, x⟩).2 = _
  rw [hcb, endSavepoint]
  cases ok with
  | false =>
      rw [atomic_throws, if_neg Bool.false_ne_true]
      dsimp only
      rw [undo_savepoint hsound]
      rfl
  | true =>
      rw [if_pos rfl]
      by_cases hmay : p = .outside → (!locked && mayCommit s') = true
      · have hrelease : ((c.savepoint name).put s').release (fun s => !locked && mayCommit s) name =
            some (c.put s') := release_savepoint name fun hidle => hmay (hp.mpr hidle)
        rw [atomic_kept hmay, hrelease]
      · rw [Classical.not_imp, Bool.not_eq_true] at hmay
        obtain ⟨rfl, hno⟩ := hmay
        have hrefused : ((c.savepoint name).put s').release (fun s => !locked && mayCommit s) name =
            none := release_savepoint_refused name (hp.mp rfl) hno
        rw [atomic_refused hno, hrefused]
        dsimp only
        rw [undo_savepoint hsound]
        rfl

/-! ## Wrappers that do what a callback means -/

def DB.put (db : DB σ τ) (s : σ) : DB σ τ :=
  { db with baseDb := db.baseDb.put s }

/-- The connection is at a place, and the wrapper knows. -/
structure At (knows : Place → τ → Prop) (p : Place) (db : DB σ τ) : Prop where
  outside_iff : p = .outside ↔ db.baseDb.Idle
  knows : knows p db.own

theorem At.put {knows : Place → τ → Prop} (h : At knows p db) (s : σ) : At knows p (db.put s) :=
  ⟨h.outside_iff, h.knows⟩

section Calls

variable {knows : Place → τ → Prop}

/-- A savepoint is one step for the callback around it. -/
theorem baseSavepoint_atomic (hat : At knows p db) (hs : Sound mayCommit db.baseDb)
    (hq : q ≠ .outside) (hknows : knows q db.own)
    (hcb : ∀ db', At knows q db' → Sound mayCommit db'.baseDb →
      db'.baseDb.data = db.baseDb.data → cb db' = (ok, db'.put s')) :
    baseSavepoint mayCommit name locked cb db =
      ((atomic mayCommit p locked db.baseDb.data (ok, s')).1,
        db.put (atomic mayCommit p locked db.baseDb.data (ok, s')).2) := by
  have hopen : At knows q ⟨db.baseDb.savepoint name, db.own⟩ :=
    ⟨iff_of_false hq (List.cons_ne_nil _ _), hknows⟩
  have hstart : Sound mayCommit (db.baseDb.savepoint name) := by
    rwa [Sound, committed_savepoint]
  exact baseSavepoint_eq hat.outside_iff (fun hidle => by rwa [← committed_of_idle hidle])
    (hcb _ hopen hstart rfl)

/-- A transaction of its own is one step outside of it. -/
theorem baseTransaction_atomic (hs : mayCommit s = true) (hq : q ≠ .outside) (hknows : knows q x)
    (hcb : ∀ db', At knows q db' → Sound mayCommit db'.baseDb → db'.baseDb.data = s →
      cb db' = (ok, db'.put s')) :
    baseTransaction mayCommit locked cb ⟨⟨s, []⟩, x⟩ =
      ((atomic mayCommit .outside locked s (ok, s')).1,
        ⟨⟨(atomic mayCommit .outside locked s (ok, s')).2, []⟩, x⟩) := by
  have hopen : At knows q (⟨⟨s, [⟨none, s⟩]⟩, x⟩ : DB σ τ) :=
    ⟨iff_of_false hq (List.cons_ne_nil _ _), hknows⟩
  exact baseTransaction_eq (hcb _ hopen hs rfl)

end Calls

theorem Place.enter_savepoint (h : p.enter .savepoint = some q) :
    q ≠ .outside ∧ (q = .inside ↔ p = .inside) := by
  cases p <;> cases h <;> decide

variable (mayCommit) in
/-- A call closes what it opened, and is one step for the callback around it. -/
structure Lawful (knows : Place → τ → Prop) (call : Method → Call σ τ) : Prop where
  settles : ∀ (method : Method) (locked : Bool) {cb : DB σ τ → Bool × DB σ τ} {db : DB σ τ},
    (∀ db, Sound mayCommit db.baseDb → Settles mayCommit db (cb db).2) →
    Sound mayCommit db.baseDb → Settles mayCommit db (call method locked cb db).2
  atomic : ∀ (method : Method) (locked : Bool) {cb : DB σ τ → Bool × DB σ τ} {db : DB σ τ}
    {p q : Place} {ok : Bool} {s' : σ}, p.enter method = some q → At knows p db →
    Sound mayCommit db.baseDb →
    (∀ db', At knows q db' → Sound mayCommit db'.baseDb → db'.baseDb.data = db.baseDb.data →
      cb db' = (ok, db'.put s')) →
    call method locked cb db = ((atomic mayCommit p locked db.baseDb.data (ok, s')).1,
      db.put (atomic mayCommit p locked db.baseDb.data (ok, s')).2)

section Running

variable {knows : Place → τ → Prop} {call : Method → Call σ τ}

/-- What a callback leaves open was open before. -/
theorem run_settles (hcall : Lawful mayCommit knows call) (f : Callback σ ρ)
    (hs : Sound mayCommit db.baseDb) : Settles mayCommit db (f.run mayCommit call db).2 := by
  induction f generalizing db with
  | returns => exact .refl hs
  | throws => exact .refl hs
  | exec stmt next ih =>
      have hexec := settles_baseExec stmt hs
      exact hexec.trans (ih _ hexec.sound)
  | call method locked f next ihf ih =>
      have hinner := hcall.settles method locked (fun _ hs => ihf hs) hs
      exact hinner.trans (ih _ hinner.sound)

/-- A callback does what it means. -/
theorem run_meaning (hcall : Lawful mayCommit knows call) (f : Callback σ ρ)
    (hat : At knows p db) (hs : Sound mayCommit db.baseDb)
    (hf : f.meaning mayCommit p db.baseDb.data = some (ok, s')) :
    f.run mayCommit call db = (ok, db.put s') := by
  induction f generalizing db p ok s' with
  | returns =>
      obtain ⟨rfl, rfl⟩ := Prod.mk.inj (Option.some.inj hf)
      rfl
  | throws =>
      obtain ⟨rfl, rfl⟩ := Prod.mk.inj (Option.some.inj hf)
      rfl
  | exec stmt next ih =>
      have hsound := (settles_baseExec stmt hs).sound
      rw [Callback.meaning] at hf
      rw [Callback.run]
      rw [baseExec] at hsound ⊢
      cases hstmt : stmt db.baseDb.data with
      | done s rows =>
          simp only [hstmt] at hf hsound ⊢
          have hrefused : (db.baseDb.levels.isEmpty && !mayCommit s) = true ↔
              p = .outside ∧ mayCommit s = false := by
            rw [Bool.and_eq_true, List.isEmpty_iff, Bool.not_eq_true', hat.outside_iff, Conn.Idle]
          by_cases hno : p = .outside ∧ mayCommit s = false
          · rw [if_pos hno] at hf
            rw [if_pos (hrefused.mpr hno)]
            exact ih none hat hs hf
          · rw [if_neg hno] at hf
            rw [if_neg (mt hrefused.mp hno)] at hsound ⊢
            exact ih (some rows) (hat.put s) hsound hf
      | failed =>
          simp only [hstmt] at hf hsound ⊢
          exact ih none hat hs hf
      | rolledBack =>
          simp only [hstmt] at hf ⊢
          obtain ⟨hp, hf⟩ := Option.ite_none_right_eq_some.mp hf
          have hsame : db.baseDb.orSame Conn.rollback = db.baseDb := by
            rw [Conn.orSame, Conn.rollback, hat.outside_iff.mp hp]
            rfl
          rw [hsame]
          exact ih none hat hs hf
  | call method locked f next ihf ih =>
      rw [Callback.meaning] at hf
      cases hq : p.enter method with
      | none => simp [hq] at hf
      | some q =>
          cases hr : f.meaning mayCommit q db.baseDb.data with
          | none => simp [hq, hr] at hf
          | some r =>
              simp only [hq, hr] at hf
              obtain ⟨ok₁, s₁⟩ := r
              have hinner : call method locked (f.run mayCommit call) db =
                  ((atomic mayCommit p locked db.baseDb.data (ok₁, s₁)).1,
                    db.put (atomic mayCommit p locked db.baseDb.data (ok₁, s₁)).2) :=
                hcall.atomic method locked hq hat hs fun db' hat' hs' hdata =>
                  ihf hat' hs' (by rw [hdata, hr])
              have hsound := (hcall.settles method locked
                (fun _ hs => run_settles hcall f hs) hs).sound
              rw [Callback.run]
              rw [hinner] at hsound ⊢
              exact ih _ (hat.put _) hsound hf

end Running

/-! ## The wrapper of the browser -/

namespace Wasm

variable {base : BaseDb σ}

/-- Its flag is up in a transaction. -/
def Knows (p : Place) (inTx : Bool) : Prop :=
  inTx = true ↔ p = .inside

/-- A transaction of the wrapper outside of one is a transaction of the base. -/
theorem transaction_outside {cb : DB σ Bool → Bool × DB σ Bool}
    (h : base.transaction locked cb ⟨c, true⟩ = (ok, ⟨c', true⟩)) :
    transaction base locked cb ⟨c, false⟩ = (ok, ⟨c', false⟩) := by
  change ((base.transaction locked cb ⟨c, true⟩).1,
    { (base.transaction locked cb ⟨c, true⟩).2 with own := false }) = _
  rw [h]

/-- Every call of the wrapper settles and does what its place asks for; the cases are a
transaction, outside or inside of one, and a savepoint. -/
theorem lawful (hbase : base.Documented mayCommit) : Lawful mayCommit Knows (call base) where
  settles := by
    intro method locked cb db hcb hs
    obtain ⟨name, hname⟩ := hbase.savepoint_eq
    have hsavepoint : Settles mayCommit db (savepoint base locked cb db).2 := by
      rw [savepoint, hname]
      exact settles_baseSavepoint hcb hs
    cases method with
    | savepoint => exact hsavepoint
    | transaction =>
        obtain ⟨c, inTx⟩ := db
        cases inTx with
        | true => exact hsavepoint
        | false =>
            have hcall : Settles mayCommit ⟨c, true⟩ (base.transaction locked cb ⟨c, true⟩).2 := by
              rw [hbase.transaction_eq]
              exact settles_baseTransaction hcb hs
            exact ⟨hcall.levels, hcall.sound, rfl⟩
  atomic := by
    intro method locked cb db p q ok s' hq hat hs hcb
    obtain ⟨name, hname⟩ := hbase.savepoint_eq
    cases method with
    | savepoint =>
        obtain ⟨hne, hinside⟩ := Place.enter_savepoint hq
        rw [call, savepoint, hname]
        exact baseSavepoint_atomic hat hs hne (hat.knows.trans hinside.symm) hcb
    | transaction =>
        obtain ⟨c, inTx⟩ := db
        cases p with
        | bare => cases hq
        | inside =>
            obtain rfl : Place.inside = q := Option.some.inj hq
            obtain rfl : inTx = true := hat.knows.mpr rfl
            rw [call, transaction, if_pos rfl, savepoint, hname]
            exact baseSavepoint_atomic hat hs (by decide) hat.knows hcb
        | outside =>
            obtain rfl : Place.inside = q := Option.some.inj hq
            obtain ⟨s, levels⟩ := c
            obtain rfl : levels = [] := hat.outside_iff.mp rfl
            obtain rfl : inTx = false := Bool.eq_false_iff.mpr fun h => by cases hat.knows.mp h
            refine transaction_outside ?_
            rw [hbase.transaction_eq]
            exact baseTransaction_atomic hs (by decide) (iff_of_true rfl rfl) hcb

end Wasm

/-! ## The wrapper of node -/

namespace Node

variable {base : BaseDb σ}

/-- The same for the other wrapper, which knows nothing of its place. -/
theorem lawful (hbase : base.Documented mayCommit) :
    Lawful mayCommit (fun _ _ => True) (call base) where
  settles := by
    intro method locked cb db hcb hs
    obtain ⟨name, hname⟩ := hbase.transaction_eq
    have hcall : Settles mayCommit db (transaction base locked cb db).2 := by
      rw [transaction, hname]
      split
      next => exact settles_baseTransaction hcb hs
      next => exact settles_baseSavepoint hcb hs
    cases method with
    | transaction => exact hcall
    | savepoint => exact hcall
  atomic := by
    intro method locked cb db p q ok s' hq hat hs hcb
    obtain ⟨name, hname⟩ := hbase.transaction_eq
    have hne : q ≠ .outside := by cases method <;> cases p <;> cases hq <;> decide
    have hcall : transaction base locked cb db =
        ((NestedTransactions.atomic mayCommit p locked db.baseDb.data (ok, s')).1,
          db.put (NestedTransactions.atomic mayCommit p locked db.baseDb.data (ok, s')).2) := by
      rw [transaction, hname]
      split
      next hempty =>
        obtain ⟨⟨s, levels⟩, x⟩ := db
        obtain rfl : levels = [] := List.isEmpty_iff.mp hempty
        obtain rfl : p = .outside := hat.outside_iff.mpr rfl
        exact baseTransaction_atomic hs hne trivial hcb
      next => exact baseSavepoint_atomic hat hs hne trivial hcb
    cases method with
    | transaction => exact hcall
    | savepoint => exact hcall

end Node

/-- A callback means the same with both wrappers, and neither of them leaves anything open, not
even when there is no such meaning. -/
theorem nested_run {wasmDb : Wasm.BaseDb σ} {nodeDb : Node.BaseDb σ}
    (hwasmDb : wasmDb.Documented mayCommit) (hnodeDb : nodeDb.Documented mayCommit)
    (hs : mayCommit s = true) (f : Callback σ ρ) :
    let wasm := f.run mayCommit (Wasm.call wasmDb) ⟨⟨s, []⟩, false⟩
    let node := f.run mayCommit (Node.call nodeDb) ⟨⟨s, []⟩, ()⟩
    (wasm.2.baseDb.Idle ∧ wasm.2.own = false ∧ node.2.baseDb.Idle) ∧
      ∀ ok s', f.meaning mayCommit .outside s = some (ok, s') →
        wasm = (ok, ⟨⟨s', []⟩, false⟩) ∧ node = (ok, ⟨⟨s', []⟩, ()⟩) := by
  have hsWasm : Sound mayCommit (⟨⟨s, []⟩, false⟩ : DB σ Bool).baseDb := hs
  have hsNode : Sound mayCommit (⟨⟨s, []⟩, ()⟩ : DB σ Unit).baseDb := hs
  have hwasm := run_settles (Wasm.lawful hwasmDb) f hsWasm
  have hnode := run_settles (Node.lawful hnodeDb) f hsNode
  refine ⟨⟨hwasm.idle rfl, hwasm.own, hnode.idle rfl⟩, fun ok s' hf => ⟨?_, ?_⟩⟩
  · have hat : At Wasm.Knows .outside (⟨⟨s, []⟩, false⟩ : DB σ Bool) :=
      ⟨iff_of_true rfl rfl, iff_of_false Bool.false_ne_true (by decide)⟩
    exact run_meaning (Wasm.lawful hwasmDb) f hat hsWasm hf
  · have hat : At (fun _ _ => True) .outside (⟨⟨s, []⟩, ()⟩ : DB σ Unit) :=
      ⟨iff_of_true rfl rfl, trivial⟩
    exact run_meaning (Node.lawful hnodeDb) f hat hsNode hf

end Wrappers

/-! ## A callback that catches an error -/

def sqliteWasm (mayCommit : Nat → Bool) : Wasm.BaseDb Nat where
  transaction := baseTransaction mayCommit
  savepoint := baseSavepoint mayCommit "oo1".toList

def betterSqlite3 (mayCommit : Nat → Bool) : Node.BaseDb Nat where
  transaction := fun locked cb db =>
    if db.baseDb.levels.isEmpty then baseTransaction mayCommit locked cb db
    else baseSavepoint mayCommit "\t_bs3.\t".toList locked cb db

/-- A transaction adds one, and calls another one that adds one and fails. -/
def addTwice : Callback Nat Unit :=
  .call .transaction false
    (.exec (fun n => .done (n + 1) ()) fun _ =>
      .call .transaction false (.exec (fun n => .done (n + 1) ()) fun _ => .throws)
        fun _ => .returns)
    fun ok => if ok then .returns else .throws

/-- Of two nested additions the inner one is too much. -/
theorem nested_run_addTwice :
    let mayCommit : Nat → Bool := fun n => n < 2
    addTwice.run mayCommit (Wasm.call (sqliteWasm mayCommit)) ⟨⟨0, []⟩, false⟩ =
        (true, ⟨⟨1, []⟩, false⟩) ∧
      addTwice.run mayCommit (Node.call (betterSqlite3 mayCommit)) ⟨⟨0, []⟩, ()⟩ =
        (true, ⟨⟨1, []⟩, ()⟩) :=
  (nested_run ⟨rfl, _, rfl⟩ ⟨_, fun _ _ _ => rfl⟩ (by decide) addTwice).2 true 1 (by decide)

end CrSqlite.NestedTransactions
