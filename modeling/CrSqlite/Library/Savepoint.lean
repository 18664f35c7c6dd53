import Mathlib.Data.List.Basic

/-!
# Library - Stacks of savepoints

A connection works on contents and keeps a stack of open savepoints, the innermost
first.  A transaction that was begun, or a savepoint that was opened outside of one, is
at the bottom of the stack; each level knows the contents it was opened on.

Main results:

- Theorem {lit}`rollback_savepoint`: a rollback takes back a savepoint that was opened
  outside of every transaction, and what was done since.
- Theorem {lit}`release_savepoint`: a release right after a savepoint keeps what was done.
- Theorem {lit}`release_savepoint_eq_some_iff`: when that is no error.
- Theorem {lit}`rollback_below`: what a rollback leaves when something stands below a
  savepoint.
-/

namespace Savepoint

/-- A level of the stack; a transaction that was begun has no name. -/
structure Level (σ ν : Type) where
  name : Option ν
  saved : σ
deriving DecidableEq

structure Conn (σ ν : Type) where
  data : σ
  levels : List (Level σ ν)
deriving DecidableEq

variable {σ ν : Type}

namespace Conn

/-- No transaction is open. -/
def Idle (c : Conn σ ν) : Prop :=
  c.levels = []

/-- `BEGIN`. -/
def openTransaction (c : Conn σ ν) : Option (Conn σ ν) :=
  if c.levels.isEmpty then some ⟨c.data, [⟨none, c.data⟩]⟩ else none

/-- `COMMIT`, where the contents allow it. -/
def commit (mayCommit : σ → Bool) (c : Conn σ ν) : Option (Conn σ ν) :=
  if !c.levels.isEmpty && mayCommit c.data then some ⟨c.data, []⟩ else none

/-- `ROLLBACK`: back to the contents at the bottom of the stack. -/
def rollback (c : Conn σ ν) : Option (Conn σ ν) :=
  c.levels.getLast?.map fun l => ⟨l.saved, []⟩

/-- `SAVEPOINT`. -/
def savepoint (name : ν) (c : Conn σ ν) : Conn σ ν :=
  ⟨c.data, ⟨some name, c.data⟩ :: c.levels⟩

/-- The stack from the innermost savepoint of the name on. -/
def downTo [DecidableEq ν] (name : ν) (c : Conn σ ν) : List (Level σ ν) :=
  c.levels.dropWhile fun l => l.name ≠ some name

/-- `RELEASE`: at the bottom of the stack it commits. -/
def release [DecidableEq ν] (mayCommit : σ → Bool) (name : ν) (c : Conn σ ν) :
    Option (Conn σ ν) :=
  match c.downTo name with
  | [] => none
  | [_] => if mayCommit c.data then some ⟨c.data, []⟩ else none
  | _ :: below => some ⟨c.data, below⟩

/-- `ROLLBACK TO`: the savepoint stays open. -/
def rollbackTo [DecidableEq ν] (name : ν) (c : Conn σ ν) : Option (Conn σ ν) :=
  match c.downTo name with
  | [] => none
  | l :: below => some ⟨l.saved, l :: below⟩

/-- A statement of another kind; one that fails changes nothing. -/
def write (f : σ → Option σ) (c : Conn σ ν) : Option (Conn σ ν) :=
  (f c.data).map fun s => ⟨s, c.levels⟩

/-- What is committed: the contents at the bottom of the stack. -/
def committed (c : Conn σ ν) : σ :=
  (c.levels.getLast?.map Level.saved).getD c.data

/-- New contents on the same stack. -/
def put (s : σ) (c : Conn σ ν) : Conn σ ν :=
  ⟨s, c.levels⟩

/-- A command, or the connection as it was when it fails. -/
def orSame (f : Conn σ ν → Option (Conn σ ν)) (c : Conn σ ν) : Conn σ ν :=
  (f c).getD c

end Conn

open Conn

variable {c : Conn σ ν}

@[simp]
theorem put_put (s s' : σ) : (c.put s).put s' = c.put s' :=
  rfl

@[simp]
theorem put_data (s : σ) : (c.put s).data = s :=
  rfl

/-! ## Rollback -/

@[simp]
theorem rollback_idle (s : σ) : (⟨s, []⟩ : Conn σ ν).rollback = none :=
  rfl

/-- A rollback goes back to the bottom of the stack. -/
theorem rollback_append (s : σ) (above : List (Level σ ν)) (l : Level σ ν) :
    (⟨s, above ++ [l]⟩ : Conn σ ν).rollback = some ⟨l.saved, []⟩ := by
  rw [rollback, List.getLast?_append, List.getLast?_singleton]
  rfl

/-- A rollback takes back a savepoint that was opened outside of every transaction, and
what was done since. -/
theorem rollback_savepoint (h : c.Idle) (name : ν) (s : σ) :
    ((c.savepoint name).put s).orSame rollback = c := by
  obtain ⟨data, levels⟩ := c
  obtain rfl : levels = [] := h
  rfl

/-- After a rollback no transaction is open. -/
theorem idle_rollback (c : Conn σ ν) : (c.orSame rollback).Idle := by
  obtain ⟨data, levels⟩ := c
  rcases List.eq_nil_or_concat' levels with rfl | ⟨above, l, rfl⟩
  · rfl
  · rw [orSame, rollback_append]
    rfl

/-- Without a transaction everything is committed. -/
theorem committed_of_idle (h : c.Idle) : c.committed = c.data := by
  rw [committed, h]
  rfl

/-- While a transaction is open, its work is not committed. -/
theorem committed_of_levels {d : Conn σ ν} (hlevels : d.levels = c.levels) (h : ¬c.Idle) :
    d.committed = c.committed := by
  rw [committed, committed, hlevels]
  obtain ⟨l, hl⟩ := Option.ne_none_iff_exists'.mp (mt List.getLast?_eq_none_iff.mp h)
  rw [hl]
  rfl

/-- A savepoint commits nothing. -/
theorem committed_savepoint (c : Conn σ ν) (name : ν) :
    (c.savepoint name).committed = c.committed := by
  obtain ⟨data, levels⟩ := c
  cases levels with
  | nil => rfl
  | cons l levels => rfl

/-- A rollback leaves what is committed. -/
theorem rollback_eq (c : Conn σ ν) : c.orSame rollback = ⟨c.committed, []⟩ := by
  obtain ⟨data, levels⟩ := c
  rcases List.eq_nil_or_concat' levels with rfl | ⟨above, l, rfl⟩
  · rfl
  · rw [orSame, rollback_append, committed, List.getLast?_append, List.getLast?_singleton]
    rfl

/-- Only the level at the bottom of the stack matters to a rollback. -/
theorem rollback_below (s : σ) (above : List (Level σ ν)) (l : Level σ ν)
    (below : List (Level σ ν)) :
    (⟨s, above ++ l :: below⟩ : Conn σ ν).orSame rollback =
      (⟨l.saved, l :: below⟩ : Conn σ ν).orSame rollback := by
  have hlast : (above ++ l :: below).getLast? = (l :: below).getLast? := by
    rw [List.getLast?_append]
    cases hl : (l :: below).getLast? with
    | none => exact absurd (List.getLast?_eq_none_iff.mp hl) (List.cons_ne_nil _ _)
    | some _ => rfl
  have hsome : ((l :: below).getLast?).isSome := by simp
  obtain ⟨last, hlast'⟩ := Option.isSome_iff_exists.mp hsome
  simp only [orSame, rollback, hlast, hlast', Option.map_some, Option.getD_some]

/-- The rollback that a failed command inside a savepoint calls for. -/
theorem rollback_eq_iff (s : σ) (above : List (Level σ ν)) (name : ν) (saved : σ)
    (below : List (Level σ ν)) :
    (⟨s, above ++ ⟨some name, saved⟩ :: below⟩ : Conn σ ν).orSame rollback = ⟨saved, below⟩ ↔
      below = [] := by
  rw [rollback_below]
  constructor
  · intro h
    have hidle := idle_rollback (⟨saved, ⟨some name, saved⟩ :: below⟩ : Conn σ ν)
    rw [h] at hidle
    exact hidle
  · rintro rfl
    rfl

/-! ## Commands -/

variable [DecidableEq ν]

inductive Command (σ ν : Type) where
  | openTransaction
  | commit
  | rollback
  | savepoint (name : ν)
  | release (name : ν)
  | rollbackTo (name : ν)
  | write (f : σ → Option σ)

/-- A command that fails leaves the connection alone. -/
def step (mayCommit : σ → Bool) (c : Conn σ ν) : Command σ ν → Conn σ ν
  | .openTransaction => c.orSame Conn.openTransaction
  | .commit => c.orSame (Conn.commit mayCommit)
  | .rollback => c.orSame Conn.rollback
  | .savepoint name => c.savepoint name
  | .release name => c.orSame (Conn.release mayCommit name)
  | .rollbackTo name => c.orSame (Conn.rollbackTo name)
  | .write f => c.orSame (Conn.write f)

/-! ## Release -/

/-- A savepoint is the innermost of its name. -/
theorem downTo_savepoint (name : ν) (s : σ) :
    ((c.savepoint name).put s).downTo name = ⟨some name, c.data⟩ :: c.levels := by
  simp [downTo, savepoint, put]

/-- A release right after a savepoint keeps what was done, if that may be committed. -/
theorem release_savepoint {mayCommit : σ → Bool} (name : ν) {s : σ}
    (h : c.Idle → mayCommit s = true) :
    ((c.savepoint name).put s).release mayCommit name = some (c.put s) := by
  obtain ⟨data, levels⟩ := c
  rw [release, downTo_savepoint]
  cases levels with
  | nil =>
      have hcommit : mayCommit s = true := h rfl
      simp [put, savepoint, hcommit]
  | cons l below => rfl

/-- A rollback to a savepoint takes back what was done since. -/
theorem rollbackTo_savepoint (name : ν) (s : σ) :
    ((c.savepoint name).put s).rollbackTo name = some (c.savepoint name) := by
  rw [rollbackTo, downTo_savepoint]
  rfl

/-- A release changes the stack only. -/
theorem release_data (mayCommit : σ → Bool) (name : ν) (c : Conn σ ν) :
    (c.orSame (Conn.release mayCommit name)).data = c.data := by
  rw [orSame, release]
  split
  · rfl
  · split <;> rfl
  · rfl

/-- Outside of a transaction a release commits, or the savepoint stays open. -/
theorem release_savepoint_refused {mayCommit : σ → Bool} (name : ν) {s : σ} (hidle : c.Idle)
    (h : mayCommit s = false) : ((c.savepoint name).put s).release mayCommit name = none := by
  obtain ⟨data, levels⟩ := c
  obtain rfl : levels = [] := hidle
  rw [release, downTo_savepoint]
  simp [put, savepoint, h]

/-- When a release right after a savepoint is no error. -/
theorem release_savepoint_eq_some_iff {mayCommit : σ → Bool} (name : ν) {s : σ} {d : Conn σ ν} :
    ((c.savepoint name).put s).release mayCommit name = some d ↔
      (c.Idle → mayCommit s = true) ∧ d = c.put s := by
  constructor
  · intro h
    have hmay : c.Idle → mayCommit s = true := by
      intro hidle
      by_contra hno
      rw [release_savepoint_refused name hidle (Bool.eq_false_iff.mpr hno)] at h
      cases h
    rw [release_savepoint name hmay] at h
    exact ⟨hmay, (Option.some.inj h).symm⟩
  · rintro ⟨hmay, rfl⟩
    exact release_savepoint name hmay

end Savepoint
