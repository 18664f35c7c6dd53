import Mathlib.Data.List.Basic

/-!
# Library - Guarded runs

A system that takes operations one after the other, and a guard that says which
operation is allowed in which state.  The induction over such runs is done here,
once.

Main results:

- Theorem {lit}`Run.invariant`: what holds at the start and is kept by every
  allowed operation holds after every allowed run.
- Theorem {lit}`Run.allowed_append`: a run is allowed exactly when its first
  part is and its second part is from the state the first part reaches.
- Theorem {lit}`Run.exec_refines`: what a step does on an abstract state, a run does.
- Theorem {lit}`Run.exec_congr`: two systems with the same allowed steps have the same
  allowed runs.
- Theorem {lit}`Run.always_iff_allowed`: a property holds in every state of exactly
  the allowed runs when each step that is not allowed breaks it.
-/

namespace Run

variable {σ ο : Type*}

/-- The state a list of operations reaches. -/
def exec (step : σ → ο → σ) (s : σ) (ops : List ο) : σ :=
  ops.foldl step s

/-- Every operation of the run is allowed in the state it meets. -/
def Allowed (step : σ → ο → σ) (ok : σ → ο → Prop) : σ → List ο → Prop
  | _, [] => True
  | s, op :: ops => ok s op ∧ Allowed step ok (step s op) ops

instance instDecidableAllowed (step : σ → ο → σ) (ok : σ → ο → Prop) [∀ s op, Decidable (ok s op)]
    (s : σ) (ops : List ο) : Decidable (Allowed step ok s ops) :=
  match ops with
  | [] => inferInstanceAs (Decidable True)
  | op :: ops =>
      have : Decidable (Allowed step ok (step s op) ops) :=
        instDecidableAllowed step ok (step s op) ops
      inferInstanceAs (Decidable (_ ∧ _))

variable {step : σ → ο → σ} {ok : σ → ο → Prop}

@[simp]
theorem exec_nil (s : σ) : exec step s [] = s :=
  rfl

@[simp]
theorem exec_cons (s : σ) (op : ο) (ops : List ο) :
    exec step s (op :: ops) = exec step (step s op) ops :=
  rfl

/-- A run may be taken in two parts. -/
theorem exec_append (s : σ) (xs ys : List ο) :
    exec step s (xs ++ ys) = exec step (exec step s xs) ys :=
  List.foldl_append

/-- A run in two parts is allowed when both parts are. -/
theorem allowed_append {s : σ} {xs ys : List ο} :
    Allowed step ok s (xs ++ ys) ↔
      Allowed step ok s xs ∧ Allowed step ok (exec step s xs) ys := by
  induction xs generalizing s with
  | nil => simp [Allowed]
  | cons op xs ih => simp [Allowed, ih, and_assoc]

/-- Where every operation is allowed every run is. -/
theorem allowed_of_forall (h : ∀ s op, ok s op) (s : σ) (ops : List ο) :
    Allowed step ok s ops := by
  induction ops generalizing s with
  | nil => trivial
  | cons op ops ih => exact ⟨h s op, ih (step s op)⟩

/-- An invariant kept by every allowed operation holds after every allowed
run. -/
theorem invariant (Inv : σ → Prop)
    (hstep : ∀ s op, Inv s → ok s op → Inv (step s op))
    {s : σ} (hs : Inv s) {ops : List ο} (hops : Allowed step ok s ops) :
    Inv (exec step s ops) := by
  induction ops generalizing s with
  | nil => exact hs
  | cons op ops ih => exact ih (hstep s op hs hops.1) hops.2

/-- A system that does what an abstract one does with every allowed operation does so with
every allowed run. -/
theorem exec_refines {τ : Type*} {step' : τ → ο → τ} (abs : σ → τ) (Inv : σ → Prop)
    (hstep : ∀ s op, Inv s → ok s op → Inv (step s op))
    (habs : ∀ s op, Inv s → ok s op → abs (step s op) = step' (abs s) op)
    {s : σ} (hs : Inv s) {ops : List ο} (hops : Allowed step ok s ops) :
    abs (exec step s ops) = exec step' (abs s) ops := by
  induction ops generalizing s with
  | nil => rfl
  | cons op ops ih =>
      rw [exec_cons, exec_cons, ← habs s op hs hops.1]
      exact ih (hstep s op hs hops.1) hops.2

/-- Two systems that do the same with every operation that is allowed where an invariant
holds allow the same runs and do the same with them. -/
theorem exec_congr {step' : σ → ο → σ} (Inv : σ → Prop)
    (hstep : ∀ s op, Inv s → ok s op → Inv (step s op))
    (heq : ∀ s op, Inv s → ok s op → step s op = step' s op)
    {s : σ} (hs : Inv s) {ops : List ο} (hops : Allowed step ok s ops) :
    exec step s ops = exec step' s ops ∧ Allowed step' ok s ops := by
  induction ops generalizing s with
  | nil => exact ⟨rfl, trivial⟩
  | cons op ops ih =>
      rw [exec_cons, exec_cons, Allowed, ← heq s op hs hops.1]
      obtain ⟨hexec, hallowed⟩ := ih (hstep s op hs hops.1) hops.2
      exact ⟨hexec, hops.1, hallowed⟩

/-- A guard that follows from another one wherever an invariant holds, which the
operations that the other one allows keep. -/
theorem allowed_mono {ok' : σ → ο → Prop} (Inv : σ → Prop)
    (himp : ∀ s op, Inv s → ok s op → ok' s op)
    (hstep : ∀ s op, Inv s → ok s op → Inv (step s op))
    {s : σ} (hs : Inv s) {ops : List ο} (hops : Allowed step ok s ops) :
    Allowed step ok' s ops := by
  induction ops generalizing s with
  | nil => trivial
  | cons op ops ih => exact ⟨himp s op hs hops.1, ih (hstep s op hs hops.1) hops.2⟩

/-- Two guards that agree wherever an invariant holds allow the same runs, when the
operations that the second one allows keep the invariant. -/
theorem allowed_congr {ok' : σ → ο → Prop} (Inv : σ → Prop)
    (hiff : ∀ s op, Inv s → (ok' s op ↔ ok s op))
    (hstep : ∀ s op, Inv s → ok s op → Inv (step s op))
    {s : σ} (hs : Inv s) {ops : List ο} :
    Allowed step ok' s ops ↔ Allowed step ok s ops := by
  induction ops generalizing s with
  | nil => exact Iff.rfl
  | cons op ops ih =>
      rw [Allowed, Allowed, hiff s op hs]
      exact and_congr_right fun hok => ih (hstep s op hs hok)

/-- A property that holds in every state the run passes through. -/
def Always (step : σ → ο → σ) (good : σ → Prop) : σ → List ο → Prop
  | s, [] => good s
  | s, op :: ops => good s ∧ Always step good (step s op) ops

/-- A property that follows from an invariant, where the allowed operations keep the
invariant and every other one breaks the property: it holds throughout a run exactly
when the run is allowed. -/
theorem always_iff_allowed (Inv : σ → Prop) {good : σ → Prop}
    (hgood : ∀ s, Inv s → good s)
    (hstep : ∀ s op, Inv s → ok s op → Inv (step s op))
    (hbad : ∀ s op, Inv s → ¬ ok s op → ¬ good (step s op))
    {s : σ} (hs : Inv s) {ops : List ο} :
    Always step good s ops ↔ Allowed step ok s ops := by
  induction ops generalizing s with
  | nil => exact ⟨fun _ => trivial, fun _ => hgood s hs⟩
  | cons op ops ih =>
      rw [Always, Allowed]
      by_cases hok : ok s op
      · rw [ih (hstep s op hs hok)]
        exact ⟨fun h => ⟨hok, h.2⟩, fun h => ⟨hgood s hs, h.2⟩⟩
      · refine ⟨fun h => absurd ?_ (hbad s op hs hok), fun h => absurd h.1 hok⟩
        cases ops with
        | nil => exact h.2
        | cons op' ops => exact h.2.1

end Run
