import Mathlib.Data.List.Basic

/-!
# Library - Readers of written units

A writer appends units to an array.  A reader stands at a position of the array,
yields a value and moves on, or throws.

Main results:

- Theorems {lit}`Reads.bind` and {lit}`Reads.times`: readers in a row read what writers
  in a row wrote, and a repeated reader reads a written list.
- Theorem {lit}`ReadsLast.optional`: a field at the end of the array may be left out,
  as long as a written field is never empty.
- Theorem {lit}`Reads.ne_nil`: a reader that can read two values needs units for both.
-/

namespace Wire

/-- An array and the position of the next unit. -/
structure Decoder (β : Type) where
  arr : List β
  pos : Nat
deriving DecidableEq

/-- {lit}`none` stands for an exception. -/
abbrev Reader (β α : Type) := StateT (Decoder β) Option α

variable {α γ β : Type}

/-- The same reader a number of times. -/
def Reader.times (r : Reader β α) : Nat → Reader β (List α)
  | 0 => pure []
  | n + 1 => do
      let a ← r
      let rest ← r.times n
      return a :: rest

/-- A reader that works on the units from its position on. -/
def Reader.onRest (f : List β → Option (α × List β)) : Reader β α := fun d =>
  (f (d.arr.drop d.pos)).map fun (a, rest) => (a, ⟨d.arr, d.arr.length - rest.length⟩)

/-- Started at the units, wherever they stand, the reader yields the value and stops
right behind them. -/
def Reads (r : Reader β α) (w : List β) (a : α) : Prop :=
  ∀ before after : List β,
    r ⟨before ++ w ++ after, before.length⟩ =
      some (a, ⟨before ++ w ++ after, (before ++ w).length⟩)

/-- The same for units at the end of the array. -/
def ReadsLast (r : Reader β α) (w : List β) (a : α) : Prop :=
  ∀ before : List β, r ⟨before ++ w, before.length⟩ = some (a, ⟨before ++ w, (before ++ w).length⟩)

/-- A reader of units anywhere reads them at the end. -/
theorem Reads.last {r : Reader β α} {w : List β} {a : α} (h : Reads r w a) :
    ReadsLast r w a := by
  intro before
  simpa using h before []

/-- A function of the units that are left is a reader. -/
theorem Reads.onRest {f : List β → Option (α × List β)} {w : List β} {a : α}
    (h : ∀ after, f (w ++ after) = some (a, after)) : Reads (Reader.onRest f) w a := by
  intro before after
  have hdrop : (before ++ w ++ after).drop before.length = w ++ after := by simp
  have hpos : (before ++ w ++ after).length - after.length = (before ++ w).length := by
    rw [List.length_append, Nat.add_sub_cancel]
  simp only [Reader.onRest, hdrop, h, Option.map_some, hpos]

/-! ## Readers in a row -/

/-- After the first reader the next goes on where it stopped. -/
theorem Reader.bind_eq {r : Reader β α} {f : α → Reader β γ} {d d' : Decoder β} {a : α}
    (h : r d = some (a, d')) : (r >>= f) d = f a d' :=
  congrArg (Option.bind · fun s : α × Decoder β => f s.1 s.2) h

/-- A value is read from no units. -/
theorem Reads.pure (a : α) : Reads (Pure.pure a : Reader β α) [] a := by
  intro before after
  simp only [List.append_nil]
  rfl

/-- Readers in a row read what was written in a row. -/
theorem Reads.bind {r : Reader β α} {f : α → Reader β γ} {w w' : List β} {a : α} {b : γ}
    (h : Reads r w a) (h' : Reads (f a) w' b) : Reads (r >>= f) (w ++ w') b := by
  intro before after
  have hfirst := h before (w' ++ after)
  have hsecond := h' (before ++ w) after
  rw [← List.append_assoc] at hfirst
  rw [← List.append_assoc before w w']
  exact (Reader.bind_eq hfirst).trans hsecond

/-- The last of a row of readers is at the end of the array. -/
theorem Reads.bind_last {r : Reader β α} {f : α → Reader β γ} {w w' : List β} {a : α} {b : γ}
    (h : Reads r w a) (h' : ReadsLast (f a) w' b) : ReadsLast (r >>= f) (w ++ w') b := by
  intro before
  have hfirst := h before w'
  have hsecond := h' (before ++ w)
  rw [← List.append_assoc before w w']
  exact (Reader.bind_eq hfirst).trans hsecond

/-- What was read is changed. -/
theorem Reads.map {r : Reader β α} {w : List β} {a : α} (h : Reads r w a) (f : α → γ) :
    Reads (r >>= fun a => Pure.pure (f a)) w (f a) := by
  have hbind := Reads.bind (f := fun a => Pure.pure (f a)) h (Reads.pure (f a))
  rwa [List.append_nil] at hbind

/-- What was read at the end is changed. -/
theorem ReadsLast.map {r : Reader β α} {w : List β} {a : α} (h : ReadsLast r w a) (f : α → γ) :
    ReadsLast (r >>= fun a => Pure.pure (f a)) w (f a) := by
  intro before
  exact (Reader.bind_eq (h before)).trans rfl

/-- A repeated reader reads a written list. -/
theorem Reads.times {r : Reader β α} {write : α → List β} {xs : List α}
    (h : ∀ x ∈ xs, Reads r (write x) x) :
    Reads (r.times xs.length) (xs.flatMap write) xs := by
  induction xs with
  | nil => exact Reads.pure []
  | cons x xs ih =>
      obtain ⟨hx, hrest⟩ := List.forall_mem_cons.mp h
      rw [List.flatMap_cons]
      exact hx.bind ((ih hrest).map (x :: ·))

/-! ## A field that may be left out at the end -/

/-- Two values are not both read from no units. -/
theorem Reads.ne_nil {r : Reader β α} {w w' : List β} {a b : α} (h : Reads r w a)
    (h' : Reads r w' b) (hne : a ≠ b) : w ≠ [] := by
  rintro rfl
  have hread := h [] w'
  have hread' := h' [] []
  simp only [List.nil_append, List.append_nil] at hread hread'
  have heq := hread.symm.trans hread'
  exact hne (by simpa using congrArg (Option.map Prod.fst) heq)

/-- The reader of a field that is there when the array goes on. -/
def Reader.optional (hasContent : Reader β Bool) (r : Reader β α) : Reader β (Option α) := do
  if ← hasContent then
    let a ← r
    return some a
  else
    return none

/-- A reader that tells whether the position is before the end of the array. -/
def TellsContent (hasContent : Reader β Bool) : Prop :=
  ∀ d, hasContent d = some (d.pos != d.arr.length, d)

/-- A field at the end that may be left out is read back, if it is never written as no units. -/
theorem ReadsLast.optional {hasContent : Reader β Bool} {r : Reader β α} {write : α → List β}
    (hcontent : TellsContent hasContent) (hread : ∀ a, Reads r (write a) a)
    (hne : ∀ a, write a ≠ []) (o : Option α) :
    ReadsLast (Reader.optional hasContent r) (o.elim [] write) o := by
  intro before
  refine (Reader.bind_eq (hcontent _)).trans ?_
  cases o with
  | none =>
      have hend : (before.length != before.length) = false := by simp
      simp only [Option.elim_none, List.append_nil, hend]
      rfl
  | some a =>
      have hpos := List.length_pos_of_ne_nil (hne a)
      have hmore : (before.length != (before ++ write a).length) = true := by
        simp only [List.length_append, bne_iff_ne]
        omega
      simp only [Option.elim_some, hmore]
      exact ((hread a).last.map some) before

end Wire
