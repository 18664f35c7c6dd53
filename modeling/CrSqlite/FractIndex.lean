import CrSqlite.Library.Str

/-!
# FractIndex - order keys between order keys

The functions of fractindex.rs (core/rs/fractindex-core).  An order key is an integer
part, whose first letter tells its length, and a fraction of base 62 digits.
`key_between` makes a key between two keys by an integer part of its own or by a
fraction in the middle of two fractions.

An index out of range or inside a character, and an unsigned subtraction below zero,
panic.  The digits are not configurable yet, so they are no parameter here.

Main results:

- Definition {lit}`keyBetween`: the key between two optional keys.
- Theorem {lit}`midpointStep_recur_lt`: the recursion of `midpoint` ends.
-/

namespace CrSqlite

/-- What a call does: it returns a value or an error, or it panics. -/
inductive Outcome (α : Type) where
  | ok (a : α)
  | err (msg : String)
  | panic
deriving DecidableEq

namespace Outcome

/-- The operator `?` and what follows it. -/
def bind {α β : Type} (x : Outcome α) (f : α → Outcome β) : Outcome β :=
  match x with
  | .ok a => f a
  | .err msg => .err msg
  | .panic => .panic

instance : Monad Outcome where
  pure := ok
  bind := bind

/-- An index expression. -/
def index {α : Type} : Option α → Outcome α
  | some a => .ok a
  | none => .panic

variable {α β : Type}

@[simp]
theorem ok_bind (a : α) (f : α → Outcome β) : (ok a >>= f) = f a :=
  rfl

@[simp]
theorem err_bind (msg : String) (f : α → Outcome β) : (err msg >>= f) = err msg :=
  rfl

@[simp]
theorem panic_bind (f : α → Outcome β) : (panic >>= f) = panic :=
  rfl

@[simp]
theorem index_some (a : α) : index (some a) = ok a :=
  rfl

@[simp]
theorem index_none : index (none : Option α) = panic :=
  rfl

theorem bind_eq_ok_iff {x : Outcome α} {f : α → Outcome β} {b : β} :
    (x >>= f) = ok b ↔ ∃ a, x = ok a ∧ f a = ok b := by
  cases x <;> simp

/-- Two steps panic when one of them does. -/
theorem bind_eq_panic_iff {x : Outcome α} {f : α → Outcome β} :
    (x >>= f) = panic ↔ x = panic ∨ ∃ a, x = ok a ∧ f a = panic := by
  cases x <;> simp

theorem index_eq_ok_iff {x : Option α} {a : α} : index x = ok a ↔ x = some a := by
  cases x <;> simp

@[simp]
theorem index_eq_panic_iff {x : Option α} : index x = panic ↔ x = none := by
  cases x <;> simp

end Outcome

namespace FractIndex

/-! ## Digits and integer parts -/

/-- `BASE_62_DIGITS`. -/
def base62Digits : Str :=
  ['0', '1', '2', '3', '4', '5', '6', '7', '8', '9', 'A', 'B', 'C', 'D', 'E', 'F', 'G', 'H', 'I',
    'J', 'K', 'L', 'M', 'N', 'O', 'P', 'Q', 'R', 'S', 'T', 'U', 'V', 'W', 'X', 'Y', 'Z', 'a', 'b',
    'c', 'd', 'e', 'f', 'g', 'h', 'i', 'j', 'k', 'l', 'm', 'n', 'o', 'p', 'q', 'r', 's', 't', 'u',
    'v', 'w', 'x', 'y', 'z']

/-- `SMALLEST_INTEGER`. -/
def smallestInteger : Str :=
  'A' :: List.replicate 26 '0'

/-- `INTEGER_ZERO`. -/
def integerZero : Str :=
  ['a', '0']

/-- `a_charcode`. -/
def aCharcode : Nat := 97

/-- `z_charcode`. -/
def zCharcode : Nat := 122

/-- `A_charcode`. -/
def upperACharcode : Nat := 65

/-- `Z_charcode`. -/
def upperZCharcode : Nat := 90

/-- `zero_charcode`. -/
def zeroCharcode : Nat := 48

/-- One byte of a string. -/
def byteAt (s : Str) (i : Nat) : Outcome Nat :=
  .index s.bytes[i]?

/-- The string ends with the digit 0. -/
def endsWithZero (s : Str) : Bool :=
  s.bytes.getLast? = some zeroCharcode

/-- `get_integer_len`. -/
def getIntegerLen (head : Nat) : Outcome Nat :=
  if aCharcode ≤ head ∧ head ≤ zCharcode then .ok (head - aCharcode + 2)
  else if upperACharcode ≤ head ∧ head ≤ upperZCharcode then .ok (upperZCharcode - head + 2)
  else .err "head is out of range"

/-- `get_integer_part`; the length of the key is cast to eight bits. -/
def getIntegerPart (key : Str) : Outcome Str := do
  let head ← byteAt key 0
  let integerPartLen ← getIntegerLen head
  if key.len % 256 < integerPartLen then .err "integer part of key is too long"
  else .index (key.sliceTo integerPartLen)

/-- `validate_order_key`. -/
def validateOrderKey (key : Str) : Outcome Unit :=
  if key = smallestInteger then .err "Key is too small"
  else do
    let i ← getIntegerPart key
    let f ← .index (key.sliceFrom i.len)
    if endsWithZero f then .err "Integer part should not end with 0" else .ok ()

/-- `validate_integer`. -/
def validateInteger (i : Str) : Outcome Unit := do
  let head ← byteAt i 0
  let n ← getIntegerLen head
  if i.len % 256 ≠ n then .err "invalid integer part of order key" else .ok ()

/-! ## The next and the previous integer part -/

/-- The loop of `increment_integer` from the digit before the given index down: the
digits, and whether the carry is left. -/
def carryLoop : Nat → Str → Outcome (Str × Bool)
  | 0, digs => .ok (digs, true)
  | ui + 1, digs => do
      let one ← .index (digs.slice ui (ui + 1))
      match base62Digits.find one with
      | none => .err "invalid digit"
      | some temp =>
          if temp + 1 = base62Digits.len then
            let digs ← .index (digs.replaceRange ui (ui + 1) ['0'])
            carryLoop ui digs
          else
            let digit ← .index (base62Digits.slice (temp + 1) (temp + 2))
            let digs ← .index (digs.replaceRange ui (ui + 1) digit)
            .ok (digs, false)

/-- `increment_integer`. -/
def incrementInteger (x : Str) : Outcome (Option Str) := do
  validateInteger x
  let head ← .index (x.sliceTo 1)
  let digs ← .index (x.sliceFrom 1)
  let (digs, carry) ← carryLoop digs.len digs
  if carry then
    if head = ['Z'] then .ok (some ['a', '0'])
    else if head = ['z'] then .ok none
    else
      let h ← byteAt head 0
      let digs := if aCharcode < h + 1 then digs ++ ['0'] else digs.dropLast
      .ok (some (Char.ofNat (h + 1) :: digs))
  else .ok (some (head ++ digs))

/-- The loop of `decrement_integer`: the digits, and whether the borrow is left. -/
def borrowLoop : Nat → Str → Outcome (Str × Bool)
  | 0, digs => .ok (digs, true)
  | ui + 1, digs => do
      let one ← .index (digs.slice ui (ui + 1))
      let last ← .index (base62Digits.slice (base62Digits.len - 1) base62Digits.len)
      match base62Digits.find one with
      | none => .err "invalid digit"
      | some 0 =>
          let digs ← .index (digs.replaceRange ui (ui + 1) last)
          borrowLoop ui digs
      | some (ud + 1) =>
          let digit ← .index (base62Digits.slice ud (ud + 1))
          let digs ← .index (digs.replaceRange ui (ui + 1) digit)
          .ok (digs, false)

/-- `decrement_integer`. -/
def decrementInteger (x : Str) : Outcome (Option Str) := do
  validateInteger x
  let head ← .index (x.sliceTo 1)
  let digs ← .index (x.sliceFrom 1)
  let (digs, borrow) ← borrowLoop digs.len digs
  if borrow then
    let last ← .index (base62Digits.slice (base62Digits.len - 1) base62Digits.len)
    if head = ['a'] then .ok (some ('Z' :: last))
    else if head = ['A'] then .ok none
    else
      let h ← byteAt head 0
      let digs := if h - 1 < upperZCharcode then digs ++ last else digs.dropLast
      .ok (some (Char.ofNat (h - 1) :: digs))
  else .ok (some (head ++ digs))

/-! ## The middle of two fractions -/

/-- `round` of half a number. -/
def round (twice : Nat) : Nat :=
  let tenx := 5 * twice
  let truncated := twice / 2
  if 5 ≤ tenx - truncated * 10 then truncated + 1 else truncated

/-- The scan of `midpoint` over two strings of bytes, the first one padded with the
digit 0: the index of the first difference, none when it runs past the second one. -/
def scanPrefix : List Nat → List Nat → Option Nat
  | _, [] => none
  | [], y :: ys => if zeroCharcode = y then (scanPrefix [] ys).map (· + 1) else some 0
  | x :: xs, y :: ys => if x = y then (scanPrefix xs ys).map (· + 1) else some 0

/-- The digit that the first byte of a string is. -/
def firstDigit (s : Str) : Outcome (Option Nat) := do
  let b ← byteAt s 0
  .ok (base62Digits.find [Char.ofNat b])

/-- `digit_a`. -/
def lowerDigit (a : Str) : Outcome (Option Nat) :=
  if a = [] then .ok (some 0) else firstDigit a

/-- `digit_b`. -/
def upperDigit : Option Str → Outcome (Option Nat)
  | some b => firstDigit b
  | none => .ok (some base62Digits.len)

/-- `if n > a.len() { "" } else { &a[n..] }`. -/
def lowerRest (n : Nat) (a : Str) : Outcome Str :=
  if a.len < n then .ok [] else .index (a.sliceFrom n)

/-- `if n > b.len() { None } else { Some(&b[n..]) }`. -/
def upperRest (n : Nat) (b : Str) : Outcome (Option Str) :=
  if b.len < n then .ok none else .index ((b.sliceFrom n).map some)

/-- `if a == "" { a } else { &a[1..] }`. -/
def tailOf (a : Str) : Outcome Str :=
  if a = [] then .ok a else .index (a.sliceFrom 1)

/-- How a call of `midpoint` ends: with a string, or with a string in front of what a
call of itself returns. -/
inductive MidpointStep where
  | done (s : Str)
  | recur (front : Str) (a : Str) (b : Option Str)

/-- `midpoint` behind the removal of the common part. -/
def midpointDigits (a : Str) (b : Option Str) : Outcome MidpointStep := do
  match ← lowerDigit a with
  | none => .err "midpoint - a has invalid digits"
  | some digitA =>
      match ← upperDigit b with
      | none => .err "midpoint - b has invalid digits"
      | some digitB =>
          if digitB < digitA then .panic
          else if 1 < digitB - digitA then
            let midDigit := round (digitA + digitB)
            let digit ← .index (base62Digits.slice midDigit (midDigit + 1))
            .ok (.done digit)
          else if ∃ b' ∈ b, 1 < b'.len then
            let digit ← .index ((b.getD []).sliceTo 1)
            .ok (.done digit)
          else
            let digit ← .index (base62Digits.slice digitA (digitA + 1))
            let rest ← tailOf a
            .ok (.recur digit rest none)

/-- The call of `midpoint` behind a common part of so many bytes. -/
def behindCommon (n : Nat) (a b : Str) : Outcome MidpointStep := do
  let front ← .index (b.sliceTo n)
  let a' ← lowerRest n a
  let b' ← upperRest n b
  .ok (.recur front a' b')

/-- `midpoint` up to the call of itself. -/
def midpointStep (a : Str) (b : Option Str) : Outcome MidpointStep :=
  if ∃ b' ∈ b, b'.bytes < a.bytes then .err "midpoint - a must be before b"
  else if b = some [] then .panic
  else if endsWithZero a ∨ (∃ b' ∈ b, endsWithZero b') then
    .err "midpoint - a or b must not end with 0"
  else
    match b with
    | none => midpointDigits a none
    | some b => do
        let n ← .index (scanPrefix a.bytes b.bytes)
        if 0 < n then behindCommon n a b else midpointDigits a (some b)

/-- The bytes that a call of `midpoint` has before it; an absent bound counts least. -/
def weight (a : Str) (b : Option Str) : Nat :=
  a.len + b.elim 0 fun b => b.len + 1

/-- Where the midpoint goes on it drops the first digit of the lower bound and the upper bound. -/
theorem midpointDigits_recur {a a' front : Str} {b b' : Option Str}
    (h : midpointDigits a b = .ok (.recur front a' b')) :
    b' = none ∧ tailOf a = .ok a' ∧ (a = [] → b ≠ none) := by
  unfold midpointDigits at h
  obtain ⟨digitA, hA, h⟩ := Outcome.bind_eq_ok_iff.mp h
  split at h
  · simp at h
  · rename_i digitA
    obtain ⟨digitB, hB, h⟩ := Outcome.bind_eq_ok_iff.mp h
    split at h
    · simp at h
    · rename_i digitB
      split_ifs at h with hunder hfar hlong
      · obtain ⟨digit, -, h⟩ := Outcome.bind_eq_ok_iff.mp h
        simp at h
      · obtain ⟨digit, -, h⟩ := Outcome.bind_eq_ok_iff.mp h
        simp at h
      · obtain ⟨digit, -, h⟩ := Outcome.bind_eq_ok_iff.mp h
        obtain ⟨rest, hrest, h⟩ := Outcome.bind_eq_ok_iff.mp h
        simp only [Outcome.ok.injEq, MidpointStep.recur.injEq] at h
        obtain ⟨-, rfl, rfl⟩ := h
        refine ⟨rfl, hrest, ?_⟩
        -- without bounds the digits are 0 and 62, which are far apart
        rintro rfl rfl
        simp only [lowerDigit, upperDigit, if_true, Outcome.ok.injEq, Option.some.injEq] at hA hB
        have hlen : base62Digits.len = 62 := by decide
        omega

/-- The recursion of `midpoint` ends. -/
theorem midpointStep_recur_lt {a a' front : Str} {b b' : Option Str}
    (h : midpointStep a b = .ok (.recur front a' b')) : weight a' b' < weight a b := by
  have hdigits : ∀ c : Option Str, midpointDigits a c = .ok (.recur front a' b') →
      weight a' b' < weight a c := by
    intro c hc
    obtain ⟨rfl, hrest, hne⟩ := midpointDigits_recur hc
    unfold tailOf at hrest
    split at hrest
    · rename_i ha
      obtain ⟨c, rfl⟩ := Option.ne_none_iff_exists'.mp (hne ha)
      rw [← Outcome.ok.inj hrest]
      simp [weight]
    · obtain ⟨p, rfl, hp⟩ := Str.sliceFrom_eq_some_iff.mp (Outcome.index_eq_ok_iff.mp hrest)
      simp only [weight, Option.elim_none, Str.len_append]
      omega
  unfold midpointStep at h
  split_ifs at h with hgt hnil hzero
  split at h
  · exact hdigits none h
  · rename_i _ b
    obtain ⟨n, -, h⟩ := Outcome.bind_eq_ok_iff.mp h
    split at h
    · rename_i hn
      unfold behindCommon at h
      obtain ⟨pre, -, h⟩ := Outcome.bind_eq_ok_iff.mp h
      obtain ⟨s, hs, h⟩ := Outcome.bind_eq_ok_iff.mp h
      obtain ⟨t, ht, h⟩ := Outcome.bind_eq_ok_iff.mp h
      simp only [Outcome.ok.injEq, MidpointStep.recur.injEq] at h
      obtain ⟨-, rfl, rfl⟩ := h
      have hle : s.len ≤ a.len := by
        unfold lowerRest at hs
        split at hs
        · rw [← Outcome.ok.inj hs]
          exact Nat.zero_le _
        · obtain ⟨p, hp, -⟩ := Str.sliceFrom_eq_some_iff.mp (Outcome.index_eq_ok_iff.mp hs)
          rw [hp, Str.len_append]
          omega
      unfold upperRest at ht
      split at ht
      · rw [← Outcome.ok.inj ht]
        simp only [weight, Option.elim_none, Option.elim_some]
        omega
      · obtain ⟨u, hu, rfl⟩ := Option.map_eq_some_iff.mp (Outcome.index_eq_ok_iff.mp ht)
        obtain ⟨p, hp, hlen⟩ := Str.sliceFrom_eq_some_iff.mp hu
        simp only [weight, Option.elim_some, hp, Str.len_append]
        omega
    · exact hdigits (some b) h

/-- `midpoint`. -/
def midpoint (a : Str) (b : Option Str) : Outcome Str :=
  match _h : midpointStep a b with
  | .ok (.done s) => .ok s
  | .ok (.recur front a' b') => midpoint a' b' >>= fun s => .ok (front ++ s)
  | .err msg => .err msg
  | .panic => .panic
termination_by weight a b
decreasing_by exact midpointStep_recur_lt _h

/-- A midpoint is its first step, and the midpoint of what is left. -/
theorem midpoint_eq (a : Str) (b : Option Str) :
    midpoint a b = midpointStep a b >>= fun
      | .done s => .ok s
      | .recur front a' b' => midpoint a' b' >>= fun s => .ok (front ++ s) := by
  rw [midpoint]
  split
  · rename_i h
    rw [h, Outcome.ok_bind]
  · rename_i h
    rw [h, Outcome.ok_bind]
  · rename_i h
    rw [h, Outcome.err_bind]
  · rename_i h
    rw [h, Outcome.panic_bind]

/-! ## The key between two keys -/

/-- `validate_order_key` of a key that is there. -/
def validateBound : Option Str → Outcome Unit
  | none => .ok ()
  | some key => validateOrderKey key

/-- `key_between` once both keys are validated. -/
def between : Option Str → Option Str → Outcome (Option Str)
  | none, none => .ok (some integerZero)
  | some a, some b =>
      if b.bytes < a.bytes then .err "key_between - a must be before b"
      else do
        let ia ← getIntegerPart a
        let ib ← getIntegerPart b
        let fa ← .index (a.sliceFrom ia.len)
        let fb ← .index (b.sliceFrom ib.len)
        if ia = ib then
          let m ← midpoint fa (some fb)
          .ok (some (ia ++ m))
        else
          match ← incrementInteger ia with
          | some i =>
              if i.bytes < b.bytes then .ok (some i)
              else
                let m ← midpoint fa none
                .ok (some (ia ++ m))
          | none => .err "Cannot increment anymore"
  | none, some b => do
      let ib ← getIntegerPart b
      let fb ← .index (b.sliceFrom ib.len)
      if ib = smallestInteger then
        let m ← midpoint [] (some fb)
        .ok (some (ib ++ m))
      else if ib.bytes < b.bytes then .ok (some ib)
      else
        match ← decrementInteger ib with
        | some res => .ok (some res)
        | none => .err "cannot decrement anymore"
  | some a, none => do
      let ia ← getIntegerPart a
      let fa ← .index (a.sliceFrom ia.len)
      match ← incrementInteger ia with
      | none =>
          let m ← midpoint fa none
          .ok (some (ia ++ m))
      | some i => .ok (some i)

/-- `key_between`. -/
def keyBetween (a b : Option Str) : Outcome (Option Str) := do
  validateBound a
  validateBound b
  between a b

end FractIndex

end CrSqlite
