import CrSqlite.FractKeys

/-!
# FractSafety - which calls panic

`key_between` is called with any two strings.  The checks in front look at the head, at
the length in eight bits and at the last byte, so what is behind them may be empty, equal
or of characters of several bytes.

Main results:

- Theorem {lit}`scanPrefix_eq_some_iff`: the scan stops at the first difference.
- Theorem {lit}`midpoint_none_ne_panic`: without an upper bound `midpoint` is safe.
- Theorem {lit}`midpoint_some_eq_panic_iff`: with one it panics on equal strings and on a
  first difference inside a character.

Current gaps:

- `key_between` panics on an empty key, on a key whose integer part ends inside a
  character, on a key with itself, and on a character of several bytes where a fraction
  starts to differ or a digit is counted.
-/

namespace CrSqlite

namespace FractIndex

/-! ## The scan -/

/-- The first index at which the bytes differ, where the first string goes on in zeros. -/
structure FirstDifference (xs ys : List Nat) (n : Nat) : Prop where
  lt : n < ys.length
  same : ∀ i < n, xs.getD i zeroCharcode = ys.getD i zeroCharcode
  differ : xs.getD n zeroCharcode ≠ ys.getD n zeroCharcode

/-- A later difference is one of the tails behind equal heads. -/
theorem firstDifference_cons_succ {x y : Nat} {xs ys : List Nat} {n : Nat} :
    FirstDifference (x :: xs) (y :: ys) (n + 1) ↔ x = y ∧ FirstDifference xs ys n := by
  constructor
  · rintro ⟨hlt, hsame, hdiffer⟩
    refine ⟨hsame 0 (Nat.succ_pos n), Nat.lt_of_succ_lt_succ hlt, ?_, hdiffer⟩
    exact fun i hi => hsame (i + 1) (Nat.succ_lt_succ hi)
  · rintro ⟨rfl, hlt, hsame, hdiffer⟩
    refine ⟨Nat.succ_lt_succ hlt, ?_, hdiffer⟩
    intro i hi
    cases i with
    | zero => rfl
    | succ i => exact hsame i (Nat.lt_of_succ_lt_succ hi)

/-- The first difference is at the heads when they differ. -/
theorem firstDifference_cons_zero {x y : Nat} {xs ys : List Nat} :
    FirstDifference (x :: xs) (y :: ys) 0 ↔ x ≠ y := by
  constructor
  · exact fun h => h.differ
  · exact fun h => ⟨Nat.succ_pos _, fun i hi => absurd hi (Nat.not_lt_zero i), h⟩

/-- A string that has ended goes on in zeros. -/
theorem firstDifference_nil {ys : List Nat} {n : Nat} :
    FirstDifference [] ys n ↔ FirstDifference [zeroCharcode] ys n := by
  have hget : ∀ i, ([zeroCharcode] : List Nat).getD i zeroCharcode =
      ([] : List Nat).getD i zeroCharcode := by
    intro i
    cases i with
    | zero => rfl
    | succ i => rfl
  constructor
  · rintro ⟨hlt, hsame, hdiffer⟩
    exact ⟨hlt, fun i hi => (hget i).trans (hsame i hi), by rw [hget]; exact hdiffer⟩
  · rintro ⟨hlt, hsame, hdiffer⟩
    exact ⟨hlt, fun i hi => (hget i).symm.trans (hsame i hi), by rw [← hget]; exact hdiffer⟩

/-- The scan stops at the first difference. -/
theorem scanPrefix_eq_some_iff {xs ys : List Nat} {n : Nat} :
    scanPrefix xs ys = some n ↔ FirstDifference xs ys n := by
  induction ys generalizing xs n with
  | nil =>
      rw [scanPrefix]
      exact iff_of_false (by simp) fun h => Nat.not_lt_zero n h.lt
  | cons y ys ih =>
      have hstep : ∀ x xs, (if x = y then (scanPrefix xs ys).map (· + 1) else some 0) = some n ↔
          FirstDifference (x :: xs) (y :: ys) n := by
        intro x xs
        cases n with
        | zero =>
            rw [firstDifference_cons_zero]
            split_ifs with hxy <;> simp [hxy]
        | succ n =>
            rw [firstDifference_cons_succ, ← ih]
            split_ifs with hxy <;> simp [hxy]
      cases xs with
      | nil =>
          rw [firstDifference_nil, ← hstep, scanPrefix]
      | cons x xs => rw [← hstep, scanPrefix]

/-- Behind the common prefix the strings differ at once. -/
theorem scanPrefix_drop {xs ys : List Nat} {n : Nat} (h : scanPrefix xs ys = some n) :
    scanPrefix (xs.drop n) (ys.drop n) = some 0 := by
  rw [scanPrefix_eq_some_iff] at h ⊢
  have hget : ∀ (zs : List Nat) (i : Nat),
      (zs.drop n).getD i zeroCharcode = zs.getD (n + i) zeroCharcode := by
    intro zs i
    simp [List.getD_eq_getElem?_getD, List.getElem?_drop]
  refine ⟨?_, fun i hi => absurd hi (Nat.not_lt_zero i), ?_⟩
  · rw [List.length_drop]
    exact Nat.sub_pos_of_lt h.lt
  · rw [hget, hget]
    exact h.differ

/-- The scan runs past the end of a string that the other one starts with, or that is the
other one and zeros. -/
theorem scanPrefix_eq_none {xs ys : List Nat} (h : scanPrefix xs ys = none) :
    ys <+: xs ∨ ∃ m, ys = xs ++ List.replicate (m + 1) zeroCharcode := by
  induction ys generalizing xs with
  | nil => exact Or.inl (List.nil_prefix)
  | cons y ys ih =>
      cases xs with
      | nil =>
          rw [scanPrefix] at h
          split_ifs at h with hzero
          subst hzero
          rcases ih (Option.map_eq_none_iff.mp h) with hprefix | ⟨m, rfl⟩
          · obtain rfl := List.prefix_nil.mp hprefix
            exact Or.inr ⟨0, rfl⟩
          · exact Or.inr ⟨m + 1, rfl⟩
      | cons x xs =>
          rw [scanPrefix] at h
          split_ifs at h with hxy
          subst hxy
          rcases ih (Option.map_eq_none_iff.mp h) with hprefix | ⟨m, rfl⟩
          · exact Or.inl ((List.prefix_cons_inj x).mpr hprefix)
          · exact Or.inr ⟨m, rfl⟩

/-- A string differs nowhere from itself. -/
theorem scanPrefix_self (xs : List Nat) : scanPrefix xs xs = none := by
  induction xs with
  | nil => rfl
  | cons x xs ih => simp [scanPrefix, ih]

/-! ## The middle of two strings -/

/-- A byte that is a digit is a character of its own. -/
theorem firstDigit_ok (c : Char) (s : Str) :
    ∃ x, firstDigit (c :: s) = .ok x ∧ ∀ i ∈ x, base62Digits[i]? = some c := by
  obtain ⟨b, bs, hb⟩ := List.exists_cons_of_length_pos (Str.length_charBytes_pos c)
  have hbyte : byteAt (c :: s) 0 = .ok b := by
    rw [byteAt, Str.bytes_cons, hb]
    rfl
  refine ⟨base62Digits.find [Char.ofNat b], by rw [firstDigit, hbyte, Outcome.ok_bind], ?_⟩
  intro i hi
  have hdigit := find_digit.mp hi
  have hascii := base62Digits_ascii _ (List.mem_of_getElem? hdigit)
  have hlt : b < 256 := Str.charBytes_lt c b (by simp [hb])
  have hb128 : b < 128 := by
    have hvalid : b.isValidChar := Or.inl (by omega)
    rw [Char.ofNat, dif_pos hvalid] at hascii
    exact hascii
  have hc : c.toNat < 128 := by
    by_contra hc
    have hle := Str.charBytes_of_not_ascii hc b (by simp [hb])
    omega
  rw [Str.charBytes_of_ascii hc] at hb
  obtain ⟨rfl, -⟩ := List.cons_eq_cons.mp hb
  rwa [Char.ofNat_toNat] at hdigit

/-- The first digit of the lower bound is read without a panic. -/
theorem lowerDigit_ok (a : Str) :
    ∃ x, lowerDigit a = .ok x ∧ ∀ i ∈ x, base62Digits[i]? = some (a.headD '0') := by
  cases a with
  | nil =>
      refine ⟨some 0, rfl, ?_⟩
      intro i hi
      obtain rfl := Option.some.inj hi
      rfl
  | cons c a =>
      obtain ⟨x, hx, hdigit⟩ := firstDigit_ok c a
      exact ⟨x, by rw [lowerDigit, if_neg (List.cons_ne_nil c a), hx], hdigit⟩

/-- The tail behind a digit is read without a panic. -/
theorem tailOf_of_digit {a : Str} {i : Nat} (h : base62Digits[i]? = some (a.headD '0')) :
    tailOf a = .ok a.tail := by
  cases a with
  | nil => rfl
  | cons c a =>
      have hc := base62Digits_ascii c (List.mem_of_getElem? h)
      rw [tailOf, if_neg (List.cons_ne_nil c a), sliceFrom_one hc]
      rfl

/-- Behind the common part `midpoint` is safe when the first digits are in order. -/
theorem midpointDigits_ne_panic {a : Str} {b : Option Str}
    (hb : ∀ d ∈ b, ∃ c t, d = c :: t ∧
      (a.headD '0' ∈ base62Digits → c ∈ base62Digits → a.headD '0' < c)) :
    midpointDigits a b ≠ .panic := by
  obtain ⟨x, hlower, hx⟩ := lowerDigit_ok a
  have hupper : ∃ y, upperDigit b = .ok y ∧
      ∀ j ∈ y, (b = none ∧ j = 62) ∨ ∃ c t, b = some (c :: t) ∧ base62Digits[j]? = some c := by
    cases b with
    | none => exact ⟨some 62, by rw [upperDigit, base62Digits_len], by simp⟩
    | some d =>
        obtain ⟨c, t, rfl, -⟩ := hb d rfl
        obtain ⟨y, hy, hdigit⟩ := firstDigit_ok c t
        exact ⟨y, hy, fun j hj => Or.inr ⟨c, t, rfl, hdigit j hj⟩⟩
  obtain ⟨y, hupper, hy⟩ := hupper
  rw [midpointDigits, hlower, Outcome.ok_bind]
  cases x with
  | none => simp
  | some i =>
      have hi := hx i rfl
      obtain ⟨hi62, -⟩ := List.getElem?_eq_some_iff.mp hi
      have hi62 : i < 62 := hi62
      simp only [hupper, Outcome.ok_bind]
      cases y with
      | none => simp
      | some j =>
          have hij : i < j ∧ j ≤ 62 := by
            rcases hy j rfl with ⟨-, rfl⟩ | ⟨c, t, rfl, hj⟩
            · exact ⟨hi62, le_refl 62⟩
            · obtain ⟨c', t', heq, hlt⟩ := hb _ rfl
              obtain ⟨rfl, rfl⟩ := List.cons_eq_cons.mp heq
              have hlt := hlt (List.mem_of_getElem? hi) (List.mem_of_getElem? hj)
              obtain ⟨hj62, -⟩ := List.getElem?_eq_some_iff.mp hj
              exact ⟨(digit_lt_iff hi hj).mp hlt, Nat.le_of_lt hj62⟩
          simp only [if_neg (Nat.not_lt_of_lt hij.1)]
          split_ifs with hfar hlong
          · have hround := round_eq (i + j)
            obtain ⟨c, hc⟩ := exists_digit (i := round (i + j)) (by omega)
            simp [slice_digit hc]
          · obtain ⟨d, rfl, -⟩ := hlong
            rcases hy j rfl with ⟨h, -⟩ | ⟨c, t, h, hj⟩
            · cases h
            · obtain rfl := Option.some.inj h
              have hc := base62Digits_ascii c (List.mem_of_getElem? hj)
              simp [sliceTo_one hc]
          · simp [slice_digit hi, tailOf_of_digit hi]

/-- Without an upper bound `midpoint` is safe. -/
theorem midpoint_none_ne_panic (a : Str) : midpoint a none ≠ .panic := by
  induction hw : weight a none using Nat.strong_induction_on generalizing a with
  | _ w ih =>
      subst hw
      rw [midpoint_eq]
      by_cases hzero : endsWithZero a
      · simp [midpointStep, hzero]
      · have hstep : midpointStep a none = midpointDigits a none := by simp [midpointStep, hzero]
        have hsafe : midpointDigits a none ≠ .panic := midpointDigits_ne_panic (by simp)
        rw [hstep]
        cases hres : midpointDigits a none with
        | err msg => simp
        | panic => exact absurd hres hsafe
        | ok st =>
            cases st with
            | done s => simp
            | recur front a' b' =>
                have hlt := midpointStep_recur_lt (hstep.trans hres)
                obtain ⟨rfl, -, -⟩ := midpointDigits_recur hres
                have h := ih _ hlt a' rfl
                simpa [Outcome.bind_eq_panic_iff] using h

/-- `midpoint` behind a safe step without a common part. -/
theorem midpointDigits_bind_ne_panic {a : Str} {b : Option Str}
    (h : midpointDigits a b ≠ .panic) :
    (midpointDigits a b >>= fun
      | .done s => .ok s
      | .recur front a' b' => midpoint a' b' >>= fun s => .ok (front ++ s)) ≠
      (.panic : Outcome Str) := by
  rw [Ne, Outcome.bind_eq_panic_iff]
  rintro (hpanic | ⟨st, hst, hpanic⟩)
  · exact h hpanic
  · cases st with
    | done s => simp at hpanic
    | recur front a' b' =>
        obtain ⟨rfl, -, -⟩ := midpointDigits_recur hst
        simp [Outcome.bind_eq_panic_iff, midpoint_none_ne_panic] at hpanic

/-- The first digits of strings that differ from the start are in order like the strings. -/
theorem headD_lt_of_scan {a t : Str} {c : Char} (hle : ¬ Str.bytes (c :: t) < a.bytes)
    (hscan : scanPrefix a.bytes (Str.bytes (c :: t)) = some 0)
    (ha : a.headD '0' ∈ base62Digits) (hc : c ∈ base62Digits) : a.headD '0' < c := by
  have hascii := base62Digits_ascii c hc
  rw [Str.bytes_cons, Str.charBytes_of_ascii hascii, List.singleton_append] at hle hscan
  cases a with
  | nil =>
      rw [Str.bytes_nil, scanPrefix_eq_some_iff, firstDifference_nil,
        firstDifference_cons_zero] at hscan
      apply lt_of_le_of_ne (zero_le_digit hc)
      rintro rfl
      exact hscan rfl
  | cons x a =>
      have hxascii := base62Digits_ascii x ha
      rw [Str.bytes_cons, Str.charBytes_of_ascii hxascii, List.singleton_append] at hle hscan
      rw [scanPrefix_eq_some_iff, firstDifference_cons_zero] at hscan
      have hcx : ¬ c.toNat < x.toNat := fun h => hle (List.cons_lt_cons_iff.mpr (Or.inl h))
      have hlt : x.toNat < c.toNat := by omega
      exact hlt

/-- On strings that differ from the start `midpoint` is safe. -/
theorem midpoint_differ_ne_panic {a b : Str} (hscan : scanPrefix a.bytes b.bytes = some 0) :
    midpoint a (some b) ≠ .panic := by
  have hne : b ≠ [] := by
    rintro rfl
    cases hscan
  obtain ⟨c, t, rfl⟩ := List.exists_cons_of_ne_nil hne
  rw [midpoint_eq]
  by_cases hgt : Str.bytes (c :: t) < a.bytes
  · simp [midpointStep, -Str.bytes_cons, hgt]
  · by_cases hzero : endsWithZero a ∨ endsWithZero (c :: t)
    · simp [midpointStep, -Str.bytes_cons, hgt, hzero]
    · have hstep : midpointStep a (some (c :: t)) = midpointDigits a (some (c :: t)) := by
        simp [midpointStep, -Str.bytes_cons, hgt, hzero, hscan]
      rw [hstep]
      apply midpointDigits_bind_ne_panic
      apply midpointDigits_ne_panic
      intro d hd
      obtain rfl := Option.some.inj hd
      exact ⟨c, t, rfl, headD_lt_of_scan hgt hscan⟩

/-- The first difference of two strings lies on a boundary of their characters. -/
def DiffersAtBoundary (a b : Str) : Prop :=
  ∀ n, FirstDifference a.bytes b.bytes n →
    (Str.split n b).isSome ∧ (n ≤ a.len → (Str.split n a).isSome)

/-- The keys differ at a boundary of characters when both can be cut there. -/
theorem differsAtBoundary_iff {a b : Str} {n : Nat}
    (hscan : scanPrefix a.bytes b.bytes = some n) :
    DiffersAtBoundary a b ↔ (Str.split n b).isSome ∧ (n ≤ a.len → (Str.split n a).isSome) := by
  constructor
  · exact fun h => h n (scanPrefix_eq_some_iff.mp hscan)
  · intro h m hm
    rw [← scanPrefix_eq_some_iff, hscan] at hm
    obtain rfl := Option.some.inj hm
    exact h

theorem sliceTo_eq_none_iff {n : Nat} {s : Str} : s.sliceTo n = none ↔ s.split n = none := by
  simp [Str.sliceTo]

theorem sliceFrom_eq_none_iff {n : Nat} {s : Str} : s.sliceFrom n = none ↔ s.split n = none := by
  simp [Str.sliceFrom]

/-- What `lowerRest` leaves has the bytes from the index on. -/
theorem lowerRest_bytes {n : Nat} {a s : Str} (h : lowerRest n a = .ok s) :
    s.bytes = a.bytes.drop n := by
  unfold lowerRest at h
  split_ifs at h with hlt
  · obtain rfl := Outcome.ok.inj h
    exact (List.drop_eq_nil_of_le (Nat.le_of_lt hlt)).symm
  · obtain ⟨p, rfl, rfl⟩ := Str.sliceFrom_eq_some_iff.mp (Outcome.index_eq_ok_iff.mp h)
    rw [Str.bytes_append]
    exact List.drop_left.symm

/-- The rest of the lower bound panics when it is long enough and cannot be cut. -/
theorem lowerRest_eq_panic_iff {n : Nat} {a : Str} :
    lowerRest n a = .panic ↔ ¬ (n ≤ a.len → (a.split n).isSome) := by
  unfold lowerRest
  split_ifs with hlt
  · simp [Nat.not_le_of_lt hlt]
  · simp [Nat.le_of_not_lt hlt, sliceFrom_eq_none_iff]

/-- Behind a common part that ends on a boundary, `midpoint` calls itself on strings that
differ from the start. -/
theorem behindCommon_ok {a b : Str} {n : Nat} (hscan : scanPrefix a.bytes b.bytes = some n)
    (hb : (b.split n).isSome) (ha : n ≤ a.len → (a.split n).isSome) :
    ∃ front a' b', behindCommon n a b = .ok (.recur front a' (some b')) ∧
      scanPrefix a'.bytes b'.bytes = some 0 := by
  obtain ⟨⟨front, b'⟩, hsplit⟩ := Option.isSome_iff_exists.mp hb
  have hlt : n < b.len := (scanPrefix_eq_some_iff.mp hscan).lt
  have hupper : upperRest n b = .ok (some b') := by
    rw [upperRest, if_neg (Nat.not_lt_of_lt hlt), Str.sliceFrom, hsplit]
    rfl
  have hbytes : b'.bytes = b.bytes.drop n := by
    obtain ⟨rfl, hfront⟩ := Str.split_eq_some_iff.mp hsplit
    rw [Str.bytes_append, ← hfront]
    exact List.drop_left.symm
  have hlower : ∃ a', lowerRest n a = .ok a' := by
    unfold lowerRest
    split_ifs with han
    · exact ⟨[], rfl⟩
    · obtain ⟨⟨p, q⟩, hpq⟩ := Option.isSome_iff_exists.mp (ha (Nat.le_of_not_lt han))
      exact ⟨q, by rw [Str.sliceFrom, hpq]; rfl⟩
  obtain ⟨a', hlower⟩ := hlower
  refine ⟨front, a', b', ?_, ?_⟩
  · rw [behindCommon, Str.sliceTo, hsplit, hlower, hupper]
    rfl
  · rw [lowerRest_bytes hlower, hbytes]
    exact scanPrefix_drop hscan

/-- A common part that ends inside a character panics. -/
theorem behindCommon_panic {a b : Str} {n : Nat}
    (h : ¬ ((b.split n).isSome ∧ (n ≤ a.len → (a.split n).isSome))) :
    behindCommon n a b = .panic := by
  rw [behindCommon]
  cases hfront : b.sliceTo n with
  | none => rfl
  | some front =>
      have hb : (b.split n).isSome := by
        rw [Option.isSome_iff_ne_none]
        intro hnone
        rw [sliceTo_eq_none_iff.mpr hnone] at hfront
        cases hfront
      have ha : lowerRest n a = .panic := by
        rw [lowerRest_eq_panic_iff]
        exact fun ha => h ⟨hb, ha⟩
      rw [Outcome.index_some, Outcome.ok_bind, ha, Outcome.panic_bind]

/-- The scan of strings in order, of which the second one does not end in 0, runs past the
end only when they are equal. -/
theorem eq_of_scanPrefix_none {a b : Str} (hle : ¬ b.bytes < a.bytes)
    (hb : endsWithZero b = false) (hscan : scanPrefix a.bytes b.bytes = none) : a = b := by
  rcases scanPrefix_eq_none hscan with ⟨t, ht⟩ | ⟨m, hm⟩
  · apply Str.bytes_injective
    rw [← ht] at hle ⊢
    by_contra h
    have ht0 : t ≠ [] := by
      rintro rfl
      simp at h
    exact hle (Str.lt_append ht0)
  · rw [endsWithZero, hm, List.replicate_succ', ← List.append_assoc] at hb
    simp at hb

/-- With an upper bound that is not before it, `midpoint` panics on equal strings and where
the first difference is inside a character. -/
theorem midpoint_some_eq_panic_iff {a b : Str} (hle : ¬ b.bytes < a.bytes)
    (ha : endsWithZero a = false) (hb : endsWithZero b = false) :
    midpoint a (some b) = .panic ↔ a = b ∨ ¬ DiffersAtBoundary a b := by
  have hstep : b ≠ [] → midpointStep a (some b) =
      (Outcome.index (scanPrefix a.bytes b.bytes) >>= fun n =>
        if 0 < n then behindCommon n a b else midpointDigits a (some b)) := by
    intro hne
    simp [midpointStep, hle, hne, ha, hb]
  cases hscan : scanPrefix a.bytes b.bytes with
  | none =>
      obtain rfl := eq_of_scanPrefix_none hle hb hscan
      have hpanic : midpointStep a (some a) = .panic := by
        by_cases hne : a = []
        · subst hne
          rfl
        · rw [hstep hne, hscan, Outcome.index_none, Outcome.panic_bind]
      rw [midpoint_eq, hpanic, Outcome.panic_bind]
      simp
  | some n =>
      have hab : a ≠ b := by
        rintro rfl
        rw [scanPrefix_self] at hscan
        cases hscan
      have hne : b ≠ [] := by
        rintro rfl
        cases hscan
      rw [differsAtBoundary_iff hscan, or_iff_right hab]
      rcases Nat.eq_zero_or_pos n with rfl | hn
      · simp [midpoint_differ_ne_panic hscan, Str.split]
      · rw [midpoint_eq, hstep hne, hscan, Outcome.index_some, Outcome.ok_bind, if_pos hn]
        by_cases hboundary : (b.split n).isSome ∧ (n ≤ a.len → (a.split n).isSome)
        · obtain ⟨front, a', b', hrecur, hdiffer⟩ :=
            behindCommon_ok hscan hboundary.1 hboundary.2
          refine iff_of_false ?_ (not_not_intro hboundary)
          have hsafe := midpoint_differ_ne_panic hdiffer
          simpa [hrecur, Outcome.bind_eq_panic_iff] using hsafe
        · rw [behindCommon_panic hboundary, Outcome.panic_bind]
          exact iff_of_true rfl hboundary

/-! ## Counting -/

/-- The last character other than the one that a loop passes over is below 128. -/
def Counts (stop : Char) (digs : Str) : Prop :=
  ∀ c ∈ digs.reverse.find? (· ≠ stop), c.toNat < 128

theorem counts_concat_stop {stop : Char} {p : Str} : Counts stop (p ++ [stop]) ↔ Counts stop p := by
  simp [Counts]

theorem counts_concat {stop c : Char} {p : Str} (hc : c ≠ stop) :
    Counts stop (p ++ [c]) ↔ c.toNat < 128 := by
  simp [Counts, hc]

/-- An ASCII character is one byte more. -/
theorem len_concat {c : Char} (hc : c.toNat < 128) (p : Str) :
    Str.len (p ++ [c]) = Str.len p + 1 := by
  rw [Str.len_append, Str.len_cons, Str.charBytes_of_ascii hc]
  rfl

/-- One byte in front of the end of a character of several bytes is no slice. -/
theorem slice_last_eq_none {c : Char} (hc : ¬ c.toNat < 128) (p q : Str) :
    ∃ n, Str.len (p ++ [c]) = n + 1 ∧ Str.slice n (n + 1) (p ++ c :: q) = none := by
  have hlen := Str.one_lt_length_charBytes hc
  refine ⟨p.len + ((Str.charBytes c).length - 1), ?_, ?_⟩
  · rw [Str.len_append, Str.len_cons, Str.len_nil]
    omega
  · have hsplit : Str.split (p.len + ((Str.charBytes c).length - 1)) (p ++ c :: q) = none :=
      Str.split_inside (by omega) (by omega)
    rw [Str.slice, sliceFrom_eq_none_iff.mpr hsplit, Option.bind_none]

/-- The loop of `increment_integer` panics when the digit to count is no single byte. -/
theorem carryLoop_eq_panic_iff (p q : Str) :
    carryLoop p.len (p ++ q) = .panic ↔ ¬ Counts 'z' p := by
  induction p using List.reverseRecOn generalizing q with
  | nil => simp [carryLoop, Counts]
  | append_singleton p c ih =>
      rw [List.append_assoc, List.singleton_append]
      by_cases hc : c.toNat < 128
      · have hlen := len_concat hc p
        rw [hlen]
        simp only [carryLoop, Str.slice_one hc, Str.replaceRange_one hc, Outcome.index_some,
          Outcome.ok_bind, base62Digits_len]
        cases hfind : base62Digits.find [c] with
        | none =>
            have hcz : c ≠ 'z' := by
              rintro rfl
              revert hfind
              decide
            simp [counts_concat hcz, hc]
        | some k =>
            have hk := find_digit.mp hfind
            obtain ⟨hk62, -⟩ := List.getElem?_eq_some_iff.mp hk
            have hk62 : k < 62 := hk62
            dsimp only
            split_ifs with hlast
            · obtain rfl : k = 61 := by omega
              obtain rfl := eq_z_of_index hk
              rw [counts_concat_stop, List.append_assoc]
              exact ih _
            · obtain ⟨d, hd⟩ := exists_digit (i := k + 1) (by omega)
              have hcz : c ≠ 'z' := by
                rintro rfl
                have hz : base62Digits.find ['z'] = some 61 := find_digit.mpr rfl
                rw [hz] at hfind
                exact hlast (congrArg (· + 1) (Option.some.inj hfind).symm)
              simp [slice_digit hd, counts_concat hcz, hc]
      · obtain ⟨n, hlen, hslice⟩ := slice_last_eq_none hc p q
        have hcz : c ≠ 'z' := by
          rintro rfl
          exact hc (by decide)
        rw [hlen, carryLoop, hslice, Outcome.index_none, Outcome.panic_bind, counts_concat hcz]
        exact iff_of_true rfl hc

/-- The loop of `decrement_integer` panics when the digit to count is no single byte. -/
theorem borrowLoop_eq_panic_iff (p q : Str) :
    borrowLoop p.len (p ++ q) = .panic ↔ ¬ Counts '0' p := by
  induction p using List.reverseRecOn generalizing q with
  | nil => simp [borrowLoop, Counts]
  | append_singleton p c ih =>
      rw [List.append_assoc, List.singleton_append]
      by_cases hc : c.toNat < 128
      · have hlen := len_concat hc p
        have hz : base62Digits.slice (base62Digits.len - 1) base62Digits.len = some ['z'] := by
          rw [base62Digits_len]
          exact slice_digit rfl
        rw [hlen]
        simp only [borrowLoop, Str.slice_one hc, Str.replaceRange_one hc, Outcome.index_some,
          Outcome.ok_bind, hz]
        cases hfind : base62Digits.find [c] with
        | none =>
            have hc0 : c ≠ '0' := by
              rintro rfl
              revert hfind
              decide
            simp [counts_concat hc0, hc]
        | some k =>
            have hk := find_digit.mp hfind
            cases k with
            | zero =>
                obtain rfl := eq_zero_of_index hk
                dsimp only
                rw [counts_concat_stop, List.append_assoc]
                exact ih _
            | succ k =>
                obtain ⟨hk62, -⟩ := List.getElem?_eq_some_iff.mp hk
                obtain ⟨d, hd⟩ := exists_digit (i := k) (Nat.lt_of_succ_lt hk62)
                have hc0 : c ≠ '0' := by
                  rintro rfl
                  have h0 : base62Digits.find ['0'] = some 0 := find_digit.mpr rfl
                  rw [h0] at hfind
                  cases hfind
                simp [slice_digit hd, counts_concat hc0, hc]
      · obtain ⟨n, hlen, hslice⟩ := slice_last_eq_none hc p q
        have hc0 : c ≠ '0' := by
          rintro rfl
          exact hc (by decide)
        rw [hlen, borrowLoop, hslice, Outcome.index_none, Outcome.panic_bind, counts_concat hc0]
        exact iff_of_true rfl hc

/-- A head letter in front of as many bytes as it announces. -/
theorem validateInteger_of_len {h : Char} {t : Str}
    (hlen : getIntegerLen h.toNat = .ok (Str.len (h :: t))) :
    validateInteger (h :: t) = .ok () := by
  have hrange := getIntegerLen_eq_ok_iff.mp hlen
  have hmod : Str.len (h :: t) % 256 = Str.len (h :: t) := Nat.mod_eq_of_lt (by omega)
  rw [validateInteger, byteAt_zero (head_ascii hlen), Outcome.ok_bind, hlen, Outcome.ok_bind, hmod]
  simp

/-- To increment an integer panics when the first character from the right that is no z is not
ASCII. -/
theorem incrementInteger_eq_panic_iff {h : Char} {t : Str}
    (hlen : getIntegerLen h.toNat = .ok (Str.len (h :: t))) :
    incrementInteger (h :: t) = .panic ↔ ¬ Counts 'z' t := by
  have hascii := head_ascii hlen
  have hloop := carryLoop_eq_panic_iff t []
  rw [List.append_nil] at hloop
  simp only [incrementInteger, validateInteger_of_len hlen, sliceTo_one hascii,
    sliceFrom_one hascii, Outcome.ok_bind, Outcome.index_some]
  rw [Outcome.bind_eq_panic_iff, hloop, or_iff_left]
  rintro ⟨⟨digs, carry⟩, -, hpanic⟩
  cases carry with
  | false => cases hpanic
  | true =>
      simp only [if_true, byteAt_zero hascii, Outcome.ok_bind] at hpanic
      split_ifs at hpanic

/-- To decrement an integer panics when the first character from the right that is no 0 is not
ASCII. -/
theorem decrementInteger_eq_panic_iff {h : Char} {t : Str}
    (hlen : getIntegerLen h.toNat = .ok (Str.len (h :: t))) :
    decrementInteger (h :: t) = .panic ↔ ¬ Counts '0' t := by
  have hascii := head_ascii hlen
  have hloop := borrowLoop_eq_panic_iff t []
  rw [List.append_nil] at hloop
  have hlast : base62Digits.slice (base62Digits.len - 1) base62Digits.len = some ['z'] := by
    rw [base62Digits_len]
    exact slice_digit rfl
  simp only [decrementInteger, validateInteger_of_len hlen, sliceTo_one hascii,
    sliceFrom_one hascii, Outcome.ok_bind, Outcome.index_some]
  rw [Outcome.bind_eq_panic_iff, hloop, or_iff_left]
  rintro ⟨⟨digs, borrow⟩, -, hpanic⟩
  cases borrow with
  | false => cases hpanic
  | true =>
      simp only [if_true, hlast, Outcome.index_some, byteAt_zero hascii,
        Outcome.ok_bind] at hpanic
      split_ifs at hpanic

/-! ## The checks in front -/

/-- A key that is not empty and whose integer part, if the key is long enough for it, ends
on a boundary of characters. -/
def KeySafe (key : Str) : Prop :=
  key ≠ [] ∧ ∀ n, (byteAt key 0 >>= getIntegerLen) = .ok n → n ≤ key.len % 256 →
    (key.split n).isSome

/-- A key that `validate_order_key` accepts, in two parts. -/
structure Accepted (key i f : Str) : Prop where
  eq : key = i ++ f
  headLen : (byteAt key 0 >>= getIntegerLen) = .ok i.len
  fits : i.len ≤ key.len % 256
  lastNe : endsWithZero f = false
  notSmallest : key ≠ smallestInteger

/-- The head of a key that is not empty is read without a panic. -/
theorem headLen_ne_panic {key : Str} (hne : key ≠ []) :
    (byteAt key 0 >>= getIntegerLen) ≠ .panic := by
  obtain ⟨c, s, rfl⟩ := List.exists_cons_of_ne_nil hne
  obtain ⟨b, bs, hb⟩ := List.exists_cons_of_length_pos (Str.length_charBytes_pos c)
  have hbyte : byteAt (c :: s) 0 = .ok b := by
    rw [byteAt, Str.bytes_cons, hb]
    rfl
  rw [hbyte, Outcome.ok_bind, getIntegerLen]
  split_ifs <;> simp

/-- The check of a key panics exactly when the key is not safe. -/
theorem validateOrderKey_eq_panic_iff {key : Str} :
    validateOrderKey key = .panic ↔ ¬ KeySafe key := by
  by_cases hne : key = []
  · subst hne
    exact iff_of_true rfl fun h => h.1 rfl
  · unfold validateOrderKey
    split_ifs with hsmall
    · subst hsmall
      have hparts := smallestInteger_part.parts
      refine iff_of_false (by simp) (not_not_intro ⟨hne, ?_⟩)
      intro n hn _
      rw [hparts.headLen] at hn
      obtain rfl := Outcome.ok.inj hn
      decide
    · rw [getIntegerPart_eq]
      cases hhead : byteAt key 0 >>= getIntegerLen with
      | err msg => exact iff_of_false (by simp) (not_not_intro ⟨hne, by simp [hhead]⟩)
      | panic => exact absurd hhead (headLen_ne_panic hne)
      | ok n =>
          have hsafe : KeySafe key ↔ (n ≤ key.len % 256 → (key.split n).isSome) := by
            simp [KeySafe, hne, hhead]
          rw [hsafe, Outcome.ok_bind]
          split_ifs with hlt
          · simp [Nat.not_le_of_lt hlt]
          · cases hsplit : key.split n with
            | none => simp [sliceTo_eq_none_iff.mpr hsplit, Nat.le_of_not_lt hlt]
            | some p =>
                obtain ⟨i, f⟩ := p
                obtain ⟨rfl, rfl⟩ := Str.split_eq_some_iff.mp hsplit
                have hto : Str.sliceTo i.len (i ++ f) = some i := by rw [Str.sliceTo, hsplit]; rfl
                have hfrom : Str.sliceFrom i.len (i ++ f) = some f := by
                  rw [Str.sliceFrom, hsplit]
                  rfl
                simp only [hto, hfrom, Outcome.index_some, Outcome.ok_bind]
                split_ifs <;> simp

/-- A key that is accepted splits into an integer part and a fraction. -/
theorem exists_accepted {key : Str} (h : validateOrderKey key = .ok ()) :
    ∃ i f, Accepted key i f := by
  unfold validateOrderKey at h
  split_ifs at h with hsmall
  rw [getIntegerPart_eq] at h
  obtain ⟨i, hi, h⟩ := Outcome.bind_eq_ok_iff.mp h
  obtain ⟨n, hn, hi⟩ := Outcome.bind_eq_ok_iff.mp hi
  split_ifs at hi with hlt
  obtain ⟨f', rfl, rfl⟩ := Str.sliceTo_eq_some_iff.mp (Outcome.index_eq_ok_iff.mp hi)
  rw [Str.sliceFrom, Str.split_append] at h
  simp only [Option.map_some, Outcome.index_some, Outcome.ok_bind] at h
  split_ifs at h with hzero
  exact ⟨i, f', rfl, hn, Nat.le_of_not_lt hlt, by simpa using hzero, hsmall⟩

variable {key i f : Str}

/-- The integer part of an accepted key is found. -/
theorem Accepted.getIntegerPart (h : Accepted key i f) : getIntegerPart key = .ok i := by
  have hto : Str.sliceTo i.len key = some i := Str.sliceTo_eq_some_iff.mpr ⟨f, h.eq, rfl⟩
  rw [getIntegerPart_eq, h.headLen, Outcome.ok_bind, if_neg (Nat.not_lt_of_le h.fits), hto]
  rfl

theorem Accepted.sliceFrom (h : Accepted key i f) : Str.sliceFrom i.len key = some f :=
  Str.sliceFrom_eq_some_iff.mpr ⟨i, h.eq, rfl⟩

/-- The integer part of an accepted key starts with a letter that announces it. -/
theorem Accepted.exists_cons (h : Accepted key i f) :
    ∃ c t, i = c :: t ∧ getIntegerLen c.toNat = .ok (Str.len (c :: t)) := by
  obtain ⟨b, hb, hlen⟩ := Outcome.bind_eq_ok_iff.mp h.headLen
  have hrange := getIntegerLen_eq_ok_iff.mp hlen
  cases i with
  | nil =>
      rw [Str.len_nil] at hrange
      omega
  | cons c t =>
      have hc : c.toNat < 128 := by
        by_contra hc
        obtain ⟨b', bs, hbs⟩ := List.exists_cons_of_length_pos (Str.length_charBytes_pos c)
        have hle := Str.charBytes_of_not_ascii hc b' (by simp [hbs])
        rw [h.eq, List.cons_append, byteAt, Str.bytes_cons, hbs] at hb
        obtain rfl := Outcome.ok.inj hb
        omega
      rw [h.eq, List.cons_append, byteAt_zero hc] at hb
      obtain rfl := Outcome.ok.inj hb
      exact ⟨c, t, rfl, hlen⟩

/-- The two parts of a key at the end of the integer part that its head announces. -/
def splitKey (key : Str) : Option (Str × Str) :=
  match byteAt key 0 >>= getIntegerLen with
  | .ok n => key.split n
  | _ => none

/-- An accepted key splits. -/
theorem Accepted.splitKey (h : Accepted key i f) : splitKey key = some (i, f) := by
  rw [FractIndex.splitKey, h.headLen]
  exact Str.split_eq_some_iff.mpr ⟨h.eq, rfl⟩

/-- To increment the integer part of an accepted key. -/
theorem Accepted.incrementInteger_eq_panic_iff (h : Accepted key i f) :
    incrementInteger i = .panic ↔ ¬ Counts 'z' i.tail := by
  obtain ⟨c, t, rfl, hlen⟩ := h.exists_cons
  exact FractIndex.incrementInteger_eq_panic_iff hlen

/-- To decrement the integer part of an accepted key. -/
theorem Accepted.decrementInteger_eq_panic_iff (h : Accepted key i f) :
    decrementInteger i = .panic ↔ ¬ Counts '0' i.tail := by
  obtain ⟨c, t, rfl, hlen⟩ := h.exists_cons
  exact FractIndex.decrementInteger_eq_panic_iff hlen

/-! ## The key between two keys -/

/-- Two keys of one integer part are different, and differ first at a boundary of
characters; of two keys in order with different integer parts, the last digit to count up
is a single byte. -/
def BothSafe (a b : Str) : Prop :=
  ∀ ia fa ib fb, splitKey a = some (ia, fa) → splitKey b = some (ib, fb) → ¬ b.bytes < a.bytes →
    if ia = ib then fa ≠ fb ∧ DiffersAtBoundary fa fb else Counts 'z' ia.tail

/-- The last digit to count up is a single byte. -/
def LowerSafe (a : Str) : Prop :=
  ∀ ia fa, splitKey a = some (ia, fa) → Counts 'z' ia.tail

/-- When there is no fraction, the last digit to count down is a single byte. -/
def UpperSafe (b : Str) : Prop :=
  ∀ ib, splitKey b = some (ib, []) → Counts '0' ib.tail

/-- Which bounds are safe; what is behind the checks counts only for keys that pass
them. -/
def Safe : Option Str → Option Str → Prop
  | none, none => True
  | some a, none => KeySafe a ∧ (validateOrderKey a = .ok () → LowerSafe a)
  | none, some b => KeySafe b ∧ (validateOrderKey b = .ok () → UpperSafe b)
  | some a, some b =>
      KeySafe a ∧ (validateOrderKey a = .ok () →
        KeySafe b ∧ (validateOrderKey b = .ok () → BothSafe a b))

/-- Between two accepted keys: the cases are equal integer parts, a next integer part below the
upper key, and a longer fraction. -/
theorem between_both_eq_panic_iff {a b ia fa ib fb : Str} (ha : Accepted a ia fa)
    (hb : Accepted b ib fb) : between (some a) (some b) = .panic ↔ ¬ BothSafe a b := by
  have hsafe : BothSafe a b ↔ (¬ b.bytes < a.bytes →
      if ia = ib then fa ≠ fb ∧ DiffersAtBoundary fa fb else Counts 'z' ia.tail) := by
    constructor
    · exact fun h => h ia fa ib fb ha.splitKey hb.splitKey
    · intro h ia' fa' ib' fb' ha' hb'
      obtain ⟨rfl, rfl⟩ := Prod.mk.inj (Option.some.inj (ha.splitKey.symm.trans ha'))
      obtain ⟨rfl, rfl⟩ := Prod.mk.inj (Option.some.inj (hb.splitKey.symm.trans hb'))
      exact h
  rw [hsafe]
  simp only [between]
  by_cases hgt : b.bytes < a.bytes
  · simp [hgt]
  · simp only [hgt, if_false, ha.getIntegerPart, hb.getIntegerPart, Outcome.ok_bind, ha.sliceFrom,
      hb.sliceFrom, Outcome.index_some, not_false_eq_true, true_imp_iff]
    by_cases heq : ia = ib
    · subst heq
      have hle : ¬ fb.bytes < fa.bytes := by
        intro hlt
        apply hgt
        rw [ha.eq, hb.eq, Str.bytes_append, Str.bytes_append]
        exact Str.append_lt_append_left_iff.mpr hlt
      have hmid := midpoint_some_eq_panic_iff hle ha.lastNe hb.lastNe
      simp only [if_true, Outcome.bind_eq_panic_iff, hmid]
      simp
      tauto
    · simp only [heq, if_false, Outcome.bind_eq_panic_iff, ha.incrementInteger_eq_panic_iff]
      rw [or_iff_left]
      rintro ⟨x, -, hpanic⟩
      cases x with
      | none => cases hpanic
      | some i =>
          dsimp only at hpanic
          split_ifs at hpanic
          simp [Outcome.bind_eq_panic_iff, midpoint_none_ne_panic] at hpanic

/-- Behind an accepted key. -/
theorem between_lower_eq_panic_iff {a ia fa : Str} (ha : Accepted a ia fa) :
    between (some a) none = .panic ↔ ¬ LowerSafe a := by
  have hsafe : LowerSafe a ↔ Counts 'z' ia.tail := by simp [LowerSafe, ha.splitKey]
  simp only [between, ha.getIntegerPart, ha.sliceFrom, Outcome.ok_bind, Outcome.index_some]
  rw [hsafe, Outcome.bind_eq_panic_iff, ha.incrementInteger_eq_panic_iff, or_iff_left]
  rintro ⟨x, -, hpanic⟩
  cases x with
  | none => simp [Outcome.bind_eq_panic_iff, midpoint_none_ne_panic] at hpanic
  | some i => cases hpanic

/-- The first difference from an empty string lies behind zeros, which are single bytes. -/
theorem differsAtBoundary_nil (f : Str) : DiffersAtBoundary [] f := by
  intro n hn
  refine ⟨?_, ?_⟩
  · induction f generalizing n with
    | nil => exact absurd hn.lt (Nat.not_lt_zero n)
    | cons c f ih =>
        cases n with
        | zero => rfl
        | succ n =>
            obtain ⟨b, bs, hb⟩ := List.exists_cons_of_length_pos (Str.length_charBytes_pos c)
            rw [Str.bytes_nil, firstDifference_nil, Str.bytes_cons] at hn
            have hfirst := hn
            rw [hb, List.cons_append, firstDifference_cons_succ] at hfirst
            have hc : c.toNat < 128 := by
              by_contra hc
              have hle := Str.charBytes_of_not_ascii hc b (by simp [hb])
              rw [← hfirst.1] at hle
              exact absurd hle (by decide)
            rw [Str.charBytes_of_ascii hc, List.singleton_append, firstDifference_cons_succ] at hn
            have h := ih n hn.2
            rw [Str.split, Str.charBytes_of_ascii hc]
            simpa using h
  · intro h
    obtain rfl := Nat.le_zero.mp h
    rfl

/-- Before an accepted key: the cases are the smallest integer part, a fraction behind the integer
part, and the integer part before it. -/
theorem between_upper_eq_panic_iff {b ib fb : Str} (hb : Accepted b ib fb) :
    between none (some b) = .panic ↔ ¬ UpperSafe b := by
  have hsafe : UpperSafe b ↔ (fb = [] → Counts '0' ib.tail) := by
    simp only [UpperSafe, hb.splitKey, Option.some.injEq, Prod.mk.injEq]
    exact ⟨fun h hfb => h ib ⟨rfl, hfb⟩, fun h ib' hib => hib.1 ▸ h hib.2⟩
  rw [hsafe]
  simp only [between, hb.getIntegerPart, hb.sliceFrom, Outcome.ok_bind, Outcome.index_some]
  by_cases hsmall : ib = smallestInteger
  · -- the fraction below the one of the upper key
    have hfb : fb ≠ [] := by
      rintro rfl
      exact hb.notSmallest (by rw [hb.eq, hsmall, List.append_nil])
    have hmid : midpoint [] (some fb) = .panic ↔ [] = fb ∨ ¬ DiffersAtBoundary [] fb :=
      midpoint_some_eq_panic_iff (List.not_lt_nil fb.bytes) Fraction.nil.endsWithZero hb.lastNe
    simp only [hsmall, if_true, Outcome.bind_eq_panic_iff, hmid, hfb, hfb.symm, false_imp_iff,
      differsAtBoundary_nil, not_true_eq_false, or_false, false_or]
    simp
  · simp only [hsmall, if_false]
    by_cases hfb : fb = []
    · -- the integer part before
      subst hfb
      have hbi : b = ib := by rw [hb.eq, List.append_nil]
      have hlt : ¬ ib.bytes < b.bytes := by
        rw [hbi]
        exact lt_irrefl _
      simp only [hlt, if_false, Outcome.bind_eq_panic_iff, hb.decrementInteger_eq_panic_iff,
        true_imp_iff]
      rw [or_iff_left]
      rintro ⟨x, -, hpanic⟩
      cases x <;> cases hpanic
    · -- the integer part of the upper key
      have hlt : ib.bytes < b.bytes := by
        rw [hb.eq, Str.bytes_append]
        apply Str.lt_append
        intro h
        exact hfb (Str.len_eq_zero_iff.mp (by rw [Str.len, h]; rfl))
      simp [hlt, hfb]

/-- A check succeeds, fails or panics. -/
theorem validateOrderKey_cases (key : Str) :
    validateOrderKey key = .ok () ∨ (∃ msg, validateOrderKey key = .err msg) ∨
      validateOrderKey key = .panic := by
  cases validateOrderKey key with
  | ok u => exact Or.inl rfl
  | err msg => exact Or.inr (Or.inl ⟨msg, rfl⟩)
  | panic => exact Or.inr (Or.inr rfl)

/-- A check in front of what follows it. -/
theorem validateOrderKey_bind_ne_panic_iff {α : Type} {key : Str} {rest : Outcome α} :
    (validateOrderKey key >>= fun _ => rest) ≠ .panic ↔
      KeySafe key ∧ (validateOrderKey key = .ok () → rest ≠ .panic) := by
  have hsafe : KeySafe key ↔ validateOrderKey key ≠ .panic := by
    rw [Ne, validateOrderKey_eq_panic_iff, not_not]
  rw [hsafe]
  rcases validateOrderKey_cases key with h | ⟨msg, h⟩ | h <;> simp [h]

/-- Which calls are safe: the keys are not empty and their integer parts end between
characters, two keys of one integer part are different and differ first between characters,
and a digit that is counted is a single byte. -/
theorem keyBetween_ne_panic_iff (a b : Option Str) : keyBetween a b ≠ .panic ↔ Safe a b := by
  cases a with
  | none =>
      cases b with
      | none =>
          refine iff_of_true ?_ trivial
          rintro ⟨⟩
      | some b =>
          rw [keyBetween, validateBound, Outcome.ok_bind, validateBound,
            validateOrderKey_bind_ne_panic_iff, Safe]
          refine and_congr_right fun _ => forall_congr' fun hok => ?_
          obtain ⟨ib, fb, hb⟩ := exists_accepted hok
          rw [Ne, between_upper_eq_panic_iff hb, not_not]
  | some a =>
      cases b with
      | none =>
          simp only [keyBetween, validateBound, Outcome.ok_bind]
          rw [validateOrderKey_bind_ne_panic_iff, Safe]
          refine and_congr_right fun _ => forall_congr' fun hok => ?_
          obtain ⟨ia, fa, ha⟩ := exists_accepted hok
          rw [Ne, between_lower_eq_panic_iff ha, not_not]
      | some b =>
          rw [keyBetween, validateBound, validateOrderKey_bind_ne_panic_iff, Safe]
          refine and_congr_right fun _ => forall_congr' fun hok => ?_
          obtain ⟨ia, fa, ha⟩ := exists_accepted hok
          rw [validateBound, validateOrderKey_bind_ne_panic_iff]
          refine and_congr_right fun _ => forall_congr' fun hok' => ?_
          obtain ⟨ib, fb, hb⟩ := exists_accepted hok'
          rw [Ne, between_both_eq_panic_iff ha hb, not_not]

/-- An empty key, a key with itself, an integer part that ends inside a character and one
whose digit is a character of two bytes. -/
theorem keyBetween_panics :
    keyBetween (some []) none = .panic ∧
      keyBetween (some ['a', '0']) (some ['a', '0']) = .panic ∧
      keyBetween (some ['a', 'é']) none = .panic ∧
      keyBetween (some ['b', 'é']) none = .panic := by
  refine ⟨by decide +kernel, by decide +kernel, by decide +kernel, by decide +kernel⟩

end FractIndex

end CrSqlite
