import CrSqlite.FractIndex
import Mathlib.Data.Bool.AllAny
import Mathlib.Data.List.Induction

/-!
# FractOrder - digits, fractions and counting in order

Strings of base 62 digits, compared like words.  `midpoint` finds a fraction between two
fractions, and the loops of `increment_integer` and `decrement_integer` find the next and
the previous string of as many digits.

Main results:

- Theorem {lit}`midpointStep_narrows`: a call of `midpoint` on two fractions in order
  ends, or calls itself on two fractions in order whose middle it completes.
- Theorem {lit}`midpoint_spec`: the middle of two fractions is a fraction between them.
- Theorem {lit}`carryLoop_spec`: the next digits, or zeros when there are none.
- Theorem {lit}`borrowLoop_spec`: the previous digits, or the highest ones when there are
  none.
-/

namespace CrSqlite

namespace FractIndex

/-! ## Digits -/

theorem base62Digits_ascii : Str.Ascii base62Digits :=
  List.all_iff_forall_prop.mp (by decide)

theorem base62Digits_sorted : base62Digits.Pairwise (· < ·) := by
  decide +kernel

theorem base62Digits_len : base62Digits.len = 62 := by
  decide

/-- Every character is a digit. -/
def Digits (s : Str) : Prop :=
  ∀ c ∈ s, c ∈ base62Digits

theorem Digits.nil : Digits [] := by
  simp [Digits]

theorem digits_cons {c : Char} {s : Str} : Digits (c :: s) ↔ c ∈ base62Digits ∧ Digits s := by
  simp [Digits]

theorem digits_append {s t : Str} : Digits (s ++ t) ↔ Digits s ∧ Digits t := by
  simp [Digits, or_imp, forall_and]

theorem Digits.ascii {s : Str} (hs : Digits s) : Str.Ascii s :=
  fun c hc => base62Digits_ascii c (hs c hc)

theorem Digits.take {s : Str} (hs : Digits s) (n : Nat) : Digits (s.take n) :=
  fun c hc => hs c (List.mem_of_mem_take hc)

theorem Digits.drop {s : Str} (hs : Digits s) (n : Nat) : Digits (s.drop n) :=
  fun c hc => hs c (List.mem_of_mem_drop hc)

theorem find_digit {c : Char} {k : Nat} :
    base62Digits.find [c] = some k ↔ base62Digits[k]? = some c :=
  Str.find_eq_some_iff base62Digits_ascii (base62Digits_sorted.imp fun h => ne_of_lt h)

/-- Digits compare like the numbers they stand for. -/
theorem digit_lt_iff {c d : Char} {i j : Nat} (hc : base62Digits[i]? = some c)
    (hd : base62Digits[j]? = some d) : c < d ↔ i < j := by
  obtain ⟨hi, rfl⟩ := List.getElem?_eq_some_iff.mp hc
  obtain ⟨hj, rfl⟩ := List.getElem?_eq_some_iff.mp hd
  have hmono := List.pairwise_iff_getElem.mp base62Digits_sorted
  refine ⟨fun h => ?_, fun h => hmono i j hi hj h⟩
  apply Nat.lt_of_not_le
  intro hle
  rcases Nat.lt_or_eq_of_le hle with hji | rfl
  · exact absurd h (not_lt_of_gt (hmono j i hj hi hji))
  · exact lt_irrefl _ h

/-- A digit has an index below 62. -/
theorem exists_index {c : Char} (hc : c ∈ base62Digits) :
    ∃ i, base62Digits[i]? = some c ∧ i < 62 := by
  obtain ⟨i, hi⟩ := List.mem_iff_getElem?.mp hc
  obtain ⟨hlt, -⟩ := List.getElem?_eq_some_iff.mp hi
  exact ⟨i, hi, hlt⟩

theorem exists_digit {i : Nat} (hi : i < 62) : ∃ c, base62Digits[i]? = some c :=
  ⟨base62Digits[i], List.getElem?_eq_getElem hi⟩

theorem slice_digit {c : Char} {i : Nat} (h : base62Digits[i]? = some c) :
    base62Digits.slice i (i + 1) = some [c] := by
  rw [Str.slice_of_ascii base62Digits_ascii, h, Option.map_some]

theorem zero_le_digit {c : Char} (hc : c ∈ base62Digits) : '0' ≤ c :=
  List.all_iff_forall_prop.mp (by decide : base62Digits.all fun c => '0' ≤ c) c hc

theorem digit_le_z {c : Char} (hc : c ∈ base62Digits) : c ≤ 'z' :=
  List.all_iff_forall_prop.mp (by decide : base62Digits.all fun c => c ≤ 'z') c hc

theorem eq_zero_of_index {c : Char} (h : base62Digits[0]? = some c) : c = '0' :=
  (Option.some.inj h).symm

theorem eq_z_of_index {c : Char} (h : base62Digits[61]? = some c) : c = 'z' :=
  (Option.some.inj h).symm

/-! ## Fractions -/

/-- A fraction of an order key: digits, the last one not 0. -/
structure Fraction (s : Str) : Prop where
  digits : Digits s
  lastNe : s.getLast? ≠ some '0'

theorem Fraction.nil : Fraction [] :=
  ⟨Digits.nil, by simp⟩

/-- Digits in front of a fraction make one. -/
theorem Fraction.append {p s : Str} (hp : Digits p) (hs : Fraction s) (hne : s ≠ []) :
    Fraction (p ++ s) := by
  refine ⟨digits_append.mpr ⟨hp, hs.digits⟩, ?_⟩
  rw [List.getLast?_append_of_ne_nil p hne]
  exact hs.lastNe

/-- The end of a fraction is a fraction. -/
theorem Fraction.drop {s : Str} (hs : Fraction s) (n : Nat) : Fraction (s.drop n) := by
  refine ⟨hs.digits.drop n, ?_⟩
  rw [List.getLast?_drop]
  split
  · simp
  · exact hs.lastNe

theorem Fraction.singleton {c : Char} (hc : c ∈ base62Digits) (hne : c ≠ '0') : Fraction [c] :=
  ⟨by simpa [Digits] using hc, by simpa using hne⟩

/-- A fraction does not end with 0. -/
theorem Fraction.endsWithZero {s : Str} (hs : Fraction s) : endsWithZero s = false := by
  rw [FractIndex.endsWithZero, Str.bytes_of_ascii hs.digits.ascii, List.getLast?_map]
  apply decide_eq_false
  intro h
  obtain ⟨c, hc, hcode⟩ := Option.map_eq_some_iff.mp h
  have hzero : c = '0' := Char.toNat_inj.mp hcode
  exact hs.lastNe (hzero ▸ hc)

/-- A fraction between two fractions, of which the second may be absent. -/
structure Middle (a : Str) (b : Option Str) (s : Str) : Prop where
  fraction : Fraction s
  above : a < s
  below : ∀ d ∈ b, s < d

/-- What a call of `midpoint` on two fractions in order does up to the call of itself. -/
inductive Narrows (a : Str) (b : Option Str) : Outcome MidpointStep → Prop
  | done (s : Str) (hs : Middle a b s) : Narrows a b (.ok (.done s))
  | recur (front a' : Str) (b' : Option Str) (ha : Fraction a')
      (hb : ∀ d ∈ b', Fraction d ∧ a' < d)
      (hs : ∀ s, Middle a' b' s → Middle a b (front ++ s)) :
      Narrows a b (.ok (.recur front a' b'))

/-! ## The middle of two fractions -/

/-- Half of a number, rounded up. -/
theorem round_eq (twice : Nat) : round twice = (twice + 1) / 2 := by
  unfold round
  dsimp only
  split <;> omega

/-- The first byte of an ASCII character is its code. -/
theorem byteAt_zero {c : Char} (hc : c.toNat < 128) (s : Str) :
    byteAt (c :: s) 0 = .ok c.toNat := by
  rw [byteAt, Str.bytes_cons, Str.charBytes_of_ascii hc]
  rfl

/-- The index of the first digit is found. -/
theorem firstDigit_eq {c : Char} {i : Nat} (hi : base62Digits[i]? = some c) (s : Str) :
    firstDigit (c :: s) = .ok (some i) := by
  have hc : c.toNat < 128 := base62Digits_ascii c (List.mem_of_getElem? hi)
  rw [firstDigit, byteAt_zero hc, Outcome.ok_bind, Char.ofNat_toNat, find_digit.mpr hi]

/-- The first digit of a fraction; an empty one counts as 0. -/
theorem lowerDigit_eq {a : Str} (ha : Digits a) :
    ∃ i, lowerDigit a = .ok (some i) ∧ base62Digits[i]? = some (a.headD '0') ∧ i < 62 := by
  cases a with
  | nil => exact ⟨0, rfl, rfl, by omega⟩
  | cons c a =>
      obtain ⟨i, hi, hlt⟩ := exists_index (digits_cons.mp ha).1
      refine ⟨i, ?_, hi, hlt⟩
      rw [lowerDigit, if_neg (List.cons_ne_nil c a), firstDigit_eq hi]

/-- A greater first digit makes a greater string. -/
theorem lt_cons_of_headD_lt {a : Str} {c : Char} (h : a.headD '0' < c) (s : Str) :
    a < c :: s := by
  cases a with
  | nil => exact List.nil_lt_cons c s
  | cons d a => exact List.cons_lt_cons_iff.mpr (Or.inl h)

/-- The slice of one byte is the first character. -/
theorem sliceTo_one {c : Char} (hc : c.toNat < 128) (s : Str) :
    Str.sliceTo 1 (c :: s) = some [c] := by
  apply Str.sliceTo_eq_some_iff.mpr
  exact ⟨s, rfl, by simp [Str.charBytes_of_ascii hc]⟩

/-- The slice behind one byte is the rest. -/
theorem sliceFrom_one {c : Char} (hc : c.toNat < 128) (s : Str) :
    Str.sliceFrom 1 (c :: s) = some s := by
  apply Str.sliceFrom_eq_some_iff.mpr
  exact ⟨[c], rfl, by simp [Str.charBytes_of_ascii hc]⟩

/-- The tail of digits is all but the first one. -/
theorem tailOf_eq {a : Str} (ha : Digits a) : tailOf a = .ok a.tail := by
  cases a with
  | nil => rfl
  | cons c a =>
      have hc := base62Digits_ascii c (digits_cons.mp ha).1
      rw [tailOf, if_neg (List.cons_ne_nil c a), sliceFrom_one hc]
      rfl

/-- The digit of the upper bound lies above the first digit of the lower one. -/
theorem upperDigit_eq {a : Str} {b : Option Str} {i : Nat}
    (hi : base62Digits[i]? = some (a.headD '0'))
    (hb : ∀ d ∈ b, Fraction d ∧ a.headD '0' < d.headD '0') :
    ∃ j, upperDigit b = .ok (some j) ∧ i < j ∧ j ≤ 62 ∧
      ∀ d ∈ b, base62Digits[j]? = some (d.headD '0') ∧ d ≠ [] := by
  cases b with
  | none =>
      obtain ⟨hlt, -⟩ := List.getElem?_eq_some_iff.mp hi
      refine ⟨62, by rw [upperDigit, base62Digits_len], hlt, le_refl 62, ?_⟩
      simp
  | some d =>
      obtain ⟨hd, hlt⟩ := hb d rfl
      cases d with
      | nil =>
          have hmem : a.headD '0' ∈ base62Digits := List.mem_of_getElem? hi
          exact absurd hlt (not_lt_of_ge (zero_le_digit hmem))
      | cons c d =>
          obtain ⟨j, hj, hj62⟩ := exists_index (digits_cons.mp hd.digits).1
          refine ⟨j, ?_, (digit_lt_iff hi hj).mp hlt, Nat.le_of_lt hj62, ?_⟩
          · rw [upperDigit, firstDigit_eq hj]
          · intro e he
            obtain rfl := Option.some.inj he
            exact ⟨hj, List.cons_ne_nil c d⟩

/-- The first digits of a midpoint: a digit between those of the bounds where there is one, and
otherwise the digit of one bound with less room to go on in. -/
theorem midpointDigits_narrows {a : Str} {b : Option Str} (ha : Fraction a)
    (hb : ∀ d ∈ b, Fraction d ∧ a.headD '0' < d.headD '0') :
    Narrows a b (midpointDigits a b) := by
  obtain ⟨i, hlower, hi, hi62⟩ := lowerDigit_eq ha.digits
  obtain ⟨j, hupper, hij, hj62, hj⟩ := upperDigit_eq hi hb
  have hzero : ∀ {c : Char}, a.headD '0' < c → c ≠ '0' := by
    intro c hc h
    have hmem : a.headD '0' ∈ base62Digits := List.mem_of_getElem? hi
    exact not_lt_of_ge (zero_le_digit hmem) (h ▸ hc)
  simp only [midpointDigits, hlower, hupper, Outcome.ok_bind]
  rw [if_neg (by omega)]
  split_ifs with hfar hlong
  · -- a digit lies between the two digits
    have hround := round_eq (i + j)
    obtain ⟨c, hc⟩ := exists_digit (i := round (i + j)) (by omega)
    have hac : a.headD '0' < c := (digit_lt_iff hi hc).mpr (by omega)
    rw [slice_digit hc, Outcome.index_some, Outcome.ok_bind]
    apply Narrows.done
    refine ⟨Fraction.singleton (List.mem_of_getElem? hc) (hzero hac), ?_, ?_⟩
    · exact lt_cons_of_headD_lt hac []
    · intro d hd
      obtain ⟨hjd, hne⟩ := hj d hd
      obtain ⟨e, d, rfl⟩ := List.exists_cons_of_ne_nil hne
      exact List.cons_lt_cons_iff.mpr (Or.inl ((digit_lt_iff hc hjd).mpr (by omega)))
  · -- the first digit of the upper bound is below the bound
    obtain ⟨d, rfl, hlen⟩ := hlong
    obtain ⟨hd, hlt⟩ := hb d rfl
    obtain ⟨-, hne⟩ := hj d rfl
    obtain ⟨e, d, rfl⟩ := List.exists_cons_of_ne_nil hne
    obtain ⟨he, -⟩ := digits_cons.mp hd.digits
    have hascii := base62Digits_ascii e he
    have hd0 : d ≠ [] := by
      rintro rfl
      simp [Str.charBytes_of_ascii hascii] at hlen
    rw [Option.getD_some, sliceTo_one hascii, Outcome.index_some, Outcome.ok_bind]
    apply Narrows.done
    refine ⟨Fraction.singleton he (hzero hlt), lt_cons_of_headD_lt hlt [], ?_⟩
    intro d' hd'
    obtain rfl := Option.some.inj hd'
    exact Str.lt_append (s := [e]) hd0
  · -- the digit of the lower bound, and then above its other digits
    rw [slice_digit hi, tailOf_eq ha.digits, Outcome.index_some, Outcome.ok_bind, Outcome.ok_bind]
    have htail : Fraction a.tail := by
      rw [← List.drop_one]
      exact ha.drop 1
    apply Narrows.recur _ _ _ htail (by simp)
    intro s hs
    have hne : s ≠ [] := by
      rintro rfl
      exact List.not_lt_nil _ hs.above
    have hdigit : Digits [a.headD '0'] := by
      simpa [Digits] using List.mem_of_getElem? hi
    refine ⟨Fraction.append hdigit hs.fraction hne, ?_, ?_⟩
    · cases a with
      | nil => exact List.nil_lt_cons _ _
      | cons c a => exact Str.append_lt_append_left_iff (s := [c]).mpr hs.above
    · intro d hd
      obtain ⟨hjd, hne⟩ := hj d hd
      obtain ⟨e, d, rfl⟩ := List.exists_cons_of_ne_nil hne
      exact List.cons_lt_cons_iff.mpr (Or.inl (hb _ hd).2)

/-- Where the scan stops: at a smaller digit of the lower bound, or behind its end, which
counts as zeros. -/
theorem scanPrefix_of_lt {a b : Str} (ha : Digits a) (hb : Fraction b) (hab : a < b) :
    ∃ p c t, b = p ++ c :: t ∧ scanPrefix a.bytes b.bytes = some p.length ∧
      ((∃ d s, a = p ++ d :: s ∧ d < c) ∨ ∃ m, p = a ++ List.replicate m '0' ∧ '0' < c) := by
  induction b generalizing a with
  | nil => exact absurd hab (List.not_lt_nil a)
  | cons y b ih =>
      obtain ⟨hy, -⟩ := digits_cons.mp hb.digits
      have hyascii := base62Digits_ascii y hy
      have hrest : Fraction b := hb.drop 1
      cases a with
      | nil =>
          by_cases hzero : y = '0'
          · subst hzero
            have hne : b ≠ [] := by
              rintro rfl
              exact hb.lastNe rfl
            obtain ⟨z, b, rfl⟩ := List.exists_cons_of_ne_nil hne
            obtain ⟨p, c, t, hp, hscan, hstop⟩ := ih Digits.nil hrest (List.nil_lt_cons z b)
            rcases hstop with ⟨d, s, h, -⟩ | ⟨m, rfl, hc⟩
            · simp at h
            · refine ⟨'0' :: List.replicate m '0', c, t, by simpa using hp, ?_, Or.inr ⟨m + 1, ?_, hc⟩⟩
              · rw [Str.bytes_cons, Str.charBytes_of_ascii hyascii]
                rw [Str.bytes_nil] at hscan ⊢
                simp only [List.singleton_append, scanPrefix, hscan]
                simp [zeroCharcode]
              · simp [List.replicate_succ]
          · refine ⟨[], y, b, rfl, ?_, Or.inr ⟨0, rfl, ?_⟩⟩
            · have hcode : ¬ zeroCharcode = y.toNat := fun h => hzero (Char.toNat_inj.mp h.symm)
              rw [Str.bytes_cons, Str.charBytes_of_ascii hyascii, Str.bytes_nil]
              simp [scanPrefix, hcode]
            · exact lt_of_le_of_ne (zero_le_digit hy) fun h => hzero h.symm
      | cons x a =>
          obtain ⟨hx, ha⟩ := digits_cons.mp ha
          have hxascii := base62Digits_ascii x hx
          rw [Str.bytes_cons, Str.bytes_cons, Str.charBytes_of_ascii hxascii,
            Str.charBytes_of_ascii hyascii]
          simp only [List.singleton_append, scanPrefix]
          rcases List.cons_lt_cons_iff.mp hab with hxy | ⟨rfl, hrestlt⟩
          · have hcode : x.toNat ≠ y.toNat := fun h => ne_of_lt hxy (Char.toNat_inj.mp h)
            refine ⟨[], y, b, rfl, ?_, Or.inl ⟨x, a, rfl, hxy⟩⟩
            rw [if_neg hcode]
            rfl
          · obtain ⟨p, c, t, rfl, hscan, hstop⟩ := ih ha hrest hrestlt
            refine ⟨x :: p, c, t, rfl, ?_, ?_⟩
            · rw [if_pos rfl, hscan]
              rfl
            · rcases hstop with ⟨d, s, rfl, hd⟩ | ⟨m, rfl, hc⟩
              · exact Or.inl ⟨d, s, rfl, hd⟩
              · exact Or.inr ⟨m, rfl, hc⟩

theorem midpointStep_none {a : Str} (ha : Fraction a) :
    midpointStep a none = midpointDigits a none := by
  simp [midpointStep, ha.endsWithZero]

/-- With an upper bound a call of `midpoint` on fractions in order goes on behind the
common part. -/
theorem midpointStep_some {a b : Str} (ha : Fraction a) (hb : Fraction b) (hab : a < b) :
    midpointStep a (some b) =
      (Outcome.index (scanPrefix a.bytes b.bytes) >>= fun n =>
        if 0 < n then behindCommon n a b else midpointDigits a (some b)) := by
  have hle : ¬ b.bytes < a.bytes := by
    rw [Str.bytes_lt_iff hb.digits.ascii ha.digits.ascii]
    exact not_lt_of_gt hab
  have hne : b ≠ [] := by
    rintro rfl
    exact List.not_lt_nil a hab
  simp [midpointStep, hle, hne, ha.endsWithZero, hb.endsWithZero]

/-- Each call of `midpoint` on two fractions in order returns a fraction between them, or
calls itself on two fractions in order whose middle it completes. -/
theorem midpointStep_narrows {a : Str} {b : Option Str} (ha : Fraction a)
    (hb : ∀ d ∈ b, Fraction d ∧ a < d) : Narrows a b (midpointStep a b) := by
  cases b with
  | none =>
      rw [midpointStep_none ha]
      exact midpointDigits_narrows ha (by simp)
  | some b =>
      obtain ⟨hb, hab⟩ := hb b rfl
      obtain ⟨p, c, t, rfl, hscan, hstop⟩ := scanPrefix_of_lt ha.digits hb hab
      have hp : Digits p := (digits_append.mp hb.digits).1
      have hplen := Str.len_of_ascii hp.ascii
      have hrest : Fraction (c :: t) := by
        have h := hb.drop p.length
        rwa [List.drop_left] at h
      rw [midpointStep_some ha hb hab, hscan, Outcome.index_some, Outcome.ok_bind]
      split_ifs with hn
      · have hfront : Str.sliceTo p.length (p ++ c :: t) = some p :=
          Str.sliceTo_eq_some_iff.mpr ⟨c :: t, rfl, hplen⟩
        have hupper : upperRest p.length (p ++ c :: t) = .ok (some (c :: t)) := by
          have h : Str.sliceFrom p.length (p ++ c :: t) = some (c :: t) :=
            Str.sliceFrom_eq_some_iff.mpr ⟨p, rfl, hplen⟩
          rw [upperRest, if_neg, h]
          · rfl
          · rw [Str.len_append, hplen]
            omega
        have hbelow : ∀ {s : Str}, s < c :: t → ∀ d ∈ some (p ++ c :: t), p ++ s < d := by
          intro s hs d hd
          obtain rfl := Option.some.inj hd
          exact Str.append_lt_append_left_iff.mpr hs
        have hnonempty : ∀ {a' s : Str}, a' < s → s ≠ [] := by
          rintro a' s hs rfl
          exact List.not_lt_nil a' hs
        rw [behindCommon, hfront, Outcome.index_some, Outcome.ok_bind, hupper]
        rcases hstop with ⟨d, s, rfl, hdc⟩ | ⟨m, rfl, hc⟩
        · -- the common part is a part of both fractions
          have hlower : lowerRest p.length (p ++ d :: s) = .ok (d :: s) := by
            have h : Str.sliceFrom p.length (p ++ d :: s) = some (d :: s) :=
              Str.sliceFrom_eq_some_iff.mpr ⟨p, rfl, hplen⟩
            rw [lowerRest, if_neg, h]
            · rfl
            · rw [Str.len_append, hplen]
              omega
          have hds : Fraction (d :: s) := by
            have h := ha.drop p.length
            rwa [List.drop_left] at h
          rw [hlower, Outcome.ok_bind, Outcome.ok_bind]
          apply Narrows.recur _ _ _ hds
          · intro e he
            obtain rfl := Option.some.inj he
            exact ⟨hrest, List.cons_lt_cons_iff.mpr (Or.inl hdc)⟩
          · intro s' hs'
            have habove := Str.append_lt_append_left_iff (s := p).mpr hs'.above
            exact ⟨hs'.fraction.append hp (hnonempty hs'.above), habove,
              hbelow (hs'.below _ rfl)⟩
        · -- the common part goes on in zeros behind the lower fraction
          have hlower : lowerRest (a ++ List.replicate m '0').length a = .ok [] := by
            have halen := Str.len_of_ascii ha.digits.ascii
            rw [lowerRest, halen, List.length_append, List.length_replicate]
            split
            · rfl
            · obtain rfl : m = 0 := by omega
              have h : Str.sliceFrom (a.length + 0) a = some [] :=
                Str.sliceFrom_eq_some_iff.mpr ⟨a, by simp, halen⟩
              rw [h]
              rfl
          rw [hlower, Outcome.ok_bind, Outcome.ok_bind]
          apply Narrows.recur _ _ _ Fraction.nil
          · intro e he
            obtain rfl := Option.some.inj he
            exact ⟨hrest, List.nil_lt_cons c t⟩
          · intro s' hs'
            have hne := hnonempty hs'.above
            refine ⟨hs'.fraction.append hp hne, ?_, hbelow (hs'.below _ rfl)⟩
            rw [List.append_assoc]
            exact Str.lt_append (List.append_ne_nil_of_right_ne_nil _ hne)
      · obtain rfl : p = [] := List.length_eq_zero_iff.mp (by omega)
        apply midpointDigits_narrows ha
        intro e he
        obtain rfl := Option.some.inj he
        refine ⟨hb, ?_⟩
        rcases hstop with ⟨d, s, rfl, hdc⟩ | ⟨m, hm, hc⟩
        · exact hdc
        · obtain ⟨rfl, -⟩ := List.append_eq_nil_iff.mp hm.symm
          exact hc

/-- The middle of two fractions is a fraction between them. -/
theorem midpoint_spec {a : Str} {b : Option Str} (ha : Fraction a)
    (hb : ∀ d ∈ b, Fraction d ∧ a < d) : ∃ s, midpoint a b = .ok s ∧ Middle a b s := by
  induction hw : weight a b using Nat.strong_induction_on generalizing a b with
  | _ w ih =>
      subst hw
      rw [midpoint_eq]
      have h := midpointStep_narrows ha hb
      cases hstep : midpointStep a b with
      | err msg =>
          rw [hstep] at h
          cases h
      | panic =>
          rw [hstep] at h
          cases h
      | ok st =>
          rw [hstep] at h
          cases h with
          | done s hs => exact ⟨s, rfl, hs⟩
          | recur front a' b' ha' hb' hs =>
              obtain ⟨s, hs', hmid⟩ := ih _ (midpointStep_recur_lt hstep) ha' hb' rfl
              refine ⟨front ++ s, ?_, hs s hmid⟩
              simp only [Outcome.ok_bind, hs']

/-! ## Neighbours -/

/-- The second string comes next after the first one in a set of strings. -/
structure Next (P : Str → Prop) (s t : Str) : Prop where
  left : P s
  right : P t
  lt : s < t
  notBetween : ∀ u, P u → s < u → ¬ u < t

/-- A string of so many digits. -/
structure DigitString (n : Nat) (s : Str) : Prop where
  digits : Digits s
  length : s.length = n

/-- A digit behind a string of digits makes a longer one. -/
theorem DigitString.concat {n : Nat} {s : Str} {c : Char} (hs : DigitString n s)
    (hc : c ∈ base62Digits) : DigitString (n + 1) (s ++ [c]) := by
  refine ⟨digits_append.mpr ⟨hs.digits, ?_⟩, by simp [hs.length]⟩
  simpa [Digits] using hc

/-- A string of digits has a last one. -/
theorem DigitString.exists_concat {n : Nat} {s : Str} (hs : DigitString (n + 1) s) :
    ∃ p c, s = p ++ [c] ∧ DigitString n p ∧ c ∈ base62Digits := by
  rcases List.eq_nil_or_concat s with rfl | ⟨p, c, rfl⟩
  · have h := hs.length
    simp at h
  · have hlen := hs.length
    rw [List.concat_eq_append] at hs hlen
    obtain ⟨hp, hc⟩ := digits_append.mp hs.digits
    exact ⟨p, c, List.concat_eq_append, ⟨hp, by simpa using hlen⟩, by simpa [Digits] using hc⟩

/-- Strings of one length are ordered before their last digits are. -/
theorem concat_lt_concat_iff {s t : Str} {c d : Char} (h : s.length = t.length) :
    s ++ [c] < t ++ [d] ↔ s < t ∨ s = t ∧ c < d := by
  rw [Str.append_lt_append_iff h, List.cons_lt_cons_iff]
  simp

/-- The next string has the next digit at its end. -/
theorem Next.digit {n k : Nat} {p : Str} {c d : Char} (hp : DigitString n p)
    (hc : base62Digits[k]? = some c) (hd : base62Digits[k + 1]? = some d) :
    Next (DigitString (n + 1)) (p ++ [c]) (p ++ [d]) := by
  refine ⟨hp.concat (List.mem_of_getElem? hc), hp.concat (List.mem_of_getElem? hd), ?_, ?_⟩
  · apply (concat_lt_concat_iff rfl).mpr
    exact Or.inr ⟨rfl, (digit_lt_iff hc hd).mpr (Nat.lt_succ_self k)⟩
  · intro u hu hlt hgt
    obtain ⟨v, e, rfl, hv, he⟩ := hu.exists_concat
    obtain ⟨i, hi, -⟩ := exists_index he
    rw [concat_lt_concat_iff (hp.length.trans hv.length.symm), digit_lt_iff hc hi] at hlt
    rw [concat_lt_concat_iff (hv.length.trans hp.length.symm), digit_lt_iff hi hd] at hgt
    rcases hlt with hlt | ⟨rfl, hki⟩
    · rcases hgt with hgt | ⟨rfl, -⟩
      · exact lt_asymm hlt hgt
      · exact lt_irrefl _ hlt
    · rcases hgt with hgt | ⟨-, hik⟩
      · exact lt_irrefl _ hgt
      · omega

/-- Behind a z the next string carries. -/
theorem Next.carry {n : Nat} {p p' : Str} (h : Next (DigitString n) p p') :
    Next (DigitString (n + 1)) (p ++ ['z']) (p' ++ ['0']) := by
  have hlen : p.length = p'.length := h.left.length.trans h.right.length.symm
  refine ⟨h.left.concat (by decide), h.right.concat (by decide), ?_, ?_⟩
  · exact (concat_lt_concat_iff hlen).mpr (Or.inl h.lt)
  · intro u hu hlt hgt
    obtain ⟨v, e, rfl, hv, he⟩ := hu.exists_concat
    rw [concat_lt_concat_iff (h.left.length.trans hv.length.symm)] at hlt
    rw [concat_lt_concat_iff (hv.length.trans h.right.length.symm)] at hgt
    rcases hlt with hlt | ⟨-, hze⟩
    · rcases hgt with hgt | ⟨-, he0⟩
      · exact h.notBetween v hv hlt hgt
      · exact not_lt_of_ge (zero_le_digit he) he0
    · exact not_lt_of_ge (digit_le_z he) hze

/-- A digit repeated is a string of digits. -/
theorem digitString_replicate {n : Nat} {c : Char} (hc : c ∈ base62Digits) :
    DigitString n (List.replicate n c) := by
  refine ⟨?_, List.length_replicate⟩
  intro d hd
  rw [List.eq_of_mem_replicate hd]
  exact hc

/-- No string of digits is below the zeros. -/
theorem not_lt_zeros {n : Nat} {s : Str} (hs : DigitString n s) :
    ¬ s < List.replicate n '0' := by
  induction n generalizing s with
  | zero => exact List.not_lt_nil s
  | succ n ih =>
      obtain ⟨p, c, rfl, hp, hc⟩ := hs.exists_concat
      rw [List.replicate_succ', concat_lt_concat_iff (by simp [hp.length])]
      rintro (hlt | ⟨-, hlt⟩)
      · exact ih hp hlt
      · exact not_lt_of_ge (zero_le_digit hc) hlt

/-- No string of digits is above the z's. -/
theorem not_zs_lt {n : Nat} {s : Str} (hs : DigitString n s) :
    ¬ List.replicate n 'z' < s := by
  induction n generalizing s with
  | zero =>
      obtain rfl := List.length_eq_zero_iff.mp hs.length
      exact List.not_lt_nil []
  | succ n ih =>
      obtain ⟨p, c, rfl, hp, hc⟩ := hs.exists_concat
      rw [List.replicate_succ', concat_lt_concat_iff (by simp [hp.length])]
      rintro (hlt | ⟨-, hlt⟩)
      · exact ih hp hlt
      · exact not_lt_of_ge (digit_le_z hc) hlt

/-! ## Counting up and down -/

/-- The loop of `increment_integer` makes the next digits, or zeros when there are
none. -/
theorem carryLoop_spec {p : Str} (hdigits : Digits p) (q : Str) :
    (∃ p', carryLoop p.length (p ++ q) = .ok (p' ++ q, false) ∧
        Next (DigitString p.length) p p') ∨
      (p = List.replicate p.length 'z' ∧
        carryLoop p.length (p ++ q) = .ok (List.replicate p.length '0' ++ q, true)) := by
  induction p using List.reverseRecOn generalizing q with
  | nil => exact Or.inr ⟨rfl, rfl⟩
  | append_singleton p c ih =>
      obtain ⟨hp, hc⟩ := digits_append.mp hdigits
      obtain ⟨k, hk, hk62⟩ := exists_index (digits_cons.mp hc).1
      have hascii := base62Digits_ascii c (digits_cons.mp hc).1
      rw [List.length_append, List.length_singleton, List.append_assoc, List.singleton_append]
      have hone := Str.slice_one hascii p q
      have hreplace := Str.replaceRange_one hascii p q
      rw [Str.len_of_ascii hp.ascii] at hone hreplace
      simp only [carryLoop, hone, hreplace,
        Outcome.index_some, Outcome.ok_bind, find_digit.mpr hk, base62Digits_len]
      split_ifs with hlast
      · obtain rfl : k = 61 := by omega
        obtain rfl := eq_z_of_index hk
        rw [List.append_assoc, List.singleton_append]
        rcases ih hp ('0' :: q) with ⟨p', hloop, hnext⟩ | ⟨hzs, hloop⟩
        · exact Or.inl ⟨p' ++ ['0'], by simpa using hloop, hnext.carry⟩
        · refine Or.inr ⟨?_, ?_⟩
          · rw [List.replicate_succ', ← hzs]
          · rw [hloop, List.replicate_succ']
            simp
      · obtain ⟨d, hd⟩ := exists_digit (i := k + 1) (by omega)
        refine Or.inl ⟨p ++ [d], ?_, Next.digit ⟨hp, rfl⟩ hk hd⟩
        rw [slice_digit hd]
        simp

/-- The loop of `decrement_integer` makes the previous digits, or the highest ones when
there are none. -/
theorem borrowLoop_spec {p : Str} (hdigits : Digits p) (q : Str) :
    (∃ p', borrowLoop p.length (p ++ q) = .ok (p' ++ q, false) ∧
        Next (DigitString p.length) p' p) ∨
      (p = List.replicate p.length '0' ∧
        borrowLoop p.length (p ++ q) = .ok (List.replicate p.length 'z' ++ q, true)) := by
  induction p using List.reverseRecOn generalizing q with
  | nil => exact Or.inr ⟨rfl, rfl⟩
  | append_singleton p c ih =>
      obtain ⟨hp, hc⟩ := digits_append.mp hdigits
      obtain ⟨k, hk, -⟩ := exists_index (digits_cons.mp hc).1
      have hascii := base62Digits_ascii c (digits_cons.mp hc).1
      have hz : base62Digits.slice (base62Digits.len - 1) base62Digits.len = some ['z'] := by
        rw [base62Digits_len]
        exact slice_digit rfl
      rw [List.length_append, List.length_singleton, List.append_assoc, List.singleton_append]
      have hone := Str.slice_one hascii p q
      have hreplace := Str.replaceRange_one hascii p q
      rw [Str.len_of_ascii hp.ascii] at hone hreplace
      simp only [borrowLoop, hone, hreplace,
        Outcome.index_some, Outcome.ok_bind, find_digit.mpr hk, hz]
      cases k with
      | zero =>
          obtain rfl := eq_zero_of_index hk
          dsimp only
          rw [List.append_assoc, List.singleton_append]
          rcases ih hp ('z' :: q) with ⟨p', hloop, hnext⟩ | ⟨hzeros, hloop⟩
          · exact Or.inl ⟨p' ++ ['z'], by simpa using hloop, hnext.carry⟩
          · refine Or.inr ⟨?_, ?_⟩
            · rw [List.replicate_succ', ← hzeros]
            · rw [hloop, List.replicate_succ']
              simp
      | succ k =>
          obtain ⟨hlt, -⟩ := List.getElem?_eq_some_iff.mp hk
          obtain ⟨d, hd⟩ := exists_digit (i := k) (Nat.lt_of_succ_lt hlt)
          refine Or.inl ⟨p ++ [d], ?_, Next.digit ⟨hp, rfl⟩ hd hk⟩
          dsimp only
          rw [slice_digit hd]
          simp

end FractIndex

end CrSqlite
