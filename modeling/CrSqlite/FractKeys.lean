import CrSqlite.FractOrder
import CrSqlite.Library.Run

/-!
# FractKeys - order keys between order keys

A valid order key is a fraction behind an integer part.  The integer parts are ordered
like the integers: `increment_integer` finds the next one and `decrement_integer` the
previous one, across head letters too.

Main results:

- Theorem {lit}`incrementInteger_spec`: the next integer part, or none after the last one.
- Theorem {lit}`decrementInteger_spec`: the previous integer part, or none before the
  smallest one.
- Theorem {lit}`increment_decrement_integer`: they are inverse to each other, and stop only
  at the greatest and at the smallest integer part.
- Theorem {lit}`keyBetween_of_fits`: where the length checks pass there is a key between
  two keys.
- Theorem {lit}`keyBetween_within`: the key between two valid keys is strictly between
  them.
- Theorem {lit}`keyBetween_stuck_iff`: the calls and the insertions that make a valid
  key again.

Current gaps:

- {lit}`get_integer_part` casts the length of the key to eight bits, so a valid key of
  256 to 282 bytes is refused, and so on for every further 256 bytes; and the key before
  the integer part behind the smallest one is the smallest one, which is no valid key.
-/

namespace CrSqlite

namespace FractIndex

/-! ## Integer parts -/

/-- A head letter and as many digits as it announces. -/
structure IntegerPart (s : Str) : Prop where
  headed : ∃ h t, s = h :: t ∧ getIntegerLen h.toNat = .ok (t.length + 1) ∧ Digits t

/-- The head announces a length exactly when it is a letter: two for a and Z, up to 27 for z and
A. -/
theorem getIntegerLen_eq_ok_iff {head n : Nat} :
    getIntegerLen head = .ok n ↔
      97 ≤ head ∧ head ≤ 122 ∧ n + 95 = head ∨ 65 ≤ head ∧ head ≤ 90 ∧ n + head = 92 := by
  unfold getIntegerLen aCharcode zCharcode upperACharcode upperZCharcode
  split_ifs with hlower hupper
  · simp only [Outcome.ok.injEq]
    omega
  · simp only [Outcome.ok.injEq]
    omega
  · simp only [false_iff]
    omega

/-- An integer part is a head and as many digits as it announces. -/
theorem integerPart_cons {h : Char} {t : Str} :
    IntegerPart (h :: t) ↔ getIntegerLen h.toNat = .ok (t.length + 1) ∧ Digits t := by
  constructor
  · rintro ⟨h', t', heq, hlen, ht⟩
    obtain ⟨rfl, rfl⟩ := List.cons_eq_cons.mp heq
    exact ⟨hlen, ht⟩
  · exact fun ⟨hlen, ht⟩ => ⟨h, t, rfl, hlen, ht⟩

/-- An integer part has a head. -/
theorem IntegerPart.exists_cons {s : Str} (hs : IntegerPart s) :
    ∃ h t, s = h :: t ∧ getIntegerLen h.toNat = .ok (t.length + 1) ∧ Digits t :=
  hs.headed

/-- A head is an ASCII character. -/
theorem head_ascii {h : Char} {n : Nat} (hlen : getIntegerLen h.toNat = .ok n) :
    h.toNat < 128 := by
  have h := getIntegerLen_eq_ok_iff.mp hlen
  omega

/-- An integer part is ASCII. -/
theorem IntegerPart.ascii {s : Str} (hs : IntegerPart s) : Str.Ascii s := by
  obtain ⟨h, t, rfl, hlen, ht⟩ := hs.exists_cons
  exact Str.ascii_cons.mpr ⟨head_ascii hlen, ht.ascii⟩

/-- The characters of an integer part are digits. -/
theorem IntegerPart.digits {s : Str} (hs : IntegerPart s) : Digits s := by
  obtain ⟨h, t, rfl, hlen, ht⟩ := hs.exists_cons
  have hletter : ∀ n < 128, (97 ≤ n ∧ n ≤ 122 ∨ 65 ≤ n ∧ n ≤ 90) →
      Char.ofNat n ∈ base62Digits := by
    decide +kernel
  have hrange := getIntegerLen_eq_ok_iff.mp hlen
  have hmem := hletter h.toNat (by omega) (by omega)
  rw [Char.ofNat_toNat] at hmem
  exact digits_cons.mpr ⟨hmem, ht⟩

/-- An integer part has at most 27 characters. -/
theorem IntegerPart.length_le {s : Str} (hs : IntegerPart s) : s.length ≤ 27 := by
  obtain ⟨h, t, rfl, hlen, -⟩ := hs.exists_cons
  have h := getIntegerLen_eq_ok_iff.mp hlen
  rw [List.length_cons]
  omega

/-- Integer parts with one head are as long as each other. -/
theorem IntegerPart.length_eq {h : Char} {s t : Str} (hs : IntegerPart (h :: s))
    (ht : IntegerPart (h :: t)) : s.length = t.length := by
  have h := (integerPart_cons.mp hs).1.symm.trans (integerPart_cons.mp ht).1
  exact Nat.succ.inj (Outcome.ok.inj h)

/-- What is behind different integer parts does not change their order. -/
theorem IntegerPart.append_lt_append_iff {i j u v : Str} (hi : IntegerPart i)
    (hj : IntegerPart j) : i ++ u < j ++ v ↔ i < j ∨ i = j ∧ u < v := by
  obtain ⟨h, s, rfl, -, -⟩ := hi.exists_cons
  obtain ⟨k, t, rfl, -, -⟩ := hj.exists_cons
  by_cases hk : h = k
  · subst hk
    exact Str.append_lt_append_iff (congrArg Nat.succ (hi.length_eq hj))
  · simp [List.cons_lt_cons_iff, hk]

/-- A key has one integer part and one fraction. -/
theorem IntegerPart.append_inj {i j u v : Str} (hi : IntegerPart i) (hj : IntegerPart j)
    (h : i ++ u = j ++ v) : i = j ∧ u = v := by
  obtain ⟨k, s, rfl, -, -⟩ := hi.exists_cons
  obtain ⟨l, t, rfl, -, -⟩ := hj.exists_cons
  obtain ⟨rfl, -⟩ := List.cons_eq_cons.mp h
  exact List.append_inj h (congrArg Nat.succ (hi.length_eq hj))

/-! ## The next and the previous integer part -/

/-- Digits that follow each other behind one head are integer parts that do. -/
theorem Next.tail {h : Char} {n : Nat} {t t' : Str} (hlen : getIntegerLen h.toNat = .ok (n + 1))
    (hnext : Next (DigitString n) t t') : Next IntegerPart (h :: t) (h :: t') := by
  have hpart : ∀ {s : Str}, DigitString n s → IntegerPart (h :: s) := fun hs =>
    integerPart_cons.mpr ⟨by rw [hs.length, hlen], hs.digits⟩
  refine ⟨hpart hnext.left, hpart hnext.right, List.cons_lt_cons_iff.mpr (Or.inr ⟨rfl, hnext.lt⟩), ?_⟩
  intro u hu hlt hgt
  obtain ⟨k, v, rfl, hklen, hv⟩ := hu.exists_cons
  rcases List.cons_lt_cons_iff.mp hlt with hhk | ⟨rfl, htv⟩
  · rcases List.cons_lt_cons_iff.mp hgt with hkh | ⟨rfl, -⟩
    · exact lt_asymm hhk hkh
    · exact lt_irrefl _ hhk
  · rcases List.cons_lt_cons_iff.mp hgt with hkh | ⟨-, hvt⟩
    · exact lt_irrefl _ hkh
    · have hvlen : v.length = n := (hu.length_eq (hpart hnext.left)).trans hnext.left.length
      exact hnext.notBetween v ⟨hv, hvlen⟩ htv hvt

/-- From the last integer part under one head to the first one under the next head. -/
theorem Next.head {h k : Char} {n m : Nat} (hh : getIntegerLen h.toNat = .ok (n + 1))
    (hk : getIntegerLen k.toNat = .ok (m + 1)) (hlt : h < k)
    (hnone : ∀ l : Char, ∀ i, getIntegerLen l.toNat = .ok i → h < l → ¬ l < k) :
    Next IntegerPart (h :: List.replicate n 'z') (k :: List.replicate m '0') := by
  have hzs : DigitString n (List.replicate n 'z') := digitString_replicate (by decide)
  have hzeros : DigitString m (List.replicate m '0') := digitString_replicate (by decide)
  have hleft : IntegerPart (h :: List.replicate n 'z') :=
    integerPart_cons.mpr ⟨by rw [hzs.length, hh], hzs.digits⟩
  have hright : IntegerPart (k :: List.replicate m '0') :=
    integerPart_cons.mpr ⟨by rw [hzeros.length, hk], hzeros.digits⟩
  refine ⟨hleft, hright, List.cons_lt_cons_iff.mpr (Or.inl hlt), ?_⟩
  intro u hu hbelow habove
  obtain ⟨l, v, rfl, hl, hv⟩ := hu.exists_cons
  rcases List.cons_lt_cons_iff.mp hbelow with hhl | ⟨rfl, hzsv⟩
  · rcases List.cons_lt_cons_iff.mp habove with hlk | ⟨rfl, hvzeros⟩
    · exact hnone l _ hl hhl hlk
    · exact not_lt_zeros ⟨hv, (hu.length_eq hright).trans hzeros.length⟩ hvzeros
  · exact not_zs_lt ⟨hv, (hu.length_eq hleft).trans hzs.length⟩ hzsv

/-- An integer part is accepted as one. -/
theorem validateInteger_eq {s : Str} (hs : IntegerPart s) : validateInteger s = .ok () := by
  obtain ⟨h, t, rfl, hlen, -⟩ := hs.exists_cons
  have hle := hs.length_le
  have hmod : Str.len (h :: t) % 256 = t.length + 1 := by
    rw [Str.len_of_ascii hs.ascii, Nat.mod_eq_of_lt (by omega), List.length_cons]
  rw [validateInteger, byteAt_zero (head_ascii hlen), Outcome.ok_bind, hlen, Outcome.ok_bind, hmod]
  simp

/-- An ASCII number is the code of its character. -/
theorem toNat_ofNat {n : Nat} (hn : n < 128) : (Char.ofNat n).toNat = n := by
  have hvalid : n.isValidChar := Or.inl (by omega)
  rw [Char.ofNat, dif_pos hvalid]
  rfl

theorem char_lt_iff {c d : Char} : c < d ↔ c.toNat < d.toNat :=
  Iff.rfl

theorem char_eq_iff {c d : Char} : c = d ↔ c.toNat = d.toNat :=
  Char.toNat_inj.symm

/-- The next integer part, or none after the last one. -/
theorem incrementInteger_spec {x : Str} (hx : IntegerPart x) :
    (∃ y, incrementInteger x = .ok (some y) ∧ Next IntegerPart x y) ∨
      (incrementInteger x = .ok none ∧ ∀ y, IntegerPart y → ¬ x < y) := by
  obtain ⟨h, t, rfl, hlen, ht⟩ := hx.exists_cons
  have hascii := head_ascii hlen
  have hrange := getIntegerLen_eq_ok_iff.mp hlen
  simp only [incrementInteger, validateInteger_eq hx, sliceTo_one hascii, sliceFrom_one hascii,
    Outcome.ok_bind, Outcome.index_some, Str.len_of_ascii ht.ascii]
  rcases carryLoop_spec ht [] with ⟨t', hloop, hnext⟩ | ⟨hzs, hloop⟩
  · rw [List.append_nil, List.append_nil] at hloop
    rw [hloop, Outcome.ok_bind]
    exact Or.inl ⟨h :: t', rfl, hnext.tail hlen⟩
  · rw [List.append_nil, List.append_nil] at hloop
    rw [hloop, Outcome.ok_bind]
    generalize t.length = n at hzs hlen hrange
    subst hzs
    simp only [if_true, List.cons.injEq, and_true, char_eq_iff, Outcome.ok_bind,
      byteAt_zero hascii]
    have hcode : aCharcode = 97 := rfl
    split_ifs with hZ hz hlower
    · -- from the last part under Z to the first one under a
      obtain rfl : n = 1 := by
        have h90 : h.toNat = 90 := hZ
        omega
      refine Or.inl ⟨['a', '0'], rfl, ?_⟩
      apply Next.head (m := 1) hlen rfl
      · rw [char_lt_iff, hZ]
        decide
      · intro l i hl hhl hla
        have hl := getIntegerLen_eq_ok_iff.mp hl
        rw [char_lt_iff, hZ] at hhl
        rw [char_lt_iff] at hla
        have h90 : 'Z'.toNat = 90 := rfl
        have h97 : 'a'.toNat = 97 := rfl
        omega
    · -- there is no letter after z
      refine Or.inr ⟨rfl, ?_⟩
      intro y hy hlt
      obtain ⟨k, v, rfl, hk, hv⟩ := hy.exists_cons
      have hkrange := getIntegerLen_eq_ok_iff.mp hk
      have h122 : h.toNat = 122 := hz
      rcases List.cons_lt_cons_iff.mp hlt with hhk | ⟨rfl, hvlt⟩
      · rw [char_lt_iff] at hhk
        omega
      · have hvlen : v.length = n := by
          have heq := Outcome.ok.inj (hlen.symm.trans hk)
          omega
        exact not_zs_lt ⟨hv, hvlen⟩ hvlt
    · -- the parts under the next lower case letter are longer
      have hnext : (Char.ofNat (h.toNat + 1)).toNat = h.toNat + 1 := toNat_ofNat (by omega)
      refine Or.inl ⟨_, rfl, ?_⟩
      rw [← List.replicate_succ']
      apply Next.head hlen
      · rw [getIntegerLen_eq_ok_iff, hnext]
        have h122 : h.toNat ≠ 122 := hz
        omega
      · rw [char_lt_iff, hnext]
        omega
      · intro l i _ hhl hlk
        rw [char_lt_iff] at hhl
        rw [char_lt_iff, hnext] at hlk
        omega
    · -- the parts under the next upper case letter are shorter
      have hnext : (Char.ofNat (h.toNat + 1)).toNat = h.toNat + 1 := toNat_ofNat (by omega)
      refine Or.inl ⟨_, rfl, ?_⟩
      rw [List.dropLast_replicate]
      apply Next.head hlen
      · rw [getIntegerLen_eq_ok_iff, hnext]
        have h90 : h.toNat ≠ 90 := hZ
        omega
      · rw [char_lt_iff, hnext]
        omega
      · intro l i _ hhl hlk
        rw [char_lt_iff] at hhl
        rw [char_lt_iff, hnext] at hlk
        omega

/-- The previous integer part, or none before the smallest one. -/
theorem decrementInteger_spec {x : Str} (hx : IntegerPart x) :
    (∃ y, decrementInteger x = .ok (some y) ∧ Next IntegerPart y x) ∨
      (decrementInteger x = .ok none ∧ x = smallestInteger) := by
  obtain ⟨h, t, rfl, hlen, ht⟩ := hx.exists_cons
  have hascii := head_ascii hlen
  have hrange := getIntegerLen_eq_ok_iff.mp hlen
  have hlast : base62Digits.slice (base62Digits.len - 1) base62Digits.len = some ['z'] := by
    rw [base62Digits_len]
    exact slice_digit rfl
  simp only [decrementInteger, validateInteger_eq hx, sliceTo_one hascii, sliceFrom_one hascii,
    Outcome.ok_bind, Outcome.index_some, Str.len_of_ascii ht.ascii]
  rcases borrowLoop_spec ht [] with ⟨t', hloop, hnext⟩ | ⟨hzeros, hloop⟩
  · rw [List.append_nil, List.append_nil] at hloop
    rw [hloop, Outcome.ok_bind]
    exact Or.inl ⟨h :: t', rfl, hnext.tail hlen⟩
  · rw [List.append_nil, List.append_nil] at hloop
    rw [hloop, Outcome.ok_bind]
    generalize t.length = n at hzeros hlen hrange
    subst hzeros
    simp only [if_true, List.cons.injEq, and_true, char_eq_iff, Outcome.ok_bind,
      Outcome.index_some, hlast, byteAt_zero hascii]
    have hcode : upperZCharcode = 90 := rfl
    split_ifs with ha hA hlower
    · -- from the first part under a to the last one under Z
      have h97 : h.toNat = 97 := ha
      obtain rfl : n = 1 := by omega
      refine Or.inl ⟨['Z', 'z'], rfl, ?_⟩
      apply Next.head (n := 1) rfl hlen
      · rw [char_lt_iff, ha]
        decide
      · intro l i hl hZl hlh
        have hl := getIntegerLen_eq_ok_iff.mp hl
        rw [char_lt_iff] at hZl hlh
        have h90 : 'Z'.toNat = 90 := rfl
        omega
    · -- there is no letter before A
      obtain rfl : h = 'A' := Char.toNat_inj.mp hA
      obtain rfl : n = 26 := by
        have h65 : 'A'.toNat = 65 := rfl
        omega
      exact Or.inr ⟨rfl, rfl⟩
    · -- the parts under the previous upper case letter are longer
      have hprev : (Char.ofNat (h.toNat - 1)).toNat = h.toNat - 1 := toNat_ofNat (by omega)
      refine Or.inl ⟨_, rfl, ?_⟩
      rw [← List.replicate_succ']
      apply Next.head _ hlen
      · rw [char_lt_iff, hprev]
        omega
      · intro l i _ hkl hlh
        rw [char_lt_iff, hprev] at hkl
        rw [char_lt_iff] at hlh
        omega
      · rw [getIntegerLen_eq_ok_iff, hprev]
        have h65 : h.toNat ≠ 65 := hA
        omega
    · -- the parts under the previous lower case letter are shorter
      have hprev : (Char.ofNat (h.toNat - 1)).toNat = h.toNat - 1 := toNat_ofNat (by omega)
      refine Or.inl ⟨_, rfl, ?_⟩
      rw [List.dropLast_replicate]
      apply Next.head _ hlen
      · rw [char_lt_iff, hprev]
        omega
      · intro l i _ hkl hlh
        rw [char_lt_iff, hprev] at hkl
        rw [char_lt_iff] at hlh
        omega
      · rw [getIntegerLen_eq_ok_iff, hprev]
        have h97 : h.toNat ≠ 97 := ha
        omega

/-- There is one string behind another. -/
theorem Next.right_unique {P : Str → Prop} {s t t' : Str} (h : Next P s t) (h' : Next P s t') :
    t = t' := by
  rcases lt_trichotomy t t' with hlt | heq | hgt
  · exact absurd hlt (h'.notBetween t h.right h.lt)
  · exact heq
  · exact absurd hgt (h.notBetween t' h'.right h'.lt)

/-- There is one string before another. -/
theorem Next.left_unique {P : Str → Prop} {s s' t : Str} (h : Next P s t) (h' : Next P s' t) :
    s = s' := by
  rcases lt_trichotomy s s' with hlt | heq | hgt
  · exact absurd h'.lt (h.notBetween s' h'.left hlt)
  · exact heq
  · exact absurd h.lt (h'.notBetween s h.left hgt)

theorem smallestInteger_part : IntegerPart smallestInteger :=
  integerPart_cons.mpr ⟨rfl, (digitString_replicate (by decide)).digits⟩

/-- Nothing is below the smallest integer. -/
theorem not_lt_smallestInteger {s : Str} (hs : IntegerPart s) : ¬ s < smallestInteger := by
  obtain ⟨h, t, rfl, hlen, ht⟩ := hs.exists_cons
  have hrange := getIntegerLen_eq_ok_iff.mp hlen
  intro hlt
  rcases List.cons_lt_cons_iff.mp hlt with hA | ⟨rfl, hzeros⟩
  · rw [char_lt_iff] at hA
    have h65 : 'A'.toNat = 65 := rfl
    omega
  · have htlen : t.length = 26 := (hs.length_eq smallestInteger_part).trans List.length_replicate
    exact not_lt_zeros ⟨ht, htlen⟩ hzeros

/-- The integer part behind the smallest one. -/
def secondInteger : Str :=
  'A' :: (List.replicate 25 '0' ++ ['1'])

/-- The second integer follows the smallest one. -/
theorem smallestInteger_next : Next IntegerPart smallestInteger secondInteger := by
  apply Next.tail (n := 26) rfl
  rw [List.replicate_succ']
  exact Next.digit (k := 0) (digitString_replicate (by decide)) rfl rfl

/-- The largest integer part. -/
def greatestInteger : Str :=
  'z' :: List.replicate 26 'z'

theorem greatestInteger_part : IntegerPart greatestInteger :=
  integerPart_cons.mpr ⟨rfl, (digitString_replicate (by decide)).digits⟩

/-- Nothing is above the greatest integer. -/
theorem not_greatestInteger_lt {s : Str} (hs : IntegerPart s) : ¬ greatestInteger < s := by
  obtain ⟨h, t, rfl, hlen, ht⟩ := hs.exists_cons
  have hrange := getIntegerLen_eq_ok_iff.mp hlen
  intro hlt
  rcases List.cons_lt_cons_iff.mp hlt with hz | ⟨rfl, hzs⟩
  · rw [char_lt_iff] at hz
    have h122 : 'z'.toNat = 122 := rfl
    omega
  · have htlen : t.length = 26 := (hs.length_eq greatestInteger_part).trans List.length_replicate
    exact not_zs_lt ⟨ht, htlen⟩ hzs

/-- The integer part `t` is the successor of `s`: it comes behind it in byte order, and no
integer part is strictly between them. -/
structure Successor (s t : Str) : Prop where
  left : IntegerPart s
  right : IntegerPart t
  lt : s.bytes < t.bytes
  notBetween : ∀ u, IntegerPart u → s.bytes < u.bytes → ¬ u.bytes < t.bytes

/-- The next integer part is the successor. -/
theorem Next.successor {s t : Str} (h : Next IntegerPart s t) : Successor s t := by
  have hbytes {u v : Str} (hu : IntegerPart u) (hv : IntegerPart v) :
      u.bytes < v.bytes ↔ u < v := Str.bytes_lt_iff hu.ascii hv.ascii
  refine ⟨h.left, h.right, (hbytes h.left h.right).mpr h.lt, fun u hu hsu hut => ?_⟩
  exact h.notBetween u hu ((hbytes h.left hu).mp hsu) ((hbytes hu h.right).mp hut)

/-- The predecessor of the next integer part. -/
theorem decrementInteger_of_next {x x' : Str} (h : Next IntegerPart x x') :
    decrementInteger x' = .ok (some x) := by
  rcases decrementInteger_spec h.right with ⟨y, hy, hnext⟩ | ⟨-, hsmallest⟩
  · rw [hy, h.left_unique hnext]
  · rw [hsmallest] at h
    exact absurd h.lt (not_lt_smallestInteger h.left)

/-- The successor of the previous integer part. -/
theorem incrementInteger_of_next {x x' : Str} (h : Next IntegerPart x x') :
    incrementInteger x = .ok (some x') := by
  rcases incrementInteger_spec h.left with ⟨y, hy, hnext⟩ | ⟨-, hgreatest⟩
  · rw [hy, h.right_unique hnext]
  · exact absurd h.lt (hgreatest x' h.right)

/-- `increment_integer` finds the successor of every integer part but the greatest, and
`decrement_integer` finds the way back; and the predecessor of every one but the smallest,
from where `increment_integer` finds the way back. -/
theorem increment_decrement_integer {x y : Str} (hx : IntegerPart x) (hy : IntegerPart y) :
    ((x = greatestInteger ∧ incrementInteger x = .ok none ∧
          ∀ u, IntegerPart u → ¬ x.bytes < u.bytes) ∨
        x ≠ greatestInteger ∧ ∃ x', incrementInteger x = .ok (some x') ∧ Successor x x' ∧
          decrementInteger x' = .ok (some x)) ∧
      ((y = smallestInteger ∧ decrementInteger y = .ok none ∧
          ∀ u, IntegerPart u → ¬ u.bytes < y.bytes) ∨
        y ≠ smallestInteger ∧ ∃ y', decrementInteger y = .ok (some y') ∧ Successor y' y ∧
          incrementInteger y' = .ok (some y)) := by
  constructor
  · rcases incrementInteger_spec hx with ⟨x', hinc, hnext⟩ | ⟨hinc, hgreatest⟩
    · refine Or.inr ⟨?_, x', hinc, hnext.successor, decrementInteger_of_next hnext⟩
      rintro rfl
      exact not_greatestInteger_lt hnext.right hnext.lt
    · refine Or.inl ⟨?_, hinc, fun u hu hlt => ?_⟩
      · rcases lt_trichotomy x greatestInteger with hlt | heq | hgt
        · exact absurd hlt (hgreatest _ greatestInteger_part)
        · exact heq
        · exact absurd hgt (not_greatestInteger_lt hx)
      · exact hgreatest u hu ((Str.bytes_lt_iff hx.ascii hu.ascii).mp hlt)
  · rcases decrementInteger_spec hy with ⟨y', hdec, hnext⟩ | ⟨hdec, rfl⟩
    · refine Or.inr ⟨?_, y', hdec, hnext.successor, incrementInteger_of_next hnext⟩
      rintro rfl
      exact not_lt_smallestInteger hnext.left hnext.lt
    · refine Or.inl ⟨rfl, hdec, fun u hu hlt => ?_⟩
      exact not_lt_smallestInteger hu ((Str.bytes_lt_iff hu.ascii hy.ascii).mp hlt)

/-- The step from the last part under `Z` to the first one under `a`, and back. -/
theorem increment_decrement_integer_Zz :
    (∃ x', incrementInteger ['Z', 'z'] = .ok (some x') ∧ Successor ['Z', 'z'] x' ∧
        decrementInteger x' = .ok (some ['Z', 'z'])) ∧
      ∃ y', decrementInteger ['a', '0'] = .ok (some y') ∧ Successor y' ['a', '0'] ∧
        incrementInteger y' = .ok (some ['a', '0']) := by
  have hZz : IntegerPart ['Z', 'z'] := integerPart_cons.mpr ⟨rfl, by simp [Digits]; decide⟩
  have ha0 : IntegerPart ['a', '0'] := integerPart_cons.mpr ⟨rfl, by simp [Digits]; decide⟩
  obtain ⟨hx, hy⟩ := increment_decrement_integer hZz ha0
  exact ⟨(hx.resolve_left fun h => absurd h.1 (by decide)).2,
    (hy.resolve_left fun h => absurd h.1 (by decide)).2⟩

/-! ## Keys -/

/-- An integer part and the fraction behind it. -/
structure Parts (key i f : Str) : Prop where
  eq : key = i ++ f
  integer : IntegerPart i
  fraction : Fraction f

/-- A valid order key. -/
structure ValidKey (key : Str) : Prop where
  parts : ∃ i f, Parts key i f
  notSmallest : key ≠ smallestInteger

/-- The check of `get_integer_part`: the integer part that the head announces against the
length of the key in eight bits. -/
def fits (key : Str) : Bool :=
  match byteAt key 0 >>= getIntegerLen with
  | .ok n => n ≤ key.len % 256
  | _ => false

/-- A key with an integer part and a fraction is ASCII. -/
theorem Parts.ascii {key i f : Str} (h : Parts key i f) : Str.Ascii key := by
  rw [h.eq]
  exact Str.ascii_append.mpr ⟨h.integer.ascii, h.fraction.digits.ascii⟩

/-- The head announces the length of the integer part. -/
theorem Parts.headLen {key i f : Str} (h : Parts key i f) :
    (byteAt key 0 >>= getIntegerLen) = .ok i.length := by
  obtain ⟨c, t, rfl, hlen, -⟩ := h.integer.exists_cons
  rw [h.eq, List.cons_append, byteAt_zero (head_ascii hlen), Outcome.ok_bind, hlen,
    List.length_cons]

theorem Parts.sliceTo {key i f : Str} (h : Parts key i f) : Str.sliceTo i.length key = some i :=
  Str.sliceTo_eq_some_iff.mpr ⟨f, h.eq, Str.len_of_ascii h.integer.ascii⟩

theorem Parts.sliceFrom {key i f : Str} (h : Parts key i f) : Str.sliceFrom i.len key = some f :=
  Str.sliceFrom_eq_some_iff.mpr ⟨i, h.eq, rfl⟩

/-- The integer part is the slice up to the announced length, unless the key is shorter in eight
bits. -/
theorem getIntegerPart_eq (key : Str) :
    getIntegerPart key = (byteAt key 0 >>= getIntegerLen) >>= fun n =>
      if key.len % 256 < n then .err "integer part of key is too long"
      else .index (key.sliceTo n) := by
  unfold getIntegerPart
  cases byteAt key 0 <;> rfl

/-- The integer part of a key is found when the check in eight bits lets it pass. -/
theorem Parts.getIntegerPart {key i f : Str} (h : Parts key i f) :
    getIntegerPart key =
      if fits key then .ok i else .err "integer part of key is too long" := by
  have hfits : fits key = decide (i.length ≤ key.len % 256) := by
    rw [fits, h.headLen]
  rw [getIntegerPart_eq, h.headLen, Outcome.ok_bind, h.sliceTo, hfits]
  by_cases hle : i.length ≤ key.len % 256
  · simp [hle]
  · simp [hle, Nat.lt_of_not_le hle]

/-- A key is valid when that check lets it pass. -/
theorem Parts.validateOrderKey {key i f : Str} (h : Parts key i f) (hne : key ≠ smallestInteger) :
    validateOrderKey key =
      if fits key then .ok () else .err "integer part of key is too long" := by
  rw [FractIndex.validateOrderKey, if_neg hne, h.getIntegerPart]
  split_ifs
  · simp [h.sliceFrom, h.fraction.endsWithZero]
  · rfl

/-- A key lies between two bounds in byte order; an absent bound imposes nothing. -/
def Within (a b : Option Str) (key : Str) : Prop :=
  (∀ a' ∈ a, a'.bytes < key.bytes) ∧ ∀ b' ∈ b, key.bytes < b'.bytes

/-- Valid keys in order, of which one or both may be absent. -/
structure Bounds (a b : Option Str) : Prop where
  lower : ∀ a' ∈ a, ValidKey a'
  upper : ∀ b' ∈ b, ValidKey b'
  lt : ∀ a' ∈ a, ∀ b' ∈ b, a'.bytes < b'.bytes

/-- Keys are ordered by their integer parts, and by their fractions where those are equal. -/
theorem Parts.bytes_lt_iff {key key' i i' f f' : Str} (h : Parts key i f)
    (h' : Parts key' i' f') : key.bytes < key'.bytes ↔ i < i' ∨ i = i' ∧ f < f' := by
  rw [Str.bytes_lt_iff h.ascii h'.ascii, h.eq, h'.eq, h.integer.append_lt_append_iff h'.integer]

/-- An integer part is a key without a fraction. -/
theorem IntegerPart.parts {i : Str} (hi : IntegerPart i) : Parts i i [] :=
  ⟨(List.append_nil i).symm, hi, Fraction.nil⟩

/-- A key whose fraction is not empty is not the smallest integer. -/
theorem Parts.ne_smallestInteger {key i f : Str} (h : Parts key i f) (hf : f ≠ []) :
    key ≠ smallestInteger := by
  intro heq
  have happ : i ++ f = smallestInteger ++ [] := by
    rw [← h.eq, heq, List.append_nil]
  exact hf (h.integer.append_inj smallestInteger_part happ).2

/-- A midpoint is not empty. -/
theorem Middle.ne_nil {a s : Str} {b : Option Str} (h : Middle a b s) : s ≠ [] := by
  rintro rfl
  exact List.not_lt_nil a h.above

/-- The middle of two fractions behind one integer part. -/
theorem Middle.parts {i a s : Str} {b : Option Str} (h : Middle a b s) (hi : IntegerPart i) :
    Parts (i ++ s) i s :=
  ⟨rfl, hi, h.fraction⟩

/-- A key between two bounds, which is valid but for the smallest integer. -/
structure NewKey (a b : Option Str) (key : Str) : Prop where
  parts : ∃ i f, Parts key i f
  within : Within a b key
  smallest : key = smallestInteger ↔ a = none ∧ b = some secondInteger

/-- A new key above a lower bound is not the smallest integer. -/
theorem Parts.newKey_above {a key i f i' f' : Str} {b : Option Str} (h : Parts key i f)
    (ha : Parts a i' f') (habove : a.bytes < key.bytes)
    (hbelow : ∀ b' ∈ b, key.bytes < b'.bytes) : NewKey (some a) b key := by
  refine ⟨⟨i, f, h⟩, ⟨?_, hbelow⟩, ?_⟩
  · intro a' ha'
    obtain rfl := Option.some.inj ha'
    exact habove
  · simp only [reduceCtorEq, false_and, iff_false]
    rintro rfl
    rcases (ha.bytes_lt_iff smallestInteger_part.parts).mp habove with hlt | ⟨-, hlt⟩
    · exact not_lt_smallestInteger ha.integer hlt
    · exact List.not_lt_nil f' hlt

/-- Between two keys that pass the checks there is a new one: in the fractions of a common integer
part, at the next integer part, or behind the lower key's fraction. -/
theorem between_both {a b ia fa ib fb : Str} (ha : Parts a ia fa) (hb : Parts b ib fb)
    (hfa : fits a) (hfb : fits b) (hab : a.bytes < b.bytes) :
    ∃ k, between (some a) (some b) = .ok (some k) ∧ NewKey (some a) (some b) k := by
  have hle : ¬ b.bytes < a.bytes := not_lt_of_gt hab
  have hlt := (ha.bytes_lt_iff hb).mp hab
  simp only [between, if_neg hle, ha.getIntegerPart, hfa, hb.getIntegerPart, hfb, if_true,
    Outcome.ok_bind, ha.sliceFrom, hb.sliceFrom, Outcome.index_some]
  by_cases heq : ia = ib
  · -- the middle of the fractions behind the common integer part
    subst heq
    have hff : fa < fb := by
      rcases hlt with hlt | ⟨-, hlt⟩
      · exact absurd hlt (lt_irrefl ia)
      · exact hlt
    obtain ⟨s, hs, hmid⟩ := midpoint_spec (b := some fb) ha.fraction (by
      intro d hd
      obtain rfl := Option.some.inj hd
      exact ⟨hb.fraction, hff⟩)
    have hparts := hmid.parts ha.integer
    refine ⟨ia ++ s, by simp [hs], hparts.newKey_above ha ?_ ?_⟩
    · exact (ha.bytes_lt_iff hparts).mpr (Or.inr ⟨rfl, hmid.above⟩)
    · intro b' hb'
      obtain rfl := Option.some.inj hb'
      exact (hparts.bytes_lt_iff hb).mpr (Or.inr ⟨rfl, hmid.below fb rfl⟩)
  · have hii : ia < ib := by
      rcases hlt with hlt | ⟨heq', -⟩
      · exact hlt
      · exact absurd heq' heq
    rw [if_neg heq]
    rcases incrementInteger_spec ha.integer with ⟨i, hi, hnext⟩ | ⟨-, hlast⟩
    · simp only [hi, Outcome.ok_bind]
      have hiparts := hnext.right.parts
      by_cases hib : i.bytes < b.bytes
      · -- the next integer part
        refine ⟨i, by rw [if_pos hib], hiparts.newKey_above ha ?_ ?_⟩
        · exact (ha.bytes_lt_iff hiparts).mpr (Or.inl hnext.lt)
        · intro b' hb'
          obtain rfl := Option.some.inj hb'
          exact hib
      · -- a fraction above the one of the lower key
        obtain ⟨s, hs, hmid⟩ := midpoint_spec (b := none) ha.fraction (by simp)
        have hparts := hmid.parts ha.integer
        refine ⟨ia ++ s, by simp [hib, hs], hparts.newKey_above ha ?_ ?_⟩
        · exact (ha.bytes_lt_iff hparts).mpr (Or.inr ⟨rfl, hmid.above⟩)
        · intro b' hb'
          obtain rfl := Option.some.inj hb'
          exact (hparts.bytes_lt_iff hb).mpr (Or.inl hii)
    · exact absurd hii (hlast ib hb.integer)

/-- Behind a key that passes the check there is a new one: the next integer part, or a longer
fraction. -/
theorem between_lower {a ia fa : Str} (ha : Parts a ia fa) (hfa : fits a) :
    ∃ k, between (some a) none = .ok (some k) ∧ NewKey (some a) none k := by
  simp only [between, ha.getIntegerPart, hfa, if_true, Outcome.ok_bind, ha.sliceFrom,
    Outcome.index_some]
  rcases incrementInteger_spec ha.integer with ⟨i, hi, hnext⟩ | ⟨hnone, -⟩
  · have hiparts := hnext.right.parts
    refine ⟨i, by simp [hi], hiparts.newKey_above ha ?_ (by simp)⟩
    exact (ha.bytes_lt_iff hiparts).mpr (Or.inl hnext.lt)
  · obtain ⟨s, hs, hmid⟩ := midpoint_spec (b := none) ha.fraction (by simp)
    have hparts := hmid.parts ha.integer
    refine ⟨ia ++ s, by simp [hnone, hs], hparts.newKey_above ha ?_ (by simp)⟩
    exact (ha.bytes_lt_iff hparts).mpr (Or.inr ⟨rfl, hmid.above⟩)

/-- Before a key that passes the check there is a new one: its integer part, the one before it, or
a smaller fraction. -/
theorem between_upper {b ib fb : Str} (hb : Parts b ib fb) (hne : b ≠ smallestInteger)
    (hfb : fits b) :
    ∃ k, between none (some b) = .ok (some k) ∧ NewKey none (some b) k := by
  -- what makes a key below the upper bound a new key
  have hnew : ∀ {key i f : Str}, Parts key i f → key.bytes < b.bytes →
      (key = smallestInteger ↔ b = secondInteger) → NewKey none (some b) key := by
    intro key i f hkey hlt hsmall
    refine ⟨⟨i, f, hkey⟩, ⟨by simp, ?_⟩, by simpa using hsmall⟩
    intro b' hb'
    obtain rfl := Option.some.inj hb'
    exact hlt
  have hnotSecond : ∀ {f : Str}, fb = f → f ≠ [] → b ≠ secondInteger := by
    rintro f rfl hf heq
    have happ : ib ++ fb = secondInteger ++ [] := by
      rw [← hb.eq, heq, List.append_nil]
    exact hf (hb.integer.append_inj smallestInteger_next.right happ).2
  simp only [between, hb.getIntegerPart, hfb, if_true, Outcome.ok_bind, hb.sliceFrom,
    Outcome.index_some]
  by_cases hsmall : ib = smallestInteger
  · -- a fraction below the one of the upper key
    have hfb0 : fb ≠ [] := by
      rintro rfl
      exact hne (by rw [hb.eq, hsmall, List.append_nil])
    obtain ⟨c, t, hct⟩ := List.exists_cons_of_ne_nil hfb0
    obtain ⟨s, hs, hmid⟩ := midpoint_spec (b := some fb) Fraction.nil (by
      intro d hd
      obtain rfl := Option.some.inj hd
      rw [hct]
      exact ⟨hct ▸ hb.fraction, List.nil_lt_cons c t⟩)
    have hparts := hmid.parts hb.integer
    refine ⟨ib ++ s, by simp [hsmall, hs], hnew hparts ?_ ?_⟩
    · exact (hparts.bytes_lt_iff hb).mpr (Or.inr ⟨rfl, hmid.below fb rfl⟩)
    · exact iff_of_false (hparts.ne_smallestInteger hmid.ne_nil) (hnotSecond rfl hfb0)
  · rw [if_neg hsmall]
    have hiparts := hb.integer.parts
    by_cases hib : ib.bytes < b.bytes
    · -- the integer part of the upper key
      have hfb0 : fb ≠ [] := by
        rintro rfl
        rcases (hiparts.bytes_lt_iff hb).mp hib with hlt | ⟨-, hlt⟩
        · exact lt_irrefl ib hlt
        · exact lt_irrefl [] hlt
      refine ⟨ib, by rw [if_pos hib], hnew hiparts hib ?_⟩
      exact iff_of_false hsmall (hnotSecond rfl hfb0)
    · -- the previous integer part
      have hfb0 : fb = [] := by
        by_contra hf
        obtain ⟨c, t, hct⟩ := List.exists_cons_of_ne_nil hf
        refine hib ((hiparts.bytes_lt_iff hb).mpr (Or.inr ⟨rfl, ?_⟩))
        rw [hct]
        exact List.nil_lt_cons c t
      have hbi : b = ib := by rw [hb.eq, hfb0, List.append_nil]
      rw [if_neg hib]
      rcases decrementInteger_spec hb.integer with ⟨i, hi, hnext⟩ | ⟨-, heq⟩
      · refine ⟨i, by simp [hi], hnew hnext.left.parts ?_ ?_⟩
        · exact (hnext.left.parts.bytes_lt_iff hb).mpr (Or.inl hnext.lt)
        · rw [hbi]
          constructor
          · rintro rfl
            exact hnext.right_unique smallestInteger_next
          · rintro rfl
            exact hnext.left_unique smallestInteger_next
      · exact absurd heq hsmall

/-- Where the checks of `get_integer_part` pass, there is a new key between valid keys. -/
theorem keyBetween_of_fits {a b : Option Str} (hab : Bounds a b) (ha : ∀ a' ∈ a, fits a')
    (hb : ∀ b' ∈ b, fits b') : ∃ k, keyBetween a b = .ok (some k) ∧ NewKey a b k := by
  have hvalid : ∀ {key : Option Str}, (∀ k ∈ key, ValidKey k) → (∀ k ∈ key, fits k) →
      validateBound key = .ok () := by
    intro key hkey hfits
    cases key with
    | none => rfl
    | some k =>
        obtain ⟨i, f, hparts⟩ := (hkey k rfl).parts
        rw [validateBound, hparts.validateOrderKey (hkey k rfl).notSmallest, if_pos (hfits k rfl)]
  rw [keyBetween, hvalid hab.lower ha, Outcome.ok_bind, hvalid hab.upper hb, Outcome.ok_bind]
  cases a with
  | none =>
      cases b with
      | none =>
          have hzero : IntegerPart integerZero := integerPart_cons.mpr ⟨rfl, by simp [Digits]; decide⟩
          exact ⟨integerZero, rfl, ⟨⟨_, _, hzero.parts⟩, by simp [Within], by decide⟩⟩
      | some b =>
          obtain ⟨ib, fb, hparts⟩ := (hab.upper b rfl).parts
          exact between_upper hparts (hab.upper b rfl).notSmallest (hb b rfl)
  | some a =>
      obtain ⟨ia, fa, haparts⟩ := (hab.lower a rfl).parts
      cases b with
      | none => exact between_lower haparts (ha a rfl)
      | some b =>
          obtain ⟨ib, fb, hbparts⟩ := (hab.upper b rfl).parts
          exact between_both haparts hbparts (ha a rfl) (hb b rfl) (hab.lt a rfl b rfl)

/-- Where a check of `get_integer_part` fails, so does the call. -/
theorem keyBetween_of_not_fits {a b : Option Str} (hab : Bounds a b)
    (h : ¬ ((∀ a' ∈ a, fits a') ∧ ∀ b' ∈ b, fits b')) :
    keyBetween a b = .err "integer part of key is too long" := by
  have hbound : ∀ {key : Option Str}, (∀ k ∈ key, ValidKey k) →
      validateBound key = .ok () ∧ (∀ k ∈ key, fits k) ∨
        validateBound key = .err "integer part of key is too long" ∧ ¬ ∀ k ∈ key, fits k := by
    intro key hkey
    cases key with
    | none => exact Or.inl ⟨rfl, by simp⟩
    | some k =>
        obtain ⟨i, f, hparts⟩ := (hkey k rfl).parts
        rw [validateBound, hparts.validateOrderKey (hkey k rfl).notSmallest]
        by_cases hfits : fits k
        · exact Or.inl ⟨by rw [if_pos hfits], by simpa using hfits⟩
        · exact Or.inr ⟨by rw [if_neg hfits], by simpa using hfits⟩
  rw [keyBetween]
  rcases hbound hab.lower with ⟨ha, hfa⟩ | ⟨ha, -⟩
  · rw [ha, Outcome.ok_bind]
    rcases hbound hab.upper with ⟨-, hfb⟩ | ⟨hb, -⟩
    · exact absurd ⟨hfa, hfb⟩ h
    · rw [hb, Outcome.err_bind]
  · rw [ha, Outcome.err_bind]

/-- The key between two valid keys in order, of which one or both may be absent, is
strictly between them. -/
theorem keyBetween_within {a b : Option Str} {key : Str} (hab : Bounds a b)
    (hkey : keyBetween a b = .ok (some key)) : Within a b key := by
  by_cases hfits : (∀ a' ∈ a, fits a') ∧ ∀ b' ∈ b, fits b'
  · obtain ⟨k, hk, hnew⟩ := keyBetween_of_fits hab hfits.1 hfits.2
    have heq := Option.some.inj (Outcome.ok.inj (hk.symm.trans hkey))
    rw [← heq]
    exact hnew.within
  · rw [keyBetween_of_not_fits hab hfits] at hkey
    cases hkey

/-- An integer part is a valid key, but for the smallest one. -/
theorem validKey_integer {h : Char} {t : Str} (hi : IntegerPart (h :: t))
    (hne : h :: t ≠ smallestInteger) : ValidKey (h :: t) :=
  ⟨⟨h :: t, [], hi.parts⟩, hne⟩

/-- Two keys that follow each other are bounds. -/
theorem bounds_a0_a1 : Bounds (some ['a', '0']) (some ['a', '1']) := by
  have hdigits : Digits ['0'] ∧ Digits ['1'] := by simp [Digits]; decide
  have h0 : ValidKey ['a', '0'] :=
    validKey_integer (integerPart_cons.mpr ⟨rfl, hdigits.1⟩) (by decide)
  have h1 : ValidKey ['a', '1'] :=
    validKey_integer (integerPart_cons.mpr ⟨rfl, hdigits.2⟩) (by decide)
  exact ⟨by simpa using h0, by simpa using h1, by simp; decide⟩

/-- Between the first two keys that are not negative lies a fraction of the first one. -/
theorem keyBetween_within_a0_a1 :
    Bounds (some ['a', '0']) (some ['a', '1']) ∧
      keyBetween (some ['a', '0']) (some ['a', '1']) = .ok (some ['a', '0', 'V']) ∧
      Within (some ['a', '0']) (some ['a', '1']) ['a', '0', 'V'] := by
  have hkey : keyBetween (some ['a', '0']) (some ['a', '1']) = .ok (some ['a', '0', 'V']) := by
    decide +kernel
  exact ⟨bounds_a0_a1, hkey, keyBetween_within bounds_a0_a1 hkey⟩

/-! ## Insertions -/

/-- Which calls on valid keys in order return a valid key: those whose keys pass the
length check in eight bits, but for the one before the integer part behind the smallest
one. -/
def Succeeds (a b : Option Str) : Prop :=
  (∀ a' ∈ a, fits a') ∧ (∀ b' ∈ b, fits b') ∧ ¬ (a = none ∧ b = some secondInteger)

instance (a b : Option Str) : Decidable (Succeeds a b) :=
  inferInstanceAs (Decidable (_ ∧ _ ∧ _))

/-- A new key is valid, but for the one before the second integer. -/
theorem NewKey.valid_iff {a b : Option Str} {k : Str} (h : NewKey a b k) :
    ValidKey k ↔ ¬ (a = none ∧ b = some secondInteger) := by
  rw [← not_congr h.smallest]
  exact ⟨fun hk => hk.notSmallest, fun hne => ⟨h.parts, hne⟩⟩

/-- The calls on valid keys in order that return a valid key. -/
theorem keyBetween_succeeds_iff {a b : Option Str} (hab : Bounds a b) :
    (∃ k, keyBetween a b = .ok (some k) ∧ ValidKey k) ↔ Succeeds a b := by
  constructor
  · rintro ⟨k, hk, hvalid⟩
    by_cases hfits : (∀ a' ∈ a, fits a') ∧ ∀ b' ∈ b, fits b'
    · obtain ⟨k', hk', hnew⟩ := keyBetween_of_fits hab hfits.1 hfits.2
      obtain rfl := Option.some.inj (Outcome.ok.inj (hk.symm.trans hk'))
      exact ⟨hfits.1, hfits.2, hnew.valid_iff.mp hvalid⟩
    · rw [keyBetween_of_not_fits hab hfits] at hk
      cases hk
  · rintro ⟨ha, hb, hne⟩
    obtain ⟨k, hk, hnew⟩ := keyBetween_of_fits hab ha hb
    exact ⟨k, hk, hnew.valid_iff.mpr hne⟩

/-- Keys in order, and whether an insertion among them failed. -/
structure Keys where
  keys : List Str
  failed : Bool
deriving DecidableEq

namespace Keys

/-- The key that an insertion at a position comes after. -/
def lowerAt (s : Keys) (i : Nat) : Option Str :=
  (s.keys.take i).getLast?

/-- The key that an insertion at a position comes before. -/
def upperAt (s : Keys) (i : Nat) : Option Str :=
  (s.keys.drop i).head?

/-- The insertion of the key between the two keys at a position. -/
def insertAt (s : Keys) (i : Nat) : Keys :=
  match keyBetween (s.lowerAt i) (s.upperAt i) with
  | .ok (some k) => { s with keys := s.keys.take i ++ k :: s.keys.drop i }
  | _ => { s with failed := true }

/-- Valid keys, and no insertion failed. -/
structure Good (s : Keys) : Prop where
  valid : ∀ k ∈ s.keys, ValidKey k
  notFailed : s.failed = false

/-- Good keys in byte order. -/
structure Ordered (s : Keys) : Prop where
  good : s.Good
  sorted : s.keys.Pairwise fun k k' => k.bytes < k'.bytes

/-- The bound below a place is the greatest key before it. -/
theorem lowerAt_max {s : Keys} (hs : s.Ordered) {i : Nat} {a : Str} (ha : s.lowerAt i = some a) :
    ∀ k ∈ s.keys.take i, k.bytes ≤ a.bytes := by
  obtain ⟨p, hp⟩ := List.getLast?_eq_some_iff.mp ha
  have hsorted : (s.keys.take i).Pairwise fun k k' => k.bytes < k'.bytes :=
    hs.sorted.sublist (List.take_sublist i s.keys)
  rw [hp, List.pairwise_append] at hsorted
  intro k hk
  rw [hp, List.mem_append, List.mem_singleton] at hk
  rcases hk with hk | rfl
  · exact le_of_lt (hsorted.2.2 k hk a (List.mem_singleton_self a))
  · exact le_refl _

/-- The bound above a place is the smallest key behind it. -/
theorem upperAt_min {s : Keys} (hs : s.Ordered) {i : Nat} {b : Str} (hb : s.upperAt i = some b) :
    ∀ k ∈ s.keys.drop i, b.bytes ≤ k.bytes := by
  obtain ⟨q, hq⟩ := List.head?_eq_some_iff.mp hb
  have hsorted : (s.keys.drop i).Pairwise fun k k' => k.bytes < k'.bytes :=
    hs.sorted.sublist (List.drop_sublist i s.keys)
  rw [hq, List.pairwise_cons] at hsorted
  intro k hk
  rw [hq, List.mem_cons] at hk
  rcases hk with rfl | hk
  · exact le_refl _
  · exact le_of_lt (hsorted.1 k hk)

/-- The bounds of a place in an ordered list are in order. -/
theorem Ordered.bounds {s : Keys} (hs : s.Ordered) (i : Nat) :
    Bounds (s.lowerAt i) (s.upperAt i) := by
  have hsorted := hs.sorted
  rw [← List.take_append_drop i s.keys, List.pairwise_append] at hsorted
  refine ⟨?_, ?_, ?_⟩
  · intro a ha
    exact hs.good.valid a (List.mem_of_mem_take (List.mem_of_getLast? ha))
  · intro b hb
    exact hs.good.valid b (List.mem_of_mem_drop (List.mem_of_head? hb))
  · intro a ha b hb
    exact hsorted.2.2 a (List.mem_of_getLast? ha) b (List.mem_of_head? hb)

/-- A new key goes between the keys that are there. -/
theorem Ordered.insert {s : Keys} (hs : s.Ordered) {i : Nat} {k : Str} (hk : ValidKey k)
    (hwithin : Within (s.lowerAt i) (s.upperAt i) k) :
    ({ s with keys := s.keys.take i ++ k :: s.keys.drop i } : Keys).Ordered := by
  have hbelow : ∀ x ∈ s.keys.take i, x.bytes < k.bytes := by
    intro x hx
    cases ha : s.lowerAt i with
    | none =>
        have hnil := List.getLast?_eq_none_iff.mp ha
        rw [hnil] at hx
        exact absurd hx (List.not_mem_nil)
    | some a => exact lt_of_le_of_lt (lowerAt_max hs ha x hx) (hwithin.1 a ha)
  have habove : ∀ x ∈ s.keys.drop i, k.bytes < x.bytes := by
    intro x hx
    cases hb : s.upperAt i with
    | none =>
        have hnil := List.head?_eq_none_iff.mp hb
        rw [hnil] at hx
        exact absurd hx (List.not_mem_nil)
    | some b => exact lt_of_lt_of_le (hwithin.2 b hb) (upperAt_min hs hb x hx)
  have hsorted := hs.sorted
  rw [← List.take_append_drop i s.keys, List.pairwise_append] at hsorted
  refine ⟨⟨?_, hs.good.notFailed⟩, ?_⟩
  · intro x hx
    rcases List.mem_append.mp hx with hx | hx
    · exact hs.good.valid x (List.mem_of_mem_take hx)
    · rcases List.mem_cons.mp hx with rfl | hx
      · exact hk
      · exact hs.good.valid x (List.mem_of_mem_drop hx)
  · apply List.pairwise_append.mpr
    refine ⟨hsorted.1, List.pairwise_cons.mpr ⟨habove, hsorted.2.1⟩, ?_⟩
    intro x hx y hy
    rcases List.mem_cons.mp hy with rfl | hy
    · exact hbelow x hx
    · exact hsorted.2.2 x hx y hy

/-- An insertion that succeeds keeps the keys good and in order. -/
theorem Ordered.insertAt {s : Keys} (hs : s.Ordered) {i : Nat}
    (h : Succeeds (s.lowerAt i) (s.upperAt i)) : (s.insertAt i).Ordered := by
  obtain ⟨k, hk, hvalid⟩ := (keyBetween_succeeds_iff (hs.bounds i)).mpr h
  have hstep : s.insertAt i = { s with keys := s.keys.take i ++ k :: s.keys.drop i } := by
    rw [Keys.insertAt, hk]
  rw [hstep]
  exact hs.insert hvalid (keyBetween_within (hs.bounds i) hk)

/-- Any other insertion fails or makes a key that is not valid. -/
theorem Ordered.not_good_insertAt {s : Keys} (hs : s.Ordered) {i : Nat}
    (h : ¬ Succeeds (s.lowerAt i) (s.upperAt i)) : ¬ (s.insertAt i).Good := by
  intro hgood
  apply h
  apply (keyBetween_succeeds_iff (hs.bounds i)).mp
  unfold Keys.insertAt at hgood
  split at hgood
  · rename_i k hk
    exact ⟨k, hk, hgood.valid k (by simp)⟩
  · exact absurd hgood.notFailed (by simp)

/-- A run of insertions stays good exactly when every one of them succeeds. -/
theorem insertions_succeed {s : Keys} (hs : s.Ordered) (ops : List Nat) :
    Run.Always Keys.insertAt Good s ops ↔
      Run.Allowed Keys.insertAt (fun s i => Succeeds (s.lowerAt i) (s.upperAt i)) s ops :=
  Run.always_iff_allowed Ordered (fun _ hs => hs.good) (fun _ _ hs hok => hs.insertAt hok)
    (fun _ _ hs hbad => hs.not_good_insertAt hbad) hs

end Keys

/-- A call on valid keys in order returns a valid key exactly when its keys pass the length
check in eight bits and it does not ask for a key before the integer part behind the
smallest one; and insertions before, between and after keys keep succeeding exactly as long
as each of them is such a call. -/
theorem keyBetween_stuck_iff {a b : Option Str} (hab : Bounds a b) {s : Keys} (hs : s.Ordered)
    (ops : List Nat) :
    ((∃ k, keyBetween a b = .ok (some k) ∧ ValidKey k) ↔ Succeeds a b) ∧
      (Run.Always Keys.insertAt Keys.Good s ops ↔
        Run.Allowed Keys.insertAt (fun s i => Succeeds (s.lowerAt i) (s.upperAt i)) s ops) :=
  ⟨keyBetween_succeeds_iff hab, Keys.insertions_succeed hs ops⟩

/-- A key between the first two keys, and four insertions into no keys. -/
theorem keyBetween_stuck_iff_a0_a1 :
    (∃ k, keyBetween (some ['a', '0']) (some ['a', '1']) = .ok (some k) ∧ ValidKey k) ∧
      Run.Always Keys.insertAt Keys.Good ⟨[], false⟩ [0, 0, 1, 3] := by
  have hempty : Keys.Ordered ⟨[], false⟩ := ⟨⟨by simp, rfl⟩, List.Pairwise.nil⟩
  obtain ⟨hcall, hrun⟩ := keyBetween_stuck_iff bounds_a0_a1 hempty [0, 0, 1, 3]
  refine ⟨hcall.mpr (by decide), hrun.mpr ?_⟩
  decide +kernel

/-- A valid key of 256 bytes. -/
def longKey : Str :=
  'a' :: '0' :: List.replicate 254 '1'

/-- A key of more than 255 characters may be valid. -/
theorem longKey_valid : ValidKey longKey := by
  have hint : IntegerPart ['a', '0'] := integerPart_cons.mpr ⟨rfl, by simp [Digits]; decide⟩
  have hfract : Fraction (List.replicate 254 '1') := by
    refine ⟨(digitString_replicate (by decide)).digits, ?_⟩
    rw [List.getLast?_replicate]
    decide
  have hparts : Parts longKey ['a', '0'] (List.replicate 254 '1') := ⟨rfl, hint, hfract⟩
  exact ⟨⟨_, _, hparts⟩, hparts.ne_smallestInteger (List.cons_ne_nil '1' (List.replicate 253 '1'))⟩

/-- There is no key after a valid key of 256 bytes, and the key before the integer part
behind the smallest one is not valid. -/
theorem keyBetween_stuck :
    Bounds (some longKey) none ∧
      keyBetween (some longKey) none = .err "integer part of key is too long" ∧
      Bounds none (some secondInteger) ∧
      keyBetween none (some secondInteger) = .ok (some smallestInteger) ∧
      ¬ ValidKey smallestInteger := by
  have hsecond : ValidKey secondInteger :=
    validKey_integer smallestInteger_next.right (by decide)
  refine ⟨⟨by simpa using longKey_valid, by simp, by simp⟩, by decide +kernel,
    ⟨by simp, by simpa using hsecond, by simp⟩, by decide +kernel, ?_⟩
  exact fun h => h.notSmallest rfl

end FractIndex

end CrSqlite
