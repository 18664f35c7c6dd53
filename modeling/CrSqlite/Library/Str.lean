import Mathlib.Data.Char
import Mathlib.Data.List.Basic
import Mathlib.Data.List.Lex
import Mathlib.Order.Lattice

/-!
# Library - Strings indexed by bytes

A string is kept as its characters, but lengths, indices and comparisons count the
bytes of its UTF-8 encoding, and an index inside a character is none.  Of the
encoding only this is used: a character below 128 is its own byte, every byte of
another character is at least 128, and strings with the same bytes are equal.

Main results:

- Theorem {lit}`Str.split_eq_some_iff`: a split at a byte index is the
  decomposition whose first part has that many bytes.
- Theorem {lit}`Str.bytes_lt_iff`: strings of characters below 128 compare like lists of
  characters.
- Theorem {lit}`Str.append_lt_append_iff`: behind parts of one length, a comparison
  goes part by part.
-/

/-- The characters of a string. -/
abbrev Str := List Char

namespace Str

/-! ## Bytes -/

/-- The bytes of a character. -/
def charBytes (c : Char) : List Nat :=
  (String.utf8EncodeChar c).map UInt8.toNat

/-- The bytes of a string. -/
def bytes (s : Str) : List Nat :=
  s.flatMap charBytes

/-- The number of bytes. -/
def len (s : Str) : Nat :=
  s.bytes.length

/-- Every character is its own byte. -/
def Ascii (s : Str) : Prop :=
  ∀ c ∈ s, c.toNat < 128

/-- An ASCII character is one byte. -/
theorem charBytes_of_ascii {c : Char} (hc : c.toNat < 128) : charBytes c = [c.toNat] := by
  have hle : c.val.toNat ≤ 0x7f := Nat.le_of_lt_succ hc
  have hmod : c.val.toNat % 256 = c.val.toNat := Nat.mod_eq_of_lt (by omega)
  rw [charBytes, String.utf8EncodeChar]
  simp only [hle, if_true, List.map_cons, List.map_nil, UInt8.toNat_ofNat']
  exact congrArg (fun n => [n]) hmod

/-- The bytes of another character are not ASCII. -/
theorem charBytes_of_not_ascii {c : Char} (hc : ¬ c.toNat < 128) :
    ∀ b ∈ charBytes c, 128 ≤ b := by
  have hnle : ¬ c.val.toNat ≤ 0x7f := fun h => hc (Nat.lt_succ_of_le h)
  intro b hb
  simp only [charBytes, String.utf8EncodeChar, hnle, if_false] at hb
  split_ifs at hb
  all_goals
    simp only [List.map_cons, List.map_nil, List.mem_cons, List.not_mem_nil, or_false,
      UInt8.toNat_ofNat'] at hb
    omega

/-- Bytes are below 256. -/
theorem charBytes_lt (c : Char) : ∀ b ∈ charBytes c, b < 256 := by
  intro b hb
  obtain ⟨u, -, rfl⟩ := List.mem_map.mp hb
  exact u.toNat_lt

/-- A character that is not ASCII has several bytes. -/
theorem one_lt_length_charBytes {c : Char} (hc : ¬ c.toNat < 128) :
    1 < (charBytes c).length := by
  have hnle : ¬ c.val.toNat ≤ 0x7f := fun h => hc (Nat.lt_succ_of_le h)
  simp only [charBytes, String.utf8EncodeChar, hnle, if_false, List.length_map]
  split_ifs <;> simp

/-- Every character has a byte. -/
theorem length_charBytes_pos (c : Char) : 0 < (charBytes c).length := by
  by_cases hc : c.toNat < 128
  · simp [charBytes_of_ascii hc]
  · exact Nat.lt_trans Nat.zero_lt_one (one_lt_length_charBytes hc)

@[simp]
theorem bytes_nil : bytes [] = [] :=
  rfl

@[simp]
theorem bytes_cons (c : Char) (s : Str) : bytes (c :: s) = charBytes c ++ bytes s :=
  rfl

@[simp]
theorem bytes_append (s t : Str) : bytes (s ++ t) = bytes s ++ bytes t :=
  List.flatMap_append

@[simp]
theorem len_nil : len [] = 0 :=
  rfl

@[simp]
theorem len_cons (c : Char) (s : Str) : len (c :: s) = (charBytes c).length + len s := by
  simp [len]

@[simp]
theorem len_append (s t : Str) : len (s ++ t) = len s + len t := by
  simp [len]

/-- Only the empty string has no bytes. -/
@[simp]
theorem len_eq_zero_iff {s : Str} : len s = 0 ↔ s = [] := by
  cases s with
  | nil => simp
  | cons c s =>
      have hpos := length_charBytes_pos c
      simp only [len_cons, reduceCtorEq, iff_false]
      omega

/-- Strings with the same bytes are equal. -/
theorem bytes_injective {s t : Str} (h : s.bytes = t.bytes) : s = t := by
  have hmap : ∀ u : Str, u.bytes = (u.flatMap String.utf8EncodeChar).map UInt8.toNat := by
    intro u
    rw [bytes, List.map_flatMap]
    rfl
  rw [hmap, hmap] at h
  have hbytes := List.map_injective_iff.mpr (fun _ _ => UInt8.toNat.inj) h
  have hstring : String.ofList s = String.ofList t := by
    apply String.toByteArray_inj.mp
    simp only [String.toByteArray_ofList, List.utf8Encode, hbytes]
  simpa using congrArg String.toList hstring

/-! ## Splitting -/

/-- The parts before and behind a byte index, none when the index is out of range or
inside a character. -/
def split : Nat → Str → Option (Str × Str)
  | 0, s => some ([], s)
  | _ + 1, [] => none
  | n + 1, c :: s =>
      if (charBytes c).length ≤ n + 1 then
        (split (n + 1 - (charBytes c).length) s).map fun (p, q) => (c :: p, q)
      else none

/-- `&s[..n]`. -/
def sliceTo (n : Nat) (s : Str) : Option Str :=
  (split n s).map Prod.fst

/-- `&s[n..]`. -/
def sliceFrom (n : Nat) (s : Str) : Option Str :=
  (split n s).map Prod.snd

/-- `&s[i..j]`. -/
def slice (i j : Nat) (s : Str) : Option Str :=
  (sliceFrom i s).bind (sliceTo (j - i))

/-- `s.replace_range(i..j, new)`. -/
def replaceRange (i j : Nat) (s new : Str) : Option Str :=
  (split i s).bind fun (p, q) => (sliceFrom (j - i) q).map fun r => p ++ new ++ r

/-- `s.find(pat)`: the byte index of the first occurrence. -/
def find : Str → Str → Option Nat
  | [], pat => if pat = [] then some 0 else none
  | c :: s, pat =>
      if pat.isPrefixOf (c :: s) then some 0
      else (find s pat).map (· + (charBytes c).length)

/-- A string can be cut at a number of bytes exactly when a prefix has that many. -/
theorem split_eq_some_iff {n : Nat} {s p q : Str} :
    split n s = some (p, q) ↔ s = p ++ q ∧ p.len = n := by
  induction s generalizing n p q with
  | nil =>
      cases n with
      | zero =>
          simp only [split, Option.some.injEq, Prod.mk.injEq]
          constructor
          · rintro ⟨rfl, rfl⟩
            simp
          · rintro ⟨h, -⟩
            obtain ⟨rfl, rfl⟩ := List.append_eq_nil_iff.mp h.symm
            simp
      | succ n =>
          simp only [split, reduceCtorEq, false_iff, not_and]
          intro h
          obtain ⟨rfl, rfl⟩ := List.append_eq_nil_iff.mp h.symm
          simp
  | cons c s ih =>
      cases n with
      | zero =>
          simp only [split, Option.some.injEq, Prod.mk.injEq, len_eq_zero_iff]
          constructor
          · rintro ⟨rfl, rfl⟩
            simp
          · rintro ⟨h, rfl⟩
            simpa using h
      | succ n =>
          have hpos := length_charBytes_pos c
          rw [split]
          split
          · rename_i hle
            simp only [Option.map_eq_some_iff, Prod.exists, Prod.mk.injEq, ih]
            constructor
            · rintro ⟨p', q', ⟨rfl, hlen⟩, rfl, rfl⟩
              refine ⟨rfl, ?_⟩
              rw [len_cons]
              omega
            · rintro ⟨h, hlen⟩
              cases p with
              | nil => simp at hlen
              | cons d p =>
                  obtain ⟨rfl, rfl⟩ := List.cons_eq_cons.mp h
                  rw [len_cons] at hlen
                  exact ⟨p, q, ⟨rfl, by omega⟩, rfl, rfl⟩
          · rename_i hlt
            simp only [reduceCtorEq, false_iff, not_and]
            intro h hlen
            cases p with
            | nil => simp at hlen
            | cons d p =>
                obtain ⟨rfl, -⟩ := List.cons_eq_cons.mp h
                rw [len_cons] at hlen
                omega

theorem split_append (p q : Str) : split p.len (p ++ q) = some (p, q) :=
  split_eq_some_iff.mpr ⟨rfl, rfl⟩

theorem sliceTo_eq_some_iff {n : Nat} {s p : Str} :
    sliceTo n s = some p ↔ ∃ q, s = p ++ q ∧ p.len = n := by
  simp [sliceTo, split_eq_some_iff]

theorem sliceFrom_eq_some_iff {n : Nat} {s q : Str} :
    sliceFrom n s = some q ↔ ∃ p, s = p ++ q ∧ p.len = n := by
  simp [sliceFrom, split_eq_some_iff]

/-- A slice stands between two boundaries. -/
theorem slice_eq_some_iff {i j : Nat} {s m : Str} :
    slice i j s = some m ↔ ∃ p r, s = p ++ m ++ r ∧ p.len = i ∧ m.len = j - i := by
  simp only [slice, Option.bind_eq_some_iff, sliceFrom_eq_some_iff, sliceTo_eq_some_iff]
  constructor
  · rintro ⟨q, ⟨p, rfl, hp⟩, r, rfl, hm⟩
    exact ⟨p, r, by simp, hp, hm⟩
  · rintro ⟨p, r, rfl, hp, hm⟩
    exact ⟨m ++ r, ⟨p, by simp, hp⟩, r, rfl, hm⟩

/-! ## Characters below 128 -/

theorem ascii_cons {c : Char} {s : Str} : Ascii (c :: s) ↔ c.toNat < 128 ∧ Ascii s := by
  simp [Ascii]

/-- Two strings are ASCII when both are. -/
theorem ascii_append {s t : Str} : Ascii (s ++ t) ↔ Ascii s ∧ Ascii t := by
  simp only [Ascii, List.mem_append]
  constructor
  · exact fun h => ⟨fun c hc => h c (Or.inl hc), fun c hc => h c (Or.inr hc)⟩
  · rintro ⟨hs, ht⟩ c (hc | hc)
    · exact hs c hc
    · exact ht c hc

/-- The bytes of an ASCII string are its codes. -/
theorem bytes_of_ascii {s : Str} (hs : Ascii s) : s.bytes = s.map Char.toNat := by
  induction s with
  | nil => rfl
  | cons c s ih =>
      obtain ⟨hc, hs⟩ := ascii_cons.mp hs
      rw [bytes_cons, charBytes_of_ascii hc, ih hs]
      rfl

theorem len_of_ascii {s : Str} (hs : Ascii s) : s.len = s.length := by
  rw [len, bytes_of_ascii hs, List.length_map]

/-- Strings of characters below 128 compare like lists of characters. -/
theorem bytes_lt_iff {s t : Str} (hs : Ascii s) (ht : Ascii t) : s.bytes < t.bytes ↔ s < t := by
  rw [bytes_of_ascii hs, bytes_of_ascii ht]
  have hmono : ∀ {u v : Str}, u < v → u.map Char.toNat < v.map Char.toNat := fun h =>
    List.map_lt (fun _ _ hc => hc) h
  refine ⟨fun h => ?_, hmono⟩
  rcases lt_trichotomy s t with hlt | rfl | hgt
  · exact hlt
  · exact absurd h (lt_irrefl _)
  · exact absurd (hmono hgt) (not_lt_of_gt h)

/-- A character below 128 is a slice of one byte. -/
theorem slice_one {c : Char} (hc : c.toNat < 128) (p q : Str) :
    slice p.len (p.len + 1) (p ++ c :: q) = some [c] := by
  apply slice_eq_some_iff.mpr
  refine ⟨p, q, by simp, rfl, ?_⟩
  rw [len_cons, charBytes_of_ascii hc, len_nil]
  simp

/-- One ASCII character is replaced. -/
theorem replaceRange_one {c : Char} (hc : c.toNat < 128) (p q new : Str) :
    replaceRange p.len (p.len + 1) (p ++ c :: q) new = some (p ++ new ++ q) := by
  have hrest : sliceFrom 1 (c :: q) = some q := by
    apply sliceFrom_eq_some_iff.mpr
    refine ⟨[c], rfl, ?_⟩
    rw [len_cons, charBytes_of_ascii hc, len_nil]
    simp
  simp only [replaceRange, split_append, Option.bind_some, Nat.add_sub_cancel_left, hrest,
    Option.map_some]

/-- There is no split inside a character. -/
theorem split_inside {p q : Str} {c : Char} {k : Nat} (hpos : 0 < k)
    (hk : k < (charBytes c).length) : split (p.len + k) (p ++ c :: q) = none := by
  apply Option.eq_none_iff_forall_not_mem.mpr
  rintro ⟨p', q'⟩ h
  obtain ⟨heq, hlen⟩ := split_eq_some_iff.mp h
  rcases List.append_eq_append_iff.mp heq with ⟨x, rfl, hx⟩ | ⟨x, rfl, hx⟩
  · cases x with
    | nil =>
        rw [List.append_nil] at hlen
        omega
    | cons d x =>
        obtain ⟨rfl, -⟩ := List.cons_eq_cons.mp hx
        rw [len_append, len_cons] at hlen
        omega
  · rw [len_append] at hlen
    omega

/-- One byte of a string of characters below 128 is one of its characters. -/
theorem slice_of_ascii {s : Str} (hs : Ascii s) (k : Nat) :
    slice k (k + 1) s = s[k]?.map fun c => [c] := by
  by_cases hk : k < s.length
  · have hp : Ascii (s.take k) := fun c hc => hs c (List.mem_of_mem_take hc)
    have hlen : (s.take k).length = k := List.length_take_of_le (Nat.le_of_lt hk)
    have hone := slice_one (hs _ (List.getElem_mem hk)) (s.take k) (s.drop (k + 1))
    rw [len_of_ascii hp, hlen, List.getElem_cons_drop hk, List.take_append_drop] at hone
    rw [hone, List.getElem?_eq_getElem hk]
    rfl
  · rw [List.getElem?_eq_none (Nat.le_of_not_lt hk), Option.map_none]
    apply Option.eq_none_iff_forall_not_mem.mpr
    intro m hm
    obtain ⟨p, r, rfl, hp, hm⟩ := slice_eq_some_iff.mp hm
    have hlen := len_of_ascii hs
    simp only [len_append] at hlen
    omega

/-- The index of a character among different characters below 128. -/
theorem find_eq_some_iff {s : Str} {c : Char} {k : Nat} (hs : Ascii s) (hnodup : s.Nodup) :
    find s [c] = some k ↔ s[k]? = some c := by
  induction s generalizing k with
  | nil => simp [find]
  | cons d s ih =>
      obtain ⟨hd, hs⟩ := ascii_cons.mp hs
      obtain ⟨hnot, hnodup⟩ := List.nodup_cons.mp hnodup
      have hprefix : [c].isPrefixOf (d :: s) = (c == d) := by simp [List.isPrefixOf]
      rw [find, hprefix, charBytes_of_ascii hd]
      by_cases hcd : c = d
      · subst hcd
        cases k with
        | zero => simp
        | succ k =>
            have hne : s[k]? ≠ some c := fun h => hnot (List.mem_of_getElem? h)
            simpa using hne
      · have hdc : ¬ d = c := fun h => hcd h.symm
        cases k with
        | zero => simp [hcd, hdc]
        | succ k => simp [hcd, ih hs hnodup]

/-! ## Comparing -/

section Comparing

variable {α : Type*} [LinearOrder α]

/-- Lists with prefixes of one length are ordered by the prefixes, and by the rest where those are
equal. -/
theorem append_lt_append_iff {s t u v : List α} (h : s.length = t.length) :
    s ++ u < t ++ v ↔ s < t ∨ s = t ∧ u < v := by
  induction s generalizing t with
  | nil =>
      obtain rfl : t = [] := List.length_eq_zero_iff.mp h.symm
      simp
  | cons a s ih =>
      cases t with
      | nil => simp at h
      | cons b t =>
          have hst : s.length = t.length := Nat.succ.inj h
          simp only [List.cons_append, List.cons_lt_cons_iff, ih hst, List.cons.injEq]
          tauto

theorem append_lt_append_left_iff {s u v : List α} : s ++ u < s ++ v ↔ u < v := by
  simp [append_lt_append_iff]

/-- A list is below a longer one that it begins. -/
theorem lt_append {s u : List α} (hu : u ≠ []) : s < s ++ u := by
  obtain ⟨a, u, rfl⟩ := List.exists_cons_of_ne_nil hu
  have h := append_lt_append_left_iff (s := s) (u := []) (v := a :: u)
  rw [List.append_nil] at h
  exact h.mpr (List.nil_lt_cons a u)

end Comparing

end Str
