import Mathlib.Data.Rat.Defs
import Mathlib.Data.List.Basic
import Mathlib.Data.List.Lex
import Mathlib.Data.Char
import Mathlib.Tactic.IntervalCases

/-!
# Value - SQLite values and their printed form

The values a column can store, SQLite's comparison of them, what `quote()`
prints for a value, and what SQL reads a printed literal as.  Floating-point
printing and reading are SQLite's own and stay a parameter with the two laws
the extension relies on.

Main results:

- Theorem {lit}`readLiteral_quote`: every value that `quote()` can print
  faithfully is read back as it was.
- Theorem {lit}`quote_injective`: two such values with the same text are equal.
-/

namespace CrSqlite

/-! ## Texts, blobs and values -/

/-- The bytes of a C string, one character per byte, without the terminator. -/
abbrev Text := List Char

instance : LawfulBEq Text :=
  inferInstance

/-- The bytes of a blob. -/
abbrev Blob := List UInt8

/-- The byte that ends a C string. -/
def nul : Char := Char.ofNat 0

/-- The single quote that encloses SQL string literals. -/
def apostrophe : Char := Char.ofNat 39

/-- The values SQLite stores.  A finite double is the rational it stands for;
the two infinities are kept apart, and SQLite stores NaN as NULL. -/
inductive SqlValue where
  | null
  | integer (i : Int)
  | real (q : ℚ)
  | inf (negative : Bool)
  | text (t : Text)
  | blob (b : Blob)
deriving DecidableEq

/-- SQLite's largest integer, 2^63 - 1. -/
def maxInt64 : Int := 9223372036854775807

/-- SQLite's smallest integer, -2^63. -/
def minInt64 : Int := -9223372036854775808

namespace SqlValue

/-- Integers and reals are compared by the number they stand for. -/
def canon : SqlValue → SqlValue
  | .integer i => .real i
  | v => v

/-- SQL's `IS`: two NULLs are the same, numbers are compared as numbers. -/
def Is (v w : SqlValue) : Prop :=
  v.canon = w.canon

/-- SQL's `=` gives true: never on a NULL. -/
def Eq (v w : SqlValue) : Prop :=
  v ≠ .null ∧ v.canon = w.canon

/-- SQL's `!=` gives true: never on a NULL. -/
def Ne (v w : SqlValue) : Prop :=
  v ≠ .null ∧ w ≠ .null ∧ v.canon ≠ w.canon

instance (v w : SqlValue) : Decidable (Is v w) :=
  inferInstanceAs (Decidable (_ = _))

instance (v w : SqlValue) : Decidable (Eq v w) :=
  inferInstanceAs (Decidable (_ ∧ _))

instance (v w : SqlValue) : Decidable (Ne v w) :=
  inferInstanceAs (Decidable (_ ∧ _))

theorem canon_eq_null_iff {v : SqlValue} : v.canon = .null ↔ v = .null := by
  cases v <;> simp [canon]

end SqlValue

/-! ## Keys -/

/-- The values of the primary key columns, in primary key order. -/
abbrev Key := List SqlValue

/-- What a unique index tells two keys apart by; a key with a NULL conflicts
with no key. -/
def keyClass (key : Key) : Option (List SqlValue) :=
  if SqlValue.null ∈ key then none else some (key.map SqlValue.canon)

theorem keyClass_eq_none_iff {key : Key} :
    keyClass key = none ↔ SqlValue.null ∈ key := by
  simp [keyClass]

/-- The class of a key is that of its values. -/
theorem keyClass_eq_some_iff {key : Key} {c : List SqlValue} :
    keyClass key = some c ↔ SqlValue.null ∉ key ∧ key.map SqlValue.canon = c := by
  simp [keyClass]

/-! ## SQLite's numbers -/

/-- The text of a finite real: optional sign, digits, a point, digits and an
optional exponent. -/
def RealShape (t : Text) : Prop :=
  ∃ sign ip fp ex : Text,
    t = sign ++ ip ++ '.' :: fp ++ ex ∧
    (sign = [] ∨ sign = ['-']) ∧
    ip ≠ [] ∧ (∀ c ∈ ip, c.isDigit = true) ∧
    fp ≠ [] ∧ (∀ c ∈ fp, c.isDigit = true) ∧
    (ex = [] ∨ ∃ s ds, ex = 'e' :: s :: ds ∧ (s = '-' ∨ s = '+') ∧
      ds ≠ [] ∧ ∀ c ∈ ds, c.isDigit = true)

/-- What the extension uses of SQLite and does not contain itself: how doubles
are printed and read, what a lookup with unchecked key text finds, and how a
value converts to an integer and to bytes. -/
class Sqlite where
  /-- The rationals that are finite doubles. -/
  isDouble : ℚ → Prop
  /-- `%!.15g`, or `%!.20e` where that does not read back as the same double. -/
  printReal : ℚ → Text
  /-- The value of a numeric literal that is not a 64-bit integer. -/
  readReal : Text → SqlValue
  /-- The count that `"pk" = text AND __crsql_col_name = '__crsql_del'` gives
  over the keys and column names of a clock table when the text is not a
  literal; none when the statement fails. -/
  rawDeleteCount : Text → List (Key × Text) → Option Nat
  /-- `sqlite3_value_int64`. -/
  valueInt64 : SqlValue → Int
  /-- `sqlite3_value_blob`, with `sqlite3_value_bytes` bytes. -/
  valueBlob : SqlValue → Blob
  printReal_shape : ∀ q, isDouble q → RealShape (printReal q)
  readReal_printReal : ∀ q, isDouble q → readReal (printReal q) = .real q
  valueInt64_integer : ∀ i, valueInt64 (.integer i) = i
  valueBlob_blob : ∀ b, valueBlob (.blob b) = b

/-! ## Printing -/

/-- Double every single quote. -/
def escape : Text → Text
  | [] => []
  | c :: t => if c = apostrophe then c :: c :: escape t else c :: escape t

/-- One hexadecimal digit, as `quote()` prints it. -/
def hexDigit (n : Nat) : Char :=
  if n < 10 then Char.ofNat (48 + n) else Char.ofNat (55 + n)

/-- Two hexadecimal digits for each byte. -/
def hexText : Blob → Text
  | [] => []
  | b :: bs => hexDigit (b.toNat / 16) :: hexDigit (b.toNat % 16) :: hexText bs

/-- A decimal integer. -/
def printInt : Int → Text
  | .ofNat n => Nat.toDigits 10 n
  | .negSucc n => '-' :: Nat.toDigits 10 (n + 1)

/-- SQLite's `quote()`.  A text is printed up to its first NUL byte. -/
def quote [Sqlite] : SqlValue → Text
  | .null => ['N', 'U', 'L', 'L']
  | .integer i => printInt i
  | .real q => Sqlite.printReal q
  | .inf negative => if negative then ['-', 'I', 'n', 'f'] else ['I', 'n', 'f']
  | .text t => apostrophe :: escape (t.takeWhile fun c => c ≠ nul) ++ [apostrophe]
  | .blob b => 'X' :: apostrophe :: hexText b ++ [apostrophe]

/-! ## Reading -/

/-- The inside of a string literal: doubled quotes are one, and the single
quote that ends the literal must be the last character. -/
def readString : Text → Option Text
  | [] => none
  | [c] => if c = apostrophe then some [] else none
  | c :: d :: t =>
      if c = apostrophe then
        if d = apostrophe then (readString t).map (c :: ·) else none
      else (readString (d :: t)).map (c :: ·)

/-- The value of a hexadecimal digit. -/
def hexValue (c : Char) : Option Nat :=
  if '0' ≤ c ∧ c ≤ '9' then some (c.toNat - 48)
  else if 'A' ≤ c ∧ c ≤ 'F' then some (c.toNat - 55)
  else if 'a' ≤ c ∧ c ≤ 'f' then some (c.toNat - 87)
  else none

/-- The inside of a blob literal up to the quote that ends it. -/
def readHex : Text → Option Blob
  | [c] => if c = apostrophe then some [] else none
  | h :: l :: t =>
      match hexValue h, hexValue l with
      | some h, some l => (readHex t).map (UInt8.ofNat (16 * h + l) :: ·)
      | _, _ => none
  | [] => none

/-- An exponent of a numeric literal, without the letter. -/
def isExponent (t : Text) : Bool :=
  let ds := match t with
    | '-' :: ds => ds
    | '+' :: ds => ds
    | ds => ds
  ds ≠ [] && ds.all Char.isDigit

/-- An unsigned numeric literal with a point or an exponent. -/
def isRealLiteral (t : Text) : Bool :=
  let ip := t.takeWhile Char.isDigit
  let rest := t.dropWhile Char.isDigit
  let fp := match rest with
    | '.' :: r => r.takeWhile Char.isDigit
    | _ => []
  let ex := match rest with
    | '.' :: r => r.dropWhile Char.isDigit
    | r => r
  (ip ≠ [] || fp ≠ []) &&
    match ex with
    | [] => true
    | 'e' :: r => isExponent r
    | _ => false

/-- An optionally signed numeric literal. -/
def readNumber [Sqlite] (t : Text) : Option SqlValue :=
  let neg := t.head? = some '-'
  let body := if neg then t.tail else t
  if body ≠ [] ∧ body.all Char.isDigit then
    let n : Int := Nat.ofDigitChars 10 body 0
    let i := if neg then -n else n
    if minInt64 ≤ i ∧ i ≤ maxInt64 then some (.integer i)
    else some (Sqlite.readReal t)
  else if isRealLiteral body then some (Sqlite.readReal t)
  else none

/-- The keyword NULL, in any case. -/
def isNullKeyword : Text → Bool
  | [n, u, l, m] =>
      (n = 'N' || n = 'n') && (u = 'U' || u = 'u') &&
        (l = 'L' || l = 'l') && (m = 'L' || m = 'l')
  | _ => false

/-- The constant that SQL reads a literal as, none when the text is not one
literal.  A bare word such as `Inf` names no column and is an error. -/
def readLiteral [Sqlite] (t : Text) : Option SqlValue :=
  if isNullKeyword t then some .null
  else match t with
    | [] => none
    | c :: r =>
        if c = apostrophe then (readString r).map .text
        else if c = 'X' then
          match r with
          | [] => none
          | d :: r => if d = apostrophe then (readHex r).map .blob else none
        else readNumber t

/-! ## Printed values are read back -/

/-- The values a column can hold: integers of 64 bits and finite doubles, and
everything that is not a finite number. -/
def Storable [Sqlite] : SqlValue → Prop
  | .integer i => minInt64 ≤ i ∧ i ≤ maxInt64
  | .real q => Sqlite.isDouble q
  | _ => True

/-- The values that survive printing: 64-bit integers, finite doubles and texts
without NUL bytes. -/
def Quotable [Sqlite] : SqlValue → Prop
  | .null => True
  | .integer i => minInt64 ≤ i ∧ i ≤ maxInt64
  | .real q => Sqlite.isDouble q
  | .inf _ => False
  | .text t => nul ∉ t
  | .blob _ => True

/-- A value a column holds survives printing unless it is an infinity or a text
with a NUL byte. -/
theorem quotable_iff [Sqlite] {v : SqlValue} : Quotable v ↔
    Storable v ∧ (∀ n, v ≠ .inf n) ∧ ∀ t, v = .text t → nul ∉ t := by
  cases v <;> simp [Quotable, Storable]

/-- A text whose quotes were doubled is read back. -/
private theorem readString_escape (t : Text) :
    readString (escape t ++ [apostrophe]) = some t := by
  induction t with
  | nil => rfl
  | cons c t ih =>
      obtain ⟨d, u, hu⟩ : ∃ d u, escape t ++ [apostrophe] = d :: u :=
        List.exists_cons_of_ne_nil (by simp)
      by_cases hc : c = apostrophe
      · rw [escape, if_pos hc, List.cons_append, List.cons_append, readString,
          if_pos hc, if_pos hc, ih, Option.map_some]
      · rw [escape, if_neg hc, List.cons_append, hu, readString, if_neg hc, ← hu,
          ih, Option.map_some]

private theorem hexValue_hexDigit {n : Nat} (hn : n < 16) :
    hexValue (hexDigit n) = some n := by
  interval_cases n <;> rfl

/-- A blob in digits is read back. -/
private theorem readHex_hexText (b : Blob) :
    readHex (hexText b ++ [apostrophe]) = some b := by
  induction b with
  | nil => rfl
  | cons x b ih =>
      have hx : x.toNat < 256 := x.toNat_lt
      have hhi := hexValue_hexDigit (show x.toNat / 16 < 16 by omega)
      have hlo := hexValue_hexDigit (show x.toNat % 16 < 16 by omega)
      have hval : 16 * (x.toNat / 16) + x.toNat % 16 = x.toNat := by omega
      simp only [hexText, List.cons_append, readHex, hhi, hlo, ih, hval,
        UInt8.ofNat_toNat, Option.map_some]

/-- A text of such characters is taken as a whole. -/
private theorem takeWhile_eq_self {p : Char → Bool} {t : Text}
    (ht : ∀ c ∈ t, p c = true) : t.takeWhile p = t := by
  have h : (t ++ []).takeWhile p = t ++ [].takeWhile p := List.takeWhile_append_of_pos ht
  simpa using h

/-- A digit is no other character. -/
theorem ne_of_isDigit {c d : Char} (hc : c.isDigit = true)
    (hd : d.isDigit = false) : c ≠ d := by
  rintro rfl
  simp [hc] at hd

/-- What does not begin with an N is not the word NULL. -/
private theorem isNullKeyword_cons {c : Char} {t : Text} (h : c ≠ 'N')
    (h' : c ≠ 'n') : isNullKeyword (c :: t) = false := by
  unfold isNullKeyword
  split
  · rename_i heq
    rw [List.cons_eq_cons] at heq
    simp [← heq.1, h, h']
  · rfl

section Numbers

variable [Sqlite]

/-- A text that begins with a digit or a minus sign is read as a number. -/
private theorem readLiteral_of_number {c : Char} {t : Text}
    (hc : c.isDigit = true ∨ c = '-') :
    readLiteral (c :: t) = readNumber (c :: t) := by
  have hne : ∀ d : Char, d.isDigit = false → d ≠ '-' → c ≠ d := by
    intro d hd hm
    rcases hc with hc | rfl
    · exact ne_of_isDigit hc hd
    · exact hm.symm
  have hnull := isNullKeyword_cons (t := t) (hne 'N' (by decide) (by decide))
    (hne 'n' (by decide) (by decide))
  have hq : c ≠ apostrophe := hne apostrophe (by decide) (by decide)
  have hx : c ≠ 'X' := hne 'X' (by decide) (by decide)
  simp [readLiteral, hnull, hq, hx]

omit [Sqlite] in
private theorem isDigit_of_mem {n : Nat} {c : Char} (hc : c ∈ Nat.toDigits 10 n) :
    c.isDigit = true :=
  Nat.isDigit_of_mem_toDigits (by decide) (by decide) hc

/-- A printed number is read back. -/
private theorem readNumber_nat {n : Nat} (hn : (n : Int) ≤ maxInt64) :
    readNumber (Nat.toDigits 10 n) = some (.integer n) := by
  have hall := List.all_eq_true.mpr fun c (hc : c ∈ Nat.toDigits 10 n) =>
    isDigit_of_mem hc
  have hne : Nat.toDigits 10 n ≠ [] := Nat.toDigits_ne_nil
  have hneg : (Nat.toDigits 10 n).head? ≠ some '-' := fun h =>
    ne_of_isDigit (isDigit_of_mem (List.mem_of_head? h)) (by decide) rfl
  have hlow : minInt64 ≤ (n : Int) := by
    unfold minInt64
    omega
  simp [readNumber, hneg, hne, hall, Nat.ofDigitChars_ten_toDigits, hlow, hn]

/-- A printed number with a minus sign is read back. -/
private theorem readNumber_neg {n : Nat} (hn : minInt64 ≤ -(n : Int)) :
    readNumber ('-' :: Nat.toDigits 10 n) = some (.integer (-n)) := by
  have hall := List.all_eq_true.mpr fun c (hc : c ∈ Nat.toDigits 10 n) =>
    isDigit_of_mem hc
  have hne : Nat.toDigits 10 n ≠ [] := Nat.toDigits_ne_nil
  have hhigh : -(n : Int) ≤ maxInt64 := by
    unfold maxInt64
    omega
  simp [readNumber, hne, hall, Nat.ofDigitChars_ten_toDigits, hn, hhigh]

/-- A printed integer is read back. -/
private theorem readLiteral_printInt {i : Int} (hlo : minInt64 ≤ i)
    (hhi : i ≤ maxInt64) : readLiteral (printInt i) = some (.integer i) := by
  cases i with
  | ofNat n =>
      obtain ⟨c, t, ht⟩ := List.exists_cons_of_ne_nil (@Nat.toDigits_ne_nil n 10)
      have hc : c.isDigit = true := isDigit_of_mem (n := n) (by simp [ht])
      rw [printInt, ht, readLiteral_of_number (Or.inl hc), ← ht]
      exact readNumber_nat hhi
  | negSucc n =>
      rw [printInt, readLiteral_of_number (Or.inr rfl)]
      exact readNumber_neg hlo

omit [Sqlite] in
/-- A sign and digits are an exponent. -/
private theorem isExponent_of_digits {s : Char} {ds : Text} (hs : s = '-' ∨ s = '+')
    (hne : ds ≠ []) (hds : ∀ c ∈ ds, c.isDigit = true) :
    isExponent (s :: ds) = true := by
  rcases hs with rfl | rfl <;> simpa [isExponent, hne] using hds

omit [Sqlite] in
/-- Digits are taken up to the first other character. -/
private theorem span_digits {ds : Text} {c : Char} {r : Text}
    (hds : ∀ c ∈ ds, c.isDigit = true) (hc : c.isDigit = false) :
    (ds ++ c :: r).takeWhile Char.isDigit = ds ∧
      (ds ++ c :: r).dropWhile Char.isDigit = c :: r := by
  rw [List.takeWhile_append_of_pos hds, List.dropWhile_append_of_pos hds]
  simp [hc]

omit [Sqlite] in
/-- Digits are taken as a whole. -/
private theorem span_all_digits {ds : Text} (hds : ∀ c ∈ ds, c.isDigit = true) :
    ds.takeWhile Char.isDigit = ds ∧ ds.dropWhile Char.isDigit = [] := by
  constructor
  · exact takeWhile_eq_self hds
  · have h : (ds ++ []).dropWhile Char.isDigit = [].dropWhile Char.isDigit :=
      List.dropWhile_append_of_pos hds
    simpa using h

omit [Sqlite] in
/-- Digits, a point, digits and an exponent are a real literal. -/
private theorem isRealLiteral_of_shape {ip fp ex : Text} (hne : ip ≠ [])
    (hip : ∀ c ∈ ip, c.isDigit = true) (hfp : ∀ c ∈ fp, c.isDigit = true)
    (hex : ex = [] ∨ ∃ s ds, ex = 'e' :: s :: ds ∧ (s = '-' ∨ s = '+') ∧
      ds ≠ [] ∧ ∀ c ∈ ds, c.isDigit = true) :
    isRealLiteral (ip ++ '.' :: (fp ++ ex)) = true := by
  obtain ⟨ht, hd⟩ := span_digits (r := fp ++ ex) hip
    (show ('.').isDigit = false by decide)
  rcases hex with rfl | ⟨s, ds, rfl, hs, hds, hdig⟩
  · obtain ⟨ht', hd'⟩ := span_all_digits hfp
    simp only [List.append_nil] at ht hd ⊢
    simp only [isRealLiteral, ht, hd, ht', hd']
    simp [hne]
  · obtain ⟨ht', hd'⟩ := span_digits (r := s :: ds) hfp
      (show ('e').isDigit = false by decide)
    simp only [isRealLiteral, ht, hd, ht', hd', isExponent_of_digits hs hds hdig]
    simp [hne]

/-- A text of the shape of a real is read as one. -/
private theorem readLiteral_of_shape {t : Text} (ht : RealShape t) :
    readLiteral t = some (Sqlite.readReal t) := by
  obtain ⟨sign, ip, fp, ex, rfl, hsign, hne, hip, -, hfp, hex⟩ := ht
  have hreal := isRealLiteral_of_shape hne hip hfp hex
  have hpoint : (ip ++ '.' :: (fp ++ ex)).all Char.isDigit = false := by
    simp [show ('.').isDigit = false by decide]
  obtain ⟨c, r, rfl⟩ := List.exists_cons_of_ne_nil hne
  have hc : c.isDigit = true := hip c (by simp)
  rcases hsign with rfl | rfl
  · have hm : c ≠ '-' := ne_of_isDigit hc (by decide)
    simp only [List.nil_append, List.append_assoc, List.cons_append] at *
    rw [readLiteral_of_number (Or.inl hc)]
    simp [readNumber, hm, hpoint, hreal]
  · simp only [List.append_assoc, List.cons_append, List.nil_append] at *
    rw [readLiteral_of_number (Or.inr rfl)]
    simp [readNumber, hpoint, hreal]

end Numbers

/-- What `quote()` prints is read back as the value it was printed from. -/
theorem readLiteral_quote [Sqlite] {v : SqlValue} (hv : Quotable v) :
    readLiteral (quote v) = some v := by
  cases v with
  | null => rfl
  | integer i => exact readLiteral_printInt hv.1 hv.2
  | real q =>
      rw [quote, readLiteral_of_shape (Sqlite.printReal_shape q hv),
        Sqlite.readReal_printReal q hv]
  | inf negative => exact hv.elim
  | text t =>
      have hall : t.takeWhile (fun c => c ≠ nul) = t := takeWhile_eq_self fun c hc =>
        decide_eq_true fun h : c = nul => hv (h ▸ hc)
      have hnull : isNullKeyword (apostrophe :: (escape t ++ [apostrophe])) = false :=
        isNullKeyword_cons (by decide) (by decide)
      simp only [quote, hall, List.cons_append, readLiteral, hnull]
      simp [readString_escape]
  | blob b =>
      have hnull : isNullKeyword ('X' :: apostrophe :: (hexText b ++ [apostrophe])) =
          false := isNullKeyword_cons (by decide) (by decide)
      have hx : 'X' ≠ apostrophe := by decide
      simp only [quote, List.cons_append, readLiteral, hnull]
      simp [hx, readHex_hexText]

/-- Values that survive printing are told apart by their printed text. -/
theorem quote_injective [Sqlite] {v w : SqlValue} (hv : Quotable v)
    (hw : Quotable w) (h : quote v = quote w) : v = w := by
  have hread := readLiteral_quote hv
  rw [h, readLiteral_quote hw] at hread
  exact (Option.some.inj hread).symm

/-! ## A concrete printing of reals -/

/-- A signed decimal integer. -/
def readInt (t : Text) : Int :=
  if t.head? = some '-' then -(Nat.ofDigitChars 10 t.tail 0 : Int)
  else (Nat.ofDigitChars 10 t 0 : Int)

/-- A printed integer is read back from its digits. -/
private theorem readInt_printInt (i : Int) : readInt (printInt i) = i := by
  cases i with
  | ofNat n =>
      have hneg : (Nat.toDigits 10 n).head? ≠ some '-' := fun h =>
        ne_of_isDigit (isDigit_of_mem (List.mem_of_head? h)) (by decide) rfl
      simp [readInt, printInt, hneg, Nat.ofDigitChars_ten_toDigits]
  | negSucc n =>
      simp [readInt, printInt, Nat.ofDigitChars_ten_toDigits, Int.negSucc_eq]

/-- A printed integer with a point and a zero has the shape of a real. -/
private theorem realShape_printInt (i : Int) : RealShape (printInt i ++ ['.', '0']) := by
  have hdigits : ∀ n : Nat, ∀ c ∈ Nat.toDigits 10 n, c.isDigit = true := fun n c hc =>
    isDigit_of_mem hc
  cases i with
  | ofNat n =>
      exact ⟨[], Nat.toDigits 10 n, ['0'], [], by simp [printInt], Or.inl rfl,
        Nat.toDigits_ne_nil, hdigits n, by simp, by simp, Or.inl rfl⟩
  | negSucc n =>
      exact ⟨['-'], Nat.toDigits 10 (n + 1), ['0'], [], by simp [printInt], Or.inr rfl,
        Nat.toDigits_ne_nil, hdigits (n + 1), by simp, by simp, Or.inl rfl⟩

/-- The digits of a printed integer end at the point. -/
private theorem takeWhile_printInt (i : Int) :
    (printInt i ++ ['.', '0']).takeWhile (fun c => c ≠ '.') = printInt i := by
  have hall : ∀ c ∈ printInt i, decide (c ≠ '.') = true := by
    intro c hc
    rw [decide_eq_true_eq]
    cases i with
    | ofNat n => exact ne_of_isDigit (isDigit_of_mem hc) (by decide)
    | negSucc n =>
        rcases List.mem_cons.mp hc with rfl | hc
        · decide
        · exact ne_of_isDigit (isDigit_of_mem hc) (by decide)
  rw [List.takeWhile_append_of_pos hall]
  simp

/-- SQLite as far as it handles doubles without a fraction, which it prints with
the digits `.0`; unchecked key text is an error, and only integers and blobs are
converted.  It serves to run the model. -/
@[reducible]
def integralSqlite : Sqlite where
  isDouble q := q.den = 1
  printReal q := printInt q.num ++ ['.', '0']
  readReal t := .real (readInt (t.takeWhile fun c => c ≠ '.') : Int)
  rawDeleteCount _ _ := none
  valueInt64
    | .integer i => i
    | _ => 0
  valueBlob
    | .blob b => b
    | _ => []
  printReal_shape q _ := realShape_printInt q.num
  readReal_printReal q hq := by
    rw [takeWhile_printInt, readInt_printInt, Rat.coe_int_num_of_den_eq_one hq]
  valueInt64_integer _ := rfl
  valueBlob_blob _ := rfl

/-! ## How a literal ends -/

/-- A string literal ends with a quote. -/
private theorem readString_getLast {t s : Text} (h : readString t = some s) :
    t.getLast? = some apostrophe := by
  fun_induction readString t generalizing s with
  | case1 => cases h
  | case2 => rfl
  | case3 c hc => cases h
  | case4 t ih =>
      obtain ⟨u, hu, -⟩ := Option.map_eq_some_iff.mp h
      have hlast := ih hu
      cases t with
      | nil => cases hlast
      | cons e t => simpa using hlast
  | case5 d t hd => cases h
  | case6 c d t hc ih =>
      obtain ⟨u, hu, -⟩ := Option.map_eq_some_iff.mp h
      have hlast := ih hu
      simpa using hlast

/-- A blob literal ends with a quote. -/
private theorem readHex_getLast {t : Text} {b : Blob} (h : readHex t = some b) :
    t.getLast? = some apostrophe := by
  fun_induction readHex t generalizing b with
  | case1 => rfl
  | case2 c hc => cases h
  | case3 x y t m n hm hn ih =>
      obtain ⟨u, hu, -⟩ := Option.map_eq_some_iff.mp h
      have hlast := ih hu
      cases t with
      | nil => cases hlast
      | cons e t => simpa using hlast
  | case4 => cases h
  | case5 => cases h

/-- Digits hold no other character. -/
private theorem not_mem_of_digits {c : Char} (hc : c.isDigit = false) {t : Text}
    (ht : t.all Char.isDigit = true) : c ∉ t := by
  intro hmem
  rw [List.all_eq_true.mp ht c hmem] at hc
  cases hc

/-- There is no bar in an exponent. -/
private theorem bar_notMem_of_isExponent {t : Text} (h : isExponent t = true) : '|' ∉ t := by
  have hbar : Char.isDigit '|' = false := by decide
  unfold isExponent at h
  dsimp only at h
  split at h
  · rename_i ds
    rw [Bool.and_eq_true] at h
    simpa using not_mem_of_digits hbar h.2
  · rename_i ds
    rw [Bool.and_eq_true] at h
    simpa using not_mem_of_digits hbar h.2
  · rw [Bool.and_eq_true] at h
    exact not_mem_of_digits hbar h.2

private theorem bar_notMem_takeWhile (t : Text) : '|' ∉ t.takeWhile Char.isDigit := by
  exact not_mem_of_digits (by decide) List.all_takeWhile

/-- There is no bar in a real literal. -/
private theorem bar_notMem_of_isRealLiteral {t : Text} (h : isRealLiteral t = true) : '|' ∉ t := by
  have hexp : ∀ ex : Text, (match ex with
      | [] => true
      | 'e' :: r => isExponent r
      | _ => false) = true → '|' ∉ ex := by
    intro ex hex
    split at hex
    · simp
    · simpa using bar_notMem_of_isExponent hex
    · cases hex
  have hip := bar_notMem_takeWhile t
  rw [isRealLiteral, Bool.and_eq_true] at h
  have hex := hexp _ h.2
  rw [← List.takeWhile_append_dropWhile (p := Char.isDigit) (l := t), List.mem_append, not_or]
  refine ⟨hip, ?_⟩
  generalize t.dropWhile Char.isDigit = rest at hex
  split at hex
  · rename_i r
    have hfp := bar_notMem_takeWhile r
    rw [← List.takeWhile_append_dropWhile (p := Char.isDigit) (l := r), List.mem_cons,
      List.mem_append]
    simp [hfp, hex]
  · exact hex

/-- There is no bar in a number. -/
private theorem bar_notMem_of_readNumber [Sqlite] {t : Text} {v : SqlValue}
    (h : readNumber t = some v) : '|' ∉ t := by
  have hbody : '|' ∉ (if t.head? = some '-' then t.tail else t) := by
    unfold readNumber at h
    dsimp only at h
    generalize (if t.head? = some '-' then t.tail else t) = body at h
    by_cases hdig : body ≠ [] ∧ body.all Char.isDigit = true
    · exact not_mem_of_digits (by decide) hdig.2
    · rw [if_neg hdig] at h
      split_ifs at h with hreal
      exact bar_notMem_of_isRealLiteral hreal
  intro hmem
  apply hbody
  split_ifs with hneg
  · obtain ⟨r, rfl⟩ := List.head?_eq_some_iff.mp hneg
    rcases List.mem_cons.mp hmem with hbar | hr
    · exact absurd hbar (by decide)
    · exact hr
  · exact hmem

/-- No literal ends with the delimiter of key texts. -/
theorem getLast_of_readLiteral [Sqlite] {t : Text} {v : SqlValue} (h : readLiteral t = some v) :
    t.getLast? ≠ some '|' := by
  have hap : apostrophe ≠ '|' := by decide
  have hcons : ∀ {c : Char} {r : Text}, r.getLast? = some apostrophe →
      (c :: r).getLast? ≠ some '|' := by
    intro c r hr
    cases r with
    | nil => cases hr
    | cons d r =>
        rw [List.getLast?_cons_cons, hr]
        simpa using hap
  unfold readLiteral at h
  split_ifs at h with hnull
  · unfold isNullKeyword at hnull
    split at hnull
    · rename_i n u l m
      simp only [Bool.and_eq_true, Bool.or_eq_true, decide_eq_true_eq] at hnull
      rcases hnull.2 with rfl | rfl
      · simp
      · simp
    · cases hnull
  · split at h
    · cases h
    · rename_i c r
      split_ifs at h with hc hX
      · obtain ⟨s, hs, -⟩ := Option.map_eq_some_iff.mp h
        exact hcons (readString_getLast hs)
      · split at h
        · cases h
        · rename_i d r
          split_ifs at h with hd
          obtain ⟨b, hb, -⟩ := Option.map_eq_some_iff.mp h
          have hlast := readHex_getLast hb
          rw [List.getLast?_cons_cons]
          exact hcons hlast
      · exact fun hlast => bar_notMem_of_readNumber h (List.mem_of_getLast? hlast)

end CrSqlite
