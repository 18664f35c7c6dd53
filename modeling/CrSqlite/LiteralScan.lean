import CrSqlite.QuoteConcat

/-!
# LiteralScan - what the key scanner takes

The scanner of key texts once more, now over the memory of the C string with
its terminator, so that a read past the terminator is a fault; a grammar of
what the scanner takes for a printed value; and the literals of SQL.

Main results:

- Theorem {lit}`Pointer.splitQuoteConcat_eq`: the scanner never reads past the
  terminator, and finds what the scanner over texts finds.
- Theorem {lit}`splitQuoteConcat_eq_some_iff`: a text is split exactly when it
  falls into the pieces of the scanner's grammar.
- Theorem {lit}`acceptsOnlyLiterals_iff`: the text is split into literals
  unless it slips through the grammar.
-/

namespace CrSqlite

/-! ## The scanner over memory -/

namespace Pointer

/-- The memory of a C string: its bytes and the terminator.  A pointer into it
is what is left from there on, and the empty list lies past the terminator. -/
def memory (t : Text) : Text :=
  t ++ [nul]

/-- `crsql_scanToEndOfLiteral`.  The outer {lit}`none` is a read past the
terminator, the inner one the null pointer. -/
def scanToEndOfLiteral : Text → Option (Option Text)
  | [] => none
  | c :: p =>
      if c = nul then some none
      else if c = apostrophe then
        match p with
        | [] => none
        | d :: q =>
            if d = apostrophe then scanToEndOfLiteral q else some (some (d :: q))
      else scanToEndOfLiteral p

/-- `crsql_safelyAdvanceThroughString`. -/
def safelyAdvanceThroughString : Text → Nat → Option (Option Text)
  | p, 0 => some (some p)
  | [], _ + 1 => none
  | c :: p, len + 1 =>
      if c = nul then some none else safelyAdvanceThroughString p len

/-- The loop of `crsql_consumeDigitsToDelimiter` with its two counters. -/
def consumeDigits (delim : Char) (decimalCount exponentCount : Nat) :
    Text → Option (Option Text)
  | [] => none
  | c :: p =>
      if c = nul ∨ c = delim then some (some (c :: p))
      else if c.isDigit then consumeDigits delim decimalCount exponentCount p
      else if c = '.' then
        if 0 < decimalCount then some none
        else consumeDigits delim (decimalCount + 1) exponentCount p
      else if c = 'e' then
        if 0 < exponentCount then some none
        else
          match p with
          | [] => none
          | s :: q =>
              if s = '-' ∨ s = '+' then
                consumeDigits delim decimalCount (exponentCount + 1) q
              else consumeDigits delim decimalCount (exponentCount + 1) (s :: q)
      else some none

/-- One turn of the loop of `crsql_splitQuoteConcat`, entered at a character
that is not the terminator. -/
def scanPart : Text → Option (Option Text)
  | [] => none
  | c :: p =>
      if c = apostrophe then scanToEndOfLiteral p
      else if c = 'X' then
        match p with
        | [] => none
        | d :: q => if d ≠ apostrophe then some none else scanToEndOfLiteral q
      else if c = 'N' then safelyAdvanceThroughString (c :: p) 4
      else consumeDigits qcDelim 0 0 (if c = '-' then p else c :: p)

/-- Move off a delimiter. -/
def skipDelim : Text → Option Text
  | [] => none
  | c :: p => some (if c = qcDelim then p else c :: p)

/-- The loop of `crsql_splitQuoteConcat`: it stops at the terminator, with all
parts found, or at a null pointer. -/
def splitLoop : Nat → Text → Option (Option (List Text × Text))
  | _, [] => none
  | 0, c :: p => some (some ([], c :: p))
  | n + 1, c :: p =>
      if c = nul then some (some ([], c :: p))
      else
        (scanPart (c :: p)).bind fun
          | none => some none
          | some curr =>
              (skipDelim curr).bind fun last =>
                (splitLoop n last).map fun found =>
                  found.map fun (parts, left) =>
                    ((c :: p).take ((c :: p).length - curr.length) :: parts, left)

/-- `crsql_splitQuoteConcat` on the memory of a C string. -/
def splitQuoteConcat (memory : Text) (partsLen : Nat) : Option (Option (List Text)) :=
  (splitLoop partsLen memory).bind fun
    | none => some none
    | some (_, []) => none
    | some (parts, c :: _) =>
        some (if parts.length ≠ partsLen ∨ c ≠ nul then none else some parts)

/-! ## No read past the terminator -/

private theorem memory_cons (c : Char) (t : Text) : memory (c :: t) = c :: memory t :=
  rfl

/-- The scan to the end of a literal over memory is the one over the text. -/
private theorem scanToEndOfLiteral_eq {t : Text} (ht : nul ∉ t) :
    scanToEndOfLiteral (memory t) = some ((CrSqlite.scanToEndOfLiteral t).map memory) := by
  have hne : nul ≠ apostrophe := by decide
  fun_induction CrSqlite.scanToEndOfLiteral t with
  | case1 => simp [memory, scanToEndOfLiteral]
  | case2 => simp [memory, scanToEndOfLiteral, hne, hne.symm]
  | case3 r ih =>
      have hr := ih fun h => ht (List.mem_cons_of_mem _ (List.mem_cons_of_mem _ h))
      simpa [memory, scanToEndOfLiteral, hne.symm] using hr
  | case4 d r hd => simp [memory, scanToEndOfLiteral, hne.symm, hd]
  | case5 c t hc ih =>
      have hr := ih fun h => ht (List.mem_cons_of_mem _ h)
      have hnul : c ≠ nul := fun h => ht (h ▸ List.mem_cons_self)
      rw [memory_cons, scanToEndOfLiteral.eq_def]
      simpa [hc, hnul] using hr

/-- The guarded advance over memory is the one over the text. -/
private theorem safelyAdvanceThroughString_eq {t : Text} {n : Nat} (ht : nul ∉ t) :
    safelyAdvanceThroughString (memory t) n =
      some ((CrSqlite.safelyAdvanceThroughString t n).map memory) := by
  fun_induction CrSqlite.safelyAdvanceThroughString t n with
  | case1 t => rw [safelyAdvanceThroughString]; rfl
  | case2 => simp [memory, safelyAdvanceThroughString]
  | case3 c t n ih =>
      have hr := ih fun h => ht (List.mem_cons_of_mem _ h)
      have hnul : c ≠ nul := fun h => ht (h ▸ List.mem_cons_self)
      simpa [memory, safelyAdvanceThroughString, hnul] using hr

/-- The scan of a number over memory is the one over the text. -/
private theorem consumeDigits_eq {d e : Nat} {t : Text} (ht : nul ∉ t) :
    consumeDigits qcDelim d e (memory t) =
      some ((CrSqlite.consumeDigits qcDelim d e t).map memory) := by
  have hbar : qcDelim ≠ nul := by decide
  have htail : ∀ {c : Char} {u : Text}, nul ∉ c :: u → nul ∉ u := fun h hu =>
    h (List.mem_cons_of_mem _ hu)
  have hnul : ∀ {c : Char} {u : Text}, nul ∉ c :: u → c ≠ nul := fun h hc =>
    h (hc ▸ List.mem_cons_self)
  fun_induction CrSqlite.consumeDigits qcDelim d e t with
  | case1 => simp [memory, consumeDigits]
  | case2 d e t =>
      rw [memory_cons, consumeDigits.eq_def]
      simp [memory_cons]
  | case3 d e c t hc hdig ih =>
      rw [memory_cons, consumeDigits.eq_def]
      simpa [hnul ht, hc, hdig] using ih (htail ht)
  | case4 d e t hd hc hdig =>
      rw [memory_cons, consumeDigits.eq_def]
      simp [hnul ht, hc, hdig, hd]
  | case5 d e t hd hc hdig ih =>
      rw [memory_cons, consumeDigits.eq_def]
      simpa [hnul ht, hc, hdig, hd] using ih (htail ht)
  | case6 d e t he hc hdig hpoint =>
      rw [memory_cons, consumeDigits.eq_def]
      simp [hnul ht, hc, hdig, hpoint, he]
  | case7 d e he hc hdig hpoint =>
      have hsign : nul ≠ '-' ∧ nul ≠ '+' := by decide
      rw [memory_cons, consumeDigits.eq_def]
      simp [hnul ht, hc, hdig, hpoint, he, hsign, memory, consumeDigits]
  | case8 d e he s r hs hc hdig hpoint ih =>
      rw [memory_cons, memory_cons, consumeDigits.eq_def]
      simpa [hnul ht, hc, hdig, hpoint, he, hs] using ih (htail (htail ht))
  | case9 d e he s r hs hc hdig hpoint ih =>
      rw [memory_cons, memory_cons, consumeDigits.eq_def]
      simpa [hnul ht, hc, hdig, hpoint, he, hs, memory_cons] using ih (htail ht)
  | case10 d e c t hc hdig hpoint he =>
      rw [memory_cons, consumeDigits.eq_def]
      simp [hnul ht, hc, hdig, hpoint, he]

/-- The scan of a part over memory is the one over the text. -/
private theorem scanPart_eq {c : Char} {t : Text} (ht : nul ∉ c :: t) :
    scanPart (memory (c :: t)) = some ((CrSqlite.scanPart (c :: t)).map memory) := by
  have htail : nul ∉ t := fun h => ht (List.mem_cons_of_mem _ h)
  rw [memory_cons, scanPart.eq_def, CrSqlite.scanPart.eq_def]
  dsimp only
  split_ifs with hap hX hN hneg
  · exact scanToEndOfLiteral_eq htail
  · cases t with
    | nil =>
        have hne : nul ≠ apostrophe := by decide
        simp [memory, hne]
    | cons d r =>
        have hr : nul ∉ r := fun h => htail (List.mem_cons_of_mem _ h)
        rw [memory_cons]
        dsimp only
        by_cases hd : d = apostrophe
        · simpa [hd] using scanToEndOfLiteral_eq hr
        · simp [hd]
  · exact safelyAdvanceThroughString_eq ht
  · exact consumeDigits_eq htail
  · exact consumeDigits_eq ht

/-- The step over a delimiter in memory is the one in the text. -/
private theorem skipDelim_eq {t : Text} :
    skipDelim (memory t) = some (memory (CrSqlite.skipDelim t)) := by
  cases t with
  | nil =>
      have hbar : nul ≠ qcDelim := by decide
      simp [memory, skipDelim, CrSqlite.skipDelim, hbar]
  | cons c t =>
      rw [memory_cons, skipDelim, CrSqlite.skipDelim]
      split_ifs
      · rfl
      · rfl

/-- What is left behind a delimiter is the end of the text. -/
private theorem skipDelim_suffix (t : Text) : CrSqlite.skipDelim t <:+ t := by
  cases t with
  | nil => exact List.suffix_refl _
  | cons c t =>
      rw [CrSqlite.skipDelim]
      split_ifs
      · exact List.suffix_cons _ _
      · exact List.suffix_refl _

/-- The loop over memory is the one over the text. -/
private theorem splitLoop_eq {n : Nat} {t : Text} (ht : nul ∉ t) :
    splitLoop n (memory t) = some ((CrSqlite.splitLoop n t).map fun (parts, left) =>
      (parts, memory left)) := by
  induction n generalizing t with
  | zero =>
      cases t with
      | nil => rfl
      | cons c t => rfl
  | succ n ih =>
      cases t with
      | nil => rfl
      | cons c t =>
          have hnul : c ≠ nul := fun h => ht (h ▸ List.mem_cons_self)
          have hpart := scanPart_eq ht
          rw [memory_cons] at hpart
          rw [memory_cons, splitLoop, if_neg hnul, hpart, CrSqlite.splitLoop, Option.bind_some]
          cases hrest : CrSqlite.scanPart (c :: t) with
          | none => rfl
          | some rest =>
              have hleft : nul ∉ CrSqlite.skipDelim rest := fun h =>
                ht ((scanPart_suffix hrest).subset ((skipDelim_suffix rest).subset h))
              have hlen : (memory t).length + 1 - (memory rest).length =
                  t.length + 1 - rest.length := by
                simp only [memory, List.length_append, List.length_cons, List.length_nil]
                omega
              have htake : (c :: memory t).take ((c :: memory t).length - (memory rest).length) =
                  (c :: t).take ((c :: t).length - rest.length) := by
                rw [List.length_cons, hlen, ← memory_cons, memory, List.take_append_of_le_length]
                · rfl
                · simp
              simp only [Option.map_some, skipDelim_eq, Option.bind_some, ih hleft, htake]
              cases CrSqlite.splitLoop n (CrSqlite.skipDelim rest) with
              | none => rfl
              | some found => rfl

/-- The loop leaves an end of the text. -/
private theorem splitLoop_left {n : Nat} {t left : Text} {parts : List Text}
    (h : CrSqlite.splitLoop n t = some (parts, left)) : left <:+ t := by
  induction n generalizing t parts with
  | zero =>
      obtain ⟨-, rfl⟩ := Prod.mk.inj (Option.some.inj h)
      exact List.suffix_refl _
  | succ n ih =>
      cases t with
      | nil =>
          obtain ⟨-, rfl⟩ := Prod.mk.inj (Option.some.inj h)
          exact List.suffix_refl _
      | cons c t =>
          rw [CrSqlite.splitLoop] at h
          obtain ⟨rest, hrest, h⟩ := Option.bind_eq_some_iff.mp h
          obtain ⟨⟨ps, _⟩, hps, h⟩ := Option.map_eq_some_iff.mp h
          obtain ⟨-, rfl⟩ := Prod.mk.inj h
          exact ((ih hps).trans (skipDelim_suffix rest)).trans (scanPart_suffix hrest)

/-- The scanner never reads past the terminator, and it finds what the scanner
over texts finds. -/
theorem splitQuoteConcat_eq {t : Text} (ht : nul ∉ t) (n : Nat) :
    splitQuoteConcat (memory t) n = some (CrSqlite.splitQuoteConcat t n) := by
  rw [splitQuoteConcat, splitLoop_eq ht, CrSqlite.splitQuoteConcat]
  cases hloop : CrSqlite.splitLoop n t with
  | none => rfl
  | some found =>
      obtain ⟨parts, left⟩ := found
      have hleft : nul ∉ left := fun h => ht ((splitLoop_left hloop).subset h)
      cases left with
      | nil => simp [memory]
      | cons c left =>
          have hnul : c ≠ nul := fun h => hleft (h ▸ List.mem_cons_self)
          simp [memory_cons, hnul]

end Pointer

/-! ## What the scanner takes -/

/-- A run of decimal digits, possibly none. -/
def Digits (t : Text) : Prop :=
  ∀ c ∈ t, c.isDigit = true

/-- The inside of a string literal: its quotes are doubled. -/
inductive Doubled : Text → Prop
  | nil : Doubled []
  | quote {t : Text} : Doubled t → Doubled (apostrophe :: apostrophe :: t)
  | char {c : Char} {t : Text} : c ≠ apostrophe → Doubled t → Doubled (c :: t)

/-- A quoted string. -/
def Quoted (p : Text) : Prop :=
  ∃ t, Doubled t ∧ p = apostrophe :: (t ++ [apostrophe])

/-- What the scanner takes behind the digits for an exponent: the letter, a
sign, digits, and a point if the number has none yet. -/
def LooseExponent (pointFree : Prop) (ex : Text) : Prop :=
  ex = [] ∨ ∃ sign ds tail, ex = 'e' :: (sign ++ ds ++ tail) ∧
    (sign = [] ∨ sign = ['-'] ∨ sign = ['+']) ∧ Digits ds ∧
    (tail = [] ∨ pointFree ∧ ∃ ds', tail = '.' :: ds' ∧ Digits ds')

/-- What the scanner takes for a number: digits with at most one point and at
most one exponent letter, wherever they stand. -/
def LooseNumber (p : Text) : Prop :=
  ∃ sign ip point fp ex, p = sign ++ ip ++ point ++ fp ++ ex ∧
    (sign = [] ∨ sign = ['-']) ∧ Digits ip ∧ Digits fp ∧
    (point = ['.'] ∨ point = [] ∧ fp = []) ∧ LooseExponent (point = []) ex

/-- A piece the scanner takes in front of `rest`. -/
inductive Piece : Text → Text → Prop
  | string {p rest : Text} : Quoted p → rest.head? ≠ some apostrophe → Piece p rest
  | hex {p rest : Text} : Quoted p → rest.head? ≠ some apostrophe → Piece ('X' :: p) rest
  | word {a b c : Char} {rest : Text} : Piece ['N', a, b, c] rest
  | number {p rest : Text} : LooseNumber p → AtEnd rest → Piece p rest

/-- A text falls into pieces, each with the note whether a delimiter stands
behind it. -/
inductive Scanned : Text → List (Text × Bool) → Prop
  | nil : Scanned [] []
  | delimited {p rest : Text} {ps : List (Text × Bool)} : Piece p (qcDelim :: rest) →
      Scanned rest ps → Scanned (p ++ qcDelim :: rest) ((p, true) :: ps)
  | abutting {p rest : Text} {ps : List (Text × Bool)} : Piece p rest → p ≠ [] →
      rest.head? ≠ some qcDelim → Scanned rest ps → Scanned (p ++ rest) ((p, false) :: ps)

/-! ## The scanners take the pieces -/

/-- The scan stops behind the first quote that is not doubled. -/
theorem scanToEndOfLiteral_eq_some_iff {t r : Text} :
    scanToEndOfLiteral t = some r ↔
      ∃ u, Doubled u ∧ t = u ++ apostrophe :: r ∧ r.head? ≠ some apostrophe := by
  constructor
  · intro h
    fun_induction scanToEndOfLiteral t with
    | case1 => cases h
    | case2 =>
        obtain rfl := Option.some.inj h
        exact ⟨[], .nil, rfl, by simp⟩
    | case3 t ih =>
        obtain ⟨u, hu, rfl, hr⟩ := ih h
        exact ⟨_, .quote hu, rfl, hr⟩
    | case4 d t hd =>
        obtain rfl := Option.some.inj h
        exact ⟨[], .nil, rfl, by simpa using hd⟩
    | case5 c t hc ih =>
        obtain ⟨u, hu, rfl, hr⟩ := ih h
        exact ⟨_, .char hc hu, rfl, hr⟩
  · rintro ⟨u, hu, rfl, hr⟩
    induction hu with
    | nil =>
        cases r with
        | nil => rfl
        | cons d r =>
            have hd : d ≠ apostrophe := by simpa using hr
            simp [scanToEndOfLiteral, hd]
    | quote _ ih => exact (scanToEndOfLiteral_doubled).trans ih
    | char hc _ ih => exact (scanToEndOfLiteral_of_ne hc).trans ih

/-- The advance takes the number of characters that it is told, whatever they are. -/
theorem safelyAdvanceThroughString_eq_some_iff {t r : Text} {n : Nat} :
    safelyAdvanceThroughString t n = some r ↔ ∃ w, w.length = n ∧ t = w ++ r := by
  constructor
  · intro h
    fun_induction safelyAdvanceThroughString t n with
    | case1 =>
        obtain rfl := Option.some.inj h
        exact ⟨[], rfl, rfl⟩
    | case2 => cases h
    | case3 c t n ih =>
        obtain ⟨w, rfl, rfl⟩ := ih h
        exact ⟨c :: w, rfl, rfl⟩
  · rintro ⟨w, rfl, rfl⟩
    induction w with
    | nil =>
        rw [safelyAdvanceThroughString.eq_def]
        rfl
    | cons c w ih => exact ih

/-- What the digit loop takes from the state with its two counters. -/
private def LooseTail (d e : Nat) (p : Text) : Prop :=
  ∃ ip point fp ex, p = ip ++ point ++ fp ++ ex ∧ Digits ip ∧ Digits fp ∧
    (point = ['.'] ∧ d = 0 ∨ point = [] ∧ fp = []) ∧
    (ex = [] ∨ e = 0 ∧ LooseExponent (point = [] ∧ d = 0) ex)

theorem digits_nil : Digits [] := fun _ h => absurd h List.not_mem_nil

/-- A digit in front of digits. -/
private theorem digits_cons {c : Char} {t : Text} (hc : c.isDigit = true) (ht : Digits t) :
    Digits (c :: t) := by
  intro x hx
  rcases List.mem_cons.mp hx with rfl | hx
  · exact hc
  · exact ht x hx

private theorem looseTail_nil {d e : Nat} : LooseTail d e [] :=
  ⟨[], [], [], [], rfl, digits_nil, digits_nil, Or.inr ⟨rfl, rfl⟩, Or.inl rfl⟩

/-- A tail behind an exponent mark, with a sign or without, is a tail before it. -/
private theorem looseTail_exponent {d : Nat} {sign p : Text}
    (hsign : sign = [] ∨ sign = ['-'] ∨ sign = ['+']) (hp : LooseTail d 1 p) :
    LooseTail d 0 ('e' :: (sign ++ p)) := by
  obtain ⟨ip, point, fp, ex, rfl, hip, hfp, hpoint, hex⟩ := hp
  have hex : ex = [] := hex.elim id fun h => absurd h.1 (by omega)
  subst hex
  refine ⟨[], [], [], _, rfl, digits_nil, digits_nil, Or.inr ⟨rfl, rfl⟩, Or.inr ⟨rfl, Or.inr
    ⟨sign, ip, point ++ fp, by simp, hsign, hip, ?_⟩⟩⟩
  rcases hpoint with ⟨rfl, hd⟩ | ⟨rfl, rfl⟩
  · exact Or.inr ⟨⟨rfl, hd⟩, fp, rfl, hfp⟩
  · exact Or.inl rfl

/-- What the scan of a number takes has the loose shape, up to a delimiter or the end. -/
private theorem looseTail_of_consumeDigits {d e : Nat} {t r : Text}
    (h : consumeDigits qcDelim d e t = some r) :
    ∃ p, t = p ++ r ∧ AtEnd r ∧ LooseTail d e p := by
  fun_induction consumeDigits qcDelim d e t with
  | case1 =>
      obtain rfl := Option.some.inj h
      exact ⟨[], rfl, Or.inl rfl, looseTail_nil⟩
  | case2 d e t =>
      obtain rfl := Option.some.inj h
      exact ⟨[], rfl, Or.inr ⟨t, rfl⟩, looseTail_nil⟩
  | case3 d e c t hc hdig ih =>
      obtain ⟨p, rfl, hr, ip, point, fp, ex, rfl, hip, hrest⟩ := ih h
      exact ⟨_, rfl, hr, c :: ip, point, fp, ex, rfl, digits_cons hdig hip, hrest⟩
  | case4 => cases h
  | case5 d e t hc hdig hd ih =>
      obtain ⟨p, rfl, hr, ip, point, fp, ex, rfl, hip, -, hpoint, hex⟩ := ih h
      obtain ⟨rfl, rfl⟩ := hpoint.resolve_left fun hp => absurd hp.2 (by omega)
      refine ⟨'.' :: (ip ++ ex), by simp, hr, [], ['.'], ip, ex, by simp, digits_nil, hip,
        Or.inl ⟨rfl, by omega⟩, hex.imp_right ?_⟩
      rintro ⟨he, hex⟩
      refine ⟨he, hex.imp_right ?_⟩
      rintro ⟨sign, ds, tail, hex, hsign, hds, htail⟩
      exact ⟨sign, ds, tail, hex, hsign, hds,
        Or.inl (htail.resolve_right fun hp => absurd hp.1.2 (by omega))⟩
  | case6 => cases h
  | case7 d e he =>
      obtain rfl := Option.some.inj h
      obtain rfl : e = 0 := by omega
      have htail : LooseTail d 0 ('e' :: ([] ++ [])) :=
        looseTail_exponent (Or.inl rfl) looseTail_nil
      exact ⟨['e'], rfl, Or.inl rfl, htail⟩
  | case8 d e he s t hs hc hdig hpoint ih =>
      obtain ⟨p, rfl, hr, hp⟩ := ih h
      obtain rfl : e = 0 := by omega
      refine ⟨'e' :: ([s] ++ p), rfl, hr, looseTail_exponent ?_ hp⟩
      rcases hs with rfl | rfl
      · exact Or.inr (Or.inl rfl)
      · exact Or.inr (Or.inr rfl)
  | case9 d e he s t hs hc hdig hpoint ih =>
      obtain ⟨p, hp, hr, htail⟩ := ih h
      obtain rfl : e = 0 := by omega
      exact ⟨'e' :: ([] ++ p), by rw [hp]; rfl, hr, looseTail_exponent (Or.inl rfl) htail⟩
  | case10 => cases h

/-- The mark of the exponent is taken once, where no sign is in front. -/
private theorem consumeDigits_letter {d : Nat} {t : Text} (ht : t.head? ≠ some '-')
    (ht' : t.head? ≠ some '+') :
    consumeDigits qcDelim d 0 ('e' :: t) = consumeDigits qcDelim d 1 t := by
  rw [consumeDigits.eq_def]
  cases t with
  | nil => rfl
  | cons s t =>
      have hs : ¬(s = '-' ∨ s = '+') := by
        rintro (rfl | rfl)
        · exact ht rfl
        · exact ht' rfl
      simp only [hs, if_false]
      rfl

/-- Digits, with a point if there was none, are taken up to the end of the part. -/
private theorem consumeDigits_tail {d : Nat} {ds tail r : Text} (hds : Digits ds)
    (htail : tail = [] ∨ d = 0 ∧ ∃ ds', tail = '.' :: ds' ∧ Digits ds') (hr : AtEnd r) :
    consumeDigits qcDelim d 1 (ds ++ (tail ++ r)) = some r := by
  rw [consumeDigits_digits hds]
  rcases htail with rfl | ⟨rfl, ds', rfl, hds'⟩
  · exact consumeDigits_atEnd hr
  · rw [List.cons_append, consumeDigits_point, consumeDigits_digits hds']
    exact consumeDigits_atEnd hr

/-- A tail of digits does not begin with another character. -/
private theorem head?_ne_of_tail {ds tail r : Text} {s : Char} (hdigit : s.isDigit = false)
    (hpoint : s ≠ '.') (hbar : s ≠ qcDelim) (hds : Digits ds)
    (htail : tail = [] ∨ ∃ ds', tail = '.' :: ds') (hr : AtEnd r) :
    (ds ++ (tail ++ r)).head? ≠ some s := by
  cases ds with
  | cons c ds =>
      have hc : c ≠ s := ne_of_isDigit (hds c List.mem_cons_self) hdigit
      simpa using hc
  | nil =>
      rcases htail with rfl | ⟨ds', rfl⟩
      · rcases hr with rfl | ⟨u, rfl⟩
        · simp
        · simpa using hbar.symm
      · simpa using hpoint.symm

/-- A loose exponent is taken up to the end of the part. -/
private theorem consumeDigits_looseExponent {d : Nat} {ex r : Text}
    (hex : LooseExponent (d = 0) ex) (hr : AtEnd r) :
    consumeDigits qcDelim d 0 (ex ++ r) = some r := by
  rcases hex with rfl | ⟨sign, ds, tail, rfl, hsign, hds, htail⟩
  · exact consumeDigits_atEnd hr
  · have hrest := consumeDigits_tail hds htail hr
    have htail' : tail = [] ∨ ∃ ds', tail = '.' :: ds' :=
      htail.imp_right fun ⟨_, ds', h, _⟩ => ⟨ds', h⟩
    simp only [List.cons_append, List.append_assoc]
    rcases hsign with rfl | rfl | rfl
    · rw [List.nil_append, consumeDigits_letter, hrest]
      · exact head?_ne_of_tail (by decide) (by decide) (by decide) hds htail' hr
      · exact head?_ne_of_tail (by decide) (by decide) (by decide) hds htail' hr
    · rw [List.cons_append, List.nil_append, consumeDigits_sign (Or.inl rfl), hrest]
    · rw [List.cons_append, List.nil_append, consumeDigits_sign (Or.inr rfl), hrest]

/-- The loose shape is taken up to the end of the part. -/
private theorem consumeDigits_of_looseTail {p r : Text} (hp : LooseTail 0 0 p) (hr : AtEnd r) :
    consumeDigits qcDelim 0 0 (p ++ r) = some r := by
  obtain ⟨ip, point, fp, ex, rfl, hip, hfp, hpoint, hex⟩ := hp
  simp only [List.append_assoc]
  rw [consumeDigits_digits hip]
  have hex : LooseExponent (point = [] ∧ 0 = 0) ex := hex.elim Or.inl And.right
  rcases hpoint with ⟨rfl, -⟩ | ⟨rfl, rfl⟩
  · rw [List.cons_append, List.nil_append, consumeDigits_point, consumeDigits_digits hfp]
    exact consumeDigits_looseExponent (by simpa using hex) hr
  · exact consumeDigits_looseExponent (by simpa using hex) hr

/-- A loose number is a sign, if any, and a loose tail. -/
private theorem looseNumber_iff {p : Text} :
    LooseNumber p ↔ ∃ sign body, p = sign ++ body ∧ (sign = [] ∨ sign = ['-']) ∧
      LooseTail 0 0 body := by
  constructor
  · rintro ⟨sign, ip, point, fp, ex, rfl, hsign, hip, hfp, hpoint, hex⟩
    exact ⟨sign, ip ++ point ++ fp ++ ex, by simp, hsign, ip, point, fp, ex, rfl, hip, hfp,
      hpoint.imp_left fun h => ⟨h, rfl⟩, Or.inr ⟨rfl, by simpa using hex⟩⟩
  · rintro ⟨sign, _, rfl, hsign, ip, point, fp, ex, rfl, hip, hfp, hpoint, hex⟩
    have hex : LooseExponent (point = [] ∧ 0 = 0) ex := hex.elim Or.inl And.right
    exact ⟨sign, ip, point, fp, ex, by simp, hsign, hip, hfp, hpoint.imp_left And.left,
      by simpa using hex⟩

/-- Where a number body starts, no other kind of piece does. -/
private theorem looseTail_head {p r : Text} {c : Char} {t : Text} (hp : LooseTail 0 0 p)
    (hr : AtEnd r) (hc : c :: t = p ++ r) :
    c.isDigit = true ∨ c = '.' ∨ c = 'e' ∨ c = qcDelim := by
  obtain ⟨ip, point, fp, ex, rfl, hip, -, hpoint, hex⟩ := hp
  cases ip with
  | cons d ip =>
      obtain ⟨rfl, -⟩ := List.cons.inj hc
      exact Or.inl (hip c List.mem_cons_self)
  | nil =>
      right
      rcases hpoint with ⟨rfl, -⟩ | ⟨rfl, rfl⟩
      · exact Or.inl (List.cons.inj hc).1
      · right
        rcases hex with rfl | ⟨-, rfl | ⟨sign, ds, tail, rfl, -⟩⟩
        · rcases hr with rfl | ⟨u, rfl⟩
          · cases hc
          · exact Or.inr (List.cons.inj hc).1
        · rcases hr with rfl | ⟨u, rfl⟩
          · cases hc
          · exact Or.inr (List.cons.inj hc).1
        · exact Or.inl (List.cons.inj hc).1

/-- What the scan of a part takes is a piece. -/
private theorem piece_of_scanPart {c : Char} {t r : Text} (h : scanPart (c :: t) = some r) :
    ∃ p, c :: t = p ++ r ∧ Piece p r := by
  rw [scanPart.eq_def] at h
  dsimp only at h
  split_ifs at h with hap hX hN hneg
  · obtain ⟨u, hu, rfl, hr⟩ := scanToEndOfLiteral_eq_some_iff.mp h
    exact ⟨apostrophe :: (u ++ [apostrophe]), by simp [hap], .string ⟨u, hu, rfl⟩ hr⟩
  · cases t with
    | nil => cases h
    | cons d t =>
        dsimp only at h
        split_ifs at h with hd
        obtain ⟨u, hu, rfl, hr⟩ := scanToEndOfLiteral_eq_some_iff.mp h
        exact ⟨'X' :: apostrophe :: (u ++ [apostrophe]), by simp [hX, hd],
          .hex ⟨u, hu, rfl⟩ hr⟩
  · obtain ⟨w, hlen, hw⟩ := safelyAdvanceThroughString_eq_some_iff.mp h
    obtain ⟨a, b, d, e, rfl⟩ := List.length_eq_four.mp hlen
    obtain ⟨rfl, rfl⟩ := List.cons.inj hw
    subst hN
    exact ⟨_, rfl, .word⟩
  · obtain ⟨p, rfl, hr, hp⟩ := looseTail_of_consumeDigits h
    subst hneg
    exact ⟨'-' :: p, rfl, .number (looseNumber_iff.mpr ⟨['-'], p, rfl, Or.inr rfl, hp⟩) hr⟩
  · obtain ⟨p, hpr, hr, hp⟩ := looseTail_of_consumeDigits h
    exact ⟨p, hpr, .number (looseNumber_iff.mpr ⟨[], p, rfl, Or.inl rfl, hp⟩) hr⟩

/-- A loose tail is taken as a part. -/
private theorem scanPart_of_looseTail {p r : Text} (hp : LooseTail 0 0 p) (hr : AtEnd r)
    (hne : p ++ r ≠ []) : scanPart (p ++ r) = some r := by
  have hscan := consumeDigits_of_looseTail hp hr
  obtain ⟨c, t, hct⟩ := List.exists_cons_of_ne_nil hne
  have hhead := looseTail_head hp hr hct.symm
  rw [hct] at hscan ⊢
  have hother : ∀ d : Char, d.isDigit = false → d ≠ '.' → d ≠ 'e' → d ≠ qcDelim → c ≠ d := by
    rintro d h1 h2 h3 h4 rfl
    rcases hhead with h | h | h | h
    · exact Bool.false_ne_true (h1.symm.trans h)
    · exact h2 h
    · exact h3 h
    · exact h4 h
  have hap := hother apostrophe (by decide) (by decide) (by decide) (by decide)
  have hX := hother 'X' (by decide) (by decide) (by decide) (by decide)
  have hN := hother 'N' (by decide) (by decide) (by decide) (by decide)
  have hneg := hother '-' (by decide) (by decide) (by decide) (by decide)
  simpa [scanPart, consumeDigitsToDelimiter, hap, hX, hN, hneg] using hscan

/-- A piece is taken as a part. -/
private theorem scanPart_of_piece {p r : Text} (hp : Piece p r) (hne : p ++ r ≠ []) :
    scanPart (p ++ r) = some r := by
  cases hp with
  | string h hr =>
      obtain ⟨u, hu, rfl⟩ := h
      have h := scanToEndOfLiteral_eq_some_iff.mpr ⟨u, hu, rfl, hr⟩
      simpa [scanPart] using h
  | hex h hr =>
      obtain ⟨u, hu, rfl⟩ := h
      have hX : 'X' ≠ apostrophe := by decide
      have h := scanToEndOfLiteral_eq_some_iff.mpr ⟨u, hu, rfl, hr⟩
      simpa [scanPart, hX] using h
  | word =>
      have hN : 'N' ≠ apostrophe := by decide
      simp [scanPart, hN, safelyAdvanceThroughString]
  | number h hr =>
      obtain ⟨sign, body, rfl, hsign, hbody⟩ := looseNumber_iff.mp h
      rcases hsign with rfl | rfl
      · exact scanPart_of_looseTail hbody hr hne
      · have hscan := consumeDigits_of_looseTail hbody hr
        have hneg : '-' ≠ apostrophe := by decide
        simpa [scanPart, consumeDigitsToDelimiter, hneg] using hscan

/-- One turn of the scanner takes one piece. -/
theorem scanPart_eq_some_iff {c : Char} {t r : Text} :
    scanPart (c :: t) = some r ↔ ∃ p, c :: t = p ++ r ∧ Piece p r := by
  constructor
  · exact piece_of_scanPart
  · rintro ⟨p, hpr, hp⟩
    rw [hpr]
    exact scanPart_of_piece hp (by rw [← hpr]; exact List.cons_ne_nil c t)

/-- Without a delimiter nothing is skipped. -/
private theorem skipDelim_of_ne {t : Text} (h : t.head? ≠ some qcDelim) : skipDelim t = t := by
  cases t with
  | nil => rfl
  | cons c t =>
      have hc : c ≠ qcDelim := by simpa using h
      rw [skipDelim, if_neg hc]

/-- A piece is not empty where no delimiter follows. -/
private theorem piece_ne_nil {p rest : Text} (hp : Piece p rest) (hne : p ++ rest ≠ [])
    (hrest : rest.head? ≠ some qcDelim) : p ≠ [] := by
  cases hp with
  | string h _ =>
      obtain ⟨u, -, rfl⟩ := h
      exact List.cons_ne_nil _ _
  | hex => exact List.cons_ne_nil _ _
  | word => exact List.cons_ne_nil _ _
  | number h hr =>
      rintro rfl
      rcases hr with rfl | ⟨u, rfl⟩
      · exact hne rfl
      · exact hrest rfl

/-- The loop splits a scanned text into its pieces. -/
private theorem splitLoop_of_scanned {t : Text} {ps : List (Text × Bool)} (h : Scanned t ps) :
    splitLoop ps.length t = some (ps.map Prod.fst, []) := by
  have hturn : ∀ {p rest : Text} {n : Nat}, Piece p rest → p ++ rest ≠ [] →
      splitLoop (n + 1) (p ++ rest) =
        (splitLoop n (skipDelim rest)).map fun (parts, left) => (p :: parts, left) := by
    intro p rest n hp hne
    have hscan := scanPart_of_piece hp hne
    have htake : (p ++ rest).take ((p ++ rest).length - rest.length) = p := by simp
    obtain ⟨c, t, hct⟩ := List.exists_cons_of_ne_nil hne
    rw [hct] at hscan htake ⊢
    rw [splitLoop, hscan, Option.bind_some, htake]
  induction h with
  | nil => rfl
  | delimited hp _ ih =>
      rw [List.length_cons, hturn hp (by simp), skipDelim, if_pos rfl, ih]
      rfl
  | abutting hp hne hrest _ ih =>
      rw [List.length_cons, hturn hp (by simp [hne]), skipDelim_of_ne hrest, ih]
      rfl

/-- What the loop splits to the end is scanned. -/
private theorem scanned_of_splitLoop {n : Nat} {t : Text} {parts : List Text}
    (h : splitLoop n t = some (parts, [])) (hlen : parts.length = n) :
    ∃ ps, Scanned t ps ∧ ps.map Prod.fst = parts := by
  induction n generalizing t parts with
  | zero =>
      obtain ⟨rfl, rfl⟩ := Prod.mk.inj (Option.some.inj h)
      exact ⟨[], .nil, rfl⟩
  | succ n ih =>
      cases t with
      | nil =>
          obtain ⟨rfl, -⟩ := Prod.mk.inj (Option.some.inj h)
          cases hlen
      | cons c t =>
          rw [splitLoop] at h
          obtain ⟨rest, hrest, h⟩ := Option.bind_eq_some_iff.mp h
          obtain ⟨⟨parts', _⟩, hparts, h⟩ := Option.map_eq_some_iff.mp h
          obtain ⟨rfl, rfl⟩ := Prod.mk.inj h
          obtain ⟨ps, hps, rfl⟩ := ih hparts (Nat.succ.inj hlen)
          obtain ⟨p, hpr, hp⟩ := scanPart_eq_some_iff.mp hrest
          have htake : (c :: t).take ((c :: t).length - rest.length) = p := by simp [hpr]
          rw [htake]
          rw [hpr]
          by_cases hbar : rest.head? = some qcDelim
          · obtain ⟨u, rfl⟩ := List.head?_eq_some_iff.mp hbar
            rw [skipDelim, if_pos rfl] at hps
            exact ⟨(p, true) :: ps, .delimited hp hps, rfl⟩
          · have hne : p ≠ [] := piece_ne_nil hp (by rw [← hpr]; exact List.cons_ne_nil c t) hbar
            rw [skipDelim_of_ne hbar] at hps
            exact ⟨(p, false) :: ps, .abutting hp hne hbar hps, rfl⟩

/-- A text is split exactly when it falls into that many pieces. -/
theorem splitQuoteConcat_eq_some_iff {t : Text} {n : Nat} {parts : List Text} :
    splitQuoteConcat t n = some parts ↔
      ∃ ps, Scanned t ps ∧ ps.length = n ∧ ps.map Prod.fst = parts := by
  constructor
  · intro h
    obtain ⟨⟨parts', left⟩, hloop, h⟩ := Option.bind_eq_some_iff.mp h
    dsimp only at h
    split_ifs at h with hwhole
    rw [not_or, not_not, not_not] at hwhole
    obtain ⟨hlen, rfl⟩ := hwhole
    obtain rfl := Option.some.inj h
    obtain ⟨ps, hps, hfst⟩ := scanned_of_splitLoop hloop hlen
    exact ⟨ps, hps, by rw [← hlen, ← hfst, List.length_map], hfst⟩
  · rintro ⟨ps, hps, rfl, rfl⟩
    rw [splitQuoteConcat, splitLoop_of_scanned hps, Option.bind_some]
    simp

/-! ## Literals -/

/-- A proper exponent, if any. -/
def Exponent (ex : Text) : Prop :=
  ex = [] ∨ ∃ e sign ds, ex = e :: (sign ++ ds) ∧ (e = 'e' ∨ e = 'E') ∧
    (sign = [] ∨ sign = ['-'] ∨ sign = ['+']) ∧ ds ≠ [] ∧ Digits ds

/-- An optionally minus-signed decimal number with at least one digit. -/
def SqlNumber (p : Text) : Prop :=
  ∃ sign ip point fp ex, p = sign ++ ip ++ point ++ fp ++ ex ∧
    (sign = [] ∨ sign = ['-']) ∧ Digits ip ∧ Digits fp ∧
    (point = ['.'] ∨ point = [] ∧ fp = []) ∧ (ip ≠ [] ∨ fp ≠ []) ∧ Exponent ex

/-- One complete SQL literal, as `quote()` prints them. -/
inductive Literal : Text → Prop
  | null : Literal ['N', 'U', 'L', 'L']
  | number {p : Text} : SqlNumber p → Literal p
  | string {p : Text} : Quoted p → Literal p
  | hex {p : Text} : Quoted p → Literal ('X' :: p)

/-- The part of a number in front of the exponent letter. -/
def mantissa (p : Text) : Text :=
  p.takeWhile fun c => c ≠ 'e'

/-- The exponent letter of a number and what follows it. -/
def exponent (p : Text) : Text :=
  p.dropWhile fun c => c ≠ 'e'

/-- The pieces the scanner takes that are not literals: a word other than NULL,
a number without a digit, an exponent without a digit, and an exponent with a
point. -/
inductive Malformed (p : Text) : Prop
  | word {w : Text} : p = 'N' :: w → w ≠ ['U', 'L', 'L'] → Malformed p
  | noDigit : LooseNumber p → (∀ c ∈ mantissa p, c.isDigit = false) → Malformed p
  | bareExponent {sign : Text} : LooseNumber p → exponent p = 'e' :: sign →
      (sign = [] ∨ sign = ['-'] ∨ sign = ['+']) → Malformed p
  | pointInExponent : LooseNumber p → '.' ∈ exponent p → Malformed p

private theorem digits_ne {t : Text} {c : Char} (ht : Digits t) (hc : c.isDigit = false) :
    c ∉ t :=
  fun h => Bool.false_ne_true (hc.symm.trans (ht c h))

/-- A number splits at the mark of its exponent. -/
private theorem mantissa_append {m ex : Text} (hm : 'e' ∉ m)
    (hex : ex = [] ∨ ∃ u, ex = 'e' :: u) : mantissa (m ++ ex) = m ∧ exponent (m ++ ex) = ex := by
  have hall : ∀ c ∈ m, decide (c ≠ 'e') = true := fun c hc =>
    decide_eq_true fun h : c = 'e' => hm (h ▸ hc)
  unfold mantissa exponent
  rw [List.takeWhile_append_of_pos hall, List.dropWhile_append_of_pos hall]
  rcases hex with rfl | ⟨u, rfl⟩
  · simp
  · simp

/-- There is no exponent mark in the digits in front of it. -/
private theorem front_no_letter {sign ip point fp : Text} (hsign : sign = [] ∨ sign = ['-'])
    (hip : Digits ip) (hfp : Digits fp) (hpoint : point = ['.'] ∨ point = [] ∧ fp = []) :
    'e' ∉ sign ++ ip ++ point ++ fp := by
  have h1 := digits_ne hip (c := 'e') (by decide)
  have h2 := digits_ne hfp (c := 'e') (by decide)
  rcases hsign with rfl | rfl <;> rcases hpoint with rfl | ⟨rfl, -⟩ <;> simp [h1, h2]

/-- The characters of a loose number. -/
private theorem looseNumber_char {p : Text} (h : LooseNumber p) :
    ∀ c ∈ p, c.isDigit = true ∨ c = '-' ∨ c = '+' ∨ c = '.' ∨ c = 'e' := by
  obtain ⟨sign, ip, point, fp, ex, rfl, hsign, hip, hfp, hpoint, hex⟩ := h
  have hexp : ∀ c ∈ ex, c.isDigit = true ∨ c = '-' ∨ c = '+' ∨ c = '.' ∨ c = 'e' := by
    rcases hex with rfl | ⟨sign, ds, tail, rfl, hsign, hds, htail⟩
    · simp
    · intro c hc
      simp only [List.mem_cons, List.mem_append] at hc
      rcases hc with rfl | (hc | hc) | hc
      · simp
      · rcases hsign with rfl | rfl | rfl <;> simp_all
      · exact Or.inl (hds c hc)
      · rcases htail with rfl | ⟨-, ds', rfl, hds'⟩
        · cases hc
        · rcases List.mem_cons.mp hc with rfl | hc
          · simp
          · exact Or.inl (hds' c hc)
  intro c hc
  simp only [List.mem_append] at hc
  rcases hc with (((hc | hc) | hc) | hc) | hc
  · rcases hsign with rfl | rfl <;> simp_all
  · exact Or.inl (hip c hc)
  · rcases hpoint with rfl | ⟨rfl, -⟩ <;> simp_all
  · exact Or.inl (hfp c hc)
  · exact hexp c hc

/-- A loose number begins with one of these characters. -/
private theorem looseNumber_head {c : Char} {t : Text} (hc : c.isDigit = false)
    (h : c ≠ '-' ∧ c ≠ '+' ∧ c ≠ '.' ∧ c ≠ 'e') : ¬LooseNumber (c :: t) := by
  intro hloose
  rcases looseNumber_char hloose c List.mem_cons_self with h' | h' | h' | h' | h'
  · exact Bool.false_ne_true (hc.symm.trans h')
  · exact h.1 h'
  · exact h.2.1 h'
  · exact h.2.2.1 h'
  · exact h.2.2.2 h'

/-- A loose number with a digit, and with an exponent if it has a mark, is a number. -/
private theorem number_of_looseNumber {p : Text} (h : LooseNumber p)
    (hdigit : ∃ c ∈ mantissa p, c.isDigit = true)
    (hbare : ∀ sign, exponent p = 'e' :: sign →
      ¬(sign = [] ∨ sign = ['-'] ∨ sign = ['+']))
    (hpoint : '.' ∉ exponent p) : SqlNumber p := by
  obtain ⟨sign, ip, point, fp, ex, rfl, hsign, hip, hfp, hpt, hex⟩ := h
  have hletter : ex = [] ∨ ∃ u, ex = 'e' :: u := by
    rcases hex with rfl | ⟨s, ds, tail, rfl, -⟩
    · exact Or.inl rfl
    · exact Or.inr ⟨_, rfl⟩
  obtain ⟨hm, he⟩ := mantissa_append (front_no_letter hsign hip hfp hpt) hletter
  rw [hm] at hdigit
  rw [he] at hbare hpoint
  have hsome : ip ≠ [] ∨ fp ≠ [] := by
    by_contra hnone
    rw [not_or, not_not, not_not] at hnone
    obtain ⟨rfl, rfl⟩ := hnone
    obtain ⟨c, hc, hd⟩ := hdigit
    have hmark : c = '-' ∨ c = '.' := by
      rcases hsign with rfl | rfl <;> rcases hpt with rfl | ⟨rfl, -⟩ <;> simp_all
    rcases hmark with rfl | rfl
    · cases hd
    · cases hd
  refine ⟨sign, ip, point, fp, ex, rfl, hsign, hip, hfp, hpt, hsome, ?_⟩
  rcases hex with rfl | ⟨s, ds, tail, rfl, hs, hds, htail⟩
  · exact Or.inl rfl
  · obtain rfl : tail = [] := by
      rcases htail with rfl | ⟨-, ds', rfl, -⟩
      · rfl
      · simp at hpoint
    have hne : ds ≠ [] := by
      rintro rfl
      exact hbare s (by simp) hs
    exact Or.inr ⟨'e', s, ds, by simp, Or.inl rfl, hs, hne, hds⟩

/-- The exponent letter of a number the scanner takes is the small one. -/
private theorem exponent_letter {ex : Text} (hex : Exponent ex) (hE : 'E' ∉ ex) :
    ex = [] ∨ ∃ u, ex = 'e' :: u := by
  rcases hex with rfl | ⟨e, sign, ds, rfl, rfl | rfl, -⟩
  · exact Or.inl rfl
  · exact Or.inr ⟨_, rfl⟩
  · simp at hE

/-- The characters of a number of SQL. -/
theorem number_char {p : Text} (h : SqlNumber p) :
    ∀ c ∈ p, c.isDigit = true ∨ c = '-' ∨ c = '+' ∨ c = '.' ∨ c = 'e' ∨ c = 'E' := by
  obtain ⟨sign, ip, point, fp, ex, rfl, hsign, hip, hfp, hpoint, -, hex⟩ := h
  have hexp : ∀ c ∈ ex, c.isDigit = true ∨ c = '-' ∨ c = '+' ∨ c = '.' ∨ c = 'e' ∨ c = 'E' := by
    rcases hex with rfl | ⟨e, sign, ds, rfl, he, hsign, -, hds⟩
    · simp
    · intro c hc
      simp only [List.mem_cons, List.mem_append] at hc
      rcases hc with rfl | hc | hc
      · rcases he with rfl | rfl <;> simp
      · rcases hsign with rfl | rfl | rfl <;> simp_all
      · exact Or.inl (hds c hc)
  intro c hc
  simp only [List.mem_append] at hc
  rcases hc with (((hc | hc) | hc) | hc) | hc
  · rcases hsign with rfl | rfl <;> simp_all
  · exact Or.inl (hip c hc)
  · rcases hpoint with rfl | ⟨rfl, -⟩ <;> simp_all
  · exact Or.inl (hfp c hc)
  · exact hexp c hc

/-- A number of SQL begins with one of these characters. -/
private theorem number_head {c : Char} {t : Text} (hc : c.isDigit = false)
    (h : c ≠ '-' ∧ c ≠ '+' ∧ c ≠ '.' ∧ c ≠ 'e' ∧ c ≠ 'E') : ¬SqlNumber (c :: t) := by
  intro hnum
  rcases number_char hnum c List.mem_cons_self with h' | h' | h' | h' | h' | h'
  · exact Bool.false_ne_true (hc.symm.trans h')
  · exact h.1 h'
  · exact h.2.1 h'
  · exact h.2.2.1 h'
  · exact h.2.2.2.1 h'
  · exact h.2.2.2.2 h'

/-- The mantissa and the exponent of a number the scanner takes. -/
private theorem number_parts {p : Text} (h : SqlNumber p) (hloose : LooseNumber p) :
    (∃ c ∈ mantissa p, c.isDigit = true) ∧ Exponent (exponent p) := by
  have hE : 'E' ∉ p := fun hmem => by
    rcases looseNumber_char hloose 'E' hmem with h | h | h | h | h <;> cases h
  obtain ⟨sign, ip, point, fp, ex, rfl, hsign, hip, hfp, hpt, hsome, hex⟩ := h
  obtain ⟨hm, he⟩ := mantissa_append (front_no_letter hsign hip hfp hpt)
    (exponent_letter hex fun hmem => hE (by simp [hmem]))
  rw [hm, he]
  refine ⟨?_, hex⟩
  rcases hsome with hne | hne
  · obtain ⟨c, u, rfl⟩ := List.exists_cons_of_ne_nil hne
    exact ⟨c, by simp, hip c List.mem_cons_self⟩
  · obtain ⟨c, u, rfl⟩ := List.exists_cons_of_ne_nil hne
    exact ⟨c, by simp, hfp c List.mem_cons_self⟩

/-- A number is not malformed. -/
private theorem not_malformed_of_number {p : Text} (h : SqlNumber p) : ¬Malformed p := by
  intro hmal
  cases hmal with
  | word hw =>
      rw [hw] at h
      exact number_head (by decide) (by decide) h
  | noDigit hloose hnone =>
      obtain ⟨⟨c, hc, hdigit⟩, -⟩ := number_parts h hloose
      exact Bool.false_ne_true ((hnone c hc).symm.trans hdigit)
  | bareExponent hloose hex hsign =>
      obtain ⟨-, hproper⟩ := number_parts h hloose
      rw [hex] at hproper
      rcases hproper with hproper | ⟨e, s, ds, hproper, -, hs, hne, hds⟩
      · cases hproper
      · obtain ⟨c, u, rfl⟩ := List.exists_cons_of_ne_nil hne
        have hmem : c ∈ s ++ c :: u := by simp
        rw [← (List.cons.inj hproper).2] at hmem
        have hc := hds c List.mem_cons_self
        rcases hsign with rfl | rfl | rfl
        · cases hmem
        · rw [List.mem_singleton.mp hmem] at hc
          cases hc
        · rw [List.mem_singleton.mp hmem] at hc
          cases hc
  | pointInExponent hloose hpoint =>
      obtain ⟨-, hproper⟩ := number_parts h hloose
      rcases hproper with hproper | ⟨e, s, ds, hproper, he, hs, -, hds⟩
      · rw [hproper] at hpoint
        cases hpoint
      · have hdot := digits_ne hds (c := '.') (by decide)
        rw [hproper] at hpoint
        rcases he with rfl | rfl <;> rcases hs with rfl | rfl | rfl <;> simp [hdot] at hpoint

/-- What begins with another character is not malformed as a number. -/
private theorem not_malformed_of_head {c : Char} {t : Text} (hN : c ≠ 'N')
    (hc : c.isDigit = false) (h : c ≠ '-' ∧ c ≠ '+' ∧ c ≠ '.' ∧ c ≠ 'e') :
    ¬Malformed (c :: t) := by
  intro hmal
  cases hmal with
  | word hw => exact hN (List.cons.inj hw).1
  | noDigit hloose => exact looseNumber_head hc h hloose
  | bareExponent hloose => exact looseNumber_head hc h hloose
  | pointInExponent hloose => exact looseNumber_head hc h hloose

/-- A piece the scanner takes is a literal unless it is malformed. -/
theorem literal_iff_not_malformed {p rest : Text} (hp : Piece p rest) :
    Literal p ↔ ¬Malformed p := by
  constructor
  · intro hlit
    cases hlit with
    | null =>
        intro hmal
        cases hmal with
        | word hw hne => exact hne (List.cons.inj hw).2.symm
        | noDigit hloose => exact looseNumber_head (by decide) (by decide) hloose
        | bareExponent hloose => exact looseNumber_head (by decide) (by decide) hloose
        | pointInExponent hloose => exact looseNumber_head (by decide) (by decide) hloose
    | number h => exact not_malformed_of_number h
    | string h =>
        obtain ⟨u, -, rfl⟩ := h
        exact not_malformed_of_head (by decide) (by decide) (by decide)
    | hex h => exact not_malformed_of_head (by decide) (by decide) (by decide)
  · intro hmal
    cases hp with
    | string h => exact .string h
    | hex h => exact .hex h
    | @word a b c =>
        have hw : [a, b, c] = ['U', 'L', 'L'] := by
          by_contra hne
          exact hmal (.word rfl hne)
        rw [hw]
        exact .null
    | number h =>
        refine .number (number_of_looseNumber h ?_ ?_ ?_)
        · by_contra hnone
          refine hmal (.noDigit h fun c hc => ?_)
          by_contra hd
          exact hnone ⟨c, hc, by simpa using hd⟩
        · exact fun sign hex hsign => hmal (.bareExponent h hex hsign)
        · exact fun hpoint => hmal (.pointInExponent h hpoint)

/-! ## A text of literals -/

/-- What is promised of the scanner: it stays in the memory of the text, the
parts it returns are that many literals with one delimiter between neighbours
and none at the end, and on every other text it fails. -/
structure AcceptsOnlyLiterals (t : Text) (n : Nat) : Prop where
  inBounds : Pointer.splitQuoteConcat (Pointer.memory t) n ≠ none
  literals : ∀ parts, Pointer.splitQuoteConcat (Pointer.memory t) n = some (some parts) →
    parts.length = n ∧ t = List.intercalate [qcDelim] parts ∧ ∀ p ∈ parts, Literal p
  rejects : (¬∃ parts : List Text, parts.length = n ∧
      t = List.intercalate [qcDelim] parts ∧ ∀ p ∈ parts, Literal p) →
    Pointer.splitQuoteConcat (Pointer.memory t) n = some none

/-- The ways a text of `n` pieces slips through: a malformed piece, two pieces
without a delimiter between them, a delimiter behind the last piece. -/
inductive Slips (t : Text) (n : Nat) : Prop
  | malformed {ps : List (Text × Bool)} {q : Text × Bool} : Scanned t ps → ps.length = n →
      q ∈ ps → Malformed q.1 → Slips t n
  | missingDelim {pre post : List (Text × Bool)} {p : Text} {q : Text × Bool} :
      Scanned t (pre ++ (p, false) :: q :: post) →
      (pre ++ (p, false) :: q :: post).length = n → Slips t n
  | trailingDelim {pre : List (Text × Bool)} {p : Text} :
      Scanned t (pre ++ [(p, true)]) → (pre ++ [(p, true)]).length = n → Slips t n

/-- Every piece but the last has a delimiter behind it. -/
private inductive Delimited : List (Text × Bool) → Prop
  | nil : Delimited []
  | last {p : Text} : Delimited [(p, false)]
  | cons {p : Text} {q : Text × Bool} {ps : List (Text × Bool)} :
      Delimited (q :: ps) → Delimited ((p, true) :: q :: ps)

/-- A delimited list of pieces is the text, joined with the delimiter. -/
private theorem scanned_text {t : Text} {ps : List (Text × Bool)} (h : Scanned t ps)
    (hd : Delimited ps) : t = List.intercalate [qcDelim] (ps.map Prod.fst) := by
  induction h with
  | nil => rfl
  | delimited _ _ ih =>
      cases hd with
      | cons hd =>
          rw [ih hd]
          simp [List.intercalate_cons_cons]
  | abutting _ _ _ hrest _ =>
      cases hd with
      | last =>
          cases hrest
          simp

/-- Pieces that joined with the delimiter give the text are delimited. -/
private theorem delimited_of_text {t : Text} {ps : List (Text × Bool)} (h : Scanned t ps)
    (ht : t = List.intercalate [qcDelim] (ps.map Prod.fst)) : Delimited ps := by
  induction h with
  | nil => exact .nil
  | @delimited p rest ps _ hrest ih =>
      cases ps with
      | nil => simp at ht
      | cons q ps =>
          rw [List.map_cons, List.map_cons, List.intercalate_cons_cons, List.append_assoc] at ht
          exact .cons (ih (List.cons.inj (List.append_cancel_left ht)).2)
  | @abutting p rest ps _ _ hhead _ _ =>
      cases ps with
      | nil => exact .last
      | cons q ps =>
          rw [List.map_cons, List.map_cons, List.intercalate_cons_cons, List.append_assoc] at ht
          rw [List.append_cancel_left ht] at hhead
          exact absurd rfl hhead

/-- A delimiter may be missing between two pieces, or stand behind the last one. -/
private theorem delimited_or (ps : List (Text × Bool)) :
    Delimited ps ∨ (∃ pre p q post, ps = pre ++ (p, false) :: q :: post) ∨
      ∃ pre p, ps = pre ++ [(p, true)] := by
  induction ps with
  | nil => exact Or.inl .nil
  | cons q ps ih =>
      obtain ⟨p, flag⟩ := q
      cases ps with
      | nil =>
          cases flag with
          | false => exact Or.inl .last
          | true => exact Or.inr (Or.inr ⟨[], p, rfl⟩)
      | cons q ps =>
          cases flag with
          | false => exact Or.inr (Or.inl ⟨[], p, q, ps, rfl⟩)
          | true =>
              rcases ih with h | ⟨pre, p', q', post, h⟩ | ⟨pre, p', h⟩
              · exact Or.inl (.cons h)
              · exact Or.inr (Or.inl ⟨(p, true) :: pre, p', q', post, by rw [h]; rfl⟩)
              · exact Or.inr (Or.inr ⟨(p, true) :: pre, p', by rw [h]; rfl⟩)

/-- Pieces without a delimiter between them are not delimited. -/
private theorem not_delimited_missing {pre post : List (Text × Bool)} {p : Text}
    {q : Text × Bool} : ¬Delimited (pre ++ (p, false) :: q :: post) := by
  induction pre with
  | nil => exact fun h => nomatch h
  | cons r pre ih =>
      intro h
      cases pre with
      | nil =>
          cases h with
          | cons h => exact ih h
      | cons r' pre =>
          cases h with
          | cons h => exact ih h

/-- A delimiter behind the last piece is none between pieces. -/
private theorem not_delimited_trailing {pre : List (Text × Bool)} {p : Text} :
    ¬Delimited (pre ++ [(p, true)]) := by
  induction pre with
  | nil => exact fun h => nomatch h
  | cons r pre ih =>
      intro h
      cases pre with
      | nil =>
          cases h with
          | cons h => exact ih h
      | cons r' pre =>
          cases h with
          | cons h => exact ih h

/-- A scanned piece is a literal exactly when it is not malformed. -/
private theorem scanned_literal {t : Text} {ps : List (Text × Bool)} (h : Scanned t ps)
    {q : Text × Bool} (hq : q ∈ ps) : Literal q.1 ↔ ¬Malformed q.1 := by
  induction h with
  | nil => cases hq
  | delimited hp _ ih =>
      rcases List.mem_cons.mp hq with rfl | hq
      · exact literal_iff_not_malformed hp
      · exact ih hq
  | abutting hp _ _ _ ih =>
      rcases List.mem_cons.mp hq with rfl | hq
      · exact literal_iff_not_malformed hp
      · exact ih hq

/-- The parts the splitter returns are literals, properly delimited. -/
private theorem literals_of_not_slips {t : Text} {n : Nat} (h : ¬Slips t n) {parts : List Text}
    (hsplit : splitQuoteConcat t n = some parts) :
    parts.length = n ∧ t = List.intercalate [qcDelim] parts ∧ ∀ p ∈ parts, Literal p := by
  obtain ⟨ps, hps, hlen, rfl⟩ := splitQuoteConcat_eq_some_iff.mp hsplit
  have hd : Delimited ps := by
    rcases delimited_or ps with hd | ⟨pre, p, q, post, rfl⟩ | ⟨pre, p, rfl⟩
    · exact hd
    · exact absurd (.missingDelim hps hlen) h
    · exact absurd (.trailingDelim hps hlen) h
  refine ⟨by rw [List.length_map, hlen], scanned_text hps hd, fun p hp => ?_⟩
  obtain ⟨q, hq, rfl⟩ := List.mem_map.mp hp
  exact (scanned_literal hps hq).mpr fun hmal => h (.malformed hps hlen hq hmal)

/-- A text that slips through is split all the same. -/
private theorem slips_split {t : Text} {n : Nat} (h : Slips t n) :
    ∃ parts, splitQuoteConcat t n = some parts ∧
      ¬(t = List.intercalate [qcDelim] parts ∧ ∀ p ∈ parts, Literal p) := by
  cases h with
  | malformed hps hlen hq hmal =>
      refine ⟨_, splitQuoteConcat_eq_some_iff.mpr ⟨_, hps, hlen, rfl⟩, fun h => ?_⟩
      exact (scanned_literal hps hq).mp (h.2 _ (List.mem_map_of_mem hq)) hmal
  | missingDelim hps hlen =>
      refine ⟨_, splitQuoteConcat_eq_some_iff.mpr ⟨_, hps, hlen, rfl⟩, fun h => ?_⟩
      exact not_delimited_missing (delimited_of_text hps h.1)
  | trailingDelim hps hlen =>
      refine ⟨_, splitQuoteConcat_eq_some_iff.mpr ⟨_, hps, hlen, rfl⟩, fun h => ?_⟩
      exact not_delimited_trailing (delimited_of_text hps h.1)

/-- The scanner takes texts of literals only, unless the text slips through
its grammar. -/
theorem acceptsOnlyLiterals_iff {t : Text} {n : Nat} (ht : nul ∉ t) :
    AcceptsOnlyLiterals t n ↔ ¬Slips t n := by
  have hmem := Pointer.splitQuoteConcat_eq ht n
  constructor
  · intro h hslip
    obtain ⟨parts, hsplit, hbad⟩ := slips_split hslip
    exact hbad (h.literals parts (hmem.trans (congrArg some hsplit))).2
  · intro h
    refine ⟨by rw [hmem]; exact Option.some_ne_none _, fun parts hparts => ?_, fun hnone => ?_⟩
    · exact literals_of_not_slips h (Option.some.inj (hmem.symm.trans hparts))
    · cases hsplit : splitQuoteConcat t n with
      | none => rw [hmem, hsplit]
      | some parts => exact absurd ⟨parts, literals_of_not_slips h hsplit⟩ hnone

theorem acceptsOnlyLiterals_null :
    AcceptsOnlyLiterals "NULL|'a'".toList 2 ↔ ¬Slips "NULL|'a'".toList 2 :=
  acceptsOnlyLiterals_iff (by decide)

/-- Any word of four characters that starts with N is taken for a value. -/
theorem accepts_word : ¬AcceptsOnlyLiterals "NOPE".toList 1 := by
  intro h
  have hlit := (h.literals ["NOPE".toList] (by decide)).2.2 _ (List.mem_singleton.mpr rfl)
  cases hlit with
  | number hnum => exact number_head (by decide) (by decide) hnum
  | string hq =>
      obtain ⟨u, -, hu⟩ := hq
      exact absurd (List.cons.inj hu).1 (by decide)

end CrSqlite
