import CrSqlite.Value

/-!
# QuoteConcat - key texts

The text a key travels as: the printed key values joined by a bar.  The
scanners follow the pointer arithmetic of util.c: a pointer into a C string is
the text from there on, and a null pointer is {lit}`none`.

Main results:

- Theorem {lit}`splitQuoteConcat_quoteConcat`: splitting the text of a key
  gives back its printed values.
-/

namespace CrSqlite

/-! ## The scanners -/

/-- The delimiter `QC_DELIM` between printed values. -/
def qcDelim : Char := '|'

/-- From inside a string literal to right behind the quote that ends it. -/
def scanToEndOfLiteral : Text → Option Text
  | [] => none
  | c :: t =>
      if c = apostrophe then
        match t with
        | [] => some []
        | d :: r => if d = apostrophe then scanToEndOfLiteral r else some (d :: r)
      else scanToEndOfLiteral t

/-- Advance `len` characters, failing at the end of the text. -/
def safelyAdvanceThroughString : Text → Nat → Option Text
  | t, 0 => some t
  | [], _ + 1 => none
  | _ :: t, len + 1 => safelyAdvanceThroughString t len

/-- The loop of `crsql_consumeDigitsToDelimiter` with its two counters. -/
def consumeDigits (delim : Char) (decimalCount exponentCount : Nat) :
    Text → Option Text
  | [] => some []
  | c :: t =>
      if c = delim then some (c :: t)
      else if c.isDigit then consumeDigits delim decimalCount exponentCount t
      else if c = '.' then
        if 0 < decimalCount then none
        else consumeDigits delim (decimalCount + 1) exponentCount t
      else if c = 'e' then
        if 0 < exponentCount then none
        else
          match t with
          | [] => some []
          | s :: r =>
              -- a sign right after the exponent letter is skipped with it
              if s = '-' ∨ s = '+' then
                consumeDigits delim decimalCount (exponentCount + 1) r
              else consumeDigits delim decimalCount (exponentCount + 1) (s :: r)
      else none

/-- Consume digits up to the delimiter or the end of the text. -/
def consumeDigitsToDelimiter (t : Text) (delim : Char) : Option Text :=
  consumeDigits delim 0 0 t

/-- One turn of the loop of `crsql_splitQuoteConcat`: the text behind the next
printed value. -/
def scanPart : Text → Option Text
  | [] => none
  | c :: t =>
      if c = apostrophe then scanToEndOfLiteral t
      else if c = 'X' then
        match t with
        | [] => none
        | d :: r => if d = apostrophe then scanToEndOfLiteral r else none
      else if c = 'N' then safelyAdvanceThroughString (c :: t) 4
      else consumeDigitsToDelimiter (if c = '-' then t else c :: t) qcDelim

/-- Move off a delimiter, if the text starts with one. -/
def skipDelim : Text → Text
  | [] => []
  | c :: t => if c = qcDelim then t else c :: t

/-- The loop of `crsql_splitQuoteConcat`: the parts found and the text left. -/
def splitLoop : Nat → Text → Option (List Text × Text)
  | 0, t => some ([], t)
  | _ + 1, [] => some ([], [])
  | n + 1, c :: t =>
      (scanPart (c :: t)).bind fun rest =>
        (splitLoop n (skipDelim rest)).map fun (parts, left) =>
          ((c :: t).take ((c :: t).length - rest.length) :: parts, left)

/-- `crsql_splitQuoteConcat`: fails unless exactly `partsLen` parts make up the
whole text. -/
def splitQuoteConcat (t : Text) (partsLen : Nat) : Option (List Text) :=
  (splitLoop partsLen t).bind fun (parts, left) =>
    if parts.length ≠ partsLen ∨ left ≠ [] then none else some parts

/-- The expression `crsql_quoteConcat` builds: the key values, printed and
joined by the delimiter. -/
def quoteConcat [Sqlite] (key : Key) : Text :=
  List.intercalate [qcDelim] (key.map quote)

/-! ## Scanning a printed value -/

/-- A value ends where a delimiter or the end of the text follows. -/
def AtEnd (r : Text) : Prop :=
  r = [] ∨ ∃ t, r = qcDelim :: t

/-- A character that is no quote is passed. -/
theorem scanToEndOfLiteral_of_ne {c : Char} {t : Text}
    (hc : c ≠ apostrophe) : scanToEndOfLiteral (c :: t) = scanToEndOfLiteral t := by
  rw [scanToEndOfLiteral.eq_def]
  exact if_neg hc

/-- A doubled quote is passed. -/
theorem scanToEndOfLiteral_doubled {t : Text} :
    scanToEndOfLiteral (apostrophe :: apostrophe :: t) = scanToEndOfLiteral t := by
  rw [scanToEndOfLiteral.eq_def]
  rfl

/-- A text whose quotes were doubled is passed up to the quote behind it. -/
private theorem scanToEndOfLiteral_escape (t : Text) {r : Text} (hr : AtEnd r) :
    scanToEndOfLiteral (escape t ++ apostrophe :: r) = some r := by
  induction t with
  | nil =>
      rcases hr with rfl | ⟨u, rfl⟩
      · rfl
      · have hbar : qcDelim ≠ apostrophe := by decide
        simp [escape, scanToEndOfLiteral, hbar]
  | cons c t ih =>
      by_cases hc : c = apostrophe
      · subst hc
        rw [escape, if_pos rfl, List.cons_append, List.cons_append,
          scanToEndOfLiteral_doubled, ih]
      · rw [escape, if_neg hc, List.cons_append, scanToEndOfLiteral_of_ne hc, ih]

theorem hexDigit_ne_apostrophe {n : Nat} (hn : n < 16) :
    hexDigit n ≠ apostrophe := by
  interval_cases n <;> decide

/-- Hexadecimal digits are passed up to the quote behind them. -/
private theorem scanToEndOfLiteral_hexText (b : Blob) {r : Text} (hr : AtEnd r) :
    scanToEndOfLiteral (hexText b ++ apostrophe :: r) = some r := by
  induction b with
  | nil => exact scanToEndOfLiteral_escape [] hr
  | cons x b ih =>
      have hx : x.toNat < 256 := x.toNat_lt
      have hhi := hexDigit_ne_apostrophe (show x.toNat / 16 < 16 by omega)
      have hlo := hexDigit_ne_apostrophe (show x.toNat % 16 < 16 by omega)
      rw [hexText, List.cons_append, List.cons_append, scanToEndOfLiteral_of_ne hhi,
        scanToEndOfLiteral_of_ne hlo, ih]

/-- A digit is passed. -/
private theorem consumeDigits_digit {d e : Nat} {c : Char} {t : Text}
    (hc : c.isDigit = true) :
    consumeDigits qcDelim d e (c :: t) = consumeDigits qcDelim d e t := by
  have hbar : c ≠ qcDelim := ne_of_isDigit hc (by decide)
  rw [consumeDigits.eq_def]
  simp only [hbar, hc, if_true, if_false]

/-- The scan stops at the delimiter. -/
private theorem consumeDigits_delim {d e : Nat} {t : Text} :
    consumeDigits qcDelim d e (qcDelim :: t) = some (qcDelim :: t) := by
  rw [consumeDigits.eq_def]
  exact if_pos rfl

/-- One point is passed. -/
theorem consumeDigits_point {e : Nat} {t : Text} :
    consumeDigits qcDelim 0 e ('.' :: t) = consumeDigits qcDelim 1 e t := by
  rw [consumeDigits.eq_def]
  rfl

/-- An exponent with its sign is passed once. -/
theorem consumeDigits_sign {d : Nat} {s : Char} {t : Text}
    (hs : s = '-' ∨ s = '+') :
    consumeDigits qcDelim d 0 ('e' :: s :: t) = consumeDigits qcDelim d 1 t := by
  rw [consumeDigits.eq_def]
  rcases hs with rfl | rfl <;> rfl

/-- Digits are passed. -/
theorem consumeDigits_digits {d e : Nat} {ds r : Text}
    (hds : ∀ c ∈ ds, c.isDigit = true) :
    consumeDigits qcDelim d e (ds ++ r) = consumeDigits qcDelim d e r := by
  induction ds with
  | nil => rfl
  | cons c ds ih =>
      rw [List.cons_append, consumeDigits_digit (hds c (by simp))]
      exact ih fun x hx => hds x (List.mem_cons_of_mem c hx)

/-- The scan stops at the end of the part. -/
theorem consumeDigits_atEnd {d e : Nat} {r : Text} (hr : AtEnd r) :
    consumeDigits qcDelim d e r = some r := by
  rcases hr with rfl | ⟨u, rfl⟩
  · rfl
  · exact consumeDigits_delim

/-- An exponent is passed up to the end of the part. -/
private theorem consumeDigits_exponent {d : Nat} {ex r : Text} (hr : AtEnd r)
    (hex : ex = [] ∨ ∃ s ds, ex = 'e' :: s :: ds ∧ (s = '-' ∨ s = '+') ∧
      ds ≠ [] ∧ ∀ c ∈ ds, c.isDigit = true) :
    consumeDigits qcDelim d 0 (ex ++ r) = some r := by
  rcases hex with rfl | ⟨s, ds, rfl, hs, -, hds⟩
  · exact consumeDigits_atEnd hr
  · rw [List.cons_append, List.cons_append, consumeDigits_sign hs,
      consumeDigits_digits hds, consumeDigits_atEnd hr]

/-- A signed number is consumed up to where it ends. -/
private theorem scanPart_number {c : Char} {t r : Text} (hc : c.isDigit = true)
    (h : consumeDigits qcDelim 0 0 (c :: t) = some r) (sign : Text)
    (hsign : sign = [] ∨ sign = ['-']) : scanPart (sign ++ c :: t) = some r := by
  have hne : ∀ d : Char, d.isDigit = false → c ≠ d := fun d => ne_of_isDigit hc
  rcases hsign with rfl | rfl
  · have h1 := hne apostrophe (by decide)
    have h2 := hne 'X' (by decide)
    have h3 := hne 'N' (by decide)
    have h4 := hne '-' (by decide)
    simpa [scanPart, consumeDigitsToDelimiter, h1, h2, h3, h4] using h
  · have h1 : '-' ≠ apostrophe := by decide
    simpa [scanPart, consumeDigitsToDelimiter, h1] using h

/-- A printed integer is one part. -/
private theorem scanPart_toDigits {n : Nat} {r : Text} (hr : AtEnd r)
    (sign : Text) (hsign : sign = [] ∨ sign = ['-']) :
    scanPart (sign ++ Nat.toDigits 10 n ++ r) = some r := by
  have hds : ∀ c ∈ Nat.toDigits 10 n, c.isDigit = true := fun c hc =>
    Nat.isDigit_of_mem_toDigits (by decide) (by decide) hc
  have h := consumeDigits_digits (d := 0) (e := 0) (r := r) hds
  rw [consumeDigits_atEnd hr] at h
  obtain ⟨c, t, ht⟩ := List.exists_cons_of_ne_nil (@Nat.toDigits_ne_nil n 10)
  rw [ht] at h hds ⊢
  rw [List.append_assoc]
  exact scanPart_number (hds c (by simp)) h sign hsign

/-- A printed real is one part. -/
private theorem scanPart_shape {t r : Text} (ht : RealShape t) (hr : AtEnd r) :
    scanPart (t ++ r) = some r := by
  obtain ⟨sign, ip, fp, ex, rfl, hsign, hne, hip, -, hfp, hex⟩ := ht
  obtain ⟨c, u, rfl⟩ := List.exists_cons_of_ne_nil hne
  have h : consumeDigits qcDelim 0 0 ((c :: u) ++ '.' :: (fp ++ (ex ++ r))) =
      some r := by
    rw [consumeDigits_digits hip, consumeDigits_point, consumeDigits_digits hfp]
    exact consumeDigits_exponent hr hex
  have hscan := scanPart_number (hip c (by simp)) h sign hsign
  simpa using hscan

/-- Scanning a printed value stops right behind it. -/
theorem scanPart_quote [Sqlite] {v : SqlValue} (hv : Storable v)
    (hfin : ∀ n, v ≠ .inf n) {r : Text} (hr : AtEnd r) :
    scanPart (quote v ++ r) = some r := by
  cases v with
  | null => simp [quote, scanPart, apostrophe, safelyAdvanceThroughString]
  | integer i =>
      cases i with
      | ofNat n => exact scanPart_toDigits hr [] (Or.inl rfl)
      | negSucc n => exact scanPart_toDigits hr ['-'] (Or.inr rfl)
  | real q => exact scanPart_shape (Sqlite.printReal_shape q hv) hr
  | inf negative => exact absurd rfl (hfin negative)
  | text t =>
      have h := scanToEndOfLiteral_escape (t.takeWhile fun c => c ≠ nul) hr
      simpa [quote, scanPart] using h
  | blob b =>
      have hx : 'X' ≠ apostrophe := by decide
      have h := scanToEndOfLiteral_hexText b hr
      simpa [quote, scanPart, hx] using h

/-- A printed value is not empty. -/
theorem quote_ne_nil [Sqlite] {v : SqlValue} (hv : Storable v) : quote v ≠ [] := by
  cases v with
  | null => simp [quote]
  | integer i => cases i <;> simp [quote, printInt, Nat.toDigits_ne_nil]
  | real q =>
      obtain ⟨sign, ip, fp, ex, hshape, -⟩ := Sqlite.printReal_shape q hv
      simp [quote, hshape]
  | inf negative => cases negative <;> simp [quote]
  | text t => simp [quote]
  | blob b => simp [quote]

/-! ## Splitting the text of a key -/

/-- A printed value is split off. -/
private theorem splitLoop_cons [Sqlite] {v : SqlValue} (hv : Storable v)
    (hfin : ∀ n, v ≠ .inf n) {r : Text} (hr : AtEnd r) (n : Nat) :
    splitLoop (n + 1) (quote v ++ r) =
      (splitLoop n (skipDelim r)).map fun (parts, left) =>
        (quote v :: parts, left) := by
  have hscan := scanPart_quote hv hfin hr
  have htake : (quote v ++ r).take ((quote v ++ r).length - r.length) = quote v := by
    simp
  obtain ⟨c, t, ht⟩ := List.exists_cons_of_ne_nil (quote_ne_nil hv)
  rw [ht] at hscan htake ⊢
  rw [List.cons_append] at hscan htake ⊢
  rw [splitLoop, hscan, Option.bind_some, htake]

/-- A printed key is a printed value, the delimiter and a printed key. -/
private theorem quoteConcat_cons [Sqlite] (v w : SqlValue) (key : Key) :
    quoteConcat (v :: w :: key) = quote v ++ qcDelim :: quoteConcat (w :: key) := by
  simp [quoteConcat, List.intercalate_cons_cons]

private theorem skipDelim_delim (t : Text) : skipDelim (qcDelim :: t) = t := by
  simp [skipDelim]

/-- A printed key splits into its printed values. -/
private theorem splitLoop_quoteConcat [Sqlite] (key : Key)
    (hkey : ∀ v ∈ key, Storable v ∧ ∀ n, v ≠ .inf n) :
    splitLoop key.length (quoteConcat key) = some (key.map quote, []) := by
  induction key with
  | nil => rfl
  | cons v key ih =>
      have hv := hkey v (by simp)
      have hrest := ih fun w hw => hkey w (List.mem_cons_of_mem v hw)
      cases key with
      | nil =>
          have h := splitLoop_cons hv.1 hv.2 (Or.inl rfl) 0
          simpa [quoteConcat, splitLoop, skipDelim] using h
      | cons w key =>
          rw [quoteConcat_cons, List.length_cons, splitLoop_cons hv.1 hv.2 (Or.inr ⟨_, rfl⟩),
            skipDelim_delim, hrest]
          rfl

/-- Splitting the text of a key gives back its printed values. -/
theorem splitQuoteConcat_quoteConcat [Sqlite] (key : Key)
    (hkey : ∀ v ∈ key, Storable v ∧ ∀ n, v ≠ .inf n) :
    splitQuoteConcat (quoteConcat key) key.length = some (key.map quote) := by
  simp [splitQuoteConcat, splitLoop_quoteConcat key hkey]

/-- The splitter does not take the text of a key with an infinity. -/
theorem splitQuoteConcat_inf [Sqlite] {key : Key} (hkey : ∀ v ∈ key, Storable v)
    {n : Bool} (hinf : SqlValue.inf n ∈ key) :
    splitQuoteConcat (quoteConcat key) key.length = none := by
  have hloop : splitLoop key.length (quoteConcat key) = none := by
    induction key with
    | nil => simp at hinf
    | cons v key ih =>
        by_cases hv : ∃ m, v = .inf m
        · obtain ⟨m, rfl⟩ := hv
          obtain ⟨r, hr⟩ : ∃ r, quoteConcat (.inf m :: key) = quote (.inf m) ++ r := by
            cases key with
            | nil => exact ⟨[], by simp [quoteConcat]⟩
            | cons w key => exact ⟨_, quoteConcat_cons (.inf m) w key⟩
          rw [hr]
          cases m <;> rfl
        · have hfin : ∀ m, v ≠ .inf m := fun m h => hv ⟨m, h⟩
          have hmem : SqlValue.inf n ∈ key := by
            rcases List.mem_cons.mp hinf with h | h
            · exact absurd h.symm (hfin n)
            · exact h
          have hrest := ih (fun w hw => hkey w (List.mem_cons_of_mem v hw)) hmem
          cases key with
          | nil => simp at hmem
          | cons w key =>
              rw [quoteConcat_cons, List.length_cons,
                splitLoop_cons (hkey v (by simp)) hfin (Or.inr ⟨_, rfl⟩), skipDelim_delim,
                hrest]
              rfl
  simp [splitQuoteConcat, hloop]

/-- A printed value is one part. -/
theorem splitQuoteConcat_quote [Sqlite] {v : SqlValue} (hv : Storable v)
    (hfin : ∀ n, v ≠ .inf n) : splitQuoteConcat (quote v) 1 = some [quote v] := by
  have h := splitQuoteConcat_quoteConcat [v] fun w hw => by
    rw [List.mem_singleton.mp hw]
    exact ⟨hv, hfin⟩
  simpa [quoteConcat] using h

/-! ## The number of parts -/

/-- However many parts are looked for, a text that is used up falls into the same parts. -/
private theorem splitLoop_unique {n m : Nat} {t : Text} {ps qs : List Text}
    (hp : splitLoop n t = some (ps, [])) (hq : splitLoop m t = some (qs, [])) : ps = qs := by
  induction n generalizing m t ps qs with
  | zero =>
      obtain ⟨rfl, rfl⟩ := Prod.mk.inj (Option.some.inj hp)
      cases m <;> exact (Prod.mk.inj (Option.some.inj hq)).1
  | succ n ih =>
      cases t with
      | nil =>
          obtain ⟨rfl, -⟩ := Prod.mk.inj (Option.some.inj hp)
          cases m <;> exact (Prod.mk.inj (Option.some.inj hq)).1
      | cons c t =>
          cases m with
          | zero => cases hq
          | succ m =>
              rw [splitLoop] at hp hq
              obtain ⟨rest, hrest, hp⟩ := Option.bind_eq_some_iff.mp hp
              rw [hrest, Option.bind_some] at hq
              obtain ⟨⟨ps', _⟩, hps, hp⟩ := Option.map_eq_some_iff.mp hp
              obtain ⟨⟨qs', _⟩, hqs, hq⟩ := Option.map_eq_some_iff.mp hq
              obtain ⟨rfl, rfl⟩ := Prod.mk.inj hp
              obtain ⟨rfl, rfl⟩ := Prod.mk.inj hq
              rw [ih hps hqs]

/-- A text is split in one way only, whatever number of parts is asked for. -/
theorem splitQuoteConcat_unique {t : Text} {n m : Nat} {ps qs : List Text}
    (hp : splitQuoteConcat t n = some ps) (hq : splitQuoteConcat t m = some qs) : ps = qs := by
  have hloop : ∀ {n : Nat} {ps : List Text}, splitQuoteConcat t n = some ps →
      splitLoop n t = some (ps, []) := by
    intro n ps h
    obtain ⟨⟨ps', left⟩, hsplit, h⟩ := Option.bind_eq_some_iff.mp h
    dsimp only at h
    split_ifs at h with hwhole
    rw [not_or, not_not, not_not] at hwhole
    rw [hsplit, hwhole.2, Option.some.inj h]
  exact splitLoop_unique (hloop hp) (hloop hq)

/-! ## A text of one part -/

/-- What is left behind a literal is the end of the text. -/
private theorem scanToEndOfLiteral_suffix {t r : Text} (h : scanToEndOfLiteral t = some r) : r <:+ t := by
  fun_induction scanToEndOfLiteral t with
  | case1 => cases h
  | case2 =>
      obtain rfl := Option.some.inj h
      exact List.nil_suffix
  | case3 r' ih =>
      exact ((ih h).trans (List.suffix_cons _ _)).trans (List.suffix_cons _ _)
  | case4 d r' hd =>
      obtain rfl := Option.some.inj h
      exact List.suffix_cons _ _
  | case5 c t hc ih => exact (ih h).trans (List.suffix_cons _ _)

/-- What is left behind an advance is the end of the text. -/
private theorem safelyAdvanceThroughString_suffix {t r : Text} {n : Nat}
    (h : safelyAdvanceThroughString t n = some r) : r <:+ t := by
  fun_induction safelyAdvanceThroughString t n with
  | case1 =>
      obtain rfl := Option.some.inj h
      exact List.suffix_refl _
  | case2 => cases h
  | case3 c t n ih => exact (ih h).trans (List.suffix_cons _ _)

/-- What is left behind a number is the end of the text. -/
private theorem consumeDigits_suffix {d e : Nat} {t r : Text} (h : consumeDigits qcDelim d e t = some r) :
    r <:+ t := by
  fun_induction consumeDigits qcDelim d e t with
  | case1 =>
      obtain rfl := Option.some.inj h
      exact List.suffix_refl _
  | case2 =>
      obtain rfl := Option.some.inj h
      exact List.suffix_refl _
  | case3 d e c t hc hdig ih => exact (ih h).trans (List.suffix_cons _ _)
  | case4 => cases h
  | case5 d e t hne hdig hd ih => exact (ih h).trans (List.suffix_cons _ _)
  | case6 => cases h
  | case7 =>
      obtain rfl := Option.some.inj h
      exact List.nil_suffix
  | case8 d e he s r' hs h1 h2 h3 ih =>
      exact ((ih h).trans (List.suffix_cons _ _)).trans (List.suffix_cons _ _)
  | case9 d e he s r' hs h1 h2 h3 ih => exact (ih h).trans (List.suffix_cons _ _)
  | case10 => cases h

/-- What is left behind a part is the end of the text. -/
theorem scanPart_suffix {t r : Text} (h : scanPart t = some r) : r <:+ t := by
  unfold scanPart at h
  split at h
  · cases h
  · rename_i c t
    split_ifs at h with hap hX hN hneg
    · exact (scanToEndOfLiteral_suffix h).trans (List.suffix_cons _ _)
    · split at h
      · cases h
      · rename_i d t
        split_ifs at h
        exact ((scanToEndOfLiteral_suffix h).trans (List.suffix_cons _ _)).trans
          (List.suffix_cons _ _)
    · exact safelyAdvanceThroughString_suffix h
    · exact (consumeDigits_suffix h).trans (List.suffix_cons _ _)
    · exact consumeDigits_suffix h

/-- A text of one part is the part, or the part and a delimiter. -/
theorem splitQuoteConcat_one {t : Text} {parts : List Text}
    (h : splitQuoteConcat t 1 = some parts) : parts = [t] ∨ t.getLast? = some qcDelim := by
  unfold splitQuoteConcat at h
  obtain ⟨⟨ps, left⟩, hloop, hps⟩ := Option.bind_eq_some_iff.mp h
  dsimp only at hps
  split_ifs at hps with hwhole
  obtain rfl := Option.some.inj hps
  rw [not_or, not_not, not_not] at hwhole
  obtain ⟨hlen, rfl⟩ := hwhole
  cases t with
  | nil =>
      rw [splitLoop] at hloop
      obtain ⟨rfl, -⟩ := Prod.mk.inj (Option.some.inj hloop)
      cases hlen
  | cons c t =>
      rw [splitLoop] at hloop
      obtain ⟨rest, hrest, hloop⟩ := Option.bind_eq_some_iff.mp hloop
      simp only [splitLoop, Option.map_some, Option.some.injEq, Prod.mk.injEq] at hloop
      obtain ⟨rfl, hskip⟩ := hloop
      obtain ⟨p, hp⟩ := scanPart_suffix hrest
      cases rest with
      | nil =>
          left
          simp
      | cons d rest =>
          right
          rw [skipDelim] at hskip
          split_ifs at hskip with hd
          subst hd hskip
          rw [← hp]
          simp

end CrSqlite
