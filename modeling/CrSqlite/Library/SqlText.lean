import Mathlib.Data.Bool.AllAny
import Mathlib.Data.List.Basic
import Mathlib.Data.List.Chain

/-!
# Library - SQL text with quoted names

How SQL reads a text as far as quotes are concerned: a double-quoted name, a
single-quoted string, and single characters outside of quotes.  A statement
is put together from fragments, each either SQL text or a name between quotes,
printed as it is or with its quotes doubled.

Main results:

- Theorem {lit}`SqlText.readQuoted_doubled`: a name with its quotes doubled is
  read back.
- Theorem {lit}`SqlText.readQuoted_raw_iff`: a name printed as it is is read back
  exactly when it has no quote of the kind around it.
- Theorem {lit}`SqlText.readsBack_iff`: a statement is read as its fragments say
  exactly when every name in it is read back.
-/

namespace SqlText

/-! ## Quotes -/

/-- The quote around names. -/
def doubleQuote : Char := Char.ofNat 34

/-- The quote around strings. -/
def singleQuote : Char := Char.ofNat 39

/-- The two quotes. -/
def IsQuote (c : Char) : Prop :=
  c = doubleQuote ∨ c = singleQuote

instance (c : Char) : Decidable (IsQuote c) :=
  inferInstanceAs (Decidable (_ ∨ _))

/-- Double every `q`. -/
def doubled (q : Char) : List Char → List Char
  | [] => []
  | c :: t => if c = q then c :: c :: doubled q t else c :: doubled q t

/-- From behind an opening quote: what stands between the quotes, and the text
behind the closing quote. -/
def readQuoted (q : Char) : List Char → Option (List Char × List Char)
  | [] => none
  | c :: t =>
      if c = q then
        match t with
        | [] => some ([], [])
        | d :: r =>
            if d = q then (readQuoted q r).map fun (x, rest) => (q :: x, rest)
            else some ([], d :: r)
      else (readQuoted q t).map fun (x, rest) => (c :: x, rest)

/-- A character that is no quote is read as it is. -/
theorem readQuoted_char {q c : Char} (hc : c ≠ q) (t : List Char) :
    readQuoted q (c :: t) = (readQuoted q t).map fun (x, rest) => (c :: x, rest) := by
  rw [readQuoted.eq_def]
  exact if_neg hc

/-- Two quotes are read as one. -/
theorem readQuoted_pair (q : Char) (t : List Char) :
    readQuoted q (q :: q :: t) = (readQuoted q t).map fun (x, rest) => (q :: x, rest) := by
  rw [readQuoted.eq_def]
  simp

/-- A quote that is not doubled ends the name. -/
theorem readQuoted_close {q : Char} {t : List Char} (ht : t.head? ≠ some q) :
    readQuoted q (q :: t) = some ([], t) := by
  rw [readQuoted.eq_def]
  cases t with
  | nil => simp
  | cons d t =>
      have hd : d ≠ q := by simpa using ht
      simp [hd]

/-- A name with its quotes doubled is read back. -/
theorem readQuoted_doubled {q : Char} {rest : List Char} (hrest : rest.head? ≠ some q)
    (name : List Char) : readQuoted q (doubled q name ++ q :: rest) = some (name, rest) := by
  induction name with
  | nil => exact readQuoted_close hrest
  | cons c name ih =>
      by_cases hc : c = q
      · subst hc
        rw [doubled, if_pos rfl, List.cons_append, List.cons_append, readQuoted_pair, ih]
        rfl
      · rw [doubled, if_neg hc, List.cons_append, readQuoted_char hc, ih]
        rfl

/-- What was read is what stands there with its quotes doubled. -/
theorem readQuoted_eq_some {q : Char} {t x rest : List Char}
    (h : readQuoted q t = some (x, rest)) : t = doubled q x ++ q :: rest := by
  fun_induction readQuoted q t generalizing x rest with
  | case1 => cases h
  | case2 =>
      obtain ⟨rfl, rfl⟩ := Prod.mk.inj (Option.some.inj h)
      rfl
  | case3 r ih =>
      obtain ⟨⟨x', rest'⟩, hr, h⟩ := Option.map_eq_some_iff.mp h
      obtain ⟨rfl, rfl⟩ := Prod.mk.inj h
      rw [ih hr, doubled, if_pos rfl]
      rfl
  | case4 d r hd =>
      obtain ⟨rfl, rfl⟩ := Prod.mk.inj (Option.some.inj h)
      rfl
  | case5 c t hc ih =>
      obtain ⟨⟨x', rest'⟩, hr, h⟩ := Option.map_eq_some_iff.mp h
      obtain ⟨rfl, rfl⟩ := Prod.mk.inj h
      rw [ih hr, doubled, if_neg hc]
      rfl

/-- A closing quote is not followed by a quote. -/
theorem readQuoted_rest {q : Char} {t x rest : List Char}
    (h : readQuoted q t = some (x, rest)) : rest.head? ≠ some q := by
  fun_induction readQuoted q t generalizing x rest with
  | case1 => cases h
  | case2 =>
      obtain ⟨rfl, rfl⟩ := Prod.mk.inj (Option.some.inj h)
      simp
  | case3 r ih =>
      obtain ⟨⟨x', rest'⟩, hr, h⟩ := Option.map_eq_some_iff.mp h
      obtain ⟨rfl, rfl⟩ := Prod.mk.inj h
      exact ih hr
  | case4 d r hd =>
      obtain ⟨rfl, rfl⟩ := Prod.mk.inj (Option.some.inj h)
      simpa using hd
  | case5 c t hc ih =>
      obtain ⟨⟨x', rest'⟩, hr, h⟩ := Option.map_eq_some_iff.mp h
      obtain ⟨rfl, rfl⟩ := Prod.mk.inj h
      exact ih hr

/-- A text without quotes is its own doubled form. -/
theorem doubled_of_notMem {q : Char} {t : List Char} (h : q ∉ t) : doubled q t = t := by
  induction t with
  | nil => rfl
  | cons c t ih =>
      rw [List.mem_cons, not_or] at h
      rw [doubled, if_neg (Ne.symm h.1), ih h.2]

/-- Texts in a row are doubled one by one. -/
theorem doubled_append (q : Char) (t u : List Char) :
    doubled q (t ++ u) = doubled q t ++ doubled q u := by
  induction t with
  | nil => rfl
  | cons c t ih =>
      by_cases hc : c = q
      · simp [doubled, hc, ih]
      · simp [doubled, hc, ih]

/-- A text that ends at a quote is not doubled behind more quotes. -/
private theorem ne_doubled {q : Char} {t rest r : List Char} (hrest : rest.head? ≠ some q)
    (k : Nat) : t ++ q :: rest ≠ List.replicate (k + 1) q ++ (doubled q t ++ q :: r) := by
  -- each quote of `t` in front of the text is two in the doubled text, so it falls behind
  induction t generalizing k with
  | nil =>
      intro h
      rw [List.nil_append, List.replicate_succ, List.cons_append] at h
      have h := (List.cons.inj h).2
      cases k with
      | zero =>
          rw [h] at hrest
          exact hrest rfl
      | succ k =>
          rw [h] at hrest
          exact hrest rfl
  | cons c t ih =>
      intro h
      rw [List.cons_append, List.replicate_succ, List.cons_append] at h
      obtain ⟨rfl, h⟩ := List.cons.inj h
      rw [doubled, if_pos rfl] at h
      have hk : List.replicate k c ++ (c :: c :: doubled c t ++ c :: r) =
          List.replicate (k + 1 + 1) c ++ (doubled c t ++ c :: r) := by
        rw [List.replicate_succ', List.replicate_succ']
        simp
      exact ih (k + 1) (h.trans hk)

/-- A name printed as it is is read back exactly when it has no quote in it. -/
theorem readQuoted_raw_iff {q : Char} {t rest : List Char} (hrest : rest.head? ≠ some q) :
    (∃ r, readQuoted q (t ++ q :: rest) = some (t, r)) ↔ q ∉ t := by
  constructor
  · rintro ⟨r, hr⟩ hmem
    have h := readQuoted_eq_some hr
    obtain ⟨a, b, rfl, ha⟩ := List.eq_append_cons_of_mem hmem
    rw [doubled_append, doubled_of_notMem ha, doubled, if_pos rfl] at h
    simp only [List.append_assoc, List.cons_append] at h
    have h := (List.cons.inj (List.append_cancel_left h)).2
    exact ne_doubled hrest 0 h
  · intro h
    have hr := readQuoted_doubled hrest t
    rw [doubled_of_notMem h] at hr
    exact ⟨rest, hr⟩

/-! ## Tokens -/

/-- What SQL reads as far as quotes are concerned. -/
inductive Token where
  | char (c : Char)
  | name (t : List Char)
  | string (t : List Char)
deriving DecidableEq

/-- The token a quoted text is read as. -/
def quotedToken (q : Char) (t : List Char) : Token :=
  if q = doubleQuote then .name t else .string t

/-- Read a text, outside of quotes or behind an opening quote and the part of the
quoted text read so far. -/
def scanFrom : Option (Char × List Char) → List Char → Option (List Token)
  | none, [] => some []
  | none, c :: t =>
      if IsQuote c then scanFrom (some (c, [])) t
      else (scanFrom none t).map fun ts => .char c :: ts
  | some _, [] => none
  | some (q, x), c :: t =>
      if c = q then
        match t with
        | [] => some [quotedToken q x]
        | d :: r =>
            if d = q then scanFrom (some (q, x ++ [q])) r
            else (scanFrom none (d :: r)).map fun ts => quotedToken q x :: ts
      else scanFrom (some (q, x ++ [c])) t

/-- The tokens of a text; none where a quote is left open. -/
def scan (t : List Char) : Option (List Token) :=
  scanFrom none t

/-- The text does not go on with a quote. -/
def StartsPlain (t : List Char) : Prop :=
  ∀ q, IsQuote q → t.head? ≠ some q

/-- A character that is no quote is a token. -/
theorem scan_char {c : Char} (hc : ¬IsQuote c) (t : List Char) :
    scan (c :: t) = (scan t).map fun ts => .char c :: ts := by
  rw [scan, scanFrom, if_neg hc]
  rfl

/-- Inside of a name the scan goes on where the name ends. -/
private theorem scanFrom_some (q : Char) (x t : List Char) :
    scanFrom (some (q, x)) t = (readQuoted q t).bind fun (y, rest) =>
      (scan rest).map fun ts => quotedToken q (x ++ y) :: ts := by
  fun_induction readQuoted q t generalizing x with
  | case1 => rfl
  | case2 => simp [scanFrom, scan]
  | case3 r ih =>
      rw [scanFrom.eq_def]
      simp only [if_true, ih]
      cases readQuoted q r with
      | none => rfl
      | some y => simp
  | case4 d r hd =>
      rw [scanFrom.eq_def]
      simp [hd, scan]
  | case5 c t hc ih =>
      rw [scanFrom.eq_def]
      simp only [hc, if_false, ih]
      cases readQuoted q t with
      | none => rfl
      | some y => simp

/-- A quote begins a name. -/
theorem scan_quote {q : Char} (hq : IsQuote q) (t : List Char) :
    scan (q :: t) = (readQuoted q t).bind fun (x, rest) =>
      (scan rest).map fun ts => quotedToken q x :: ts := by
  rw [scan, scanFrom, if_pos hq, scanFrom_some]
  simp

/-- A name whose quotes were doubled is one token. -/
theorem scan_doubled {q : Char} (hq : IsQuote q) {rest : List Char} (hrest : StartsPlain rest)
    (t : List Char) : scan (q :: (doubled q t ++ q :: rest)) =
      (scan rest).map fun ts => quotedToken q t :: ts := by
  rw [scan_quote hq, readQuoted_doubled (hrest q hq)]
  rfl

/-- A text that leaves no quote open is read up to its end first. -/
theorem scan_append {t : List Char} {ts : List Token} (ht : scan t = some ts)
    {rest : List Char} (hrest : StartsPlain rest) :
    scan (t ++ rest) = (scan rest).map fun us => ts ++ us := by
  obtain ⟨n, hn⟩ : ∃ n, t.length ≤ n := ⟨_, Nat.le_refl _⟩
  induction n generalizing t ts with
  | zero =>
      obtain rfl := List.length_eq_zero_iff.mp (Nat.le_zero.mp hn)
      obtain rfl := Option.some.inj ht
      simp
  | succ n ih =>
      cases t with
      | nil =>
          obtain rfl := Option.some.inj ht
          simp
      | cons c t =>
          have hlen : t.length ≤ n := Nat.le_of_succ_le_succ hn
          by_cases hc : IsQuote c
          · rw [scan_quote hc] at ht
            obtain ⟨⟨x, r⟩, hread, ht⟩ := Option.bind_eq_some_iff.mp ht
            obtain ⟨us, hus, rfl⟩ := Option.map_eq_some_iff.mp ht
            have ht := readQuoted_eq_some hread
            subst ht
            have hr : r.length ≤ n := by
              simp only [List.length_append, List.length_cons] at hlen
              omega
            have hnext : (r ++ rest).head? ≠ some c := by
              cases r with
              | nil => exact hrest c hc
              | cons d r =>
                  have hd := readQuoted_rest hread
                  simpa using hd
            rw [List.cons_append, List.append_assoc, List.cons_append, scan_quote hc,
              readQuoted_doubled hnext, Option.bind_some]
            simp only [ih hus hr, Option.map_map, Function.comp_def, List.cons_append]
          · rw [scan_char hc] at ht
            obtain ⟨us, hus, rfl⟩ := Option.map_eq_some_iff.mp ht
            rw [List.cons_append, scan_char hc, ih hus hlen]
            simp [Option.map_map, Function.comp_def]

/-- The text a token is read from. -/
def Token.print : Token → List Char
  | char c => [c]
  | name t => doubleQuote :: (doubled doubleQuote t ++ [doubleQuote])
  | string t => singleQuote :: (doubled singleQuote t ++ [singleQuote])

/-- A name is printed with its quotes doubled. -/
private theorem print_quotedToken {q : Char} (hq : IsQuote q) (t : List Char) :
    (quotedToken q t).print = q :: (doubled q t ++ [q]) := by
  rcases hq with rfl | rfl
  · rfl
  · rfl

/-- The tokens of a text print as the text. -/
theorem flatMap_print_of_scan {t : List Char} {ts : List Token} (h : scan t = some ts) :
    ts.flatMap Token.print = t := by
  obtain ⟨n, hn⟩ : ∃ n, t.length ≤ n := ⟨_, Nat.le_refl _⟩
  induction n generalizing t ts with
  | zero =>
      obtain rfl := List.length_eq_zero_iff.mp (Nat.le_zero.mp hn)
      obtain rfl := Option.some.inj h
      rfl
  | succ n ih =>
      cases t with
      | nil =>
          obtain rfl := Option.some.inj h
          rfl
      | cons c t =>
          by_cases hc : IsQuote c
          · rw [scan_quote hc] at h
            obtain ⟨⟨x, r⟩, hread, h⟩ := Option.bind_eq_some_iff.mp h
            obtain ⟨us, hus, rfl⟩ := Option.map_eq_some_iff.mp h
            obtain rfl := readQuoted_eq_some hread
            have hr : r.length ≤ n := by
              simp only [List.length_append, List.length_cons] at hn
              omega
            rw [List.flatMap_cons, print_quotedToken hc, ih hus hr]
            simp
          · rw [scan_char hc] at h
            obtain ⟨us, hus, rfl⟩ := Option.map_eq_some_iff.mp h
            rw [List.flatMap_cons, ih hus (Nat.le_of_succ_le_succ hn)]
            rfl

/-- Texts that are read alike are equal. -/
theorem scan_injective {t u : List Char} {ts : List Token} (ht : scan t = some ts)
    (hu : scan u = some ts) : t = u :=
  (flatMap_print_of_scan ht).symm.trans (flatMap_print_of_scan hu)

/-! ## Text without quotes -/

/-- A text without quotes is read character by character. -/
theorem scan_plain_append {t : List Char} (ht : ∀ c ∈ t, ¬IsQuote c) (rest : List Char) :
    scan (t ++ rest) = (scan rest).map fun ts => t.map Token.char ++ ts := by
  induction t with
  | nil => simp
  | cons c t ih =>
      rw [List.cons_append, scan_char (ht c List.mem_cons_self),
        ih fun d hd => ht d (List.mem_cons_of_mem c hd)]
      simp [Option.map_map, Function.comp_def]

/-- A text without quotes is its characters. -/
theorem scan_plain {t : List Char} (ht : ∀ c ∈ t, ¬IsQuote c) :
    scan t = some (t.map Token.char) := by
  have h := scan_plain_append ht []
  simpa [scan, scanFrom] using h

/-- A text without quotes. -/
structure PlainText where
  chars : List Char
  noQuote : ∀ c ∈ chars, ¬IsQuote c

/-- No character of a literal text is a quote, where the list has none. -/
theorem noQuote_ofList {l : List Char} (h : l.all fun c => ¬IsQuote c) :
    ∀ c ∈ (String.ofList l).toList, ¬IsQuote c := by
  rw [String.toList_ofList]
  exact List.all_iff_forall_prop.mp h

/-- The text of a literal, checked for quotes where it is written down. -/
def PlainText.of (s : String)
    (h : ∀ c ∈ s.toList, ¬IsQuote c := by exact noQuote_ofList (by decide +kernel)) : PlainText :=
  ⟨s.toList, h⟩

/-- A plain text without characters is empty. -/
@[simp] theorem PlainText.of_chars_eq_nil {s : String} {h : ∀ c ∈ s.toList, ¬IsQuote c} :
    (PlainText.of s h).chars = [] ↔ s = "" :=
  String.toList_eq_nil_iff

/-! ## Statements -/

/-- How a name is printed between quotes: as it is, or with its quotes doubled. -/
inductive Directive where
  | raw
  | escaped
deriving DecidableEq

/-- What stands between the quotes. -/
def Directive.print (q : Char) (t : List Char) : Directive → List Char
  | raw => t
  | escaped => doubled q t

/-- The two kinds of quotes. -/
inductive Quote where
  | double
  | single
deriving DecidableEq

/-- The character of a quote. -/
def Quote.char : Quote → Char
  | double => doubleQuote
  | single => singleQuote

/-- A quote is one. -/
theorem Quote.isQuote (q : Quote) : IsQuote q.char := by
  cases q with
  | double => exact Or.inl rfl
  | single => exact Or.inr rfl

/-- The pieces a statement is put together from: text of its own, a value's text
as it comes, a name between quotes with what follows it inside them. -/
inductive Fragment where
  | plain (t : PlainText)
  | value (t : List Char)
  | quoted (q : Quote) (directive : Directive) (name : List Char) (suffix : PlainText)

/-- A text of fragments. -/
abbrev Statement := List Fragment

namespace Fragment

/-- The text of a fragment. -/
def render : Fragment → List Char
  | plain t => t.chars
  | value t => t
  | quoted q directive name suffix =>
      q.char :: (directive.print q.char name ++ suffix.chars ++ [q.char])

/-- What the fragment is meant to be read as. -/
def tokens : Fragment → List Token
  | plain t => t.chars.map Token.char
  | value t => (scan t).getD []
  | quoted q _ name suffix => [quotedToken q.char (name ++ suffix.chars)]

/-- The name in the fragment is read back. -/
def ReadsBack : Fragment → Prop
  | quoted q directive name _ => directive = .escaped ∨ q.char ∉ name
  | _ => True

/-- Values leave no quote open. -/
def Closed : Fragment → Prop
  | value t => scan t ≠ none
  | _ => True

/-- No quote stands at the border of the two fragments, or at one side only. -/
def Apart : Fragment → Fragment → Prop
  | plain _, _ => True
  | _, plain t => t.chars ≠ []
  | _, _ => False

end Fragment

namespace Statement

/-- The text of a statement. -/
def render (s : Statement) : List Char :=
  s.flatMap Fragment.render

/-- What the statement is meant to be read as. -/
def tokens (s : Statement) : List Token :=
  s.flatMap Fragment.tokens

/-- Quoted fragments and values are kept apart by text. -/
def Spaced (s : Statement) : Prop :=
  s.IsChain Fragment.Apart

/-- Every name in the statement is read back. -/
def Readable (s : Statement) : Prop :=
  ∀ f ∈ s, f.ReadsBack

/-- Every value in the statement leaves no quote open. -/
def Closed (s : Statement) : Prop :=
  ∀ f ∈ s, f.Closed

/-- The statement is read as its fragments say. -/
def ReadsBack (s : Statement) : Prop :=
  scan s.render = some s.tokens

theorem render_append (s s' : Statement) : render (s ++ s') = render s ++ render s' :=
  List.flatMap_append

@[simp] theorem readable_nil : Readable [] := by
  simp [Readable]

@[simp] theorem readable_cons {f : Fragment} {s : Statement} :
    Readable (f :: s) ↔ f.ReadsBack ∧ Readable s := by
  simp [Readable]

@[simp] theorem readable_append {s s' : Statement} :
    Readable (s ++ s') ↔ Readable s ∧ Readable s' := by
  simp only [Readable, List.forall_mem_append]

@[simp] theorem closed_nil : Closed [] := by
  simp [Closed]

@[simp] theorem closed_cons {f : Fragment} {s : Statement} :
    Closed (f :: s) ↔ f.Closed ∧ Closed s := by
  simp [Closed]

@[simp] theorem closed_append {s s' : Statement} :
    Closed (s ++ s') ↔ Closed s ∧ Closed s' := by
  simp only [Closed, List.forall_mem_append]

@[simp] theorem spaced_nil : Spaced [] :=
  List.isChain_nil

@[simp] theorem spaced_singleton (f : Fragment) : Spaced [f] :=
  List.isChain_singleton f

/-- Behind a plain text anything is spaced. -/
@[simp] theorem spaced_plain_cons {t : PlainText} {s : Statement} :
    Spaced (.plain t :: s) ↔ Spaced s := by
  cases s with
  | nil => simp
  | cons g s => simp [Spaced, Fragment.Apart]

/-- Behind a name a plain text with characters is spaced. -/
@[simp] theorem spaced_quoted_plain {q : Quote} {directive : Directive} {name : List Char}
    {suffix t : PlainText} {s : Statement} :
    Spaced (.quoted q directive name suffix :: .plain t :: s) ↔ t.chars ≠ [] ∧ Spaced s := by
  rw [← spaced_plain_cons (t := t) (s := s)]
  exact List.isChain_cons_cons

/-- Behind a value a plain text with characters is spaced. -/
@[simp] theorem spaced_value_plain {v : List Char} {t : PlainText} {s : Statement} :
    Spaced (.value v :: .plain t :: s) ↔ t.chars ≠ [] ∧ Spaced s := by
  rw [← spaced_plain_cons (t := t) (s := s)]
  exact List.isChain_cons_cons

/-- Text keeps what stands at its two sides apart. -/
theorem spaced_append_plain {s s' : Statement} {t : PlainText} (ht : t.chars ≠ []) :
    Spaced (s ++ .plain t :: s') ↔ Spaced s ∧ Spaced s' := by
  rw [← spaced_plain_cons (t := t) (s := s')]
  unfold Spaced
  rw [List.isChain_append]
  constructor
  · exact fun h => ⟨h.1, h.2.1⟩
  · refine fun h => ⟨h.1, h.2, fun f _ g hg => ?_⟩
    obtain rfl : Fragment.plain t = g := by simpa using hg
    cases f with
    | plain => trivial
    | value => exact ht
    | quoted => exact ht

/-- Statements joined by separators that start and end with text. -/
theorem spaced_intercalate {sep : Statement} {parts : List Statement}
    (hsep : ∀ s s', Spaced s → Spaced s' → Spaced (s ++ (sep ++ s')))
    (hparts : ∀ p ∈ parts, Spaced p) : Spaced (List.intercalate sep parts) := by
  induction parts with
  | nil => exact spaced_nil
  | cons p parts ih =>
      cases parts with
      | nil => simpa using hparts p List.mem_cons_self
      | cons p' parts =>
          rw [List.intercalate_cons_cons, List.append_assoc]
          exact hsep _ _ (hparts p List.mem_cons_self)
            (ih fun r hr => hparts r (List.mem_cons_of_mem p hr))

/-- Statements one behind another, each starting with text. -/
theorem spaced_flatMap {α : Type*} {l : List α} {f : α → Statement}
    (hstart : ∀ a ∈ l, ∃ t s, t.chars ≠ [] ∧ f a = .plain t :: s) (hl : ∀ a ∈ l, Spaced (f a)) :
    Spaced (l.flatMap f) := by
  induction l with
  | nil => exact spaced_nil
  | cons a l ih =>
      have hrest := ih (fun b hb => hstart b (List.mem_cons_of_mem a hb))
        fun b hb => hl b (List.mem_cons_of_mem a hb)
      have hfirst := hl a List.mem_cons_self
      rw [List.flatMap_cons]
      cases l with
      | nil => simpa using hfirst
      | cons b l =>
          obtain ⟨t, s, ht, hb⟩ := hstart b (List.mem_cons_of_mem a List.mem_cons_self)
          rw [List.flatMap_cons, hb] at hrest ⊢
          rw [List.cons_append, spaced_append_plain ht]
          exact ⟨hfirst, spaced_plain_cons.mp hrest⟩

/-- A property of fragments holds in joined statements when it holds in the parts
and in the separator. -/
theorem forall_mem_intercalate {P : Fragment → Prop} {sep : Statement} {parts : List Statement}
    (hsep : ∀ f ∈ sep, P f) :
    (∀ f ∈ List.intercalate sep parts, P f) ↔ ∀ p ∈ parts, ∀ f ∈ p, P f := by
  induction parts with
  | nil => simp [List.intercalate]
  | cons p parts ih =>
      cases parts with
      | nil => simp [List.intercalate]
      | cons p' parts =>
          rw [List.intercalate_cons_cons, List.forall_mem_append, List.forall_mem_append, ih]
          simp only [List.forall_mem_cons]
          exact ⟨fun h => ⟨h.1.1, h.2⟩, fun h => ⟨⟨h.1, hsep⟩, h.2⟩⟩

end Statement

/-! ## What a statement is read as -/

/-- A token shows its name. -/
theorem quotedToken_injective {q : Char} {t u : List Char}
    (h : quotedToken q t = quotedToken q u) : t = u := by
  unfold quotedToken at h
  split_ifs at h
  · exact Token.name.inj h
  · exact Token.string.inj h

/-- Tokens in front can be left out on both sides. -/
private theorem map_append_eq_iff {o : Option (List Token)} {ts us : List Token} :
    (o.map fun x => ts ++ x) = some (ts ++ us) ↔ o = some us := by
  cases o with
  | none => simp
  | some x => simp

/-- A name between quotes as it is scans as itself exactly when it has no such quote. -/
private theorem scan_raw_iff {q : Char} (hq : IsQuote q) {t rest : List Char}
    (hrest : StartsPlain rest) {us : List Token} :
    scan (q :: (t ++ q :: rest)) = some (quotedToken q t :: us) ↔
      q ∉ t ∧ scan rest = some us := by
  constructor
  · intro h
    rw [scan_quote hq] at h
    obtain ⟨⟨x, r⟩, hread, h⟩ := Option.bind_eq_some_iff.mp h
    obtain ⟨ts, hts, h⟩ := Option.map_eq_some_iff.mp h
    obtain ⟨htok, rfl⟩ := List.cons.inj h
    obtain rfl := quotedToken_injective htok
    have hmem : q ∉ x := (readQuoted_raw_iff (hrest q hq)).mp ⟨r, hread⟩
    have hback := readQuoted_doubled (hrest q hq) x
    rw [doubled_of_notMem hmem, hread] at hback
    obtain ⟨-, rfl⟩ := Prod.mk.inj (Option.some.inj hback)
    exact ⟨hmem, hts⟩
  · rintro ⟨hmem, hscan⟩
    have h := scan_doubled hq hrest t
    rw [doubled_of_notMem hmem, hscan] at h
    exact h

/-- A name between quotes is read back, and the text goes on behind it, exactly
when its quotes are doubled or it has none. -/
private theorem scan_quoted_iff {q : Quote} {directive : Directive} {name : List Char}
    {suffix : PlainText} {rest : List Char} (hrest : StartsPlain rest) {us : List Token} :
    scan ((Fragment.quoted q directive name suffix).render ++ rest) =
        some (quotedToken q.char (name ++ suffix.chars) :: us) ↔
      (directive = .escaped ∨ q.char ∉ name) ∧ scan rest = some us := by
  have hsuffix : q.char ∉ suffix.chars := fun h => suffix.noQuote _ h q.isQuote
  cases directive with
  | raw =>
      have htext : (Fragment.quoted q .raw name suffix).render ++ rest =
          q.char :: ((name ++ suffix.chars) ++ q.char :: rest) := by
        simp [Fragment.render, Directive.print]
      rw [htext, scan_raw_iff q.isQuote hrest]
      simp [hsuffix]
  | escaped =>
      have htext : (Fragment.quoted q .escaped name suffix).render ++ rest =
          q.char :: (doubled q.char (name ++ suffix.chars) ++ q.char :: rest) := by
        simp [Fragment.render, Directive.print, doubled_append, doubled_of_notMem hsuffix]
      rw [htext, scan_doubled q.isQuote hrest]
      simp

/-- What stands apart from a fragment that is not plain is a plain text with characters. -/
private theorem apart_plain {f g : Fragment} (hf : ∀ t, f ≠ .plain t) (h : f.Apart g) :
    ∃ t, g = .plain t ∧ t.chars ≠ [] := by
  cases f with
  | plain t => exact absurd rfl (hf t)
  | value t =>
      cases g with
      | plain t => exact ⟨t, rfl, h⟩
      | value => cases h
      | quoted => cases h
  | quoted =>
      cases g with
      | plain t => exact ⟨t, rfl, h⟩
      | value => cases h
      | quoted => cases h

/-- Behind a fragment that is not plain a spaced statement goes on without a quote. -/
private theorem startsPlain_render {f : Fragment} {s : Statement}
    (hs : Statement.Spaced (f :: s)) (hf : ∀ t, f ≠ .plain t) :
    StartsPlain (Statement.render s) := by
  intro q hq hhead
  cases s with
  | nil => cases hhead
  | cons g s =>
      obtain ⟨t, rfl, ht⟩ := apart_plain hf (List.isChain_cons_cons.mp hs).1
      obtain ⟨c, u, hcu⟩ := List.exists_cons_of_ne_nil ht
      have hc : c = q := by simpa [Statement.render, Fragment.render, hcu] using hhead
      exact t.noQuote c (by rw [hcu]; exact List.mem_cons_self) (hc ▸ hq)

/-- A statement is read as its fragments say exactly when every name in it is read
back. -/
theorem readsBack_iff {s : Statement} (hs : s.Spaced) (hclosed : s.Closed) :
    s.ReadsBack ↔ s.Readable := by
  unfold Statement.ReadsBack Statement.Readable
  induction s with
  | nil => simp [scan, scanFrom, Statement.render, Statement.tokens]
  | cons f s ih =>
      have htail : Statement.Spaced s := List.IsChain.tail hs
      have ih := ih htail fun g hg => hclosed g (List.mem_cons_of_mem f hg)
      rw [List.forall_mem_cons, ← ih]
      have hrender : Statement.render (f :: s) = f.render ++ Statement.render s := rfl
      have htokens : Statement.tokens (f :: s) = f.tokens ++ Statement.tokens s := rfl
      rw [hrender, htokens]
      cases f with
      | plain t =>
          rw [Fragment.render, scan_plain_append t.noQuote, Fragment.tokens, map_append_eq_iff]
          simp [Fragment.ReadsBack]
      | value t =>
          have hplain := startsPlain_render hs (by simp)
          obtain ⟨ts, hts⟩ := Option.ne_none_iff_exists'.mp (hclosed _ List.mem_cons_self)
          rw [Fragment.render, scan_append hts hplain, Fragment.tokens, hts,
            Option.getD_some, map_append_eq_iff]
          simp [Fragment.ReadsBack]
      | quoted q directive name suffix =>
          exact scan_quoted_iff (startsPlain_render hs (by simp))

end SqlText
