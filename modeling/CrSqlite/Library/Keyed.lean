import Mathlib.Data.List.Basic
import Mathlib.Data.List.Pairwise

/-!
# Library - Keyed tables

A table with a unique key, as a list of rows.  The key of a row is optional:
a row whose key is {lit}`none` never conflicts with another row, which is how
SQL treats a unique key that contains NULL.  The module fixes the four ways a
statement changes such a table (insert or replace, insert or update, change one
row in place, remove), which keep the key unique, and says what a key lookup sees
after those that add or remove rows.

Main results:

- Definition {lit}`Keyed.Unique`: no two rows share a key; every operation
  below preserves it.
- Theorems {lit}`find_put`, {lit}`find_upsert`, {lit}`find_append`,
  {lit}`find_erase` and {lit}`find_eraseIdx`: the lookup laws.
-/

namespace Keyed

variable {α κ : Type*} {key : α → Option κ}

/-- Two rows conflict when they carry the same key. -/
def Conflicts (key : α → Option κ) (a b : α) : Prop :=
  key a ≠ none ∧ key a = key b

/-- No two rows of the table conflict. -/
def Unique (key : α → Option κ) (l : List α) : Prop :=
  l.Pairwise fun a b => ¬ Conflicts key a b

theorem Conflicts.symm {a b : α} (h : Conflicts key a b) : Conflicts key b a :=
  ⟨h.2 ▸ h.1, h.2.symm⟩

/-- A row with a key conflicts exactly with the rows of that key. -/
theorem conflicts_iff {a b : α} {k : κ} (ha : key a = some k) :
    Conflicts key a b ↔ key b = some k := by
  simp [Conflicts, ha, eq_comm]

theorem Unique.nil : Unique key ([] : List α) :=
  List.Pairwise.nil

theorem Unique.filter {l : List α} (hl : Unique key l) (p : α → Bool) :
    Unique key (l.filter p) :=
  List.Pairwise.filter p hl

theorem Unique.eraseIdx {l : List α} (hl : Unique key l) (i : Nat) :
    Unique key (l.eraseIdx i) :=
  List.Pairwise.sublist (List.eraseIdx_sublist l i) hl

/-- Appending a row without a conflicting one keeps the key unique. -/
theorem Unique.append {l : List α} {a : α} (hl : Unique key l)
    (ha : ∀ b ∈ l, ¬ Conflicts key a b) : Unique key (l ++ [a]) := by
  refine List.pairwise_append.mpr ⟨hl, List.pairwise_singleton _ _, ?_⟩
  intro b hb c hc
  rw [List.mem_singleton] at hc
  subst hc
  exact fun h => ha b hb h.symm

/-- Rewriting the row at `i` under a key no other row carries keeps the key
unique. -/
theorem Unique.set {l : List α} {i : Nat} {a : α} (hl : Unique key l)
    (ha : ∀ b ∈ l.eraseIdx i, ¬ Conflicts key a b) : Unique key (l.set i a) := by
  by_cases hi : i < l.length
  · rw [List.eraseIdx_eq_take_drop_succ] at ha
    rw [List.set_eq_take_append_cons_drop, if_pos hi]
    have hsub : Unique key (l.take i ++ l.drop (i + 1)) := by
      rw [← List.eraseIdx_eq_take_drop_succ]
      exact hl.eraseIdx i
    have hpw := List.pairwise_append.mp hsub
    refine List.pairwise_append.mpr ⟨hpw.1, List.pairwise_cons.mpr ⟨?_, hpw.2.1⟩, ?_⟩
    · intro b hb
      exact ha b (List.mem_append_right _ hb)
    · intro b hb c hc
      rcases List.mem_cons.mp hc with rfl | hc
      · exact fun h => ha b (List.mem_append_left _ hb) h.symm
      · exact hpw.2.2 b hb c hc
  · rw [List.set_eq_of_length_le (Nat.le_of_not_lt hi)]
    exact hl

variable [DecidableEq κ]

/-- The row stored under the key `k`. -/
def find (key : α → Option κ) (k : κ) (l : List α) : Option α :=
  l.find? fun a => key a = some k

instance (key : α → Option κ) (a b : α) : Decidable (Conflicts key a b) :=
  inferInstanceAs (Decidable (_ ∧ _))

/-- `INSERT OR REPLACE`: the rows in conflict with `a` go, `a` comes. -/
def put (key : α → Option κ) (a : α) (l : List α) : List α :=
  l.filter (fun b => ¬ Conflicts key a b) ++ [a]

/-- `INSERT ... ON CONFLICT DO UPDATE`: the row in conflict with `a` is
rewritten by `f`; without one, `a` is added. -/
def upsert (key : α → Option κ) (f : α → α) (a : α) (l : List α) : List α :=
  if l.any (fun b => Conflicts key a b) then
    l.map fun b => if Conflicts key a b then f b else b
  else l ++ [a]

/-- `DELETE ... WHERE key = k`. -/
def erase (key : α → Option κ) (k : κ) (l : List α) : List α :=
  l.filter fun a => key a ≠ some k

/-! ## Lookups -/

theorem find_eq_none_iff {k : κ} {l : List α} :
    find key k l = none ↔ ∀ a ∈ l, key a ≠ some k := by
  simp [find]

theorem mem_of_find {k : κ} {l : List α} {a : α} (h : find key k l = some a) :
    a ∈ l :=
  List.mem_of_find?_eq_some h

theorem key_of_find {k : κ} {l : List α} {a : α} (h : find key k l = some a) :
    key a = some k := by
  simpa using List.find?_some h

/-- Some row carries the key exactly when the lookup finds one. -/
theorem exists_key_iff {k : κ} {l : List α} :
    (∃ a ∈ l, key a = some k) ↔ find key k l ≠ none := by
  simp [find]

@[simp]
theorem find_nil {k : κ} : find key k [] = none :=
  rfl

/-- The first row with the key is found. -/
theorem find_cons {k : κ} {a : α} {l : List α} :
    find key k (a :: l) = if key a = some k then some a else find key k l := by
  by_cases h : key a = some k <;> simp [find, h]

/-- In a table with a unique key the lookup finds every keyed row. -/
theorem find_of_mem {k : κ} {l : List α} {a : α} (hl : Unique key l)
    (ha : a ∈ l) (hk : key a = some k) : find key k l = some a := by
  induction l with
  | nil => simp at ha
  | cons b l ih =>
      rw [find_cons]
      rcases List.mem_cons.mp ha with rfl | hmem
      · simp [hk]
      · have hb : key b ≠ some k := by
          intro hb
          exact (List.pairwise_cons.mp hl).1 a hmem
            ((conflicts_iff hb).mpr hk)
        simp only [hb, if_false]
        exact ih (List.pairwise_cons.mp hl).2 hmem

/-- A unique key selects at most one row. -/
theorem length_filter_key {k : κ} {l : List α} (hl : Unique key l) :
    (l.filter fun a => key a = some k).length = if find key k l = none then 0 else 1 := by
  induction l with
  | nil => rfl
  | cons b l ih =>
      have htail := ih (List.pairwise_cons.mp hl).2
      by_cases hb : key b = some k
      · have hnone : find key k l = none := by
          rw [find_eq_none_iff]
          intro a ha hk
          exact (List.pairwise_cons.mp hl).1 a ha ((conflicts_iff hb).mpr hk)
        rw [hnone, if_pos rfl] at htail
        simp [find_cons, hb, htail]
      · simpa [find_cons, hb] using htail

/-! ## Appending and replacing -/

/-- A row at the end is found when no other one is. -/
theorem find_append (key : α → Option κ) {k : κ} {l : List α} {a : α} :
    find key k (l ++ [a]) =
      (find key k l).or (if key a = some k then some a else none) := by
  by_cases h : key a = some k <;> simp [find, List.find?_append, h]

theorem mem_put {a b : α} {l : List α} :
    b ∈ put key a l ↔ b = a ∨ (b ∈ l ∧ ¬ Conflicts key a b) := by
  simp [put, or_comm]

/-- A row that is put conflicts with none. -/
theorem Unique.put {a : α} {l : List α} (hl : Unique key l) :
    Unique key (put key a l) := by
  apply Unique.append (hl.filter _)
  intro b hb
  simpa using (List.mem_filter.mp hb).2

/-- A filter that keeps the key does not matter. -/
theorem find_filter_of_imp {k : κ} {l : List α} {p : α → Bool}
    (hp : ∀ a, key a = some k → p a = true) :
    find key k (l.filter p) = find key k l := by
  induction l with
  | nil => rfl
  | cons b l ih =>
      by_cases hb : p b = true
      · rw [List.filter_cons_of_pos hb, find_cons, find_cons, ih]
      · have hk : key b ≠ some k := fun h => hb (hp b h)
        rw [List.filter_cons_of_neg hb, find_cons, if_neg hk, ih]

/-- After an insert-or-replace the new row answers for its own key, and every
other key is answered as before. -/
theorem find_put {k : κ} {a : α} {l : List α} :
    find key k (put key a l) =
      if key a = some k then some a else find key k l := by
  unfold put
  rw [find_append]
  by_cases ha : key a = some k
  · have hnone : find key k (l.filter fun b => ¬ Conflicts key a b) = none := by
      rw [find_eq_none_iff]
      intro b hb hk
      have hnot := (List.mem_filter.mp hb).2
      simp only [decide_not, Bool.not_eq_eq_eq_not, Bool.not_true,
        decide_eq_false_iff_not] at hnot
      exact hnot ((conflicts_iff ha).mpr hk)
    rw [hnone, if_pos ha, if_pos ha, Option.none_or]
  · rw [find_filter_of_imp]
    · simp [ha]
    · intro b hb
      have : ¬ Conflicts key a b := fun h => ha (h.2.trans hb)
      simp [this]

/-! ## Insert or update -/

/-- After an upsert a row is an old one, the new one, or a changed one. -/
theorem mem_upsert {f : α → α} {a b : α} {l : List α}
    (h : b ∈ upsert key f a l) :
    b ∈ l ∨ b = a ∨ ∃ c ∈ l, Conflicts key a c ∧ b = f c := by
  unfold upsert at h
  split at h
  · rw [List.mem_map] at h
    obtain ⟨c, hc, rfl⟩ := h
    split
    · rename_i hconf
      exact Or.inr (Or.inr ⟨c, hc, hconf, rfl⟩)
    · exact Or.inl hc
  · rcases List.mem_append.mp h with h | h
    · exact Or.inl h
    · exact Or.inr (Or.inl (by simpa using h))

/-- A row that does not conflict with the inserted one survives an upsert. -/
theorem mem_upsert_of_mem {f : α → α} {a b : α} {l : List α} (hb : b ∈ l)
    (hab : ¬ Conflicts key a b) : b ∈ upsert key f a l := by
  unfold upsert
  split
  · exact List.mem_map.mpr ⟨b, hb, if_neg hab⟩
  · exact List.mem_append_left _ hb

/-- A row is kept or rewritten by an upsert. -/
theorem mem_upsert_or (key : α → Option κ) {f : α → α} {a b : α} {l : List α} (hb : b ∈ l) :
    b ∈ upsert key f a l ∨ (Conflicts key a b ∧ f b ∈ upsert key f a l) := by
  by_cases hab : Conflicts key a b
  · refine Or.inr ⟨hab, ?_⟩
    have hany : l.any (fun b => Conflicts key a b) = true :=
      List.any_eq_true.mpr ⟨b, hb, by simpa using hab⟩
    rw [upsert, if_pos hany]
    exact List.mem_map.mpr ⟨b, hb, if_pos hab⟩
  · exact Or.inl (mem_upsert_of_mem hb hab)

/-- The inserted row is in the table, or a row in conflict with it was
rewritten. -/
theorem exists_mem_upsert (key : α → Option κ) {f : α → α} {a : α} {l : List α} :
    a ∈ upsert key f a l ∨ ∃ b ∈ l, Conflicts key a b ∧ f b ∈ upsert key f a l := by
  by_cases hany : l.any (fun b => Conflicts key a b) = true
  · obtain ⟨b, hb, hconf⟩ := List.any_eq_true.mp hany
    have hab : Conflicts key a b := by simpa using hconf
    refine Or.inr ⟨b, hb, hab, ?_⟩
    rw [upsert, if_pos hany]
    exact List.mem_map.mpr ⟨b, hb, if_pos hab⟩
  · rw [upsert, if_neg hany]
    exact Or.inl (List.mem_append_right _ (by simp))

section Upsert

variable {f : α → α} (hf : ∀ b, key (f b) = key b)

include hf

/-- A change that keeps keys keeps them where it applies. -/
private theorem key_modify (a b : α) :
    key (if Conflicts key a b then f b else b) = key b := by
  split
  · exact hf b
  · rfl

/-- An upsert that keeps keys makes no conflict. -/
theorem Unique.upsert {a : α} {l : List α} (hl : Unique key l) :
    Unique key (upsert key f a l) := by
  unfold Keyed.upsert
  split
  · rw [Unique, List.pairwise_map]
    refine hl.imp ?_
    intro b c hbc hconf
    refine hbc ⟨?_, ?_⟩
    · have hne := hconf.1
      rwa [key_modify hf] at hne
    · have heq := hconf.2
      rwa [key_modify hf, key_modify hf] at heq
  · rename_i h
    apply hl.append
    intro b hb hconf
    exact h (List.any_eq_true.mpr ⟨b, hb, by simpa using hconf⟩)

/-- A changed row is found under its key. -/
private theorem find_map_modify {k : κ} {a : α} {l : List α} :
    find key k (l.map fun b => if Conflicts key a b then f b else b) =
      if key a = some k then (find key k l).map f else find key k l := by
  induction l with
  | nil => simp
  | cons b l ih =>
      rw [List.map_cons, find_cons, find_cons, key_modify hf, ih]
      by_cases hb : key b = some k
      · by_cases ha : key a = some k
        · simp [hb, ha, (conflicts_iff ha).mpr hb]
        · have hconf : ¬ Conflicts key a b := fun h => ha (h.2.trans hb)
          simp [hb, ha, hconf]
      · simp [hb]

/-- After an upsert, the inserted row's key answers with the rewritten row
when there was one, else with the inserted row. -/
theorem find_upsert {k : κ} {a : α} {l : List α} :
    find key k (upsert key f a l) =
      if key a = some k then some ((find key k l).elim a f) else find key k l := by
  unfold Keyed.upsert
  split
  · rename_i hany
    rw [find_map_modify hf]
    by_cases ha : key a = some k
    · obtain ⟨b, hb, hconf⟩ := List.any_eq_true.mp hany
      have hne : find key k l ≠ none := exists_key_iff.mp
        ⟨b, hb, (conflicts_iff ha).mp (by simpa using hconf)⟩
      obtain ⟨c, hc⟩ := Option.ne_none_iff_exists'.mp hne
      simp [ha, hc]
    · simp [ha]
  · rename_i hany
    rw [find_append]
    by_cases ha : key a = some k
    · have hnone : find key k l = none := by
        rw [find_eq_none_iff]
        intro b hb hk
        exact hany (List.any_eq_true.mpr
          ⟨b, hb, by simpa using (conflicts_iff ha).mpr hk⟩)
      simp [ha, hnone]
    · simp [ha]

end Upsert

/-! ## Removing rows -/

theorem mem_erase {k : κ} {a : α} {l : List α} :
    a ∈ erase key k l ↔ a ∈ l ∧ key a ≠ some k := by
  simp [erase]

theorem Unique.erase {k : κ} {l : List α} (hl : Unique key l) :
    Unique key (erase key k l) :=
  hl.filter _

/-- An erased key is not found, and the others are. -/
theorem find_erase {k k' : κ} {l : List α} :
    find key k' (erase key k l) = if k' = k then none else find key k' l := by
  by_cases hk : k' = k
  · subst hk
    rw [if_pos rfl, find_eq_none_iff]
    intro a ha
    exact (mem_erase.mp ha).2
  · rw [if_neg hk]
    apply find_filter_of_imp
    intro a ha
    simp [ha, hk]

theorem erase_erase {k : κ} {l : List α} : erase key k (erase key k l) = erase key k l := by
  simp [erase]

theorem erase_append {k : κ} {l : List α} {a : α} (ha : key a = some k) :
    erase key k (l ++ [a]) = erase key k l := by
  simp [erase, ha]

/-- The rows of all other keys are the same after an insert-or-replace. -/
theorem erase_put {k : κ} {l : List α} {a : α} (ha : key a = some k) :
    erase key k (put key a l) = erase key k l := by
  rw [put, erase_append ha, erase, List.filter_filter]
  apply List.filter_congr
  intro b _
  simp [conflicts_iff ha]

/-- The rows of all other keys are the same after an insert-or-update. -/
theorem erase_upsert {k : κ} {f : α → α} (hf : ∀ a, key (f a) = key a) {l : List α} {a : α}
    (ha : key a = some k) : erase key k (upsert key f a l) = erase key k l := by
  have hmap (l : List α) :
      erase key k (l.map fun b => if Conflicts key a b then f b else b) = erase key k l := by
    unfold erase
    induction l with
    | nil => rfl
    | cons b l ih =>
        by_cases hb : key b = some k
        · simpa [conflicts_iff ha, hb, hf] using ih
        · simpa [conflicts_iff ha, hb] using ih
  unfold upsert
  split
  · exact hmap l
  · exact erase_append ha

/-- Rows of other keys are not seen by a lookup, wherever they stand. -/
private theorem find_append_cons {k : κ} {xs ys : List α} {b : α}
    (hb : key b ≠ some k) : find key k (xs ++ b :: ys) = find key k (xs ++ ys) := by
  simp [find, List.find?_append, hb]

/-- Removing one row hides its own key and no other. -/
theorem find_eraseIdx {k : κ} {l : List α} {i : Nat} {b : α}
    (hl : Unique key l) (hi : l[i]? = some b) :
    find key k (l.eraseIdx i) = if key b = some k then none else find key k l := by
  obtain ⟨hlt, hget⟩ := List.getElem?_eq_some_iff.mp hi
  have hsplit : l = l.take i ++ b :: l.drop (i + 1) := by
    rw [← hget, List.getElem_cons_drop, List.take_append_drop]
  have herase : l.eraseIdx i = l.take i ++ l.drop (i + 1) :=
    List.eraseIdx_eq_take_drop_succ l i
  by_cases hb : key b = some k
  · rw [if_pos hb, herase, find_eq_none_iff]
    intro a ha hk
    rw [hsplit] at hl
    have hpw := List.pairwise_append.mp hl
    rcases List.mem_append.mp ha with ha | ha
    · exact hpw.2.2 a ha b (by simp) ((conflicts_iff hk).mpr hb)
    · exact (List.pairwise_cons.mp hpw.2.1).1 a ha ((conflicts_iff hb).mpr hk)
  · rw [if_neg hb, herase, ← find_append_cons hb, ← hsplit]

end Keyed
