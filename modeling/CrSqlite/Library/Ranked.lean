import Mathlib.Data.Finset.Sort

/-!
# Library - Values in the order of their ranks

Each value of a collection has a rank, which several of them may share.  Read from the lowest
rank to the highest, the collection is a list of groups: the values of a group have one rank,
and it is below the ranks of the groups behind.

Main results:

- Theorem {lit}`arrange_insert`: a value with a rank of its own is a group of its own.
- Theorem {lit}`arrange_filter`: what is taken out of the collection is taken out of its group.
- Theorem {lit}`arrange_behind_alone` and {lit}`arrange_behind_shared`: two ways to get a value
  right behind another one, by a rank for the new value or by a lower rank for the old one.
-/

namespace Ranked

/-! ## Groups -/

section Groups

variable {α : Type} {A l r : List (Multiset α)} {g : Multiset α} {a : α}

/-- Without the values that have a property; a group that loses all of its values is gone. -/
def without (p : α → Prop) [DecidablePred p] (A : List (Multiset α)) : List (Multiset α) :=
  (A.map fun g => g.filter fun b => ¬ p b).filter fun g => 0 < g.card

/-- A value behind the one of its group that has the property: the others of the group stay
with the new value. -/
def split (q : α → Prop) [DecidablePred q] (a : α) (g : Multiset α) : List (Multiset α) :=
  if (g.filter fun b => ¬ q b).card = 0 then [g, {a}]
  else [g.filter q, a ::ₘ g.filter fun b => ¬ q b]

/-- A value right behind the first one with the property, where there is one. -/
def behindFirst (q : α → Prop) [DecidablePred q] (a : α) :
    List (Multiset α) → Option (List (Multiset α))
  | [] => none
  | g :: A =>
      if 0 < g.countP q then some (split q a g ++ A)
      else (behindFirst q a A).map fun A => g :: A

/-- A value right behind the one with the property, or in front of all where there is none. -/
def behind (q : α → Prop) [DecidablePred q] (a : α) (A : List (Multiset α)) :
    List (Multiset α) :=
  (behindFirst q a A).getD ({a} :: A)

variable {q : α → Prop} [DecidablePred q]

/-- An element is put behind the first group that has one to be put behind. -/
theorem behindFirst_append (hl : ∀ g' ∈ l, g'.countP q = 0) (hg : 0 < g.countP q) :
    behindFirst q a (l ++ g :: r) = some (l ++ (split q a g ++ r)) := by
  induction l with
  | nil => simp only [List.nil_append, behindFirst, if_pos hg]
  | cons g' l ih =>
      have hnone : ¬ 0 < g'.countP q := by
        rw [hl g' List.mem_cons_self]
        exact Nat.lt_irrefl 0
      rw [List.cons_append, behindFirst, if_neg hnone,
        ih fun g'' hg'' => hl g'' (List.mem_cons_of_mem g' hg'')]
      rfl

/-- The same where there is such a group. -/
theorem behind_append (hl : ∀ g' ∈ l, g'.countP q = 0) (hg : 0 < g.countP q) :
    behind q a (l ++ g :: r) = l ++ (split q a g ++ r) := by
  rw [behind, behindFirst_append hl hg, Option.getD_some]

/-- Without one the element is put in front. -/
theorem behind_eq_cons (hA : ∀ g ∈ A, g.countP q = 0) : behind q a A = {a} :: A := by
  have hnone : behindFirst q a A = none := by
    induction A with
    | nil => rfl
    | cons g A ih =>
        have hg : ¬ 0 < g.countP q := by
          rw [hA g List.mem_cons_self]
          exact Nat.lt_irrefl 0
        rw [behindFirst, if_neg hg, ih fun g' hg' => hA g' (List.mem_cons_of_mem g hg')]
        rfl
  rw [behind, hnone, Option.getD_none]

end Groups

/-! ## The arrangement -/

section Arrange

variable {κ α : Type} [LinearOrder κ] {s t : Multiset (κ × α)} {k k' : κ} {a b : α}

/-- The values of a rank. -/
def level (s : Multiset (κ × α)) (k : κ) : Multiset α :=
  (s.filter fun p => p.1 = k).map Prod.snd

/-- The ranks that are taken, from the lowest to the highest. -/
def ranks (s : Multiset (κ × α)) : List κ :=
  (s.map Prod.fst).toFinset.sort

/-- The groups in the order of their ranks. -/
def arrange (s : Multiset (κ × α)) : List (Multiset α) :=
  (ranks s).map (level s)

theorem mem_ranks : k ∈ ranks s ↔ ∃ p ∈ s, p.1 = k := by
  rw [ranks, Finset.mem_sort, Multiset.mem_toFinset, Multiset.mem_map]

theorem ranks_pairwise (s : Multiset (κ × α)) : (ranks s).Pairwise (· < ·) :=
  (Finset.sortedLT_sort _).pairwise

theorem ranks_eq {ks : List κ} (hks : ks.Pairwise (· < ·)) (hmem : ∀ k, k ∈ ks ↔ k ∈ ranks s) :
    ranks s = ks :=
  (ranks_pairwise s).eq_of_mem_iff hks fun k => (hmem k).symm

/-- A level has the elements of its rank. -/
theorem mem_level : b ∈ level s k ↔ (k, b) ∈ s := by
  rw [level, Multiset.mem_map]
  constructor
  · rintro ⟨p, hp, rfl⟩
    obtain ⟨hmem, rfl⟩ := Multiset.mem_filter.mp hp
    exact hmem
  · intro hp
    exact ⟨(k, b), Multiset.mem_filter.mpr ⟨hp, rfl⟩, rfl⟩

theorem level_eq_zero (hk : k ∉ ranks s) : level s k = 0 :=
  Multiset.eq_zero_of_forall_notMem fun b hb => hk (mem_ranks.mpr ⟨(k, b), mem_level.mp hb, rfl⟩)

/-- A new element is one more of its level. -/
@[simp]
theorem level_cons_self (s : Multiset (κ × α)) (k : κ) (a : α) :
    level ((k, a) ::ₘ s) k = a ::ₘ level s k := by
  rw [level, Multiset.filter_cons_of_pos (p := fun p : κ × α => p.1 = k) s rfl,
    Multiset.map_cons, level]

theorem level_cons_ne (hne : k ≠ k') : level ((k, a) ::ₘ s) k' = level s k' := by
  rw [level, Multiset.filter_cons_of_neg (p := fun p : κ × α => p.1 = k') s hne, level]

theorem mem_ranks_cons : k' ∈ ranks ((k, a) ::ₘ s) ↔ k' = k ∨ k' ∈ ranks s := by
  simp only [mem_ranks, Multiset.mem_cons, or_and_right, exists_or, exists_eq_left, eq_comm]

/-- The ranks on both sides of one that is taken. -/
theorem exists_ranks_eq (hk : k ∈ ranks s) : ∃ l r, ranks s = l ++ k :: r ∧
    (∀ x ∈ l, x < k) ∧ ∀ x ∈ r, k < x := by
  obtain ⟨l, r, hlr⟩ := List.append_of_mem hk
  have hsorted := ranks_pairwise s
  rw [hlr, List.pairwise_append] at hsorted
  exact ⟨l, r, hlr, fun x hx => hsorted.2.2 x hx k List.mem_cons_self,
    fun x hx => List.rel_of_pairwise_cons hsorted.2.1 hx⟩

/-- A value between the ranks that are taken. -/
theorem arrange_insert {l r : List κ} (hs : ranks s = l ++ r) (hl : ∀ x ∈ l, x < k)
    (hr : ∀ x ∈ r, k < x) :
    arrange ((k, a) ::ₘ s) = l.map (level s) ++ {a} :: r.map (level s) := by
  have hsorted := ranks_pairwise s
  rw [hs, List.pairwise_append] at hsorted
  have hranks : ranks ((k, a) ::ₘ s) = l ++ k :: r := by
    refine ranks_eq ?_ fun x => ?_
    · rw [List.pairwise_append, List.pairwise_cons]
      refine ⟨hsorted.1, ⟨hr, hsorted.2.1⟩, fun x hx y hy => ?_⟩
      rcases List.mem_cons.mp hy with rfl | hy
      · exact hl x hx
      · exact hsorted.2.2 x hx y hy
    · rw [mem_ranks_cons, hs, List.mem_append, List.mem_append, List.mem_cons]
      exact or_left_comm
  have hfree : k ∉ ranks s := by
    rw [hs, List.mem_append]
    rintro (hk | hk)
    · exact lt_irrefl k (hl k hk)
    · exact lt_irrefl k (hr k hk)
  have hleft : ∀ x ∈ l, level ((k, a) ::ₘ s) x = level s x := fun x hx =>
    level_cons_ne (hl x hx).ne'
  have hright : ∀ x ∈ r, level ((k, a) ::ₘ s) x = level s x := fun x hx =>
    level_cons_ne (hr x hx).ne
  rw [arrange, hranks, List.map_append, List.map_cons, level_cons_self, level_eq_zero hfree,
    List.map_congr_left hleft, List.map_congr_left hright]
  rfl

/-- An element before all others is the first group. -/
theorem arrange_first (h : ∀ p ∈ s, k < p.1) : arrange ((k, a) ::ₘ s) = {a} :: arrange s := by
  refine arrange_insert (l := []) rfl (by simp) fun x hx => ?_
  obtain ⟨p, hp, rfl⟩ := mem_ranks.mp hx
  exact h p hp

/-- An element behind all others is the last group. -/
theorem arrange_last (h : ∀ p ∈ s, p.1 < k) : arrange ((k, a) ::ₘ s) = arrange s ++ [{a}] := by
  refine arrange_insert (r := []) (List.append_nil _).symm (fun x hx => ?_) (by simp)
  obtain ⟨p, hp, rfl⟩ := mem_ranks.mp hx
  exact h p hp

/-- What is taken out of the collection is taken out of its group. -/
theorem arrange_filter (p : α → Prop) [DecidablePred p] (s : Multiset (κ × α)) :
    arrange (s.filter fun x => ¬ p x.2) = without p (arrange s) := by
  have hlevel : ∀ k, level (s.filter fun x => ¬ p x.2) k = (level s k).filter fun b => ¬ p b := by
    intro k
    rw [level, level, Multiset.filter_map, Multiset.filter_filter, Multiset.filter_filter]
    congr 1
    exact Multiset.filter_congr fun x _ => and_comm
  have hranks : ranks (s.filter fun x => ¬ p x.2) =
      (ranks s).filter fun k => 0 < ((level s k).filter fun b => ¬ p b).card := by
    refine ranks_eq ((ranks_pairwise s).filter _) fun k => ?_
    rw [List.mem_filter, decide_eq_true_iff, Multiset.card_pos_iff_exists_mem, mem_ranks, mem_ranks]
    constructor
    · rintro ⟨-, b, hb⟩
      obtain ⟨hb, hpb⟩ := Multiset.mem_filter.mp hb
      exact ⟨(k, b), Multiset.mem_filter.mpr ⟨mem_level.mp hb, hpb⟩, rfl⟩
    · rintro ⟨⟨k', b⟩, hb, rfl⟩
      obtain ⟨hb, hpb⟩ := Multiset.mem_filter.mp hb
      exact ⟨⟨_, hb, rfl⟩, b, Multiset.mem_filter.mpr ⟨mem_level.mpr hb, hpb⟩⟩
  rw [arrange, hranks, without, arrange, List.map_map, List.filter_map]
  exact List.map_congr_left fun k _ => hlevel k

/-- A value for another one of the same rank. -/
theorem arrange_map (f : α → α) (s : Multiset (κ × α)) :
    arrange (s.map fun p => (p.1, f p.2)) = (arrange s).map (Multiset.map f) := by
  have hranks : ranks (s.map fun p => (p.1, f p.2)) = ranks s := by
    rw [ranks, ranks, Multiset.map_map]
    rfl
  rw [arrange, hranks, arrange, List.map_map]
  refine List.map_congr_left fun k _ => ?_
  rw [level, Multiset.filter_map, Multiset.map_map, Function.comp_apply, level, Multiset.map_map]
  rfl

/-! ## Behind a value -/

variable {q : α → Prop} [DecidablePred q]

theorem countP_level_eq_zero (h : ∀ p ∈ s, p.1 = k → ¬ q p.2) : (level s k).countP q = 0 :=
  Multiset.countP_eq_zero.mpr fun b hb => h (k, b) (mem_level.mp hb) rfl

/-- No value has the property: the new value is in front. -/
theorem behind_arrange_none (h : ∀ p ∈ s, ¬ q p.2) :
    behind q a (arrange s) = {a} :: arrange s := by
  refine behind_eq_cons fun g hg => ?_
  obtain ⟨k, -, rfl⟩ := List.mem_map.mp hg
  exact countP_level_eq_zero fun p hp _ => h p hp

/-- Behind a value that has its rank for itself: the new value gets a rank above it, and below
the other greater ones. -/
theorem arrange_behind_alone (hs : ∀ p ∈ s, ¬ q p.2 ∧ p.1 ≠ k) (hb : q b) (hlt : k < k')
    (habove : ∀ p ∈ s, k < p.1 → k' < p.1) :
    arrange ((k', a) ::ₘ (k, b) ::ₘ s) = behind q a (arrange ((k, b) ::ₘ s)) := by
  have htaken : k ∈ ranks ((k, b) ::ₘ s) := mem_ranks_cons.mpr (Or.inl rfl)
  obtain ⟨l, r, hlr, hl, hr⟩ := exists_ranks_eq htaken
  have hfree : k ∉ ranks s := fun hk => by
    obtain ⟨p, hp, heq⟩ := mem_ranks.mp hk
    exact (hs p hp).2 heq
  have hlevel : level ((k, b) ::ₘ s) k = {b} := by
    rw [level_cons_self, level_eq_zero hfree]
    rfl
  have hleft : ∀ g ∈ l.map (level ((k, b) ::ₘ s)), g.countP q = 0 := by
    intro g hg
    obtain ⟨x, hx, rfl⟩ := List.mem_map.mp hg
    rw [level_cons_ne (hl x hx).ne']
    exact countP_level_eq_zero fun p hp _ => (hs p hp).1
  have hbehind : 0 < (level ((k, b) ::ₘ s) k).countP q := by
    rw [hlevel, Multiset.countP_pos]
    exact ⟨b, Multiset.mem_singleton_self b, hb⟩
  have hmap : arrange ((k, b) ::ₘ s) = l.map (level ((k, b) ::ₘ s)) ++
      level ((k, b) ::ₘ s) k :: r.map (level ((k, b) ::ₘ s)) := by
    rw [arrange, hlr, List.map_append, List.map_cons]
  rw [arrange_insert (l := l ++ [k]) (r := r) (by simp [hlr])]
  · rw [hmap, behind_append hleft hbehind, hlevel]
    simp [split, hb, hlevel]
  · intro x hx
    rcases List.mem_append.mp hx with hx | hx
    · exact (hl x hx).trans hlt
    · rwa [List.mem_singleton.mp hx]
  · intro x hx
    have hmem : x ∈ ranks s := by
      have hall : x ∈ ranks ((k, b) ::ₘ s) :=
        hlr ▸ List.mem_append_right l (List.mem_cons_of_mem k hx)
      exact (mem_ranks_cons.mp hall).resolve_left (hr x hx).ne'
    obtain ⟨p, hp, rfl⟩ := mem_ranks.mp hmem
    exact habove p hp (hr _ hx)

/-- Behind a value that gets out of the way: the new value gets its rank, and it a lower one,
above the other lower ones. -/
theorem arrange_behind_shared (hs : ∀ p ∈ s, ¬ q p.2) (hb : q b) (hlt : k' < k)
    (hbelow : ∀ p ∈ s, p.1 < k → p.1 < k') :
    arrange ((k, a) ::ₘ (k', b) ::ₘ s) = behind q a (arrange ((k, b) ::ₘ s)) := by
  have htaken : k ∈ ranks ((k, b) ::ₘ s) := mem_ranks_cons.mpr (Or.inl rfl)
  obtain ⟨l, r, hlr, hl, hr⟩ := exists_ranks_eq htaken
  have hsorted := ranks_pairwise ((k, b) ::ₘ s)
  rw [hlr, List.pairwise_append, List.pairwise_cons] at hsorted
  have hlow : ∀ x ∈ l, x < k' := by
    intro x hx
    have hmem : x ∈ ranks s := by
      have hall : x ∈ ranks ((k, b) ::ₘ s) := hlr ▸ List.mem_append_left _ hx
      exact (mem_ranks_cons.mp hall).resolve_left (hl x hx).ne
    obtain ⟨p, hp, rfl⟩ := mem_ranks.mp hmem
    exact hbelow p hp (hl _ hx)
  have hfree : k' ∉ ranks s := fun hk => by
    obtain ⟨p, hp, rfl⟩ := mem_ranks.mp hk
    exact lt_irrefl _ (hbelow p hp hlt)
  have hranks : ranks ((k, a) ::ₘ (k', b) ::ₘ s) = l ++ k' :: k :: r := by
    refine ranks_eq ?_ fun x => ?_
    · simp only [List.pairwise_append, List.pairwise_cons, List.mem_cons]
      refine ⟨hsorted.1, ⟨?_, hsorted.2.1⟩, ?_⟩
      · rintro x (rfl | hx)
        · exact hlt
        · exact hlt.trans (hr x hx)
      · rintro x hx y (rfl | rfl | hy)
        · exact hlow x hx
        · exact hl x hx
        · exact (hl x hx).trans (hr y hy)
    · have hmem : x = k ∨ x ∈ ranks s ↔ x ∈ l ++ k :: r := by rw [← hlr, mem_ranks_cons]
      rw [mem_ranks_cons, mem_ranks_cons, or_left_comm, hmem]
      simp only [List.mem_append, List.mem_cons]
      exact or_left_comm
  have hleft : ∀ x ∈ l, level ((k, a) ::ₘ (k', b) ::ₘ s) x = level ((k, b) ::ₘ s) x := by
    intro x hx
    rw [level_cons_ne (hl x hx).ne', level_cons_ne (hlow x hx).ne', level_cons_ne (hl x hx).ne']
  have hright : ∀ x ∈ r, level ((k, a) ::ₘ (k', b) ::ₘ s) x = level ((k, b) ::ₘ s) x := by
    intro x hx
    rw [level_cons_ne (hr x hx).ne, level_cons_ne (hlt.trans (hr x hx)).ne,
      level_cons_ne (hr x hx).ne]
  have hnone : ∀ g ∈ l.map (level ((k, b) ::ₘ s)), g.countP q = 0 := by
    intro g hg
    obtain ⟨x, hx, rfl⟩ := List.mem_map.mp hg
    rw [level_cons_ne (hl x hx).ne']
    exact countP_level_eq_zero fun p hp _ => hs p hp
  have hrest : ∀ c ∈ level s k, ¬ q c := fun c hc => hs (k, c) (mem_level.mp hc)
  rw [arrange, hranks, arrange, hlr, List.map_append, List.map_append, List.map_cons,
    List.map_cons, List.map_cons, List.map_congr_left hleft, List.map_congr_left hright,
    behind_append hnone]
  · rw [level_cons_ne hlt.ne', level_cons_self, level_cons_self, level_cons_ne hlt.ne,
      level_cons_self, level_eq_zero hfree, split,
      Multiset.filter_cons_of_neg (p := fun b => ¬ q b) _ (not_not.mpr hb),
      Multiset.filter_cons_of_pos _ hb, Multiset.filter_eq_self.mpr hrest,
      Multiset.filter_eq_nil.mpr hrest]
    split
    next hcard => simp [Multiset.card_eq_zero.mp hcard]
    next => simp
  · rw [level_cons_self, Multiset.countP_pos]
    exact ⟨b, Multiset.mem_cons_self b _, hb⟩

end Arrange

end Ranked
