import CrSqlite.AsOrdered
import CrSqlite.Library.Run

/-!
# LastOrdered - setting up a table again

Every call of `crsql_fract_as_ordered` drops one trigger and the view of the table, and
creates what does not exist.  The move trigger on the table is not dropped.

Main results:

- Theorem {lit}`sameObjects_iff`: what the drops and the creation leave agrees with what
  they leave of a schema without earlier objects, unless a trigger survives.
- Theorem {lit}`lastCall_wins_iff`: when the objects of a table are those of the last call.
- Theorem {lit}`moveTrigger_injective`: the text of the move trigger shows the order column.
-/

namespace CrSqlite.Ordered

open SqlText Savepoint GeneratedSql OrderedDb

section LastOrdered

variable {ρ : Type} [OrderedDb] {busy : Bool} {args : List Text} {c : Connection}
  {table orderCol : Text} {collection : List Text} {s : Contents}

/-! ## What the call creates -/

/-- The trigger a statement creates, as a schema that holds nothing else. -/
def created (name on : Text) (sql : Statement) (key : Text) : Option Trigger :=
  if key = fold name then some ⟨fold on, sql.render⟩ else none

/-- The triggers of a call, found by their names. -/
def createdTriggers (table orderCol : Text) (collection : List Text) (columns : List Column)
    (key : Text) : Option Trigger :=
  let names := columns.map Column.name
  let pks := pkNames columns
  created (pendTriggerName table) table (pendTrigger table orderCol collection) key <|>
  created (moveTriggerName table) table (moveTrigger table orderCol collection) key <|>
  created (insertTriggerName table) (viewName table)
    (insertTrigger table orderCol collection names pks) key <|>
  created (updateTriggerName (asRead table)) (viewName (asRead table))
    (updateTrigger table orderCol collection names pks) key

/-- The view of a call. -/
def createdView (table : Text) (columns : List Column) : View :=
  ⟨fold table, (fractView table (pkNames columns)).render⟩

omit [OrderedDb] in
/-- A trigger that is there stays; the other names get the new trigger. -/
theorem createTrigger_spec {s s' : Schema ρ} {name on : Text} {insteadOf : Bool}
    {sql : Statement} (h : s.createTrigger name insteadOf on sql = some s') :
    s'.tables = s.tables ∧ s'.views = s.views ∧
      ∀ key, s'.triggers key = (s.triggers key <|> created name on sql key) := by
  rw [Schema.createTrigger] at h
  split at h
  · cases h
  split at h
  next hthere =>
    rw [Option.some.injEq] at h
    refine ⟨by rw [h], by rw [h], fun key => ?_⟩
    by_cases hkey : key = fold name
    · obtain ⟨t, ht⟩ := Option.isSome_iff_exists.mp hthere
      rw [← h, hkey, ht]
      rfl
    · rw [← h, created, if_neg hkey]
      cases s.triggers key <;> rfl
  next hnone =>
    split at h
    · cases h
    rw [Option.some.injEq] at h
    have hfree : s.triggers (fold name) = none := by simpa using hnone
    have htriggers : s'.triggers =
        Function.update s.triggers (fold name) (some ⟨fold on, sql.render⟩) := by rw [← h]
    refine ⟨by rw [← h], by rw [← h], fun key => ?_⟩
    by_cases hkey : key = fold name
    · rw [htriggers, hkey, hfree, created, if_pos rfl, Function.update_self]
      rfl
    · rw [htriggers, created, if_neg hkey, Function.update_of_ne hkey]
      cases s.triggers key <;> rfl

/-- A trigger that is created leaves the tables and the views. -/
theorem execSafe_createTrigger {s s' : Contents} {name on : Text} {insteadOf : Bool}
    {sql : Statement} (h : execSafe (.createTrigger name insteadOf on sql) s = some s') :
    s'.tables = s.tables ∧ s'.views = s.views ∧
      ∀ key, s'.triggers key = (s.triggers key <|> created name on sql key) := by
  rw [execSafe] at h
  split at h
  · cases h
  · exact createTrigger_spec h

omit [OrderedDb] in
/-- A result that is no error. -/
theorem orError_eq_ok {α : Type} {msg : String} {x : Option α} {a : α}
    (h : orError msg x = .ok a) : x = some a := by
  cases x with
  | none => cases h
  | some b =>
      rw [orError, Except.ok.injEq] at h
      rw [h]

/-- A table that a trigger for its own writes was made on. -/
theorem exists_table {s s' : Contents} {name : Text} {sql : Statement}
    (hfree : s.triggers (fold name) = none)
    (h : execSafe (.createTrigger name false table sql) s = some s') :
    ∃ columns, s.tables (fold table) = some columns := by
  rw [execSafe] at h
  split at h
  · cases h
  · simp only [Schema.createTrigger, hfree, Option.isSome_none, Bool.false_eq_true,
      if_false] at h
    split at h
    · cases h
    · split at h
      · cases h
      next hkind =>
        rw [not_not] at hkind
        exact Option.isSome_iff_exists.mp (by simpa using hkind.symm)

/-- A view that is created is there, where no table or view had the name. -/
theorem execSafe_createView {s s' : Contents} {name source : Text} {sql : Statement}
    (htable : s.tables (fold name) = none) (hview : s.views (fold name) = none)
    (h : execSafe (.createView name source sql) s = some s') :
    s'.tables = s.tables ∧ s'.triggers = s.triggers ∧
      s'.views = Function.update s.views (fold name) (some ⟨fold source, sql.render⟩) := by
  rw [execSafe] at h
  split at h
  · cases h
  · rw [Option.some.injEq, Schema.createView, htable, hview] at h
    simp only [Option.isSome_none, Bool.or_self, Bool.false_eq_true, if_false] at h
    exact ⟨by rw [← h], by rw [← h], by rw [← h]⟩

/-- The columns of a table are those of its declaration. -/
theorem tableInfo_eq {s : Contents} {columns columns' : List Column}
    (htable : s.tables (fold table) = some columns) (h : tableInfo table s = some columns') :
    columns' = columns := by
  rw [tableInfo, htable] at h
  split at h
  · cases h
  · rw [Option.some.injEq, Option.getD_some] at h
    exact h.symm

/-- What a call whose steps all succeed makes of a schema without its first trigger and
without its view. -/
structure Installed (table orderCol : Text) (collection : List Text) (s s' : Contents)
    (columns : List Column) : Prop where
  tables : s.tables (fold table) = some columns
  triggers : ∀ key, s'.triggers key =
    (s.triggers key <|> createdTriggers table orderCol collection columns key)
  views : s'.views =
    Function.update s.views (fold (viewName table)) (some (createdView table columns))

/-- When every creation succeeds the table has the triggers and the view of the call: each of them
is followed through the five statements. -/
theorem createAll_ok {s' : Contents} (htable : s.tables (fold (viewName table)) = none)
    (hview : s.views (fold (viewName table)) = none)
    (hpend : s.triggers (fold (pendTriggerName table)) = none)
    (h : createAll table orderCol collection s = .ok s') :
    ∃ columns, Installed table orderCol collection s s' columns := by
  rw [createAll] at h
  cases hs₁ : orError "Failed creating triggers for the base table"
      (execSafe (.createTrigger (pendTriggerName table) false table
        (pendTrigger table orderCol collection)) s) with
  | error msg => simp [hs₁, bind, Except.bind] at h
  | ok s₁ =>
  cases hs₂ : orError "Failed creating simple move trigger"
      (execSafe (.createTrigger (moveTriggerName table) false table
        (moveTrigger table orderCol collection)) s₁) with
  | error msg => simp [hs₁, hs₂, bind, Except.bind] at h
  | ok s₂ =>
  have hfract := orError_eq_ok (show orError _ _ = .ok s' by
    simpa [hs₁, hs₂, bind, Except.bind] using h)
  have hs₁ := orError_eq_ok hs₁
  have hs₂ := orError_eq_ok hs₂
  obtain ⟨columns, hcolumns⟩ := exists_table hpend hs₁
  obtain ⟨htables₁, hviews₁, htriggers₁⟩ := execSafe_createTrigger hs₁
  obtain ⟨htables₂, hviews₂, htriggers₂⟩ := execSafe_createTrigger hs₂
  simp only [createFractViewAndViewTriggers, Option.bind_eq_bind, Option.bind_eq_some_iff,
    extractPkColumns, extractColumns, Option.map_eq_some_iff] at hfract
  obtain ⟨_, ⟨cols₁, hcols₁, rfl⟩, s₃, hs₃, _, ⟨cols₂, hcols₂, rfl⟩, _, ⟨cols₃, hcols₃, rfl⟩, s₄,
    hs₄, _, ⟨cols₄, hcols₄, rfl⟩, _, ⟨cols₅, hcols₅, rfl⟩, hs₅⟩ := hfract
  have htab₂ : s₂.tables = s.tables := htables₂.trans htables₁
  have hview₂ : s₂.views = s.views := hviews₂.trans hviews₁
  obtain ⟨htables₃, htriggers₃, hviews₃⟩ := execSafe_createView
    (htab₂ ▸ htable) (hview₂ ▸ hview) hs₃
  obtain ⟨htables₄, hviews₄, htriggers₄⟩ := execSafe_createTrigger hs₄
  obtain ⟨htables₅, hviews₅, htriggers₅⟩ := execSafe_createTrigger hs₅
  have htab₃ : s₃.tables = s.tables := htables₃.trans htab₂
  have htab₄ : s₄.tables = s.tables := htables₄.trans htab₃
  obtain rfl := tableInfo_eq (htab₂ ▸ hcolumns) hcols₁
  obtain rfl := tableInfo_eq (htab₃ ▸ hcolumns) hcols₂
  obtain rfl := tableInfo_eq (htab₃ ▸ hcolumns) hcols₃
  obtain rfl := tableInfo_eq (htab₄ ▸ hcolumns) hcols₄
  obtain rfl := tableInfo_eq (htab₄ ▸ hcolumns) hcols₅
  refine ⟨_, hcolumns, fun key => ?_, ?_⟩
  · rw [htriggers₅, htriggers₄, htriggers₃, htriggers₂, htriggers₁, createdTriggers]
    simp only [Option.orElse_eq_orElse, Option.orElse_eq_or, Option.or_assoc]
  · rw [hviews₅, hviews₄, hviews₃, hview₂]
    rfl

/-- What the two drops leave when both succeed. -/
structure Dropped (table : Text) (s s' : Contents) : Prop where
  tables : s'.tables = s.tables
  noTable : s.tables (fold (viewName table)) = none
  views : s'.views = Function.update s.views (fold (viewName table)) none
  triggers : ∀ key, s'.triggers key = if key = fold (pendTriggerName table) then none else
    (s.triggers key).filter fun t =>
      (s.views (fold (viewName table))).isNone || t.on ≠ fold (viewName table)

/-- There is no view behind the drops. -/
theorem Dropped.noView {s s' : Contents} (h : Dropped table s s') :
    s'.views = Function.update s'.views (fold (viewName table)) none := by
  rw [h.views, Function.update_idem]

/-- Where no error is reported the drop went through. -/
theorem dropOrReport_snd {stmt : Ddl} {msg : String} {state : Contents × Option Text}
    (h : (dropOrReport stmt msg state).2 = none) :
    execSafe stmt state.1 = some (dropOrReport stmt msg state).1 ∧ state.2 = none := by
  rw [dropOrReport] at h ⊢
  cases hexec : execSafe stmt state.1 with
  | none => simp [hexec] at h
  | some s => exact ⟨rfl, by simpa [hexec] using h⟩

/-- What two drops leave that go through. -/
theorem dropped_of_drops {s₁ s₂ : Contents}
    (htrigger : execSafe (.dropTrigger (pendTriggerName table)) s = some s₁)
    (hview : execSafe (.dropView (viewName table)) s₁ = some s₂) : Dropped table s s₂ := by
  simp only [execSafe] at hview htrigger
  split at htrigger
  · cases htrigger
  split at hview
  · cases hview
  rw [Option.some.injEq] at htrigger
  subst htrigger
  have htriggers := dropView_triggers hview
  have hviews := dropView_views hview
  rw [Schema.dropView] at hview
  split at hview
  · cases hview
  next hnoTable =>
    refine ⟨?_, by simpa [Schema.dropTrigger] using hnoTable, hviews, fun key => ?_⟩
    · split at hview <;>
      · rw [Option.some.injEq] at hview
        rw [← hview]
        rfl
    · rw [htriggers, Schema.dropTrigger]
      by_cases hkey : key = fold (pendTriggerName table)
      · simp [hkey]
      · simp [hkey]

/-- What the drops of a call leave that reports no error. -/
theorem dropped_of_ok (h : (dropOld table s).2 = none) :
    Dropped table s (dropOld table s).1 := by
  obtain ⟨hview, htrigger⟩ := dropOrReport_snd h
  obtain ⟨htrigger, -⟩ := dropOrReport_snd htrigger
  exact dropped_of_drops htrigger hview

/-! ## The objects of a table -/

/-- The names that triggers of the extension have. -/
def isFractTrigger (key : Text) : Bool :=
  "__crsql_".toList.isPrefixOf key &&
    ("_fractindex_pend_trig".toList.isSuffixOf key ||
      "_fractindex_ezmove".toList.isSuffixOf key) ||
  "_fractindex_insert_trig".toList.isSuffixOf key ||
  "_fractindex_update_trig".toList.isSuffixOf key

def isFractView (key : Text) : Bool :=
  "_fractindex".toList.isSuffixOf key

/-- A trigger on the table or on its view. -/
def ForTable (table : Text) (t : Trigger) : Prop :=
  t.on = fold table ∨ t.on = fold (viewName table)

instance (table : Text) (t : Trigger) : Decidable (ForTable table t) :=
  inferInstanceAs (Decidable (_ ∨ _))

/-- The schema without what earlier calls made for the table. -/
def cleared (table : Text) (s : Contents) : Contents :=
  { s with
    triggers := fun key =>
      (s.triggers key).filter fun t => !(isFractTrigger key && decide (ForTable table t))
    views := fun key =>
      (s.views key).filter fun v => !(isFractView key && v.source = fold table) }

/-- The same fractional-indexing objects for the table. -/
structure SameObjects (table : Text) (s s' : Contents) : Prop where
  triggers : ∀ key t, isFractTrigger key = true → ForTable table t →
    (s.triggers key = some t ↔ s'.triggers key = some t)
  views : ∀ key v, isFractView key = true → v.source = fold table →
    (s.views key = some v ↔ s'.views key = some v)

/-- A trigger for the table that the two drops leave. -/
structure Survives (table : Text) (s : Contents) (key : Text) (t : Trigger) : Prop where
  fract : isFractTrigger key = true
  there : s.triggers key = some t
  forTable : ForTable table t
  ne_pend : key ≠ fold (pendTriggerName table)
  noView : t.on = fold (viewName table) → s.views (fold (viewName table)) = none

/-- Every trigger that the drops leave is just as the call would create it, and there is
no view of the table under another name. -/
structure Fresh (busy : Bool) (table orderCol : Text) (collection : List Text) (s : Contents) :
    Prop where
  triggers : ∀ key t, Survives table s key t → busy = false ∧ ∀ columns,
    s.tables (fold table) = some columns →
      createdTriggers table orderCol collection columns key = some t
  views : ∀ key v, key ≠ fold (viewName table) → isFractView key = true →
    s.views key = some v → v.source ≠ fold table

/-- What a call without an error leaves. -/
theorem asOrdered_ok {args : List Text} (h : (asOrdered busy args c).2 = none) :
    ∃ table orderCol collection s, args = table :: orderCol :: collection ∧
      Dropped table c.data s ∧
      (busy = true ∧ (asOrdered busy args c).1.data = s ∨
        busy = false ∧ ∃ columns, Installed table orderCol collection s
          (asOrdered busy args c).1.data columns) := by
  match args with
  | [] => simp [asOrdered] at h
  | [_] => simp [asOrdered] at h
  | table :: orderCol :: collection =>
      refine ⟨table, orderCol, collection, (dropOld table c.data).1, rfl, ?_⟩
      rw [asOrdered] at h ⊢
      cases hcols : tableHasAllColumns table (collection ++ [orderCol])
          (dropOld table c.data).1 with
      | none => simp [hcols] at h
      | some all =>
          cases all with
          | false => simp [hcols] at h
          | true =>
              cases busy with
              | true =>
                  have hok : (dropOld table c.data).2 = none := by simpa [hcols] using h
                  exact ⟨dropped_of_ok hok, Or.inl ⟨rfl, rfl⟩⟩
              | false =>
                  cases hcreate : createAll table orderCol collection
                      (dropOld table c.data).1 with
                  | error msg => simp [hcols, hcreate] at h
                  | ok s =>
                      have hok : (dropOld table c.data).2 = none := by
                        simpa [hcols, hcreate] using h
                      have hdropped := dropped_of_ok hok
                      refine ⟨hdropped, Or.inr ⟨rfl, ?_⟩⟩
                      have hnone : (dropOld table c.data).1.views (fold (viewName table)) =
                          none := by
                        rw [hdropped.views, Function.update_self]
                      have hpend : (dropOld table c.data).1.triggers
                          (fold (pendTriggerName table)) = none := by
                        rw [hdropped.triggers, if_pos rfl]
                      have htable : (dropOld table c.data).1.tables (fold (viewName table)) =
                          none := hdropped.tables ▸ hdropped.noTable
                      simpa [release_data] using createAll_ok htable hnone hpend hcreate

/-- What the drops leave of a schema without the earlier objects of the table. -/
theorem Dropped.cleared_eq_some_iff {s' : Contents} {key : Text} {t : Trigger}
    (h : Dropped table (cleared table s) s') (hfract : isFractTrigger key = true) :
    s'.triggers key = some t ↔
      key ≠ fold (pendTriggerName table) ∧ s.triggers key = some t ∧ ¬ForTable table t := by
  rw [h.triggers]
  by_cases hkey : key = fold (pendTriggerName table)
  · simp [hkey]
  · rw [if_neg hkey]
    simp only [cleared, Option.filter_eq_some_iff, hfract, Bool.true_and, Bool.not_eq_true',
      decide_eq_false_iff_not, ne_eq, hkey, not_false_eq_true, true_and]
    constructor
    · exact fun h => h.1
    · intro ht
      have hon : t.on ≠ fold (viewName table) := fun hon => ht.2 (Or.inr hon)
      exact ⟨ht, by simp [hon]⟩

/-- What the drops leave is that, and the triggers that survive them. -/
theorem Dropped.eq_some_iff {s₁ s₂ : Contents} {key : Text} {t : Trigger}
    (h₁ : Dropped table s s₁) (h₂ : Dropped table (cleared table s) s₂)
    (hfract : isFractTrigger key = true) :
    s₁.triggers key = some t ↔ s₂.triggers key = some t ∨ Survives table s key t := by
  rw [h₂.cleared_eq_some_iff hfract, h₁.triggers]
  by_cases hkey : key = fold (pendTriggerName table)
  · simp only [hkey, if_true, reduceCtorEq, ne_eq, not_true_eq_false, false_and, false_or,
      false_iff]
    exact fun h => h.ne_pend rfl
  · simp only [if_neg hkey, Option.filter_eq_some_iff, Bool.or_eq_true, Option.isNone_iff_eq_none,
      decide_eq_true_eq]
    constructor
    · rintro ⟨hs, hview⟩
      by_cases ht : ForTable table t
      · exact Or.inr ⟨hfract, hs, ht, hkey, fun hon => hview.resolve_right fun hne => hne hon⟩
      · exact Or.inl ⟨hkey, hs, ht⟩
    · rintro (⟨-, hs, ht⟩ | hsurvives)
      · exact ⟨hs, Or.inr fun hon => ht (Or.inr hon)⟩
      · refine ⟨hsurvives.there, ?_⟩
        by_cases hon : t.on = fold (viewName table)
        · exact Or.inl (hsurvives.noView hon)
        · exact Or.inr hon

/-- The triggers of a call go wrong only where a trigger survives. -/
theorem triggers_agree_iff {s₁ s₂ : Contents} (h₁ : Dropped table s s₁)
    (h₂ : Dropped table (cleared table s) s₂) (new : Text → Option Trigger) :
    (∀ key t, isFractTrigger key = true → ForTable table t →
      ((s₁.triggers key <|> new key) = some t ↔ (s₂.triggers key <|> new key) = some t)) ↔
    ∀ key t, Survives table s key t → new key = some t := by
  constructor
  · intro h key t ht
    have hs₁ : s₁.triggers key = some t := (h₁.eq_some_iff h₂ ht.fract).mpr (Or.inr ht)
    have hs₂ := (h key t ht.fract ht.forTable).mp (by rw [hs₁]; rfl)
    cases hsome : s₂.triggers key with
    | none => simpa [hsome] using hs₂
    | some t' =>
        obtain rfl : t' = t := by simpa [hsome] using hs₂
        exact absurd ht.forTable ((h₂.cleared_eq_some_iff ht.fract).mp hsome).2.2
  · intro h key t hfract _
    cases hs₂ : s₂.triggers key with
    | some t' =>
        rw [(h₁.eq_some_iff h₂ hfract).mpr (Or.inl hs₂)]
    | none =>
        cases hs₁ : s₁.triggers key with
        | none => exact Iff.rfl
        | some t' =>
            rcases (h₁.eq_some_iff h₂ hfract).mp hs₁ with hsome | ht
            · rw [hs₂] at hsome
              cases hsome
            · rw [h key t' ht]
              exact Iff.rfl

/-- The same for views, where the one view of the call is always a new one. -/
theorem views_agree_iff {s₁ s₂ : Contents} (h₁ : Dropped table s s₁)
    (h₂ : Dropped table (cleared table s) s₂) (new : Option View) :
    (∀ key v, isFractView key = true → v.source = fold table →
      (Function.update s₁.views (fold (viewName table)) new key = some v ↔
        Function.update s₂.views (fold (viewName table)) new key = some v)) ↔
    ∀ key v, key ≠ fold (viewName table) → isFractView key = true → s.views key = some v →
      v.source ≠ fold table := by
  rw [h₁.views, h₂.views]
  simp only [Function.update_idem]
  constructor
  · intro h key v hkey hfract hv hsource
    have hagree := h key v hfract hsource
    rw [Function.update_of_ne hkey, Function.update_of_ne hkey] at hagree
    have hcleared := hagree.mp hv
    simp [cleared, Option.filter_eq_some_iff, hfract, hsource] at hcleared
  · intro h key v hfract hsource
    by_cases hkey : key = fold (viewName table)
    · rw [hkey, Function.update_self, Function.update_self]
    · rw [Function.update_of_ne hkey, Function.update_of_ne hkey]
      have hne : s.views key ≠ some v := fun hv => h key v hkey hfract hv hsource
      simp [cleared, Option.filter_eq_some_iff, hne]

/-! ## The last call wins -/

/-- The call, and the same call on the schema without what earlier calls made for the
table, both succeed and leave the same objects. -/
def Wins (busy : Bool) (args : List Text) (c : Connection) : Prop :=
  ∀ table orderCol collection, args = table :: orderCol :: collection →
    (asOrdered busy args c).2 = none →
    (asOrdered busy args (c.put (cleared table c.data))).2 = none →
      SameObjects table (asOrdered busy args c).1.data
        (asOrdered busy args (c.put (cleared table c.data))).1.data

/-- The condition for that on the schema before the call. -/
def FreshCall (busy : Bool) (args : List Text) (c : Connection) : Prop :=
  ∀ table orderCol collection, args = table :: orderCol :: collection →
    (asOrdered busy args c).2 = none →
    (asOrdered busy args (c.put (cleared table c.data))).2 = none →
      Fresh busy table orderCol collection c.data

theorem sameObjects_iff {s₁ s₂ s₁' s₂' : Contents} (h₁ : Dropped table s s₁)
    (h₂ : Dropped table (cleared table s) s₂) (newTriggers : Text → Option Trigger)
    (newView : Option View)
    (htriggers₁ : ∀ key, s₁'.triggers key = (s₁.triggers key <|> newTriggers key))
    (htriggers₂ : ∀ key, s₂'.triggers key = (s₂.triggers key <|> newTriggers key))
    (hviews₁ : s₁'.views = Function.update s₁.views (fold (viewName table)) newView)
    (hviews₂ : s₂'.views = Function.update s₂.views (fold (viewName table)) newView) :
    SameObjects table s₁' s₂' ↔
      (∀ key t, Survives table s key t → newTriggers key = some t) ∧
      ∀ key v, key ≠ fold (viewName table) → isFractView key = true → s.views key = some v →
        v.source ≠ fold table := by
  rw [← triggers_agree_iff h₁ h₂ newTriggers, ← views_agree_iff h₁ h₂ newView]
  constructor
  · rintro ⟨htriggers, hviews⟩
    refine ⟨fun key t hfract ht => ?_, fun key v hfract hsource => ?_⟩
    · rw [← htriggers₁, ← htriggers₂]
      exact htriggers key t hfract ht
    · rw [← hviews₁, ← hviews₂]
      exact hviews key v hfract hsource
  · rintro ⟨htriggers, hviews⟩
    refine ⟨fun key t hfract ht => ?_, fun key v hfract hsource => ?_⟩
    · rw [htriggers₁, htriggers₂]
      exact htriggers key t hfract ht
    · rw [hviews₁, hviews₂]
      exact hviews key v hfract hsource

/-- The objects are those of a call alone exactly when what survives the drops is what the call
would create. -/
theorem sameObjects_iff_fresh {orderCol : Text} {collection : List Text}
    (hok : (asOrdered busy (table :: orderCol :: collection) c).2 = none)
    (halone : (asOrdered busy (table :: orderCol :: collection)
      (c.put (cleared table c.data))).2 = none) :
    SameObjects table (asOrdered busy (table :: orderCol :: collection) c).1.data
        (asOrdered busy (table :: orderCol :: collection) (c.put (cleared table c.data))).1.data ↔
      Fresh busy table orderCol collection c.data := by
  obtain ⟨_, _, _, s₁, hargs₁, h₁, hs₁⟩ := asOrdered_ok hok
  obtain ⟨_, _, _, s₂, hargs₂, h₂, hs₂⟩ := asOrdered_ok halone
  simp only [List.cons.injEq] at hargs₁ hargs₂
  obtain ⟨rfl, rfl, rfl⟩ := hargs₁
  obtain ⟨rfl, rfl, rfl⟩ := hargs₂
  rcases hs₁ with ⟨rfl, hs₁⟩ | ⟨rfl, columns, hs₁⟩
  · have hs₂ := (hs₂.resolve_right fun h => by cases h.1).2
    rw [hs₁, hs₂, sameObjects_iff h₁ h₂ (fun _ => none) none (fun _ => by simp) (fun _ => by simp)
      h₁.noView h₂.noView]
    constructor
    · rintro ⟨htriggers, hviews⟩
      exact ⟨fun key t ht => (nomatch htriggers key t ht), hviews⟩
    · rintro ⟨htriggers, hviews⟩
      exact ⟨fun key t ht => (nomatch (htriggers key t ht).1), hviews⟩
  · obtain ⟨columns', hs₂⟩ := (hs₂.resolve_left fun h => by cases h.1).2
    have htable := hs₁.tables
    have hcolumns : columns' = columns := by
      have htable' := hs₂.tables
      rw [h₁.tables] at htable
      rw [h₂.tables] at htable'
      exact Option.some.inj (htable'.symm.trans htable)
    subst hcolumns
    rw [sameObjects_iff h₁ h₂ _ _ hs₁.triggers hs₂.triggers hs₁.views hs₂.views]
    rw [h₁.tables] at htable
    constructor
    · rintro ⟨htriggers, hviews⟩
      refine ⟨fun key t ht => ⟨rfl, fun columns'' hcolumns'' => ?_⟩, hviews⟩
      obtain rfl := Option.some.inj (htable.symm.trans hcolumns'')
      exact htriggers key t ht
    · rintro ⟨htriggers, hviews⟩
      exact ⟨fun key t ht => (htriggers key t ht).2 _ htable, hviews⟩

/-- The last call wins exactly when it finds nothing else. -/
theorem wins_iff_freshCall : Wins busy args c ↔ FreshCall busy args c := by
  refine forall_congr' fun table => forall_congr' fun orderCol => forall_congr' fun collection =>
    forall_congr' fun hargs => forall_congr' fun hok => forall_congr' fun halone => ?_
  subst hargs
  exact sameObjects_iff_fresh hok halone

/-! ## Runs -/

/-- Calls, and whatever else happens to the connection in between, schema changes and
transactions included. -/
inductive Event where
  | call (busy : Bool) (args : List Text)
  | other (f : Connection → Connection)

def step (c : Connection) : Event → Connection
  | .call busy args => (asOrdered busy args c).1
  | .other f => f c

/-- A call is the last one when it has been made. -/
def EventWins (c : Connection) : Event → Prop
  | .call busy args => Wins busy args c
  | .other _ => True

def EventFresh (c : Connection) : Event → Prop
  | .call busy args => FreshCall busy args c
  | .other _ => True

/-- In a run of calls and of other events, every call leaves what it alone would have
created exactly when it meets nothing that it leaves unlike that. -/
theorem lastCall_wins_iff (c : Connection) (events : List Event) :
    Run.Allowed step EventWins c events ↔ Run.Allowed step EventFresh c events := by
  refine Run.allowed_congr (fun _ => True) (fun c event _ => ?_) (fun _ _ _ _ => trivial) trivial
  cases event with
  | call busy args => exact wins_iff_freshCall
  | other f => exact Iff.rfl

end LastOrdered

/-! ## A move trigger that stays -/

/-- The name between escaped quotes is the one that is read, if plain text follows. -/
theorem readQuoted_escapedName {name rest : Text} (hrest : rest.head? ≠ some doubleQuote) :
    readQuoted doubleQuote (((escapedName name bare).render ++ rest).tail) = some (name, rest) := by
  have hread := readQuoted_doubled hrest name
  simpa [escapedName, bare, Fragment.render, Directive.print, Quote.char] using hread

/-- The text of the move trigger shows the order column. -/
theorem moveTrigger_injective {table orderCol orderCol' : Text} {collection collection' : List Text}
    (h : (moveTrigger table orderCol collection).render =
      (moveTrigger table orderCol' collection').render) : orderCol = orderCol' := by
  have hon : ∀ rest : Text, ((onText).render ++ rest).head? ≠ some doubleQuote := by
    intro rest
    simp [text, Fragment.render, PlainText.of, doubleQuote]
  simp only [moveTrigger, Statement.render, List.cons_append, List.flatMap_cons,
    List.append_cancel_left_eq] at h
  have hread := congrArg (fun t => readQuoted doubleQuote (List.tail t)) h
  simp only [readQuoted_escapedName (hon _), Option.some.injEq, Prod.mk.injEq] at hread
  exact hread.1

/-- The move trigger of the call with the given order column. -/
def todoMove (orderCol : Text) : Trigger :=
  ⟨"todo".toList, (moveTrigger "todo".toList orderCol []).render⟩

/-- Set up for another order column, the table keeps the move trigger of the first. -/
theorem moveTrigger_stays :
    ¬∀ (c : @Connection openDb) (events : List (@Event openDb)),
      Run.Allowed (@step openDb) (@EventWins openDb) c events := by
  intro h
  have hwins : @Wins openDb false ["todo".toList, "b".toList] orderedByA :=
    (h ⟨todoSchema, []⟩ [@Event.call openDb false ["todo".toList, "a".toList],
      @Event.call openDb false ["todo".toList, "b".toList]]).2.1
  have hsame := @SameObjects.triggers openDb _ _ _ (hwins _ _ _ rfl rfl rfl)
    (fold (moveTriggerName "todo".toList)) (todoMove "a".toList) (by decide +kernel) (Or.inl rfl)
  have halone := hsame.mp rfl
  have hmove : some (todoMove "b".toList) = some (todoMove "a".toList) := halone
  have htext := congrArg Trigger.sql (Option.some.inj hmove)
  exact absurd (moveTrigger_injective htext) (by decide)

end CrSqlite.Ordered
