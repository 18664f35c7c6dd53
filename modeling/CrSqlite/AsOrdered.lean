import CrSqlite.GeneratedSql
import CrSqlite.Library.Savepoint
import Mathlib.Data.List.Sort
import Mathlib.Logic.Function.Basic

/-!
# AsOrdered - setting up a table for fractional indexing

`crsql_fract_as_ordered` makes two triggers on a table, a view of the table, and two
triggers on the view (core/rs/fractindex-core).  Objects of the schema are found by their
names, which SQLite compares without case.  A statement may be refused for every reason
SQLite has, so that stays a parameter; what a statement does when it is not refused is
written out.  Runs of blanks in the texts are one blank here.

Main results:

- Theorem {lit}`failedCall_keeps_iff`: when a call that fails leaves the schema and the
  transactions alone.
- Theorem {lit}`failedCall_loses_view`: a column that does not exist costs a table its view.
-/

namespace CrSqlite.Ordered

open SqlText Savepoint GeneratedSql

/-! ## Names -/

/-- How SQLite compares names. -/
def fold (name : Text) : Text :=
  name.map Char.toLower

def pendTriggerName (table : Text) : Text :=
  "__crsql_".toList ++ table ++ "_fractindex_pend_trig".toList

def moveTriggerName (table : Text) : Text :=
  "__crsql_".toList ++ table ++ "_fractindex_ezmove".toList

def viewName (table : Text) : Text :=
  table ++ "_fractindex".toList

def insertTriggerName (table : Text) : Text :=
  table ++ "_fractindex_insert_trig".toList

def updateTriggerName (table : Text) : Text :=
  table ++ "_fractindex_update_trig".toList

/-- The name that SQLite reads where a name was put between double quotes as it is. -/
def asRead (name : Text) : Text :=
  ((readQuoted doubleQuote (name ++ [doubleQuote])).map Prod.fst).getD name

/-! ## Texts of the objects -/

/-- `where_predicates`. -/
def wherePredicates (columns : List Text) : Statement :=
  if columns.isEmpty then [text "1"]
  else List.intercalate [conjunction]
    (columns.map fun c => [rawName c bare, text " = NEW.", rawName c bare])

/-- `collection_min_select` and `collection_max_select`. -/
def collectionSelect (aggregate : Fragment) (table orderCol : Text) (collection : List Text) :
    Statement :=
  [select, aggregate, text "(", escapedName orderCol bare, closingFrom,
    escapedName table bare, whereText] ++ wherePredicates collection ++
  [conjunction, escapedName orderCol bare, text " != -1 AND ", escapedName orderCol bare,
    text " != 1"]

def collectionMinSelect (table orderCol : Text) (collection : List Text) : Statement :=
  collectionSelect (text "MIN") table orderCol collection

def collectionMaxSelect (table orderCol : Text) (collection : List Text) : Statement :=
  collectionSelect (text "MAX") table orderCol collection

/-- What the two triggers on the table do with -1 and 1. -/
def placeAtEnd (table orderCol : Text) (collection : List Text) : Statement :=
  [text " WHEN NEW.", escapedName orderCol bare, text " = -1 OR NEW.",
    escapedName orderCol bare, text " = 1 BEGIN UPDATE ", escapedName table bare,
    text " SET ", escapedName orderCol bare, text " = CASE NEW.", escapedName orderCol bare,
    text " WHEN -1 THEN crsql_fract_key_between(NULL, ("] ++
  collectionMinSelect table orderCol collection ++
  [text ")) WHEN 1 THEN crsql_fract_key_between(("] ++
  collectionMaxSelect table orderCol collection ++
  [text "), NULL) END WHERE _rowid_ = NEW._rowid_; END;"]

def crsqlName (table : Text) (suffix : PlainText) : Fragment :=
  escapedName ("__crsql_".toList ++ table) suffix

/-- `create_pend_trigger`. -/
def pendTrigger (table orderCol : Text) (collection : List Text) : Statement :=
  [createTrigger, crsqlName table (.of "_fractindex_pend_trig"),
    afterInsert, escapedName table bare] ++ placeAtEnd table orderCol collection

/-- `create_simple_move_trigger`. -/
def moveTrigger (table orderCol : Text) (collection : List Text) : Statement :=
  [createTrigger, crsqlName table (.of "_fractindex_ezmove"),
    text " AFTER UPDATE OF ", escapedName orderCol bare, onText,
    escapedName table bare] ++ placeAtEnd table orderCol collection

/-- The view of `create_fract_view_and_view_triggers`. -/
def fractView (table : Text) (pks : List Text) : Statement :=
  [text "CREATE VIEW IF NOT EXISTS ", escapedName table (.of "_fractindex"),
    text " AS SELECT *, "] ++
  List.intercalate [comma]
    (pks.map fun pk => [text "NULL AS ", escapedName ("after_".toList ++ pk) bare]) ++
  [text " FROM ", escapedName table bare]

/-- The five texts of `create_common_inputs`. -/
structure CommonInputs where
  afterPkValues : Statement
  listPredicates : Statement
  afterPredicates : Statement
  listNameArgs : Statement
  pkNameArgs : Statement

def createCommonInputs (pks collection : List Text) : CommonInputs where
  afterPkValues := List.intercalate [comma]
    (pks.map fun pk => [.plain newRow, escapedName ("after_".toList ++ pk) bare])
  listPredicates := wherePredicates collection
  afterPredicates := List.intercalate [conjunction]
    (pks.map fun pk => [escapedName pk bare, text " = NEW.",
      escapedName ("after_".toList ++ pk) bare])
  listNameArgs := List.intercalate [comma] (collection.map fun c => [escapedString c])
  pkNameArgs := List.intercalate [comma] (pks.map fun pk => [escapedString pk])

/-- The new key behind the anchor, as both triggers on the view compute it; the update
trigger leaves its names unescaped. -/
def placeAfter (name : Text → Fragment) (table orderCol : Text) (inputs : CommonInputs) :
    Statement :=
  let anchorKey := [text "(SELECT ", name orderCol, text " FROM ", name table,
    whereText] ++ inputs.afterPredicates ++ [closing]
  [text "CASE (SELECT count(*) FROM ", name table, whereText] ++ inputs.listPredicates ++
  [conjunction, name orderCol, equals] ++ anchorKey ++
  [text ") WHEN 1 THEN crsql_fract_key_between("] ++ anchorKey ++
  [text ", (SELECT ", name orderCol, text " FROM ", name table, whereText] ++
  inputs.listPredicates ++ [conjunction, name orderCol, text " > "] ++ anchorKey ++
  [text " ORDER BY ", name orderCol, text " ASC LIMIT 1)) WHEN 0 THEN -1 ELSE ",
    text "crsql_fract_fix_conflict_return_old_key(", escapedString table, comma,
    escapedString orderCol, comma] ++ inputs.listNameArgs ++
  (if inputs.listNameArgs.isEmpty then [] else [comma]) ++ [text " -1, "] ++
  inputs.pkNameArgs ++ [comma] ++ inputs.afterPkValues ++ [text ") END"]

/-- `create_instead_of_insert_trigger`. -/
def insertTrigger (table orderCol : Text) (collection columns pks : List Text) : Statement :=
  let others := columns.filter fun c => c ≠ orderCol
  [createTrigger, escapedName table (.of "_fractindex_insert_trig"),
    text " INSTEAD OF INSERT ON ", escapedName table (.of "_fractindex"),
    beginInsert, escapedName table bare, opening] ++
  List.intercalate [comma] (others.map fun c => [escapedName c bare]) ++
  [comma, escapedName orderCol bare, text ") VALUES ( "] ++
  List.intercalate [comma] (others.map fun c => [.plain newRow, escapedName c bare]) ++
  [comma] ++
  placeAfter (fun name => escapedName name bare) table orderCol
    (createCommonInputs pks collection) ++
  [text " ); END;"]

/-- `create_instead_of_update_trigger`. -/
def updateTrigger (table orderCol : Text) (collection columns pks : List Text) : Statement :=
  [createTrigger, rawName table (.of "_fractindex_update_trig"),
    text " INSTEAD OF UPDATE ON ", rawName table (.of "_fractindex"), text " BEGIN UPDATE ",
    rawName table bare, text " SET "] ++
  List.intercalate [comma] ((columns.filter fun c => c ≠ orderCol).map fun c =>
    [rawName c bare, text " = NEW.", rawName c bare]) ++
  [comma, rawName orderCol bare, equals] ++
  placeAfter (fun name => rawName name bare) table orderCol
    (createCommonInputs pks collection) ++
  [whereText] ++ wherePredicates pks ++ [text "; END;"]

/-! ## Schemas -/

/-- A row of `pragma_table_info`. -/
structure Column where
  name : Text
  pk : Nat
deriving DecidableEq

structure Trigger where
  on : Text
  sql : Text
deriving DecidableEq

structure View where
  source : Text
  sql : Text
deriving DecidableEq

/-- The objects of a database under their folded names, and whatever else it holds. -/
@[ext]
structure Schema (ρ : Type) where
  tables : Text → Option (List Column)
  views : Text → Option View
  triggers : Text → Option Trigger
  rest : ρ

/-- The kinds of statements that the function runs. -/
inductive Ddl where
  | dropTrigger (name : Text)
  | dropView (name : Text)
  | createTrigger (name : Text) (insteadOf : Bool) (on : Text) (sql : Statement)
  | createView (name source : Text) (sql : Statement)

/-- SQLite as the function meets it. -/
class OrderedDb where
  Rest : Type
  /-- Whether a statement fails, for a reason other than those in the steps below. -/
  refuses : Ddl → Schema Rest → Bool
  queryFails : Schema Rest → Bool
  viewColumns : Text → Schema Rest → List Column
  mayCommit : Schema Rest → Bool

open OrderedDb

variable {ρ : Type}

/-- `DROP TRIGGER IF EXISTS`. -/
def Schema.dropTrigger (name : Text) (s : Schema ρ) : Schema ρ :=
  { s with triggers := Function.update s.triggers (fold name) none }

/-- `DROP VIEW IF EXISTS`: the triggers on the view go with it. -/
def Schema.dropView (name : Text) (s : Schema ρ) : Option (Schema ρ) :=
  if (s.tables (fold name)).isSome then none
  else if (s.views (fold name)).isNone then some s
  else some { s with
    views := Function.update s.views (fold name) none
    triggers := fun key => (s.triggers key).filter fun t => t.on ≠ fold name }

/-- `CREATE TRIGGER IF NOT EXISTS`: first the table is looked up, then the name. -/
def Schema.createTrigger (name : Text) (insteadOf : Bool) (on : Text) (sql : Statement)
    (s : Schema ρ) : Option (Schema ρ) :=
  if (s.tables (fold on)).isNone && (s.views (fold on)).isNone then none
  else if (s.triggers (fold name)).isSome then some s
  else if insteadOf ≠ (s.tables (fold on)).isNone then none
  else some { s with
    triggers := Function.update s.triggers (fold name) (some ⟨fold on, sql.render⟩) }

/-- `CREATE VIEW IF NOT EXISTS`. -/
def Schema.createView (name source : Text) (sql : Statement) (s : Schema ρ) : Schema ρ :=
  if (s.tables (fold name)).isSome || (s.views (fold name)).isSome then s
  else { s with views := Function.update s.views (fold name) (some ⟨fold source, sql.render⟩) }

section AsOrdered

variable [OrderedDb]

abbrev Contents := Schema Rest

abbrev Connection := Conn Contents Text

/-- `exec_safe`, and `prepare_v2` with `step`. -/
def execSafe (stmt : Ddl) (s : Contents) : Option Contents :=
  if refuses stmt s then none
  else match stmt with
    | .dropTrigger name => some (s.dropTrigger name)
    | .dropView name => s.dropView name
    | .createTrigger name insteadOf on sql => s.createTrigger name insteadOf on sql
    | .createView name source sql => some (s.createView name source sql)

/-- `pragma_table_info`, of a table or of a view. -/
def tableInfo (table : Text) (s : Contents) : Option (List Column) :=
  if queryFails s then none else some ((s.tables (fold table)).getD (viewColumns table s))

/-- `extract_columns`. -/
def extractColumns (table : Text) (s : Contents) : Option (List Text) :=
  (tableInfo table s).map (List.map Column.name)

def pkNames (columns : List Column) : List Text :=
  ((columns.filter fun c => 0 < c.pk).insertionSort fun c d => c.pk ≤ d.pk).map Column.name

/-- `extract_pk_columns`. -/
def extractPkColumns (table : Text) (s : Contents) : Option (List Text) :=
  (tableInfo table s).map pkNames

/-- `table_has_all_columns`: counts the columns that are among those provided. -/
def tableHasAllColumns (table : Text) (provided : List Text) (s : Contents) : Option Bool :=
  (tableInfo table s).map fun columns =>
    (columns.filter fun c => c.name ∈ provided).length = provided.length

/-- A result, or an error with its message. -/
def orError {α : Type} (msg : String) : Option α → Except Text α
  | some a => .ok a
  | none => .error msg.toList

/-- A drop at the start of `as_ordered`: an error is reported, and the call goes on. -/
def dropOrReport (stmt : Ddl) (msg : String) (state : Contents × Option Text) :
    Contents × Option Text :=
  match execSafe stmt state.1 with
  | some s => (s, state.2)
  | none => (state.1, some msg.toList)

/-- The two drops. -/
def dropOld (table : Text) (s : Contents) : Contents × Option Text :=
  dropOrReport (.dropView (viewName table))
    "Failed dropping prior incarnation of fractindex views"
    (dropOrReport (.dropTrigger (pendTriggerName table))
      "Failed dropping prior incarnation of fractindex triggers" (s, none))

/-- `create_fract_view_and_view_triggers`. -/
def createFractViewAndViewTriggers (table orderCol : Text) (collection : List Text)
    (s : Contents) : Option Contents := do
  let pks ← extractPkColumns table s
  let s ← execSafe (.createView (viewName table) table (fractView table pks)) s
  let columns ← extractColumns table s
  let pks ← extractPkColumns table s
  let s ← execSafe (.createTrigger (insertTriggerName table) true (viewName table)
    (insertTrigger table orderCol collection columns pks)) s
  let columns ← extractColumns table s
  let pks ← extractPkColumns table s
  execSafe (.createTrigger (updateTriggerName (asRead table)) true (viewName (asRead table))
    (updateTrigger table orderCol collection columns pks)) s

/-- What the call does inside of its savepoint. -/
def createAll (table orderCol : Text) (collection : List Text) (s : Contents) :
    Except Text Contents := do
  let s ← orError "Failed creating triggers for the base table"
    (execSafe (.createTrigger (pendTriggerName table) false table
      (pendTrigger table orderCol collection)) s)
  let s ← orError "Failed creating simple move trigger"
    (execSafe (.createTrigger (moveTriggerName table) false table
      (moveTrigger table orderCol collection)) s)
  orError "Failed creating view for the base table"
    (createFractViewAndViewTriggers table orderCol collection s)

def asOrderedSavepoint : Text :=
  "as_ordered".toList

/-- `crsql_fract_as_ordered` and `as_ordered`, with the error that is reported; `busy` says
that the statement of the call writes, so that no savepoint can be opened. -/
def asOrdered (busy : Bool) (args : List Text) (c : Connection) : Connection × Option Text :=
  match args with
  | table :: orderCol :: collection =>
      let dropped := dropOld table c.data
      match tableHasAllColumns table (collection ++ [orderCol]) dropped.1 with
      | none =>
          (c.put dropped.1,
            some "Failed determining if all columns are present in the base table".toList)
      | some false =>
          (c.put dropped.1, some "all columns are not present in the base table".toList)
      | some true =>
          if busy then (c.put dropped.1, dropped.2)
          else
            let opened := (c.put dropped.1).savepoint asOrderedSavepoint
            match createAll table orderCol collection dropped.1 with
            | .error msg => (opened.orSame Conn.rollback, some msg)
            | .ok s =>
                ((opened.put s).orSame (Conn.release mayCommit asOrderedSavepoint), dropped.2)
  | _ =>
      (c, some ("Must provide at least 2 arguments -- " ++
        "the table name and the column to order by").toList)

/-! ## Nothing lost by a call that fails -/

variable {busy : Bool} {args : List Text} {c : Connection} {table orderCol : Text}
  {collection : List Text} {s : Contents} {e : Text}

/-- Neither the trigger nor the view that the call drops first is there, or its drop is
refused. -/
def NothingToDrop (table : Text) (s : Contents) : Prop :=
  (s.triggers (fold (pendTriggerName table)) = none ∨
      refuses (.dropTrigger (pendTriggerName table)) s = true) ∧
    (s.views (fold (viewName table)) = none ∨ s.tables (fold (viewName table)) ≠ none ∨
      refuses (.dropView (viewName table)) s = true)

omit [OrderedDb] in
/-- A drop changes nothing when there is no such trigger. -/
theorem dropTrigger_eq_self_iff {s : Schema ρ} {name : Text} :
    s.dropTrigger name = s ↔ s.triggers (fold name) = none := by
  constructor
  · intro h
    rw [← h]
    simp [Schema.dropTrigger]
  · intro h
    ext1
    · rfl
    · rfl
    · rw [Schema.dropTrigger, ← h, Function.update_eq_self]
    · rfl

omit [OrderedDb] in
/-- The view goes when there is one, and no other view does. -/
theorem dropView_views {s s' : Schema ρ} {name : Text} (h : s.dropView name = some s') :
    s'.views = Function.update s.views (fold name) none := by
  rw [Schema.dropView] at h
  split at h
  · cases h
  · split at h
    next hnone =>
      rw [Option.some.injEq] at h
      rw [← h, ← Option.isNone_iff_eq_none.mp hnone, Function.update_eq_self]
    next =>
      rw [Option.some.injEq] at h
      rw [← h]

omit [OrderedDb] in
/-- The triggers on the view go with it. -/
theorem dropView_triggers {s s' : Schema ρ} {name : Text} (h : s.dropView name = some s')
    (key : Text) : s'.triggers key =
      (s.triggers key).filter fun t => (s.views (fold name)).isNone || t.on ≠ fold name := by
  rw [Schema.dropView] at h
  split at h
  · cases h
  · split at h
    next hnone =>
      rw [Option.some.injEq] at h
      rw [← h]
      cases htrigger : s.triggers key <;> simp [hnone, Option.filter]
    next hsome =>
      rw [Option.some.injEq] at h
      rw [← h]
      simp [hsome]

omit [OrderedDb] in
/-- A drop changes nothing when there is no such view, or a table has its name. -/
theorem dropView_eq_self_iff {s : Schema ρ} {name : Text} :
    (s.dropView name).getD s = s ↔
      s.views (fold name) = none ∨ s.tables (fold name) ≠ none := by
  by_cases htable : (s.tables (fold name)).isSome
  · have hne : s.tables (fold name) ≠ none := Option.isSome_iff_ne_none.mp htable
    simp [Schema.dropView, htable, hne]
  · have hnone : s.tables (fold name) = none := by simpa using htable
    constructor
    · intro h
      cases hdrop : s.dropView name with
      | none =>
          rw [Schema.dropView, if_neg htable] at hdrop
          split at hdrop
          · cases hdrop
          · cases hdrop
      | some s' =>
          rw [hdrop, Option.getD_some] at h
          subst h
          have hviews := congrFun (dropView_views hdrop) (fold name)
          rw [Function.update_self] at hviews
          exact Or.inl hviews
    · rintro (hview | hsome)
      · simp [Schema.dropView, htable, hview]
      · exact absurd hnone hsome

/-- What a drop leaves. -/
theorem dropOrReport_fst (stmt : Ddl) (msg : String) (state : Contents × Option Text) :
    (dropOrReport stmt msg state).1 = (execSafe stmt state.1).getD state.1 := by
  rw [dropOrReport]
  cases execSafe stmt state.1 <;> rfl

/-- The two drops leave the schema alone when there is nothing to drop. -/
theorem dropOld_eq_self_iff : (dropOld table s).1 = s ↔ NothingToDrop table s := by
  rw [dropOld, dropOrReport_fst, dropOrReport_fst]
  have htrigger : (execSafe (.dropTrigger (pendTriggerName table)) s).getD s = s ↔
      s.triggers (fold (pendTriggerName table)) = none ∨
        refuses (.dropTrigger (pendTriggerName table)) s = true := by
    by_cases hrefuses : refuses (.dropTrigger (pendTriggerName table)) s = true
    · simp [execSafe, hrefuses]
    · simp [execSafe, hrefuses, dropTrigger_eq_self_iff]
  have hview : (execSafe (.dropView (viewName table)) s).getD s = s ↔
      s.views (fold (viewName table)) = none ∨ s.tables (fold (viewName table)) ≠ none ∨
        refuses (.dropView (viewName table)) s = true := by
    by_cases hrefuses : refuses (.dropView (viewName table)) s = true
    · simp [execSafe, hrefuses]
    · simp [execSafe, hrefuses, dropView_eq_self_iff]
  rw [NothingToDrop, ← htrigger, ← hview]
  generalize hfirst : (execSafe (.dropTrigger (pendTriggerName table)) s).getD s = s₁
  constructor
  · intro h
    -- a trigger that the first drop removed is not put back by the second
    have hsame : s₁ = s := by
      by_cases hrefuses : refuses (.dropTrigger (pendTriggerName table)) s = true
      · rw [← hfirst, execSafe, if_pos hrefuses, Option.getD_none]
      · rw [execSafe, if_neg hrefuses, Option.getD_some] at hfirst
        have hgone : s₁.triggers (fold (pendTriggerName table)) = none := by
          rw [← hfirst]
          simp [Schema.dropTrigger]
        rw [← hfirst, dropTrigger_eq_self_iff, ← h, execSafe]
        split
        · exact hgone
        · cases hdrop : s₁.dropView (viewName table) with
          | none => exact hgone
          | some s₂ =>
              rw [Option.getD_some, dropView_triggers hdrop, hgone]
              rfl
    rw [hsame] at h
    exact ⟨hsame, h⟩
  · rintro ⟨rfl, h⟩
    exact h

/-- The schema is already what the call makes of it. -/
def AlreadyOrdered (table orderCol : Text) (collection : List Text) (s : Contents) : Prop :=
  createAll table orderCol collection (dropOld table s).1 = .ok s

/-- When a call that fails loses nothing: it has too few arguments; or there is nothing to
drop, and no transaction that the call would end; or only a drop failed, on a schema that
the call does not change. -/
def KeepsAll (busy : Bool) (args : List Text) (c : Connection) : Prop :=
  match args with
  | table :: orderCol :: collection =>
      if tableHasAllColumns table (collection ++ [orderCol]) (dropOld table c.data).1 =
          some true ∧ busy = false then
        (NothingToDrop table c.data ∧ c.Idle ∧
          ∀ s, createAll table orderCol collection (dropOld table c.data).1 ≠ .ok s) ∨
        (AlreadyOrdered table orderCol collection c.data ∧ (c.Idle → mayCommit c.data = true))
      else NothingToDrop table c.data
  | _ => True

private theorem put_eq_self_iff {d : Contents} : c.put d = c ↔ d = c.data := by
  obtain ⟨data, levels⟩ := c
  simp [Conn.put]

/-- A rollback after the drops leaves everything alone when there was no transaction and
nothing to drop. -/
private theorem rollback_eq_self_iff {d : Contents} :
    ((c.put d).savepoint asOrderedSavepoint).orSame Conn.rollback = c ↔ d = c.data ∧ c.Idle := by
  constructor
  · intro h
    have hidle : c.Idle := h ▸ idle_rollback _
    have hput : (c.put d).Idle := hidle
    have hback := rollback_savepoint hput asOrderedSavepoint d
    refine ⟨put_eq_self_iff.mp ?_, hidle⟩
    rw [← hback]
    exact h
  · rintro ⟨rfl, hidle⟩
    exact rollback_savepoint hidle asOrderedSavepoint c.data

/-- A release behind the creations leaves everything when they made nothing new and are
committed. -/
private theorem release_eq_self_iff {d s : Contents} :
    (((c.put d).savepoint asOrderedSavepoint).put s).orSame
        (Conn.release mayCommit asOrderedSavepoint) = c ↔
      s = c.data ∧ (c.Idle → mayCommit s = true) := by
  by_cases hcommit : c.Idle → mayCommit s = true
  · have hidle : (c.put d).Idle → mayCommit s = true := hcommit
    rw [Conn.orSame, release_savepoint asOrderedSavepoint hidle, Option.getD_some,
      and_iff_left hcommit, put_put]
    exact put_eq_self_iff
  · obtain ⟨hidle, hs⟩ := Classical.not_imp.mp hcommit
    have hput : (c.put d).Idle := hidle
    have hrefused := release_savepoint_refused asOrderedSavepoint hput (Bool.not_eq_true _ ▸ hs)
    rw [Conn.orSame, hrefused, Option.getD_none]
    -- the savepoint is still open
    refine iff_of_false (fun h => ?_) fun h => hcommit h.2
    have hlevels := congrArg (fun x => x.levels.length) h
    have hlen : c.levels.length = 0 := by rw [hidle]; rfl
    simp [Conn.put, Conn.savepoint, hlen] at hlevels

/-- When a call that fails leaves the schema, the data and the transactions alone. -/
theorem failedCall_keeps_iff (herr : (asOrdered busy args c).2 = some e) :
    (asOrdered busy args c).1 = c ↔ KeepsAll busy args c := by
  match args with
  | [] => simp [asOrdered, KeepsAll]
  | [_] => simp [asOrdered, KeepsAll]
  | table :: orderCol :: collection =>
      rw [KeepsAll, ← dropOld_eq_self_iff, AlreadyOrdered]
      rw [asOrdered] at herr ⊢
      cases hcols : tableHasAllColumns table (collection ++ [orderCol])
          (dropOld table c.data).1 with
      | none => simp [put_eq_self_iff]
      | some all =>
          cases all with
          | false => simp [put_eq_self_iff]
          | true =>
              cases busy with
              | true => simp [put_eq_self_iff]
              | false =>
                  cases hcreate : createAll table orderCol collection (dropOld table c.data).1 with
                  | error msg => simp [rollback_eq_self_iff]
                  | ok s =>
                      have hmay : (s = c.data ∧ (c.Idle → mayCommit s = true)) ↔
                          s = c.data ∧ (c.Idle → mayCommit c.data = true) :=
                        and_congr_right fun h => by rw [h]
                      simp [release_eq_self_iff, hmay]

end AsOrdered

/-! ## A column that does not exist -/

/-- A table of three columns. -/
def todoSchema : Schema Unit where
  tables key :=
    if key = "todo".toList then some [⟨"id".toList, 1⟩, ⟨"a".toList, 0⟩, ⟨"b".toList, 0⟩]
    else none
  views _ := none
  triggers _ := none
  rest := ()

/-- A database that refuses nothing. -/
@[reducible]
def openDb : OrderedDb where
  Rest := Unit
  refuses _ _ := false
  queryFails _ := false
  viewColumns _ _ := []
  mayCommit _ := true

/-- The table with `a` for its order column. -/
def orderedByA : @Connection openDb :=
  (@asOrdered openDb false ["todo".toList, "a".toList] ⟨todoSchema, []⟩).1

/-- A database that refuses to drop anything. -/
@[reducible]
def undroppableDb : OrderedDb where
  Rest := Unit
  refuses stmt _ :=
    match stmt with
    | .dropTrigger _ | .dropView _ => true
    | .createTrigger _ _ _ _ | .createView _ _ _ => false
  queryFails _ := false
  viewColumns _ _ := []
  mayCommit _ := true

/-- The table with `a` for its order column, in a transaction that began before. -/
def orderedInside : @Connection undroppableDb :=
  ⟨orderedByA.data, [⟨none, todoSchema⟩]⟩

/-- Outside of a transaction a call for a table that is not ordered yet loses nothing, and
neither does one inside of a transaction that cannot drop what it would create again. -/
theorem failedCall_keeps_iff_todo :
    (@asOrdered openDb false ["todo".toList, "c".toList] ⟨todoSchema, []⟩).1 = ⟨todoSchema, []⟩ ∧
      (@asOrdered undroppableDb false ["todo".toList, "a".toList] orderedInside).1 =
        orderedInside := by
  constructor
  · exact (@failedCall_keeps_iff openDb false _ ⟨todoSchema, []⟩ _ rfl).mpr
      ⟨Or.inl rfl, Or.inl rfl⟩
  · exact (@failedCall_keeps_iff undroppableDb false ["todo".toList, "a".toList] orderedInside _
      rfl).mpr (Or.inr ⟨rfl, fun _ => rfl⟩)

/-- A call with a column that does not exist takes the view of the table with it. -/
theorem failedCall_loses_view :
    ¬∀ (args : List Text) (c : @Connection openDb) (e : Text),
      (@asOrdered openDb false args c).2 = some e → (@asOrdered openDb false args c).1 = c := by
  intro h
  have hsame := h ["todo".toList, "c".toList] orderedByA _ rfl
  have hviews := congrArg
    (fun d => (d.data.views (fold (viewName "todo".toList))).isSome) hsame
  exact absurd hviews Bool.false_ne_true

end CrSqlite.Ordered
