import CrSqlite.Library.Keyed
import CrSqlite.TableInfo
import Mathlib.Logic.Function.Basic

/-!
# Tables - base tables, clock tables and triggers

A CRR table is a base table together with its clock table.  Local statements
change the base table and fire the triggers of triggers.c, which log the change
in the clock table unless the sync bit is set.

Values are kept as they are given: MergeStatements has the affinities of the columns, NOT
NULL and CHECK, and runs local statements with the values as their columns store them.
Texts compare by their bytes, as the BINARY collation does.  Tables have no generated
columns or conflict clauses, and no column is called like the bare word that an infinity is
printed as.

Main results:

- Theorem {lit}`logChanges_true`: with the sync bit set no trigger logs
  anything.
- Theorem {lit}`mem_logChanges`: an entry of the clock table after a trigger is
  an old one or carries the next db version.
-/

namespace CrSqlite

/-! ## Rows and entries -/

/-- A row of a base table: its key and its non-key columns by name. -/
structure BaseRow where
  key : Key
  val : Text → SqlValue

/-- A row of a clock table. -/
structure ClockEntry where
  key : Key
  colName : Text
  colVersion : Int
  dbVersion : Int
  siteId : Option Blob
deriving DecidableEq

/-- The primary key of the base table. -/
def BaseRow.ident (r : BaseRow) : Option (List SqlValue) :=
  keyClass r.key

/-- The primary key of the clock table: the row's key and the column name. -/
def ClockEntry.ident (e : ClockEntry) : Option (List SqlValue × Text) :=
  (keyClass e.key).map fun c => (c, e.colName)

/-- The key of an entry is that of its row and its column. -/
theorem ClockEntry.ident_eq_some_iff {e : ClockEntry} {c : List SqlValue}
    {col : Text} :
    e.ident = some (c, col) ↔ keyClass e.key = some c ∧ e.colName = col := by
  simp only [ClockEntry.ident, Option.map_eq_some_iff, Prod.mk.injEq]
  constructor
  · rintro ⟨d, hd, rfl, rfl⟩
    exact ⟨hd, rfl⟩
  · rintro ⟨hc, rfl⟩
    exact ⟨c, hc, rfl, rfl⟩

/-- The declaration of a table that `crsql_as_crr` accepts: it has a key.  The defaults are
constants, and `check` stands for the CHECK constraints. -/
structure CrrSchema where
  info : TableInfo
  dflt : Text → SqlValue
  check : BaseRow → Bool := fun _ => true
  pks_ne_nil : info.pks ≠ []

/-- A declaration that lets every row start from its defaults: none of them is a NULL in a
NOT NULL column, and no CHECK constraint is in the way.  `crsql_isTableCompatible` asks for
a default only, which may be NULL. -/
structure CrrSchema.Lenient (s : CrrSchema) : Prop where
  dflt_notnull : ∀ c ∈ s.info.nonPks, c.notnull = true → s.dflt c.name ≠ .null
  check : ∀ r, s.check r = true

/-- `CREATE TABLE foo (a NOT NULL PRIMARY KEY, b)`, the table of the worked
examples. -/
def fooSchema : CrrSchema where
  info :=
    { tblName := ['f', 'o', 'o']
      baseCols := [⟨0, ['a'], [], true, 1⟩, ⟨1, ['b'], [], false, 0⟩] }
  dflt _ := .null
  pks_ne_nil := by decide

theorem fooSchema_lenient : fooSchema.Lenient :=
  ⟨by decide, fun _ => rfl⟩

/-- A base table and its clock table. -/
structure CrrTable where
  schema : CrrSchema
  rows : List BaseRow
  clock : List ClockEntry

namespace CrrTable

/-- The table's description. -/
def info (t : CrrTable) : TableInfo :=
  t.schema.info

/-- The row stored under a key. -/
def row (t : CrrTable) (c : List SqlValue) : Option BaseRow :=
  Keyed.find BaseRow.ident c t.rows

/-- The clock entry of a key and a column name. -/
def entry (t : CrrTable) (c : List SqlValue) (col : Text) : Option ClockEntry :=
  Keyed.find ClockEntry.ident (c, col) t.clock

end CrrTable

/-- The value that `"name"` stands for in a row: a column, or the name itself as
a string when there is no such column. -/
def BaseRow.column (info : TableInfo) (r : BaseRow) (name : Text) : SqlValue :=
  if columnExists name info.nonPks then r.val name
  else (((info.pks.map ColumnInfo.name).zip r.key).lookup name).getD (.text name)

/-- No NOT NULL column holds a NULL. -/
def notNullOk (info : TableInfo) (r : BaseRow) : Bool :=
  ((info.pks.zip r.key).all fun (c, v) => !(c.notnull && v = SqlValue.null)) &&
    info.nonPks.all fun c => !(c.notnull && r.val c.name = SqlValue.null)

/-- The row meets the constraints that concern it alone. -/
def constraintsOk (s : CrrSchema) (r : BaseRow) : Bool :=
  notNullOk s.info r && s.check r

/-- Only the NOT NULL columns are left to check. -/
theorem CrrSchema.Lenient.constraintsOk {s : CrrSchema} (hs : s.Lenient) (r : BaseRow) :
    constraintsOk s r = notNullOk s.info r := by
  rw [CrSqlite.constraintsOk, hs.check, Bool.and_true]

/-! ## Triggers -/

/-- The `DO UPDATE` of the triggers.  Past the largest integer SQLite goes on
with a real, which reads as the largest integer. -/
def ClockEntry.bump (next : Int) (e : ClockEntry) : ClockEntry :=
  { e with
    colVersion := min (e.colVersion + 1) maxInt64
    dbVersion := next
    siteId := none }

@[simp]
theorem ClockEntry.ident_bump (next : Int) (e : ClockEntry) :
    (e.bump next).ident = e.ident :=
  rfl

/-- The statement every trigger consists of: log a change of one column. -/
def logChange (syncBit : Bool) (next : Int) (key : Key) (clock : List ClockEntry)
    (colName : Text) : List ClockEntry :=
  if syncBit then clock
  else Keyed.upsert ClockEntry.ident (ClockEntry.bump next)
    ⟨key, colName, 1, next, none⟩ clock

/-- The statements of one trigger, one column name after the other. -/
def logChanges (syncBit : Bool) (next : Int) (key : Key) (colNames : List Text)
    (clock : List ClockEntry) : List ClockEntry :=
  colNames.foldl (logChange syncBit next key) clock

/-- `crsql_createInsertTrigger`: every non-key column is logged; a table without
one has no insert trigger. -/
def insertTrigger (syncBit : Bool) (next : Int) (new : BaseRow) (t : CrrTable) :
    CrrTable :=
  if t.info.nonPks = [] then t
  else { t with
    clock := logChanges syncBit next new.key (t.info.nonPks.map ColumnInfo.name) t.clock }

/-- `crsql_createUpdateTrigger`: the non-key columns for which `NEW.c != OLD.c`
is true are logged under the new key. -/
def updateTrigger (syncBit : Bool) (next : Int) (old new : BaseRow) (t : CrrTable) :
    CrrTable :=
  { t with
    clock := logChanges syncBit next new.key
      ((t.info.nonPks.map ColumnInfo.name).filter fun c =>
        SqlValue.Ne (new.val c) (old.val c)) t.clock }

/-- `crsql_deleteTriggerQuery`: the delete sentinel is logged. -/
def deleteTrigger (syncBit : Bool) (next : Int) (t : CrrTable) (old : BaseRow) :
    CrrTable :=
  { t with clock := logChanges syncBit next old.key [delSentinel] t.clock }

/-! ## Statements on the base table -/

/-- A row that the table's constraints admit beside the other rows. -/
def admits (t : CrrTable) (others : List BaseRow) (r : BaseRow) : Bool :=
  r.key.length = t.info.pks.length && constraintsOk t.schema r &&
    !others.any fun b => Keyed.Conflicts BaseRow.ident r b

/-- `INSERT`: none is a failed constraint. -/
def insertRow (syncBit : Bool) (next : Int) (r : BaseRow) (t : CrrTable) :
    Option CrrTable :=
  if admits t t.rows r then
    some (insertTrigger syncBit next r { t with rows := t.rows ++ [r] })
  else none

/-- `UPDATE` of the row at position `i`. -/
def updateRow (syncBit : Bool) (next : Int) (i : Nat) (r : BaseRow) (t : CrrTable) :
    Option CrrTable :=
  match t.rows[i]? with
  | none => some t
  | some old =>
      if admits t (t.rows.eraseIdx i) r then
        some (updateTrigger syncBit next old r { t with rows := t.rows.set i r })
      else none

/-- `DELETE` of the row at position `i`. -/
def deleteRow (syncBit : Bool) (next : Int) (i : Nat) (t : CrrTable) : CrrTable :=
  match t.rows[i]? with
  | none => t
  | some old => deleteTrigger syncBit next { t with rows := t.rows.eraseIdx i } old

/-- A row of the table `foo`. -/
def fooRow (a b : Int) : BaseRow :=
  ⟨[.integer a], fun _ => .integer b⟩

/-! ## What a trigger does to the clock table -/

@[simp]
theorem logChanges_nil (syncBit : Bool) (next : Int) (key : Key)
    (clock : List ClockEntry) : logChanges syncBit next key [] clock = clock :=
  rfl

/-- With the sync bit set nothing is logged. -/
@[simp]
theorem logChanges_true (next : Int) (key : Key) (colNames : List Text)
    (clock : List ClockEntry) : logChanges true next key colNames clock = clock := by
  induction colNames with
  | nil => rfl
  | cons c cs ih => exact ih

/-- To log a column keeps the entries apart. -/
theorem unique_logChange {syncBit : Bool} {next : Int} {key : Key} {col : Text}
    {clock : List ClockEntry} (h : Keyed.Unique ClockEntry.ident clock) :
    Keyed.Unique ClockEntry.ident (logChange syncBit next key clock col) := by
  unfold logChange
  split
  · exact h
  · exact h.upsert (ClockEntry.ident_bump next)

/-- To log columns keeps the entries apart. -/
theorem unique_logChanges {syncBit : Bool} {next : Int} {key : Key}
    {cols : List Text} {clock : List ClockEntry}
    (h : Keyed.Unique ClockEntry.ident clock) :
    Keyed.Unique ClockEntry.ident (logChanges syncBit next key cols clock) := by
  induction cols generalizing clock with
  | nil => exact h
  | cons c cs ih => exact ih (unique_logChange h)

/-- An entry written by a trigger: of the trigger's row or of a row with an equal
key, with the next db version and no site id. -/
def Logged (next : Int) (key : Key) (cols : List Text) (clock : List ClockEntry)
    (e : ClockEntry) : Prop :=
  e.dbVersion = next ∧ e.siteId = none ∧ e.colName ∈ cols ∧
    (e.key = key ∨ ∃ o ∈ clock, o.key = e.key ∧ keyClass o.key = keyClass key ∧
      keyClass key ≠ none)

/-- An entry behind the log of a column is an old one or the logged one. -/
private theorem mem_logChange {syncBit : Bool} {next : Int} {key : Key} {col : Text}
    {clock : List ClockEntry} {e : ClockEntry}
    (h : e ∈ logChange syncBit next key clock col) :
    e ∈ clock ∨ Logged next key [col] clock e := by
  unfold logChange at h
  split at h
  · exact Or.inl h
  · rcases Keyed.mem_upsert h with h | rfl | ⟨o, ho, hconf, rfl⟩
    · exact Or.inl h
    · exact Or.inr ⟨rfl, rfl, by simp, Or.inl rfl⟩
    · obtain ⟨⟨c, col'⟩, hc⟩ := Option.ne_none_iff_exists'.mp hconf.1
      have hkey := ClockEntry.ident_eq_some_iff.mp hc
      have ho' := ClockEntry.ident_eq_some_iff.mp ((Keyed.conflicts_iff hc).mp hconf)
      refine Or.inr ⟨rfl, rfl, ?_, Or.inr ⟨o, ho, rfl, ho'.1.trans hkey.1.symm, ?_⟩⟩
      · simp only [ClockEntry.bump, List.mem_singleton]
        exact ho'.2.trans hkey.2.symm
      · simp [hkey.1]

/-- After a trigger every entry is an old one or was just logged. -/
theorem mem_logChanges {syncBit : Bool} {next : Int} {key : Key} {cols : List Text}
    {clock : List ClockEntry} {e : ClockEntry}
    (h : e ∈ logChanges syncBit next key cols clock) :
    e ∈ clock ∨ Logged next key cols clock e := by
  induction cols generalizing clock with
  | nil => exact Or.inl h
  | cons c cs ih =>
      rcases ih h with hmem | ⟨hdb, hsite, hcol, hkey⟩
      · rcases mem_logChange hmem with hmem | ⟨hdb, hsite, hcol, hkey⟩
        · exact Or.inl hmem
        · exact Or.inr ⟨hdb, hsite, by simp_all, hkey⟩
      · refine Or.inr ⟨hdb, hsite, List.mem_cons_of_mem c hcol, ?_⟩
        rcases hkey with hkey | ⟨o, ho, hoe, hclass, hne⟩
        · exact Or.inl hkey
        · rcases mem_logChange ho with ho | ⟨-, -, -, ho⟩
          · exact Or.inr ⟨o, ho, hoe, hclass, hne⟩
          · rcases ho with ho | ⟨o', ho', ho'e, hclass', hne'⟩
            · exact Or.inl (hoe.symm.trans ho)
            · exact Or.inr ⟨o', ho', ho'e.trans hoe, hclass', hne'⟩

end CrSqlite
