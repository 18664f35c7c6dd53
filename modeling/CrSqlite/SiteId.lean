import CrSqlite.Library.Run
import CrSqlite.Value
import Mathlib.Logic.Function.Basic

/-!
# SiteId - the site id of a database file

When the extension is loaded into a connection, it reads the site id from the table
`__crsql_siteid`, or creates the table and inserts a new id, in two statements
(core/src/crsqlite.c).  The server does the same for a new file with the id that it is asked
for, before it loads the extension (server-core, db.ts).  Connections take turns statement by
statement, any statement may fail, a connection may be lost between two of them, and the
application may have opened a transaction around the call.

Main results:

- Theorem {lit}`WF.step`: there is one row at most, and only one connection is about to
  insert it.
- Theorem {lit}`agreed_iff`: all loaded connections have the stored id throughout a run exactly
  when no transaction that has stored it is rolled back.
- Theorem {lit}`settled_run`: rows that are stored stay, and no other id is loaded from then
  on; when there is none, the extension can not be loaded any more.
-/

namespace CrSqlite.SiteId

/-! ## Connections to a file -/

/-- Where a connection stands: between two calls, or before a statement of one. -/
inductive Phase where
  | idle
  | loaded (siteId : Blob)
  | closed
  | bootstrapCreate (siteId : Blob)
  | bootstrapInsert (siteId : Blob)
  | peers
  | findTable
  | create
  | insert
  | read
  | savepoint (siteId : Option Blob)
  | schema (siteId : Option Blob)
deriving DecidableEq

/-- The rows of `__crsql_siteid`, none without the table; the connection that holds the write
lock in a transaction, and the rows that it alone sees. -/
structure File where
  stored : Option (List Blob)
  writer : Option Nat
  draft : List Blob
  inTx : Nat → Bool
  phase : Nat → Phase

namespace File

def initial : File :=
  ⟨none, none, [], fun _ => false, fun _ => .idle⟩

/-- The rows that a connection reads. -/
def view (s : File) (c : Nat) : Option (List Blob) :=
  if s.writer = some c then some s.draft else s.stored

/-- A statement that writes, unless another connection holds the lock. -/
def write (s : File) (c : Nat) (rows : List Blob) : Option File :=
  if s.writer ≠ none ∧ s.writer ≠ some c then none
  else if s.inTx c then some { s with writer := some c, draft := rows }
  else some { s with stored := some rows }

/-- CREATE TABLE. -/
def createTable (s : File) (c : Nat) (fails : Bool) : Option File :=
  if fails ∨ s.view c ≠ none then none else s.write c []

/-- INSERT of an id. -/
def insertRow (s : File) (c : Nat) (siteId : Blob) (fails : Bool) : Option File :=
  match s.view c with
  | none => none
  | some rows => if fails then none else s.write c (rows ++ [siteId])

def rollback (s : File) (c : Nat) : File :=
  { s with
    writer := if s.writer = some c then none else s.writer
    inTx := Function.update s.inTx c false }

def commit (s : File) (c : Nat) : File :=
  { s with
    stored := s.view c
    writer := if s.writer = some c then none else s.writer
    inTx := Function.update s.inTx c false }

def enter (s : File) (c : Nat) (p : Phase) : File :=
  { s with phase := Function.update s.phase c p }

/-- The phase after a statement that went through, and after one that failed. -/
def goOn (s : File) (c : Nat) (result : Option File) (done failed : Phase) : File :=
  match result with
  | some s' => s'.enter c done
  | none => s.enter c failed

end File

/-- Sixteen random bytes with the bits of a version 4 id. -/
def uuid (blob : Blob) : Blob :=
  (blob.modify 6 fun b => (b &&& 0x0f) + 0x40).modify 8 fun b => (b &&& 0x3f) + 0x80

/-- The next statement of `#bootstrapSiteId` or `sqlite3_crsqlite_init`.  A count that fails
is not 0, so `initSiteId` goes on to read; whatever it returns, the schema tables are next,
and an error of theirs rolls back. -/
def next (s : File) (c : Nat) (fails : Bool) (random : Blob) : File :=
  match s.phase c with
  | .idle | .loaded _ | .closed => s
  | .bootstrapCreate siteId =>
      s.goOn c (s.createTable c fails) (.bootstrapInsert siteId) .idle
  | .bootstrapInsert siteId => s.goOn c (s.insertRow c siteId fails) .idle .idle
  | .peers => s.enter c (if fails then .idle else .findTable)
  | .findTable => s.enter c (if fails = false ∧ s.view c = none then .create else .read)
  | .create => s.goOn c (s.createTable c fails) .insert (.savepoint none)
  | .insert =>
      s.goOn c (s.insertRow c (uuid random) fails) (.savepoint (some (uuid random)))
        (.savepoint none)
  | .read => s.enter c (.savepoint (if fails then none else (s.view c).bind List.head?))
  | .savepoint siteId => s.enter c (if fails then .idle else .schema siteId)
  | .schema siteId =>
      if fails then (s.rollback c).enter c .idle
      else s.enter c (match siteId with
        | some siteId => .loaded siteId
        | none => .idle)

/-- The calls of the application, the statements inside of them, and the loss of a
connection. -/
inductive Op where
  | begin (c : Nat)
  | commit (c : Nat)
  | rollback (c : Nat)
  | bootstrapSiteId (c : Nat) (siteId : Blob)
  | load (c : Nat)
  | next (c : Nat) (fails : Bool) (random : Blob)
  | lose (c : Nat)

/-- No call is under way. -/
def Phase.Resting : Phase → Prop
  | .idle | .loaded _ => True
  | _ => False

instance (p : Phase) : Decidable p.Resting := by
  cases p <;> simp only [Phase.Resting] <;> infer_instance

def step (s : File) : Op → File
  | .begin c =>
      if (s.phase c).Resting then { s with inTx := Function.update s.inTx c true } else s
  | .commit c => if (s.phase c).Resting ∧ s.inTx c then s.commit c else s
  | .rollback c => if (s.phase c).Resting ∧ s.inTx c then s.rollback c else s
  | .bootstrapSiteId c siteId => if s.phase c = .idle then s.enter c (.bootstrapCreate siteId) else s
  | .load c => if s.phase c = .idle then s.enter c .peers else s
  | .next c fails random => next s c fails random
  | .lose c => (s.rollback c).enter c .closed

/-! ## What the file holds -/

/-- The connection has created the table and not inserted yet. -/
def Phase.Inserts : Phase → Prop
  | .bootstrapInsert _ | .insert => True
  | _ => False

/-- The id that a call has and has not returned yet. -/
def Phase.known : Phase → Option Blob
  | .savepoint siteId => siteId
  | .schema siteId => siteId
  | _ => none

structure WF (s : File) : Prop where
  lock : ∀ c, s.writer = some c → s.inTx c = true ∧ s.stored = none
  rows : ∀ c rows, s.view c = some rows → rows.length ≤ 1
  inserting : ∀ c, (s.phase c).Inserts → s.view c = some [] ∧ (s.inTx c → s.writer = some c)
  unique : ∀ c d, (s.phase c).Inserts → (s.phase d).Inserts → c = d
  known : ∀ c siteId, (s.phase c).known = some siteId → s.view c = some [siteId]

section WF

variable {s s' : File} {c d : Nat} {p : Phase} {rows : List Blob} {siteId : Blob} {fails : Bool}

@[simp]
theorem view_enter : (s.enter c p).view d = s.view d :=
  rfl

@[simp]
theorem phase_enter_self : (s.enter c p).phase c = p :=
  Function.update_self ..

theorem phase_enter_of_ne (h : d ≠ c) : (s.enter c p).phase d = s.phase d :=
  Function.update_of_ne h ..

theorem enter_self : s.enter c (s.phase c) = s := by
  rw [File.enter, Function.update_eq_self]

theorem Phase.Resting.not_inserts (h : p.Resting) : ¬ p.Inserts := by
  cases p <;> simp_all [Phase.Resting, Phase.Inserts]

theorem Phase.Resting.known_eq (h : p.Resting) : p.known = none := by
  cases p <;> simp_all [Phase.Resting, Phase.known]

/-- A call that stays at rest, or comes to know what the connection reads. -/
theorem WF.enter (hw : WF s) (hp : ¬ p.Inserts)
    (hknown : ∀ siteId, p.known = some siteId → s.view c = some [siteId]) : WF (s.enter c p) := by
  have hold : ∀ {d}, ((s.enter c p).phase d).Inserts → d ≠ c ∧ (s.phase d).Inserts := by
    intro d hd
    by_cases heq : d = c
    · rw [heq, phase_enter_self] at hd
      exact absurd hd hp
    · rw [phase_enter_of_ne heq] at hd
      exact ⟨heq, hd⟩
  refine ⟨hw.lock, hw.rows, fun d hd => hw.inserting d (hold hd).2,
    fun d d' hd hd' => hw.unique d d' (hold hd).2 (hold hd').2, fun d siteId hd => ?_⟩
  by_cases heq : d = c
  · rw [heq, phase_enter_self] at hd
    rw [heq]
    exact hknown siteId hd
  · rw [phase_enter_of_ne heq] at hd
    exact hw.known d siteId hd

/-- What a statement that writes leaves behind. -/
structure Wrote (s s' : File) (c : Nat) (rows : List Blob) : Prop where
  phase : s'.phase = s.phase
  inTx : s'.inTx = s.inTx
  view : s'.view c = some rows
  others : ∀ d rows', s'.view d = some rows' → rows' = rows
  lock : ∀ d, s'.writer = some d → d = c ∧ s.inTx c = true ∧ s'.stored = none
  holds : s.inTx c = true → s'.writer = some c

/-- Only the connection with the lock writes, if there is one. -/
theorem writer_of_write (h : s.write c rows = some s') : s.writer = none ∨ s.writer = some c := by
  rw [File.write] at h
  split at h
  next => cases h
  next hfree => exact Decidable.or_iff_not_imp_left.mpr fun hne =>
    Decidable.not_not.mp fun hne' => hfree ⟨hne, hne'⟩

/-- What a write leaves: the rows are stored, or drafted in the transaction. -/
theorem WF.wrote (hw : WF s) (hstored : s.inTx c = true → s.stored = none)
    (h : s.write c rows = some s') : Wrote s s' c rows := by
  have hfree := writer_of_write h
  rw [File.write] at h
  split at h
  next => cases h
  next =>
    split at h
    next htx =>
      obtain rfl := Option.some.inj h
      have hview : ∀ d, ({ s with writer := some c, draft := rows } : File).view d =
          if d = c then some rows else none := by
        intro d
        rw [File.view, hstored htx]
        by_cases heq : d = c
        · rw [if_pos (heq ▸ rfl), if_pos heq]
        · rw [if_neg fun hc => heq (Option.some.inj hc).symm, if_neg heq]
      refine ⟨rfl, rfl, by rw [hview, if_pos rfl], fun d rows' hd => ?_,
        fun d hd => ⟨(Option.some.inj hd).symm, htx, hstored htx⟩, fun _ => rfl⟩
      rw [hview] at hd
      split at hd
      · exact (Option.some.inj hd).symm
      · cases hd
    next htx =>
      obtain rfl := Option.some.inj h
      have hnone : s.writer = none :=
        hfree.resolve_right fun hc => htx (hw.lock c hc).1
      have hview : ∀ d, ({ s with stored := some rows } : File).view d = some rows := by
        intro d
        rw [File.view, if_neg (by rw [hnone]; exact Option.some_ne_none d ∘ Eq.symm)]
      refine ⟨rfl, rfl, hview c, fun d rows' hd => ?_, fun d hd => ?_, fun hc => absurd hc htx⟩
      · rw [hview] at hd
        exact (Option.some.inj hd).symm
      · rw [hnone] at hd
        cases hd

/-- A call writes while no other one inserts, or knows an id. -/
theorem wf_of_wrote (h : Wrote s s' c rows) (hlength : rows.length ≤ 1)
    (hothers : ∀ d, d ≠ c → ¬ (s.phase d).Inserts ∧ (s.phase d).known = none)
    (hp : p.Inserts → rows = []) (hknown : ∀ siteId, p.known = some siteId → rows = [siteId]) :
    WF (s'.enter c p) := by
  have hinserts : ∀ {d}, ((s'.enter c p).phase d).Inserts → d = c ∧ p.Inserts := by
    intro d hd
    by_cases heq : d = c
    · rw [heq, phase_enter_self] at hd
      exact ⟨heq, hd⟩
    · rw [phase_enter_of_ne heq, h.phase] at hd
      exact absurd hd (hothers d heq).1
  refine ⟨fun d hd => ?_, fun d rows' hd => ?_, fun d hd => ?_, fun d d' hd hd' => ?_,
    fun d siteId hd => ?_⟩
  · obtain ⟨rfl, htx, hstored⟩ := h.lock d hd
    exact ⟨(congrFun h.inTx d).trans htx, hstored⟩
  · rw [h.others d rows' hd]
    exact hlength
  · obtain ⟨rfl, hins⟩ := hinserts hd
    exact ⟨hp hins ▸ h.view, fun htx => h.holds ((congrFun h.inTx d).symm.trans htx)⟩
  · exact (hinserts hd).1.trans (hinserts hd').1.symm
  · by_cases heq : d = c
    · rw [heq, phase_enter_self] at hd
      rw [heq, view_enter, h.view, hknown siteId hd]
    · rw [phase_enter_of_ne heq, h.phase, (hothers d heq).2] at hd
      cases hd

/-- CREATE TABLE finds no table, in whichever connection. -/
theorem WF.created (hw : WF s) (h : s.createTable c fails = some s') :
    (∀ d, s.view d = none) ∧ Wrote s s' c [] := by
  rw [File.createTable] at h
  split at h
  next => cases h
  next hnot =>
    have hview : s.view c = none := by
      by_contra hne
      exact hnot (Or.inr hne)
    have hwriter : s.writer = none := by
      refine (writer_of_write h).resolve_right fun hc => ?_
      rw [File.view, if_pos hc] at hview
      cases hview
    have hnone : ∀ d, s.view d = s.stored := fun d => by
      rw [File.view, if_neg (by rw [hwriter]; exact (Option.some_ne_none d).symm)]
    exact ⟨fun d => (hnone d).trans ((hnone c).symm.trans hview),
      hw.wrote (fun _ => (hnone c).symm.trans hview) h⟩

/-- INSERT finds no row, and no other connection reads one. -/
theorem WF.inserted (hw : WF s) (hc : (s.phase c).Inserts)
    (h : s.insertRow c siteId fails = some s') :
    (∀ d, s.view d = none ∨ s.view d = some []) ∧ Wrote s s' c [siteId] := by
  obtain ⟨hview, hholds⟩ := hw.inserting c hc
  rw [File.insertRow, hview] at h
  dsimp only at h
  split at h
  next => cases h
  next =>
    refine ⟨fun d => ?_, hw.wrote (fun htx => (hw.lock c (hholds htx)).2) h⟩
    rcases writer_of_write h with hnone | hwriter
    · have hstored : ∀ d, s.view d = s.stored := fun d => by
        rw [File.view, if_neg (by rw [hnone]; exact (Option.some_ne_none d).symm)]
      exact Or.inr ((hstored d).trans ((hstored c).symm.trans hview))
    · by_cases heq : d = c
      · exact Or.inr (heq ▸ hview)
      · rw [File.view, hwriter, if_neg fun h => heq (Option.some.inj h).symm]
        exact Or.inl (hw.lock c hwriter).2

/-- A created table is empty, and its connection is about to insert. -/
theorem WF.create (hw : WF s) (h : s.createTable c fails = some s') (hp : p.known = none) :
    WF (s'.enter c p) := by
  obtain ⟨hnone, hwrote⟩ := hw.created h
  refine wf_of_wrote hwrote (Nat.zero_le 1) (fun d _ => ⟨fun hd => ?_,
    Option.eq_none_iff_forall_ne_some.mpr fun siteId hd => ?_⟩) (fun _ => rfl) fun siteId hd => ?_
  · exact Option.some_ne_none _ ((hw.inserting d hd).1.symm.trans (hnone d))
  · exact Option.some_ne_none _ ((hw.known d siteId hd).symm.trans (hnone d))
  · rw [hp] at hd
    cases hd

/-- The row that is inserted is the only one. -/
theorem WF.insert (hw : WF s) (hc : (s.phase c).Inserts)
    (h : s.insertRow c siteId fails = some s') (hp : ¬ p.Inserts)
    (hknown : ∀ siteId', p.known = some siteId' → siteId' = siteId) : WF (s'.enter c p) := by
  obtain ⟨hempty, hwrote⟩ := hw.inserted hc h
  refine wf_of_wrote hwrote (Nat.le_refl 1) (fun d hne => ⟨fun hd => hne (hw.unique d c hd hc),
    Option.eq_none_iff_forall_ne_some.mpr fun siteId' hd => ?_⟩) (fun hins => absurd hins hp)
    fun siteId' hd => by rw [hknown siteId' hd]
  have hknows := hw.known d siteId' hd
  rcases hempty d with h | h
  · exact Option.some_ne_none _ (hknows.symm.trans h)
  · exact List.cons_ne_nil _ _ (Option.some.inj (hknows.symm.trans h))

/-- A rollback is not seen by others. -/
theorem view_rollback_of_ne (hne : d ≠ c) : (s.rollback c).view d = s.view d := by
  rw [File.view, File.view, File.rollback]
  dsimp only
  by_cases hc : s.writer = some c
  · rw [if_pos hc, if_neg (Option.some_ne_none d).symm, hc,
      if_neg fun h => hne (Option.some.inj h).symm]
  · rw [if_neg hc]

/-- Behind a rollback a connection reads what is stored. -/
theorem view_rollback_self : (s.rollback c).view c = s.stored := by
  rw [File.view, File.rollback]
  dsimp only
  by_cases hc : s.writer = some c
  · rw [if_pos hc, if_neg (Option.some_ne_none c).symm]
  · rw [if_neg hc, if_neg hc]

/-- Behind a commit all read what was drafted. -/
theorem view_commit : (s.commit c).view d =
    if s.writer = some c then some s.draft else s.view d := by
  rw [File.view, File.view, File.commit]
  dsimp only
  by_cases hc : s.writer = some c
  · rw [if_pos hc, if_neg (Option.some_ne_none d).symm, File.view, if_pos hc, if_pos hc]
  · rw [if_neg hc, if_neg hc, File.view, if_neg hc]

/-- Who holds the lock when a connection has given it back. -/
theorem writer_rollback (hd : (s.rollback c).writer = some d) : d ≠ c ∧ s.writer = some d := by
  dsimp only [File.rollback] at hd
  by_cases hc : s.writer = some c
  · rw [if_pos hc] at hd
    cases hd
  · rw [if_neg hc] at hd
    exact ⟨fun heq => hc (heq ▸ hd), hd⟩

/-- A rollback keeps one row at most. -/
theorem WF.rollback (hw : WF s) (hp : ¬ p.Inserts) (hknown : p.known = none) :
    WF ((s.rollback c).enter c p) := by
  have hinTx : ∀ {d}, d ≠ c → (s.rollback c).inTx d = s.inTx d := fun hne =>
    Function.update_of_ne hne ..
  have hphase : ∀ {d}, d ≠ c → ((s.rollback c).enter c p).phase d = s.phase d := fun hne =>
    Function.update_of_ne hne ..
  have hinserts : ∀ {d}, (((s.rollback c).enter c p).phase d).Inserts →
      d ≠ c ∧ (s.phase d).Inserts := by
    intro d hd
    by_cases heq : d = c
    · rw [heq, phase_enter_self] at hd
      exact absurd hd hp
    · rw [hphase heq] at hd
      exact ⟨heq, hd⟩
  refine ⟨fun d hd => ?_, fun d rows hd => ?_, fun d hd => ?_, fun d d' hd hd' =>
    hw.unique d d' (hinserts hd).2 (hinserts hd').2, fun d siteId hd => ?_⟩
  · obtain ⟨hne, hd⟩ := writer_rollback hd
    exact ⟨(hinTx hne).trans (hw.lock d hd).1, (hw.lock d hd).2⟩
  · by_cases heq : d = c
    · rw [heq, view_enter, view_rollback_self] at hd
      by_cases hc : s.writer = some c
      · rw [(hw.lock c hc).2] at hd
        cases hd
      · exact hw.rows c rows (by rw [File.view, if_neg hc, hd])
    · rw [view_enter, view_rollback_of_ne heq] at hd
      exact hw.rows d rows hd
  · obtain ⟨hne, hd⟩ := hinserts hd
    obtain ⟨hview, hholds⟩ := hw.inserting d hd
    refine ⟨by rw [view_enter, view_rollback_of_ne hne, hview], fun htx => ?_⟩
    have hd' := hholds ((hinTx hne).symm.trans htx)
    have hc : s.writer ≠ some c := fun hc => hne (Option.some.inj (hd'.symm.trans hc))
    exact (if_neg hc).trans hd'
  · by_cases heq : d = c
    · rw [heq, phase_enter_self, hknown] at hd
      cases hd
    · rw [hphase heq] at hd
      rw [view_enter, view_rollback_of_ne heq, hw.known d siteId hd]

/-- A commit keeps one row at most. -/
theorem WF.commit (hw : WF s) (hc : (s.phase c).Resting) : WF (s.commit c) := by
  have hinTx : ∀ {d}, d ≠ c → (s.commit c).inTx d = s.inTx d := fun hne =>
    Function.update_of_ne hne ..
  -- whoever has rows to read, and is another connection, reads them as before
  have hview : ∀ {d}, d ≠ c → s.view d ≠ none → (s.commit c).view d = s.view d := by
    intro d hne hd
    rw [view_commit]
    refine if_neg fun hcw => hd ?_
    rw [File.view, hcw, if_neg fun h => hne (Option.some.inj h).symm]
    exact (hw.lock c hcw).2
  have hrest : ∀ {d}, (s.phase d).Inserts → d ≠ c := fun hd heq =>
    hc.not_inserts (heq ▸ hd)
  refine ⟨fun d hd => ?_, fun d rows hd => ?_, fun d hd => ?_, hw.unique, fun d siteId hd => ?_⟩
  · obtain ⟨hne, hd⟩ := writer_rollback hd
    refine ⟨(hinTx hne).trans (hw.lock d hd).1, ?_⟩
    have hcw : s.writer ≠ some c := fun hcw => hne (Option.some.inj (hd.symm.trans hcw))
    dsimp only [File.commit]
    rw [File.view, if_neg hcw]
    exact (hw.lock d hd).2
  · rw [view_commit] at hd
    split at hd
    next hcw => exact hw.rows c rows (by rw [File.view, if_pos hcw, hd])
    next => exact hw.rows d rows hd
  · obtain ⟨hrows, hholds⟩ := hw.inserting d hd
    have hne := hrest hd
    refine ⟨?_, fun htx => ?_⟩
    · rw [hview hne (by rw [hrows]; exact Option.some_ne_none _), hrows]
    · have hd' := hholds ((hinTx hne).symm.trans htx)
      have hcw : s.writer ≠ some c := fun hcw => hne (Option.some.inj (hd'.symm.trans hcw))
      exact (if_neg hcw).trans hd'
  · have hne : d ≠ c := by
      rintro rfl
      exact Option.some_ne_none siteId (hd.symm.trans hc.known_eq)
    have hrows := hw.known d siteId hd
    rw [hview hne (by rw [hrows]; exact Option.some_ne_none _), hrows]

/-- A begin keeps one row at most. -/
theorem WF.begin (hw : WF s) (hc : (s.phase c).Resting) :
    WF { s with inTx := Function.update s.inTx c true } := by
  refine ⟨fun d hd => ⟨?_, (hw.lock d hd).2⟩, hw.rows, fun d hd => ?_, hw.unique, hw.known⟩
  · by_cases heq : d = c
    · rw [heq]
      exact Function.update_self ..
    · exact (Function.update_of_ne heq ..).trans (hw.lock d hd).1
  · have hne : d ≠ c := fun heq => hc.not_inserts (heq ▸ hd)
    exact ⟨(hw.inserting d hd).1, fun htx =>
      (hw.inserting d hd).2 ((Function.update_of_ne hne ..).symm.trans htx)⟩

/-- A phase in which the call has no id. -/
theorem WF.enter_unknown (hw : WF s) (hp : ¬ p.Inserts) (hknown : p.known = none) :
    WF (s.enter c p) := by
  refine hw.enter hp fun siteId h => ?_
  rw [hknown] at h
  cases h

/-- The first row is the only one. -/
theorem WF.view_of_head (hw : WF s) (h : (s.view c).bind List.head? = some siteId) :
    s.view c = some [siteId] := by
  obtain ⟨rows, hview, hhead⟩ := Option.bind_eq_some_iff.mp h
  cases rows with
  | nil => cases hhead
  | cons row rows =>
      obtain rfl := List.eq_nil_of_length_eq_zero
        (Nat.le_zero.mp (Nat.le_of_succ_le_succ (hw.rows c _ hview)))
      rw [hview, Option.some.inj hhead]

/-- The next statement of a call keeps one row at most; the cases are its phases. -/
theorem WF.next (hw : WF s) (c : Nat) (fails : Bool) (random : Blob) :
    WF (next s c fails random) := by
  rw [SiteId.next]
  split
  next => exact hw
  next => exact hw
  next => exact hw
  next siteId hphase =>
    cases hresult : s.createTable c fails with
    | some s' => exact hw.create hresult rfl
    | none => exact hw.enter_unknown id rfl
  next siteId hphase =>
    cases hresult : s.insertRow c siteId fails with
    | some s' => exact hw.insert (by rw [hphase]; trivial) hresult id fun _ h => by cases h
    | none => exact hw.enter_unknown id rfl
  next =>
    split
    · exact hw.enter_unknown id rfl
    · exact hw.enter_unknown id rfl
  next =>
    split
    · exact hw.enter_unknown id rfl
    · exact hw.enter_unknown id rfl
  next hphase =>
    cases hresult : s.createTable c fails with
    | some s' => exact hw.create hresult rfl
    | none => exact hw.enter_unknown id rfl
  next hphase =>
    cases hresult : s.insertRow c (uuid random) fails with
    | some s' =>
        exact hw.insert (by rw [hphase]; trivial) hresult id fun _ h => (Option.some.inj h).symm
    | none => exact hw.enter_unknown id rfl
  next =>
    refine hw.enter id fun siteId h => ?_
    cases fails with
    | true => cases h
    | false => exact hw.view_of_head h
  next siteId hphase =>
    split
    · exact hw.enter_unknown id rfl
    · refine hw.enter id fun siteId' h => hw.known c siteId' ?_
      rwa [hphase]
  next siteId hphase =>
    split
    · exact hw.rollback id rfl
    · cases siteId with
      | none => exact hw.enter_unknown id rfl
      | some siteId => exact hw.enter_unknown id rfl

/-- Every step keeps one row at most. -/
theorem WF.step (hw : WF s) (op : Op) : WF (step s op) := by
  cases op with
  | begin c =>
      rw [SiteId.step]
      split
      next hc => exact hw.begin hc
      next => exact hw
  | commit c =>
      rw [SiteId.step]
      split
      next hc => exact hw.commit hc.1
      next => exact hw
  | rollback c =>
      rw [SiteId.step]
      split
      next hc =>
        have hback := hw.rollback (c := c) hc.1.not_inserts hc.1.known_eq
        rwa [show s.phase c = (s.rollback c).phase c from rfl, enter_self] at hback
      next => exact hw
  | bootstrapSiteId c siteId =>
      rw [SiteId.step]
      split
      · exact hw.enter_unknown id rfl
      · exact hw
  | load c =>
      rw [SiteId.step]
      split
      · exact hw.enter_unknown id rfl
      · exact hw
  | next c fails random => exact hw.next c fails random
  | lose c => exact hw.rollback id rfl

/-- A new file has no rows. -/
theorem wf_initial : WF File.initial :=
  ⟨fun _ h => (by cases h), fun _ _ h => (by cases h), fun _ h => h.elim, fun _ _ h => h.elim,
    fun _ _ h => (by cases h)⟩

/-! ## Loaded connections -/

/-- A connection that has loaded the extension reads its own site id. -/
def Agreed (s : File) : Prop :=
  ∀ c siteId, s.phase c = .loaded siteId → s.view c = some [siteId]

/-- A transaction is not rolled back when the site id was stored in it. -/
def KeepsSiteId (s : File) : Op → Prop
  | .rollback c => s.inTx c → ∀ siteId, s.phase c = .loaded siteId → s.stored = some [siteId]
  | _ => True

/-- A connection that goes on agrees when it has loaded what it reads. -/
theorem Agreed.enter (ha : Agreed s) (hp : ∀ siteId, p = .loaded siteId → s.view c = some [siteId]) :
    Agreed (s.enter c p) := by
  intro d siteId hd
  by_cases heq : d = c
  · rw [heq, phase_enter_self] at hd
    rw [heq]
    exact hp siteId hd
  · rw [phase_enter_of_ne heq] at hd
    exact ha d siteId hd

/-- While a statement can write, no other connection has loaded the extension. -/
theorem agreed_of_wrote (ha : Agreed s) (h : Wrote s s' c rows)
    (hview : ∀ d, s.view d = none ∨ s.view d = some []) (hp : ∀ siteId, p ≠ .loaded siteId) :
    Agreed (s'.enter c p) := by
  intro d siteId hd
  by_cases heq : d = c
  · rw [heq, phase_enter_self] at hd
    exact absurd hd (hp siteId)
  · rw [phase_enter_of_ne heq, h.phase] at hd
    have hrows := ha d siteId hd
    rcases hview d with hnone | hnil
    · exact absurd (hrows.symm.trans hnone) (Option.some_ne_none _)
    · exact absurd (Option.some.inj (hrows.symm.trans hnil)) (List.cons_ne_nil _ _)

/-- A rollback keeps the agreement on what is stored. -/
theorem Agreed.rollback (ha : Agreed s) (hp : ∀ siteId, p = .loaded siteId → s.stored = some [siteId]) :
    Agreed ((s.rollback c).enter c p) := by
  intro d siteId hd
  by_cases heq : d = c
  · rw [heq, phase_enter_self] at hd
    rw [heq, view_enter, view_rollback_self, hp siteId hd]
  · rw [phase_enter_of_ne heq] at hd
    rw [view_enter, view_rollback_of_ne heq]
    exact ha d siteId hd

/-- A commit keeps the agreement. -/
theorem Agreed.commit (hw : WF s) (ha : Agreed s) : Agreed (s.commit c) := by
  intro d siteId hd
  have hrows := ha d siteId hd
  rw [view_commit]
  split
  next hcw =>
    rw [File.view] at hrows
    split at hrows
    next => exact hrows
    next => exact absurd (hrows.symm.trans (hw.lock c hcw).2) (Option.some_ne_none _)
  next => exact hrows

/-- The next statement of a call keeps the agreement. -/
theorem Agreed.next (hw : WF s) (ha : Agreed s) (c : Nat) (fails : Bool) (random : Blob) :
    Agreed (next s c fails random) := by
  have hidle : ∀ {q : Phase}, (∀ siteId, q ≠ .loaded siteId) → Agreed (s.enter c q) := fun hq =>
    ha.enter fun siteId h => absurd h (hq siteId)
  have hcreate : ∀ {q r : Phase}, (∀ siteId, q ≠ .loaded siteId) → (∀ siteId, r ≠ .loaded siteId) →
      Agreed (s.goOn c (s.createTable c fails) q r) := by
    intro q r hq hr
    cases hresult : s.createTable c fails with
    | some s' =>
        obtain ⟨hnone, hwrote⟩ := hw.created hresult
        exact agreed_of_wrote ha hwrote (fun d => Or.inl (hnone d)) hq
    | none => exact hidle hr
  have hinsert : ∀ {q r : Phase} {id : Blob}, (s.phase c).Inserts → (∀ siteId, q ≠ .loaded siteId) →
      (∀ siteId, r ≠ .loaded siteId) → Agreed (s.goOn c (s.insertRow c id fails) q r) := by
    intro q r id hc hq hr
    cases hresult : s.insertRow c id fails with
    | some s' =>
        obtain ⟨hempty, hwrote⟩ := hw.inserted hc hresult
        exact agreed_of_wrote ha hwrote hempty hq
    | none => exact hidle hr
  rw [SiteId.next]
  split
  next => exact ha
  next => exact ha
  next => exact ha
  next => exact hcreate (by simp) (by simp)
  next hphase => exact hinsert (by rw [hphase]; trivial) (by simp) (by simp)
  next => exact hidle (by cases fails <;> simp)
  next => exact hidle (by split <;> simp)
  next => exact hcreate (by simp) (by simp)
  next hphase => exact hinsert (by rw [hphase]; trivial) (by simp) (by simp)
  next => exact hidle (by simp)
  next => exact hidle (by cases fails <;> simp)
  next siteId hphase =>
    split
    · exact ha.rollback fun _ h => by cases h
    · cases siteId with
      | none => exact hidle (by simp)
      | some siteId =>
          refine ha.enter fun siteId' h => hw.known c siteId' ?_
          rw [hphase, ← Phase.loaded.inj h]
          rfl

/-- A step that keeps the stored id keeps the agreement. -/
theorem Agreed.step (hw : WF s) (ha : Agreed s) (op : Op) (hop : KeepsSiteId s op) :
    Agreed (step s op) := by
  cases op with
  | begin c =>
      rw [SiteId.step]
      split <;> exact ha
  | commit c =>
      rw [SiteId.step]
      split
      · exact ha.commit hw
      · exact ha
  | rollback c =>
      rw [SiteId.step]
      split
      next hc =>
        have hback := ha.rollback (c := c) (hop hc.2)
        rwa [show s.phase c = (s.rollback c).phase c from rfl, enter_self] at hback
      next => exact ha
  | bootstrapSiteId c siteId =>
      rw [SiteId.step]
      split
      · exact ha.enter fun _ h => by cases h
      · exact ha
  | load c =>
      rw [SiteId.step]
      split
      · exact ha.enter fun _ h => by cases h
      · exact ha
  | next c fails random => exact ha.next hw c fails random
  | lose c => exact ha.rollback fun _ h => by cases h

/-- All loaded connections read their own site id throughout a run exactly when no connection
rolls a transaction back in which it has loaded the extension into a file without a site
id. -/
theorem agreed_iff (ops : List Op) :
    Run.Always step Agreed File.initial ops ↔ Run.Allowed step KeepsSiteId File.initial ops := by
  refine Run.always_iff_allowed (fun s => WF s ∧ Agreed s) (fun s h => h.2)
    (fun s op h hop => ⟨h.1.step op, h.2.step h.1 op hop⟩) (fun s op h hop hgood => hop ?_)
    ⟨wf_initial, fun c siteId h => by cases h⟩
  cases op with
  | rollback c =>
      intro htx siteId hphase
      have hstep : step s (.rollback c) = s.rollback c := by
        rw [SiteId.step, if_pos ⟨by rw [hphase]; trivial, htx⟩]
      rw [hstep] at hgood
      rw [← view_rollback_self, hgood c siteId hphase]
  | _ => trivial

/-- Connections that have loaded the extension have the same site id. -/
theorem Agreed.eq (hw : WF s) (ha : Agreed s) {siteId' : Blob} (hc : s.phase c = .loaded siteId)
    (hd : s.phase d = .loaded siteId') : siteId = siteId' := by
  have hcrows := ha c siteId hc
  have hdrows := ha d siteId' hd
  have hother : ∀ {c d : Nat}, s.writer = some c → s.view d ≠ none → d = c := by
    intro c d hcw hne
    by_contra hdc
    rw [File.view, hcw, if_neg fun h => hdc (Option.some.inj h).symm] at hne
    exact hne (hw.lock c hcw).2
  cases hwriter : s.writer with
  | none =>
      have hstored : ∀ c, s.view c = s.stored := fun c => by
        rw [File.view, if_neg (by rw [hwriter]; exact (Option.some_ne_none c).symm)]
      rw [hstored] at hcrows hdrows
      exact (List.cons.inj (Option.some.inj (hcrows.symm.trans hdrows))).1
  | some k =>
      have hck := hother hwriter (by rw [hcrows]; exact Option.some_ne_none _)
      have hdk := hother hwriter (by rw [hdrows]; exact Option.some_ne_none _)
      rw [hck] at hcrows
      rw [hdk] at hdrows
      exact (List.cons.inj (Option.some.inj (hcrows.symm.trans hdrows))).1

/-- After a run without such a rollback there is one site id. -/
theorem sameSiteId_run {ops : List Op} {siteId' : Blob}
    (hops : Run.Allowed step KeepsSiteId File.initial ops)
    (hc : (Run.exec step File.initial ops).phase c = .loaded siteId)
    (hd : (Run.exec step File.initial ops).phase d = .loaded siteId') : siteId = siteId' := by
  have hgood := Run.invariant (fun s => WF s ∧ Agreed s)
    (fun s op h hop => ⟨h.1.step op, h.2.step h.1 op hop⟩)
    ⟨wf_initial, fun c siteId h => by cases h⟩ hops
  exact hgood.2.eq hgood.1 hc hd

/-! ## Rows that are stored -/

/-- The table is there, no connection is about to insert into it, and every connection that has
loaded the extension since then has the id of the row. -/
structure Settled (s₀ : File) (rows : List Blob) (s : File) : Prop where
  wf : WF s
  stored : s.stored = some rows
  quiet : ∀ c, ¬ (s.phase c).Inserts
  loaded : ∀ c siteId, s.phase c = .loaded siteId → s₀.phase c = .loaded siteId ∨ rows = [siteId]

/-- Every connection reads the rows that are stored. -/
theorem Settled.view {s₀ : File} (h : Settled s₀ rows s) (c : Nat) : s.view c = some rows := by
  rw [File.view, if_neg, h.stored]
  intro hc
  exact Option.some_ne_none rows (h.stored.symm.trans (h.wf.lock c hc).2)

/-- A connection that goes on leaves the rows, and loads the one id. -/
theorem Settled.enter {s₀ : File} (h : Settled s₀ rows s) (hp : ¬ p.Inserts)
    (hknown : ∀ siteId, p.known = some siteId ∨ p = .loaded siteId → rows = [siteId]) :
    Settled s₀ rows (s.enter c p) := by
  refine ⟨h.wf.enter hp fun siteId hd => ?_, h.stored, fun d hd => ?_, fun d siteId hd => ?_⟩
  · rw [h.view c, hknown siteId (Or.inl hd)]
  · by_cases heq : d = c
    · rw [heq, phase_enter_self] at hd
      exact hp hd
    · rw [phase_enter_of_ne heq] at hd
      exact h.quiet d hd
  · by_cases heq : d = c
    · rw [heq, phase_enter_self] at hd
      exact Or.inr (hknown siteId (Or.inr hd))
    · rw [phase_enter_of_ne heq] at hd
      exact h.loaded d siteId hd

/-- A phase without an id. -/
theorem Settled.enter_idle {s₀ : File} (h : Settled s₀ rows s) (hp : ¬ p.Inserts)
    (hknown : p.known = none) (hne : ∀ siteId, p ≠ .loaded siteId) :
    Settled s₀ rows (s.enter c p) := by
  refine h.enter hp fun siteId hd => hd.elim (fun hd => ?_) fun hd => absurd hd (hne siteId)
  rw [hknown] at hd
  cases hd

/-- A rollback leaves the rows that are stored. -/
theorem Settled.rollback {s₀ : File} (h : Settled s₀ rows s) (hp : ¬ p.Inserts)
    (hknown : p.known = none)
    (hloaded : ∀ siteId, p = .loaded siteId → s₀.phase c = .loaded siteId ∨ rows = [siteId]) :
    Settled s₀ rows ((s.rollback c).enter c p) := by
  refine ⟨h.wf.rollback hp hknown, h.stored, fun d hd => ?_, fun d siteId hd => ?_⟩
  · by_cases heq : d = c
    · rw [heq, phase_enter_self] at hd
      exact hp hd
    · rw [phase_enter_of_ne heq] at hd
      exact h.quiet d hd
  · by_cases heq : d = c
    · rw [heq, phase_enter_self] at hd
      rw [heq]
      exact hloaded siteId hd
    · rw [phase_enter_of_ne heq] at hd
      exact h.loaded d siteId hd

/-- A call neither creates the table again nor inserts another row. -/
theorem Settled.next {s₀ : File} (h : Settled s₀ rows s) (c : Nat) (fails : Bool) (random : Blob) :
    Settled s₀ rows (next s c fails random) := by
  have hknown : ∀ siteId, (s.phase c).known = some siteId → rows = [siteId] := fun siteId hd =>
    Option.some.inj ((h.view c).symm.trans (h.wf.known c siteId hd))
  have hcreate : s.createTable c fails = none := by
    rw [File.createTable, if_pos (Or.inr (by rw [h.view c]; exact Option.some_ne_none rows))]
  have hfind : ¬ (fails = false ∧ s.view c = none) := fun hc =>
    Option.some_ne_none rows ((h.view c).symm.trans hc.2)
  have hquiet := h.quiet c
  rw [SiteId.next]
  split
  next => exact h
  next => exact h
  next => exact h
  next =>
    rw [hcreate]
    exact h.enter_idle id rfl (by simp)
  next hphase =>
    rw [hphase] at hquiet
    exact absurd trivial hquiet
  next => exact h.enter_idle (by cases fails <;> exact id) (by cases fails <;> rfl) (by cases fails <;> simp)
  next =>
    rw [if_neg hfind]
    exact h.enter_idle id rfl (by simp)
  next =>
    rw [hcreate]
    exact h.enter_idle id rfl (by simp)
  next hphase =>
    rw [hphase] at hquiet
    exact absurd trivial hquiet
  next =>
    refine h.enter id fun siteId hd => ?_
    cases fails with
    | true => rcases hd with hd | hd <;> cases hd
    | false =>
        have hrow := h.wf.view_of_head (hd.resolve_right fun hd => by cases hd)
        exact Option.some.inj ((h.view c).symm.trans hrow)
  next siteId hphase =>
    split
    · exact h.enter_idle id rfl (by simp)
    · refine h.enter id fun siteId' hd => hknown siteId' ?_
      rw [hphase]
      exact hd.resolve_right fun hd => by cases hd
  next siteId hphase =>
    split
    · exact h.rollback id rfl fun siteId' hd => by cases hd
    · cases siteId with
      | none => exact h.enter_idle id rfl (by simp)
      | some siteId =>
          refine h.enter id fun siteId' hd => hknown siteId' ?_
          rw [hphase, ← Phase.loaded.inj (hd.resolve_left fun hd => by cases hd)]
          rfl

/-- Every step leaves the rows that are stored. -/
theorem Settled.step {s₀ : File} (h : Settled s₀ rows s) (op : Op) :
    Settled s₀ rows (step s op) := by
  cases op with
  | begin c =>
      rw [SiteId.step]
      split
      next hc => exact ⟨h.wf.begin hc, h.stored, h.quiet, h.loaded⟩
      next => exact h
  | commit c =>
      rw [SiteId.step]
      split
      next hc => exact ⟨h.wf.commit hc.1, h.view c, h.quiet, h.loaded⟩
      next => exact h
  | rollback c =>
      rw [SiteId.step]
      split
      next hc =>
        have hback := h.rollback (c := c) hc.1.not_inserts hc.1.known_eq (h.loaded c)
        rwa [show s.phase c = (s.rollback c).phase c from rfl, enter_self] at hback
      next => exact h
  | bootstrapSiteId c siteId =>
      rw [SiteId.step]
      split
      · exact h.enter_idle id rfl (by simp)
      · exact h
  | load c =>
      rw [SiteId.step]
      split
      · exact h.enter_idle id rfl (by simp)
      · exact h
  | next c fails random => exact h.next c fails random
  | lose c => exact h.rollback id rfl fun _ hd => by cases hd

/-- Rows that are stored stay for the rest of the run, and the extension is loaded with no
other id.  When the table was created and its row was never inserted, it can not be loaded
any more. -/
theorem settled_run (before ops : List Op)
    (hstored : (Run.exec step File.initial before).stored = some rows)
    (hquiet : ∀ c, ¬ ((Run.exec step File.initial before).phase c).Inserts) :
    (Run.exec step File.initial (before ++ ops)).stored = some rows ∧
      ∀ c siteId, (Run.exec step File.initial (before ++ ops)).phase c = .loaded siteId →
        (Run.exec step File.initial before).phase c = .loaded siteId ∨ rows = [siteId] := by
  have hall : ∀ {s : File} (ops : List Op), Run.Allowed step (fun _ _ => True) s ops := fun ops =>
    Run.allowed_of_forall (fun _ _ => trivial) _ ops
  have hw : WF (Run.exec step File.initial before) :=
    Run.invariant WF (fun _ op h _ => h.step op) wf_initial (hall before)
  have hsettled : Settled (Run.exec step File.initial before) rows
      (Run.exec step File.initial (before ++ ops)) := by
    rw [Run.exec_append]
    exact Run.invariant _ (fun _ op h _ => h.step op)
      ⟨hw, hstored, hquiet, fun _ _ h => Or.inl h⟩ (hall ops)
  exact ⟨hsettled.stored, hsettled.loaded⟩

/-- A connection is lost between the two statements of `createSiteIdAndSiteIdTable`. -/
def lostBetween : List Op :=
  [.load 0, .next 0 false [], .next 0 false [], .next 0 false [], .lose 0]

def loadAgain : List Op :=
  .load 1 :: List.replicate 6 (.next 1 false [])

/-- A connection is lost behind CREATE TABLE, and no other one can load the extension. -/
theorem settled_run_lostBetween :
    (Run.exec step File.initial (lostBetween ++ loadAgain)).stored = some [] ∧
      ∀ c siteId, (Run.exec step File.initial (lostBetween ++ loadAgain)).phase c =
          .loaded siteId →
        (Run.exec step File.initial lostBetween).phase c = .loaded siteId ∨ [] = [siteId] :=
  settled_run lostBetween loadAgain rfl fun c => by
    cases c with
    | zero => exact id
    | succ c => exact id

end WF

end CrSqlite.SiteId
