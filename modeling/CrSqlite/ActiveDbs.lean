import CrSqlite.Library.Run
import CrSqlite.Value
import Mathlib.Logic.Function.Basic

/-!
# ActiveDbs - the database objects of the server

The server keeps a weak reference to the database object of each id.  A call of
`dbFactory` looks the id up, is suspended while it checks the file, and then creates an
object without another look.  Objects that nobody holds are collected, and a callback
that knows only the id closes what the map then has for it and deletes the entry
(js/sync-reference/server-core, db.ts).

Main results:

- Theorem {lit}`registered_step`: a step in which no call creates an object behind a held
  one, and no callback finds a held one, keeps every held object in the map.
- Theorem {lit}`oneLiveObject_iff`: there is one object for each id throughout a run
  exactly when every step is one of these.
- Theorem {lit}`concurrent_calls_create_two`: two calls that are suspended at the same
  time create two objects for one id.
- Theorem {lit}`late_callback_closes_successor`: the callback of a collected object
  closes the one that has replaced it.
-/

namespace CrSqlite

/-! ## The state -/

/-- `DB`, as far as it is open; how many callers hold it, whether it was collected, and
whether the callback of the registry has run for it. -/
structure DbObject where
  siteId : Blob
  isOpen : Bool
  holders : Nat
  collected : Bool
  finalized : Bool
deriving DecidableEq

/-- A call of `dbFactory` that is suspended at the check of the file. -/
structure SuspendedCall where
  desiredDb : Blob
  create : Option Text
deriving DecidableEq

/-- The answer of a call: the object it has returned, if it has, and the objects of its
id that were held and open when it looked. -/
structure DbAnswer where
  returned : Option Nat
  held : List Nat
deriving DecidableEq

/-- `activeDBs`, the objects by their number, the suspended calls, the answers, and the
held objects that a callback has closed or evicted. -/
structure ActiveDbs where
  activeDBs : Blob → Option Nat
  objects : List DbObject
  suspended : List (Option SuspendedCall)
  answers : List DbAnswer
  harmed : List Nat

/-- What happens to the objects.  `resume` ends the file check, which has found the file
or not, and `fails` tells that the constructor throws; `finalize` is the callback of the
registry. -/
inductive ActiveDbsOp where
  | call (desiredDb : Blob) (create : Option Text)
  | resume (call : Nat) (found fails : Bool)
  | release (object : Nat)
  | collect (object : Nat)
  | finalize (object : Nat)

/-- The test of a schema name. -/
def schemaNameOk (name : Text) : Bool :=
  !name.isEmpty && name.all fun c => c.isAlphanum || c = '-' || c = '_'

namespace ActiveDbs

/-- No database was opened. -/
def init : ActiveDbs :=
  ⟨fun _ => none, [], [], [], []⟩

/-- The objects of an id that are held and open. -/
def heldFor (s : ActiveDbs) (id : Blob) : List Nat :=
  (List.range s.objects.length).filter fun o =>
    s.objects[o]?.any fun ob => ob.siteId = id && 0 < ob.holders && ob.isOpen

/-- `activeDBs.get(id)?.deref()`. -/
def deref (s : ActiveDbs) (id : Blob) : Option Nat :=
  (s.activeDBs id).filter fun o => s.objects[o]?.any fun ob => !ob.collected

/-! ## The operations -/

/-- An object is changed. -/
def update (s : ActiveDbs) (o : Nat) (f : DbObject → DbObject) : ActiveDbs :=
  { s with objects := s.objects.modify o f }

/-- `activeDBs.delete`. -/
def delete (s : ActiveDbs) (id : Blob) : ActiveDbs :=
  { s with activeDBs := Function.update s.activeDBs id none }

/-- A call has answered. -/
def answer (s : ActiveDbs) (id : Blob) (returned : Option Nat) : ActiveDbs :=
  { s with answers := s.answers ++ [⟨returned, s.heldFor id⟩] }

/-- `dbFactory` up to the check of the file. -/
def call (uuidValid : Blob → Bool) (s : ActiveDbs) (id : Blob) (create : Option Text) :
    ActiveDbs :=
  if !uuidValid id || create.any (fun name => !schemaNameOk name) then s
  else
    match s.deref id with
    | some o => (s.answer id (some o)).update o fun ob => { ob with holders := ob.holders + 1 }
    | none => { (s.answer id none).delete id with suspended := s.suspended ++ [some ⟨id, create⟩] }

/-- A new object is put in the map and registered. -/
def construct (s : ActiveDbs) (id : Blob) : ActiveDbs :=
  { s.answer id (some s.objects.length) with
    activeDBs := Function.update s.activeDBs id (some s.objects.length)
    objects := s.objects ++ [⟨id, true, 1, false, false⟩] }

/-- The call has ended. -/
def endCall (s : ActiveDbs) (i : Nat) : ActiveDbs :=
  { s with suspended := s.suspended.set i none }

/-- `dbFactory` from the check of the file: it throws when there is no file and none is
to be created, and when the constructor does. -/
def resume (s : ActiveDbs) (i : Nat) (found fails : Bool) : ActiveDbs :=
  match s.suspended[i]? with
  | some (some c) =>
      if (!found && c.create.isNone) || fails then s.endCall i
      else (s.construct c.desiredDb).endCall i
  | _ => s

/-- A caller lets go of an object. -/
def release (s : ActiveDbs) (o : Nat) : ActiveDbs :=
  s.update o fun ob => { ob with holders := ob.holders - 1 }

/-- An object that nobody holds is collected. -/
def collect (s : ActiveDbs) (o : Nat) : ActiveDbs :=
  s.update o fun ob => if ob.holders = 0 then { ob with collected := true } else ob

/-- The object that is found is closed. -/
def close (s : ActiveDbs) (o : Nat) : ActiveDbs :=
  s.update o fun ob => { ob with isOpen := false }

/-- The callback of the registry, called with an id. -/
def finalizer (s : ActiveDbs) (id : Blob) : ActiveDbs :=
  match s.deref id with
  | some o =>
      let closed := (s.close o).delete id
      if s.objects[o]?.any fun ob => 0 < ob.holders then
        { closed with harmed := s.harmed ++ [o] }
      else closed
  | none => s.delete id

/-- The callback for an object runs once, any time after the collection. -/
def finalize (s : ActiveDbs) (o : Nat) : ActiveDbs :=
  match s.objects[o]? with
  | some ob =>
      if ob.collected && !ob.finalized then
        (s.finalizer ob.siteId).update o fun ob => { ob with finalized := true }
      else s
  | none => s

/-- One step. -/
def step (uuidValid : Blob → Bool) (s : ActiveDbs) : ActiveDbsOp → ActiveDbs
  | .call id create => s.call uuidValid id create
  | .resume i found fails => s.resume i found fails
  | .release o => s.release o
  | .collect o => s.collect o
  | .finalize o => s.finalize o

/-! ## The property and its condition -/

/-- Of the objects of an id at most one is held and open; a call returns it if there is
one; and no callback has closed or evicted a held object. -/
structure OneLiveObject (s : ActiveDbs) : Prop where
  unique : ∀ id, ∀ o ∈ s.heldFor id, ∀ o' ∈ s.heldFor id, o = o'
  returned : ∀ a ∈ s.answers, ∀ o ∈ a.held, a.returned = some o
  unharmed : s.harmed = []

/-- A call creates an object only when no object of its id is held and open, and a
callback that runs finds no held object under its id. -/
def FindsNone (s : ActiveDbs) : ActiveDbsOp → Prop
  | .resume i found fails =>
      match s.suspended[i]? with
      | some (some c) =>
          found = false ∧ c.create = none ∨ fails = true ∨ s.heldFor c.desiredDb = []
      | _ => True
  | .finalize o =>
      match s.objects[o]? with
      | some ob =>
          ob.collected = true → ob.finalized = false → s.heldFor ob.siteId = []
      | none => True
  | _ => True

@[simp]
theorem activeDBs_delete_self (s : ActiveDbs) (id : Blob) : (s.delete id).activeDBs id = none :=
  Function.update_self ..

/-- The other ids keep theirs. -/
theorem activeDBs_delete_of_ne (s : ActiveDbs) {id id' : Blob} (h : id' ≠ id) :
    (s.delete id).activeDBs id' = s.activeDBs id' :=
  Function.update_of_ne h ..

@[simp]
theorem activeDBs_construct_self (s : ActiveDbs) (id : Blob) :
    (s.construct id).activeDBs id = some s.objects.length :=
  Function.update_self ..

/-- The other ids keep theirs. -/
theorem activeDBs_construct_of_ne (s : ActiveDbs) {id id' : Blob} (h : id' ≠ id) :
    (s.construct id).activeDBs id' = s.activeDBs id' :=
  Function.update_of_ne h ..

/-! ## What is held and what is found -/

/-- What is held for an id are its open objects with a holder. -/
theorem mem_heldFor {s : ActiveDbs} {id : Blob} {o : Nat} :
    o ∈ s.heldFor id ↔
      ∃ ob, s.objects[o]? = some ob ∧ ob.siteId = id ∧ 0 < ob.holders ∧ ob.isOpen = true := by
  rw [heldFor, List.mem_filter, List.mem_range]
  constructor
  · rintro ⟨-, hany⟩
    cases hob : s.objects[o]? with
    | none => simp [hob] at hany
    | some ob =>
        simp only [hob, Option.any_some, Bool.and_eq_true, decide_eq_true_eq] at hany
        obtain ⟨⟨hid, hheld⟩, hopen⟩ := hany
        exact ⟨ob, rfl, hid, hheld, hopen⟩
  · rintro ⟨ob, hob, hid, hheld, hopen⟩
    refine ⟨(List.getElem?_eq_some_iff.mp hob).1, ?_⟩
    simp [hob, hid, hheld, hopen]

/-- A reference leads to an object that was not collected. -/
theorem deref_eq_some {s : ActiveDbs} {id : Blob} {o : Nat} :
    s.deref id = some o ↔
      s.activeDBs id = some o ∧ ∃ ob, s.objects[o]? = some ob ∧ ob.collected = false := by
  rw [deref, Option.filter_eq_some_iff]
  refine and_congr_right fun _ => ?_
  cases s.objects[o]? with
  | none => simp
  | some ob => simp

/-- An object is updated, and the others stay. -/
theorem getElem?_update {s : ActiveDbs} {o k : Nat} {f : DbObject → DbObject} {ob : DbObject}
    (h : (s.update o f).objects[k]? = some ob) :
    (k = o ∧ ∃ old, s.objects[o]? = some old ∧ ob = f old) ∨
      (k ≠ o ∧ s.objects[k]? = some ob) := by
  rw [update, List.getElem?_modify, Option.map_eq_map, Option.map_eq_some_iff] at h
  obtain ⟨old, hold, rfl⟩ := h
  by_cases hko : o = k
  · subst hko
    exact Or.inl ⟨rfl, old, hold, by rw [if_pos rfl]⟩
  · rw [if_neg hko]
    exact Or.inr ⟨Ne.symm hko, hold⟩

/-! ## Runs -/

/-- Every held object is open and the map has it; what the map has is an object of the
id, open unless it was collected. -/
structure Registered (s : ActiveDbs) : Prop where
  held : ∀ o ob, s.objects[o]? = some ob → 0 < ob.holders →
    s.activeDBs ob.siteId = some o ∧ ob.isOpen = true ∧ ob.collected = false
  mapped : ∀ id o, s.activeDBs id = some o → ∃ ob, s.objects[o]? = some ob ∧ ob.siteId = id ∧
    (ob.collected = false → ob.isOpen = true)
  returned : ∀ a ∈ s.answers, ∀ o ∈ a.held, a.returned = some o
  unharmed : s.harmed = []

/-- Without objects all are registered. -/
theorem registered_init : init.Registered := by
  refine ⟨fun o ob hob => ?_, nofun, nofun, rfl⟩
  simp [init] at hob

section Registered

variable {s : ActiveDbs}

/-- What is held under an id is what the map finds there. -/
theorem Registered.deref_eq (h : s.Registered) {id : Blob} {o : Nat} (ho : o ∈ s.heldFor id) :
    s.deref id = some o := by
  obtain ⟨ob, hob, rfl, hheld, -⟩ := mem_heldFor.mp ho
  obtain ⟨hactive, -, hcollected⟩ := h.held o ob hob hheld
  exact deref_eq_some.mpr ⟨hactive, ob, hob, hcollected⟩

/-- An object that is held is held under its id. -/
theorem Registered.ne_of_heldFor (h : s.Registered) {id : Blob} (hnone : s.heldFor id = [])
    {o : Nat} {ob : DbObject} (hob : s.objects[o]? = some ob) (hheld : 0 < ob.holders) :
    ob.siteId ≠ id := by
  intro hid
  have hmem := mem_heldFor.mpr ⟨ob, hob, hid, hheld, (h.held o ob hob hheld).2.1⟩
  simp [hnone] at hmem

/-- Registered objects are one for each id. -/
theorem Registered.oneLiveObject (h : s.Registered) : s.OneLiveObject where
  unique _ _ ho _ ho' := Option.some.inj ((h.deref_eq ho).symm.trans (h.deref_eq ho'))
  returned := h.returned
  unharmed := h.unharmed

/-! ### One step -/

/-- A change of an object that keeps its id is good when the changed object is. -/
private theorem Registered.update (h : s.Registered) {o : Nat} {f : DbObject → DbObject}
    (hid : ∀ ob, (f ob).siteId = ob.siteId)
    (hheld : ∀ ob, s.objects[o]? = some ob → 0 < (f ob).holders →
      s.activeDBs ob.siteId = some o ∧ (f ob).isOpen = true ∧ (f ob).collected = false)
    (hopen : ∀ ob, s.objects[o]? = some ob → s.activeDBs ob.siteId = some o →
      (f ob).collected = false → (f ob).isOpen = true) : (s.update o f).Registered := by
  refine { h with held := fun k ob hob hholders => ?_, mapped := fun id k hk => ?_ }
  · rcases getElem?_update hob with ⟨rfl, old, hold, rfl⟩ | ⟨-, hsame⟩
    · rw [hid]
      exact hheld old hold hholders
    · exact h.held k ob hsame hholders
  · obtain ⟨ob, hob, hobid, hobopen⟩ := h.mapped id k hk
    by_cases hko : o = k
    · subst hko
      refine ⟨f ob, ?_, (hid ob).trans hobid, hopen ob hob (hobid ▸ hk)⟩
      rw [ActiveDbs.update, List.getElem?_modify, hob]
      simp
    · refine ⟨ob, ?_, hobid, hobopen⟩
      rw [ActiveDbs.update, List.getElem?_modify, hob]
      simp [hko]

/-- An id that holds nothing may be deleted. -/
private theorem Registered.delete (h : s.Registered) {id : Blob} (hnone : s.heldFor id = []) :
    (s.delete id).Registered := by
  refine { h with held := fun o ob hob hheld => ?_, mapped := fun id' o ho => ?_ }
  · rw [activeDBs_delete_of_ne _ (h.ne_of_heldFor hnone hob hheld)]
    exact h.held o ob hob hheld
  · by_cases hid : id' = id
    · simp [hid] at ho
    · rw [activeDBs_delete_of_ne _ hid] at ho
      exact h.mapped id' o ho

/-- An answer is the object that is held. -/
private theorem Registered.answer (h : s.Registered) {id : Blob} {returned : Option Nat}
    (hreturned : ∀ o ∈ s.heldFor id, returned = some o) : (s.answer id returned).Registered := by
  refine { h with returned := fun a ha => ?_ }
  rcases List.mem_append.mp ha with hold | hnew
  · exact h.returned a hold
  · rw [List.mem_singleton.mp hnew]
    exact hreturned

/-- A call finds the registered object, or is suspended at the file. -/
private theorem Registered.call (h : s.Registered) (uuidValid : Blob → Bool) (id : Blob)
    (create : Option Text) : (s.call uuidValid id create).Registered := by
  unfold ActiveDbs.call
  split
  · exact h
  · split
    · rename_i o ho
      obtain ⟨hactive, ob, hob, hcollected⟩ := deref_eq_some.mp ho
      obtain ⟨ob', hob', hid, hopen⟩ := h.mapped id o hactive
      obtain rfl : ob' = ob := Option.some.inj (hob'.symm.trans hob)
      have hanswer : (s.answer id (some o)).Registered :=
        h.answer fun k hk => ho.symm.trans (h.deref_eq hk)
      refine hanswer.update (fun _ => rfl) (fun old hold _ => ?_) fun old hold _ _ => ?_
      · obtain rfl : old = ob' := Option.some.inj (hold.symm.trans hob)
        exact ⟨hid ▸ hactive, hopen hcollected, hcollected⟩
      · obtain rfl : old = ob' := Option.some.inj (hold.symm.trans hob)
        exact hopen hcollected
    · rename_i hnone
      have hempty : s.heldFor id = [] := by
        refine List.eq_nil_iff_forall_not_mem.mpr fun o ho => ?_
        rw [h.deref_eq ho] at hnone
        simp at hnone
      have hanswer : (s.answer id none).Registered :=
        h.answer fun o ho => by simp [hempty] at ho
      have hdelete : ((s.answer id none).delete id).Registered := hanswer.delete hempty
      exact { hdelete with }

/-- An object that is created where none was held is the one that the map has. -/
private theorem Registered.construct (h : s.Registered) {id : Blob} (hnone : s.heldFor id = []) :
    (s.construct id).Registered := by
  have hanswer : (s.answer id (some s.objects.length)).Registered :=
    h.answer fun o ho => by simp [hnone] at ho
  refine { hanswer with held := fun o ob hob hheld => ?_, mapped := fun id' o ho => ?_ }
  · change (s.objects ++ _)[o]? = some ob at hob
    rcases Nat.lt_trichotomy o s.objects.length with hlt | rfl | hgt
    · rw [List.getElem?_append_left hlt] at hob
      rw [activeDBs_construct_of_ne _ (h.ne_of_heldFor hnone hob hheld)]
      exact h.held o ob hob hheld
    · rw [List.getElem?_concat_length, Option.some.injEq] at hob
      subst hob
      exact ⟨activeDBs_construct_self .., rfl, rfl⟩
    · have hlt := (List.getElem?_eq_some_iff.mp hob).1
      rw [List.length_append, List.length_singleton] at hlt
      omega
  · by_cases hid : id' = id
    · subst hid
      rw [activeDBs_construct_self, Option.some.injEq] at ho
      subst ho
      exact ⟨_, List.getElem?_concat_length, rfl, fun _ => rfl⟩
    · rw [activeDBs_construct_of_ne _ hid] at ho
      obtain ⟨ob, hob, hrest⟩ := h.mapped id' o ho
      have hlt := (List.getElem?_eq_some_iff.mp hob).1
      exact ⟨ob, (List.getElem?_append_left hlt).trans hob, hrest⟩

/-- A call that goes on and finds nothing held makes an object. -/
private theorem Registered.resume (h : s.Registered) {i : Nat} {found fails : Bool}
    (hok : s.FindsNone (.resume i found fails)) : (s.resume i found fails).Registered := by
  unfold ActiveDbs.resume
  split
  · rename_i c hc
    split
    · exact { h with }
    · rename_i hcreates
      simp only [FindsNone, hc] at hok
      have hnone : s.heldFor c.desiredDb = [] := by
        rcases hok with ⟨rfl, hcreate⟩ | rfl | hnone
        · simp [hcreate] at hcreates
        · simp at hcreates
        · exact hnone
      have hconstruct := h.construct hnone
      exact { hconstruct with }
  · exact h

/-- A callback that finds no held object closes and evicts none. -/
private theorem Registered.finalizer (h : s.Registered) {id : Blob} (hnone : s.heldFor id = []) :
    (s.finalizer id).Registered := by
  have hdelete := h.delete hnone
  unfold ActiveDbs.finalizer
  split
  · rename_i o ho
    obtain ⟨hactive, ob, hob, hcollected⟩ := deref_eq_some.mp ho
    obtain ⟨ob', hob', hid, -⟩ := h.mapped id o hactive
    obtain rfl : ob' = ob := Option.some.inj (hob'.symm.trans hob)
    have hfree : ¬ 0 < ob'.holders := fun hheld => h.ne_of_heldFor hnone hob hheld hid
    have hclosed : ((s.close o).delete id).Registered := by
      refine hdelete.update (fun _ => rfl) (fun old hold hheld => ?_) fun old hold hmapped _ => ?_
      · obtain rfl : old = ob' := Option.some.inj (hold.symm.trans hob)
        exact absurd hheld hfree
      · obtain rfl : old = ob' := Option.some.inj (hold.symm.trans hob)
        simp [hid] at hmapped
    dsimp only
    rw [if_neg (by simpa [hob] using hfree)]
    exact hclosed
  · exact hdelete

/-- A finalizer that finds nothing held deletes the id. -/
private theorem Registered.finalize (h : s.Registered) {o : Nat}
    (hok : s.FindsNone (.finalize o)) : (s.finalize o).Registered := by
  unfold ActiveDbs.finalize
  split
  · rename_i ob hob
    split
    · rename_i hruns
      simp only [Bool.and_eq_true, Bool.not_eq_true'] at hruns
      simp only [FindsNone, hob] at hok
      have hfinal := h.finalizer (hok hruns.1 hruns.2)
      refine hfinal.update (fun _ => rfl) (fun old hold hheld => hfinal.held o old hold hheld)
        fun old hold hmapped hcollected => ?_
      obtain ⟨old', hold', -, hopen⟩ := hfinal.mapped _ _ hmapped
      obtain rfl : old' = old := Option.some.inj (hold'.symm.trans hold)
      exact hopen hcollected
    · exact h
  · exact h

end Registered

/-- A step in which no call creates an object behind a held one, and no callback finds a
held one, keeps every held object in the map. -/
theorem registered_step {uuidValid : Blob → Bool} {s : ActiveDbs} (op : ActiveDbsOp)
    (h : s.Registered) (hok : s.FindsNone op) : (s.step uuidValid op).Registered := by
  cases op with
  | call id create => exact h.call uuidValid id create
  | resume i found fails => exact h.resume hok
  | release o =>
      refine h.update (fun _ => rfl) (fun ob hob hheld => ?_) fun ob hob hmapped hcollected => ?_
      · exact h.held o ob hob (Nat.lt_of_lt_of_le hheld (Nat.sub_le _ _))
      · obtain ⟨ob', hob', -, hopen⟩ := h.mapped _ _ hmapped
        obtain rfl : ob' = ob := Option.some.inj (hob'.symm.trans hob)
        exact hopen hcollected
  | collect o =>
      refine h.update (fun ob => ?_) (fun ob hob hheld => ?_) fun ob hob hmapped hcollected => ?_
      · split <;> rfl
      · split at hheld
        · rename_i hzero
          exact absurd hheld (by simp [hzero])
        · rename_i hpos
          rw [if_neg hpos]
          exact h.held o ob hob hheld
      · obtain ⟨ob', hob', -, hopen⟩ := h.mapped _ _ hmapped
        obtain rfl : ob' = ob := Option.some.inj (hob'.symm.trans hob)
        split at hcollected
        · simp at hcollected
        · rename_i hpos
          rw [if_neg hpos]
          exact hopen hcollected
  | finalize o => exact h.finalize hok

/-- Every other step answers a call with a second object, or closes and evicts a held
one. -/
theorem not_oneLiveObject_of_not_findsNone {uuidValid : Blob → Bool} {s : ActiveDbs}
    (h : s.Registered) {op : ActiveDbsOp} (hbad : ¬ s.FindsNone op) :
    ¬ (s.step uuidValid op).OneLiveObject := by
  intro hone
  cases op with
  | call id create => exact hbad trivial
  | release o => exact hbad trivial
  | collect o => exact hbad trivial
  | resume i found fails =>
      unfold FindsNone at hbad
      dsimp only at hbad
      split at hbad
      · rename_i c hc
        simp only [not_or] at hbad
        obtain ⟨hfound, hfails, hheld⟩ := hbad
        have hcreates : ¬ ((!found && c.create.isNone) || fails) = true := by
          simpa [hfails] using hfound
        obtain ⟨o, ho⟩ := List.exists_mem_of_ne_nil _ hheld
        have hstep : s.step uuidValid (.resume i found fails) =
            (s.construct c.desiredDb).endCall i := by
          simp only [step, ActiveDbs.resume, hc, if_neg hcreates]
        rw [hstep] at hone
        have hsame := hone.returned ⟨some s.objects.length, s.heldFor c.desiredDb⟩
          (List.mem_append_right _ (List.mem_singleton_self _)) o ho
        obtain ⟨ob, hob, -⟩ := mem_heldFor.mp ho
        have hlt := (List.getElem?_eq_some_iff.mp hob).1
        rw [Option.some.injEq] at hsame
        omega
      · exact hbad trivial
  | finalize o =>
      unfold FindsNone at hbad
      dsimp only at hbad
      split at hbad
      · rename_i ob hob
        simp only [Classical.not_imp] at hbad
        obtain ⟨hcollected, hfinalized, hheld⟩ := hbad
        obtain ⟨k, hk⟩ := List.exists_mem_of_ne_nil _ hheld
        have hderef := h.deref_eq hk
        obtain ⟨obk, hobk, -, hholders, -⟩ := mem_heldFor.mp hk
        have hunharmed := hone.unharmed
        have hany : s.objects[k]?.any (fun ob => 0 < ob.holders) = true := by
          simpa [hobk] using hholders
        simp [step, ActiveDbs.finalize, hob, hcollected, hfinalized, ActiveDbs.finalizer, hderef,
          hany, ActiveDbs.update] at hunharmed
      · exact hbad trivial

/-- There is one object for each id throughout a run exactly when no call creates an
object behind a held one, and no callback finds a held one. -/
theorem oneLiveObject_iff (uuidValid : Blob → Bool) (ops : List ActiveDbsOp) :
    Run.Always (step uuidValid) OneLiveObject init ops ↔
      Run.Allowed (step uuidValid) FindsNone init ops :=
  Run.always_iff_allowed Registered (fun _ h => h.oneLiveObject)
    (fun _ op h hok => registered_step op h hok)
    (fun _ _ h hbad => not_oneLiveObject_of_not_findsNone h hbad) registered_init

/-- Two calls for one id are suspended at the same time, and each creates an object. -/
theorem concurrent_calls_create_two :
    let s := Run.exec (step fun _ => true) init
      [.call [1] none, .call [1] none, .resume 0 true false, .resume 1 true false]
    s.heldFor [1] = [0, 1] ∧ s.activeDBs [1] = some 1 ∧ ¬ s.OneLiveObject := by
  intro s
  have hheld : s.heldFor [1] = [0, 1] := by decide
  refine ⟨hheld, by decide, fun h => ?_⟩
  have hsame := h.unique [1] 0 (by simp [hheld]) 1 (by simp [hheld])
  simp at hsame

/-- An object is released and collected, another one takes its place, and then the
callback of the first one closes and evicts the second, which is held. -/
theorem late_callback_closes_successor :
    let s := Run.exec (step fun _ => true) init
      [.call [1] none, .resume 0 true false, .release 0, .collect 0, .call [1] none,
        .resume 1 true false, .finalize 0]
    s.objects[1]? = some ⟨[1], false, 1, false, false⟩ ∧ s.activeDBs [1] = none ∧
    s.harmed = [1] ∧ ¬ s.OneLiveObject := by
  intro s
  have hharmed : s.harmed = [1] := by decide
  refine ⟨by decide, by decide, hharmed, fun h => ?_⟩
  have hnone := h.unharmed
  rw [hharmed] at hnone
  simp at hnone

end ActiveDbs

end CrSqlite
