import CrSqlite.Library.Run
import CrSqlite.Value
import Mathlib.Data.List.Infix
import Mathlib.Data.List.Nodup
import Mathlib.Data.Set.Lattice
import Mathlib.Logic.Function.Basic

/-!
# TblRx - telling listeners which tables have changed

An object of `TblRx` collects the tables that its database reports, and tells its listeners
of them in one microtask.  It then posts them on a broadcast channel, so that the objects of
other tabs tell their listeners too (js/rx-tbl/src/tblrx.ts).  Objects are made and disposed
of, listeners come and go, and microtasks and messages run in any order.

Main results:

- Theorem {lit}`wf_reachable`: one microtask at most is queued, and nobody is told of nothing.
- Theorem {lit}`told_step`: what a step tells a listener, and what is still outstanding.
- Theorem {lit}`told_run`: a listener is told of exactly the tables that changed, except for
  those that are outstanding.
-/

namespace CrSqlite.TblRx

/-! ## An object -/

/-- A set of names in the order in which they were added, or null. -/
abbrev TableSet :=
  Option (List Text)

abbrev Listener :=
  Nat

/-- The fields of a `TblRx`, with its queued microtasks and the messages on their way to it.
`told` records the calls of its listeners. -/
structure Rx where
  listeners : List Listener
  pendingNotification : TableSet
  microtasks : Nat
  closed : Bool
  inbox : List TableSet
  told : List (Listener × TableSet)

def Rx.new : Rx :=
  ⟨[], none, 0, false, [], []⟩

def IsInternal (tblName : Text) : Prop :=
  "__crsql".toList <:+: tblName

instance (tblName : Text) : Decidable (IsInternal tblName) :=
  inferInstanceAs (Decidable (_ <:+: _))

namespace Rx

/-- One listener that throws does not keep the others from being called. -/
def notifyListeners (r : Rx) (tbls : TableSet) : Rx :=
  { r with told := r.told ++ r.listeners.map fun l => (l, tbls) }

def preNotify (r : Rx) (tbl : Text) : Rx :=
  match r.pendingNotification with
  | some tbls =>
      { r with pendingNotification := some (if tbl ∈ tbls then tbls else tbls ++ [tbl]) }
  | none => { r with pendingNotification := some [tbl], microtasks := r.microtasks + 1 }

/-- The callback of `db.onUpdate`. -/
def onUpdate (r : Rx) (tblName : Text) : Rx :=
  if IsInternal tblName then r else r.preNotify tblName

def on (r : Rx) (cb : Listener) : Rx :=
  { r with listeners := if cb ∈ r.listeners then r.listeners else r.listeners ++ [cb] }

def off (r : Rx) (cb : Listener) : Rx :=
  { r with listeners := r.listeners.filter (· ≠ cb) }

def dispose (r : Rx) : Rx :=
  { r with listeners := [], closed := true }

/-- The microtask up to the message it posts. -/
def notifyPending (r : Rx) : Rx :=
  ({ r with pendingNotification := none, microtasks := r.microtasks - 1 }).notifyListeners
    r.pendingNotification

/-- `#bc.onmessage`; a channel that was closed drops what was on its way. -/
def onmessage (r : Rx) : Rx :=
  match r.inbox with
  | [] => r
  | tbls :: rest =>
      if r.closed then { r with inbox := rest }
      else ({ r with inbox := rest }).notifyListeners tbls

end Rx

/-! ## All objects -/

/-- The objects of all tabs, numbered as they are made. -/
structure Tabs where
  rx : Nat → Rx
  count : Nat

namespace Tabs

def initial : Tabs :=
  ⟨fun _ => Rx.new, 0⟩

def modify (w : Tabs) (i : Nat) (f : Rx → Rx) : Tabs :=
  { w with rx := Function.update w.rx i (f (w.rx i)) }

/-- A message goes to all other channels that are not closed; a closed channel posts none. -/
def postMessage (w : Tabs) (i : Nat) (tbls : TableSet) : Tabs :=
  if (w.rx i).closed then w
  else
    { w with rx := fun j =>
        if j ≠ i ∧ j < w.count ∧ (w.rx j).closed = false then
          { w.rx j with inbox := (w.rx j).inbox ++ [tbls] }
        else w.rx j }

def runMicrotask (w : Tabs) (i : Nat) : Tabs :=
  if (w.rx i).microtasks = 0 then w
  else (w.modify i Rx.notifyPending).postMessage i (w.rx i).pendingNotification

end Tabs

inductive Op where
  | create
  | update (i : Nat) (tblName : Text)
  | microtask (i : Nat)
  | message (i : Nat)
  | on (i : Nat) (cb : Listener)
  | off (i : Nat) (cb : Listener)
  | dispose (i : Nat)

def step (w : Tabs) : Op → Tabs
  | .create => ⟨Function.update w.rx w.count Rx.new, w.count + 1⟩
  | .update i tblName => w.modify i fun r => r.onUpdate tblName
  | .microtask i => w.runMicrotask i
  | .message i => w.modify i Rx.onmessage
  | .on i cb => w.modify i fun r => r.on cb
  | .off i cb => w.modify i fun r => r.off cb
  | .dispose i => w.modify i Rx.dispose

/-! ## What is queued and told -/

/-- Some tables, each of them once, and none of the extension's own. -/
def Proper (tbls : TableSet) : Prop :=
  ∃ names, tbls = some names ∧ names ≠ [] ∧ names.Nodup ∧ ∀ x ∈ names, ¬ IsInternal x

/-- One microtask is queued while there is something to tell, and all sets are proper. -/
structure Rx.WF (r : Rx) : Prop where
  microtasks : r.microtasks = if r.pendingNotification.isSome then 1 else 0
  pending : r.pendingNotification.isSome → Proper r.pendingNotification
  inbox : ∀ tbls ∈ r.inbox, Proper tbls
  told : ∀ call ∈ r.told, Proper call.2

namespace Rx

variable {r : Rx} {tbl : Text} {cb : Listener} {tbls : TableSet}

theorem wf_new : Rx.new.WF :=
  ⟨rfl, fun h => (by cases h), fun _ h => (by cases h), fun _ h => (by cases h)⟩

/-- Listeners that come and go change nothing else. -/
theorem WF.of_listeners (h : r.WF) (listeners : List Listener) (closed : Bool) :
    WF { r with listeners := listeners, closed := closed } :=
  ⟨h.microtasks, h.pending, h.inbox, h.told⟩

/-- Listeners are told proper tables. -/
theorem WF.notifyListeners (h : r.WF) (htbls : Proper tbls) : (r.notifyListeners tbls).WF := by
  refine ⟨h.microtasks, h.pending, h.inbox, fun call hcall => ?_⟩
  rcases List.mem_append.mp hcall with hold | hnew
  · exact h.told call hold
  · obtain ⟨l, -, rfl⟩ := List.mem_map.mp hnew
    exact htbls

/-- A change of a table of the application queues a microtask, unless one is queued. -/
theorem WF.preNotify (h : r.WF) (htbl : ¬ IsInternal tbl) : (r.preNotify tbl).WF := by
  cases hpending : r.pendingNotification with
  | none =>
      have hidle : r.microtasks = 0 := by
        rw [h.microtasks, hpending]
        rfl
      rw [Rx.preNotify, hpending]
      refine ⟨by rw [hidle]; rfl, fun _ => ⟨[tbl], rfl, List.cons_ne_nil _ _,
        List.nodup_singleton tbl, fun x hx => ?_⟩, h.inbox, h.told⟩
      rwa [List.mem_singleton.mp hx]
  | some names =>
      have hqueued : r.microtasks = 1 := by
        rw [h.microtasks, hpending]
        rfl
      obtain ⟨names', heq, hne, hnodup, hnames⟩ := h.pending (by rw [hpending]; rfl)
      obtain rfl : names = names' := Option.some.inj (hpending.symm.trans heq)
      rw [Rx.preNotify, hpending]
      refine ⟨hqueued, fun _ => ?_, h.inbox, h.told⟩
      dsimp only
      split
      next => exact ⟨names, rfl, hne, hnodup, hnames⟩
      next hmem =>
        refine ⟨names ++ [tbl], rfl, by simp, ?_, fun x hx => ?_⟩
        · exact List.nodup_append.mpr ⟨hnodup, List.nodup_singleton tbl, fun x hx y hy heq =>
            hmem (by rwa [← List.mem_singleton.mp hy, ← heq])⟩
        · rcases List.mem_append.mp hx with hx | hx
          · exact hnames x hx
          · rwa [List.mem_singleton.mp hx]

/-- The microtask takes what is pending. -/
theorem WF.notifyPending (h : r.WF) (hqueued : r.microtasks ≠ 0) : r.notifyPending.WF := by
  have hsome : r.pendingNotification.isSome := by
    by_contra hnone
    rw [h.microtasks, if_neg hnone] at hqueued
    exact hqueued rfl
  have hone : r.microtasks = 1 := by rw [h.microtasks, if_pos hsome]
  refine WF.notifyListeners ⟨?_, fun h => (by cases h), h.inbox, h.told⟩ (h.pending hsome)
  rw [hone]
  rfl

/-- A message is passed on to the listeners. -/
theorem WF.onmessage (h : r.WF) : r.onmessage.WF := by
  rw [Rx.onmessage]
  split
  next => exact h
  next tbls rest hinbox =>
    have hrest : WF { r with inbox := rest } :=
      ⟨h.microtasks, h.pending,
        fun t ht => h.inbox t (hinbox ▸ List.mem_cons_of_mem tbls ht), h.told⟩
    split
    · exact hrest
    · exact hrest.notifyListeners (h.inbox tbls (hinbox ▸ List.mem_cons_self))

end Rx

section Reading

variable {w : Tabs} {i j : Nat} {f : Rx → Rx}

@[simp]
theorem rx_modify_self : (w.modify i f).rx i = f (w.rx i) :=
  Function.update_self ..

theorem rx_modify_of_ne (h : j ≠ i) : (w.modify i f).rx j = w.rx j :=
  Function.update_of_ne h ..

@[simp]
theorem rx_create_self : (step w .create).rx w.count = Rx.new :=
  Function.update_self ..

theorem rx_create_of_ne (h : j ≠ w.count) : (step w .create).rx j = w.rx j :=
  Function.update_of_ne h ..

end Reading

def Tabs.WF (w : Tabs) : Prop :=
  ∀ i, (w.rx i).WF

section WF

variable {w : Tabs} {i : Nat} {tbls : TableSet}

/-- A modified object that is in order keeps all in order. -/
theorem Tabs.WF.modify (h : w.WF) {f : Rx → Rx} (hf : (f (w.rx i)).WF) : (w.modify i f).WF := by
  intro j
  by_cases hj : j = i
  · rw [hj, rx_modify_self]
    exact hf
  · rw [rx_modify_of_ne hj]
    exact h j

/-- A message with proper tables keeps all in order. -/
theorem Tabs.WF.postMessage (h : w.WF) (htbls : Proper tbls) : (w.postMessage i tbls).WF := by
  rw [Tabs.postMessage]
  split
  · exact h
  · intro j
    dsimp only
    split
    · refine ⟨(h j).microtasks, (h j).pending, fun t ht => ?_, (h j).told⟩
      rcases List.mem_append.mp ht with ht | ht
      · exact (h j).inbox t ht
      · rwa [List.mem_singleton.mp ht]
    · exact h j

/-- A microtask keeps all in order. -/
theorem Tabs.WF.runMicrotask (h : w.WF) : (w.runMicrotask i).WF := by
  rw [Tabs.runMicrotask]
  split
  next => exact h
  next hqueued =>
    refine Tabs.WF.postMessage (h.modify ((h i).notifyPending hqueued)) ((h i).pending ?_)
    by_contra hnone
    rw [(h i).microtasks, if_neg hnone] at hqueued
    exact hqueued rfl

/-- Every step keeps all in order. -/
theorem Tabs.WF.step (h : w.WF) (op : Op) : (step w op).WF := by
  cases op with
  | create =>
      intro j
      by_cases hj : j = w.count
      · rw [hj, rx_create_self]
        exact Rx.wf_new
      · rw [rx_create_of_ne hj]
        exact h j
  | update i tblName =>
      refine h.modify (f := fun r => r.onUpdate tblName) ?_
      rw [Rx.onUpdate]
      split
      next => exact h i
      next hown => exact (h i).preNotify hown
  | microtask i => exact h.runMicrotask
  | message i => exact h.modify (h i).onmessage
  | on i cb => exact h.modify (f := fun r => r.on cb) ((h i).of_listeners _ _)
  | off i cb => exact h.modify (f := fun r => r.off cb) ((h i).of_listeners _ _)
  | dispose i => exact h.modify ((h i).of_listeners _ _)

/-- What every run of steps keeps. -/
theorem wf_reachable (ops : List Op) : (Run.exec step Tabs.initial ops).WF :=
  Run.invariant Tabs.WF (fun _ op h _ => h.step op) (fun _ => Rx.wf_new)
    (show Run.Allowed step (fun _ _ => True) Tabs.initial ops from
      Run.allowed_of_forall (fun _ _ => trivial) _ ops)

end WF

/-! ## Changes on their way to a listener -/

/-- The tables that some calls tell a listener of. -/
def toldOf (l : Listener) (calls : List (Listener × TableSet)) : Set Text :=
  {x | ∃ tbls, (l, tbls) ∈ calls ∧ x ∈ tbls.getD []}

/-- What an object has collected and will post. -/
def Rx.collected (r : Rx) : Set Text :=
  {x | r.closed = false ∧ x ∈ r.pendingNotification.getD []}

def Rx.awaiting (r : Rx) : Set Text :=
  {x | ∃ tbls ∈ r.inbox, x ∈ tbls.getD []}

/-- What the listeners of an object have still to be told of. -/
def outstanding (w : Tabs) (t : Nat) : Set Text :=
  {x | ∃ i < w.count, x ∈ (w.rx i).collected} ∪ (w.rx t).awaiting

/-- The table that a step changes, unless it is one of the extension's own. -/
def Op.changed : Op → Set Text
  | .update _ tblName => {x | x = tblName ∧ ¬ IsInternal tblName}
  | _ => ∅

def changedIn (ops : List Op) : Set Text :=
  {x | ∃ op ∈ ops, x ∈ op.changed}

/-- The object `t` is there, and `l` listens to it. -/
structure Listens (w : Tabs) (t : Nat) (l : Listener) : Prop where
  made : t < w.count
  isOpen : (w.rx t).closed = false
  mem : l ∈ (w.rx t).listeners

/-- The listener stays, no change is reported to an object that was disposed of, and an object
is not disposed of between a change and its microtask. -/
def Keeps (t : Nat) (l : Listener) (w : Tabs) : Op → Prop
  | .create => True
  | .update i _ => i < w.count ∧ (w.rx i).closed = false
  | .microtask i => i < w.count
  | .message i => i < w.count
  | .on i _ => i < w.count
  | .off i cb => i < w.count ∧ ¬ (i = t ∧ cb = l)
  | .dispose i => i < w.count ∧ i ≠ t ∧ (w.rx i).pendingNotification = none

instance (t : Nat) (l : Listener) (w : Tabs) (op : Op) : Decidable (Keeps t l w op) :=
  match op with
  | .create => inferInstanceAs (Decidable True)
  | .update i _ => inferInstanceAs (Decidable (i < w.count ∧ (w.rx i).closed = false))
  | .microtask i => inferInstanceAs (Decidable (i < w.count))
  | .message i => inferInstanceAs (Decidable (i < w.count))
  | .on i _ => inferInstanceAs (Decidable (i < w.count))
  | .off i cb => inferInstanceAs (Decidable (i < w.count ∧ ¬ (i = t ∧ cb = l)))
  | .dispose i =>
      inferInstanceAs (Decidable (i < w.count ∧ i ≠ t ∧ (w.rx i).pendingNotification = none))

section Told

variable {w : Tabs} {i t : Nat} {l : Listener} {op : Op} {ops : List Op} {tbls : TableSet}

/-- What the other objects have collected. -/
def others (w : Tabs) (i : Nat) : Set Text :=
  {x | ∃ j < w.count, j ≠ i ∧ x ∈ (w.rx j).collected}

theorem Rx.collected_of_open {r : Rx} (h : r.closed = false) :
    r.collected = {x | x ∈ r.pendingNotification.getD []} :=
  Set.ext fun _ => and_iff_right h

theorem Rx.collected_of_closed {r : Rx} (h : r.closed = true) : r.collected = ∅ :=
  Set.eq_empty_of_forall_notMem fun _ hx => Bool.false_ne_true (hx.1.symm.trans h)

/-- A message that comes in is awaited. -/
theorem Rx.awaiting_append (r : Rx) (tbls : TableSet) :
    ({ r with inbox := r.inbox ++ [tbls] } : Rx).awaiting =
      {x | x ∈ tbls.getD []} ∪ r.awaiting := by
  ext x
  simp only [Rx.awaiting, Set.mem_ofPred_eq, Set.mem_union, List.mem_append, List.mem_singleton,
    or_and_right, exists_or, exists_eq_left, or_comm]

/-- The first message is awaited with the others. -/
theorem Rx.awaiting_cons {r : Rx} {tbls : TableSet} {rest : List TableSet}
    (h : r.inbox = tbls :: rest) :
    r.awaiting = {x | x ∈ tbls.getD []} ∪ ({ r with inbox := rest } : Rx).awaiting := by
  ext x
  simp only [Rx.awaiting, h, Set.mem_ofPred_eq, Set.mem_union, List.mem_cons, or_and_right,
    exists_or, exists_eq_left]

/-- A message is no change of a table. -/
theorem Rx.collected_onmessage (r : Rx) : r.onmessage.collected = r.collected := by
  rw [Rx.onmessage]
  split
  · rfl
  · split <;> rfl

/-- A new object has collected nothing. -/
theorem outstanding_create {w : Tabs} {t : Nat} (ht : t < w.count) :
    outstanding (step w .create) t = outstanding w t := by
  rw [outstanding, rx_create_of_ne (Nat.ne_of_lt ht)]
  refine congrArg (· ∪ _) (Set.ext fun x => ⟨?_, ?_⟩)
  · rintro ⟨j, hj, hx⟩
    rcases Nat.lt_succ_iff_lt_or_eq.mp hj with hlt | rfl
    · rw [rx_create_of_ne (Nat.ne_of_lt hlt)] at hx
      exact ⟨j, hlt, hx⟩
    · rw [rx_create_self] at hx
      exact absurd hx.2 List.not_mem_nil
  · rintro ⟨j, hj, hx⟩
    exact ⟨j, Nat.lt_succ_of_lt hj, by rwa [rx_create_of_ne (Nat.ne_of_lt hj)]⟩

/-- What an object has outstanding: what the others and one of them collected, and what it
awaits. -/
theorem outstanding_eq (hi : i < w.count) (t : Nat) :
    outstanding w t = others w i ∪ (w.rx i).collected ∪ (w.rx t).awaiting := by
  refine congrArg (· ∪ _) (Set.ext fun x => ⟨?_, ?_⟩)
  · rintro ⟨j, hj, hx⟩
    by_cases heq : j = i
    · exact Or.inr (heq ▸ hx)
    · exact Or.inl ⟨j, hj, heq, hx⟩
  · rintro (⟨j, hj, -, hx⟩ | hx)
    · exact ⟨j, hj, hx⟩
    · exact ⟨i, hi, hx⟩

/-- A modified object does not matter to the others. -/
theorem others_modify (f : Rx → Rx) : others (w.modify i f) i = others w i := by
  ext x
  refine exists_congr fun j => and_congr_right fun _ => and_congr_right fun hne => ?_
  rw [rx_modify_of_ne hne]

/-- A step on one object changes what is outstanding by its collected tables, and by the
messages to the listeners' object. -/
theorem outstanding_modify (hi : i < w.count) (f : Rx → Rx) (t : Nat) :
    outstanding (w.modify i f) t =
      others w i ∪ (f (w.rx i)).collected ∪ ((w.modify i f).rx t).awaiting := by
  rw [outstanding_eq (w := w.modify i f) hi, others_modify, rx_modify_self]

/-- Calls one after the other tell what each of them tells. -/
theorem toldOf_append (l : Listener) (calls calls' : List (Listener × TableSet)) :
    toldOf l (calls ++ calls') = toldOf l calls ∪ toldOf l calls' := by
  ext x
  simp only [toldOf, Set.mem_ofPred_eq, Set.mem_union, List.mem_append, or_and_right, exists_or]

/-- No call tells nothing. -/
theorem toldOf_nil (l : Listener) : toldOf l [] = ∅ := by
  ext x
  simp [toldOf]

/-- A listener is told the tables of the call. -/
theorem toldOf_notify {listeners : List Listener} (hl : l ∈ listeners) (tbls : TableSet) :
    toldOf l (listeners.map fun l => (l, tbls)) = {x | x ∈ tbls.getD []} := by
  ext x
  constructor
  · rintro ⟨names, hcall, hx⟩
    obtain ⟨l', -, heq⟩ := List.mem_map.mp hcall
    rw [← (Prod.mk.inj heq).2] at hx
    exact hx
  · exact fun hx => ⟨tbls, List.mem_map.mpr ⟨l, hl, rfl⟩, hx⟩

/-- A report of the database changes nothing but what is pending. -/
theorem onUpdate_eq (r : Rx) (tblName : Text) : ∃ pending microtasks,
    r.onUpdate tblName = { r with pendingNotification := pending, microtasks := microtasks } := by
  rw [Rx.onUpdate]
  split
  next => exact ⟨_, _, rfl⟩
  next =>
    rw [Rx.preNotify]
    split
    · exact ⟨_, _, rfl⟩
    · exact ⟨_, _, rfl⟩

/-- An update closes nothing. -/
theorem closed_onUpdate (r : Rx) (tblName : Text) : (r.onUpdate tblName).closed = r.closed := by
  obtain ⟨pending, microtasks, heq⟩ := onUpdate_eq r tblName
  rw [heq]

/-- An update of a table of the application is collected. -/
theorem collected_onUpdate {r : Rx} (hopen : r.closed = false) (tblName : Text) :
    (r.onUpdate tblName).collected = r.collected ∪ {x | x = tblName ∧ ¬ IsInternal tblName} := by
  ext x
  simp only [Rx.collected, Set.mem_ofPred_eq, Set.mem_union, closed_onUpdate, hopen, true_and]
  rw [Rx.onUpdate]
  split
  next hinternal => simp [hinternal]
  next hown =>
    rw [Rx.preNotify]
    cases r.pendingNotification with
    | none => simp [hown]
    | some names =>
        by_cases hmem : tblName ∈ names
        · simp only [if_pos hmem, Option.getD_some, hown, not_false_eq_true, and_true]
          exact ⟨Or.inl, fun h => h.elim id fun heq => heq ▸ hmem⟩
        · simp [hmem, hown]

/-- Nothing is collected behind the microtask. -/
theorem collected_notifyPending (r : Rx) : r.notifyPending.collected = ∅ := by
  ext x
  simp [Rx.collected, Rx.notifyPending, Rx.notifyListeners]

/-- What a message adds to the inboxes. -/
theorem rx_postMessage (w : Tabs) (i : Nat) (tbls : TableSet) (j : Nat) :
    (w.postMessage i tbls).rx j = { w.rx j with
      inbox := (w.rx j).inbox ++
        if (w.rx i).closed = false ∧ j ≠ i ∧ j < w.count ∧ (w.rx j).closed = false then [tbls]
        else [] } := by
  cases hclosed : (w.rx i).closed with
  | true =>
      rw [Tabs.postMessage, if_pos hclosed, if_neg fun h => (by cases h.1), List.append_nil]
  | false =>
      have hopen : ¬ (w.rx i).closed = true := by rw [hclosed]; exact Bool.false_ne_true
      rw [Tabs.postMessage, if_neg hopen]
      by_cases hj : j ≠ i ∧ j < w.count ∧ (w.rx j).closed = false
      · rw [if_pos ⟨rfl, hj⟩]
        exact if_pos hj
      · rw [if_neg fun h => hj h.2, List.append_nil]
        exact if_neg hj

/-- A message makes no object. -/
theorem count_postMessage (w : Tabs) (i : Nat) (tbls : TableSet) :
    (w.postMessage i tbls).count = w.count := by
  rw [Tabs.postMessage]
  split <;> rfl

/-- A message is not collected. -/
theorem others_postMessage (k : Nat) : others (w.postMessage k tbls) i = others w i := by
  ext x
  refine exists_congr fun j => and_congr (by rw [count_postMessage]) (and_congr_right fun _ => ?_)
  rw [rx_postMessage]
  rfl

/-- The microtask of an object takes what is pending there. -/
theorem rx_runMicrotask_self (hqueued : (w.rx i).microtasks ≠ 0) :
    (w.runMicrotask i).rx i = (w.rx i).notifyPending := by
  rw [Tabs.runMicrotask, if_neg hqueued, rx_postMessage, rx_modify_self,
    if_neg fun h => h.2.1 rfl, List.append_nil]

/-- The other objects get a message. -/
theorem rx_runMicrotask_of_ne {j : Nat} (hqueued : (w.rx i).microtasks ≠ 0) (hne : j ≠ i) :
    (w.runMicrotask i).rx j = { w.rx j with
      inbox := (w.rx j).inbox ++
        if (w.rx i).closed = false ∧ j ≠ i ∧ j < w.count ∧ (w.rx j).closed = false then
          [(w.rx i).pendingNotification]
        else [] } := by
  rw [Tabs.runMicrotask, if_neg hqueued, rx_postMessage, rx_modify_self, rx_modify_of_ne hne]
  rfl

/-- The microtask hands over what its object has collected. -/
theorem outstanding_runMicrotask (hqueued : (w.rx i).microtasks ≠ 0) (hi : i < w.count) (t : Nat) :
    outstanding (w.runMicrotask i) t = others w i ∪ ((w.runMicrotask i).rx t).awaiting := by
  have hcount : (w.runMicrotask i).count = w.count := by
    rw [Tabs.runMicrotask, if_neg hqueued, count_postMessage]
    rfl
  have hothers : others (w.runMicrotask i) i = others w i := by
    rw [Tabs.runMicrotask, if_neg hqueued, others_postMessage, others_modify]
  rw [outstanding_eq (i := i) (by rwa [hcount]), hothers, rx_runMicrotask_self hqueued,
    collected_notifyPending, Set.union_empty]

/-- A microtask tells the listeners of its own object, and the other objects get a message. -/
theorem told_runMicrotask (hl : Listens w t l) (hi : i < w.count) :
    ∃ calls, ((w.runMicrotask i).rx t).told = (w.rx t).told ++ calls ∧
      Listens (w.runMicrotask i) t l ∧
      toldOf l calls ∪ outstanding (w.runMicrotask i) t = outstanding w t := by
  by_cases hidle : (w.rx i).microtasks = 0
  · rw [Tabs.runMicrotask, if_pos hidle]
    exact ⟨[], (List.append_nil _).symm, hl, by rw [toldOf_nil, Set.empty_union]⟩
  have hmade : t < (w.runMicrotask i).count := by
    rw [Tabs.runMicrotask, if_neg hidle, count_postMessage]
    exact hl.made
  rw [outstanding_runMicrotask hidle hi, outstanding_eq hi]
  by_cases hne : t = i
  · subst hne
    have hrx := rx_runMicrotask_self hidle
    refine ⟨_, by rw [hrx]; rfl, ⟨hmade, by rw [hrx]; exact hl.isOpen, by rw [hrx]; exact hl.mem⟩,
      ?_⟩
    rw [toldOf_notify hl.mem, hrx]
    rw [Rx.collected_of_open hl.isOpen, Set.union_left_comm, ← Set.union_assoc]
    rfl
  · have hrx := rx_runMicrotask_of_ne hidle hne
    refine ⟨[], by rw [hrx, List.append_nil],
      ⟨hmade, by rw [hrx]; exact hl.isOpen, by rw [hrx]; exact hl.mem⟩, ?_⟩
    have hposted : ((w.runMicrotask i).rx t).awaiting =
        (w.rx i).collected ∪ (w.rx t).awaiting := by
      rw [hrx]
      cases hclosed : (w.rx i).closed with
      | false =>
          rw [if_pos ⟨rfl, hne, hl.made, hl.isOpen⟩, Rx.awaiting_append, Rx.collected_of_open hclosed]
      | true =>
          rw [if_neg fun h => (by cases h.1), List.append_nil, Rx.collected_of_closed hclosed,
            Set.empty_union]
    rw [toldOf_nil, Set.empty_union, hposted, Set.union_assoc]

/-- A step on another object, which collects some tables. -/
theorem told_other (hl : Listens w t l) (hi : i < w.count) (hne : i ≠ t) {f : Rx → Rx}
    {new : Set Text} (hset : (f (w.rx i)).collected = (w.rx i).collected ∪ new) :
    ∃ calls, ((w.modify i f).rx t).told = (w.rx t).told ++ calls ∧ Listens (w.modify i f) t l ∧
      toldOf l calls ∪ outstanding (w.modify i f) t = outstanding w t ∪ new := by
  have hrx : (w.modify i f).rx t = w.rx t := rx_modify_of_ne hne.symm
  refine ⟨[], by rw [hrx, List.append_nil], ⟨hl.made, by rw [hrx]; exact hl.isOpen,
    by rw [hrx]; exact hl.mem⟩, ?_⟩
  rw [toldOf_nil, Set.empty_union, outstanding_modify hi, outstanding_eq hi, hset, hrx]
  ext x
  simp only [Set.mem_union]
  tauto

/-- A step on the object itself. -/
theorem told_self (hl : Listens w t l) {f : Rx → Rx} {calls : List (Listener × TableSet)}
    {new : Set Text} (htold : (f (w.rx t)).told = (w.rx t).told ++ calls)
    (hopen : (f (w.rx t)).closed = false) (hmem : l ∈ (f (w.rx t)).listeners)
    (hset : toldOf l calls ∪ (f (w.rx t)).collected ∪ (f (w.rx t)).awaiting =
      (w.rx t).collected ∪ (w.rx t).awaiting ∪ new) :
    ∃ calls, ((w.modify t f).rx t).told = (w.rx t).told ++ calls ∧ Listens (w.modify t f) t l ∧
      toldOf l calls ∪ outstanding (w.modify t f) t = outstanding w t ∪ new := by
  refine ⟨calls, by rw [rx_modify_self, htold], ⟨hl.made, by rwa [rx_modify_self],
    by rwa [rx_modify_self]⟩, ?_⟩
  rw [outstanding_modify hl.made, outstanding_eq hl.made, rx_modify_self]
  ext x
  have hx := Set.ext_iff.mp hset x
  simp only [Set.mem_union] at hx ⊢
  tauto

/-- What a step tells a listener, and what is outstanding behind it. -/
theorem told_step (hl : Listens w t l) (hop : Keeps t l w op) :
    ∃ calls, ((step w op).rx t).told = (w.rx t).told ++ calls ∧ Listens (step w op) t l ∧
      toldOf l calls ∪ outstanding (step w op) t = outstanding w t ∪ op.changed := by
  cases op with
  | create =>
      have hrx : (step w .create).rx t = w.rx t := rx_create_of_ne (Nat.ne_of_lt hl.made)
      refine ⟨[], by rw [hrx, List.append_nil], ⟨Nat.lt_succ_of_lt hl.made,
        by rw [hrx]; exact hl.isOpen, by rw [hrx]; exact hl.mem⟩, ?_⟩
      rw [toldOf_nil, Set.empty_union, outstanding_create hl.made]
      exact (Set.union_empty _).symm
  | update i tblName =>
      obtain ⟨hi, hopen⟩ := hop
      have hcollected := collected_onUpdate hopen tblName
      by_cases hne : i = t
      · subst hne
        obtain ⟨pending, microtasks, heq⟩ := onUpdate_eq (w.rx i) tblName
        refine told_self hl (f := fun r => r.onUpdate tblName) (by rw [heq, List.append_nil])
          (by rw [heq]; exact hopen) (by rw [heq]; exact hl.mem) ?_
        rw [toldOf_nil, Set.empty_union, hcollected, heq, Set.union_right_comm]
        rfl
      · exact told_other hl hi hne (f := fun r => r.onUpdate tblName) hcollected
  | microtask i =>
      obtain ⟨calls, htold, hlistens, hset⟩ := told_runMicrotask hl hop
      exact ⟨calls, htold, hlistens, hset.trans (Set.union_empty _).symm⟩
  | message i =>
      by_cases hne : i = t
      · subst hne
        cases hinbox : (w.rx i).inbox with
        | nil =>
            have heq : (w.rx i).onmessage = w.rx i := by rw [Rx.onmessage, hinbox]
            refine told_self hl (by rw [heq, List.append_nil]) (by rw [heq]; exact hl.isOpen)
              (by rw [heq]; exact hl.mem) ?_
            rw [toldOf_nil, Set.empty_union, heq]
            exact (Set.union_empty _).symm
        | cons tbls rest =>
            have hopen : ¬ (w.rx i).closed = true := by
              rw [hl.isOpen]
              exact Bool.false_ne_true
            have heq : (w.rx i).onmessage =
                ({ w.rx i with inbox := rest } : Rx).notifyListeners tbls := by
              simp only [Rx.onmessage, hinbox, if_neg hopen]
            refine told_self hl (by rw [heq]; rfl) (by rw [heq]; exact hl.isOpen)
              (by rw [heq]; exact hl.mem) ?_
            rw [toldOf_notify hl.mem, heq, Rx.awaiting_cons hinbox, Set.union_left_comm,
              ← Set.union_assoc]
            exact (Set.union_empty _).symm
      · exact told_other hl hop hne ((Rx.collected_onmessage _).trans (Set.union_empty _).symm)
  | on i cb =>
      by_cases hne : i = t
      · subst hne
        refine told_self hl (f := fun r => r.on cb) (List.append_nil _).symm hl.isOpen ?_ ?_
        · rw [Rx.on]
          split
          · exact hl.mem
          · exact List.mem_append_left _ hl.mem
        · rw [toldOf_nil, Set.empty_union]
          exact (Set.union_empty _).symm
      · exact told_other hl hop hne (f := fun r => r.on cb) (Set.union_empty _).symm
  | off i cb =>
      obtain ⟨hi, hstays⟩ := hop
      by_cases hne : i = t
      · subst hne
        refine told_self hl (f := fun r => r.off cb) (List.append_nil _).symm hl.isOpen ?_ ?_
        · exact List.mem_filter.mpr ⟨hl.mem, decide_eq_true fun heq => hstays ⟨rfl, heq.symm⟩⟩
        · rw [toldOf_nil, Set.empty_union]
          exact (Set.union_empty _).symm
      · exact told_other hl hi hne (f := fun r => r.off cb) (Set.union_empty _).symm
  | dispose i =>
      obtain ⟨hi, hne, hpending⟩ := hop
      refine told_other hl hi hne ?_
      have hnothing : (w.rx i).collected = ∅ := by
        rw [Rx.collected, hpending]
        exact Set.eq_empty_of_forall_notMem fun x hx => List.not_mem_nil hx.2
      rw [Rx.collected_of_closed rfl, hnothing]
      exact (Set.union_empty _).symm

theorem changedIn_nil : changedIn [] = ∅ := by
  ext x
  simp [changedIn]

/-- A run changes what its first step changes, and what the others do. -/
theorem changedIn_cons (op : Op) (ops : List Op) :
    changedIn (op :: ops) = op.changed ∪ changedIn ops := by
  ext x
  simp only [changedIn, Set.mem_ofPred_eq, Set.mem_union, List.mem_cons, or_and_right, exists_or,
    exists_eq_left]

/-- A listener is told of what was outstanding and what changes, except for what is outstanding
at the end, and of nothing else. -/
theorem told_steps (hl : Listens w t l) (hops : Run.Allowed step (Keeps t l) w ops) :
    ∃ calls, ((Run.exec step w ops).rx t).told = (w.rx t).told ++ calls ∧
      toldOf l calls ∪ outstanding (Run.exec step w ops) t = outstanding w t ∪ changedIn ops := by
  induction ops generalizing w with
  | nil =>
      refine ⟨[], (List.append_nil _).symm, ?_⟩
      rw [toldOf_nil, Set.empty_union, Run.exec_nil, changedIn_nil, Set.union_empty]
  | cons op ops ih =>
      obtain ⟨calls, htold, hlistens, hset⟩ := told_step hl hops.1
      obtain ⟨calls', htold', hset'⟩ := ih hlistens hops.2
      refine ⟨calls ++ calls', ?_, ?_⟩
      · rw [Run.exec_cons, htold', htold, List.append_assoc]
      · rw [Run.exec_cons, toldOf_append, Set.union_assoc, hset', ← Set.union_assoc, hset,
          Set.union_assoc, ← changedIn_cons]

/-- Never is more than one microtask queued for an object. -/
theorem microtasks_le_one (ops : List Op) (i : Nat) :
    ((Run.exec step Tabs.initial ops).rx i).microtasks ≤ 1 := by
  rw [(wf_reachable ops i).microtasks]
  split <;> decide

/-- From any state that the objects reach, and with at most one microtask queued for each of
them: a listener that stays is called with some tables each time, is told of every table that
changes in any tab, unless that is still outstanding, and is told of no other one. -/
theorem told_run (before : List Op) (hl : Listens (Run.exec step Tabs.initial before) t l)
    (hops : Run.Allowed step (Keeps t l) (Run.exec step Tabs.initial before) ops) :
    ∃ calls, ((Run.exec step Tabs.initial (before ++ ops)).rx t).told =
        ((Run.exec step Tabs.initial before).rx t).told ++ calls ∧
      (∀ call ∈ calls, Proper call.2) ∧
      toldOf l calls ∪ outstanding (Run.exec step Tabs.initial (before ++ ops)) t =
        outstanding (Run.exec step Tabs.initial before) t ∪ changedIn ops ∧
      ∀ i, ((Run.exec step Tabs.initial (before ++ ops)).rx i).microtasks ≤ 1 := by
  obtain ⟨calls, htold, hset⟩ := told_steps hl hops
  rw [← Run.exec_append] at htold hset
  refine ⟨calls, htold, fun call hcall => ?_, hset, microtasks_le_one _⟩
  refine (wf_reachable (before ++ ops) t).told call ?_
  rw [htold]
  exact List.mem_append_right _ hcall

/-- Two objects, and a listener at the second one. -/
def twoTabs : List Op :=
  [.create, .create, .on 1 0]

/-- Two changes in the first tab, its microtask, and the message to the second tab. -/
def oneMessage : List Op :=
  [.update 0 "a".toList, .update 0 "b".toList, .microtask 0, .message 1, .dispose 0]

/-- A change in one tab tells a listener in the other one, when the message is there. -/
theorem told_run_oneMessage :
    ∃ calls, ((Run.exec step Tabs.initial (twoTabs ++ oneMessage)).rx 1).told =
        ((Run.exec step Tabs.initial twoTabs).rx 1).told ++ calls ∧
      (∀ call ∈ calls, Proper call.2) ∧
      toldOf 0 calls ∪ outstanding (Run.exec step Tabs.initial (twoTabs ++ oneMessage)) 1 =
        outstanding (Run.exec step Tabs.initial twoTabs) 1 ∪ changedIn oneMessage ∧
      ∀ i, ((Run.exec step Tabs.initial (twoTabs ++ oneMessage)).rx i).microtasks ≤ 1 :=
  told_run twoTabs ⟨by decide, by decide, by decide⟩ (by decide)

example : ((Run.exec step Tabs.initial (twoTabs ++ oneMessage)).rx 1).told =
    [(0, some ["a".toList, "b".toList])] := by decide

end Told

end CrSqlite.TblRx
