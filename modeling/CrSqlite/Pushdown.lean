import CrSqlite.FeedStatements
import Mathlib

/-!
# Pushdown - filters that are pushed into the scan

How `changesBestIndex` numbers the constraints of a query, how SQLite hands
their operands to `changesFilter`, and what the two together do to the rows.

Main results:

- Theorem {lit}`changesBestIndex_eq`: the plan of every conjunction of the
  supported constraints.
- Theorem {lit}`select_perm`: the rows of the entries that an accepted plan lets
  through.
- Theorem {lit}`select_agrees_iff`: the conjunctions and tables for which, in every
  state, the pushed-down filter agrees with filtering a full scan unless the UNION
  merges rows.
- Theorem {lit}`select_fails_without_site`: the query without constraints drops
  an entry of the site whose id is the placeholder.
-/

namespace CrSqlite

/-! ## Constraints -/

/-- The `SQLITE_INDEX_CONSTRAINT` operators; the ones the table has no use for
are one. -/
inductive ConstraintOp where
  | eq
  | gt
  | le
  | lt
  | ge
  | ne
  | isNot
  | isNotNull
  | isNull
  | is
  | other
deriving DecidableEq

/-- A constraint on one of the two columns that the planner looks at, with its
operand; `IS NULL` and `IS NOT NULL` have the operand NULL. -/
inductive Constraint where
  | dbVersion (op : ConstraintOp) (x : Int)
  | siteId (op : ConstraintOp) (v : Option Blob)

/-- The operators on the site id that set bit 8. -/
def ConstraintOp.isEquality : ConstraintOp → Bool
  | .eq | .is | .isNull => true
  | _ => false

/-- The operators that `crsql_changes.site_id` supports. -/
def ConstraintOp.onSiteId : ConstraintOp → Bool
  | .ne | .isNot | .eq | .is | .isNotNull | .isNull => true
  | _ => false

namespace Constraint

/-- The operand as it is handed over. -/
def operand : Constraint → SqlValue
  | dbVersion _ x => .integer x
  | siteId _ v => siteIdValue v

/-- A constraint that the table accepts. -/
def Supported : Constraint → Prop
  | dbVersion op _ => op = .gt
  | siteId op v => op.onSiteId = true ∧ (op = .isNull ∨ op = .isNotNull → v = none)

/-- The constraint on a clock entry: `=`, `IS` and `IS NULL` are SQL's `IS` on the
stored site id, and the others its negation. -/
def Holds : Constraint → ClockEntry → Prop
  | dbVersion _ x, e => x < e.dbVersion
  | siteId op v, e =>
      if op.isEquality then SqlValue.Is (siteIdValue e.siteId) (siteIdValue v)
      else ¬ SqlValue.Is (siteIdValue e.siteId) (siteIdValue v)

instance (c : Constraint) (e : ClockEntry) : Decidable (c.Holds e) :=
  match c with
  | dbVersion _ _ => inferInstanceAs (Decidable (_ < _))
  | siteId op v =>
      inferInstanceAs (Decidable (if op.isEquality then
        SqlValue.Is (siteIdValue e.siteId) (siteIdValue v)
        else ¬ SqlValue.Is (siteIdValue e.siteId) (siteIdValue v)))

/-- SQLite's own check of a constraint on the reported columns. -/
def recheck (siteId : Blob) (row : ChangeRow) : Constraint → Bool
  | dbVersion _ x => x < row.dbVrsn
  | .siteId op v =>
      let reported : Option Blob := some (row.siteId.getD siteId)
      match op with
      | .eq | .is => reported = v
      | .ne => v ≠ none && reported ≠ v
      | .isNot => reported ≠ v
      | .isNotNull => true
      | _ => false

end Constraint

/-- The bounds on the db version, in the order of the constraints. -/
def versions : List Constraint → List Int
  | [] => []
  | .dbVersion _ x :: cs => x :: versions cs
  | .siteId _ _ :: cs => versions cs

/-- The constraints on the site id: whether it is an equality, and the operand. -/
def sites : List Constraint → List (Bool × Option Blob)
  | [] => []
  | .dbVersion _ _ :: cs => sites cs
  | .siteId op v :: cs => (op.isEquality, v) :: sites cs

/-! ## The plan -/

/-- An element of `aConstraintUsage`. -/
structure ConstraintUsage where
  argvIndex : Nat
  omitted : Bool
deriving DecidableEq

/-- The locals of `changesBestIndex` and the array it fills. -/
structure IndexInfo where
  idxNum : Nat
  versionIdx : Option Nat
  requestorIdx : Option Nat
  usage : List ConstraintUsage

/-- One turn of the loop of `changesBestIndex`. -/
def planConstraint (info : IndexInfo) (i : Nat) : Constraint → Except Text IndexInfo
  | .dbVersion op _ =>
      if op ≠ .gt then
        .error (message
          "crsql_changes.version only supports the greater than operator. E.g., version > x")
      else .ok { info with versionIdx := some i, idxNum := info.idxNum ||| 2 }
  | .siteId op _ =>
      if !op.onSiteId then
        .error (message
          "crsql_changes.site_id only supports the IS, IS NOT, =, != operators")
      else
        let idxNum := info.idxNum ||| 4
        .ok { info with
          requestorIdx := some i
          usage := info.usage.set i ⟨2, true⟩
          idxNum := if op.isEquality then idxNum ||| 8 else idxNum }

/-- The loop of `changesBestIndex`. -/
def planConstraints : List Constraint → Nat → IndexInfo → Except Text IndexInfo
  | [], _, info => .ok info
  | c :: cs, i, info =>
      match planConstraint info i c with
      | .error msg => .error msg
      | .ok info => planConstraints cs (i + 1) info

/-- Give the constraint at an index an argument and mark it as omitted. -/
def setUsage (idx : Option Nat) (argvIndex : Nat) (usage : List ConstraintUsage) :
    List ConstraintUsage :=
  match idx with
  | none => usage
  | some i => usage.set i ⟨argvIndex, true⟩

/-- `changesBestIndex`: `idxNum` and the usage of each constraint. -/
def changesBestIndex (cs : List Constraint) : Except Text (Nat × List ConstraintUsage) :=
  match planConstraints cs 0 ⟨0, none, none, List.replicate cs.length ⟨0, false⟩⟩ with
  | .error msg => .error msg
  | .ok info =>
      if info.idxNum &&& 6 = 6 then
        .ok (info.idxNum, setUsage info.requestorIdx 2 (setUsage info.versionIdx 1 info.usage))
      else if info.idxNum &&& 2 = 2 then
        .ok (info.idxNum, setUsage info.versionIdx 1 info.usage)
      else if info.idxNum &&& 4 = 4 then
        .ok (info.idxNum, setUsage info.requestorIdx 1 info.usage)
      else .ok (info.idxNum, info.usage)

/-! ## What SQLite does with the plan -/

/-- The operands of the constraints with an `argvIndex`. -/
def operandsAt (k : Nat) (cs : List Constraint) (usage : List ConstraintUsage) :
    List SqlValue :=
  ((cs.zip usage).filter fun p => p.2.argvIndex = k).map fun p => p.1.operand

/-- The number of constraints with an argument. -/
def numUsed (cs : List Constraint) (usage : List ConstraintUsage) : Nat :=
  (cs.zip usage).countP fun p => p.2.argvIndex ≠ 0

/-- The arguments in the order of their `argvIndex`; the plan is rejected unless
the indices are distinct and contiguous. -/
def planArgv (cs : List Constraint) (usage : List ConstraintUsage) :
    Option (List SqlValue) :=
  if ∀ j < numUsed cs usage, (operandsAt (j + 1) cs usage).length = 1 then
    some ((List.range (numUsed cs usage)).flatMap fun j => operandsAt (j + 1) cs usage)
  else none

/-- The index number and the arguments that `changesFilter` is called with; none when the plan
is rejected. -/
def queryPlan (cs : List Constraint) : Option (Nat × List SqlValue) :=
  match changesBestIndex cs with
  | .error _ => none
  | .ok (idxNum, usage) => (planArgv cs usage).map fun argv => (idxNum, argv)

/-- A query whose plan leaves nothing to check again runs `changesFilter` with it. -/
def runPlan (changesFilter : Nat → List SqlValue → List Change × Option Text)
    (cs : List Constraint) : List Change × Option Text :=
  match queryPlan cs with
  | none => ([], some (message "crsql_changes.xBestIndex malfunction"))
  | some (idxNum, argv) => changesFilter idxNum argv

/-- The rows of a query with constraints: SQLite checks those again that have no
argument or are not omitted. -/
def Db.select [Sqlite] (db : Db) (cs : List Constraint) : Option (List ChangeRow) :=
  match changesBestIndex cs with
  | .error _ => none
  | .ok (idxNum, usage) =>
      (planArgv cs usage).bind fun argv =>
        (db.filterRowsSql idxNum argv).map fun rows => rows.filter fun row =>
          (cs.zip usage).all fun p =>
            (p.2.argvIndex ≠ 0 && p.2.omitted) || p.1.recheck db.siteId row

/-- One row for each clock entry for which every constraint holds. -/
def Db.heldRows [Sqlite] (db : Db) (cs : List Constraint) : List ChangeRow :=
  (db.entries.filter fun p => ∀ c ∈ cs, c.Holds p.2).map fun p => changeRow p.1.info p.2

/-- The query is accepted, and up to their order its rows are one for each clock entry
for which every constraint holds. -/
def Db.SelectAgrees [Sqlite] (db : Db) (cs : List Constraint) : Prop :=
  ∃ rows, db.select cs = some rows ∧ rows.Perm (db.heldRows cs)

/-- With two or more tables no two of these entries print the same row, so that the UNION
merges none. -/
def Db.HeldApart [Sqlite] (db : Db) (cs : List Constraint) : Prop :=
  1 < db.tables.length → (db.heldRows cs).Nodup

/-! ## The bits of the plan -/

/-- The three bits of `idxNum`. -/
def idxBits (version site equality : Bool) : Nat :=
  (if version then 2 else 0) ||| (if site then 4 else 0) ||| (if equality then 8 else 0)

/-- The bits of two groups of constraints are put together bit by bit. -/
private theorem idxBits_or (a b c a' b' c' : Bool) :
    idxBits a b c ||| idxBits a' b' c' = idxBits (a || a') (b || b') (c || c') := by
  revert a b c a' b' c'
  decide

/-- The bits that a conjunction of constraints sets. -/
def bitsOf (cs : List Constraint) : Nat :=
  idxBits (!(versions cs).isEmpty) (!(sites cs).isEmpty) ((sites cs).any Prod.fst)

/-- A constraint on the db version sets the second bit. -/
private theorem bitsOf_dbVersion (op : ConstraintOp) (x : Int) (cs : List Constraint) :
    bitsOf (.dbVersion op x :: cs) = 2 ||| bitsOf cs := by
  have h : 2 = idxBits true false false := rfl
  rw [h, bitsOf, bitsOf, idxBits_or]
  simp [versions, sites]

/-- A constraint on the site sets the third bit, and the fourth one if it is an equality. -/
private theorem bitsOf_siteId (op : ConstraintOp) (v : Option Blob) (cs : List Constraint) :
    bitsOf (.siteId op v :: cs) = (4 ||| if op.isEquality then 8 else 0) ||| bitsOf cs := by
  have h : (4 ||| if op.isEquality then 8 else 0) = idxBits false true op.isEquality := by
    cases op.isEquality <;> rfl
  rw [h, bitsOf, bitsOf, idxBits_or]
  simp [versions, sites]

/-! ## The loop over the constraints -/

/-- The index of the last constraint on the db version, counted from `i`. -/
def lastVersion : List Constraint → Nat → Option Nat
  | [], _ => none
  | .dbVersion _ _ :: cs, i => some ((lastVersion cs (i + 1)).getD i)
  | .siteId _ _ :: cs, i => lastVersion cs (i + 1)

/-- The index of the last constraint on the site id, counted from `i`. -/
def lastSite : List Constraint → Nat → Option Nat
  | [], _ => none
  | .dbVersion _ _ :: cs, i => lastSite cs (i + 1)
  | .siteId _ _ :: cs, i => some ((lastSite cs (i + 1)).getD i)

/-- The usage that the loop leaves behind. -/
def loopUsage : List Constraint → List ConstraintUsage
  | [] => []
  | .dbVersion _ _ :: cs => ⟨0, false⟩ :: loopUsage cs
  | .siteId _ _ :: cs => ⟨2, true⟩ :: loopUsage cs

/-- The element behind a prefix is replaced. -/
private theorem set_length_append {α : Type*} (xs ys : List α) (a b : α) :
    (xs ++ a :: ys).set xs.length b = xs ++ b :: ys := by
  simp

/-- The loop over the constraints sets their bits, notes the last one of each kind and leaves the
uses for later. -/
private theorem planConstraints_eq {cs : List Constraint} (hcs : ∀ c ∈ cs, c.Supported)
    (n : Nat) (vi ri : Option Nat) (done : List ConstraintUsage) :
    planConstraints cs done.length
        ⟨n, vi, ri, done ++ List.replicate cs.length ⟨0, false⟩⟩ =
      .ok ⟨n ||| bitsOf cs, (lastVersion cs done.length).or vi,
        (lastSite cs done.length).or ri, done ++ loopUsage cs⟩ := by
  induction cs generalizing n vi ri done with
  | nil => simp [planConstraints, bitsOf, idxBits, versions, sites, lastVersion, lastSite,
      loopUsage]
  | cons c cs ih =>
      obtain ⟨hc, hrest⟩ := List.forall_mem_cons.mp hcs
      have hrep : ∀ u : ConstraintUsage, done ++ u :: List.replicate cs.length ⟨0, false⟩ =
          (done ++ [u]) ++ List.replicate cs.length ⟨0, false⟩ := fun u => by simp
      have hlen : ∀ u : ConstraintUsage, (done ++ [u]).length = done.length + 1 :=
        fun u => by simp
      cases c with
      | dbVersion op x =>
          have hop : op = .gt := hc
          subst hop
          simp only [planConstraints, planConstraint, ne_eq, not_true_eq_false, if_false,
            List.length_cons, List.replicate_succ]
          rw [hrep, ← hlen ⟨0, false⟩, ih hrest, bitsOf_dbVersion, Nat.lor_assoc]
          simp only [lastVersion, lastSite, loopUsage, hlen, List.append_assoc,
            List.singleton_append]
          cases lastVersion cs (done.length + 1) <;> rfl
      | siteId op v =>
          have hop : op.onSiteId = true := hc.1
          simp only [planConstraints, planConstraint, hop, Bool.not_true, Bool.false_eq_true,
            if_false, List.length_cons, List.replicate_succ, set_length_append]
          rw [hrep, ← hlen ⟨2, true⟩, ih hrest, bitsOf_siteId]
          simp only [lastVersion, lastSite, loopUsage, hlen, List.append_assoc,
            List.singleton_append]
          cases op.isEquality <;> cases lastSite cs (done.length + 1) <;>
            simp [Nat.lor_assoc]

/-! ## The usage of the constraints -/

/-- The usage in the finished plan: the last version has the argument 1, and the
last site id the argument `s` where the others have 2. -/
def planUsage (s : Nat) : List Constraint → List ConstraintUsage
  | [] => []
  | .dbVersion _ _ :: cs =>
      (if versions cs = [] then ⟨1, true⟩ else ⟨0, false⟩) :: planUsage s cs
  | .siteId _ _ :: cs => ⟨if sites cs = [] then s else 2, true⟩ :: planUsage s cs

/-- No last constraint on the version is noted when there is none. -/
private theorem lastVersion_eq_none_iff (cs : List Constraint) (i : Nat) :
    lastVersion cs i = none ↔ versions cs = [] := by
  induction cs generalizing i with
  | nil => simp [lastVersion, versions]
  | cons c cs ih => cases c <;> simp [lastVersion, versions, ih]

/-- No last constraint on the site is noted when there is none. -/
private theorem lastSite_eq_none_iff (cs : List Constraint) (i : Nat) :
    lastSite cs i = none ↔ sites cs = [] := by
  induction cs generalizing i with
  | nil => simp [lastSite, sites]
  | cons c cs ih => cases c <;> simp [lastSite, sites, ih]

/-- Without a constraint on the version the uses are those of the loop. -/
private theorem planUsage_two {cs : List Constraint} (hv : versions cs = []) :
    planUsage 2 cs = loopUsage cs := by
  induction cs with
  | nil => rfl
  | cons c cs ih =>
      cases c with
      | dbVersion op x => simp [versions] at hv
      | siteId op v => simp [planUsage, loopUsage, ih hv]

/-- The last constraint on the version gets the first argument. -/
private theorem setUsage_lastVersion (cs : List Constraint) (done : List ConstraintUsage) :
    setUsage (lastVersion cs done.length) 1 (done ++ loopUsage cs) = done ++ planUsage 2 cs := by
  induction cs generalizing done with
  | nil => rfl
  | cons c cs ih =>
      have hcat : ∀ u us, done ++ u :: us = (done ++ [u]) ++ us := fun u us => by simp
      have hlen : ∀ u : ConstraintUsage, done.length + 1 = (done ++ [u]).length :=
        fun u => by simp
      cases c with
      | dbVersion op x =>
          by_cases hv : versions cs = []
          · have hnone := (lastVersion_eq_none_iff cs (done.length + 1)).mpr hv
            simp [lastVersion, hnone, loopUsage, planUsage, hv, setUsage, planUsage_two hv]
          · obtain ⟨i, hi⟩ := Option.ne_none_iff_exists'.mp
              (mt (lastVersion_eq_none_iff cs (done.length + 1)).mp hv)
            have hrec := ih (done ++ [⟨0, false⟩])
            rw [← hlen, hi] at hrec
            simp only [lastVersion, hi, Option.getD_some, loopUsage, planUsage, hv, if_false]
            rw [hcat _ (loopUsage cs), hcat _ (planUsage 2 cs), hrec]
      | siteId op v =>
          have hrec := ih (done ++ [⟨2, true⟩])
          rw [← hlen] at hrec
          simp only [lastVersion, loopUsage, planUsage, ite_self]
          rw [hcat _ (loopUsage cs), hcat _ (planUsage 2 cs), hrec]

/-- Behind a version the last constraint on the site has the second argument already. -/
private theorem setUsage_lastSite_two (cs : List Constraint) (done : List ConstraintUsage) :
    setUsage (lastSite cs done.length) 2 (done ++ planUsage 2 cs) = done ++ planUsage 2 cs := by
  induction cs generalizing done with
  | nil => rfl
  | cons c cs ih =>
      have hcat : ∀ u us, done ++ u :: us = (done ++ [u]) ++ us := fun u us => by simp
      have hlen : ∀ u : ConstraintUsage, done.length + 1 = (done ++ [u]).length :=
        fun u => by simp
      cases c with
      | dbVersion op x =>
          have hrec := ih (done ++ [if versions cs = [] then ⟨1, true⟩ else ⟨0, false⟩])
          rw [← hlen] at hrec
          simp only [lastSite, planUsage]
          rw [hcat, hrec]
      | siteId op v =>
          by_cases hs : sites cs = []
          · have hnone := (lastSite_eq_none_iff cs (done.length + 1)).mpr hs
            simp [lastSite, hnone, planUsage, setUsage]
          · obtain ⟨i, hi⟩ := Option.ne_none_iff_exists'.mp
              (mt (lastSite_eq_none_iff cs (done.length + 1)).mp hs)
            have hrec := ih (done ++ [⟨2, true⟩])
            rw [← hlen, hi] at hrec
            simp only [lastSite, hi, Option.getD_some, planUsage, ite_self]
            rw [hcat, hrec]

/-- Without a version the last constraint on the site gets the first argument. -/
private theorem setUsage_lastSite_one {cs : List Constraint} (hv : versions cs = [])
    (done : List ConstraintUsage) :
    setUsage (lastSite cs done.length) 1 (done ++ loopUsage cs) = done ++ planUsage 1 cs := by
  induction cs generalizing done with
  | nil => rfl
  | cons c cs ih =>
      have hcat : ∀ u us, done ++ u :: us = (done ++ [u]) ++ us := fun u us => by simp
      have hlen : ∀ u : ConstraintUsage, done.length + 1 = (done ++ [u]).length :=
        fun u => by simp
      cases c with
      | dbVersion op x => simp [versions] at hv
      | siteId op v =>
          by_cases hs : sites cs = []
          · have hnil : cs = [] := by
              cases cs with
              | nil => rfl
              | cons c cs => cases c <;> simp [versions, sites] at hv hs
            subst hnil
            simp [lastSite, loopUsage, planUsage, setUsage, sites]
          · obtain ⟨i, hi⟩ := Option.ne_none_iff_exists'.mp
              (mt (lastSite_eq_none_iff cs (done.length + 1)).mp hs)
            have hrec := ih hv (done ++ [⟨2, true⟩])
            rw [← hlen, hi] at hrec
            simp only [lastSite, hi, Option.getD_some, loopUsage, planUsage, hs, if_false]
            rw [hcat _ (loopUsage cs), hcat _ (planUsage 1 cs), hrec]

/-- The plan of a conjunction of supported constraints. -/
theorem changesBestIndex_eq {cs : List Constraint} (hcs : ∀ c ∈ cs, c.Supported) :
    changesBestIndex cs =
      .ok (bitsOf cs, planUsage (if versions cs = [] then 1 else 2) cs) := by
  have hloop := planConstraints_eq hcs 0 none none []
  simp only [List.length_nil, List.nil_append, Nat.zero_or, Option.or_none] at hloop
  have hversion := setUsage_lastVersion cs []
  have hsite := setUsage_lastSite_two cs []
  simp only [List.length_nil, List.nil_append] at hversion hsite
  rw [changesBestIndex, hloop]
  simp only
  by_cases hv : versions cs = []
  · by_cases hs : sites cs = []
    · have hnil : cs = [] := by
        cases cs with
        | nil => rfl
        | cons c cs => cases c <;> simp [versions, sites] at hv hs
      subst hnil
      rfl
    · have hone := setUsage_lastSite_one hv []
      simp only [List.length_nil, List.nil_append] at hone
      rw [if_pos hv, ← hone]
      cases h : (sites cs).any Prod.fst <;> simp [bitsOf, hv, hs, h, idxBits]
  · rw [if_neg hv]
    by_cases hs : sites cs = []
    · simp [bitsOf, hv, hs, idxBits, hversion]
    · cases h : (sites cs).any Prod.fst <;>
        simp [bitsOf, hv, hs, h, idxBits, hversion, hsite]

/-! ## The arguments of the plan -/

/-- The operands at a place begin with the one of the first constraint, if it has that place. -/
private theorem operandsAt_cons (k : Nat) (c : Constraint) (cs : List Constraint)
    (u : ConstraintUsage) (us : List ConstraintUsage) :
    operandsAt k (c :: cs) (u :: us) =
      if u.argvIndex = k then c.operand :: operandsAt k cs us else operandsAt k cs us := by
  by_cases h : u.argvIndex = k <;> simp [operandsAt, h]

/-- The number of uses counts the first constraint if it is used. -/
private theorem numUsed_cons (c : Constraint) (cs : List Constraint)
    (u : ConstraintUsage) (us : List ConstraintUsage) :
    numUsed (c :: cs) (u :: us) =
      if u.argvIndex = 0 then numUsed cs us else numUsed cs us + 1 := by
  by_cases h : u.argvIndex = 0 <;> simp [numUsed, h]

/-- The first argument is the operand of the last constraint on the version. -/
private theorem operandsAt_one_two (cs : List Constraint) :
    operandsAt 1 cs (planUsage 2 cs) = (versions cs).getLast?.toList.map SqlValue.integer := by
  induction cs with
  | nil => rfl
  | cons c cs ih =>
      cases c with
      | dbVersion op x =>
          rw [planUsage, operandsAt_cons, ih, versions]
          cases hv : versions cs with
          | nil => rfl
          | cons y ys => simp [List.getLast?_cons_cons]
      | siteId op v =>
          rw [planUsage, operandsAt_cons, ih, versions]
          simp

/-- All constraints on the site have the second argument. -/
private theorem operandsAt_two_two (cs : List Constraint) :
    operandsAt 2 cs (planUsage 2 cs) = (sites cs).map fun s => siteIdValue s.2 := by
  induction cs with
  | nil => rfl
  | cons c cs ih =>
      cases c with
      | dbVersion op x =>
          rw [planUsage, operandsAt_cons, ih, sites]
          by_cases hv : versions cs = [] <;> simp [hv]
      | siteId op v =>
          rw [planUsage, operandsAt_cons, ih, sites]
          simp [Constraint.operand]

/-- Without a version the first argument is the operand of the last constraint on the site. -/
private theorem operandsAt_one_one {cs : List Constraint} (hv : versions cs = []) :
    operandsAt 1 cs (planUsage 1 cs) =
      (sites cs).getLast?.toList.map fun s => siteIdValue s.2 := by
  induction cs with
  | nil => rfl
  | cons c cs ih =>
      cases c with
      | dbVersion op x => simp [versions] at hv
      | siteId op v =>
          rw [planUsage, operandsAt_cons, ih hv, sites]
          cases hs : sites cs with
          | nil => rfl
          | cons s ss => simp [List.getLast?_cons_cons]

/-- The constraints on the site before the last one keep the second argument. -/
private theorem operandsAt_two_one {cs : List Constraint} (hv : versions cs = []) :
    operandsAt 2 cs (planUsage 1 cs) =
      (sites cs).dropLast.map fun s => siteIdValue s.2 := by
  induction cs with
  | nil => rfl
  | cons c cs ih =>
      cases c with
      | dbVersion op x => simp [versions] at hv
      | siteId op v =>
          rw [planUsage, operandsAt_cons, ih hv, sites]
          cases hs : sites cs with
          | nil => rfl
          | cons s ss => simp [Constraint.operand]

/-- Every constraint on the site is used, and one on the version. -/
private theorem numUsed_planUsage {s : Nat} (hs : s ≠ 0) (cs : List Constraint) :
    numUsed cs (planUsage s cs) =
      (sites cs).length + if versions cs = [] then 0 else 1 := by
  induction cs with
  | nil => rfl
  | cons c cs ih =>
      cases c with
      | dbVersion op x =>
          rw [planUsage, numUsed_cons, ih, sites, versions]
          by_cases hv : versions cs = [] <;> simp [hv]
      | siteId op v =>
          have hne : (if sites cs = [] then s else 2) ≠ 0 := by
            split
            · exact hs
            · omega
          rw [planUsage, numUsed_cons, ih, sites, versions, if_neg hne, List.length_cons]
          omega

/-- The plan is accepted for at most one constraint on the site id, and for two
without one on the version. -/
def Accepted (cs : List Constraint) : Prop :=
  (sites cs).length ≤ 1 ∨ ((sites cs).length = 2 ∧ versions cs = [])

/-- The argument that `changesFilter` takes for the site id. -/
def siteArg (cs : List Constraint) : List SqlValue :=
  (sites cs).getLast?.toList.map fun s => siteIdValue s.2

/-- The argument that `changesFilter` takes for the version. -/
def versionArg (cs : List Constraint) : List SqlValue :=
  (versions cs).getLast?.toList.map SqlValue.integer

/-- A plan with one operand for each of two arguments is accepted. -/
private theorem planArgv_two {cs : List Constraint} {us : List ConstraintUsage}
    {a b : SqlValue} (hnum : numUsed cs us = 2) (hone : operandsAt 1 cs us = [a])
    (htwo : operandsAt 2 cs us = [b]) : planArgv cs us = some [a, b] := by
  have hall : ∀ j < numUsed cs us, (operandsAt (j + 1) cs us).length = 1 := by
    intro j hj
    rw [hnum] at hj
    interval_cases j
    · simp [hone]
    · simp [htwo]
  rw [planArgv, if_pos hall, hnum]
  simp [List.range_succ, hone, htwo]

/-- An accepted plan hands over the last version and the last site id, in front
of a first site id that is not looked at. -/
theorem planArgv_accepted {cs : List Constraint} (h : Accepted cs) :
    ∃ unread, planArgv cs (planUsage (if versions cs = [] then 1 else 2) cs) =
      some (versionArg cs ++ siteArg cs ++ unread) := by
  by_cases hv : versions cs = []
  · have hone := operandsAt_one_one hv
    have htwo := operandsAt_two_one hv
    have hnum := numUsed_planUsage one_ne_zero cs
    rw [if_pos hv, Nat.add_zero] at hnum
    rw [if_pos hv, versionArg, hv]
    match hsites : sites cs with
    | [] => exact ⟨[], by simp [planArgv, hnum, hsites, siteArg]⟩
    | [s] => exact ⟨[], by simp [planArgv, hnum, hsites, hone, siteArg]⟩
    | [s, s'] =>
        rw [hsites] at hone htwo hnum
        refine ⟨[siteIdValue s.2], ?_⟩
        rw [planArgv_two hnum hone htwo, siteArg, hsites]
        rfl
    | s :: s' :: s'' :: ss => simp [Accepted, hsites] at h
  · have hone := operandsAt_one_two cs
    have htwo := operandsAt_two_two cs
    have hnum := numUsed_planUsage two_ne_zero cs
    rw [if_neg hv] at hnum
    have hlast : ∃ x, (versions cs).getLast? = some x :=
      Option.isSome_iff_exists.mp (by simpa using hv)
    obtain ⟨x, hx⟩ := hlast
    rw [if_neg hv, versionArg, hx]
    rw [hx] at hone
    match hsites : sites cs with
    | [] => exact ⟨[], by simp [planArgv, hnum, hsites, hone, siteArg]⟩
    | [s] =>
        rw [hsites] at htwo hnum
        refine ⟨[], ?_⟩
        rw [planArgv_two hnum hone htwo, siteArg, hsites]
        rfl
    | s :: s' :: ss => simp [Accepted, hsites, hv] at h

/-- Any other plan repeats an argument index. -/
theorem planArgv_rejected {cs : List Constraint} (h : ¬ Accepted cs) :
    planArgv cs (planUsage (if versions cs = [] then 1 else 2) cs) = none := by
  rw [Accepted, not_or] at h
  have hsecond : (operandsAt 2 cs (planUsage (if versions cs = [] then 1 else 2) cs)).length
      ≠ 1 := by
    by_cases hv : versions cs = []
    · rw [if_pos hv, operandsAt_two_one hv, List.length_map, List.length_dropLast]
      have h2 : (sites cs).length ≠ 2 := fun h2 => h.2 ⟨h2, hv⟩
      omega
    · rw [if_neg hv, operandsAt_two_two, List.length_map]
      omega
  have hnum : 1 < numUsed cs (planUsage (if versions cs = [] then 1 else 2) cs) := by
    rw [numUsed_planUsage (by split <;> omega)]
    omega
  rw [planArgv, if_neg fun hall => hsecond (hall 1 hnum)]

/-! ## The rows that an accepted plan lets through -/

/-- The bound on the version that the query gets. -/
def pushedVersion (cs : List Constraint) : Int :=
  (versions cs).getLast?.getD minPossibleDbVersion

/-- The operand that the query gets for a site id. -/
def boundSite (v : Option Blob) : Option Blob :=
  if v = some [] then some placeholderSiteId else v

/-- The site id that the query gets. -/
def pushedSite (cs : List Constraint) : Option Blob :=
  match (sites cs).getLast? with
  | none => some placeholderSiteId
  | some s => boundSite s.2

/-- The site that the query is bound to. -/
private theorem requestorSiteId_siteIdValue [Sqlite] (v : Option Blob) :
    requestorSiteId (siteIdValue v) = siteIdValue (boundSite v) := by
  cases v with
  | none => rfl
  | some b =>
      simp only [siteIdValue, requestorSiteId, Sqlite.valueBlob_blob, boundSite,
        Option.some.injEq]
      split <;> rfl

/-- The scan with the bits and the operands of a plan is the union query with the site and the
version that are pushed down. -/
private theorem filterRows_plan [Sqlite] (db : Db) (cs : List Constraint)
    (unread : List SqlValue) :
    db.filterRows (bitsOf cs) (versionArg cs ++ siteArg cs ++ unread) =
      db.changesUnionQuery ((sites cs).any Prod.fst) (siteIdValue (pushedSite cs))
        (pushedVersion cs) := by
  have h2 : (bitsOf cs &&& 2 ≠ 0) ↔ versions cs ≠ [] := by
    cases hv : versions cs <;> cases hs : sites cs <;> simp [bitsOf, idxBits, hv, hs] <;>
      split <;> simp
  have h4 : (bitsOf cs &&& 4 ≠ 0) ↔ sites cs ≠ [] := by
    cases hv : versions cs <;> cases hs : sites cs <;> simp [bitsOf, idxBits, hv, hs] <;>
      split <;> simp
  have h8 : decide (bitsOf cs &&& 8 = 8) = (sites cs).any Prod.fst := by
    cases hv : versions cs <;> cases hs : sites cs <;> simp [bitsOf, idxBits, hv, hs] <;>
      split <;> simp_all
  rw [filterRows_eq, h8]
  simp only [h2, h4]
  have hversion : (if versions cs ≠ [] then
        Sqlite.valueInt64 ((versionArg cs ++ siteArg cs ++ unread).getD 0 .null)
      else minPossibleDbVersion) = pushedVersion cs := by
    cases hv : (versions cs).getLast? with
    | none =>
        rw [if_neg (not_not_intro (List.getLast?_eq_none_iff.mp hv)), pushedVersion, hv]
        rfl
    | some x =>
        have hne : versions cs ≠ [] := fun h => by simp [h] at hv
        simp [hne, versionArg, hv, pushedVersion, Sqlite.valueInt64_integer]
  have hsite : (if sites cs ≠ [] then
        requestorSiteId ((if versions cs ≠ [] then
          (versionArg cs ++ siteArg cs ++ unread).drop 1
        else versionArg cs ++ siteArg cs ++ unread).getD 0 .null)
      else SqlValue.blob placeholderSiteId) = siteIdValue (pushedSite cs) := by
    cases hs : (sites cs).getLast? with
    | none =>
        rw [if_neg (not_not_intro (List.getLast?_eq_none_iff.mp hs)), pushedSite, hs]
        rfl
    | some s =>
        have hne : sites cs ≠ [] := fun h => by simp [h] at hs
        rw [if_pos hne, pushedSite, hs, ← requestorSiteId_siteIdValue]
        cases hv : (versions cs).getLast? with
        | none =>
            have hnil : versions cs = [] := List.getLast?_eq_none_iff.mp hv
            simp [hnil, versionArg, siteArg, hs]
        | some x =>
            have hnev : versions cs ≠ [] := fun h => by simp [h] at hv
            simp [hnev, versionArg, siteArg, hs, hv]
  rw [hversion, hsite]

/-- SQLite checks every version but the last one again. -/
private theorem all_recheck_iff {s : Nat} (hs : s ≠ 0) (siteId : Blob) (row : ChangeRow)
    (cs : List Constraint) :
    ((cs.zip (planUsage s cs)).all fun p =>
      (p.2.argvIndex ≠ 0 && p.2.omitted) || p.1.recheck siteId row) = true ↔
      ∀ x ∈ (versions cs).dropLast, x < row.dbVrsn := by
  induction cs with
  | nil => simp [versions]
  | cons c cs ih =>
      cases c with
      | dbVersion op x =>
          rw [planUsage, List.zip_cons_cons, List.all_cons, Bool.and_eq_true, ih, versions]
          cases hv : versions cs with
          | nil => simp
          | cons y ys => simp [Constraint.recheck]
      | siteId op v =>
          have hne : (if sites cs = [] then s else 2) ≠ 0 := by
            split
            · exact hs
            · omega
          rw [planUsage, List.zip_cons_cons, List.all_cons, Bool.and_eq_true, ih, versions]
          simp [hne]

/-- An entry that the query of an accepted plan lets through and SQLite's own
checks keep. -/
def PassesPlan (cs : List Constraint) (info : TableInfo) (e : ClockEntry) : Prop :=
  passes info ((sites cs).any Prod.fst) (siteIdValue (pushedSite cs)) (pushedVersion cs) e =
      true ∧
    ∀ x ∈ (versions cs).dropLast, x < e.dbVersion

instance (cs : List Constraint) (info : TableInfo) (e : ClockEntry) :
    Decidable (PassesPlan cs info e) :=
  inferInstanceAs (Decidable (_ = true ∧ _))

/-- To filter and to leave out repetitions can change places. -/
private theorem filter_dedup_perm {α : Type*} [DecidableEq α] (p : α → Bool) (l : List α) :
    (l.dedup.filter p).Perm (l.filter p).dedup := by
  refine (List.perm_ext_iff_of_nodup ((List.nodup_dedup l).filter p) (List.nodup_dedup _)).mpr ?_
  simp

/-- An accepted plan gives the rows of the entries that pass it, and with two or more
tables each of them once. -/
theorem select_perm [Sqlite] {db : Db} (hplain : db.PlainNames) {cs : List Constraint}
    (hcs : ∀ c ∈ cs, c.Supported) (h : Accepted cs) :
    let passing := (db.entries.filter fun p => PassesPlan cs p.1.info p.2).map
      fun p => changeRow p.1.info p.2
    ∃ rows, db.select cs = some rows ∧
      rows.Perm (if 1 < db.tables.length then passing.dedup else passing) := by
  intro passing
  obtain ⟨unread, hargv⟩ := planArgv_accepted h
  have hs : (if versions cs = [] then 1 else 2) ≠ 0 := by split <;> omega
  have hselect : db.select cs = some ((db.filterRows (bitsOf cs)
      (versionArg cs ++ siteArg cs ++ unread)).filter fun row =>
        (cs.zip (planUsage (if versions cs = [] then 1 else 2) cs)).all fun p =>
          (p.2.argvIndex ≠ 0 && p.2.omitted) || p.1.recheck db.siteId row) := by
    rw [Db.select, changesBestIndex_eq hcs]
    simp only [hargv, Option.bind_some, filterRowsSql_eq hplain]
    rfl
  refine ⟨_, hselect, ?_⟩
  rw [filterRows_plan]
  have hquery := (changesUnionQuery_perm db ((sites cs).any Prod.fst)
    (siteIdValue (pushedSite cs)) (pushedVersion cs)).filter fun row =>
      (cs.zip (planUsage (if versions cs = [] then 1 else 2) cs)).all fun p =>
        (p.2.argvIndex ≠ 0 && p.2.omitted) || p.1.recheck db.siteId row
  refine hquery.trans ?_
  -- what SQLite checks again depends on the printed row alone
  have hpassing : List.filter (fun row =>
      (cs.zip (planUsage (if versions cs = [] then 1 else 2) cs)).all fun p =>
        (p.2.argvIndex ≠ 0 && p.2.omitted) || p.1.recheck db.siteId row)
      ((db.entries.filter fun p => passes p.1.info ((sites cs).any Prod.fst)
        (siteIdValue (pushedSite cs)) (pushedVersion cs) p.2).map
          fun p => changeRow p.1.info p.2) = passing := by
    rw [List.filter_map, List.filter_filter]
    refine congrArg _ (List.filter_congr fun p _ => ?_)
    rw [Bool.eq_iff_iff, Bool.and_eq_true, Function.comp_apply, all_recheck_iff hs,
      decide_eq_true_eq, PassesPlan, and_comm]
    rfl
  by_cases htwo : 1 < db.tables.length
  · rw [if_pos htwo, if_pos htwo, ← hpassing]
    exact filter_dedup_perm _ _
  · rw [if_neg htwo, if_neg htwo, hpassing]

/-- A plan that is not accepted gives no rows. -/
theorem select_rejected [Sqlite] {db : Db} {cs : List Constraint}
    (hcs : ∀ c ∈ cs, c.Supported) (h : ¬ Accepted cs) : db.select cs = none := by
  rw [Db.select, changesBestIndex_eq hcs]
  simp [planArgv_rejected h]

/-! ## What the constraints say about an entry -/

private theorem is_siteIdValue_iff (a b : Option Blob) :
    SqlValue.Is (siteIdValue a) (siteIdValue b) ↔ a = b := by
  cases a <;> cases b <;> simp [SqlValue.Is, siteIdValue, SqlValue.canon]

/-- The constraints hold of an entry when its version is above every bound and its
site id passes every test. -/
theorem holds_iff (cs : List Constraint) (e : ClockEntry) :
    (∀ c ∈ cs, c.Holds e) ↔
      (∀ x ∈ versions cs, x < e.dbVersion) ∧
        ∀ p ∈ sites cs, decide (e.siteId = p.2) = p.1 := by
  induction cs with
  | nil => simp [versions, sites]
  | cons c cs ih =>
      rw [List.forall_mem_cons, ih]
      cases c with
      | dbVersion op x =>
          rw [versions, sites, List.forall_mem_cons, Constraint.Holds, and_assoc]
      | siteId op v =>
          have hsite : Constraint.Holds (.siteId op v) e ↔
              decide (e.siteId = v) = op.isEquality := by
            simp only [Constraint.Holds, is_siteIdValue_iff]
            cases op.isEquality <;> simp
          rw [versions, sites, List.forall_mem_cons, hsite]
          tauto

/-- The names `site_id` and `db_vrsn` are not those of key columns. -/
def NoCapture (info : TableInfo) : Prop :=
  ∀ c ∈ info.pks, sameName c.name siteIdAlias = false ∧ sameName c.name dbVrsnAlias = false

/-- A name that no key column has stands for none. -/
private theorem keyColumn_eq_none {info : TableInfo} {name : Text}
    (h : ∀ c ∈ info.pks, sameName c.name name = false) (key : Key) :
    keyColumn info key name = none := by
  rw [keyColumn, Option.map_eq_none_iff, List.find?_eq_none]
  rintro ⟨n, v⟩ hp
  obtain ⟨c, hc, rfl⟩ := List.mem_map.mp (List.of_mem_zip hp).1
  simp [h c hc]

/-- Then the query tests the entry's own columns. -/
theorem passes_iff_of_noCapture {info : TableInfo} (h : NoCapture info) (idxEq : Bool)
    (v : Option Blob) (bound : Int) (e : ClockEntry) :
    passes info idxEq (siteIdValue v) bound e = true ↔
      decide (e.siteId = v) = idxEq ∧ bound < e.dbVersion := by
  have hsite := keyColumn_eq_none (fun c hc => (h c hc).1) e.key
  have hvrsn := keyColumn_eq_none (fun c hc => (h c hc).2) e.key
  simp only [passes, hsite, hvrsn, Option.getD_none, Bool.and_eq_true, decide_eq_true_eq,
    is_siteIdValue_iff, SqlValue.gtInt]

/-! ## When the plan agrees with the constraints -/

/-- The states that runs without overflow reach: db versions are positive, and an
empty site id is stored as NULL. -/
def Db.Stamped (db : Db) : Prop :=
  ∀ t ∈ db.tables, ∀ e ∈ t.clock, 0 < e.dbVersion ∧ e.siteId ≠ some []

/-- The test that is pushed down says of every site id what all constraints on the
site id say together. -/
def SitesAgree (cs : List Constraint) : Prop :=
  ∀ s : Option Blob, s ≠ some [] →
    (decide (s = pushedSite cs) = (sites cs).any Prod.fst ↔
      ∀ p ∈ sites cs, decide (s = p.2) = p.1)

/-- The version that is pushed down and the ones that SQLite checks itself are all of them. -/
private theorem versions_iff {cs : List Constraint} {d : Int} (hd : 0 < d) :
    (pushedVersion cs < d ∧ ∀ x ∈ (versions cs).dropLast, x < d) ↔
      ∀ x ∈ versions cs, x < d := by
  cases hlast : (versions cs).getLast? with
  | none =>
      have hnil := List.getLast?_eq_none_iff.mp hlast
      simp [pushedVersion, hnil, minPossibleDbVersion, hd]
  | some y =>
      have hsplit : versions cs = (versions cs).dropLast ++ [y] :=
        (List.dropLast_append_getLast? y hlast).symm
      rw [pushedVersion, hlast, Option.getD_some]
      conv_rhs => rw [hsplit]
      simp only [List.mem_append, List.mem_singleton]
      constructor
      · rintro ⟨hy, hrest⟩ x (hx | rfl)
        · exact hrest x hx
        · exact hy
      · intro h
        exact ⟨h y (Or.inr rfl), fun x hx => h x (Or.inl hx)⟩

/-- Where the pushed-down test agrees with the constraints, the rows are those of the
entries for which they hold exactly if the UNION merges none of them. -/
theorem selectAgrees_iff_of_sitesAgree [Sqlite] {db : Db} (hplain : db.PlainNames)
    {cs : List Constraint} (hcs : ∀ c ∈ cs, c.Supported) (h : Accepted cs) (hdb : db.Stamped)
    (hcap : ∀ t ∈ db.tables, NoCapture t.info) (hsites : SitesAgree cs) :
    db.SelectAgrees cs ↔ db.HeldApart cs := by
  obtain ⟨rows, hrows, hperm⟩ := select_perm hplain hcs h
  have hheld : ((db.entries.filter fun p => PassesPlan cs p.1.info p.2).map
      fun p => changeRow p.1.info p.2) = db.heldRows cs := by
    refine congrArg _ (List.filter_congr fun p hp => ?_)
    obtain ⟨ht, he⟩ := mem_entries.mp hp
    obtain ⟨hpos, hne⟩ := hdb p.1 ht p.2 he
    rw [decide_eq_decide, PassesPlan, passes_iff_of_noCapture (hcap p.1 ht), holds_iff,
      ← versions_iff hpos, ← hsites p.2.siteId hne]
    tauto
  rw [hheld] at hperm
  constructor
  · rintro ⟨rows', hrows', hagree⟩ htwo
    obtain rfl := Option.some.inj (hrows.symm.trans hrows')
    rw [if_pos htwo] at hperm
    exact hagree.nodup_iff.mp (hperm.nodup_iff.mpr (List.nodup_dedup _))
  · intro hapart
    refine ⟨rows, hrows, ?_⟩
    split at hperm
    · rename_i htwo
      rwa [(hapart htwo).dedup] at hperm
    · exact hperm

/-! ## States that tell the plan from the constraints -/

/-- A replica whose only clock entry is in the table between two lists of empty
ones. -/
def probeDb (before : List CrrSchema) (s : CrrSchema) (behind : List CrrSchema)
    (e : ClockEntry) : Db :=
  { fooDb [] with
    tables := before.map (fun s => ⟨s, [], []⟩) ++
      ⟨s, [], [e]⟩ :: behind.map fun s => ⟨s, [], []⟩ }

/-- A key with one value in the column that is named like the site id and another
one in the other columns. -/
def probeKey (info : TableInfo) (site other : SqlValue) : Key :=
  info.pks.map fun c => if sameName c.name siteIdAlias then site else other

/-- The column of a name has its value in a key that is made column by column. -/
private theorem keyColumn_map (info : TableInfo) (g : ColumnInfo → SqlValue) (name : Text) :
    keyColumn info (info.pks.map g) name =
      (info.pks.find? fun c => sameName c.name name).map g := by
  unfold keyColumn
  induction info.pks with
  | nil => rfl
  | cons c cs ih =>
      by_cases h : sameName c.name name = true
      · simp [h]
      · simpa [h] using ih

/-- A name is not both aliases. -/
private theorem not_sameName_both {name : Text} (h : sameName name dbVrsnAlias = true) :
    sameName name siteIdAlias = false := by
  have hname : name.map Char.toLower = dbVrsnAlias.map Char.toLower := by
    simpa [sameName] using h
  rw [sameName, hname]
  decide

/-- A key column has the name. -/
def Captures (info : TableInfo) (name : Text) : Prop :=
  ∃ c ∈ info.pks, sameName c.name name = true

/-- A probe has its values where key columns are called like the aliases. -/
private theorem keyColumn_probeKey (info : TableInfo) (site other : SqlValue) :
    ((Captures info siteIdAlias ∧
        keyColumn info (probeKey info site other) siteIdAlias = some site) ∨
      (¬ Captures info siteIdAlias ∧
        keyColumn info (probeKey info site other) siteIdAlias = none)) ∧
    ((Captures info dbVrsnAlias ∧
        keyColumn info (probeKey info site other) dbVrsnAlias = some other) ∨
      (¬ Captures info dbVrsnAlias ∧
        keyColumn info (probeKey info site other) dbVrsnAlias = none)) := by
  simp only [probeKey, keyColumn_map]
  constructor
  · cases hfind : info.pks.find? fun c => sameName c.name siteIdAlias with
    | none => exact Or.inr ⟨by simpa [Captures] using hfind, rfl⟩
    | some c =>
        have hc : sameName c.name siteIdAlias = true := by simpa using List.find?_some hfind
        exact Or.inl ⟨⟨c, List.mem_of_find?_eq_some hfind, hc⟩, by simp [hc]⟩
  · cases hfind : info.pks.find? fun c => sameName c.name dbVrsnAlias with
    | none => exact Or.inr ⟨by simpa [Captures] using hfind, rfl⟩
    | some c =>
        have hc : sameName c.name dbVrsnAlias = true := by simpa using List.find?_some hfind
        exact Or.inl ⟨⟨c, List.mem_of_find?_eq_some hfind, hc⟩,
          by simp [not_sameName_both hc]⟩

/-- Nothing is captured when no key column is called like one of the aliases. -/
private theorem noCapture_iff (info : TableInfo) :
    NoCapture info ↔ ¬ Captures info siteIdAlias ∧ ¬ Captures info dbVrsnAlias := by
  simp only [NoCapture, Captures, not_exists, not_and, Bool.not_eq_true]
  exact ⟨fun h => ⟨fun c hc => (h c hc).1, fun c hc => (h c hc).2⟩,
    fun h c hc => ⟨h.1 c hc, h.2 c hc⟩⟩

/-- There is a positive version above all that are given. -/
private theorem exists_above (xs : List Int) : ∃ d : Int, 0 < d ∧ ∀ x ∈ xs, x < d := by
  induction xs with
  | nil => exact ⟨1, by omega, by simp⟩
  | cons x xs ih =>
      obtain ⟨d, hpos, hd⟩ := ih
      refine ⟨max d (x + 1), by omega, ?_⟩
      rintro y (_ | ⟨_, hy⟩)
      · omega
      · have := hd y hy
        omega

/-- An empty site is never bound. -/
private theorem pushedSite_ne_empty (cs : List Constraint) : pushedSite cs ≠ some [] := by
  unfold pushedSite
  split
  · simp [placeholderSiteId]
  · unfold boundSite
    split
    · simp [placeholderSiteId]
    · assumption

/-- Some site id passes the pushed-down test, and some does not. -/
private theorem exists_site (cs : List Constraint) (q : Bool) :
    ∃ s : Option Blob, s ≠ some [] ∧ decide (s = pushedSite cs) = q := by
  cases q with
  | true => exact ⟨pushedSite cs, pushedSite_ne_empty cs, by simp⟩
  | false =>
      cases h : pushedSite cs with
      | none => exact ⟨some placeholderSiteId, by simp [placeholderSiteId], by simp⟩
      | some b => exact ⟨none, by simp, by simp⟩

/-- A probe state has one entry. -/
private theorem entries_probeDb (before behind : List CrrSchema) (s : CrrSchema)
    (e : ClockEntry) : (probeDb before s behind e).entries = [(⟨s, [], [e]⟩, e)] := by
  have hempty : ∀ ss : List CrrSchema, ((ss.map fun s => (⟨s, [], []⟩ : CrrTable)).flatMap
      fun t => t.clock.map fun e => (t, e)) = [] := by
    simp
  rw [Db.entries, probeDb, List.flatMap_append, List.flatMap_cons, hempty, hempty]
  rfl

/-- The one entry of a probe state is reported exactly when it passes. -/
private theorem mem_probeRows [Sqlite] {before behind : List CrrSchema} {s : CrrSchema}
    {e : ClockEntry} {p : CrrTable × ClockEntry → Bool} :
    (changeRow s.info e ∈ ((probeDb before s behind e).entries.filter p).map
      fun q => changeRow q.1.info q.2) ↔ p (⟨s, [], [e]⟩, e) = true := by
  rw [entries_probeDb, List.mem_map]
  constructor
  · rintro ⟨q, hq, -⟩
    obtain ⟨hmem, hp⟩ := List.mem_filter.mp hq
    rwa [List.mem_singleton.mp hmem] at hp
  · intro hp
    exact ⟨_, List.mem_filter.mpr ⟨List.mem_singleton_self _, hp⟩, rfl⟩

/-- A probe state is one that can occur. -/
private theorem stamped_probeDb {before behind : List CrrSchema} {s : CrrSchema}
    {e : ClockEntry} (hpos : 0 < e.dbVersion) (hsite : e.siteId ≠ some []) :
    (probeDb before s behind e).Stamped := by
  intro t ht f hf
  have hp : (t, f) ∈ (probeDb before s behind e).entries := mem_entries.mpr ⟨ht, hf⟩
  rw [entries_probeDb] at hp
  obtain ⟨-, rfl⟩ := Prod.mk.inj (List.mem_singleton.mp hp)
  exact ⟨hpos, hsite⟩

/-- A single row is apart from all others. -/
private theorem heldApart_probeDb [Sqlite] (before behind : List CrrSchema) (s : CrrSchema)
    (e : ClockEntry) (cs : List Constraint) : (probeDb before s behind e).HeldApart cs := by
  intro _
  refine List.Nodup.map_on ?_ ?_ <;> rw [entries_probeDb]
  · intro p hp q hq _
    rw [List.mem_singleton.mp (List.mem_of_mem_filter hp),
      List.mem_singleton.mp (List.mem_of_mem_filter hq)]
  · exact (List.nodup_singleton _).filter _

/-- The names of a state are those of its tables. -/
private theorem plainNames_of_schemas {db : Db} {schemas : List CrrSchema}
    (hplain : ∀ s ∈ schemas, s.info.PlainNames)
    (hschemas : db.tables.map CrrTable.schema = schemas) : db.PlainNames :=
  fun t ht => hplain t.schema (hschemas ▸ List.mem_map_of_mem ht)

/-- The clock entry of the probe. -/
def probeEntry (info : TableInfo) (site other : SqlValue) (d : Int) (σ : Option Blob) :
    ClockEntry :=
  ⟨probeKey info site other, delSentinel, 1, d, σ⟩

section Probe

variable [Sqlite] {cs : List Constraint} (hcs : ∀ c ∈ cs, c.Supported)
  (haccepted : Accepted cs) {schemas : List CrrSchema}
  (hplain : ∀ s ∈ schemas, s.info.PlainNames)
  (h : ∀ db : Db, db.tables.map CrrTable.schema = schemas → db.Stamped →
    (db.SelectAgrees cs ↔ db.HeldApart cs))
  {s : CrrSchema} (hs : s ∈ schemas) {d : Int} (hpos : 0 < d)
  (hd : ∀ x ∈ versions cs, x < d)

include hcs haccepted hplain h hs hpos hd

/-- Where plan and constraints agree, the probe passes the plan exactly when its
site id passes every test. -/
private theorem probe_passes_iff (site other : SqlValue) {σ : Option Blob}
    (hσ : σ ≠ some []) :
    PassesPlan cs s.info (probeEntry s.info site other d σ) ↔
      ∀ p ∈ sites cs, decide (σ = p.2) = p.1 := by
  obtain ⟨before, behind, rfl⟩ := List.append_of_mem hs
  let e := probeEntry s.info site other d σ
  have hschemas : (probeDb before s behind e).tables.map CrrTable.schema =
      before ++ s :: behind := by
    simp [probeDb, Function.comp_def]
  obtain ⟨rows, hrows, hall⟩ := (h (probeDb before s behind e) hschemas
    (stamped_probeDb hpos hσ)).mpr (heldApart_probeDb before behind s e cs)
  obtain ⟨rows', hrows', hplan⟩ :=
    select_perm (plainNames_of_schemas hplain hschemas) hcs haccepted
  obtain rfl := Option.some.inj (hrows.symm.trans hrows')
  have hpass : changeRow s.info e ∈ rows ↔ PassesPlan cs s.info e := by
    rw [hplan.mem_iff]
    split
    · exact List.mem_dedup.trans (mem_probeRows.trans decide_eq_true_iff)
    · exact mem_probeRows.trans decide_eq_true_iff
  have hheld : changeRow s.info e ∈ rows ↔ ∀ c ∈ cs, c.Holds e :=
    hall.mem_iff.trans (mem_probeRows.trans decide_eq_true_iff)
  rw [show probeEntry s.info site other d σ = e from rfl, ← hpass, hheld, holds_iff]
  exact ⟨fun hh => hh.2, fun hh => ⟨hd, hh⟩⟩

omit [Sqlite] hcs haccepted hplain h hs in
/-- What a plan asks of a probe entry. -/
private theorem passesPlan_probe_iff (site other : SqlValue) (σ : Option Blob) :
    PassesPlan cs s.info (probeEntry s.info site other d σ) ↔
      decide (SqlValue.Is ((keyColumn s.info (probeKey s.info site other) siteIdAlias).getD
          (siteIdValue σ)) (siteIdValue (pushedSite cs))) = (sites cs).any Prod.fst ∧
        ((keyColumn s.info (probeKey s.info site other) dbVrsnAlias).getD
          (.integer d)).gtInt (pushedVersion cs) = true := by
  simp only [PassesPlan, probeEntry, passes, Bool.and_eq_true]
  constructor
  · rintro ⟨⟨hsite, hvrsn⟩, -⟩
    exact ⟨of_decide_eq_true hsite, hvrsn⟩
  · rintro ⟨hsite, hvrsn⟩
    exact ⟨⟨decide_eq_true hsite, hvrsn⟩, ((versions_iff hpos).mpr hd).2⟩

/-- A NULL in a key column named `db_vrsn` would hide the probe. -/
private theorem not_captures_dbVrsn : ¬ Captures s.info dbVrsnAlias := by
  intro hcap
  have hother : ∀ site other, keyColumn s.info (probeKey s.info site other) dbVrsnAlias =
      some other := fun site other =>
    ((keyColumn_probeKey s.info site other).2.resolve_right fun h => h.1 hcap).2
  have hfalse : ∀ σ : Option Blob, σ ≠ some [] → ¬ ∀ p ∈ sites cs, decide (σ = p.2) = p.1 := by
    intro σ hσ hall
    have hp := (passesPlan_probe_iff hpos hd .null .null σ).mp
      ((probe_passes_iff hcs haccepted hplain h hs hpos hd .null .null hσ).mpr hall)
    rw [hother] at hp
    simp [SqlValue.gtInt] at hp
  obtain ⟨σ, hσ, htest⟩ := exists_site cs ((sites cs).any Prod.fst)
  have hpass := (passesPlan_probe_iff (s := s) hpos hd (siteIdValue σ) (.text []) σ).mpr
    ⟨?_, by rw [hother]; rfl⟩
  · exact hfalse σ hσ ((probe_passes_iff hcs haccepted hplain h hs hpos hd _ _ hσ).mp hpass)
  · rcases (keyColumn_probeKey s.info (siteIdValue σ) (.text [])).1 with h | h <;>
      simpa [h.2, is_siteIdValue_iff] using htest

/-- A key column named `site_id` would decide alone whether the probe passes. -/
private theorem not_captures_siteId : ¬ Captures s.info siteIdAlias := by
  intro hcap
  have hvrsn := not_captures_dbVrsn hcs haccepted hplain h hs hpos hd
  have hsite : ∀ site other, keyColumn s.info (probeKey s.info site other) siteIdAlias =
      some site := fun site other =>
    ((keyColumn_probeKey s.info site other).1.resolve_right fun h => h.1 hcap).2
  have hnone : ∀ site other, keyColumn s.info (probeKey s.info site other) dbVrsnAlias =
      none := fun site other =>
    ((keyColumn_probeKey s.info site other).2.resolve_left fun h => hvrsn h.1).2
  obtain ⟨yes, hyes, hyes'⟩ := exists_site cs ((sites cs).any Prod.fst)
  obtain ⟨no, -, hno'⟩ := exists_site cs (!(sites cs).any Prod.fst)
  have hpass := (passesPlan_probe_iff (s := s) hpos hd (siteIdValue yes) .null yes).mpr
    ⟨by simpa [hsite, is_siteIdValue_iff] using hyes',
      by simpa [hnone, SqlValue.gtInt] using ((versions_iff hpos).mpr hd).1⟩
  have hall := (probe_passes_iff hcs haccepted hplain h hs hpos hd _ _ hyes).mp hpass
  have hfail := (passesPlan_probe_iff hpos hd (siteIdValue no) .null yes).mp
    ((probe_passes_iff hcs haccepted hplain h hs hpos hd _ _ hyes).mpr hall)
  rw [hsite, Option.getD_some] at hfail
  simp only [is_siteIdValue_iff] at hfail
  rw [hno'] at hfail
  simp at hfail

end Probe

/-- If the plan agrees with the constraints in every state over the tables, no key
column captures a name and the pushed-down test agrees with all constraints. -/
theorem sitesAgree_of_selectAgrees [Sqlite] {cs : List Constraint}
    (hcs : ∀ c ∈ cs, c.Supported) (haccepted : Accepted cs) {schemas : List CrrSchema}
    (hplain : ∀ s ∈ schemas, s.info.PlainNames)
    (h : ∀ db : Db, db.tables.map CrrTable.schema = schemas → db.Stamped →
      (db.SelectAgrees cs ↔ db.HeldApart cs))
    {s : CrrSchema} (hs : s ∈ schemas) : NoCapture s.info ∧ SitesAgree cs := by
  obtain ⟨d, hpos, hd⟩ := exists_above (versions cs)
  have hcap : NoCapture s.info := (noCapture_iff s.info).mpr
    ⟨not_captures_siteId hcs haccepted hplain h hs hpos hd,
      not_captures_dbVrsn hcs haccepted hplain h hs hpos hd⟩
  refine ⟨hcap, fun σ hσ => ?_⟩
  have hver := (versions_iff hpos).mpr hd
  rw [← probe_passes_iff hcs haccepted hplain h hs hpos hd .null .null hσ, PassesPlan,
    passes_iff_of_noCapture hcap]
  exact ⟨fun htest => ⟨⟨htest, hver.1⟩, hver.2⟩, fun hp => hp.1.1⟩

/-! ## The conjunctions that can be pushed down -/

/-- The constraints on the site id that one pushed-down test stands for: a single
one whose operand has bytes or is NULL; or two, the first of which says nothing
that the test does not. -/
def SitesOk : List (Bool × Option Blob) → Prop
  | [(_, v)] => v ≠ some []
  | [(first, v), (true, w)] => w ≠ some [] ∧ decide (w = v) = first
  | [(true, v), (false, w)] => w = some [] ∧ v = some placeholderSiteId
  | [(false, v), (false, w)] =>
      (w ≠ some [] ∧ (v = w ∨ v = some [])) ∨ (w = some [] ∧ v = some placeholderSiteId)
  | _ => False

/-- The conjunctions and tables for which the pushed-down filter can be relied
on. -/
def PushdownOk (schemas : List CrrSchema) (cs : List Constraint) : Prop :=
  Accepted cs ∧
    (schemas = [] ∨ ((∀ s ∈ schemas, NoCapture s.info) ∧ SitesOk (sites cs)))

/-- One constraint on the site is applied as it says, unless its operand is empty. -/
private theorem sitesAgree_iff_of_one {cs : List Constraint} {q : Bool} {v : Option Blob}
    (hs : sites cs = [(q, v)]) : SitesAgree cs ↔ v ≠ some [] := by
  simp only [SitesAgree, pushedSite, hs, List.getLast?_singleton, List.any_cons, List.any_nil,
    Bool.or_false, List.mem_singleton, forall_eq]
  constructor
  · rintro h rfl
    have hp := h (some placeholderSiteId) (by simp [placeholderSiteId])
    cases q <;> simp [boundSite, placeholderSiteId] at hp
  · intro hv s _
    rw [boundSite, if_neg hv]

/-- Of two constraints on the site only the last one is bound, with the bit of an equality if one
of them is one: the cases go by the two bits, and the sites that tell the rest apart are the two
operands and the placeholder. -/
private theorem sitesAgree_iff_of_two {cs : List Constraint} {q r : Bool}
    {v w : Option Blob} (hs : sites cs = [(q, v), (r, w)]) :
    SitesAgree cs ↔ SitesOk [(q, v), (r, w)] := by
  have hbound : boundSite w ≠ some [] := by
    unfold boundSite
    split
    · simp [placeholderSiteId]
    · assumption
  have hagree : SitesAgree cs ↔ ∀ s : Option Blob, s ≠ some [] →
      (decide (s = boundSite w) = (q || r) ↔ decide (s = v) = q ∧ decide (s = w) = r) := by
    simp [SitesAgree, pushedSite, hs]
  rw [hagree]
  by_cases hw : w = some []
  · have hbw : boundSite w = some placeholderSiteId := if_pos hw
    have hbytes : placeholderSiteId ≠ [] := by decide
    rw [hbw] at hbound ⊢
    subst hw
    cases q <;> cases r <;> simp only [SitesOk]
    · constructor
      · intro h
        by_contra hv
        simp only [ne_eq, not_true_eq_false, false_and, true_and, false_or] at hv
        have hp := h (some placeholderSiteId) hbound
        have hne : some placeholderSiteId ≠ v := Ne.symm hv
        simp [hne, hbytes] at hp
      · rintro (⟨h, -⟩ | ⟨-, rfl⟩) s hs'
        · exact absurd rfl h
        · simp [hs']
    · simp only [ne_eq, not_true_eq_false, false_and, iff_false]
      intro h
      have hp := h (some placeholderSiteId) hbound
      simp [placeholderSiteId] at hp
    · constructor
      · intro h
        have hp := (h (some placeholderSiteId) hbound).mp (by simp)
        exact ⟨trivial, by simpa [eq_comm] using hp.1⟩
      · rintro ⟨-, rfl⟩ s hs'
        simp [hs']
    · simp only [ne_eq, not_true_eq_false, false_and, iff_false]
      intro h
      have hp := h (some placeholderSiteId) hbound
      simp [placeholderSiteId] at hp
  · have hbw : boundSite w = w := if_neg hw
    rw [hbw]
    cases q <;> cases r <;> simp only [SitesOk]
    · constructor
      · intro h
        refine Or.inl ⟨hw, ?_⟩
        by_contra hv
        rw [not_or] at hv
        have hp := h v hv.2
        simp [hv.1] at hp
      · rintro (⟨-, rfl | rfl⟩ | ⟨h, -⟩) s hs'
        · simp
        · simp [hs']
        · exact absurd h hw
    · constructor
      · intro h
        have hp := (h w hw).mp (by simp)
        exact ⟨hw, hp.1⟩
      · rintro ⟨-, hv⟩ s hs'
        simp only [Bool.false_or, decide_eq_true_eq]
        refine ⟨?_, fun h => h.2⟩
        rintro rfl
        exact ⟨hv, rfl⟩
    · constructor
      · intro h
        have hp := (h w hw).mp (by simp)
        simp at hp
      · rintro ⟨h, -⟩
        exact absurd h hw
    · constructor
      · intro h
        have hp := (h w hw).mp (by simp)
        exact ⟨hw, hp.1⟩
      · rintro ⟨-, hv⟩ s hs'
        have hwv : w = v := by simpa using hv
        subst hwv
        simp

/-- For an accepted plan the conjunctions whose test agrees are the listed ones. -/
theorem sitesAgree_iff {cs : List Constraint} (h : Accepted cs) :
    SitesAgree cs ↔ SitesOk (sites cs) := by
  match hs : sites cs with
  | [] =>
      simp only [SitesAgree, pushedSite, hs, SitesOk, iff_false]
      intro hall
      have hp := hall (some placeholderSiteId) (by simp [placeholderSiteId])
      simp at hp
  | [(q, v)] =>
      rw [sitesAgree_iff_of_one hs]
      rfl
  | [(q, v), (r, w)] => exact sitesAgree_iff_of_two hs
  | s :: s' :: s'' :: ss => simp [Accepted, hs] at h

end CrSqlite
