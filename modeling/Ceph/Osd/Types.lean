import Mathlib.Algebra.Order.Group.Nat
import Mathlib.Data.List.DropRight

set_option autoImplicit false

/-!
# Placement-group logs: versions, log entries and dup entries

The records of `osd_types.h` that the log of a placement group is made of.
Object names stay a type variable `O`: the log code only compares them, hashes
them when a group is split and formats them into keys.  The clean regions of an
entry, its snaps, `mod_desc` (beyond whether the entry can be rolled back) and
its modification time are read by none of the functions modelled.
-/

namespace Ceph.Osd

/-! ## `eversion_t` -/

/-- `eversion_t`: an epoch and a version number.  The order compares epochs
first. -/
@[ext]
structure EVersion where
  epoch : Nat
  version : Nat
  deriving DecidableEq, Repr

namespace EVersion

/-- `eversion_t()`. -/
instance : Zero EVersion := ⟨⟨0, 0⟩⟩

instance : Inhabited EVersion := ⟨0⟩

/-- `eversion_t::max()`: both components are all ones. -/
def max : EVersion := ⟨2 ^ 32 - 1, 2 ^ 64 - 1⟩

instance : LE EVersion :=
  ⟨fun l r => if l.epoch = r.epoch then l.version ≤ r.version else l.epoch ≤ r.epoch⟩

instance : LT EVersion :=
  ⟨fun l r => if l.epoch = r.epoch then l.version < r.version else l.epoch < r.epoch⟩

theorem le_def {l r : EVersion} :
    l ≤ r ↔ l.epoch < r.epoch ∨ l.epoch = r.epoch ∧ l.version ≤ r.version := by
  show (if l.epoch = r.epoch then _ else _) ↔ _
  split <;> omega

theorem lt_def {l r : EVersion} :
    l < r ↔ l.epoch < r.epoch ∨ l.epoch = r.epoch ∧ l.version < r.version := by
  show (if l.epoch = r.epoch then _ else _) ↔ _
  split <;> omega

instance (l r : EVersion) : Decidable (l ≤ r) :=
  inferInstanceAs (Decidable (if l.epoch = r.epoch then _ else _))

instance (l r : EVersion) : Decidable (l < r) :=
  inferInstanceAs (Decidable (if l.epoch = r.epoch then _ else _))

instance : LinearOrder EVersion where
  le_refl v := le_def.2 (.inr ⟨rfl, le_rfl⟩)
  le_trans a b c := by
    simp only [le_def]
    omega
  le_antisymm a b := by
    simp only [le_def, EVersion.ext_iff]
    omega
  le_total a b := by
    simp only [le_def]
    omega
  lt_iff_le_not_ge a b := by
    simp only [le_def, lt_def]
    omega
  toDecidableLE := inferInstance
  toDecidableLT := inferInstance
  toDecidableEq := inferInstance

@[simp] theorem zero_epoch : (0 : EVersion).epoch = 0 := rfl

@[simp] theorem zero_version : (0 : EVersion).version = 0 := rfl

@[simp] theorem zero_le (v : EVersion) : 0 ≤ v := by
  simp only [le_def, zero_epoch, zero_version]
  omega

/-- `v` may stand before `w` in one history: a later write has a greater version
number and is made in the same epoch or a later one. -/
def Precedes (v w : EVersion) : Prop := v.epoch ≤ w.epoch ∧ v.version < w.version

instance (v w : EVersion) : Decidable (v.Precedes w) := inferInstanceAs (Decidable (_ ∧ _))

variable {v w : EVersion}

theorem Precedes.lt (h : v.Precedes w) : v < w := by
  have := h.1
  have := h.2
  rw [lt_def]
  omega

/-- `v` stands before `w` in one history, or is `w`. -/
def Upto (v w : EVersion) : Prop := v.epoch ≤ w.epoch ∧ v.version ≤ w.version

instance (v w : EVersion) : Decidable (v.Upto w) := inferInstanceAs (Decidable (_ ∧ _))

theorem Upto.le (h : v.Upto w) : v ≤ w := by
  have := h.1
  have := h.2
  rw [le_def]
  omega

theorem Upto.trans_precedes {u : EVersion} (h : u.Upto v) (h' : v.Precedes w) : u.Precedes w :=
  ⟨h.1.trans h'.1, h.2.trans_lt h'.2⟩

theorem upto_of_le (h : v ≤ w) (hv : v.version ≤ w.version) : v.Upto w := by
  rw [le_def] at h
  exact ⟨by omega, hv⟩

theorem Precedes.upto (h : v.Precedes w) : v.Upto w := ⟨h.1, h.2.le⟩

end EVersion

/-! ## Requests -/

/-- `osd_reqid_t`: who sent the request (`entity_name_t`: a type and a number),
the transaction id and the incarnation of the client. -/
structure ReqId where
  nameType : Nat := 0
  nameNum : Int := 0
  tid : Nat := 0
  inc : Int := 0
  deriving DecidableEq, Repr, Inhabited

/-- `pg_log_op_return_item_t`: what one operation of a request returned. -/
structure OpReturn where
  rval : Int
  bl : List UInt8
  deriving DecidableEq, Repr

/-! ## `pg_log_entry_t` -/

/-- The operations of `pg_log_entry_t`. -/
inductive Op where
  | modify
  | clone
  | delete
  | lostRevert
  | lostDelete
  | lostMark
  | promote
  | clean
  | error
  deriving DecidableEq, Repr

/-- `pg_log_entry_t`.  `canRollback` is `mod_desc.can_rollback()`, and
`extraReqidReturnCodes` maps an index into `extraReqids` to an error code. -/
structure LogEntry (O : Type) where
  op : Op
  soid : O
  version : EVersion
  priorVersion : EVersion
  reqid : ReqId := {}
  extraReqids : List (ReqId × Nat) := []
  extraReqidReturnCodes : List (Nat × Int) := []
  userVersion : Nat := 0
  returnCode : Int := 0
  opReturns : List OpReturn := []
  canRollback : Bool := false
  deriving DecidableEq, Repr

abbrev Entries (O : Type) := List (LogEntry O)

namespace LogEntry

variable {O : Type} (e : LogEntry O)

def isClone : Bool := e.op == .clone

def isLostDelete : Bool := e.op == .lostDelete

def isError : Bool := e.op == .error

def isUpdate : Bool :=
  e.op == .clone || e.op == .modify || e.op == .promote || e.op == .clean ||
    e.op == .lostRevert || e.op == .lostMark

def isDelete : Bool := e.op == .delete || e.op == .lostDelete

/-- Error entries only serve to detect resent requests, so the index by object
leaves them out. -/
def objectIsIndexed : Bool := !e.isError

def reqidIsIndexed : Bool := e.reqid != {} && (e.op == .modify || e.op == .delete || e.op == .error)

/-- The first entry of an object that did not exist before. -/
def isCreate : Bool := e.priorVersion == 0 || e.isClone

/-- Every entry that is neither a delete nor an error leaves an object behind. -/
theorem isUpdate_eq : e.isUpdate = (!e.isDelete && !e.isError) := by
  cases h : e.op <;> simp [isUpdate, isDelete, isError, h]

end LogEntry

/-! ## `pg_log_dup_t` -/

/-- `pg_log_dup_t`: what is kept of a trimmed entry to answer a resent request. -/
structure LogDup where
  reqid : ReqId
  version : EVersion
  userVersion : Nat := 0
  returnCode : Int := 0
  opReturns : List OpReturn := []
  deriving DecidableEq, Repr

/-- `pg_log_dup_t(const pg_log_entry_t&)`. -/
def LogEntry.toDup {O : Type} (e : LogEntry O) : LogDup where
  reqid := e.reqid
  version := e.version
  userVersion := e.userVersion
  returnCode := e.returnCode
  opReturns := e.opReturns

/-! ## `pg_info_t` -/

/-- The part of `pg_info_t` that the log code reads or writes. -/
structure PgInfo (O : Type) where
  lastUpdate : EVersion
  lastComplete : EVersion
  logTail : EVersion
  lastBackfill : O
  deriving DecidableEq, Repr

/-! ## `pg_missing_set`: the objects a shard lacks

A missing set maps an object to the version it needs and the version it has,
and keeps the reverse map from the number of the needed version, which recovery
walks.  The tracked variant also records the objects whose item changed since
the last write.  The clean regions of an item take no part in its comparison and
are left out. -/

open Std ExtTreeMap

/-- The comparison of object names is one that a tree map can use. -/
instance instTransCmpCompare {O : Type} [LinearOrder O] :
    TransCmp (compare : O → O → Ordering) := inferInstance

/-- `pg_missing_item`; `isDelete` is `FLAG_DELETE`. -/
structure MissingItem where
  need : EVersion
  have_ : EVersion
  isDelete : Bool := false
  deriving DecidableEq, Repr

/-- `pg_missing_set<true>`, with the set of changed objects as a list.  The code
of `pg_missing_set<false>` is the same and nothing reads its `changed`. -/
structure MissingSet (O : Type) [LinearOrder O] where
  missing : ExtTreeMap O MissingItem compare := ∅
  rmissing : ExtTreeMap Nat O compare := ∅
  mayIncludeDeletes : Bool := false
  changed : List O := []

namespace MissingSet

variable {O : Type} [LinearOrder O]

variable (m : MissingSet O)

def isMissing (oid : O) : Bool := m.missing[oid]?.isSome

/-- `is_missing(oid, v)`: the object is missing and `v` is new enough for it. -/
def isMissingAt (oid : O) (v : EVersion) : Bool :=
  match m.missing[oid]? with
  | some item => decide (item.need ≤ v)
  | none => false

def haveMissing : Bool := !m.missing.isEmpty

/-- `get_oldest_need`: the version needed by the object that `rmissing` lists
first; `none` where the assertion fails. -/
def getOldestNeed : Option EVersion :=
  if m.missing.isEmpty then some 0
  else
    match m.rmissing.toList.head? with
    | some (_, oid) => m.missing[oid]?.map MissingItem.need
    | none => none

/-- The item that `add_next_event` leaves for an object that had `found`. -/
def nextItem (e : LogEntry O) (found : Option MissingItem) : MissingItem :=
  if e.isCreate then ⟨e.version, 0, e.isDelete⟩
  else
    match found with
    -- already missing (prior), leave `have` unchanged
    | some item => { item with need := e.version, isDelete := e.isDelete }
    -- not missing, we must have `prior_version`
    | none => ⟨e.version, e.priorVersion, e.isDelete⟩

/-- `add_next_event`, called in log order as the log is extended. -/
def addNextEvent (e : LogEntry O) : MissingSet O :=
  let found := m.missing[e.soid]?
  let rmissing :=
    match found with
    | some item => m.rmissing.erase item.need.version
    | none => m.rmissing
  { m with
    missing := m.missing.insert e.soid (nextItem e found)
    rmissing := rmissing.insert e.version.version e.soid
    changed := e.soid :: m.changed }

def reviseNeed (oid : O) (need : EVersion) (isDelete : Bool) : MissingSet O :=
  match m.missing[oid]? with
  | some item =>
    { m with
      missing := m.missing.insert oid { item with need := need, isDelete := isDelete }
      rmissing := (m.rmissing.erase item.need.version).insert need.version oid
      changed := oid :: m.changed }
  | none =>
    { m with
      missing := m.missing.insert oid ⟨need, 0, isDelete⟩
      rmissing := m.rmissing.insert need.version oid
      changed := oid :: m.changed }

def reviseHave (oid : O) (have_ : EVersion) : MissingSet O :=
  match m.missing[oid]? with
  | some item =>
    { m with
      missing := m.missing.insert oid { item with have_ := have_ }
      changed := oid :: m.changed }
  | none => m

/-- `mark_fully_dirty`, of which only the change record is modelled. -/
def markFullyDirty (oid : O) : MissingSet O :=
  if m.isMissing oid then { m with changed := oid :: m.changed } else m

def add (oid : O) (need have_ : EVersion) (isDelete : Bool) : MissingSet O :=
  { m with
    missing := m.missing.insert oid ⟨need, have_, isDelete⟩
    rmissing := m.rmissing.insert need.version oid
    changed := oid :: m.changed }

/-- `rm(iterator)`, for an object that is missing. -/
def rm (oid : O) : MissingSet O :=
  match m.missing[oid]? with
  | some item =>
    { m with
      missing := m.missing.erase oid
      rmissing := m.rmissing.erase item.need.version
      changed := oid :: m.changed }
  | none => m

/-- `rm(oid, v)`. -/
def rmUpTo (oid : O) (v : EVersion) : MissingSet O :=
  if m.isMissingAt oid v then m.rm oid else m

/-- `got(oid, v)`; its assertions fail with `none`. -/
def got (oid : O) (v : EVersion) : Option (MissingSet O) :=
  match m.missing[oid]? with
  | some item => if item.need ≤ v ∨ item.isDelete then some (m.rm oid) else none
  | none => none

/-- One object of `split_into`: an object of the child moves there. -/
def splitStep (inChild : O → Bool) (ms : MissingSet O × MissingSet O)
    (p : O × MissingItem) : MissingSet O × MissingSet O :=
  if inChild p.1 then
    (ms.1.rm p.1, ms.2.add p.1 p.2.need p.2.have_ p.2.isDelete)
  else ms

/-- `split_into`; the pair is what stays and what the child has afterwards. -/
def splitInto (inChild : O → Bool) (child : MissingSet O) : MissingSet O × MissingSet O :=
  m.missing.toList.foldl (splitStep inChild)
    (m, { child with mayIncludeDeletes := m.mayIncludeDeletes })

/-! ## The item of each object -/

section Items

variable (m : MissingSet O) (oid o : O)

@[simp] theorem addNextEvent_missing (e : LogEntry O) :
    (m.addNextEvent e).missing[o]? =
      if e.soid = o then some (nextItem e m.missing[e.soid]?) else m.missing[o]? := by
  simp [addNextEvent, getElem?_insert]

@[simp] theorem reviseNeed_missing (need : EVersion) (isDelete : Bool) :
    (m.reviseNeed oid need isDelete).missing[o]? =
      if oid = o then some ⟨need, (m.missing[oid]?.map MissingItem.have_).getD 0, isDelete⟩
      else m.missing[o]? := by
  unfold reviseNeed
  cases m.missing[oid]? <;> simp [getElem?_insert]

@[simp] theorem reviseHave_missing (have_ : EVersion) :
    (m.reviseHave oid have_).missing[o]? =
      if oid = o then m.missing[oid]?.map fun item => { item with have_ := have_ }
      else m.missing[o]? := by
  cases h : m.missing[oid]? with
  | none =>
    have hsame : m.reviseHave oid have_ = m := by simp [reviseHave, h]
    rw [hsame, Option.map_none]
    exact (ite_eq_right_iff.2 fun heq => by rw [← heq, h]).symm
  | some => simp [reviseHave, h, getElem?_insert]

@[simp] theorem markFullyDirty_missing : (m.markFullyDirty oid).missing = m.missing := by
  unfold markFullyDirty
  split <;> rfl

@[simp] theorem add_missing (need have_ : EVersion) (isDelete : Bool) :
    (m.add oid need have_ isDelete).missing[o]? =
      if oid = o then some ⟨need, have_, isDelete⟩ else m.missing[o]? := by
  simp [add, getElem?_insert]

@[simp] theorem rm_missing : (m.rm oid).missing[o]? = if oid = o then none else m.missing[o]? := by
  cases h : m.missing[oid]? with
  | none =>
    have hsame : m.rm oid = m := by simp [rm, h]
    rw [hsame]
    exact (ite_eq_right_iff.2 fun heq => by rw [← heq, h]).symm
  | some => simp [rm, h, getElem?_erase]

theorem rmUpTo_missing (v : EVersion) :
    (m.rmUpTo oid v).missing[o]? =
      if oid = o ∧ m.isMissingAt oid v then none else m.missing[o]? := by
  unfold rmUpTo
  split <;> simp_all

end Items

/-! ## Whether deletes are tracked -/

section MayIncludeDeletes

variable (m : MissingSet O) (oid : O)

@[simp] theorem addNextEvent_mayIncludeDeletes (e : LogEntry O) :
    (m.addNextEvent e).mayIncludeDeletes = m.mayIncludeDeletes := rfl

@[simp] theorem reviseNeed_mayIncludeDeletes (need : EVersion) (isDelete : Bool) :
    (m.reviseNeed oid need isDelete).mayIncludeDeletes = m.mayIncludeDeletes := by
  unfold reviseNeed
  split <;> rfl

@[simp] theorem reviseHave_mayIncludeDeletes (have_ : EVersion) :
    (m.reviseHave oid have_).mayIncludeDeletes = m.mayIncludeDeletes := by
  unfold reviseHave
  split <;> rfl

@[simp] theorem markFullyDirty_mayIncludeDeletes :
    (m.markFullyDirty oid).mayIncludeDeletes = m.mayIncludeDeletes := by
  unfold markFullyDirty
  split <;> rfl

@[simp] theorem add_mayIncludeDeletes (need have_ : EVersion) (isDelete : Bool) :
    (m.add oid need have_ isDelete).mayIncludeDeletes = m.mayIncludeDeletes := rfl

@[simp] theorem rm_mayIncludeDeletes : (m.rm oid).mayIncludeDeletes = m.mayIncludeDeletes := by
  unfold rm
  split <;> rfl

@[simp] theorem rmUpTo_mayIncludeDeletes (v : EVersion) :
    (m.rmUpTo oid v).mayIncludeDeletes = m.mayIncludeDeletes := by
  unfold rmUpTo
  split
  · exact rm_mayIncludeDeletes m oid
  · rfl

end MayIncludeDeletes

end MissingSet

end Ceph.Osd
