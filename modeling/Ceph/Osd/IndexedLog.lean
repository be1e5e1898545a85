import Ceph.Osd.Types
import Ceph.Lib.Index

set_option autoImplicit false

/-!
# `pg_log_t` and `PGLog::IndexedLog`

The log of a placement group and its in-memory indexes.  The indexes hold
pointers into the log; here an index holds the entry itself, and since the
versions of a log are distinct two pointers are equal exactly if the entries
have the same version.  `complete_to` is such a pointer too.

`rollback_info_trimmed_to_riter` is a reverse iterator.  `riter` is the number of
entries in front of its base: `0` is `rend()`, the length of the log is
`rbegin()`, and any other value refers to the entry just before that position.

A failed assertion, and a dereference of the end of an empty list, is `none`.
-/

namespace Ceph.Osd

variable {O : Type} [LinearOrder O]

/-! ## `pg_log_t` -/

structure PgLog (O : Type) where
  head : EVersion := 0
  tail : EVersion := 0
  canRollbackTo : EVersion := 0
  rollbackInfoTrimmedTo : EVersion := 0
  log : Entries O := []
  dups : List LogDup := []
  deriving DecidableEq, Repr

namespace PgLog

def null (l : PgLog O) : Bool := l.head == 0

/-- The entries that `rewind_from_head` drops: it compares version numbers, not
epochs, so that an entry that was logged again in a later epoch counts as
divergent. -/
def beyond (l : PgLog O) (newhead : EVersion) : Entries O :=
  l.log.rtakeWhile fun e => decide (newhead.version < e.version.version)

/-- `pg_log_t::rewind_from_head`: the shortened log and the divergent entries. -/
def rewindFromHead (l : PgLog O) (newhead : EVersion) : Option (PgLog O × Entries O) :=
  let divergent := l.beyond newhead
  if l.tail ≤ newhead ∧ ∀ e ∈ divergent, newhead < e.version then
    some ({ l with
      log := l.log.rdropWhile fun e => decide (newhead.version < e.version.version)
      head := newhead
      canRollbackTo := min l.canRollbackTo newhead
      rollbackInfoTrimmedTo := min l.rollbackInfoTrimmedTo newhead }, divergent)
  else none

/-- `pg_log_t::split_out_child`: what stays and the log of the child, which gets
a copy of all dup entries. -/
def splitOutChild (l : PgLog O) (inChild : O → Bool) : PgLog O × PgLog O :=
  ({ l with log := l.log.filter fun e => !inChild e.soid },
    { l with log := l.log.filter fun e => inChild e.soid })

end PgLog

/-! ## The indexes -/

/-- `indexed_data`: which of the indexes are built. -/
structure Indexed where
  objects : Bool := true
  callerOps : Bool := true
  extraCallerOps : Bool := true
  dups : Bool := true
  deriving DecidableEq, Repr

structure IndexedLog (O : Type) extends PgLog O where
  objects : O → Option (LogEntry O) := fun _ => none
  callerOps : ReqId → Option (LogEntry O) := fun _ => none
  extraCallerOps : ReqId → Entries O := fun _ => []
  dupIndex : ReqId → Option LogDup := fun _ => none
  indexed : Indexed := ⟨false, false, false, false⟩
  riter : Nat := 0
  completeTo : Option EVersion := none

namespace IndexedLog

/-- `objects[e.soid] = &e`, for an entry whose object is indexed. -/
def indexObject (objects : O → Option (LogEntry O)) (e : LogEntry O) : O → Option (LogEntry O) :=
  if e.objectIsIndexed then Function.update objects e.soid (some e) else objects

/-- `caller_ops[e.reqid] = &e`, for an entry whose request is indexed. -/
def indexCallerOp (callerOps : ReqId → Option (LogEntry O)) (e : LogEntry O) :
    ReqId → Option (LogEntry O) :=
  if e.reqidIsIndexed then Function.update callerOps e.reqid (some e) else callerOps

/-- `extra_caller_ops.insert(..)` for each of the extra requests of an entry. -/
def indexExtraCallerOps (extra : ReqId → Entries O) (e : LogEntry O) : ReqId → Entries O :=
  e.extraReqids.foldl (fun m r => Function.update m r.1 (m r.1 ++ [e])) extra

/-- `dup_index[d.reqid] = &d`. -/
def indexDup (dupIndex : ReqId → Option LogDup) (d : LogDup) : ReqId → Option LogDup :=
  Function.update dupIndex d.reqid (some d)

variable (l : IndexedLog O)

/-- `index(to_index)`: rebuild the named indexes from the log. -/
def index (toIndex : Indexed := {}) : IndexedLog O :=
  { l with
    objects := if toIndex.objects then l.log.foldl indexObject fun _ => none else l.objects
    callerOps :=
      if toIndex.callerOps then l.log.foldl indexCallerOp fun _ => none else l.callerOps
    extraCallerOps :=
      if toIndex.extraCallerOps then l.log.foldl indexExtraCallerOps fun _ => []
      else l.extraCallerOps
    dupIndex := if toIndex.dups then l.dups.foldl indexDup fun _ => none else l.dupIndex
    indexed :=
      ⟨l.indexed.objects || toIndex.objects, l.indexed.callerOps || toIndex.callerOps,
        l.indexed.extraCallerOps || toIndex.extraCallerOps, l.indexed.dups || toIndex.dups⟩ }

def indexCallerOpsOnly : Indexed := ⟨false, true, false, false⟩

def indexExtraCallerOpsOnly : Indexed := ⟨false, false, true, false⟩

def indexObjectsOnly : Indexed := ⟨true, false, false, false⟩

def indexDupsOnly : Indexed := ⟨false, false, false, true⟩

/-- `index(pg_log_entry_t&)`: an entry of a spliced tail enters the indexes.  An
object keeps its newer entry; the last caller of a request wins. -/
def indexEntry (e : LogEntry O) : IndexedLog O :=
  { l with
    objects :=
      if l.indexed.objects && (l.objects e.soid).all fun f => decide (f.version < e.version) then
        indexObject l.objects e
      else l.objects
    callerOps := if l.indexed.callerOps then indexCallerOp l.callerOps e else l.callerOps
    extraCallerOps :=
      if l.indexed.extraCallerOps then indexExtraCallerOps l.extraCallerOps e
      else l.extraCallerOps }

/-- `unindex()`. -/
def unindex : IndexedLog O :=
  { l with
    objects := fun _ => none
    callerOps := fun _ => none
    extraCallerOps := fun _ => []
    dupIndex := fun _ => none
    indexed := ⟨false, false, false, false⟩ }

/-- The pointer `f` is `&e`. -/
def points (e : LogEntry O) (f : LogEntry O) : Bool := f.version == e.version

/-- `extra_caller_ops` without one pointer to `e` for each of its extra requests. -/
def unindexExtraCallerOps (extra : ReqId → Entries O) (e : LogEntry O) : ReqId → Entries O :=
  e.extraReqids.foldl (fun m r => Function.update m r.1 ((m r.1).eraseP (points e))) extra

/-- `unindex(const pg_log_entry_t&)`. -/
def unindexEntry (e : LogEntry O) : IndexedLog O :=
  { l with
    objects :=
      if l.indexed.objects && (l.objects e.soid).any (points e) then
        Function.update l.objects e.soid none
      else l.objects
    callerOps :=
      if e.reqidIsIndexed && l.indexed.callerOps && (l.callerOps e.reqid).any (points e) then
        Function.update l.callerOps e.reqid none
      else l.callerOps
    extraCallerOps :=
      if l.indexed.extraCallerOps then unindexExtraCallerOps l.extraCallerOps e
      else l.extraCallerOps }

/-- `index(pg_log_dup_t&)`. -/
def indexDupEntry (d : LogDup) : IndexedLog O :=
  { l with dupIndex := if l.indexed.dups then indexDup l.dupIndex d else l.dupIndex }

/-- `unindex(const pg_log_dup_t&)`: the request is erased whatever entry the
index holds for it. -/
def unindexDupEntry (d : LogDup) : IndexedLog O :=
  { l with
    dupIndex := if l.indexed.dups then Function.update l.dupIndex d.reqid none else l.dupIndex }

/-! ## The rollback cursor -/

/-- `reset_rollback_info_trimmed_to_riter`: back from the head to the first
entry that is not newer than `rollback_info_trimmed_to`. -/
def resetRiter : IndexedLog O :=
  { l with
    riter := (l.log.rdropWhile fun e => decide (l.rollbackInfoTrimmedTo < e.version)).length }

/-- The entries that `advance_can_rollback_to` hands to its call-back when the
trim bound is `bound`. -/
def passed (bound : EVersion) : Entries O :=
  (l.log.drop l.riter).takeWhile fun e => decide (e.version ≤ bound)

/-- `advance_can_rollback_to`: the log, the entries given to the call-back in
order, and whether the log must be marked dirty. -/
def advanceCanRollbackTo (upTo : EVersion) : IndexedLog O × Entries O × Bool :=
  let bound := max l.rollbackInfoTrimmedTo upTo
  let entries := l.passed bound
  ({ l with
      canRollbackTo := max l.canRollbackTo upTo
      rollbackInfoTrimmedTo := bound
      riter := l.riter + entries.length },
    entries, decide (l.canRollbackTo < upTo ∨ l.rollbackInfoTrimmedTo < upTo))

def skipCanRollbackToToHead : IndexedLog O := (l.advanceCanRollbackTo l.head).1

/-! ## Construction, rewinding and splitting -/

/-- `IndexedLog(pg_log_t)`. -/
def ofPgLog (l : PgLog O) : IndexedLog O := (resetRiter { toPgLog := l }).index

/-- `IndexedLog::rewind_from_head`. -/
def rewindFromHead (newhead : EVersion) : Option (IndexedLog O × Entries O) :=
  match l.toPgLog.rewindFromHead newhead with
  | some (p, divergent) =>
    some (resetRiter ({ l with toPgLog := p } : IndexedLog O).index, divergent)
  | none => none

/-- `IndexedLog::split_out_child`: what stays and the log of the child. -/
def splitOutChild (inChild : O → Bool) : IndexedLog O × IndexedLog O :=
  let (p, c) := l.toPgLog.splitOutChild inChild
  (resetRiter ({ l.unindex with toPgLog := p } : IndexedLog O).index, (ofPgLog c).index)

/-! ## Adding an entry -/

/-- `IndexedLog::add`.  A reverse iterator at `rbegin()` follows the end of the
list, so `push_back` moves it and the code then takes it back by one. -/
def add (e : LogEntry O) (applied : Bool := true) : Option (IndexedLog O) :=
  let moved := if l.riter = l.log.length then l.riter + 1 else l.riter
  let riter := if moved = l.log.length + 1 then moved - 1 else moved
  if (applied ∨ l.canRollbackTo = l.head) ∧ l.head < e.version ∧
      (l.head.version = 0 ∨ l.head.version < e.version.version) then
    let l' : IndexedLog O :=
      { l with
        log := l.log ++ [e]
        head := e.version
        riter := riter
        objects := if l.indexed.objects then indexObject l.objects e else l.objects
        callerOps := if l.indexed.callerOps then indexCallerOp l.callerOps e else l.callerOps
        extraCallerOps :=
          if l.indexed.extraCallerOps then indexExtraCallerOps l.extraCallerOps e
          else l.extraCallerOps }
    some (if applied then l' else l'.skipCanRollbackToToHead)
  else none

/-! ## Trimming -/

/-- The log being trimmed, with the sets and the mark that `trim` fills in.  A
trimmed dup entry is recorded by its version, which its key is made from. -/
structure Trimming (O : Type) where
  log : IndexedLog O
  trimmed : List EVersion
  trimmedDups : List EVersion
  writeFromDups : EVersion

/-- The dup entry of the extra request at position `idx`. -/
def extraDup (e : LogEntry O) (idx : Nat) (extra : ReqId × Nat) : LogDup where
  reqid := extra.1
  version := e.version
  userVersion := extra.2
  returnCode :=
    if 0 ≤ e.returnCode then (e.extraReqidReturnCodes.lookup idx).getD e.returnCode
    else e.returnCode

/-- The dup entries that a trimmed entry leaves: its own, then one for each
extra request, all with the version of the entry. -/
def dupsOf (e : LogEntry O) : List LogDup :=
  e.toDup :: e.extraReqids.zipIdx.map fun r => extraDup e r.2 r.1

/-- `dups.push_back(d); index(dups.back())`. -/
def pushDup (d : LogDup) : IndexedLog O :=
  ({ l with dups := l.dups ++ [d] } : IndexedLog O).indexDupEntry d

/-- The version of the entry that the rollback cursor refers to. -/
def riterVersion : Option EVersion :=
  if l.riter = 0 then none else (l.log[l.riter - 1]?).map LogEntry.version

/-- `log.pop_front()`, for the front entry `e`, with the cursors it concerns. -/
def popFront (e : LogEntry O) : IndexedLog O :=
  { l with
    log := l.log.tail
    riter :=
      if l.riter = 0 ∨ l.riterVersion = some e.version then 0 else l.riter - 1
    completeTo :=
      if l.completeTo.any fun v => decide (v ≤ e.version) then
        l.log.tail.head?.map LogEntry.version
      else l.completeTo }

/-- One round of the first loop of `trim`. -/
def trimEntry (earliestDupVersion : Nat) (t : Trimming O) (e : LogEntry O) : Trimming O :=
  let l := t.log.unindexEntry e
  let dup : Bool := decide (earliestDupVersion ≤ e.version.version)
  { t with
    log := (if dup then (dupsOf e).foldl pushDup l else l).popFront e
    trimmed := e.version :: t.trimmed
    writeFromDups := if dup then min t.writeFromDups e.version else t.writeFromDups }

/-- The first loop of `trim`, over the entries of the log. -/
def trimEntries (s : EVersion) (earliestDupVersion : Nat) : Entries O → Trimming O → Trimming O
  | [], t => t
  | e :: rest, t =>
    if s < e.version then t
    else trimEntries s earliestDupVersion rest (trimEntry earliestDupVersion t e)

/-- The second loop of `trim`, over the dup entries. -/
def trimDups (earliestDupVersion : Nat) : List LogDup → Trimming O → Trimming O
  | [], t => t
  | d :: rest, t =>
    if earliestDupVersion ≤ d.version.version then t
    else
      trimDups earliestDupVersion rest
        { t with
          log := ({ t.log with dups := t.log.dups.tail } : IndexedLog O).unindexDupEntry d
          trimmedDups := d.version :: t.trimmedDups }

/-- `earliest_dup_version` for the newest entry's version number. -/
def earliestDupVersion (dupsTracked newest : Nat) : Nat :=
  if newest < dupsTracked then 0 else newest - dupsTracked + 1

/-- `IndexedLog::trim`, with `osd_pg_log_dups_tracked` as a parameter.  The code
reads the newest entry before it looks whether there is one. -/
def trim (dupsTracked : Nat) (s : EVersion) (t : Trimming O) : Option (Trimming O) :=
  if t.log.canRollbackTo < s then none
  else
    match t.log.log.getLast? with
    | none => none
    | some newest =>
      let earliest := earliestDupVersion dupsTracked newest.version.version
      let t := trimEntries s earliest t.log.log t
      let t := trimDups earliest t.log.dups t
      some { t with log := { t.log with tail := max t.log.tail s } }

/-! ## Looking up requests and objects -/

/-- What `get_request` returns for a request it finds. -/
structure Reply where
  version : EVersion
  userVersion : Nat
  returnCode : Int
  opReturns : List OpReturn
  deriving DecidableEq, Repr

/-- The answer for an extra request of an entry: the first of its extra requests
that is `r`. -/
def extraReply (e : LogEntry O) (r : ReqId) : Option Reply :=
  (e.extraReqids.zipIdx.find? fun x => x.1.1 == r).map fun x =>
    ⟨e.version, x.1.2, (extraDup e x.2 x.1).returnCode, e.opReturns⟩

/-- Build an index that is asked for and not yet built. -/
def ensure (l : IndexedLog O) (built : Bool) (toIndex : Indexed) : IndexedLog O :=
  if built then l else l.index toIndex

/-- `logged_object`. -/
def loggedObject (l : IndexedLog O) (oid : O) : IndexedLog O × Bool :=
  let l := l.ensure l.indexed.objects indexObjectsOnly
  (l, (l.objects oid).isSome)

/-- `get_request`.  Indexes are built on demand, so the log is returned too; the
abort of the code is `none`. -/
def getRequest (l : IndexedLog O) (r : ReqId) : Option (IndexedLog O × Option Reply) :=
  let l := l.ensure l.indexed.callerOps indexCallerOpsOnly
  match l.callerOps r with
  | some e => some (l, some ⟨e.version, e.userVersion, e.returnCode, e.opReturns⟩)
  | none =>
    let l := l.ensure l.indexed.extraCallerOps indexExtraCallerOpsOnly
    match l.extraCallerOps r with
    | e :: _ =>
      match extraReply e r with
      | some reply => some (l, some reply)
      | none => none
    | [] =>
      let l := l.ensure l.indexed.dups indexDupsOnly
      some (l, (l.dupIndex r).map fun d =>
        ⟨d.version, d.userVersion, d.returnCode, d.opReturns⟩)

end IndexedLog

/-! ## What the loops change -/

section Loops

open Ceph.Lib IndexedLog List

def objectKey (e : LogEntry O) : Option O := if e.objectIsIndexed then some e.soid else none

theorem foldl_indexObject_eq (log : Entries O) (m : O → Option (LogEntry O)) (o : O) :
    log.foldl indexObject m o = (lastOf objectKey log o).or (m o) := by
  have heq : (indexObject : (O → Option (LogEntry O)) → _) = enter objectKey := by
    funext m e
    unfold indexObject enter objectKey
    cases e.objectIsIndexed <;> rfl
  rw [heq, foldl_enter]

/-- `objects` with an entry of a spliced tail. -/
def olderObject (objects : O → Option (LogEntry O)) (e : LogEntry O) : O → Option (LogEntry O) :=
  if (objects e.soid).all fun f => decide (f.version < e.version) then indexObject objects e
  else objects

theorem foldl_indexEntry_eq (es : Entries O) (l : IndexedLog O) : es.foldl indexEntry l =
    { l with
      objects := if l.indexed.objects then es.foldl olderObject l.objects else l.objects
      callerOps := if l.indexed.callerOps then es.foldl indexCallerOp l.callerOps else l.callerOps
      extraCallerOps :=
        if l.indexed.extraCallerOps then es.foldl indexExtraCallerOps l.extraCallerOps
        else l.extraCallerOps } := by
  induction es generalizing l with
  | nil => simp
  | cons _ _ ih =>
    rw [foldl_cons, ih]
    obtain ⟨_, _, _, _, _, ⟨b₁, b₂, b₃, _⟩, _, _⟩ := l
    cases b₁ <;> cases b₂ <;> cases b₃ <;> simp [indexEntry, olderObject]

omit [LinearOrder O]

theorem foldl_indexDupEntry_eq (ds : List LogDup) (l : IndexedLog O) : ds.foldl indexDupEntry l =
    { l with dupIndex := if l.indexed.dups then ds.foldl indexDup l.dupIndex else l.dupIndex } := by
  induction ds generalizing l with
  | nil => simp
  | cons _ _ ih =>
    rw [foldl_cons, ih]
    cases hidx : l.indexed.dups <;> simp [indexDupEntry, hidx]

/-- Pushing dup entries changes only the dup entries and their index. -/
theorem foldl_pushDup_eq (ds : List LogDup) (l : IndexedLog O) : ds.foldl pushDup l =
    { l with
      dups := l.dups ++ ds
      dupIndex := if l.indexed.dups then ds.foldl indexDup l.dupIndex else l.dupIndex } := by
  induction ds generalizing l with
  | nil => simp
  | cons _ _ ih =>
    rw [foldl_cons, ih]
    cases hidx : l.indexed.dups <;> simp [pushDup, indexDupEntry, hidx]

/-- `unindex` for each of the dup entries. -/
def dropRequests (m : ReqId → Option LogDup) (ds : List LogDup) : ReqId → Option LogDup :=
  ds.foldl (fun m d => Function.update m d.reqid none) m

/-- The second loop of `trim` drops dup entries from the front. -/
theorem trimDups_log (earliest : Nat) (ds : List LogDup) (t : Trimming O)
    (hdups : t.log.dups = ds) : (trimDups earliest ds t).log =
      { t.log with
        dups := ds.dropWhile fun d => decide (d.version.version < earliest)
        dupIndex :=
          if t.log.indexed.dups then
            dropRequests t.log.dupIndex
              (ds.takeWhile fun d => decide (d.version.version < earliest))
          else t.log.dupIndex } := by
  induction ds generalizing t with
  | nil =>
    simp only [trimDups, dropRequests, takeWhile_nil, dropWhile_nil, foldl_nil, ite_self]
    rw [← hdups]
  | cons _ ds ih =>
    unfold trimDups
    split
    next hle =>
      rw [dropWhile_cons_of_neg (by simpa using hle), takeWhile_cons_of_neg (by simpa using hle)]
      simp [dropRequests, ← hdups]
    next hlt =>
      rw [ih _ (by show t.log.dups.tail = ds; rw [hdups, tail_cons]),
        dropWhile_cons_of_pos (by simpa using hlt),
        takeWhile_cons_of_pos (by simpa using hlt)]
      cases hidx : t.log.indexed.dups <;> simp [unindexDupEntry, dropRequests, hidx]

end Loops

end Ceph.Osd
