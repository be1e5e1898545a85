import Ceph.Osd.IndexedLog

set_option autoImplicit false

/-!
# `PGLog`: merging logs

`PGLog` holds the log and the missing set of a shard with the marks that say
what must be written out.  A function that is given a `LogEntryHandler` returns
the calls it makes, in order; where the code passes no handler the caller drops
them.  A failed assertion is `none`.
-/

namespace Ceph.Osd

open Std List IndexedLog EVersion

variable {O : Type} [LinearOrder O]

/-- The calls of `PGLog::LogEntryHandler`. -/
inductive Call (O : Type) where
  | rollback (e : LogEntry O)
  | rollforward (e : LogEntry O)
  | trim (e : LogEntry O)
  | remove (hoid : O)
  | tryStash (hoid : O) (v : Nat)
  deriving DecidableEq, Repr

structure PGLog (O : Type) [LinearOrder O] where
  missing : MissingSet O := {}
  log : IndexedLog O := {}
  dirtyTo : EVersion := 0
  dirtyFrom : EVersion := max
  dirtyToDups : EVersion := 0
  dirtyFromDups : EVersion := max
  mayIncludeDeletesInMissingDirty : Bool := false

/-! ## Divergent entries of one object -/

/-- The loop of `_merge_object_divergent_entries` that strips the error entries.
`begin_` says that the entry is the first of the list, `seen` that a non-error
entry was met before, and `last` is the version of the latest of those. -/
def stripErrors (hoid : O) : Bool → Bool → EVersion → Entries O → Option (Entries O)
  | _, _, _, [] => some []
  | begin_, seen, last, e :: es =>
    let firstNonError := !seen && !e.isError
    if e.soid = hoid ∧ (begin_ ∨ e.priorVersion = 0 ∨ firstNonError ∨
        last < e.version ∧ (e.priorVersion = last ∨ e.isError)) then
      if e.isError then stripErrors hoid false seen last es
      else (stripErrors hoid false true e.version es).map (e :: ·)
    else none

variable (log : IndexedLog O)

/-- The entry of `log.objects` that makes the divergent entries of an object,
the first of which is `first`, irrelevant. -/
def moreRecent (hoid : O) (first : LogEntry O) : Option (LogEntry O) :=
  (log.objects hoid).filter fun e => decide (first.version ≤ e.version)

/-- Case 1 asserts that the missing set already follows the newer entry. -/
def missingFollows (missing : MissingSet O) (hoid : O) (newest : LogEntry O) : Bool :=
  if newest.isUpdate || (missing.mayIncludeDeletes && newest.isDelete) then
    missing.missing[hoid]?.map MissingItem.need == some newest.version
  else !missing.isMissing hoid

/-- The calls that discard the object and what is stashed for its entries;
nothing is removed if the object is known not to be stored. -/
def discard (hoid : O) (objectNotInStore : Bool) (entries : Entries O) : List (Call O) :=
  (if objectNotInStore then [] else [.remove hoid]) ++ entries.map .trim

/-- The five cases of `_merge_object_divergent_entries`, for the non-error
entries `first :: rest` of the object. -/
def mergeStripped (hoid : O) (first : LogEntry O) (rest : Entries O) (ologCanRollbackTo : EVersion)
    (missing : MissingSet O) : Option (MissingSet O × List (Call O)) :=
  let entries := first :: rest
  let last := rest.getLastD first
  let objectNotInStore := !missing.isMissing hoid && last.isDelete
  match moreRecent log hoid first with
  | some newest =>
    -- case 1: there is a more recent update
    if last.version < newest.version ∧ missingFollows missing hoid newest then
      some ((missing.reviseHave hoid 0).markFullyDirty hoid, discard hoid objectNotInStore entries)
    else none
  | none =>
    if first.isCreate then
      -- case 2: the first entry creates the object
      some (if missing.isMissing hoid then missing.rm hoid else missing,
        discard hoid objectNotInStore entries)
    else
      match missing.missing[hoid]? with
      | some item =>
        -- case 3: the object is missing, adjust to its prior version
        some (if item.have_ = first.priorVersion then missing.rm hoid
            else missing.reviseNeed hoid first.priorVersion false,
          entries.map .trim)
      | none =>
        if ∀ e ∈ entries, e.canRollback ∧ ologCanRollbackTo < e.version then
          -- case 4: every entry can be rolled back
          some (missing, entries.reverse.map .rollback)
        else
          -- case 5: clear the object out and add it to missing
          some (missing.add hoid first.priorVersion 0 false, discard hoid objectNotInStore entries)

/-- `_merge_object_divergent_entries`. -/
def mergeObjectDivergentEntries (hoid : O)
    (origEntries : Entries O) (info : PgInfo O) (ologCanRollbackTo : EVersion)
    (missing : MissingSet O) : Option (MissingSet O × List (Call O)) :=
  if info.lastBackfill < hoid then some (missing, [])
  else if origEntries = [] then none
  else
    match stripErrors hoid true false 0 origEntries with
    | none => none
    | some [] => some (missing, [])
    | some (first :: rest) => mergeStripped log hoid first rest ologCanRollbackTo missing

/-! ## All divergent entries -/

def splitByObject (entries : Entries O) : ExtTreeMap O (Entries O) compare :=
  entries.foldl (fun m e => m.insert e.soid (m[e.soid]?.getD [] ++ [e])) ∅

/-- The loop of `_merge_divergent_entries` over the objects. -/
def mergeObjects (log : IndexedLog O) (info : PgInfo O) (ologCanRollbackTo : EVersion) :
    List (O × Entries O) → MissingSet O → Option (MissingSet O × List (Call O))
  | [], missing => some (missing, [])
  | (hoid, entries) :: rest, missing =>
    match mergeObjectDivergentEntries log hoid entries info ologCanRollbackTo missing with
    | none => none
    | some (missing', calls) =>
      (mergeObjects log info ologCanRollbackTo rest missing').map fun r => (r.1, calls ++ r.2)

/-- `_merge_divergent_entries`. -/
def mergeDivergentEntries (entries : Entries O) (info : PgInfo O) (ologCanRollbackTo : EVersion)
    (missing : MissingSet O) : Option (MissingSet O × List (Call O)) :=
  mergeObjects log info ologCanRollbackTo (splitByObject entries).toList missing

/-! ## Appending entries -/

/-- What `append_log_entries_update_missing` does to the missing set for one
entry, and its calls. -/
def appendMissingEntry (lastBackfill : O) (maintainRollback : Bool) (missing : MissingSet O)
    (e : LogEntry O) : MissingSet O × List (Call O) :=
  if e.soid ≤ lastBackfill ∧ ¬ e.isError then
    if missing.mayIncludeDeletes then (missing.addNextEvent e, [])
    else
      (if e.isDelete then missing.rmUpTo e.soid e.version else missing.addNextEvent e,
        if maintainRollback && e.isLostDelete && e.canRollback then
          [.tryStash e.soid e.version.version]
        else if e.isDelete then [.remove e.soid]
        else [])
  else (missing, [])

/-- `append_log_entries_update_missing` without a log. -/
def appendMissing (lastBackfill : O) (maintainRollback : Bool) :
    Entries O → MissingSet O → MissingSet O × List (Call O)
  | [], missing => (missing, [])
  | e :: es, missing =>
    let (missing', calls) := appendMissingEntry lastBackfill maintainRollback missing e
    let (missing'', calls') := appendMissing lastBackfill maintainRollback es missing'
    (missing'', calls ++ calls')

/-- `log->add(*p)` for each entry. -/
def appendLog : Entries O → IndexedLog O → Option (IndexedLog O)
  | [], log => some log
  | e :: es, log =>
    match log.add e with
    | none => none
    | some log' => appendLog es log'

/-- `append_log_entries_update_missing` with a log.  The assertion on the first
entry repeats the one of `add`. -/
def appendLogEntriesUpdateMissing (lastBackfill : O) (entries : Entries O)
    (maintainRollback : Bool) (log : IndexedLog O) (missing : MissingSet O) :
    Option (IndexedLog O × MissingSet O × List (Call O)) :=
  (appendLog entries log).map fun log' =>
    (log', appendMissing lastBackfill maintainRollback entries missing)

namespace PGLog

/-! ## The dirty marks -/

variable (s : PGLog O)

def markDirtyTo (v : EVersion) : PGLog O :=
  { s with dirtyTo := max s.dirtyTo v }

def markDirtyFrom (v : EVersion) : PGLog O :=
  { s with dirtyFrom := min s.dirtyFrom v }

def markDirtyToDups (v : EVersion) : PGLog O :=
  { s with dirtyToDups := max s.dirtyToDups v }

def markDirtyFromDups (v : EVersion) : PGLog O :=
  { s with dirtyFromDups := min s.dirtyFromDups v }

/-! ## `rewind_divergent_log` -/

def rewindDivergentLog (newhead : EVersion) (info : PgInfo O) :
    Option (PGLog O × PgInfo O × List (Call O)) :=
  let originalCrt := s.log.canRollbackTo
  match s.log.rewindFromHead newhead with
  | none => none
  | some (log, divergent) =>
    let s : PGLog O :=
      match divergent with
      | [] => s
      | e :: _ => s.markDirtyFrom e.version
    let info : PgInfo O :=
      { info with lastComplete := min info.lastComplete newhead, lastUpdate := newhead }
    (mergeDivergentEntries log divergent info originalCrt s.missing).map fun r =>
      ({ s with log := log, missing := r.1 }, info, r.2)

/-! ## `merge_log` -/

/-- The entries of `olog` that extend the tail of `log`. -/
def tailEntries (log : IndexedLog O) (olog : PgLog O) : Entries O :=
  olog.log.takeWhile fun e => decide (e.version ≤ log.tail)

/-- The first part of `merge_log`: extend on tail.  The spliced entries leave
`olog`; a reverse iterator keeps its base when entries are spliced in front. -/
def extendTail (olog : PgLog O) (info : PgInfo O) : PGLog O × PgLog O × PgInfo O :=
  if olog.tail < s.log.tail then
    let entries := tailEntries s.log olog
    let log := entries.foldl indexEntry s.log
    let s := s.markDirtyTo ((entries.getLast?.map LogEntry.version).getD 0)
    ({ s with
        log := { log with
          log := entries ++ log.log
          riter := log.riter + entries.length
          tail := olog.tail } },
      { olog with log := olog.log.drop entries.length },
      { info with logTail := olog.tail })
  else (s, olog, info)

/-- The entries of `olog` that are newer than `head`. -/
def headEntries (head : EVersion) (olog : PgLog O) : Entries O :=
  olog.log.rtakeWhile fun e => decide (head < e.version)

/-- `lower_bound` of `merge_log`: the newest version the logs are known to share. -/
def lowerBound (head origTail : EVersion) (olog : PgLog O) : EVersion :=
  let bound := max olog.tail origTail
  match (olog.log.rdropWhile fun e => decide (head < e.version)).getLast? with
  | some e => max bound e.version
  | none => bound

/-- The last part of `merge_log` that changes the log: extend on head. -/
def extendHead (origTail : EVersion) (olog : PgLog O) (info : PgInfo O) :
    Option (PGLog O × PgInfo O × List (Call O)) :=
  let bound := lowerBound s.log.head origTail olog
  let newEntries := headEntries s.log.head olog
  let originalCrt := s.log.canRollbackTo
  match s.log.rewindFromHead bound with
  | none => none
  | some (log, divergent) =>
    let (log, forward, _) := log.advanceCanRollbackTo log.head
    match appendLogEntriesUpdateMissing info.lastBackfill newEntries false log s.missing with
    | none => none
    | some (log, missing, calls) =>
      match mergeDivergentEntries log divergent info originalCrt missing with
      | none => none
      | some (missing, calls') =>
        let log : IndexedLog O := { log with head := olog.head }
        some ({ s.markDirtyFrom bound with
            log := log.skipCanRollbackToToHead
            missing := missing },
          { info with lastUpdate := olog.head },
          forward.map .rollforward ++ calls ++ calls')

/-- `merge_log_dups`: take over the dup entries that `olog` has beyond ours. -/
def extendDups (olog : PgLog O) : PGLog O :=
  match s.log.dups.head?, s.log.dups.getLast? with
  | some front, some back =>
    -- newer dup entries, which the code indexes from the back
    let newer := olog.dups.rtakeWhile fun d => decide (back.version < d.version)
    let s : PGLog O :=
      match newer with
      | [] => s
      | d :: _ =>
        ({ s with
          log := newer.reverse.foldl indexDupEntry
            { s.log with dups := s.log.dups ++ newer } }).markDirtyFromDups d.version
    -- older dup entries
    let older := olog.dups.takeWhile fun d => decide (d.version < front.version)
    match older.getLast? with
    | none => s
    | some d =>
      ({ s with
        log := older.foldl indexDupEntry
          { s.log with dups := older ++ s.log.dups } }).markDirtyToDups d.version
  | _, _ =>
    if olog.dups = [] then s
    else
      { s with
        log := olog.dups.foldl pushDup s.log
        dirtyFromDups := 0
        dirtyToDups := max }

/-- With dup entries of its own, the log gets the newer ones of the other log at the back
and then the older ones at the front. -/
theorem extendDups_log (olog : PgLog O) {front back : LogDup}
    (hfront : s.log.dups.head? = some front) (hback : s.log.dups.getLast? = some back)
    {newer older : List LogDup} {l : IndexedLog O}
    (hnewer : newer = olog.dups.rtakeWhile fun d => decide (back.version < d.version))
    (holder : older = olog.dups.takeWhile fun d => decide (d.version < front.version))
    (hl : l = newer.reverse.foldl indexDupEntry { s.log with dups := s.log.dups ++ newer }) :
    (s.extendDups olog).missing = s.missing ∧ (s.extendDups olog).log =
      older.foldl indexDupEntry { l with dups := older ++ l.dups } := by
  subst hl
  unfold extendDups
  rw [hfront, hback]
  dsimp only
  rw [← hnewer, ← holder]
  cases holast : older.getLast? with
  | none =>
    rw [getLast?_eq_none_iff.1 holast]
    cases newer with
    | nil => exact ⟨rfl, by simp⟩
    | cons => exact ⟨rfl, rfl⟩
  | some d =>
    cases newer with
    | nil => exact ⟨rfl, by simp [markDirtyToDups]⟩
    | cons => exact ⟨rfl, rfl⟩

/-- Without dup entries of its own, the log gets those of the other log. -/
theorem extendDups_log_of_nil (olog : PgLog O) (h : s.log.dups = []) :
    (s.extendDups olog).missing = s.missing ∧
      (s.extendDups olog).log = olog.dups.foldl pushDup s.log := by
  unfold extendDups
  rw [h]
  dsimp only [head?_nil]
  split
  next hnil =>
    rw [hnil]
    exact ⟨rfl, rfl⟩
  · exact ⟨rfl, rfl⟩

/-- The end of `merge_log_dups`: remove the dup entries that overlap the log,
from the back. -/
def dropDup (d : LogDup) : PGLog O :=
  ({ s with
    log := ({ s.log with dups := s.log.dups.dropLast } : IndexedLog O).unindexDupEntry d }
    ).markDirtyFromDups d.version

def mergeLogDups (olog : PgLog O) : PGLog O :=
  let s := s.extendDups olog
  (s.log.dups.rtakeWhile fun d => decide (s.log.tail < d.version)).reverse.foldl dropDup s

/-- `merge_log`; `olog` is the log of the authoritative shard. -/
def mergeLog (olog : PgLog O) (info : PgInfo O) : Option (PGLog O × PgInfo O × List (Call O)) :=
  if (¬ s.log.null ∨ olog.tail = 0) ∧ olog.tail ≤ s.log.head ∧ s.log.tail ≤ olog.head then
    let origTail := s.log.tail
    let (s, olog, info) := s.extendTail olog info
    let merged :=
      -- do we have divergent entries to throw out?
      if olog.head < s.log.head then s.rewindDivergentLog olog.head info
      -- extend on head?
      else if s.log.head < olog.head then s.extendHead origTail olog info
      else some (s, info, [])
    merged.map fun r => (r.1.mergeLogDups olog, r.2.1, r.2.2)
  else none

/-! ## `proc_replica_log` -/

/-- `lu` of `proc_replica_log`: the newest version that the replica's log is
known to share with `log`. -/
def lastShared (log olog : PgLog O) : EVersion :=
  let limit := max olog.tail log.tail
  match (log.log.rdropWhile fun e => decide (olog.head < e.version)).getLast? with
  | some e => if e.version < limit then limit else e.version
  | none => limit

/-- The last part of `proc_replica_log`: the version up to which the replica is
complete. -/
def replicaLastComplete (olog : PgLog O) (lastUpdate : EVersion) (omissing : MissingSet O) :
    Option EVersion :=
  if omissing.haveMissing then
    match omissing.rmissing.toList.head? with
    | none => none
    | some (_, oid) =>
      omissing.missing[oid]?.map fun item =>
        ((olog.log.takeWhile fun e => decide (e.version < item.need)).getLast?.map
          LogEntry.version).getD 0
  else some lastUpdate

/-- `proc_replica_log`, run by the primary with its own log, for a replica with
log `olog`.  There is no handler, so the calls are dropped. -/
def procReplicaLog (log : PgLog O) (oinfo : PgInfo O) (olog : PgLog O) (omissing : MissingSet O) :
    Option (PgInfo O × MissingSet O) :=
  if olog.head < log.tail then some (oinfo, omissing)
  else if olog.head = log.head then some (oinfo, omissing)
  else
    let lu := lastShared log olog
    match (ofPgLog olog).rewindFromHead lu with
    | none => none
    | some (folog, divergent) =>
      match mergeDivergentEntries folog divergent oinfo olog.canRollbackTo omissing with
      | none => none
      | some (omissing, _) =>
        let lastUpdate := min oinfo.lastUpdate lu
        (replicaLastComplete olog lastUpdate omissing).map fun lastComplete =>
          ({ oinfo with lastUpdate := lastUpdate, lastComplete := lastComplete }, omissing)

/-! ## The other operations on the log -/

/-- `set_missing_may_contain_deletes`. -/
def setMissingMayContainDeletes : PGLog O :=
  { s with
    missing := { s.missing with mayIncludeDeletes := true }
    mayIncludeDeletesInMissingDirty := true }

/-- `PGLog::split_into`: what stays and what the child has afterwards. -/
def splitInto (inChild : O → Bool) (child : PGLog O) : PGLog O × PGLog O :=
  let (log, clog) := s.log.splitOutChild inChild
  let (missing, cmissing) := s.missing.splitInto inChild child.missing
  let child : PGLog O :=
    ({ child with log := clog, missing := cmissing }.markDirtyTo max).markDirtyToDups max
  (({ s with log := log, missing := missing }.markDirtyTo max).markDirtyToDups max,
    if missing.mayIncludeDeletes then child.setMissingMayContainDeletes else child)

/-- The loop of `recover_got` that raises `last_complete`, over the entries from
`complete_to` on: the new `last_complete` and `complete_to`. -/
def raiseComplete (oldestNeed : EVersion) : Entries O → EVersion → EVersion × Option EVersion
  | [], lastComplete => (lastComplete, none)
  | e :: es, lastComplete =>
    if oldestNeed ≤ e.version then (lastComplete, some e.version)
    else raiseComplete oldestNeed es (max lastComplete e.version)

/-- `recover_got`. -/
def recoverGot (oid : O) (v : EVersion) (info : PgInfo O) : Option (PGLog O × PgInfo O) :=
  if s.log.canRollbackTo < v then none
  else if s.missing.isMissingAt oid v then
    match s.missing.got oid v with
    | none => none
    | some missing =>
      let (start, lastComplete) :=
        if missing.haveMissing then (s.log.completeTo, info.lastComplete)
        else (none, info.lastUpdate)
      match missing.getOldestNeed with
      | none => none
      | some oldest =>
        let rest :=
          match start with
          | none => []
          | some c => s.log.log.dropWhile fun e => decide (e.version ≠ c)
        let (lastComplete, completeTo) := raiseComplete oldest rest lastComplete
        some ({ s with
            missing := missing
            log := { s.log with completeTo := completeTo } },
          { info with lastComplete := lastComplete })
  else some (s, info)

end PGLog

end Ceph.Osd
