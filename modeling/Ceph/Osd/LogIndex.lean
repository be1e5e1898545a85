import Mathlib.Data.List.Pairwise
import Ceph.Lib.Cut
import Ceph.Osd.PGLog

set_option autoImplicit false

/-!
# The indexes of the log

`IndexedLog` keeps four indexes up to date as the log grows at its head, is
trimmed into dup entries at its tail, is rewound, and takes over entries of
another log.  An index is right if it is what `index()` would build: the newest
entry of each object and of each request, all entries with an extra request, and
some dup entry for each request that has one.
-/

namespace Ceph.Osd

open Ceph.Lib IndexedLog List Option PGLog Function

variable {O : Type}

/-! ## What `index()` builds -/

def callerKey (e : LogEntry O) : Option ReqId := if e.reqidIsIndexed then some e.reqid else none

/-- The entries with an extra request, once for each time they have it. -/
def extraCopies (log : Entries O) (r : ReqId) : Entries O :=
  log.flatMap fun e => (e.extraReqids.filter fun x => decide (x.1 = r)).map fun _ => e

/-- What a lookup of a request among the dup entries finds. -/
def DupFound (dups : List LogDup) (r : ReqId) : Option LogDup → Prop
  | some d => d ∈ dups ∧ d.reqid = r
  | none => ∀ d ∈ dups, d.reqid ≠ r

variable {e : LogEntry O} {r : ReqId} {p : PgLog O} {es : Entries O}

theorem callerKey_eq_some : callerKey e = some r ↔ e.reqidIsIndexed = true ∧ e.reqid = r := by
  unfold callerKey
  cases e.reqidIsIndexed <;> simp

theorem objectKey_eq_some {o : O} : objectKey e = some o ↔ e.isError = false ∧ e.soid = o := by
  unfold objectKey LogEntry.objectIsIndexed
  cases e.isError <;> simp

theorem mem_extraCopies {log : Entries O} :
    e ∈ extraCopies log r ↔ e ∈ log ∧ ∃ x ∈ e.extraReqids, x.1 = r := by
  simp only [extraCopies, List.mem_flatMap, List.mem_map, List.mem_filter, decide_eq_true_eq]
  constructor
  · rintro ⟨_, hf, x, hx, rfl⟩
    exact ⟨hf, x, hx⟩
  · rintro ⟨he, x, hx⟩
    exact ⟨e, he, x, hx, rfl⟩

theorem extraCopies_append (log es : Entries O) (r : ReqId) :
    extraCopies (log ++ es) r = extraCopies log r ++ extraCopies es r := flatMap_append

theorem foldl_indexCallerOp (log : Entries O) (m : ReqId → Option (LogEntry O))
    (r : ReqId) : log.foldl indexCallerOp m r = (lastOf callerKey log r).or (m r) := by
  have heq : (indexCallerOp : (ReqId → Option (LogEntry O)) → _) = enter callerKey := by
    funext m e
    unfold indexCallerOp enter callerKey
    cases e.reqidIsIndexed <;> rfl
  rw [heq, foldl_enter]

theorem indexExtraCallerOps_apply (m : ReqId → Entries O) (e : LogEntry O) (r : ReqId) :
    indexExtraCallerOps m e r =
      m r ++ (e.extraReqids.filter fun x => decide (x.1 = r)).map fun _ => e := by
  unfold indexExtraCallerOps
  induction e.extraReqids generalizing m with
  | nil => simp
  | cons x _ ih =>
    rw [foldl_cons, ih]
    cases decEq x.1 r with
    | isTrue heq => simp [heq]
    | isFalse hne => simp [hne, update_of_ne (Ne.symm hne)]

theorem foldl_indexExtraCallerOps (log : Entries O) (r : ReqId) (m : ReqId → Entries O) :
    log.foldl indexExtraCallerOps m r = m r ++ extraCopies log r := by
  induction log generalizing m with
  | nil => simp [extraCopies]
  | cons _ _ ih =>
    rw [foldl_cons, ih, indexExtraCallerOps_apply, append_assoc]
    rfl

theorem foldl_indexDup (ds : List LogDup) (m : ReqId → Option LogDup) (r : ReqId) :
    ds.foldl indexDup m r = (lastOf (fun d : LogDup => some d.reqid) ds r).or (m r) := by
  show ds.foldl (enter fun d : LogDup => some d.reqid) m r = _
  exact foldl_enter ds m r

variable {dups : List LogDup}

/-- Entering more dup entries, in any order. -/
theorem DupFound.enter {ds dups' : List LogDup} {found : Option LogDup} (h : DupFound dups r found)
    (hmem : ∀ d, d ∈ dups' ↔ d ∈ dups ∨ d ∈ ds) :
    DupFound dups' r ((lastOf (fun d : LogDup => some d.reqid) ds r).or found) := by
  cases hlast : lastOf (fun d : LogDup => some d.reqid) ds r with
  | some d =>
    obtain ⟨hin, hkey⟩ := mem_of_lastOf hlast
    exact ⟨(hmem d).2 (.inr hin), some.inj hkey⟩
  | none =>
    rw [lastOf_eq_none_iff] at hlast
    cases found with
    | some d => exact ⟨(hmem d).2 (.inl h.1), h.2⟩
    | none =>
      intro d hd
      obtain hin | hin := (hmem d).1 hd
      · exact h d hin
      · exact fun heq => hlast d hin (congrArg some heq)

variable [LinearOrder O]

/-! ## Logs with right indexes -/

/-- The entries of a log increase and lie between its tail and its head. -/
structure WellFormed (l : PgLog O) : Prop where
  sorted : l.log.Pairwise fun e f => e.version < f.version
  afterTail : ∀ e ∈ l.log, l.tail < e.version
  uptoHead : ∀ e ∈ l.log, e.version ≤ l.head
  tailHead : l.tail ≤ l.head

/-- Every index that is built is right. -/
structure Indexes (l : IndexedLog O) : Prop where
  wellFormed : WellFormed l.toPgLog
  rollbackTo : l.canRollbackTo ≤ l.head
  objects : l.indexed.objects = true → l.objects = lastOf objectKey l.log
  callerOps : l.indexed.callerOps = true → l.callerOps = lastOf callerKey l.log
  extraCallerOps : l.indexed.extraCallerOps = true →
    ∀ r, (l.extraCallerOps r).Perm (extraCopies l.log r)
  dupIndex : l.indexed.dups = true → ∀ r, DupFound l.dups r (l.dupIndex r)

/-- The indexes of entries are right for the entries `log`. -/
structure EntriesIndexed (l : IndexedLog O) (log : Entries O) : Prop where
  objects : l.indexed.objects = true → l.objects = lastOf objectKey log
  callerOps : l.indexed.callerOps = true → l.callerOps = lastOf callerKey log
  extraCallerOps : l.indexed.extraCallerOps = true →
    ∀ r, (l.extraCallerOps r).Perm (extraCopies log r)

omit [LinearOrder O] in
/-- A log that goes on where another ends. -/
theorem WellFormed.append {q : PgLog O} (hp : WellFormed p) (hq : WellFormed q)
    (hle : p.head ≤ q.tail) {r : PgLog O} (hlog : r.log = p.log ++ q.log) (htail : r.tail = p.tail)
    (hhead : r.head = q.head) : WellFormed r := by
  constructor
  · rw [hlog]
    refine pairwise_append.2 ⟨hp.sorted, hq.sorted, fun e he f hf => ?_⟩
    exact ((hp.uptoHead e he).trans hle).trans_lt (hq.afterTail f hf)
  · rw [hlog, htail, forall_mem_append]
    exact ⟨hp.afterTail, fun e he => (hp.tailHead.trans hle).trans_lt (hq.afterTail e he)⟩
  · rw [hlog, hhead, forall_mem_append]
    exact ⟨fun e he => ((hp.uptoHead e he).trans hle).trans hq.tailHead, hq.uptoHead⟩
  · rw [htail, hhead]
    exact (hp.tailHead.trans hle).trans hq.tailHead

omit [LinearOrder O] in
/-- Fewer entries between the same ends. -/
theorem WellFormed.sublist (h : WellFormed p)
    (hes : es.Sublist p.log) : WellFormed { p with log := es } where
  sorted := h.sorted.sublist hes
  afterTail e he := h.afterTail e (hes.subset he)
  uptoHead e he := h.uptoHead e (hes.subset he)
  tailHead := h.tailHead

omit [LinearOrder O] in
theorem WellFormed.congr {q : PgLog O} (h : WellFormed p) (hlog : q.log = p.log)
    (htail : q.tail = p.tail) (hhead : q.head = p.head) : WellFormed q := by
  obtain ⟨hsorted, hafter, hupto, htailHead⟩ := h
  rw [← hlog, ← htail, ← hhead] at *
  exact ⟨hsorted, hafter, hupto, htailHead⟩

variable {l : IndexedLog O}

/-- Other dup entries. -/
theorem Indexes.withDups (h : Indexes l) {dupIndex : ReqId → Option LogDup}
    (hd : l.indexed.dups = true → ∀ r, DupFound dups r (dupIndex r)) :
    Indexes { l with dups := dups, dupIndex := dupIndex } :=
  ⟨h.wellFormed.congr rfl rfl rfl, h.rollbackTo, h.objects, h.callerOps, h.extraCallerOps, hd⟩

/-- Building some of the indexes. -/
theorem Indexes.index (h : Indexes l) (toIndex : Indexed) : Indexes (l.index toIndex) := by
  refine ⟨h.wellFormed, h.rollbackTo, fun hidx => ?_, fun hidx => ?_, fun hidx r => ?_,
    fun hidx r => ?_⟩
  · show (if toIndex.objects = true then _ else _) = lastOf objectKey l.log
    split
    · exact funext fun o => (foldl_indexObject_eq ..).trans (or_none ..)
    next hnot => exact h.objects (by simpa [IndexedLog.index, hnot] using hidx)
  · show (if toIndex.callerOps = true then _ else _) = lastOf callerKey l.log
    split
    · exact funext fun r => (foldl_indexCallerOp ..).trans (or_none ..)
    next hnot => exact h.callerOps (by simpa [IndexedLog.index, hnot] using hidx)
  · show ((if toIndex.extraCallerOps = true then _ else _ : ReqId → Entries O) r).Perm
      (extraCopies l.log r)
    split
    · rw [foldl_indexExtraCallerOps]
      exact .refl _
    next hnot => exact h.extraCallerOps (by simpa [IndexedLog.index, hnot] using hidx) r
  · show DupFound l.dups r ((if toIndex.dups = true then _ else _ : ReqId → Option LogDup) r)
    split
    · rw [foldl_indexDup]
      have hempty : DupFound [] r none := by
        intro d hd
        cases hd
      exact hempty.enter fun d => by simp
    next hnot => exact h.dupIndex (by simpa [IndexedLog.index, hnot] using hidx) r

/-- Without an index nothing can be wrong. -/
theorem indexes_unindex (hwf : WellFormed l.toPgLog) (hcrt : l.canRollbackTo ≤ l.head) :
    Indexes l.unindex := ⟨hwf, hcrt, nofun, nofun, nofun, nofun⟩

/-- `index()` rebuilds everything. -/
theorem indexes_index (hwf : WellFormed l.toPgLog) (hcrt : l.canRollbackTo ≤ l.head) :
    Indexes l.index := by
  have heq : l.index = l.unindex.index := by simp [index, unindex]
  rw [heq]
  exact (indexes_unindex hwf hcrt).index {}

theorem Indexes.resetRiter (h : Indexes l) : Indexes (resetRiter l) :=
  ⟨h.wellFormed, h.rollbackTo, h.objects, h.callerOps, h.extraCallerOps, h.dupIndex⟩

/-- The rollback point moves up, but not past the head. -/
theorem Indexes.advanceCanRollbackTo (h : Indexes l) {upTo : EVersion} (hle : upTo ≤ l.head) :
    Indexes (l.advanceCanRollbackTo upTo).1 :=
  ⟨h.wellFormed.congr rfl rfl rfl, max_le h.rollbackTo hle, h.objects, h.callerOps,
    h.extraCallerOps, h.dupIndex⟩

theorem Indexes.skipUnless (h : Indexes l) (applied : Bool) :
    Indexes (if applied then l else l.skipCanRollbackToToHead) := by
  cases applied with
  | true => exact h
  | false => exact h.advanceCanRollbackTo le_rfl

/-! ## Adding and rewinding -/

variable {l' : IndexedLog O}

/-- The entry takes its place at the end of the log. -/
theorem Indexes.add (h : Indexes l) {applied : Bool} (hrun : l.add e applied = some l') :
    Indexes l' ∧ l'.head = e.version ∧ l'.tail = l.tail ∧ l'.dups = l.dups := by
  unfold IndexedLog.add at hrun
  dsimp only at hrun
  split at hrun
  next hassert =>
    have hlt := hassert.2.1
    rw [some.injEq] at hrun
    have hsingle : WellFormed { l.toPgLog with tail := l.head, log := [e], head := e.version } :=
      ⟨pairwise_singleton _ _, fun f hf => mem_singleton.1 hf ▸ hlt,
        fun f hf => mem_singleton.1 hf ▸ le_rfl, hlt.le⟩
    subst hrun
    refine ⟨Indexes.skipUnless ?_ applied, by cases applied <;> exact ⟨rfl, rfl, rfl⟩⟩
    refine ⟨h.wellFormed.append hsingle le_rfl rfl rfl rfl, h.rollbackTo.trans hlt.le,
      fun (hidx : l.indexed.objects = true) => ?_,
      fun (hidx : l.indexed.callerOps = true) => ?_,
      fun (hidx : l.indexed.extraCallerOps = true) r => ?_, h.dupIndex⟩
    · funext o
      rw [if_pos hidx, h.objects hidx, lastOf_append]
      exact foldl_indexObject_eq [e] _ o
    · funext r
      rw [if_pos hidx, h.callerOps hidx, lastOf_append]
      exact foldl_indexCallerOp [e] _ r
    · have hone := foldl_indexExtraCallerOps [e] r l.extraCallerOps
      rw [foldl_cons, foldl_nil] at hone
      dsimp only
      rw [if_pos hidx, extraCopies_append, hone]
      exact (h.extraCallerOps hidx r).append_right _
  · cases hrun

/-- Appending entries one by one. -/
theorem Indexes.appendLog {bound : EVersion} {l l' : IndexedLog O} (h : Indexes l)
    (hrun : Ceph.Osd.appendLog es l = some l') (hhead : l.head ≤ bound)
    (hes : ∀ e ∈ es, e.version ≤ bound) :
    Indexes l' ∧ l'.head ≤ bound ∧ l'.tail = l.tail ∧ l'.dups = l.dups := by
  induction es generalizing l l' with
  | nil =>
    rw [Ceph.Osd.appendLog, some.injEq] at hrun
    subst hrun
    exact ⟨h, hhead, rfl, rfl⟩
  | cons e _ ih =>
    rw [Ceph.Osd.appendLog] at hrun
    split at hrun
    · cases hrun
    next _ hadd =>
      obtain ⟨h₁, hhead₁, htail, hdups⟩ := h.add hadd
      obtain ⟨h', hbound, htail', hdups'⟩ := ih h₁ hrun
        (hhead₁ ▸ hes e mem_cons_self) fun f hf => hes f (mem_cons_of_mem _ hf)
      exact ⟨h', hbound, htail'.trans htail, hdups'.trans hdups⟩

/-- A rewind to `newhead` compares versions of one history. -/
def Comparable (l : Entries O) (newhead : EVersion) : Prop :=
  ∀ e ∈ l, e.version.version ≤ newhead.version → e.version ≤ newhead

/-- Rewinding rebuilds the indexes. -/
theorem indexes_rewindFromHead (hwf : WellFormed l.toPgLog) {newhead : EVersion}
    {divergent : Entries O} (hnum : Comparable l.log newhead)
    (hrun : l.rewindFromHead newhead = some (l', divergent)) :
    Indexes l' ∧ l'.head = newhead ∧ l'.tail = l.tail ∧ l'.dups = l.dups := by
  unfold rewindFromHead PgLog.rewindFromHead at hrun
  dsimp only at hrun
  split at hrun
  next _ _ hrewind =>
    split at hrewind
    next hassert =>
      obtain ⟨rfl, rfl⟩ := hrewind
      obtain ⟨rfl, rfl⟩ := hrun
      have hpre := rdropWhile_prefix
        (fun e : LogEntry O => decide (newhead.version < e.version.version)) l.log
      -- everything kept is at most the last entry that is kept
      have hkept : ∀ e ∈ l.log.rdropWhile fun e => decide (newhead.version < e.version.version),
          e.version ≤ newhead := by
        intro e he
        have hne := ne_nil_of_mem he
        have hlast := rdropWhile_last_not
          (fun e : LogEntry O => decide (newhead.version < e.version.version)) l.log hne
        simp only [decide_eq_true_eq, not_lt] at hlast
        have hsorted := (hwf.sorted.sublist hpre.sublist).imp LT.lt.le
        exact (hsorted.rel_getLast_of_rel_getLast_getLast he le_rfl).trans
          (hnum _ (hpre.subset (getLast_mem hne)) hlast)
      have hwf' := hwf.sublist hpre.sublist
      exact ⟨(indexes_index ⟨hwf'.sorted, hwf'.afterTail, hkept, hassert.1⟩
        (min_le_right _ _)).resetRiter, rfl, rfl, rfl⟩
    · cases hrewind
  · cases hrun

/-! ## Dropping dup entries -/

/-- No request of a dup entry that is dropped is one of a dup entry that stays. -/
def RequestsApart (dropped kept : List LogDup) : Prop :=
  ∀ d ∈ dropped, ∀ k ∈ kept, d.reqid ≠ k.reqid

theorem dropRequests_apply (ds : List LogDup) (r : ReqId) (m : ReqId → Option LogDup) :
    dropRequests m ds r = if r ∈ ds.map LogDup.reqid then none else m r := by
  induction ds generalizing m with
  | nil => rfl
  | cons d _ ih =>
    refine (ih (update m d.reqid none)).trans ?_
    simp only [update_apply, map_cons, mem_cons, ite_or]
    split_ifs <;> rfl

theorem DupFound.drop {dropped kept : List LogDup} {m : ReqId → Option LogDup}
    (h : ∀ r, DupFound dups r (m r)) (hmem : ∀ d, d ∈ dups ↔ d ∈ dropped ∨ d ∈ kept)
    (hapart : RequestsApart dropped kept) (r : ReqId) :
    DupFound kept r (dropRequests m dropped r) := by
  rw [dropRequests_apply]
  split
  next hin =>
    obtain ⟨d, hd, hr⟩ := mem_map.1 hin
    intro k hk heq
    exact hapart d hd k hk (hr.trans heq.symm)
  next hout =>
    have hr := h r
    cases hfound : m r with
    | none =>
      rw [hfound] at hr
      exact fun k hk => hr k ((hmem k).2 (.inr hk))
    | some d =>
      rw [hfound] at hr
      refine ⟨((hmem d).1 hr.1).resolve_left fun hd => hout ?_, hr.2⟩
      exact mem_map.2 ⟨d, hd, hr.2⟩

/-! ## Trimming -/

section Front

variable {e : LogEntry O} {rest : Entries O}

omit [LinearOrder O] in
theorem foldl_eraseP_perm (hrest : ∀ f ∈ rest, points e f = false) (xs : List (ReqId × Nat))
    (m : ReqId → Entries O) (h : ∀ r, (m r).Perm
      (((xs.filter fun x => decide (x.1 = r)).map fun _ => e) ++ extraCopies rest r)) :
    ∀ r, ((xs.foldl (fun m x => update m x.1 ((m x.1).eraseP (points e))) m) r).Perm
      (extraCopies rest r) := by
  induction xs generalizing m with
  | nil => exact fun r => h r
  | cons x _ ih =>
    refine ih _ fun r => ?_
    dsimp only
    have hr := h r
    cases decEq x.1 r with
    | isFalse hne =>
      rw [update_of_ne (Ne.symm hne)]
      rwa [filter_cons_of_neg (by simp [hne])] at hr
    | isTrue heq =>
      subst heq
      rw [update_self]
      rw [filter_cons_of_pos (by simp), map_cons, cons_append] at hr
      refine eraseP_perm (by simp [IndexedLog.points]) hr fun f hf hpoints => ?_
      have hmem := hr.mem_iff.1 hf
      simp only [List.mem_cons, List.mem_append, List.mem_map] at hmem
      obtain hfe | ⟨_, -, hfe⟩ | hin := hmem
      · exact hfe
      · exact hfe.symm
      · rw [hrest f (mem_extraCopies.1 hin).1] at hpoints
        cases hpoints

/-- The front entry leaves the indexes. -/
theorem Indexes.unindexEntry {l : IndexedLog O} (h : Indexes l) (hlog : l.log = e :: rest) :
    EntriesIndexed (l.unindexEntry e) rest := by
  have hsorted := h.wellFormed.sorted
  rw [hlog, pairwise_cons] at hsorted
  have hself : points e e = true := by simp [IndexedLog.points]
  have hrest : ∀ f ∈ rest, points e f = false := fun f hf => by
    simpa [IndexedLog.points] using (hsorted.1 f hf).ne'
  refine ⟨fun (hidx : l.indexed.objects = true) => ?_,
    fun (hidx : l.indexed.callerOps = true) => ?_,
    fun (hidx : l.indexed.extraCallerOps = true) r => ?_⟩
  · have hdrop := update_none_of_tail objectKey hself hrest fun o ho =>
      (objectKey_eq_some.1 ho).2.symm
    rw [← hlog, ← h.objects hidx] at hdrop
    rw [← hdrop]
    show (if (l.indexed.objects && (l.objects e.soid).any (points e)) = true then _ else _) = _
    rw [hidx, Bool.true_and]
  · have hdrop := update_none_of_tail callerKey hself hrest fun r hr =>
      (callerKey_eq_some.1 hr).2.symm
    rw [← hlog, ← h.callerOps hidx] at hdrop
    show (if (e.reqidIsIndexed && l.indexed.callerOps &&
      (l.callerOps e.reqid).any (points e)) = true then _ else _) = _
    cases hreq : e.reqidIsIndexed with
    | true => rw [← hdrop, hidx, Bool.true_and, Bool.true_and]
    | false =>
      have hkey : callerKey e = none := by simp [callerKey, hreq]
      rw [Bool.false_and, Bool.false_and, if_neg Bool.false_ne_true, h.callerOps hidx, hlog]
      funext r
      rw [lastOf_cons, lastOf_singleton, if_neg (by simp [hkey]), or_none]
  · have hextra := h.extraCallerOps hidx
    rw [hlog] at hextra
    show ((if l.indexed.extraCallerOps = true then _ else _ : ReqId → Entries O) r).Perm _
    rw [if_pos hidx]
    exact foldl_eraseP_perm hrest e.extraReqids l.extraCallerOps hextra r

/-- One round of the first loop of `trim`. -/
theorem Indexes.trimEntry {t : Trimming O} (h : Indexes t.log) (hlog : t.log.log = e :: rest)
    (earliest : Nat) :
    Indexes (trimEntry earliest t e).log ∧
      (trimEntry earliest t e).log.log = rest ∧
      (trimEntry earliest t e).log.dups = t.log.dups ++
        (if earliest ≤ e.version.version then dupsOf e else []) ∧
      (trimEntry earliest t e).log.canRollbackTo = t.log.canRollbackTo := by
  have hentries := h.unindexEntry hlog
  have hwf := h.wellFormed.sublist (tail_sublist _)
  obtain rfl : t.log.log.tail = rest := congrArg List.tail hlog
  unfold trimEntry
  dsimp only
  cases hdup : decide (earliest ≤ e.version.version) with
  | true =>
    rw [if_pos (of_decide_eq_true hdup), foldl_pushDup_eq]
    refine ⟨⟨hwf.congr rfl rfl rfl, h.rollbackTo, hentries.objects, hentries.callerOps,
      hentries.extraCallerOps, fun (hidx : t.log.indexed.dups = true) r => ?_⟩, rfl, rfl, rfl⟩
    show DupFound (t.log.dups ++ dupsOf e) r
      ((if t.log.indexed.dups then (dupsOf e).foldl indexDup t.log.dupIndex else t.log.dupIndex) r)
    rw [if_pos hidx, foldl_indexDup]
    exact (h.dupIndex hidx r).enter fun d => mem_append
  | false =>
    rw [if_neg (of_decide_eq_false hdup), append_nil]
    exact ⟨⟨hwf.congr rfl rfl rfl, h.rollbackTo, hentries.objects, hentries.callerOps,
      hentries.extraCallerOps, h.dupIndex⟩, rfl, rfl, rfl⟩

/-- The first loop of `trim`. -/
theorem Indexes.trimEntries (s : EVersion) (earliest : Nat) (es : Entries O) (t : Trimming O)
    (h : Indexes t.log) (hlog : t.log.log = es) : Indexes (trimEntries s earliest es t).log ∧
      (∀ f ∈ (trimEntries s earliest es t).log.log, s < f.version) ∧
      (trimEntries s earliest es t).log.dups = t.log.dups ++
        ((es.takeWhile fun e => decide (e.version ≤ s)).filter fun e =>
          decide (earliest ≤ e.version.version)).flatMap dupsOf ∧
      (trimEntries s earliest es t).log.canRollbackTo = t.log.canRollbackTo := by
  induction es generalizing t with
  | nil =>
    refine ⟨h, fun f hf => ?_, (append_nil _).symm, rfl⟩
    rw [IndexedLog.trimEntries, hlog] at hf
    cases hf
  | cons _ _ ih =>
    unfold IndexedLog.trimEntries
    split
    next hlt =>
      refine ⟨h, fun f hf => ?_, ?_, rfl⟩
      · have hsorted := h.wellFormed.sorted
        rw [hlog, pairwise_cons] at hsorted
        rw [hlog] at hf
        obtain heq | hin := mem_cons.1 hf
        · exact heq ▸ hlt
        · exact hlt.trans (hsorted.1 f hin)
      · rw [takeWhile_cons_of_neg (by simpa using hlt)]
        exact (append_nil _).symm
    next hle =>
      obtain ⟨h₁, hlog₁, hdups₁, hcrt₁⟩ := h.trimEntry hlog earliest
      obtain ⟨h', hafter, hdups', hcrt'⟩ := ih _ h₁ hlog₁
      refine ⟨h', hafter, ?_, hcrt'.trans hcrt₁⟩
      rw [hdups', hdups₁, takeWhile_cons_of_pos (by simpa using hle), append_assoc]
      congr 1
      split
      next hdup => rw [filter_cons_of_pos (by simpa using hdup), flatMap_cons]
      next hdup => rw [filter_cons_of_neg (by simpa using hdup), nil_append]

end Front

/-- The bound below which `trim` drops dup entries. -/
def dupBound (dupsTracked : Nat) (l : PgLog O) : Nat :=
  (l.log.getLast?.map fun e => earliestDupVersion dupsTracked e.version.version).getD 0

/-- The dup entries that `trim` has before it drops the oldest. -/
def dupsBeforeDrop (dupsTracked : Nat) (s : EVersion) (l : PgLog O) : List LogDup :=
  l.dups ++ ((l.log.takeWhile fun e => decide (e.version ≤ s)).filter fun e =>
    decide (dupBound dupsTracked l ≤ e.version.version)).flatMap dupsOf

/-- The dup entries that `trim` drops share no request with those that stay. -/
def TrimApart (dupsTracked : Nat) (s : EVersion) (l : PgLog O) : Prop :=
  RequestsApart
    ((dupsBeforeDrop dupsTracked s l).takeWhile fun d =>
      decide (d.version.version < dupBound dupsTracked l))
    ((dupsBeforeDrop dupsTracked s l).dropWhile fun d =>
      decide (d.version.version < dupBound dupsTracked l))

theorem Indexes.trim {dupsTracked : Nat} {s : EVersion} {t t' : Trimming O} (h : Indexes t.log)
    (hapart : TrimApart dupsTracked s t.log.toPgLog)
    (hrun : trim dupsTracked s t = some t') : Indexes t'.log := by
  unfold IndexedLog.trim at hrun
  split at hrun
  · cases hrun
  next hs =>
    split at hrun
    · cases hrun
    next newest hlast =>
      rw [some.injEq] at hrun
      have hbound : dupBound dupsTracked t.log.toPgLog =
          earliestDupVersion dupsTracked newest.version.version := by
        rw [dupBound, hlast]
        rfl
      unfold TrimApart dupsBeforeDrop at hapart
      rw [hbound] at hapart
      obtain ⟨h₁, hafter, hdups, hcrt⟩ := Indexes.trimEntries s
        (earliestDupVersion dupsTracked newest.version.version) t.log.log t h rfl
      rw [← hdups] at hapart
      subst hrun
      rw [trimDups_log _ _ _ rfl]
      refine ⟨⟨h₁.wellFormed.sorted, fun f hf => ?_, h₁.wellFormed.uptoHead, ?_⟩, h₁.rollbackTo,
        h₁.objects, h₁.callerOps, h₁.extraCallerOps, fun (hidx : Indexed.dups _ = true) r => ?_⟩
      · exact max_lt (h₁.wellFormed.afterTail f hf) (hafter f hf)
      · refine max_le h₁.wellFormed.tailHead ?_
        exact (not_lt.1 hs).trans ((hcrt ▸ h₁.rollbackTo))
      · rw [if_pos hidx]
        refine DupFound.drop (h₁.dupIndex hidx) (fun d => ?_) hapart r
        rw [← mem_append, takeWhile_append_dropWhile]

/-! ## Extending the tail -/

/-- Entries in front of the log come after what the index has. -/
theorem foldl_olderObject {m : O → Option (LogEntry O)}
    (hsorted : es.Pairwise fun e f => e.version < f.version)
    (holder : ∀ o f, m o = some f → ∀ e ∈ es, e.version ≤ f.version) (o : O) :
    es.foldl olderObject m o = (m o).or (lastOf objectKey es o) := by
  induction es using List.reverseRecOn generalizing o with
  | nil => exact (or_none ..).symm
  | append_singleton es e ih =>
    rw [pairwise_append] at hsorted
    have hes := ih hsorted.1 fun o f hf d hd => holder o f hf d (mem_append_left _ hd)
    rw [foldl_append, foldl_cons, foldl_nil, lastOf_append]
    have hadd := foldl_indexObject_eq [e] (es.foldl olderObject m) o
    rw [foldl_cons, foldl_nil] at hadd
    cases hlast : lastOf objectKey [e] o with
    | none =>
      rw [none_or, ← hes o, olderObject]
      rw [hlast] at hadd
      split
      · exact hadd
      · rfl
    | some g =>
      obtain ⟨hg, hkey⟩ := mem_of_lastOf hlast
      rw [mem_singleton] at hg
      subst hg
      have ho : g.soid = o := (objectKey_eq_some.1 hkey).2
      rw [hlast, some_or] at hadd
      rw [some_or, olderObject, ho, hes o]
      cases hm : m o with
      | some f =>
        -- the index has a newer entry
        have hle := holder o f hm g (mem_append_right _ (mem_singleton_self g))
        rw [some_or, some_or, if_neg (by simpa using hle), hes o, hm, some_or]
      | none =>
        rw [none_or, none_or, if_pos, hadd]
        rw [Option.all_eq_true]
        intro f hf
        exact decide_eq_true (hsorted.2.2 f (mem_of_lastOf hf).1 g (mem_singleton_self g))

section Tail

variable {s : PGLog O} {olog : PgLog O}

/-- No entry that is spliced in front has an indexed request that the log has too. -/
def TailApart (log : IndexedLog O) (olog : PgLog O) : Prop :=
  olog.tail < log.tail → ∀ e ∈ PGLog.tailEntries log olog, ∀ f ∈ log.log,
    callerKey e ≠ none → callerKey e ≠ callerKey f

/-- The first part of `merge_log`. -/
theorem Indexes.extendTail (h : Indexes s.log) (holog : WellFormed olog)
    (hapart : TailApart s.log olog) (info : PgInfo O) :
    ∃ s₁ olog₁ info₁, s.extendTail olog info = (s₁, olog₁, info₁) ∧ Indexes s₁.log ∧
      s₁.log.tail = min s.log.tail olog.tail ∧ s₁.log.head = s.log.head ∧
      s₁.log.dups = s.log.dups ∧ (∀ e ∈ olog₁.log, e ∈ olog.log) ∧ olog₁.tail = olog.tail ∧
      olog₁.head = olog.head ∧ olog₁.dups = olog.dups := by
  unfold PGLog.extendTail
  split
  next hlt =>
    have hpre : tailEntries s.log olog <+: olog.log := takeWhile_prefix _
    have hupto : ∀ e ∈ tailEntries s.log olog, e.version ≤ s.log.tail := fun e he => by
      simpa using mem_takeWhile_imp he
    have hsorted : (tailEntries s.log olog).Pairwise fun e f => e.version < f.version :=
      holog.sorted.sublist hpre.sublist
    have hfront : WellFormed { olog with log := tailEntries s.log olog, head := s.log.tail } :=
      ⟨hsorted, fun e he => holog.afterTail e (hpre.subset he), hupto, hlt.le⟩
    dsimp only
    rw [foldl_indexEntry_eq]
    refine ⟨_, _, _, rfl, ⟨hfront.append h.wellFormed le_rfl rfl rfl rfl, h.rollbackTo,
      fun (hidx : s.log.indexed.objects = true) => ?_,
      fun (hidx : s.log.indexed.callerOps = true) => ?_,
      fun (hidx : s.log.indexed.extraCallerOps = true) r => ?_, h.dupIndex⟩,
      (min_eq_right hlt.le).symm, rfl, rfl, fun e he => mem_of_mem_drop he, rfl, rfl, rfl⟩ <;>
      dsimp only <;> rw [if_pos hidx]
    · funext o
      rw [lastOf_append, ← h.objects hidx]
      refine foldl_olderObject hsorted (fun o f hf e he => ?_) o
      rw [h.objects hidx] at hf
      exact ((hupto e he).trans_lt (h.wellFormed.afterTail f (mem_of_lastOf hf).1)).le
    · funext r
      rw [foldl_indexCallerOp, h.callerOps hidx, lastOf_append]
      cases htail : lastOf callerKey (tailEntries s.log olog) r with
      | none => rw [none_or, or_none]
      | some e =>
        obtain ⟨he, hkey⟩ := mem_of_lastOf htail
        have hnone : lastOf callerKey s.log.log r = none := by
          rw [lastOf_eq_none_iff]
          intro f hf hfkey
          exact hapart hlt e he f hf (by simp [hkey]) (hkey.trans hfkey.symm)
        rw [hnone, some_or, none_or]
    · rw [foldl_indexExtraCallerOps, extraCopies_append]
      exact ((h.extraCallerOps hidx r).append_right _).trans perm_append_comm
  next hle =>
    exact ⟨s, olog, info, rfl, h, (min_eq_left (not_lt.1 hle)).symm, rfl, rfl, fun _ he => he,
      rfl, rfl, rfl⟩

end Tail

/-! ## Merging dup entries -/

/-- The dup entries of a shard together with those that another has beyond them. -/
def mergedDups (dups odups : List LogDup) : List LogDup :=
  match dups.head?, dups.getLast? with
  | some front, some back =>
    (odups.takeWhile fun d => decide (d.version < front.version)) ++
      (dups ++ odups.rtakeWhile fun d => decide (back.version < d.version))
  | _, _ => dups ++ odups

/-- More dup entries, entered in any order. -/
theorem Indexes.enterDups (h : Indexes l) {ds : List LogDup}
    (hmem : ∀ d, d ∈ dups ↔ d ∈ l.dups ∨ d ∈ ds) :
    Indexes (ds.foldl indexDupEntry { l with dups := dups }) := by
  rw [foldl_indexDupEntry_eq]
  refine h.withDups fun hidx r => ?_
  rw [if_pos hidx, foldl_indexDup]
  exact (h.dupIndex hidx r).enter hmem

theorem Indexes.extendDups {s : PGLog O} (h : Indexes s.log) (olog : PgLog O) :
    Indexes (s.extendDups olog).log ∧
      (s.extendDups olog).log.dups = mergedDups s.log.dups olog.dups ∧
      (s.extendDups olog).log.tail = s.log.tail := by
  cases hfront : s.log.dups.head? with
  | some =>
    have hne : s.log.dups ≠ [] := fun hnil => by rw [hnil] at hfront; cases hfront
    have hback := getLast?_eq_some_getLast hne
    rw [mergedDups, hfront, hback, (s.extendDups_log olog hfront hback rfl rfl rfl).2]
    dsimp only
    generalize olog.dups.rtakeWhile _ = newer
    -- the newer entries, then the older ones
    have hnewer : Indexes (newer.reverse.foldl indexDupEntry
        { s.log with dups := s.log.dups ++ newer }) :=
      h.enterDups fun d => by rw [mem_append, mem_reverse]
    refine ⟨hnewer.enterDups fun d => mem_append.trans or_comm, ?_, ?_⟩
    · rw [foldl_indexDupEntry_eq, foldl_indexDupEntry_eq]
    · rw [foldl_indexDupEntry_eq, foldl_indexDupEntry_eq]
  | none =>
    have hnil : s.log.dups = [] := head?_eq_none_iff.1 hfront
    have hmerged : mergedDups s.log.dups olog.dups = olog.dups := by
      rw [hnil]
      exact nil_append _
    rw [hmerged, (s.extendDups_log_of_nil olog hnil).2, foldl_pushDup_eq]
    have hentered : Indexes (olog.dups.foldl indexDupEntry
        { s.log with dups := s.log.dups ++ olog.dups }) := h.enterDups fun d => mem_append
    rw [foldl_indexDupEntry_eq] at hentered
    refine ⟨hentered, ?_, rfl⟩
    rw [hnil, nil_append]

/-- Dropping dup entries from the back. -/
theorem foldl_dropDup_log {kept : List LogDup} (ds : List LogDup) (s : PGLog O)
    (hdups : s.log.dups = kept ++ ds) : (ds.reverse.foldl dropDup s).log =
      { s.log with
        dups := kept
        dupIndex := if s.log.indexed.dups then dropRequests s.log.dupIndex ds.reverse
          else s.log.dupIndex } := by
  induction ds using List.reverseRecOn generalizing s with
  | nil =>
    rw [append_nil] at hdups
    rw [← hdups]
    simp [dropRequests]
  | append_singleton ds d ih =>
    have hlast : (s.dropDup d).log.dups = kept ++ ds := by
      show s.log.dups.dropLast = kept ++ ds
      rw [hdups, ← append_assoc, dropLast_concat]
    rw [reverse_append, reverse_singleton, singleton_append, foldl_cons, ih _ hlast]
    cases hidx : s.log.indexed.dups <;>
      simp [dropDup, markDirtyFromDups, unindexDupEntry, dropRequests, hidx]

/-- The dup entries that `merge_log_dups` drops share no request with those that stay. -/
def MergeApart (tail : EVersion) (dups odups : List LogDup) : Prop :=
  RequestsApart ((mergedDups dups odups).rtakeWhile fun d => decide (tail < d.version))
    ((mergedDups dups odups).rdropWhile fun d => decide (tail < d.version))

theorem Indexes.mergeLogDups {s : PGLog O} (h : Indexes s.log) {olog : PgLog O}
    (hapart : MergeApart s.log.tail s.log.dups olog.dups) : Indexes (s.mergeLogDups olog).log := by
  obtain ⟨h₁, hdups, htail⟩ := h.extendDups olog
  unfold PGLog.mergeLogDups
  dsimp only
  rw [htail, hdups, foldl_dropDup_log
    ((mergedDups s.log.dups olog.dups).rtakeWhile fun d => decide (s.log.tail < d.version)) _
    (hdups.trans (rdropWhile_append_rtakeWhile ..).symm)]
  refine h₁.withDups fun hidx r => ?_
  rw [if_pos hidx]
  refine DupFound.drop (h₁.dupIndex hidx) (fun d => ?_) (fun d hd k hk => ?_) r
  · rw [hdups, mem_reverse, or_comm, ← mem_append, rdropWhile_append_rtakeWhile]
  · exact hapart d (mem_reverse.1 hd) k hk

/-! ## Merging logs -/

/-- The version to which `merge_log` rewinds. -/
def mergePoint (s : PGLog O) (olog : PgLog O) (info : PgInfo O) : EVersion :=
  if olog.head < s.log.head then olog.head
  else PGLog.lowerBound s.log.head s.log.tail (s.extendTail olog info).2.1

/-- The other log is one that `merge_log` takes, and the indexes survive. -/
structure Mergeable (s : PGLog O) (olog : PgLog O) (info : PgInfo O) : Prop where
  wellFormed : WellFormed olog
  comparable : Comparable (s.extendTail olog info).1.log.log (mergePoint s olog info)
  tailApart : TailApart s.log olog
  mergeApart : MergeApart (min s.log.tail olog.tail) s.log.dups olog.dups

section Merge

variable {s s' : PGLog O} {olog : PgLog O} {info info' : PgInfo O} {calls : List (Call O)}

theorem indexes_rewindDivergentLog (hwf : WellFormed s.log.toPgLog) {newhead : EVersion}
    (hnum : Comparable s.log.log newhead)
    (hrun : s.rewindDivergentLog newhead info = some (s', info', calls)) :
    Indexes s'.log ∧ s'.log.tail = s.log.tail ∧ s'.log.dups = s.log.dups := by
  unfold rewindDivergentLog at hrun
  split at hrun
  · cases hrun
  next _ _ hrewind =>
    obtain ⟨h, -, htail, hdups⟩ := indexes_rewindFromHead hwf hnum hrewind
    obtain ⟨_, -, heq⟩ := map_eq_some_iff.1 hrun
    simp only [Prod.mk.injEq] at heq
    rw [← heq.1]
    exact ⟨h, htail, hdups⟩

theorem indexes_extendHead (hwf : WellFormed s.log.toPgLog) {origTail : EVersion}
    (hnum : Comparable s.log.log (lowerBound s.log.head origTail olog))
    (huptoHead : ∀ e ∈ olog.log, e.version ≤ olog.head) (htail : olog.tail ≤ olog.head)
    (horig : origTail ≤ olog.head)
    (hrun : s.extendHead origTail olog info = some (s', info', calls)) :
    Indexes s'.log ∧ s'.log.tail = s.log.tail ∧ s'.log.dups = s.log.dups := by
  have hbound : lowerBound s.log.head origTail olog ≤ olog.head := by
    unfold lowerBound
    split
    next e he =>
      refine max_le (max_le htail horig) (huptoHead e ?_)
      exact rdropWhile_prefix _ _ |>.subset (mem_of_getLast? he)
    · exact max_le htail horig
  have hentries : ∀ e ∈ headEntries s.log.head olog, e.version ≤ olog.head := fun e he =>
    huptoHead e ((rtakeWhile_suffix _ _).subset he)
  unfold extendHead at hrun
  dsimp only at hrun
  split at hrun
  · cases hrun
  next _ _ hrewind =>
    obtain ⟨h₁, hhead₁, htail₁, hdups₁⟩ := indexes_rewindFromHead hwf hnum hrewind
    split at hrun
    · cases hrun
    next _ _ _ happend =>
      obtain ⟨_, hlog₃, heq⟩ := map_eq_some_iff.1 happend
      simp only [Prod.mk.injEq] at heq
      obtain ⟨rfl, -⟩ := heq
      obtain ⟨h₃, hhead₃, htail₃, hdups₃⟩ :=
        (h₁.advanceCanRollbackTo le_rfl).appendLog hlog₃ (hhead₁.trans_le hbound) hentries
      split at hrun
      · cases hrun
      · obtain ⟨rfl, -⟩ := Prod.mk.inj (some.inj hrun)
        refine ⟨⟨⟨h₃.wellFormed.sorted, h₃.wellFormed.afterTail, fun e he => ?_, ?_⟩, ?_,
          h₃.objects, h₃.callerOps, h₃.extraCallerOps, h₃.dupIndex⟩, htail₃.trans htail₁,
          hdups₃.trans hdups₁⟩
        · exact (h₃.wellFormed.uptoHead e he).trans hhead₃
        · exact h₃.wellFormed.tailHead.trans hhead₃
        · exact max_le (h₃.rollbackTo.trans hhead₃) le_rfl

theorem Indexes.mergeLog (h : Indexes s.log) (hmerge : Mergeable s olog info)
    (hrun : s.mergeLog olog info = some (s', info', calls)) : Indexes s'.log := by
  obtain ⟨s₁, olog₁, info₁, hext, h₁, htail₁, hhead₁, hdups₁, hmem₁, hotail₁, hohead₁, hodups₁⟩ :=
    h.extendTail hmerge.wellFormed hmerge.tailApart info
  have hcomparable := hmerge.comparable
  rw [mergePoint, hext] at hcomparable
  unfold PGLog.mergeLog at hrun
  split at hrun
  next hassert =>
    rw [hext] at hrun
    dsimp only at hrun hcomparable
    rw [hhead₁, hohead₁] at hrun
    cases hstep : (if olog.head < s.log.head then s₁.rewindDivergentLog olog.head info₁
        else if s.log.head < olog.head then s₁.extendHead s.log.tail olog₁ info₁
        else some (s₁, info₁, [])) with
    | none =>
      rw [hstep] at hrun
      cases hrun
    | some r =>
      rw [hstep, map_some, some.injEq] at hrun
      obtain ⟨s₂, _, _⟩ := r
      simp only [Prod.mk.injEq] at hrun
      rw [← hrun.1]
      have hmerged : Indexes s₂.log ∧ s₂.log.tail = s₁.log.tail ∧
          s₂.log.dups = s₁.log.dups := by
        split at hstep
        next hlt =>
          rw [if_pos hlt] at hcomparable
          exact indexes_rewindDivergentLog h₁.wellFormed hcomparable hstep
        next hnot =>
          rw [if_neg hnot] at hcomparable
          split at hstep
          · refine indexes_extendHead h₁.wellFormed ?_ (fun e he => ?_) ?_ ?_ hstep
            · rw [hhead₁]
              exact hcomparable
            · rw [hohead₁]
              exact hmerge.wellFormed.uptoHead e (hmem₁ e he)
            · rw [hotail₁, hohead₁]
              exact hmerge.wellFormed.tailHead
            · rw [hohead₁]
              exact hassert.2.2
          · simp only [some.injEq, Prod.mk.injEq] at hstep
            rw [← hstep.1]
            exact ⟨h₁, rfl, rfl⟩
      obtain ⟨h₂, htail₂, hdups₂⟩ := hmerged
      refine h₂.mergeLogDups ?_
      rw [htail₂, hdups₂, htail₁, hdups₁, hodups₁]
      exact hmerge.mergeApart
  · cases hrun

end Merge

theorem indexes_splitOutChild (h : Indexes l) (inChild : O → Bool) :
    Indexes (l.splitOutChild inChild).1 ∧ Indexes (l.splitOutChild inChild).2 := by
  have hwf : ∀ p : O → Bool, WellFormed { l.toPgLog with log := l.log.filter fun e => p e.soid } :=
    fun p => h.wellFormed.sublist filter_sublist
  refine ⟨(indexes_index ?_ ?_).resetRiter, (indexes_index ?_ ?_).index {}⟩
  · exact hwf fun o => !inChild o
  · exact h.rollbackTo
  · exact hwf inChild
  · exact h.rollbackTo

/-! ## Looking up -/

/-- Some entry or dup entry of the log answers the request. -/
def Present (l : PgLog O) (r : ReqId) : Prop :=
  (∃ e ∈ l.log, e.reqidIsIndexed = true ∧ e.reqid = r) ∨
    (∃ e ∈ l.log, ∃ x ∈ e.extraReqids, x.1 = r) ∨ ∃ d ∈ l.dups, d.reqid = r

/-- The entry is the newest of its object that is not an error. -/
def NewestOf (l : PgLog O) (o : O) (e : LogEntry O) : Prop :=
  e ∈ l.log ∧ e.isError = false ∧ e.soid = o ∧
    ∀ f ∈ l.log, f.isError = false → f.soid = o → f.version ≤ e.version

omit [LinearOrder O] in
/-- There is a reply for an extra request that an entry has. -/
theorem extraReply_isSome (h : ∃ x ∈ e.extraReqids, x.1 = r) :
    ∃ reply, extraReply e r = some reply := by
  obtain ⟨x, hx, hr⟩ := h
  obtain ⟨i, hi⟩ := mem_iff_getElem?.1 hx
  have hfind : (e.extraReqids.zipIdx.find? fun y => y.1.1 == r).isSome := by
    rw [find?_isSome]
    exact ⟨(x, i), by rw [mem_zipIdx_iff_getElem?]; simpa using hi, by simp [hr]⟩
  obtain ⟨y, hy⟩ := isSome_iff_exists.1 hfind
  exact ⟨_, by rw [extraReply, hy, map_some]⟩

section Lookup

variable {l : IndexedLog O}

/-- Building an index on demand leaves the log alone, and the index is built. -/
theorem Indexes.ensure (h : Indexes l) (flag : Indexed → Bool) (only : Indexed)
    (hflag : flag (l.index only).indexed = true) :
    Indexes (l.ensure (flag l.indexed) only) ∧
      (l.ensure (flag l.indexed) only).toPgLog = l.toPgLog ∧
      flag (l.ensure (flag l.indexed) only).indexed = true := by
  cases hbuilt : flag l.indexed with
  | true => exact ⟨h, rfl, hbuilt⟩
  | false => exact ⟨h.index only, rfl, hflag⟩

theorem Indexes.getRequest (h : Indexes l) (r : ReqId) :
    ∃ l' reply, l.getRequest r = some (l', reply) ∧
      (reply.isSome = true ↔ Present l.toPgLog r) := by
  unfold IndexedLog.getRequest
  dsimp only
  obtain ⟨h₁, hp₁, hidx₁⟩ := h.ensure Indexed.callerOps indexCallerOpsOnly
    (by simp [IndexedLog.index, indexCallerOpsOnly])
  generalize l.ensure l.indexed.callerOps indexCallerOpsOnly = l₁ at *
  have hfound₁ := h₁.callerOps hidx₁
  cases hcall : l₁.callerOps r with
  | some e =>
    refine ⟨_, _, rfl, iff_of_true rfl (.inl ?_)⟩
    obtain ⟨he, hkey⟩ := mem_of_lastOf (hfound₁ ▸ hcall)
    exact ⟨e, hp₁ ▸ he, callerKey_eq_some.1 hkey⟩
  | none =>
    have hnone₁ : ∀ e ∈ l.log, callerKey e ≠ some r := by
      rw [hfound₁, lastOf_eq_none_iff] at hcall
      exact fun e he => hcall e (hp₁ ▸ he)
    obtain ⟨h₂, hp₂, hidx₂⟩ := h₁.ensure Indexed.extraCallerOps indexExtraCallerOpsOnly
      (by simp [IndexedLog.index, indexExtraCallerOpsOnly])
    generalize l₁.ensure l₁.indexed.extraCallerOps indexExtraCallerOpsOnly = l₂ at *
    have hperm := h₂.extraCallerOps hidx₂ r
    rw [hp₂, hp₁] at hperm
    cases hextra : l₂.extraCallerOps r with
    | cons e =>
      rw [hextra] at hperm
      obtain ⟨he, hx⟩ := mem_extraCopies.1 (hperm.mem_iff.1 mem_cons_self)
      obtain ⟨reply, hreply⟩ := extraReply_isSome hx
      dsimp only
      rw [hreply]
      exact ⟨_, _, rfl, iff_of_true rfl (.inr (.inl ⟨e, he, hx⟩))⟩
    | nil =>
      have hnone₂ : ∀ e ∈ l.log, ¬ ∃ x ∈ e.extraReqids, x.1 = r := by
        intro e he hx
        rw [hextra] at hperm
        have hmem := hperm.mem_iff.2 (mem_extraCopies.2 ⟨he, hx⟩)
        cases hmem
      obtain ⟨h₃, hp₃, hidx₃⟩ := h₂.ensure Indexed.dups indexDupsOnly
        (by simp [IndexedLog.index, indexDupsOnly])
      generalize l₂.ensure l₂.indexed.dups indexDupsOnly = l₃ at *
      have hdup := h₃.dupIndex hidx₃ r
      rw [hp₃, hp₂, hp₁] at hdup
      refine ⟨_, _, rfl, ?_⟩
      cases hd : l₃.dupIndex r with
      | some d =>
        rw [hd] at hdup
        exact iff_of_true rfl (.inr (.inr ⟨d, hdup⟩))
      | none =>
        rw [hd] at hdup
        refine iff_of_false nofun ?_
        rintro (⟨e, he, hkey⟩ | ⟨e, he, hx⟩ | ⟨d, hd', hr⟩)
        · exact hnone₁ e he (callerKey_eq_some.2 hkey)
        · exact hnone₂ e he hx
        · exact hdup d hd' hr

theorem Indexes.loggedObject (h : Indexes l) (o : O) :
    ((l.loggedObject o).2 = true ↔ ∃ e, NewestOf l.toPgLog o e) ∧
      ∀ e, (l.loggedObject o).1.objects o = some e ↔ NewestOf l.toPgLog o e := by
  unfold IndexedLog.loggedObject
  obtain ⟨h₁, hp₁, hidx₁⟩ := h.ensure Indexed.objects indexObjectsOnly
    (by simp [IndexedLog.index, indexObjectsOnly])
  generalize l.ensure l.indexed.objects indexObjectsOnly = l₁ at *
  have hiff : ∀ e, l₁.objects o = some e ↔ NewestOf l.toPgLog o e := by
    intro e
    rw [h₁.objects hidx₁, hp₁]
    constructor
    · intro hlast
      obtain ⟨he, hkey⟩ := mem_of_lastOf hlast
      refine ⟨he, (objectKey_eq_some.1 hkey).1, (objectKey_eq_some.1 hkey).2,
        fun f hf herr hsoid => ?_⟩
      cases lastOf_greatest h.wellFormed.sorted hlast f hf (objectKey_eq_some.2 ⟨herr, hsoid⟩) with
      | inl heq => exact heq ▸ le_rfl
      | inr hlt => exact hlt.le
    · rintro ⟨he, herr, hsoid, hnewest⟩
      cases hlast : lastOf objectKey l.log o with
      | none =>
        rw [lastOf_eq_none_iff] at hlast
        exact absurd (objectKey_eq_some.2 ⟨herr, hsoid⟩) (hlast e he)
      | some g =>
        obtain ⟨hg, hkey⟩ := mem_of_lastOf hlast
        obtain ⟨hgerr, hgsoid⟩ := objectKey_eq_some.1 hkey
        cases lastOf_greatest h.wellFormed.sorted hlast e he
          (objectKey_eq_some.2 ⟨herr, hsoid⟩) with
        | inl heq => rw [heq]
        | inr hlt => exact absurd (hnewest g hg hgerr hgsoid) hlt.not_ge
  exact ⟨by rw [isSome_iff_exists]; exact exists_congr hiff, hiff⟩

end Lookup

/-! ## Runs -/

/-- The operations on an indexed log.  A rewind compares versions of one history, and
where dup entries are dropped or a tail is taken over the requests are apart. -/
inductive IndexStep : IndexedLog O → IndexedLog O → Prop where
  | add {l l' : IndexedLog O} {e : LogEntry O} {applied : Bool}
      (hrun : l.add e applied = some l') : IndexStep l l'
  | trim {dupsTracked : Nat} {s : EVersion} {t t' : Trimming O}
      (hapart : TrimApart dupsTracked s t.log.toPgLog)
      (hrun : trim dupsTracked s t = some t') : IndexStep t.log t'.log
  | rewindFromHead {l l' : IndexedLog O} {newhead : EVersion} {divergent : Entries O}
      (hnum : Comparable l.log newhead)
      (hrun : l.rewindFromHead newhead = some (l', divergent)) : IndexStep l l'
  | mergeLog {s s' : PGLog O} {olog : PgLog O} {info info' : PgInfo O} {calls : List (Call O)}
      (hmerge : Mergeable s olog info)
      (hrun : s.mergeLog olog info = some (s', info', calls)) : IndexStep s.log s'.log
  | splitStays {l : IndexedLog O} (inChild : O → Bool) : IndexStep l (l.splitOutChild inChild).1
  | splitMoves {l : IndexedLog O} (inChild : O → Bool) : IndexStep l (l.splitOutChild inChild).2
  | index {l : IndexedLog O} (toIndex : Indexed) : IndexStep l (l.index toIndex)

theorem IndexStep.indexes (hstep : IndexStep l l') (h : Indexes l) : Indexes l' := by
  cases hstep with
  | add hrun => exact (h.add hrun).1
  | trim hapart hrun => exact h.trim hapart hrun
  | rewindFromHead hnum hrun => exact (indexes_rewindFromHead h.wellFormed hnum hrun).1
  | mergeLog hmerge hrun => exact h.mergeLog hmerge hrun
  | splitStays inChild => exact (indexes_splitOutChild h inChild).1
  | splitMoves inChild => exact (indexes_splitOutChild h inChild).2
  | index toIndex => exact h.index toIndex

/-- Along every run of such operations a lookup answers as it would with freshly built
indexes: a request is found exactly if an entry or a dup entry has it, and the index by
object names the newest entry that is not an error. -/
theorem lookups_of_run {l l' : IndexedLog O} (h : Indexes l)
    (hrun : Relation.ReflTransGen IndexStep l l') :
    (∀ r, ∃ l₁ l₂ reply fresh, l'.getRequest r = some (l₁, reply) ∧
        l'.unindex.index.getRequest r = some (l₂, fresh) ∧
        (reply.isSome = true ↔ Present l'.toPgLog r) ∧ reply.isSome = fresh.isSome) ∧
      ∀ o, ((l'.loggedObject o).2 = true ↔ ∃ e, NewestOf l'.toPgLog o e) ∧
        (∀ e, (l'.loggedObject o).1.objects o = some e ↔ NewestOf l'.toPgLog o e) ∧
        (l'.loggedObject o).1.objects o = l'.unindex.index.objects o := by
  have h' : Indexes l' := by
    induction hrun with
    | refl => exact h
    | tail _ hstep ih => exact hstep.indexes ih
  have hfresh : Indexes l'.unindex.index := (indexes_unindex h'.wellFormed h'.rollbackTo).index {}
  refine ⟨fun r => ?_, fun o => ?_⟩
  · obtain ⟨l₁, reply, hget, hreply⟩ := h'.getRequest r
    obtain ⟨l₂, fresh, hget', hfresh'⟩ := hfresh.getRequest r
    exact ⟨l₁, l₂, reply, fresh, hget, hget', hreply, Bool.eq_iff_iff.2 (hreply.trans hfresh'.symm)⟩
  · obtain ⟨hlogged, hobjects⟩ := h'.loggedObject o
    refine ⟨hlogged, hobjects, Option.ext fun e => ?_⟩
    exact (hobjects e).trans ((hfresh.loggedObject o).2 e).symm

namespace Retried

/-- A request that is retried. -/
def request : ReqId := ⟨8, 1, 7, 0⟩

def modifyAt (v : EVersion) (r : ReqId) : LogEntry Nat :=
  ⟨.modify, 1, v, 0, r, [], [], 0, 0, [], false⟩

/-- A log with two dup entries for the request. -/
def doubled : PgLog Nat :=
  ⟨⟨1, 9⟩, ⟨1, 8⟩, ⟨1, 9⟩, ⟨1, 9⟩, [modifyAt ⟨1, 9⟩ {}],
    [⟨request, ⟨1, 1⟩, 0, 0, []⟩, ⟨request, ⟨1, 5⟩, 0, 0, []⟩]⟩

/-- A shard whose only entry has the request. -/
def shard : PGLog Nat :=
  { log := ofPgLog
      ⟨⟨1, 4⟩, ⟨1, 2⟩, ⟨1, 4⟩, ⟨1, 4⟩, [modifyAt ⟨1, 4⟩ request], []⟩ }

/-- The same log before it was trimmed: the request occurs twice. -/
def untrimmed : PgLog Nat :=
  ⟨⟨1, 4⟩, 0, ⟨1, 4⟩, ⟨1, 4⟩, [modifyAt ⟨1, 1⟩ request, modifyAt ⟨1, 4⟩ request], []⟩

def info : PgInfo Nat := ⟨⟨1, 4⟩, ⟨1, 4⟩, ⟨1, 2⟩, 3⟩

end Retried

open Retried

/-- The older of two entries with the request becomes a dup entry, another entry is added, and the
log is rewound to the entries before. -/
theorem lookups_of_run_retried :
    Indexes (ofPgLog untrimmed) ∧
      ∃ t l l' divergent, trim 7 ⟨1, 1⟩ ⟨ofPgLog untrimmed, [], [], ⟨1, 1⟩⟩ = some t ∧
        t.log.add (modifyAt ⟨1, 5⟩ {}) = some l ∧
        l.rewindFromHead ⟨1, 4⟩ = some (l', divergent) ∧ l'.dups.length = 1 ∧
        ∀ r, ∃ l₁ reply, l'.getRequest r = some (l₁, reply) ∧
          (reply.isSome = true ↔ Present l'.toPgLog r) := by
  have h : Indexes (ofPgLog untrimmed) := indexes_index (by constructor <;> decide) (by decide)
  have hrun : ((trim 7 ⟨1, 1⟩ ⟨ofPgLog untrimmed, [], [], ⟨1, 1⟩⟩).bind fun t =>
      (t.log.add (modifyAt ⟨1, 5⟩ {})).bind fun l => (l.rewindFromHead ⟨1, 4⟩).map fun a =>
        (a.1.dups.length, decide (∀ e ∈ l.log, e.version.version ≤ 4 → e.version ≤ ⟨1, 4⟩))) =
          some (1, true) := by
    decide +kernel
  simp only [bind_eq_some_iff, map_eq_some_iff, Prod.mk.injEq, decide_eq_true_iff] at hrun
  obtain ⟨t, htrim, l, hadd, ⟨l', divergent⟩, hrewind, hdups, hnum⟩ := hrun
  have hapart : TrimApart 7 ⟨1, 1⟩ (ofPgLog untrimmed).toPgLog := by
    unfold TrimApart RequestsApart
    decide
  have hlookups := lookups_of_run h
    (.tail (.tail (.single (.trim hapart htrim)) (.add hadd))
      (.rewindFromHead (by exact hnum) hrewind))
  refine ⟨h, t, l, l', divergent, htrim, hadd, hrewind, hdups, fun r => ?_⟩
  obtain ⟨l₁, _, reply, _, hget, _, hreply, _⟩ := hlookups.1 r
  exact ⟨l₁, reply, hget, hreply⟩

/-- The lookup misses a request that the log has.  A trim drops one of two dup entries
with the request and erases it from the index.  A merge that extends the tail lets the
index refer to the older of two entries with the request, and a trim of that entry erases
the request. -/
theorem getRequest_forgets :
    Indexes (ofPgLog doubled) ∧
      ((trim 7 ⟨1, 8⟩ ⟨ofPgLog doubled, [], [], ⟨1, 8⟩⟩).bind fun t =>
          (t.log.getRequest request).map fun a =>
            (t.log.dups.map LogDup.reqid, a.2.isSome)) =
        some ([request], false) ∧
      Indexes shard.log ∧ WellFormed untrimmed ∧
      ((shard.mergeLog untrimmed info).bind fun s =>
          (trim 1 ⟨1, 1⟩ ⟨s.1.log, [], [], ⟨1, 1⟩⟩).bind fun t =>
            (t.log.getRequest request).map fun a =>
              (t.log.log.map LogEntry.reqid, a.2.isSome)) =
        some ([request], false) :=
  ⟨indexes_index (by constructor <;> decide) (by decide), by decide +kernel,
    indexes_index (by constructor <;> decide) (by decide), by constructor <;> decide,
    by decide +kernel⟩

end Ceph.Osd
