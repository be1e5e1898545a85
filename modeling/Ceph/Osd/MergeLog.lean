import Mathlib.Tactic.IntervalCases
import Ceph.Osd.Merging
import Ceph.Lib.Cut

set_option autoImplicit false

/-!
# `merge_log` brings a shard to the authoritative log

Two shards have a common history and then went separate ways: the local shard
logged `mine`, the authoritative shard logged `auth`.  Each log holds the end of
its shard's history, from its own tail on.  After `merge_log` the local log is
the end of the authoritative history, and the missing set is accurate for it.
-/

namespace Ceph.Osd

open Ceph.Lib List Option PGLog IndexedLog EVersion

variable {O : Type} [LinearOrder O]

/-! ## Windows of a history -/

/-- The part of a history that a log with tail `tail` holds. -/
def window (h : Entries O) (tail : EVersion) : Entries O :=
  h.filter fun e => decide (tail < e.version)

variable {es : Entries O} {tail : EVersion} {l : IndexedLog O}

variable {e : LogEntry O} {v : EVersion}

omit [LinearOrder O] in
theorem mem_window : e ∈ window es tail ↔ e ∈ es ∧ tail < e.version := by
  simp [window]

omit [LinearOrder O] in
theorem Rising.falls (hr : Rising es) (v : EVersion) :
    Falls (fun e => decide (e.version ≤ v)) es := by
  refine hr.imp fun hef hf => ?_
  simp only [decide_eq_true_eq] at hf ⊢
  exact hef.lt.le.trans hf

omit [LinearOrder O] in
/-- A history is cut at a version. -/
theorem filter_append_window (hr : Rising es) (v : EVersion) :
    (es.filter fun e => decide (e.version ≤ v)) ++ window es v = es := by
  have hfalls := Rising.falls hr v
  have hwin : window es v = es.filter fun e => !decide (e.version ≤ v) :=
    filter_congr fun e _ => by rw [← decide_not, decide_eq_decide, not_le]
  rw [hwin, ← takeWhile_eq_filter hfalls, ← dropWhile_eq_filter hfalls, takeWhile_append_dropWhile]

omit [LinearOrder O] in
theorem window_window (es : Entries O) (hle : tail ≤ v) :
    window (window es tail) v = window es v := by
  rw [window, window, List.filter_filter]
  refine filter_congr fun e _ => ?_
  rw [Bool.and_eq_left_iff_imp, decide_eq_true_eq, decide_eq_true_eq]
  exact hle.trans_lt

omit [LinearOrder O] in
/-- A window is cut at a version into an older part and a smaller window. -/
theorem window_split (hr : Rising es) (hle : tail ≤ v) :
    ((window es tail).filter fun e => decide (e.version ≤ v)) ++ window es v = window es tail := by
  rw [← window_window es hle]
  exact filter_append_window (hr.sublist filter_sublist) v

/-- The logs of two shards that share the history `common` up to the version
`point`.  The local shard then logged `mine` and the authoritative one `auth`;
entries of objects that were split out leave gaps, so that a head need not be
the version of an entry.  A shard whose head is not newer than the other's has
logged nothing of its own. -/
structure Diverged (common mine auth : Entries O) (point : EVersion)
    (log olog : PgLog O) : Prop where
  mineRising : Rising (common ++ mine)
  authRising : Rising (common ++ auth)
  mineLinked : Linked [] (common ++ mine)
  authLinked : Linked [] (common ++ auth)
  positive : ∀ e ∈ common ++ mine ++ auth, 0 < e.version.version
  commonUpto : ∀ e ∈ common, e.version.Upto point
  mineAfter : ∀ e ∈ mine, point.Precedes e.version
  authAfter : ∀ e ∈ auth, point.Precedes e.version
  /-- What a log has trimmed away is common to both. -/
  tailUpto : log.tail.Upto point
  otailUpto : olog.tail.Upto point
  tailIn : ∀ e ∈ common, (log.tail.version < e.version.version ↔ log.tail < e.version)
  otailIn : ∀ e ∈ common, (olog.tail.version < e.version.version ↔ olog.tail < e.version)
  logEntries : log.log = window common log.tail ++ mine
  ologEntries : olog.log = window common olog.tail ++ auth
  mineHead : ∀ e ∈ mine, e.version ≤ log.head
  authHead : ∀ e ∈ auth, e.version ≤ olog.head
  pointHead : point ≤ log.head
  opointHead : point ≤ olog.head
  behind : olog.head ≤ log.head → olog.head = point
  ahead : log.head < olog.head → ∀ e ∈ auth, log.head < e.version

/-! ## The indexes and the cursor leave the log alone -/

theorem foldl_indexObject_newest (es : Entries O) (o : O) :
    es.foldl indexObject (fun _ => none) o = newest es o := by
  rw [foldl_indexObject_eq, or_none, lastOf, newest, updates]
  congr 1
  refine filter_congr fun e _ => ?_
  cases herr : e.isError <;> simp [objectKey, LogEntry.objectIsIndexed, about, herr]

/-- The index by object is built and right. -/
def ObjectsRight (l : IndexedLog O) : Prop :=
  l.indexed.objects = true ∧ ∀ o, l.objects o = newest l.log o

theorem objectsRight_index (l : IndexedLog O) : ObjectsRight l.index :=
  ⟨by simp [index], foldl_indexObject_newest l.log⟩

theorem ObjectsRight.congr {l' : IndexedLog O} (h : ObjectsRight l) (hlog : l'.log = l.log)
    (hobj : l'.objects = l.objects) (hidx : l'.indexed = l.indexed) : ObjectsRight l' :=
  ⟨by rw [hidx]; exact h.1, fun o => by rw [hobj, hlog]; exact h.2 o⟩

theorem ObjectsRight.resetRiter (h : ObjectsRight l) : ObjectsRight l.resetRiter :=
  h.congr rfl rfl rfl

theorem ObjectsRight.advance (h : ObjectsRight l) (v : EVersion) :
    ObjectsRight (l.advanceCanRollbackTo v).1 := h.congr rfl rfl rfl

/-- Rewinding a log to a version between its two parts drops the second part. -/
theorem rewindFromHead_eq {kept gone : Entries O} {newhead : EVersion} (hlog : l.log = kept ++ gone)
    (htail : l.tail ≤ newhead) (hkept : ∀ e ∈ kept, e.version.version ≤ newhead.version)
    (hgone : ∀ e ∈ gone, newhead.Precedes e.version) :
    ∃ l', l.rewindFromHead newhead = some (l', gone) ∧ l'.log = kept ∧ l'.head = newhead ∧
      l'.tail = l.tail ∧ ObjectsRight l' := by
  have hbeyond : l.toPgLog.beyond newhead = gone := by
    rw [PgLog.beyond, hlog]
    exact rtakeWhile_append_of (fun e he => by simpa using hkept e he)
      fun e he => by simpa using (hgone e he).2
  have hrest : (l.log.rdropWhile fun e => decide (newhead.version < e.version.version)) = kept := by
    rw [hlog]
    exact rdropWhile_append_of (fun e he => by simpa using hkept e he)
      fun e he => by simpa using (hgone e he).2
  have hassert : l.tail ≤ newhead ∧ ∀ e ∈ gone, newhead < e.version :=
    ⟨htail, fun e he => (hgone e he).lt⟩
  have hrewind : l.toPgLog.rewindFromHead newhead = some ({ l.toPgLog with
      log := kept
      head := newhead
      canRollbackTo := min l.canRollbackTo newhead
      rollbackInfoTrimmedTo := min l.rollbackInfoTrimmedTo newhead }, gone) := by
    rw [PgLog.rewindFromHead, hbeyond, if_pos hassert, hrest]
  rw [rewindFromHead, hrewind]
  exact ⟨_, rfl, rfl, rfl, rfl, (objectsRight_index _).resetRiter⟩

theorem add_eq (hidx : ObjectsRight l) (he : l.head.Precedes e.version) :
    ∃ l', l.add e = some l' ∧ l'.log = l.log ++ [e] ∧ l'.head = e.version ∧
      l'.tail = l.tail ∧ ObjectsRight l' := by
  have hassert : (true = true ∨ l.canRollbackTo = l.head) ∧ l.head < e.version ∧
      (l.head.version = 0 ∨ l.head.version < e.version.version) :=
    ⟨.inl rfl, he.lt, .inr he.2⟩
  rw [IndexedLog.add]
  dsimp only
  rw [if_pos hassert, if_pos rfl]
  refine ⟨_, rfl, rfl, rfl, rfl, hidx.1, fun o => ?_⟩
  have hobj : l.objects = l.log.foldl IndexedLog.indexObject fun _ => none := by
    funext o
    rw [hidx.2, foldl_indexObject_newest]
  rw [if_pos hidx.1, hobj, ← foldl_indexObject_newest, foldl_append]
  rfl

/-- Appending a rising list to a log. -/
theorem appendLog_eq {es : Entries O} {l : IndexedLog O} (hidx : ObjectsRight l)
    (hrising : Rising es) (hhead : ∀ e ∈ es, l.head.Precedes e.version) :
    ∃ l', appendLog es l = some l' ∧ l'.log = l.log ++ es ∧ l'.tail = l.tail ∧
      ObjectsRight l' := by
  induction es generalizing l with
  | nil => exact ⟨l, rfl, (append_nil _).symm, rfl, hidx⟩
  | cons e _ ih =>
    rw [Rising, pairwise_cons] at hrising
    obtain ⟨_, hadd, hlog₁, hhead₁, htail₁, hidx₁⟩ := add_eq hidx (hhead e mem_cons_self)
    obtain ⟨l₂, happ, hlog₂, htail₂, hidx₂⟩ := ih hidx₁ hrising.2 fun e' he' => by
      rw [hhead₁]
      exact hrising.1 e' he'
    refine ⟨l₂, by rw [appendLog, hadd]; exact happ, ?_, htail₂.trans htail₁, hidx₂⟩
    rw [hlog₂, hlog₁, append_assoc]
    rfl

/-- What `merge_log` returns is settled before the dup entries are merged. -/
structure SameLog (s s' : PGLog O) : Prop where
  log : s'.log.log = s.log.log
  head : s'.log.head = s.log.head
  tail : s'.log.tail = s.log.tail
  missing : s'.missing = s.missing

theorem SameLog.trans {s s' s'' : PGLog O} (h : SameLog s s') (h' : SameLog s' s'') :
    SameLog s s'' :=
  ⟨h'.log.trans h.log, h'.head.trans h.head, h'.tail.trans h.tail, h'.missing.trans h.missing⟩

theorem sameLog_extendDups (s : PGLog O) (olog : PgLog O) : SameLog s (s.extendDups olog) := by
  cases hfront : s.log.dups.head? with
  | none =>
    obtain ⟨hmissing, hlog⟩ := s.extendDups_log_of_nil olog (head?_eq_none_iff.1 hfront)
    rw [foldl_pushDup_eq] at hlog
    exact ⟨by rw [hlog], by rw [hlog], by rw [hlog], hmissing⟩
  | some =>
    have hne : s.log.dups ≠ [] := fun hnil => by rw [hnil] at hfront; cases hfront
    obtain ⟨hmissing, hlog⟩ := s.extendDups_log olog hfront
      (getLast?_eq_some_getLast hne) rfl rfl rfl
    have hsame : (s.extendDups olog).log.toPgLog =
        { s.log.toPgLog with dups := (s.extendDups olog).log.dups } := by
      rw [hlog, foldl_indexDupEntry_eq, foldl_indexDupEntry_eq]
    exact ⟨by rw [hsame], by rw [hsame], by rw [hsame], hmissing⟩

theorem sameLog_mergeLogDups (s : PGLog O) (olog : PgLog O) : SameLog s (s.mergeLogDups olog) := by
  refine foldlRecOn _ dropDup (sameLog_extendDups s olog) fun s' h d _ => h.trans ?_
  exact ⟨rfl, rfl, rfl, rfl⟩

/-! ## Extending the tail -/

section Merge

variable {common mine auth : Entries O} {point : EVersion} {s : PGLog O} {olog : PgLog O}
  {info : PgInfo O}

/-- The state between the two ends of `merge_log`: the local log reaches back to
the older of the two tails, and `olog` keeps what is newer than both. -/
structure Extended (common mine auth : Entries O) (s s₁ : PGLog O)
    (olog olog₁ : PgLog O) (info info₁ : PgInfo O) : Prop where
  log : s₁.log.log = window common (min s.log.tail olog.tail) ++ mine
  tail : s₁.log.tail = min s.log.tail olog.tail
  head : s₁.log.head = s.log.head
  canRollbackTo : s₁.log.canRollbackTo = s.log.canRollbackTo
  missing : s₁.missing = s.missing
  ologEntries : olog₁.log = window common (max s.log.tail olog.tail) ++ auth
  otail : olog₁.tail = olog.tail
  ohead : olog₁.head = olog.head
  lastBackfill : info₁.lastBackfill = info.lastBackfill

theorem Diverged.extendTail (h : Diverged common mine auth point s.log.toPgLog olog)
    (info : PgInfo O) :
    Extended common mine auth s (s.extendTail olog info).1 olog (s.extendTail olog info).2.1
      info (s.extendTail olog info).2.2 := by
  unfold PGLog.extendTail
  split
  next hlt =>
    have hrising : Rising common := (pairwise_append.1 h.mineRising).1
    have hauth : ∀ e ∈ auth, s.log.tail < e.version := fun e he =>
      h.tailUpto.le.trans_lt (h.authAfter e he).lt
    have hfalls : Falls (fun e => decide (e.version ≤ s.log.tail)) olog.log := by
      rw [h.ologEntries]
      exact Rising.falls (h.authRising.sublist (filter_sublist.append (.refl _))) _
    have htaken : tailEntries s.log olog =
        (window common olog.tail).filter fun e => decide (e.version ≤ s.log.tail) := by
      have hnone : auth.filter (fun e => decide (e.version ≤ s.log.tail)) = [] :=
        filter_eq_nil_iff.2 fun e he => by simpa using hauth e he
      rw [tailEntries, takeWhile_eq_filter hfalls, h.ologEntries, filter_append, hnone, append_nil]
    have hdropped : olog.log.drop (tailEntries s.log olog).length =
        window common s.log.tail ++ auth := by
      have hsplit : tailEntries s.log olog ++ (window common s.log.tail ++ auth) =
          olog.log := by
        rw [htaken, ← append_assoc, window_split hrising hlt.le, h.ologEntries]
      conv_lhs => rw [← hsplit]
      exact drop_left ..
    have hmin : min s.log.tail olog.tail = olog.tail := min_eq_right hlt.le
    have hmax : max s.log.tail olog.tail = s.log.tail := max_eq_left hlt.le
    have hsame : ((tailEntries s.log olog).foldl indexEntry s.log).toPgLog = s.log.toPgLog := by
      rw [foldl_indexEntry_eq]
    have hhead : ((tailEntries s.log olog).foldl indexEntry s.log).head =
        s.log.head := congrArg PgLog.head hsame
    have hcrt : ((tailEntries s.log olog).foldl indexEntry s.log).canRollbackTo =
        s.log.canRollbackTo := congrArg PgLog.canRollbackTo hsame
    refine ⟨?_, hmin.symm, hhead, hcrt, rfl, ?_, rfl, rfl, rfl⟩
    · show tailEntries s.log olog ++ ((tailEntries s.log olog).foldl indexEntry s.log).log = _
      rw [hsame, htaken, h.logEntries, ← append_assoc, window_split hrising hlt.le, hmin]
    · rw [hmax]
      exact hdropped
  next hge =>
    have hle := not_lt.1 hge
    have hmin : min s.log.tail olog.tail = s.log.tail := min_eq_left hle
    have hmax : max s.log.tail olog.tail = olog.tail := max_eq_right hle
    exact ⟨by rw [hmin]; exact h.logEntries, hmin.symm, rfl, rfl, rfl,
      by rw [hmax]; exact h.ologEntries, rfl, rfl, rfl⟩

/-! ## The missing set -/

variable {tail : EVersion}

section Missing

variable {log : PgLog O} {o : O}

omit [LinearOrder O] in
theorem getLast?_cons_eq_getLastD (e : LogEntry O) (es : Entries O) :
    (e :: es).getLast? = some (es.getLastD e) := by
  rw [getLast?_cons, getLastD_eq_getLast?]

/-- The newest entry of a list in which the object has entries. -/
theorem newest_of_updates {hist : Entries O} {first : LogEntry O} {rest : Entries O}
    (hupd : updates hist o = first :: rest) : newest hist o = some (rest.getLastD first) := by
  rw [newest, hupd, getLast?_cons_eq_getLastD]

variable (h : Diverged common mine auth point log olog)

include h

/-- The authoritative shard has nothing of its own if its head is not newer. -/
theorem Diverged.auth_eq_nil (hle : olog.head ≤ log.head) : auth = [] := by
  rw [eq_nil_iff_forall_not_mem]
  intro e he
  have hlt := (h.authAfter e he).lt
  rw [← h.behind hle] at hlt
  exact absurd (h.authHead e he) (not_le.2 hlt)

/-- Nor has the local one if the heads are equal. -/
theorem Diverged.mine_eq_nil (heq : log.head = olog.head) : mine = [] := by
  rw [eq_nil_iff_forall_not_mem]
  intro e he
  have hlt := (h.mineAfter e he).lt
  rw [← h.behind heq.ge, ← heq] at hlt
  exact absurd (h.mineHead e he) (not_le.2 hlt)

theorem Diverged.head_lt : ∀ e ∈ auth, log.head < e.version := by
  intro e he
  obtain hlt | hge := lt_or_ge log.head olog.head
  · exact h.ahead hlt e he
  · rw [h.auth_eq_nil hge] at he
    cases he

/-- What the authoritative shard has logged is newer than what the local one has. -/
theorem Diverged.newer : ∀ e ∈ auth, ∀ d ∈ mine, d.version < e.version :=
  fun e he d hd => (h.mineHead d hd).trans_lt (h.head_lt e he)

theorem Diverged.version_pos (he : e ∈ common ++ mine ++ auth) : 0 < e.version := by
  have := h.positive e he
  rw [lt_def]
  simp only [zero_epoch, zero_version]
  omega

theorem Diverged.mine_pos : ∀ e ∈ mine, 0 < e.version := fun _ he =>
  h.version_pos (mem_append_left _ (mem_append_right _ he))

theorem Diverged.mineChained (o : O) : Chained (newest common o) (updates mine o) :=
  h.mineLinked.right.chained o h.mineRising

theorem Diverged.authChained (o : O) : Chained (newest common o) (updates auth o) :=
  h.authLinked.right.chained o h.authRising

theorem Diverged.strip (o : O) :
    stripErrors o true false 0 (mine.filter fun e => decide (e.soid = o)) = some (updates mine o) :=
  stripErrors_eq h.mineLinked.right h.mineRising h.mine_pos (.inl ⟨rfl, rfl⟩)

variable {merged : IndexedLog O}

/-- Whether the merged log has a more recent entry than the divergent ones. -/
theorem Diverged.moreRecent_eq (hidx : ObjectsRight merged)
    (hlog : merged.log = window common tail ++ auth) {first : LogEntry O} (hfirst : first ∈ mine) :
    moreRecent merged o first = newest auth o := by
  rw [moreRecent, hidx.2, hlog, newest_append]
  cases hauth : newest auth o with
  | some n =>
    have hlt := h.newer n (mem_of_newest hauth).1 first hfirst
    simp [Option.filter, hlt.le]
  | none =>
    rw [filter_eq_none_iff]
    intro n hn
    have hcommon := (mem_window.1 (mem_of_newest hn).1).1
    have hlt := ((h.commonUpto n hcommon).trans_precedes (h.mineAfter first hfirst)).lt
    simpa using hlt

/-- Nothing that the shard misses is newer than a new entry of the object. -/
theorem Diverged.needsUpTo {track : Bool} {stored : Option EVersion} {item : Option MissingItem}
    (hobj : ItemAccurate track (newest (common ++ mine) o) stored item)
    (he : e ∈ updates auth o) : NeedsUpTo e.version item := by
  intro _ hi
  rw [hi, newest_append] at hobj
  obtain ⟨f, hf, hneed, -⟩ := hobj
  rw [hneed]
  cases hmine : newest mine o with
  | some d =>
    rw [hmine, some_or, some.injEq] at hf
    exact hf ▸ (h.newer e (mem_updates.1 he).1 d (mem_of_newest hmine).1).le
  | none =>
    rw [hmine] at hf
    exact ((h.authChained o).lt f hf e he).le

section Append

variable {info : PgInfo O} {m : MissingSet O} {store : Store O}

/-- An object with new entries follows the last of them once they are appended. -/
theorem Diverged.follows (hacc : Accurate info.lastBackfill (newest (common ++ mine)) store m)
    {o : O} (ho : o ≤ info.lastBackfill) {n : LogEntry O} (hn : newest auth o = some n) :
    ItemFollows m.mayIncludeDeletes n
      (runCalls store (appendMissing info.lastBackfill false auth m).2 o)
      (appendMissing info.lastBackfill false auth m).1.missing[o]? := by
  obtain ⟨hitem, hstore⟩ := appendMissing_object info.lastBackfill false ho auth m
  rw [hitem, hstore]
  cases hupd : updates auth o with
  | nil =>
    rw [newest_eq_none_iff.2 hupd] at hn
    cases hn
  | cons =>
    rw [newest_of_updates hupd, some.injEq] at hn
    subst hn
    have hchain := h.authChained o
    rw [hupd] at hchain
    have hup := h.needsUpTo (hacc o ho) (hupd ▸ mem_cons_self)
    exact itemFollows_foldl hchain.2.2 (itemFollows_append (store o) hup)

/-- Dropping the divergent entries after the new ones are appended succeeds. -/
theorem Diverged.merged_spec (crt : EVersion) (hidx : ObjectsRight merged)
    (hlog : merged.log = window common tail ++ auth)
    (hacc : Accurate info.lastBackfill (newest (common ++ mine)) store m) :
    ∃ m' calls, mergeDivergentEntries merged mine info crt
        (appendMissing info.lastBackfill false auth m).1 = some (m', calls) ∧
      MergeSpec merged mine info.lastBackfill crt
        (appendMissing info.lastBackfill false auth m).1 m' calls := by
  refine mergeDivergentEntries_spec h.strip fun o ho first rest hupd n hn => ?_
  have hmine : ∀ e ∈ first :: rest, e ∈ mine := fun e he => (mem_updates.1 (hupd ▸ he)).1
  rw [h.moreRecent_eq hidx hlog (hmine first mem_cons_self)] at hn
  have hnauth := mem_of_newest hn
  have hlast : rest.getLastD first ∈ mine :=
    hmine _ (mem_of_getLast? (getLast?_cons_eq_getLastD first rest))
  have hitem := h.follows hacc ho hn
  rw [← appendMissing_track info.lastBackfill false auth m] at hitem
  exact ⟨h.newer n hnauth.1 _ hlast, missingFollows_of_itemFollows hnauth.2.2 hitem⟩

end Append

/-- After the new entries are appended and the divergent ones dropped, the missing
set is accurate for the authoritative history. -/
theorem Diverged.merged_accurate (info : PgInfo O) (crt : EVersion) {m : MissingSet O}
    {store : Store O} (hidx : ObjectsRight merged) (hlog : merged.log = window common tail ++ auth)
    (hacc : Accurate info.lastBackfill (newest (common ++ mine)) store m) :
    ∃ m' calls, mergeDivergentEntries merged mine info crt
        (appendMissing info.lastBackfill false auth m).1 = some (m', calls) ∧
      Accurate info.lastBackfill (newest (common ++ auth))
        (runCalls (runCalls store (appendMissing info.lastBackfill false auth m).2) calls) m' := by
  obtain ⟨m', calls, hrun, hspec⟩ := h.merged_spec crt hidx hlog hacc
  refine ⟨m', calls, hrun, fun o ho => ?_⟩
  obtain ⟨hitem, hstore⟩ := appendMissing_object info.lastBackfill false ho auth m
  rw [hspec.track, appendMissing_track, newest_append]
  have hbefore := hacc o ho
  rw [newest_append] at hbefore
  cases hupd : updates mine o with
  | nil =>
    obtain ⟨hitem', hstore'⟩ := hspec.other o (.inr hupd)
    rw [hitem', hstore', hitem, hstore]
    rw [newest_eq_none_iff.2 hupd] at hbefore
    exact itemAccurate_foldl (h.authChained o) hbefore
  | cons first rest =>
    obtain ⟨hitem', hstore'⟩ := hspec.own o ho first rest hupd
    have hfirst : first ∈ mine := (mem_updates.1 (hupd ▸ mem_cons_self)).1
    rw [hitem', hstore', h.moreRecent_eq hidx hlog hfirst]
    cases hauth : newest auth o with
    | some => exact itemAccurate_merged_newer (h.follows hacc ho hauth)
    | none =>
      have hnil := newest_eq_none_iff.1 hauth
      rw [hitem, hstore, hnil]
      rw [newest_of_updates hupd] at hbefore
      have hchain := h.mineChained o
      rw [hupd] at hchain
      refine itemAccurate_merged hbefore hchain.1 fun f hf => ?_
      have hfmem := (mem_of_newest hf).1
      exact (h.version_pos (mem_append_left _ (mem_append_left _ hfmem))).ne'

end Missing

/-! ## Where the logs are cut -/

section Cut

variable {log olog₁ : PgLog O}

omit [LinearOrder O] in
/-- Without an entry in the window no common entry is newer than the tail. -/
theorem upto_of_window_nil
    (hin : ∀ e ∈ common, (tail.version < e.version.version ↔ tail < e.version))
    (hnil : window common tail = []) : ∀ e ∈ common, e.version.Upto tail := by
  intro e he
  have hnot : ¬ tail < e.version := by
    intro hlt
    have : e ∈ window common tail := mem_window.2 ⟨he, hlt⟩
    rw [hnil] at this
    cases this
  exact upto_of_le (not_lt.1 hnot) (not_lt.1 (mt (hin e he).1 hnot))

variable (h : Diverged common mine auth point log olog)

include h

/-- The newer of the two tails is a version of the common history. -/
theorem Diverged.maxTail :
    (max olog.tail log.tail).Upto point ∧
      ∀ e ∈ common, ((max olog.tail log.tail).version < e.version.version ↔
        max olog.tail log.tail < e.version) := by
  obtain heq | heq := max_choice olog.tail log.tail
  · rw [heq]
    exact ⟨h.otailUpto, h.otailIn⟩
  · rw [heq]
    exact ⟨h.tailUpto, h.tailIn⟩

theorem Diverged.notAfterHead : ∀ e ∈ window common v, ¬ decide (log.head < e.version) = true := by
  intro e he
  have hle := (h.commonUpto e (mem_window.1 he).1).le.trans h.pointHead
  simpa using hle

theorem Diverged.headEntries (hlog : olog₁.log = window common v ++ auth) :
    PGLog.headEntries log.head olog₁ = auth := by
  rw [PGLog.headEntries, hlog]
  exact rtakeWhile_append_of h.notAfterHead fun e he => by simpa using h.head_lt e he

/-- No common entry is newer than the last one of a window. -/
theorem Diverged.upto_last
    (hin : ∀ e ∈ common, (tail.version < e.version.version ↔ tail < e.version)) {k : LogEntry O}
    (hlast : (window common tail).getLast? = some k) : ∀ e ∈ common, e.version.Upto k.version := by
  intro e he
  obtain ⟨hk, hklt⟩ := mem_window.1 (mem_of_getLast? hlast)
  obtain hlt | hge := lt_or_ge tail e.version
  · obtain ⟨init, hinit⟩ := getLast?_eq_some_iff.1 hlast
    have hrising : Rising (window common tail) :=
      (pairwise_append.1 h.mineRising).1.sublist filter_sublist
    have hmem : e ∈ init ++ [k] := hinit ▸ mem_window.2 ⟨he, hlt⟩
    rw [hinit, Rising, pairwise_append] at hrising
    obtain hmem | hmem := mem_append.1 hmem
    · exact (hrising.2.2 e hmem k (mem_singleton_self k)).upto
    · rw [mem_singleton.1 hmem]
      exact ⟨le_rfl, le_rfl⟩
  · have hle := not_lt.1 (mt (hin e he).1 hge.not_gt)
    exact upto_of_le (hge.trans hklt.le) (hle.trans ((hin k hk).2 hklt).le)

/-- The cut is a version of the common history and no common entry is newer. -/
theorem Diverged.lowerBound (htail : olog₁.tail = olog.tail)
    (hlog : olog₁.log = window common (max log.tail olog.tail) ++ auth) :
    max olog.tail log.tail ≤ lowerBound log.head log.tail olog₁ ∧
      (lowerBound log.head log.tail olog₁).Upto point ∧
      ∀ e ∈ common, e.version.Upto (lowerBound log.head log.tail olog₁) := by
  obtain ⟨hupto, hin⟩ := h.maxTail
  have hcut : (olog₁.log.rdropWhile fun e => decide (log.head < e.version)) =
      window common (max olog.tail log.tail) := by
    rw [hlog, max_comm]
    exact rdropWhile_append_of h.notAfterHead fun e he => by simpa using h.head_lt e he
  unfold PGLog.lowerBound
  rw [hcut, htail]
  cases hlast : (window common (max olog.tail log.tail)).getLast? with
  | none => exact ⟨le_rfl, hupto, upto_of_window_nil hin (getLast?_eq_none_iff.1 hlast)⟩
  | some k =>
    obtain ⟨hk, hklt⟩ := mem_window.1 (mem_of_getLast? hlast)
    dsimp only
    rw [max_eq_right hklt.le]
    exact ⟨hklt.le, h.commonUpto k hk, h.upto_last hin hlast⟩

/-- The same for the cut that the primary finds with its own log `olog`. -/
theorem Diverged.lastShared :
    max log.tail olog.tail ≤ lastShared olog log ∧
      (lastShared olog log).Upto point ∧
      ∀ e ∈ common, e.version.Upto (lastShared olog log) := by
  obtain ⟨hupto, hin⟩ := h.maxTail
  rw [max_comm] at hupto hin
  have hcut : (olog.log.rdropWhile fun e => decide (log.head < e.version)) =
      window common olog.tail := by
    rw [h.ologEntries]
    exact rdropWhile_append_of h.notAfterHead fun e he => by simpa using h.head_lt e he
  unfold PGLog.lastShared
  rw [hcut]
  cases hlast : (window common olog.tail).getLast? with
  | none =>
    refine ⟨le_rfl, hupto, upto_of_window_nil hin ?_⟩
    rw [getLast?_eq_none_iff, window, filter_eq_nil_iff] at hlast
    rw [window, filter_eq_nil_iff]
    intro e he
    have := hlast e he
    simp only [decide_eq_true_eq, not_lt] at this ⊢
    exact this.trans (le_max_right _ _)
  | some k =>
    obtain ⟨hk, _⟩ := mem_window.1 (mem_of_getLast? hlast)
    have hle := h.upto_last h.otailIn hlast
    dsimp only
    split
    next hlimit =>
      refine ⟨le_rfl, hupto, fun e he => ?_⟩
      have hnum := not_lt.1 (mt (hin k hk).1 (not_lt.2 hlimit.le))
      exact upto_of_le ((hle e he).le.trans hlimit.le) ((hle e he).2.trans hnum)
    next hlimit => exact ⟨not_lt.1 hlimit, h.commonUpto k hk, hle⟩

end Cut

theorem runCalls_rollforward (store : Store O) (entries : Entries O) :
    runCalls store (entries.map .rollforward) = store := foldl_map.trans (foldl_fixed entries)

/-! ## The merge -/

/-- What `merge_log` makes of the shard `s`: the new log, and the missing set that
appending `auth` and dropping `mine` gives. -/
structure Merged (common mine auth : Entries O) (s : PGLog O) (olog : PgLog O)
    (lastBackfill : O) (store : Store O) (s' : PGLog O) (calls : List (Call O)) : Prop where
  log : s'.log.log = window common (min s.log.tail olog.tail) ++ auth
  tail : s'.log.tail = min s.log.tail olog.tail
  head : s'.log.head = olog.head
  accurate : Accurate lastBackfill (newest (common ++ auth)) (runCalls store calls) s'.missing
  missing : ∃ (merged : IndexedLog O) (info : PgInfo O) (calls' : List (Call O)),
    ObjectsRight merged ∧ merged.log = window common (min s.log.tail olog.tail) ++ auth ∧
    info.lastBackfill = lastBackfill ∧
    mergeDivergentEntries merged mine info s.log.canRollbackTo
      (appendMissing lastBackfill false auth s.missing).1 = some (s'.missing, calls')

variable {store : Store O} {info₁ : PgInfo O} {olog₁ : PgLog O} {s₁ : PGLog O}

theorem Merged.congr {lastBackfill : O} {s' s'' : PGLog O} {calls : List (Call O)}
    (h : Merged common mine auth s olog lastBackfill store s' calls) (hsame : SameLog s' s'') :
    Merged common mine auth s olog lastBackfill store s'' calls where
  log := hsame.log.trans h.log
  tail := hsame.tail.trans h.tail
  head := hsame.head.trans h.head
  accurate := by
    rw [hsame.missing]
    exact h.accurate
  missing := by
    rw [hsame.missing]
    exact h.missing

section

variable (h : Diverged common mine auth point s.log.toPgLog olog)
  (hext : Extended common mine auth s s₁ olog olog₁ info info₁)
  (hacc : Accurate info.lastBackfill (newest (common ++ mine)) store s.missing)

include h hext hacc

theorem Diverged.rewind (hle : olog.head ≤ s.log.head) :
    ∃ s' info' calls, s₁.rewindDivergentLog olog₁.head info₁ = some (s', info', calls) ∧
      Merged common mine auth s olog info.lastBackfill store s' calls := by
  obtain rfl := h.auth_eq_nil hle
  have hpoint : olog₁.head = point := hext.ohead.trans (h.behind hle)
  have htail : s₁.log.tail ≤ point := by
    rw [hext.tail]
    exact (min_le_left _ _).trans h.tailUpto.le
  obtain ⟨log', hrewind, hlog', hhead', htail', hidx'⟩ := rewindFromHead_eq hext.log htail
    (fun e he => (h.commonUpto e (mem_window.1 he).1).2) h.mineAfter
  have hmerged : log'.log = window common (min s.log.tail olog.tail) ++ [] := by
    rw [hlog', append_nil]
  let info' : PgInfo O :=
    { info₁ with lastComplete := min info₁.lastComplete point, lastUpdate := point }
  have hlb : info'.lastBackfill = info.lastBackfill := hext.lastBackfill
  obtain ⟨m', calls, hrun, hacc'⟩ := h.merged_accurate info' s₁.log.canRollbackTo
    hidx' hmerged (hlb ▸ hacc)
  have hmissing : ∀ s₂ : PGLog O, s₂.missing = s₁.missing →
      mergeDivergentEntries log' mine info' s₁.log.canRollbackTo s₂.missing = some (m', calls) := by
    intro s₂ hs₂
    rw [hs₂, hext.missing]
    exact hrun
  rw [rewindDivergentLog, hpoint, hrewind]
  dsimp only
  rw [hmissing]
  · refine ⟨_, _, _, rfl, hmerged, ?_, hhead'.trans (h.behind hle).symm, ?_, ?_⟩
    · exact htail'.trans hext.tail
    · rw [← hlb]
      exact hacc'
    · refine ⟨log', info', calls, hidx', hmerged, hlb, ?_⟩
      rw [← hext.canRollbackTo]
      exact hrun
  · cases mine <;> rfl

theorem Diverged.extend :
    ∃ s' info' calls, s₁.extendHead s.log.tail olog₁ info₁ = some (s', info', calls) ∧
      Merged common mine auth s olog info.lastBackfill store s' calls := by
  obtain ⟨hbound, hupto, hkept⟩ := h.lowerBound hext.otail hext.ologEntries
  have hnewEntries : PGLog.headEntries s₁.log.head olog₁ = auth := by
    rw [hext.head]
    exact h.headEntries hext.ologEntries
  rw [← hext.head] at hbound hupto hkept
  have htail : s₁.log.tail ≤ PGLog.lowerBound s₁.log.head s.log.tail olog₁ := by
    rw [hext.tail]
    exact (min_le_left _ _).trans ((le_max_right _ _).trans hbound)
  obtain ⟨log₁, hrewind, hlog₁, hhead₁, htail₁, hidx₁⟩ := rewindFromHead_eq hext.log htail
    (fun e he => (hkept e (mem_window.1 he).1).2)
    fun e he => hupto.trans_precedes (h.mineAfter e he)
  -- rolling forward moves only the rollback marks
  obtain ⟨log₂, happend, hlog₂, htail₂, hidx₂⟩ := appendLog_eq (hidx₁.advance log₁.head)
    (pairwise_append.1 h.authRising).2.1 (fun e he => by
      show log₁.head.Precedes e.version
      rw [hhead₁]
      exact hupto.trans_precedes (h.authAfter e he))
  have hlog₂' : log₂.log = window common (min s.log.tail olog.tail) ++ auth := by
    rw [hlog₂, ← hlog₁]
    rfl
  rw [← hext.lastBackfill, ← hext.missing] at hacc
  obtain ⟨_, calls, hrun, hacc'⟩ := h.merged_accurate info₁ s₁.log.canRollbackTo hidx₂ hlog₂' hacc
  rw [extendHead, hnewEntries]
  rw [hrewind]
  dsimp only
  rw [appendLogEntriesUpdateMissing, happend]
  dsimp only [map_some]
  rw [hrun]
  refine ⟨_, _, _, rfl, hlog₂', htail₂.trans (htail₁.trans hext.tail), hext.ohead, ?_, ?_⟩
  · rw [runCalls_append, runCalls_append, runCalls_rollforward, ← hext.lastBackfill]
    exact hacc'
  · refine ⟨log₂, info₁, calls, hidx₂, hlog₂', hext.lastBackfill, ?_⟩
    rw [← hext.canRollbackTo, ← hext.lastBackfill, ← hext.missing]
    exact hrun

/-- Nothing is left to do if the heads are equal. -/
theorem Diverged.level (heq : s.log.head = olog.head) :
    Merged common mine auth s olog info.lastBackfill store s₁ [] := by
  obtain rfl := h.auth_eq_nil heq.ge
  obtain rfl := h.mine_eq_nil heq
  refine ⟨hext.log, hext.tail, hext.head.trans heq, by rw [hext.missing]; exact hacc, ?_⟩
  refine ⟨index { log := window common (min s.log.tail olog.tail) ++ [] }, info, [],
    objectsRight_index _, rfl, rfl, ?_⟩
  rw [hext.missing]
  simp [appendMissing]

end

theorem Diverged.mergeLog (h : Diverged common mine auth point s.log.toPgLog olog)
    (hacc : Accurate info.lastBackfill (newest (common ++ mine)) store s.missing) :
    ∃ s' info' calls, s.mergeLog olog info = some (s', info', calls) ∧
      Merged common mine auth s olog info.lastBackfill store s' calls := by
  have hext := h.extendTail info
  have hassert : (¬ s.log.null ∨ olog.tail = 0) ∧ olog.tail ≤ s.log.head ∧
      s.log.tail ≤ olog.head := by
    have hover : olog.tail ≤ s.log.head := h.otailUpto.le.trans h.pointHead
    refine ⟨?_, hover, h.tailUpto.le.trans h.opointHead⟩
    by_cases hnull : s.log.null
    · right
      have hzero : s.log.head = 0 := by simpa [PgLog.null] using hnull
      exact le_antisymm (hzero ▸ hover) (zero_le _)
    · exact .inl hnull
  rw [PGLog.mergeLog, if_pos hassert]
  dsimp only
  rw [hext.head, hext.ohead]
  obtain hlt | hge := lt_trichotomy olog.head s.log.head
  · obtain ⟨s₁, info', calls, hrun, hmerged⟩ := h.rewind hext hacc hlt.le
    rw [hext.ohead] at hrun
    rw [if_pos hlt, hrun]
    exact ⟨_, info', calls, rfl, hmerged.congr (sameLog_mergeLogDups s₁ _)⟩
  · obtain heq | hgt := hge
    · rw [if_neg heq.not_lt, if_neg heq.not_gt]
      exact ⟨_, _, [], rfl, (h.level hext hacc heq.symm).congr (sameLog_mergeLogDups _ _)⟩
    · obtain ⟨s₁, info', calls, hrun, hmerged⟩ := h.extend hext hacc
      rw [if_neg hgt.not_gt, if_pos hgt, hrun]
      exact ⟨_, info', calls, rfl, hmerged.congr (sameLog_mergeLogDups s₁ _)⟩

end Merge

/-! A shard that wrote to two objects on its own while the authoritative shard
wrote to one of them and deleted a third. -/

namespace Branches

def common : Entries Nat :=
  [⟨.modify, 1, ⟨1, 1⟩, 0, {}, [], [], 0, 0, [], false⟩,
    ⟨.modify, 2, ⟨1, 2⟩, 0, {}, [], [], 0, 0, [], false⟩,
    ⟨.modify, 3, ⟨1, 3⟩, 0, {}, [], [], 0, 0, [], false⟩]

def mine : Entries Nat :=
  [⟨.modify, 1, ⟨1, 4⟩, ⟨1, 1⟩, {}, [], [], 0, 0, [], false⟩,
    ⟨.modify, 2, ⟨1, 5⟩, ⟨1, 2⟩, {}, [], [], 0, 0, [], true⟩]

def auth : Entries Nat :=
  [⟨.modify, 2, ⟨2, 4⟩, ⟨1, 2⟩, {}, [], [], 0, 0, [], false⟩,
    ⟨.delete, 3, ⟨2, 5⟩, ⟨1, 3⟩, {}, [], [], 0, 0, [], false⟩]

def log : PgLog Nat := ⟨⟨1, 5⟩, 0, ⟨1, 3⟩, ⟨1, 3⟩, common ++ mine, []⟩

def olog : PgLog Nat := ⟨⟨2, 5⟩, ⟨1, 1⟩, ⟨2, 5⟩, ⟨2, 5⟩, common.tail ++ auth, []⟩

def shard : PGLog Nat := { log := IndexedLog.ofPgLog log }

def info : PgInfo Nat := ⟨⟨1, 5⟩, ⟨1, 5⟩, 0, 3⟩

def store : Store Nat
  | 1 => some ⟨1, 4⟩
  | 2 => some ⟨1, 5⟩
  | 3 => some ⟨1, 3⟩
  | _ => none

theorem diverged : Diverged common mine auth ⟨1, 3⟩ shard.log.toPgLog olog := by
  constructor <;> decide

theorem accurate : Accurate info.lastBackfill (newest (common ++ mine)) store shard.missing := by
  intro o ho
  have ho' : o ≤ 3 := ho
  show store o = versionOf (newest (common ++ mine) o)
  interval_cases o <;> decide

end Branches

open Branches

end Ceph.Osd
