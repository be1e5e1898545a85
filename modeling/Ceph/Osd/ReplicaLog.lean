import Ceph.Osd.MissingIndex

set_option autoImplicit false

/-!
# The primary's view of a replica

The primary works out what a replica misses from the replica's old log, with
`proc_replica_log` and then, when it activates the group, with the entries that
it sends.  The replica itself runs `merge_log`, which appends the new entries
before it drops its divergent ones.  Both find the same objects missing at the
same versions.  They may differ in the version that the replica has.
-/

namespace Ceph.Osd

open List Option Branches

variable {O : Type}

/-! ## One object -/

/-- The item, or its absence, says that the object is stored at `v` when its newest
entry is `cur`. -/
def HaveIs (v : EVersion) (cur : Option (LogEntry O)) (item : Option MissingItem) : Prop :=
  (∀ i, item = some i → i.have_ = v) ∧ (item = none → ∀ w, versionOf cur = some w → w = v)

variable {track : Bool}

theorem HaveIs.append {v : EVersion} {cur : Option (LogEntry O)} {item : Option MissingItem}
    {e : LogEntry O} (h : HaveIs v cur item) (hlink : LinkedTo cur e)
    (hcreate : e.isCreate = true → v = 0) : HaveIs v (some e) (appendedItem track item e) := by
  unfold appendedItem
  split
  · refine ⟨fun i hi => ?_, fun hnone => by cases hnone⟩
    rw [some.injEq] at hi
    rw [← hi]
    unfold MissingSet.nextItem
    split
    next hc => exact (hcreate hc).symm
    next hc =>
      cases item with
      | some i' => exact h.1 i' rfl
      | none => exact h.2 rfl _ (hlink.replaces (by simpa using hc))
  next hdel =>
    refine ⟨fun i hi => h.1 i (filter_eq_some_iff.1 hi).1, fun _ w hw => ?_⟩
    have hdelete : e.isDelete = true := by
      simp only [Bool.or_eq_true, Bool.not_eq_true', not_or, Bool.not_eq_false] at hdel
      exact hdel.2
    rw [versionOf, if_pos hdelete] at hw
    cases hw

theorem HaveIs.foldl {v : EVersion} {es : Entries O} {cur : Option (LogEntry O)}
    {item : Option MissingItem} (h : HaveIs v cur item) (hchain : Chained cur es)
    (hcreate : ∀ e ∈ es, e.isCreate = true → v = 0) :
    HaveIs v (es.getLast?.or cur) (es.foldl (appendedItem track) item) := by
  induction es generalizing cur item with
  | nil => exact h
  | cons e _ ih =>
    obtain ⟨hlink, -, hchain⟩ := hchain
    rw [getLast?_cons_or]
    exact ih (h.append hlink (hcreate e mem_cons_self)) hchain
      fun e' he' => hcreate e' (mem_cons_of_mem _ he')

/-- Once an entry creates the object anew, nothing of it is stored. -/
theorem haveIs_zero_of_create {es : Entries O} {cur : Option (LogEntry O)}
    {item : Option MissingItem} (hchain : Chained cur es)
    (hup : ∀ e ∈ es, NeedsUpTo e.version item) (hcreate : ∃ e ∈ es, e.isCreate = true) :
    HaveIs 0 (es.getLast?.or cur) (es.foldl (appendedItem track) item) := by
  induction es generalizing cur item with
  | nil => simp at hcreate
  | cons e es ih =>
    obtain ⟨-, -, hrest⟩ := hchain
    rw [getLast?_cons_or]
    have hfollow : ItemFollows track e (appendedStored track none e)
        (appendedItem track item e) :=
      itemFollows_append none (hup e mem_cons_self)
    cases hc : e.isCreate with
    | false =>
      obtain ⟨e', he', hc'⟩ := hcreate
      have hmem : e' ∈ es := by
        obtain heq | hmem := mem_cons.1 he'
        · rw [heq, hc] at hc'
          cases hc'
        · exact hmem
      refine ih hrest (fun f hf i hi => ?_) ⟨e', hmem, hc'⟩
      exact (hfollow.needsUpTo i hi).trans (hrest.lt e rfl f hf).le
    | true =>
      refine HaveIs.foldl ?_ hrest fun _ _ _ => rfl
      cases hk : track || !e.isDelete with
      | true =>
        rw [appendedItem, if_pos hk]
        refine ⟨fun i hi => ?_, fun hnone => by cases hnone⟩
        rw [some.injEq] at hi
        simp [← hi, MissingSet.nextItem, hc]
      | false =>
        rw [appendedItem_eq_none (hup e mem_cons_self) hk]
        refine ⟨fun i hi => (by cases hi), fun _ w hw => ?_⟩
        have hdelete : e.isDelete = true := by
          cases hd : e.isDelete
          · simp [hd] at hk
          · rfl
        rw [versionOf, if_pos hdelete] at hw
        cases hw

/-- The primary and the replica agree on the version that the replica has of an
object with the divergent entries `mine`, the new ones `auth` and the item `item`.
Unless an entry creates the object anew or its delete is applied at once, the
replica forgets what it has when it drops the divergent entries, so it must have had
nothing to forget. -/
def SameHave (track : Bool) (crt : EVersion) (mine auth : Entries O)
    (item : Option MissingItem) : Prop :=
  mine = [] ∨ auth = [] ∨ (∃ e ∈ auth, e.isCreate = true) ∨
    (∃ e, auth.getLast? = some e ∧ e.isDelete = true ∧ track = false) ∨
    match item with
    | some i => i.have_ = 0
    | none => ¬ canRollbackAll crt mine

section Object

variable {track : Bool} {crt v : EVersion} {cur : Option (LogEntry O)}
variable {first n : LogEntry O} {rest ns : Entries O} {item item' : Option MissingItem}

/-- After new entries only the version that is stored can differ. -/
theorem foldl_forget_eq_iff (hauth : Chained cur (n :: ns)) (hup : NeedsUpTo n.version item)
    (hup' : NeedsUpTo n.version item')
    (hhave : HaveIs v ((n :: ns).getLast?.or cur) ((n :: ns).foldl (appendedItem track) item')) :
    ((n :: ns).foldl (appendedItem track) item).map (fun i => { i with have_ := 0 }) =
        (n :: ns).foldl (appendedItem track) item' ↔
      (∃ e, (n :: ns).getLast? = some e ∧ e.isDelete = true ∧ track = false) ∨ v = 0 := by
  have hlast : (n :: ns).getLast? = some (ns.getLastD n) := getLast?_cons_eq_getLastD n ns
  have hfollow : ∀ it, NeedsUpTo n.version it →
      ∃ stored, ItemFollows track (ns.getLastD n) stored
        ((n :: ns).foldl (appendedItem track) it) := fun it hit =>
    ⟨_, itemFollows_foldl hauth.2.2 (itemFollows_append none hit)⟩
  obtain ⟨_, hone⟩ := hfollow item hup
  obtain ⟨_, htwo⟩ := hfollow item' hup'
  rw [hlast]
  unfold ItemFollows at hone htwo
  cases hk : track || !(ns.getLastD n).isDelete with
  | true =>
    rw [if_pos hk] at hone htwo
    obtain ⟨_, ha, haneed, hadel⟩ := hone
    obtain ⟨b, hb, hbneed, hbdel⟩ := htwo
    rw [ha, hb, map_some, some.injEq, ← hhave.1 b hb]
    constructor
    · intro heq
      exact .inr (heq ▸ rfl)
    · intro hcase
      obtain hdel | hzero := hcase
      · obtain ⟨e, he, hdel, htrack⟩ := hdel
        rw [some.injEq] at he
        rw [he, hdel, htrack] at hk
        cases hk
      · obtain ⟨_, have_, _⟩ := b
        dsimp only at *
        rw [haneed, hadel, ← hbneed, ← hbdel, hzero]
  | false =>
    rw [if_neg (ne_true_of_eq_false hk)] at hone htwo
    simp only [Bool.or_eq_false_iff, Bool.not_eq_false'] at hk
    rw [hone.1, htwo.1]
    exact ⟨fun _ => .inl ⟨_, rfl, hk.2, hk.1⟩, fun _ => rfl⟩

theorem versionOf_eq_some {w : EVersion} (h : versionOf cur = some w) :
    ∃ c, cur = some c ∧ c.version = w := by
  cases cur with
  | none => cases h
  | some c =>
    rw [versionOf] at h
    split at h
    · cases h
    · exact ⟨c, rfl, some.inj h⟩

/-- Without a create the object goes back to the version before the divergent
entries, unless that is what is stored. -/
theorem mergedItem_of_not_create (hlink : LinkedTo cur first) (hcreate : first.isCreate = false) :
    NeedsUpTo first.priorVersion (mergedItem false first rest crt item) ∧
      HaveIs (match item with
          | some i => i.have_
          | none => if canRollbackAll crt (first :: rest) then first.priorVersion else 0)
        cur (mergedItem false first rest crt item) := by
  have hcur := hlink.replaces hcreate
  have hprior : ∀ w, versionOf cur = some w → w = first.priorVersion := by
    intro w hw
    rw [hcur, some.injEq] at hw
    exact hw.symm
  unfold mergedItem
  rw [if_neg Bool.false_ne_true, hcreate, if_neg Bool.false_ne_true]
  cases item with
  | some =>
    dsimp only
    split
    next hhave =>
      refine ⟨fun _ hi => (by cases hi), fun _ hi => (by cases hi), fun _ w hw => ?_⟩
      rw [hhave, hprior w hw]
    · refine ⟨fun j hj => ?_, fun j hj => ?_, fun hnone => (by cases hnone)⟩
      · exact (some.inj hj) ▸ le_rfl
      · exact (some.inj hj) ▸ rfl
  | none =>
    dsimp only
    split
    · exact ⟨fun _ hi => (by cases hi), fun _ hi => (by cases hi), fun _ => hprior⟩
    · refine ⟨fun j hj => ?_, fun j hj => ?_, fun hnone => (by cases hnone)⟩
      · exact (some.inj hj) ▸ le_rfl
      · exact (some.inj hj) ▸ rfl

/-- Dropping the divergent entries and then appending the new ones leaves what the
other order does, under the condition. -/
theorem merged_item_eq_iff (hmine : Chained cur (first :: rest)) (hauth : Chained cur (n :: ns))
    (hpos : ∀ c, cur = some c → c.version ≠ 0)
    (hnew : ∀ e ∈ n :: ns, ∀ d ∈ first :: rest, d.version < e.version)
    (hup : NeedsUpTo (rest.getLastD first).version item) :
    ((n :: ns).foldl (appendedItem track) item).map (fun i => { i with have_ := 0 }) =
        (n :: ns).foldl (appendedItem track) (mergedItem false first rest crt item) ↔
      SameHave track crt (first :: rest) (n :: ns) item := by
  obtain ⟨hlink, holder, -⟩ := hmine
  have hlast : rest.getLastD first ∈ first :: rest :=
    mem_of_getLast? (getLast?_cons_eq_getLastD first rest)
  have hupn : NeedsUpTo n.version item := fun i hi =>
    (hup i hi).trans (hnew n mem_cons_self _ hlast).le
  -- the primary needs at most the version before the divergent entries
  have hupm : ∀ e ∈ n :: ns, NeedsUpTo e.version (mergedItem false first rest crt item) := by
    intro e he i hi
    cases hc : first.isCreate with
    | true =>
      unfold mergedItem at hi
      rw [if_pos hc] at hi
      cases hi
    | false =>
      obtain ⟨c, hcur, hcv⟩ := versionOf_eq_some (hlink.replaces hc)
      have hle := (mergedItem_of_not_create hlink hc).1 i hi
      have hlt := (holder c hcur).trans (hnew e he first mem_cons_self)
      exact hle.trans (hcv ▸ hlt).le
  by_cases hcreate : ∃ e ∈ n :: ns, e.isCreate = true
  · rw [foldl_forget_eq_iff hauth hupn (hupm n mem_cons_self)
      (haveIs_zero_of_create hauth hupm hcreate)]
    exact ⟨fun _ => .inr (.inr (.inl hcreate)), fun _ => .inr rfl⟩
  · have hfirst : first.isCreate = false := by
      cases hc : first.isCreate with
      | false => rfl
      | true =>
        refine absurd ⟨n, mem_cons_self, ?_⟩ hcreate
        by_contra hn
        have hprior := hauth.1.replaces (Bool.eq_false_iff.2 hn)
        rw [hlink.creates hpos hc] at hprior
        cases hprior
    have hhave : HaveIs _ cur (mergedItem false first rest crt item) :=
      (mergedItem_of_not_create hlink hfirst).2
    rw [foldl_forget_eq_iff hauth hupn (hupm n mem_cons_self)
      (hhave.foldl hauth fun e he hc => absurd ⟨e, he, hc⟩ hcreate)]
    have hprior : first.priorVersion ≠ 0 := by
      simp only [LogEntry.isCreate, Bool.or_eq_false_iff, beq_eq_false_iff_ne] at hfirst
      exact hfirst.1
    unfold SameHave
    simp only [reduceCtorEq, false_or, hcreate]
    apply or_congr Iff.rfl
    cases item with
    | some => exact Iff.rfl
    | none =>
      dsimp only
      split
      next hall => exact iff_of_false hprior (not_not.2 hall)
      next hall => exact iff_of_true rfl hall

end Object

/-! ## The primary's update -/

variable [LinearOrder O]

/-- The step of the loop of `activate` over the entries that the replica is sent. -/
def activateEntry (lastBackfill : O) (pm : MissingSet O) (e : LogEntry O) : MissingSet O :=
  if e.soid ≤ lastBackfill ∧ ¬ e.isError then
    if !pm.mayIncludeDeletes && e.isDelete then pm.rmUpTo e.soid e.version
    else pm.addNextEvent e
  else pm

/-- How `activate` updates its copy of the missing set of a replica. -/
def activateMissing (lastBackfill : O) (entries : Entries O) (pm : MissingSet O) : MissingSet O :=
  entries.foldl (activateEntry lastBackfill) pm

/-- The replica's own update, without its calls to the store. -/
theorem activateMissing_eq (lastBackfill : O) (maintainRollback : Bool) (entries : Entries O)
    (pm : MissingSet O) : activateMissing lastBackfill entries pm =
      (appendMissing lastBackfill maintainRollback entries pm).1 := by
  induction entries generalizing pm with
  | nil => rfl
  | cons e _ ih =>
    have hone : activateEntry lastBackfill pm e =
        (appendMissingEntry lastBackfill maintainRollback pm e).1 := by
      unfold activateEntry appendMissingEntry
      cases pm.mayIncludeDeletes <;> cases e.isDelete <;> split <;> rfl
    rw [appendMissing_cons, ← hone]
    exact ih _

/-- With inverse indexes the walk for `last_complete` finds its first object. -/
theorem MissingSet.Inverse.replicaLastComplete {m : MissingSet O} (h : m.Inverse) (olog : PgLog O)
    (lastUpdate : EVersion) : ∃ v, PGLog.replicaLastComplete olog lastUpdate m = some v := by
  obtain ⟨v, hv, -⟩ := h.getOldestNeed
  unfold PGLog.replicaLastComplete
  split
  next hhave =>
    unfold MissingSet.getOldestNeed at hv
    rw [if_neg (by simpa [MissingSet.haveMissing] using hhave)] at hv
    cases hlist : m.rmissing.toList.head? with
    | none =>
      rw [hlist] at hv
      cases hv
    | some =>
      rw [hlist] at hv
      obtain ⟨_, hitem, -⟩ := map_eq_some_iff.1 hv
      simp only [hitem, map_some]
      exact ⟨_, rfl⟩
  · exact ⟨_, rfl⟩

section Primary

variable {common mine auth : Entries O} {point : EVersion} {log olog : PgLog O}
variable {oinfo : PgInfo O} {m : MissingSet O} {store : Store O}

section

variable (h : Diverged common mine auth point log olog)

include h

/-- The entries that are newer than what the logs share are the new ones. -/
theorem Diverged.window_lastShared : window olog.log (PGLog.lastShared olog log) = auth := by
  obtain ⟨-, hupto, hkept⟩ := h.lastShared
  rw [h.ologEntries, window, filter_append, filter_eq_nil_iff.2, filter_eq_self.2, nil_append]
  · intro e he
    simpa using (hupto.trans_precedes (h.authAfter e he)).lt
  · intro e he
    simpa using (hkept e (mem_window.1 he).1).le

/-- `proc_replica_log` for a replica with an accurate missing set: it drops the
divergent entries, and what the replica is to be sent are the new ones. -/
theorem Diverged.procReplicaLog
    (hacc : Accurate oinfo.lastBackfill (newest (common ++ mine)) store m)
    (hback : Within oinfo.lastBackfill m) (hinv : m.Inverse)
    (hupdate : oinfo.lastUpdate = log.head) :
    ∃ oinfo' m', PGLog.procReplicaLog olog oinfo log m = some (oinfo', m') ∧
      window olog.log oinfo'.lastUpdate = auth ∧ m'.mayIncludeDeletes = m.mayIncludeDeletes ∧
      (∀ o, oinfo.lastBackfill < o ∨ updates mine o = [] → m'.missing[o]? = m.missing[o]?) ∧
      ∀ o ≤ oinfo.lastBackfill, ∀ first rest, updates mine o = first :: rest →
        m'.missing[o]? = mergedItem false first rest log.canRollbackTo m.missing[o]? := by
  obtain heq | hmerge := h.procReplicaLog_eq oinfo m
  · obtain ⟨hhead, hmine, hrun⟩ := heq
    have hauth := h.auth_eq_nil hhead.ge
    refine ⟨oinfo, m, hrun, ?_, rfl, fun _ _ => rfl, fun o _ first rest hupd => ?_⟩
    · rw [hauth, hupdate, window, filter_eq_nil_iff, h.ologEntries, hauth]
      intro e he
      rw [append_nil] at he
      simpa using (h.commonUpto e (mem_window.1 he).1).le.trans h.pointHead
    · rw [hmine] at hupd
      cases hupd
  · obtain ⟨folog, hidx, hlog, heq⟩ := hmerge
    have hmore : ∀ {o first}, first ∈ mine → moreRecent folog o first = none := by
      intro o first hfirst
      rw [moreRecent, hidx.2, hlog, filter_eq_none_iff]
      intro n hn
      have hcommon := (mem_window.1 (mem_of_newest hn).1).1
      have hlt := ((h.commonUpto n hcommon).trans_precedes (h.mineAfter first hfirst)).lt
      simpa using hlt
    have hfirst : ∀ {o first rest}, updates mine o = first :: rest → first ∈ mine :=
      fun hupd => (mem_updates.1 (hupd ▸ mem_cons_self)).1
    obtain ⟨m', calls, hrun, hspec⟩ : ∃ m' calls,
        mergeDivergentEntries folog mine oinfo log.canRollbackTo m = some (m', calls) ∧
          MergeSpec folog mine oinfo.lastBackfill log.canRollbackTo m m' calls :=
      mergeDivergentEntries_spec h.strip fun o _ first rest hupd n hn => by
        rw [hmore (hfirst hupd)] at hn
        cases hn
    have hinv' := hinv.mergeDivergentEntries h.mineLinked h.mineRising h.mine_pos hacc hback hrun
    obtain ⟨_, hv⟩ := hinv'.replicaLastComplete log
      (min oinfo.lastUpdate (PGLog.lastShared olog log))
    rw [heq, hrun, bind_some, hv]
    refine ⟨_, _, rfl, ?_, hspec.track, fun o ho => (hspec.other o ho).1,
      fun o ho first rest hupd => ?_⟩
    · have hle : PGLog.lastShared olog log ≤ oinfo.lastUpdate := by
        rw [hupdate]
        exact h.lastShared.2.1.le.trans h.pointHead
      rw [min_eq_right hle]
      exact h.window_lastShared
    · rw [(hspec.own o ho first rest hupd).1, hmore (hfirst hupd), isSome_none]

/-! ## Both sides -/

/-- The two ways to update the item of one object. -/
theorem Diverged.object_eq_iff {crt : EVersion}
    {merged : IndexedLog O} {tail : EVersion} {calls : List (Call O)} {m' om : MissingSet O}
    (hidx : ObjectsRight merged) (hlog : merged.log = window common tail ++ auth)
    (hacc : Accurate oinfo.lastBackfill (newest (common ++ mine)) store m)
    (hspec : MergeSpec merged mine oinfo.lastBackfill crt
      (appendMissing oinfo.lastBackfill false auth m).1 m' calls)
    (htrack : om.mayIncludeDeletes = m.mayIncludeDeletes)
    (hother : ∀ o, oinfo.lastBackfill < o ∨ updates mine o = [] → om.missing[o]? = m.missing[o]?)
    (hown : ∀ o ≤ oinfo.lastBackfill, ∀ first rest, updates mine o = first :: rest →
      om.missing[o]? = mergedItem false first rest crt m.missing[o]?)
    {o : O} (ho : o ≤ oinfo.lastBackfill) :
    m'.missing[o]? = (activateMissing oinfo.lastBackfill auth om).missing[o]? ↔
      SameHave m.mayIncludeDeletes crt (updates mine o) (updates auth o) m.missing[o]? := by
  rw [activateMissing_eq oinfo.lastBackfill false,
    (appendMissing_object oinfo.lastBackfill false ho auth om).1, htrack]
  have happend := (appendMissing_object oinfo.lastBackfill false ho auth m).1
  cases hmine : updates mine o with
  | nil =>
    rw [(hspec.other o (.inr hmine)).1, happend, hother o (.inr hmine)]
    exact ⟨fun _ => .inl rfl, fun _ => rfl⟩
  | cons first rest =>
    have hfirst : first ∈ mine := (mem_updates.1 (hmine ▸ mem_cons_self)).1
    rw [(hspec.own o ho first rest hmine).1, hown o ho first rest hmine, happend,
      h.moreRecent_eq hidx hlog hfirst]
    cases hauth : updates auth o with
    | nil =>
      rw [newest_eq_none_iff.2 hauth]
      exact ⟨fun _ => .inr (.inl rfl), fun _ => rfl⟩
    | cons =>
      have hchain := h.mineChained o
      have hchain' := h.authChained o
      rw [hmine] at hchain
      rw [hauth] at hchain'
      rw [newest_of_updates hauth]
      have hforget : ∀ item : Option MissingItem, mergedItem true first rest crt item =
          item.map fun i => { i with have_ := 0 } := fun item => by
        exact if_pos rfl
      refine merged_item_eq_iff hchain hchain' (fun c hc => ?_) (fun e he d hd => ?_) ?_
      · have hmem := (mem_of_newest hc).1
        exact (h.version_pos (mem_append_left _ (mem_append_left _ hmem))).ne'
      · exact h.newer e (mem_updates.1 (hauth ▸ he)).1 d (mem_updates.1 (hmine ▸ hd)).1
      · intro i hi
        have hobj := hacc o ho
        rw [hi, newest_append, newest_of_updates hmine] at hobj
        obtain ⟨_, hf, hneed, -⟩ := hobj
        rw [hneed, ← some.inj hf]

end

end Primary

/-- For a replica whose log has diverged, the replica's `merge_log` and the primary's
`proc_replica_log`, followed by the entries that are newer than the resulting
`last_update`, give every object the same item exactly if they agree on the version
that the replica has of every object with both divergent and new entries. -/
theorem primary_agrees_iff {common mine auth : Entries O} {point : EVersion}
    {s : PGLog O} {log : PgLog O} {info : PgInfo O} {store : Store O}
    (h : Diverged common mine auth point s.log.toPgLog log)
    (hacc : Accurate info.lastBackfill (newest (common ++ mine)) store s.missing)
    (hback : Within info.lastBackfill s.missing) (hinv : s.missing.Inverse)
    (hupdate : info.lastUpdate = s.log.head) :
    ∃ s' info' calls oinfo omissing,
      s.mergeLog log info = some (s', info', calls) ∧
      PGLog.procReplicaLog log info s.log.toPgLog s.missing = some (oinfo, omissing) ∧
      ((∀ o : O, s'.missing.missing[o]? =
          (activateMissing info.lastBackfill (window log.log oinfo.lastUpdate)
            omissing).missing[o]?) ↔
        ∀ o ≤ info.lastBackfill, SameHave s.missing.mayIncludeDeletes s.log.canRollbackTo
          (updates mine o) (updates auth o) s.missing.missing[o]?) := by
  obtain ⟨s', info', calls, hrun, hmerged⟩ := h.mergeLog hacc
  obtain ⟨oinfo, omissing, horun, hwindow, htrack, hother, hown⟩ :=
    h.procReplicaLog hacc hback hinv hupdate
  refine ⟨s', info', calls, oinfo, omissing, hrun, horun, ?_⟩
  rw [hwindow]
  obtain ⟨_, info₁, _, hidx, hlog, hlb, hmerge⟩ := hmerged.missing
  rw [← hlb] at hacc hmerge hother hown ⊢
  obtain ⟨_, _, hmerge', hspec⟩ := h.merged_spec s.log.canRollbackTo hidx hlog hacc
  rw [hmerge, some.injEq, Prod.mk.injEq] at hmerge'
  rw [← hmerge'.1] at hspec
  have hobject := fun (o : O) ho =>
    h.object_eq_iff hidx hlog hacc hspec htrack hother hown (o := o) ho
  constructor
  · intro hall o ho
    exact (hobject o ho).1 (hall o)
  · intro hsame o
    obtain hle | hgt := le_or_gt o info₁.lastBackfill
    · exact (hobject o hle).2 (hsame o hle)
    · -- neither side looks beyond `last_backfill`
      rw [(hspec.other o (.inl hgt)).1, activateMissing_eq _ false,
        appendMissing_missing_of_lt _ _ hgt, appendMissing_missing_of_lt _ _ hgt,
        hother o (.inl hgt)]

/-- In `Branches` object 2 has a divergent entry that can be rolled back and a new one. -/
theorem primary_agrees_iff_branches :
    Diverged common mine auth ⟨1, 3⟩ shard.log.toPgLog olog ∧
      ∃ s' info' calls oinfo omissing, shard.mergeLog olog info = some (s', info', calls) ∧
        PGLog.procReplicaLog olog info shard.log.toPgLog shard.missing = some (oinfo, omissing) ∧
        ¬ ∀ o : Nat, s'.missing.missing[o]? =
          (activateMissing info.lastBackfill (window olog.log oinfo.lastUpdate)
            omissing).missing[o]? := by
  refine ⟨diverged, ?_⟩
  have hempty : ∀ o : Nat, shard.missing.missing[o]? = none := fun o => by simp [shard]
  obtain ⟨s', info', calls, oinfo, omissing, hrun, horun, hiff⟩ :=
    primary_agrees_iff diverged accurate
      (fun o item hitem => by rw [hempty o] at hitem; cases hitem)
      (fun v o => by rw [hempty o]; simp [shard]) rfl
  refine ⟨s', info', calls, oinfo, omissing, hrun, horun, ?_⟩
  rw [hiff]
  intro hall
  have htwo := hall 2 (by decide)
  rw [hempty 2] at htwo
  revert htwo
  unfold SameHave
  decide

/-- The replica drops its copy of object 2; the primary takes it to have the version
before the divergent entry. -/
theorem primary_keeps_dropped_have :
    Diverged common mine auth ⟨1, 3⟩ shard.log.toPgLog olog ∧
      Accurate info.lastBackfill (newest (common ++ mine)) store shard.missing ∧
      (shard.mergeLog olog info).map
          (fun r => r.1.missing.missing[2]?.map fun i => (i.need, i.have_)) =
        some (some (⟨2, 4⟩, 0)) ∧
      (PGLog.procReplicaLog olog info shard.log.toPgLog shard.missing).map
          (fun r => (activateMissing info.lastBackfill (window olog.log r.1.lastUpdate)
            r.2).missing[2]?.map fun i => (i.need, i.have_)) =
        some (some (⟨2, 4⟩, ⟨1, 2⟩)) :=
  ⟨diverged, accurate, by decide +kernel, by decide +kernel⟩

end Ceph.Osd
