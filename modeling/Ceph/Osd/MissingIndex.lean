import Ceph.Osd.MergeLog

set_option autoImplicit false

/-!
# The two indexes of a missing set

`rmissing` lists the missing objects by the number of the version they need,
without its epoch.  It is the inverse of `missing` as long as no two objects need
versions with the same number.  Within one history a number belongs to one
object, so an owner for each number in play is what carries the property through
the operations.
-/

namespace Ceph.Osd

open Std Ceph.Lib List Option MissingSet ExtTreeMap Branches

variable {O : Type} [LinearOrder O]

/-- `rmissing` is exactly the reverse of `missing`. -/
def MissingSet.Inverse (m : MissingSet O) : Prop :=
  ∀ (v : Nat) (o : O), m.rmissing[v]? = some o ↔
    ∃ item : MissingItem, m.missing[o]? = some item ∧ item.need.version = v

/-- The indexes are inverse, and every needed number belongs to its object. -/
structure Keyed (own : Nat → O) (m : MissingSet O) : Prop where
  inverse : m.Inverse
  owned : ∀ o item, m.missing[o]? = some item → own item.need.version = o

section Updates

variable {own : Nat → O} {m m' : MissingSet O} {oid : O}

section

variable (h : Keyed own m)

include h

/-- The object gets the item `new`, if any, and the old key goes. -/
theorem Keyed.set (new : Option MissingItem) (hown : ∀ i, new = some i → own i.need.version = oid)
    (hmissing : ∀ o, m'.missing[o]? = if oid = o then new else m.missing[o]?)
    (hrmissing : ∀ v, m'.rmissing[v]? = if new.map (fun i => i.need.version) = some v then some oid
      else if m.missing[oid]?.map (fun i => i.need.version) = some v then none
      else m.rmissing[v]?) : Keyed own m' := by
  have howned : ∀ o i, m'.missing[o]? = some i → own i.need.version = o := by
    intro o i hi
    rw [hmissing] at hi
    split at hi
    next heq => rw [hown i hi, heq]
    · exact h.owned o i hi
  refine ⟨fun v o => ?_, howned⟩
  rw [hrmissing, hmissing]
  by_cases ho : oid = o
  · subst ho
    rw [if_pos rfl, ← map_eq_some_iff]
    split
    next hv => exact iff_of_true rfl hv
    next hv =>
      refine iff_of_false (fun hr => ?_) hv
      split at hr
      · cases hr
      next hold => exact hold (map_eq_some_iff.2 ((h.inverse v oid).1 hr))
  · rw [if_neg ho, ← h.inverse v o]
    split
    next hv =>
      obtain ⟨i, hi, rfl⟩ := map_eq_some_iff.1 hv
      refine iff_of_false (by simp [ho]) fun hr => ho ?_
      obtain ⟨i', hi', hneed⟩ := (h.inverse _ o).1 hr
      rw [← hown i hi, ← hneed, h.owned o i' hi']
    · split
      next hold =>
        rw [(h.inverse v oid).2 (map_eq_some_iff.1 hold)]
        simp [ho]
      · rfl

theorem Keyed.rm (oid : O) : Keyed own (m.rm oid) := by
  refine h.set none (by simp) (m.rm_missing oid ·) fun v => ?_
  unfold MissingSet.rm
  cases hitem : m.missing[oid]? with
  | none => simp
  | some => simp [getElem?_erase]

theorem Keyed.rmUpTo (oid : O) (v : EVersion) : Keyed own (m.rmUpTo oid v) := by
  unfold MissingSet.rmUpTo
  split
  · exact h.rm oid
  · exact h

theorem Keyed.addNextEvent {e : LogEntry O}
    (hown : own e.version.version = e.soid) : Keyed own (m.addNextEvent e) := by
  refine h.set (some (nextItem e m.missing[e.soid]?)) (by simpa using hown)
    (addNextEvent_missing m · e) fun v => ?_
  unfold MissingSet.addNextEvent
  cases hitem : m.missing[e.soid]? with
  | none => simp [ExtTreeMap.getElem?_insert]
  | some => simp [ExtTreeMap.getElem?_insert, ExtTreeMap.getElem?_erase]

theorem Keyed.reviseNeed {need : EVersion} (isDelete : Bool)
    (hown : own need.version = oid) : Keyed own (m.reviseNeed oid need isDelete) := by
  refine h.set (some ⟨need, (m.missing[oid]?.map MissingItem.have_).getD 0, isDelete⟩)
    (by simpa using hown) (reviseNeed_missing m oid · need isDelete) fun v => ?_
  unfold MissingSet.reviseNeed
  cases hitem : m.missing[oid]? with
  | none => simp [ExtTreeMap.getElem?_insert]
  | some => simp [ExtTreeMap.getElem?_insert, ExtTreeMap.getElem?_erase]

theorem Keyed.add {need : EVersion} (have_ : EVersion) (isDelete : Bool)
    (hnone : m.missing[oid]? = none) (hown : own need.version = oid) :
    Keyed own (m.add oid need have_ isDelete) := by
  refine h.set (some ⟨need, have_, isDelete⟩) (by simpa using hown)
    (add_missing m oid · need have_ isDelete) fun v => ?_
  simp [MissingSet.add, hnone, ExtTreeMap.getElem?_insert]

theorem Keyed.reviseHave (oid : O) (have_ : EVersion) : Keyed own (m.reviseHave oid have_) := by
  cases hitem : m.missing[oid]? with
  | none =>
    have hsame : m.reviseHave oid have_ = m := by simp [MissingSet.reviseHave, hitem]
    rw [hsame]
    exact h
  | some item =>
    refine h.set (some { item with have_ := have_ }) (by simpa using h.owned oid item hitem) ?_
      fun v => ?_
    · intro _
      rw [reviseHave_missing, hitem]
      rfl
    · have hkey := (h.inverse item.need.version oid).2 ⟨item, hitem, rfl⟩
      simp only [MissingSet.reviseHave, hitem, map_some, some.injEq]
      split
      next hv => rw [← hv, hkey]
      · rfl

theorem Keyed.congr (hmissing : m'.missing = m.missing)
    (hrmissing : m'.rmissing = m.rmissing) : Keyed own m' :=
  ⟨fun v o => by rw [hmissing, hrmissing]; exact h.inverse v o,
    fun o i hi => h.owned o i (by rwa [← hmissing])⟩

theorem Keyed.markFullyDirty (oid : O) : Keyed own (m.markFullyDirty oid) := by
  unfold MissingSet.markFullyDirty
  split
  · exact h.congr rfl rfl
  · exact h

end

end Updates

/-! ## Appending and merging -/

variable {crt : EVersion} {r : MissingSet O × List (Call O)}

section Merging

variable {own : Nat → O}

/-- `add_next_event` is called for the entry. -/
def Added (lastBackfill : O) (track : Bool) (e : LogEntry O) : Prop :=
  e.soid ≤ lastBackfill ∧ e.isError = false ∧ (track = true ∨ e.isDelete = false)

theorem Keyed.appendMissingEntry {m : MissingSet O} (h : Keyed own m) (lastBackfill : O)
    (maintainRollback : Bool) {e : LogEntry O}
    (hown : Added lastBackfill m.mayIncludeDeletes e → own e.version.version = e.soid) :
    Keyed own (appendMissingEntry lastBackfill maintainRollback m e).1 := by
  unfold Ceph.Osd.appendMissingEntry
  split
  next he =>
    have herr : e.isError = false := by simpa using he.2
    split
    next htrack => exact h.addNextEvent (hown ⟨he.1, herr, .inl htrack⟩)
    · split
      · exact h.rmUpTo _ _
      next hdel => exact h.addNextEvent (hown ⟨he.1, herr, .inr (by simpa using hdel)⟩)
  · exact h

theorem Keyed.appendMissing (lastBackfill : O) (maintainRollback : Bool) {es : Entries O}
    {m : MissingSet O} (h : Keyed own m) (hown : ∀ e ∈ es,
      Added lastBackfill m.mayIncludeDeletes e → own e.version.version = e.soid) :
    Keyed own (appendMissing lastBackfill maintainRollback es m).1 := by
  induction es generalizing m with
  | nil => exact h
  | cons e _ ih =>
    apply ih (h.appendMissingEntry lastBackfill maintainRollback (hown e mem_cons_self))
    intro e' he'
    rw [appendMissingEntry_track]
    exact hown e' (mem_cons_of_mem _ he')

theorem Keyed.mergeStripped {log : IndexedLog O} {hoid : O} {first : LogEntry O}
    {rest : Entries O} {m : MissingSet O} (h : Keyed own m)
    (hown : first.isCreate = false → own first.priorVersion.version = hoid)
    (hr : mergeStripped log hoid first rest crt m = some r) : Keyed own r.1 := by
  unfold Ceph.Osd.mergeStripped at hr
  dsimp only at hr
  split at hr
  · split at hr
    · cases hr
      exact (h.reviseHave hoid 0).markFullyDirty hoid
    · cases hr
  · split at hr
    · cases hr
      split
      · exact h.rm hoid
      · exact h
    next hcreate =>
      have hprior := hown (by simpa using hcreate)
      split at hr
      · cases hr
        split
        · exact h.rm hoid
        · exact h.reviseNeed false hprior
      next hnone =>
        split at hr
        · cases hr
          exact h
        · cases hr
          exact h.add 0 false hnone hprior

/-- Every object whose divergent entries replace a version owns its number. -/
def PriorsOwned (own : Nat → O) (objects : List (O × Entries O)) : Prop :=
  ∀ p ∈ objects, ∀ first rest, stripErrors p.1 true false 0 p.2 = some (first :: rest) →
    first.isCreate = false → own first.priorVersion.version = p.1

theorem Keyed.mergeObjects {log : IndexedLog O} {info : PgInfo O} {objects : List (O × Entries O)}
    {m : MissingSet O} {r : MissingSet O × List (Call O)} (h : Keyed own m)
    (hown : PriorsOwned own objects) (hr : mergeObjects log info crt objects m = some r) :
    Keyed own r.1 := by
  induction objects generalizing m r with
  | nil =>
    simp only [Ceph.Osd.mergeObjects, some.injEq] at hr
    rw [← hr]
    exact h
  | cons p _ ih =>
    rw [Ceph.Osd.mergeObjects] at hr
    split at hr
    · cases hr
    next _ _ hone =>
      obtain ⟨r', hr', rfl⟩ := map_eq_some_iff.1 hr
      show Keyed own r'.1
      refine ih ?_ (fun q hq => hown q (mem_cons_of_mem _ hq)) hr'
      unfold mergeObjectDivergentEntries at hone
      split at hone
      · simp only [some.injEq, Prod.mk.injEq] at hone
        exact hone.1 ▸ h
      · split at hone
        · cases hone
        · split at hone
          · cases hone
          · simp only [some.injEq, Prod.mk.injEq] at hone
            exact hone.1 ▸ h
          next first rest hstrip =>
            exact h.mergeStripped (hown p mem_cons_self first rest hstrip) hone

end Merging

/-! ## The oldest need -/

variable {m : MissingSet O} {dflt : O} {e : LogEntry O} {hist : Entries O}

/-- Inverse indexes have the same number of entries. -/
theorem MissingSet.Inverse.size_eq (h : m.Inverse) : m.rmissing.size = m.missing.size := by
  rw [← ExtTreeMap.length_toList, ← ExtTreeMap.length_toList]
  have hrkeys : m.rmissing.toList.Nodup := List.Nodup.of_map Prod.fst (nodup_keys_toList m.rmissing)
  have hkeys : (m.missing.toList.map fun p => (p.2.need.version, p.1)).Nodup :=
    List.Nodup.of_map Prod.snd (by
      rw [List.map_map]
      exact nodup_keys_toList m.missing)
  have hperm := (List.perm_ext_iff_of_nodup hrkeys hkeys).2 fun p => by
    rw [mem_toList_iff_getElem?_eq_some, h p.1 p.2, List.mem_map]
    constructor
    · rintro ⟨item, hitem, hneed⟩
      exact ⟨(p.2, item), mem_toList_iff_getElem?_eq_some.2 hitem, Prod.ext hneed rfl⟩
    · rintro ⟨q, hq, rfl⟩
      exact ⟨q.2, mem_toList_iff_getElem?_eq_some.1 hq, rfl⟩
  rw [hperm.length_eq, length_map]

/-- With inverse indexes `get_oldest_need` finds a version, and no missing object
needs a version with a smaller number. -/
theorem MissingSet.Inverse.getOldestNeed (h : m.Inverse) :
    ∃ v, m.getOldestNeed = some v ∧
      ∀ (o : O) (item : MissingItem), m.missing[o]? = some item →
        v.version ≤ item.need.version := by
  unfold MissingSet.getOldestNeed
  split
  next hempty =>
    refine ⟨0, rfl, fun o item hitem => ?_⟩
    rw [isEmpty_iff.1 hempty] at hitem
    simp at hitem
  next hempty =>
    cases hlist : m.rmissing.toList with
    | nil =>
      -- a missing object would have a key
      refine absurd (ExtTreeMap.isEmpty_iff.2 (ExtTreeMap.ext_getElem? fun o => ?_)) hempty
      cases hitem : m.missing[o]? with
      | none => simp
      | some item =>
        have hkey := (h item.need.version o).2 ⟨item, hitem, rfl⟩
        rw [← mem_toList_iff_getElem?_eq_some, hlist] at hkey
        cases hkey
    | cons p =>
      have hp : m.rmissing[p.1]? = some p.2 := by
        rw [← mem_toList_iff_getElem?_eq_some, hlist]
        exact mem_cons_self
      obtain ⟨first, hfirst, hneed⟩ := (h p.1 p.2).1 hp
      refine ⟨first.need, by simp [hfirst], fun o item hitem => ?_⟩
      have hkey := (h item.need.version o).2 ⟨item, hitem, rfl⟩
      rw [← mem_toList_iff_getElem?_eq_some, hlist] at hkey
      have hordered := ordered_keys_toList (t := m.rmissing)
      rw [hlist, pairwise_cons] at hordered
      obtain heq | hmem := mem_cons.1 hkey
      · rw [hneed, ← heq]
      · have hlt := hordered.1 _ hmem
        rw [compare_eq_lt] at hlt
        rw [hneed]
        exact hlt.le

/-! ## Owners of version numbers -/

/-- The object of the first entry whose version has the number. -/
def ownerIn (hist : Entries O) (dflt : O) (v : Nat) : O :=
  ((hist.find? fun e => decide (e.version.version = v)).map LogEntry.soid).getD dflt

omit [LinearOrder O] in
theorem ownerIn_eq (hmem : e ∈ hist)
    (hall : ∀ f ∈ hist, f.version.version = e.version.version → f.soid = e.soid) :
    ownerIn hist dflt e.version.version = e.soid := by
  unfold ownerIn
  cases hfind : hist.find? fun f => decide (f.version.version = e.version.version) with
  | none => simpa using find?_eq_none.1 hfind e hmem
  | some f =>
    have hf : f.version.version = e.version.version := by simpa using find?_some hfind
    exact hall f (mem_of_find?_eq_some hfind) hf

omit [LinearOrder O] in
theorem ownerIn_append_left {hist' : Entries O} {v : Nat} (h : ∃ e ∈ hist, e.version.version = v) :
    ownerIn (hist ++ hist') dflt v = ownerIn hist dflt v := by
  obtain ⟨e, hmem, hv⟩ := h
  unfold ownerIn
  rw [find?_append]
  cases hfind : hist.find? fun f => decide (f.version.version = v) with
  | none =>
    have := find?_eq_none.1 hfind e hmem
    simp [hv] at this
  | some => rfl

omit [LinearOrder O] in
theorem Rising.ownerIn_eq (h : Rising hist) (he : e ∈ hist) :
    ownerIn hist dflt e.version.version = e.soid := by
  -- in one history a version number stands for one entry
  have hnodup : (hist.map fun a => a.version.version).Nodup :=
    pairwise_map.2 (h.imp fun hlt => hlt.2.ne)
  refine Ceph.Osd.ownerIn_eq he fun _ hf hv => ?_
  rw [inj_on_of_nodup_map hnodup hf he hv]

variable {lastBackfill : O}

/-- A missing set that is accurate for a history is keyed by its entries. -/
theorem MissingSet.Inverse.keyed (h : m.Inverse) {store : Store O} {own : Nat → O}
    (hacc : Accurate lastBackfill (newest hist) store m)
    (hback : ∀ o item, m.missing[o]? = some item → o ≤ lastBackfill)
    (hown : ∀ e ∈ hist, ∀ item, m.missing[e.soid]? = some item → item.need = e.version → own
      e.version.version = e.soid) : Keyed own m := by
  refine ⟨h, fun o item hitem => ?_⟩
  have hobj := hacc o (hback o item hitem)
  rw [hitem] at hobj
  obtain ⟨e, he, hneed, -⟩ := hobj
  obtain ⟨hmem, rfl, -⟩ := mem_of_newest he
  rw [hneed]
  exact hown e hmem item hitem hneed

/-! ## The operations -/

section Operations

variable {common mine auth : Entries O} {own : Nat → O}

variable {info info' : PgInfo O} {m : MissingSet O} {log olog : PgLog O} {point : EVersion}
    {calls : List (Call O)} {s s' : PGLog O} {store : Store O}

theorem Keyed.mergeDivergentEntries {log : IndexedLog O} (h : Keyed own m)
    (hlinked : Linked common mine) (hrising : Rising (common ++ mine))
    (hpos : ∀ e ∈ mine, 0 < e.version) (hown : ∀ f ∈ common, own f.version.version = f.soid)
    (hr : mergeDivergentEntries log mine info crt m = some r) : Keyed own r.1 := by
  refine h.mergeObjects (fun p hp first rest hstrip hcreate => ?_) hr
  rw [(mem_splitByObject hp).1, stripErrors_eq hlinked hrising hpos (.inl ⟨rfl, rfl⟩),
    some.injEq] at hstrip
  have hchain := hlinked.chained p.1 hrising
  rw [hstrip] at hchain
  have hprior := hchain.1.replaces hcreate
  cases hcur : newest common p.1 with
  | none =>
    rw [hcur] at hprior
    cases hprior
  | some f =>
    rw [hcur, versionOf] at hprior
    split at hprior
    · cases hprior
    · rw [some.injEq] at hprior
      obtain ⟨hmem, hsoid, -⟩ := mem_of_newest hcur
      rw [← hprior, hown f hmem, hsoid]

/-- The shard's log can be cut at `newhead`: what it logged since is `mine`. -/
structure Rewindable (common mine : Entries O) (newhead : EVersion) (log : PgLog O) :
    Prop where
  rising : Rising (common ++ mine)
  linked : Linked [] (common ++ mine)
  positive : ∀ e ∈ mine, 0 < e.version
  commonUpto : ∀ e ∈ common, e.version.Upto newhead
  mineAfter : ∀ e ∈ mine, newhead.Precedes e.version
  tail : log.tail ≤ newhead
  logEntries : log.log = window common log.tail ++ mine

/-- The objects of a missing set are up to `last_backfill`. -/
def Within (lastBackfill : O) (m : MissingSet O) : Prop :=
  ∀ o item, m.missing[o]? = some item → o ≤ lastBackfill

/-- No entry that `merge_log` appends for another object has the number of a
version that a missing object needs. -/
def Clear (auth : Entries O) (lastBackfill : O) (m : MissingSet O) : Prop :=
  ∀ (o : O) (item : MissingItem), m.missing[o]? = some item →
    ∀ e ∈ auth, Added lastBackfill m.mayIncludeDeletes e →
      e.version.version = item.need.version → e.soid = o

/-- Divergent entries of one history are taken back with inverse indexes. -/
theorem MissingSet.Inverse.mergeDivergentEntries {log : IndexedLog O} (hinv : m.Inverse)
    (hlinked : Linked [] (common ++ mine)) (hrising : Rising (common ++ mine))
    (hpos : ∀ e ∈ mine, 0 < e.version)
    (hacc : Accurate lastBackfill (newest (common ++ mine)) store m) (hback : Within lastBackfill m)
    (hr : mergeDivergentEntries log mine info crt m = some r) : r.1.Inverse := by
  have hkeyed : Keyed (ownerIn (common ++ mine) lastBackfill) m :=
    hinv.keyed hacc hback fun e he _ _ _ => hrising.ownerIn_eq he
  exact (hkeyed.mergeDivergentEntries hlinked.right hrising hpos
    (fun f hf => hrising.ownerIn_eq (mem_append_left _ hf)) hr).inverse

theorem inverse_mergeLog (hinv : s.missing.Inverse)
    (h : Diverged common mine auth point s.log.toPgLog olog)
    (hacc : Accurate info.lastBackfill (newest (common ++ mine)) store s.missing)
    (hback : Within info.lastBackfill s.missing) (hclear : Clear auth info.lastBackfill s.missing)
    (hrun : s.mergeLog olog info = some (s', info', calls)) : s'.missing.Inverse := by
  obtain ⟨_, _, _, hrun₁, hmerged⟩ := h.mergeLog hacc
  rw [hrun, some.injEq, Prod.mk.injEq] at hrun₁
  obtain ⟨_, _, _, -, -, -, hmiss⟩ := hrun₁.1 ▸ hmerged.missing
  -- an appended entry owns its number, the other numbers belong to the local history
  let added := auth.filter fun e =>
    decide (e.soid ≤ info.lastBackfill) && !e.isError &&
      (s.missing.mayIncludeDeletes || !e.isDelete)
  have hadded : ∀ e, e ∈ added ↔
      e ∈ auth ∧ Added info.lastBackfill s.missing.mayIncludeDeletes e := by
    simp [added, Added, and_assoc]
  let own := ownerIn (added ++ (common ++ mine)) info.lastBackfill
  have hownAuth : ∀ e ∈ auth, Added info.lastBackfill s.missing.mayIncludeDeletes e →
      own e.version.version = e.soid := by
    intro e he hadd
    have hmem := (hadded e).2 ⟨he, hadd⟩
    rw [show own e.version.version = _ from ownerIn_append_left ⟨e, hmem, rfl⟩]
    exact Rising.ownerIn_eq ((pairwise_append.1 h.authRising).2.1.sublist filter_sublist) hmem
  have hownMine : ∀ e ∈ common ++ mine,
      (∀ f ∈ auth, Added info.lastBackfill s.missing.mayIncludeDeletes f →
        f.version.version = e.version.version → f.soid = e.soid) →
      own e.version.version = e.soid := by
    intro e he hfree
    by_cases hclash : ∃ f ∈ added, f.version.version = e.version.version
    · obtain ⟨f, hf, hv⟩ := hclash
      obtain ⟨hfauth, hfadd⟩ := (hadded f).1 hf
      rw [← hv, hownAuth f hfauth hfadd, hfree f hfauth hfadd hv]
    · have hnone : ∀ f ∈ added, f.version.version ≠ e.version.version := fun f hf hv =>
        hclash ⟨f, hf, hv⟩
      rw [← h.mineRising.ownerIn_eq he]
      unfold own ownerIn
      rw [find?_append, find?_eq_none.2 (by simpa using hnone), none_or]
  have hkeyed : Keyed own s.missing := by
    refine hinv.keyed hacc hback fun e he item hitem hneed => hownMine e he ?_
    intro f hf hadd hv
    exact hclear e.soid item hitem f hf hadd (by rw [hneed, hv])
  have hcommon : ∀ f ∈ common, own f.version.version = f.soid := by
    intro f hf
    refine hownMine f (mem_append_left _ hf) fun e he _ hv => ?_
    have hlt := ((h.commonUpto f hf).trans_precedes (h.authAfter e he)).2
    omega
  exact ((hkeyed.appendMissing info.lastBackfill false hownAuth).mergeDivergentEntries
    h.mineLinked.right h.mineRising h.mine_pos hcommon hmiss).inverse

theorem inverse_rewindDivergentLog {newhead : EVersion} (hinv : s.missing.Inverse)
    (h : Rewindable common mine newhead s.log.toPgLog)
    (hacc : Accurate info.lastBackfill (newest (common ++ mine)) store s.missing)
    (hback : Within info.lastBackfill s.missing)
    (hrun : s.rewindDivergentLog newhead info = some (s', info', calls)) : s'.missing.Inverse := by
  obtain ⟨log', hrewind, -⟩ := rewindFromHead_eq h.logEntries h.tail
    (fun e he => (h.commonUpto e (mem_window.1 he).1).2) h.mineAfter
  rw [PGLog.rewindDivergentLog, hrewind] at hrun
  obtain ⟨r, hr, heq⟩ := map_eq_some_iff.1 hrun
  simp only [Prod.mk.injEq] at heq
  have hmissing : s'.missing = r.1 := by rw [← heq.1]
  have hmarked : mergeDivergentEntries log' mine
      { info with lastComplete := min info.lastComplete newhead, lastUpdate := newhead }
      s.log.canRollbackTo s.missing = some r := by
    rw [← hr]
    cases mine <;> rfl
  rw [hmissing]
  exact hinv.mergeDivergentEntries h.linked h.rising h.positive hacc hback hmarked

/-- What `proc_replica_log` does for a replica with a divergent log. -/
theorem Diverged.procReplicaLog_eq (h : Diverged common mine auth point log olog)
    (oinfo : PgInfo O) (omissing : MissingSet O) :
    (log.head = olog.head ∧ mine = [] ∧
        PGLog.procReplicaLog olog oinfo log omissing = some (oinfo, omissing)) ∨
      ∃ folog, ObjectsRight folog ∧ folog.log = window common log.tail ∧
        PGLog.procReplicaLog olog oinfo log omissing =
          (mergeDivergentEntries folog mine oinfo log.canRollbackTo omissing).bind fun r =>
            (PGLog.replicaLastComplete log (min oinfo.lastUpdate (PGLog.lastShared olog log))
              r.1).map fun lastComplete =>
                ({ oinfo with
                    lastUpdate := min oinfo.lastUpdate (PGLog.lastShared olog log)
                    lastComplete := lastComplete }, r.1) := by
  have hover : ¬ log.head < olog.tail := (h.otailUpto.le.trans h.pointHead).not_gt
  unfold PGLog.procReplicaLog
  rw [if_neg hover]
  split
  next heq => exact .inl ⟨heq, h.mine_eq_nil heq, rfl⟩
  · obtain ⟨hlimit, hupto, hkept⟩ := h.lastShared
    obtain ⟨folog, hrewind, hlog, -, -, hidx⟩ := rewindFromHead_eq (l := IndexedLog.ofPgLog log)
      h.logEntries ((le_max_left _ _).trans hlimit) (fun e he => (hkept e (mem_window.1 he).1).2)
      fun e he => hupto.trans_precedes (h.mineAfter e he)
    refine .inr ⟨folog, hidx, hlog, ?_⟩
    dsimp only
    rw [hrewind]
    dsimp only
    cases mergeDivergentEntries folog mine oinfo log.canRollbackTo omissing <;> rfl

theorem inverse_procReplicaLog {oinfo oinfo' : PgInfo O} {omissing omissing' : MissingSet O}
    (hinv : omissing.Inverse) (h : Diverged common mine auth point log olog)
    (hacc : Accurate oinfo.lastBackfill (newest (common ++ mine)) store omissing)
    (hback : Within oinfo.lastBackfill omissing)
    (hrun : PGLog.procReplicaLog olog oinfo log omissing = some (oinfo', omissing')) :
    omissing'.Inverse := by
  obtain heq | hmerge := h.procReplicaLog_eq oinfo omissing
  · rw [heq.2.2, some.injEq, Prod.mk.injEq] at hrun
    exact hrun.2 ▸ hinv
  · obtain ⟨_, -, -, heq⟩ := hmerge
    rw [heq] at hrun
    obtain ⟨_, hr, hrest⟩ := bind_eq_some_iff.1 hrun
    obtain ⟨_, -, heq'⟩ := map_eq_some_iff.1 hrest
    simp only [Prod.mk.injEq] at heq'
    rw [← heq'.2]
    exact hinv.mergeDivergentEntries h.mineLinked h.mineRising h.mine_pos hacc hback hr

theorem inverse_append {hist es : Entries O} {maintainRollback : Bool} {log log' : IndexedLog O}
    {m' : MissingSet O} (hinv : m.Inverse) (hrising : Rising (hist ++ es))
    (hacc : Accurate lastBackfill (newest hist) store m) (hback : Within lastBackfill m)
    (hrun : appendLogEntriesUpdateMissing lastBackfill es
      maintainRollback log m = some (log', m', calls)) : m'.Inverse := by
  obtain ⟨_, -, heq⟩ := map_eq_some_iff.1 hrun
  simp only [Prod.mk.injEq] at heq
  have hown : ∀ e ∈ hist ++ es,
      ownerIn (hist ++ es) lastBackfill e.version.version = e.soid := fun e he =>
    hrising.ownerIn_eq he
  have hkeyed : Keyed (ownerIn (hist ++ es) lastBackfill) m :=
    hinv.keyed hacc hback fun e he _ _ _ => hown e (mem_append_left _ he)
  have hkeyed' := hkeyed.appendMissing lastBackfill maintainRollback
    fun e he _ => hown e (mem_append_right _ he)
  rw [heq.2] at hkeyed'
  exact hkeyed'.inverse

/-- A set with inverse indexes is keyed by `rmissing` itself. -/
theorem MissingSet.Inverse.keyed_self (h : m.Inverse) (dflt : O) :
    Keyed (fun v => m.rmissing[v]?.getD dflt) m :=
  ⟨h, fun o item hitem => by
    have hkey := (h item.need.version o).2 ⟨item, hitem, rfl⟩
    rw [hkey, getD_some]⟩

theorem MissingSet.Inverse.rm (h : m.Inverse) (oid : O) : (m.rm oid).Inverse :=
  ((h.keyed_self oid).rm oid).inverse

theorem inverse_recoverGot {oid : O} {v : EVersion} (hinv : s.missing.Inverse)
    (hrun : s.recoverGot oid v info = some (s', info')) : s'.missing.Inverse := by
  unfold PGLog.recoverGot at hrun
  split at hrun
  · cases hrun
  · split at hrun
    · split at hrun
      · cases hrun
      next missing hgot =>
        have hmissing : missing = s.missing.rm oid := by
          unfold got at hgot
          split at hgot
          · split at hgot
            · exact (some.inj hgot).symm
            · cases hgot
          · cases hgot
        dsimp only at hrun
        split at hrun
        · cases hrun
        · simp only [some.injEq, Prod.mk.injEq] at hrun
          rw [← hrun.1, hmissing]
          exact hinv.rm oid
    · simp only [some.injEq, Prod.mk.injEq] at hrun
      rw [← hrun.1]
      exact hinv

/-- The loop of `split_into` keeps both sides keyed. -/
theorem keyed_foldl_splitStep (inChild : O → Bool) {items : List (O × MissingItem)}
    {m c : MissingSet O} (hnodup : (items.map Prod.fst).Nodup) (hm : Keyed own m) (hc : Keyed own c)
    (hitems : ∀ p ∈ items, own p.2.need.version = p.1 ∧ c.missing[p.1]? = none) :
    Keyed own (items.foldl (splitStep inChild) (m, c)).1 ∧
      Keyed own (items.foldl (splitStep inChild) (m, c)).2 := by
  induction items generalizing m c with
  | nil => exact ⟨hm, hc⟩
  | cons p _ ih =>
    rw [map_cons, nodup_cons] at hnodup
    obtain ⟨hown, hnone⟩ := hitems p mem_cons_self
    rw [foldl_cons, splitStep]
    split
    · refine ih hnodup.2 (hm.rm p.1) (hc.add p.2.have_ p.2.isDelete hnone hown) fun q hq => ?_
      have hne : p.1 ≠ q.1 := by
        intro heq
        exact hnodup.1 (heq ▸ mem_map_of_mem hq)
      rw [add_missing, if_neg hne]
      exact hitems q (mem_cons_of_mem _ hq)
    · exact ih hnodup.2 hm hc fun q hq => hitems q (mem_cons_of_mem _ hq)

theorem inverse_splitInto {child : MissingSet O} (inChild : O → Bool) (hinv : m.Inverse)
    (hmissing : child.missing = ∅) (hrmissing : child.rmissing = ∅) :
    (m.splitInto inChild child).1.Inverse ∧ (m.splitInto inChild child).2.Inverse := by
  have hchild : ∀ c : MissingSet O, c.missing = ∅ → c.rmissing = ∅ → c.Inverse := by
    intro c hc hrc _ o
    rw [hc, hrc]
    simp
  unfold splitInto
  cases hlist : m.missing.toList with
  | nil => exact ⟨hinv, hchild _ hmissing hrmissing⟩
  | cons p =>
    have hkeyed := hinv.keyed_self p.1
    have hboth := keyed_foldl_splitStep inChild (nodup_keys_toList m.missing) hkeyed
      (c := { child with mayIncludeDeletes := m.mayIncludeDeletes })
      ⟨hchild _ hmissing hrmissing, fun o item hitem => by
        rw [hmissing] at hitem
        simp at hitem⟩
      fun q hq => ⟨hkeyed.owned q.1 q.2 (mem_toList_iff_getElem?_eq_some.1 hq), by
        rw [hmissing]
        simp⟩
    rw [hlist] at hboth
    exact ⟨hboth.1.inverse, hboth.2.inverse⟩

end Operations

/-! ## Runs -/

/-- The operations on missing sets, on logs that meet their preconditions: the
missing set is accurate for the local history and holds no object beyond
`last_backfill`.  A merge must also meet the condition `Clear`. -/
inductive MissingStep : MissingSet O → MissingSet O → Prop where
  | mergeLog {common mine auth : Entries O} {point : EVersion} {s s' : PGLog O}
      {olog : PgLog O} {info info' : PgInfo O} {store : Store O} {calls : List (Call O)}
      (h : Diverged common mine auth point s.log.toPgLog olog)
      (hacc : Accurate info.lastBackfill (newest (common ++ mine)) store s.missing)
      (hback : Within info.lastBackfill s.missing)
      (hclear : Clear auth info.lastBackfill s.missing)
      (hrun : s.mergeLog olog info = some (s', info', calls)) :
      MissingStep s.missing s'.missing
  | rewindDivergentLog {common mine : Entries O} {newhead : EVersion} {s s' : PGLog O}
      {info info' : PgInfo O} {store : Store O} {calls : List (Call O)}
      (h : Rewindable common mine newhead s.log.toPgLog)
      (hacc : Accurate info.lastBackfill (newest (common ++ mine)) store s.missing)
      (hback : Within info.lastBackfill s.missing)
      (hrun : s.rewindDivergentLog newhead info = some (s', info', calls)) :
      MissingStep s.missing s'.missing
  | procReplicaLog {common mine auth : Entries O} {point : EVersion}
      {log olog : PgLog O} {oinfo oinfo' : PgInfo O} {omissing omissing' : MissingSet O}
      {store : Store O} (h : Diverged common mine auth point log olog)
      (hacc : Accurate oinfo.lastBackfill (newest (common ++ mine)) store omissing)
      (hback : Within oinfo.lastBackfill omissing)
      (hrun : PGLog.procReplicaLog olog oinfo log omissing = some (oinfo', omissing')) :
      MissingStep omissing omissing'
  | append {hist es : Entries O} {lastBackfill : O} {maintainRollback : Bool}
      {log log' : IndexedLog O} {m m' : MissingSet O} {store : Store O} {calls : List (Call O)}
      (hrising : Rising (hist ++ es)) (hacc : Accurate lastBackfill (newest hist) store m)
      (hback : Within lastBackfill m)
      (hrun : appendLogEntriesUpdateMissing lastBackfill es maintainRollback log m =
        some (log', m', calls)) :
      MissingStep m m'
  | recoverGot {s s' : PGLog O} {oid : O} {v : EVersion} {info info' : PgInfo O}
      (hrun : s.recoverGot oid v info = some (s', info')) : MissingStep s.missing s'.missing
  | splitStays {m child : MissingSet O} (inChild : O → Bool) (hmissing : child.missing = ∅)
      (hrmissing : child.rmissing = ∅) : MissingStep m (m.splitInto inChild child).1
  | splitMoves {m child : MissingSet O} (inChild : O → Bool) (hmissing : child.missing = ∅)
      (hrmissing : child.rmissing = ∅) : MissingStep m (m.splitInto inChild child).2

theorem MissingStep.inverse {m' : MissingSet O} (h : MissingStep m m') (hinv : m.Inverse) :
    m'.Inverse := by
  cases h with
  | mergeLog h hacc hback hclear hrun => exact inverse_mergeLog hinv h hacc hback hclear hrun
  | rewindDivergentLog h hacc hback hrun => exact inverse_rewindDivergentLog hinv h hacc hback hrun
  | procReplicaLog h hacc hback hrun => exact inverse_procReplicaLog hinv h hacc hback hrun
  | append hrising hacc hback hrun => exact inverse_append hinv hrising hacc hback hrun
  | recoverGot hrun => exact inverse_recoverGot hinv hrun
  | splitStays inChild hmissing hrmissing =>
    exact (inverse_splitInto inChild hinv hmissing hrmissing).1
  | splitMoves inChild hmissing hrmissing =>
    exact (inverse_splitInto inChild hinv hmissing hrmissing).2

/-- The indexes stay inverse along every run whose merges meet the condition, so
that the walk over `rmissing` meets every missing object and `get_oldest_need`
finds the oldest version needed. -/
theorem missing_inverse_of_run {m m' : MissingSet O} (hinv : m.Inverse)
    (hrun : Relation.ReflTransGen MissingStep m m') :
    m'.Inverse ∧ m'.rmissing.size = m'.missing.size ∧
      ∃ v, m'.getOldestNeed = some v ∧
        ∀ (o : O) (item : MissingItem), m'.missing[o]? = some item →
          v.version ≤ item.need.version := by
  have hinv' : m'.Inverse := by
    induction hrun with
    | refl => exact hinv
    | tail _ hstep ih => exact hstep.inverse ih
  exact ⟨hinv', hinv'.size_eq, hinv'.getOldestNeed⟩

/-- After the merge two objects are missing, of which one is recovered. -/
theorem missing_inverse_of_run_branches :
    Branches.shard.missing.Inverse ∧
      ∃ a b, Branches.shard.mergeLog Branches.olog Branches.info = some a ∧
        a.1.missing.missing.size = 2 ∧ a.1.recoverGot 2 ⟨2, 4⟩ a.2.1 = some b ∧
        b.1.missing.Inverse ∧ b.1.missing.rmissing.size = 1 := by
  have hempty : ∀ o : Nat, shard.missing.missing[o]? = none := fun o => by
    simp [shard]
  have hinv : shard.missing.Inverse := by
    intro _ o
    simp [shard]
  have hrun : ((shard.mergeLog olog info).bind fun a => (a.1.recoverGot 2 ⟨2, 4⟩ a.2.1).map fun b =>
      (a.1.missing.missing.size, b.1.missing.missing.size)) = some (2, 1) := by
    decide +kernel
  simp only [bind_eq_some_iff, map_eq_some_iff, Prod.mk.injEq] at hrun
  obtain ⟨a, hmerge, b, hgot, htwo, hone⟩ := hrun
  have hstep : MissingStep shard.missing a.1.missing :=
    .mergeLog diverged accurate
      (fun o item hitem => by rw [hempty o] at hitem; cases hitem)
      (fun o item hitem => by rw [hempty o] at hitem; cases hitem) hmerge
  have hres := missing_inverse_of_run hinv (.tail (.single hstep) (.recoverGot hgot))
  exact ⟨hinv, a, b, hmerge, htwo, hgot, hres.1, hres.2.1.trans hone⟩

-- The local log and the authoritative one use the number 10 for two objects, and
-- the local one is missing its own.
namespace Collision

def common : Entries Nat :=
  [⟨.modify, 1, ⟨5, 8⟩, 0, {}, [], [], 0, 0, [], false⟩,
    ⟨.modify, 2, ⟨5, 9⟩, 0, {}, [], [], 0, 0, [], false⟩]

def mine : Entries Nat := [⟨.modify, 1, ⟨5, 10⟩, ⟨5, 8⟩, {}, [], [], 0, 0, [], false⟩]

def auth : Entries Nat := [⟨.modify, 2, ⟨6, 10⟩, ⟨5, 9⟩, {}, [], [], 0, 0, [], false⟩]

def log : PgLog Nat := ⟨⟨5, 10⟩, 0, 0, 0, common ++ mine, []⟩

def olog : PgLog Nat := ⟨⟨6, 10⟩, 0, 0, 0, common ++ auth, []⟩

def missing : MissingSet Nat := add {} 1 ⟨5, 10⟩ ⟨5, 8⟩ false

def shard : PGLog Nat := { log := IndexedLog.ofPgLog log, missing := missing }

def info : PgInfo Nat := ⟨⟨5, 10⟩, ⟨5, 9⟩, 0, 3⟩

def store : Store Nat
  | 1 => some ⟨5, 8⟩
  | 2 => some ⟨5, 9⟩
  | _ => none

theorem diverged : Diverged common mine auth ⟨5, 9⟩ shard.log.toPgLog olog := by
  constructor <;> decide

theorem getElem?_missing (o : Nat) :
    shard.missing.missing[o]? = if 1 = o then some ⟨⟨5, 10⟩, ⟨5, 8⟩, false⟩ else none := by
  show (add {} 1 ⟨5, 10⟩ ⟨5, 8⟩ false).missing[o]? = _
  simp

theorem inverse : shard.missing.Inverse := by
  have hempty : Keyed (fun _ => 1) ({} : MissingSet Nat) :=
    ⟨fun v o => by simp, fun o item hitem => by simp at hitem⟩
  exact (hempty.add _ _ (by simp) rfl).inverse

theorem within : Within info.lastBackfill shard.missing := by
  intro _ _ hitem
  rw [getElem?_missing] at hitem
  split at hitem
  next heq =>
    subst heq
    decide
  · cases hitem

theorem accurate : Accurate info.lastBackfill (newest (common ++ mine)) store shard.missing := by
  intro o ho
  have ho' : o ≤ 3 := ho
  rw [getElem?_missing]
  cases Nat.decEq 1 o with
  | isTrue heq =>
    subst heq
    exact ⟨_, rfl, rfl, rfl, by decide, .inr rfl⟩
  | isFalse hne =>
    rw [if_neg hne]
    show store o = versionOf (newest (common ++ mine) o)
    interval_cases o <;> first | decide | exact absurd rfl hne

end Collision

/-- Object 2 is missing after the merge and `rmissing` is empty. -/
theorem mergeLog_drops_reverse_key :
    Diverged Collision.common Collision.mine Collision.auth ⟨5, 9⟩
        Collision.shard.log.toPgLog Collision.olog ∧
      Accurate Collision.info.lastBackfill (newest (Collision.common ++ Collision.mine))
        Collision.store Collision.shard.missing ∧
      Within Collision.info.lastBackfill Collision.shard.missing ∧
      Collision.shard.missing.Inverse ∧
      (Collision.shard.mergeLog Collision.olog Collision.info).map
          (fun r => (r.1.missing.missing.toList.map fun p => (p.1, p.2.need),
            r.1.missing.rmissing.toList, r.1.missing.getOldestNeed)) =
        some ([(2, ⟨6, 10⟩)], [], none) :=
  ⟨Collision.diverged, Collision.accurate, Collision.within, Collision.inverse, by decide +kernel⟩

end Ceph.Osd
