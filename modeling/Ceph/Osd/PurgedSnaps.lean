import Mathlib.Data.List.Pairwise
import Ceph.Lib.Omap
import Ceph.Lib.EndIndex
import Ceph.Lib.Run

set_option autoImplicit false

/-!
# The index of purged snaps (osd/SnapMapper.cc)

Each interval of purged snaps of a pool is a record in the omap of one object,
under a key made of the pool and the last snap of the interval.  A lookup takes
the first record at or after the key of the snap; recording joins an interval
with the records found right before and right after it.
-/

namespace Ceph.Osd

open Ceph.Lib List Option Omap

/-! ## The model -/

/-- An interval of snap ids, as `snap_interval_set_t` iterates them: not empty
and with an end that is a snap id itself. -/
structure SnapInterval where
  start : Nat
  stop : Nat
  lt : start < stop
  stop_lt : stop < 2 ^ 64

/-- What one call of `make_purged_snap_key_value` encodes. -/
structure PurgedRecord where
  pool : Int64
  start : Nat
  stop : Nat
  deriving DecidableEq

/-- The omap object of the index; a value is the records encoded into its
buffer one after the other. -/
abbrev PurgedStore := Omap (List Char) (List PurgedRecord)

def purgedSnapPrefix : List Char := ['P', 'S', 'N', '_']

/-- `"%s_%llu_%016llx"`. -/
def makePurgedSnapKey (pool : Int64) (last : Nat) : List Char :=
  purgedSnapPrefix ++ ('_' :: (decimal pool.toUInt64.toNat ++ ('_' :: fixedHex false 16 last)))

/-- The encoding is appended to the buffer under the key. -/
def makePurgedSnapKeyValue (pool : Int64) (start stop : Nat) (m : PurgedStore) : PurgedStore :=
  let k := makePurgedSnapKey pool (stop - 1)
  m.set k ((m.get? k).getD [] ++ [⟨pool, start, stop⟩])

/-- `_lookup_purged_snap`: `none` is `-ENOENT`.  The pool of the record that is
found is decoded and not looked at. -/
def lookupPurgedSnap (store : PurgedStore) (pool : Int64) (snap : Nat) : Option (Nat × Nat) :=
  match store.lowerBound (makePurgedSnapKey pool snap) with
  | none => none
  | some (k, v) =>
    if purgedSnapPrefix.isPrefixOf k then
      match v with
      | [] => none
      | r :: _ => if snap < r.start ∨ r.stop ≤ snap then none else some (r.start, r.stop)
    else none

/-- What a call has collected for its transaction. -/
structure PurgedPending where
  m : PurgedStore
  rm : List (List Char)

/-- `begin - 1`, in 64 bits. -/
def prevSnap (snap : Nat) : Nat := (snap + (2 ^ 64 - 1)) % 2 ^ 64

/-- An interval of snapshots of a pool. -/
abbrev PoolInterval := Int64 × SnapInterval

/-- The body of the loop over the intervals. -/
def recordInterval (store : PurgedStore) (acc : PurgedPending) (e : PoolInterval) : PurgedPending :=
  let pool := e.1
  let i := e.2
  match lookupPurgedSnap store pool (prevSnap i.start), lookupPurgedSnap store pool i.stop with
  | some (beforeStart, beforeStop), some (_, afterStop) =>
    { rm := acc.rm ++ [makePurgedSnapKey pool (beforeStop - 1)]
      m := makePurgedSnapKeyValue pool beforeStart afterStop acc.m }
  | some (beforeStart, beforeStop), none =>
    { rm := acc.rm ++ [makePurgedSnapKey pool (beforeStop - 1)]
      m := makePurgedSnapKeyValue pool beforeStart i.stop acc.m }
  | none, some (_, afterStop) =>
    { acc with m := makePurgedSnapKeyValue pool i.start afterStop acc.m }
  | none, none => { acc with m := makePurgedSnapKeyValue pool i.start i.stop acc.m }

/-- The argument of a call: the purged snaps by epoch and by pool. -/
abbrev PurgedSnaps := List (Nat × List (Int64 × List SnapInterval))

/-- The intervals in the order of the three nested loops. -/
def intervalsOf (purged : PurgedSnaps) : List PoolInterval :=
  purged.flatMap fun byEpoch =>
    byEpoch.2.flatMap fun byPool => byPool.2.map fun i => (byPool.1, i)

/-- `record_purged_snaps` with its transaction applied: the keys collected are
removed, then the others set. -/
def recordPurgedSnaps (store : PurgedStore) (purged : PurgedSnaps) : PurgedStore :=
  let acc := (intervalsOf purged).foldl (recordInterval store) ⟨Omap.empty, []⟩
  (store.eraseAll acc.rm).setAll acc.m

/-- The store together with what has been recorded in it. -/
structure PurgedState where
  store : PurgedStore
  recorded : List PoolInterval

def PurgedState.init : PurgedState := ⟨Omap.empty, []⟩

def PurgedState.step (st : PurgedState) (purged : PurgedSnaps) : Option PurgedState :=
  some ⟨recordPurgedSnaps st.store purged, st.recorded ++ intervalsOf purged⟩

open PurgedState

/-! ## What is claimed of a lookup -/

/-- `t` was in an interval recorded for the pool. -/
def Purged (recorded : List PoolInterval) (pool : Int64) (t : Nat) : Prop :=
  ∃ i, (pool, i) ∈ recorded ∧ i.start ≤ t ∧ t < i.stop

instance (recorded : List PoolInterval) (pool : Int64) (t : Nat) :
    Decidable (Purged recorded pool t) :=
  decidable_of_iff (∃ e ∈ recorded, e.1 = pool ∧ e.2.start ≤ t ∧ t < e.2.stop)
    ⟨fun ⟨e, he, hp, ht⟩ => ⟨e.2, hp ▸ he, ht⟩, fun ⟨i, hi, ht⟩ => ⟨(pool, i), hi, rfl, ht⟩⟩

/-- The lookup succeeds for recorded snaps only, with recorded snaps only. -/
structure LookupExact (st : PurgedState) (pool : Int64) (snap : Nat) : Prop where
  succeeds_iff : (lookupPurgedSnap st.store pool snap).isSome ↔ Purged st.recorded pool snap
  contains : ∀ start stop, lookupPurgedSnap st.store pool snap = some (start, stop) →
    start ≤ snap ∧ snap < stop ∧ ∀ t, start ≤ t → t < stop → Purged st.recorded pool t

/-- The part of a key that names the pool, with the separator behind it. -/
def poolPrefix (pool : Int64) : List Char :=
  purgedSnapPrefix ++ ('_' :: (decimal pool.toUInt64.toNat ++ ['_']))

/-- In the order of the keys the pool of `e` is the next one behind `pool` that has intervals,
and `e` is its first interval. -/
def FirstBehind (recorded : List PoolInterval) (pool : Int64) (e : PoolInterval) : Prop :=
  poolPrefix pool < poolPrefix e.1 ∧ ∀ e' ∈ recorded, poolPrefix pool < poolPrefix e'.1 →
    poolPrefix e.1 ≤ poolPrefix e'.1 ∧ (e'.1 = e.1 → e.2.start ≤ e'.2.start)

/-- The snap is past all intervals of the pool, and among the snaps recorded without a gap from
the first one of the next pool on. -/
def Foreign (recorded : List PoolInterval) (pool : Int64) (snap : Nat) : Prop :=
  (∀ e ∈ recorded, e.1 = pool → e.2.stop ≤ snap) ∧
    ∃ e ∈ recorded, FirstBehind recorded pool e ∧ e.2.start ≤ snap ∧
      ∀ t ≤ snap, e.2.start ≤ t → Purged recorded e.1 t

instance (recorded : List PoolInterval) (pool : Int64) (e : PoolInterval) :
    Decidable (FirstBehind recorded pool e) := inferInstanceAs (Decidable (_ ∧ _))

instance (recorded : List PoolInterval) (pool : Int64) (snap : Nat) :
    Decidable (Foreign recorded pool snap) := inferInstanceAs (Decidable (_ ∧ _))

/-- A call that records disjoint intervals, whose neighbours are not taken for those of the
next pool. -/
structure PurgedOk (st : PurgedState) (purged : PurgedSnaps) : Prop where
  disjoint : (st.recorded ++ intervalsOf purged).Pairwise fun a b =>
    a.1 = b.1 → a.2.stop ≤ b.2.start ∨ b.2.stop ≤ a.2.start
  own_before : ∀ e ∈ intervalsOf purged, ¬ Foreign st.recorded e.1 (prevSnap e.2.start)
  own_after : ∀ e ∈ intervalsOf purged, ¬ Foreign st.recorded e.1 e.2.stop

/-! ## Keys -/

variable {p : Int64} {st : PurgedState}

theorem makePurgedSnapKey_eq (pool : Int64) (last : Nat) :
    makePurgedSnapKey pool last = poolPrefix pool ++ fixedHex false 16 last := by
  simp [makePurgedSnapKey, poolPrefix]

theorem separator_notMem_decimal (n : Nat) : '_' ∉ decimal n := by
  intro h
  exact absurd (isDigit_of_mem_decimal h) (by decide)

/-- A key that starts with the part of a pool is a key of that pool. -/
theorem eq_of_poolPrefix {q : Int64} (last : Nat)
    (h : poolPrefix p <+: makePurgedSnapKey q last) : p = q := by
  rw [poolPrefix, makePurgedSnapKey, prefix_append_right_inj, cons_prefix_cons] at h
  obtain ⟨_, hy⟩ := h.2
  rw [append_assoc] at hy
  have hdec := separator_inj (separator_notMem_decimal _) (separator_notMem_decimal _) hy
  exact congrArg Int64.ofUInt64 (UInt64.toNat.inj (decimal_injective hdec.1))

theorem makePurgedSnapKey_le_iff {s t : Nat} (hs : s < 2 ^ 64) (ht : t < 2 ^ 64) :
    makePurgedSnapKey p s ≤ makePurgedSnapKey p t ↔ s ≤ t := by
  rw [makePurgedSnapKey_eq, makePurgedSnapKey_eq, append_le_append_iff]
  exact fixedHex_le_iff hs ht

theorem makePurgedSnapKey_inj {q : Int64} {s t : Nat} (hs : s < 2 ^ 64) (ht : t < 2 ^ 64)
    (h : makePurgedSnapKey p s = makePurgedSnapKey q t) : p = q ∧ s = t := by
  have hpq : p = q := by
    refine eq_of_poolPrefix t ?_
    rw [← h, makePurgedSnapKey_eq]
    exact prefix_append _ _
  subst hpq
  exact ⟨rfl, le_antisymm ((makePurgedSnapKey_le_iff hs ht).1 h.le)
    ((makePurgedSnapKey_le_iff ht hs).1 h.ge)⟩

/-- The keys of different pools are in the order of the pools. -/
theorem poolPrefix_lt_of_key_le {q : Int64} {s t : Nat} (hne : p ≠ q)
    (h : makePurgedSnapKey p s ≤ makePurgedSnapKey q t) : poolPrefix p < poolPrefix q := by
  refine not_le.1 fun hle => hne (eq_of_poolPrefix s ?_).symm
  rw [makePurgedSnapKey_eq q] at h
  refine prefix_of_between (x := []) ?_ h
  rw [append_nil, makePurgedSnapKey_eq]
  exact hle.trans (le_of_start (prefix_append _ _))

theorem key_le_of_poolPrefix_lt {q : Int64} (h : poolPrefix p < poolPrefix q) (s t : Nat) :
    makePurgedSnapKey p s ≤ makePurgedSnapKey q t := by
  refine le_of_not_ge fun hge => lt_asymm h (poolPrefix_lt_of_key_le ?_ hge)
  rintro rfl
  exact lt_irrefl _ h

/-! ## The records of a pool -/

/-- The record that a lookup comes to: the first one at or after its key. -/
def firstRecord (store : PurgedStore) (pool : Int64) (snap : Nat) : Option PurgedRecord :=
  (store.lowerBound (makePurgedSnapKey pool snap)).bind fun e =>
    if purgedSnapPrefix.isPrefixOf e.1 then e.2.head? else none

/-- The lookup comes to a record of another pool that contains the snap. -/
def ForeignHit (store : PurgedStore) (pool : Int64) (snap : Nat) : Prop :=
  ∃ r, firstRecord store pool snap = some r ∧ r.pool ≠ pool ∧ r.start ≤ snap ∧ snap < r.stop

/-- The index that the records of a pool make: the begin under each last snap. -/
def poolIndex (store : PurgedStore) (pool : Int64) (last : Nat) : Option Nat :=
  if last < 2 ^ 64 then
    ((store.get? (makePurgedSnapKey pool last)).bind List.head?).map PurgedRecord.start
  else none

/-- Every entry of the store is one record under its own key, and the records of
each pool index what was recorded for it. -/
structure PurgedIndex (store : PurgedStore) (recorded : List PoolInterval) :
    Prop where
  keyed : ∀ k v, store.get? k = some v → ∃ r : PurgedRecord, v = [r] ∧
    k = makePurgedSnapKey r.pool (r.stop - 1) ∧ r.start < r.stop ∧ r.stop < 2 ^ 64
  index : ∀ p, EndIndex (poolIndex store p) (Purged recorded p)

section Lookup

variable {store : PurgedStore} {recorded : List PoolInterval} {pool : Int64}
  {snap last b start stop : Nat}

theorem lookupPurgedSnap_eq_some : lookupPurgedSnap store pool snap = some (start, stop) ↔
    ∃ r, firstRecord store pool snap = some r ∧ r.start ≤ snap ∧ snap < r.stop ∧
      r.start = start ∧ r.stop = stop := by
  have heq : lookupPurgedSnap store pool snap = (firstRecord store pool snap).bind fun r =>
      if snap < r.start ∨ r.stop ≤ snap then none else some (r.start, r.stop) := by
    unfold lookupPurgedSnap firstRecord
    obtain _ | ⟨k, v⟩ := store.lowerBound (makePurgedSnapKey pool snap)
    · rfl
    · dsimp only [bind_some]
      cases purgedSnapPrefix.isPrefixOf k <;> cases v <;> rfl
  simp only [heq, bind_eq_some_iff, ite_none_left_eq_some, some.injEq,
    Prod.mk.injEq, not_or, not_lt, not_le, and_assoc]

section

variable (h : PurgedIndex store recorded)

include h

theorem PurgedIndex.poolIndex_eq_some :
    poolIndex store pool last = some b ↔
      last + 1 < 2 ^ 64 ∧ store.get? (makePurgedSnapKey pool last) =
        some [⟨pool, b, last + 1⟩] := by
  constructor
  · intro hidx
    unfold poolIndex at hidx
    split at hidx
    next hlt =>
      obtain ⟨r, hr, rfl⟩ := map_eq_some_iff.1 hidx
      obtain ⟨_, hv, hhead⟩ := bind_eq_some_iff.1 hr
      obtain ⟨r', rfl, hkey, _, _⟩ := h.keyed _ _ hv
      obtain rfl : r' = r := by simpa using hhead
      obtain ⟨rfl, _⟩ := makePurgedSnapKey_inj hlt (by omega) hkey
      have hs : r'.stop = last + 1 := by omega
      refine ⟨by omega, ?_⟩
      rw [hv, ← hs]
    next => cases hidx
  · rintro ⟨hlt, hv⟩
    rw [poolIndex, if_pos (by omega), hv]
    rfl

/-- A record of the pool at or after the snap is what the lookup comes to. -/
theorem PurgedIndex.firstRecord_of_hit (hit : Hit (poolIndex store pool) snap last b) :
    firstRecord store pool snap = some ⟨pool, b, last + 1⟩ := by
  obtain ⟨_, hget⟩ := h.poolIndex_eq_some.1 hit.entry
  have hle := hit.le
  have hbound : store.lowerBound (makePurgedSnapKey pool snap) =
      some (makePurgedSnapKey pool last, [⟨pool, b, last + 1⟩]) := by
    refine lowerBound_eq_some.2 ⟨hget, ?_, ?_⟩
    · exact (makePurgedSnapKey_le_iff (by omega) (by omega)).2 hle
    · intro k hk hsnap
      -- a key in front of the record would be one of the same pool
      refine not_lt.1 fun hbefore => ?_
      obtain ⟨v, hv⟩ := isSome_iff_exists.1 hk
      obtain ⟨r, rfl, rfl, _, _⟩ := h.keyed k v hv
      rw [makePurgedSnapKey_eq pool snap] at hsnap
      have hle' := hbefore.le
      rw [makePurgedSnapKey_eq pool last] at hle'
      have hpool := eq_of_poolPrefix _ (prefix_of_between hsnap hle')
      rw [← makePurgedSnapKey_eq] at hsnap
      rw [← hpool] at hsnap hbefore hv
      have hsome : (poolIndex store pool (r.stop - 1)).isSome := by
        rw [poolIndex, if_pos (by omega), hv]
        rfl
      have hs := (makePurgedSnapKey_le_iff (by omega) (by omega)).1 hsnap
      have hfirst := hit.first _ hsome hs
      exact absurd ((makePurgedSnapKey_le_iff (by omega) (by omega)).2 hfirst) (not_le.2 hbefore)
  rw [firstRecord, hbound, bind_some]
  exact if_pos <| isPrefixOf_iff_prefix.2 (prefix_append _ _)

/-- The entry of the record that a lookup comes to. -/
theorem PurgedIndex.lowerBound_of_firstRecord {r : PurgedRecord}
    (hr : firstRecord store pool snap = some r) :
    store.lowerBound (makePurgedSnapKey pool snap) =
        some (makePurgedSnapKey r.pool (r.stop - 1), [r]) ∧
      r.start < r.stop ∧ r.stop < 2 ^ 64 := by
  obtain ⟨⟨k, v⟩, hbound, hhead⟩ := bind_eq_some_iff.1 hr
  obtain ⟨_, rfl, rfl, hlt⟩ := h.keyed k v (lowerBound_eq_some.1 hbound).1
  cases hhead
  exact ⟨hbound, hlt⟩

/-- A record of another pool is come to only as the first one of the next pool. -/
theorem PurgedIndex.foreign_of_hit (hsnap : snap < 2 ^ 64) (hit : ForeignHit store pool snap) :
    Foreign recorded pool snap := by
  obtain ⟨r, hr, hne, hstart, hstop⟩ := hit
  obtain ⟨hbound, _, _⟩ := h.lowerBound_of_firstRecord hr
  obtain ⟨hget, hle, hleast⟩ := lowerBound_eq_some.1 hbound
  have hbehind := poolPrefix_lt_of_key_le (Ne.symm hne) hle
  have hentry : poolIndex store r.pool (r.stop - 1) = some r.start := by
    refine h.poolIndex_eq_some.2 ⟨by omega, ?_⟩
    rw [hget, show r.stop - 1 + 1 = r.stop by omega]
  -- the record of a snap that is recorded is not in front of the one come to
  have hfirst : ∀ {q : Int64} {s : Nat}, Purged recorded q s → (q = pool → snap ≤ s) →
      (q ≠ pool → poolPrefix pool < poolPrefix q) → ∃ last b, Hit (poolIndex store q) s last b ∧
        b ≤ s ∧ last < 2 ^ 64 ∧
        makePurgedSnapKey r.pool (r.stop - 1) ≤ makePurgedSnapKey q last := by
    intro q s hs hown hother
    obtain ⟨last, b, hit, hb⟩ := (h.index q).found hs
    obtain ⟨hlast, hgetq⟩ := h.poolIndex_eq_some.1 hit.entry
    refine ⟨last, b, hit, hb, by omega, hleast _ (by rw [hgetq]; rfl) ?_⟩
    by_cases hq : q = pool
    · rw [hq]
      exact (makePurgedSnapKey_le_iff hsnap (by omega)).2 ((hown hq).trans hit.le)
    · exact key_le_of_poolPrefix_lt (hother hq) _ _
  have hmin : ∀ t, Purged recorded r.pool t → r.start ≤ t := by
    intro t ht
    obtain ⟨last, b, hit, hb, hlast, hkey⟩ := hfirst ht (fun hq => absurd hq hne) fun _ => hbehind
    have hge := (makePurgedSnapKey_le_iff (by omega) hlast).1 hkey
    by_cases hlt : t ≤ r.stop - 1
    · obtain rfl : last = r.stop - 1 := le_antisymm (hit.first _ (by rw [hentry]; rfl) hlt) hge
      exact some.inj (hentry.symm.trans hit.entry) ▸ hb
    · omega
  have hin := (h.index r.pool).sound hentry
  obtain ⟨i, hi, hib, _⟩ := hin r.start le_rfl (by omega)
  have hi0 : i.start = r.start := le_antisymm hib (hmin _ ⟨i, hi, le_rfl, i.lt⟩)
  refine ⟨fun e he hpool => ?_, (r.pool, i), hi,
    ⟨hbehind, fun e he hafter => ⟨?_, fun hsame => ?_⟩⟩, hi0.trans_le hstart,
    fun t hts hit => hin t (hi0 ▸ hit) (by omega)⟩
  · subst hpool
    by_contra hgt
    have hlt := e.2.lt
    obtain ⟨_, _, _, _, _, hkey⟩ := hfirst ⟨e.2, he, Nat.le_sub_one_of_lt hlt, by omega⟩
      (fun _ => by omega) fun hq => absurd rfl hq
    exact lt_asymm hbehind (poolPrefix_lt_of_key_le hne hkey)
  · by_cases hsame : r.pool = e.1
    · exact (congrArg poolPrefix hsame).le
    · obtain ⟨_, _, _, _, _, hkey⟩ := hfirst ⟨e.2, he, le_rfl, e.2.lt⟩
        (fun hq => absurd hafter (hq ▸ lt_irrefl _)) fun _ => hafter
      exact (poolPrefix_lt_of_key_le hsame hkey).le
  · obtain ⟨_, j⟩ := e
    obtain rfl := hsame
    exact hi0.trans_le (hmin _ ⟨j, he, le_rfl, j.lt⟩)

/-- A record of the own pool that the lookup comes to is the first one at or
after the snap. -/
theorem PurgedIndex.hit_of_firstRecord (hsnap : snap < 2 ^ 64)
    {r : PurgedRecord} (hr : firstRecord store pool snap = some r) (hpool : r.pool = pool)
    (hin : snap < r.stop) : Hit (poolIndex store pool) snap (r.stop - 1) r.start := by
  obtain ⟨hbound, _, _⟩ := h.lowerBound_of_firstRecord hr
  obtain ⟨hget, _, hleast⟩ := lowerBound_eq_some.1 hbound
  subst hpool
  refine ⟨h.poolIndex_eq_some.2 ⟨by omega, ?_⟩, by omega, fun l hl hsl => ?_⟩
  · rw [hget, show r.stop - 1 + 1 = r.stop by omega]
  · obtain ⟨_, hb⟩ := isSome_iff_exists.1 hl
    obtain ⟨_, hgetl⟩ := h.poolIndex_eq_some.1 hb
    have hkl := hleast _ (by rw [hgetl]; rfl) ((makePurgedSnapKey_le_iff hsnap (by omega)).2 hsl)
    exact (makePurgedSnapKey_le_iff (by omega) (by omega)).1 hkl

/-- Where no foreign record is hit, the lookup is a search in the pool's index. -/
theorem PurgedIndex.lookup_iff (hsnap : snap < 2 ^ 64) (hown : ¬ ForeignHit store pool snap) :
    lookupPurgedSnap store pool snap = some (start, stop) ↔
      ∃ last, stop = last + 1 ∧ Hit (poolIndex store pool) snap last start ∧ start ≤ snap := by
  rw [lookupPurgedSnap_eq_some]
  constructor
  · rintro ⟨r, hr, hstart, hstop, rfl, rfl⟩
    have hpool : r.pool = pool := not_not.1 fun hne => hown ⟨r, hr, hne, hstart, hstop⟩
    exact ⟨r.stop - 1, by omega, h.hit_of_firstRecord hsnap hr hpool hstop, hstart⟩
  · rintro ⟨last, rfl, hit, hstart⟩
    have hle := hit.le
    exact ⟨_, h.firstRecord_of_hit hit, hstart, by simp only; omega, rfl, rfl⟩

theorem PurgedIndex.lookup_isSome_iff (hsnap : snap < 2 ^ 64)
    (hown : ¬ ForeignHit store pool snap) :
    (lookupPurgedSnap store pool snap).isSome ↔ Purged recorded pool snap := by
  rw [(h.index pool).recorded_iff, isSome_iff_exists]
  constructor
  · rintro ⟨⟨start, _⟩, hlook⟩
    obtain ⟨last, _, hit, hstart⟩ := (h.lookup_iff hsnap hown).1 hlook
    exact ⟨last, start, hit, hstart⟩
  · rintro ⟨last, start, hit, hstart⟩
    exact ⟨_, (h.lookup_iff hsnap hown).2 ⟨last, rfl, hit, hstart⟩⟩

end

end Lookup

/-! ## One call -/

section Recording

variable {store : PurgedStore} {recorded : List PoolInterval}

/-- The interval of an entry with the record it becomes. -/
def joinedOf (store : PurgedStore) (e : PoolInterval) : Joined where
  x := e.2.start
  y := e.2.stop
  b := ((lookupPurgedSnap store e.1 (prevSnap e.2.start)).map Prod.fst).getD e.2.start
  l := ((lookupPurgedSnap store e.1 e.2.stop).map fun r => r.2 - 1).getD (e.2.stop - 1)

/-- The key an entry is recorded under. -/
def keyOf (store : PurgedStore) (e : PoolInterval) : List Char :=
  makePurgedSnapKey e.1 (joinedOf store e).l

/-- The record an entry becomes. -/
def recordOf (store : PurgedStore) (e : PoolInterval) : PurgedRecord :=
  ⟨e.1, (joinedOf store e).b, (joinedOf store e).l + 1⟩

/-- The keys an entry removes. -/
def removedOf (store : PurgedStore) (e : PoolInterval) : List (List Char) :=
  ((lookupPurgedSnap store e.1 (prevSnap e.2.start)).map fun r =>
    makePurgedSnapKey e.1 (r.2 - 1)).toList

def writeEntry (store m : PurgedStore) (e : PoolInterval) : PurgedStore :=
  m.set (keyOf store e) ((m.get? (keyOf store e)).getD [] ++ [recordOf store e])

theorem recordInterval_eq (store : PurgedStore) (acc : PurgedPending)
    (e : PoolInterval) : recordInterval store acc e =
      ⟨writeEntry store acc.m e, acc.rm ++ removedOf store e⟩ := by
  have hpos : e.2.stop - 1 + 1 = e.2.stop := by have := e.2.lt; omega
  unfold recordInterval writeEntry keyOf recordOf removedOf joinedOf
  cases ha : lookupPurgedSnap store e.1 e.2.stop with
  | none =>
    cases hb : lookupPurgedSnap store e.1 (prevSnap e.2.start) <;>
      simp [makePurgedSnapKeyValue, hb, ha, hpos]
  | some a =>
    obtain ⟨_, _, _, hlt, _, hstop⟩ := lookupPurgedSnap_eq_some.1 ha
    have hapos : a.2 - 1 + 1 = a.2 := by omega
    cases hb : lookupPurgedSnap store e.1 (prevSnap e.2.start) <;>
      simp [makePurgedSnapKeyValue, hb, ha, hapos]

theorem foldl_recordInterval (store : PurgedStore) (es : List PoolInterval) (acc : PurgedPending) :
    es.foldl (recordInterval store) acc =
      ⟨es.foldl (writeEntry store) acc.m, acc.rm ++ es.flatMap (removedOf store)⟩ := by
  induction es generalizing acc with
  | nil => simp
  | cons _ _ ih =>
    rw [foldl_cons, ih, recordInterval_eq]
    simp

/-- A new key gets the record alone. -/
theorem writeEntry_of_none (store m : PurgedStore) (e : PoolInterval)
    (h : m.get? (keyOf store e) = none) :
    writeEntry store m e = m.set (keyOf store e) [recordOf store e] := by
  rw [writeEntry, h]
  rfl

/-! ## Joining with the neighbours -/

/-- What a call must satisfy for the entry of one interval. -/
structure EntryOk (store : PurgedStore) (recorded : List PoolInterval)
    (e : PoolInterval) : Prop where
  fresh : ∀ t, e.2.start ≤ t → t < e.2.stop → ¬ Purged recorded e.1 t
  own_before : ¬ ForeignHit store e.1 (prevSnap e.2.start)
  own_after : ¬ ForeignHit store e.1 e.2.stop

variable {e : PoolInterval}

section

variable (h : PurgedIndex store recorded)

include h

/-- No record reaches the last snap id, so nothing is joined in front of zero. -/
theorem PurgedIndex.lookup_prevSnap_zero (pool : Int64) :
    lookupPurgedSnap store pool (prevSnap 0) = none := by
  cases hlook : lookupPurgedSnap store pool (prevSnap 0) with
  | none => rfl
  | some r =>
    obtain ⟨r, hr, _, hlt, _, _⟩ := lookupPurgedSnap_eq_some.1 hlook
    have hstop := (h.lowerBound_of_firstRecord hr).2.2
    rw [prevSnap] at hlt
    omega

/-- What the lookup in front of an interval finds ends where the interval starts. -/
theorem PurgedIndex.before_cases (he : EntryOk store recorded e) :
    ((joinedOf store e).Left (Purged recorded e.1) ∧
        poolIndex store e.1 (e.2.start - 1) = some (joinedOf store e).b ∧
        removedOf store e = [makePurgedSnapKey e.1 (e.2.start - 1)]) ∨
      (¬ (joinedOf store e).Left (Purged recorded e.1) ∧
        (joinedOf store e).b = e.2.start ∧ removedOf store e = []) := by
  have hlt := e.2.lt
  have hstop := e.2.stop_lt
  obtain hz | hpos := eq_zero_or_pos e.2.start
  · have hnone := h.lookup_prevSnap_zero e.1
    refine .inr ⟨fun hleft => absurd hleft.1 (by simp only [joinedOf]; omega), ?_, ?_⟩
    · simp [joinedOf, hz, hnone]
    · simp [removedOf, hz, hnone]
  · have hprev : prevSnap e.2.start = e.2.start - 1 := by
      rw [prevSnap]
      omega
    have hown := he.own_before
    rw [hprev] at hown
    cases hlook : lookupPurgedSnap store e.1 (e.2.start - 1) with
    | none =>
      have hnot : ¬ Purged recorded e.1 (e.2.start - 1) := by
        rw [← h.lookup_isSome_iff (by omega) hown, hlook]
        exact Bool.false_ne_true
      refine .inr ⟨fun hleft => hnot hleft.2, ?_, ?_⟩
      · simp [joinedOf, hprev, hlook]
      · simp [removedOf, hprev, hlook]
    | some =>
      obtain ⟨_, hr, hit, hb⟩ := (h.lookup_iff (by omega) hown).1 hlook
      have hfresh := he.fresh e.2.start le_rfl hlt
      have hlast := (h.index e.1).eq_of_hit_before hfresh hit hb hpos
      subst hlast
      have hpurged : Purged recorded e.1 (e.2.start - 1) := by
        rw [← h.lookup_isSome_iff (by omega) hown, hlook]
        rfl
      refine .inl ⟨⟨hpos, hpurged⟩, ?_, ?_⟩
      · rw [hit.entry]
        simp [joinedOf, hprev, hlook]
      · simp [removedOf, hprev, hlook, hr]

/-- What the lookup behind an interval finds starts where the interval ends. -/
theorem PurgedIndex.after_cases (he : EntryOk store recorded e) :
    (Purged recorded e.1 e.2.stop ∧
        Hit (poolIndex store e.1) e.2.stop (joinedOf store e).l e.2.stop) ∨
      (¬ Purged recorded e.1 e.2.stop ∧ (joinedOf store e).l + 1 = e.2.stop) := by
  have hlt := e.2.lt
  have hstop := e.2.stop_lt
  cases hlook : lookupPurgedSnap store e.1 e.2.stop with
  | none =>
    refine .inr ⟨?_, ?_⟩
    · rw [← h.lookup_isSome_iff hstop he.own_after, hlook]
      exact Bool.false_ne_true
    · simp only [joinedOf, hlook, map_none, getD_none]
      omega
  | some =>
    obtain ⟨last, hr, hit, hb⟩ := (h.lookup_iff hstop he.own_after).1 hlook
    have hfresh := he.fresh (e.2.stop - 1) (by omega) (by omega)
    have hstart := (h.index e.1).eq_of_hit_after hfresh hit hb (by omega)
    refine .inl ⟨?_, ?_⟩
    · rw [← h.lookup_isSome_iff hstop he.own_after, hlook]
      rfl
    · have hl : (joinedOf store e).l = last := by simp [joinedOf, hlook, hr]
      rw [hl, ← hstart]
      rwa [hstart] at hit ⊢

theorem PurgedIndex.joins (he : EntryOk store recorded e) :
    Joins (poolIndex store e.1) (Purged recorded e.1) (joinedOf store e) where
  lt := e.2.lt
  fresh := fun t ht => he.fresh t ht.1 ht.2
  left := by
    obtain hb | hb := h.before_cases he
    · exact .inl ⟨hb.1, hb.2.1⟩
    · exact .inr ⟨hb.1, hb.2.1⟩
  right := h.after_cases he

end

/-! ## The store after a call -/

variable {es : List PoolInterval}

/-- Intervals of one pool that are recorded together do not overlap. -/
def Apart (a b : PoolInterval) : Prop := a.1 = b.1 → a.2.stop ≤ b.2.start ∨ b.2.stop ≤ a.2.start

instance : Std.Symm Apart := ⟨fun _ _ hab hpool => (hab hpool.symm).symm⟩

theorem PurgedIndex.l_lt (h : PurgedIndex store recorded) (he : EntryOk store recorded e) :
    (joinedOf store e).l + 1 < 2 ^ 64 := by
  obtain ha | ha := h.after_cases he
  · exact (h.poolIndex_eq_some.1 ha.2.entry).1
  · rw [ha.2]
    exact e.2.stop_lt

/-- The store after recording a list of entries. -/
def recordEntries (store : PurgedStore) (es : List PoolInterval) : PurgedStore :=
  let acc := es.foldl (recordInterval store) ⟨Omap.empty, []⟩
  (store.eraseAll acc.rm).setAll acc.m

section

variable (h : PurgedIndex store recorded) (hok : ∀ e ∈ es, EntryOk store recorded e)

include h hok

section

variable (hapart : es.Pairwise Apart)

include hapart

theorem PurgedIndex.keys_ne : es.Pairwise fun a b => keyOf store a ≠ keyOf store b := by
  refine hapart.imp_of_mem fun {e e'} hmem hmem' hapart => ?_
  have he := hok e hmem
  have he' := hok e' hmem'
  intro hkey
  have hl := h.l_lt he
  have hl' := h.l_lt he'
  obtain ⟨hpool, hll⟩ := makePurgedSnapKey_inj (by omega) (by omega) hkey
  have hsep := hapart hpool
  have hlt := e.2.lt
  have hlt' := e'.2.lt
  obtain ha | ha := h.after_cases he
  · have hin := (h.index e.1).sound ha.2.entry _ ha.2.le le_rfl
    obtain ha' | ha' := h.after_cases he'
    · -- both are joined with the same record behind them
      have hentry := ha'.2.entry
      rw [← hpool, ← hll, ha.2.entry] at hentry
      have hstop := some.inj hentry
      omega
    · rw [hpool] at hin
      exact he'.fresh _ (by omega) (by omega) hin
  · obtain ha' | ha' := h.after_cases he'
    · have hin := (h.index e'.1).sound ha'.2.entry _ ha'.2.le le_rfl
      rw [← hpool] at hin
      exact he.fresh _ (by omega) (by omega) hin
    · omega

theorem PurgedIndex.get?_written (he : e ∈ es) :
    (recordEntries store es).get? (keyOf store e) = some [recordOf store e] := by
  obtain ⟨hwritten, _⟩ := get?_foldl_of_fresh (writeEntry_of_none store) es empty
    (h.keys_ne hok hapart) fun _ _ => rfl
  simp only [recordEntries, foldl_recordInterval, get?_setAll, hwritten e he, some_or]

theorem PurgedIndex.get?_other {k : List Char} (hk : ∀ e ∈ es, k ≠ keyOf store e) :
    (k ∈ es.flatMap (removedOf store) → (recordEntries store es).get? k = none) ∧
      (k ∉ es.flatMap (removedOf store) → (recordEntries store es).get? k = store.get? k) := by
  obtain ⟨_, hother⟩ := get?_foldl_of_fresh (writeEntry_of_none store) es empty
    (h.keys_ne hok hapart) fun _ _ => rfl
  simp only [recordEntries, foldl_recordInterval, get?_setAll, hother k hk,
    get?_empty, none_or, get?_eraseAll, nil_append]
  exact ⟨fun hin => if_pos hin, fun hout => if_neg hout⟩

theorem PurgedIndex.keyed_recordEntries {k : List Char}
    {v : List PurgedRecord} (hv : (recordEntries store es).get? k = some v) :
    ∃ r : PurgedRecord, v = [r] ∧ k = makePurgedSnapKey r.pool (r.stop - 1) ∧
      r.start < r.stop ∧ r.stop < 2 ^ 64 := by
  obtain hw | hw := em (∃ e ∈ es, k = keyOf store e)
  · obtain ⟨e, he, rfl⟩ := hw
    rw [h.get?_written hok hapart he] at hv
    have hj := h.joins (hok e he)
    have hb := Recorded.b_le (h.index e.1) hj
    have hy := Recorded.y_le hj
    have hlt := hj.lt
    have hl := h.l_lt (hok e he)
    refine ⟨recordOf store e, (some.inj hv).symm, rfl, ?_, hl⟩
    simp only [recordOf]
    omega
  · obtain ⟨hin, hout⟩ := h.get?_other hok hapart fun e he heq => hw ⟨e, he, heq⟩
    obtain hrm | hrm := em (k ∈ es.flatMap (removedOf store))
    · rw [hin hrm] at hv
      cases hv
    · exact h.keyed k v (hout hrm ▸ hv)

end

/-- A key of the pool that is removed is the one in front of an interval. -/
theorem PurgedIndex.mem_removed_iff {l : Nat} (hl : l < 2 ^ 64) :
    makePurgedSnapKey p l ∈ es.flatMap (removedOf store) ↔
      ∃ e ∈ es, e.1 = p ∧ (joinedOf store e).Left (Purged recorded e.1) ∧
        l = e.2.start - 1 := by
  rw [mem_flatMap]
  constructor
  · rintro ⟨e, he, hmem⟩
    have hstart : e.2.start - 1 < 2 ^ 64 := by have := e.2.lt; have := e.2.stop_lt; omega
    obtain hb | hb := h.before_cases (hok e he)
    · rw [hb.2.2, mem_singleton] at hmem
      obtain ⟨hp, hls⟩ := makePurgedSnapKey_inj hl hstart hmem
      exact ⟨e, he, hp.symm, hb.1, hls⟩
    · rw [hb.2.2] at hmem
      exact absurd hmem not_mem_nil
  · rintro ⟨e, he, rfl, hleft, rfl⟩
    refine ⟨e, he, ?_⟩
    obtain hb | hb := h.before_cases (hok e he)
    · rw [hb.2.2]
      exact mem_singleton_self _
    · exact absurd hleft hb.1

/-- The index of each pool after a call is the one before with the intervals of
that pool recorded. -/
theorem PurgedIndex.recorded_pool (hapart : es.Pairwise Apart) (p : Int64) :
    Recorded (poolIndex store p) (poolIndex (recordEntries store es) p) (Purged recorded p)
      ((es.filter fun e => e.1 = p).map (joinedOf store)) := by
  have hmem : ∀ J, J ∈ (es.filter fun e => e.1 = p).map (joinedOf store) ↔
      ∃ e ∈ es, e.1 = p ∧ joinedOf store e = J := by
    intro J
    simp only [List.mem_map, List.mem_filter, decide_eq_true_eq, and_assoc]
  have hne : ∀ l, l < 2 ^ 64 → (∀ J ∈ (es.filter fun e => e.1 = p).map (joinedOf store),
      J.l ≠ l) → ∀ e ∈ es, makePurgedSnapKey p l ≠ keyOf store e := by
    intro l hl hJ e he hkey
    have hel := h.l_lt (hok e he)
    obtain ⟨hp, hll⟩ := makePurgedSnapKey_inj hl (by omega) hkey
    exact hJ _ ((hmem _).2 ⟨e, he, hp.symm, rfl⟩) hll.symm
  have hleft : ∀ l, l < 2 ^ 64 →
      ((∃ J ∈ (es.filter fun e => e.1 = p).map (joinedOf store),
        J.Left (Purged recorded p) ∧ l = J.x - 1) ↔
        makePurgedSnapKey p l ∈ es.flatMap (removedOf store)) := by
    intro l hl
    rw [h.mem_removed_iff hok hl]
    constructor
    · rintro ⟨J, hJ, hJl, rfl⟩
      obtain ⟨e, he, rfl, rfl⟩ := (hmem J).1 hJ
      exact ⟨e, he, rfl, hJl, rfl⟩
    · rintro ⟨e, he, rfl, hJl, rfl⟩
      exact ⟨_, (hmem _).2 ⟨e, he, rfl, rfl⟩, hJl, rfl⟩
  refine ⟨?_, ?_, ?_, ?_, ?_⟩
  · intro J hJ
    obtain ⟨e, he, rfl, rfl⟩ := (hmem J).1 hJ
    exact h.joins (hok e he)
  · intro J hJ J' hJ' _ ht ht'
    obtain ⟨e, he, hp, rfl⟩ := (hmem J).1 hJ
    obtain ⟨_, he', hp', rfl⟩ := (hmem J').1 hJ'
    refine congrArg _ (not_not.1 fun hdiff => ?_)
    have hsep := hapart.forall he he' hdiff (hp.trans hp'.symm)
    simp only [Joined.In, joinedOf] at ht ht'
    omega
  · intro J hJ
    obtain ⟨e, he, rfl, rfl⟩ := (hmem J).1 hJ
    have hel := h.l_lt (hok e he)
    have hget := h.get?_written hok hapart he
    rw [poolIndex, if_pos (by omega)]
    rw [keyOf] at hget
    rw [hget]
    rfl
  · intro l hl hdrop
    rw [poolIndex]
    split
    next hlt =>
      rw [(h.get?_other hok hapart (hne l hlt hl)).1 ((hleft l hlt).1 hdrop)]
      rfl
    next => rfl
  · intro l hl hkeep
    rw [poolIndex, poolIndex]
    split
    next hlt =>
      rw [(h.get?_other hok hapart (hne l hlt hl)).2 fun hin => hkeep ((hleft l hlt).2 hin)]
    next => rfl

/-- A call keeps the index. -/
theorem PurgedIndex.recordEntries (hapart : es.Pairwise Apart) :
    PurgedIndex (Osd.recordEntries store es) (recorded ++ es) where
  keyed := fun _ _ hv => h.keyed_recordEntries hok hapart hv
  index := by
    intro p
    refine ((h.recorded_pool hok hapart p).endIndex (h.index p)).congr fun t => ?_
    simp only [Purged, mem_append, or_and_right, exists_or]
    refine or_congr_right ?_
    constructor
    · rintro ⟨_, hJ, hx, hy⟩
      obtain ⟨e, he, rfl⟩ := mem_map.1 hJ
      obtain ⟨hmem, hp⟩ := mem_filter.1 he
      obtain rfl : e.1 = p := by simpa using hp
      exact ⟨e.2, hmem, hx, hy⟩
    · rintro ⟨i, hi, hx, hy⟩
      refine ⟨joinedOf store (p, i), mem_map_of_mem (mem_filter.2 ⟨hi, ?_⟩), hx, hy⟩
      simp

end

end Recording

/-! ## Runs -/

theorem purgedIndex_init : PurgedIndex init.store init.recorded where
  keyed := fun k v hv => by cases hv
  index := by
    intro p
    have hidx : poolIndex init.store p = fun _ => none := by
      funext l
      simp [poolIndex, init]
    rw [hidx]
    refine EndIndex.empty.congr fun t => ?_
    simp [Purged, init]

theorem purgedIndex_step {st' : PurgedState} {purged : PurgedSnaps}
    (h : PurgedIndex st.store st.recorded) (hok : PurgedOk st purged)
    (hstep : st.step purged = some st') : PurgedIndex st'.store st'.recorded := by
  cases hstep
  obtain ⟨_, hbatch, hold⟩ := pairwise_append.1 hok.disjoint
  refine h.recordEntries (fun e he => ⟨?_,
    fun hit => hok.own_before e he (h.foreign_of_hit (Nat.mod_lt _ (by decide)) hit),
    fun hit => hok.own_after e he (h.foreign_of_hit e.2.stop_lt hit)⟩) hbatch
  rintro _ _ _ ⟨i, hi, _, _⟩
  have hsep := hold (e.1, i) hi e he rfl
  simp only at hsep
  omega

theorem purgedIndex_of_run (h : Run step PurgedOk init st) : PurgedIndex st.store st.recorded :=
  h.invariant purgedIndex_init fun _ _ _ hs hok hstep => purgedIndex_step hs hok hstep

/-- In every run whose calls record disjoint intervals, with no neighbour that is taken from
the next pool, a lookup that is not answered from the next pool is exact. -/
theorem purged_lookup_exact {st : PurgedState}
    (h : Run PurgedState.step PurgedOk PurgedState.init st) (pool : Int64) (snap : Nat)
    (hsnap : snap < 2 ^ 64) (hown : ¬ Foreign st.recorded pool snap) :
    LookupExact st pool snap := by
  replace h := purgedIndex_of_run h
  replace hown := fun hit => hown (h.foreign_of_hit hsnap hit)
  refine ⟨h.lookup_isSome_iff hsnap hown, fun start stop hlook => ?_⟩
  obtain ⟨last, rfl, hit, hstart⟩ := (h.lookup_iff hsnap hown).1 hlook
  have hle := hit.le
  refine ⟨hstart, by omega, fun t hst hts => ?_⟩
  exact (h.index pool).sound hit.entry t hst (by omega)

namespace TwoPools

/-! Snaps 5 to 9 are purged in pool 2; then 10 and 11 in pool 2 together with 12
and 13 in pool 1. -/

def call1 : PurgedSnaps := [(1, [(2, [⟨5, 10, by decide, by decide⟩])])]

def call2 : PurgedSnaps :=
  [(2, [(1, [⟨12, 14, by decide, by decide⟩]), (2, [⟨10, 12, by decide, by decide⟩])])]

def state1 : PurgedState := ⟨recordPurgedSnaps Omap.empty call1, [] ++ intervalsOf call1⟩

def state2 : PurgedState :=
  ⟨recordPurgedSnaps state1.store call2, state1.recorded ++ intervalsOf call2⟩

theorem run_state2 : Run step PurgedOk init state2 := by
  have ok1 : PurgedOk init call1 := ⟨by decide +kernel, by decide +kernel, by decide +kernel⟩
  have ok2 : PurgedOk state1 call2 := ⟨by decide +kernel, by decide +kernel, by decide +kernel⟩
  have h1 : Run step PurgedOk init state1 := Run.refl.tail ok1 rfl
  exact h1.tail ok2 rfl

end TwoPools

theorem purged_lookup_exact_two_pools :
    Run PurgedState.step PurgedOk PurgedState.init TwoPools.state2 ∧
      lookupPurgedSnap TwoPools.state2.store 2 7 = some (5, 12) ∧
      LookupExact TwoPools.state2 2 7 ∧
      lookupPurgedSnap TwoPools.state2.store 1 14 = none ∧ LookupExact TwoPools.state2 1 14 :=
  ⟨TwoPools.run_state2, by decide +kernel,
    purged_lookup_exact TwoPools.run_state2 2 7 (by decide) (by decide +kernel), by decide +kernel,
    purged_lookup_exact TwoPools.run_state2 1 14 (by decide) (by decide +kernel)⟩

/-- Snaps 1 to 9 are purged in pool 2, then 10 and 11 in pool 1, whose interval
is joined with the record of pool 2: snap 5 of pool 1 is reported purged although
it was never recorded. -/
theorem purged_join_other_pool :
    ∃ st, exec PurgedState.step PurgedState.init
        [[(1, [(2, [⟨1, 10, by decide, by decide⟩])])],
          [(2, [(1, [⟨10, 12, by decide, by decide⟩])])]] = some st ∧
      lookupPurgedSnap st.store 1 5 = some (1, 12) ∧ ¬ Purged st.recorded 1 5 :=
  ⟨_, rfl, by decide +kernel, by decide +kernel⟩

end Ceph.Osd
