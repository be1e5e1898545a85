import Ceph.Lib.Cover
import Ceph.Lib.Cut
import Mathlib.Data.Finset.Image

set_option autoImplicit false

/-!
# Osd: past intervals and the prior set

A placement group that starts to peer looks back over the intervals in which it may have
accepted writes, and waits (`pg_down`) when too few members of one of them survive.
`pi_compact_rep` does not keep all of these intervals: a new one drops every older one whose
acting set contains its own.  The decision for an interval depends on the states of its
members in a way that is not monotone in the acting set, since a member that no longer exists
neither counts as a survivor nor is waited for.
-/

namespace Ceph.Osd

open Ceph.Lib List Bool

/-- `pg_shard_t`; `-1` is `NO_SHARD`. -/
structure PgShard where
  osd : Int
  shard : Int
  deriving DecidableEq, Repr

/-- `CRUSH_ITEM_NONE`. -/
def crushItemNone : Int := 0x7fffffff

/-- The shards of an acting or up vector, positions without an osd left out. -/
def shardsOf (ecPool : Bool) (osds : List Int) : Finset PgShard :=
  (osds.zipIdx.filterMap fun (osd, i) =>
    if osd = crushItemNone then none else some ⟨osd, if ecPool then i else -1⟩).toFinset

/-- `pg_interval_t`, the fields that the compact representation reads. -/
structure PgInterval where
  acting : List Int
  first : Nat
  last : Nat
  maybeWentRw : Bool
  deriving DecidableEq, Repr

/-- `compact_interval_t`. -/
structure CompactInterval where
  first : Nat
  last : Nat
  acting : Finset PgShard
  deriving DecidableEq

/-- The entry that an interval leaves in the compact representation. -/
def PgInterval.compact (ecPool : Bool) (i : PgInterval) : CompactInterval :=
  ⟨i.first, i.last, shardsOf ecPool i.acting⟩

/-- `compact_interval_t::supersedes`. -/
def CompactInterval.supersedes (i other : CompactInterval) : Bool := i.acting ⊆ other.acting

/-- `pi_compact_rep`. -/
structure PiCompactRep where
  first : Nat := 0
  last : Nat := 0
  allParticipants : Finset PgShard := ∅
  intervals : List CompactInterval := []
  deriving DecidableEq

/-- `pi_compact_rep::add_interval`; no result where the assertion on `last` fails.  The loop
over the list erases what the new interval supersedes. -/
def PiCompactRep.addInterval (ecPool : Bool) (rep : PiCompactRep) (interval : PgInterval) :
    Option PiCompactRep :=
  if rep.last < interval.last then
    let plast := interval.compact ecPool
    let rep' : PiCompactRep :=
      { rep with
        first := if rep.first = 0 then interval.first else rep.first
        last := interval.last
        allParticipants := rep.allParticipants ∪ plast.acting }
    if interval.maybeWentRw then
      some { rep' with
        intervals := addCovering CompactInterval.supersedes rep.intervals plast }
    else some rep'
  else none

/-- The constructor of `pi_compact_rep` from a list of intervals, oldest first. -/
def PiCompactRep.ofIntervals (ecPool : Bool) (intervals : List PgInterval) : Option PiCompactRep :=
  intervals.foldlM (PiCompactRep.addInterval ecPool) {}

/-- The intervals that `pi_compact_rep::iterate_mayberw_back_to` hands out, newest first: the
walk ends at the first one that is older than `les`. -/
def PiCompactRep.iterateMayberwBackTo (rep : PiCompactRep) (les : Nat) : List CompactInterval :=
  rep.intervals.reverse.takeWhile fun i => !decide (i.last < les)

/-! ## The prior set -/

/-- `PastIntervals::osd_state_t`. -/
inductive OsdState where
  | up
  | dne
  | lost
  | down
  deriving DecidableEq, Repr

/-- The state of an osd as seen from an interval that started at the given epoch, and the
value of `lost_at` handed back with it. -/
abbrev OsdStateFn := Nat → Int → OsdState × Nat

/-- The result of `PriorSet::PriorSet`. -/
structure PriorSet where
  probe : Finset PgShard
  down : Finset Int
  blockedBy : Int → Option Nat
  pgDown : Bool

/-- `up_now`: the members of the interval that are up, or lost and not waited for. -/
def CompactInterval.upNow (f : OsdStateFn) (i : CompactInterval) : Finset PgShard :=
  i.acting.filter fun so => (f i.first so.osd).1 = .up ∨ (f i.first so.osd).1 = .lost

/-- `any_down_now`. -/
def CompactInterval.anyDownNow (f : OsdStateFn) (i : CompactInterval) : Bool :=
  decide (∃ so ∈ i.acting, (f i.first so.osd).1 = .down)

/-- `candidate_blocked_by`. -/
def CompactInterval.candidateBlockedBy (f : OsdStateFn) (i : CompactInterval) (osd : Int) :
    Option Nat :=
  if ∃ so ∈ i.acting, so.osd = osd ∧ (f i.first osd).1 = .down then some (f i.first osd).2
  else none

/-- The interval makes the placement group wait: not enough of its members survived, and one
that is down may come back. -/
def CompactInterval.blocks (pcontdec : Finset PgShard → Bool) (f : OsdStateFn)
    (i : CompactInterval) : Bool := !pcontdec (i.upNow f) && i.anyDownNow f

/-- The body of the loop over the intervals. -/
def PriorSet.visit (pcontdec : Finset PgShard → Bool) (f : OsdStateFn) (prior : PriorSet)
    (i : CompactInterval) : PriorSet :=
  if i.blocks pcontdec f then
    { prior with
      pgDown := true
      blockedBy := fun osd => (prior.blockedBy osd).or (i.candidateBlockedBy f osd) }
  else prior

/-- `PriorSet::PriorSet`, for the participants and the intervals that the past intervals hand
out. -/
def PriorSet.build (ecPool : Bool) (allProbe : Finset PgShard) (visited : List CompactInterval)
    (pcontdec : Finset PgShard → Bool) (f : OsdStateFn) (up acting : List Int) : PriorSet :=
  visited.foldl (PriorSet.visit pcontdec f)
    { probe := shardsOf ecPool acting ∪ shardsOf ecPool up ∪
        allProbe.filter fun i => (f 0 i.osd).1 = .up
      down := (allProbe.filter fun i => (f 0 i.osd).1 ≠ .up).image PgShard.osd
      blockedBy := fun _ => none
      pgDown := false }

/-- The prior set that peering works with. -/
def PiCompactRep.priorSet (ecPool : Bool) (rep : PiCompactRep) (les : Nat)
    (pcontdec : Finset PgShard → Bool) (f : OsdStateFn) (up acting : List Int) : PriorSet :=
  PriorSet.build ecPool rep.allParticipants (rep.iterateMayberwBackTo les) pcontdec f up acting

/-- The intervals that may have gone read-write, oldest first. -/
def mayberwIntervals (ecPool : Bool) (intervals : List PgInterval) : List CompactInterval :=
  (intervals.filter PgInterval.maybeWentRw).map (PgInterval.compact ecPool)

/-- The specification: the same loop over all of these intervals back to `les`, none
dropped. -/
def fullPriorSet (ecPool : Bool) (rep : PiCompactRep) (intervals : List PgInterval) (les : Nat)
    (pcontdec : Finset PgShard → Bool) (f : OsdStateFn) (up acting : List Int) : PriorSet :=
  PriorSet.build ecPool rep.allParticipants
    ((mayberwIntervals ecPool intervals).filter fun i => decide (les ≤ i.last)).reverse
    pcontdec f up acting

/-! ## What the loop decides -/

theorem pgDown_foldl_visit (pcontdec : Finset PgShard → Bool) (f : OsdStateFn)
    (visited : List CompactInterval) (prior : PriorSet) :
    (visited.foldl (PriorSet.visit pcontdec f) prior).pgDown =
      (prior.pgDown || visited.any (CompactInterval.blocks pcontdec f)) := by
  induction visited generalizing prior with
  | nil => rw [foldl_nil, any_nil, Bool.or_false]
  | cons i _ ih =>
    have hstep : (prior.visit pcontdec f i).pgDown = (prior.pgDown || i.blocks pcontdec f) := by
      cases hb : i.blocks pcontdec f with
      | true => rw [PriorSet.visit, if_pos hb, Bool.or_true]
      | false => rw [PriorSet.visit, if_neg (Bool.eq_false_iff.1 hb), Bool.or_false]
    rw [foldl_cons, ih, hstep, any_cons, Bool.or_assoc]

variable {ecPool : Bool} {pcontdec : Finset PgShard → Bool} {f : OsdStateFn} {rep : PiCompactRep}
  {intervals : List PgInterval}

theorem pgDown_build_eq_false {allProbe : Finset PgShard} {visited : List CompactInterval}
    {up acting : List Int} :
    (PriorSet.build ecPool allProbe visited pcontdec f up acting).pgDown = false ↔
      ∀ i ∈ visited, i.blocks pcontdec f = false := by
  rw [PriorSet.build, pgDown_foldl_visit, Bool.false_or, any_eq_false]
  exact forall₂_congr fun _ _ => Bool.eq_false_iff.symm

/-! ## What the compact representation keeps -/

theorem addInterval_eq_some {rep' : PiCompactRep} {i : PgInterval}
    (h : rep.addInterval ecPool i = some rep') :
    rep.last < i.last ∧ rep'.last = i.last ∧
      rep'.intervals = if i.maybeWentRw then
        addCovering CompactInterval.supersedes rep.intervals (i.compact ecPool)
        else rep.intervals := by
  unfold PiCompactRep.addInterval at h
  split at h
  next hlast =>
    dsimp only at h
    split at h
    next hrw =>
      obtain rfl := Option.some_inj.1 h
      exact ⟨hlast, rfl, (if_pos hrw).symm⟩
    next hro =>
      obtain rfl := Option.some_inj.1 h
      exact ⟨hlast, rfl, (if_neg hro).symm⟩
  next => cases h

/-- Adding a list of intervals.  The induction carries the representation it starts from. -/
theorem foldlM_addInterval {rep' : PiCompactRep}
    (h : intervals.foldlM (PiCompactRep.addInterval ecPool) rep = some rep') :
    (∀ i ∈ intervals, rep.last < i.last) ∧
      intervals.Pairwise (fun i j => i.last < j.last) ∧
      rep'.intervals = (mayberwIntervals ecPool intervals).foldl
        (addCovering CompactInterval.supersedes) rep.intervals := by
  induction intervals generalizing rep with
  | nil =>
    obtain rfl := Option.some_inj.1 h
    exact ⟨nofun, List.Pairwise.nil, rfl⟩
  | cons i _ ih =>
    obtain ⟨_, hadd, hrest⟩ := Option.bind_eq_some_iff.1 h
    obtain ⟨hlast, hmid, hkept⟩ := addInterval_eq_some hadd
    obtain ⟨hlater, hsorted, hintervals⟩ := ih hrest
    rw [hmid] at hlater
    refine ⟨?_, pairwise_cons.2 ⟨hlater, hsorted⟩, ?_⟩
    · intro j hj
      obtain hj | hj := mem_cons.1 hj
      · exact hj ▸ hlast
      · exact lt_trans hlast (hlater j hj)
    · rw [hintervals, hkept, mayberwIntervals, mayberwIntervals]
      cases hrw : i.maybeWentRw with
      | true => rw [if_pos rfl, filter_cons_of_pos hrw, map_cons, foldl_cons]
      | false => rw [if_neg Bool.false_ne_true, filter_cons_of_neg (by simp [hrw])]

section

variable {ecPool : Bool} {intervals : List PgInterval} {rep : PiCompactRep} {les : Nat}

section

variable (h : PiCompactRep.ofIntervals ecPool intervals = some rep)

include h

theorem intervals_eq_survivors :
    rep.intervals = survivors CompactInterval.supersedes (mayberwIntervals ecPool intervals) :=
  (foldlM_addInterval h).2.2

theorem mayberwIntervals_sorted :
    (mayberwIntervals ecPool intervals).Pairwise fun i j => i.last < j.last :=
  ((foldlM_addInterval h).2.1.sublist filter_sublist).map _ fun _ _ hij => hij

/-- Walking back to `les` finds all kept intervals that end at `les` or later. -/
theorem mem_iterateMayberwBackTo {i : CompactInterval} :
    i ∈ rep.iterateMayberwBackTo les ↔
      i ∈ survivors CompactInterval.supersedes (mayberwIntervals ecPool intervals) ∧
        les ≤ i.last := by
  have hsorted : rep.intervals.Pairwise fun i j => i.last < j.last := by
    rw [intervals_eq_survivors h]
    exact (mayberwIntervals_sorted h).sublist (survivors_sublist _)
  have hfalls : Falls (fun i => !decide (i.last < les)) rep.intervals.reverse := by
    rw [Falls, pairwise_reverse]
    refine hsorted.imp fun {i j} hij hi => ?_
    rw [not_eq_true', decide_eq_false_iff_not] at hi ⊢
    omega
  rw [PiCompactRep.iterateMayberwBackTo, takeWhile_eq_filter hfalls, mem_filter,
    mem_reverse, intervals_eq_survivors h, not_eq_true', decide_eq_false_iff_not,
    not_lt]

end

/-! ## Blocking -/

/-- More survivors never make a placement group unrecoverable. -/
def RecoverableMono (pcontdec : Finset PgShard → Bool) : Prop :=
  ∀ s t : Finset PgShard, s ⊆ t → pcontdec s = true → pcontdec t = true

theorem pgDown_fullPriorSet_eq_false {up acting : List Int} :
    (fullPriorSet ecPool rep intervals les pcontdec f up acting).pgDown = false ↔
      ∀ o ∈ mayberwIntervals ecPool intervals, les ≤ o.last → o.blocks pcontdec f = false := by
  rw [fullPriorSet, pgDown_build_eq_false]
  simp only [mem_reverse, mem_filter, decide_eq_true_eq, and_imp]

end

/-- Under what peering relies on, dropping intervals is harmless: no member of the history has
been removed, whether an osd is up does not depend on the interval, one that was lost after
the start of an interval was lost after the start of every earlier one, and the members of an
interval that went read-write were enough to recover. -/
theorem compact_safe_of_exists (h : PiCompactRep.ofIntervals ecPool intervals = some rep)
    (les : Nat) (f : OsdStateFn) (up acting : List Int) (hmono : RecoverableMono pcontdec)
    (henough : ∀ i ∈ mayberwIntervals ecPool intervals, pcontdec i.acting = true)
    (hfirst : (mayberwIntervals ecPool intervals).Pairwise fun i j => i.first ≤ j.first)
    (hup : ∀ s t osd, (f t osd).1 = .up → (f s osd).1 = .up)
    (hlost : ∀ s t osd, s ≤ t → (f t osd).1 = .lost → (f s osd).1 = .lost)
    (hexists : ∀ i ∈ mayberwIntervals ecPool intervals, ∀ so ∈ i.acting,
      (f i.first so.osd).1 ≠ .dne)
    (hcompact : (rep.priorSet ecPool les pcontdec f up acting).pgDown = false) :
    (fullPriorSet ecPool rep intervals les pcontdec f up acting).pgDown = false := by
  rw [PiCompactRep.priorSet, pgDown_build_eq_false] at hcompact
  rw [pgDown_fullPriorSet_eq_false]
  intro o ho hles
  obtain ⟨n, hn, hsup, hord⟩ := exists_survivor CompactInterval.supersedes
    (fun i => decide_eq_true (Finset.Subset.refl i.acting))
    (fun i j k hij hjk => decide_eq_true ((of_decide_eq_true hij).trans (of_decide_eq_true hjk)))
    ((mayberwIntervals_sorted h).and hfirst) ho
  have hnles : les ≤ n.last ∧ o.first ≤ n.first := by
    obtain rfl | hlt := hord
    · exact ⟨hles, le_rfl⟩
    · exact ⟨hles.trans hlt.1.le, hlt.2⟩
  have hnmem := (survivors_sublist _).subset hn
  have hkept := hcompact n ((mem_iterateMayberwBackTo h).2 ⟨hn, hnles.1⟩)
  have hrecovers : pcontdec (n.upNow f) = true := by
    cases hdown : n.anyDownNow f with
    | true => simpa [CompactInterval.blocks, hdown] using hkept
    | false =>
      -- every member of the kept interval survives, and these were enough
      rw [CompactInterval.upNow, Finset.filter_true_of_mem fun so hso => ?_, henough n hnmem]
      have hnd := fun hd => of_decide_eq_false hdown ⟨so, hso, hd⟩
      cases hstate : (f n.first so.osd).1 with
      | up => exact .inl rfl
      | lost => exact .inr rfl
      | dne => exact absurd hstate (hexists n hnmem so hso)
      | down => exact absurd hstate hnd
  have hsurvive : n.upNow f ⊆ o.upNow f := by
    intro so hso
    rw [CompactInterval.upNow, Finset.mem_filter] at hso ⊢
    exact ⟨of_decide_eq_true hsup hso.1, hso.2.imp (hup _ _ _) (hlost _ _ _ hnles.2)⟩
  simp [CompactInterval.blocks, hmono _ _ hsurvive hrecovers]

/-- A member of the dropped interval is down, the one it shares with the kept one is up. -/
theorem compact_safe_of_exists_one_down :
    let intervals : List PgInterval := [⟨[0, 1], 10, 20, true⟩, ⟨[0], 21, 30, true⟩]
    let f : OsdStateFn := fun _ osd => if osd = 1 then (.down, 0) else (.up, 0)
    ∃ rep, PiCompactRep.ofIntervals false intervals = some rep ∧
      (fullPriorSet false rep intervals 15 (fun s => decide s.Nonempty) f [0] [0]).pgDown =
        false := by
  intro intervals f
  refine ⟨(PiCompactRep.ofIntervals false intervals).get (by decide +kernel),
    (Option.some_get _).symm, compact_safe_of_exists (Option.some_get _).symm 15 f [0] [0]
      (fun s t hst hs => ?_) (by decide +kernel) (by decide +kernel) (fun _ _ _ h => h)
      (fun _ _ _ _ h => h) (by decide +kernel) (by decide +kernel)⟩
  rw [decide_eq_true_eq] at hs ⊢
  exact hs.mono hst

end Ceph.Osd
