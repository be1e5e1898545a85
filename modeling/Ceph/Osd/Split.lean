import Mathlib.Data.Finset.Image
import Ceph.Lib.LinearHash
import Ceph.Osd.PGLog

set_option autoImplicit false

/-!
# Splitting a placement group

When `pg_num` of a pool grows, a placement group hands the objects that now hash to its
children over to them, one child after the other.  A child takes the objects whose lowest
`split_bits` bits are its seed; for a `pg_num` that is no power of two the children of one
group have different numbers of bits, and some are descendants of others.

`pg_num` is a natural number here.  The source keeps it in an `unsigned` and hands it to
`ceph_stable_mod` as an `int`; below `2^31` no value that it computes leaves its type.
-/

namespace Ceph.Osd

open Ceph.Lib List Nat Std.ExtTreeMap MissingSet

/-! ## Seeds and bits -/

/-- `cbits`: the number of bits up to the highest that is set. -/
def cbits (v : Nat) : Nat := if v = 0 then 0 else Nat.log2 v + 1

/-- `ceph_stable_mod`. -/
def cephStableMod (x b bmask : Nat) : Nat :=
  if x &&& bmask < b then x &&& bmask else x &&& (bmask >>> 1)

/-- `pg_num_mask`, as `pg_pool_t::calc_pg_masks` sets it. -/
def pgNumMask (pgNum : Nat) : Nat := (1 <<< cbits (pgNum - 1)) - 1

/-- The loop of `pg_t::is_split` from `n` on, with what it has in `split` and `children`. -/
def isSplitFrom (oldPgNum newPgNum seed : Nat) :
    Nat → Nat → Bool × Finset Nat → Option (Bool × Finset Nat)
  | 0, _, _ => none
  | fuel + 1, n, found =>
    let oldBits := cbits oldPgNum
    let oldMask := (1 <<< oldBits) - 1
    let nextBit := n <<< (oldBits - 1)
    let s := nextBit ||| seed
    if s < oldPgNum ∨ s = seed then isSplitFrom oldPgNum newPgNum seed fuel (n + 1) found
    else if s ≥ newPgNum then some found
    else if cephStableMod s oldPgNum oldMask = seed then
      isSplitFrom oldPgNum newPgNum seed fuel (n + 1) (true, insert s found.2)
    else isSplitFrom oldPgNum newPgNum seed fuel (n + 1) found

/-- `pg_t::is_split`: what it returns, and the seeds of the children that it inserts.  The loop
has no bound of its own; `newPgNum` rounds are enough. -/
def isSplit (oldPgNum newPgNum seed : Nat) : Option (Bool × Finset Nat) :=
  if seed ≥ oldPgNum then some (false, ∅)
  else if newPgNum ≤ oldPgNum then some (false, ∅)
  else isSplitFrom oldPgNum newPgNum seed newPgNum 1 (false, ∅)

/-- `pg_t::get_split_bits`; the assertion that there is a placement group fails with
`none`. -/
def getSplitBits (seed pgNum : Nat) : Option Nat :=
  if pgNum = 1 then some 0
  else if pgNum > 1 then
    let p := cbits pgNum
    if seed % (1 <<< (p - 1)) < pgNum % (1 <<< (p - 1)) then some p else some (p - 1)
  else none

/-! ## Splitting -/

section

variable {O : Type} [LinearOrder O]

/-- The test of `split_out_child` and `split_into`: the object goes to the child. -/
def inChild (hash : O → Nat) (childSeed splitBits : Nat) (oid : O) : Bool :=
  hash oid &&& ((1 <<< splitBits) - 1) == childSeed

/-- `OSD::split_pgs`, what it does to the logs and missing sets: the parent afterwards and the
children, which start empty, in the order in which they are split off. -/
def splitPgs (hash : O → Nat) (pgNum : Nat) :
    List Nat → PGLog O → Option (PGLog O × List (Nat × PGLog O))
  | [], parent => some (parent, [])
  | child :: children, parent =>
    match getSplitBits child pgNum with
    | none => none
    | some splitBits =>
      let (parent', pg) := parent.splitInto (inChild hash child splitBits) {}
      (splitPgs hash pgNum children parent').map fun (p, pgs) => (p, (child, pg) :: pgs)

end

/-! ## Bins -/

theorem and_shift_sub_one (x k : Nat) : x &&& ((1 <<< k) - 1) = x % 2 ^ k := by
  rw [one_shiftLeft, and_two_pow_sub_one_eq_mod]

theorem shift_sub_one_shiftRight (k : Nat) : ((1 <<< (k + 1)) - 1) >>> 1 = (1 <<< k) - 1 := by
  omega

/-- With the mask that `is_split` uses, `ceph_stable_mod` is the bin of the hash. -/
theorem cephStableMod_eq_bin {x b : Nat} (hb : 0 < b) :
    cephStableMod x b ((1 <<< cbits b) - 1) = bin x b := by
  rw [cephStableMod, cbits, if_neg (ne_of_gt hb), shift_sub_one_shiftRight,
    and_shift_sub_one, and_shift_sub_one, bin]

theorem cbits_eq {v k : Nat} (hlo : 2 ^ k ≤ 2 * v + 1) (hhi : v < 2 ^ k) : cbits v = k := by
  cases k with
  | zero =>
    have hv : v = 0 := lt_one_iff.1 hhi
    rw [cbits, if_pos hv]
  | succ =>
    have hv : v ≠ 0 := fun h0 => by
      omega
    rw [cbits, if_neg hv, (log2_eq_iff hv).2 ⟨by omega, hhi⟩]

/-- So it is with the mask of the pool, which is shorter for a power of two. -/
theorem cephStableMod_pgNumMask {x b : Nat} (hb : 0 < b) :
    cephStableMod x b (pgNumMask b) = bin x b := by
  obtain ⟨hlo, _⟩ := log2_bounds hb
  rcases lt_or_eq_of_le hlo with _ | _
  · have hbits : cbits (b - 1) = cbits b := by
      rw [cbits_eq (k := log2 b + 1) (by rw [pow_succ]; omega)
        (by rw [pow_succ]; omega), cbits, if_neg (ne_of_gt hb)]
    rw [pgNumMask, hbits, cephStableMod_eq_bin hb]
  · have hbits : cbits (b - 1) = log2 b := cbits_eq (by omega) (by omega)
    have hcases := mod_two_mul_cases x (2 ^ log2 b)
    rw [pgNumMask, hbits, cephStableMod, and_shift_sub_one, if_pos (by omega), bin, pow_succ']
    split <;> omega

/-- `get_split_bits` finds the bits that decide about the bin of the seed. -/
theorem getSplitBits_eq {seed pgNum : Nat} (hpos : 0 < pgNum) :
    getSplitBits seed pgNum = some (binBits seed pgNum) := by
  unfold getSplitBits binBits
  split
  next hone =>
    subst hone
    rw [show log2 1 = 0 from rfl, pow_zero, mod_one, mod_one, if_neg (lt_irrefl 0)]
  next _ =>
    dsimp only
    rw [if_pos (by omega), cbits, if_neg (Nat.ne_of_gt hpos), Nat.add_sub_cancel, one_shiftLeft]
    split <;> rfl

/-! ## The children -/

/-- The candidate of round `n` of `is_split`. -/
def candidate (oldPgNum seed n : Nat) : Nat := (n <<< (cbits oldPgNum - 1)) ||| seed

section

variable {oldPgNum newPgNum seed : Nat}

theorem cbits_sub_one (hold : 0 < oldPgNum) : cbits oldPgNum - 1 = log2 oldPgNum := by
  rw [cbits, if_neg (Nat.ne_of_gt hold), Nat.add_sub_cancel]

theorem candidate_div (hold : 0 < oldPgNum) (n : Nat) :
    candidate oldPgNum seed n / 2 ^ log2 oldPgNum =
      n ||| (seed / 2 ^ Nat.log2 oldPgNum) := by
  rw [candidate, cbits_sub_one hold, or_div_two_pow, shiftLeft_eq,
    Nat.mul_div_cancel _ (Nat.two_pow_pos _)]

theorem candidate_mod (hold : 0 < oldPgNum) (n : Nat) :
    candidate oldPgNum seed n % 2 ^ log2 oldPgNum = seed % 2 ^ log2 oldPgNum := by
  rw [candidate, cbits_sub_one hold, or_mod_two_pow, shiftLeft_eq, mul_mod_left, zero_or]

/-- The seed has at most the one bit above the lower ones. -/
theorem seed_div_lt_two (hseed : seed < oldPgNum) : seed / 2 ^ log2 oldPgNum < 2 := by
  obtain ⟨-, _⟩ := log2_bounds (lt_of_le_of_lt (zero_le seed) hseed)
  exact Nat.div_lt_of_lt_mul (by omega)

theorem or_one_parts (v : Nat) : (v ||| 1) / 2 = v / 2 ∧ (v ||| 1) % 2 = 1 :=
  ⟨or_div_two.trans (or_zero _), or_mod_two_eq_one.2 (.inr rfl)⟩

theorem or_bit_mono {m n t : Nat} (ht : t < 2) (hmn : m ≤ n) : m ||| t ≤ n ||| t := by
  rcases le_one_iff_eq_zero_or_eq_one.1 (le_of_lt_succ ht) with rfl | rfl
  · rwa [or_zero, or_zero]
  · have hm := or_one_parts m
    have hn := or_one_parts n
    omega

/-- Later candidates are not smaller. -/
theorem candidate_mono (hseed : seed < oldPgNum) {m n : Nat} (hmn : m ≤ n) :
    candidate oldPgNum seed m ≤ candidate oldPgNum seed n := by
  have hold := lt_of_le_of_lt (zero_le seed) hseed
  rw [← div_add_mod (candidate oldPgNum seed m) (2 ^ log2 oldPgNum),
    ← div_add_mod (candidate oldPgNum seed n) (2 ^ log2 oldPgNum),
    candidate_div hold, candidate_div hold, candidate_mod hold, candidate_mod hold]
  exact Nat.add_le_add_right (mul_le_mul_left _ (or_bit_mono (seed_div_lt_two hseed) hmn)) _

theorem le_candidate (oldPgNum seed n : Nat) : n ≤ candidate oldPgNum seed n := by
  rw [candidate, shiftLeft_eq]
  exact le_trans (Nat.le_mul_of_pos_right n (Nat.two_pow_pos _)) left_le_or

/-- A placement group of the new number that belonged to the seed is a candidate. -/
theorem candidate_of_bin (hseed : seed < oldPgNum) {c : Nat} (hc : bin c oldPgNum = seed) :
    candidate oldPgNum seed (c / 2 ^ log2 oldPgNum) = c := by
  have hold := lt_of_le_of_lt (zero_le seed) hseed
  have hlow : seed % 2 ^ log2 oldPgNum = c % 2 ^ log2 oldPgNum := by
    rw [← hc, bin]
    split
    · exact mod_mod_of_dvd c (pow_dvd_pow 2 (le_succ _))
    · exact mod_mod c _
  -- The bit of the seed above the lower ones, if set, is set in `c` too.
  have hbit : c / 2 ^ log2 oldPgNum ||| seed / 2 ^ log2 oldPgNum =
      c / 2 ^ log2 oldPgNum := by
    have ht := seed_div_lt_two hseed
    rcases le_one_iff_eq_zero_or_eq_one.1 (le_of_lt_succ ht) with h0 | h1
    · rw [h0, or_zero]
    · have hge : 2 ^ log2 oldPgNum ≤ seed :=
        (one_le_div_iff (Nat.two_pow_pos _)).1 (le_of_eq h1.symm)
      have hcases := mod_two_mul_cases c (2 ^ log2 oldPgNum)
      have hodd : c / 2 ^ log2 oldPgNum % 2 = 1 := by
        rw [bin, pow_succ'] at hc
        split at hc <;> omega
      have hor := or_one_parts (c / 2 ^ log2 oldPgNum)
      rw [h1]
      omega
  rw [← div_add_mod (candidate oldPgNum seed _) (2 ^ log2 oldPgNum),
    candidate_div hold, candidate_mod hold, hbit, hlow, div_add_mod]

/-- The loop from round `n` on: it ends, and adds the new placement groups of the seed among
the candidates from there on. -/
theorem isSplitFrom_spec (hseed : seed < oldPgNum) (hlt : oldPgNum < newPgNum) (fuel n : Nat)
    (found : Finset Nat) (hn : n ≤ newPgNum) (hfuel : newPgNum < n + fuel) :
    ∃ children, isSplitFrom oldPgNum newPgNum seed fuel n (decide found.Nonempty, found) =
        some (decide children.Nonempty, children) ∧
      ∀ c, c ∈ children ↔ c ∈ found ∨ ((oldPgNum ≤ c ∧ c < newPgNum ∧ bin c oldPgNum = seed) ∧
        ∃ m, n ≤ m ∧ candidate oldPgNum seed m = c) := by
  have hold := lt_of_le_of_lt (zero_le seed) hseed
  induction fuel generalizing n found with
  | zero => exact absurd hfuel (not_lt.2 hn)
  | succ fuel ih =>
    have hn' := le_candidate oldPgNum seed n
    have hnext : candidate oldPgNum seed n < newPgNum → n + 1 ≤ newPgNum ∧
        newPgNum < n + 1 + fuel := fun h => ⟨by omega, by omega⟩
    -- Passing over round `n` loses nothing when its candidate is no child.
    have hskip : ∀ c, candidate oldPgNum seed n ≠ c →
        ((∃ m, n ≤ m ∧ candidate oldPgNum seed m = c) ↔
          ∃ m, n + 1 ≤ m ∧ candidate oldPgNum seed m = c) := by
      intro c hne
      refine exists_congr fun m => and_congr_left fun hm => ⟨fun hle => ?_, fun hle => by omega⟩
      rcases lt_or_eq_of_le hle with h | h
      · exact h
      · exact absurd (h ▸ hm) hne
    have hmod : cephStableMod (candidate oldPgNum seed n) oldPgNum
        ((1 <<< cbits oldPgNum) - 1) = bin (candidate oldPgNum seed n) oldPgNum :=
      cephStableMod_eq_bin hold
    rw [isSplitFrom, show n <<< (cbits oldPgNum - 1) ||| seed = candidate oldPgNum seed n from rfl,
      hmod]
    split
    next _ =>
      obtain ⟨children, heq, hmem⟩ := ih (n + 1) found (hnext (by omega)).1 (hnext (by omega)).2
      refine ⟨children, heq, fun c =>
        (hmem c).trans (or_congr_right (and_congr_right fun hc => ?_))⟩
      exact (hskip c (by omega)).symm
    next _ =>
      split
      next _ =>
        refine ⟨found, rfl, fun c => ⟨.inl, fun h => h.resolve_right ?_⟩⟩
        rintro ⟨⟨-, hc, -⟩, m, hm, rfl⟩
        have hmono := candidate_mono hseed hm
        omega
      next _ =>
        have hround := hnext (by omega)
        split
        next hchild =>
          obtain ⟨children, heq, hmem⟩ :=
            ih (n + 1) (insert (candidate oldPgNum seed n) found) hround.1 hround.2
          rw [decide_eq_true (Finset.insert_nonempty _ _)] at heq
          refine ⟨children, heq, fun c => (hmem c).trans ?_⟩
          rw [Finset.mem_insert]
          by_cases hcn : candidate oldPgNum seed n = c
          · subst hcn
            exact iff_of_true (.inl (.inl rfl))
              (.inr ⟨⟨by omega, by omega, hchild⟩, n, le_rfl, rfl⟩)
          · rw [or_iff_right (Ne.symm hcn), hskip c hcn]
        next hother =>
          obtain ⟨children, heq, hmem⟩ := ih (n + 1) found hround.1 hround.2
          refine ⟨children, heq, fun c =>
            (hmem c).trans (or_congr_right (and_congr_right fun hc => ?_))⟩
          refine (hskip c fun hcn => hother ?_).symm
          rw [hcn, hc.2.2]

/-- The children of a placement group are the new ones whose objects it had, and `is_split`
returns whether there are any. -/
theorem isSplit_spec (hseed : seed < oldPgNum) (hlt : oldPgNum < newPgNum) :
    ∃ children, isSplit oldPgNum newPgNum seed = some (decide children.Nonempty, children) ∧
      ∀ c, c ∈ children ↔ oldPgNum ≤ c ∧ c < newPgNum ∧ bin c oldPgNum = seed := by
  obtain ⟨children, heq, hmem⟩ := isSplitFrom_spec hseed hlt newPgNum 1 ∅ (by omega) (by omega)
  refine ⟨children, ?_, fun c => (hmem c).trans ?_⟩
  · rw [isSplit, if_neg (not_le.2 hseed), if_neg (not_le.2 hlt)]
    exact heq
  · rw [or_iff_right (Finset.notMem_empty c), and_iff_left_of_imp fun hc => ?_]
    obtain ⟨hlo, -⟩ := log2_bounds (lt_of_le_of_lt (zero_le seed) hseed)
    refine ⟨_, ?_, candidate_of_bin hseed hc.2.2⟩
    exact (one_le_div_iff (Nat.two_pow_pos _)).2 (le_trans hlo hc.1)

end

/-! ## One child -/

section

variable {O : Type} [LinearOrder O]

/-- The loop of `split_into` over items of the set: those of the child change sides. -/
theorem foldl_splitStep_missing (inChild : O → Bool) (o : O) {items : List (O × MissingItem)}
    {m c : MissingSet O} (hitems : ∀ p ∈ items, m.missing[p.1]? = some p.2)
    (hnodup : (items.map Prod.fst).Nodup) : (items.foldl (splitStep inChild) (m, c)).1.missing[o]? =
        (if inChild o ∧ o ∈ items.map Prod.fst then none else m.missing[o]?) ∧
      (items.foldl (splitStep inChild) (m, c)).2.missing[o]? =
        if inChild o ∧ o ∈ items.map Prod.fst then m.missing[o]? else c.missing[o]? := by
  induction items generalizing m c with
  | nil => simp
  | cons p items ih =>
    rw [map_cons, nodup_cons] at hnodup
    have hp := hitems p mem_cons_self
    have hrest : ∀ q ∈ items, p.1 ≠ q.1 := by
      intro q hq heq
      exact hnodup.1 (heq ▸ mem_map_of_mem hq)
    rw [foldl_cons, splitStep, map_cons]
    split
    next hin =>
      obtain ⟨hstay, hmove⟩ := ih
        (fun q hq => by
          rw [rm_missing, if_neg (hrest q hq)]
          exact hitems q (mem_cons_of_mem _ hq)) hnodup.2
      rw [hstay, hmove, rm_missing, add_missing]
      by_cases ho : p.1 = o
      · subst ho
        simp [hnodup.1, hin, hp]
      · simp only [mem_cons, Ne.symm ho, ho, false_or, if_false, and_self]
    next hout =>
      obtain ⟨hstay, hmove⟩ := ih (fun q hq => hitems q (mem_cons_of_mem _ hq)) hnodup.2
      rw [hstay, hmove]
      by_cases ho : p.1 = o
      · subst ho
        simp [hout]
      · simp only [mem_cons, Ne.symm ho, false_or, and_self]

/-- `pg_missing_set::split_into` an empty set. -/
theorem splitInto_missing (m : MissingSet O) (inChild : O → Bool) {child : MissingSet O}
    (hchild : child.missing = ∅) (o : O) :
    (m.splitInto inChild child).1.missing[o]? =
        (if inChild o then none else m.missing[o]?) ∧
      (m.splitInto inChild child).2.missing[o]? =
        if inChild o then m.missing[o]? else none := by
  have hnodup : (m.missing.toList.map Prod.fst).Nodup := by
    rw [map_fst_toList_eq_keys]
    exact nodup_keys
  obtain ⟨hstay, hmove⟩ := foldl_splitStep_missing inChild o
    (fun p hp => mem_toList_iff_getElem?_eq_some.1 hp) hnodup
  rw [splitInto, hstay, hmove]
  have hkey : o ∈ m.missing.toList.map Prod.fst ↔ m.missing[o]?.isSome = true := by
    rw [Std.ExtTreeMap.map_fst_toList_eq_keys, Std.ExtTreeMap.mem_keys, mem_iff_isSome_getElem?]
  cases hitem : m.missing[o]? with
  | none => simp [hchild]
  | some =>
    have hmem := hkey.2 (by rw [hitem]; rfl)
    simp only [hmem, and_true, hchild, getElem?_empty]

/-! ## All children -/

/-- What a placement group has after a split of `before`: the entries and missing items of its
objects, in the order they had, with the marks and the dup entries of the whole log. -/
structure Share (mine : O → Bool) (before pg : PGLog O) : Prop where
  log : pg.log.toPgLog =
    { before.log.toPgLog with log := before.log.log.filter fun e => mine e.soid }
  missing : ∀ o, pg.missing.missing[o]? = if mine o then before.missing.missing[o]? else none

/-- A share of a share. -/
theorem Share.trans {mine mine' both : O → Bool} {before mid pg : PGLog O}
    (h : Share mine before mid) (h' : Share mine' mid pg)
    (hboth : ∀ o, both o = (mine o && mine' o)) : Share both before pg where
  log := by
    rw [h'.log, h.log]
    simp only [filter_filter, hboth, Bool.and_comm]
  missing := by
    intro o
    rw [h'.missing, h.missing, hboth]
    cases mine o <;> cases mine' o <;> rfl

theorem Share.congr {mine mine' : O → Bool} {before pg : PGLog O} (h : Share mine before pg)
    (hlog : ∀ e ∈ before.log.log, mine e.soid = mine' e.soid)
    (hmissing : ∀ o, before.missing.missing[o]?.isSome = true → mine o = mine' o) :
    Share mine' before pg where
  log := by rw [h.log, filter_congr hlog]
  missing := by
    intro o
    rw [h.missing]
    cases hitem : before.missing.missing[o]? with
    | none => rw [ite_self, ite_self]
    | some => rw [hmissing o (by rw [hitem]; rfl)]

/-- `PGLog::split_into` an empty group: one child takes its share and leaves the rest. -/
theorem share_splitInto (s : PGLog O) (inChild : O → Bool) :
    Share (fun o => !inChild o) s (s.splitInto inChild {}).1 ∧
      Share inChild s (s.splitInto inChild {}).2 := by
  have hmissing := splitInto_missing s.missing inChild (rfl : ({} : MissingSet O).missing = ∅)
  refine ⟨⟨rfl, fun o => (hmissing o).1.trans ?_⟩, ⟨?_, fun o => ?_⟩⟩
  · cases inChild o <;> rfl
  · unfold PGLog.splitInto
    dsimp only
    split <;> rfl
  · rw [← (hmissing o).2]
    unfold PGLog.splitInto
    dsimp only
    split <;> rfl

variable {pgNum : Nat}

/-- Splitting off a list of children: each gets the objects of its bin, whichever were split
off before it, and the parent is left with the others. -/
theorem splitPgs_spec (hash : O → Nat) (hpos : 0 < pgNum) {children : List Nat}
    (hnodup : children.Nodup) (hlt : ∀ c ∈ children, c < pgNum) (parent : PGLog O) :
    ∃ parent' pgs, splitPgs hash pgNum children parent = some (parent', pgs) ∧
      pgs.map Prod.fst = children ∧
      Share (fun o => decide (bin (hash o) pgNum ∉ children)) parent parent' ∧
      ∀ p ∈ pgs, Share (fun o => decide (bin (hash o) pgNum = p.1)) parent p.2 := by
  induction children generalizing parent with
  | nil =>
    refine ⟨parent, [], rfl, rfl, ⟨?_, ?_⟩, nofun⟩
    · simp
    · simp
  | cons c _ ih =>
    obtain ⟨hc, hnodup⟩ := nodup_cons.1 hnodup
    have hin : ∀ o, inChild hash c (binBits c pgNum) o = decide (bin (hash o) pgNum = c) := by
      intro o
      rw [Bool.eq_iff_iff, decide_eq_true_iff, inChild, beq_iff_eq, and_shift_sub_one,
        bin_eq_iff hpos (hlt c mem_cons_self)]
    obtain ⟨hstay, hmove⟩ := share_splitInto parent (inChild hash c (binBits c pgNum))
    obtain ⟨parent', pgs, hrun, hkeys, hrest, hshares⟩ :=
      ih hnodup (fun d hd => hlt d (mem_cons_of_mem _ hd))
        (parent.splitInto (inChild hash c (binBits c pgNum)) {}).1
    refine ⟨parent', (c, (parent.splitInto (inChild hash c (binBits c pgNum)) {}).2) :: pgs,
      ?_, by rw [map_cons, hkeys], ?_, ?_⟩
    · rw [splitPgs, getSplitBits_eq hpos]
      dsimp only
      rw [hrun]
      rfl
    · refine hstay.trans hrest fun o => ?_
      simp [hin]
    · intro p hp
      obtain hp | hp := mem_cons.1 hp
      · subst hp
        exact hmove.congr (fun e _ => hin e.soid) fun o _ => hin o
      · refine hstay.trans (hshares p hp) fun o => ?_
        have hne : p.1 ≠ c := fun heq => hc (heq ▸ hkeys ▸ mem_map_of_mem hp)
        rw [hin, Bool.eq_iff_iff, Bool.and_eq_true, Bool.not_eq_true',
          decide_eq_false_iff_not, decide_eq_true_iff]
        exact ⟨fun h => ⟨fun h' => hne (h.symm.trans h'), h⟩, fun h => h.2⟩

/-- Splitting loses and duplicates nothing.  The entries and missing items of a placement
group belong to it under the old `pg_num`.  Its children under the new one, split off in any
order, and what is left of it share them: every object goes to the one group that its hash
names under the new `pg_num`, entries keep their order, and the marks and the dup entries of
the log are those of the whole. -/
theorem split_partitions (hash : O → Nat) {oldPgNum newPgNum seed : Nat}
    (hseed : seed < oldPgNum) (hlt : oldPgNum < newPgNum) (parent : PGLog O)
    (hlog : ∀ e ∈ parent.log.log, cephStableMod (hash e.soid) oldPgNum (pgNumMask oldPgNum) = seed)
    (hmissing : ∀ o, parent.missing.missing[o]?.isSome = true →
      cephStableMod (hash o) oldPgNum (pgNumMask oldPgNum) = seed) :
    ∃ set, isSplit oldPgNum newPgNum seed = some (decide set.Nonempty, set) ∧
      ∀ children : List Nat, children.Nodup → children.toFinset = set →
        ∃ parent' pgs, splitPgs hash newPgNum children parent = some (parent', pgs) ∧
          pgs.map Prod.fst = children ∧ (seed :: children).Nodup ∧
          (∀ e ∈ parent.log.log,
            cephStableMod (hash e.soid) newPgNum (pgNumMask newPgNum) ∈ seed :: children) ∧
          (∀ o, parent.missing.missing[o]?.isSome = true →
            cephStableMod (hash o) newPgNum (pgNumMask newPgNum) ∈ seed :: children) ∧
          ∀ p ∈ (seed, parent') :: pgs,
            Share (fun o => cephStableMod (hash o) newPgNum (pgNumMask newPgNum) == p.1)
              parent p.2 := by
  have hold : 0 < oldPgNum := lt_of_le_of_lt (zero_le seed) hseed
  have hnew : 0 < newPgNum := lt_trans hold hlt
  obtain ⟨set, hset, hmem⟩ := isSplit_spec hseed hlt
  refine ⟨set, hset, fun children hnodup hchildren => ?_⟩
  have hchild : ∀ c, c ∈ children ↔ oldPgNum ≤ c ∧ c < newPgNum ∧ bin c oldPgNum = seed := by
    intro c
    rw [← hmem, ← hchildren, mem_toFinset]
  obtain ⟨parent', pgs, hrun, hkeys, hparent, hpgs⟩ :=
    splitPgs_spec hash hnew hnodup (fun c hc => ((hchild c).1 hc).2.1) parent
  have hseedNot : seed ∉ children := fun h => not_le.2 hseed ((hchild seed).1 h).1
  simp only [cephStableMod_pgNumMask hold] at hlog hmissing
  simp only [cephStableMod_pgNumMask hnew]
  -- An object of the group stays or goes to one of the children.
  have hgoes : ∀ o, bin (hash o) oldPgNum = seed → bin (hash o) newPgNum ∈ seed :: children := by
    intro o ho
    rw [← bin_bin hold hlt.le] at ho
    rcases lt_or_ge (bin (hash o) newPgNum) oldPgNum with hsmall | hbig
    · rw [bin_of_lt hsmall] at ho
      exact mem_cons.2 (.inl ho)
    · exact mem_cons_of_mem _ ((hchild _).2 ⟨hbig, bin_lt hnew, ho⟩)
  have hstays : ∀ o, bin (hash o) oldPgNum = seed →
      decide (bin (hash o) newPgNum ∉ children) = (bin (hash o) newPgNum == seed) := by
    intro o ho
    rw [Bool.eq_iff_iff, decide_eq_true_iff, beq_iff_eq]
    refine ⟨fun h => (mem_cons.1 (hgoes o ho)).resolve_right h, fun h => ?_⟩
    rw [h]
    exact hseedNot
  refine ⟨parent', pgs, hrun, hkeys, nodup_cons.2 ⟨hseedNot, hnodup⟩,
    fun e he => hgoes e.soid (hlog e he), fun o ho => hgoes o (hmissing o ho), fun p hp => ?_⟩
  obtain hp | hp := mem_cons.1 hp
  · subst hp
    exact hparent.congr (fun e he => hstays e.soid (hlog e he)) fun o ho => hstays o (hmissing o ho)
  · exact hpgs p hp

end

/-! Group 1 of 3 with objects of four hashes, one of them missing, in a pool that grows to 12
groups. -/

namespace Growing

def entry (oid v : Nat) : LogEntry Nat :=
  { op := .modify, soid := oid, version := ⟨1, v⟩, priorVersion := 0 }

def log : PgLog Nat := ⟨⟨1, 4⟩, 0, ⟨1, 4⟩, 0, [entry 13 1, entry 15 2, entry 9 3, entry 21 4], []⟩

def parent : PGLog Nat :=
  { log := IndexedLog.ofPgLog log, missing := MissingSet.add {} 15 ⟨1, 2⟩ 0 false }

end Growing

/-- The children are 3, 5, 7, 9 and 11; with 12 groups the hash 13 stays in group 1 while 15
goes to group 7, 9 to group 9 and 21 to group 5. -/
theorem split_partitions_growing :
    ∃ parent' pgs,
      splitPgs id 12 [11, 3, 9, 5, 7] Growing.parent = some (parent', pgs) ∧
      Share (fun o => cephStableMod o 12 (pgNumMask 12) == 1) Growing.parent parent' ∧
      ∀ p ∈ pgs,
        Share (fun o => cephStableMod o 12 (pgNumMask 12) == p.1) Growing.parent p.2 := by
  obtain ⟨set, hset, hsplit⟩ := split_partitions (id : Nat → Nat) (by decide : 1 < 3)
    (by decide : 3 < 12) Growing.parent (by decide +kernel) (fun o ho => by
      rw [Growing.parent, add_missing] at ho
      split at ho
      next heq =>
        subst heq
        decide +kernel
      next => simp at ho)
  have hrun : isSplit 3 12 1 = some (true, {3, 5, 7, 9, 11}) := by decide +kernel
  have hchildren : set = {3, 5, 7, 9, 11} :=
    congrArg Prod.snd (Option.some_inj.1 (hset.symm.trans hrun))
  obtain ⟨parent', pgs, hrun, -, -, -, -, hshares⟩ :=
    hsplit [11, 3, 9, 5, 7] (by decide) (by rw [hchildren]; decide)
  exact ⟨parent', pgs, hrun, hshares (1, parent') mem_cons_self,
    fun p hp => hshares p (mem_cons_of_mem _ hp)⟩

end Ceph.Osd
