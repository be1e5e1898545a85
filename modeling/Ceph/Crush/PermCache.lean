import Ceph.Crush.BucketChoose

set_option autoImplicit false

/-!
# Crush: the permutation of a bucket as a cache

`bucket_perm_choose` calculates the permutation of a bucket for an input step by step, as far
as it is asked for, and keeps it in the work area for the next call.  After a call for the
first position it keeps only the first entry, under a magic `perm_n`.  A bucket with more
items than that number can also reach it by counting; what is then taken for the first entry
alone is the first entry.
-/

namespace Ceph.Crush

open Ceph.Lib List Nat Option

/-! ## The permutation after some steps -/

/-- The permutation of the bucket for `x` after `k` steps. -/
def permAfter (h : Hash) (b : Bucket) (x : Int) : Nat → List Nat
  | 0 => range b.size
  | k + 1 => permStep h b x k (permAfter h b x k)

section

variable {h : Hash} {b : Bucket} {x : Int}

theorem permAfter_perm (k : Nat) : permAfter h b x k ~ range b.size := by
  induction k with
  | zero => exact Perm.refl _
  | succ _ ih => exact (permStep_perm (ih.length_eq.trans length_range)).trans ih

theorem permAfter_length (k : Nat) : (permAfter h b x k).length = b.size :=
  (permAfter_perm k).length_eq.trans length_range

/-- An entry stays once its step has been made. -/
theorem permAfter_stable {i k m : Nat} (hi : i < k) (hkm : k ≤ m) :
    (permAfter h b x m)[i]? = (permAfter h b x k)[i]? := by
  induction m, hkm using le_induction with
  | base => rfl
  | succ _ _ ih =>
    rw [permAfter, permStep, getElem?_set_ne (by omega), getElem?_set_ne (by omega), ih]

end

/-! ## The cache -/

/-- The permutation for the input of the work area, whichever call it was calculated for. -/
def IsPermAfter (h : Hash) (b : Bucket) (permX k : Nat) (p : List Nat) : Prop :=
  p ~ range b.size ∧ ∀ x : Int32, toU32 x.toInt = permX → p = permAfter h b x.toInt k

/-- What the work area holds is a part of the permutation for its input. -/
abbrev Cached (h : Hash) (b : Bucket) (wb : WorkBucket) : Prop := PermState b (IsPermAfter h b) wb

/-- The item that a call for `x` and `r` is to return. -/
def permItem (h : Hash) (b : Bucket) (x r : Int) : Option Int :=
  (permAfter h b x (toU32 r % b.size + 1))[toU32 r % b.size]?.bind (b.items[·]?)

theorem toU32_toInt_inj {x y : Int32} (heq : toU32 x.toInt = toU32 y.toInt) : x = y := by
  have hx := x.toInt_lt
  have hx' := x.le_toInt
  have hy := y.toInt_lt
  have hy' := y.le_toInt
  rw [toU32, toU32] at heq
  refine Int32.toInt_inj.1 ?_
  omega

section

variable {h : Hash} {b : Bucket} {x : Int32} {r : Int}

theorem permSteps_isPermAfter (hpos : 0 < b.size) :
    PermSteps h b x.toInt (IsPermAfter h b (toU32 x.toInt)) where
  fits := fun hp => ⟨hp.1.length_eq.trans length_range, fun s hs => mem_range.1 (hp.1.mem_iff.1 hs)⟩
  start := ⟨Perm.refl _, fun _ _ => rfl⟩
  step := fun {k p} hp => by
    refine ⟨(permStep_perm (hp.1.length_eq.trans length_range)).trans hp.1, fun y hy => ?_⟩
    rw [toU32_toInt_inj hy, permAfter, ← hp.2 x rfl]
  first := fun {k p s} hk hp hs => by
    -- the first entry is the one of the first step
    have hone := permStep_zero (h := h) (x := x.toInt) hpos
    rw [hp.2 x rfl, permAfter_stable Nat.zero_lt_one hk, permAfter, permAfter, hone, expandFirst,
      getElem?_set_self (by rwa [length_set, length_range]), some_inj] at hs
    rw [← hs, ← hone]
    exact ⟨permAfter_perm 1, fun y hy => by rw [toU32_toInt_inj hy]; rfl⟩

theorem bucketPermChoose_cached {wb : WorkBucket} (hpos : 0 < b.size) (hwb : Cached h b wb) :
    Yields (bucketPermChoose h b wb x.toInt r) fun out =>
      permItem h b x.toInt r = some out.1 ∧ Cached h b out.2 := by
  refine (bucketPermChoose_spec hpos (permSteps_isPermAfter hpos) hwb).imp ?_
  rintro out ⟨⟨_, _, hk, hp, hitem⟩, hout⟩
  rw [hp.2 x rfl, permAfter_stable (lt_succ_self _) hk] at hitem
  exact ⟨hitem, hout⟩

end

/-- The calls of a history, on one work area. -/
def permCalls (h : Hash) (b : Bucket) (calls : List (Int32 × Int32)) (wb : WorkBucket) :
    Except Fault WorkBucket :=
  calls.foldlM (fun wb c => (bucketPermChoose h b wb c.1.toInt c.2.toInt).map Prod.snd) wb

theorem cached_permCalls {h : Hash} {b : Bucket} (hpos : 0 < b.size) :
    ∀ (calls : List (Int32 × Int32)) (wb : WorkBucket), Cached h b wb →
      Yields (permCalls h b calls wb) (Cached h b)
  | [], _, hwb => Yields.pure hwb
  | _ :: calls, _, hwb =>
    ((bucketPermChoose_cached hpos hwb).map fun _ hout => hout.2).bind (cached_permCalls hpos calls)

/-- A work area as `crush_init_workspace` leaves it. -/
def freshWork (perm : List Nat) : WorkBucket := ⟨0, 0, perm⟩

theorem cached_freshWork {h : Hash} {b : Bucket} {perm : List Nat}
    (hlen : perm.length = b.size) : Cached h b (freshWork perm) :=
  ⟨hlen, fun hmagic => absurd (show 0 = 0xffff from hmagic) (by decide), fun hne => absurd rfl hne⟩

/-- The item that is drawn does not depend on the calls before, and the positions of a bucket
draw each of its items once. -/
theorem perm_choose_ignores_cache (h : Hash) (b : Bucket) (hpos : 0 < b.size)
    (hsize : b.size < 2 ^ 32) (x : Int32) :
    (∀ (calls : List (Int32 × Int32)) (perm fresh : List Nat) (r : Int32),
      perm.length = b.size → fresh.length = b.size →
      ∃ wb item wb₁ wb₂, permCalls h b calls (freshWork perm) = .ok wb ∧
        bucketPermChoose h b wb x.toInt r.toInt = .ok (item, wb₁) ∧
        bucketPermChoose h b (freshWork fresh) x.toInt r.toInt = .ok (item, wb₂)) ∧
    ∀ fresh : List Nat, fresh.length = b.size →
      ∃ items, items ~ b.items ∧ ∀ r < b.size, ∃ item wb, items[r]? = some item ∧
        bucketPermChoose h b (freshWork fresh) x.toInt r = .ok (item, wb) := by
  constructor
  · intro calls perm fresh r hlen hfresh
    obtain ⟨wb, hwb, hcached⟩ := cached_permCalls hpos calls _ (cached_freshWork (h := h) hlen)
    obtain ⟨⟨item, wb₁⟩, h₁, hitem, -⟩ :=
      bucketPermChoose_cached (x := x) (r := r.toInt) hpos hcached
    obtain ⟨⟨item', wb₂⟩, h₂, hitem', -⟩ :=
      bucketPermChoose_cached (x := x) (r := r.toInt) hpos (cached_freshWork (h := h) hfresh)
    obtain rfl : item = item' := Option.some.inj (hitem.symm.trans hitem')
    exact ⟨wb, item, wb₁, wb₂, hwb, h₁, h₂⟩
  · intro fresh hfresh
    refine ⟨(permAfter h b x.toInt b.size).map (b.items.getD · 0), ?_, fun r hr => ?_⟩
    · have hitems : (range b.size).map (b.items.getD · 0) = b.items :=
        ext_getElem (by rw [length_map, length_range]; rfl) fun i _ hi => by
          rw [getElem_map, getElem_range, getD_eq_getElem _ _ hi]
      exact ((permAfter_perm b.size).map _).trans (Perm.of_eq hitems)
    · obtain ⟨⟨item, wb⟩, hcall, hitem, -⟩ :=
        bucketPermChoose_cached (x := x) (r := r) hpos (cached_freshWork (h := h) hfresh)
      have hr' : toU32 r % b.size = r := by
        rw [toU32, Int.emod_eq_of_lt (by omega) (by omega), Int.toNat_natCast, mod_eq_of_lt hr]
      rw [permItem, hr', ← permAfter_stable (lt_succ_self r) hr,
        getElem?_eq_getElem (by rwa [permAfter_length]), bind_some] at hitem
      refine ⟨item, wb, ?_, hcall⟩
      rw [getElem?_map, getElem?_eq_getElem (by rwa [permAfter_length]), map_some,
        getD_eq_getElem?_getD, hitem]
      rfl

theorem perm_choose_ignores_cache_three :
    let b : Bucket := ⟨-1, 1, .uniform, 0, [4, 7, 9]⟩
    ∃ wb item wb₁ wb₂,
      permCalls exampleHash b [(5, 0), (2, 1), (5, 2)] (freshWork [0, 0, 0]) = .ok wb ∧
      bucketPermChoose exampleHash b wb (5 : Int32).toInt (1 : Int32).toInt = .ok (item, wb₁) ∧
      bucketPermChoose exampleHash b (freshWork [1, 1, 1]) (5 : Int32).toInt (1 : Int32).toInt =
        .ok (item, wb₂) :=
  (perm_choose_ignores_cache exampleHash ⟨-1, 1, .uniform, 0, [4, 7, 9]⟩ (by decide) (by decide)
    5).1 [(5, 0), (2, 1), (5, 2)] [0, 0, 0] [1, 1, 1] 1 rfl rfl

end Ceph.Crush
