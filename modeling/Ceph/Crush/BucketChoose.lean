import Ceph.Crush.Builder
import Ceph.Lib.Fuel
import Ceph.Lib.InorderTree

set_option autoImplicit false

/-!
# Crush: what is drawn from a bucket is one of its items

Each of the algorithms, and the permutation that serves as a fallback, stays inside of the
arrays of a bucket and returns one of its items.  For a tree bucket this rests on the node
weights: the walk turns only to nodes that have weight, so that it ends at an item, unless
the tree has an item at every terminal node.
-/

namespace Ceph.Crush

open Ceph.Lib List Option

/-! ## Arrays -/

section

variable {α : Type} {a : List α} {i : Nat}

theorem readAt_of_lt (h : i < a.length) : readAt a i = .ok a[i] := by
  rw [readAt, getElem?_eq_getElem h]

theorem readAt_of_some {v : α} (h : a[i]? = some v) : readAt a i = .ok v := by
  rw [readAt, h]

theorem readAt_yields_mem (h : i < a.length) : Yields (readAt a i) (· ∈ a) :=
  ⟨a[i], readAt_of_lt h, getElem_mem h⟩

theorem readAt_yields (h : i < a.length) : Yields (readAt a i) (· = a[i]) :=
  ⟨a[i], readAt_of_lt h, rfl⟩

theorem writeAt_of_lt (h : i < a.length) (v : α) : writeAt a i v = .ok (a.set i v) := if_pos h

theorem writeAt_yields (h : i < a.length) (v : α) : Yields (writeAt a i v) (· = a.set i v) :=
  ⟨_, writeAt_of_lt h v, rfl⟩

end

/-! ## The permutation -/

/-- The permutation has an entry for each item, and what has been calculated of it are
positions of items. -/
structure PermOk (b : Bucket) (wb : WorkBucket) : Prop where
  length : wb.perm.length = b.size
  first : wb.permN = permMagic → ∀ s ∈ wb.perm[0]?, s < b.size
  all : wb.permN ≠ 0 → wb.permN ≠ permMagic → ∀ s ∈ wb.perm, s < b.size

variable {perm : List Nat}

/-- From the start on, every position holds itself. -/
theorem fillPerm_spec {start size : Nat} (hlen : perm.length = size) :
    Yields (fillPerm perm start size) fun p =>
      p.length = size ∧ (∀ i, i < start → p[i]? = perm[i]?) ∧
        ∀ i, start ≤ i → i < size → p[i]? = some i := by
  refine (Yields.foldlM_range' (I := fun i p => p.length = size ∧
    (∀ j, j < start → p[j]? = perm[j]?) ∧ ∀ j, start ≤ j → j < i → p[j]? = some j)
    _ start perm ?_ ⟨hlen, fun _ _ => rfl, fun j hj hlt => by omega⟩).imp ?_
  · rintro i p _ hlt ⟨hp, hbefore, hdone⟩
    refine ⟨_, writeAt_of_lt (by omega) i, by rw [length_set, hp], fun j hj => ?_,
      fun j hj hji => ?_⟩
    · rw [getElem?_set_ne (by omega), hbefore j hj]
    · obtain hlt | heq := lt_or_eq_of_le (Nat.le_of_lt_succ hji)
      · rw [getElem?_set_ne (by omega), hdone j hj hlt]
      · rw [heq, getElem?_set_self (by omega)]
  · rintro p ⟨hp, hbefore, hdone⟩
    exact ⟨hp, hbefore, fun j hj hjs => hdone j hj (by omega)⟩

section Perm

variable {h : Hash} {b : Bucket} {x r : Int}

/-- `permSwap` on a permutation of the right length: the two entries change places. -/
def permStep (h : Hash) (b : Bucket) (x : Int) (p : Nat) (perm : List Nat) : List Nat :=
  let i := if p < b.size - 1 then (h.hash32_3 b.hash x b.id p).toNat % (b.size - p) else 0
  (perm.set (p + i) (perm.getD p 0)).set p (perm.getD (p + i) 0)

theorem set_getD_self (l : List Nat) (i : Nat) : l.set i (l.getD i 0) = l := by
  by_cases hi : i < l.length
  · rw [getD_eq_getElem _ _ hi, set_getElem_self]
  · rw [set_eq_of_length_le (not_lt.1 hi)]

theorem permSwap_eq {p : Nat} (hlen : perm.length = b.size) :
    permSwap h b x p perm = .ok (permStep h b x p perm) := by
  rw [permSwap, permStep]
  split
  next _ =>
    have hlt := Nat.mod_lt (h.hash32_3 b.hash x b.id p).toNat (show 0 < b.size - p by omega)
    dsimp only
    split
    next hi =>
      rw [readAt_of_lt (by omega), readAt_of_lt (by omega), ok_bind, ok_bind,
        writeAt_of_lt (by omega), ok_bind, writeAt_of_lt (by rw [length_set]; omega),
        getD_eq_getElem _ _ (by omega), getD_eq_getElem _ _ (by omega)]
    next hi => rw [not_not.1 hi, add_zero, set_set, set_getD_self]
  next => rw [add_zero, set_set, set_getD_self]

theorem permStep_perm {p : Nat} (hlen : perm.length = b.size) : permStep h b x p perm ~ perm := by
  rw [permStep]
  split
  next _ =>
    have hlt := Nat.mod_lt (h.hash32_3 b.hash x b.id p).toNat (show 0 < b.size - p by omega)
    rw [getD_eq_getElem _ _ (by omega), getD_eq_getElem _ _ (by omega)]
    exact set_set_perm (by omega) (by omega)
  next => rw [add_zero, set_set, set_getD_self]

/-- The identity with its first entry exchanged: what `bucket_perm_choose` makes of a first
entry that it has calculated alone. -/
def expandFirst (b : Bucket) (s : Nat) : List Nat := ((range b.size).set s 0).set 0 s

theorem permStep_zero (hpos : 0 < b.size) :
    permStep h b x 0 (range b.size) =
      expandFirst b ((h.hash32_3 b.hash x b.id 0).toNat % b.size) := by
  have hfirst : (if 0 < b.size - 1 then (h.hash32_3 b.hash x b.id (0 : Nat)).toNat % (b.size - 0)
      else 0) = (h.hash32_3 b.hash x b.id 0).toNat % b.size := by
    split
    next => rfl
    next _ => rw [show b.size = 1 by omega, Nat.mod_one]
  have hlt := Nat.mod_lt (h.hash32_3 b.hash x b.id 0).toNat hpos
  rw [permStep, hfirst, zero_add, getD_eq_getElem _ _ (by rwa [length_range]),
    getD_eq_getElem _ _ (by rwa [length_range]), getElem_range, getElem_range, expandFirst]

/-- What is known about the permutation for one input after some steps, and kept by every
step, also by starting again with the first entry. -/
structure PermSteps (h : Hash) (b : Bucket) (x : Int) (I : Nat → List Nat → Prop) : Prop where
  fits : ∀ {k p}, I k p → p.length = b.size ∧ ∀ s ∈ p, s < b.size
  start : I 0 (range b.size)
  step : ∀ {k p}, I k p → I (k + 1) (permStep h b x k p)
  first : ∀ {k p s}, 0 < k → I k p → p[0]? = some s → I 1 (expandFirst b s)

/-- The work area holds a permutation about which `I` is known, or the first entry of one. -/
structure PermState (b : Bucket) (I : Nat → Nat → List Nat → Prop) (wb : WorkBucket) :
    Prop where
  length : wb.perm.length = b.size
  first : wb.permN = permMagic → ∀ s ∈ wb.perm[0]?, s < b.size ∧ I wb.permX 1 (expandFirst b s)
  all : wb.permN ≠ 0 → wb.permN ≠ permMagic → I wb.permX wb.permN wb.perm

variable {I : Nat → Nat → List Nat → Prop} {wb : WorkBucket}

theorem permLoop_spec {X : Nat} (hI : PermSteps h b x (I X)) (n k : Nat) (p : List Nat)
    (hp : I X k p) : Yields (permLoop h b x n ⟨X, k, p⟩) fun wb' =>
      wb'.permX = X ∧ wb'.permN = k + n ∧ I X (k + n) wb'.perm := by
  induction n generalizing k p with
  | zero => exact Yields.pure ⟨rfl, rfl, hp⟩
  | succ n ih =>
    rw [permLoop, permSwap_eq (hI.fits hp).1, add_comm n, ← add_assoc]
    exact ih _ _ (hI.step hp)

/-- The loop completes the permutation up to the position. -/
theorem permFinish_spec {pr X k : Nat} {p : List Nat} (hpr : pr < b.size)
    (hI : PermSteps h b x (I X)) (hp : I X k p) :
    Yields (permFinish h b x pr ⟨X, k, p⟩) fun out =>
      (∃ k p, pr < k ∧ I X k p ∧ p[pr]?.bind (b.items[·]?) = some out.1) ∧
        PermState b I out.2 := by
  refine (permLoop_spec hI _ k p hp).bind ?_
  rintro ⟨X, _, p'⟩ ⟨rfl, hk, hp'⟩
  dsimp only at hk hp' ⊢
  subst hk
  obtain ⟨hlen, hall⟩ := hI.fits hp'
  have hlt := hall _ (getElem_mem (hlen ▸ hpr))
  rw [readAt_of_lt (hlen ▸ hpr), ok_bind, readAt_of_lt hlt]
  refine ⟨_, rfl, ⟨_, p', by omega, hp', ?_⟩, hlen, fun hmagic s hs => ?_, fun _ _ => hp'⟩
  · rw [getElem?_eq_getElem (hlen ▸ hpr)]
    exact getElem?_eq_getElem hlt
  · exact ⟨hall s (mem_of_getElem? hs), hI.first (by omega) hp' hs⟩

theorem bucketPermChoose_spec (hpos : 0 < b.size) (hI : PermSteps h b x (I (toU32 x)))
    (hwb : PermState b I wb) :
    Yields (bucketPermChoose h b wb x r) fun out =>
      (∃ k p, toU32 r % b.size < k ∧ I (toU32 x) k p ∧
        p[toU32 r % b.size]?.bind (b.items[·]?) = some out.1) ∧ PermState b I out.2 := by
  have hpr := Nat.mod_lt (toU32 r) hpos
  have hset : ∀ s, (expandFirst b s)[0]? = some s := fun s =>
    getElem?_set_self (by rwa [length_set, length_range])
  rw [bucketPermChoose, if_neg hpos.ne']
  dsimp only
  split
  next =>
    split
    next hzero =>
      -- only the first entry is calculated
      have hs := Nat.mod_lt (h.hash32_3 b.hash x b.id 0).toNat hpos
      have hone := permStep_zero hpos ▸ hI.step hI.start
      rw [writeAt_of_lt (by rwa [hwb.length]), ok_bind, readAt_of_lt hs, ok_bind]
      refine ⟨_, rfl, ⟨1, _, by omega, hone, ?_⟩, by rw [length_set, hwb.length],
        fun _ s hs' => ?_, fun _ hne => absurd rfl hne⟩
      · rw [hzero, hset]
        exact getElem?_eq_getElem hs
      · rw [getElem?_set_self (by rwa [hwb.length])] at hs'
        exact Option.some.inj hs' ▸ ⟨hs, hone⟩
    next =>
      refine (fillPerm_spec hwb.length).bind fun p hp => ?_
      have hrange : p = range b.size := ext_getElem (by rw [hp.1, length_range]) fun i hi _ => by
        rw [← Option.some_inj, ← getElem?_eq_getElem, hp.2.2 i (Nat.zero_le i) (hp.1 ▸ hi),
          getElem_range]
      exact permFinish_spec hpr hI (hrange ▸ hI.start)
  next hx =>
    rw [not_or, not_not] at hx
    rw [← hx.1] at hI ⊢
    split
    next hmagic =>
      -- the entries after the first are the identity, but for the exchange with the first
      refine (fillPerm_spec hwb.length).bind fun p hp => ?_
      have hp0 : p[0]? = some p[0] := getElem?_eq_getElem (hp.1 ▸ hpos)
      obtain ⟨hs, hfirst⟩ := hwb.first hmagic p[0] (hp.2.1 0 zero_lt_one ▸ hp0)
      generalize p[0] = s at hp0 hs hfirst
      rw [readAt_of_some hp0, ok_bind, writeAt_of_lt (by rwa [hp.1])]
      have hexpand : p.set s 0 = expandFirst b s := ext_getElem? fun i => by
        rcases eq_zero_or_pos i with rfl | hi
        · rw [hset, getElem?_set, hp0, hp.1]
          split
          next hs0 => rw [hs0]
          next => rfl
        · rw [expandFirst, getElem?_set_ne hi.ne, getElem?_set, getElem?_set, hp.1, length_range]
          split
          next => rfl
          next =>
            rcases lt_or_ge i b.size with hlt | _
            · rw [hp.2.2 i hi hlt, getElem?_range hlt]
            · rw [getElem?_eq_none (by rwa [hp.1]), getElem?_eq_none (by rwa [length_range])]
      exact permFinish_spec hpr hI (hexpand ▸ hfirst)
    next hmagic => exact permFinish_spec hpr hI (hwb.all hx.2 hmagic)

/-- Of any work area, only that its entries are positions of items. -/
theorem bucketPermChoose_mem (hpos : 0 < b.size) (hwb : PermOk b wb) :
    Yields (bucketPermChoose h b wb x r) fun out => out.1 ∈ b.items ∧ PermOk b out.2 := by
  let J : List Nat → Prop := fun p => p.length = b.size ∧ ∀ s ∈ p, s < b.size
  have hrange : J (range b.size) := ⟨length_range, fun s hs => mem_range.1 hs⟩
  have hexpand : ∀ s < b.size, J (expandFirst b s) := fun s hs => by
    refine ⟨by rw [expandFirst, length_set, length_set, length_range], fun t ht => ?_⟩
    rcases mem_or_eq_of_mem_set ht with ht | rfl
    · rcases mem_or_eq_of_mem_set ht with ht | rfl
      · exact hrange.2 t ht
      · exact hpos
    · exact hs
  have hI : PermSteps h b x fun _ => J := ⟨id, hrange, fun {k p} hp => by
    have hperm := permStep_perm (h := h) (x := x) (p := k) hp.1
    exact ⟨hperm.length_eq.trans hp.1, fun s hs => hp.2 s (hperm.mem_iff.1 hs)⟩,
    fun _ hp hs => hexpand _ (hp.2 _ (mem_of_getElem? hs))⟩
  have hstate : PermState b (fun _ _ => J) wb := ⟨hwb.length,
    fun hmagic s hs => ⟨hwb.first hmagic s hs, hexpand s (hwb.first hmagic s hs)⟩,
    fun hne hmagic => ⟨hwb.length, hwb.all hne hmagic⟩⟩
  refine (bucketPermChoose_spec hpos hI hstate).imp ?_
  rintro out ⟨⟨k, p, -, -, hitem⟩, hout⟩
  obtain ⟨s, -, hs⟩ := bind_eq_some_iff.1 hitem
  exact ⟨mem_of_getElem? hs, hout.length, fun hmagic s hs => (hout.first hmagic s hs).1,
    fun hne hmagic => (hout.all hne hmagic).2⟩

end Perm

/-! ## The list bucket -/

/-- A point in `[0, w)` picked with the bits of a hash. -/
theorem scaled_lt {bits hash w : Nat} (hbits : hash < 2 ^ bits) (hw : 0 < w) :
    (hash * w) >>> bits < w := by
  rw [Nat.shiftRight_eq_div_pow]
  refine Nat.div_lt_of_lt_mul ?_
  exact mul_lt_mul_of_pos_right hbits hw

/-- The weight of the first `n` items together. -/
def totalWeight (weights : List UInt32) (n : Nat) : Nat := ((weights.take n).map UInt32.toNat).sum

theorem totalWeight_succ {weights : List UInt32} {i : Nat} (hi : i < weights.length) :
    totalWeight weights (i + 1) = totalWeight weights i + weights[i].toNat := by
  rw [totalWeight, take_add_one, getElem?_eq_getElem hi, map_append, sum_append]
  rfl

/-- The sums of a list bucket: at each position the weight of the items up to it. -/
structure ListOk (b : Bucket) (itemWeights sumWeights : List UInt32) : Prop where
  items : b.size ≤ itemWeights.length
  sums : b.size ≤ sumWeights.length
  sum : ∀ i < b.size, (sumWeights.getD i 0).toNat = totalWeight itemWeights (i + 1)

section

variable {h : Hash} {b : Bucket} {x r : Int} {itemWeights sumWeights : List UInt32}

/-- The loop stops before it has passed all the items with weight: the point that is drawn
lies below the sum, so that weight is left when it is not below the item's own. -/
theorem listLoop_spec (hpos : 0 < b.size) (hi : b.size ≤ itemWeights.length)
    (hs : b.size ≤ sumWeights.length) (i : Nat) (hle : i ≤ b.size) :
    Yields (listLoop h b itemWeights sumWeights x r i) fun item =>
      ∃ j, b.items[j]? = some item ∧ (ListOk b itemWeights sumWeights →
        0 < totalWeight itemWeights i → 0 < itemWeights.getD j 0) := by
  induction i with
  | zero =>
    exact ⟨_, readAt_of_lt hpos, 0, getElem?_eq_getElem hpos,
      fun _ hsome => absurd hsome (lt_irrefl 0)⟩
  | succ i ih =>
    have hi' := lt_of_lt_of_le hle hi
    have hs' := lt_of_lt_of_le hle hs
    rw [listLoop, readAt_of_lt hle, readAt_of_lt hs', readAt_of_lt hi']
    change Yields (if _ then _ else _) _
    split
    next hpick =>
      refine Yields.pure ⟨i, getElem?_eq_getElem hle, fun _ _ => ?_⟩
      rw [getD_eq_getElem _ _ hi']
      exact UInt32.lt_iff_toNat_lt.2 (Nat.zero_lt_of_lt hpick)
    next _ =>
      refine (ih (Nat.le_of_succ_le hle)).imp ?_
      rintro item ⟨j, hitem, hw⟩
      refine ⟨j, hitem, fun hl hsome => hw hl ?_⟩
      have hsum := hl.sum i hle
      rw [getD_eq_getElem _ _ hs'] at hsum
      have hbits : (h.hash32_4 b.hash x b.items[i] r b.id).toNat &&& 0xffff < 2 ^ 16 :=
        Nat.lt_succ_of_le Nat.and_le_right
      have hdraw := scaled_lt hbits (hsum ▸ hsome)
      have htotal := totalWeight_succ hi'
      omega

end

/-! ## The tree bucket -/

theorem shifts_le_iff (fuel t k : Nat) (ht : t ≤ fuel) : shifts fuel t ≤ k ↔ t < 2 ^ k := by
  induction fuel generalizing t k with
  | zero =>
    have hpos := Nat.two_pow_pos k
    simp only [shifts]
    omega
  | succ _ ih =>
    rw [shifts]
    split
    next h0 =>
      have hpos := Nat.two_pow_pos k
      omega
    next h0 =>
      cases k with
      | zero => omega
      | succ k =>
        have hhalf := ih (t / 2) k (by omega)
        omega

theorem calcDepth_le_iff {size : Nat} (d : Nat) (hsize : 0 < size) :
    calcDepth size ≤ d + 1 ↔ size ≤ 2 ^ d := by
  have hshifts := shifts_le_iff size (size - 1) d (Nat.sub_le size 1)
  rw [calcDepth, if_neg (by omega)]
  omega

/-- The weights of a tree bucket: the nodes are `1` to `2^(depth+1) - 1`, an interior node
has the weight of its two children together, the terminal nodes without an item have no
weight. -/
structure TreeOk (b : Bucket) (nodeWeights : List UInt32) (depth : Nat) : Prop where
  length : 2 ^ (depth + 1) ≤ nodeWeights.length
  sum : TreeSum (depth + 1) fun n => (nodeWeights.getD n 0).toNat
  empty : ∀ i, b.size ≤ i → 2 * i + 1 < 2 ^ (depth + 1) → nodeWeights.getD (2 * i + 1) 0 = 0

/-- The height of a node is the power of two in its number. -/
theorem height_treeNode (j : Nat) (k fuel : Nat) (hfuel : k < fuel) :
    height fuel (treeNode k j) = .ok k := by
  induction k generalizing fuel with
  | zero =>
    cases fuel with
    | zero => exact absurd hfuel (Nat.not_lt_zero 0)
    | succ => rw [treeNode_zero, height, if_neg (by omega)]
  | succ k ih =>
    cases fuel with
    | zero => exact absurd hfuel (Nat.not_lt_zero _)
    | succ fuel =>
      have hdouble : treeNode (k + 1) j = 2 * treeNode k j := by
        rw [treeNode, treeNode]
        ring
      rw [height, hdouble, if_pos (Nat.mul_mod_right 2 _),
        Nat.mul_div_cancel_left _ Nat.zero_lt_two, ih fuel (Nat.lt_of_succ_lt_succ hfuel)]
      rfl

theorem lt_treeNode (k j : Nat) : k < treeNode k j + 1 := by
  have hk := Nat.lt_two_pow_self (n := k)
  have hle := Nat.le_mul_of_pos_right (2 ^ k) (show 0 < 2 * j + 1 by omega)
  rw [treeNode]
  omega

theorem treeLeft_eq (k j : Nat) : treeLeft (treeNode (k + 1) j) = .ok (treeNode k (2 * j)) := by
  have hsplit : treeNode (k + 1) j = treeNode k (2 * j) + 2 ^ k := by
    rw [treeNode, treeNode]
    ring
  rw [treeLeft, height_treeNode j _ _ (lt_treeNode _ j)]
  refine congrArg Except.ok ?_
  dsimp only
  rw [hsplit, Nat.add_sub_cancel, Nat.add_sub_cancel]

theorem treeRight_eq (k j : Nat) :
    treeRight (treeNode (k + 1) j) = .ok (treeNode k (2 * j + 1)) := by
  rw [treeRight, height_treeNode j _ _ (lt_treeNode _ j)]
  refine congrArg Except.ok ?_
  dsimp only
  rw [Nat.add_sub_cancel, treeNode, treeNode]
  ring

section

variable {h : Hash} {b : Bucket} {x r : Int} {depth : Nat} {nodeWeights : List UInt32}

section

variable (ht : TreeOk b nodeWeights depth)

include ht

/-- The walk ends at a terminal node that has an item, and weight if it starts at a node that
has weight. -/
theorem treeLoop_spec {full : Prop} (hfull : full → b.size = 2 ^ depth) (k fuel j : Nat)
    (hfuel : k < fuel) (hlt : treeNode k j < 2 ^ (depth + 1))
    (huse : 0 < nodeWeights.getD (treeNode k j) 0 ∨ full) :
    Yields (treeLoop h b nodeWeights x r fuel (treeNode k j)) fun n =>
      n / 2 < b.size ∧ (0 < nodeWeights.getD (2 * (n / 2) + 1) 0 ∨ full) := by
  induction k generalizing fuel j with
  | zero =>
    rw [treeNode_zero] at *
    cases fuel with
    | zero => exact absurd hfuel (Nat.not_lt_zero 0)
    | succ =>
      rw [treeLoop, if_neg (by omega)]
      refine Yields.pure ?_
      rw [show (2 * j + 1) / 2 = j by omega]
      refine ⟨?_, huse⟩
      obtain hw | hall := huse
      · refine Nat.lt_of_not_le fun hge => ?_
        rw [ht.empty j hge hlt] at hw
        exact absurd hw (lt_irrefl 0)
      · have hsize := hfull hall
        omega
  | succ k ih =>
    obtain ⟨hleft, hright⟩ := children_lt hlt
    have hlen := ht.length
    have hsum := ht.sum k j hlt
    dsimp only at hsum
    cases fuel with
    | zero => exact absurd hfuel (Nat.not_lt_zero _)
    | succ fuel =>
      have heven : treeNode (k + 1) j % 2 = 0 := by
        rw [treeNode, pow_succ, mul_right_comm]
        exact Nat.mul_mod_left _ 2
      rw [treeLoop, if_pos heven, treeLeft_eq, treeRight_eq]
      refine (readAt_yields (lt_of_lt_of_le hlt hlen)).bind ?_
      rintro _ rfl
      refine (readAt_yields (lt_of_lt_of_le hleft hlen)).bind ?_
      rintro _ rfl
      rw [getD_eq_getElem _ _ (lt_of_lt_of_le hlt hlen),
        getD_eq_getElem _ _ (lt_of_lt_of_le hleft hlen)] at hsum
      rw [getD_eq_getElem _ _ (lt_of_lt_of_le hlt hlen)] at huse
      split
      next hgo =>
        refine ih fuel _ (Nat.lt_of_succ_lt_succ hfuel) hleft (.inl ?_)
        rw [getD_eq_getElem _ _ (lt_of_lt_of_le hleft hlen)]
        exact UInt32.lt_iff_toNat_lt.2 (Nat.zero_lt_of_lt hgo)
      next hgo =>
        refine ih fuel _ (Nat.lt_of_succ_lt_succ hfuel) hright (huse.imp_left fun hw => ?_)
        have hpick := scaled_lt
          (h.hash32_4 b.hash x (treeNode (k + 1) j : Int) r b.id).toNat_lt
          (UInt32.lt_iff_toNat_lt.1 hw)
        refine UInt32.lt_iff_toNat_lt.2 ?_
        show 0 < _
        omega

theorem bucketTreeChoose_spec {full : Prop} {numNodes : UInt8}
    (hnodes : numNodes.toNat = 2 ^ (depth + 1)) (hfull : full → b.size = 2 ^ depth)
    (huse : 0 < nodeWeights.getD (2 ^ depth) 0 ∨ full) :
    Yields (bucketTreeChoose h b numNodes nodeWeights x r) fun item =>
      ∃ i, b.items[i]? = some item ∧ (0 < nodeWeights.getD (2 * i + 1) 0 ∨ full) := by
  have hroot : numNodes.toNat / 2 = treeNode depth 0 := by
    rw [hnodes, treeNode]
    omega
  have hdepth := Nat.lt_two_pow_self (n := depth)
  rw [bucketTreeChoose, hroot]
  refine (treeLoop_spec ht hfull depth _ 0 (by omega) (by omega) ?_).bind fun n hn =>
    ⟨_, readAt_of_lt hn.1, n / 2, getElem?_eq_getElem hn.1, hn.2⟩
  rwa [← hroot, hnodes, pow_succ, Nat.mul_div_cancel _ Nat.zero_lt_two]

end

/-- `height` never ends for node 0. -/
theorem height_zero (fuel : Nat) : height fuel 0 = .error .fuel := by
  induction fuel with
  | zero => rfl
  | succ fuel ih => rw [height, if_pos rfl, Nat.zero_div, ih]; rfl

/-- Without a number of nodes the walk starts at node 0. -/
theorem bucketTreeChoose_zero (hlen : 0 < nodeWeights.length) :
    bucketTreeChoose h b 0 nodeWeights x r = .error .fuel := by
  change (treeLoop h b nodeWeights x r (0 + 1) 0 >>= _) = _
  rw [treeLoop, if_pos rfl, readAt_of_lt hlen, ok_bind, treeLeft, height_zero]
  rfl

end

/-! ## The straw buckets, and every bucket -/

section

variable {h : Hash} {b : Bucket} {x r : Int}

theorem bucketStrawChoose_spec {straws : List UInt32} (hpos : 0 < b.size)
    (hs : b.size ≤ straws.length) : Yields (bucketStrawChoose h b straws x r) (· ∈ b.items) := by
  rw [bucketStrawChoose, if_neg (not_lt.2 hs)]
  generalize hdraws : List.zipWith _ b.items straws = draws
  have hlen : draws.length = b.size := by
    rw [← hdraws, length_zipWith]
    exact min_eq_left hs
  have hne : draws ≠ [] := by
    intro hnil
    rw [hnil] at hlen
    exact hpos.ne hlen
  have hhigh := (scanMax_firstMax hne 0 0).lt
  exact readAt_yields_mem (by rw [hlen] at hhigh; exact hhigh)

theorem bucketStraw2Choose_spec {itemWeights weights : List UInt32} {arg : Option ChooseArg}
    {position : Nat} (ha : Straw2Arrays b itemWeights arg position weights) :
    Yields (orBounds (bucketStraw2Choose h b itemWeights x r arg position)) fun item =>
      ∃ i, b.items[i]? = some item ∧
        (0 < totalWeight weights b.size → 0 < weights.getD i 0) := by
  obtain ⟨high, hhigh, hmax⟩ := ha.high (h := h) (x := x) (r := r)
  have hlt : high < b.items.length := by
    have hlt := hmax.lt
    rwa [straw2Draws_length ha.ids_len ha.weights_len] at hlt
  rw [bucketStraw2Choose_eq hlt hhigh]
  refine ⟨_, rfl, high, getElem?_eq_getElem hlt, fun hpos => ?_⟩
  have hw := lt_of_lt_of_le hlt ha.weights_len
  rw [getD_eq_getElem _ _ hw]
  refine UInt32.pos_iff_ne_zero.2 fun hzero => ?_
  -- some item has weight, and its straw is longer
  obtain ⟨_, hmem, hne⟩ := exists_mem_ne_zero_of_sum_ne_zero hpos.ne'
  obtain ⟨_, hv, rfl⟩ := mem_map.1 hmem
  obtain ⟨_, hj, rfl⟩ := mem_take_iff_getElem.1 hv
  refine ha.high_ne (lt_of_lt_of_le hj (min_le_left _ _)) ?_
    (List.getElem?_eq_some_iff.2 ⟨hw, hzero⟩) hmax rfl
  rw [getElem?_eq_getElem (lt_of_lt_of_le hj (min_le_right _ _))]
  exact fun h0 => hne (congrArg UInt32.toNat (Option.some.inj h0))

/-- The arrays of a bucket that has items fit them. -/
def BucketOk (b : Bucket) (arg : Option ChooseArg) : Prop :=
  0 < b.size →
    match b.alg with
    | .uniform => True
    | .list itemWeights sumWeights =>
      b.size ≤ itemWeights.length ∧ b.size ≤ sumWeights.length
    | .tree numNodes nodeWeights =>
      -- some item has weight, or every terminal node has an item
      ∃ depth, numNodes.toNat = 2 ^ (depth + 1) ∧ TreeOk b nodeWeights depth ∧
        (0 < nodeWeights.getD (2 ^ depth) 0 ∨ b.size = 2 ^ depth)
    | .straw straws => b.size ≤ straws.length
    | .straw2 itemWeights =>
      ∀ position, ∃ weights, Straw2Arrays b itemWeights arg position weights
    | .other => True

theorem bucketChoose_spec {wb : WorkBucket} {arg : Option ChooseArg} {position : Nat}
    (hpos : 0 < b.size) (hb : BucketOk b arg) (hwb : PermOk b wb) :
    Yields (bucketChoose h b wb x r arg position) fun out =>
      out.1 ∈ b.items ∧ PermOk b out.2 := by
  have hb := hb hpos
  rw [bucketChoose, if_neg hpos.ne']
  cases halg : b.alg with
  | uniform => exact bucketPermChoose_mem hpos hwb
  | list =>
    rw [halg] at hb
    refine (listLoop_spec hpos hb.1 hb.2 b.size le_rfl).map ?_
    exact fun item ⟨i, hitem, _⟩ => ⟨mem_of_getElem? hitem, hwb⟩
  | tree =>
    rw [halg] at hb
    obtain ⟨_, hnodes, ht, husable⟩ := hb
    refine (bucketTreeChoose_spec ht hnodes id husable).map ?_
    exact fun item ⟨i, hitem, _⟩ => ⟨mem_of_getElem? hitem, hwb⟩
  | straw =>
    rw [halg] at hb
    exact (bucketStrawChoose_spec hpos hb).map fun item hitem => ⟨hitem, hwb⟩
  | straw2 =>
    rw [halg] at hb
    obtain ⟨_, ha⟩ := hb position
    refine (bucketStraw2Choose_spec ha).map ?_
    exact fun item ⟨i, hitem, _⟩ => ⟨mem_of_getElem? hitem, hwb⟩
  | other => exact (readAt_yields_mem hpos).map fun item hitem => ⟨hitem, hwb⟩

end

/-! ## Items without weight -/

/-- A choice by weight returns an item that has weight, whatever the hash is, when the bucket
has weight: in a list bucket with the sums of its weights, and in a straw2 bucket with the
weights that are in use for it.  In a tree bucket in which each interior node has the weight of
its children this is so exactly up to 64 items; from there on the number of nodes does not fit
into its byte. -/
theorem weighted_choice_has_weight (h : Hash) (b : Bucket) (x r : Int) :
    (∀ itemWeights sumWeights, ListOk b itemWeights sumWeights →
      0 < totalWeight itemWeights b.size →
      Yields (bucketListChoose h b itemWeights sumWeights x r) fun item =>
        ∃ i, b.items[i]? = some item ∧ 0 < itemWeights.getD i 0) ∧
    (∀ nodeWeights depth, calcDepth b.size = depth + 1 → TreeOk b nodeWeights depth →
      0 < nodeWeights.getD (2 ^ depth) 0 →
      ((Yields (bucketTreeChoose h b (UInt8.ofNat (2 ^ calcDepth b.size)) nodeWeights x r)
        fun item => ∃ i, b.items[i]? = some item ∧ 0 < nodeWeights.getD (2 * i + 1) 0) ↔
        b.size ≤ 64)) ∧
    ∀ itemWeights arg position weights, Straw2Arrays b itemWeights arg position weights →
      0 < totalWeight weights b.size →
      Yields (orBounds (bucketStraw2Choose h b itemWeights x r arg position)) fun item =>
        ∃ i, b.items[i]? = some item ∧ 0 < weights.getD i 0 := by
  refine ⟨fun itemWeights sumWeights hl hpos => ?_, fun nodeWeights depth hdepth ht hpos => ?_,
    fun itemWeights arg position weights ha hpos => ?_⟩
  · have hsize : 0 < b.size := pos_of_ne_zero fun hzero => by
      rw [hzero] at hpos
      exact absurd hpos (lt_irrefl 0)
    refine (listLoop_spec hsize hl.items hl.sums b.size le_rfl).imp ?_
    rintro item ⟨i, hitem, hw⟩
    exact ⟨i, hitem, hw hl hpos⟩
  · have hsize : 0 < b.size := pos_of_ne_zero fun hzero => by
      rw [hzero] at hdepth
      exact absurd hdepth (Nat.zero_ne_add_one depth)
    have hsmall := calcDepth_le_iff 6 hsize
    rw [hdepth] at hsmall ⊢
    constructor
    · rintro ⟨item, hitem, -⟩
      by_contra hlarge
      -- the number of nodes is a multiple of 256
      have hzero : UInt8.ofNat (2 ^ (depth + 1)) = 0 := by
        obtain ⟨c, hc⟩ := Nat.exists_eq_add_of_le (show 8 ≤ depth + 1 by omega)
        rw [hc, pow_add, UInt8.ofNat_mul]
        exact UInt8.zero_mul
      have hlen := lt_of_lt_of_le (Nat.two_pow_pos _) ht.length
      rw [hzero, bucketTreeChoose_zero hlen] at hitem
      cases hitem
    · intro hle
      have hlt : 2 ^ (depth + 1) < 2 ^ 8 := Nat.pow_lt_pow_of_lt one_lt_two (by omega)
      refine (bucketTreeChoose_spec ht (UInt8.toNat_ofNat_of_lt' hlt) False.elim (.inl hpos)).imp ?_
      rintro item ⟨i, hitem, hw⟩
      exact ⟨i, hitem, hw.resolve_right id⟩
  · refine (bucketStraw2Choose_spec ha).imp ?_
    rintro item ⟨i, hitem, hw⟩
    exact ⟨i, hitem, hw hpos⟩

/-- Three items of which only the last has weight: each of the algorithms takes it. -/
theorem weighted_choice_takes_last :
    let b : Bucket := ⟨-1, 1, .other, 0, [10, 11, 12]⟩
    (Yields (bucketListChoose exampleHash b [0, 0, 5] [0, 0, 5] 7 0) fun item =>
      ∃ i, b.items[i]? = some item ∧ 0 < [(0 : UInt32), 0, 5].getD i 0) ∧
    (Yields (bucketTreeChoose exampleHash b 8 [0, 0, 0, 0, 5, 5, 5, 0] 7 0) fun item =>
      ∃ i, b.items[i]? = some item ∧ 0 < [(0 : UInt32), 0, 0, 0, 5, 5, 5, 0].getD (2 * i + 1) 0) ∧
    Yields (orBounds (bucketStraw2Choose exampleHash b [0, 0, 5] 7 0 none 0)) fun item =>
      ∃ i, b.items[i]? = some item ∧ 0 < [(0 : UInt32), 0, 5].getD i 0 := by
  intro b
  obtain ⟨hlist, htree, hstraw2⟩ := weighted_choice_has_weight exampleHash b 7 0
  have hdepth : calcDepth b.size = 2 + 1 := by decide
  rw [hdepth] at htree
  refine ⟨hlist [0, 0, 5] [0, 0, 5] ⟨by decide, by decide, by decide⟩ (by decide),
    (htree [0, 0, 0, 0, 5, 5, 5, 0] 2 rfl ⟨by decide, by decide, fun i hi hlt => ?_⟩
      (by decide)).2 (by decide),
    hstraw2 [0, 0, 5] none 0 [0, 0, 5] ⟨rfl, by decide, by decide, by decide⟩ (by decide)⟩
  obtain rfl : i = 3 := by
    change 3 ≤ i at hi
    omega
  rfl

/-- The node weights of a tree of 65 items of which the first has weight 1 and the others none. -/
def firstOf65 : List UInt32 :=
  (range 256).map fun n => if n ∈ [1, 2, 4, 8, 16, 32, 64, 128] then 1 else 0

/-- Nothing is ever drawn from a tree bucket of 65 items. -/
theorem large_tree_choice_diverges :
    let b : Bucket := ⟨-1, 1, .other, 0, (range 65).map Int.ofNat⟩
    calcDepth b.size = 8 ∧ TreeOk b firstOf65 7 ∧ 0 < firstOf65.getD (2 ^ 7) 0 ∧
      (∀ h x r, bucketTreeChoose h b (UInt8.ofNat (2 ^ calcDepth b.size)) firstOf65 x r =
        .error .fuel) ∧ ∀ fuel, height fuel 0 = .error .fuel := by
  intro b
  have hempty : ∀ i < 2 ^ 7, 65 ≤ i → firstOf65.getD (2 * i + 1) 0 = 0 := by
    decide +kernel
  have hsize : b.size = 65 := by
    rw [Bucket.size, length_map, length_range]
  have hdepth : calcDepth b.size = 8 := by
    rw [hsize]
    decide
  have hlen : firstOf65.length = 2 ^ 8 := by
    rw [firstOf65, length_map, length_range]
    rfl
  refine ⟨hdepth, ⟨hlen.ge, by decide +kernel, fun i hi hlt => ?_⟩, by decide +kernel,
    fun h x r => ?_, height_zero⟩
  · exact hempty i (by omega) (hsize ▸ hi)
  · rw [hdepth]
    exact bucketTreeChoose_zero (by rw [hlen]; decide)

end Ceph.Crush
