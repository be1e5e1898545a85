import Ceph.Crush.BuilderTree
import Ceph.Lib.RunningSums
import Ceph.Lib.Run

set_option autoImplicit false

/-!
# Crush: the builder keeps the weights of a bucket consistent

A bucket is consistent when its weight is the sum of the weights of its items and the arrays
that repeat the weights agree with them.  Adding an item, removing one and giving one another
weight keep that, as long as the memory for the new nodes of a tree is zero and the new total
fits into 32 bits.
-/

namespace Ceph.Crush

open Ceph.Lib List Nat

/-! ## Consistent buckets -/

/-- The weights of the items. -/
def WeightedBucket.itemWeights (b : WeightedBucket) : List Nat :=
  match b.weights with
  | .uniform itemWeight => List.replicate b.items.length itemWeight
  | .list itemWeights _ => itemWeights
  | .tree nodes => leafWeights nodes b.items.length
  | .straw itemWeights => itemWeights
  | .straw2 itemWeights => itemWeights

/-- The arrays that repeat the weights of the items. -/
def Weights.Repeats (size : Nat) : Weights → Prop
  | .list itemWeights sumWeights => sumWeights = runningSums 0 itemWeights
  | .tree nodes => NodesOk nodes size
  | _ => True

/-- The weights of a bucket fit together. -/
structure WeightedBucket.Consistent (b : WeightedBucket) : Prop where
  length : b.itemWeights.length = b.items.length
  total : b.weight = b.itemWeights.sum
  bound : b.weight < 2 ^ 32
  repeats : b.weights.Repeats b.items.length

/-- Every bucket of the map is consistent. -/
def BucketMap.Consistent (map : BucketMap) : Prop := ∀ k b, bucketAt map k = .ok b → b.Consistent

namespace WeightedBucket

variable {b b' : WeightedBucket} {item : Int} {weight i : Nat}

theorem lt_of_find (h : b.find item = some i) : i < b.items.length :=
  (findIdx?_eq_some_iff_getElem.1 h).1

/-- The weights of a straw bucket of either kind. -/
def Straw (mk : List Nat → Weights) : Prop := mk = .straw ∨ mk = .straw2

variable {mk : List Nat → Weights} {ws ss : List Nat}

/-- Nothing repeats the weights of a straw bucket. -/
theorem Consistent.of_straw {items : List Int} {total : Nat} (hmk : Straw mk)
    (hlen : ws.length = items.length) (htotal : total = ws.sum)
    (hbound : total < 2 ^ 32) : Consistent ⟨items, total, mk ws⟩ := by
  obtain rfl | rfl := hmk <;> exact ⟨hlen, htotal, hbound, trivial⟩

theorem Consistent.of_list {items : List Int} {total : Nat} (hlen : ws.length = items.length)
    (htotal : total = ws.sum) (hbound : total < 2 ^ 32) (hsums : ss = runningSums 0 ws) :
    Consistent ⟨items, total, .list ws ss⟩ := ⟨hlen, htotal, hbound, hsums⟩

theorem consistent_uniform_iff {itemWeight : Nat} (hws : b.weights = .uniform itemWeight) :
    b.Consistent ↔ b.weight = b.items.length * itemWeight ∧ b.weight < 2 ^ 32 := by
  have hitems : b.itemWeights = List.replicate b.items.length itemWeight := by
    rw [itemWeights, hws]
  refine ⟨fun hb => ⟨by rw [hb.total, hitems, sum_replicate_nat], hb.bound⟩,
    fun h => ⟨by rw [hitems, length_replicate], ?_, h.2, by rw [hws]; trivial⟩⟩
  rw [hitems, sum_replicate_nat, h.1]

/-! ## Adding -/

section

variable (hb : b.Consistent)

include hb

theorem Consistent.addStraw (hws : b.itemWeights = ws) (hw : weight < 2 ^ 32)
    (hmk : Straw mk) (h : addStrawItem mk b ws item weight = .ok b') : b'.Consistent := by
  obtain ⟨_, htotal, h⟩ := bind_eq_ok h
  cases h
  obtain ⟨rfl, hbound⟩ := checkedAdd_eq_ok hw htotal
  refine .of_straw hmk ?_ ?_ hbound
  · rw [length_append, length_append, ← hws, hb.length]
    rfl
  · rw [List.sum_append, sum_singleton, ← hws, ← hb.total]

theorem Consistent.addUniform {itemWeight : Nat}
    (hws : b.weights = .uniform itemWeight) (hw : weight < 2 ^ 32)
    (h : addUniformBucketItem b itemWeight item weight = .ok b') : b'.Consistent := by
  rw [addUniformBucketItem] at h
  split at h
  next => cases h
  next heq =>
    obtain rfl := not_not.1 heq
    obtain ⟨_, htotal, h⟩ := bind_eq_ok h
    cases h
    obtain ⟨rfl, hbound⟩ := checkedAdd_eq_ok hw htotal
    refine (consistent_uniform_iff (by exact hws)).2 ⟨?_, hbound⟩
    rw [((consistent_uniform_iff hws).1 hb).1, length_append, length_singleton, succ_mul]

theorem Consistent.list_eq (hws : b.weights = .list ws ss) :
    ws.length = b.items.length ∧ b.weight = ws.sum ∧ ss = runningSums 0 ws := by
  obtain ⟨hlen, htotal, -, hsums⟩ := hb
  rw [hws] at hsums
  rw [itemWeights, hws] at hlen htotal
  exact ⟨hlen, htotal, hsums⟩

theorem Consistent.tree_eq {nodes : List Nat} (hws : b.weights = .tree nodes) :
    NodesOk nodes b.items.length ∧ b.weight = (leafWeights nodes b.items.length).sum := by
  obtain ⟨-, htotal, -, hn⟩ := hb
  rw [hws] at hn
  rw [itemWeights, hws] at htotal
  exact ⟨hn, htotal⟩

theorem Consistent.addList (hws : b.weights = .list ws ss) (hw : weight < 2 ^ 32)
    (h : addListBucketItem b ws ss item weight = .ok b') : b'.Consistent := by
  obtain ⟨sum, hsum, h⟩ := bind_eq_ok h
  cases h
  obtain ⟨hlen, htotal, hsums⟩ := hb.list_eq hws
  -- the new entry of the sums is the new total, which the check keeps below 2 ^ 32
  have hnew : sum = ws.sum + weight ∧ ws.sum + weight < 2 ^ 32 := by
    rw [nextSum] at hsum
    split at hsum
    next _ =>
      obtain ⟨_, hlast, hsum⟩ := bind_eq_ok hsum
      have hlast := readAt_eq_ok (access_eq_ok hlast)
      rw [hsums, ← hlen, getLast?_runningSums (by rintro rfl; simp at hlen; omega),
        zero_add] at hlast
      cases hlast
      exact checkedAdd_eq_ok hw hsum
    next _ =>
      obtain rfl : ws = [] := eq_nil_of_length_eq_zero (by omega)
      cases hsum
      rw [sum_nil, zero_add]
      exact ⟨rfl, hw⟩
  have hwrap : wrap32 (b.weight + weight) = ws.sum + weight := by
    rw [htotal]
    exact mod_eq_of_lt hnew.2
  refine .of_list ?_ ?_ (hwrap ▸ hnew.2) ?_
  · rw [length_append, length_append, hlen]
    rfl
  · rw [hwrap, List.sum_append, sum_singleton]
  · rw [runningSums_concat, hsums, hnew.1, zero_add]

end

/-- Nothing is left in the memory that a tree grows into. -/
def CleanFor (fresh : Nat → UInt32) (b : WeightedBucket) : Prop :=
  match b.weights with
  | .tree nodes => ∀ n, nodes.length ≤ n → fresh n = 0
  | _ => True

theorem Consistent.add {fresh : Nat → UInt32} (hb : b.Consistent) (hw : weight < 2 ^ 32)
    (hclean : b.CleanFor fresh) (h : bucketAddItem b item weight fresh = .ok b') :
    b'.Consistent := by
  rw [bucketAddItem] at h
  split at h
  next _ hws => exact hb.addUniform hws hw h
  next ws _ hws => exact hb.addList hws hw h
  next _ hws =>
    rw [CleanFor, hws] at hclean
    obtain ⟨hn, htotal⟩ := hb.tree_eq hws
    obtain ⟨nodes', rfl, hbound, _, hleaves⟩ := addTreeBucketItem_ok hn hw hclean h
    have hsize : (b.items ++ [item]).length = b.items.length + 1 := by
      rw [length_append, length_singleton]
    refine ⟨length_leafWeights _ _, ?_, hbound, ?_⟩
    · show b.weight + weight = (leafWeights nodes' (b.items ++ [item]).length).sum
      rw [hsize, hleaves, List.sum_append, sum_singleton, htotal]
    · rwa [hsize]
  next ws hws => exact hb.addStraw (by rw [itemWeights, hws]) hw (.inl rfl) h
  next ws hws => exact hb.addStraw (by rw [itemWeights, hws]) hw (.inr rfl) h

/-! ## Removing -/

theorem sum_eraseIdx (hi : i < ws.length) : (ws.eraseIdx i).sum = ws.sum - ws[i] := by
  rw [← CommMonoid.add_sum_eraseIdx hi, Nat.add_sub_cancel_left]

/-- A change that starts from the weight of an item. -/
theorem read_weight {f : Nat → WeightedBucket}
    (h : (access (readAt ws i) >>= fun w => Except.ok (f w)) = .ok b') :
    ∃ hi : i < ws.length, f ws[i] = b' := by
  obtain ⟨w, hw, h⟩ := bind_eq_ok h
  obtain ⟨hlt, rfl⟩ := List.getElem?_eq_some_iff.1 (readAt_eq_ok (access_eq_ok hw))
  exact ⟨hlt, Except.ok.inj h⟩

theorem Consistent.removeStraw (hb : b.Consistent) (hws : b.itemWeights = ws)
    (hi : i < b.items.length) (hmk : Straw mk)
    (h : removeStrawItem mk b ws i = .ok b') : b'.Consistent := by
  obtain ⟨hlt, rfl⟩ := read_weight h
  have hbound := hb.bound
  rw [lessWeight_eq]
  refine .of_straw hmk ?_ ?_ (by omega)
  · rw [length_eraseIdx_of_lt hlt, length_eraseIdx_of_lt hi, ← hws, hb.length]
  · rw [sum_eraseIdx hlt, hb.total, hws]

theorem Consistent.removeUniform {itemWeight : Nat} (hb : b.Consistent)
    (hws : b.weights = .uniform itemWeight) (hi : i < b.items.length) :
    (removeUniformBucketItem b itemWeight i).Consistent := by
  obtain ⟨htotal, hbound⟩ := (consistent_uniform_iff hws).1 hb
  rw [removeUniformBucketItem, lessWeight_eq]
  refine (consistent_uniform_iff (by exact hws)).2 ⟨?_, (sub_le _ _).trans_lt hbound⟩
  rw [htotal, length_eraseIdx_of_lt hi, Nat.sub_mul, Nat.one_mul]

theorem Consistent.removeList (hb : b.Consistent) (hws : b.weights = .list ws ss)
    (hi : i < b.items.length) (h : removeListBucketItem b ws ss i = .ok b') : b'.Consistent := by
  obtain ⟨hlt, rfl⟩ := read_weight h
  obtain ⟨hlen, htotal, hsums⟩ := hb.list_eq hws
  have hbound := hb.bound
  rw [lessWeight_eq]
  refine .of_list ?_ ?_ (by omega) ?_
  · rw [length_eraseIdx_of_lt hlt, length_eraseIdx_of_lt hi, hlen]
  · rw [sum_eraseIdx hlt, htotal]
  · rw [runningSums_eraseIdx hlt, ← hsums]
    congr 1
    refine map_congr_left fun s hs => ?_
    rw [hsums] at hs
    have hs' : s ∈ (runningSums 0 ws).drop i := by
      rw [← drop_drop] at hs
      exact mem_of_mem_drop hs
    have hle := getElem_le_of_mem_drop hlt hs'
    have hsum := (mem_runningSums (mem_of_mem_drop hs)).2
    exact wrapSub_eq (by omega) (by omega)

theorem Consistent.remove (hb : b.Consistent) (h : bucketRemoveItem b item = .ok b') :
    b'.Consistent := by
  rw [bucketRemoveItem] at h
  split at h
  next => cases h
  next i hfind =>
    have hi := lt_of_find hfind
    split at h
    next _ hws =>
      cases h
      exact hb.removeUniform hws hi
    next ws _ hws => exact hb.removeList hws hi h
    next _ hws =>
      obtain ⟨hn, htotal⟩ := hb.tree_eq hws
      obtain ⟨nodes', n, rfl, hle, _, hsum⟩ := removeTreeBucketItem_ok hn hi htotal hb.bound h
      have hsize : ((b.items.set i 0).take n).length = n := by
        rw [length_take, length_set, min_eq_left hle]
      refine ⟨length_leafWeights _ _, ?_, lt_of_le_of_lt hsum hb.bound, ?_⟩
      · show _ = (leafWeights nodes' ((b.items.set i 0).take n).length).sum
        rw [hsize]
      · rwa [hsize]
    next ws hws => exact hb.removeStraw (by rw [itemWeights, hws]) hi (.inl rfl) h
    next ws hws => exact hb.removeStraw (by rw [itemWeights, hws]) hi (.inr rfl) h

/-! ## Another weight for an item -/

/-- The weights of the items when one of them gets another weight; in a uniform bucket all of
them do. -/
def adjusted (b : WeightedBucket) (item : Int) (weight : Nat) : List Nat :=
  match b.weights with
  | .uniform _ => List.replicate b.items.length weight
  | _ => (b.find item).elim b.itemWeights (b.itemWeights.set · weight)

/-- The total after a weight is replaced. -/
theorem shiftBy_total {total : Nat} (htotal : total = ws.sum) (hbound : total < 2 ^ 32)
    (hi : i < ws.length) (hnew : (ws.set i weight).sum < 2 ^ 32) :
    shiftBy ws[i] weight total = (ws.set i weight).sum := by
  have hset := sum_set hi weight
  have hle := le_sum_of_mem (getElem_mem hi)
  rw [shiftBy_eq (by omega) hbound (by omega)]
  omega

theorem Consistent.adjustStraw (hb : b.Consistent) (hws : b.itemWeights = ws) (hmk : Straw mk)
    (hnew : (ws.set i weight).sum < 2 ^ 32)
    (h : adjustStrawItemWeight mk b ws i weight = .ok b') : b'.Consistent := by
  obtain ⟨hlt, rfl⟩ := read_weight h
  have htotal := shiftBy_total (by rw [hb.total, hws]) hb.bound hlt hnew
  refine .of_straw hmk ?_ htotal (htotal ▸ hnew)
  rw [length_set, ← hws, hb.length]

theorem Consistent.adjustList (hb : b.Consistent) (hws : b.weights = .list ws ss)
    (hnew : (ws.set i weight).sum < 2 ^ 32)
    (h : adjustListBucketItemWeight b ws ss i weight = .ok b') : b'.Consistent := by
  obtain ⟨hlt, rfl⟩ := read_weight h
  obtain ⟨hlen, htotal, hsums⟩ := hb.list_eq hws
  have hbound := hb.bound
  have hshift := shiftBy_total htotal hbound hlt hnew
  have hset := sum_set hlt weight
  refine .of_list ?_ hshift (lt_of_eq_of_lt hshift hnew) ?_
  · rw [length_set, hlen]
  · rw [runningSums_set hlt, ← hsums]
    congr 1
    refine map_congr_left fun s hs => ?_
    rw [hsums] at hs
    have hle := getElem_le_of_mem_drop hlt hs
    have hsum := (mem_runningSums (mem_of_mem_drop hs)).2
    exact shiftBy_eq (by omega) (by omega) (by omega)

/-- An item that is not there is left alone. -/
theorem Consistent.adjust_found {f : Nat → Build WeightedBucket} (hb : b.Consistent)
    (hnew : ((b.find item).elim ws (ws.set · weight)).sum < 2 ^ 32)
    (h : (b.find item).elim (.ok b) f = .ok b')
    (hf : ∀ i, i < b.items.length → (ws.set i weight).sum < 2 ^ 32 → f i = .ok b' → b'.Consistent) :
    b'.Consistent := by
  cases hfind : b.find item with
  | none =>
    rw [hfind] at h
    exact Except.ok.inj h ▸ hb
  | some i =>
    rw [hfind] at h hnew
    exact hf i (lt_of_find hfind) hnew h

theorem Consistent.adjust (hb : b.Consistent) (hnew : (b.adjusted item weight).sum < 2 ^ 32)
    (h : bucketAdjustItemWeight b item weight = .ok b') : b'.Consistent := by
  rw [bucketAdjustItemWeight] at h
  rw [adjusted, itemWeights] at hnew
  cases hws : b.weights <;> rw [hws] at h hnew
  case uniform itemWeight =>
    cases h
    rw [sum_replicate_nat, mul_comm] at hnew
    have hwrap : wrap32 (weight * b.items.length) = weight * b.items.length := mod_eq_of_lt hnew
    exact (consistent_uniform_iff rfl).2 ⟨hwrap.trans (mul_comm _ _), hwrap.trans_lt hnew⟩
  case list ws ss => exact hb.adjust_found hnew h fun i _ => hb.adjustList hws
  case tree nodes =>
    refine hb.adjust_found hnew h fun i hi hnew h => ?_
    obtain ⟨hn, htotal⟩ := hb.tree_eq hws
    obtain ⟨nodes', rfl, hok, hleaves⟩ := adjustTreeBucketItemWeight_ok hn hi htotal hb.bound hnew h
    refine ⟨length_leafWeights _ _, ?_, hnew, hok⟩
    show _ = (leafWeights nodes' b.items.length).sum
    rw [hleaves]
  case straw ws =>
    exact hb.adjust_found hnew h fun i _ => hb.adjustStraw (by rw [itemWeights, hws]) (.inl rfl)
  case straw2 ws =>
    exact hb.adjust_found hnew h fun i _ => hb.adjustStraw (by rw [itemWeights, hws]) (.inr rfl)

end WeightedBucket

end Ceph.Crush
