import Ceph.Crush.BucketChoose

set_option autoImplicit false

/-!
# Crush: the node weights of a tree bucket

`NodesOk` says that every interior node has the sum of its children's weights and that the
terminal nodes behind the last item have no weight.  Giving an item another weight changes the
nodes from its terminal node to the root by one amount; growing the tree keeps `NodesOk` when the
new memory is zero.
-/

namespace Ceph.Crush

open Ceph.Lib List Except

/-! ## Depth and numbering -/

variable {size m n i depth weight : Nat} {nodes nodes' : List Nat}

theorem calcDepth_pos (hsize : 0 < size) : 0 < calcDepth size := by
  rw [calcDepth, if_neg (by omega)]
  omega

theorem calcDepth_mono (h : m ≤ n) : calcDepth m ≤ calcDepth n := by
  obtain rfl | hm := eq_zero_or_pos m
  · exact Nat.zero_le _
  · have hn := calcDepth_pos (show 0 < n by omega)
    have hle := (calcDepth_le_iff (calcDepth n - 1) (show 0 < n by omega)).1 (by omega)
    have := (calcDepth_le_iff (calcDepth n - 1) hm).2 (by omega)
    omega

theorem calcTreeNode_eq (i : Nat) : calcTreeNode i = treeNode 0 i := by
  rw [calcTreeNode, treeNode_zero]
  omega

/-- The items have terminal nodes. -/
theorem leaf_lt (hi : i < size) : treeNode 0 i < 2 ^ calcDepth size := by
  have hpos := calcDepth_pos (show 0 < size by omega)
  have hle := (calcDepth_le_iff (calcDepth size - 1) (show 0 < size by omega)).1 (by omega)
  exact treeNode_lt hpos (by rw [Nat.sub_zero]; omega)

theorem parent_treeNode (k j : Nat) : parent (treeNode k j) = .ok (treeNode (k + 1) (j / 2)) := by
  have hdiv : treeNode k j / 2 ^ (k + 1) = j := by
    rw [treeNode, pow_succ, Nat.mul_div_mul_left _ _ (Nat.two_pow_pos k)]
    omega
  rw [parent, height_treeNode j k _ (lt_treeNode k j), treeNode_parent]
  refine congrArg ok ?_
  dsimp only
  rw [hdiv]

/-! ## Arrays -/

/-- A node of an array. -/
def nodeAt (nodes : List Nat) (n : Nat) : Nat := nodes.getD n 0

theorem nodeAt_set (v : Nat) (hm : m < nodes.length) :
    nodeAt (nodes.set m v) n = if n = m then v else nodeAt nodes n := by
  rw [nodeAt, nodeAt, getD_eq_getElem?_getD, getD_eq_getElem?_getD, getElem?_set]
  by_cases hn : n = m
  · rw [if_pos hn, if_pos hn.symm, if_pos hm, Option.getD_some]
  · rw [if_neg hn, if_neg (Ne.symm hn)]

variable {α : Type} {change : Nat → Build Nat} {ws : List Nat}

theorem access_eq_ok {e : Except Fault α} {a : α} (h : access e = .ok a) : e = .ok a := by
  cases e with
  | error => cases h
  | ok => exact congrArg _ (ok.inj h)

theorem readAt_eq_ok {a : List α} {v : α} (h : readAt a i = .ok v) : a[i]? = some v := by
  rw [readAt] at h
  split at h
  next _ hw => rw [hw, ok.inj h]
  next => cases h

theorem readAt_node {v : Nat} (h : readAt nodes n = .ok v) : v = nodeAt nodes n := by
  rw [nodeAt, getD_eq_getElem?_getD, readAt_eq_ok h, Option.getD_some]

theorem writeAt_eq_ok {a a' : List α} {v : α} (h : writeAt a i v = .ok a') :
    i < a.length ∧ a' = a.set i v := by
  rw [writeAt] at h
  split at h
  next hi => exact ⟨hi, (ok.inj h).symm⟩
  next => cases h

/-- A computation with a result goes on from the result of its first part. -/
theorem bind_eq_ok {ε β : Type} {e : Except ε α} {f : α → Except ε β} {b : β}
    (h : (e >>= f) = .ok b) : ∃ a, e = .ok a ∧ f a = .ok b := by
  cases e with
  | error => cases h
  | ok a => exact ⟨a, rfl, h⟩

/-! ## The way to the root -/

/-- The nodes of the path up to height `t` are as they are to be; the climb does the others. -/
theorem climb_from {x y : Nat} {w : Nat → Nat}
    (hchange : ∀ k, k < depth → ∀ v, change (w (treeNode k (i / 2 ^ k))) = .ok v →
      v + x = w (treeNode k (i / 2 ^ k)) + y)
    (n t : Nat) (nodes : List Nat) (hn : t + n + 1 = depth)
    (h : climb change n (treeNode t (i / 2 ^ t)) nodes = .ok nodes')
    (hdone : ∀ k j, treeNode k j < 2 ^ depth →
      nodeAt nodes (treeNode k j) + (if k ≤ t ∧ j = i / 2 ^ k then x else 0) =
        w (treeNode k j) + if k ≤ t ∧ j = i / 2 ^ k then y else 0) :
    nodes'.length = nodes.length ∧ Replaced depth i x y w (nodeAt nodes') := by
  induction n generalizing t nodes with
  | zero =>
    cases h
    refine ⟨rfl, fun k j hlt => ?_⟩
    have hk : k ≤ t := by
      have := lt_of_treeNode_lt hlt
      omega
    simpa only [hk, true_and] using hdone k j hlt
  | succ _ ih =>
    rw [climb, parent_treeNode, Nat.div_div_eq_div_mul, ← pow_succ] at h
    obtain ⟨_, hnode, h⟩ := bind_eq_ok h
    cases hnode
    obtain ⟨v, hv, h⟩ := bind_eq_ok h
    obtain ⟨_, hv', h⟩ := bind_eq_ok h
    obtain ⟨_, hnodes₁, h⟩ := bind_eq_ok h
    obtain rfl := readAt_node (access_eq_ok hv)
    obtain ⟨hlt, rfl⟩ := writeAt_eq_ok (access_eq_ok hnodes₁)
    refine (ih (t + 1) _ (by omega) h fun k j hkj => ?_).imp_left fun hlen => ?_
    · rw [nodeAt_set _ hlt]
      have hold := hdone k j hkj
      by_cases heq : treeNode k j = treeNode (t + 1) (i / 2 ^ (t + 1))
      · obtain ⟨rfl, rfl⟩ := treeNode_injective heq
        rw [if_neg (by omega), if_neg (by omega)] at hold
        rw [if_pos rfl, if_pos ⟨le_rfl, rfl⟩, if_pos ⟨le_rfl, rfl⟩]
        exact hchange _ (by omega) _ (add_right_cancel hold ▸ hv')
      · have hiff : k ≤ t + 1 ∧ j = i / 2 ^ k ↔ k ≤ t ∧ j = i / 2 ^ k := by
          refine and_congr_left fun hj => ⟨fun hk => ?_, Nat.le_succ_of_le⟩
          by_contra hlt'
          obtain rfl : k = t + 1 := by omega
          exact heq (by rw [hj])
        rw [if_neg heq]
        simpa only [hiff] using hold
    · rw [hlen, length_set]

/-- Along the whole path from the leaf `i`. -/
theorem climb_replaced {x y : Nat} {w : Nat → Nat}
    (h : climb change (depth - 1) (treeNode 0 i) nodes = .ok nodes') (hi : treeNode 0 i < 2 ^ depth)
    (hleaf : nodeAt nodes (treeNode 0 i) + x = w (treeNode 0 i) + y)
    (hw : ∀ n, n < 2 ^ depth → n ≠ treeNode 0 i → nodeAt nodes n = w n)
    (hchange : ∀ k, k < depth → ∀ v, change (w (treeNode k (i / 2 ^ k))) = .ok v →
      v + x = w (treeNode k (i / 2 ^ k)) + y) :
    nodes'.length = nodes.length ∧ Replaced depth i x y w (nodeAt nodes') := by
  have hpos := lt_of_treeNode_lt hi
  refine climb_from hchange (depth - 1) 0 nodes (by omega) (by rwa [pow_zero, Nat.div_one])
    fun k j hlt => ?_
  by_cases heq : k ≤ 0 ∧ j = i / 2 ^ k
  · obtain ⟨hk, rfl⟩ := heq
    obtain rfl := Nat.le_zero.1 hk
    rw [pow_zero, Nat.div_one, if_pos ⟨le_rfl, rfl⟩, if_pos ⟨le_rfl, rfl⟩, hleaf]
  · rw [if_neg heq, if_neg heq]
    refine hw _ hlt fun hnode => heq ?_
    obtain ⟨rfl, rfl⟩ := treeNode_injective hnode
    exact ⟨le_rfl, by rw [pow_zero, Nat.div_one]⟩

/-! ## Consistent trees -/

/-- The node weights of a tree bucket with `size` items; `num_nodes` is a byte. -/
structure NodesOk (nodes : List Nat) (size : Nat) : Prop where
  byte : nodes.length < 2 ^ 8
  length : nodes.length = 2 ^ calcDepth size ∨ size = 0 ∧ nodes.length = 0
  sum : TreeSum (calcDepth size) (nodeAt nodes)
  empty : ∀ i, size ≤ i → treeNode 0 i < 2 ^ calcDepth size → nodeAt nodes (treeNode 0 i) = 0

theorem leafWeights_eq (nodes : List Nat) (size : Nat) :
    leafWeights nodes size = (List.range size).map fun i => nodeAt nodes (treeNode 0 i) := by
  refine map_congr_left fun i _ => ?_
  rw [calcTreeNode_eq, nodeAt]

theorem length_leafWeights (nodes : List Nat) (size : Nat) :
    (leafWeights nodes size).length = size := by
  rw [leafWeights, length_map, length_range]

theorem getElem_leafWeights (hi : i < (leafWeights nodes size).length) :
    (leafWeights nodes size)[i] = nodeAt nodes (treeNode 0 i) := by
  simp only [leafWeights_eq, getElem_map, getElem_range]

namespace NodesOk

variable {nodes nodes' : List Nat} {size i : Nat}

section

variable (h : NodesOk nodes size)

include h

/-- No node has more than the items together. -/
theorem le_total {k j : Nat} (hlt : treeNode k j < 2 ^ calcDepth size) :
    nodeAt nodes (treeNode k j) ≤ (leafWeights nodes size).sum := by
  refine (h.sum.le_sum hlt).trans (le_of_eq ?_)
  have hpos := lt_of_treeNode_lt hlt
  have hsize : 0 < size := by
    by_contra h0
    rw [Nat.eq_zero_of_not_pos h0, calcDepth, if_pos rfl] at hpos
    omega
  have hle := (calcDepth_le_iff (calcDepth size - 1) hsize).1 (by omega)
  rw [leafWeights_eq]
  refine (Finset.sum_subset (Finset.range_subset_range.2 hle) fun i hi hout => ?_).symm
  rw [Finset.mem_range] at hi hout
  exact h.empty i (by omega) (treeNode_lt (by omega) (by rw [Nat.sub_zero]; exact hi))

/-- The weight `old` of an item is replaced. -/
theorem replaced {old new : Nat} (hi : i < size) (hlen : nodes'.length = nodes.length)
    (hold : old = nodeAt nodes (treeNode 0 i))
    (hr : Replaced (calcDepth size) i old new (nodeAt nodes) (nodeAt nodes')) :
    NodesOk nodes' size ∧ leafWeights nodes' size = (leafWeights nodes size).set i new := by
  refine ⟨⟨hlen ▸ h.byte, hlen ▸ h.length, h.sum.replaced hr, fun m hm hlt => ?_⟩, ?_⟩
  · rw [hr.leaf hold.symm hlt, if_neg (by omega)]
    exact h.empty m hm hlt
  · refine ext_getElem (by rw [length_set, length_leafWeights, length_leafWeights]) fun m hm _ => ?_
    have hsize : m < size := by rwa [length_leafWeights] at hm
    rw [getElem_leafWeights, getElem_set, getElem_leafWeights, hr.leaf hold.symm (leaf_lt hsize)]
    by_cases hmi : m = i
    · rw [if_pos hmi, if_pos hmi.symm]
    · rw [if_neg hmi, if_neg (Ne.symm hmi)]

theorem length_le : nodes.length ≤ 2 ^ calcDepth size := by
  obtain heq | hnone := h.length
  · exact heq.le
  · rw [hnone.2]; exact Nat.zero_le _

theorem length_eq (hpos : 0 < size) : nodes.length = 2 ^ calcDepth size := by
  obtain heq | _ := h.length
  · exact heq
  · omega

theorem nodeAt_of_le {n : Nat} (hn : 2 ^ calcDepth size ≤ n) : nodeAt nodes n = 0 := by
  rw [nodeAt, getD_eq_getElem?_getD, getElem?_eq_none (h.length_le.trans hn), Option.getD_none]

/-- There is no weight behind the last item, not even in a larger tree. -/
theorem empty_of_le (hi : size ≤ i) : nodeAt nodes (treeNode 0 i) = 0 := by
  by_cases hlt : treeNode 0 i < 2 ^ calcDepth size
  · exact h.empty i hi hlt
  · exact h.nodeAt_of_le (Nat.le_of_not_lt hlt)

end

end NodesOk

/-! ## Another weight -/

section Replace

variable {b b' : WeightedBucket} {nodes nodes' : List Nat} {i weight : Nat}

/-- The nodes from the item to the root, when every change along the way is the right one. -/
theorem climb_nodesOk {size old : Nat} (hn : NodesOk nodes size) (hi : i < size)
    (hold : old = nodeAt nodes (treeNode 0 i))
    (h : climb change (calcDepth size - 1) (treeNode 0 i) (nodes.set (treeNode 0 i) weight) =
      .ok nodes')
    (hchange : ∀ v v', old ≤ v → v ≤ (leafWeights nodes size).sum → change v = .ok v' →
      v' + old = v + weight) :
    NodesOk nodes' size ∧ leafWeights nodes' size = (leafWeights nodes size).set i weight := by
  have hleaf := leaf_lt hi
  have hlt : treeNode 0 i < nodes.length := by rwa [hn.length_eq (by omega)]
  obtain ⟨hlen, hr⟩ := climb_replaced h hleaf
    (by rw [nodeAt_set _ hlt, if_pos rfl, hold, add_comm])
    (fun n _ hne => by rw [nodeAt_set _ hlt, if_neg hne])
    (fun k hk v hv => hchange _ v (hold ▸ hn.sum.leaf_le hleaf k hk)
      (hn.le_total (path_lt hleaf hk)) hv)
  exact hn.replaced hi (by rw [hlen, length_set]) hold hr

theorem wrapSub_eq {a b : Nat} (hle : b ≤ a) (hlt : a < 2 ^ 32) : wrapSub a b = a - b := by
  rw [wrapSub, wrap32, show a + (2 ^ 32 - b) = (a - b) + 2 ^ 32 by omega, Nat.add_mod_right]
  exact Nat.mod_eq_of_lt (by omega)

theorem shiftBy_eq {old new x : Nat} (hle : old ≤ x) (hx : x < 2 ^ 32)
    (hlt : x - old + new < 2 ^ 32) : shiftBy old new x = x - old + new := by
  rw [shiftBy, wrapSub, wrap32, wrap32, Nat.add_mod_mod,
    show x + (new + (2 ^ 32 - old)) = (x - old + new) + 2 ^ 32 by omega, Nat.add_mod_right]
  exact Nat.mod_eq_of_lt hlt

/-- Other weights for an item of a list of weights. -/
theorem sum_set (hi : i < ws.length) (x : Nat) : (ws.set i x).sum + ws[i] = ws.sum + x := by
  have hself := List.sum_set ws i ws[i]
  rw [set_getElem_self, if_pos hi] at hself
  rw [List.sum_set, if_pos hi]
  omega

/-- The sum of the weights when one of them is replaced. -/
theorem sum_set_leafWeights {size : Nat} (nodes : List Nat) (hi : i < size) (x : Nat) :
    ((leafWeights nodes size).set i x).sum + nodeAt nodes (treeNode 0 i) =
      (leafWeights nodes size).sum + x := by
  have hlen : i < (leafWeights nodes size).length := by rwa [length_leafWeights]
  rw [← sum_set hlen, getElem_leafWeights]

theorem adjustTreeBucketItemWeight_ok (hn : NodesOk nodes b.items.length) (hi : i < b.items.length)
    (htotal : b.weight = (leafWeights nodes b.items.length).sum) (hbound : b.weight < 2 ^ 32)
    (hnew : ((leafWeights nodes b.items.length).set i weight).sum < 2 ^ 32)
    (h : adjustTreeBucketItemWeight b nodes i weight = .ok b') :
    ∃ nodes', b' = ⟨b.items, ((leafWeights nodes b.items.length).set i weight).sum, .tree nodes'⟩ ∧
      NodesOk nodes' b.items.length ∧
      leafWeights nodes' b.items.length = (leafWeights nodes b.items.length).set i weight := by
  rw [adjustTreeBucketItemWeight, calcTreeNode_eq] at h
  obtain ⟨_, hold, h⟩ := bind_eq_ok h
  obtain ⟨_, hnodes₁, h⟩ := bind_eq_ok h
  obtain ⟨nodes₂, hclimb, h⟩ := bind_eq_ok h
  cases h
  have hold := readAt_node (access_eq_ok hold)
  obtain ⟨_, rfl⟩ := writeAt_eq_ok (access_eq_ok hnodes₁)
  have hset := sum_set_leafWeights nodes hi weight
  have hle := hn.le_total (leaf_lt hi)
  obtain ⟨hn', hleaves⟩ := climb_nodesOk hn hi hold hclimb fun v v' hov hv hchange => by
    rw [← ok.inj hchange, shiftBy_eq hov (by omega) (by omega)]
    omega
  refine ⟨nodes₂, ?_, hn', hleaves⟩
  rw [shiftBy_eq (by omega) hbound (by omega)]
  congr 1
  omega

end Replace

/-! ## Removing -/

theorem trimmedSize_spec (size n : Nat) (h : trimmedSize nodes size = .ok n) :
    n ≤ size ∧ ∀ i, n ≤ i → i < size → nodeAt nodes (treeNode 0 i) = 0 := by
  induction size generalizing n with
  | zero =>
    cases h
    exact ⟨le_rfl, fun i _ hlt => absurd hlt (Nat.not_lt_zero i)⟩
  | succ size ih =>
    obtain ⟨_, hw, h⟩ := bind_eq_ok h
    have hw := readAt_node hw
    split at h
    next _ =>
      cases h
      exact ⟨le_rfl, fun i hge hlt => absurd hlt (by omega)⟩
    next hzero =>
      obtain ⟨_, hrest⟩ := ih n h
      refine ⟨by omega, fun i hge hlt => ?_⟩
      obtain rfl | hlt : i = size ∨ i < size := by omega
      · rw [← calcTreeNode_eq, ← hw]
        exact not_not.1 hzero
      · exact hrest i hge hlt

theorem numNodes_of_lt (h : depth < 8) : numNodes depth = 2 ^ depth :=
  Nat.mod_eq_of_lt (Nat.pow_lt_pow_right (by decide) h)

/-- The items at the end that have no weight are dropped. -/
theorem NodesOk.shrink (h : NodesOk nodes size) (hpos : 0 < size) (hle : n ≤ size)
    (hzero : ∀ i, n ≤ i → i < size → nodeAt nodes (treeNode 0 i) = 0) :
    NodesOk (if calcDepth size ≠ calcDepth n then nodes.take (numNodes (calcDepth n))
      else nodes) n ∧
    leafWeights (if calcDepth size ≠ calcDepth n then nodes.take (numNodes (calcDepth n))
      else nodes) n = (leafWeights nodes size).take n := by
  have hdepth := calcDepth_mono hle
  have hbyte := h.byte
  rw [h.length_eq hpos, Nat.pow_lt_pow_iff_right one_lt_two] at hbyte
  have hnum := numNodes_of_lt (lt_of_le_of_lt hdepth hbyte)
  have hpow := Nat.pow_le_pow_right two_pos hdepth
  have hlen := h.length_eq hpos
  generalize hnodes' : (if calcDepth size ≠ calcDepth n then nodes.take (numNodes (calcDepth n))
    else nodes) = nodes'
  have hlen' : nodes'.length = 2 ^ calcDepth n := by
    rw [← hnodes']
    split
    next => rw [hnum, length_take, hlen, min_eq_left hpow]
    next heq => rw [hlen, not_not.1 heq]
  have hsame : ∀ m, m < 2 ^ calcDepth n → nodeAt nodes' m = nodeAt nodes m := by
    intro m hm
    rw [← hnodes']
    split
    next => rw [hnum, nodeAt, nodeAt, getD_eq_getElem?_getD, getD_eq_getElem?_getD,
      getElem?_take_of_lt hm]
    next => rfl
  refine ⟨⟨?_, .inl hlen', fun k j hlt => ?_, fun i hi hlt => ?_⟩, ?_⟩
  · rw [hlen', ← hnum]
    exact Nat.mod_lt _ (by decide)
  · obtain ⟨hleft, hright⟩ := children_lt hlt
    rw [hsame _ hlt, hsame _ hleft, hsame _ hright]
    exact h.sum k j (lt_of_lt_of_le hlt hpow)
  · rw [hsame _ hlt]
    by_cases hi' : i < size
    · exact hzero i hi hi'
    · exact h.empty_of_le (Nat.le_of_not_lt hi')
  · refine ext_getElem (by
      rw [length_leafWeights, length_take, length_leafWeights, min_eq_left hle])
      fun i hi _ => ?_
    rw [length_leafWeights] at hi
    rw [getElem_leafWeights, getElem_take, getElem_leafWeights, hsame _ (leaf_lt hi)]

theorem lessWeight_eq (total w : Nat) : lessWeight total w = total - w := by
  rw [lessWeight]
  split <;> omega

theorem removeTreeBucketItem_ok {b b' : WeightedBucket} (hn : NodesOk nodes b.items.length)
    (hi : i < b.items.length) (htotal : b.weight = (leafWeights nodes b.items.length).sum)
    (hbound : b.weight < 2 ^ 32) (h : removeTreeBucketItem b nodes i = .ok b') :
    ∃ nodes' n, b' = ⟨(b.items.set i 0).take n, (leafWeights nodes' n).sum, .tree nodes'⟩ ∧
      n ≤ b.items.length ∧ NodesOk nodes' n ∧ (leafWeights nodes' n).sum ≤ b.weight := by
  rw [removeTreeBucketItem, calcTreeNode_eq] at h
  obtain ⟨w, hw, h⟩ := bind_eq_ok h
  obtain ⟨_, hnodes₁, h⟩ := bind_eq_ok h
  obtain ⟨nodes₂, hclimb, h⟩ := bind_eq_ok h
  obtain ⟨n, hn', h⟩ := bind_eq_ok h
  cases h
  have hw := readAt_node (access_eq_ok hw)
  obtain ⟨_, rfl⟩ := writeAt_eq_ok (access_eq_ok hnodes₁)
  obtain ⟨hok, hleaves⟩ := climb_nodesOk hn hi hw hclimb fun v v' hwv hv hchange => by
    rw [← ok.inj hchange, wrapSub_eq hwv (by omega)]
    omega
  obtain ⟨hle, hzero⟩ := trimmedSize_spec _ _ (access_eq_ok hn')
  obtain ⟨hshrunk, htake⟩ := hok.shrink (by omega) hle hzero
  have hset := sum_set_leafWeights nodes hi 0
  rw [← hleaves] at hset
  have hsum : ((leafWeights nodes₂ b.items.length).take n).sum =
      (leafWeights nodes₂ b.items.length).sum := by
    rw [← sum_take_add_sum_drop (leafWeights nodes₂ b.items.length) n]
    refine left_eq_add.2 (sum_eq_zero fun w hmem => ?_)
    obtain ⟨_, hm, rfl⟩ := getElem_of_mem hmem
    rw [length_drop, length_leafWeights] at hm
    rw [getElem_drop, getElem_leafWeights]
    exact hzero _ (by omega) (by omega)
  refine ⟨_, n, ?_, hle, hshrunk, ?_⟩
  · rw [htake, hsum, lessWeight_eq]
    congr 1
    omega
  · rw [htake, hsum]
    omega

/-! ## Adding -/

theorem checkedAdd_eq_ok {w v s : Nat} (hw : w < 2 ^ 32) (h : checkedAdd w v = .ok s) :
    s = v + w ∧ v + w < 2 ^ 32 := by
  rw [checkedAdd] at h
  split at h
  next => cases h
  next hsafe =>
    rw [additionIsUnsafe, decide_eq_true_iff] at hsafe
    exact ⟨(ok.inj h).symm, by omega⟩

theorem initRoot_spec {node : Nat} (h : initRoot depth node nodes = .ok nodes') :
    nodes'.length = nodes.length ∧
    ∀ n, nodeAt nodes' n =
      if (2 ≤ depth ∧ node - 1 = nodes.length / 2) ∧ n = nodes.length / 2
      then nodeAt nodes (nodes.length / 2 / 2) else nodeAt nodes n := by
  rw [initRoot] at h
  split at h
  next hroot =>
    obtain ⟨_, hv, h⟩ := bind_eq_ok h
    obtain ⟨hlt, rfl⟩ := writeAt_eq_ok (access_eq_ok h)
    refine ⟨length_set, fun n => ?_⟩
    rw [nodeAt_set _ hlt, readAt_node (access_eq_ok hv)]
    by_cases hn : n = nodes.length / 2
    · rw [if_pos hn, if_pos ⟨hroot, hn⟩]
    · rw [if_neg hn, if_neg fun hboth => hn hboth.2]
  next hroot =>
    cases h
    exact ⟨rfl, fun n => by rw [if_neg fun hboth => hroot hboth.1]⟩

/-- The nodes of a tree that is to get one more item: a new root over a full tree starts with
the weight of the old one. -/
def grown (nodes : List Nat) (size : Nat) (n : Nat) : Nat :=
  let depth := calcDepth (size + 1)
  if (2 ≤ depth ∧ 2 * size = 2 ^ (depth - 1)) ∧ n = 2 ^ (depth - 1)
  then nodeAt nodes (2 ^ (depth - 2)) else nodeAt nodes n

theorem calcDepth_of_full (hdepth : calcDepth (size + 1) = depth + 2)
    (hfull : 2 * size = 2 ^ (depth + 1)) : calcDepth size = depth + 1 := by
  rw [mul_comm] at hfull
  have hpos := Nat.two_pow_pos depth
  have hsize : size = 2 ^ depth := Nat.eq_of_mul_eq_mul_right two_pos hfull
  have hle := (calcDepth_le_iff depth (by omega)).2 hsize.le
  cases depth with
  | zero =>
    have := calcDepth_pos (show 0 < size by omega)
    omega
  | succ d =>
    have hlt := (calcDepth_le_iff d (show 0 < size by omega)).not.2
      (by rw [hsize]; have := Nat.two_pow_pos d; omega)
    omega

theorem calcDepth_of_not_full (hpos : 0 < size)
    (hfull : ¬ 2 * size = 2 ^ (calcDepth (size + 1) - 1)) :
    calcDepth size = calcDepth (size + 1) := by
  have hmono := calcDepth_mono (show size ≤ size + 1 by omega)
  obtain ⟨d, hd⟩ : ∃ d, calcDepth (size + 1) = d + 2 := by
    have hlt := (calcDepth_le_iff 0 (show 0 < size + 1 by omega)).not.2 (by rw [pow_zero]; omega)
    exact ⟨calcDepth (size + 1) - 2, by omega⟩
  rw [hd, show d + 2 - 1 = d + 1 by omega] at hfull
  have hbelow := (calcDepth_le_iff d (show 0 < size + 1 by omega)).not.1 (by omega)
  have hlt := (calcDepth_le_iff d hpos).not.2 (by omega)
  omega

theorem NodesOk.treeSum_grown (h : NodesOk nodes size) :
    TreeSum (calcDepth (size + 1)) (grown nodes size) := by
  by_cases hfull : 2 ≤ calcDepth (size + 1) ∧ 2 * size = 2 ^ (calcDepth (size + 1) - 1)
  · obtain ⟨d, hd⟩ : ∃ d, calcDepth (size + 1) = d + 2 := ⟨calcDepth (size + 1) - 2, by omega⟩
    have hsize : 2 * size = 2 ^ (d + 1) := by
      rw [hfull.2, hd]
      rfl
    have hold := calcDepth_of_full hd hsize
    have hsum := h.sum
    rw [hold] at hsum
    have hgrow := hsum.grow fun n hn => h.nodeAt_of_le (by rwa [hold])
    rw [hd]
    refine (congrArg (TreeSum (d + 2)) (funext fun n => ?_)).mp hgrow
    rw [grown, hd, show d + 2 - 2 = d by omega]
    by_cases hn : n = 2 ^ (d + 1)
    · rw [if_pos hn, if_pos ⟨⟨by omega, hsize⟩, hn⟩]
    · rw [if_neg hn, if_neg fun hboth => hn hboth.2]
  · have hsame : grown nodes size = nodeAt nodes :=
      funext fun n => if_neg fun hboth => hfull hboth.1
    rw [hsame]
    obtain rfl | hpos := eq_zero_or_pos size
    · -- the only node is a terminal one
      intro k j hlt
      exact absurd (lt_of_treeNode_lt hlt) (by rw [show calcDepth (0 + 1) = 1 from rfl]; omega)
    · by_cases htwo : 2 ≤ calcDepth (size + 1)
      · rw [← calcDepth_of_not_full hpos fun hroot => hfull ⟨htwo, hroot⟩]
        exact h.sum
      · intro k j hlt
        exact absurd (lt_of_treeNode_lt hlt) (by omega)

theorem nodeAt_reallocNodes {fresh : Nat → UInt32} (hfresh : ∀ i, nodes.length ≤ i → fresh i = 0)
    (hm : m < n) : nodeAt (reallocNodes nodes n fresh) m = nodeAt nodes m := by
  have hget : (reallocNodes nodes n fresh)[m]? = some (nodes.getD m (fresh m).toNat) := by
    rw [reallocNodes, getElem?_map, getElem?_range hm, Option.map_some]
  rw [nodeAt, nodeAt, getD_eq_getElem?_getD, hget, Option.getD_some]
  by_cases hlt : m < nodes.length
  · rw [getD_eq_getElem _ _ hlt, getD_eq_getElem _ _ hlt]
  · have hge := Nat.le_of_not_lt hlt
    rw [getD_eq_default _ _ hge, getD_eq_default _ _ hge, hfresh m hge]
    rfl

/-- The terminal nodes are those of the old tree. -/
theorem grown_leaf (nodes : List Nat) (size i : Nat) :
    grown nodes size (treeNode 0 i) = nodeAt nodes (treeNode 0 i) := by
  refine if_neg fun hboth => ?_
  have hroot := hboth.2
  obtain ⟨d, hd⟩ : ∃ d, calcDepth (size + 1) = d + 2 :=
    ⟨calcDepth (size + 1) - 2, by have := hboth.1.1; omega⟩
  rw [treeNode_zero, hd, show d + 2 - 1 = d + 1 by omega] at hroot
  omega

/-- An item behind the others is added to the nodes of the grown tree. -/
theorem NodesOk.add (h : NodesOk nodes size) (hbyte : calcDepth (size + 1) < 8)
    (hlen : nodes'.length = 2 ^ calcDepth (size + 1))
    (hr : Replaced (calcDepth (size + 1)) size 0 weight (grown nodes size) (nodeAt nodes')) :
    NodesOk nodes' (size + 1) ∧
    leafWeights nodes' (size + 1) = leafWeights nodes size ++ [weight] := by
  have hleaf : ∀ i, treeNode 0 i < 2 ^ calcDepth (size + 1) → nodeAt nodes' (treeNode 0 i) =
      if i = size then weight else nodeAt nodes (treeNode 0 i) := by
    intro i hi
    rw [hr.leaf (by rw [grown_leaf, h.empty_of_le le_rfl]) hi, grown_leaf]
  refine ⟨⟨?_, Or.inl hlen, h.treeSum_grown.replaced hr, fun i hi hlt => ?_⟩, ?_⟩
  · rw [hlen]
    exact Nat.pow_lt_pow_right (by decide) hbyte
  · rw [hleaf i hlt, if_neg (by omega)]
    exact h.empty_of_le (by omega)
  · rw [leafWeights_eq, leafWeights_eq, range_succ, map_append, map_singleton,
      hleaf size (leaf_lt (Nat.lt_succ_self size)), if_pos rfl]
    congr 1
    refine map_congr_left fun i hi => ?_
    have hi := mem_range.1 hi
    rw [hleaf i (leaf_lt (by omega)), if_neg (by omega)]

/-- The nodes once the new item has its weight and the root is set. -/
theorem initRoot_grown {nodes₀ : List Nat} (hlen : nodes₀.length = 2 ^ calcDepth (size + 1))
    (hsame : ∀ n, n < 2 ^ calcDepth (size + 1) → nodeAt nodes₀ n = nodeAt nodes n)
    (h : initRoot (calcDepth (size + 1)) (treeNode 0 size) (nodes₀.set (treeNode 0 size) weight) =
      .ok nodes') :
    nodes'.length = 2 ^ calcDepth (size + 1) ∧
    ∀ n, n < 2 ^ calcDepth (size + 1) →
      nodeAt nodes' n = if n = treeNode 0 size then weight else grown nodes size n := by
  obtain ⟨hlen', hnode⟩ := initRoot_spec h
  have hleaf := leaf_lt (Nat.lt_succ_self size)
  rw [length_set, hlen] at hlen' hnode
  refine ⟨hlen', fun n hn => ?_⟩
  rw [hnode n, grown, treeNode_zero, Nat.add_sub_cancel]
  obtain ⟨d, hd⟩ : ∃ d, calcDepth (size + 1) = d + 1 :=
    ⟨calcDepth (size + 1) - 1, by have := calcDepth_pos (show 0 < size + 1 by omega); omega⟩
  have hhalf : 2 ^ calcDepth (size + 1) / 2 = 2 ^ (calcDepth (size + 1) - 1) := by
    rw [hd, pow_succ, Nat.mul_div_cancel _ Nat.two_pos, Nat.add_sub_cancel]
  have hset : ∀ m, m < 2 ^ calcDepth (size + 1) → nodeAt (nodes₀.set (2 * size + 1) weight) m =
      if m = 2 * size + 1 then weight else nodeAt nodes m := by
    intro m hm
    rw [nodeAt_set _ (by rw [hlen, ← treeNode_zero]; exact hleaf), hsame m hm]
  rw [hhalf, hset n hn]
  by_cases hroot : (2 ≤ calcDepth (size + 1) ∧ 2 * size = 2 ^ (calcDepth (size + 1) - 1)) ∧
      n = 2 ^ (calcDepth (size + 1) - 1)
  · obtain ⟨e, rfl⟩ : ∃ e, d = e + 1 := ⟨d - 1, by have := hroot.1.1; omega⟩
    have hquarter : 2 ^ (calcDepth (size + 1) - 1) / 2 = 2 ^ (calcDepth (size + 1) - 2) := by
      rw [hd, Nat.add_sub_cancel, pow_succ, Nat.mul_div_cancel _ Nat.two_pos]
      rfl
    have hlt : 2 ^ (calcDepth (size + 1) - 2) < 2 ^ calcDepth (size + 1) :=
      Nat.pow_lt_pow_right one_lt_two (by omega)
    rw [if_pos hroot, if_pos hroot, hquarter, hset _ hlt, if_neg (by omega), if_neg (by omega)]
  · rw [if_neg hroot, if_neg hroot]

theorem addTreeBucketItem_ok {b b' : WeightedBucket} {item : Int} {fresh : Nat → UInt32}
    (hn : NodesOk nodes b.items.length) (hw : weight < 2 ^ 32)
    (hfresh : ∀ i, nodes.length ≤ i → fresh i = 0)
    (h : addTreeBucketItem b nodes item weight fresh = .ok b') :
    ∃ nodes', b' = ⟨b.items ++ [item], b.weight + weight, .tree nodes'⟩ ∧
      b.weight + weight < 2 ^ 32 ∧ NodesOk nodes' (b.items.length + 1) ∧
      leafWeights nodes' (b.items.length + 1) = leafWeights nodes b.items.length ++ [weight] := by
  rw [addTreeBucketItem, Nat.add_sub_cancel, calcTreeNode_eq] at h
  obtain ⟨_, hnodes₁, h⟩ := bind_eq_ok h
  obtain ⟨_, hnodes₂, h⟩ := bind_eq_ok h
  obtain ⟨nodes₃, hclimb, h⟩ := bind_eq_ok h
  obtain ⟨_, htotal, h⟩ := bind_eq_ok h
  cases h
  obtain ⟨rfl, hbound⟩ := checkedAdd_eq_ok hw htotal
  obtain ⟨hlt, rfl⟩ := writeAt_eq_ok (access_eq_ok hnodes₁)
  -- a tree for which the number of nodes is too large for a byte gets no nodes at all
  have hdepth : calcDepth (b.items.length + 1) < 8 := by
    by_contra hge
    have hzero : numNodes (calcDepth (b.items.length + 1)) = 0 :=
      Nat.mod_eq_zero_of_dvd (pow_dvd_pow 2 (Nat.le_of_not_lt hge))
    rw [hzero] at hlt
    exact absurd hlt (Nat.not_lt_zero _)
  have hnum := numNodes_of_lt hdepth
  have hlen : ∀ f, (reallocNodes nodes (numNodes (calcDepth (b.items.length + 1))) f).length =
      2 ^ calcDepth (b.items.length + 1) := fun f => by
    rw [reallocNodes, length_map, length_range, hnum]
  obtain ⟨hlen₂, hnode₂⟩ := initRoot_grown (hlen fresh)
    (fun n hn => nodeAt_reallocNodes hfresh (by rwa [hnum])) hnodes₂
  have hleaf := leaf_lt (Nat.lt_succ_self b.items.length)
  have hempty : grown nodes b.items.length (treeNode 0 b.items.length) = 0 := by
    rw [grown_leaf, hn.empty_of_le le_rfl]
  obtain ⟨hlen₃, hr⟩ := climb_replaced (w := grown nodes b.items.length)
    hclimb hleaf
    (by rw [hnode₂ _ hleaf, if_pos rfl, hempty, add_zero, zero_add])
    (fun n hn hne => by rw [hnode₂ n hn, if_neg hne])
    (fun k _ v hv => by rw [(checkedAdd_eq_ok hw hv).1, add_zero])
  obtain ⟨hok, hleaves⟩ := hn.add hdepth (hlen₃.trans hlen₂) hr
  exact ⟨nodes₃, rfl, hbound, hok, hleaves⟩

end Ceph.Crush
