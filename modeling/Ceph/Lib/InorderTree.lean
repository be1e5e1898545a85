import Mathlib.Algebra.BigOperators.Intervals
import Mathlib.Algebra.Order.BigOperators.Group.Finset
import Mathlib.Tactic.Ring

set_option autoImplicit false

/-!
# Complete binary trees in an array, numbered in order

The nodes of a tree of a given depth have the numbers from 1 to `2 ^ depth - 1`: the node of
height `k` with index `j` has the number `2 ^ k * (2 * j + 1)`, so that the leaves are the odd
numbers.  `TreeSum` says that the value of every interior node is the sum of its children's;
it is kept when one amount takes the place of another along the path from a leaf to the root.
-/

namespace Ceph.Lib

open Finset Nat

/-- The number of a node. -/
def treeNode (k j : Nat) : Nat := 2 ^ k * (2 * j + 1)

section Numbers

variable {k j k' j' depth : Nat}

theorem treeNode_zero (j : Nat) : treeNode 0 j = 2 * j + 1 := by
  rw [treeNode, pow_zero, one_mul]

theorem treeNode_injective (h : treeNode k j = treeNode k' j') : k = k' ∧ j = j' := by
  -- the smaller power of two is cancelled; what is left of the other side is even
  have hlt : ∀ {k j k' j' : Nat}, k < k' → treeNode k j ≠ treeNode k' j' := by
    intro k j k' j' hlt heq
    obtain ⟨c, rfl⟩ := Nat.exists_eq_add_of_lt hlt
    rw [treeNode, treeNode, show k + c + 1 = k + (c + 1) by omega, pow_add, mul_assoc] at heq
    have hodd := Nat.eq_of_mul_eq_mul_left (Nat.two_pow_pos k) heq
    rw [pow_succ, mul_comm (2 ^ c), mul_assoc] at hodd
    omega
  obtain hk | rfl | hk := lt_trichotomy k k'
  · exact absurd h (hlt hk)
  · have hodd := Nat.eq_of_mul_eq_mul_left (Nat.two_pow_pos k) h
    exact ⟨rfl, by omega⟩
  · exact absurd h.symm (hlt hk)

/-- The nodes of height `k` in a tree. -/
theorem treeNode_lt_iff : treeNode k j < 2 ^ (k + 1 + depth) ↔ j < 2 ^ depth := by
  have hpow : 2 ^ (k + 1 + depth) = 2 ^ k * (2 * 2 ^ depth) := by
    rw [pow_add, pow_succ, mul_assoc]
  rw [hpow]
  constructor
  · intro h
    have := Nat.lt_of_mul_lt_mul_left h
    omega
  · intro h
    exact Nat.mul_lt_mul_of_pos_left (by omega) (Nat.two_pow_pos k)

/-- The height of a node is less than the depth. -/
theorem lt_of_treeNode_lt (h : treeNode k j < 2 ^ depth) : k < depth := by
  refine (Nat.pow_lt_pow_iff_right one_lt_two).1 (lt_of_le_of_lt ?_ h)
  exact Nat.le_mul_of_pos_right _ (succ_pos _)

theorem treeNode_lt (hk : k < depth) (hj : j < 2 ^ (depth - k - 1)) : treeNode k j < 2 ^ depth := by
  rw [show depth = k + 1 + (depth - k - 1) by omega]
  exact treeNode_lt_iff.2 hj

theorem index_lt (h : treeNode k j < 2 ^ depth) : j < 2 ^ (depth - k - 1) := by
  have hk := lt_of_treeNode_lt h
  rw [show depth = k + 1 + (depth - k - 1) by omega] at h
  exact treeNode_lt_iff.1 h

/-- The children of an interior node. -/
theorem children_lt (h : treeNode (k + 1) j < 2 ^ depth) :
    treeNode k (2 * j) < 2 ^ depth ∧ treeNode k (2 * j + 1) < 2 ^ depth := by
  have hk := lt_of_treeNode_lt h
  have hj := index_lt h
  have hpow : 2 ^ (depth - k - 1) = 2 * 2 ^ (depth - (k + 1) - 1) := by
    rw [show depth - k - 1 = depth - (k + 1) - 1 + 1 by omega, pow_succ, mul_comm]
  exact ⟨treeNode_lt (by omega) (by omega), treeNode_lt (by omega) (by omega)⟩

/-- The parent of a node with an even index is behind it, that of one with an odd index in
front of it. -/
theorem treeNode_parent (k j : Nat) : treeNode (k + 1) (j / 2) =
    if j % 2 = 1 then treeNode k j - 2 ^ k else treeNode k j + 2 ^ k := by
  split
  next _ =>
    obtain ⟨i, rfl⟩ : ∃ i, j = 2 * i + 1 := ⟨j / 2, by omega⟩
    rw [show (2 * i + 1) / 2 = i by omega, treeNode, treeNode]
    refine (Nat.sub_eq_of_eq_add ?_).symm
    ring
  next _ =>
    obtain ⟨i, rfl⟩ : ∃ i, j = 2 * i := ⟨j / 2, by omega⟩
    rw [show 2 * i / 2 = i by omega, treeNode, treeNode]
    ring

/-- A node of the path from a leaf. -/
theorem path_lt {i : Nat} (hi : treeNode 0 i < 2 ^ depth) (hk : k < depth) :
    treeNode k (i / 2 ^ k) < 2 ^ depth := by
  have hleaf := index_lt hi
  refine treeNode_lt hk (Nat.div_lt_of_lt_mul ?_)
  rw [← pow_add, show k + (depth - k - 1) = depth - 0 - 1 by omega]
  exact hleaf

end Numbers

/-! ## Sums -/

/-- The value of every interior node is the sum of its children's. -/
def TreeSum (depth : Nat) (w : Nat → Nat) : Prop :=
  ∀ k j, treeNode (k + 1) j < 2 ^ depth →
    w (treeNode (k + 1) j) = w (treeNode k (2 * j)) + w (treeNode k (2 * j + 1))

theorem treeSum_iff {depth : Nat} {w : Nat → Nat} : TreeSum depth w ↔
    ∀ k < depth, ∀ j < 2 ^ depth, treeNode (k + 1) j < 2 ^ depth →
      w (treeNode (k + 1) j) = w (treeNode k (2 * j)) + w (treeNode k (2 * j + 1)) := by
  refine ⟨fun h k _ j _ => h k j, fun h k j hlt => h k ?_ j ?_ hlt⟩
  · exact lt_of_succ_lt (lt_of_treeNode_lt hlt)
  · have hle := Nat.le_mul_of_pos_left (2 * j + 1) (Nat.two_pow_pos (k + 1))
    rw [treeNode] at hlt
    omega

instance {depth : Nat} {w : Nat → Nat} : Decidable (TreeSum depth w) :=
  decidable_of_iff _ treeSum_iff.symm

/-- The amount `old` is replaced by `new` in every node of the path from the leaf `i`. -/
def Replaced (depth i old new : Nat) (w w' : Nat → Nat) : Prop :=
  ∀ k j, treeNode k j < 2 ^ depth →
    w' (treeNode k j) + (if j = i / 2 ^ k then old else 0) =
      w (treeNode k j) + if j = i / 2 ^ k then new else 0

/-- Exactly one child of a node of the path is on the path. -/
theorem path_children (i k j d : Nat) : (if j = i / 2 ^ (k + 1) then d else 0) =
    (if 2 * j = i / 2 ^ k then d else 0) + if 2 * j + 1 = i / 2 ^ k then d else 0 := by
  rw [pow_succ, ← Nat.div_div_eq_div_mul]
  generalize i / 2 ^ k = a
  split <;> split <;> split <;> omega

section Sums

variable {depth i k j : Nat} {w w' : Nat → Nat}

theorem TreeSum.replaced {old new : Nat} (h : TreeSum depth w)
    (hr : Replaced depth i old new w w') : TreeSum depth w' := by
  intro k j hlt
  obtain ⟨hleft, hright⟩ := children_lt hlt
  have hsum := h k j hlt
  have hparent := hr (k + 1) j hlt
  have hl := hr k (2 * j) hleft
  have hr := hr k (2 * j + 1) hright
  have hold := path_children i k j old
  have hnew := path_children i k j new
  omega

/-- The leaves when the whole amount of one of them is replaced. -/
theorem Replaced.leaf {old new m : Nat} (hr : Replaced depth i old new w w')
    (hold : w (treeNode 0 i) = old) (hm : treeNode 0 m < 2 ^ depth) :
    w' (treeNode 0 m) = if m = i then new else w (treeNode 0 m) := by
  have hleaf := hr 0 m hm
  rw [pow_zero, Nat.div_one] at hleaf
  by_cases hmi : m = i
  · subst hmi
    rw [if_pos rfl, if_pos rfl] at hleaf
    rw [if_pos rfl]
    omega
  · rw [if_neg hmi, if_neg hmi] at hleaf
    rw [if_neg hmi]
    omega

/-- A tree becomes the left subtree of a new root, with nothing on the right. -/
theorem TreeSum.grow (h : TreeSum (depth + 1) w) (hzero : ∀ n, 2 ^ (depth + 1) ≤ n → w n = 0) :
    TreeSum (depth + 2) (fun n => if n = 2 ^ (depth + 1) then w (2 ^ depth) else w n) := by
  intro k j hlt
  have hroot : ∀ m, treeNode m 0 = 2 ^ m := fun m => by rw [treeNode, Nat.mul_one]
  have hother : ∀ m i, m ≠ depth + 1 → treeNode m i ≠ 2 ^ (depth + 1) := by
    intro m i hm heq
    rw [← hroot] at heq
    exact hm (treeNode_injective heq).1
  have hk : k + 1 < depth + 2 := lt_of_treeNode_lt hlt
  dsimp only
  rw [if_neg (hother k _ (by omega)), if_neg (hother k _ (by omega))]
  obtain rfl | hk : k = depth ∨ k < depth := by omega
  · -- the new root
    have hj := index_lt hlt
    rw [show k + 2 - (k + 1) - 1 = 0 by omega, pow_zero, lt_one_iff] at hj
    subst hj
    have hright : w (treeNode k (2 * 0 + 1)) = 0 := by
      refine hzero _ ?_
      exact mul_le_mul_left _ (by decide)
    rw [if_pos (hroot _), hright, hroot, add_zero]
  · rw [if_neg (hother (k + 1) j (by omega))]
    by_cases hleft : treeNode (k + 1) j < 2 ^ (depth + 1)
    · exact h k j hleft
    · -- the children of a node in the right subtree are there too
      have hchild : ∀ i, 2 * j ≤ i → w (treeNode k i) = 0 := by
        intro i _
        refine hzero _ (Nat.le_of_not_lt fun hlt' => hleft (treeNode_lt (by omega) ?_))
        have hindex := index_lt hlt'
        rw [show depth + 1 - k - 1 = depth + 1 - (k + 1) - 1 + 1 by omega] at hindex
        omega
      rw [hzero _ (Nat.le_of_not_lt hleft), hchild _ le_rfl, hchild _ (le_succ _)]

/-- A node has the sum of the leaves below it. -/
theorem TreeSum.eq_sum (h : TreeSum depth w) (k j : Nat) (hlt : treeNode k j < 2 ^ depth) :
    w (treeNode k j) = ∑ i ∈ range (2 ^ k), w (treeNode 0 (j * 2 ^ k + i)) := by
  induction k generalizing j with
  | zero => rw [pow_zero, sum_range_one, mul_one, add_zero]
  | succ k ih =>
    obtain ⟨hleft, hright⟩ := children_lt hlt
    rw [h k j hlt, ih _ hleft, ih _ hright, pow_succ, mul_two, sum_range_add]
    congr 1
    · refine sum_congr rfl fun i _ => ?_
      rw [show 2 * j * 2 ^ k + i = j * (2 ^ k + 2 ^ k) + i by ring]
    · refine sum_congr rfl fun i _ => ?_
      rw [show (2 * j + 1) * 2 ^ k + i = j * (2 ^ k + 2 ^ k) + (2 ^ k + i) by ring]

/-- No node has more than all leaves together. -/
theorem TreeSum.le_sum (h : TreeSum depth w) (hlt : treeNode k j < 2 ^ depth) :
    w (treeNode k j) ≤ ∑ i ∈ range (2 ^ (depth - 1)), w (treeNode 0 i) := by
  have hk := lt_of_treeNode_lt hlt
  have hj : (j + 1) * 2 ^ k ≤ 2 ^ (depth - 1) := by
    rw [show depth - 1 = (depth - k - 1) + k by omega, pow_add]
    exact mul_le_mul_right _ (index_lt hlt)
  have hrange : (j + 1) * 2 ^ k = j * 2 ^ k + 2 ^ k := succ_mul j (2 ^ k)
  calc w (treeNode k j)
      = ∑ i ∈ range (2 ^ k), w (treeNode 0 (j * 2 ^ k + i)) := h.eq_sum k j hlt
    _ ≤ ∑ i ∈ range (j * 2 ^ k), w (treeNode 0 i) +
          ∑ i ∈ range (2 ^ k), w (treeNode 0 (j * 2 ^ k + i)) := le_add_left _ _
    _ = ∑ i ∈ range (j * 2 ^ k + 2 ^ k), w (treeNode 0 i) := (sum_range_add _ _ _).symm
    _ ≤ ∑ i ∈ range (2 ^ (depth - 1)), w (treeNode 0 i) :=
          sum_le_sum_of_subset (range_subset_range.2 (by omega))

/-- A node of the path has at least the value of the leaf. -/
theorem TreeSum.leaf_le (h : TreeSum depth w) (hi : treeNode 0 i < 2 ^ depth) (k : Nat)
    (hk : k < depth) : w (treeNode 0 i) ≤ w (treeNode k (i / 2 ^ k)) := by
  induction k with
  | zero => rw [pow_zero, Nat.div_one]
  | succ k =>
    have hsum := h k (i / 2 ^ (k + 1)) (path_lt hi hk)
    rw [pow_succ, ← Nat.div_div_eq_div_mul] at hsum ⊢
    have hmem : i / 2 ^ k = 2 * (i / 2 ^ k / 2) ∨ i / 2 ^ k = 2 * (i / 2 ^ k / 2) + 1 := by omega
    obtain heven | hodd := hmem
    · rw [← heven] at hsum
      omega
    · rw [← hodd] at hsum
      omega

end Sums

end Ceph.Lib
