import Mathlib.Order.Nat

set_option autoImplicit false

/-!
# Trees given by a split table over a levelled space

The nodes of the space carry a level, and every node has one ancestor at each
level above its own.  A split table says of each node by how many levels it
is split, zero meaning not at all; the children of a split node are then the
nodes that many levels below it.  The tree itself is what is reached from the
root along such children, and its leaves are the nodes reached and not split.
A table may hold entries for nodes that are not reached; a rooted table holds
none.
-/

namespace Ceph.Lib

/-- A space of nodes, each with a level and an ancestor at each level above. -/
structure Levels (N : Type) where
  level : N → Nat
  anc : N → Nat → N
  level_anc : ∀ {x : N} {k : Nat}, k ≤ level x → level (anc x k) = k
  anc_self : ∀ x : N, anc x (level x) = x
  anc_anc : ∀ {x : N} {j k : Nat}, j ≤ k → k ≤ level x → anc (anc x k) j = anc x j

namespace Levels

variable {N : Type} (L : Levels N)

/-! ## The order of the space -/

/-- `x` is `y` or an ancestor of `y`. -/
def Above (x y : N) : Prop := L.level x ≤ L.level y ∧ L.anc y (L.level x) = x

variable {L} {x y z v : N}

theorem above_refl (x : N) : L.Above x x := ⟨le_rfl, L.anc_self x⟩

theorem anc_above {k : Nat} (hk : k ≤ L.level x) : L.Above (L.anc x k) x := by
  refine ⟨?_, ?_⟩
  · rw [L.level_anc hk]; exact hk
  · rw [L.level_anc hk]

theorem Above.trans (hxy : L.Above x y) (hyz : L.Above y z) : L.Above x z := by
  refine ⟨hxy.1.trans hyz.1, ?_⟩
  rw [← L.anc_anc hxy.1 hyz.1, hyz.2, hxy.2]

/-- Of two nodes above a third, the one of smaller level is above the other. -/
theorem Above.of_common (hx : L.Above x v) (hy : L.Above y v)
    (hle : L.level x ≤ L.level y) : L.Above x y := by
  refine ⟨hle, ?_⟩
  rw [← hy.2, L.anc_anc hle hy.1, hx.2]

theorem Above.eq_of_level (hx : L.Above x v) (hy : L.Above y v)
    (hle : L.level x = L.level y) : x = y := by
  rw [← hx.2, ← hy.2, hle]

theorem Above.antisymm (hxy : L.Above x y) (hyx : L.Above y x) : x = y :=
  hxy.eq_of_level (above_refl y) (le_antisymm hxy.1 hyx.1)

/-! ## Children, nodes and leaves of a split table -/

variable (L) (sp : N → Nat)

/-- `c` is one of the children into which `t` is split. -/
def Child (t c : N) : Prop := sp t ≠ 0 ∧ L.level c = L.level t + sp t ∧ L.Above t c

/-- `u` is reached from `t` along children. -/
abbrev Reach (t u : N) : Prop := Relation.ReflTransGen (L.Child sp) t u

/-- `l` is a leaf of the tree below `r`. -/
def Leaf (r l : N) : Prop := L.Reach sp r l ∧ sp l = 0

/-- Every entry of the table belongs to the tree: there are no orphans. -/
def Rooted (root : N) : Prop := ∀ k, sp k ≠ 0 → L.Reach sp root k

variable {L} {sp} {sp' : N → Nat} {r t u l m c root : N}

theorem Child.level_lt (h : L.Child sp t c) : L.level t < L.level c := by
  obtain ⟨_, _, _⟩ := h
  omega

theorem Reach.above (h : L.Reach sp t u) : L.Above t u := by
  induction h with
  | refl => exact above_refl t
  | tail _ hc ih => exact ih.trans hc.2.2

theorem Reach.eq_of_unsplit (h : L.Reach sp t u) (ht : sp t = 0) : u = t := by
  obtain heq | hc := h.cases_head
  · exact heq.symm
  · obtain ⟨_, hc, _⟩ := hc
    exact absurd ht hc.1

/-- What is reached further down is no nearer than the children. -/
theorem Reach.level_add_le (h : L.Reach sp t u) (hlt : L.level t < L.level u) :
    L.level t + sp t ≤ L.level u := by
  obtain rfl | ⟨_, hc, hrest⟩ := h.cases_head
  · exact absurd hlt (lt_irrefl _)
  · exact hc.2.1 ▸ (Reach.above hrest).1

/-- The nodes reached from one node and above a common one form a chain. -/
theorem Reach.comparable (ht : L.Reach sp r t) (hu : L.Reach sp r u)
    (htv : L.Above t v) (huv : L.Above u v) : L.Reach sp t u ∨ L.Reach sp u t := by
  induction hu with
  | refl => exact .inr ht
  | @tail u c _ hc ih =>
    have huv' : L.Above u v := hc.2.2.trans huv
    obtain htu | hut := ih huv'
    · exact .inl (htu.tail hc)
    · obtain heq | hfirst := hut.cases_head
      · subst heq
        exact .inl (.single hc)
      · -- the first step from `u` towards `t` is the child above `v`
        obtain ⟨c', hc', hrest⟩ := hfirst
        have hcv : L.Above c' v := (Reach.above hrest).trans htv
        have heq : c' = c := hcv.eq_of_level huv (hc'.2.1.trans hc.2.1.symm)
        exact .inr (heq ▸ hrest)

/-- A node of larger level among two of one chain is reached from the other. -/
theorem Reach.of_level_le (ht : L.Reach sp r t) (hu : L.Reach sp r u) (htv : L.Above t v)
    (huv : L.Above u v) (hle : L.level t ≤ L.level u) : L.Reach sp t u := by
  obtain h | h := ht.comparable hu htv huv
  · exact h
  · have heq : u = t := h.above.antisymm (htv.of_common huv hle)
    exact heq ▸ .refl

/-- Leaves do not overlap. -/
theorem Leaf.unique (hl : L.Leaf sp r l) (hm : L.Leaf sp r m)
    (hlv : L.Above l v) (hmv : L.Above m v) : l = m := by
  obtain h | h := hl.1.comparable hm.1 hlv hmv
  · exact (Reach.eq_of_unsplit h hl.2).symm
  · exact Reach.eq_of_unsplit h hm.2

/-! ## The branch point of a node -/

variable (L) (sp)

/-- `q` is the nearest split node at or above `x`, or the root. -/
structure Branch (root x q : N) : Prop where
  above : L.Above q x
  split_or_root : sp q ≠ 0 ∨ q = root
  none_between : ∀ k, L.level q < k → k ≤ L.level x → sp (L.anc x k) = 0

variable {L} {sp} {q : N}

section

variable (hq : L.Branch sp root x q)

include hq

theorem Branch.reach (hroot : L.Rooted sp root) : L.Reach sp root q := by
  obtain h | h := hq.split_or_root
  · exact hroot q h
  · exact h ▸ .refl

/-- There is one branch point, the root being above everything. -/
theorem Branch.unique {q' : N} (hq' : L.Branch sp root x q')
    (hroot : L.level root = 0) : q = q' := by
  -- the higher of the two would have the other between itself and `x`
  have key : ∀ {p p' : N}, L.Branch sp root x p → L.Branch sp root x p' →
      ¬ L.level p < L.level p' := by
    intro p p' hp hp' hlt
    have hz := hp.none_between _ hlt hp'.above.1
    rw [hp'.above.2] at hz
    have heq := hp'.split_or_root.resolve_left (not_not.2 hz)
    rw [heq, hroot] at hlt
    exact Nat.not_lt_zero _ hlt
  refine hq.above.eq_of_level hq'.above ?_
  have h1 := key hq hq'
  have h2 := key hq' hq
  omega

/-- The child of the branch point towards `x`, when `x` is that deep, is a leaf. -/
theorem Branch.leaf_child (hroot : L.Rooted sp root) (hsp : sp q ≠ 0)
    (hle : L.level q + sp q ≤ L.level x) : L.Leaf sp root (L.anc x (L.level q + sp q)) := by
  have hlevel := L.level_anc hle
  refine ⟨(hq.reach hroot).tail ⟨hsp, hlevel, ?_⟩, hq.none_between _ (by omega) hle⟩
  exact hq.above.of_common (anc_above hle) (by omega)

/-- An unsplit branch point is the leaf above the node. -/
theorem Branch.leaf_self (hsp : sp q = 0) : L.Leaf sp root q := by
  obtain h | h := hq.split_or_root
  · exact absurd hsp h
  · exact ⟨h ▸ .refl, hsp⟩

end

/-- Below a leaf nothing is reached but itself. -/
theorem Leaf.eq_of_reach (hl : L.Leaf sp root l) (hx : L.Reach sp root x)
    (hlx : L.Above l x) : x = l :=
  Reach.eq_of_unsplit (hl.1.of_level_le hx hlx (above_refl x) hlx.1) hl.2

theorem Leaf.eq_of_above (hc : L.Leaf sp root c) (hl : L.Leaf sp root l)
    (hcl : L.Above c l) : l = c := hc.eq_of_reach hl.1 hcl

/-- The leaves below a split node of the tree are those reached from it. -/
theorem Leaf.of_split (hq : L.Reach sp root q) (hsp : sp q ≠ 0) (hl : L.Leaf sp root l)
    (hql : L.Above q l) : L.Leaf sp q l := by
  obtain h | h := hq.comparable hl.1 hql (above_refl l)
  · exact ⟨h, hl.2⟩
  · have heq := Reach.eq_of_unsplit h hl.2
    exact absurd (heq ▸ hl.2) hsp

/-! ## Changing the table -/

/-- A change that leaves every split on the way to `u` alone keeps `u` reached. -/
theorem Reach.of_agree (h : L.Reach sp r u)
    (hag : ∀ t, L.Reach sp t u → t ≠ u → sp' t = sp t) : L.Reach sp' r u := by
  induction h using Relation.ReflTransGen.head_induction_on with
  | refl => exact .refl
  | head hc hrest ih =>
    rename_i a c
    have hne : a ≠ u := by
      rintro rfl
      exact absurd (Reach.above hrest).1 (not_le.2 hc.level_lt)
    have heq := hag a (.head hc hrest) hne
    refine .head ⟨heq ▸ hc.1, ?_, hc.2.2⟩ ih
    rw [heq]
    exact hc.2.1

/-- Splitting a leaf keeps reached what was reached. -/
theorem Reach.split [DecidableEq N] (h : L.Reach sp r u) (hx : sp x = 0) (b : Nat) :
    L.Reach (Function.update sp x b) r u := by
  refine Reach.of_agree h fun t ht hne => Function.update_of_ne ?_ _ _
  -- the leaf is not split, so it is on the way to nothing but itself
  rintro rfl
  exact hne (Reach.eq_of_unsplit ht hx).symm

section

variable (hroot : L.Rooted sp root)

include hroot

/-- Splitting a leaf keeps the table rooted. -/
theorem Rooted.split [DecidableEq N] (hx : L.Leaf sp root x)
    (b : Nat) : L.Rooted (Function.update sp x b) root := by
  intro k hk
  obtain heq | hne := eq_or_ne k x
  · exact heq ▸ Reach.split hx.1 hx.2 b
  · rw [Function.update_of_ne hne] at hk
    exact Reach.split (hroot k hk) hx.2 b

/-- Nothing below a leaf is split. -/
theorem Rooted.unsplit_below (hl : L.Leaf sp root l) (hlx : L.Above l x)
    (hne : x ≠ l) : sp x = 0 := by
  by_contra hsp
  exact hne (hl.eq_of_reach (hroot x hsp) hlx)

/-- Clearing every entry reached from a node keeps the table rooted. -/
theorem Rooted.clear (hin : ∀ k, L.Reach sp x k → sp' k = 0)
    (hout : ∀ k, ¬ L.Reach sp x k → sp' k = sp k) : L.Rooted sp' root := by
  intro k hk
  have hnot : ¬ L.Reach sp x k := fun h => hk (hin k h)
  rw [hout k hnot] at hk
  refine Reach.of_agree (hroot k hk) fun t ht _ => hout t fun hxt => hnot (hxt.trans ht)

/-- A node split by a number of levels has no split node strictly inside. -/
theorem Rooted.unsplit_inside (hq : sp q ≠ 0) (hqm : L.Above q m) (hlt : L.level q < L.level m)
    (hin : L.level m < L.level q + sp q) : sp m = 0 := by
  by_contra hsp
  have hreach := (hroot q hq).of_level_le (hroot m hsp) hqm (above_refl m) hlt.le
  exact absurd (Reach.level_add_le hreach hlt) (not_le.2 hin)

theorem Rooted.unsplit_anc (hq : sp q ≠ 0) (hqx : L.Above q x) {k : Nat} (hk : L.level q < k)
    (hkx : k ≤ L.level x) (hin : k < L.level q + sp q) : sp (L.anc x k) = 0 := by
  have hanc := L.level_anc hkx
  exact hroot.unsplit_inside hq (hqx.of_common (anc_above hkx) (by omega)) (by omega) (by omega)

end

end Levels

/-! ## Cutting a split in two and joining it again -/

/-- `fine` is `coarse` with the split of `x` cut after `a` of its `a + b` levels:
the nodes in between become split by `b` levels. -/
structure CutSplit {N : Type} (L : Levels N) (coarse fine : N → Nat) (x : N) (a b : Nat) :
    Prop where
  pos_left : 0 < a
  pos_right : 0 < b
  coarse_at : coarse x = a + b
  fine_at : fine x = a
  coarse_mid : ∀ m, L.Above x m → L.level m = L.level x + a → coarse m = 0
  fine_mid : ∀ m, L.Above x m → L.level m = L.level x + a → fine m = b
  other : ∀ k, k ≠ x → ¬ (L.Above x k ∧ L.level k = L.level x + a) → fine k = coarse k

namespace CutSplit

open Levels

variable {N : Type} {L : Levels N} {coarse fine : N → Nat} {root x : N} {a b : Nat}

section

variable (h : CutSplit L coarse fine x a b)

include h

theorem coarse_at_ne_zero : coarse x ≠ 0 := by
  rw [h.coarse_at]
  exact (Nat.add_pos_left h.pos_left b).ne'

/-- A child of the coarse tree is reached in the fine one. -/
theorem reach_of_child {t c : N} (hc : L.Child coarse t c) : L.Reach fine t c := by
  obtain heq | hne := em (t = x)
  · subst heq
    obtain ⟨_, hlevel, habove⟩ := hc
    rw [h.coarse_at] at hlevel
    have hle : L.level t + a ≤ L.level c := by omega
    have hml := L.level_anc hle
    have hm : L.Above (L.anc c (L.level t + a)) c := anc_above hle
    have htm := habove.of_common hm (by omega)
    have hpos := h.pos_left
    have hfine := h.fine_mid _ htm hml
    refine .tail (.single ⟨by rw [h.fine_at]; omega, by rw [h.fine_at, hml], htm⟩) ?_
    refine ⟨?_, ?_, hm⟩
    · rw [hfine]; exact h.pos_right.ne'
    · rw [hml]; omega
  · have hmid : ¬ (L.Above x t ∧ L.level t = L.level x + a) :=
      fun hm => hc.1 (h.coarse_mid t hm.1 hm.2)
    have heq := h.other t hne hmid
    exact .single ⟨heq ▸ hc.1, by rw [heq]; exact hc.2.1, hc.2.2⟩

theorem reach_fine {t u : N} (hr : L.Reach coarse t u) : L.Reach fine t u := by
  induction hr with
  | refl => exact .refl
  | tail _ hc ih => exact ih.trans (h.reach_of_child hc)

/-- What the fine tree reaches the coarse one reaches, the nodes in between apart. -/
theorem reach_coarse (hx : L.Reach coarse root x) {u : N} (hr : L.Reach fine root u) :
    L.Reach coarse root u ∨ (L.Above x u ∧ L.level u = L.level x + a) := by
  induction hr with
  | refl => exact .inl .refl
  | @tail t _ _ hc ih =>
    obtain hmid | hmid := em (L.Above x t ∧ L.level t = L.level x + a)
    · -- one of the nodes in between: its child is a child of `x` in the coarse tree
      refine .inl (hx.tail ⟨h.coarse_at_ne_zero, ?_, hmid.1.trans hc.2.2⟩)
      have hl := hc.2.1
      rw [h.fine_mid t hmid.1 hmid.2] at hl
      rw [h.coarse_at]
      omega
    · have hct : L.Reach coarse root t := ih.resolve_right hmid
      obtain heq | hne := em (t = x)
      · subst heq
        exact .inr ⟨hc.2.2, by rw [hc.2.1, h.fine_at]⟩
      · have heq := h.other t hne hmid
        exact .inl (hct.tail ⟨heq ▸ hc.1, by rw [← heq]; exact hc.2.1, hc.2.2⟩)

/-- Where the fine tree splits and the coarse one does not is in between. -/
theorem coarse_ne_zero {k : N} (hk : fine k ≠ 0)
    (hmid : ¬ (L.Above x k ∧ L.level k = L.level x + a)) : coarse k ≠ 0 := by
  obtain heq | hne := em (k = x)
  · exact heq ▸ h.coarse_at_ne_zero
  · exact h.other k hne hmid ▸ hk

theorem fine_ne_zero {k : N} (hk : coarse k ≠ 0) : fine k ≠ 0 := by
  obtain heq | hne := em (k = x)
  · rw [heq, h.fine_at]
    exact h.pos_left.ne'
  · rw [h.other k hne fun hm => hk (h.coarse_mid k hm.1 hm.2)]
    exact hk

/-- Cutting a split keeps the table rooted. -/
theorem rooted_fine (hroot : L.Rooted coarse root) : L.Rooted fine root := by
  have hx := h.coarse_at_ne_zero
  intro k hk
  obtain hmid | hmid := em (L.Above x k ∧ L.level k = L.level x + a)
  · refine (h.reach_fine (hroot x hx)).tail ⟨h.fine_ne_zero hx, ?_, hmid.1⟩
    rw [h.fine_at]
    exact hmid.2
  · exact h.reach_fine (hroot k (h.coarse_ne_zero hk hmid))

/-- Joining a cut split keeps the table rooted. -/
theorem rooted_coarse (hroot : L.Rooted fine root) : L.Rooted coarse root := by
  -- the way to `x` is the same in both tables
  have hfx : L.Reach fine root x := hroot x (by rw [h.fine_at]; exact h.pos_left.ne')
  have hx : L.Reach coarse root x := by
    refine Reach.of_agree hfx fun t ht hne => (h.other t hne ?_).symm
    rintro ⟨_, _⟩
    have hle := ht.above.1
    have := h.pos_left
    omega
  intro k hk
  obtain hreach | hmid := h.reach_coarse hx (hroot k (h.fine_ne_zero hk))
  · exact hreach
  · exact absurd (h.coarse_mid k hmid.1 hmid.2) hk

/-- The leaves are the same before and after. -/
theorem leaf_iff (hroot : L.Rooted coarse root)
    {l : N} : L.Leaf fine root l ↔ L.Leaf coarse root l := by
  have hx := h.coarse_at_ne_zero
  constructor
  · rintro ⟨hreach, hz⟩
    have hmid : ¬ (L.Above x l ∧ L.level l = L.level x + a) := by
      rintro ⟨habove, hlevel⟩
      rw [h.fine_mid l habove hlevel] at hz
      exact h.pos_right.ne' hz
    refine ⟨(h.reach_coarse (hroot x hx) hreach).resolve_right hmid, ?_⟩
    by_contra hsp
    exact h.fine_ne_zero hsp hz
  · rintro ⟨hreach, hz⟩
    refine ⟨h.reach_fine hreach, ?_⟩
    have hmid : ¬ (L.Above x l ∧ L.level l = L.level x + a) := by
      rintro ⟨habove, hlevel⟩
      -- nothing strictly inside a split is reached
      have hxl := (hroot x hx).of_level_le hreach habove (above_refl l) (by omega)
      have := h.pos_left
      have hle := Reach.level_add_le hxl (by omega)
      rw [h.coarse_at] at hle
      have := h.pos_right
      omega
    by_contra hsp
    exact h.coarse_ne_zero hsp hmid hz

end

end CutSplit

end Ceph.Lib
