import Ceph.Include.FragModify
import Ceph.Lib.Run

set_option autoImplicit false

/-!
# Fragment trees partition the hash space

A tree reached from the empty one by the modifiers, each used as its callers
may, is well-formed.  Its leaves then partition the hash space, every query
agrees with them, and the assertions of the next modifier hold.
-/

namespace Ceph.Include

open Ceph.Lib Option Frag List
open Ceph.Lib.Levels

namespace FragTree

/-! ## Runs -/

/-- A call of a modifier; `simplify` defaults to true in the source. -/
inductive Op where
  | split (x : Frag) (b : Nat) (simplify : Bool)
  | merge (x : Frag) (b : Nat) (simplify : Bool)
  | forceToLeaf (x : Frag)
  | tryAssimilateChildren (x : Frag)

def step (T : FragTree) : Op → Option FragTree
  | .split x b simplify => T.split x.enc b simplify
  | .merge x b simplify => T.merge x.enc b simplify
  | .forceToLeaf x => (T.forceToLeaf x.enc).map Prod.fst
  | .tryAssimilateChildren x => some (T.tryAssimilateChildren x.enc)

/-- How the modifiers are called: a leaf is split within the 24 bits, and a
split is merged when all its children are leaves. -/
def Allowed (T : FragTree) : Op → Prop
  | .split x b _ => 0 < b ∧ x.bits + b ≤ 24 ∧ ∃ ls, T.getLeaves = some ls ∧ x.enc ∈ ls
  | .merge x b _ => 0 < b ∧ T.getSplit x.enc = b ∧
      ∃ ls, T.getLeaves = some ls ∧ ∀ c ∈ fragSplit x.enc b, c ∈ ls
  | .forceToLeaf _ => True
  | .tryAssimilateChildren _ => True

theorem empty_wf : empty.Wf := ⟨fun _ hk => absurd rfl hk, fun _ hk => absurd rfl hk⟩

variable {T : FragTree} {leaves : List Nat}

/-- What `get_leaves` has returned. -/
theorem Bounded.leaves_eq (h : T.Bounded) (hls : T.getLeaves = some leaves) :
    ∃ ls : List Frag, leaves = ls.map enc ∧ ls.Nodup ∧
      ∀ l, l ∈ ls ↔ T.Leaf l := by
  obtain ⟨ls, hfs, hspec⟩ := getLeaves_spec h
  exact ⟨ls, some.inj (hls.symm.trans hfs), hspec⟩

/-- A word listed by `get_leaves` is a leaf. -/
theorem Bounded.leaf_of_mem (h : T.Bounded) {ls : List Nat} (hls : T.getLeaves = some ls)
    {x : Frag} : x.enc ∈ ls ↔ T.Leaf x := by
  obtain ⟨_, rfl, _, hmem⟩ := h.leaves_eq hls
  rw [← hmem, List.mem_map_of_injective enc_injective]

/-- An allowed call returns, and keeps the tree well-formed. -/
theorem Wf.step (h : T.Wf) {op : Op} (hop : T.Allowed op) : ∃ T', T.step op = some T' ∧ T'.Wf := by
  cases op with
  | split x b simplify =>
    obtain ⟨_, hle, ls, hls, hx⟩ := hop
    obtain ⟨T', hT', hwf, _⟩ := h.split ((h.bounded.leaf_of_mem hls).1 hx) hle simplify
    exact ⟨T', hT', hwf⟩
  | merge x b simplify =>
    obtain ⟨hpos, hx, ls, hls, hkids⟩ := hop
    rw [getSplit_enc] at hx
    have hne : T.sp x ≠ 0 := by omega
    refine h.merge hx hpos.ne' (fun c hc => ?_) simplify
    -- each child is in the list of leaves
    have hmem : c.enc ∈ fragSplit x.enc b := by
      rw [← hx, h.bounded.fragSplit_enc hne]
      exact mem_map_of_mem ((h.bounded.kids.mem_iff hne).2 hc)
    exact ((h.bounded.leaf_of_mem hls).1 (hkids _ hmem)).2
  | forceToLeaf x =>
    obtain ⟨T', _, hT', hforced, _⟩ := h.forceToLeaf x
    refine ⟨T', ?_, hforced.wf⟩
    rw [FragTree.step, hT', map_some]
  | tryAssimilateChildren x => exact ⟨_, rfl, (h.tryAssimilateChildren x).1⟩

/-- Every tree reached is well-formed. -/
theorem Wf.of_run (h : Run FragTree.step Allowed empty T) : T.Wf := by
  refine h.invariant empty_wf fun T op T' hT hop hstep => ?_
  obtain ⟨T'', hT'', hwf⟩ := hT.step hop
  obtain rfl : T'' = T' := some.inj (hT''.symm.trans hstep)
  exact hwf

/-! ## The partition -/

/-- `leaves` partitions the hash space: each value is in exactly one of them,
and `operator[]` returns that one. -/
structure Partitions (T : FragTree) (leaves : List Nat) : Prop where
  nodup : leaves.Nodup
  exactly_one : ∀ v < 2 ^ 24, ∃! x, x ∈ leaves ∧ cephFragContainsValue x v = true
  lookup : ∀ v < 2 ^ 24, ∃ x ∈ leaves, T.lookup v = some x ∧ cephFragContainsValue x v = true

section

variable (h : T.Wf) (hleaves : T.getLeaves = some leaves)

include h hleaves

theorem Wf.partitions : T.Partitions leaves := by
  obtain ⟨ls, rfl, hnodup, hmem⟩ := h.bounded.leaves_eq hleaves
  have hlookup : ∀ v, ∀ hv : v < 2 ^ 24, ∃ l ∈ ls, T.lookup v = some l.enc ∧
      levels.Above l (hash v hv) := by
    intro v hv
    have hloop := lookupLoop_spec h.bounded hv 25 root (by omega) (root_above _)
    rw [enc_root] at hloop
    obtain ⟨l, hl, hleaf, habove⟩ := hloop
    exact ⟨l, (hmem l).2 hleaf, hl, habove⟩
  refine ⟨hnodup.map enc_injective, ?_, ?_⟩
  · intro v hv
    obtain ⟨l, hl, _, habove⟩ := hlookup v hv
    refine ⟨l.enc, ⟨mem_map_of_mem hl, (containsValue_enc l hv).2 habove⟩, ?_⟩
    rintro _ ⟨hw, hwv⟩
    obtain ⟨m, hm, rfl⟩ := mem_map.1 hw
    have hmv := (containsValue_enc m hv).1 hwv
    rw [((hmem m).1 hm).unique ((hmem l).1 hl) hmv habove]
  · intro v hv
    obtain ⟨l, hl, hlook, habove⟩ := hlookup v hv
    exact ⟨l.enc, mem_map_of_mem hl, hlook, (containsValue_enc l hv).2 habove⟩

/-- A query that decides whether `x` is a leaf, in terms of the list. -/
theorem Wf.eq_decide_mem {x : Frag} {q : Option Bool}
    (hq : ∃ r, q = some r ∧ (r = true ↔ T.Leaf x)) :
    q = some (decide (x.enc ∈ leaves)) := by
  obtain ⟨r, rfl, hiff⟩ := hq
  rw [← h.bounded.leaf_of_mem hleaves] at hiff
  rw [some.injEq, Bool.eq_iff_iff, hiff, decide_eq_true_iff]

theorem Wf.getLeavesUnder_mem (x : Frag) :
    ∃ under, T.getLeavesUnder x.enc = some under ∧ under.Nodup ∧
      ∀ l, l ∈ under ↔ l ∈ leaves ∧ cephFragContainsFrag x.enc l = true := by
  obtain ⟨_, hfs, hnodup, hmem⟩ := h.getLeavesUnder_spec x
  obtain ⟨_, rfl, _, hall⟩ := h.bounded.leaves_eq hleaves
  refine ⟨_, hfs, hnodup.map enc_injective, fun w => ?_⟩
  constructor
  · intro hw
    obtain ⟨l, hl, rfl⟩ := mem_map.1 hw
    obtain ⟨hleaf, habove⟩ := (hmem l).1 hl
    exact ⟨mem_map_of_mem ((hall l).2 hleaf), (containsFrag_enc x l).2 habove⟩
  · rintro ⟨hw, hxw⟩
    obtain ⟨l, hl, rfl⟩ := mem_map.1 hw
    refine mem_map_of_mem ((hmem l).2 ⟨(hall l).1 hl, ?_⟩)
    exact (containsFrag_enc x l).1 hxw

theorem Wf.tryAssimilateChildren_leaves (x : Frag) :
    ∃ leaves', (T.tryAssimilateChildren x.enc).getLeaves = some leaves' ∧
      ∀ l, l ∈ leaves' ↔ l ∈ leaves := by
  obtain ⟨hwf, hsame⟩ := h.tryAssimilateChildren x
  obtain ⟨fs, hfs, _, hmem⟩ := getLeaves_spec hwf.bounded
  obtain ⟨ls, rfl, _, hall⟩ := h.bounded.leaves_eq hleaves
  have hiff : ∀ l, l ∈ fs ↔ l ∈ ls := fun l => by rw [hmem, hall, hsame]
  refine ⟨_, hfs, fun w => ?_⟩
  simp only [List.mem_map, hiff]

end

/-- A tree reached from the empty one by splitting leaves, merging splits whose
children are leaves, forcing fragments to be leaves and assimilating children
partitions the hash space; the queries about a fragment agree with the leaves,
simplification keeps them, and the next call returns. -/
theorem fragtree_partitions {T : FragTree} (h : Run step Allowed empty T) :
    ∃ leaves, T.getLeaves = some leaves ∧ T.Partitions leaves ∧
      (∀ x : Frag, T.isLeaf x.enc = some (decide (x.enc ∈ leaves)) ∧
        T.contains x.enc = some (decide (x.enc ∈ leaves)) ∧
        (∃ under, T.getLeavesUnder x.enc = some under ∧ under.Nodup ∧
          ∀ l, l ∈ under ↔ l ∈ leaves ∧ cephFragContainsFrag x.enc l = true) ∧
        ∃ leaves', (T.tryAssimilateChildren x.enc).getLeaves = some leaves' ∧
          ∀ l, l ∈ leaves' ↔ l ∈ leaves) ∧
      ∀ op, T.Allowed op → ∃ T', T.step op = some T' := by
  have hwf := Wf.of_run h
  obtain ⟨_, hls, _, _⟩ := getLeaves_spec hwf.bounded
  refine ⟨_, hls, hwf.partitions hls, fun x => ?_, fun op hop => ?_⟩
  · exact ⟨hwf.eq_decide_mem hls (hwf.isLeaf_spec x), hwf.eq_decide_mem hls (hwf.contains_spec x),
      hwf.getLeavesUnder_mem hls x, hwf.tryAssimilateChildren_leaves hls x⟩
  · obtain ⟨T', hT', _⟩ := hwf.step hop
    exact ⟨T', hT'⟩

namespace Halves

/-! Both halves of the space are split by one bit, which makes the root split by
two; then the left half is forced to be a leaf again. -/

def left : Frag := ⟨1, 0, by decide, by decide⟩

def right : Frag := ⟨1, 1, by decide, by decide⟩

def one : FragTree := (step empty (.split Frag.root 1 true)).get (by decide +kernel)

def two : FragTree := (step one (.split left 1 true)).get (by decide +kernel)

def three : FragTree := (step two (.split right 1 true)).get (by decide +kernel)

def four : FragTree := (step three (.forceToLeaf left)).get (by decide +kernel)

theorem run_four : Run step Allowed empty four := by
  have ok1 : empty.Allowed (.split root 1 true) :=
    ⟨by decide, by decide, [0], by decide +kernel, by decide⟩
  have ok2 : one.Allowed (.split left 1 true) :=
    ⟨by decide, by decide, [0x1800000, 0x1000000], by decide +kernel, by decide +kernel⟩
  have ok3 : two.Allowed (.split right 1 true) :=
    ⟨by decide, by decide, [0x1800000, 0x2400000, 0x2000000], by decide +kernel,
      by decide +kernel⟩
  have h1 : Run step Allowed empty one := Run.refl.tail ok1 (some_get _).symm
  have h2 : Run step Allowed empty two := h1.tail ok2 (some_get _).symm
  have h3 : Run step Allowed empty three := h2.tail ok3 (some_get _).symm
  have ok4 : three.Allowed (.forceToLeaf left) := trivial
  exact h3.tail ok4 (some_get _).symm

end Halves

theorem fragtree_partitions_halves :
    Run step Allowed empty Halves.four ∧ Halves.three.getSplit 0 = 2 ∧
      Halves.four.getLeaves = some [0x2c00000, 0x2800000, 0x1000000] ∧
      Halves.four.Partitions [0x2c00000, 0x2800000, 0x1000000] := by
  have hls : Halves.four.getLeaves = some [0x2c00000, 0x2800000, 0x1000000] := by
    decide +kernel
  obtain ⟨_, hleaves, hpart, _⟩ := fragtree_partitions Halves.run_four
  obtain rfl := some.inj (hls.symm.trans hleaves)
  exact ⟨Halves.run_four, by decide +kernel, hls, hpart⟩

/-! ## Forcing a leaf -/

/-- `force_to_leaf` returns false exactly if `x` is a leaf, makes `x` a leaf and
disturbs little: a leaf apart from `x` stays, those inside of `x` go, and a leaf
above `x` is replaced by the fragments of the size of `x`. -/
theorem force_to_leaf_disturbs_little (h : T.Wf) (x : Frag) :
    ∃ T' r, T.forceToLeaf x.enc = some (T', r) ∧ (r = false ↔ T.Leaf x) ∧ T'.Wf ∧ T'.Leaf x ∧
      (∀ l, T.Leaf l → ¬ Frag.levels.Above x l → ¬ Frag.levels.Above l x → T'.Leaf l) ∧
      (∀ l, T.Leaf l → Frag.levels.Above x l → l ≠ x → ¬ T'.Leaf l) ∧
      ∀ p, T.Leaf p → Frag.levels.Above p x → p ≠ x → ¬ T'.Leaf p ∧
        ∀ c, Frag.levels.Above p c → c.bits = x.bits → T'.Leaf c := by
  obtain ⟨T', r, hT', hf, hr⟩ := h.forceToLeaf x
  refine ⟨T', r, hT', hr, hf.wf, hf.leaf, hf.kept, fun l _ hxl hne hl => ?_, fun p hp hpx hne => ?_⟩
  · exact hne (hf.leaf.eq_of_above hl hxl)
  · exact ⟨fun hl => hne (hl.eq_of_above hf.leaf hpx).symm, fun c => hf.filled p c hp hpx⟩

theorem force_to_leaf_disturbs_little_right : Halves.four.Wf ∧
    ∃ T', Halves.four.forceToLeaf Halves.right.enc = some (T', true) ∧ T'.Leaf Halves.right := by
  have hwf := Wf.of_run Halves.run_four
  have hr : (Halves.four.forceToLeaf Halves.right.enc).map Prod.snd = some true := by
    decide +kernel
  obtain ⟨T', _, hT', _, _, hx, _⟩ := force_to_leaf_disturbs_little hwf Halves.right
  rw [hT'] at hr
  cases hr
  exact ⟨hwf, T', hT', hx⟩

end FragTree

end Ceph.Include
