import Ceph.Include.Frag
import Ceph.Lib.Explore

set_option autoImplicit false

/-!
# Fragment trees (include/frag.h, `fragtree_t`)

A tree is a map from fragments to the number of bits they are split by; a
fragment that is not in the map is not split.  The functions are those of the
class, over the words of ceph_frag.h: loops over a stack carry fuel, and `none`
is a failed assertion.
-/

namespace Ceph.Include

open Ceph.Lib

/-- `fragtree_t`: `splits x` is the entry of `_splits`, zero when there is none. -/
structure FragTree where
  splits : Nat → Nat

namespace FragTree

def empty : FragTree := ⟨fun _ => 0⟩

variable (T : FragTree)

def getSplit (hb : Nat) : Nat := T.splits hb

/-- `_splits[x] = b`. -/
def set (x b : Nat) : FragTree := ⟨Function.update T.splits x b⟩

/-- `_splits.erase(x)`. -/
def erase (x : Nat) : FragTree := T.set x 0

/-- More pops than there are fragments. -/
def walkFuel : Nat := 2 ^ 25

/-! ## Queries -/

def getLeavesUnderSplit (under : Nat) : Option (List Nat) :=
  stackLoop (fun c t =>
      let nb := T.getSplit t
      if nb ≠ 0 then (c, some (fragSplit t nb))
      else (c ++ [t], some []))
    walkFuel [] [under]

def getLeaves : Option (List Nat) := T.getLeavesUnderSplit 0

/-- `frag_t::parent`, which asserts that there is one. -/
def parent (x : Nat) : Option Nat :=
  if 0 < cephFragBits x then some (cephFragParent x) else none

def getBranchLoop (T : FragTree) : Nat → Nat → Option Nat
  | 0, _ => none
  | fuel + 1, x =>
    if x = 0 then some x
    else if T.getSplit x ≠ 0 then some x
    else (parent x).bind (T.getBranchLoop fuel)

def getBranch (x : Nat) : Option Nat := T.getBranchLoop 25 x

def getBranchAboveLoop (T : FragTree) : Nat → Nat → Option Nat
  | 0, _ => none
  | fuel + 1, x =>
    if x = 0 then some x
    else (parent x).bind fun p =>
      if T.getSplit p ≠ 0 then some p else T.getBranchAboveLoop fuel p

def getBranchAbove (x : Nat) : Option Nat := T.getBranchAboveLoop 25 x

def getBranchOrLeaf (x : Nat) : Option Nat :=
  (T.getBranch x).map fun branch =>
    let nb := T.getSplit branch
    if 0 < nb ∧ cephFragBits branch + nb ≤ cephFragBits x then
      cephFragMake (cephFragBits branch + nb) (cephFragValue x)
    else branch

/-- `t` is at least as specific as `x` and not contained in it. -/
def outside (x t : Nat) : Bool :=
  decide (cephFragBits x ≤ cephFragBits t) && !cephFragContainsFrag x t

def getLeavesUnder (x : Nat) : Option (List Nat) :=
  (T.getBranchOrLeaf x).bind fun start =>
    stackLoop (fun c t =>
        if outside x t then (c, some [])
        else
          let nb := T.getSplit t
          if nb ≠ 0 then (c, some (fragSplit t nb))
          else if cephFragContainsFrag x t then (c ++ [t], some [])
          else (c, some []))
      walkFuel [] [start]

def isLeaf (x : Nat) : Option Bool :=
  (T.getLeavesUnder x).map fun s => decide (s.length = 1) && (s.head? == some x)

/-- The loop of `contains`: the state is the value to return, once it is known. -/
def containsStep (x : Nat) (r : Option Bool) (t : Nat) : Option Bool × Option (List Nat) :=
  if outside x t then (r, some [])
  else
    let nb := T.getSplit t
    if nb ≠ 0 then
      if t = x then (some false, none) else (r, some (fragSplit t nb))
    else if t = x then (some true, none)
    else (r, some [])

def contains (x : Nat) : Option Bool :=
  (T.getBranch x).bind fun start =>
    (stackLoop (T.containsStep x) walkFuel none [start]).map fun r => r.getD false

/-- The loop of `operator[]`. -/
def lookupLoop (T : FragTree) (v : Nat) : Nat → Nat → Option Nat
  | 0, _ => none
  | fuel + 1, t =>
    if cephFragContainsValue t v then
      let nb := T.getSplit t
      if nb = 0 then some t
      else
        ((List.range (2 ^ nb)).find? fun i =>
            cephFragContainsValue (cephFragMakeChild t nb i) v).bind
          fun i => T.lookupLoop v fuel (cephFragMakeChild t nb i)
    else none

/-- `operator[]`. -/
def lookup (v : Nat) : Option Nat := T.lookupLoop v 25 0

/-! ## Modifiers -/

/-- The first loop of `try_assimilate_children`: the one number of bits that all
children are split by. -/
def commonSplit (T : FragTree) : List Nat → Nat → Option Nat
  | [], childbits => some childbits
  | f :: rest, childbits =>
    let cb := T.getSplit f
    if cb = 0 then none
    else if childbits ≠ 0 ∧ cb ≠ childbits then none
    else T.commonSplit rest cb

def tryAssimilateChildren (x : Nat) : FragTree :=
  let nb := T.getSplit x
  if nb = 0 then T
  else
    match T.commonSplit (fragSplit x nb) 0 with
    | none => T
    | some childbits =>
      let T' := (fragSplit x nb).foldl erase T
      T'.set x (T'.getSplit x + childbits)

/-- The end of `split` and `merge`. -/
def simplifyAbove (x : Nat) (simplify : Bool) : Option FragTree :=
  if simplify then (T.getBranchAbove x).map T.tryAssimilateChildren else some T

def split (x b : Nat) (simplify : Bool) : Option FragTree :=
  (T.isLeaf x).bind fun leaf =>
    if leaf then (T.set x b).simplifyAbove x simplify else none

def merge (x b : Nat) (simplify : Bool) : Option FragTree :=
  (T.isLeaf x).bind fun leaf =>
    if !leaf ∧ T.getSplit x = b then (T.erase x).simplifyAbove x simplify else none

/-- The loop of `force_to_leaf` that merges everything below `x`. -/
def hooverStep (st : Option FragTree) (t : Nat) : Option FragTree × Option (List Nat) :=
  match st with
  | none => (none, none)
  | some T =>
    let nb := T.getSplit t
    if nb ≠ 0 then
      match T.merge t nb false with
      | none => (none, none)
      | some T' => (some T', some (fragSplit t nb))
    else (some T, some [])

def hoover (T : FragTree) (x : Nat) : Option FragTree :=
  (stackLoop hooverStep walkFuel (some T) [x]).join

/-- The part of `force_to_leaf` that puts an intermediary split under `parent`. -/
def splitBetween (T : FragTree) (parent spread nb : Nat) : Option FragTree :=
  (T.merge parent nb false).bind fun T =>
    (T.split parent spread false).bind fun T =>
      (fragSplit parent spread).foldlM (fun T f => T.split f (nb - spread) false) T

/-- The end of `force_to_leaf`. -/
def assertLeaf (T : FragTree) (x : Nat) : Option (FragTree × Bool) :=
  if T.isLeaf x = some true then some (T, true) else none

def forceToLeaf (T : FragTree) (x : Nat) : Option (FragTree × Bool) :=
  (T.isLeaf x).bind fun leaf =>
    if leaf then some (T, false)
    else
      (T.getBranchOrLeaf x).bind fun parent =>
        if cephFragBits parent < cephFragBits x then
          let spread := cephFragBits x - cephFragBits parent
          let nb := T.getSplit parent
          if nb = 0 then
            (T.split parent spread true).bind fun T => T.assertLeaf x
          else if spread < nb then
            (T.splitBetween parent spread nb).bind fun T =>
              (T.hoover x).bind fun T => T.assertLeaf x
          else none
        else if cephFragBits parent = cephFragBits x then
          (T.hoover x).bind fun T => T.assertLeaf x
        else none

/-! ## What the queries of a fragment tree return

`sp T` is the split table of a tree on fragments.  For a bounded table, one
whose splits stay within the 24 bits, every loop ends; for a table without
orphans the queries then return what the leaves of the tree determine. -/

open List Option Frag Ceph.Lib.Levels

variable {T : FragTree} {f x : Frag}

/-- The split table of a tree, on fragments. -/
def sp (T : FragTree) (f : Frag) : Nat := T.splits f.enc

/-- Every entry is a fragment whose children still have at most 24 bits. -/
def Bounded (T : FragTree) : Prop :=
  ∀ k, T.splits k ≠ 0 → ∃ f : Frag, f.enc = k ∧ f.bits + T.sp f ≤ 24

/-- A tree as the class keeps it: bounded and without orphaned entries. -/
structure Wf (T : FragTree) : Prop where
  bounded : T.Bounded
  rooted : Frag.levels.Rooted T.sp Frag.root

/-- `l` is a leaf of the tree. -/
abbrev Leaf (T : FragTree) (l : Frag) : Prop := Frag.levels.Leaf T.sp Frag.root l

theorem getSplit_enc (T : FragTree) (f : Frag) : T.getSplit f.enc = T.sp f := rfl

theorem Bounded.le (h : T.Bounded) (hf : T.sp f ≠ 0) : f.bits + T.sp f ≤ 24 := by
  obtain ⟨_, hg, hle⟩ := h f.enc hf
  rwa [enc_injective hg] at hle

theorem Bounded.fragSplit_enc (h : T.Bounded) (hf : T.sp f ≠ 0) :
    fragSplit f.enc (T.sp f) = (f.children (T.sp f)).map enc := f.fragSplit_enc (h.le hf)

/-- The children of a bounded table, for the loops over a stack. -/
theorem Bounded.kids (h : T.Bounded) : Kids levels T.sp (fun f => f.children (T.sp f)) weight where
  mem_iff := by
    intro _ _ ht
    rw [mem_children (h.le ht)]
    exact ⟨fun hc => ⟨ht, hc.1, hc.2⟩, fun hc => ⟨hc.2.1, hc.2.2⟩⟩
  nodup := fun _ => nodup_children _ _
  pos := weight_pos
  lighter := fun ht => weight_children (h.le ht) ht

theorem weight_le_walkFuel (f : Frag) : f.weight ≤ walkFuel := by
  have h : 2 ^ (24 - f.bits) ≤ 2 ^ 24 := Nat.pow_le_pow_right (by omega) (by omega)
  rw [weight, walkFuel]
  omega

/-! ## Listing the leaves -/

theorem getLeaves_spec (h : T.Bounded) :
    ∃ ls : List Frag, T.getLeaves = some (ls.map enc) ∧ ls.Nodup ∧
      ∀ l, l ∈ ls ↔ T.Leaf l := by
  obtain ⟨ls, hloop, hnodup, hmem⟩ := explore_spec h.kids
    (fun t l _ _ => rfl : ∀ t l, levels.Leaf T.sp t l → true = true → true = true)
    (weight_le_walkFuel root)
  refine ⟨ls, ?_, hnodup, fun l => by simpa using hmem l⟩
  refine Eq.trans (b := T.getLeavesUnderSplit root.enc) rfl ?_
  refine (stackLoop_map (List.map enc) enc ?_ walkFuel [] [root]).trans
    (congrArg (Option.map (List.map enc)) hloop)
  intro _ t
  obtain hz | hpos := eq_zero_or_pos (T.sp t)
  · simp [exploreStep, getSplit_enc, hz]
  · simp [exploreStep, getSplit_enc, hpos.ne', h.fragSplit_enc hpos.ne']

/-! ## Climbing to a branch point -/

theorem parent_enc (hf : 0 < f.bits) : parent f.enc = some (f.anc (f.bits - 1)).enc := by
  rw [parent, Frag.bits_enc, if_pos hf, Frag.parent_enc f hf]

theorem enc_eq_zero : f.enc = 0 ↔ f = root := by
  rw [← enc_root, enc_inj]

theorem bits_pos_of_ne_root (hf : f ≠ Frag.root) : 0 < f.bits := by
  cases eq_zero_or_pos f.bits with
  | inr h => exact h
  | inl h =>
    refine absurd (Frag.ext h ?_) hf
    have hi := f.idx_lt
    rw [h] at hi
    exact Nat.lt_one_iff.1 hi

/-- The climb from the ancestor with `k` bits ends at the branch point. -/
theorem getBranchLoop_spec (T : FragTree) (x : Frag) (fuel k : Nat) (hfuel : k < fuel)
    (hk : k ≤ x.bits) (hnone : ∀ j, k < j → j ≤ x.bits → T.sp (x.anc j) = 0) :
    ∃ q : Frag, T.getBranchLoop fuel (x.anc k).enc = some q.enc ∧
      levels.Branch T.sp root x q := by
  induction fuel generalizing k with
  | zero => omega
  | succ _ ih =>
    have hbits : (x.anc k).bits = k := bits_anc hk
    have habove : levels.Above (x.anc k) x := anc_above hk
    rw [getBranchLoop]
    split
    next hz =>
      have hr := enc_eq_zero.1 hz
      refine ⟨x.anc k, rfl, habove, .inr hr, fun j hj => hnone j ?_⟩
      rwa [levels_level, hbits] at hj
    next hnz =>
      split
      next hsp =>
        refine ⟨x.anc k, rfl, habove, .inl hsp, fun j hj => hnone j ?_⟩
        rwa [levels_level, hbits] at hj
      next hsp =>
        have hpos := bits_pos_of_ne_root fun h => hnz (enc_eq_zero.2 h)
        have hanc : (x.anc k).anc (k - 1) = x.anc (k - 1) := levels.anc_anc (Nat.sub_le k 1) hk
        rw [parent_enc hpos, hbits, hanc]
        refine ih (k - 1) (by omega) (by omega) fun j hj hjx => ?_
        obtain hlt | _ := lt_or_ge k j
        · exact hnone j hlt hjx
        · obtain rfl : j = k := by omega
          exact not_not.1 hsp

/-- `get_branch` returns the branch point. -/
theorem getBranch_spec (T : FragTree) (x : Frag) :
    ∃ q : Frag, T.getBranch x.enc = some q.enc ∧
      levels.Branch T.sp root x q := by
  have hself : x.anc x.bits = x := levels.anc_self x
  have h := getBranchLoop_spec T x 25 x.bits (by have := x.bits_le; omega) le_rfl
    (fun j hj hjx => by omega)
  rwa [hself] at h

/-- `get_branch_above` returns some fragment. -/
theorem getBranchAbove_some (T : FragTree) (x : Frag) :
    ∃ q : Frag, T.getBranchAbove x.enc = some q.enc := by
  suffices h : ∀ fuel, x.bits < fuel → ∃ q : Frag, T.getBranchAboveLoop fuel x.enc = some q.enc from
    h 25 (by have := x.bits_le; omega)
  intro fuel hx
  induction fuel generalizing x with
  | zero => omega
  | succ _ ih =>
    rw [getBranchAboveLoop]
    split
    next => exact ⟨x, rfl⟩
    next hnz =>
      have hpos := bits_pos_of_ne_root fun h => hnz (enc_eq_zero.2 h)
      have hbits : (x.anc (x.bits - 1)).bits = x.bits - 1 := bits_anc (by omega)
      rw [parent_enc hpos, bind_some]
      split
      next => exact ⟨_, rfl⟩
      next => exact ih _ (by omega)

/-- Where `get_leaves_under` starts: the child of the branch point towards `x`
if `x` is that deep, the branch point otherwise. -/
def startOf (T : FragTree) (x q : Frag) : Frag :=
  if 0 < T.sp q ∧ q.bits + T.sp q ≤ x.bits then x.anc (q.bits + T.sp q) else q

theorem getBranchOrLeaf_spec (T : FragTree) (x : Frag) :
    ∃ q : Frag, levels.Branch T.sp root x q ∧
      T.getBranchOrLeaf x.enc = some (T.startOf x q).enc := by
  obtain ⟨q, hq, hbranch⟩ := getBranch_spec T x
  refine ⟨q, hbranch, ?_⟩
  simp only [getBranchOrLeaf, hq, map_some, getSplit_enc, bits_enc, startOf]
  split
  next h => rw [make_value_enc x h.2]
  next => rfl

/-! ## The leaves contained in a fragment -/

theorem outside_iff (x t : Frag) : outside x.enc t.enc = true ↔
    x.bits ≤ t.bits ∧ ¬ levels.Above x t := by
  rw [outside, Bool.and_eq_true, decide_eq_true_iff, bits_enc, bits_enc,
    Bool.not_eq_true', ← Bool.not_eq_true, containsFrag_enc]

variable {q t : Frag} {v : Nat}

/-- `get_leaves_under` lists, each once, the leaves below its start that the
fragment contains. -/
theorem getLeavesUnder_spec (h : T.Bounded) (hq : levels.Branch T.sp root x q) :
    ∃ ls : List Frag, T.getLeavesUnder x.enc = some (ls.map enc) ∧ ls.Nodup ∧
      ∀ l, l ∈ ls ↔ levels.Leaf T.sp (T.startOf x q) l ∧ levels.Above x l := by
  obtain ⟨_, hq', hstart⟩ := getBranchOrLeaf_spec T x
  obtain rfl := hq.unique hq' rfl
  -- a fragment above a leaf in `x` is not outside of `x`
  have hkeep : ∀ t l, levels.Leaf T.sp t l → cephFragContainsFrag x.enc l.enc = true →
      (!outside x.enc t.enc) = true := by
    intro t l hl hxl
    rw [Bool.not_eq_true', ← Bool.not_eq_true, outside_iff]
    rintro ⟨hle, hnot⟩
    exact hnot (((containsFrag_enc x l).1 hxl).of_common (Reach.above hl.1) hle)
  obtain ⟨ls, hloop, hnodup, hmem⟩ := explore_spec h.kids hkeep (weight_le_walkFuel (T.startOf x q))
  refine ⟨ls, ?_, hnodup, fun l => by rw [hmem, containsFrag_enc]⟩
  rw [getLeavesUnder, hstart, bind_some]
  refine (stackLoop_map (List.map enc) enc ?_ walkFuel [] [T.startOf x q]).trans
    (congrArg (Option.map (List.map enc)) hloop)
  intro _ t
  cases hout : outside x.enc t.enc with
  | true => simp [exploreStep, hout]
  | false =>
    cases eq_zero_or_pos (T.sp t) with
    | inr hpos => simp [exploreStep, hout, getSplit_enc, hpos.ne', h.fragSplit_enc hpos.ne']
    | inl hz =>
      cases hc : cephFragContainsFrag x.enc t.enc with
      | true | false => simp [exploreStep, hout, getSplit_enc, hz, hc]

/-- Where the search starts is the leaf above `x`, or the split node with `x`
in its inside. -/
theorem Wf.startOf_cases (h : T.Wf) (hq : levels.Branch T.sp root x q) :
    levels.Above (T.startOf x q) x ∧
      (T.Leaf (T.startOf x q) ∨ levels.Reach T.sp root (T.startOf x q) ∧ T.sp (T.startOf x q) ≠ 0 ∧
          x.bits < (T.startOf x q).bits + T.sp (T.startOf x q)) := by
  rw [startOf]
  split
  next hc => exact ⟨anc_above hc.2, .inl (hq.leaf_child h.rooted hc.1.ne' hc.2)⟩
  next hc =>
    refine ⟨hq.above, ?_⟩
    obtain hz | hpos := eq_zero_or_pos (T.sp q)
    · exact .inl (hq.leaf_self hz)
    · refine .inr ⟨hq.reach h.rooted, hpos.ne', ?_⟩
      exact not_le.1 fun hle => hc ⟨hpos, hle⟩

theorem Wf.getLeavesUnder_spec (h : T.Wf) (x : Frag) :
    ∃ ls : List Frag, T.getLeavesUnder x.enc = some (ls.map enc) ∧ ls.Nodup ∧
      ∀ l, l ∈ ls ↔ T.Leaf l ∧ levels.Above x l := by
  obtain ⟨_, hq, _⟩ := getBranchOrLeaf_spec T x
  obtain ⟨ls, hls, hnodup, hmem⟩ := FragTree.getLeavesUnder_spec h.bounded hq
  refine ⟨ls, hls, hnodup, fun l => ?_⟩
  rw [hmem]
  refine and_congr_left fun hxl => ?_
  obtain ⟨habove, hs | hs⟩ := h.startOf_cases hq
  · constructor
    · intro hl
      rwa [Reach.eq_of_unsplit hl.1 hs.2]
    · intro hl
      rw [hs.eq_of_above hl (habove.trans hxl)]
      exact ⟨.refl, hs.2⟩
  · constructor
    · intro hl
      exact ⟨hs.1.trans hl.1, hl.2⟩
    · intro hl
      exact hl.of_split hs.1 hs.2.1 (habove.trans hxl)

/-! ## Deciding whether a fragment is a leaf -/

theorem isLeaf_eq {ls : List Frag} (hls : T.getLeavesUnder x.enc = some (ls.map enc)) :
    T.isLeaf x.enc = some (decide (ls = [x])) := by
  rw [isLeaf, hls]
  cases ls with
  | nil => rfl
  | cons _ rest =>
    cases rest with
    | nil => simp [Bool.beq_eq_decide_eq]
    | cons => simp

theorem eq_singleton {ls : List Frag} (hnodup : ls.Nodup) (hx : x ∈ ls)
    (hall : ∀ l ∈ ls, l = x) : ls = [x] := by
  refine perm_singleton.1 ((perm_ext_iff_of_nodup hnodup (nodup_singleton x)).2 fun l => ?_)
  rw [mem_singleton]
  exact ⟨hall l, fun h => h ▸ hx⟩

/-- `is_leaf` in a tree without orphans. -/
theorem Wf.isLeaf_spec (h : T.Wf) (x : Frag) :
    ∃ r, T.isLeaf x.enc = some r ∧ (r = true ↔ T.Leaf x) := by
  obtain ⟨ls, hls, hnodup, hmem⟩ := h.getLeavesUnder_spec x
  refine ⟨_, isLeaf_eq hls, ?_⟩
  rw [decide_eq_true_iff]
  constructor
  · intro heq
    have hx : x ∈ ls := by rw [heq]; exact mem_singleton_self x
    exact ((hmem x).1 hx).1
  · intro hx
    refine eq_singleton hnodup ((hmem x).2 ⟨hx, above_refl x⟩) fun l hl => ?_
    exact hx.eq_of_above ((hmem l).1 hl).1 ((hmem l).1 hl).2

/-- An unsplit fragment at which the climb stops is a leaf, orphans or not. -/
theorem Bounded.isLeaf_true (h : T.Bounded) (hq : levels.Branch T.sp root x q)
    (hstart : T.startOf x q = x) (hx : T.sp x = 0) : T.isLeaf x.enc = some true := by
  obtain ⟨_, hls, hnodup, hmem⟩ := FragTree.getLeavesUnder_spec h hq
  rw [hstart] at hmem
  rw [isLeaf_eq hls, decide_eq_true]
  refine eq_singleton hnodup ((hmem x).2 ⟨⟨.refl, hx⟩, above_refl x⟩) fun l hl => ?_
  exact Reach.eq_of_unsplit ((hmem l).1 hl).1.1 hx

/-- A split fragment is no leaf, orphans or not. -/
theorem Bounded.isLeaf_false (h : T.Bounded) (hx : T.sp x ≠ 0) : T.isLeaf x.enc = some false := by
  obtain ⟨ls, hls, _, hmem⟩ := FragTree.getLeavesUnder_spec h
    ⟨above_refl x, .inl hx, fun _ hk hkx => absurd hk (not_lt.2 hkx)⟩
  rw [isLeaf_eq hls, decide_eq_false]
  intro heq
  have hin : x ∈ ls := by rw [heq]; exact mem_singleton_self x
  exact hx ((hmem x).1 hin).1.2

/-! ## `contains` -/

/-- The loop of `contains`, on fragments. -/
def containsFragStep (T : FragTree) (x : Frag) (r : Option Bool) (t : Frag) :
    Option Bool × Option (List Frag) :=
  if outside x.enc t.enc then (r, some [])
  else if T.sp t ≠ 0 then
    if t = x then (some false, none) else (r, some (t.children (T.sp t)))
  else if t = x then (some true, none)
  else (r, some [])

theorem containsStep_enc (h : T.Bounded) (x : Frag) (r : Option Bool) (t : Frag) :
    T.containsStep x.enc r t.enc =
      ((T.containsFragStep x r t).1, (T.containsFragStep x r t).2.map (List.map enc)) := by
  unfold containsStep containsFragStep
  rw [getSplit_enc]
  cases outside x.enc t.enc with
  | true => rfl
  | false =>
    obtain hz | hpos := eq_zero_or_pos (T.sp t)
    · obtain heq | hne := em (t = x)
      · simp [← heq, hz]
      · simp [hz, hne]
    · obtain heq | hne := em (t = x)
      · simp [← heq, hpos.ne']
      · simp [hpos.ne', hne, h.fragSplit_enc hpos.ne']

/-- Until the loop returns, `x` is a leaf if it is one below the stack. -/
structure Searching (T : FragTree) (x : Frag) (r : Option Bool) (stack : List Frag) :
    Prop where
  undecided : r = none
  leaf_iff : T.Leaf x ↔ ∃ s ∈ stack, Frag.levels.Leaf T.sp s x

theorem Searching.skip {r : Option Bool} {stack : List Frag} (h : Searching T x r (t :: stack))
    (ht : ¬ levels.Leaf T.sp t x) : Searching T x r stack := by
  refine ⟨h.undecided, h.leaf_iff.trans ?_⟩
  simp only [mem_cons, or_and_right, exists_or, exists_eq_left, ht, false_or]

/-- A fragment as specific as `x` and not contained in it is not above `x`. -/
theorem not_leaf_of_outside (hout : outside x.enc t.enc = true) : ¬ levels.Leaf T.sp t x := by
  rintro ⟨hreach, _⟩
  obtain ⟨hle, hnot⟩ := (outside_iff x t).1 hout
  have habove := Reach.above hreach
  have heq : t = x := habove.eq_of_level (above_refl x) (le_antisymm habove.1 hle)
  exact hnot (heq ▸ above_refl t)

/-- The loop ends with the answer. -/
theorem containsFragStep_loop (h : T.Wf) (hinit : Searching T x none [q]) :
    ∃ r, stackLoop (T.containsFragStep x) walkFuel none [q] = some r ∧
      (r.getD false = true ↔ T.Leaf x) := by
  refine stackLoop_spec (Searching T x) h.bounded.kids.pos ?_ ?_ walkFuel none [q] hinit
    (by simpa using weight_le_walkFuel q)
  · intro r hs
    rw [hs.undecided, hs.leaf_iff]
    simp
  · intro r t _ hs
    unfold containsFragStep
    split
    next hout => exact .inr ⟨_, _, rfl, hs.skip (not_leaf_of_outside hout), weight_pos t⟩
    · split
      next hsp =>
        split
        next heq =>
          refine .inl ⟨_, rfl, ?_⟩
          simp only [getD_some, Bool.false_eq_true, false_iff]
          exact fun hl => hsp (heq ▸ hl.2)
        · refine .inr ⟨_, _, rfl, ⟨hs.undecided, hs.leaf_iff.trans ?_⟩, h.bounded.kids.lighter hsp⟩
          simp only [mem_append, mem_reverse, mem_cons, or_and_right, exists_or,
            exists_eq_left, h.bounded.kids.leaf_iff hsp]
      next hsp =>
        split
        next heq =>
          refine .inl ⟨_, rfl, ?_⟩
          simp only [getD_some, true_iff]
          refine hs.leaf_iff.2 ⟨t, mem_cons_self, ?_⟩
          rw [← heq]
          exact ⟨.refl, not_not.1 hsp⟩
        next hne =>
          refine .inr ⟨_, _, rfl, hs.skip fun hl => hne ?_, weight_pos t⟩
          exact (Reach.eq_of_unsplit hl.1 (not_not.1 hsp)).symm

/-- `contains` in a tree without orphans. -/
theorem Wf.contains_spec (h : T.Wf) (x : Frag) :
    ∃ r, T.contains x.enc = some r ∧ (r = true ↔ T.Leaf x) := by
  obtain ⟨q, hq, hbranch⟩ := getBranch_spec T x
  have hinit : Searching T x none [q] := by
    refine ⟨rfl, ?_⟩
    simp only [mem_singleton, exists_eq_left]
    constructor
    · intro hx
      obtain hz | hpos := eq_zero_or_pos (T.sp q)
      · rw [(hbranch.leaf_self hz).eq_of_above hx hbranch.above]
        exact ⟨.refl, hz⟩
      · exact hx.of_split (hbranch.reach h.rooted) hpos.ne' hbranch.above
    · rintro ⟨hreach, hz⟩
      exact ⟨(hbranch.reach h.rooted).trans hreach, hz⟩
  obtain ⟨r, hr, hpost⟩ := containsFragStep_loop h hinit
  refine ⟨_, ?_, hpost⟩
  rw [contains, hq]
  have hmap := stackLoop_map id enc (containsStep_enc h.bounded x) walkFuel none [q]
  rw [hr] at hmap
  exact congrArg (Option.map fun r => r.getD false) hmap

/-! ## `operator[]` -/

/-- The child chosen by `operator[]` is the one that holds the value. -/
theorem find_child (h : T.Bounded) (hv : v < 2 ^ 24) (ht : T.sp t ≠ 0)
    (hcontains : levels.Above t (hash v hv)) :
    ∃ i c, ((List.range (2 ^ T.sp t)).find? fun i =>
          cephFragContainsValue (cephFragMakeChild t.enc (T.sp t) i) v) = some i ∧
      cephFragMakeChild t.enc (T.sp t) i = enc c ∧
      levels.Child T.sp t c ∧ levels.Above c (hash v hv) := by
  have hle := h.le ht
  have hanc : t.bits + T.sp t ≤ (hash v hv).bits := hle
  -- the ancestor of the value at that level is one of the children
  have hmem : ((hash v hv).anc (t.bits + T.sp t)).enc ∈ fragSplit t.enc (T.sp t) := by
    rw [h.fragSplit_enc ht]
    refine mem_map_of_mem ((mem_children hle).2 ⟨bits_anc hanc, ?_⟩)
    refine hcontains.of_common (anc_above hanc) ?_
    rw [levels_level, levels_level, bits_anc hanc]
    exact Nat.le_add_right _ _
  obtain ⟨j, hj, hjc⟩ := mem_map.1 hmem
  cases hfind : (List.range (2 ^ T.sp t)).find? fun i =>
      cephFragContainsValue (cephFragMakeChild t.enc (T.sp t) i) v with
  | none =>
    have hno := find?_eq_none.1 hfind j hj
    rw [hjc] at hno
    exact absurd ((containsValue_enc _ hv).2 (anc_above hanc)) hno
  | some i =>
    have hi := mem_range.1 (mem_of_find?_eq_some hfind)
    have hc := find?_some hfind
    have henc := t.makeChild_enc hle hi
    rw [henc] at hc
    refine ⟨i, t.child (T.sp t) i hle hi, rfl, henc, ?_, (containsValue_enc _ hv).1 hc⟩
    refine ⟨ht, rfl, hcontains.of_common ((containsValue_enc _ hv).1 hc) ?_⟩
    exact Nat.le_add_right _ _

theorem lookupLoop_spec (h : T.Bounded) (hv : v < 2 ^ 24) (fuel : Nat) (t : Frag)
    (hlt : 24 - t.bits < fuel) (habove : levels.Above t (hash v hv)) :
    ∃ l, T.lookupLoop v fuel t.enc = some l.enc ∧ levels.Leaf T.sp t l ∧
      levels.Above l (hash v hv) := by
  induction fuel generalizing t with
  | zero => omega
  | succ _ ih =>
    have hcontains := (containsValue_enc t hv).2 habove
    obtain hz | hpos := eq_zero_or_pos (T.sp t)
    · refine ⟨t, ?_, ⟨.refl, hz⟩, habove⟩
      rw [lookupLoop, if_pos hcontains]
      exact if_pos hz
    · obtain ⟨_, c, hfind, hchild, hc, hcv⟩ := find_child h hv hpos.ne' habove
      have hle := h.le hpos.ne'
      have hbits : c.bits = t.bits + T.sp t := hc.2.1
      obtain ⟨l, hl, hleaf, hlv⟩ := ih c (by omega) hcv
      refine ⟨l, ?_, ⟨.head hc hleaf.1, hleaf.2⟩, hlv⟩
      rw [lookupLoop, if_pos hcontains]
      refine (if_neg hpos.ne').trans ?_
      rw [getSplit_enc, hfind, bind_some, hchild, hl]

end FragTree

end Ceph.Include
