import Mathlib.Algebra.BigOperators.Group.List.Basic
import Mathlib.Algebra.GroupWithZero.Nat
import Mathlib.Data.List.Nodup
import Ceph.Lib.SplitTree

set_option autoImplicit false

/-!
# Loops over an explicit stack of tree nodes

The loop pops a node, updates its result and either returns or pushes more
nodes; it ends when the stack is empty.  Its rule asks for an invariant and a
weight that every pop lowers, and gives termination together with the
postcondition.  The instance for split trees collects leaves: its frontier of
pending nodes is pairwise disjoint, so no leaf is found twice.
-/

namespace Ceph.Lib

open List

section Loop

variable {σ τ N M : Type}

/-- Pop a node and act on it: `none` returns at once, `some pushed` appends the
nodes at the back of the stack.  The head of the list is the top of the stack. -/
def stackLoop (step : σ → N → σ × Option (List N)) : Nat → σ → List N → Option σ
  | _, st, [] => some st
  | 0, _, _ :: _ => none
  | fuel + 1, st, t :: stack =>
    match (step st t).2 with
    | none => some (step st t).1
    | some pushed => stackLoop step fuel (step st t).1 (pushed.reverse ++ stack)

/-- The rule of the loop: an invariant of result and stack that every pop keeps unless
the loop returns there, and a weight of the stack that every pop lowers. -/
theorem stackLoop_spec {step : σ → N → σ × Option (List N)} (Inv : σ → List N → Prop)
    {Post : σ → Prop} {weight : N → Nat} (hpos : ∀ t, 0 < weight t)
    (hdone : ∀ st, Inv st [] → Post st)
    (hstep : ∀ st t stack, Inv st (t :: stack) → (∃ st', step st t = (st', none) ∧ Post st') ∨
        ∃ st' pushed, step st t = (st', some pushed) ∧ Inv st' (pushed.reverse ++ stack) ∧
          (pushed.map weight).sum < weight t) (fuel : Nat) (st : σ) (stack : List N)
    (hinv : Inv st stack) (hfuel : (stack.map weight).sum ≤ fuel) :
    ∃ st', stackLoop step fuel st stack = some st' ∧ Post st' := by
  induction fuel generalizing st stack with
  | zero =>
    cases stack with
    | nil => exact ⟨st, rfl, hdone st hinv⟩
    | cons t =>
      have hw := hpos t
      simp only [map_cons, sum_cons] at hfuel
      omega
  | succ _ ih =>
    cases stack with
    | nil => exact ⟨st, rfl, hdone st hinv⟩
    | cons t stack =>
      simp only [stackLoop]
      obtain ⟨st', heq, hpost⟩ | ⟨st', pushed, heq, hinv', _⟩ := hstep st t stack hinv
      · rw [heq]
        exact ⟨st', rfl, hpost⟩
      · rw [heq]
        refine ih _ _ hinv' ?_
        simp only [map_append, map_reverse, sum_append, sum_reverse, map_cons, sum_cons] at hfuel ⊢
        omega

/-- A loop over encoded nodes does what the loop over the nodes does. -/
theorem stackLoop_map {stepN : σ → N → σ × Option (List N)} {stepM : τ → M → τ × Option (List M)}
    (g : σ → τ) (e : N → M)
    (h : ∀ st t, stepM (g st) (e t) = (g (stepN st t).1, (stepN st t).2.map (List.map e)))
    (fuel : Nat) (st : σ) (stack : List N) : stackLoop stepM fuel (g st) (stack.map e) =
      (stackLoop stepN fuel st stack).map g := by
  induction fuel generalizing st stack with
  | zero => cases stack <;> rfl
  | succ _ ih =>
    cases stack with
    | nil => rfl
    | cons t =>
      cases hpop : (stepN st t).2 with
      | none => simp only [map_cons, stackLoop, h, hpop, Option.map_none, Option.map_some]
      | some =>
        simp only [map_cons, stackLoop, h, hpop, Option.map_some]
        rw [← ih, map_append, map_reverse]

end Loop

/-! ## Frontiers of a split tree -/

section Explore

open Levels

variable {N : Type} (L : Levels N)

/-- No node lies below two of the nodes listed. -/
def Frontier (stack : List N) : Prop := stack.Pairwise fun a b => ∀ v, L.Above a v → ¬ L.Above b v

/-- `kids` lists the children of every split node, each once, and is light
enough for a loop over them to end. -/
structure Kids (sp : N → Nat) (kids : N → List N) (weight : N → Nat) : Prop where
  mem_iff : ∀ {t c : N}, sp t ≠ 0 → (c ∈ kids t ↔ L.Child sp t c)
  nodup : ∀ {t : N}, sp t ≠ 0 → (kids t).Nodup
  pos : ∀ t, 0 < weight t
  lighter : ∀ {t : N}, sp t ≠ 0 → ((kids t).map weight).sum < weight t

variable {L} {sp : N → Nat} {kids : N → List N} {weight : N → Nat}

/-- Replacing the top of a frontier by its children gives a frontier. -/
theorem Frontier.push (hk : Kids L sp kids weight) {t : N} {stack : List N}
    (hf : Frontier L (t :: stack)) (hsp : sp t ≠ 0) : Frontier L ((kids t).reverse ++ stack) := by
  obtain ⟨htop, htail⟩ := pairwise_cons.1 hf
  refine pairwise_append.2 ⟨pairwise_reverse.2 ?_, htail, ?_⟩
  · -- two children of one node are at the same level
    refine (hk.nodup hsp).imp_of_mem fun ha hb hne v hbv hav => hne ?_
    have hca := (hk.mem_iff hsp).1 ha
    have hcb := (hk.mem_iff hsp).1 hb
    exact hav.eq_of_level hbv (hca.2.1.trans hcb.2.1.symm)
  · intro a ha s hs v hav
    have hca := (hk.mem_iff hsp).1 (mem_reverse.1 ha)
    exact htop s hs v (hca.2.2.trans hav)

/-- What is reached from a split node is the node or reached from a child. -/
theorem Kids.reach_iff (hk : Kids L sp kids weight) {t u : N} (hsp : sp t ≠ 0) :
    L.Reach sp t u ↔ u = t ∨ ∃ c ∈ kids t, L.Reach sp c u := by
  constructor
  · intro h
    obtain heq | hc := h.cases_head
    · exact .inl heq.symm
    · obtain ⟨c, hc, hrest⟩ := hc
      exact .inr ⟨c, (hk.mem_iff hsp).2 hc, hrest⟩
  · rintro (rfl | ⟨c, hc, hrest⟩)
    · exact .refl
    · exact .head ((hk.mem_iff hsp).1 hc) hrest

/-- The leaves below a split node are those below its children. -/
theorem Kids.leaf_iff (hk : Kids L sp kids weight) {t l : N} (hsp : sp t ≠ 0) :
    L.Leaf sp t l ↔ ∃ c ∈ kids t, L.Leaf sp c l := by
  constructor
  · rintro ⟨hreach, hz⟩
    obtain heq | hc := (hk.reach_iff hsp).1 hreach
    · exact absurd (heq ▸ hz) hsp
    · obtain ⟨c, hc, hrest⟩ := hc
      exact ⟨c, hc, hrest, hz⟩
  · rintro ⟨c, hc, hrest, hz⟩
    exact ⟨(hk.reach_iff hsp).2 (.inr ⟨c, hc, hrest⟩), hz⟩

/-! ## Collecting the leaves -/

/-- One pop of the loop that collects leaves: skip the nodes not worth keeping,
push the children of a split node, take an unsplit one if it is wanted. -/
def exploreStep (sp : N → Nat) (kids : N → List N) (keep take : N → Bool)
    (found : List N) (t : N) : List N × Option (List N) :=
  if keep t then
    if sp t ≠ 0 then (found, some (kids t))
    else if take t then (found ++ [t], some [])
    else (found, some [])
  else (found, some [])

/-- The leaves found so far and those below the frontier are the leaves wanted. -/
structure Exploring (L : Levels N) (sp : N → Nat) (take : N → Bool) (start : N)
    (found stack : List N) : Prop where
  frontier : Frontier L stack
  nodup : found.Nodup
  apart : ∀ l ∈ found, ∀ s ∈ stack, ¬ L.Above s l
  wanted : ∀ l, (l ∈ found ∨ ∃ s ∈ stack, L.Leaf sp s l ∧ take l = true) ↔
    L.Leaf sp start l ∧ take l = true

namespace Exploring

variable {take : N → Bool} {start t : N} {found stack : List N}

theorem init : Exploring L sp take start [] [start] where
  frontier := pairwise_singleton _ _
  nodup := nodup_nil
  apart := nofun
  wanted := by simp

/-- Drop a node below which nothing is wanted. -/
theorem skip (h : Exploring L sp take start found (t :: stack))
    (hnone : ∀ l, L.Leaf sp t l → take l = false) : Exploring L sp take start found stack where
  frontier := (pairwise_cons.1 h.frontier).2
  nodup := h.nodup
  apart := fun l hl s hs => h.apart l hl s (mem_cons_of_mem _ hs)
  wanted := by
    intro l
    rw [← h.wanted l]
    constructor
    · rintro (hl | ⟨s, hs, hls⟩)
      · exact .inl hl
      · exact .inr ⟨s, mem_cons_of_mem _ hs, hls⟩
    · rintro (hl | ⟨s, hs, hleaf, htake⟩)
      · exact .inl hl
      · obtain heq | hs := mem_cons.1 hs
        · rw [hnone l (heq ▸ hleaf)] at htake
          exact absurd htake Bool.false_ne_true
        · exact .inr ⟨s, hs, hleaf, htake⟩

/-- Replace a split node by its children. -/
theorem push (hk : Kids L sp kids weight) (h : Exploring L sp take start found (t :: stack))
    (hsp : sp t ≠ 0) : Exploring L sp take start found ((kids t).reverse ++ stack) where
  frontier := h.frontier.push hk hsp
  nodup := h.nodup
  apart := by
    intro l hl s hs habove
    obtain hs | hs := mem_append.1 hs
    · have hc := (hk.mem_iff hsp).1 (mem_reverse.1 hs)
      exact h.apart l hl t mem_cons_self (hc.2.2.trans habove)
    · exact h.apart l hl s (mem_cons_of_mem _ hs) habove
  wanted := by
    intro l
    rw [← h.wanted l]
    refine or_congr_right ?_
    simp only [mem_append, mem_reverse, mem_cons, or_and_right, exists_or,
      exists_eq_left, hk.leaf_iff hsp]
    refine or_congr_left ?_
    constructor
    · rintro ⟨c, hc, hl, htake⟩
      exact ⟨⟨c, hc, hl⟩, htake⟩
    · rintro ⟨⟨c, hc, hl⟩, htake⟩
      exact ⟨c, hc, hl, htake⟩

/-- Take an unsplit node. -/
theorem found_leaf (h : Exploring L sp take start found (t :: stack)) (hsp : sp t = 0)
    (htake : take t = true) : Exploring L sp take start (found ++ [t]) stack where
  frontier := (pairwise_cons.1 h.frontier).2
  nodup := by
    refine nodup_append.2 ⟨h.nodup, nodup_singleton t, ?_⟩
    rintro l hl _ hm rfl
    obtain rfl := mem_singleton.1 hm
    exact h.apart l hl l mem_cons_self (above_refl l)
  apart := by
    intro l hl s hs habove
    obtain hl | hl := mem_append.1 hl
    · exact h.apart l hl s (mem_cons_of_mem _ hs) habove
    · obtain rfl := mem_singleton.1 hl
      exact (pairwise_cons.1 h.frontier).1 s hs l (above_refl l) habove
  wanted := by
    intro l
    rw [← h.wanted l]
    have hleaf : L.Leaf sp t l ∧ take l = true ↔ l = t := by
      constructor
      · rintro ⟨⟨hreach, _⟩, _⟩
        exact Reach.eq_of_unsplit hreach hsp
      · rintro rfl
        exact ⟨⟨.refl, hsp⟩, htake⟩
    simp only [mem_append, mem_cons, not_mem_nil, or_and_right, exists_or,
      exists_eq_left, hleaf, or_assoc, false_or]

end Exploring

/-- The loop ends and has collected, each once, the wanted leaves below its
start, provided every node above a wanted leaf is kept. -/
theorem explore_spec (hk : Kids L sp kids weight) {keep take : N → Bool} {start : N}
    (hkeep : ∀ t l, L.Leaf sp t l → take l = true → keep t = true) {fuel : Nat}
    (hfuel : weight start ≤ fuel) :
    ∃ found, stackLoop (exploreStep sp kids keep take) fuel [] [start] = some found ∧
      found.Nodup ∧ ∀ l, l ∈ found ↔ L.Leaf sp start l ∧ take l = true := by
  refine stackLoop_spec (Exploring L sp take start) hk.pos ?_ ?_ fuel [] [start]
    Exploring.init hfuel
  · intro found h
    exact ⟨h.nodup, fun l => by simpa using h.wanted l⟩
  · intro found t _ h
    unfold exploreStep
    refine .inr ?_
    split
    next hkeepT =>
      split
      next hsp => exact ⟨_, _, rfl, h.push hk hsp, hk.lighter hsp⟩
      next hsp =>
        have hz : sp t = 0 := not_not.1 hsp
        split
        next htake => exact ⟨_, _, rfl, h.found_leaf hz htake, hk.pos t⟩
        next htake =>
          refine ⟨_, _, rfl, h.skip fun l hl => ?_, hk.pos t⟩
          rw [Reach.eq_of_unsplit hl.1 hz]
          exact Bool.eq_false_iff.2 htake
    next hkeepT =>
      refine ⟨_, _, rfl, h.skip fun l hl => Bool.eq_false_iff.2 fun htake => ?_, hk.pos t⟩
      exact hkeepT (hkeep t l hl htake)

end Explore

end Ceph.Lib
