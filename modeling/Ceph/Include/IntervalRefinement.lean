import Ceph.Include.IntervalAlgebra

set_option autoImplicit false

/-!
# `interval_set` refines finite sets

A program holds `interval_set` objects under names and runs operations on them.  The same
program on finite sets says what each operation is for.  As long as the preconditions of the
operations hold, no assertion fires and at every point each object represents its set, so that
its map is canonical and all queries give the answer of the set.
-/

namespace Ceph.Include

open Ceph.Lib Finset Function IntervalSet

/-- The operations, on objects that are given by name; the first name is that of the object
on which the method is called. -/
inductive Op where
  | insert (this start len : Nat)
  | erase (this start len : Nat)
  | insertSet (this a : Nat)
  | subtract (this a : Nat)
  | intersectionOf (this a b : Nat)
  | intersectWith (this b : Nat)
  | unionOf (this a b : Nat)
  | unionWith (this b : Nat)
  | unionInsert (this off len : Nat)
  | spanOf (this other start len : Nat)
  deriving DecidableEq, Repr

namespace Op

/-- The object that the operation changes. -/
def this : Op → Nat
  | insert t _ _ => t
  | erase t _ _ => t
  | insertSet t _ => t
  | subtract t _ => t
  | intersectionOf t _ _ => t
  | intersectWith t _ => t
  | unionOf t _ _ => t
  | unionWith t _ => t
  | unionInsert t _ _ => t
  | spanOf t _ _ _ => t

/-- The new value of the object.  The forms with one argument swap the old value out first;
intersection and union then assert that neither argument is the object itself. -/
def value (e : Nat → IntervalSet) : Op → Option IntervalSet
  | insert t start len => (e t).insert start len
  | erase t start len => (e t).erase start len
  | insertSet t a => (e t).insertSet (e a)
  | subtract t a => (e t).subtract (e a)
  | intersectionOf t a b =>
    if a = t ∨ b = t then none else IntervalSet.intersectionOf (e a) (e b)
  | intersectWith t b => if b = t then none else IntervalSet.intersectionOf (e t) (e b)
  | unionOf t a b => if a = t ∨ b = t then none else IntervalSet.unionOf (e a) (e b)
  | unionWith t b => if b = t then none else IntervalSet.unionOf (e t) (e b)
  | unionInsert t off len => (e t).unionInsert off len
  | spanOf _ other start len => IntervalSet.spanOf (e other) start len

/-- One operation of the program. -/
def run (e : Nat → IntervalSet) (op : Op) : Option (Nat → IntervalSet) :=
  (op.value e).map (Function.update e op.this)

/-- The new value on finite sets. -/
def setValue (S : Nat → Finset Nat) : Op → Finset Nat
  | insert t start len => S t ∪ Finset.Ico start (start + len)
  | erase t start len => S t \ Finset.Ico start (start + len)
  | insertSet t a => S t ∪ S a
  | subtract t a => S t \ S a
  | intersectionOf _ a b => S a ∩ S b
  | intersectWith t b => S t ∩ S b
  | unionOf _ a b => S a ∪ S b
  | unionWith t b => S t ∪ S b
  | unionInsert t off len => S t ∪ Finset.Ico off (off + len)
  | spanOf _ other start len => spanSet (S other) start len

/-- One operation on finite sets. -/
def effect (S : Nat → Finset Nat) (op : Op) : Nat → Finset Nat :=
  Function.update S op.this (op.setValue S)

/-- The preconditions, for offsets up to `max`: ranges are not empty and end within the type,
what is inserted is disjoint from the set, what is erased is contained in it, and the sets
that are read are other objects. -/
def Allowed (max : Nat) (S : Nat → Finset Nat) : Op → Prop
  | insert t start len =>
    0 < len ∧ start + len ≤ max ∧ Disjoint (S t) (Finset.Ico start (start + len))
  | erase t start len => 0 < len ∧ Finset.Ico start (start + len) ⊆ S t
  | insertSet t a => a ≠ t ∧ Disjoint (S t) (S a)
  | subtract t a => a ≠ t ∧ S a ⊆ S t
  | intersectionOf t a b => a ≠ t ∧ b ≠ t
  | intersectWith t b => b ≠ t
  | unionOf t a b => a ≠ t ∧ b ≠ t
  | unionWith t b => b ≠ t
  | unionInsert _ off len => 0 < len ∧ off + len ≤ max
  | spanOf t other start len => other ≠ t ∧ 0 < len ∧ start + len ≤ max

instance (max : Nat) (S : Nat → Finset Nat) : (op : Op) → Decidable (op.Allowed max S)
  | insert _ _ _ => inferInstanceAs (Decidable (_ ∧ _ ∧ _))
  | erase _ _ _ => inferInstanceAs (Decidable (_ ∧ _))
  | insertSet _ _ => inferInstanceAs (Decidable (_ ∧ _))
  | subtract _ _ => inferInstanceAs (Decidable (_ ∧ _))
  | intersectionOf _ _ _ => inferInstanceAs (Decidable (_ ∧ _))
  | intersectWith _ _ => inferInstanceAs (Decidable (_ ≠ _))
  | unionOf _ _ _ => inferInstanceAs (Decidable (_ ∧ _))
  | unionWith _ _ => inferInstanceAs (Decidable (_ ≠ _))
  | unionInsert _ _ _ => inferInstanceAs (Decidable (_ ∧ _))
  | spanOf _ _ _ _ => inferInstanceAs (Decidable (_ ∧ _ ∧ _))

/-- The preconditions of all operations of a program, each where it is run. -/
def AllowedAll (max : Nat) : (Nat → Finset Nat) → List Op → Prop
  | _, [] => True
  | S, op :: ops => op.Allowed max S ∧ AllowedAll max (op.effect S) ops

instance decidableAllowedAll (max : Nat) :
    (S : Nat → Finset Nat) → (ops : List Op) → Decidable (AllowedAll max S ops)
  | _, [] => inferInstanceAs (Decidable True)
  | S, op :: ops =>
    have := decidableAllowedAll max (op.effect S) ops
    inferInstanceAs (Decidable (_ ∧ _))

end Op

variable {e : Nat → IntervalSet} {S : Nat → Finset Nat} {max : Nat} {op : Op}

/-- One operation gives the value that it has on sets. -/
theorem Op.value_rep (h : ∀ t, Rep (e t) (S t)) (hop : op.Allowed max S) :
    ∃ v, op.value e = some v ∧ Rep v (op.setValue S) := by
  cases op with
  | insert t =>
    refine (h t).insert hop.1 fun x hlo hhi hx => ?_
    exact disjoint_left.1 hop.2.2 hx (mem_Ico.2 ⟨hlo, hhi⟩)
  | erase t => exact (h t).erase hop.1 fun x hlo hhi => hop.2 (mem_Ico.2 ⟨hlo, hhi⟩)
  | insertSet t a => exact (h t).insertSet (h a) hop.2
  | subtract t a => exact (h t).subtract (h a) hop.2
  | intersectionOf _ a b =>
    rw [Op.value, if_neg (not_or.2 hop)]
    exact intersectionOf_rep (h a) (h b)
  | intersectWith t b =>
    rw [Op.value, if_neg hop]
    exact intersectionOf_rep (h t) (h b)
  | unionOf _ a b =>
    rw [Op.value, if_neg (not_or.2 hop)]
    exact unionOf_rep (h a) (h b)
  | unionWith t b =>
    rw [Op.value, if_neg hop]
    exact unionOf_rep (h t) (h b)
  | unionInsert t => exact unionInsert_rep (h t) hop.1
  | spanOf _ other start => exact spanOf_rep (h other) start hop.2.1

/-- One operation keeps every object in step with its set. -/
theorem Op.run_rep (h : ∀ t, Rep (e t) (S t)) (hop : op.Allowed max S) :
    ∃ e', op.run e = some e' ∧ ∀ t, Rep (e' t) (op.effect S t) := by
  obtain ⟨v, hv, hrep⟩ := Op.value_rep h hop
  refine ⟨update e op.this v, by rw [Op.run, hv]; rfl, fun t => ?_⟩
  rw [Op.effect]
  by_cases ht : t = op.this
  · subst ht
    rw [update_self, update_self]
    exact hrep
  · rw [update_of_ne ht, update_of_ne ht]
    exact h t

/-- The elements stay below the bound. -/
theorem Op.effect_lt (hS : ∀ t, ∀ x ∈ S t, x < max) (hop : op.Allowed max S) (t : Nat) :
    ∀ x ∈ op.effect S t, x < max := by
  have hunion : ∀ {A B : Finset Nat}, (∀ x ∈ A, x < max) → (∀ x ∈ B, x < max) →
      ∀ x ∈ A ∪ B, x < max := fun hA hB x hx => (mem_union.1 hx).elim (hA x) (hB x)
  have hico : ∀ {a b : Nat}, b ≤ max → ∀ x ∈ Finset.Ico a b, x < max :=
    fun hb x hx => lt_of_lt_of_le (mem_Ico.1 hx).2 hb
  have hvalue : ∀ x ∈ op.setValue S, x < max := by
    cases op with
    | insert t => exact hunion (hS t) (hico hop.2.1)
    | erase t => exact fun x hx => hS t x (mem_sdiff.1 hx).1
    | insertSet t a => exact hunion (hS t) (hS a)
    | subtract t => exact fun x hx => hS t x (mem_sdiff.1 hx).1
    | intersectionOf _ a => exact fun x hx => hS a x (mem_inter.1 hx).1
    | intersectWith t => exact fun x hx => hS t x (mem_inter.1 hx).1
    | unionOf _ a b => exact hunion (hS a) (hS b)
    | unionWith t b => exact hunion (hS t) (hS b)
    | unionInsert t => exact hunion (hS t) (hico hop.2)
    | spanOf _ other => exact fun x hx => hS other x (mem_filter.1 (mem_filter.1 hx).1).1
  rw [Op.effect]
  by_cases ht : t = op.this
  · subst ht
    rw [update_self]
    exact hvalue
  · rw [update_of_ne ht]
    exact hS t

/-- A whole program. -/
theorem run_rep {ops : List Op} (h : ∀ t, Rep (e t) (S t)) (hS : ∀ t, ∀ x ∈ S t, x < max)
    (hops : Op.AllowedAll max S ops) :
    ∃ e', ops.foldlM Op.run e = some e' ∧ (∀ t, Rep (e' t) (ops.foldl Op.effect S t)) ∧
      ∀ t, ∀ x ∈ ops.foldl Op.effect S t, x < max := by
  induction ops generalizing e S with
  | nil => exact ⟨e, rfl, h, hS⟩
  | cons _ _ ih =>
    obtain ⟨hop, hops⟩ := hops
    obtain ⟨e', hrun, hrep⟩ := Op.run_rep h hop
    obtain ⟨e'', hrest, hfinal⟩ := ih hrep (Op.effect_lt hS hop) hops
    refine ⟨e'', ?_, hfinal⟩
    rw [List.foldlM_cons, hrun]
    exact hrest

/-- `interval_set` implements finite sets.  Every program whose operations meet their
preconditions runs without a failed assertion.  At its end each map is canonical with ends
within the type, sizes count elements, the objects represent the sets that the program
computes, queries for ranges within the type are answered as for these, and both intersection
algorithms and both subset algorithms agree. -/
theorem intervalSet_implements_sets (ops : List Op) (hops : Op.AllowedAll max (fun _ => ∅) ops) :
    ∃ e, ops.foldlM Op.run (fun _ => {}) = some e ∧
      ∀ t, let S := ops.foldl Op.effect fun _ => ∅
        Canonical (e t).m ∧ (∀ p ∈ (e t).m, p.1 + p.2 ≤ max) ∧ points (e t).m = S t ∧
        (e t).size = (S t).card ∧
        (∀ i, (e t).contains i = true ↔ i ∈ S t) ∧
        (∀ start len, 0 < len → start + len ≤ max →
          ((e t).containsRange start len = true ↔ Finset.Ico start (start + len) ⊆ S t) ∧
          ∃ r, (e t).intersects start len = some r ∧
            (r = true ↔ (S t ∩ Finset.Ico start (start + len)).Nonempty)) ∧
        ∀ u, (∃ r, (e t).subsetOf (e u) = some r ∧ (r = true ↔ S t ⊆ S u)) ∧
          (e t).subsetSizeSym (e u) = some ((e t).subsetLookup (e u)) ∧
          ((S t).Nonempty → intersectionSizeAsym (e t) (e u) = mergeIntersection (e t) (e u) ∧
            intersectionSizeAsym (e t) (e u) =
              mergeIntersection (e u) (e t)) := by
  obtain ⟨e, hrun, hrep, hlt⟩ := run_rep (fun _ => rep_empty)
    (fun _ x hx => absurd hx (notMem_empty x)) hops
  refine ⟨e, hrun, fun t => ⟨(hrep t).canonical, fun p hp => ?_, (hrep t).points_eq,
    (hrep t).card_eq, (hrep t).contains_iff, fun start len hlen _ =>
      ⟨(hrep t).containsRange_iff start hlen, intersects_iff (hrep t) hlen⟩, fun u => ?_⟩⟩
  · have hpos := (hrep t).canonical.pos p hp
    have hlast : p.1 + p.2 - 1 < max :=
      hlt t _ (((hrep t).covered _).1 (covered_of_mem hp (by omega) (by omega)))
    omega
  · refine ⟨subsetOf_iff (hrep t) (hrep u), ?_, fun hne => ?_⟩
    · obtain ⟨r, hr, hiff⟩ := subsetSizeSym_iff (hrep t) (hrep u)
      rw [hr, Bool.eq_iff_iff.2 (hiff.trans (subsetLookup_iff (hrep t) (hrep u)).symm)]
    · obtain ⟨_, ht, hasym⟩ := intersectionSizeAsym_rep (hrep t) (hrep u) hne
      obtain ⟨_, hu, hmerge⟩ := mergeIntersection_rep (hrep t) (hrep u)
      obtain ⟨_, hv, hmerge'⟩ := mergeIntersection_rep (hrep u) (hrep t)
      rw [inter_comm] at hmerge'
      rw [ht, hu, hv, hasym.unique hmerge, hmerge.unique hmerge']
      exact ⟨rfl, rfl⟩

/-- A range inserted between two others, a part of it erased again, a union, an intersection
by lookup and a span. -/
theorem intervalSet_implements_sets_program :
    let ops : List Op := [.insert 0 0 10, .insert 0 40 20, .insert 0 10 30, .erase 0 5 3,
      .insert 1 58 4, .unionOf 2 0 1, .intersectionOf 3 2 1, .subtract 2 1, .spanOf 4 2 4 6]
    ∃ e, ops.foldlM Op.run (fun _ => {}) = some e ∧ (e 0).m = [(0, 5), (8, 52)] ∧
      points (e 4).m = {4, 8, 9, 10, 11, 12} := by
  intro ops
  obtain ⟨e, hrun, hall⟩ := intervalSet_implements_sets ops
    (by decide +kernel : Op.AllowedAll (2 ^ 64 - 1) (fun _ => ∅) ops)
  obtain ⟨-, -, hfour, -⟩ := hall 4
  have hzero : (ops.foldlM Op.run fun _ => {}).map (fun e => (e 0).m) =
      some [(0, 5), (8, 52)] := by decide +kernel
  rw [hrun] at hzero
  refine ⟨e, hrun, Option.some_inj.1 hzero, hfour.trans ?_⟩
  decide +kernel

/-- Without the precondition of `subtract` an assertion fires, here already for an element
that the set does not have. -/
theorem subtract_needs_subset :
    [Op.insert 1 5 1, .subtract 0 1].foldlM Op.run (fun _ => {}) = none := rfl

end Ceph.Include
