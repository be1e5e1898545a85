import Mathlib.Algebra.GroupWithZero.Nat
import Mathlib.Order.Interval.Finset.Nat

set_option autoImplicit false

/-!
# Finite sets of natural numbers as lists of intervals

An interval is a start and a length.  A list of intervals is canonical when the
intervals are not empty, in order, and leave a gap between each other; then it is
determined by the numbers that it covers, and their number is the sum of the
lengths.  `Emitted` is the invariant of an algorithm that produces such a list
from left to right.
-/

namespace Ceph.Lib

open List

/-- Starts and lengths of intervals. -/
abbrev Runs := List (Nat × Nat)

/-- The number `x` lies in one of the intervals. -/
def Covered (l : Runs) (x : Nat) : Prop := ∃ p ∈ l, p.1 ≤ x ∧ x < p.1 + p.2

/-- Intervals that are not empty, in order, with a gap between any two. -/
@[mk_iff] structure Canonical (l : Runs) : Prop where
  pos : ∀ p ∈ l, 0 < p.2
  sep : l.Pairwise fun p q => p.1 + p.2 < q.1

/-- The sum of the lengths. -/
def total (l : Runs) : Nat := (l.map Prod.snd).sum

/-- The numbers that the intervals cover. -/
def points (l : Runs) : Finset Nat := l.toFinset.biUnion fun p => Finset.Ico p.1 (p.1 + p.2)

section

variable {l l' : Runs} {p : Nat × Nat} {x : Nat}

@[simp] theorem covered_nil : ¬ Covered [] x := by
  rintro ⟨_, hp, -⟩
  exact absurd hp not_mem_nil

@[simp] theorem covered_cons : Covered (p :: l) x ↔ p.1 ≤ x ∧ x < p.1 + p.2 ∨ Covered l x := by
  simp only [Covered, mem_cons, exists_eq_or_imp]

@[simp] theorem covered_append : Covered (l ++ l') x ↔ Covered l x ∨ Covered l' x := by
  simp only [Covered, mem_append, or_and_right, exists_or]

/-- Intervals that end before a number do not matter for it. -/
theorem covered_append_of_past {b : Nat} (h : ∀ p ∈ l, p.1 + p.2 ≤ b) (hx : b ≤ x) :
    Covered (l ++ l') x ↔ Covered l' x := by
  rw [covered_append]
  refine or_iff_right ?_
  rintro ⟨p, hp, -, _⟩
  have := h p hp
  omega

theorem covered_of_mem (hp : p ∈ l) (hlo : p.1 ≤ x) (hhi : x < p.1 + p.2) : Covered l x :=
  ⟨p, hp, hlo, hhi⟩

@[simp] theorem mem_points : x ∈ points l ↔ Covered l x := by
  simp only [points, Finset.mem_biUnion, mem_toFinset, Finset.mem_Ico, Covered]

@[simp] theorem total_nil : total [] = 0 := rfl

@[simp] theorem total_cons : total (p :: l) = p.2 + total l := by
  rw [total, map_cons, sum_cons, total]

@[simp] theorem total_append : total (l ++ l') = total l + total l' := by
  rw [total, map_append, sum_append, total, total]

/-! ## Canonical lists -/

theorem canonical_nil : Canonical [] := ⟨nofun, List.Pairwise.nil⟩

theorem canonical_append :
    Canonical (l ++ l') ↔
      Canonical l ∧ Canonical l' ∧ ∀ p ∈ l, ∀ q ∈ l', p.1 + p.2 < q.1 := by
  simp only [canonical_iff, forall_mem_append, pairwise_append]
  tauto

theorem canonical_cons : Canonical (p :: l) ↔ 0 < p.2 ∧ Canonical l ∧ ∀ q ∈ l, p.1 + p.2 < q.1 := by
  simp only [canonical_iff, forall_mem_cons, pairwise_cons]
  tauto

theorem canonical_singleton (hpos : 0 < p.2) : Canonical [p] :=
  canonical_cons.2 ⟨hpos, canonical_nil, nofun⟩

section

variable (h : Canonical (p :: l))

include h

/-- What the later intervals cover lies beyond the gap after the first one. -/
theorem Canonical.lt_of_covered_tail (hx : Covered l x) : p.1 + p.2 < x := by
  obtain ⟨q, hq, hlo, -⟩ := hx
  exact lt_of_lt_of_le ((canonical_cons.1 h).2.2 q hq) hlo

/-- The start of the first interval is the least number covered. -/
theorem Canonical.le_of_covered (hx : Covered (p :: l) x) : p.1 ≤ x := by
  obtain hp | hl := covered_cons.1 hx
  · exact hp.1
  · exact Nat.le_of_lt (Nat.lt_of_le_of_lt (Nat.le_add_right _ _) (h.lt_of_covered_tail hl))

theorem Canonical.tail : Canonical l := (canonical_cons.1 h).2.1

theorem Canonical.head_pos : 0 < p.2 := (canonical_cons.1 h).1

theorem Canonical.covered_head : Covered (p :: l) p.1 :=
  covered_of_mem mem_cons_self le_rfl (Nat.lt_add_of_pos_right h.head_pos)

/-- Right after the first interval there is a number that is not covered. -/
theorem Canonical.not_covered_stop : ¬ Covered (p :: l) (p.1 + p.2) := by
  intro hx
  obtain hp | hl := covered_cons.1 hx
  · exact lt_irrefl _ hp.2
  · exact lt_irrefl _ (h.lt_of_covered_tail hl)

theorem Canonical.tail_covered_iff : Covered l x ↔ Covered (p :: l) x ∧ p.1 + p.2 ≤ x := by
  constructor
  · intro hx
    exact ⟨covered_cons.2 (.inr hx), le_of_lt (h.lt_of_covered_tail hx)⟩
  · rintro ⟨hx, hge⟩
    exact (covered_cons.1 hx).resolve_left fun hp => not_lt.2 hge hp.2

end

/-- A canonical list is determined by what it covers.  The first intervals start at the least
number covered and end at the first that is not. -/
theorem Canonical.ext (h : Canonical l) (h' : Canonical l')
    (heq : ∀ x, Covered l x ↔ Covered l' x) : l = l' := by
  induction l generalizing l' with
  | nil =>
    cases l' with
    | nil => rfl
    | cons q => exact absurd ((heq q.1).2 h'.covered_head) covered_nil
  | cons p _ ih =>
    cases l' with
    | nil => exact absurd ((heq p.1).1 h.covered_head) covered_nil
    | cons q =>
      have hstart : p.1 = q.1 :=
        le_antisymm (h.le_of_covered ((heq q.1).2 h'.covered_head))
          (h'.le_of_covered ((heq p.1).1 h.covered_head))
      have hlen : p.2 = q.2 := by
        have hp := h.not_covered_stop
        have hq := h'.not_covered_stop
        rw [heq, covered_cons] at hp
        rw [← heq, covered_cons] at hq
        omega
      obtain rfl : p = q := Prod.ext hstart hlen
      refine congrArg (p :: ·) (ih h.tail h'.tail fun x => ?_)
      rw [h.tail_covered_iff, h'.tail_covered_iff, heq]

theorem points_cons : points (p :: l) = Finset.Ico p.1 (p.1 + p.2) ∪ points l := by
  ext x
  rw [Finset.mem_union, Finset.mem_Ico, mem_points, mem_points, covered_cons]

theorem Canonical.disjoint_points (h : Canonical (p :: l)) :
    Disjoint (Finset.Ico p.1 (p.1 + p.2)) (points l) := by
  rw [Finset.disjoint_left]
  intro _ hx hl
  have hlt := h.lt_of_covered_tail (mem_points.1 hl)
  exact absurd (Finset.mem_Ico.1 hx).2 (not_lt.2 hlt.le)

/-- The number of points is the sum of the lengths. -/
theorem Canonical.card_points (h : Canonical l) : (points l).card = total l := by
  induction l with
  | nil => rfl
  | cons _ _ ih =>
    rw [points_cons, Finset.card_union_of_disjoint h.disjoint_points, Nat.card_Ico, ih h.tail,
      total_cons, Nat.add_sub_cancel_left]

end

/-! ## Producing a canonical list from left to right -/

/-- The list `acc` has been produced, what is still to come is `rest`, beyond a gap after all
of it, and together they cover `target`. -/
structure Emitted (acc : Runs) (rest target : Nat → Prop) : Prop where
  canonical : Canonical acc
  ahead : ∀ p ∈ acc, ∀ x, rest x → p.1 + p.2 < x
  covers : ∀ x, target x ↔ Covered acc x ∨ rest x

section

variable {acc : Runs} {rest rest' target : Nat → Prop}

theorem Emitted.start (target : Nat → Prop) : Emitted [] target target :=
  ⟨canonical_nil, nofun, fun _ => by simp⟩

theorem Emitted.congr (h : Emitted acc rest target) (heq : ∀ x, rest x ↔ rest' x) :
    Emitted acc rest' target :=
  ⟨h.canonical, fun p hp x hx => h.ahead p hp x ((heq x).2 hx),
    fun x => (h.covers x).trans (or_congr_right (heq x))⟩

/-- An interval of what is still to come, with nothing left directly behind it. -/
theorem Emitted.emit (h : Emitted acc rest target) {start len : Nat} (hlen : 0 < len)
    (heq : ∀ x, rest x ↔ start ≤ x ∧ x < start + len ∨ rest' x)
    (hgap : ∀ x, rest' x → start + len < x) : Emitted (acc ++ [(start, len)]) rest' target where
  canonical := by
    have hstart : rest start := (heq start).2 (Or.inl ⟨le_rfl, Nat.lt_add_of_pos_right hlen⟩)
    refine canonical_append.2 ⟨h.canonical, canonical_singleton hlen, fun p hp q hq => ?_⟩
    rw [mem_singleton.1 hq]
    exact h.ahead p hp start hstart
  ahead := by
    intro p hp x hx
    obtain hp | hp := mem_append.1 hp
    · exact h.ahead p hp x ((heq x).2 (Or.inr hx))
    · rw [mem_singleton.1 hp]
      exact hgap x hx
  covers := by
    intro x
    rw [h.covers, heq, covered_append, covered_cons, or_assoc]
    simp

theorem Emitted.done (h : Emitted acc rest target) (hdone : ∀ x, ¬ rest x) :
    Canonical acc ∧ ∀ x, Covered acc x ↔ target x :=
  ⟨h.canonical, fun x => by rw [h.covers, or_iff_left (hdone x)]⟩

end

end Ceph.Lib
