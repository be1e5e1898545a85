import Mathlib.Algebra.GroupWithZero.Nat
import Mathlib.Data.List.Chain
import Mathlib.Order.Lattice

set_option autoImplicit false

/-!
# Functions with finitely many steps, as lists of segments

A segment is a range of natural numbers with a level.  The level of a number in a list of
segments is the sum of the levels of the segments that hold it, so that it can be computed
piece by piece; in a list that is in order at most one segment holds a number.  A list is
merged when no two neighbours could be one segment.  A list under construction is a pair: the
segments in front of a position, nearest first, and those from the position on.
-/

namespace Ceph.Lib

open List

structure Segment where
  first : Nat
  length : Nat
  level : Nat
  deriving DecidableEq, Repr

namespace Segment

/-- The end of a segment, which is not part of it. -/
def stop (s : Segment) : Nat := s.first + s.length

/-- The level of a number in one segment. -/
def levelOf (s : Segment) (x : Nat) : Nat := if s.first ≤ x ∧ x < s.stop then s.level else 0

/-- Two neighbours that are not one segment. -/
def Apart (s t : Segment) : Prop := s.stop = t.first → s.level ≠ t.level

end Segment

/-- Whether a number lies in a range. -/
def inRange (first length x : Nat) : Nat := if first ≤ x ∧ x < first + length then 1 else 0

/-- The level of a number. -/
def levelAt (l : List Segment) (x : Nat) : Nat := (l.map (·.levelOf x)).sum

/-- Segments that are not empty, of a positive level, one behind the other. -/
@[mk_iff] structure InOrder (l : List Segment) : Prop where
  pos : ∀ s ∈ l, 0 < s.length ∧ 0 < s.level
  sep : l.Pairwise fun s t => s.stop ≤ t.first

/-- No two neighbours could be one segment. -/
def Merged (l : List Segment) : Prop := l.IsChain Segment.Apart

section Levels

variable {l l' : List Segment} {s t : Segment} {x : Nat}

@[simp] theorem levelAt_nil : levelAt [] x = 0 := rfl

@[simp] theorem levelAt_cons : levelAt (s :: l) x = s.levelOf x + levelAt l x := by
  rw [levelAt, map_cons, sum_cons, levelAt]

@[simp] theorem levelAt_append : levelAt (l ++ l') x = levelAt l x + levelAt l' x := by
  rw [levelAt, map_append, sum_append, levelAt, levelAt]

@[simp] theorem levelAt_reverse : levelAt l.reverse x = levelAt l x := by
  rw [levelAt, map_reverse, sum_reverse, levelAt]

theorem Segment.levelOf_of_mem (h : s.first ≤ x) (h' : x < s.stop) : s.levelOf x = s.level :=
  if_pos ⟨h, h'⟩

theorem Segment.levelOf_of_lt (h : x < s.first) : s.levelOf x = 0 := if_neg fun hx => by omega

theorem Segment.levelOf_of_ge (h : s.stop ≤ x) : s.levelOf x = 0 := if_neg fun hx => by omega

theorem levelAt_eq_zero (h : ∀ s ∈ l, s.levelOf x = 0) : levelAt l x = 0 := by
  induction l with
  | nil => rfl
  | cons s _ ih => rw [levelAt_cons, h s mem_cons_self, ih fun t ht => h t (mem_cons_of_mem _ ht)]

theorem levelAt_of_lt (h : ∀ s ∈ l, x < s.first) : levelAt l x = 0 :=
  levelAt_eq_zero fun s hs => s.levelOf_of_lt (h s hs)

theorem levelAt_of_ge (h : ∀ s ∈ l, s.stop ≤ x) : levelAt l x = 0 :=
  levelAt_eq_zero fun s hs => s.levelOf_of_ge (h s hs)

/-- A positive level comes from a segment. -/
theorem exists_of_levelAt_pos (h : 0 < levelAt l x) : ∃ s ∈ l, s.first ≤ x ∧ x < s.stop := by
  by_contra hnone
  refine ne_of_gt h (levelAt_eq_zero fun s hs => if_neg fun hx => hnone ⟨s, hs, hx⟩)

variable {first length level : Nat}

theorem levelOf_mk : (⟨first, length, level⟩ : Segment).levelOf x =
    if first ≤ x ∧ x < first + length then level else 0 := rfl

/-- A segment that is cut in two. -/
theorem levelOf_cut {a b : Nat} :
    (⟨first, a + b, level⟩ : Segment).levelOf x =
      (⟨first, a, level⟩ : Segment).levelOf x + (⟨first + a, b, level⟩ : Segment).levelOf x := by
  simp only [levelOf_mk]
  split_ifs <;> omega

theorem Segment.levelOf_cut_at {a : Nat} (h : a ≤ s.length) : s.levelOf x =
    (⟨s.first, a, s.level⟩ : Segment).levelOf x +
      (⟨s.first + a, s.length - a, s.level⟩ : Segment).levelOf x := by
  rw [← levelOf_cut, Nat.add_sub_cancel' h]

/-- A segment whose level is raised by one. -/
theorem levelOf_raise : (⟨first, length, level + 1⟩ : Segment).levelOf x =
    (⟨first, length, level⟩ : Segment).levelOf x + inRange first length x := by
  simp only [levelOf_mk, inRange]
  split_ifs <;> rfl

theorem levelOf_lower (first length : Nat) (h : 0 < level) :
    (⟨first, length, level⟩ : Segment).levelOf x =
      (⟨first, length, level - 1⟩ : Segment).levelOf x + inRange first length x := by
  rw [← levelOf_raise, Nat.sub_add_cancel h]

theorem levelOf_one : (⟨first, length, 1⟩ : Segment).levelOf x = inRange first length x := rfl

theorem inRange_cut {a : Nat} (h : a ≤ length) :
    inRange first length x = inRange first a x + inRange (first + a) (length - a) x := by
  simp only [inRange]
  split_ifs <;> omega

@[simp] theorem inRange_zero : inRange first 0 x = 0 := if_neg fun h => by omega

end Levels

/-! ## Order -/

section Order

variable {l l' : List Segment} {s t : Segment}

theorem inOrder_append : InOrder (l ++ l') ↔
    InOrder l ∧ InOrder l' ∧ ∀ s ∈ l, ∀ t ∈ l', s.stop ≤ t.first := by
  simp only [inOrder_iff, forall_mem_append, pairwise_append]
  tauto

theorem inOrder_nil : InOrder [] := ⟨nofun, List.Pairwise.nil⟩

theorem inOrder_cons : InOrder (s :: l) ↔
    0 < s.length ∧ 0 < s.level ∧ InOrder l ∧ ∀ t ∈ l, s.stop ≤ t.first := by
  simp only [inOrder_iff, forall_mem_cons, pairwise_cons]
  tauto

variable {x : Nat}

/-- The level of a number that a segment holds. -/
theorem InOrder.levelAt_eq (h : InOrder l) (hs : s ∈ l) (hlo : s.first ≤ x)
    (hhi : x < s.stop) : levelAt l x = s.level := by
  obtain ⟨a, b, rfl⟩ := append_of_mem hs
  obtain ⟨_, hb, hab⟩ := inOrder_append.1 h
  obtain ⟨_, _, _, hsep⟩ := inOrder_cons.1 hb
  have hleft : levelAt a x = 0 := levelAt_of_ge fun t ht =>
    le_trans (hab t ht s mem_cons_self) hlo
  have hright : levelAt b x = 0 := levelAt_of_lt fun t ht => lt_of_lt_of_le hhi (hsep t ht)
  rw [levelAt_append, levelAt_cons, hleft, hright, s.levelOf_of_mem hlo hhi, zero_add, add_zero]

/-- The first segment starts at the least number of a positive level, or in front of it. -/
theorem InOrder.first_le (h : InOrder (s :: l)) (hpos : 0 < levelAt (s :: l) x) : s.first ≤ x := by
  obtain ⟨t, ht, hfirst, _⟩ := exists_of_levelAt_pos hpos
  obtain heq | hmem := mem_cons.1 ht
  · exact heq ▸ hfirst
  · have hle : s.first + s.length ≤ t.first := (inOrder_cons.1 h).2.2.2 t hmem
    omega

theorem InOrder.levelAt_pos_iff (h : InOrder l) :
    0 < levelAt l x ↔ ∃ s ∈ l, s.first ≤ x ∧ x < s.stop := by
  refine ⟨exists_of_levelAt_pos, ?_⟩
  rintro ⟨s, hs, hlo, hhi⟩
  rw [h.levelAt_eq hs hlo hhi]
  exact (h.pos s hs).2

theorem Merged.of_cons (h : Merged (s :: l)) : Merged l := List.IsChain.of_cons h

/-- The head of a merged list may be replaced by a segment with the same end and level. -/
theorem Merged.head_congr (h : Merged (s :: l)) (hstop : t.stop = s.stop)
    (hlevel : t.level = s.level) : Merged (t :: l) := by
  cases l with
  | nil => exact isChain_singleton t
  | cons =>
    obtain ⟨hsu, hl⟩ := isChain_cons_cons.1 h
    refine isChain_cons_cons.2 ⟨fun heq => ?_, hl⟩
    rw [hlevel]
    exact hsu (hstop ▸ heq)

end Order

/-! ## Lists under construction -/

section Stack

variable {pre post : List Segment} {p q : Segment} {x : Nat}

theorem inOrder_reverse_cons : InOrder (p :: pre).reverse ↔
    0 < p.length ∧ 0 < p.level ∧ InOrder pre.reverse ∧ ∀ s ∈ pre, s.stop ≤ p.first := by
  rw [reverse_cons, inOrder_append, inOrder_cons]
  constructor
  · rintro ⟨hpre, ⟨hlen, hlev, _⟩, hsep⟩
    exact ⟨hlen, hlev, hpre, fun s hs => hsep s (mem_reverse.2 hs) p (mem_singleton_self p)⟩
  · rintro ⟨hlen, hlev, hpre, hsep⟩
    refine ⟨hpre, ⟨hlen, hlev, inOrder_nil, nofun⟩, fun s hs t ht => ?_⟩
    rw [mem_singleton.1 ht]
    exact hsep s (mem_reverse.1 hs)

theorem merged_reverse_cons : Merged (p :: pre).reverse ↔
    Merged pre.reverse ∧ ∀ q ∈ pre.head?, q.Apart p := by
  rw [Merged, reverse_cons, isChain_append, getLast?_reverse]
  constructor
  · rintro ⟨hpre, _, hjoin⟩
    exact ⟨hpre, fun q hq => hjoin q hq p rfl⟩
  · rintro ⟨hpre, hjoin⟩
    refine ⟨hpre, isChain_singleton p, fun q hq t ht => ?_⟩
    cases ht
    exact hjoin q hq

/-- A segment becomes one with the segment in front of it, where that is possible. -/
def joinLeft : List Segment → Segment → List Segment × Segment
  | [], p => ([], p)
  | q :: pre, p =>
    if q.level = p.level ∧ q.stop = p.first then
      (pre, { q with length := q.length + p.length })
    else (q :: pre, p)

/-- What is the same after `joinLeft`. -/
structure LeftJoined (pre : List Segment) (p : Segment) (res : List Segment × Segment) : Prop where
  stop : res.2.stop = p.stop
  level : res.2.level = p.level
  levelAt : ∀ x, levelAt (res.2 :: res.1) x = levelAt (p :: pre) x
  levels : ∀ v, (∃ s ∈ res.2 :: res.1, s.level = v) ↔ ∃ s ∈ p :: pre, s.level = v
  first : ∀ s ∈ res.2 :: res.1, ∃ t ∈ p :: pre, s.first = t.first
  rest : ∀ s ∈ res.1, s ∈ pre

theorem leftJoined_self : LeftJoined pre p (pre, p) :=
  ⟨rfl, rfl, fun _ => rfl, fun _ => Iff.rfl, fun s hs => ⟨s, hs, rfl⟩, fun _ hs => hs⟩

theorem leftJoined_joinLeft (pre : List Segment) (p : Segment) :
    LeftJoined pre p (joinLeft pre p) := by
  cases pre with
  | nil => exact leftJoined_self
  | cons q pre =>
    rw [joinLeft]
    split
    next h =>
      have hstop : (⟨q.first, q.length + p.length, q.level⟩ : Segment).stop = p.stop := by
        rw [Segment.stop, Segment.stop, ← h.2, Segment.stop, add_assoc]
      refine ⟨hstop, h.1, fun x => ?_, fun v => ?_, fun s hs => ?_,
        fun s hs => mem_cons_of_mem _ hs⟩
      · have hp : p = ⟨q.first + q.length, p.length, q.level⟩ := by
          rw [h.1, ← Segment.stop, h.2]
        rw [levelAt_cons, levelAt_cons, levelAt_cons, levelOf_cut]
        nth_rewrite 3 [hp]
        show q.levelOf x + _ + levelAt pre x = _ + (q.levelOf x + _)
        omega
      · simp only [exists_mem_cons_iff]
        rw [← or_assoc, ← h.1, or_self_iff]
      · obtain heq | hmem := mem_cons.1 hs
        · exact ⟨q, mem_cons_of_mem _ mem_cons_self, heq ▸ rfl⟩
        · exact ⟨s, mem_cons_of_mem _ (mem_cons_of_mem _ hmem), rfl⟩
    next => exact leftJoined_self

theorem inOrder_joinLeft (h : InOrder (p :: pre).reverse) :
    InOrder ((joinLeft pre p).2 :: (joinLeft pre p).1).reverse := by
  cases pre with
  | nil => exact h
  | cons =>
    rw [joinLeft]
    split
    next _ =>
      obtain ⟨_, _, hpre, _⟩ := inOrder_reverse_cons.1 h
      obtain ⟨hlenq, hlevq, hpre', hsep⟩ := inOrder_reverse_cons.1 hpre
      exact inOrder_reverse_cons.2 ⟨Nat.add_pos_left hlenq _, hlevq, hpre', hsep⟩
    next => exact h

theorem merged_joinLeft (h : Merged pre.reverse) :
    Merged ((joinLeft pre p).2 :: (joinLeft pre p).1).reverse := by
  cases pre with
  | nil => exact merged_reverse_cons.2 ⟨h, fun q hq => by cases hq⟩
  | cons =>
    rw [joinLeft]
    split
    next hjoin =>
      obtain ⟨hpre, hhead⟩ := merged_reverse_cons.1 h
      exact merged_reverse_cons.2 ⟨hpre, fun t ht => hhead t ht⟩
    next hjoin =>
      refine merged_reverse_cons.2 ⟨h, fun t ht => ?_⟩
      cases ht
      exact fun hstop hlevel => hjoin ⟨hlevel, hstop⟩

/-- A list whose two parts are merged, but possibly not with each other. -/
structure Spliced (pre post : List Segment) : Prop where
  order : InOrder (pre.reverse ++ post)
  left : Merged pre.reverse
  right : Merged post

theorem inOrder_splice : InOrder (pre.reverse ++ post) ↔
    InOrder pre.reverse ∧ InOrder post ∧ ∀ s ∈ pre, ∀ t ∈ post, s.stop ≤ t.first := by
  rw [inOrder_append]
  simp only [mem_reverse]

/-- What ends in front of a number does not count for it. -/
theorem levelAt_splice (h : ∀ s ∈ pre, s.stop ≤ x) :
    levelAt (pre.reverse ++ post) x = levelAt post x := by
  rw [levelAt_append, levelAt_reverse, levelAt_of_ge h, zero_add]

/-- Joining at the position of a splice gives a merged list. -/
theorem Spliced.merged (h : Spliced pre (p :: post)) :
    Merged ((joinLeft pre p).1.reverse ++ (joinLeft pre p).2 :: post) ∧
      InOrder ((joinLeft pre p).1.reverse ++ (joinLeft pre p).2 :: post) := by
  have hj := leftJoined_joinLeft pre p
  obtain ⟨hpre, hpost, hsep⟩ := inOrder_splice.1 h.order
  obtain ⟨hlen, hlev, hpost', hsep'⟩ := inOrder_cons.1 hpost
  have hstack : InOrder (p :: pre).reverse := inOrder_reverse_cons.2
    ⟨hlen, hlev, hpre, fun s hs => hsep s hs p mem_cons_self⟩
  have hright : Merged ((joinLeft pre p).2 :: post) := h.right.head_congr hj.stop hj.level
  have hleft : Merged ((joinLeft pre p).2 :: (joinLeft pre p).1).reverse := merged_joinLeft h.left
  obtain ⟨hlen', hlev', hpre', hfront⟩ := inOrder_reverse_cons.1 (inOrder_joinLeft hstack)
  constructor
  · refine isChain_append.2 ⟨(merged_reverse_cons.1 hleft).1, hright, fun q hq t ht => ?_⟩
    cases ht
    rw [getLast?_reverse] at hq
    exact (merged_reverse_cons.1 hleft).2 q hq
  · refine inOrder_splice.2 ⟨hpre', inOrder_cons.2 ⟨hlen', hlev', hpost', fun t ht => ?_⟩,
      fun s hs t ht => ?_⟩
    · rw [hj.stop]
      exact hsep' t ht
    · obtain heq | hmem := mem_cons.1 ht
      · exact heq ▸ hfront s hs
      · exact hsep s (hj.rest s hs) t (mem_cons_of_mem _ hmem)

/-- A splice of two parts that stay apart is merged as it is. -/
theorem Spliced.merged_of_apart (h : Spliced pre (p :: post))
    (hapart : ∀ q ∈ pre.head?, q.Apart p) : Merged (pre.reverse ++ p :: post) := by
  refine isChain_append.2 ⟨h.left, h.right, fun q hq t ht => ?_⟩
  cases ht
  rw [getLast?_reverse] at hq
  exact hapart q hq

end Stack

end Ceph.Lib
