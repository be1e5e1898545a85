import Mathlib.Order.Nat
import Mathlib.Data.List.Basic

set_option autoImplicit false

/-!
# A set of numbers indexed by intervals, each under its last element

The first entry at or after a number decides whether the number is in the set.
New intervals are recorded next to old ones by joining: the entry that ends
right before a new interval is dropped and its begin taken over, the entry
that starts right after it is overwritten.  Several intervals may be recorded
at once, each joined with the entries from before all of them; the entries may
then overlap, and the index still finds exactly the numbers of the set.
-/

namespace Ceph.Lib

/-- The first entry at or after `s` is the one under `last`; it starts at `b`. -/
structure Hit (idx : Nat → Option Nat) (s last b : Nat) : Prop where
  entry : idx last = some b
  le : s ≤ last
  first : ∀ l, (idx l).isSome → s ≤ l → last ≤ l

/-- The entries cover the set, and the first entry at or after each of its
elements contains the element. -/
structure EndIndex (idx : Nat → Option Nat) (R : Nat → Prop) : Prop where
  nonempty : ∀ {last b : Nat}, idx last = some b → b ≤ last
  sound : ∀ {last b : Nat}, idx last = some b → ∀ t, b ≤ t → t ≤ last → R t
  found : ∀ {s : Nat}, R s → ∃ last b, Hit idx s last b ∧ b ≤ s

/-- An interval `[x, y)` to be recorded, and the entry `[b, l]` it becomes. -/
structure Joined where
  x : Nat
  y : Nat
  b : Nat
  l : Nat

/-- The numbers of the interval recorded. -/
def Joined.In (J : Joined) (t : Nat) : Prop := J.x ≤ t ∧ t < J.y

/-- There is an entry to join in front of the interval. -/
def Joined.Left (J : Joined) (R : Nat → Prop) : Prop := 0 < J.x ∧ R (J.x - 1)

/-- The entry recorded is the interval joined with its neighbours. -/
structure Joins (idx : Nat → Option Nat) (R : Nat → Prop) (J : Joined) : Prop where
  lt : J.x < J.y
  fresh : ∀ t, J.In t → ¬ R t
  left : (J.Left R ∧ idx (J.x - 1) = some J.b) ∨ (¬ J.Left R ∧ J.b = J.x)
  right : (R J.y ∧ Hit idx J.y J.l J.y) ∨ (¬ R J.y ∧ J.l + 1 = J.y)

namespace EndIndex

variable {idx idx' : Nat → Option Nat} {R : Nat → Prop} {s last b x y : Nat}

theorem recorded_iff (h : EndIndex idx R) : R s ↔ ∃ last b, Hit idx s last b ∧ b ≤ s := by
  constructor
  · exact h.found
  · rintro ⟨last, b, hit, hb⟩
    exact h.sound hit.entry s hb hit.le

theorem empty : EndIndex (fun _ => none) fun _ => False where
  nonempty := by intro _ _ h; cases h
  sound := by intro _ _ h; cases h
  found := fun h => h.elim

theorem congr {R' : Nat → Prop} (h : EndIndex idx R) (hR : ∀ t, R t ↔ R' t) : EndIndex idx R' where
  nonempty := h.nonempty
  sound := fun he t hb ht => (hR t).1 (h.sound he t hb ht)
  found := fun hs => h.found ((hR _).2 hs)

/-- What is found right before an interval that is not in the set ends there. -/
theorem eq_of_hit_before (h : EndIndex idx R) (hx : ¬ R x) (hit : Hit idx (x - 1) last b)
    (hb : b ≤ x - 1) (hpos : 0 < x) : last = x - 1 := by
  refine le_antisymm (Nat.le_of_not_lt fun hlt => hx ?_) hit.le
  exact h.sound hit.entry x (by omega) (by omega)

/-- What is found right after an interval that is not in the set starts there. -/
theorem eq_of_hit_after (h : EndIndex idx R) (hy : ¬ R (y - 1)) (hit : Hit idx y last b)
    (hb : b ≤ y) (hpos : 0 < y) : b = y := by
  refine le_antisymm hb (Nat.le_of_not_lt fun hlt => hy ?_)
  have hle := hit.le
  exact h.sound hit.entry (y - 1) (by omega) (by omega)

end EndIndex

/-! ## Recording several intervals at once -/

/-- The entries after recording: each interval's entry is written, the entries
in front of an interval that are not written over are dropped. -/
structure Recorded (idx idx' : Nat → Option Nat) (R : Nat → Prop) (Js : List Joined) :
    Prop where
  joins : ∀ J ∈ Js, Joins idx R J
  disjoint : ∀ J ∈ Js, ∀ J' ∈ Js, ∀ t, J.In t → J'.In t → J = J'
  written : ∀ J ∈ Js, idx' J.l = some J.b
  dropped : ∀ l, (∀ J ∈ Js, J.l ≠ l) → (∃ J ∈ Js, J.Left R ∧ l = J.x - 1) → idx' l = none
  kept : ∀ l, (∀ J ∈ Js, J.l ≠ l) → (¬ ∃ J ∈ Js, J.Left R ∧ l = J.x - 1) → idx' l = idx l

namespace Recorded

variable {idx idx' : Nat → Option Nat} {R : Nat → Prop} {Js : List Joined} {J : Joined}
  {s last b l : Nat}

theorem b_le (h : EndIndex idx R) (hJ : Joins idx R J) : J.b ≤ J.x := by
  obtain hl | hl := hJ.left
  · have hle := h.nonempty hl.2
    omega
  · exact hl.2.le

theorem y_le (hJ : Joins idx R J) : J.y ≤ J.l + 1 := by
  obtain hr | hr := hJ.right
  · have hle := hr.2.le
    omega
  · exact hr.2.ge

section

variable (h : Recorded idx idx' R Js)

include h

/-- An entry after recording is that of an interval, or was there before. -/
theorem entry_cases (he : idx' last = some b) :
    (∃ J ∈ Js, J.l = last ∧ J.b = b) ∨ idx last = some b := by
  by_cases hw : ∃ J ∈ Js, J.l = last
  · obtain ⟨J, hJ, rfl⟩ := hw
    exact .inl ⟨J, hJ, rfl, Option.some.inj ((h.written J hJ).symm.trans he)⟩
  have hne : ∀ J ∈ Js, J.l ≠ last := fun J hJ heq => hw ⟨J, hJ, heq⟩
  by_cases hd : ∃ J ∈ Js, J.Left R ∧ last = J.x - 1
  · rw [h.dropped last hne hd] at he
    cases he
  · exact .inr (h.kept last hne hd ▸ he)

/-- An entry after recording was there before, or ends with its interval. -/
theorem isSome_cases (hl : (idx' l).isSome) : (idx l).isSome ∨ ∃ J ∈ Js, J.l = l ∧ J.In l := by
  obtain ⟨_, hb⟩ := Option.isSome_iff_exists.1 hl
  cases h.entry_cases hb with
  | inr hold => exact .inl (hold ▸ rfl)
  | inl hw =>
    obtain ⟨J, hJ, rfl, _⟩ := hw
    have hj := h.joins J hJ
    obtain hr | hr := hj.right
    · exact .inl (hr.2.entry ▸ rfl)
    · have hlt := hj.lt
      exact .inr ⟨J, hJ, rfl, by omega, by omega⟩

/-- No entry comes between the start of a recorded interval and its entry. -/
theorem l_le (hidx : EndIndex idx R) (hJ : J ∈ Js)
    (hl : (idx' l).isSome) (hx : J.x ≤ l) : J.l ≤ l := by
  have hj := h.joins J hJ
  obtain hold | hnew := h.isSome_cases hl
  · obtain ⟨_, hb⟩ := Option.isSome_iff_exists.1 hold
    have hR : R l := hidx.sound hb l (hidx.nonempty hb) le_rfl
    have hy : J.y ≤ l := Nat.le_of_not_lt fun hlt => hj.fresh l ⟨hx, hlt⟩ hR
    obtain hr | hr := hj.right
    · exact hr.2.first l hold hy
    · omega
  · obtain ⟨J', hJ', rfl, hin⟩ := hnew
    obtain hlt | _ := em (J'.l < J.y)
    · have heq := h.disjoint J hJ J' hJ' J'.l ⟨hx, hlt⟩ hin
      rw [heq]
    · cases hj.right with
      | inr => omega
      | inl hr =>
        -- the entry behind the interval is part of the set, the new one is not
        refine Nat.le_of_not_lt fun hlt => (h.joins J' hJ').fresh J'.l hin ?_
        exact hidx.sound hr.2.entry J'.l (by omega) hlt.le

/-- An entry after recording that ends in the set before was there before. -/
theorem isSome_of_mem (hl : (idx' l).isSome) (hR : R l) : (idx l).isSome := by
  obtain hold | hnew := h.isSome_cases hl
  · exact hold
  · obtain ⟨J, hJ, rfl, hin⟩ := hnew
    exact absurd hR ((h.joins J hJ).fresh J.l hin)

section

variable (hidx : EndIndex idx R)

include hidx

/-- The first entry of an element of the set before is in the set up to there. -/
theorem first_of_hit (hit : Hit idx s last b) (hb : b ≤ s) (hl : (idx' l).isSome)
    (hs : s ≤ l) : last ≤ l := by
  refine Nat.le_of_not_lt fun hlt => ?_
  have hR := hidx.sound hit.entry l (hb.trans hs) hlt.le
  exact absurd (hit.first l (h.isSome_of_mem hl hR) hs) (not_le.2 hlt)

theorem sound (he : idx' last = some b) : b ≤ last ∧
      ∀ t, b ≤ t → t ≤ last → R t ∨ ∃ J ∈ Js, J.In t := by
  cases h.entry_cases he with
  | inr hold => exact ⟨hidx.nonempty hold, fun t hbt htl => .inl (hidx.sound hold t hbt htl)⟩
  | inl hw =>
    obtain ⟨J, hJ, rfl, rfl⟩ := hw
    have hj := h.joins J hJ
    have hble := b_le hidx hj
    have hyle := y_le hj
    have hlt := hj.lt
    refine ⟨by omega, fun t hbt htl => ?_⟩
    obtain htx | htx := lt_or_ge t J.x
    · obtain hl | hl := hj.left
      · exact .inl (hidx.sound hl.2 t hbt (by omega))
      · omega
    · obtain hty | hty := lt_or_ge t J.y
      · exact .inr ⟨J, hJ, htx, hty⟩
      · obtain hr | hr := hj.right
        · exact .inl (hidx.sound hr.2.entry t hty htl)
        · omega

theorem found_new (hJ : J ∈ Js) (hs : J.In s) : ∃ last b, Hit idx' s last b ∧ b ≤ s := by
  have hj := h.joins J hJ
  have hble := b_le hidx hj
  have hyle := y_le hj
  obtain ⟨_, _⟩ := hs
  refine ⟨J.l, J.b, ⟨h.written J hJ, by omega, fun l hl hsl => ?_⟩, by omega⟩
  exact h.l_le hidx hJ hl (by omega)

theorem found_old (hs : R s) : ∃ last b, Hit idx' s last b ∧ b ≤ s := by
  obtain ⟨last, b, hit, hb⟩ := hidx.found hs
  have hRlast : R last := hidx.sound hit.entry last (hidx.nonempty hit.entry) le_rfl
  obtain hw | hw := em (∃ J ∈ Js, J.l = last)
  · -- the entry was written over: it starts earlier now
    obtain ⟨J, hJ, rfl⟩ := hw
    have hj := h.joins J hJ
    have hlt := hj.lt
    have hble := b_le hidx hj
    cases hj.right with
    | inr => exact absurd hRlast (hj.fresh J.l ⟨by omega, by omega⟩)
    | inl hr =>
      have heq : J.y = b := Option.some.inj (hr.2.entry.symm.trans hit.entry)
      refine ⟨J.l, J.b, ⟨h.written J hJ, hit.le, fun l hl hsl => ?_⟩, by omega⟩
      exact h.first_of_hit hidx hit hb hl hsl
  · have hne : ∀ J ∈ Js, J.l ≠ last := fun J hJ heq => hw ⟨J, hJ, heq⟩
    cases em (∃ J ∈ Js, J.Left R ∧ last = J.x - 1) with
    | inr hd =>
      refine ⟨last, b, ⟨?_, hit.le, fun l hl hsl => ?_⟩, hb⟩
      · rw [h.kept last hne hd, hit.entry]
      · exact h.first_of_hit hidx hit hb hl hsl
    | inl hd =>
      -- the entry was dropped: its begin went into the entry behind it
      have hnone := h.dropped last hne hd
      obtain ⟨J, hJ, hleft, rfl⟩ := hd
      have hj := h.joins J hJ
      have hlt := hj.lt
      have hyle := y_le hj
      have heq : J.b = b := by
        obtain hl | hl := hj.left
        · exact Option.some.inj (hl.2.symm.trans hit.entry)
        · exact absurd hleft hl.1
      have hsx := hit.le
      refine ⟨J.l, J.b, ⟨h.written J hJ, by omega, fun l hl hsl => ?_⟩, by omega⟩
      have hfirst := h.first_of_hit hidx hit hb hl hsl
      have hneq : l ≠ J.x - 1 := by
        rintro rfl
        rw [hnone] at hl
        cases hl
      exact h.l_le hidx hJ hl (by omega)

/-- Recording intervals outside of the set adds them to the set. -/
theorem endIndex : EndIndex idx' fun t => R t ∨ ∃ J ∈ Js, J.In t where
  nonempty := fun he => (h.sound hidx he).1
  sound := fun he => (h.sound hidx he).2
  found := by
    rintro _ (hs | ⟨J, hJ, hs⟩)
    · exact h.found_old hidx hs
    · exact h.found_new hidx hJ hs

end

end

end Recorded

end Ceph.Lib
