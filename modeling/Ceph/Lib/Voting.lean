import Mathlib.Order.Interval.Finset.Nat

set_option autoImplicit false

/-!
# Ballot voting

The core of every Paxos-like argument, for one decision: proposals are numbered
by ballots, acceptors vote for proposals, and a proposal is made only when a
quorum shows that no conflicting value can have been chosen at a lower ballot.
Values are compared up to an equivalence, for protocols that dress a value up
again each time they propose it.  A quorum is a majority of a fixed set of ranks:
two of them share a rank.
-/

namespace Ceph.Lib

/-- `Q` is a majority of the ranks `0, …, n - 1`. -/
def Majority (n : Nat) (Q : Finset Nat) : Prop := Q ⊆ Finset.range n ∧ n / 2 < Q.card

instance (n : Nat) (Q : Finset Nat) : Decidable (Majority n Q) :=
  inferInstanceAs (Decidable (_ ∧ _))

/-- Two majorities share a rank. -/
theorem Majority.exists_common {n : Nat} {Q Q' : Finset Nat}
    (h : Majority n Q) (h' : Majority n Q') : ∃ i, i ∈ Q ∧ i ∈ Q' := by
  obtain ⟨hsub, _⟩ := h
  obtain ⟨hsub', _⟩ := h'
  have hlt : (Finset.range n).card < Q.card + Q'.card := by
    rw [Finset.card_range]
    omega
  obtain ⟨i, hi⟩ := Finset.inter_nonempty_of_card_lt_card_add_card hsub hsub' hlt
  exact ⟨i, Finset.mem_inter.1 hi⟩

theorem Majority.lt {n : Nat} {Q : Finset Nat} (h : Majority n Q) {i : Nat} (hi : i ∈ Q) : i < n :=
  Finset.mem_range.1 (h.1 hi)

variable {ι B V : Type} [LinearOrder B]

/-- The proposals made and the votes cast for one decision. -/
structure Ballots (ι B V : Type) where
  proposed : B → Option V
  voted : ι → B → Prop

/-- A quorum has voted for the proposal of ballot `p`. -/
def Ballots.Chosen (d : Ballots ι B V) (IsQuorum : Finset ι → Prop) (p : B) (x : V) : Prop :=
  d.proposed p = some x ∧ ∃ Q, IsQuorum Q ∧ ∀ i ∈ Q, d.voted i p

/-- What a proposer has to find out from the acceptors `Q` before it proposes `x`
at ballot `p`: they have cast no vote below `p`, or none above a lower ballot
whose proposal was `x` up to the equivalence. -/
def Ballots.SafeBy (d : Ballots ι B V) (r : V → V → Prop) (Q : Finset ι) (p : B) (x : V) : Prop :=
  (∀ i ∈ Q, ∀ q, q < p → ¬ d.voted i q) ∨
    ∃ q y, q < p ∧ d.proposed q = some y ∧ r y x ∧ ∀ i ∈ Q, ∀ q', q < q' → q' < p → ¬ d.voted i q'

/-- Some quorum shows that the proposal is safe. -/
def Ballots.SafeAt (d : Ballots ι B V) (IsQuorum : Finset ι → Prop) (r : V → V → Prop)
    (p : B) (x : V) : Prop := ∃ Q, IsQuorum Q ∧ d.SafeBy r Q p x

variable {d d' : Ballots ι B V} {IsQuorum : Finset ι → Prop} {r : V → V → Prop} {p : B} {x : V}

/-- A proposal stays safe as long as the acceptors `Q` cast no votes below it. -/
theorem Ballots.SafeBy.mono {Q : Finset ι} (h : d.SafeBy r Q p x)
    (hprop : ∀ q y, d.proposed q = some y → d'.proposed q = some y)
    (hvote : ∀ i ∈ Q, ∀ q, q < p → d'.voted i q → d.voted i q) : d'.SafeBy r Q p x := by
  rcases h with hnone | ⟨q, y, hq, hy, hr, hgap⟩
  · exact .inl fun i hi q hq hv => hnone i hi q hq (hvote i hi q hq hv)
  · exact .inr ⟨q, y, hq, hprop q y hy, hr,
      fun i hi q' hlt hlt' hv => hgap i hi q' hlt hlt' (hvote i hi q' hlt' hv)⟩

omit [LinearOrder B] in
/-- Votes are never taken back. -/
theorem Ballots.Chosen.mono (h : d.Chosen IsQuorum p x)
    (hprop : ∀ q y, d.proposed q = some y → d'.proposed q = some y)
    (hvote : ∀ i q, d.voted i q → d'.voted i q) : d'.Chosen IsQuorum p x := by
  obtain ⟨hx, Q, hQ, hvotes⟩ := h
  exact ⟨hprop p x hx, Q, hQ, fun i hi => hvote i p (hvotes i hi)⟩

/-- If every proposal was safe, then every proposal above a chosen one carries
its value.  By induction on the later ballot: the quorum that made it safe
meets the quorum that chose, so the lower ballot it refers to is not below the
chosen one. -/
theorem Ballots.Chosen.proposed_later [WellFoundedLT B] (hchosen : d.Chosen IsQuorum p x)
    (hmeet : ∀ Q Q', IsQuorum Q → IsQuorum Q' → ∃ i, i ∈ Q ∧ i ∈ Q')
    (hsafe : ∀ q y, d.proposed q = some y → d.SafeAt IsQuorum r q y) (hrefl : ∀ y, r y y)
    (htrans : ∀ y z w, r y z → r z w → r y w) : ∀ q y, p ≤ q → d.proposed q = some y → r x y := by
  obtain ⟨hprop, Q, hQ, hvotes⟩ := hchosen
  intro q
  induction q using WellFoundedLT.induction with
  | ind q ih =>
    intro y hle hy
    rcases eq_or_lt_of_le hle with rfl | hlt
    · rw [hprop] at hy
      cases hy
      exact hrefl x
    · obtain ⟨Q', hQ', hcase⟩ := hsafe q y hy
      obtain ⟨i, hi, hi'⟩ := hmeet Q Q' hQ hQ'
      rcases hcase with hnone | ⟨q', z, hq', hz, hzy, hgap⟩
      · exact absurd (hvotes i hi) (hnone i hi' p hlt)
      · have hpq' : p ≤ q' := by
          by_contra hlt'
          exact hgap i hi' p (not_le.1 hlt') hlt (hvotes i hi)
        exact htrans x z y (ih q' hq' z hpq' hz) hzy

/-- Agreement: two chosen values are equivalent. -/
theorem Ballots.chosen_agree [WellFoundedLT B] {q : B} {y : V} (hp : d.Chosen IsQuorum p x)
    (hq : d.Chosen IsQuorum q y) (hmeet : ∀ Q Q', IsQuorum Q → IsQuorum Q' → ∃ i, i ∈ Q ∧ i ∈ Q')
    (hsafe : ∀ q y, d.proposed q = some y → d.SafeAt IsQuorum r q y)
    (hr : Equivalence r) : r x y := by
  have htrans : ∀ y z w, r y z → r z w → r y w := fun _ _ _ => hr.trans
  rcases le_total p q with hle | hle
  · exact hp.proposed_later hmeet hsafe hr.refl htrans q y hle hq.1
  · exact hr.symm (hq.proposed_later hmeet hsafe hr.refl htrans p x hle hp.1)

end Ceph.Lib
