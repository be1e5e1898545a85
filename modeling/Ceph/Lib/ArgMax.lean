import Mathlib.Order.Lattice

set_option autoImplicit false

/-!
# The first position of the greatest value of a list

A scan keeps the position and the value of the greatest element seen so far and
moves only for a strictly greater one, so ties go to the earlier position.  What
it finds is determined by the values alone, and raising the value at one position
can move it to that position only.
-/

namespace Ceph.Lib

open List Nat

variable {α : Type} [LinearOrder α]

/-- The scan over the values from position `i` on; `high` is the position of the greatest
value so far and `highVal` that value, which position 0 overwrites unread. -/
def scanMax : List α → Nat → Nat → α → Nat
  | [], _, high, _ => high
  | v :: vs, i, high, highVal =>
    if i = 0 ∨ highVal < v then scanMax vs (i + 1) i v else scanMax vs (i + 1) high highVal

/-- `h` is the first position at which the list takes its greatest value. -/
structure FirstMax (vs : List α) (h : Nat) : Prop where
  lt : h < vs.length
  before : ∀ j (hj : j < h), vs[j] < vs[h]
  max : ∀ j (hj : j < vs.length), vs[j] ≤ vs[h]

variable {vs : List α} {h : Nat}

/-- A greater value at the end is the new first maximum. -/
theorem FirstMax.append_gt (hlt : h < vs.length) (hh : FirstMax vs h) {v : α}
    (hv : vs[h] < v) : FirstMax (vs ++ [v]) vs.length where
  lt := by simp
  before := by
    intro j hj
    rw [getElem_append_left hj, getElem_concat_length rfl]
    exact lt_of_le_of_lt (hh.max j hj) hv
  max := by
    intro j hj
    rw [getElem_concat_length rfl]
    rcases lt_or_ge j vs.length with hin | _
    · rw [getElem_append_left hin]
      exact le_of_lt (lt_of_le_of_lt (hh.max j hin) hv)
    · have hj' : j = vs.length := by
        rw [length_append, length_singleton] at hj
        omega
      rw [getElem_concat_length hj']

/-- A value at the end that is not greater leaves the first maximum where it was. -/
theorem FirstMax.append_le (hlt : h < vs.length) (hh : FirstMax vs h) {v : α}
    (hv : v ≤ vs[h]) : FirstMax (vs ++ [v]) h where
  lt := by
    rw [length_append]
    exact Nat.lt_add_right _ hlt
  before := by
    intro j hj
    rw [getElem_append_left hlt, getElem_append_left (lt_trans hj hlt)]
    exact hh.before j hj
  max := by
    intro j hj
    rw [getElem_append_left hlt]
    rcases lt_or_ge j vs.length with hin | _
    · rw [getElem_append_left hin]
      exact hh.max j hin
    · have hj' : j = vs.length := by
        rw [length_append, length_singleton] at hj
        omega
      rw [getElem_concat_length hj']
      exact hv

-- The induction carries the part of the list that has been scanned.
theorem scanMax_append {seen : List α} (hlt : h < seen.length) (hh : FirstMax seen h)
    (vs : List α) :
    FirstMax (seen ++ vs) (scanMax vs seen.length h seen[h]) := by
  induction vs generalizing seen h with
  | nil =>
    rw [append_nil]
    exact hh
  | cons v _ ih =>
    have hpos : seen.length ≠ 0 := ne_of_gt (lt_of_le_of_lt (zero_le h) hlt)
    have hlen : seen.length + 1 = (seen ++ [v]).length := by simp
    rw [append_cons]
    simp only [scanMax]
    rw [hlen]
    split
    next hgt =>
      have hnew := hh.append_gt hlt (hgt.resolve_left hpos)
      have hrec := ih hnew.lt hnew
      rwa [getElem_concat_length rfl] at hrec
    next hle =>
      have hsame := hh.append_le hlt (not_lt.1 fun hgt => hle (.inr hgt))
      have hrec := ih hsame.lt hsame
      rwa [getElem_append_left hlt] at hrec

/-- The scan finds the first maximum of a list that has an element, whatever it is started
with. -/
theorem scanMax_firstMax (hne : vs ≠ []) (high : Nat) (highVal : α) :
    FirstMax vs (scanMax vs 0 high highVal) := by
  cases vs with
  | nil => exact absurd rfl hne
  | cons v vs =>
    have hone : FirstMax [v] 0 := ⟨Nat.zero_lt_one, fun j hj => absurd hj (Nat.not_lt_zero j),
      fun j hj => by obtain rfl : j = 0 := lt_one_iff.1 hj; exact le_rfl⟩
    exact scanMax_append Nat.zero_lt_one hone vs

/-- Raising the value at one position moves the first maximum to that position or not at
all. -/
theorem FirstMax.raise {ws : List α} {h' k : Nat} (hh : FirstMax vs h) (hh' : FirstMax ws h')
    (hlen : ws.length = vs.length)
    (hsame : ∀ j (hv : j < vs.length) (hw : j < ws.length), j ≠ k → ws[j] = vs[j])
    (hup : ∀ (hv : k < vs.length) (hw : k < ws.length), vs[k] ≤ ws[k]) : h' = h ∨ h' = k := by
  by_contra hcon
  obtain ⟨hne, hnk⟩ := not_or.1 hcon
  have hlt := hh.lt
  have hlt' := hh'.lt
  have hhw : h < ws.length := hlen ▸ hlt
  have hhv : h' < vs.length := hlen ▸ hlt'
  have hgrow : vs[h] ≤ ws[h] := by
    by_cases hk : h = k
    · subst hk
      exact hup hlt hhw
    · exact le_of_eq (hsame h hlt hhw hk).symm
  have hstay : ws[h'] = vs[h'] := hsame h' hhv hlt' hnk
  -- The old position was the earlier one or the better one, and still is.
  rcases lt_or_gt_of_ne hne with hearly | hlate
  · have hold := hh.before h' hearly
    exact absurd (hh'.max h hhw) (not_le.2 (hstay ▸ lt_of_lt_of_le hold hgrow))
  · have hnew := hh'.before h hlate
    exact absurd (hh.max h' hhv) (not_le.2 (lt_of_le_of_lt hgrow (hstay ▸ hnew)))

end Ceph.Lib
