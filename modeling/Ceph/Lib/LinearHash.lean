import Mathlib.Data.Nat.Log
import Mathlib.Tactic.Ring

set_option autoImplicit false

/-!
# Hashing into a number of bins that grows by splitting

With `b` bins, of which `2 ^ k` is the largest power of two, a hash goes to its
lowest `k + 1` bits if these name a bin and to its lowest `k` bits otherwise.  A
bin is then one residue class, of `k` or of `k + 1` bits, and more bins only
split the classes that are there.
-/

namespace Ceph.Lib

open Nat

/-- The bin of `x` when there are `b` bins. -/
def bin (x b : Nat) : Nat :=
  if x % 2 ^ (Nat.log2 b + 1) < b then x % 2 ^ (Nat.log2 b + 1) else x % 2 ^ Nat.log2 b

/-- The number of bits that decide whether a hash goes to bin `c`. -/
def binBits (c b : Nat) : Nat :=
  if c % 2 ^ Nat.log2 b < b % 2 ^ Nat.log2 b then Nat.log2 b + 1 else Nat.log2 b

section

variable {x y b b' c : Nat}

theorem log2_bounds (hb : 0 < b) : 2 ^ log2 b ≤ b ∧ b < 2 * 2 ^ log2 b := by
  refine ⟨log2_self_le (ne_of_gt hb), ?_⟩
  rw [← pow_succ']
  exact lt_log2_self

theorem log2_mono (hle : b ≤ b') : log2 b ≤ log2 b' := by
  rw [log2_eq_log_two, log2_eq_log_two]
  exact log_mono_right hle

/-- One more bit of the hash is added in front of the lower ones. -/
theorem mod_two_mul_cases (x p : Nat) :
    x % (2 * p) = x % p ∧ x / p % 2 = 0 ∨ x % (2 * p) = x % p + p ∧ x / p % 2 = 1 := by
  rw [mul_comm 2 p, mod_mul]
  rcases mod_two_eq_zero_or_one (x / p) with h0 | h1
  · exact .inl ⟨by rw [h0, mul_zero, add_zero], h0⟩
  · exact .inr ⟨by rw [h1, mul_one], h1⟩

theorem bin_lt (hb : 0 < b) : bin x b < b := by
  obtain ⟨hlo, -⟩ := log2_bounds hb
  unfold bin
  split
  next h => exact h
  next => exact lt_of_lt_of_le (mod_lt _ (Nat.two_pow_pos _)) hlo

/-- A bin is one residue class. -/
theorem bin_eq_iff (hb : 0 < b) (hc : c < b) : bin x b = c ↔ x % 2 ^ binBits c b = c := by
  obtain ⟨hlo, _⟩ := log2_bounds hb
  have hxp : x % 2 ^ Nat.log2 b < 2 ^ Nat.log2 b := mod_lt _ (Nat.two_pow_pos _)
  have hcp : c % 2 ^ Nat.log2 b < 2 ^ Nat.log2 b := mod_lt _ (Nat.two_pow_pos _)
  have hbp : b % 2 ^ Nat.log2 b = b - 2 ^ Nat.log2 b := by
    rw [mod_eq_sub_mod hlo, mod_eq_of_lt (by omega)]
  have hcc := mod_two_mul_cases c (2 ^ Nat.log2 b)
  have hxx := mod_two_mul_cases x (2 ^ Nat.log2 b)
  rw [mod_eq_of_lt (by omega)] at hcc
  have hbits : 2 ^ binBits c b =
      if c % 2 ^ Nat.log2 b < b % 2 ^ Nat.log2 b then 2 * 2 ^ Nat.log2 b
      else 2 ^ Nat.log2 b := by
    unfold binBits
    split
    next => rw [pow_succ']
    next => rfl
  rw [hbits, bin, pow_succ']
  -- From here on only the lower bits of the two numbers and the bit in front of them matter.
  split <;> split <;> omega

/-- A hash is kept by the bins that it has been cut to. -/
theorem bin_congr (h : x % 2 ^ (log2 b + 1) = y % 2 ^ (log2 b + 1)) : bin x b = bin y b := by
  have hlow : x % 2 ^ log2 b = y % 2 ^ log2 b := by
    rw [← mod_mod_of_dvd x (pow_dvd_pow 2 (le_succ _)), h,
      mod_mod_of_dvd y (pow_dvd_pow 2 (le_succ _))]
  rw [bin, bin, h, hlow]

theorem bin_of_lt (hlt : x < b) : bin x b = x := by
  have hb : 0 < b := lt_of_le_of_lt (zero_le x) hlt
  obtain ⟨-, hhi⟩ := log2_bounds hb
  have hmod : x % 2 ^ (log2 b + 1) = x := by
    rw [pow_succ']
    exact mod_eq_of_lt (lt_trans hlt hhi)
  rw [bin, hmod, if_pos hlt]

/-- With more bins the classes are split: the old bin can be computed from the new one. -/
theorem bin_bin (hb : 0 < b) (hle : b ≤ b') : bin (bin x b') b = bin x b := by
  rcases lt_or_eq_of_le (log2_mono hle) with hlog | hlog
  · -- Both lengths of the new bin's name are enough for the old bins.
    apply bin_congr
    unfold bin
    split
    · exact mod_mod_of_dvd x (pow_dvd_pow 2 (succ_le_succ hlog.le))
    · exact mod_mod_of_dvd x (pow_dvd_pow 2 hlog)
  · rw [bin.eq_1 x b', ← hlog]
    split
    next => exact bin_congr (mod_mod _ _)
    next hbig =>
      obtain ⟨hlo, -⟩ := log2_bounds hb
      have hlt : x % 2 ^ log2 b < b := lt_of_lt_of_le (mod_lt _ (Nat.two_pow_pos _)) hlo
      rw [bin_of_lt hlt, bin, if_neg fun h => hbig (lt_of_lt_of_le h hle)]

end

end Ceph.Lib
