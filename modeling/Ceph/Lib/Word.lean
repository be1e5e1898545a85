import Mathlib.Data.List.Lex
import Mathlib.Order.Fin.Basic
import Mathlib.Tactic.Ring

set_option autoImplicit false

/-!
# Machine integers as natural numbers

Results of arithmetic on unsigned numbers are taken modulo a power of two, and numbers of
several digits are compared digit by digit.  A mask of neighbouring bits is a quotient and a
remainder.
-/

namespace Ceph.Lib

/-- A number as an unsigned 64-bit one. -/
def u64 (n : Nat) : Nat := n % 2 ^ 64

/-- A number as an unsigned 32-bit one. -/
def u32 (n : Nat) : Nat := n % 2 ^ 32

theorem u64_of_lt {n : Nat} (h : n < 2 ^ 64) : u64 n = n := Nat.mod_eq_of_lt h

theorem u32_of_lt {n : Nat} (h : n < 2 ^ 32) : u32 n = n := Nat.mod_eq_of_lt h

/-- Two digits are compared one after the other. -/
theorem mul_add_lt_iff {q q' r r' c : Nat} (hr : r < c) (hr' : r' < c) :
    q * c + r < q' * c + r' ↔ q < q' ∨ q = q' ∧ r < r' := by
  obtain hlt | rfl | hgt := lt_trichotomy q q'
  · refine iff_of_true ?_ (.inl hlt)
    have hmul := Nat.mul_le_mul_right c (Nat.succ_le_of_lt hlt)
    rw [Nat.succ_mul] at hmul
    omega
  · omega
  · refine iff_of_false ?_ (by omega)
    have hmul := Nat.mul_le_mul_right c (Nat.succ_le_of_lt hgt)
    rw [Nat.succ_mul] at hmul
    omega

theorem mul_add_inj {q q' r r' c : Nat} (hr : r < c) (hr' : r' < c) :
    q * c + r = q' * c + r' ↔ q = q' ∧ r = r' := by
  have hlt := @mul_add_lt_iff q q' r r' c hr hr'
  have hgt := @mul_add_lt_iff q' q r' r c hr' hr
  omega

/-- The leading one of `k + 1` digits. -/
theorem mod_pow_lead (b n k : Nat) : n % b ^ (k + 1) = n / b ^ k % b * b ^ k + n % b ^ k := by
  rw [Nat.mod_pow_succ, Nat.mul_comm, Nat.add_comm]

open Nat List

theorem pow_dvd_of_low_bits {n k : Nat} (h : ∀ i, i < k → n.testBit i = false) : 2 ^ k ∣ n := by
  refine dvd_of_mod_eq_zero (eq_of_testBit_eq fun i => ?_)
  rw [testBit_mod_two_pow, zero_testBit]
  by_cases hi : i < k
  · rw [h i hi, Bool.and_false]
  · rw [decide_eq_false hi, Bool.false_and]

/-- A mask of `k` bits above `p` bits. -/
theorem and_mask (n k p : Nat) : n &&& (2 ^ k - 1) * 2 ^ p = n / 2 ^ p % 2 ^ k * 2 ^ p := by
  apply eq_of_testBit_eq
  intro i
  rw [testBit_and, testBit_mul_two_pow, testBit_mul_two_pow,
    testBit_two_pow_sub_one, testBit_mod_two_pow, testBit_div_two_pow]
  by_cases hp : p ≤ i
  · rw [Nat.sub_add_cancel hp, decide_eq_true hp]
    cases n.testBit i <;> cases decide (i - p < k) <;> rfl
  · rw [decide_eq_false hp, Bool.false_and, Bool.false_and, Bool.and_false]

/-! ## Bytes, the most significant first

With a fixed number of bytes the encoding can be read back, and the lexicographic order of the
bytes is the order of the numbers. -/

abbrev Byte := Fin 256

instance neZeroByte : NeZero 256 := ⟨by decide⟩

/-- The last `k` bytes of a number. -/
def bigEndian : Nat → Nat → List Byte
  | 0, _ => []
  | k + 1, n => Fin.ofNat 256 (n / 256 ^ k) :: bigEndian k n

/-- Read bytes behind a number that is already read. -/
def readBigEndian (n : Nat) (l : List Byte) : Nat := l.foldl (fun n b => n * 256 + b.val) n

theorem length_bigEndian (k n : Nat) : (bigEndian k n).length = k := by
  induction k with
  | zero => rfl
  | succ k ih => rw [bigEndian, length_cons, ih]

theorem readBigEndian_bigEndian (k m n : Nat) :
    readBigEndian m (bigEndian k n) = m * 256 ^ k + n % 256 ^ k := by
  induction k generalizing m with
  | zero => rw [bigEndian, readBigEndian, foldl_nil, pow_zero, mod_one, mul_one, add_zero]
  | succ k ih =>
    rw [bigEndian, readBigEndian, foldl_cons]
    refine (ih _).trans ?_
    rw [Fin.val_ofNat, mod_pow_lead]
    ring

/-- Reading gives back a number that fits. -/
theorem readBigEndian_of_lt {k n : Nat} (h : n < 256 ^ k) :
    readBigEndian 0 (bigEndian k n) = n := by
  rw [readBigEndian_bigEndian, zero_mul, zero_add, mod_eq_of_lt h]

theorem bigEndian_inj {k a b : Nat} (ha : a < 256 ^ k) (hb : b < 256 ^ k) :
    bigEndian k a = bigEndian k b ↔ a = b := by
  refine ⟨fun h => ?_, fun h => h ▸ rfl⟩
  rw [← readBigEndian_of_lt ha, h, readBigEndian_of_lt hb]

theorem bigEndian_lt_iff_mod (k a b : Nat) :
    bigEndian k a < bigEndian k b ↔ a % 256 ^ k < b % 256 ^ k := by
  induction k with
  | zero =>
    rw [pow_zero, mod_one, mod_one]
    exact ⟨fun h => absurd h (not_lt_nil _), fun h => absurd h (lt_irrefl _)⟩
  | succ k ih =>
    have ha := mod_lt a (pow_pos (n := k) (show 0 < 256 by decide))
    have hb := mod_lt b (pow_pos (n := k) (show 0 < 256 by decide))
    rw [bigEndian, bigEndian, cons_lt_cons_iff, ih, mod_pow_lead, mod_pow_lead,
      Fin.lt_def, Fin.ext_iff, Fin.val_ofNat, Fin.val_ofNat]
    exact (mul_add_lt_iff ha hb).symm

theorem bigEndian_lt_iff {k a b : Nat} (ha : a < 256 ^ k) (hb : b < 256 ^ k) :
    bigEndian k a < bigEndian k b ↔ a < b := by
  rw [bigEndian_lt_iff_mod, mod_eq_of_lt ha, mod_eq_of_lt hb]

/-! ## Groups of seven bits

The groups of a number stand in a list of bytes, lowest group first; the high bit of a byte
says that another one follows.  `groups` writes a number and `ungroup` reads the number at
the front of a list of bytes.  A number below `128 ^ k` takes at most `k` bytes, and one
from `128 ^ k` on takes more. -/

/-- The groups of a number, lowest first. -/
def groups (n : Nat) : List UInt8 :=
  if n < 128 then [UInt8.ofNat n] else UInt8.ofNat (n % 128 + 128) :: groups (n / 128)
termination_by n
decreasing_by omega

/-- The number at the front of a list of bytes, and the bytes behind it. -/
def ungroup : List UInt8 → Option (Nat × List UInt8)
  | [] => none
  | b :: bytes =>
    if b.toNat < 128 then some (b.toNat, bytes)
    else (ungroup bytes).map fun res => (b.toNat - 128 + 128 * res.1, res.2)

variable {n : Nat}

theorem groups_of_lt (h : n < 128) : groups n = [UInt8.ofNat n] := by
  rw [groups, if_pos h]

theorem groups_of_ge (h : 128 ≤ n) :
    groups n = UInt8.ofNat (n % 128 + 128) :: groups (n / 128) := by
  rw [groups, if_neg (not_lt.2 h)]

theorem ofNat_toNat_of_lt (h : n < 256) : (UInt8.ofNat n).toNat = n := by
  rw [UInt8.toNat_ofNat', mod_eq_of_lt h]

theorem ungroup_groups (n : Nat) (rest : List UInt8) :
    ungroup (groups n ++ rest) = some (n, rest) := by
  induction n using Nat.strongRecOn with
  | ind n ih =>
    obtain hlt | hge := lt_or_ge n 128
    · rw [groups_of_lt hlt, singleton_append, ungroup, ofNat_toNat_of_lt (by omega), if_pos hlt]
    · rw [groups_of_ge hge, cons_append, ungroup, ofNat_toNat_of_lt (by omega),
        if_neg (by omega), ih (n / 128) (by omega), Option.map_some]
      have hn : n % 128 + 128 - 128 + 128 * (n / 128) = n := by omega
      rw [hn]

theorem groups_ne_nil (n : Nat) : groups n ≠ [] := by
  rw [groups]
  split <;> exact cons_ne_nil _ _

theorem length_groups_le (k n : Nat) (hn : n < 128 ^ (k + 1)) : (groups n).length ≤ k + 1 := by
  induction k generalizing n with
  | zero => rw [groups_of_lt (by omega), length_singleton]
  | succ k ih =>
    obtain hlt | hge := lt_or_ge n 128
    · rw [groups_of_lt hlt, length_singleton]
      omega
    · have hdiv : n / 128 < 128 ^ (k + 1) := Nat.div_lt_of_lt_mul (by rw [← pow_succ']; exact hn)
      rw [groups_of_ge hge]
      exact succ_le_succ (ih _ hdiv)

theorem lt_length_groups (k n : Nat) (hn : 128 ^ k ≤ n) : k < (groups n).length := by
  induction k generalizing n with
  | zero => exact length_pos_iff.2 (groups_ne_nil n)
  | succ k ih =>
    have hpos : 0 < 128 ^ k := Nat.pow_pos (by decide)
    have hdiv : 128 ^ k ≤ n / 128 := (le_div_iff_mul_le (by decide)).2 hn
    rw [groups_of_ge (by omega)]
    exact succ_lt_succ (ih _ hdiv)

end Ceph.Lib
