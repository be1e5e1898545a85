import Mathlib.Data.Char
import Mathlib.Data.List.TakeWhile
import Ceph.Lib.Word

set_option autoImplicit false

/-!
# Formatted numbers and prefixes in lexicographic order

Texts are lists of characters, ordered lexicographically.  Numbers printed
with a fixed number of hexadecimal digits are ordered as the numbers are, the
texts with a given prefix are a block of that order, and a text cut at its
first separator has one reading.
-/

namespace Ceph.Lib

open List Nat

/-! ## Prefixes -/

section Prefix

variable {α : Type} [LinearOrder α]

theorem append_lt_append_iff (a x y : List α) : a ++ x < a ++ y ↔ x < y := by
  induction a with
  | nil => exact Iff.rfl
  | cons _ _ ih => simp [ih]

theorem append_le_append_iff (a x y : List α) : a ++ x ≤ a ++ y ↔ x ≤ y := by
  rw [← not_lt, ← not_lt, append_lt_append_iff]

variable {a : List α}

/-- The texts with a given prefix are a block: what lies between two of them is
one of them. -/
theorem prefix_of_between {x y z : List α} (hxz : a ++ x ≤ z) (hzy : z ≤ a ++ y) : a <+: z := by
  induction a generalizing z with
  | nil => exact nil_prefix
  | cons c _ ih =>
    cases z with
    | nil => exact absurd hxz (by simp)
    | cons d =>
      rw [cons_append, ← not_lt, cons_lt_cons_iff, not_or, not_and] at hxz hzy
      obtain rfl : c = d := le_antisymm (not_lt.1 hxz.1) (not_lt.1 hzy.1)
      exact cons_prefix_cons.2 ⟨rfl, ih (not_lt.1 (hxz.2 rfl)) (not_lt.1 (hzy.2 rfl))⟩

theorem le_of_start {b : List α} (h : a <+: b) : a ≤ b := by
  obtain ⟨x, rfl⟩ := h
  have hle := (append_le_append_iff a [] x).2 (not_lt.1 (not_lt_nil x))
  rwa [append_nil] at hle

/-- The blocks of two prefixes of one length lie in the order of the prefixes. -/
theorem lt_of_blocks {p q b : List α} (hlen : p.length = q.length) (hlt : p < q) (ha : p <+: a)
    (hb : q <+: b) : a < b := by
  refine not_le.1 fun hle => ?_
  obtain ⟨x, rfl⟩ := ha
  have hpq : p <+: q := by
    refine prefix_of_between (x := []) ?_ ((le_of_start hb).trans hle)
    rw [append_nil]
    exact hlt.le
  exact hlt.ne (hpq.eq_of_length hlen)

end Prefix

section Separator

variable {α : Type} {sep : α}

/-- A text is read in one way up to its first separator. -/
theorem separator_inj {u u' x x' : List α} (hu : sep ∉ u) (hu' : sep ∉ u')
    (h : u ++ sep :: x = u' ++ sep :: x') : u = u' ∧ x = x' := by
  rcases append_eq_append_iff.1 h with ⟨_ | ⟨c, a⟩, rfl, ha⟩ | ⟨_ | ⟨c, a⟩, rfl, ha⟩
  · exact ⟨(append_nil u).symm, tail_eq_of_cons_eq ha⟩
  · obtain rfl : sep = c := head_eq_of_cons_eq ha
    exact absurd (mem_append_right u mem_cons_self) hu'
  · exact ⟨append_nil u', (tail_eq_of_cons_eq ha).symm⟩
  · obtain rfl : sep = c := head_eq_of_cons_eq ha
    exact absurd (mem_append_right u' mem_cons_self) hu

end Separator

/-! ## Hexadecimal digits -/

/-- A digit as printf writes it for `%x` and `%X`. -/
def hexDigit (upper : Bool) (d : Nat) : Char :=
  if d < 10 then Char.ofNat (48 + d)
  else if upper then Char.ofNat (55 + d)
  else Char.ofNat (87 + d)

/-- The low `w` hexadecimal digits of a number, the highest first. -/
def fixedHex (upper : Bool) : Nat → Nat → List Char
  | 0, _ => []
  | w + 1, n => hexDigit upper (n / 16 ^ w % 16) :: fixedHex upper w n

variable {a b w n : Nat} {upper : Bool} {c : Char}

theorem hexDigit_lt_iff (ha : a < 16) (hb : b < 16) : hexDigit upper a < hexDigit upper b ↔ a < b :=
  (by decide : ∀ (upper : Bool) (a b : Fin 16), hexDigit upper a < hexDigit upper b ↔ a.val < b.val)
    upper ⟨a, ha⟩ ⟨b, hb⟩

theorem hexDigit_inj (ha : a < 16) (hb : b < 16) : hexDigit upper a = hexDigit upper b ↔ a = b := by
  rw [le_antisymm_iff, le_antisymm_iff, ← not_lt, ← not_lt, hexDigit_lt_iff hb ha,
    hexDigit_lt_iff ha hb, not_lt, not_lt]

@[simp] theorem length_fixedHex (upper : Bool) (w n : Nat) : (fixedHex upper w n).length = w := by
  induction w with
  | zero => rfl
  | succ _ ih => rw [fixedHex, length_cons, ih]

theorem fixedHex_lt_iff_mod (w a b : Nat) :
    fixedHex upper w a < fixedHex upper w b ↔ a % 16 ^ w < b % 16 ^ w := by
  induction w with
  | zero => simp [fixedHex, mod_one]
  | succ w ih =>
    have hdigit := fun n : Nat => mod_lt (n / 16 ^ w) (show 0 < 16 by decide)
    have hpos : 0 < 16 ^ w := Nat.pow_pos (by decide)
    rw [fixedHex, fixedHex, cons_lt_cons_iff, ih, hexDigit_lt_iff (hdigit a) (hdigit b),
      hexDigit_inj (hdigit a) (hdigit b), mod_pow_lead, mod_pow_lead]
    exact (mul_add_lt_iff (mod_lt a hpos) (mod_lt b hpos)).symm

/-- Numbers of at most `w` digits are printed in their order. -/
theorem fixedHex_le_iff (ha : a < 16 ^ w) (hb : b < 16 ^ w) :
    fixedHex upper w a ≤ fixedHex upper w b ↔ a ≤ b := by
  rw [← not_lt, ← not_lt, fixedHex_lt_iff_mod, mod_eq_of_lt ha, mod_eq_of_lt hb]

theorem fixedHex_inj (ha : a < 16 ^ w) (hb : b < 16 ^ w) :
    fixedHex upper w a = fixedHex upper w b ↔ a = b := by
  rw [le_antisymm_iff, le_antisymm_iff, fixedHex_le_iff ha hb, fixedHex_le_iff hb ha]

/-- The hexadecimal digits of a number without leading zeros. -/
def plainHex (upper : Bool) (w n : Nat) : List Char :=
  if n = 0 then ['0'] else (fixedHex upper w n).dropWhile (· == '0')

theorem mem_fixedHex (h : c ∈ fixedHex upper w n) : ∃ d < 16, c = hexDigit upper d := by
  induction w with
  | zero => exact absurd h not_mem_nil
  | succ _ ih =>
    obtain heq | hmem := mem_cons.1 h
    · exact ⟨_, mod_lt _ (by omega), heq⟩
    · exact ih hmem

theorem mem_plainHex (h : c ∈ plainHex upper w n) : ∃ d < 16, c = hexDigit upper d := by
  rw [plainHex] at h
  split at h
  · exact ⟨0, by omega, by rw [mem_singleton.1 h]; cases upper <;> rfl⟩
  · exact mem_fixedHex ((dropWhile_sublist _).mem h)

theorem notMem_plainHex (h : ∀ d : Fin 16, hexDigit upper d.val ≠ c) : c ∉ plainHex upper w n := by
  intro hmem
  obtain ⟨d, hd, heq⟩ := mem_plainHex hmem
  exact h ⟨d, hd⟩ heq.symm

/-- Leading zeros fill a text of known length. -/
theorem eq_of_dropWhile_eq {l l' : List Char} (hlen : l.length = l'.length)
    (h : l.dropWhile (· == '0') = l'.dropWhile (· == '0')) : l = l' := by
  have hfill : ∀ l : List Char, l = List.replicate (l.length -
      (l.dropWhile (· == '0')).length) '0' ++ l.dropWhile (· == '0') := by
    intro l
    have hsplit := takeWhile_append_dropWhile (p := (· == '0')) (l := l)
    have hlen := congrArg List.length hsplit
    rw [length_append] at hlen
    rw [← hlen, Nat.add_sub_cancel, ← eq_replicate_of_mem fun c hc => ?_, hsplit]
    simpa using mem_takeWhile_imp hc
  rw [hfill l, hfill l', hlen, h]

theorem plainHex_inj (ha : a < 16 ^ w) (hb : b < 16 ^ w)
    (h : plainHex upper w a = plainHex upper w b) : a = b := by
  have hhead : ∀ n, n ≠ 0 → plainHex upper w n ≠ ['0'] := by
    intro n hn heq
    rw [plainHex, if_neg hn] at heq
    have hne : (fixedHex upper w n).dropWhile (· == '0') ≠ [] := by rw [heq]; simp
    have hnot := head_dropWhile_not (· == '0') hne
    simp [heq] at hnot
  obtain rfl | hapos := eq_or_ne a 0
  · by_contra hne
    exact hhead b (Ne.symm hne) h.symm
  · obtain rfl | hbpos := eq_or_ne b 0
    · exact absurd h (hhead a hapos)
    · rw [plainHex, plainHex, if_neg hapos, if_neg hbpos] at h
      refine (fixedHex_inj ha hb).1 (eq_of_dropWhile_eq ?_ h)
      rw [length_fixedHex, length_fixedHex]

/-! ## Decimal numbers -/

/-- A number as printf writes it for `%u`. -/
def decimal (n : Nat) : List Char := Nat.toDigits 10 n

theorem decimal_injective : Function.Injective decimal := by
  intro _ _ h
  have hval := congrArg (fun l => Nat.ofDigitChars 10 l 0) h
  simpa [decimal, ofDigitChars_toDigits] using hval

theorem isDigit_of_mem_decimal (h : c ∈ decimal n) : c.isDigit = true :=
  isDigit_of_mem_toDigits (by omega) (by omega) h

/-- A signed number as printf writes it for `%d`. -/
def signedDecimal (n : Int) : List Char :=
  if n < 0 then '-' :: decimal n.natAbs else decimal n.natAbs

theorem mem_signedDecimal {n : Int} (h : c ∈ signedDecimal n) : c = '-' ∨ c.isDigit = true := by
  rw [signedDecimal] at h
  split at h
  · obtain heq | hmem := mem_cons.1 h
    · exact .inl heq
    · exact .inr (isDigit_of_mem_decimal hmem)
  · exact .inr (isDigit_of_mem_decimal h)

end Ceph.Lib
