import Mathlib.Data.List.Nodup
import Mathlib.Data.Nat.Bitwise
import Ceph.Lib.SplitTree
import Ceph.Lib.Word

set_option autoImplicit false

/-!
# Directory fragments (include/ceph_frag.h, include/frag.h)

A fragment of the 24-bit hash space is stored in one word: the number of bits
in the high byte and, in the low three bytes, the value of those bits at the
top.  The functions of ceph_frag.h work on the word.  `Frag` is what a word
stands for, a number of bits and the number those bits spell; every function
on words is shown to do on `Frag` what its name says.
-/

namespace Ceph.Include

open List Nat Bool

/-! ## The words of ceph_frag.h

The `u32` shifts of the source may drop bits above the word; each such shift is
masked with `0xffffff` afterwards, so the model shifts natural numbers. -/

def cephFragMake (b v : Nat) : Nat := (b <<< 24) ||| (v &&& (0xffffff <<< (24 - b)) &&& 0xffffff)

def cephFragBits (f : Nat) : Nat := f >>> 24

def cephFragValue (f : Nat) : Nat := f &&& 0xffffff

def cephFragMask (f : Nat) : Nat := (0xffffff <<< (24 - cephFragBits f)) &&& 0xffffff

def cephFragContainsValue (f v : Nat) : Bool := (v &&& cephFragMask f) == cephFragValue f

def cephFragContainsFrag (f sub : Nat) : Bool :=
  decide (cephFragBits f ≤ cephFragBits sub) &&
    ((cephFragValue sub &&& cephFragMask f) == cephFragValue f)

def cephFragParent (f : Nat) : Nat :=
  cephFragMake (cephFragBits f - 1) (cephFragValue f &&& (cephFragMask f <<< 1))

def cephFragIsLeftChild (f : Nat) : Bool :=
  decide (0 < cephFragBits f) && (cephFragValue f &&& (0x1000000 >>> cephFragBits f)) == 0

def cephFragIsRightChild (f : Nat) : Bool :=
  decide (0 < cephFragBits f) && (cephFragValue f &&& (0x1000000 >>> cephFragBits f)) == 1

def cephFragSibling (f : Nat) : Nat :=
  cephFragMake (cephFragBits f) (cephFragValue f ^^^ (0x1000000 >>> cephFragBits f))

def cephFragLeftChild (f : Nat) : Nat := cephFragMake (cephFragBits f + 1) (cephFragValue f)

def cephFragRightChild (f : Nat) : Nat :=
  cephFragMake (cephFragBits f + 1) (cephFragValue f ||| (0x1000000 >>> (1 + cephFragBits f)))

def cephFragMakeChild (f nb i : Nat) : Nat :=
  let newbits := cephFragBits f + nb
  cephFragMake newbits (cephFragValue f ||| (i <<< (24 - newbits)))

def cephFragNext (f : Nat) : Nat :=
  cephFragMake (cephFragBits f) (cephFragValue f + (0x1000000 >>> cephFragBits f))

/-- `frag_t::split`: the children of a fragment, in order. -/
def fragSplit (f nb : Nat) : List Nat := (List.range (2 ^ nb)).map fun i => cephFragMakeChild f nb i

/-! ## Masking -/

/-- The masks of the header keep the bits from `s` up to the word's 24. -/
theorem and_mask_eq (v s : Nat) :
    v &&& (0xffffff <<< s) &&& 0xffffff = v % 2 ^ 24 / 2 ^ s * 2 ^ s := by
  rw [Nat.and_right_comm, show (0xffffff : Nat) = 2 ^ 24 - 1 from rfl, and_two_pow_sub_one_eq_mod,
    shiftLeft_eq, Lib.and_mask]
  congr 1
  exact mod_eq_of_lt ((div_le_self _ _).trans_lt (mod_lt v (by decide)))

theorem and_mask_of_lt {v s : Nat} (hv : v < 2 ^ 24) :
    v &&& (0xffffff <<< s) &&& 0xffffff = v / 2 ^ s * 2 ^ s := by
  rw [and_mask_eq, mod_eq_of_lt hv]

/-! ## What a word stands for -/

/-- A fragment: the hashes whose top `bits` bits spell the number `idx`. -/
@[ext] structure Frag where
  bits : Nat
  idx : Nat
  bits_le : bits ≤ 24
  idx_lt : idx < 2 ^ bits
  deriving DecidableEq

namespace Frag

/-- `frag_t()`: the whole space. -/
def root : Frag := ⟨0, 0, by omega, by omega⟩

/-- The word that stores a fragment. -/
def enc (f : Frag) : Nat := cephFragMake f.bits (f.idx <<< (24 - f.bits))

/-- `frag_t(v, b)`: the fragment of `b` bits that holds a value. -/
def ofValue (v b : Nat) (hb : b ≤ 24) : Frag :=
  ⟨b, v % 2 ^ 24 / 2 ^ (24 - b), hb, by
    rw [div_lt_iff_lt_mul (Nat.two_pow_pos _), ← pow_add, show b + (24 - b) = 24 by omega]
    exact mod_lt _ (Nat.two_pow_pos _)⟩

theorem shifted_lt (f : Frag) : f.idx * 2 ^ (24 - f.bits) < 2 ^ 24 := by
  have hb := f.bits_le
  calc f.idx * 2 ^ (24 - f.bits)
      < 2 ^ f.bits * 2 ^ (24 - f.bits) := by
        exact mul_lt_mul_of_pos_right f.idx_lt (Nat.two_pow_pos _)
    _ = 2 ^ 24 := by rw [← pow_add, show f.bits + (24 - f.bits) = 24 by omega]

end Frag

/-- Making a word from a value keeps the top bits of the value. -/
theorem cephFragMake_eq (v : Nat) {b : Nat} (hb : b ≤ 24) :
    cephFragMake b v = (Frag.ofValue v b hb).enc := by
  have hs := (Frag.ofValue v b hb).shifted_lt
  simp only [Frag.enc, Frag.ofValue, cephFragMake, shiftLeft_eq] at hs ⊢
  rw [← shiftLeft_eq 0xffffff, and_mask_eq v, and_mask_of_lt hs,
    Nat.mul_div_cancel _ (Nat.two_pow_pos _)]

namespace Frag

variable (f g : Frag)

theorem enc_eq : f.enc = f.bits * 2 ^ 24 + f.idx * 2 ^ (24 - f.bits) := by
  have hs := f.shifted_lt
  rw [enc, cephFragMake, shiftLeft_eq f.idx, and_mask_of_lt hs,
    Nat.mul_div_cancel _ (Nat.two_pow_pos _), ← Nat.shiftLeft_add_eq_or_of_lt hs,
    shiftLeft_eq]

@[simp] theorem bits_enc : cephFragBits f.enc = f.bits := by
  have hs := f.shifted_lt
  rw [cephFragBits, enc_eq]
  omega

@[simp] theorem value_enc : cephFragValue f.enc = f.idx * 2 ^ (24 - f.bits) := by
  have hs := f.shifted_lt
  rw [cephFragValue, show (0xffffff : Nat) = 2 ^ 24 - 1 from rfl, and_two_pow_sub_one_eq_mod,
    enc_eq]
  omega

theorem enc_injective : Function.Injective enc := by
  intro f g h
  have hb : f.bits = g.bits := by rw [← bits_enc f, h, bits_enc]
  have hv : f.idx * 2 ^ (24 - f.bits) = g.idx * 2 ^ (24 - f.bits) := by
    rw [← value_enc f, h, value_enc, hb]
  have hi : f.idx = g.idx := eq_of_mul_eq_mul_right (Nat.two_pow_pos _) hv
  exact Frag.ext hb hi

@[simp] theorem enc_inj {f g : Frag} : f.enc = g.enc ↔ f = g := enc_injective.eq_iff

theorem enc_root : root.enc = 0 := by decide

/-! ## The levels of fragments -/

/-- The fragment of `k` bits that contains `f`, for `k` up to the bits of `f`. -/
def anc (f : Frag) (k : Nat) : Frag :=
  if h : k ≤ f.bits then
    ⟨k, f.idx / 2 ^ (f.bits - k), h.trans f.bits_le, by
      rw [div_lt_iff_lt_mul (Nat.two_pow_pos _), ← pow_add, show k + (f.bits - k) = f.bits by omega]
      exact f.idx_lt⟩
  else f

variable {f g} {k : Nat}

theorem bits_anc (hk : k ≤ f.bits) : (f.anc k).bits = k := by
  rw [anc, dif_pos hk]

theorem idx_anc (hk : k ≤ f.bits) : (f.anc k).idx = f.idx / 2 ^ (f.bits - k) := by
  rw [anc, dif_pos hk]

/-- Fragments as a levelled space: the level is the number of bits. -/
def levels : Lib.Levels Frag where
  level := bits
  anc := anc
  level_anc := bits_anc
  anc_self := fun f => by
    refine Frag.ext (bits_anc le_rfl) ?_
    rw [idx_anc le_rfl, Nat.sub_self, pow_zero, Nat.div_one]
  anc_anc := by
    intro f j k hjk hk
    have hj : j ≤ (f.anc k).bits := by rw [bits_anc hk]; exact hjk
    refine Frag.ext ?_ ?_
    · rw [bits_anc hj, bits_anc (hjk.trans hk)]
    · rw [idx_anc hj, idx_anc hk, idx_anc (hjk.trans hk), bits_anc hk,
        Nat.div_div_eq_div_mul, ← pow_add, show f.bits - k + (k - j) = f.bits - j by omega]

@[simp] theorem levels_level (f : Frag) : levels.level f = f.bits := rfl

@[simp] theorem levels_anc (f : Frag) (k : Nat) : levels.anc f k = f.anc k := rfl

theorem above_iff : levels.Above f g ↔
    f.bits ≤ g.bits ∧ g.idx / 2 ^ (g.bits - f.bits) = f.idx := by
  refine and_congr_right fun hle => ?_
  rw [levels_anc, levels_level] at *
  constructor
  · intro h
    rw [← idx_anc hle, h]
  · intro h
    exact Frag.ext (bits_anc hle) (by rw [idx_anc hle, h])

theorem root_above (f : Frag) : levels.Above root f := by
  refine above_iff.2 ⟨zero_le _, ?_⟩
  exact div_eq_of_lt f.idx_lt

/-- A hash value, as the fragment that holds nothing else. -/
def hash (v : Nat) (hv : v < 2 ^ 24) : Frag := ⟨24, v, le_rfl, hv⟩

/-! ## The word functions on fragments -/

theorem containsValue_iff (v : Nat) : cephFragContainsValue f.enc v = true ↔
    v % 2 ^ 24 / 2 ^ (24 - f.bits) = f.idx := by
  rw [cephFragContainsValue, beq_iff_eq, cephFragMask, ← Nat.and_assoc, and_mask_eq, bits_enc,
    value_enc]
  exact Nat.mul_left_inj (Nat.two_pow_pos _).ne'

/-- `ceph_frag_contains_value` is membership. -/
theorem containsValue_enc (f : Frag) {v : Nat} (hv : v < 2 ^ 24) :
    cephFragContainsValue f.enc v = true ↔ levels.Above f (hash v hv) := by
  rw [containsValue_iff, mod_eq_of_lt hv, above_iff]
  exact (and_iff_right f.bits_le).symm

theorem value_div (f : Frag) (hk : k ≤ f.bits) :
    f.idx * 2 ^ (24 - f.bits) / 2 ^ (24 - k) = f.idx / 2 ^ (f.bits - k) := by
  have hb := f.bits_le
  rw [show 24 - k = (f.bits - k) + (24 - f.bits) by omega, pow_add,
    Nat.mul_div_mul_right _ _ (Nat.two_pow_pos _)]

/-- `ceph_frag_contains_frag` is the order of the space. -/
theorem containsFrag_enc (f g : Frag) :
    cephFragContainsFrag f.enc g.enc = true ↔ levels.Above f g := by
  rw [cephFragContainsFrag, and_eq_true, decide_eq_true_iff, beq_iff_eq, cephFragMask,
    ← Nat.and_assoc, value_enc, value_enc, bits_enc, bits_enc,
    and_mask_of_lt g.shifted_lt, above_iff]
  refine and_congr_right fun hle => ?_
  rw [value_div g hle]
  exact ⟨eq_of_mul_eq_mul_right (Nat.two_pow_pos _), fun h => by rw [h]⟩

/-- Making a fragment of fewer bits from the value of one gives the ancestor. -/
theorem make_value_enc (f : Frag) (hk : k ≤ f.bits) :
    cephFragMake k (cephFragValue f.enc) = (f.anc k).enc := by
  rw [value_enc, cephFragMake_eq _ (hk.trans f.bits_le), enc_inj]
  refine Frag.ext (bits_anc hk).symm ?_
  rw [idx_anc hk, ← value_div f hk]
  exact congrArg (· / 2 ^ (24 - k)) (mod_eq_of_lt f.shifted_lt)

/-- The parent drops the last bit. -/
theorem parent_enc (f : Frag) (hf : 0 < f.bits) :
    cephFragParent f.enc = (f.anc (f.bits - 1)).enc := by
  rw [← make_value_enc f (by omega), cephFragParent, bits_enc]
  have hb := f.bits_le
  -- the mask shifted by one keeps what the mask of the parent keeps
  have hmask : ∀ v : Nat, (v &&& (cephFragMask f.enc <<< 1)) &&&
      (0xffffff <<< (24 - (f.bits - 1))) &&& 0xffffff =
      v &&& (0xffffff <<< (24 - (f.bits - 1))) &&& 0xffffff := by
    intro v
    have h24 : (0xffffff : Nat) = 2 ^ 24 - 1 := rfl
    refine eq_of_testBit_eq fun i => ?_
    rw [cephFragMask, bits_enc, h24]
    simp only [testBit_and, testBit_shiftLeft, testBit_two_pow_sub_one]
    grind
  rw [cephFragMake, hmask, ← cephFragMake]

/-- The `i`-th of the `2 ^ nb` children of a fragment. -/
def child (f : Frag) (nb i : Nat) (hb : f.bits + nb ≤ 24) (hi : i < 2 ^ nb) : Frag :=
  ⟨f.bits + nb, f.idx * 2 ^ nb + i, hb, by
    calc f.idx * 2 ^ nb + i < f.idx * 2 ^ nb + 2 ^ nb := by omega
      _ = (f.idx + 1) * 2 ^ nb := by ring
      _ ≤ 2 ^ f.bits * 2 ^ nb := mul_le_mul_right _ f.idx_lt
      _ = 2 ^ (f.bits + nb) := (pow_add _ _ _).symm⟩

variable {nb : Nat}

theorem makeChild_enc (f : Frag) {i : Nat} (hb : f.bits + nb ≤ 24) (hi : i < 2 ^ nb) :
    cephFragMakeChild f.enc nb i = (f.child nb i hb hi).enc := by
  have hval : f.idx * 2 ^ (24 - f.bits) ||| i <<< (24 - (f.bits + nb)) =
      (f.child nb i hb hi).idx <<< (24 - (f.bits + nb)) := by
    have hs : 24 - f.bits = nb + (24 - (f.bits + nb)) := by omega
    simp only [child]
    rw [← shiftLeft_eq f.idx nb, shiftLeft_add_eq_or_of_lt hi, shiftLeft_or_distrib,
      ← shiftLeft_add, ← hs, shiftLeft_eq f.idx]
  rw [cephFragMakeChild, bits_enc, value_enc, hval]
  rfl

theorem above_child {i : Nat} (hb : f.bits + nb ≤ 24) (hi : i < 2 ^ nb) :
    levels.Above f (f.child nb i hb hi) := by
  refine above_iff.2 ⟨le_add_right _ _, ?_⟩
  simp only [child]
  rw [Nat.add_sub_cancel_left, Nat.mul_comm,
    mul_add_div (Nat.two_pow_pos nb), div_eq_of_lt hi, add_zero]

/-- The children of a fragment, in the order of `frag_t::split`. -/
def children (f : Frag) (nb : Nat) : List Frag :=
  if hb : f.bits + nb ≤ 24 then
    (List.finRange (2 ^ nb)).map fun i => f.child nb i.1 hb i.2
  else []

theorem fragSplit_enc (f : Frag) (hb : f.bits + nb ≤ 24) :
    fragSplit f.enc nb = (f.children nb).map enc := by
  rw [children, dif_pos hb, fragSplit, ← map_coe_finRange_eq_range, map_map, map_map]
  refine map_congr_left fun i _ => ?_
  exact makeChild_enc f hb i.2

theorem mem_children {f c : Frag} (hb : f.bits + nb ≤ 24) :
    c ∈ f.children nb ↔ c.bits = f.bits + nb ∧ levels.Above f c := by
  rw [children, dif_pos hb, mem_map]
  constructor
  · rintro ⟨i, _, rfl⟩
    exact ⟨rfl, above_child hb i.2⟩
  · rintro ⟨hbits, habove⟩
    have hidx := (above_iff.1 habove).2
    rw [hbits, Nat.add_sub_cancel_left] at hidx
    refine ⟨⟨c.idx % 2 ^ nb, mod_lt _ (Nat.two_pow_pos nb)⟩, mem_finRange _, ?_⟩
    refine Frag.ext hbits.symm ?_
    simp only [child]
    rw [← hidx, mul_comm]
    exact div_add_mod _ _

theorem nodup_children (f : Frag) (nb : Nat) : (f.children nb).Nodup := by
  rw [children]
  split
  next _ =>
    refine (nodup_finRange _).map fun i j h => ?_
    have hidx := congrArg Frag.idx h
    simp only [child, add_left_cancel_iff] at hidx
    exact Fin.ext hidx
  next => exact nodup_nil

theorem length_children {f : Frag} (hb : f.bits + nb ≤ 24) : (f.children nb).length = 2 ^ nb := by
  rw [children, dif_pos hb, length_map, length_finRange]

/-- The fragments contained in one, itself included: what a walk may visit. -/
def weight (f : Frag) : Nat := 2 * 2 ^ (24 - f.bits) - 1

theorem weight_pos (f : Frag) : 0 < f.weight := by
  have h : 0 < 2 ^ (24 - f.bits) := Nat.two_pow_pos _
  rw [weight]
  omega

theorem weight_children {f : Frag} (hb : f.bits + nb ≤ 24) (hnb : nb ≠ 0) :
    ((f.children nb).map weight).sum < f.weight := by
  have hconst : (f.children nb).map weight =
      List.replicate (2 ^ nb) (2 * 2 ^ (24 - (f.bits + nb)) - 1) := by
    refine eq_replicate_iff.2 ⟨by rw [length_map, length_children hb], ?_⟩
    intro _ hw
    obtain ⟨_, hc, rfl⟩ := mem_map.1 hw
    rw [weight, ((mem_children hb).1 hc).1]
  have hpow : 2 ^ nb * (2 * 2 ^ (24 - (f.bits + nb))) = 2 * 2 ^ (24 - f.bits) := by
    rw [mul_left_comm, ← pow_add, show nb + (24 - (f.bits + nb)) = 24 - f.bits by omega]
  rw [hconst, sum_replicate_nat, Nat.mul_sub, weight]
  have h2 : 2 ^ 1 ≤ 2 ^ nb := Nat.pow_le_pow_right (by omega) (by omega)
  have hle : 0 < 2 ^ (24 - f.bits) := Nat.two_pow_pos _
  omega

end Frag

/-! ## The binary tree of fragments -/

/-- The `2 ^ nb` children of a word cut it into consecutive parts. -/
structure CutsInOrder (w nb : Nat) : Prop where
  disjoint : ∀ i < 2 ^ nb, ∀ j < 2 ^ nb, ∀ v,
    cephFragContainsValue (cephFragMakeChild w nb i) v = true →
    cephFragContainsValue (cephFragMakeChild w nb j) v = true → i = j
  inside : ∀ i < 2 ^ nb, cephFragContainsFrag w (cephFragMakeChild w nb i) = true
  cover : ∀ v, cephFragContainsValue w v = true ↔
    ∃ i < 2 ^ nb, cephFragContainsValue (cephFragMakeChild w nb i) v = true
  rising : ∀ i j, i < j → j < 2 ^ nb →
    cephFragValue (cephFragMakeChild w nb i) < cephFragValue (cephFragMakeChild w nb j)
  next : ∀ i, i + 1 < 2 ^ nb →
    cephFragNext (cephFragMakeChild w nb i) = cephFragMakeChild w nb (i + 1)

/-- A word is one of the two children of its parent and its sibling the other. -/
structure OneOfTwo (w : Nat) : Prop where
  one : cephFragIsLeftChild w ≠ cephFragIsRightChild w
  left : cephFragIsLeftChild w = true →
    w = cephFragLeftChild (cephFragParent w) ∧
      cephFragSibling w = cephFragRightChild (cephFragParent w)
  right : cephFragIsRightChild w = true →
    w = cephFragRightChild (cephFragParent w) ∧
      cephFragSibling w = cephFragLeftChild (cephFragParent w)
  involution : cephFragSibling (cephFragSibling w) = w

/-- Every well-formed word stores a fragment. -/
theorem exists_enc {w : Nat} (hb : cephFragBits w ≤ 24)
    (hv : cephFragValue w &&& cephFragMask w = cephFragValue w) : ∃ f : Frag, f.enc = w := by
  refine ⟨Frag.ofValue (cephFragValue w) (cephFragBits w) hb, ?_⟩
  rw [cephFragMask, ← Nat.and_assoc] at hv
  rw [← cephFragMake_eq, cephFragMake, hv, cephFragValue, cephFragBits,
    show (0xffffff : Nat) = 2 ^ 24 - 1 from rfl, and_two_pow_sub_one_eq_mod,
    ← shiftLeft_add_eq_or_of_lt (mod_lt _ (by decide)), shiftLeft_eq, shiftRight_eq_div_pow,
    div_add_mod']

theorem last_bit {b : Nat} (hb : b ≤ 24) : 0x1000000 >>> b = 1 <<< (24 - b) := by
  rw [shiftRight_eq_div_pow, show (0x1000000 : Nat) = 2 ^ 24 from rfl, Nat.pow_div hb (by decide),
    one_shiftLeft]

namespace Frag

variable {f : Frag} {nb : Nat}

/-- The word of the `j`-th fragment on the level of `f`. -/
def place (f : Frag) (j : Nat) : Nat := cephFragMake f.bits (j <<< (24 - f.bits))

theorem next_enc : cephFragNext f.enc = f.place (f.idx + 1) := by
  rw [cephFragNext, bits_enc, value_enc, last_bit f.bits_le, one_shiftLeft, ← succ_mul,
    ← shiftLeft_eq]
  rfl

theorem sibling_enc : cephFragSibling f.enc = f.place (f.idx ^^^ 1) := by
  rw [cephFragSibling, bits_enc, value_enc, last_bit f.bits_le, ← shiftLeft_eq,
    ← shiftLeft_xor_distrib]
  rfl

theorem value_and_last_bit : cephFragValue f.enc &&& (0x1000000 >>> cephFragBits f.enc) =
    f.idx % 2 * 2 ^ (24 - f.bits) := by
  rw [value_enc, bits_enc, last_bit f.bits_le, ← shiftLeft_eq, ← shiftLeft_and_distrib,
    and_one_is_mod, shiftLeft_eq]

/-- The children of a fragment cut it into consecutive parts. -/
theorem cutsInOrder (hb : f.bits + nb ≤ 24) : CutsInOrder f.enc nb where
  disjoint i hi j hj v hvi hvj := by
    rw [makeChild_enc f hb hi, containsValue_iff] at hvi
    rw [makeChild_enc f hb hj, containsValue_iff] at hvj
    exact add_left_cancel (hvi.symm.trans hvj)
  inside i hi := by
    rw [makeChild_enc f hb hi, containsFrag_enc]
    exact above_child hb hi
  cover v := by
    have hcut : v % 2 ^ 24 / 2 ^ (24 - f.bits) =
        v % 2 ^ 24 / 2 ^ (24 - (f.bits + nb)) / 2 ^ nb := by
      rw [Nat.div_div_eq_div_mul, ← pow_add, show 24 - (f.bits + nb) + nb = 24 - f.bits by omega]
    rw [containsValue_iff, hcut]
    constructor
    · intro hf
      have hi := mod_lt (v % 2 ^ 24 / 2 ^ (24 - (f.bits + nb))) (Nat.two_pow_pos nb)
      refine ⟨_, hi, ?_⟩
      rw [makeChild_enc f hb hi, containsValue_iff]
      simp only [child]
      rw [← hf, div_add_mod']
    · rintro ⟨i, hi, hv⟩
      rw [makeChild_enc f hb hi, containsValue_iff] at hv
      have hidx := (above_iff.1 (above_child hb hi)).2
      simp only [child, Nat.add_sub_cancel_left] at hv hidx
      rw [hv, hidx]
  rising i j hij hj := by
    rw [makeChild_enc f hb (hij.trans hj), makeChild_enc f hb hj, value_enc, value_enc]
    exact Nat.mul_lt_mul_of_pos_right (Nat.add_lt_add_left hij _) (Nat.two_pow_pos _)
  next i hi := by
    rw [makeChild_enc f hb (lt_of_succ_lt hi), makeChild_enc f hb hi]
    exact next_enc

variable (hf : 0 < f.bits)

include hf

/-- The two children of the parent. -/
theorem makeChild_parent {i : Nat} (hi : i < 2) :
    cephFragMakeChild (cephFragParent f.enc) 1 i = f.place (f.idx / 2 * 2 + i) := by
  have hbits : (f.anc (f.bits - 1)).bits + 1 = f.bits := by
    rw [bits_anc (Nat.sub_le _ _), Nat.sub_add_cancel hf]
  rw [parent_enc f hf, makeChild_enc _ (hbits.trans_le f.bits_le) hi, enc, place]
  simp only [child]
  rw [hbits, idx_anc (sub_le _ _), show f.bits - (f.bits - 1) = 1 by omega, pow_one]

theorem children_parent :
    cephFragLeftChild (cephFragParent f.enc) = f.place (f.idx / 2 * 2) ∧
      cephFragRightChild (cephFragParent f.enc) = f.place (f.idx / 2 * 2 + 1) := by
  have hbits : cephFragBits (cephFragParent f.enc) + 1 ≤ 24 := by
    rw [parent_enc f hf, bits_enc, bits_anc (Nat.sub_le _ _), Nat.sub_add_cancel hf]
    exact f.bits_le
  have hleft : ∀ w, cephFragLeftChild w = cephFragMakeChild w 1 0 := fun w => by
    rw [cephFragMakeChild, zero_shiftLeft, or_zero, cephFragLeftChild]
  rw [hleft, cephFragRightChild, add_comm 1, last_bit hbits, ← cephFragMakeChild]
  exact ⟨makeChild_parent hf two_pos, makeChild_parent hf one_lt_two⟩

theorem isLeftChild_enc : cephFragIsLeftChild f.enc = true ↔ f.idx % 2 = 0 := by
  rw [cephFragIsLeftChild, value_and_last_bit, bits_enc, decide_eq_true hf, Bool.true_and,
    beq_iff_eq, mul_eq_zero, or_iff_left (Nat.two_pow_pos _).ne']

/-- The test for the right child compares with one and not with the bit. -/
theorem isRightChild_enc : cephFragIsRightChild f.enc = true ↔ f.idx % 2 = 1 ∧ f.bits = 24 := by
  rw [cephFragIsRightChild, value_and_last_bit, bits_enc, decide_eq_true hf, Bool.true_and,
    beq_iff_eq]
  have hle := f.bits_le
  rcases mod_two_eq_zero_or_one f.idx with h | h
  · simp [h]
  · rw [h, one_mul, Nat.pow_eq_one]
    omega

/-- The last of the bits of a fragment, in its word. -/
theorem testBit_enc : f.enc.testBit (24 - f.bits) = decide (f.idx % 2 = 1) := by
  have hvalue : f.enc.testBit (24 - f.bits) = (cephFragValue f.enc).testBit (24 - f.bits) := by
    rw [cephFragValue, show (0xffffff : Nat) = 2 ^ 24 - 1 from rfl, testBit_and,
      testBit_two_pow_sub_one, decide_eq_true (by omega), Bool.and_true]
  rw [hvalue, value_enc, ← shiftLeft_eq, testBit_shiftLeft, Nat.sub_self, testBit_zero,
    decide_eq_true le_rfl, Bool.true_and]

theorem oneOfTwo_iff : OneOfTwo f.enc ↔ f.bits = 24 ∨ f.enc.testBit (24 - f.bits) = false := by
  have hmod := mod_two_eq_zero_or_one f.idx
  have hone : cephFragIsLeftChild f.enc ≠ cephFragIsRightChild f.enc ↔
      f.bits = 24 ∨ f.idx % 2 = 0 := by
    rw [Ne, Bool.eq_iff_iff, isLeftChild_enc hf, isRightChild_enc hf]
    omega
  rw [testBit_enc hf, decide_eq_false_iff_not, mod_two_not_eq_one]
  refine ⟨fun h => hone.1 h.one, fun h => ?_⟩
  obtain ⟨hl, hr⟩ := children_parent hf
  have hdiv : (f.idx ^^^ 1) / 2 = f.idx / 2 := xor_div_two.trans (Nat.xor_zero _)
  have hmod' : (f.idx ^^^ 1) % 2 = (f.idx + 1) % 2 := xor_mod_two_eq
  refine ⟨hone.2 h, fun hleft => ?_, fun hright => ?_, ?_⟩
  · rw [isLeftChild_enc hf] at hleft
    rw [hl, hr, sibling_enc]
    exact ⟨congrArg f.place (by omega), congrArg f.place (by omega)⟩
  · have hodd := ((isRightChild_enc hf).1 hright).1
    rw [hl, hr, sibling_enc]
    exact ⟨congrArg f.place (by omega), congrArg f.place (by omega)⟩
  · have hlt := xor_lt_two_pow f.idx_lt (Nat.one_lt_two_pow hf.ne')
    rw [sibling_enc]
    refine (sibling_enc (f := ⟨f.bits, f.idx ^^^ 1, f.bits_le, hlt⟩)).trans ?_
    exact congrArg f.place (xor_xor_cancel_right _ _)

end Frag

/-- A well-formed word is cut by its children and is one of the two children of its
parent, unless it has fewer than 24 bits and the last of them is set: no test recognises such
a right child. -/
theorem frag_tree_iff (w : Nat) (hb : cephFragBits w ≤ 24)
    (hv : cephFragValue w &&& cephFragMask w = cephFragValue w) :
    ((∀ nb, cephFragBits w + nb ≤ 24 → CutsInOrder w nb) ∧ (1 ≤ cephFragBits w → OneOfTwo w)) ↔
    (1 ≤ cephFragBits w → cephFragBits w = 24 ∨ w.testBit (24 - cephFragBits w) = false) := by
  obtain ⟨f, rfl⟩ := exists_enc hb hv
  rw [Frag.bits_enc, and_iff_right fun nb => Frag.cutsInOrder]
  exact forall_congr' Frag.oneOfTwo_iff

theorem frag_tree_iff_last :
    (∀ nb, cephFragBits 0x18000001 + nb ≤ 24 → CutsInOrder 0x18000001 nb) ∧
      (1 ≤ cephFragBits 0x18000001 → OneOfTwo 0x18000001) :=
  (frag_tree_iff 0x18000001 (by decide) (by decide)).2 (by decide)

/-- The right half is a child of the root that neither test recognises. -/
theorem right_half_unrecognised : cephFragRightChild 0 = 0x01800000 ∧
    cephFragIsLeftChild 0x01800000 = false ∧ cephFragIsRightChild 0x01800000 = false := by
  decide

end Ceph.Include
