import Ceph.Lib.Word
import Mathlib.Data.Prod.Lex
import Mathlib.Tactic.IntervalCases

set_option autoImplicit false

/-!
# Objects and their order (common/hobject.h, common/hobject.cc, common/reverse.c)

`hobject_t` and `ghobject_t` with their comparison functions.  The comparison is the
lexicographic one of the fields, where the hash counts with its bits reversed and an object
without a key has its name in place of the key.
-/

namespace Ceph.Common

open Ceph.Lib BitVec Nat

abbrev ByteString := List Byte

/-! ## Reversed bits -/

/-- A line of `reverse_bits`: neighbouring blocks of `n` bits are exchanged. -/
def swapBlocks (n : Nat) (mask v : BitVec 32) : BitVec 32 :=
  ((v >>> n) &&& mask) ||| ((v &&& mask) <<< n)

/-- `reverse_bits`. -/
def reverseBits (v : BitVec 32) : BitVec 32 :=
  if v = 0#32 then v
  else
    let v := swapBlocks 1 0x55555555#32 v
    let v := swapBlocks 2 0x33333333#32 v
    let v := swapBlocks 4 0x0F0F0F0F#32 v
    let v := swapBlocks 8 0x00FF00FF#32 v
    (v >>> 16) ||| (v <<< 16)

theorem getLsbD_swapBlocks {n : Nat} {mask : BitVec 32} (v : BitVec 32) (hn : 0 < n)
    (hmask : ∀ i < 32, mask.getLsbD i = decide (i / n % 2 = 0)) {i : Nat} (hi : i < 32) :
    (swapBlocks n mask v).getLsbD i = v.getLsbD (if i / n % 2 = 0 then i + n else i - n) := by
  rw [swapBlocks, getLsbD_or, getLsbD_and, getLsbD_ushiftRight,
    getLsbD_shiftLeft, getLsbD_and, hmask i hi]
  by_cases heven : i / n % 2 = 0
  · -- the block below, if there is one, is not in the mask
    have hbelow : (!decide (i < n) && (v.getLsbD (i - n) && mask.getLsbD (i - n))) = false := by
      by_cases hlt : i < n
      · rw [decide_eq_true hlt, Bool.not_true, Bool.false_and]
      · have hdiv := div_eq_sub_div hn (Nat.le_of_not_lt hlt)
        rw [hmask (i - n) (by omega), decide_eq_false (by omega : ¬ (i - n) / n % 2 = 0),
          Bool.and_false, Bool.and_false]
    rw [Bool.and_assoc, hbelow, if_pos heven, decide_eq_true heven, Bool.and_true, Bool.and_false,
      Bool.or_false, add_comm]
  · have hle : n ≤ i := by
      by_contra hlt
      rw [div_eq_of_lt (Nat.lt_of_not_le hlt)] at heven
      exact heven rfl
    have hdiv := div_eq_sub_div hn hle
    rw [hmask (i - n) (by omega), decide_eq_false heven,
      decide_eq_true (by omega : (i - n) / n % 2 = 0), if_neg heven, Bool.and_false, Bool.false_or,
      Bool.and_true, decide_eq_true hi, decide_eq_false (by omega), Bool.not_false, Bool.true_and,
      Bool.true_and]

theorem getLsbD_reverseBits (v : BitVec 32) {i : Nat} (hi : i < 32) :
    (reverseBits v).getLsbD i = v.getLsbD (31 - i) := by
  rw [reverseBits]
  split
  next h0 => rw [h0, getLsbD_zero, getLsbD_zero]
  next =>
    have hlast : ∀ v : BitVec 32, ((v >>> 16) ||| (v <<< 16)).getLsbD i =
        v.getLsbD (if i / 16 % 2 = 0 then i + 16 else i - 16) := by
      intro v
      rw [getLsbD_or, getLsbD_ushiftRight, getLsbD_shiftLeft, decide_eq_true hi, Bool.true_and]
      by_cases hlow : i < 16
      · rw [decide_eq_true hlow, Bool.not_true, Bool.false_and, Bool.or_false, if_pos (by omega),
          add_comm]
      · rw [decide_eq_false hlow, Bool.not_false, Bool.true_and, if_neg (by omega),
          getLsbD_of_ge _ _ (by omega), Bool.false_or]
    rw [hlast, getLsbD_swapBlocks _ (by decide) (by decide) (by split <;> omega),
      getLsbD_swapBlocks _ (by decide) (by decide) (by split <;> split <;> omega),
      getLsbD_swapBlocks _ (by decide) (by decide) (by split <;> split <;> split <;> omega),
      getLsbD_swapBlocks _ (by decide) (by decide)
        (by split <;> split <;> split <;> split <;> omega)]
    congr 1
    interval_cases i <;> rfl

theorem reverseBits_reverseBits (v : BitVec 32) : reverseBits (reverseBits v) = v := by
  refine eq_of_getLsbD_eq fun i hi => ?_
  rw [getLsbD_reverseBits _ hi, getLsbD_reverseBits _ (by omega), show 31 - (31 - i) = i by omega]

/-! ## Objects -/

/-- `hobject_t`.  `set_key` and the constructors drop a key that is the name, and `is_max` checks
that the maximal object has no other content. -/
structure Hobj where
  name : ByteString
  snap : BitVec 64
  hash : BitVec 32
  max : Bool
  pool : Int64
  nspace : ByteString
  key : ByteString
  key_ne : key = [] ∨ key ≠ name
  max_bare : max = true → name = [] ∧ snap = 0#64 ∧ hash = 0#32 ∧ pool = Int64.minValue ∧
    nspace = [] ∧ key = []
  deriving DecidableEq

/-- `ghobject_t`. -/
structure GHObject where
  hobj : Hobj
  generation : BitVec 64
  shardId : Int8
  max : Bool
  deriving DecidableEq

namespace Hobj

/-- `get_bitwise_key`. -/
def getBitwiseKey (h : Hobj) : Nat := if h.max then 2 ^ 32 else (reverseBits h.hash).toNat

/-- `get_bitwise_key_u32`, with its assertion. -/
def getBitwiseKeyU32 (h : Hobj) : Option (BitVec 32) :=
  if h.max then none else some (reverseBits h.hash)

/-- `get_effective_key`. -/
def getEffectiveKey (h : Hobj) : ByteString := if h.key = [] then h.name else h.key

end Hobj

/-! ## Comparison -/

/-- The step of the comparison functions: the rest counts where the values agree. -/
def cmpThen {α : Type} [LinearOrder α] (a b : α) (rest : Ordering) : Ordering :=
  if a < b then .lt else if b < a then .gt else rest

/-- `cmp` of two `hobject_t`. -/
def Hobj.cmp (l r : Hobj) : Ordering :=
  cmpThen l.max r.max <| cmpThen l.pool.toInt r.pool.toInt <|
  cmpThen l.getBitwiseKey r.getBitwiseKey <| cmpThen l.nspace r.nspace <|
  (fun rest => if l.key = [] ∧ r.key = [] then rest
    else cmpThen l.getEffectiveKey r.getEffectiveKey rest) <|
  cmpThen l.name r.name <| cmpThen l.snap.toNat r.snap.toNat .eq

/-- `cmp` of two `ghobject_t`. -/
def GHObject.cmp (l r : GHObject) : Ordering :=
  cmpThen l.max r.max <| cmpThen l.shardId.toInt r.shardId.toInt <|
  (l.hobj.cmp r.hobj).then <| cmpThen l.generation.toNat r.generation.toNat .eq

/-- What `cmp` compares, in its order. -/
def Hobj.rank (h : Hobj) : Bool ×ₗ Int ×ₗ Nat ×ₗ ByteString ×ₗ ByteString ×ₗ ByteString ×ₗ Nat :=
  toLex (h.max, toLex (h.pool.toInt, toLex (h.getBitwiseKey, toLex (h.nspace,
    toLex (h.getEffectiveKey, toLex (h.name, h.snap.toNat))))))

def GHObject.rank (o : GHObject) :
    Bool ×ₗ Int ×ₗ (Bool ×ₗ Int ×ₗ Nat ×ₗ ByteString ×ₗ ByteString ×ₗ ByteString ×ₗ Nat) ×ₗ Nat :=
  toLex (o.max, toLex (o.shardId.toInt, toLex (o.hobj.rank, o.generation.toNat)))

section Lex

variable {α β : Type} [LinearOrder α] [LinearOrder β]

/-- Two comparisons in a row are one of pairs. -/
theorem cmpThen_pair (a b : α) (x y : β) (rest : Ordering) :
    cmpThen a b (cmpThen x y rest) = cmpThen (toLex (a, x)) (toLex (b, y)) rest := by
  have hlt : ∀ {a b : α} {x y : β}, toLex (a, x) < toLex (b, y) ↔ a < b ∨ a = b ∧ x < y :=
    Prod.Lex.toLex_lt_toLex
  rw [cmpThen, cmpThen, cmpThen, if_congr hlt rfl rfl, if_congr hlt rfl rfl]
  obtain h | rfl | h := lt_trichotomy a b
  · rw [if_pos h, if_pos (.inl h)]
  · have hself : ∀ {x y : β}, (a < a ∨ a = a ∧ x < y) ↔ x < y :=
      ⟨fun hor => hor.elim (fun ha => absurd ha (lt_irrefl a)) And.right, fun h => .inr ⟨rfl, h⟩⟩
    rw [if_neg (lt_irrefl a), if_neg (lt_irrefl a), if_congr hself rfl rfl, if_congr hself rfl rfl]
  · have hnot : ¬ (a < b ∨ a = b ∧ x < y) := by
      rintro (hab | ⟨rfl, _⟩)
      · exact lt_asymm h hab
      · exact lt_irrefl a h
    rw [if_neg (lt_asymm h), if_pos h, if_neg hnot, if_pos (.inl h)]

/-- A second comparison of the same values changes nothing. -/
theorem cmpThen_cmpThen (a b : α) (rest : Ordering) :
    cmpThen a b (cmpThen a b rest) = cmpThen a b rest := by
  unfold cmpThen
  split_ifs <;> rfl

theorem cmpThen_then (a b : α) (rest : Ordering) :
    (cmpThen a b .eq).then rest = cmpThen a b rest := by
  unfold cmpThen
  split_ifs <;> rfl

theorem cmpThen_eq_lt (a b : α) : cmpThen a b .eq = .lt ↔ a < b := by
  rw [cmpThen]
  split
  next h => exact iff_of_true rfl h
  next h =>
    refine iff_of_false ?_ h
    split
    next => exact Ordering.noConfusion
    next => exact Ordering.noConfusion

end Lex

theorem Hobj.cmp_eq (l r : Hobj) : l.cmp r = cmpThen l.rank r.rank .eq := by
  -- without keys the effective keys are the names, which are compared next
  have hkeys : ∀ rest, (if l.key = [] ∧ r.key = [] then cmpThen l.name r.name rest
      else cmpThen l.getEffectiveKey r.getEffectiveKey (cmpThen l.name r.name rest)) =
      cmpThen l.getEffectiveKey r.getEffectiveKey (cmpThen l.name r.name rest) := by
    intro rest
    split
    next h => rw [getEffectiveKey, getEffectiveKey, if_pos h.1, if_pos h.2, cmpThen_cmpThen]
    next => rfl
  rw [cmp]
  dsimp only
  rw [hkeys, rank, rank, ← cmpThen_pair, ← cmpThen_pair, ← cmpThen_pair, ← cmpThen_pair,
    ← cmpThen_pair, ← cmpThen_pair]

theorem GHObject.cmp_eq (l r : GHObject) : l.cmp r = cmpThen l.rank r.rank .eq := by
  rw [cmp, Hobj.cmp_eq, cmpThen_then, rank, rank, ← cmpThen_pair, ← cmpThen_pair, ← cmpThen_pair]

/-! ## The order of objects -/

@[ext] theorem Hobj.ext {l r : Hobj} (hname : l.name = r.name) (hsnap : l.snap = r.snap)
    (hhash : l.hash = r.hash) (hmax : l.max = r.max) (hpool : l.pool = r.pool)
    (hnspace : l.nspace = r.nspace) (hkey : l.key = r.key) : l = r := by
  cases l
  cases r
  cases hname; cases hsnap; cases hhash; cases hmax; cases hpool; cases hnspace; cases hkey
  rfl

/-- The key of an object is found from its effective key and its name. -/
theorem Hobj.key_eq {l r : Hobj} (heff : l.getEffectiveKey = r.getEffectiveKey)
    (hname : l.name = r.name) : l.key = r.key := by
  rw [getEffectiveKey, getEffectiveKey] at heff
  by_cases hl : l.key = []
  · by_cases hr : r.key = []
    · rw [hl, hr]
    · rw [if_pos hl, if_neg hr] at heff
      exact absurd (heff.symm.trans hname) (r.key_ne.resolve_left hr)
  · by_cases hr : r.key = []
    · rw [if_neg hl, if_pos hr] at heff
      exact absurd (heff.trans hname.symm) (l.key_ne.resolve_left hl)
    · rwa [if_neg hl, if_neg hr] at heff

theorem Hobj.rank_injective : Function.Injective Hobj.rank := by
  intro l r h
  obtain ⟨hmax, h⟩ := Prod.mk.inj h
  obtain ⟨hpool, h⟩ := Prod.mk.inj h
  obtain ⟨hhash, h⟩ := Prod.mk.inj h
  obtain ⟨hnspace, h⟩ := Prod.mk.inj h
  obtain ⟨heff, h⟩ := Prod.mk.inj h
  obtain ⟨hname, hsnap⟩ := Prod.mk.inj h
  refine Hobj.ext hname (eq_of_toNat_eq hsnap) ?_ hmax (Int64.toInt_inj.1 hpool) hnspace
    (key_eq heff hname)
  rw [getBitwiseKey, getBitwiseKey, ← hmax] at hhash
  cases hl : l.max with
  | true => rw [(l.max_bare hl).2.2.1, (r.max_bare (hmax ▸ hl)).2.2.1]
  | false =>
    rw [hl] at hhash
    have hbits := eq_of_toNat_eq hhash
    rw [← reverseBits_reverseBits l.hash, hbits, reverseBits_reverseBits]

namespace GHObject

theorem rank_injective : Function.Injective rank := by
  intro l r h
  obtain ⟨hmax, h⟩ := Prod.mk.inj h
  obtain ⟨hshard, h⟩ := Prod.mk.inj h
  obtain ⟨hhobj, hgen⟩ := Prod.mk.inj h
  cases l
  cases r
  cases hmax
  cases Int8.toInt_inj.1 hshard
  cases Hobj.rank_injective hhobj
  cases eq_of_toNat_eq hgen
  rfl

/-- The order of `ghobject_t`. -/
instance : LinearOrder GHObject := LinearOrder.lift' rank rank_injective

theorem lt_iff_rank {l r : GHObject} : l < r ↔ l.rank < r.rank := Iff.rfl

/-- `operator<`. -/
theorem cmp_eq_lt {l r : GHObject} : l.cmp r = .lt ↔ l < r := by
  rw [cmp_eq, cmpThen_eq_lt, lt_iff_rank]

end GHObject

end Ceph.Common
