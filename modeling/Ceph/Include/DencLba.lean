import Ceph.Include.Denc

set_option autoImplicit false

/-!
# Block addresses

`denc_lba`: a word of 32 bits holds a tag for the number of low zero bits, the lowest bits of
what is above them and a bit that says whether groups of seven bits follow.  Four tags are in
use; that each of them is read back is one argument over the three numbers that belong to it.
-/

namespace Ceph.Include

open Ceph.Lib Nat

/-! ## The codec -/

/-- `*(ceph_le32*)p = word`. -/
def putLe32 (word : BitVec 32) : Bytes :=
  [⟨word.setWidth 8⟩, ⟨(word >>> 8).setWidth 8⟩, ⟨(word >>> 16).setWidth 8⟩,
    ⟨(word >>> 24).setWidth 8⟩]

def getLe32 : Bytes → Option (BitVec 32 × Bytes)
  | b₀ :: b₁ :: b₂ :: b₃ :: bytes =>
    some (b₀.toBitVec.setWidth 32 ||| b₁.toBitVec.setWidth 32 <<< 8 |||
      b₂.toBitVec.setWidth 32 <<< 16 ||| b₃.toBitVec.setWidth 32 <<< 24, bytes)
  | _ => none

/-- What is left of the value, the position of it in the word, and the tag. -/
def lbaHead (v : BitVec 64) : BitVec 64 × Nat × BitVec 32 :=
  let t : Int := lowZeroNibbles v - 3
  if t < 0 then (v, 3, 0x7#32)
  else if t < 3 then
    (v >>> (lowZeroNibbles v * 4), t.toNat + 1, BitVec.ofNat 32 ((1 <<< t.toNat) - 1))
  else (v >>> 20, 3, 0x3#32)

/-- The word and the groups. -/
def lbaWrite (fuel : Nat) (v : BitVec 64) (pos : Nat) (tag : BitVec 32) : Option Bytes :=
  let word := tag ||| (v <<< pos &&& 0x7fffffff#64).setWidth 32
  let rest := v >>> (31 - pos)
  if rest = 0#64 then some (putLe32 word)
  else (encodeVarint .unsigned fuel rest).map (putLe32 (word ||| 0x80000000#32) ++ ·)

def encodeLba (fuel : Nat) (v : BitVec 64) : Option Bytes :=
  lbaWrite fuel (lbaHead v).1 (lbaHead v).2.1 (lbaHead v).2.2

/-- The bits that the word holds, and the shift of the first group. -/
def lbaBase (word : BitVec 32) : BitVec 64 × Nat :=
  match (word &&& 7#32).toNat with
  | 0 | 2 | 4 | 6 => ((word &&& 0x7ffffffe#32).setWidth 64 <<< (12 - 1), 12 + 30)
  | 1 | 5 => ((word &&& 0x7ffffffc#32).setWidth 64 <<< (16 - 2), 16 + 29)
  | 3 => ((word &&& 0x7ffffff8#32).setWidth 64 <<< (20 - 3), 20 + 28)
  | _ => ((word &&& 0x7ffffff8#32).setWidth 64 >>> 3, 28)

def decodeLba (bytes : Bytes) : Option (BitVec 64 × Bytes) := do
  let (word, bytes) ← getLe32 bytes
  readGroups (lbaBase word).2 ⟨(word >>> 24).setWidth 8⟩ (lbaBase word).1 bytes

def dencLba : Codec 64 := ⟨8 + 2, encodeLba, decodeLba⟩

/-! ## Words -/

theorem getLe32_putLe32 (word : BitVec 32) (bytes : Bytes) :
    getLe32 (putLe32 word ++ bytes) = some (word, bytes) := by
  have hword : (word.setWidth 8).setWidth 32 ||| ((word >>> 8).setWidth 8).setWidth 32 <<< 8 |||
      ((word >>> 16).setWidth 8).setWidth 32 <<< 16 |||
      ((word >>> 24).setWidth 8).setWidth 32 <<< 24 = word := by
    apply BitVec.eq_of_getLsbD_eq
    simp only [BitVec.getLsbD_or, BitVec.getLsbD_setWidth, BitVec.getLsbD_shiftLeft,
      BitVec.getLsbD_ushiftRight]
    all_goals grind
  exact congrArg (fun w => some (w, bytes)) hword

/-- The bits of a word from `p` on, without the highest one. -/
theorem mask_toNat (mask word : BitVec 32) {p : Nat}
    (hmask : mask.toNat = (2 ^ (31 - p) - 1) * 2 ^ p) :
    ((word &&& mask).setWidth 64).toNat = word.toNat / 2 ^ p % 2 ^ (31 - p) * 2 ^ p := by
  rw [BitVec.toNat_setWidth, mod_eq_of_lt (by omega), BitVec.toNat_and, hmask, and_mask]

/-! ## Tags -/

/-- The numbers that belong to a tag: where the value stands in the word, and how many low
zero bits it had. -/
structure LbaForm where
  pos : Nat
  tag : Nat
  zeros : Nat
  deriving DecidableEq

def lbaForms : List LbaForm := [⟨1, 0, 12⟩, ⟨2, 1, 16⟩, ⟨3, 3, 20⟩, ⟨3, 7, 0⟩]

theorem lbaForms_cases {F : LbaForm} (h : F ∈ lbaForms) :
    F = ⟨1, 0, 12⟩ ∨ F = ⟨2, 1, 16⟩ ∨ F = ⟨3, 3, 20⟩ ∨ F = ⟨3, 7, 0⟩ := by
  simpa [lbaForms] using h

theorem lbaHead_form (v : BitVec 64) : ∃ F ∈ lbaForms, 2 ^ F.zeros ∣ v.toNat ∧
    lbaHead v = (v >>> F.zeros, F.pos, BitVec.ofNat 32 F.tag) := by
  have hdvd := lowZeroNibbles_dvd v
  unfold lbaHead
  generalize lowZeroNibbles v = nibbles at hdvd
  obtain h | rfl | rfl | h : nibbles < 3 ∨ nibbles = 3 ∨ nibbles = 4 ∨ 5 ≤ nibbles := by omega
  · refine ⟨⟨3, 7, 0⟩, by decide, one_dvd _, ?_⟩
    rw [if_pos (by omega), BitVec.ushiftRight_zero]
  · exact ⟨⟨1, 0, 12⟩, by decide, hdvd, rfl⟩
  · exact ⟨⟨2, 1, 16⟩, by decide, hdvd, rfl⟩
  · have hzeros : 20 ≤ nibbles * 4 := by omega
    refine ⟨⟨3, 3, 20⟩, by decide, dvd_trans (pow_dvd_pow 2 hzeros) hdvd, ?_⟩
    rw [if_neg (by omega)]
    by_cases hfive : nibbles = 5
    · subst hfive
      rfl
    · rw [if_neg (by omega)]

theorem lbaBase_form {F : LbaForm} (hF : F ∈ lbaForms) {word : BitVec 32} {lo c : Nat}
    (hlo : lo < 2 ^ (31 - F.pos)) (hword : word.toNat = 2 ^ F.pos * lo + F.tag + c * 2 ^ 31) :
    (lbaBase word).1.toNat = lo * 2 ^ F.zeros ∧ (lbaBase word).2 = F.zeros + (31 - F.pos) := by
  have h7 : (word &&& 7#32).toNat = word.toNat % 8 := and_two_pow_sub_one_eq_mod word.toNat 3
  rw [lbaBase, h7]
  obtain rfl | rfl | rfl | rfl := lbaForms_cases hF <;> dsimp only at hlo hword ⊢
  · have hmask := mask_toNat 0x7ffffffe#32 word (p := 1) rfl
    obtain h | h | h | h : word.toNat % 8 = 0 ∨ word.toNat % 8 = 2 ∨ word.toNat % 8 = 4 ∨
      word.toNat % 8 = 6 := by omega
    all_goals
      rw [h]
      refine ⟨(BitVec.toNat_shiftLeft ..).trans ?_, rfl⟩
      omega
  · have hmask := mask_toNat 0x7ffffffc#32 word (p := 2) rfl
    obtain h | h : word.toNat % 8 = 1 ∨ word.toNat % 8 = 5 := by omega
    all_goals
      rw [h]
      refine ⟨(BitVec.toNat_shiftLeft ..).trans ?_, rfl⟩
      omega
  · have hmask := mask_toNat 0x7ffffff8#32 word (p := 3) rfl
    rw [show word.toNat % 8 = 3 by omega]
    refine ⟨(BitVec.toNat_shiftLeft ..).trans ?_, rfl⟩
    omega
  · have hmask := mask_toNat 0x7ffffff8#32 word (p := 3) rfl
    rw [show word.toNat % 8 = 7 by omega]
    refine ⟨(BitVec.toNat_ushiftRight ..).trans ?_, rfl⟩
    omega

/-! ## Round trip -/

section Form

variable {F : LbaForm} (hF : F ∈ lbaForms) (v : BitVec 64)
include hF

/-- The word that is written for what is left of a value. -/
theorem lbaWord_toNat :
    (BitVec.ofNat 32 F.tag ||| (v <<< F.pos &&& 0x7fffffff#64).setWidth 32).toNat =
      2 ^ F.pos * (v.toNat % 2 ^ (31 - F.pos)) + F.tag := by
  have hpos : F.pos ≤ 31 ∧ F.tag < 2 ^ F.pos := by
    obtain rfl | rfl | rfl | rfl := lbaForms_cases hF <;> decide
  have hpow : 2 ^ F.pos * 2 ^ (31 - F.pos) = 2 ^ 31 := by
    rw [← Nat.pow_add, Nat.add_sub_cancel' hpos.1]
  have hbits : (v <<< F.pos &&& 0x7fffffff#64).toNat =
      2 ^ F.pos * (v.toNat % 2 ^ (31 - F.pos)) := by
    have hmask : (v <<< F.pos).toNat &&& 0x7fffffff = (v <<< F.pos).toNat % 2 ^ 31 :=
      and_two_pow_sub_one_eq_mod _ 31
    have hdvd : (2 : Nat) ^ 31 ∣ 2 ^ 64 := pow_dvd_pow 2 (by decide)
    refine (BitVec.toNat_and ..).trans (hmask.trans ?_)
    rw [BitVec.toNat_shiftLeft, shiftLeft_eq, mod_mod_of_dvd _ hdvd, ← hpow, mul_comm,
      mul_mod_mul_left]
  have hlt : 2 ^ F.pos * (v.toNat % 2 ^ (31 - F.pos)) < 2 ^ 31 := by
    rw [← hpow]
    exact Nat.mul_lt_mul_of_pos_left (Nat.mod_lt _ (Nat.two_pow_pos _)) (Nat.two_pow_pos _)
  have htag : F.tag < 2 ^ 31 := lt_of_lt_of_le hpos.2 (Nat.pow_le_pow_right (by decide) hpos.1)
  have htag' : (BitVec.ofNat 32 F.tag).toNat = F.tag := by
    rw [BitVec.toNat_ofNat, mod_eq_of_lt (by omega)]
  have hbits' : ((v <<< F.pos &&& 0x7fffffff#64).setWidth 32).toNat =
      2 ^ F.pos * (v.toNat % 2 ^ (31 - F.pos)) := by
    rw [BitVec.toNat_setWidth, hbits]
    exact mod_eq_of_lt (lt_trans hlt (by decide))
  rw [BitVec.toNat_or, htag', hbits', Nat.or_comm, Nat.two_pow_add_eq_or_of_lt hpos.2]

omit hF in
theorem topByte_continues (word : BitVec 32) :
    (⟨(word >>> 24).setWidth 8⟩ : UInt8) &&& 0x80 = 0 ↔ word.toNat < 2 ^ 31 := by
  rw [and_high_eq_zero_iff]
  show ((word >>> 24).setWidth 8).toNat < 128 ↔ _
  rw [BitVec.toNat_setWidth, BitVec.toNat_ushiftRight]
  omega

/-- What is left of a value is written, and the value is read back. -/
theorem lbaWrite_lossless (hdvd : 2 ^ F.zeros ∣ v.toNat) :
    ∃ bytes, (∀ fuel, 64 < fuel →
        lbaWrite fuel (v >>> F.zeros) F.pos (BitVec.ofNat 32 F.tag) = some bytes) ∧
      bytes.length ≤ 10 ∧ ∀ rest, decodeLba (bytes ++ rest) = some (v, rest) := by
  obtain ⟨x, hx⟩ : ∃ x, v >>> F.zeros = x := ⟨_, rfl⟩
  have hv : v.toNat = x.toNat * 2 ^ F.zeros := by
    rw [← hx, BitVec.toNat_ushiftRight, Nat.shiftRight_eq_div_pow, Nat.div_mul_cancel hdvd]
  have hlo : x.toNat % 2 ^ (31 - F.pos) < 2 ^ (31 - F.pos) := mod_lt _ (Nat.two_pow_pos _)
  have hsplit := mod_add_div x.toNat (2 ^ (31 - F.pos))
  have hhi : (x >>> (31 - F.pos)).toNat = x.toNat / 2 ^ (31 - F.pos) := by
    rw [BitVec.toNat_ushiftRight, shiftRight_eq_div_pow]
  have hword := lbaWord_toNat hF x
  obtain ⟨word, hword'⟩ :
    ∃ word, BitVec.ofNat 32 F.tag ||| (x <<< F.pos &&& 0x7fffffff#64).setWidth 32 = word := ⟨_, rfl⟩
  rw [hword'] at hword
  rw [hx]
  unfold lbaWrite
  rw [hword']
  have hsmall : word.toNat < 2 ^ 31 := by
    rw [hword]
    obtain rfl | rfl | rfl | rfl := lbaForms_cases hF <;> dsimp only at hlo ⊢ <;> omega
  by_cases hrest : x >>> (31 - F.pos) = 0#64
  · refine ⟨putLe32 word, fun _ _ => by rw [if_pos hrest], (by decide : 4 ≤ 10), fun rest => ?_⟩
    have hbase := lbaBase_form hF hlo (c := 0) (by rw [hword]; omega)
    rw [eq_zero_iff_toNat, hhi] at hrest
    rw [hrest, mul_zero, add_zero] at hsplit
    rw [hsplit, ← hv] at hbase
    rw [decodeLba, getLe32_putLe32]
    show readGroups _ _ _ rest = _
    rw [BitVec.eq_of_toNat_eq hbase.1]
    cases rest <;> rw [readGroups, if_pos ((topByte_continues word).2 hsmall)]
  · have hcont : (word ||| 0x80000000#32).toNat = word.toNat + 2 ^ 31 := by
      have hor := two_pow_add_eq_or_of_lt hsmall 1
      rw [BitVec.toNat_or, Nat.or_comm]
      exact hor.symm.trans (add_comm _ _)
    refine ⟨putLe32 (word ||| 0x80000000#32) ++ groups (x >>> (31 - F.pos)).toNat,
      fun fuel hfuel => ?_, ?_, fun rest => ?_⟩
    · rw [if_neg hrest, encodeVarint_eq (by decide) (fun h => by cases h) hfuel, Option.map_some]
    · have hsix : (x >>> (31 - F.pos)).toNat < 128 ^ 6 := by
        rw [hhi]
        obtain rfl | rfl | rfl | rfl := lbaForms_cases hF <;> dsimp only <;> omega
      have hlen := length_groups_le 5 _ hsix
      rw [List.length_append]
      exact Nat.add_le_add_left hlen 4
    · have hbase := lbaBase_form hF hlo (c := 1) (by rw [hcont]; omega)
      have hmore : ¬ (⟨((word ||| 0x80000000#32) >>> 24).setWidth 8⟩ : UInt8) &&& 0x80 = 0 := by
        rw [topByte_continues]
        omega
      rw [decodeLba, List.append_assoc, getLe32_putLe32]
      show readGroups _ _ _ (groups _ ++ rest) = _
      rw [readGroups_of_more hmore, ungroup_groups, hbase.2]
      refine congrArg (fun u => some (u, rest)) (BitVec.eq_of_toNat_eq ?_)
      have hlow : x.toNat % 2 ^ (31 - F.pos) * 2 ^ F.zeros < 2 ^ (F.zeros + (31 - F.pos)) := by
        rw [pow_add, mul_comm]
        exact mul_lt_mul_of_pos_left hlo (Nat.two_pow_pos _)
      have hsum : x.toNat / 2 ^ (31 - F.pos) * 2 ^ (F.zeros + (31 - F.pos)) +
          x.toNat % 2 ^ (31 - F.pos) * 2 ^ F.zeros = v.toNat := by
        calc _ = (x.toNat % 2 ^ (31 - F.pos) + 2 ^ (31 - F.pos) * (x.toNat / 2 ^ (31 - F.pos))) *
              2 ^ F.zeros := by rw [pow_add]; ring
          _ = v.toNat := by rw [hsplit, hv]
      have hlt := v.isLt
      have hhigh : (BitVec.ofNat 64 (x >>> (31 - F.pos)).toNat <<< (F.zeros + (31 - F.pos))).toNat =
            2 ^ (F.zeros + (31 - F.pos)) * (x.toNat / 2 ^ (31 - F.pos)) := by
        rw [BitVec.ofNat_toNat, BitVec.setWidth_eq, BitVec.toNat_shiftLeft, shiftLeft_eq, hhi,
          mul_comm]
        refine mod_eq_of_lt (lt_of_le_of_lt ?_ hlt)
        rw [← hsum, mul_comm]
        exact le_add_right _ _
      rw [BitVec.toNat_or, hbase.1, hhigh, Nat.or_comm, ← Nat.two_pow_add_eq_or_of_lt hlow,
        mul_comm, hsum]

end Form

theorem dencLba_lossless (v : BitVec 64) : dencLba.Lossless v := by
  obtain ⟨_, hF, hdvd, hhead⟩ := lbaHead_form v
  obtain ⟨bytes, henc, hlen, hdec⟩ := lbaWrite_lossless hF v hdvd
  refine ⟨bytes, ⟨65, fun fuel hfuel => ?_⟩, hlen, hdec⟩
  show encodeLba fuel v = some bytes
  rw [encodeLba, hhead]
  exact henc fuel hfuel

/-! ## All codecs -/

inductive CodecForm where
  | varint (T : IntType)
  | signedVarint
  | varintLowz
  | signedVarintLowz
  | lba
  deriving DecidableEq, Repr

def CodecForm.codec : CodecForm → Codec 64
  | .varint T => dencVarint T 64
  | .signedVarint => dencSignedVarint
  | .varintLowz => dencVarintLowz
  | .signedVarintLowz => dencSignedVarintLowz
  | .lba => dencLba

/-- The values that leave room for the bits a codec adds. -/
def CodecForm.Fits : CodecForm → BitVec 64 → Prop
  | .varint _, v => v.toNat < 2 ^ 63
  | .signedVarint, v => -2 ^ 62 < v.toInt ∧ v.toInt < 2 ^ 62
  | .varintLowz, v => v.toNat < 2 ^ 62 ∨ 16 ∣ v.toNat
  | .signedVarintLowz, v =>
    v.toInt ≠ -2 ^ 63 ∧ (v.toInt.natAbs < 2 ^ 60 ∨ (16 : Int) ∣ v.toInt)
  | .lba, _ => True

/-- A codec ends, keeps to its bound and reads back what it wrote for exactly the values that
leave room for the bits it adds. -/
theorem codec_lossless_iff (f : CodecForm) (v : BitVec 64) : f.codec.Lossless v ↔ f.Fits v := by
  cases f with
  | varint T => exact dencVarint_lossless_iff T v
  | signedVarint => exact dencSignedVarint_lossless_iff v
  | varintLowz => exact dencVarintLowz_lossless_iff v
  | signedVarintLowz => exact dencSignedVarintLowz_lossless_iff v
  | lba => exact iff_of_true (dencLba_lossless v) trivial

/-- The largest unsigned value takes ten bytes where nine are announced; a signed value of
`2 ^ 62` is written without end; and the codecs that count nibbles lose the top bits. -/
theorem codecs_lossy :
    ((dencVarint .unsigned 64).encode 10 (BitVec.ofNat 64 (2 ^ 64 - 1)) =
        some [255, 255, 255, 255, 255, 255, 255, 255, 255, 1] ∧
      (dencVarint .unsigned 64).bound = 9) ∧
    (∀ fuel, dencSignedVarint.encode fuel (BitVec.ofNat 64 (2 ^ 62)) = none) ∧
    ((dencVarintLowz.encode 10 (BitVec.ofNat 64 (2 ^ 62 + 1))).bind dencVarintLowz.decode =
      some (1#64, [])) ∧
    ((dencSignedVarintLowz.encode 10 (BitVec.ofNat 64 (2 ^ 61 + 1))).bind
        dencSignedVarintLowz.decode = some (1#64, [])) := by
  refine ⟨by decide +kernel, fun fuel => ?_, by decide +kernel, by decide +kernel⟩
  exact writeGroups_negative fuel _ _ (by decide +kernel)

end Ceph.Include
