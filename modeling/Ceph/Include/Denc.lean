import Ceph.Lib.RoundTrip
import Ceph.Lib.Word

set_option autoImplicit false

/-!
# Compact integer codecs

The varint family of `include/denc.h`: integers are written as groups of seven bits, some of
the codecs first shift the value to make room for a sign and for a number of low zero nibbles.
An integer is its bit vector; whether its C type has a sign shows in how it is shifted right.
Signed shifts and negations wrap around.

The loops that write have fuel, since one of them need not end; the loops that read go through
the bytes.  A read past the end is `none`.
-/

namespace Ceph.Include

open Ceph.Lib Option Nat BitVec

abbrev Bytes := List UInt8

/-- Whether an integer type has a sign. -/
inductive IntType where
  | unsigned
  | signed
  deriving DecidableEq, Repr

/-- `v >> n`. -/
def IntType.shiftRight {w : Nat} : IntType → BitVec w → Nat → BitVec w
  | .unsigned, v, n => v >>> n
  | .signed, v, n => v.sshiftRight n

/-! ## The codecs -/

/-- `uint8_t byte = v & 0x7f`. -/
def lowByte {w : Nat} (v : BitVec w) : UInt8 := ⟨(v &&& 0x7f#w).setWidth 8⟩

/-- The loop that writes the groups: the byte that is to be written, and what follows. -/
def writeGroups (T : IntType) {w : Nat} : Nat → UInt8 → BitVec w → Option Bytes
  | 0, _, _ => none
  | fuel + 1, byte, v =>
    if v = 0#w then some [byte]
    else (writeGroups T fuel (lowByte v) (T.shiftRight v 7)).map ((byte ||| 0x80) :: ·)

/-- The loop that reads the groups: the last byte that was read, and the value so far. -/
def readGroups {w : Nat} (shift : Nat) (byte : UInt8) (v : BitVec w) (bytes : Bytes) :
    Option (BitVec w × Bytes) :=
  if byte &&& 0x80 = 0 then some (v, bytes)
  else
    match bytes with
    | [] => none
    | b :: bytes =>
      readGroups (shift + 7) b (v ||| (b &&& 0x7f).toBitVec.setWidth w <<< shift) bytes

/-- `denc_varint`, to write. -/
def encodeVarint (T : IntType) {w : Nat} (fuel : Nat) (v : BitVec w) : Option Bytes :=
  writeGroups T fuel (lowByte v) (T.shiftRight v 7)

/-- `denc_varint`, to read. -/
def decodeVarint (w : Nat) : Bytes → Option (BitVec w × Bytes)
  | [] => none
  | b :: bytes => readGroups 7 b ((b &&& 0x7f).toBitVec.setWidth w) bytes

/-- The three forms of a codec: the announced bound, what is written and what is read. -/
structure Codec (w : Nat) where
  bound : Nat
  encode : Nat → BitVec w → Option Bytes
  decode : Bytes → Option (BitVec w × Bytes)

/-- The value as something to write. -/
def Codec.write {w : Nat} (c : Codec w) (v : BitVec w) : Writer UInt8 := fun fuel => c.encode fuel v

/-- A codec that changes the value before it is written as groups, and back. -/
def varintCodec (bound w : Nat) (T : IntType) (pack unpack : BitVec w → BitVec w) : Codec w where
  bound := bound
  encode := fun fuel v => encodeVarint T fuel (pack v)
  decode := fun bytes => (decodeVarint w bytes).map fun res => (unpack res.1, res.2)

def dencVarint (T : IntType) (w : Nat) : Codec w := varintCodec (w / 8 + 1) w T id id

/-- The sign stands in the lowest bit. -/
def packSigned (v : BitVec 64) : BitVec 64 :=
  if v.slt 0#64 then (-v) <<< 1 ||| 1#64 else v <<< 1

def unpackSigned (i : BitVec 64) : BitVec 64 :=
  if i &&& 1#64 ≠ 0#64 then -(i.sshiftRight 1) else i.sshiftRight 1

def dencSignedVarint : Codec 64 := varintCodec (8 + 2) 64 .signed packSigned unpackSigned

/-- `v ? (ctz(v) / 4) : 0`. -/
def lowZeroNibbles (v : BitVec 64) : Nat := if v ≠ 0#64 then v.ctz.toNat / 4 else 0

/-- At most three nibbles are left out. -/
def lowznib (v : BitVec 64) : Nat := if 3 < lowZeroNibbles v then 3 else lowZeroNibbles v

/-- The number of nibbles stands in the lowest two bits. -/
def packLowz (v : BitVec 64) : BitVec 64 :=
  (v >>> (lowznib v * 4)) <<< 2 ||| BitVec.ofNat 64 (lowznib v)

def unpackLowz (i : BitVec 64) : BitVec 64 := (i >>> 2) <<< ((i &&& 3#64).toNat * 4)

def dencVarintLowz : Codec 64 := varintCodec (8 + 2) 64 .unsigned packLowz unpackLowz

/-- The value without its sign, the number of nibbles above the sign. -/
def packSignedLowz (v : BitVec 64) : BitVec 64 :=
  let negative := v.slt 0#64
  let v := if negative then -v else v
  (v.sshiftRight (lowznib v * 4)) <<< 3 ||| BitVec.ofNat 64 (lowznib v <<< 1) |||
    BitVec.ofNat 64 negative.toNat

def unpackSignedLowz (i : BitVec 64) : BitVec 64 :=
  let nib := ((i &&& 6#64).sshiftRight 1).toNat
  if i &&& 1#64 ≠ 0#64 then -((i.sshiftRight 3) <<< (nib * 4))
  else (i.sshiftRight 3) <<< (nib * 4)

def dencSignedVarintLowz : Codec 64 :=
  varintCodec (8 + 2) 64 .signed packSignedLowz unpackSignedLowz

/-! ## Bytes -/

section Bytes

variable {w : Nat}

theorem and_lowMask (n : Nat) : n &&& 127 = n % 128 := and_two_pow_sub_one_eq_mod n 7

theorem lowByte_toNat (hw : 7 ≤ w) (v : BitVec w) : (lowByte v).toNat = v.toNat % 128 := by
  have hpow : 2 ^ 7 ≤ 2 ^ w := Nat.pow_le_pow_right (by decide) hw
  have hmask : (127#w).toNat = 127 := by
    rw [toNat_ofNat, mod_eq_of_lt (by omega)]
  show ((v &&& 127#w).setWidth 8).toNat = v.toNat % 128
  rw [toNat_setWidth, toNat_and, hmask, and_lowMask]
  omega

theorem or_high_toNat {b : UInt8} (h : b.toNat < 128) : (b ||| 0x80).toNat = b.toNat + 128 := by
  rw [UInt8.toNat_or, Nat.or_comm]
  have hor := two_pow_add_eq_or_of_lt (i := 7) h 1
  exact hor.symm.trans (add_comm _ _)

theorem and_high_eq_zero_iff (b : UInt8) : b &&& 0x80 = 0 ↔ b.toNat < 128 := by
  have hall : ∀ n : Fin 256, n.val &&& 128 = 0 ↔ n.val < 128 := by decide +kernel
  rw [← UInt8.toNat_inj]
  exact hall ⟨b.toNat, b.toNat_lt⟩

theorem shiftRight_toNat {T : IntType} {v : BitVec w} (h : T = .signed → v.msb = false) (n : Nat) :
    (T.shiftRight v n).toNat = v.toNat / 2 ^ n := by
  cases T with
  | unsigned => rw [IntType.shiftRight, toNat_ushiftRight, shiftRight_eq_div_pow]
  | signed =>
    rw [IntType.shiftRight, sshiftRight_eq_of_msb_false (h rfl),
      toNat_ushiftRight, shiftRight_eq_div_pow]

end Bytes

/-! ## The loops -/

section Loops

variable {w : Nat} {T : IntType}

theorem eq_zero_iff_toNat (v : BitVec w) : v = 0#w ↔ v.toNat = 0 := by
  rw [← toNat_inj, toNat_ofNat, zero_mod]

theorem writeGroups_last (hw : 7 ≤ w) {v : BitVec w} (hsign : T = .signed → v.msb = false)
    (hlt : v.toNat < 128) (fuel : Nat) :
    writeGroups T (fuel + 1) (lowByte v) (T.shiftRight v 7) = some (groups v.toNat) := by
  have hzero : T.shiftRight v 7 = 0#w := by
    rw [eq_zero_iff_toNat, shiftRight_toNat hsign]
    omega
  have hbyte : lowByte v = UInt8.ofNat v.toNat := by
    rw [← UInt8.toNat_inj, lowByte_toNat hw, ofNat_toNat_of_lt (by omega)]
    omega
  rw [writeGroups, if_pos hzero, groups_of_lt hlt, hbyte]

theorem writeGroups_eq (hw : 7 ≤ w) (k : Nat) (v : BitVec w)
    (hsign : T = .signed → v.msb = false) (hlt : v.toNat < 128 ^ (k + 1)) :
    writeGroups T (k + 1) (lowByte v) (T.shiftRight v 7) =
      some (groups v.toNat) := by
  induction k generalizing v with
  | zero => exact writeGroups_last hw hsign hlt 0
  | succ k ih =>
    obtain hsmall | hge := lt_or_ge v.toNat 128
    · exact writeGroups_last hw hsign hsmall (k + 1)
    · have hnext : (T.shiftRight v 7).toNat = v.toNat / 128 := shiftRight_toNat hsign 7
      have hne : T.shiftRight v 7 ≠ 0#w := by
        rw [ne_eq, eq_zero_iff_toNat]
        omega
      have hsign' : T = .signed → (T.shiftRight v 7).msb = false := by
        rintro rfl
        exact msb_sshiftRight.trans (hsign rfl)
      have hlt' : (T.shiftRight v 7).toNat < 128 ^ (k + 1) := by
        rw [hnext]
        exact Nat.div_lt_of_lt_mul (by rw [← pow_succ']; exact hlt)
      have hbyte : lowByte v ||| 0x80 = UInt8.ofNat (v.toNat % 128 + 128) := by
        have hlow := lowByte_toNat hw v
        rw [← UInt8.toNat_inj, or_high_toNat (by omega), hlow, ofNat_toNat_of_lt (by omega)]
      rw [writeGroups, if_neg hne, ih _ hsign' hlt', hnext, map_some, hbyte, groups_of_ge hge]

/-- Every shift of a negative number is negative, so the loop does not end. -/
theorem writeGroups_negative (fuel : Nat) (byte : UInt8) (v : BitVec w) (hneg : v.msb = true) :
    writeGroups .signed fuel byte v = none := by
  induction fuel generalizing byte v with
  | zero => rfl
  | succ _ ih =>
    have hne : v ≠ 0#w := by
      rintro rfl
      rw [msb_zero] at hneg
      cases hneg
    rw [writeGroups, if_neg hne, IntType.shiftRight, ih _ _ (msb_sshiftRight.trans hneg), map_none]

theorem ofNat_or_shift (n m : Nat) (h : n < 128) :
    BitVec.ofNat w n ||| BitVec.ofNat w m <<< 7 = BitVec.ofNat w (n + 128 * m) := by
  apply eq_of_toNat_eq
  have hor := two_pow_add_eq_or_of_lt (i := 7) h m
  rw [toNat_or, toNat_shiftLeft, toNat_ofNat, toNat_ofNat,
    toNat_ofNat, Nat.shiftLeft_eq, Nat.mod_mul_mod, ← Nat.or_mod_two_pow, Nat.or_comm,
    mul_comm m, ← hor, add_comm]

theorem setWidth_and_low {b : UInt8} :
    ((b &&& 0x7f).toBitVec.setWidth w) = BitVec.ofNat w (b.toNat % 128) := by
  apply eq_of_toNat_eq
  rw [toNat_setWidth]
  exact congrArg (· % 2 ^ w) (and_lowMask _)

/-- The number that the bytes hold is added above the shift. -/
theorem readGroups_eq (bytes : Bytes) (shift : Nat) (b : UInt8) (v : BitVec w) :
    readGroups (shift + 7) b (v ||| (b &&& 0x7f).toBitVec.setWidth w <<< shift) bytes =
      (ungroup (b :: bytes)).map fun res => (v ||| BitVec.ofNat w res.1 <<< shift, res.2) := by
  induction bytes generalizing shift b v with
  | nil =>
    simp only [readGroups, ungroup, setWidth_and_low, and_high_eq_zero_iff]
    split
    next hlast => rw [map_some, mod_eq_of_lt hlast]
    · rfl
  | cons _ _ ih =>
    rw [readGroups, ungroup]
    simp only [and_high_eq_zero_iff]
    split
    next hlast => rw [map_some, setWidth_and_low, mod_eq_of_lt hlast]
    · rw [ih, map_map]
      congr 1
      funext res
      dsimp only [Function.comp_apply]
      have hlow : b.toNat - 128 = b.toNat % 128 := by
        have hb := b.toNat_lt
        omega
      rw [setWidth_and_low, hlow, ← ofNat_or_shift _ _ (mod_lt _ (by decide)),
        BitVec.shiftLeft_or_distrib, ← BitVec.shiftLeft_add, add_comm 7, BitVec.or_assoc]

theorem readGroups_of_more {byte : UInt8} (h : ¬ byte &&& 0x80 = 0) (shift : Nat) (v : BitVec w)
    (bytes : Bytes) : readGroups shift byte v bytes =
      (ungroup bytes).map fun res => (v ||| BitVec.ofNat w res.1 <<< shift, res.2) := by
  cases bytes with
  | nil =>
    rw [readGroups, if_neg h]
    rfl
  | cons => rw [readGroups, if_neg h, readGroups_eq]

theorem decodeVarint_eq (bytes : Bytes) : decodeVarint w bytes =
    (ungroup bytes).map fun res => (BitVec.ofNat w res.1, res.2) := by
  cases bytes with
  | nil => rfl
  | cons b bytes =>
    have h := readGroups_eq bytes 0 b (0#w)
    simp only [BitVec.shiftLeft_zero, BitVec.zero_or, zero_add] at h
    exact h

/-- With enough fuel for all groups of the width. -/
theorem encodeVarint_eq (hw : 7 ≤ w) {v : BitVec w} (hsign : T = .signed → v.msb = false)
    {fuel : Nat} (hfuel : w < fuel) : encodeVarint T fuel v = some (groups v.toNat) := by
  obtain ⟨k, rfl⟩ := Nat.exists_eq_add_of_lt hfuel
  refine writeGroups_eq hw (w + k) v hsign (lt_of_lt_of_le v.isLt ?_)
  calc 2 ^ w ≤ 128 ^ w := Nat.pow_le_pow_left (by decide) w
    _ ≤ 128 ^ (w + k + 1) := Nat.pow_le_pow_right (by decide) (by omega)

end Loops

/-! ## Lossless codecs -/

/-- The codec writes a value within its bound, and reads it back from what it wrote, whatever
follows. -/
def Codec.Lossless {w : Nat} (c : Codec w) (v : BitVec w) : Prop :=
  ∃ bytes, (∃ n, ∀ fuel, n ≤ fuel → c.encode fuel v = some bytes) ∧ bytes.length ≤ c.bound ∧
    ∀ rest, c.decode (bytes ++ rest) = some (v, rest)

theorem Codec.Lossless.roundTrip {w : Nat} {c : Codec w} {v : BitVec w} (h : c.Lossless v) :
    RoundTrip (c.write v) c.decode v := by
  obtain ⟨bytes, hwrite, _, hread⟩ := h
  exact ⟨bytes, hwrite, hread⟩

theorem varintCodec_lossless_iff {bound w : Nat} {T : IntType} {pack unpack : BitVec w → BitVec w}
    (hw : 7 ≤ w) (v : BitVec w) : (varintCodec bound w T pack unpack).Lossless v ↔
      (T = .signed → (pack v).msb = false) ∧ (groups (pack v).toNat).length ≤ bound ∧
        unpack (pack v) = v := by
  have hread : ∀ rest, (varintCodec bound w T pack unpack).decode
      (groups (pack v).toNat ++ rest) = some (unpack (pack v), rest) := by
    intro rest
    show (decodeVarint w _).map _ = _
    rw [decodeVarint_eq, ungroup_groups, map_some, map_some, ofNat_toNat, setWidth_eq]
  constructor
  · rintro ⟨bytes, ⟨n, henc⟩, hlen, hdec⟩
    have hsign : T = .signed → (pack v).msb = false := by
      rintro rfl
      rw [← Bool.not_eq_true]
      intro hneg
      have hnone : encodeVarint .signed n (pack v) = none :=
        writeGroups_negative n _ _ (msb_sshiftRight.trans hneg)
      exact some_ne_none _ ((henc n (le_refl n)).symm.trans hnone)
    have hall : encodeVarint T (n + w + 1) (pack v) = some bytes := henc (n + w + 1) (by omega)
    have hgroups : groups (pack v).toNat = bytes :=
      some.inj ((encodeVarint_eq hw hsign (by omega)).symm.trans hall)
    subst hgroups
    refine ⟨hsign, hlen, ?_⟩
    have hsame := (hread []).symm.trans (hdec [])
    exact congrArg Prod.fst (some.inj hsame)
  · rintro ⟨hsign, hlen, hinv⟩
    refine ⟨_, ⟨w + 1, fun fuel hfuel => encodeVarint_eq hw hsign hfuel⟩, hlen, fun rest => ?_⟩
    rw [hread, hinv]

/-- Ten bytes are enough for 64 bits. -/
theorem length_groups_toNat (v : BitVec 64) : (groups v.toNat).length ≤ 8 + 2 :=
  length_groups_le 9 _ (lt_of_lt_of_le v.isLt (by decide))

theorem msb_iff_toNat (v : BitVec 64) : v.msb = false ↔ v.toNat < 2 ^ 63 := by
  rw [msb_eq_decide, decide_eq_false_iff_not, not_le]

/-- Without a sign the bound is too small for the upper half; with a sign the loop does not
end for it. -/
theorem dencVarint_lossless_iff (T : IntType) (v : BitVec 64) :
    (dencVarint T 64).Lossless v ↔ v.toNat < 2 ^ 63 := by
  rw [dencVarint, varintCodec_lossless_iff (by decide), id_eq, msb_iff_toNat]
  constructor
  · rintro ⟨_, _, _⟩
    by_contra hge
    have hlong := lt_length_groups 9 v.toNat (by omega)
    omega
  · exact fun hlt => ⟨fun _ => hlt, length_groups_le 8 _ (by omega), rfl⟩


/-! ## The sign in the lowest bit -/

theorem and_one_ne_zero_iff (i : BitVec 64) : i &&& 1#64 ≠ 0#64 ↔ i.toNat % 2 = 1 := by
  rw [ne_eq, ← toNat_inj]
  show ¬ i.toNat &&& 1 = 0 ↔ _
  rw [and_one_is_mod]
  omega

theorem toNat_ite_neg (i x : BitVec 64) : (if i &&& 1#64 ≠ 0#64 then -x else x).toNat =
    if i.toNat % 2 = 1 then (2 ^ 64 - x.toNat) % 2 ^ 64 else x.toNat := by
  rw [apply_ite BitVec.toNat, toNat_neg]
  exact if_congr (and_one_ne_zero_iff i) rfl rfl

variable {v : BitVec 64}

theorem neg_toNat (h : 2 ^ 63 ≤ v.toNat) : (-v).toNat = 2 ^ 64 - v.toNat := by
  rw [toNat_neg, mod_eq_of_lt (by omega)]

/-- `x << n`, with bits below `2 ^ n` added. -/
theorem shiftLeft_or_toNat {x : BitVec 64} {n b : Nat} (hb : b < 2 ^ n) (hn : n ≤ 64) :
    (x <<< n ||| BitVec.ofNat 64 b).toNat = x.toNat * 2 ^ n % 2 ^ 64 + b := by
  have hpow : 2 ^ n * 2 ^ (64 - n) = 2 ^ 64 := by
    rw [← pow_add, Nat.add_sub_cancel' hn]
  have hb' : b < 2 ^ 64 := lt_of_lt_of_le hb (Nat.pow_le_pow_right (by decide) hn)
  have hmod : x.toNat * 2 ^ n % 2 ^ 64 = 2 ^ n * (x.toNat % 2 ^ (64 - n)) := by
    rw [mul_comm, ← hpow, mul_mod_mul_left]
  rw [toNat_or, toNat_shiftLeft, toNat_ofNat, mod_eq_of_lt hb',
    Nat.shiftLeft_eq, hmod, two_pow_add_eq_or_of_lt hb]

theorem packSigned_toNat (v : BitVec 64) : (packSigned v).toNat =
    if v.toNat < 2 ^ 63 then 2 * v.toNat else 2 * (2 ^ 64 - v.toNat) % 2 ^ 64 + 1 := by
  rw [packSigned, slt_zero_eq_msb]
  by_cases hpos : v.toNat < 2 ^ 63
  · rw [(msb_iff_toNat v).2 hpos, if_neg Bool.false_ne_true, if_pos hpos, toNat_shiftLeft]
    omega
  · have hneg : v.msb = true := by
      rw [← Bool.not_eq_false, msb_iff_toNat]
      exact hpos
    rw [hneg, if_neg hpos]
    refine (shiftLeft_or_toNat (by decide) (by decide)).trans ?_
    rw [neg_toNat (not_lt.1 hpos), mul_comm]
    rfl

theorem unpackSigned_toNat {i : BitVec 64} (hi : i.toNat < 2 ^ 63) : (unpackSigned i).toNat =
    if i.toNat % 2 = 1 then (2 ^ 64 - i.toNat / 2) % 2 ^ 64 else i.toNat / 2 := by
  have hshift : (i.sshiftRight 1).toNat = i.toNat / 2 :=
    shiftRight_toNat (T := .signed) (fun _ => (msb_iff_toNat i).2 hi) 1
  rw [unpackSigned, toNat_ite_neg, hshift]

/-- Integers of 32 bits always fit. -/
theorem dencVarint32_lossless (v : BitVec 32) : (dencVarint .unsigned 32).Lossless v := by
  rw [dencVarint, varintCodec_lossless_iff (by decide)]
  exact ⟨(fun h => by cases h), length_groups_le 4 _ (lt_of_lt_of_le v.isLt (by decide)), rfl⟩

/-- The two top bits of the absolute value have to be free. -/
theorem dencSignedVarint_lossless_iff (v : BitVec 64) :
    dencSignedVarint.Lossless v ↔ -2 ^ 62 < v.toInt ∧ v.toInt < 2 ^ 62 := by
  rw [dencSignedVarint, varintCodec_lossless_iff (by decide), toInt_eq_toNat_cond]
  have hpack := packSigned_toNat v
  constructor
  · rintro ⟨hsign, _, hinv⟩
    have hlt := (msb_iff_toNat _).1 (hsign rfl)
    have hnat := congrArg BitVec.toNat hinv
    rw [unpackSigned_toNat hlt] at hnat
    split at hpack <;> split at hnat <;> split <;> omega
  · intro hv'
    have hlt : (packSigned v).toNat < 2 ^ 63 := by
      split at hpack <;> split at hv' <;> omega
    refine ⟨fun _ => (msb_iff_toNat _).2 hlt, length_groups_toNat _, eq_of_toNat_eq ?_⟩
    rw [unpackSigned_toNat hlt]
    split at hpack <;> split at hv' <;> split <;> omega

/-! ## Low zero nibbles -/

theorem lowZeroNibbles_dvd (v : BitVec 64) : 2 ^ (lowZeroNibbles v * 4) ∣ v.toNat := by
  rw [lowZeroNibbles]
  split
  next _ =>
    refine pow_dvd_of_low_bits fun i hi => ?_
    exact getLsbD_false_of_lt_ctz (by omega)
  next => exact one_dvd _

theorem lowZeroNibbles_pos (h : v ≠ 0#64) (hdvd : 16 ∣ v.toNat) : 0 < lowZeroNibbles v := by
  rw [lowZeroNibbles, if_pos h]
  by_contra hzero
  have hbit : v.toNat.testBit v.ctz.toNat = true := getLsbD_true_ctz_of_ne_zero h
  obtain ⟨m, hm⟩ := hdvd
  have hlow : (2 ^ 4 * m).testBit v.ctz.toNat = false := by
    rw [testBit_two_pow_mul, decide_eq_false (by omega), Bool.false_and]
  rw [hm, show (16 : Nat) = 2 ^ 4 from rfl, hlow] at hbit
  cases hbit

theorem lowznib_le (v : BitVec 64) : lowznib v ≤ 3 := by
  rw [lowznib]
  split <;> omega

theorem lowznib_dvd (v : BitVec 64) : 2 ^ (lowznib v * 4) ∣ v.toNat := by
  refine dvd_trans (pow_dvd_pow 2 ?_) (lowZeroNibbles_dvd v)
  rw [lowznib]
  split <;> omega

theorem lowznib_pos (h : v ≠ 0#64) (hdvd : 16 ∣ v.toNat) : 0 < lowznib v := by
  have hpos := lowZeroNibbles_pos h hdvd
  rw [lowznib]
  split <;> omega

theorem and_three_toNat (i : BitVec 64) : (i &&& 3#64).toNat = i.toNat % 4 := by
  exact and_two_pow_sub_one_eq_mod i.toNat 2

theorem packLowz_toNat (v : BitVec 64) : (packLowz v).toNat =
    v.toNat / 2 ^ (lowznib v * 4) * 4 % 2 ^ 64 + lowznib v := by
  have hnib := lowznib_le v
  rw [packLowz, shiftLeft_or_toNat (by omega) (by decide), toNat_ushiftRight, shiftRight_eq_div_pow]
  rfl

/-- Whatever the number of nibbles, they are added again to what is left of the quotient. -/
theorem unpackLowz_packLowz (v : BitVec 64) : (unpackLowz (packLowz v)).toNat =
    v.toNat / 2 ^ (lowznib v * 4) % 2 ^ 62 * 2 ^ (lowznib v * 4) % 2 ^ 64 := by
  have hnib := lowznib_le v
  have hpack := packLowz_toNat v
  have hmod : (packLowz v).toNat % 4 = lowznib v := by omega
  have hdiv : (packLowz v).toNat / 4 = v.toNat / 2 ^ (lowznib v * 4) % 2 ^ 62 := by omega
  rw [unpackLowz, and_three_toNat, toNat_shiftLeft, toNat_ushiftRight,
    shiftRight_eq_div_pow, Nat.shiftLeft_eq, hmod]
  exact congrArg (· * _ % _) hdiv

/-- Two bits have to be free at the top, or four at the bottom. -/
theorem dencVarintLowz_lossless_iff (v : BitVec 64) :
    dencVarintLowz.Lossless v ↔ v.toNat < 2 ^ 62 ∨ 16 ∣ v.toNat := by
  have hle := lowznib_le v
  obtain ⟨q, hq⟩ := lowznib_dvd v
  have hdiv : v.toNat / 2 ^ (lowznib v * 4) = q := by
    rw [hq, Nat.mul_div_cancel_left q (Nat.two_pow_pos _)]
  rw [dencVarintLowz, varintCodec_lossless_iff (by decide), ← toNat_inj, unpackLowz_packLowz, hdiv]
  have hinv : q % 2 ^ 62 * 2 ^ (lowznib v * 4) % 2 ^ 64 = v.toNat ↔
      v.toNat < 2 ^ 62 ∨ 16 ∣ v.toNat := by
    have hpos : v ≠ 0#64 → 16 ∣ v.toNat → 0 < lowznib v := lowznib_pos
    rw [ne_eq, eq_zero_iff_toNat] at hpos
    generalize lowznib v = nib at hle hq hpos
    obtain rfl | rfl | rfl | rfl : nib = 0 ∨ nib = 1 ∨ nib = 2 ∨ nib = 3 := by omega
    all_goals omega
  constructor
  · exact fun h => hinv.1 h.2.2
  · exact fun h => ⟨(fun hs => by cases hs), length_groups_toNat _, hinv.2 h⟩

/-! ## Sign and low zero nibbles -/

/-- The absolute value; that of the least integer is the least integer. -/
def absBits (v : BitVec 64) : BitVec 64 := if v.slt 0#64 then -v else v

theorem absBits_toNat (v : BitVec 64) : (absBits v).toNat = v.toInt.natAbs := by
  rw [absBits, slt_zero_eq_msb, toInt_eq_toNat_cond]
  by_cases hpos : v.toNat < 2 ^ 63
  · rw [(msb_iff_toNat v).2 hpos, if_neg Bool.false_ne_true]
    omega
  · have hneg : v.msb = true := by
      rw [← Bool.not_eq_false, msb_iff_toNat]
      exact hpos
    rw [hneg, if_pos rfl, neg_toNat (not_lt.1 hpos)]
    omega

theorem packSignedLowz_toNat (h : v.toInt.natAbs < 2 ^ 63) :
    (packSignedLowz v).toNat = v.toInt.natAbs / 2 ^ (lowznib (absBits v) * 4) * 8 % 2 ^ 64 +
      lowznib (absBits v) * 2 + v.msb.toNat := by
  have hnib := lowznib_le (absBits v)
  have habs := absBits_toNat v
  have hmsb : (absBits v).msb = false := by rw [msb_iff_toNat, habs]; exact h
  have hsign : v.msb.toNat ≤ 1 := Bool.toNat_le v.msb
  have hlow : lowznib (absBits v) * 2 + v.msb.toNat < 8 := by omega
  have htag : BitVec.ofNat 64 (lowznib (absBits v) <<< 1) ||| BitVec.ofNat 64 v.msb.toNat =
      BitVec.ofNat 64 (lowznib (absBits v) * 2 + v.msb.toNat) := by
    have hor := two_pow_add_eq_or_of_lt (i := 1) (b := v.msb.toNat) (by omega) (lowznib (absBits v))
    apply eq_of_toNat_eq
    rw [toNat_or, toNat_ofNat, toNat_ofNat, toNat_ofNat,
      ← or_mod_two_pow, Nat.shiftLeft_eq, mul_comm, ← hor]
  show ((absBits v).sshiftRight (lowznib (absBits v) * 4) <<< 3 |||
    BitVec.ofNat 64 (lowznib (absBits v) <<< 1) ||| BitVec.ofNat 64 (v.slt 0#64).toNat).toNat = _
  rw [slt_zero_eq_msb, BitVec.or_assoc, htag, shiftLeft_or_toNat hlow (by decide),
    sshiftRight_eq_of_msb_false hmsb, toNat_ushiftRight, shiftRight_eq_div_pow,
    habs, ← add_assoc]
  rfl

/-- The least integer stays negative. -/
theorem packSignedLowz_intMin : (packSignedLowz (BitVec.intMin 64)).msb = true := by
  decide +kernel

theorem unpackSignedLowz_toNat {i : BitVec 64} (hi : i.toNat < 2 ^ 63) :
    (unpackSignedLowz i).toNat =
      if i.toNat % 2 = 1 then (2 ^ 64 - i.toNat / 8 * 2 ^ (i.toNat / 2 % 4 * 4) % 2 ^ 64) % 2 ^ 64
      else i.toNat / 8 * 2 ^ (i.toNat / 2 % 4 * 4) % 2 ^ 64 := by
  have hnib : ((i &&& 6#64).sshiftRight 1).toNat = i.toNat / 2 % 4 := by
    have hand : (i &&& 6#64).msb = false := by
      rw [msb_and, (msb_iff_toNat i).2 hi, Bool.false_and]
    rw [sshiftRight_eq_of_msb_false hand, toNat_ushiftRight, toNat_and, shiftRight_and_distrib]
    exact and_two_pow_sub_one_eq_mod (i.toNat / 2) 2
  have hshift : (i.sshiftRight 3).toNat = i.toNat / 8 :=
    shiftRight_toNat (T := .signed) (fun _ => (msb_iff_toNat i).2 hi) 3
  rw [unpackSignedLowz, hnib, toNat_ite_neg, toNat_shiftLeft, hshift, Nat.shiftLeft_eq]

/-- Four bits have to be free above the absolute value, or at the bottom. -/
theorem dencSignedVarintLowz_lossless_iff (v : BitVec 64) : dencSignedVarintLowz.Lossless v ↔
    v.toInt ≠ -2 ^ 63 ∧ (v.toInt.natAbs < 2 ^ 60 ∨ (16 : Int) ∣ v.toInt) := by
  rw [dencSignedVarintLowz, varintCodec_lossless_iff (by decide)]
  by_cases hmin : v.toInt = -2 ^ 63
  · have hv' : v = BitVec.intMin 64 := eq_of_toInt_eq hmin
    constructor
    · rintro ⟨hsign, _⟩
      rw [hv', packSignedLowz_intMin] at hsign
      cases hsign rfl
    · exact fun h => absurd hmin h.1
  have hint := toInt_eq_toNat_cond v
  have habs : v.toInt.natAbs < 2 ^ 63 := by split at hint <;> omega
  have hpack := packSignedLowz_toNat habs
  have hle := lowznib_le (absBits v)
  have hpos : absBits v ≠ 0#64 → 16 ∣ (absBits v).toNat → 0 < lowznib (absBits v) := lowznib_pos
  obtain ⟨q, hq⟩ := lowznib_dvd (absBits v)
  rw [ne_eq, eq_zero_iff_toNat] at hpos
  rw [absBits_toNat] at hq hpos
  have hdiv : v.toInt.natAbs / 2 ^ (lowznib (absBits v) * 4) = q := by
    rw [hq, Nat.mul_div_cancel_left q (Nat.two_pow_pos _)]
  have hbit : v.msb.toNat ≤ 1 := Bool.toNat_le v.msb
  have hone : (packSignedLowz v).toNat % 2 = v.msb.toNat := by omega
  have hnib : (packSignedLowz v).toNat / 2 % 4 = lowznib (absBits v) := by omega
  have hrest : (packSignedLowz v).toNat / 8 = q % 2 ^ 61 := by omega
  have hunpack := fun hlt => unpackSignedLowz_toNat (i := packSignedLowz v) hlt
  rw [hone, hnib, hrest] at hunpack
  have hmsb : v.msb.toNat = if v.toNat < 2 ^ 63 then 0 else 1 := by
    rw [msb_eq_decide]
    split
    next h => rw [decide_eq_false (by omega)]; rfl
    next h => rw [decide_eq_true (by omega)]; rfl
  have hinv : (packSignedLowz v).toNat < 2 ^ 63 →
      ((unpackSignedLowz (packSignedLowz v)).toNat = v.toNat ↔
        q % 2 ^ 61 * 2 ^ (lowznib (absBits v) * 4) % 2 ^ 64 = v.toInt.natAbs) := by
    intro hlt
    rw [hunpack hlt, hmsb]
    by_cases hpos : v.toNat < 2 ^ 63
    · rw [if_pos hpos, if_neg (by decide)]
      omega
    · rw [if_neg hpos, if_pos rfl]
      omega
  rw [← toNat_inj, msb_iff_toNat]
  generalize lowznib (absBits v) = nib at hle hq hpos hpack hinv
  have hcases : nib = 0 ∨ nib = 1 ∨ nib = 2 ∨ nib = 3 := by omega
  constructor
  · rintro ⟨hsign, _, _⟩
    have hlt := hsign rfl
    refine ⟨hmin, ?_⟩
    obtain rfl | rfl | rfl | rfl := hcases <;> omega
  · rintro ⟨_, _⟩
    have hlt : (packSignedLowz v).toNat < 2 ^ 63 := by
      obtain rfl | rfl | rfl | rfl := hcases <;> omega
    refine ⟨fun _ => hlt, length_groups_toNat _, (hinv hlt).2 ?_⟩
    obtain rfl | rfl | rfl | rfl := hcases <;> omega

end Ceph.Include
