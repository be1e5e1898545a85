import Ceph.Common.GHObject
import Ceph.Lib.Fuel
import Ceph.Lib.Text

set_option autoImplicit false

/-!
# BlueStore: the keys of objects (os/bluestore/BlueStore.cc, os/kv.h)

The key of an object holds its shard, pool and bit-reversed hash, each of a fixed length and in
an order-preserving form, then its namespace, key and name with the bytes at both ends of the
range escaped, and then snap and generation.  An extent shard has the key of its object, an offset
and another last byte.  A key is read back as a C string, so that the byte behind it is 0.
-/

namespace Ceph.BlueStore

open Ceph.Lib Ceph.Common List Prod.Lex

/-! ## Escaping -/

/-- A byte as a `char`. -/
def charValue (c : Byte) : Int := if c.val < 128 then c.val else c.val - 256

/-- `"0123456789abcdef"[d]`. -/
def hexByte (d : Nat) : Byte := if d < 10 then Fin.ofNat 256 (48 + d) else Fin.ofNat 256 (87 + d)

/-- A byte in `append_escaped`; `'#'` is 35 and `'~'` is 126. -/
def escapeByte (c : Byte) : ByteString :=
  if charValue c ≤ 35 then [35, hexByte (c.val / 16), hexByte (c.val % 16)]
  else if 126 ≤ charValue c then [126, hexByte (c.val / 16), hexByte (c.val % 16)]
  else [c]

/-- `append_escaped`, which ends with `'!'`. -/
def appendEscaped (s : ByteString) : ByteString := s.flatMap escapeByte ++ [33]

/-- `h2i`. -/
def h2i (c : Byte) : Nat :=
  if 48 ≤ c.val ∧ c.val ≤ 57 then c.val - 48
  else if 97 ≤ c.val ∧ c.val ≤ 102 then c.val - 97 + 10
  else if 65 ≤ c.val ∧ c.val ≤ 70 then c.val - 65 + 10
  else 256

/-- Why a key is not read: a return value, or an access behind the string. -/
inductive KeyError where
  | code (r : Int)
  | fault
  deriving DecidableEq, Repr

/-- `decode_escaped`: the decoded string, and the rest from the byte on that ended it. -/
def decodeEscaped : ByteString → Except KeyError (ByteString × ByteString)
  | [] => .error .fault
  | c :: p =>
    if c = 0 ∨ c = 33 then .ok ([], c :: p)
    else if c = 35 ∨ c = 126 then
      match p with
      | [] => .error .fault
      | h :: p =>
        if 255 < h2i h <<< 4 then .error (.code (-22))
        else
          match p with
          | [] => .error .fault
          | l :: p =>
            if 255 < (h2i h <<< 4 ||| h2i l) then .error (.code (-22))
            else (decodeEscaped p).map fun r =>
              (Fin.ofNat 256 (h2i h <<< 4 ||| h2i l) :: r.1, r.2)
    else (decodeEscaped p).map fun r => (c :: r.1, r.2)

/-! ## Encoding -/

/-- `_key_encode_shard`. -/
def encodeShard (shard : Int8) : ByteString := bigEndian 1 (shard.toBitVec + 0x80#8).toNat

variable (o : GHObject)

/-- `_key_encode_prefix`. -/
def encodePrefixed : Option ByteString :=
  o.hobj.getBitwiseKeyU32.map fun hash =>
    encodeShard o.shardId ++ bigEndian 8 (o.hobj.pool.toBitVec + 0x8000000000000000#64).toNat ++
      bigEndian 4 hash.toNat

/-- The key and the name in `get_object_key`; `'<'`, `'='` and `'>'` are 60, 61 and 62. -/
def encodeName (h : Hobj) : ByteString :=
  if h.key ≠ [] then
    appendEscaped h.key ++
      (if h.key = h.name then [61]
      else (if h.name < h.key then 62 else 60) :: appendEscaped h.name)
  else appendEscaped h.name ++ [61]

/-- What `get_object_key` puts together; the last byte is `'o'`. -/
def encodeKey : Option ByteString :=
  (encodePrefixed o).map fun start =>
    start ++ (appendEscaped o.hobj.nspace ++ (encodeName o.hobj ++
      (bigEndian 8 o.hobj.snap.toNat ++ (bigEndian 8 o.generation.toNat ++ [111]))))

/-! ## Decoding -/

/-- The next `n` bytes. -/
def readN (n : Nat) (p : ByteString) : Except KeyError (ByteString × ByteString) :=
  if p.length < n then .error .fault else .ok (p.take n, p.drop n)

/-- A string, and the byte behind it skipped; the code stands for a string that is malformed. -/
def readEscaped (r : Int) (p : ByteString) : Except KeyError (ByteString × ByteString) :=
  match decodeEscaped p with
  | .error .fault => .error .fault
  | .error (.code _) => .error (.code r)
  | .ok (s, q) => .ok (s, q.drop 1)

/-- The name behind the string `k`, which is the name itself or the key: key, name and rest. -/
def readName (k p : ByteString) : Except KeyError (ByteString × ByteString × ByteString) := do
  let c ← readN 1 p
  if c.1 = [61] then .ok ([], k, c.2)
  else if c.1 = [60] ∨ c.1 = [62] then do
    let name ← readEscaped (-5) c.2
    .ok (k, name.1, name.2)
  else .error (.code (-6))

/-- `hobject_t` with a key set by `set_key`. -/
def makeHobj (name : ByteString) (snap : BitVec 64) (hash : BitVec 32) (pool : Int64)
    (nspace key : ByteString) : Hobj where
  name := name
  snap := snap
  hash := hash
  max := false
  pool := pool
  nspace := nspace
  key := if key = name then [] else key
  key_ne := by
    split
    next => exact .inl rfl
    next h => exact .inr h
  max_bare := nofun

theorem no_key : ([] : ByteString) = [] ∨ ([] : ByteString) ≠ [] := .inl rfl

/-- `ENCODED_KEY_PREFIX_LEN`. -/
def encodedKeyPrefixLen : Nat := 1 + 8 + 4

/-- The end of `get_key_object`: the last byte is `'o'`, and the string ends there. -/
def readEnd (p : ByteString) : Except KeyError Unit := do
  let c ← readN 1 p
  if c.1 ≠ [111] then .error (.code (-7))
  else do
    let z ← readN 1 c.2
    if z.1 ≠ [0] then .error (.code (-8)) else .ok ()

/-- `get_key_object`. -/
def getKeyObject (key : ByteString) : Except KeyError GHObject :=
  if key.length < encodedKeyPrefixLen then .error (.code (-1))
  else do
    let shard ← readN 1 (key ++ [0])
    let pool ← readN 8 shard.2
    let hash ← readN 4 pool.2
    if key.length = encodedKeyPrefixLen then .error (.code (-2))
    else do
      let nspace ← readEscaped (-2) hash.2
      let k ← readEscaped (-3) nspace.2
      let name ← readName k.1 k.2
      let snap ← readN 8 name.2.2
      let generation ← readN 8 snap.2
      readEnd generation.2
      .ok {
        hobj := makeHobj name.2.1 (BitVec.ofNat 64 (readBigEndian 0 snap.1))
          (reverseBits (BitVec.ofNat 32 (readBigEndian 0 hash.1)))
          (Int64.ofBitVec (BitVec.ofNat 64 (readBigEndian 0 pool.1) - 0x8000000000000000#64))
          nspace.1 name.1
        generation := BitVec.ofNat 64 (readBigEndian 0 generation.1)
        shardId := Int8.ofBitVec (BitVec.ofNat 8 (readBigEndian 0 shard.1) - 0x80#8)
        max := false }

/-- `get_object_key`, with the check of its result. -/
def getObjectKey : Option ByteString :=
  (encodeKey o).filter fun key => (getKeyObject key).toOption = some o

/-- `get_extent_shard_key`; the last byte is `'x'`. -/
def getExtentShardKey (onodeKey : ByteString) (offset : BitVec 32) : ByteString :=
  onodeKey ++ (bigEndian 4 offset.toNat ++ [120])

/-- `is_extent_shard_key`. -/
def isExtentShardKey (key : ByteString) : Bool := key.getLast? = some 120

/-! ## Reading back -/

theorem h2i_hexByte : ∀ d : Fin 16, h2i (hexByte d.val) = d.val := by decide

theorem nibbles (c : Byte) : c.val / 16 < 16 ∧ c.val % 16 < 16 ∧
    (c.val / 16) <<< 4 ||| c.val % 16 = c.val := by
  refine ⟨by omega, by omega, ?_⟩
  rw [← Nat.shiftLeft_add_eq_or_of_lt (by omega)]
  omega

/-- The escaped form of a byte is read back. -/
theorem decodeEscaped_escapeByte (c : Byte) (p : ByteString) :
    decodeEscaped (escapeByte c ++ p) = (decodeEscaped p).map fun r => (c :: r.1, r.2) := by
  obtain ⟨hhigh, hlow, hval⟩ := nibbles c
  have hh := h2i_hexByte ⟨c.val / 16, hhigh⟩
  have hl := h2i_hexByte ⟨c.val % 16, hlow⟩
  have hbyte : Fin.ofNat 256 c.val = c := Fin.ext (Nat.mod_eq_of_lt c.isLt)
  have hhex : ∀ m : Byte, m = 35 ∨ m = 126 →
      decodeEscaped ([m, hexByte (c.val / 16), hexByte (c.val % 16)] ++ p) =
        (decodeEscaped p).map fun r => (c :: r.1, r.2) := by
    intro m hm
    have hend : ¬ (m = 0 ∨ m = 33) := by
      rcases hm with rfl | rfl <;> decide
    refine (if_neg hend).trans ((if_pos hm).trans ((if_neg ?_).trans ((if_neg ?_).trans ?_)))
    · rw [hh]
      omega
    · rw [hh, hl, hval]
      exact not_lt.2 (Nat.le_of_lt_succ c.isLt)
    · rw [hh, hl, hval, hbyte]
      rfl
  rw [escapeByte]
  split
  next => exact hhex 35 (.inl rfl)
  next hlow' =>
    split
    next => exact hhex 126 (.inr rfl)
    next hhigh' =>
      rw [singleton_append, decodeEscaped.eq_def]
      refine (if_neg ?_).trans (if_neg ?_)
      · rintro (rfl | rfl)
        · exact hlow' (by decide)
        · exact hlow' (by decide)
      · rintro (rfl | rfl)
        · exact hlow' (by decide)
        · exact hhigh' (by decide)

theorem decodeEscaped_appendEscaped (s p : ByteString) :
    decodeEscaped (appendEscaped s ++ p) = .ok (s, 33 :: p) := by
  rw [appendEscaped, append_assoc]
  induction s with
  | nil =>
    rw [flatMap_nil, nil_append, singleton_append, decodeEscaped.eq_def]
    exact if_pos (Or.inr rfl)
  | cons _ _ ih =>
    rw [flatMap_cons, append_assoc, decodeEscaped_escapeByte, ih]
    rfl

theorem readEscaped_appendEscaped (r : Int) (s p : ByteString) :
    readEscaped r (appendEscaped s ++ p) = .ok (s, p) := by
  rw [readEscaped, decodeEscaped_appendEscaped]
  rfl

theorem readN_append {n : Nat} {a : ByteString} (p : ByteString) (h : a.length = n) :
    readN n (a ++ p) = .ok (a, p) := by
  rw [readN, if_neg (by rw [length_append]; omega), take_left' h, drop_left' h]

theorem readName_encodeName (h : Hobj) (p : ByteString) :
    ∃ k q, readEscaped (-3) (encodeName h ++ p) = .ok (k, q) ∧
      readName k q = .ok (h.key, h.name, p) := by
  rw [encodeName]
  by_cases hkey : h.key = []
  · refine ⟨h.name, 61 :: p, ?_, ?_⟩
    · rw [if_neg (not_not.2 hkey), append_assoc, readEscaped_appendEscaped]
      rfl
    · rw [hkey]
      rfl
  · rw [if_pos hkey, if_neg (h.key_ne.resolve_left hkey)]
    refine ⟨h.key, (if h.name < h.key then 62 else 60) :: (appendEscaped h.name ++ p), ?_, ?_⟩
    · rw [append_assoc, readEscaped_appendEscaped]
      rfl
    · have hname := readEscaped_appendEscaped (-5) h.name p
      split
      all_goals
        show (readEscaped (-5) (appendEscaped h.name ++ p) >>= _) = _
        rw [hname]
        rfl

/-- An object that is not maximal. -/
def Plain : Prop := o.max = false ∧ o.hobj.max = false

/-- The first three fields in their order-preserving form. -/
def shardCode : Nat := (o.shardId.toBitVec + 0x80#8).toNat

def poolCode : Nat := (o.hobj.pool.toBitVec + 0x8000000000000000#64).toNat

def hashCode : Nat := (reverseBits o.hobj.hash).toNat

/-- The first bytes of a key. -/
def keyStart : ByteString :=
  bigEndian 1 (shardCode o) ++ (bigEndian 8 (poolCode o) ++ bigEndian 4 (hashCode o))

/-- What follows them. -/
def keyRest : ByteString :=
  appendEscaped o.hobj.nspace ++ (encodeName o.hobj ++
    (bigEndian 8 o.hobj.snap.toNat ++ (bigEndian 8 o.generation.toNat ++ [111])))

variable {o a b : GHObject}

theorem encodePrefixed_eq (h : o.hobj.max = false) : encodePrefixed o = some (keyStart o) := by
  rw [encodePrefixed, Hobj.getBitwiseKeyU32, h, if_neg Bool.false_ne_true, Option.map_some,
    append_assoc]
  rfl

theorem encodeKey_eq (h : o.hobj.max = false) : encodeKey o = some (keyStart o ++ keyRest o) := by
  rw [encodeKey, encodePrefixed_eq h]
  rfl

theorem length_keyStart (o : GHObject) : (keyStart o).length = encodedKeyPrefixLen := by
  rfl

theorem readEnd_last : readEnd ([111] ++ [0]) = .ok () := rfl

/-- The parts of a decoded key are the fields. -/
theorem decoded_eq (h : Plain o) :
    (⟨makeHobj o.hobj.name (BitVec.ofNat 64 (readBigEndian 0 (bigEndian 8 o.hobj.snap.toNat)))
        (reverseBits (BitVec.ofNat 32 (readBigEndian 0 (bigEndian 4 (hashCode o)))))
        (Int64.ofBitVec (BitVec.ofNat 64 (readBigEndian 0 (bigEndian 8 (poolCode o))) -
          0x8000000000000000#64)) o.hobj.nspace o.hobj.key,
      BitVec.ofNat 64 (readBigEndian 0 (bigEndian 8 o.generation.toNat)),
      Int8.ofBitVec (BitVec.ofNat 8 (readBigEndian 0 (bigEndian 1 (shardCode o))) - 0x80#8),
      false⟩ : GHObject) = o := by
  have hread : ∀ (k w : Nat) (v : BitVec w), 2 ^ w = 256 ^ k →
      BitVec.ofNat w (readBigEndian 0 (bigEndian k v.toNat)) = v := by
    intro k w v hw
    rw [readBigEndian_of_lt (hw ▸ v.isLt), BitVec.ofNat_toNat, BitVec.setWidth_eq]
  have hkey : (if o.hobj.key = o.hobj.name then [] else o.hobj.key) = o.hobj.key := by
    split
    next heq => exact (o.hobj.key_ne.resolve_right (not_not.2 heq)).symm
    next => rfl
  rw [hashCode, poolCode, shardCode, hread 8 64 _ rfl, hread 4 32 _ rfl, hread 8 64 _ rfl,
    hread 8 64 _ rfl, hread 1 8 _ rfl, reverseBits_reverseBits, BitVec.add_sub_cancel,
    BitVec.add_sub_cancel]
  have hobj : makeHobj o.hobj.name o.hobj.snap o.hobj.hash (Int64.ofBitVec o.hobj.pool.toBitVec)
      o.hobj.nspace o.hobj.key = o.hobj := Hobj.ext rfl rfl rfl h.2.symm rfl rfl hkey
  rw [hobj]
  obtain ⟨_, _, _, max⟩ := o
  obtain rfl : max = false := h.1
  rfl

/-- A key is read back. -/
theorem getKeyObject_key (h : Plain o) : getKeyObject (keyStart o ++ keyRest o) = .ok o := by
  have hlen : encodedKeyPrefixLen < (keyStart o ++ keyRest o).length := by
    rw [length_append, length_keyStart, keyRest, appendEscaped, length_append,
      length_append, length_singleton]
    omega
  have hcat : keyStart o ++ keyRest o ++ [0] = bigEndian 1 (shardCode o) ++
      (bigEndian 8 (poolCode o) ++ (bigEndian 4 (hashCode o) ++ (appendEscaped o.hobj.nspace ++
      (encodeName o.hobj ++ (bigEndian 8 o.hobj.snap.toNat ++
      (bigEndian 8 o.generation.toNat ++ ([111] ++ [0]))))))) := by
    simp only [keyStart, keyRest, append_assoc]
  obtain ⟨_, _, hk, hname⟩ := readName_encodeName o.hobj
    (bigEndian 8 o.hobj.snap.toNat ++ (bigEndian 8 o.generation.toNat ++ ([111] ++ [0])))
  rw [getKeyObject, if_neg (by omega), hcat, readN_append _ (length_bigEndian _ _), ok_bind,
    readN_append _ (length_bigEndian _ _), ok_bind, readN_append _ (length_bigEndian _ _), ok_bind,
    if_neg (by omega), readEscaped_appendEscaped, ok_bind, hk, ok_bind, hname, ok_bind,
    readN_append _ (length_bigEndian _ _), ok_bind, readN_append _ (length_bigEndian _ _), ok_bind,
    readEnd_last]
  exact congrArg Except.ok (decoded_eq h)

/-- `get_object_key` returns for exactly the objects that are not maximal. -/
theorem getObjectKey_eq_some {key : ByteString} :
    getObjectKey o = some key ↔ Plain o ∧ key = keyStart o ++ keyRest o := by
  rw [getObjectKey, Option.filter_eq_some_iff]
  constructor
  · rintro ⟨hkey, hcheck⟩
    have hdecoded : getKeyObject key = .ok o := by
      cases hget : getKeyObject key with
      | error =>
        rw [hget] at hcheck
        exact absurd (of_decide_eq_true hcheck) (Option.some_ne_none _).symm
      | ok =>
        rw [hget] at hcheck
        exact congrArg _ (Option.some.inj (of_decide_eq_true hcheck))
    have hmax : o.hobj.max = false := by
      cases hm : o.hobj.max with
      | false => rfl
      | true =>
        rw [encodeKey, encodePrefixed, Hobj.getBitwiseKeyU32, hm] at hkey
        cases hkey
    rw [encodeKey_eq hmax] at hkey
    have hkey := (Option.some.inj hkey).symm
    -- the object without its flag has the same key
    have hback : getKeyObject key = .ok { o with max := false } := by
      rw [hkey]
      exact getKeyObject_key (o := { o with max := false }) ⟨rfl, hmax⟩
    have heq := Except.ok.inj (hdecoded.symm.trans hback)
    exact ⟨⟨by rw [heq], hmax⟩, hkey⟩
  · rintro ⟨hplain, rfl⟩
    refine ⟨encodeKey_eq hplain.2, decide_eq_true ?_⟩
    rw [getKeyObject_key hplain]
    rfl

theorem getObjectKey_of_plain (h : Plain o) :
    getObjectKey o = some (keyStart o ++ keyRest o) := getObjectKey_eq_some.2 ⟨h, rfl⟩

/-! ## Order -/

theorem shardCode_eq (o : GHObject) : (shardCode o : Int) = o.shardId.toInt + 2 ^ 7 := by
  rw [shardCode, ← Int8.toInt_toBitVec, BitVec.toInt_eq_toNat_cond, BitVec.toNat_add,
    BitVec.toNat_ofNat]
  split <;> omega

theorem poolCode_eq (o : GHObject) : (poolCode o : Int) = o.hobj.pool.toInt + 2 ^ 63 := by
  rw [poolCode, ← Int64.toInt_toBitVec, BitVec.toInt_eq_toNat_cond, BitVec.toNat_add,
    BitVec.toNat_ofNat]
  split <;> omega

/-- Shard, pool and bit-reversed hash, in the order of `ghobject_t`. -/
def placement (o : GHObject) : Int ×ₗ Int ×ₗ Nat :=
  toLex (o.shardId.toInt, toLex (o.hobj.pool.toInt, hashCode o))

/-- Blocks of a fixed length are compared one after the other. -/
theorem append_lt_append_of_length {a b x y : ByteString} (h : a.length = b.length) :
    a ++ x < b ++ y ↔ a < b ∨ a = b ∧ x < y := by
  obtain hlt | rfl | hgt := lt_trichotomy a b
  · exact iff_of_true (lt_of_blocks h hlt (prefix_append _ _) (prefix_append _ _)) (.inl hlt)
  · rw [append_lt_append_iff]
    exact ⟨fun hxy => .inr ⟨rfl, hxy⟩, fun hor => hor.elim (fun ha => absurd ha (lt_irrefl _))
      And.right⟩
  · refine iff_of_false (lt_asymm (lt_of_blocks h.symm hgt (prefix_append _ _)
      (prefix_append _ _))) ?_
    rintro (hlt | ⟨rfl, _⟩)
    · exact lt_asymm hlt hgt
    · exact lt_irrefl _ hgt

theorem keyStart_lt_iff : keyStart a < keyStart b ↔ placement a < placement b := by
  have hshard : ∀ o : GHObject, shardCode o < 256 ^ 1 := fun o =>
    (o.shardId.toBitVec + 0x80#8).isLt
  have hpool : ∀ o : GHObject, poolCode o < 256 ^ 8 := fun o =>
    (o.hobj.pool.toBitVec + 0x8000000000000000#64).isLt
  have hhash : ∀ o : GHObject, hashCode o < 256 ^ 4 := fun o => (reverseBits o.hobj.hash).isLt
  have hsa := shardCode_eq a
  have hsb := shardCode_eq b
  have hpa := poolCode_eq a
  have hpb := poolCode_eq b
  have hsl : shardCode a < shardCode b ↔ a.shardId.toInt < b.shardId.toInt := by omega
  have hse : shardCode a = shardCode b ↔ a.shardId.toInt = b.shardId.toInt := by omega
  have hpl : poolCode a < poolCode b ↔ a.hobj.pool.toInt < b.hobj.pool.toInt := by omega
  have hpe : poolCode a = poolCode b ↔ a.hobj.pool.toInt = b.hobj.pool.toInt := by omega
  rw [keyStart, keyStart, append_lt_append_of_length (by rw [length_bigEndian, length_bigEndian]),
    append_lt_append_of_length (by rw [length_bigEndian, length_bigEndian]),
    bigEndian_lt_iff (hshard a) (hshard b), bigEndian_inj (hshard a) (hshard b),
    bigEndian_lt_iff (hpool a) (hpool b), bigEndian_inj (hpool a) (hpool b),
    bigEndian_lt_iff (hhash a) (hhash b), placement, placement, toLex_lt_toLex,
    toLex_lt_toLex, hsl, hse, hpl, hpe]

theorem keyStart_inj : keyStart a = keyStart b ↔ placement a = placement b := by
  rw [le_antisymm_iff, le_antisymm_iff, ← not_lt, ← not_lt, keyStart_lt_iff, keyStart_lt_iff,
    not_lt, not_lt]

/-- Objects in different places are in the order of their places. -/
theorem lt_of_placement_lt (ha : Plain a) (hb : Plain b)
    (h : placement a < placement b) : a < b := by
  rw [GHObject.lt_iff_rank, GHObject.rank, GHObject.rank, toLex_lt_toLex,
    toLex_lt_toLex, toLex_lt_toLex, Hobj.rank, Hobj.rank,
    toLex_lt_toLex, toLex_lt_toLex, toLex_lt_toLex]
  rw [placement, placement, toLex_lt_toLex, toLex_lt_toLex] at h
  have hhash : ∀ o, Plain o → o.hobj.getBitwiseKey = hashCode o := fun o ho => by
    rw [Hobj.getBitwiseKey, ho.2]
    rfl
  refine .inr ⟨ha.1.trans hb.1.symm, ?_⟩
  obtain hshard | ⟨hshard, hpool | ⟨hpool, _⟩⟩ := h
  · exact .inl hshard
  · exact .inr ⟨hshard, .inl (.inr ⟨ha.2.trans hb.2.symm, .inl hpool⟩)⟩
  · refine .inr ⟨hshard, .inl (.inr ⟨ha.2.trans hb.2.symm, .inr ⟨hpool, .inl ?_⟩⟩)⟩
    rwa [hhash a ha, hhash b hb]

theorem placement_mono (ha : Plain a) (hb : Plain b) (h : a ≤ b) : placement a ≤ placement b :=
  not_lt.1 fun hlt => absurd (lt_of_placement_lt hb ha hlt) (not_lt.2 h)

/-- Keys sort first by shard, pool and bit-reversed hash. -/
theorem key_lt_iff_of_placement_ne (ha : Plain a) (hb : Plain b) (hne : placement a ≠ placement b) :
    keyStart a ++ keyRest a < keyStart b ++ keyRest b ↔ a < b := by
  have hlen : ∀ o o' : GHObject, (keyStart o).length = (keyStart o').length := fun o o' => by
    rw [length_keyStart, length_keyStart]
  rw [append_lt_append_of_length (hlen a b), keyStart_lt_iff, keyStart_inj]
  constructor
  · rintro (hlt | ⟨heq, _⟩)
    · exact lt_of_placement_lt ha hb hlt
    · exact absurd heq hne
  · exact fun hlt => .inl (lt_of_le_of_ne (placement_mono ha hb hlt.le) hne)

end Ceph.BlueStore
