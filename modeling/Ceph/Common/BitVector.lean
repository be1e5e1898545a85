import Ceph.Lib.Word
import Mathlib.Data.Nat.ModEq

set_option autoImplicit false

/-!
# Vectors of small numbers (common/bit_vector.hpp)

`BitVector<b>` keeps elements of `b` bits, packed from the high bits of each byte on.  Its memory
is a `bufferlist`, whose length is an `unsigned`; sizes and offsets are `uint64_t`.  An encoding
takes the data over without a copy, so the vector remembers where its bytes are: an element that
is assigned later changes in the encoding as well.  New memory has any content unless it is
zeroed, and is anywhere.
-/

namespace Ceph.Common

open Ceph.Lib

/-- The template parameter: a power of two, and at most the bits of a byte. -/
structure BitCount where
  bits : Nat
  dvd : bits ∣ 8

/-- `ELEMENTS_PER_BLOCK`. -/
def BitCount.elementsPerBlock (b : BitCount) : Nat := 8 / b.bits

/-- `MASK`. -/
def BitCount.mask (b : BitCount) : BitVec 8 := BitVec.ofNat 8 (2 ^ b.bits - 1)

/-- `BLOCK_SIZE`. -/
def blockSize : Nat := 4096

abbrev Buffer := List (BitVec 8)

/-- What an allocation finds: the content of new bytes and checksums, and where the bytes are. -/
structure NewMemory where
  byte : Nat → BitVec 8
  crc : Nat → BitVec 32
  addr : Nat → Nat

/-- `BitVector`, and where the bytes of `m_data` are. -/
structure BitVector where
  data : Buffer := []
  addrs : List Nat := []
  size : Nat := 0
  crcEnabled : Bool := true
  headerCrc : BitVec 32 := 0
  dataCrcs : List (BitVec 32) := []
  deriving DecidableEq

/-- A list with `n` entries: the old ones as far as they go. -/
def resizeList {α : Type} (new : Nat → α) (n : Nat) (l : List α) : List α :=
  l.take n ++ (List.range (n - l.length)).map new

/-- The bytes for `size` elements. -/
def BitCount.bufferSize (b : BitCount) (size : Nat) : Nat :=
  u64 (size + b.elementsPerBlock - 1) / b.elementsPerBlock

/-- `m_data_crcs.resize(block_count)`. -/
def blockCount (bufferSize : Nat) : Nat := u64 (bufferSize + blockSize - 1) / blockSize

namespace BitVector

section

variable (b : BitCount)

variable (v : BitVector)

/-- `clear`. -/
def clear : BitVector :=
  { v with data := [], addrs := [], dataCrcs := [], size := 0, headerCrc := 0 }

/-- `resize(size, zero)`. -/
def resizeWith (new : NewMemory) (zero : Bool) (size : Nat) (v : BitVector) : BitVector :=
  let bufferSize := b.bufferSize size
  let length := u32 v.data.length
  let v :=
    if length < bufferSize then
      let added := List.range (u32 (bufferSize - length))
      { v with
        data := v.data ++ added.map fun i => if zero then 0 else new.byte i
        addrs := v.addrs ++ added.map new.addr }
    else if bufferSize < length then
      { v with data := v.data.take bufferSize, addrs := v.addrs.take bufferSize }
    else v
  { v with size := size, dataCrcs := resizeList new.crc (blockCount bufferSize) v.dataCrcs }

/-- `resize(size)`. -/
def resize (new : NewMemory) : Nat → BitVector → BitVector := resizeWith b new true

/-! ## Elements -/

/-- `index` of `compute_index`: the byte of an element. -/
def index (offset : Nat) : Nat := offset / b.elementsPerBlock

/-- `shift` of `compute_index`: how many bits are below the element. -/
def shift (offset : Nat) : Nat := (b.elementsPerBlock - 1 - offset % b.elementsPerBlock) * b.bits

/-- `operator uint8_t` of a reference. -/
def extract (shift : Nat) (byte : BitVec 8) : BitVec 8 := (byte >>> shift) &&& b.mask

/-- The byte that `operator=` of a reference makes. -/
def packedValue (shift : Nat) (byte value : BitVec 8) : BitVec 8 :=
  let mask := b.mask <<< shift
  (byte &&& ~~~mask) ||| ((value <<< shift) &&& mask)

/-- The value of a reference to byte `pos`.  There is none at the end of the buffer. -/
def read (pos shift : Nat) : Option (BitVec 8) := v.data[pos]?.map (extract b shift)

/-- `operator=` of a reference to byte `pos`. -/
def write (pos shift : Nat) (value : BitVec 8) : Option BitVector :=
  v.data[pos]?.map fun byte => { v with data := v.data.set pos (packedValue b shift byte value) }

/-- `operator[]`, to read. -/
def get (offset : Nat) : Option (BitVec 8) := v.read b (index b offset) (shift b offset)

/-- `operator==`. -/
def beq (v w : BitVector) : Bool := v.size = w.size ∧ v.data = w.data

/-- `IteratorImpl`, with the position of `m_data_iterator`. -/
structure Iterator where
  offset : Nat := 0
  index : Nat := 0
  shift : Nat := 0
  pos : Nat := 0

/-- A move of an iterator: `++`, or `+=` with an offset. -/
inductive Move where
  | next
  | add (offset : Nat)
  deriving DecidableEq

/-- `operator++` and `operator+=`. -/
def Iterator.move (it : Iterator) : Move → Option Iterator
  | .next =>
    let offset := u64 (it.offset + 1)
    let index := BitVector.index b offset
    if index = it.index then some { it with offset := offset, shift := BitVector.shift b offset }
    else if index = it.index + 1 ∧ it.pos < v.data.length then
      some ⟨offset, index, BitVector.shift b offset, it.pos + 1⟩
    else none
  | .add n =>
    let offset := u64 (it.offset + n)
    let index := BitVector.index b offset
    if offset < v.size then
      if index ≤ v.data.length then some ⟨offset, index, BitVector.shift b offset, index⟩ else none
    else some ⟨offset, index, BitVector.shift b offset, v.data.length⟩

/-- `begin`, and the moves after it. -/
def walk (moves : List Move) : Option Iterator :=
  (Move.add 0 :: moves).foldlM (Iterator.move b v) {}

end

end BitVector

/-! ## Encodings -/

/-- The `k` lowest bytes of a number, the lowest first. -/
def littleEndian : Nat → Nat → Buffer
  | 0, _ => []
  | k + 1, n => BitVec.ofNat 8 n :: littleEndian k (n / 256)

def readLittleEndian : Buffer → Nat
  | [] => 0
  | x :: l => x.toNat + 256 * readLittleEndian l

/-- What `encode` appends.  The bytes of `data` are those of the vector, at `addrs`. -/
structure Encoded where
  header : Buffer
  data : Buffer
  addrs : List Nat
  footer : Buffer
  deriving DecidableEq

def Encoded.bytes (e : Encoded) : Buffer := e.header ++ (e.data ++ e.footer)

/-- The byte at `addr` is overwritten. -/
def Encoded.overwrite (addr : Nat) (byte : BitVec 8) (e : Encoded) : Encoded :=
  { e with data := List.zipWith (fun a old => if a = addr then byte else old) e.addrs e.data }

/-- `buffer::end_of_buffer`, `buffer::malformed_input`, and an index past the end of a vector. -/
inductive DecodeError where
  | endOfBuffer
  | malformedInput (what : String)
  | outOfBounds
  deriving DecidableEq, Repr

/-- The next `n` bytes, and those behind them. -/
def takeBytes (n : Nat) (it : Buffer) : Except DecodeError (Buffer × Buffer) :=
  if n ≤ it.length then .ok (it.take n, it.drop n) else .error .endOfBuffer

def decodeUInt (k : Nat) (it : Buffer) : Except DecodeError (Nat × Buffer) :=
  (takeBytes k it).map fun r => (readLittleEndian r.1, r.2)

/-- `encode` of a `bufferlist`. -/
def encodeList (l : Buffer) : Buffer := littleEndian 4 l.length ++ l

/-- `decode` of a `bufferlist`. -/
def decodeList (it : Buffer) : Except DecodeError (Buffer × Buffer) :=
  decodeUInt 4 it >>= fun r => takeBytes r.1 r.2

namespace BitVector

section

variable (b : BitCount) (crc32c : Buffer → BitVec 32)

/-- `header_bl` of `encode_header`. -/
def header (v : BitVector) : Buffer := [1, 1] ++ (littleEndian 4 8 ++ littleEndian 8 v.size)

/-- The block with the number `i`. -/
def blockAt (data : Buffer) (i : Nat) : Buffer := (data.drop (i * blockSize)).take blockSize

/-- `encode_data` of all data, which sets the checksum of every block. -/
def encodeData (v : BitVector) : Option BitVector :=
  let count := (v.data.length + blockSize - 1) / blockSize
  if count ≤ v.dataCrcs.length then
    some { v with dataCrcs :=
      (List.range count).map (fun i => crc32c (blockAt v.data i)) ++ v.dataCrcs.drop count }
  else none

/-- `encode_data_crcs` of all elements. -/
def encodeDataCrcs (v : BitVector) : Option Buffer :=
  let count := if v.size = 0 then 0 else index b (v.size - 1) / blockSize + 1
  if count ≤ v.dataCrcs.length then
    some ((v.dataCrcs.take count).flatMap fun crc => littleEndian 4 crc.toNat)
  else none

/-- `footer_bl` of `encode_footer`. -/
def footer (v : BitVector) : Option Buffer :=
  if v.crcEnabled then
    (encodeDataCrcs b v).map fun crcs =>
      littleEndian 4 v.headerCrc.toNat ++ (littleEndian 4 v.dataCrcs.length ++ crcs)
  else some []

/-- `encode`, which also sets the checksums of the vector. -/
def encode (v : BitVector) : Option (Encoded × BitVector) := do
  let v ← encodeData crc32c { v with headerCrc := crc32c v.header }
  let foot ← footer b v
  some (⟨encodeList v.header, v.data, v.addrs, encodeList foot⟩, v)

/-- `decode_header`. -/
def decodeHeader (new : NewMemory) (it : Buffer) (v : BitVector) :
    Except DecodeError (BitVector × Buffer) := do
  let header ← decodeList it
  let structV ← decodeUInt 1 header.1
  let structCompat ← decodeUInt 1 structV.2
  if 1 < structCompat.1 then
    .error (.malformedInput "no longer understand old encoding version 1")
  else
    let structLen ← decodeUInt 4 structCompat.2
    if structLen.2.length < structLen.1 then
      .error (.malformedInput "decode past end of struct encoding")
    else
      let size ← decodeUInt 8 structLen.2
      if structLen.1 < 8 then .error (.malformedInput "decode past end of struct encoding")
      else .ok ({ resizeWith b new false size.1 v with headerCrc := crc32c header.1 }, header.2)

/-- The checksums that `decode_data_crcs` reads. -/
def readCrcs : Buffer → List (BitVec 32)
  | a :: b :: c :: d :: it => BitVec.ofNat 32 (readLittleEndian [a, b, c, d]) :: readCrcs it
  | _ => []

/-- `decode_data_crcs` from the first block on. -/
def decodeDataCrcs (it : Buffer) (v : BitVector) : Except DecodeError BitVector :=
  if (readCrcs it).length ≤ v.dataCrcs.length then
    .ok { v with dataCrcs := readCrcs it ++ v.dataCrcs.drop (readCrcs it).length }
  else .error .outOfBounds

/-- `decode_footer`. -/
def decodeFooter (it : Buffer) (v : BitVector) : Except DecodeError (BitVector × Buffer) := do
  let footer ← decodeList it
  if footer.1.length = 0 then .ok ({ v with crcEnabled := false }, footer.2)
  else
    let headerCrc ← decodeUInt 4 footer.1
    if v.headerCrc ≠ BitVec.ofNat 32 headerCrc.1 then
      .error (.malformedInput "incorrect header CRC")
    else
      let dataSrcSize ← decodeUInt 4 headerCrc.2
      let v ← decodeDataCrcs dataSrcSize.2 { v with crcEnabled := true }
      if v.dataCrcs.length ≠ u32 (v.data.length + blockSize - 1) / blockSize then
        .error (.malformedInput "invalid data block CRCs")
      else .ok (v, footer.2)

/-- `decode_data` from the first byte on, which checks and copies one block after the other. -/
def decodeData (new : NewMemory) (it : Buffer) (v : BitVector) : Except DecodeError BitVector :=
  if u32 v.data.length < it.length then .error .endOfBuffer
  else if v.crcEnabled ∧ ∃ i < (it.length + blockSize - 1) / blockSize,
      v.dataCrcs[i]? ≠ some (crc32c (blockAt it i)) then
    .error (.malformedInput "invalid data block CRC")
  else
    .ok { v with
      data := it ++ v.data.drop it.length
      addrs := (List.range it.length).map new.addr ++ v.addrs.drop it.length }

/-- `decode`. -/
def decode (new : NewMemory) (it : Buffer) (v : BitVector) :
    Except DecodeError (BitVector × Buffer) := do
  let header ← decodeHeader b crc32c new it v
  let data ← takeBytes (u32 header.1.data.length) header.2
  let footer ← decodeFooter data.2 header.1
  let v ← decodeData crc32c new data.1 footer.1
  .ok (v, footer.2)

end

end BitVector

/-! ## What an encoded vector decodes to

Decoding the bytes of an encoding gives the data and the size of the vector that was encoded,
whatever vector it is decoded into, for every checksum function. -/

open List Nat

/-! ## Bytes -/

theorem length_littleEndian (k n : Nat) : (littleEndian k n).length = k := by
  induction k generalizing n with
  | zero => rfl
  | succ k ih => rw [littleEndian, length_cons, ih]

theorem readLittleEndian_littleEndian (k n : Nat) :
    readLittleEndian (littleEndian k n) = n % 256 ^ k := by
  induction k generalizing n with
  | zero => rw [littleEndian, readLittleEndian, pow_zero, mod_one]
  | succ k ih => rw [littleEndian, readLittleEndian, ih, pow_succ', mod_mul, BitVec.toNat_ofNat]

variable {rest : Buffer}

theorem takeBytes_append {n : Nat} {l : Buffer} (h : l.length = n) :
    takeBytes n (l ++ rest) = .ok (l, rest) := by
  subst h
  rw [takeBytes, if_pos (by rw [length_append]; omega), take_left, drop_left]

theorem decodeUInt_append {k n : Nat} (h : n < 256 ^ k) :
    decodeUInt k (littleEndian k n ++ rest) = .ok (n, rest) := by
  rw [decodeUInt, takeBytes_append (length_littleEndian k n)]
  show Except.ok (readLittleEndian _, _) = _
  rw [readLittleEndian_littleEndian, mod_eq_of_lt h]

theorem decodeList_append {l : Buffer} (h : l.length < 2 ^ 32) :
    decodeList (encodeList l ++ rest) = .ok (l, rest) := by
  rw [decodeList, encodeList, append_assoc, decodeUInt_append h]
  exact takeBytes_append rfl

theorem decodeUInt_one (x : BitVec 8) : decodeUInt 1 (x :: rest) = .ok (x.toNat, rest) := by
  simpa [littleEndian] using @decodeUInt_append rest 1 x.toNat (by omega)

/-! ## The shape of a vector -/

section Shape

variable {b : BitCount} {v w : BitVector} {size : Nat}

theorem BitCount.per_pos (b : BitCount) : 0 < b.elementsPerBlock :=
  div_pos (le_of_dvd (by decide) b.dvd) (pos_of_dvd_of_pos b.dvd (by decide))

theorem BitCount.per_le (b : BitCount) : b.elementsPerBlock ≤ 8 := div_le_self _ _

/-- The data of so many elements has a length that is an `unsigned`, also when it is rounded up
to whole blocks. -/
def BitCount.Fits (b : BitCount) (size : Nat) : Prop :=
  (size + b.elementsPerBlock - 1) / b.elementsPerBlock + blockSize ≤ 2 ^ 32

theorem BitCount.Fits.lt (h : b.Fits size) : size < 2 ^ 35 := by
  have hpos := b.per_pos
  have hle := b.per_le
  have hlt := Nat.lt_mul_of_div_lt (Nat.lt_of_lt_of_le (Nat.lt_add_of_pos_right (by decide)) h) hpos
  omega

theorem BitCount.Fits.bufferSize (h : b.Fits size) :
    b.bufferSize size = (size + b.elementsPerBlock - 1) / b.elementsPerBlock := by
  have hlt := h.lt
  have hle := b.per_le
  rw [BitCount.bufferSize, u64_of_lt (by omega)]

theorem BitCount.Fits.bufferSize_le (h : b.Fits size) : b.bufferSize size + blockSize ≤ 2 ^ 32 := by
  rw [h.bufferSize]
  exact h

/-- The data is as long as the elements need, and there is a checksum for each block. -/
structure BitVector.Shaped (b : BitCount) (v : BitVector) : Prop where
  fits : b.Fits v.size
  length : v.data.length = b.bufferSize v.size
  crcs : v.dataCrcs.length = blockCount v.data.length

theorem blockCount_eq {n : Nat} (h : n + blockSize ≤ 2 ^ 32) :
    blockCount n = (n + blockSize - 1) / blockSize := by
  rw [blockCount, u64_of_lt (by omega)]

theorem length_resizeList {α : Type} (new : Nat → α) (n : Nat) (l : List α) :
    (resizeList new n l).length = n := by
  rw [resizeList, length_append, length_take, length_map, length_range]
  omega

theorem BitVector.Shaped.lt (h : v.Shaped b) : v.data.length + blockSize ≤ 2 ^ 32 := by
  rw [h.length]
  exact h.fits.bufferSize_le

/-- Resizing keeps a prefix of the bytes. -/
theorem BitVector.Shaped.resizeWith_data (new : NewMemory) (zero : Bool) (hv : v.Shaped b)
    (h : b.Fits size) : (v.resizeWith b new zero size).data =
      resizeList (fun i => if zero then 0 else new.byte i) (b.bufferSize size) v.data := by
  have hlen := hv.lt
  have hsize := h.bufferSize_le
  rw [blockSize] at hlen hsize
  rw [BitVector.resizeWith, u32_of_lt (by omega)]
  dsimp only
  split
  next hlt => rw [u32_of_lt (by omega), resizeList, take_of_length_le hlt.le]
  next _ =>
    have hnone : b.bufferSize size - v.data.length = 0 := by omega
    rw [resizeList, hnone, range_zero, map_nil, append_nil]
    split
    next => rfl
    next _ => exact (take_of_length_le (by omega)).symm

theorem BitVector.Shaped.resizeWith (new : NewMemory) (zero : Bool) (hv : v.Shaped b)
    (h : b.Fits size) : (v.resizeWith b new zero size).Shaped b := by
  have hdata := hv.resizeWith_data new zero h
  have hlen : (v.resizeWith b new zero size).data.length = b.bufferSize size := by
    rw [hdata, length_resizeList]
  refine ⟨h, hlen, ?_⟩
  rw [hlen]
  exact length_resizeList _ _ _

end Shape

/-! ## The whole encoding -/

namespace BitVector

variable {b : BitCount} {crc32c : Buffer → BitVec 32} {v w : BitVector}

theorem decodeHeader_spec (new : NewMemory) (hsize : v.size < 2 ^ 64) :
    w.decodeHeader b crc32c new (encodeList v.header ++ rest) =
      .ok ({ w.resizeWith b new false v.size with headerCrc := crc32c v.header }, rest) := by
  have hlen : (littleEndian 8 v.size).length = 8 := length_littleEndian 8 v.size
  have hlist : decodeList (encodeList v.header ++ rest) = .ok (v.header, rest) := by
    refine decodeList_append ?_
    rw [header, length_append, length_append, hlen]
    decide
  have hver : decodeUInt 1 v.header = .ok (1, 1 :: (littleEndian 4 8 ++ littleEndian 8 v.size)) :=
    decodeUInt_one 1
  have hcompat : decodeUInt 1 (1 :: (littleEndian 4 8 ++ littleEndian 8 v.size)) =
      .ok (1, littleEndian 4 8 ++ littleEndian 8 v.size) := decodeUInt_one 1
  have hstruct : decodeUInt 4 (littleEndian 4 8 ++ littleEndian 8 v.size) =
      .ok (8, littleEndian 8 v.size) := decodeUInt_append (by decide)
  have hnum : decodeUInt 8 (littleEndian 8 v.size) = .ok (v.size, []) := by
    exact decodeUInt_append hsize
  simp only [decodeHeader, hlist, hver, hcompat, hstruct, hnum, hlen, bind, Except.bind,
    lt_irrefl, if_false]

/-- There is a checksum for every block in the footer. -/
theorem Shaped.crcCount (hv : v.Shaped b) :
    (if v.size = 0 then 0 else index b (v.size - 1) / blockSize + 1) = v.dataCrcs.length := by
  have hpos := b.per_pos
  rw [hv.crcs, blockCount_eq hv.lt, hv.length, hv.fits.bufferSize, index, blockSize]
  cases hsize : v.size with
  | zero => rw [if_pos rfl, zero_add, div_eq_of_lt (sub_lt hpos one_pos)]
  | succ n =>
    have hn : n + 1 + b.elementsPerBlock - 1 = n + b.elementsPerBlock := by omega
    rw [if_neg (Nat.succ_ne_zero n), hn, Nat.add_sub_cancel, Nat.add_div_right n hpos]
    generalize n / b.elementsPerBlock = q
    omega

theorem Shaped.crcs_eq (hv : v.Shaped b) :
    (v.data.length + blockSize - 1) / blockSize = v.dataCrcs.length := by
  rw [hv.crcs, blockCount_eq hv.lt]

theorem readCrcs_flatMap (crcs : List (BitVec 32)) :
    readCrcs (crcs.flatMap fun crc => littleEndian 4 crc.toNat) = crcs := by
  induction crcs with
  | nil => rfl
  | cons c crcs ih =>
    show BitVec.ofNat 32 (readLittleEndian (littleEndian 4 c.toNat)) ::
      readCrcs (crcs.flatMap fun crc => littleEndian 4 crc.toNat) = _
    rw [readLittleEndian_littleEndian, mod_eq_of_lt (show c.toNat < 256 ^ 4 from c.isLt),
      BitVec.ofNat_toNat, BitVec.setWidth_eq, ih]

/-- A footer is read back into a vector of the same shape with the same header. -/
theorem Shaped.footer_spec (hv : v.Shaped b) (hw : w.Shaped b) (hsize : w.size = v.size)
    (hcrc : w.headerCrc = v.headerCrc) (rest : Buffer) :
    ∃ foot, v.footer b = some foot ∧ w.decodeFooter (encodeList foot ++ rest) =
      .ok ({ w with
        crcEnabled := v.crcEnabled
        dataCrcs := if v.crcEnabled then v.dataCrcs else w.dataCrcs }, rest) := by
  cases henabled : v.crcEnabled with
  | false =>
    refine ⟨[], by rw [footer, henabled]; rfl, ?_⟩
    rw [decodeFooter, decodeList_append (by decide)]
    rfl
  | true =>
    have hsame : w.dataCrcs.length = v.dataCrcs.length := by
      rw [hw.crcs, hv.crcs, hw.length, hv.length, hsize]
    have hblocks : v.dataCrcs.length = u32 (w.data.length + blockSize - 1) / blockSize := by
      rw [u32_of_lt (by have := hw.lt; omega), hw.crcs_eq, hsame]
    have hle : v.dataCrcs.length ≤ 2 ^ 20 := by
      have hlt := hv.lt
      rw [← hv.crcs_eq]
      rw [blockSize] at hlt ⊢
      omega
    let crcs := v.dataCrcs.flatMap fun crc => littleEndian 4 crc.toNat
    have hlen : (littleEndian 4 v.headerCrc.toNat ++ (littleEndian 4 v.dataCrcs.length ++
        crcs)).length = 8 + v.dataCrcs.length * 4 := by
      rw [length_append, length_append, length_littleEndian, length_littleEndian, length_flatMap]
      simp only [length_littleEndian, map_const', sum_replicate_nat]
      omega
    refine ⟨littleEndian 4 v.headerCrc.toNat ++ (littleEndian 4 v.dataCrcs.length ++ crcs), ?_, ?_⟩
    · rw [footer, henabled, encodeDataCrcs, hv.crcCount, take_length, if_pos rfl,
        if_pos le_rfl, Option.map_some]
    · have hread : decodeDataCrcs crcs { w with crcEnabled := true } =
          .ok { w with crcEnabled := true, dataCrcs := v.dataCrcs } := by
        rw [decodeDataCrcs, readCrcs_flatMap, if_pos (le_of_eq hsame.symm),
          drop_of_length_le hsame.le, append_nil]
      rw [decodeFooter, decodeList_append (by rw [hlen]; omega)]
      simp only [bind, Except.bind, hlen]
      rw [if_neg (by omega), decodeUInt_append v.headerCrc.isLt]
      dsimp only
      rw [if_neg (by rw [hcrc, BitVec.ofNat_toNat, BitVec.setWidth_eq]; exact fun h => h rfl),
        decodeUInt_append (by omega)]
      dsimp only
      rw [hread]
      dsimp only
      rw [if_neg (fun h => h hblocks)]
      rfl

/-- Encoding succeeds and leaves the elements alone; decoding the bytes that were written gives
the same data and size, into whatever vector. -/
theorem Shaped.encode_spec (hv : v.Shaped b) (crc32c : Buffer → BitVec 32) :
    ∃ e v', v.encode b crc32c = some (e, v') ∧ v'.data = v.data ∧ v'.size = v.size ∧
      v'.Shaped b ∧ ∀ (new : NewMemory) (w : BitVector), w.Shaped b →
        ∃ u, w.decode b crc32c new e.bytes = .ok (u, []) ∧ u.data = v.data ∧ u.size = v.size ∧
          u.Shaped b := by
  let crcs := (List.range v.dataCrcs.length).map fun i => crc32c (blockAt v.data i)
  let v' : BitVector := { v with headerCrc := crc32c v.header, dataCrcs := crcs }
  have hdata : encodeData crc32c { v with headerCrc := crc32c v.header } = some v' := by
    rw [encodeData]
    rw [hv.crcs_eq, if_pos le_rfl, drop_length, append_nil]
  have hcrcs : crcs.length = v.dataCrcs.length := by rw [length_map, length_range]
  have hv' : v'.Shaped b := ⟨hv.fits, hv.length, hcrcs.trans hv.crcs⟩
  obtain ⟨foot, hfoot, -⟩ := hv'.footer_spec hv' rfl rfl []
  refine ⟨⟨encodeList v.header, v.data, v.addrs, encodeList foot⟩, v', ?_, rfl, rfl, hv',
    fun new w hw => ?_⟩
  · rw [encode, hdata]
    show (footer b v' >>= _) = _
    rw [hfoot]
    rfl
  · have hlt : v.data.length < 2 ^ 32 :=
      Nat.lt_of_lt_of_le (Nat.lt_add_of_pos_right (by decide)) hv.lt
    have hr := hw.resizeWith new false hv.fits
    have hrlen : (w.resizeWith b new false v.size).data.length = v.data.length := by
      rw [hr.length, hv.length]
      rfl
    obtain ⟨_, hfoot', hread⟩ := hv'.footer_spec
      (w := { w.resizeWith b new false v.size with headerCrc := crc32c v.header })
      ⟨hr.fits, hr.length, hr.crcs⟩ rfl rfl []
    obtain rfl := Option.some.inj (hfoot.symm.trans hfoot')
    rw [decode, Encoded.bytes, decodeHeader_spec new (hv.fits.lt.trans (by decide))]
    simp only [bind, Except.bind]
    rw [hrlen, u32_of_lt hlt, takeBytes_append rfl]
    dsimp only
    rw [← append_nil (encodeList foot), hread]
    dsimp only
    rw [decodeData]
    rw [hrlen, u32_of_lt hlt, if_neg (lt_irrefl _), if_neg]
    · refine ⟨_, rfl, ?_, rfl, hv.fits, ?_, ?_⟩
      all_goals dsimp only
      all_goals rw [drop_of_length_le hrlen.le, append_nil]
      · exact hv.length
      · split
        · exact hv'.crcs
        · exact hr.crcs.trans (congrArg blockCount hrlen)
    · rintro ⟨henabled, i, hi, hbad⟩
      rw [if_pos henabled] at hbad
      rw [hv.crcs_eq] at hi
      refine hbad ?_
      rw [getElem?_map, getElem?_range hi, Option.map_some]

end BitVector

end Ceph.Common
