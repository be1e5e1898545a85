import Mathlib.Algebra.Order.Ring.Nat
import Ceph.Lib.Run

set_option autoImplicit false

/-!
# The compressible Bloom filter

`compressible_bloom_filter` (`common/bloom_filter.hpp`) can fold its table onto a shorter one. A
lookup takes a hash modulo all the sizes that the table had, one after the other.
-/

namespace Ceph.Common

open Lib List Nat Option

/-- The two kinds of rounds of `hash_ap`, which alternate. -/
def hashMul (hash byte : UInt32) : UInt32 := hash ^^^ ((hash <<< 7) ^^^ byte * (hash >>> 3))

def hashAdd (hash byte : UInt32) : UInt32 := hash ^^^ ~~~((hash <<< 11) + (byte ^^^ (hash >>> 5)))

def hashAp : List UInt32 → UInt32 → UInt32
  | [], hash => hash
  | [a], hash => hashMul hash a
  | a :: b :: rest, hash => hashAp rest (hashAdd (hashMul hash a) b)

inductive Key where
  | int (val : UInt32)
  | bytes (key : List UInt8)

/-- An integer goes through the same rounds, from its highest byte on. -/
def Key.hash : Key → UInt32 → UInt32
  | .int val => hashAp [val >>> 24, (val &&& 0xff0000) >>> 16, (val &&& 0xff00) >>> 8, val &&& 0xff]
  | .bytes key => hashAp (key.map UInt8.toUInt32)

/-- A filter without its counts of insertions. A missing table is an empty one. -/
structure BloomFilter where
  saltCount : Nat
  randomSeed : Nat
  salt : List UInt32
  bitTable : List (BitVec 8)
  sizeList : List Nat

namespace BloomFilter

-- The salts come from their number and the seed alone.
variable (generateUniqueSalt : Nat → Nat → List UInt32)

def new (saltCount tableSize randomSeed : Nat) : BloomFilter :=
  let seed := if randomSeed = 0 then 0xA5A5A5A5 else randomSeed
  ⟨saltCount, seed, generateUniqueSalt saltCount seed, replicate tableSize 0, [tableSize]⟩

variable (f : BloomFilter)

def computeIndices (hash : UInt32) : Nat :=
  f.sizeList.foldl (fun bitIndex size => bitIndex % (size * 8)) hash.toNat

/-- The byte and the mask of a key for one of the salts. -/
def bitOf (key : Key) (salt : UInt32) : Nat × BitVec 8 :=
  let bitIndex := f.computeIndices (key.hash salt)
  (bitIndex / 8, 1 <<< (bitIndex % 8))

def orByte (table : List (BitVec 8)) (update : Nat × BitVec 8) : List (BitVec 8) :=
  table.modify update.1 (· ||| update.2)

def insert (key : Key) : Option BloomFilter :=
  if f.bitTable = [] then none
  else some { f with bitTable := (f.salt.map (f.bitOf key)).foldl orByte f.bitTable }

/-- The bits of a mask are all set in a byte of the table. -/
def Covers (table : List (BitVec 8)) (bit : Nat × BitVec 8) : Prop :=
  table.getD bit.1 0 &&& bit.2 = bit.2

instance (table : List (BitVec 8)) (bit : Nat × BitVec 8) : Decidable (Covers table bit) :=
  inferInstanceAs (Decidable (_ = _))

def contains (key : Key) : Bool :=
  f.bitTable ≠ [] && f.salt.all fun salt => Covers f.bitTable (f.bitOf key salt)

/-- The bytes beyond the new size are added to the new table, from its start on and around. -/
def foldTable (newTableSize : Nat) (table : List (BitVec 8)) : List (BitVec 8) :=
  ((table.drop newTableSize).zipIdx.map fun x => (x.2 % newTableSize, x.1)).foldl orByte
    (table.take newTableSize)

/-- The new size is the product of the last one and the ratio, which is refused out of its
range. -/
def compress (inRange : Bool) (newTableSize : Nat) : BloomFilter :=
  if f.bitTable = [] ∨ inRange = false ∨ newTableSize = 0 ∨ f.sizeList.getLastD 0 ≤ newTableSize
  then f
  else { f with
    bitTable := foldTable newTableSize f.bitTable, sizeList := f.sizeList ++ [newTableSize] }

/-- What `encode` writes: the struct of the filter with that of its base inside. -/
structure Encoded where
  structLen : Nat
  baseStructLen : Nat
  saltCount : Nat
  randomSeed : Nat
  bitTable : List (BitVec 8)
  sizeCount : Nat
  sizeList : List Nat

/-- Each struct has a header of six bytes. The base writes the two counts as well. -/
def Encoded.bytes (e : Encoded) : Nat :=
  6 + (6 + (4 * 8 + (4 + e.bitTable.length)) + (4 + 8 * e.sizeList.length))

/-- The lengths of structs, of the `bufferptr` with the table and of the list have 32 bits. -/
def encode : Encoded :=
  let bitTable := f.bitTable.take (f.bitTable.length % 2 ^ 32)
  let base := 4 * 8 + (4 + bitTable.length)
  { structLen := (6 + base + (4 + 8 * f.sizeList.length)) % 2 ^ 32
    baseStructLen := base % 2 ^ 32
    saltCount := f.saltCount
    randomSeed := f.randomSeed
    bitTable
    sizeCount := f.sizeList.length % 2 ^ 32
    sizeList := f.sizeList }

/-- The test of `DECODE_START` against `get_remaining`, whose length and offset have 32 bits. -/
def Encoded.holds (e : Encoded) (off structLen : Nat) : Prop :=
  structLen ≤ (e.bytes % 2 ^ 32 + 2 ^ 32 - off) % 2 ^ 32

instance (e : Encoded) (off structLen : Nat) : Decidable (e.holds off structLen) :=
  inferInstanceAs (Decidable (_ ≤ _))

/-- The salts are made anew. Both structs end where their lengths say, modulo `2 ^ 32`. -/
def decode (e : Encoded) : Option BloomFilter :=
  if e.holds 6 e.structLen ∧ e.holds 12 e.baseStructLen then
    some ⟨e.saltCount, e.randomSeed, generateUniqueSalt e.saltCount e.randomSeed, e.bitTable,
      e.sizeList.take e.sizeCount⟩
  else none

inductive Op where
  | insert (key : Key)
  | compress (inRange : Bool) (newTableSize : Nat)
  | copy
  | recode
  | clear

/-- A step with the keys that were inserted since the table was cleared. -/
def step (s : BloomFilter × List Key) : Op → Option (BloomFilter × List Key)
  | .insert key => (s.1.insert key).map (·, key :: s.2)
  | .compress inRange newTableSize => some (s.1.compress inRange newTableSize, s.2)
  | .copy => some (⟨s.1.saltCount, s.1.randomSeed, s.1.salt, s.1.bitTable, s.1.sizeList⟩, s.2)
  | .recode => (decode generateUniqueSalt s.1.encode).map (·, s.2)
  | .clear => some ({ s.1 with bitTable := replicate s.1.bitTable.length 0 }, [])

/-- A filter that is to be encoded takes less than four gigabytes. -/
def encodable (s : BloomFilter × List Key) : Op → Bool
  | .recode => 52 + s.1.bitTable.length + 8 * s.1.sizeList.length < 2 ^ 32
  | _ => true

/-! ## Bits stay set -/

section

variable {table : List (BitVec 8)} {bit : Nat × BitVec 8} {updates : List (Nat × BitVec 8)}

theorem length_orByte : (orByte table bit).length = table.length := length_modify _ _ _

theorem length_foldl_orByte : (updates.foldl orByte table).length = table.length :=
  foldlRecOn updates orByte (motive := (·.length = table.length)) rfl
    fun _ h _ _ => length_orByte.trans h

theorem or_and_eq {x y m : BitVec 8} (h : x &&& m = m ∨ y &&& m = m) : (x ||| y) &&& m = m := by
  rw [BitVec.and_or_distrib_right]
  obtain h | h := h <;> rw [h] <;> ext i <;> simp

theorem Covers.foldl (h : Covers table bit) : Covers (updates.foldl orByte table) bit := by
  refine foldlRecOn updates _ (motive := (Covers · bit)) h fun table h update _ => ?_
  unfold Covers at h ⊢
  rw [getD_eq_getElem?_getD] at h ⊢
  rw [orByte, getElem?_modify]
  cases hbyte : table[bit.1]? with
  | none => rwa [hbyte] at h
  | some =>
    rw [hbyte] at h
    split
    · exact or_and_eq (.inl h)
    · exact h

theorem covers_foldl {x : BitVec 8} (hx : x &&& bit.2 = bit.2) (hmem : (bit.1, x) ∈ updates)
    (hlt : bit.1 < table.length) : Covers (updates.foldl orByte table) bit := by
  induction updates generalizing table with
  | nil => cases hmem
  | cons update _ ih =>
    obtain rfl | hmem := mem_cons.1 hmem
    · rw [foldl_cons]
      refine Covers.foldl ?_
      rw [Covers, orByte, getD_eq_getElem?_getD, getElem?_modify_eq, getElem?_eq_getElem hlt]
      exact or_and_eq (.inr hx)
    · exact ih hmem (by rwa [length_orByte])

/-- A byte of the table is found at its index modulo the new size. -/
theorem Covers.foldTable {size : Nat} (h : Covers table bit) (hpos : 0 < size)
    (hlt : bit.1 < table.length) (hsize : size ≤ table.length) :
    Covers (foldTable size table) (bit.1 % size, bit.2) := by
  by_cases hin : bit.1 < size
  · refine Covers.foldl ?_
    rw [mod_eq_of_lt hin, Covers, getD_eq_getElem?_getD, getElem?_take_of_lt hin]
    exact h
  · unfold Covers at h
    rw [getD_eq_getElem?_getD, getElem?_eq_getElem hlt, getD_some] at h
    refine covers_foldl h (mem_map.2 ⟨(table[bit.1], bit.1 - size), ?_, ?_⟩) ?_
    · rw [mk_mem_zipIdx_iff_getElem?, getElem?_drop, Nat.add_sub_cancel' (by omega),
        getElem?_eq_getElem hlt]
    · rw [← mod_eq_sub_mod (by omega)]
    · rw [length_take_of_le hsize]
      exact mod_lt _ hpos

end

/-! ## Encoding -/

section

variable {generateUniqueSalt} {f : BloomFilter}

/-- What is left of the table is as long as the length that was written. -/
theorem decode_encode (hlt : 52 + f.bitTable.length % 2 ^ 32 + 8 * f.sizeList.length < 2 ^ 32) :
    decode generateUniqueSalt f.encode = some { f with
      salt := generateUniqueSalt f.saltCount f.randomSeed
      bitTable := f.bitTable.take (f.bitTable.length % 2 ^ 32) } := by
  rw [decode, if_pos]
  · simp only [encode]
    rw [mod_eq_of_lt (by omega : f.sizeList.length < _), take_length]
  · simp only [Encoded.holds, Encoded.bytes, encode, length_take]
    omega

/-- The length of the whole wraps to less than what the base asks for. -/
theorem decode_encode_eq_none (hlt : f.bitTable.length + 36 < 2 ^ 32)
    (hsizes : 8 * f.sizeList.length + 4 < 2 ^ 32)
    (hwrap : 2 ^ 32 ≤ f.bitTable.length + 8 * f.sizeList.length + 40) :
    decode generateUniqueSalt f.encode = none := by
  rw [decode, if_neg]
  simp only [Encoded.holds, Encoded.bytes, encode, length_take]
  omega

end

/-! ## Runs -/

/-- What holds of a filter and the keys in it. -/
structure Ok (s : BloomFilter × List Key) : Prop where
  last : ∃ sizes, s.1.sizeList = sizes ++ [s.1.bitTable.length]
  nonempty : s.1.bitTable ≠ []
  salt : s.1.salt = generateUniqueSalt s.1.saltCount s.1.randomSeed
  contains : ∀ key ∈ s.2, s.1.contains key = true

variable {generateUniqueSalt} {s : BloomFilter × List Key}

theorem contains_iff {f : BloomFilter} {key : Key} : f.contains key = true ↔
    f.bitTable ≠ [] ∧ ∀ salt ∈ f.salt, Covers f.bitTable (f.bitOf key salt) := by
  simp [contains]

section

variable (h : Ok generateUniqueSalt s)

include h

theorem Ok.decode_encode (hlt : encodable s .recode = true) :
    decode generateUniqueSalt s.1.encode = some s.1 := by
  have hlt := of_decide_eq_true hlt
  have hmod : s.1.bitTable.length % 2 ^ 32 = s.1.bitTable.length := mod_eq_of_lt (by omega)
  rw [BloomFilter.decode_encode (by omega), hmod, take_length, ← h.salt]

theorem Ok.bitOf_lt (key : Key) (salt : UInt32) : (s.1.bitOf key salt).1 < s.1.bitTable.length := by
  obtain ⟨sizes, hlast⟩ := h.last
  have hpos := length_pos_iff.2 h.nonempty
  refine Nat.div_lt_of_lt_mul ?_
  rw [computeIndices, hlast, foldl_append, foldl_cons, foldl_nil, mul_comm 8]
  exact mod_lt _ (by omega)

theorem Ok.insert (key : Key) :
    ∃ s', step generateUniqueSalt s (.insert key) = some s' ∧ Ok generateUniqueSalt s' := by
  have hlen : ((s.1.salt.map (s.1.bitOf key)).foldl orByte s.1.bitTable).length =
      s.1.bitTable.length := length_foldl_orByte
  have hne : (s.1.salt.map (s.1.bitOf key)).foldl orByte s.1.bitTable ≠ [] := by
    rw [← length_pos_iff, hlen, length_pos_iff]
    exact h.nonempty
  refine ⟨_, by rw [step, BloomFilter.insert, if_neg h.nonempty, map_some], ?_⟩
  refine ⟨by simpa only [hlen] using h.last, hne, h.salt, ?_⟩
  refine forall_mem_cons.2 ⟨contains_iff.2 ⟨hne, fun salt hsalt => ?_⟩, fun k hk => ?_⟩
  · exact covers_foldl (BitVec.and_self) (mem_map_of_mem hsalt) (h.bitOf_lt key salt)
  · have hold := (contains_iff.1 (h.contains k hk)).2
    exact contains_iff.2 ⟨hne, fun salt hsalt => (hold salt hsalt).foldl⟩

theorem Ok.compress (inRange : Bool) (size : Nat) :
    Ok generateUniqueSalt (s.1.compress inRange size, s.2) := by
  unfold BloomFilter.compress
  split
  next => exact h
  next hok =>
    obtain ⟨hne, -, hpos, hlt⟩ := by simpa only [not_or] using hok
    obtain ⟨sizes, hlast⟩ := h.last
    rw [hlast, getLastD_concat] at hlt
    have hlen : (foldTable size s.1.bitTable).length = size := by
      rw [foldTable, length_foldl_orByte, length_take_of_le (by omega)]
    have hne : foldTable size s.1.bitTable ≠ [] := by
      rw [← length_pos_iff, hlen]
      omega
    refine ⟨⟨_, by rw [hlen]⟩, hne, h.salt, fun k hk => contains_iff.2 ⟨hne, fun salt hsalt => ?_⟩⟩
    have hold := (contains_iff.1 (h.contains k hk)).2 salt hsalt
    have hnew := hold.foldTable (pos_of_ne_zero hpos) (h.bitOf_lt k salt) (by omega)
    simp only [bitOf, computeIndices] at hnew ⊢
    rw [foldl_append, foldl_cons, foldl_nil, mod_mul_left_div_self, mod_mul_left_mod]
    exact hnew

theorem Ok.step (op : Op) (hok : encodable s op = true) :
    ∃ s', step generateUniqueSalt s op = some s' ∧ Ok generateUniqueSalt s' := by
  cases op with
  | insert key => exact h.insert key
  | compress inRange size => exact ⟨_, rfl, h.compress inRange size⟩
  | copy => exact ⟨_, rfl, h⟩
  | recode => exact ⟨s, by rw [BloomFilter.step, h.decode_encode hok, map_some], h⟩
  | clear => exact ⟨_, rfl, by simpa using h.last, by simpa using h.nonempty, h.salt, by simp⟩

end

/-- No key that was inserted is missed, and neither an insertion nor a decoding fails. -/
theorem contains_inserted (generateUniqueSalt : Nat → Nat → List UInt32)
    (saltCount randomSeed : Nat) {tableSize : Nat} (hpos : 0 < tableSize)
    (hrun : Run (BloomFilter.step generateUniqueSalt) (fun s op => encodable s op = true)
      (new generateUniqueSalt saltCount tableSize randomSeed, []) s) :
    (∀ key ∈ s.2, s.1.contains key = true) ∧
      ∀ op, encodable s op = true → ∃ s', BloomFilter.step generateUniqueSalt s op = some s' := by
  have hok : Ok generateUniqueSalt s := by
    refine hrun.invariant ⟨⟨[], by simp [new]⟩, by simp [new]; omega, rfl, by simp⟩ ?_
    intro s op s' h hop hs
    obtain ⟨_, ht, hok⟩ := h.step op hop
    rwa [Option.some.inj (hs.symm.trans ht)]
  exact ⟨hok.contains, fun op hop => (hok.step op hop).imp fun _ => And.left⟩

theorem contains_inserted_folded :
    ∃ s, execOk (BloomFilter.step fun _ _ => [1, 2]) encodable (new (fun _ _ => [1, 2]) 2 5 0, [])
        [.insert (.int 7), .compress true 3, .recode, .insert (.bytes [1, 2, 3])] = some s ∧
      ∀ key ∈ s.2, s.1.contains key = true := by
  obtain ⟨s, hs⟩ := isSome_iff_exists.1 (show (execOk (BloomFilter.step fun _ _ => [1, 2])
    encodable (new (fun _ _ => [1, 2]) 2 5 0, []) [.insert (.int 7), .compress true 3, .recode,
      .insert (.bytes [1, 2, 3])]).isSome = true by decide +kernel)
  exact ⟨s, hs, (contains_inserted _ 2 0 (by decide) (execOk_run hs)).1⟩

/-- A table whose length is written as zero is lost. -/
theorem exec_insert_recode {size : Nat} (hpos : 0 < size) (hmod : size % 2 ^ 32 = 0) :
    (exec (BloomFilter.step fun _ _ => [1]) (new (fun _ _ => [1]) 1 size 0, [])
        [.insert (.int 7), .recode]).map
      (fun s => (s.1.bitTable, s.2, s.1.contains (.int 7))) = some ([], [.int 7], false) := by
  have hne : replicate size (0 : BitVec 8) ≠ [] := by
    rw [Ne, replicate_eq_nil_iff]
    omega
  rw [exec, execOk, if_pos rfl, BloomFilter.step, BloomFilter.insert, new, if_neg hne, map_some]
  dsimp only
  rw [execOk, if_pos rfl, BloomFilter.step, decode_encode]
  · simp only [map_some, length_foldl_orByte, length_replicate, hmod, take_zero, execOk]
    simp [contains]
  · simp only [length_foldl_orByte, length_replicate, length_singleton, hmod]
    decide

/-- A table of four gigabytes is decoded as an empty one, and a somewhat smaller one not at
all. -/
theorem large_table_lost :
    (exec (BloomFilter.step fun _ _ => [1]) (new (fun _ _ => [1]) 1 (2 ^ 32) 0, [])
        [.insert (.int 7), .recode]).map
      (fun s => (s.1.bitTable, s.2, s.1.contains (.int 7))) = some ([], [.int 7], false) ∧
    decode (fun _ _ => [1]) (new (fun _ _ => [1]) 1 (2 ^ 32 - 48) 0).encode = none := by
  refine ⟨exec_insert_recode (by decide) (by decide), decode_encode_eq_none ?_ ?_ ?_⟩
  all_goals
    simp only [new, length_replicate, length_singleton]
    decide

end BloomFilter

end Ceph.Common
