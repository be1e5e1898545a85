import Ceph.BlueStore.ObjectKey

set_option autoImplicit false

/-!
# BlueStore: the range of a collection (os/bluestore/BlueStore.cc, osd/osd_types.h)

The objects of a placement group stand in two ranges of the order of objects, those of its pool
and the temporary ones.  `get_coll_range` gives the ends of both.  Each end is an object without a
name: it is in front of all objects of its hash, or of those with a namespace at least its own.
-/

namespace Ceph.BlueStore

open Ceph.Lib Ceph.Common Nat Prod.Lex

/-! ## Collections -/

/-- `hobject_t::is_temp_pool`. -/
def isTempPool (pool : Int64) : Bool := decide (pool.toInt ≤ -2)

/-- `hobject_t::get_temp_pool`. -/
def getTempPool (pool : Int64) : Int64 := -2 - pool

/-- `hobject_t::is_temp`. -/
def isTemp (h : Hobj) : Bool := isTempPool h.pool && decide (h.pool ≠ Int64.minValue)

/-- `hobject_t::get_logical_pool`. -/
def getLogicalPool (h : Hobj) : Int64 := if isTempPool h.pool then getTempPool h.pool else h.pool

/-- `hobject_t::match_hash`. -/
def matchHash (toCheck : BitVec 32) (bits : Nat) (pattern : BitVec 32) : Bool :=
  decide (pattern &&& ~~~(BitVec.allOnes 32 <<< bits) = toCheck &&& ~~~(BitVec.allOnes 32 <<< bits))

/-- `spg_t`.  Pools are counted from 0, and the pool of temporary objects is another number than
the one of no pool. -/
structure Spg where
  pool : Int64
  seed : BitVec 32
  shard : Int8
  pool_nonneg : 0 ≤ pool.toInt
  pool_lt : pool.toInt < 2 ^ 63 - 2
  deriving DecidableEq

/-- `coll_t`. -/
inductive Coll where
  | typeMeta
  | typeLegacyTemp
  | typePg (pgid : Spg)
  | typePgTemp (pgid : Spg)
  deriving DecidableEq

/-- `Collection`: the bits are those of the hash that a placement group is chosen by. -/
structure Collection where
  cid : Coll
  bits : Nat
  present : Bool
  bits_lt : bits < 32
  seed_lt : ∀ pgid, cid = .typePg pgid → pgid.seed.toNat < 2 ^ bits

/-- `pg_t::contains`. -/
def Spg.contains (pgid : Spg) (bits : Nat) (o : GHObject) : Bool :=
  decide (pgid.pool = getLogicalPool o.hobj) && matchHash o.hobj.hash bits pgid.seed

/-- `Collection::contains`. -/
def Collection.contains (c : Collection) (o : GHObject) : Bool :=
  match c.cid with
  | .typeMeta => decide (o.hobj.pool = -1)
  | .typePg pgid => pgid.contains c.bits o && decide (o.shardId = pgid.shard)
  | _ => false

/-! ## The range -/

/-- An object without a name, snap 0 and generation 0, with its bit-reversed hash. -/
def boundary (shard : Int8) (pool : Int64) (code : BitVec 32) (nspace : ByteString) : GHObject where
  hobj := {
    name := []
    snap := 0#64
    hash := reverseBits code
    max := false
    pool := pool
    nspace := nspace
    key := []
    key_ne := no_key
    max_bare := nofun }
  generation := 0#64
  shardId := shard
  max := false

/-- What `get_coll_range` returns. -/
structure CollRange where
  tempStart : GHObject
  tempEnd : GHObject
  start : GHObject
  stop : GHObject
  deriving DecidableEq

/-- `MAX_HASH`. -/
def maxHash : BitVec 32 := BitVec.allOnes 32

/-- `MAX_NSPACE`. -/
def maxNspace (legacy : Bool) : ByteString := if legacy then [0x7f] else [0xff]

/-- `get_coll_range`. -/
def getCollRange (cid : Coll) (bits : Nat) (legacy : Bool) : CollRange :=
  match cid with
  | .typePg pgid =>
    let reverseHash := reverseBits pgid.seed
    let endHash := reverseHash.toNat + 2 ^ (32 - bits)
    let start := boundary pgid.shard pgid.pool reverseHash []
    let tempStart := boundary pgid.shard (getTempPool pgid.pool) reverseHash []
    if maxHash.toNat < endHash then
      { tempStart, start
        -- only the end of the objects of the pool gets a namespace
        tempEnd := boundary pgid.shard (getTempPool pgid.pool) maxHash []
        stop := boundary pgid.shard pgid.pool maxHash (maxNspace legacy) }
    else
      { tempStart, start
        tempEnd := boundary pgid.shard (getTempPool pgid.pool) (BitVec.ofNat 32 endHash) []
        stop := boundary pgid.shard pgid.pool (BitVec.ofNat 32 endHash) [] }
  | _ =>
    let stop := boundary (-1) (-1) maxHash (maxNspace legacy)
    { tempStart := stop, tempEnd := stop, start := boundary (-1) (-1) 0#32 [], stop }

/-! ## Objects between two ends -/

theorem placement_boundary (shard : Int8) (pool : Int64) (code : BitVec 32) (nspace : ByteString) :
    placement (boundary shard pool code nspace) =
      toLex (shard.toInt, toLex (pool.toInt, code.toNat)) := by
  show toLex (_, toLex (_, (reverseBits (reverseBits code)).toNat)) = _
  rw [reverseBits_reverseBits]
  rfl

variable {h : Hobj} {x : GHObject} {bits : Nat} {seed : BitVec 32} {c : Collection} {pgid : Spg}

theorem hobj_lt_boundary_iff {b : Hobj} (hmax : h.max = b.max) (hpool : h.pool = b.pool)
    (hhash : h.getBitwiseKey = b.getBitwiseKey) (hkey : b.getEffectiveKey = [])
    (hname : b.name = []) (hsnap : b.snap = 0#64) : h.rank < b.rank ↔ h.nspace < b.nspace := by
  have hrest : ¬ (toLex (h.getEffectiveKey, toLex (h.name, h.snap.toNat)) <
      toLex (b.getEffectiveKey, toLex (b.name, b.snap.toNat))) := by
    simp [toLex_lt_toLex, hkey, hname, hsnap]
  rw [Hobj.rank, Hobj.rank, toLex_lt_toLex, toLex_lt_toLex,
    toLex_lt_toLex, toLex_lt_toLex, hmax, hpool, hhash]
  simp only [lt_self_iff_false, false_or, true_and, hrest, and_false, or_false]

/-- An object in the place of an end is in front of it by its namespace alone. -/
theorem lt_boundary_iff (hx : Plain x) (shard : Int8) (pool : Int64) (code : BitVec 32)
    (nspace : ByteString) :
    x < boundary shard pool code nspace ↔
      placement x < placement (boundary shard pool code nspace) ∨
      placement x = placement (boundary shard pool code nspace) ∧ x.hobj.nspace < nspace := by
  have hb : Plain (boundary shard pool code nspace) := ⟨rfl, rfl⟩
  obtain hlt | heq | hgt := lt_trichotomy (placement x)
    (placement (boundary shard pool code nspace))
  · exact iff_of_true (lt_of_placement_lt hx hb hlt) (.inl hlt)
  · rw [or_iff_right (heq ▸ lt_irrefl _), and_iff_right heq]
    obtain ⟨hshard, heq⟩ := Prod.mk.inj heq
    obtain ⟨hpool, hhash⟩ := Prod.mk.inj heq
    have hkey : x.hobj.getBitwiseKey = (boundary shard pool code nspace).hobj.getBitwiseKey := by
      rw [Hobj.getBitwiseKey, Hobj.getBitwiseKey, hx.2]
      exact hhash
    have hnspace := hobj_lt_boundary_iff
      (hx.2.trans hb.2.symm) (Int64.toInt_inj.1 hpool) hkey rfl rfl rfl
    rw [GHObject.lt_iff_rank, GHObject.rank, GHObject.rank, toLex_lt_toLex,
      toLex_lt_toLex, toLex_lt_toLex, hx.1, hshard, hnspace]
    simp [boundary]
  · refine iff_of_false (lt_asymm (lt_of_placement_lt hb hx hgt)) ?_
    rintro (hlt | ⟨heq, _⟩)
    · exact lt_asymm hlt hgt
    · exact absurd hgt (heq ▸ lt_irrefl _)

/-- The objects between two ends of one shard and pool. -/
theorem between_boundaries_iff (hx : Plain x) (shard : Int8) (pool : Int64) {a b : BitVec 32}
    (nspace : ByteString) :
    (boundary shard pool a [] ≤ x ∧ x < boundary shard pool b nspace) ↔
      x.shardId = shard ∧ x.hobj.pool = pool ∧ a.toNat ≤ hashCode x ∧
      (hashCode x < b.toNat ∨ hashCode x = b.toNat ∧ x.hobj.nspace < nspace) := by
  rw [← not_lt, lt_boundary_iff hx, lt_boundary_iff hx, placement_boundary, placement_boundary,
    placement, toLex_lt_toLex, toLex_lt_toLex, toLex_lt_toLex,
    toLex_lt_toLex, toLex_inj, toLex_inj, Prod.mk.injEq, Prod.mk.injEq, toLex_inj,
    toLex_inj, ← Int8.toInt_inj, ← Int64.toInt_inj]
  have hnil : ¬ x.hobj.nspace < [] := List.not_lt_nil _
  constructor
  · rintro ⟨_, _⟩
    grind
  · grind

/-! ## Hashes of a placement group -/

theorem getLsbD_mask (bits : Nat) {i : Nat} (hi : i < 32) :
    (~~~(BitVec.allOnes 32 <<< bits)).getLsbD i = decide (i < bits) := by
  rw [BitVec.getLsbD_not, BitVec.getLsbD_shiftLeft, BitVec.getLsbD_allOnes, decide_eq_true hi,
    Bool.true_and, Bool.true_and, decide_eq_true (show i - bits < 32 by omega), Bool.and_true,
    Bool.not_not]

/-- Hashes match if their lower bits agree. -/
theorem matchHash_iff {h : BitVec 32} (hbits : bits < 32) :
    matchHash h bits seed = true ↔ ∀ i < bits, h.getLsbD i = seed.getLsbD i := by
  rw [matchHash, decide_eq_true_iff]
  constructor
  · intro heq i hi
    have hbit := congrArg (fun v => v.getLsbD i) heq
    rw [BitVec.getLsbD_and, BitVec.getLsbD_and, getLsbD_mask bits (by omega), decide_eq_true hi,
      Bool.and_true, Bool.and_true] at hbit
    exact hbit.symm
  · intro hbit
    refine BitVec.eq_of_getLsbD_eq fun i hi => ?_
    rw [BitVec.getLsbD_and, BitVec.getLsbD_and, getLsbD_mask bits hi]
    by_cases hlt : i < bits
    · rw [hbit i hlt]
    · rw [decide_eq_false hlt, Bool.and_false, Bool.and_false]

/-- With the bits reversed, those that have to agree are the upper ones. -/
theorem matchHash_iff_div {h : BitVec 32} (hbits : bits < 32) :
    matchHash h bits seed = true ↔
      (reverseBits h).toNat / 2 ^ (32 - bits) = (reverseBits seed).toNat / 2 ^ (32 - bits) := by
  rw [matchHash_iff hbits]
  constructor
  · intro hbit
    refine eq_of_testBit_eq fun i => ?_
    rw [testBit_div_two_pow, testBit_div_two_pow, BitVec.testBit_toNat, BitVec.testBit_toNat]
    by_cases hi : i + (32 - bits) < 32
    · rw [getLsbD_reverseBits _ hi, getLsbD_reverseBits _ hi, hbit _ (by omega)]
    · rw [BitVec.getLsbD_of_ge _ _ (by omega), BitVec.getLsbD_of_ge _ _ (by omega)]
  · intro heq i hi
    have hbit := congrArg (fun n => n.testBit (bits - 1 - i)) heq
    rw [testBit_div_two_pow, testBit_div_two_pow, BitVec.testBit_toNat,
      BitVec.testBit_toNat, getLsbD_reverseBits _ (by omega), getLsbD_reverseBits _ (by omega),
      show 31 - (bits - 1 - i + (32 - bits)) = i by omega] at hbit
    exact hbit

/-- A seed of few bits, reversed, is the first number of a block. -/
theorem reverseBits_seed_dvd (hbits : bits < 32) (hseed : seed.toNat < 2 ^ bits) :
    2 ^ (32 - bits) ∣ (reverseBits seed).toNat := by
  refine pow_dvd_of_low_bits fun i hi => ?_
  rw [BitVec.testBit_toNat, getLsbD_reverseBits _ (by omega)]
  exact testBit_lt_two_pow (lt_of_lt_of_le hseed (Nat.pow_le_pow_right (by omega) (by omega)))

/-! ## What the ranges hold -/

theorem hashCode_le (x : GHObject) : hashCode x ≤ maxHash.toNat := by
  rw [hashCode, show maxHash.toNat = 2 ^ 32 - 1 from rfl]
  omega

theorem hashCode_eq_max_iff (x : GHObject) :
    hashCode x = maxHash.toNat ↔ x.hobj.hash = maxHash := by
  constructor
  · intro h
    rw [← reverseBits_reverseBits x.hobj.hash, BitVec.eq_of_toNat_eq h]
    rfl
  · intro h
    rw [hashCode, h]
    rfl

theorem toInt_getTempPool (pool : Int64) (hle : pool.toInt ≤ 2 ^ 63 - 2) :
    (getTempPool pool).toInt = -2 - pool.toInt := by
  have hge := pool.le_toInt
  rw [getTempPool, Int64.toInt_sub, show (-2 : Int64).toInt = -2 from rfl]
  exact Int.bmod_eq_of_le (by omega) (by omega)

theorem isTemp_iff (h : Hobj) : isTemp h = true ↔ h.pool.toInt ≤ -2 ∧ h.pool.toInt ≠ -2 ^ 63 := by
  rw [isTemp, Bool.and_eq_true, isTempPool, decide_eq_true_iff, decide_eq_true_iff, ne_eq,
    ← Int64.toInt_inj]
  rfl

/-- The objects of a placement group are those of its pool, and the temporary ones. -/
theorem logicalPool_iff (pgid : Spg) (h : Hobj) :
    pgid.pool = getLogicalPool h ↔ h.pool = pgid.pool ∧ isTemp h = false ∨
      h.pool = getTempPool pgid.pool ∧ isTemp h = true := by
  have hge := pgid.pool_nonneg
  have hlt := pgid.pool_lt
  have htemp := toInt_getTempPool pgid.pool (by omega)
  rw [← Bool.not_eq_true, isTemp_iff, getLogicalPool, isTempPool, ← Int64.toInt_inj,
    ← Int64.toInt_inj, ← Int64.toInt_inj]
  by_cases hpool : h.pool.toInt ≤ -2
  · rw [if_pos (decide_eq_true hpool), toInt_getTempPool _ (by omega)]
    omega
  · rw [if_neg (by rw [decide_eq_true_iff]; exact hpool)]
    omega

/-- What keeps an object in the ranges of its collection: at the end of the hashes the range of the
temporary objects stops early, and the other one in front of the namespaces from `0xff` on. -/
structure Collection.Covers (c : Collection) (x : GHObject) : Prop where
  temp : isTemp x.hobj = true → x.hobj.hash ≠ maxHash
  nspace : x.hobj.hash = maxHash → x.hobj.nspace < [0xff]
  shard : c.cid = .typeMeta → x.shardId = -1

/-- The range of a collection, in the order of `ghobject_t`. -/
def Collection.range (c : Collection) : CollRange := getCollRange c.cid c.bits false

/-- A placement group or the meta collection. -/
def Collection.Listed (c : Collection) : Prop := c.cid = .typeMeta ∨ ∃ pgid, c.cid = .typePg pgid

/-- The ranges of a placement group end where its block of hashes ends, or short of the end of all
hashes. -/
theorem range_pg (hc : c.cid = .typePg pgid) (hx : Plain x) :
    (c.range.start ≤ x ∧ x < c.range.stop ↔ x.shardId = pgid.shard ∧ x.hobj.pool = pgid.pool ∧
      matchHash x.hobj.hash c.bits pgid.seed = true ∧
      (x.hobj.hash = maxHash → x.hobj.nspace < [0xff])) ∧
    (c.range.tempStart ≤ x ∧ x < c.range.tempEnd ↔ x.shardId = pgid.shard ∧
      x.hobj.pool = getTempPool pgid.pool ∧
      matchHash x.hobj.hash c.bits pgid.seed = true ∧ x.hobj.hash ≠ maxHash) := by
  have hle := hashCode_le x
  have hnil : ¬ x.hobj.nspace < [] := List.not_lt_nil _
  have hmatch : matchHash x.hobj.hash c.bits pgid.seed = true ↔
      (reverseBits pgid.seed).toNat ≤ hashCode x ∧
      hashCode x < (reverseBits pgid.seed).toNat + 2 ^ (32 - c.bits) := by
    obtain ⟨_, hk⟩ := reverseBits_seed_dvd c.bits_lt (c.seed_lt pgid hc)
    have hpos : 0 < 2 ^ (32 - c.bits) := Nat.two_pow_pos _
    rw [matchHash_iff_div c.bits_lt, hk, Nat.mul_div_cancel_left _ hpos, Nat.div_eq_iff hpos,
      mul_comm, hashCode]
    omega
  rw [Collection.range, hc, getCollRange, ne_eq, ← hashCode_eq_max_iff]
  split
  next htop =>
    dsimp only [maxNspace]
    rw [between_boundaries_iff hx, between_boundaries_iff hx]
    constructor
    · grind
    · grind
  next htop =>
    have hend : (BitVec.ofNat 32 ((reverseBits pgid.seed).toNat + 2 ^ (32 - c.bits))).toNat =
        (reverseBits pgid.seed).toNat + 2 ^ (32 - c.bits) := by
      exact mod_eq_of_lt (by omega)
    rw [between_boundaries_iff hx, between_boundaries_iff hx]
    constructor
    · grind
    · grind

theorem range_meta (hc : c.cid = .typeMeta) (hx : Plain x) :
    (c.range.start ≤ x ∧ x < c.range.stop ↔ x.shardId = -1 ∧ x.hobj.pool = -1 ∧
      (x.hobj.hash = maxHash → x.hobj.nspace < [0xff])) ∧
    c.range.tempStart = c.range.tempEnd := by
  have hle := hashCode_le x
  rw [Collection.range, hc, getCollRange, ← hashCode_eq_max_iff]
  · dsimp only [maxNspace]
    rw [between_boundaries_iff hx]
    refine ⟨?_, rfl⟩
    grind
  · exact fun pgid h => Coll.noConfusion h

theorem isTemp_of_pool :
    (h.pool = pgid.pool → isTemp h = false) ∧
      (h.pool = getTempPool pgid.pool → isTemp h = true) := by
  have hge := pgid.pool_nonneg
  have hlt := pgid.pool_lt
  rw [← Bool.not_eq_true, isTemp_iff]
  constructor
  · rintro heq
    rw [heq]
    omega
  · rintro heq
    rw [heq, toInt_getTempPool _ (by omega)]
    omega

theorem contains_pg (hc : c.cid = .typePg pgid) (x : GHObject) :
    c.contains x = true ↔ (x.hobj.pool = pgid.pool ∧ isTemp x.hobj = false ∨
      x.hobj.pool = getTempPool pgid.pool ∧ isTemp x.hobj = true) ∧
      matchHash x.hobj.hash c.bits pgid.seed = true ∧ x.shardId = pgid.shard := by
  rw [Collection.contains, hc]
  dsimp only
  rw [Spg.contains, Bool.and_eq_true, Bool.and_eq_true,
    decide_eq_true_iff, decide_eq_true_iff, logicalPool_iff, and_assoc]

theorem contains_meta (hc : c.cid = .typeMeta) (x : GHObject) :
    c.contains x = true ↔ x.hobj.pool = -1 := by
  rw [Collection.contains, hc, decide_eq_true_iff]

theorem not_isTemp_of_meta (hpool : h.pool = -1) : isTemp h = false := by
  rw [isTemp, hpool]
  rfl

/-- The ranges hold the objects of the collection, as far as they reach. -/
theorem range_iff (hc : c.Listed) (hx : Plain x) :
    (c.range.start ≤ x ∧ x < c.range.stop ↔
      c.contains x = true ∧ c.Covers x ∧ isTemp x.hobj = false) ∧
    (c.range.tempStart ≤ x ∧ x < c.range.tempEnd ↔
      c.contains x = true ∧ c.Covers x ∧ isTemp x.hobj = true) := by
  obtain hc | ⟨pgid, hc⟩ := hc
  · obtain ⟨hrange, htemp⟩ := range_meta hc hx
    have hnot := @not_isTemp_of_meta x.hobj
    rw [hrange, htemp, contains_meta hc]
    refine ⟨⟨?_, ?_⟩, iff_of_false (fun h => not_lt.2 h.1 h.2) ?_⟩
    · rintro ⟨hshard, hpool, hnspace⟩
      exact ⟨hpool, ⟨fun h => absurd (hnot hpool) (by rw [h]; decide), hnspace, fun _ => hshard⟩,
        hnot hpool⟩
    · rintro ⟨hpool, hcovers, _⟩
      exact ⟨hcovers.shard hc, hpool, hcovers.nspace⟩
    · rintro ⟨hpool, _, h⟩
      exact absurd (hnot hpool) (by rw [h]; decide)
  · obtain ⟨hrange, htemp⟩ := range_pg hc hx
    obtain ⟨hnot, his⟩ := @isTemp_of_pool x.hobj pgid
    have hmeta : c.cid ≠ .typeMeta := hc ▸ Coll.noConfusion
    rw [hrange, htemp, contains_pg hc]
    refine ⟨⟨?_, ?_⟩, ⟨?_, ?_⟩⟩
    · rintro ⟨hshard, hpool, hmatch, hnspace⟩
      have hfalse := hnot hpool
      exact ⟨⟨.inl ⟨hpool, hfalse⟩, hmatch, hshard⟩,
        ⟨fun h => absurd hfalse (by rw [h]; decide), hnspace, fun h => absurd h hmeta⟩, hfalse⟩
    · rintro ⟨⟨hpool, hmatch, hshard⟩, hcovers, hfalse⟩
      rw [hfalse] at hpool
      exact ⟨hshard, (hpool.resolve_right fun h => Bool.false_ne_true h.2).1, hmatch,
        hcovers.nspace⟩
    · rintro ⟨hshard, hpool, hmatch, hhash⟩
      exact ⟨⟨.inr ⟨hpool, his hpool⟩, hmatch, hshard⟩,
        ⟨fun _ => hhash, fun h => absurd h hhash, fun h => absurd h hmeta⟩, his hpool⟩
    · rintro ⟨⟨hpool, hmatch, hshard⟩, hcovers, htrue⟩
      rw [htrue] at hpool
      exact ⟨hshard, (hpool.resolve_left fun h => Bool.false_ne_true h.2.symm).1, hmatch,
        hcovers.temp htrue⟩

end Ceph.BlueStore
