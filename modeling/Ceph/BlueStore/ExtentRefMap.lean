import Ceph.Include.Denc
import Ceph.Lib.Segments

set_option autoImplicit false

/-!
# `bluestore_extent_ref_map_t`

A map from offsets to records of a length and a number of references.  An entry is a segment,
whose level is the number of references, and the map is the list of its entries in the order
of their keys.  An iterator is a position in that list: the entries in front of it, nearest
first, and those from it on.  Offsets are 64 bits wide, lengths and numbers of references 32.

A failed assertion, an abort and an access through the end iterator are `none`.
-/

namespace Ceph.BlueStore

open Ceph.Lib Ceph.Include

/-- A `uint32_t`. -/
def u32 (n : Nat) : Nat := n % 2 ^ 32

/-- A `uint64_t`. -/
def u64 (n : Nat) : Nat := n % 2 ^ 64

/-- The difference of two `uint64_t`. -/
def sub64 (a b : Nat) : Nat := u64 (a + 2 ^ 64 - b)

abbrev RefMap := List Segment

/-- `bluestore_pextent_t`: offset and length. -/
structure PExtent where
  offset : Nat
  length : Nat
  deriving DecidableEq, Repr

namespace RefMap

/-- `p->first + p->second.length`. -/
def endOf (p : Segment) : Nat := u64 (p.first + p.length)

variable (m : RefMap)

/-- `lower_bound(offset)`. -/
def lowerBound (offset : Nat) : List Segment × List Segment :=
  ((m.takeWhile fun p => decide (p.first < offset)).reverse,
    m.dropWhile fun p => decide (p.first < offset))

/-- `_maybe_merge_left(p)`: what is then in front of the entry, and the entry. -/
def maybeMergeLeft (pre : List Segment) (p : Segment) : List Segment × Segment :=
  match pre with
  | [] => ([], p)
  | q :: pre =>
    if q.level = p.level ∧ endOf q = p.first then
      (pre, { q with length := u32 (q.length + p.length) })
    else (q :: pre, p)

/-- `if (p != ref_map.end()) _maybe_merge_left(p)`. -/
def mergeAt (pre post : List Segment) : RefMap :=
  match post with
  | [] => pre.reverse
  | p :: post =>
    let (pre, p) := maybeMergeLeft pre p
    pre.reverse ++ p :: post

/-! ## get -/

/-- The entry that holds the offset, or the next one. -/
def findInc (offset : Nat) : List Segment × List Segment :=
  match lowerBound m offset with
  | ([], post) => ([], post)
  | (q :: pre, post) => if endOf q ≤ offset then (q :: pre, post) else (pre, q :: post)

/-- A gap in front of an entry is filled, as far as the range goes. -/
def getGap (p : Segment) (pre : List Segment) (offset length : Nat) : List Segment × Nat × Nat :=
  if p.first > offset then
    let newlen := min (p.first - offset) length
    let (pre, q) := maybeMergeLeft pre ⟨offset, u32 newlen, 1⟩
    (q :: pre, u64 (offset + newlen), length - newlen)
  else (pre, offset, length)

/-- The portion of an entry before the offset is split off. -/
def splitAt (p : Segment) (pre : List Segment) (offset : Nat) : Option (List Segment × Segment) :=
  if p.first < offset then
    if endOf p > offset then
      some ({ p with length := u32 (offset - p.first) } :: pre,
        ⟨offset, u32 (sub64 (endOf p) offset), p.level⟩)
    else none
  else some (pre, p)

/-- The loop of `get`, from an entry on; the position where it ends. -/
def getLoop : List Segment → List Segment → Nat → Nat → Option (List Segment × List Segment)
  | [], pre, offset, length =>
    if length = 0 then some (pre, []) else some (pre, [⟨offset, length, 1⟩])
  | p :: post, pre, offset, length =>
    if length = 0 then some (pre, p :: post)
    else
      let (pre, offset, length) := getGap p pre offset length
      if length = 0 then some (pre, p :: post)
      else
        match splitAt p pre offset with
        | none => none
        | some (pre, p) =>
          if length < p.length then
            some (pre, ⟨p.first, length, u32 (p.level + 1)⟩ ::
              ⟨u64 (offset + length), p.length - length, p.level⟩ :: post)
          else
            let (pre, q) := maybeMergeLeft pre { p with level := u32 (p.level + 1) }
            getLoop post (q :: pre) (u64 (offset + p.length)) (length - p.length)

def get (offset length : Nat) : Option RefMap :=
  let (pre, post) := findInc m offset
  (getLoop post pre offset length).map fun (pre, post) => mergeAt pre post

/-! ## put -/

/-- The entry before a position, if it reaches beyond the offset. -/
def holderBefore (offset : Nat) (post : List Segment) :
    List Segment → Option (List Segment × Segment × List Segment)
  | [] => none
  | q :: pre => if endOf q ≤ offset then none else some (pre, q, post)

/-- The entry that holds the offset. -/
def findHolder (offset : Nat) : Option (List Segment × Segment × List Segment) :=
  match lowerBound m offset with
  | (pre, []) => holderBefore offset [] pre
  | (pre, p :: post) =>
    if p.first > offset then holderBefore offset (p :: post) pre else some (pre, p, post)

/-- The loop of `put`, from an entry on: the map, what is released, and whether no entry with
other than one reference was seen. -/
def putLoop : List Segment → List Segment → Nat → Nat → List PExtent → Bool →
    Option (RefMap × List PExtent × Bool)
  | [], pre, _, length, release, unshared =>
    if length = 0 then some (pre.reverse, release, unshared) else none
  | p :: post, pre, offset, length, release, unshared =>
    if length = 0 then some (mergeAt pre (p :: post), release, unshared)
    else if p.first ≠ offset then none
    else if length < p.length then
      let unshared := unshared && decide (p.level = 1)
      let rest : Segment := ⟨u64 (offset + length), p.length - length, p.level⟩
      if p.level > 1 then
        let (pre, q) := maybeMergeLeft pre ⟨p.first, length, p.level - 1⟩
        some (pre.reverse ++ q :: rest :: post, release, unshared && decide (p.level - 1 = 1))
      else some (pre.reverse ++ rest :: post, release ++ [⟨p.first, length⟩], unshared)
    else if p.level > 1 then
      let (pre, q) := maybeMergeLeft pre { p with level := p.level - 1 }
      putLoop post (q :: pre) (u64 (offset + p.length)) (length - p.length) release
        (unshared && decide (p.level - 1 = 1))
    else
      putLoop post pre (u64 (offset + p.length)) (length - p.length)
        (release ++ [⟨p.first, p.length⟩]) unshared

/-- `put`: the map, `release` and `*maybe_unshared`. -/
def put (offset length : Nat) (release : List PExtent) : Option (RefMap × List PExtent × Bool) :=
  match findHolder m offset with
  | none => none
  | some (pre, p, post) =>
    match splitAt p pre offset with
    | none => none
    | some (pre', p') =>
      let unshared := !(decide (p.first < offset) && decide (p.level ≠ 1))
      (putLoop (p' :: post) pre' offset length release unshared).map
        fun (m, release, unshared) =>
          (m, release, unshared && m.all fun p => decide (p.level = 1))

/-! ## Queries -/

/-- The loop of `contains`. -/
def containsLoop : List Segment → Nat → Nat → Bool
  | [], _, length => decide (length = 0)
  | p :: post, offset, length =>
    if length = 0 then true
    else if p.first > offset then false
    else if endOf p ≥ u64 (offset + length) then true
    else
      let overlap := sub64 (endOf p) offset
      containsLoop post (u64 (offset + overlap)) (u32 (length + 2 ^ 32 - u32 overlap))

def contains (offset length : Nat) : Bool :=
  match findHolder m offset with
  | none => false
  | some (_, p, post) => containsLoop (p :: post) offset length

def intersects (offset length : Nat) : Bool :=
  match (findInc m offset).2 with
  | [] => false
  | p :: _ => decide (¬ p.first ≥ u64 (offset + length))

/-! ## Encoding -/

/-- `record_t`: the length and the number of references. -/
def encodeRecord (p : Segment) : Writer UInt8 :=
  dencVarintLowz.write (BitVec.ofNat 64 p.length) ++
    (dencVarint .unsigned 32).write (BitVec.ofNat 32 p.level)

/-- The entries, with the key of the one before. -/
def encodeEntries : Nat → List Segment → Writer UInt8
  | _, [] => Writer.nil
  | pos, p :: m =>
    dencVarintLowz.write (BitVec.ofNat 64 p.first - BitVec.ofNat 64 pos) ++
      (encodeRecord p ++ encodeEntries p.first m)

/-- `encode`: the first key is written as it is, so that the one before it is 0. -/
def encode (m : RefMap) : Writer UInt8 :=
  (dencVarint .unsigned 32).write (BitVec.ofNat 32 m.length) ++
    encodeEntries 0 (if u32 m.length = 0 then [] else m)

/-- `ref_map[pos] = record`. -/
def assign : RefMap → Segment → RefMap
  | [], s => [s]
  | p :: m, s =>
    if p.first < s.first then p :: assign m s
    else if p.first = s.first then s :: m
    else s :: p :: m

def decodeRecord (first : Nat) : Reader UInt8 Segment := fun bytes => do
  let (length, bytes) ← dencVarintLowz.decode bytes
  let (refs, bytes) ← (dencVarint .unsigned 32).decode bytes
  return (⟨first, (length.setWidth 32).toNat, refs.toNat⟩, bytes)

/-- Entries are read and put into the map. -/
def decodeEntries : Nat → BitVec 64 → RefMap → Reader UInt8 RefMap
  | 0, _, m => fun bytes => some (m, bytes)
  | n + 1, pos, m => fun bytes => do
    let (delta, bytes) ← dencVarintLowz.decode bytes
    let (p, bytes) ← decodeRecord (pos + delta).toNat bytes
    decodeEntries n (pos + delta) (assign m p) bytes

/-- `decode` into an empty map. -/
def decode : Reader UInt8 RefMap := fun bytes => do
  let (n, bytes) ← (dencVarint .unsigned 32).decode bytes
  decodeEntries n.toNat 0#64 [] bytes

end RefMap

end Ceph.BlueStore
