import Mathlib.Data.List.Basic

set_option autoImplicit false

/-!
# Crush: buckets, choose_args and the hash

The part of `crush.h` that the mapper reads.  A bucket is an array of item ids (a negative
id names another bucket, the others are devices) together with the arrays its algorithm
keeps.  In the source every algorithm has its own struct that starts with the common
`crush_bucket`; here the arrays are the arguments of the algorithm's constructor.
-/

namespace Ceph.Crush

/-- `crush_hash32_2`, `crush_hash32_3` and `crush_hash32_4`; the first argument selects the
hash function. -/
structure Hash where
  hash32_2 : Nat → Int → Int → UInt32
  hash32_3 : Nat → Int → Int → Int → UInt32
  hash32_4 : Nat → Int → Int → Int → Int → UInt32

/-- `CRUSH_HASH_RJENKINS1`, the hash function that `is_out` uses. -/
def hashRjenkins1 : Nat := 0

/-- `crush_algorithm` with the arrays of the algorithm's own bucket struct; `other` is a value
of the field that is none of these. -/
inductive Alg where
  | uniform
  | list (itemWeights sumWeights : List UInt32)
  | tree (numNodes : UInt8) (nodeWeights : List UInt32)
  | straw (straws : List UInt32)
  | straw2 (itemWeights : List UInt32)
  | other
  deriving DecidableEq, Repr

/-- `crush_bucket`.  The field `size` of the source is the length of `items`. -/
structure Bucket where
  id : Int
  type : Nat
  alg : Alg
  hash : Nat
  items : List Int
  deriving DecidableEq, Repr

/-- The number of items of the bucket. -/
def Bucket.size (b : Bucket) : Nat := b.items.length

/-- `crush_choose_arg`: other ids and, position by position, other weights to draw with. -/
structure ChooseArg where
  ids : Option (List Int)
  weightSet : Option (List (List UInt32))
  deriving DecidableEq, Repr

end Ceph.Crush
