import Ceph.Crush.Mapper

set_option autoImplicit false

/-!
# Crush: the weights of the buckets (crush/builder.c)

How items are added to a bucket, removed from it and given another weight, and how a bucket
takes over the weights of the buckets below it.  Every algorithm keeps arrays of its own that
repeat the weights in another form.  Weights are 32-bit numbers, here natural numbers with the
wrap-around written out.

Allocations succeed.  The straws, which are only ever computed from the weights, are left out,
and so are the fields of a bucket that no function here reads.
-/

namespace Ceph.Crush

open Ceph.Lib

/-! ## Buckets -/

/-- The weights that the struct of an algorithm holds; `num_nodes` is the length of
`nodeWeights`. -/
inductive Weights where
  | uniform (itemWeight : Nat)
  | list (itemWeights sumWeights : List Nat)
  | tree (nodeWeights : List Nat)
  | straw (itemWeights : List Nat)
  | straw2 (itemWeights : List Nat)
  deriving DecidableEq, Repr

/-- `crush_bucket`; `h.size` is the length of `items`. -/
structure WeightedBucket where
  items : List Int
  weight : Nat
  weights : Weights
  deriving DecidableEq, Repr

/-- `map->buckets`. -/
abbrev BucketMap := List (Option WeightedBucket)

/-- Why a call is not successful. -/
inductive Refusal where
  | einval
  | enoent
  | erange
  | fault (f : Fault)
  deriving DecidableEq, Repr

/-- The result of a call. -/
abbrev Build (α : Type) := Except Refusal α

/-- An access to an array inside of a call. -/
def access {α : Type} : Except Fault α → Build α
  | .ok a => .ok a
  | .error f => .error (.fault f)

def wrap32 (n : Nat) : Nat := n % 2 ^ 32

/-- `a - b` on 32 bits. -/
def wrapSub (a b : Nat) : Nat := wrap32 (a + (2 ^ 32 - b))

/-- `crush_addition_is_unsafe`. -/
def additionIsUnsafe (a b : Nat) : Bool := decide (2 ^ 32 - 1 - b < a)

/-- An addition that is refused when it is unsafe. -/
def checkedAdd (w v : Nat) : Build Nat :=
  if additionIsUnsafe v w then .error .erange else .ok (v + w)

/-- The weight of a bucket that loses an item. -/
def lessWeight (total w : Nat) : Nat := if w < total then total - w else 0

variable (b : WeightedBucket)

/-- The position of an item. -/
def WeightedBucket.find (item : Int) : Option Nat := b.items.findIdx? fun i => decide (i = item)

/-! ## The nodes of a tree -/

/-- `parent`, with `on_right`. -/
def parent (n : Nat) : Except Fault Nat :=
  (height (n + 1) n).map fun h => if n / 2 ^ (h + 1) % 2 = 1 then n - 2 ^ h else n + 2 ^ h

/-- The loop of `calc_depth`. -/
def shifts : Nat → Nat → Nat
  | 0, _ => 0
  | fuel + 1, t => if t = 0 then 0 else shifts fuel (t / 2) + 1

/-- `calc_depth`. -/
def calcDepth (size : Nat) : Nat := if size = 0 then 0 else 1 + shifts size (size - 1)

/-- `crush_calc_tree_node`. -/
def calcTreeNode (i : Nat) : Nat := (i + 1) * 2 - 1

/-- `1 << depth`, stored in the `__u8` field `num_nodes`. -/
def numNodes (depth : Nat) : Nat := 2 ^ depth % 2 ^ 8

/-- The loops that go from a node to the root and change the weight of every node on the way. -/
def climb (change : Nat → Build Nat) : Nat → Nat → List Nat → Build (List Nat)
  | 0, _, nodes => .ok nodes
  | n + 1, node, nodes => do
    let node ← access (parent node)
    let v ← access (readAt nodes node)
    let v ← change v
    let nodes ← access (writeAt nodes node v)
    climb change n node nodes

/-- `realloc` of the node weights; `fresh` is what the new memory happens to hold. -/
def reallocNodes (nodes : List Nat) (n : Nat) (fresh : Nat → UInt32) : List Nat :=
  (List.range n).map fun i => nodes.getD i (fresh i).toNat

/-! ## Adding an item -/

/-- `crush_add_uniform_bucket_item`. -/
def addUniformBucketItem (itemWeight : Nat) (item : Int) (weight : Nat) : Build WeightedBucket :=
  if itemWeight ≠ weight then .error .einval
  else do
    let total ← checkedAdd weight b.weight
    .ok { b with items := b.items ++ [item], weight := total }

/-- The entry of `sum_weights` for a new item. -/
def nextSum (size : Nat) (sumWeights : List Nat) (weight : Nat) : Build Nat :=
  if 1 < size + 1 then do
    let last ← access (readAt sumWeights (size - 1))
    checkedAdd weight last
  else .ok weight

/-- `crush_add_list_bucket_item`. -/
def addListBucketItem (itemWeights sumWeights : List Nat) (item : Int)
    (weight : Nat) : Build WeightedBucket := do
  let sum ← nextSum b.items.length sumWeights weight
  .ok {
    items := b.items ++ [item]
    weight := wrap32 (b.weight + weight)
    weights := .list (itemWeights ++ [weight]) (sumWeights ++ [sum]) }

/-- The weight of the root before the first item of its right subtree is added. -/
def initRoot (depth node : Nat) (nodes : List Nat) : Build (List Nat) :=
  let root := nodes.length / 2
  if 2 ≤ depth ∧ node - 1 = root then do
    let v ← access (readAt nodes (root / 2))
    access (writeAt nodes root v)
  else .ok nodes

/-- `crush_add_tree_bucket_item`. -/
def addTreeBucketItem (nodes : List Nat) (item : Int) (weight : Nat)
    (fresh : Nat → UInt32) : Build WeightedBucket := do
  let newsize := b.items.length + 1
  let depth := calcDepth newsize
  let nodes := reallocNodes nodes (numNodes depth) fresh
  let node := calcTreeNode (newsize - 1)
  let nodes ← access (writeAt nodes node weight)
  let nodes ← initRoot depth node nodes
  let nodes ← climb (checkedAdd weight) (depth - 1) node nodes
  let total ← checkedAdd weight b.weight
  .ok { items := b.items ++ [item], weight := total, weights := .tree nodes }

/-- `crush_add_straw_bucket_item` and `crush_add_straw2_bucket_item`. -/
def addStrawItem (mk : List Nat → Weights) (b : WeightedBucket) (itemWeights : List Nat)
    (item : Int) (weight : Nat) : Build WeightedBucket := do
  let total ← checkedAdd weight b.weight
  .ok { items := b.items ++ [item], weight := total, weights := mk (itemWeights ++ [weight]) }

/-- `crush_bucket_add_item`. -/
def bucketAddItem (item : Int) (weight : Nat) (fresh : Nat → UInt32) : Build WeightedBucket :=
  match b.weights with
  | .uniform itemWeight => addUniformBucketItem b itemWeight item weight
  | .list itemWeights sumWeights => addListBucketItem b itemWeights sumWeights item weight
  | .tree nodes => addTreeBucketItem b nodes item weight fresh
  | .straw itemWeights => addStrawItem .straw b itemWeights item weight
  | .straw2 itemWeights => addStrawItem .straw2 b itemWeights item weight

/-! ## Removing an item -/

/-- `crush_remove_uniform_bucket_item`.  Here and for a list the loop also reads the entry
behind the last one, into a place that is given up at once. -/
def removeUniformBucketItem (itemWeight i : Nat) : WeightedBucket :=
  { b with items := b.items.eraseIdx i, weight := lessWeight b.weight itemWeight }

/-- `crush_remove_list_bucket_item`. -/
def removeListBucketItem (itemWeights sumWeights : List Nat) (i : Nat) : Build WeightedBucket := do
  let w ← access (readAt itemWeights i)
  .ok {
    items := b.items.eraseIdx i
    weight := lessWeight b.weight w
    weights := .list (itemWeights.eraseIdx i)
      (sumWeights.take i ++ (sumWeights.drop (i + 1)).map fun s => wrapSub s w) }

/-- The loop that drops the items at the end that have no weight. -/
def trimmedSize (nodes : List Nat) : Nat → Except Fault Nat
  | 0 => .ok 0
  | newsize + 1 => do
    let w ← readAt nodes (calcTreeNode newsize)
    if w ≠ 0 then .ok (newsize + 1) else trimmedSize nodes newsize

/-- `crush_remove_tree_bucket_item`: the item becomes 0 and keeps its place, unless only items
without weight follow it. -/
def removeTreeBucketItem (nodes : List Nat) (i : Nat) : Build WeightedBucket := do
  let depth := calcDepth b.items.length
  let node := calcTreeNode i
  let w ← access (readAt nodes node)
  let nodes ← access (writeAt nodes node 0)
  let nodes ← climb (fun v => .ok (wrapSub v w)) (depth - 1) node nodes
  let newsize ← access (trimmedSize nodes b.items.length)
  let newdepth := calcDepth newsize
  .ok {
    items := (b.items.set i 0).take newsize
    weight := lessWeight b.weight w
    weights := .tree (if depth ≠ newdepth then nodes.take (numNodes newdepth) else nodes) }

/-- `crush_remove_straw_bucket_item` and `crush_remove_straw2_bucket_item`. -/
def removeStrawItem (mk : List Nat → Weights) (b : WeightedBucket) (itemWeights : List Nat)
    (i : Nat) : Build WeightedBucket := do
  let w ← access (readAt itemWeights i)
  .ok {
    items := b.items.eraseIdx i
    weight := lessWeight b.weight w
    weights := mk (itemWeights.eraseIdx i) }

/-- `crush_bucket_remove_item`. -/
def bucketRemoveItem (item : Int) : Build WeightedBucket :=
  match b.find item with
  | none => .error .enoent
  | some i =>
    match b.weights with
    | .uniform itemWeight => .ok (removeUniformBucketItem b itemWeight i)
    | .list itemWeights sumWeights => removeListBucketItem b itemWeights sumWeights i
    | .tree nodes => removeTreeBucketItem b nodes i
    | .straw itemWeights => removeStrawItem .straw b itemWeights i
    | .straw2 itemWeights => removeStrawItem .straw2 b itemWeights i

/-! ## Another weight for an item -/

/-- `x += weight - old` on 32 bits. -/
def shiftBy (old weight x : Nat) : Nat := wrap32 (x + wrapSub weight old)

/-- `crush_adjust_list_bucket_item_weight`. -/
def adjustListBucketItemWeight (itemWeights sumWeights : List Nat)
    (i weight : Nat) : Build WeightedBucket := do
  let old ← access (readAt itemWeights i)
  .ok { b with
    weight := shiftBy old weight b.weight
    weights := .list (itemWeights.set i weight)
      (sumWeights.take i ++ (sumWeights.drop i).map (shiftBy old weight)) }

/-- `crush_adjust_tree_bucket_item_weight`. -/
def adjustTreeBucketItemWeight (nodes : List Nat) (i weight : Nat) : Build WeightedBucket := do
  let node := calcTreeNode i
  let old ← access (readAt nodes node)
  let nodes ← access (writeAt nodes node weight)
  let nodes ← climb (fun v => .ok (shiftBy old weight v)) (calcDepth b.items.length - 1) node nodes
  .ok { b with weight := shiftBy old weight b.weight, weights := .tree nodes }

/-- `crush_adjust_straw_bucket_item_weight` and `crush_adjust_straw2_bucket_item_weight`. -/
def adjustStrawItemWeight (mk : List Nat → Weights) (b : WeightedBucket) (itemWeights : List Nat)
    (i weight : Nat) : Build WeightedBucket := do
  let old ← access (readAt itemWeights i)
  .ok { b with
    weight := shiftBy old weight b.weight
    weights := mk (itemWeights.set i weight) }

/-- `crush_bucket_adjust_item_weight`.  A uniform bucket gives all of its items the weight,
whether or not the item is one of them; the others leave an item alone that they do not have. -/
def bucketAdjustItemWeight (item : Int) (weight : Nat) : Build WeightedBucket :=
  match b.weights with
  | .uniform _ =>
    .ok { b with weight := wrap32 (weight * b.items.length), weights := .uniform weight }
  | .list itemWeights sumWeights =>
    (b.find item).elim (.ok b) (adjustListBucketItemWeight b itemWeights sumWeights · weight)
  | .tree nodes => (b.find item).elim (.ok b) (adjustTreeBucketItemWeight b nodes · weight)
  | .straw itemWeights =>
    (b.find item).elim (.ok b) (adjustStrawItemWeight .straw b itemWeights · weight)
  | .straw2 itemWeights =>
    (b.find item).elim (.ok b) (adjustStrawItemWeight .straw2 b itemWeights · weight)

/-! ## Reweighting -/

/-- `map->buckets[k]`, dereferenced. -/
def bucketAt (map : BucketMap) (k : Nat) : Except Fault WeightedBucket :=
  match map[k]? with
  | some (some b) => .ok b
  | _ => .error .bounds

/-- `-1-id`. -/
def childIndex (id : Int) : Nat := (-1 - id).toNat

/-- What a loop over the items has found: the buckets, the weights of the items, their sum, and
whether the loop came to its end. -/
structure Summed where
  map : BucketMap
  weights : List Nat
  sum : Nat
  complete : Bool
  deriving DecidableEq, Repr

/-- The weight of an item: that of the bucket, once it is reweighted, or the stored one.  What
the call for the bucket returns is not looked at. -/
def reweightItem (reweight : BucketMap → Nat → Except Fault BucketMap) (id : Int) (w : Nat)
    (map : BucketMap) : Except Fault (BucketMap × Nat) :=
  if id < 0 then do
    let map ← reweight map (childIndex id)
    let c ← bucketAt map (childIndex id)
    .ok (map, c.weight)
  else .ok (map, w)

/-- The loop over the items.  The bucket itself is written back at the end: a bucket that can be
reached from itself is reweighted without end, whatever its weights. -/
def reweightItems (reweight : BucketMap → Nat → Except Fault BucketMap) :
    List Int → List Nat → BucketMap → Nat → Except Fault Summed
  | [], ws, map, sum => .ok ⟨map, ws, sum, true⟩
  | _ :: _, [], _, _ => .error .bounds
  | id :: items, w :: ws, map, sum => do
    let r ← reweightItem reweight id w map
    if additionIsUnsafe sum r.2 then .ok ⟨r.1, r.2 :: ws, sum, false⟩
    else do
      let s ← reweightItems reweight items ws r.1 (sum + r.2)
      .ok { s with weights := r.2 :: s.weights }

/-- The counters of `crush_reweight_uniform_bucket`. -/
structure UniformSum where
  sum : Nat
  n : Nat
  leaves : Nat
  deriving DecidableEq, Repr

/-- The loop of `crush_reweight_uniform_bucket`; `none` is `-ERANGE`. -/
def reweightUniformItems (reweight : BucketMap → Nat → Except Fault BucketMap) :
    List Int → BucketMap → UniformSum → Except Fault (BucketMap × Option UniformSum)
  | [], map, s => .ok (map, some s)
  | id :: items, map, s =>
    if id < 0 then do
      let r ← reweightItem reweight id 0 map
      if additionIsUnsafe s.sum r.2 then .ok (r.1, none)
      else reweightUniformItems reweight items r.1 { s with sum := s.sum + r.2, n := s.n + 1 }
    else reweightUniformItems reweight items map { s with leaves := s.leaves + 1 }

/-- The weight that a uniform bucket gives its items. -/
def UniformSum.itemWeight (s : UniformSum) (old : Nat) : Nat :=
  if s.leaves < s.n then s.sum / s.n else old

/-- The weights of the items of a tree, in its terminal nodes. -/
def leafWeights (nodes : List Nat) (size : Nat) : List Nat :=
  (List.range size).map fun i => nodes.getD (calcTreeNode i) 0

/-- Write the weights of the items from position `i` on. -/
def setLeaves : List Nat → Nat → List Nat → List Nat
  | nodes, _, [] => nodes
  | nodes, i, w :: ws => setLeaves (nodes.set (calcTreeNode i) w) (i + 1) ws

/-- A bucket after `crush_reweight_*_bucket`, with the weights that the loop left. -/
def WeightedBucket.store (b : WeightedBucket) (s : Summed) (weights : Weights) :
    BucketMap × Option WeightedBucket × Bool :=
  (s.map, some { b with weight := s.sum, weights := weights }, s.complete)

/-- The function for the algorithm of the bucket: the buckets below, the bucket itself unless it
stays as it was, and whether the call returns 0. -/
def reweightArrays (reweight : BucketMap → Nat → Except Fault BucketMap) (map : BucketMap)
    (b : WeightedBucket) : Except Fault (BucketMap × Option WeightedBucket × Bool) :=
  match b.weights with
  | .uniform itemWeight => do
    let r ← reweightUniformItems reweight b.items map ⟨0, 0, 0⟩
    match r.2 with
    | none => .ok (r.1, none, false)
    | some s =>
      .ok (r.1, some { b with
        weight := wrap32 (s.itemWeight itemWeight * b.items.length)
        weights := .uniform (s.itemWeight itemWeight) }, true)
  | .list itemWeights sumWeights => do
    let s ← reweightItems reweight b.items itemWeights map 0
    .ok (b.store s (.list s.weights sumWeights))
  | .tree nodes =>
    if ∀ i < b.items.length, calcTreeNode i < nodes.length then do
      let s ← reweightItems reweight b.items (leafWeights nodes b.items.length) map 0
      .ok (b.store s (.tree (setLeaves nodes 0 s.weights)))
    else .error .bounds
  | .straw itemWeights => do
    let s ← reweightItems reweight b.items itemWeights map 0
    .ok (b.store s (.straw s.weights))
  | .straw2 itemWeights => do
    let s ← reweightItems reweight b.items itemWeights map 0
    .ok (b.store s (.straw2 s.weights))

/-- Put a bucket back into the map. -/
def BucketMap.put (map : BucketMap) (k : Nat) : Option WeightedBucket → BucketMap
  | none => map
  | some b => map.set k (some b)

/-- `crush_reweight_bucket`, with whether it returns 0. -/
def reweightBucket : Nat → BucketMap → Nat → Except Fault (BucketMap × Bool)
  | 0, _, _ => .error .fuel
  | fuel + 1, map, k => do
    let b ← bucketAt map k
    let r ← reweightArrays (fun map c => (reweightBucket fuel map c).map Prod.fst) map b
    .ok (BucketMap.put r.1 k r.2.1, r.2.2)

/-! ## Calls -/

/-- A call of the builder for the bucket with the index `k`. -/
inductive Call where
  | addItem (k : Nat) (item : Int) (weight : UInt32) (fresh : Nat → UInt32)
  | removeItem (k : Nat) (item : Int)
  | adjustItemWeight (k : Nat) (item : Int) (weight : UInt32)
  | reweight (k : Nat) (fuel : Nat)

/-- Change the bucket with the index `k`. -/
def onBucket (map : BucketMap) (k : Nat) (f : WeightedBucket → Build WeightedBucket) :
    Option BucketMap :=
  match bucketAt map k with
  | .error _ => none
  | .ok b => (f b).toOption.map fun b => map.set k (some b)

/-- The map after a call, which must be successful. -/
def Call.step (map : BucketMap) : Call → Option BucketMap
  | .addItem k item weight fresh => onBucket map k (bucketAddItem · item weight.toNat fresh)
  | .removeItem k item => onBucket map k (bucketRemoveItem · item)
  | .adjustItemWeight k item weight => onBucket map k (bucketAdjustItemWeight · item weight.toNat)
  | .reweight k fuel =>
    match reweightBucket fuel map k with
    | .ok (map, true) => some map
    | _ => none

end Ceph.Crush
