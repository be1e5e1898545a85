import Ceph.Crush.Straw2

set_option autoImplicit false

/-!
# Crush: the mapper (crush/mapper.c)

How an item is drawn from a bucket, and how a rule walks down the map with it.  Arrays are
read and written with their bounds checked, and a computation that leaves the bounds has no
result but a fault.  Signed arithmetic is that of two's complement.  The histogram
`choose_tries`, which is filled only while profiling, is left out.
-/

namespace Ceph.Crush

open Ceph.Lib

/-! ## Faults and arrays -/

/-- What can go wrong: the fuel of a loop is used up, an access leaves an array or follows
a null pointer, an operation is undefined in C, a `BUG_ON` fails. -/
inductive Fault where
  | fuel
  | bounds
  | undefined
  | bug
  deriving DecidableEq, Repr

def readAt {α : Type} (a : List α) (i : Nat) : Except Fault α :=
  match a[i]? with
  | some v => .ok v
  | none => .error .bounds

def writeAt {α : Type} (a : List α) (i : Nat) (v : α) : Except Fault (List α) :=
  if i < a.length then .ok (a.set i v) else .error .bounds

/-- The conversion to `unsigned int`. -/
def toU32 (v : Int) : Nat := (v % 2 ^ 32).toNat

/-- The conversion to `int`. -/
def toS32 (v : Int) : Int := Int.bmod v (2 ^ 32)

/-! ## The map -/

/-- The part of `crush_map` that the mapper reads.  `max_buckets` is the length of
`buckets`, and a removed bucket is `none`. -/
structure CrushMap where
  buckets : List (Option Bucket)
  maxDevices : Int
  chooseLocalTries : UInt32
  chooseLocalFallbackTries : UInt32
  chooseTotalTries : UInt32
  chooseleafDescendOnce : UInt32
  chooseleafVaryR : UInt8
  chooseleafStable : UInt8
  deriving Repr

/-- `map->buckets[-1-item]`, dereferenced. -/
def CrushMap.bucketOf (m : CrushMap) (item : Int) : Except Fault Bucket :=
  if item < 0 then
    match m.buckets[(-1 - item).toNat]? with
    | some (some b) => .ok b
    | _ => .error .bounds
  else .error .bounds

/-- The type of an item; that of a device is 0. -/
def CrushMap.itemType (m : CrushMap) (item : Int) : Except Fault Nat :=
  if item < 0 then (m.bucketOf item).map Bucket.type else .ok 0

/-- `crush_work_bucket`. -/
structure WorkBucket where
  permX : Nat
  permN : Nat
  perm : List Nat
  deriving DecidableEq, Repr

/-- `crush_work`, indexed as the buckets are. -/
abbrev Work := List WorkBucket

/-! ## Drawing from a bucket -/

/-- The loops that write the identity from a position on. -/
def fillPerm (perm : List Nat) (start size : Nat) : Except Fault (List Nat) :=
  (List.range' start (size - start)).foldlM (fun p i => writeAt p i i) perm

variable (h : Hash)

/-- One step of the permutation: position `p` is swapped with one at or after it. -/
def permSwap (b : Bucket) (x : Int) (p : Nat) (perm : List Nat) : Except Fault (List Nat) :=
  if p < b.size - 1 then
    let i := (h.hash32_3 b.hash x b.id p).toNat % (b.size - p)
    if i ≠ 0 then do
      let t ← readAt perm (p + i)
      let u ← readAt perm p
      let perm ← writeAt perm (p + i) u
      writeAt perm p t
    else .ok perm
  else .ok perm

/-- The permutation is calculated some steps further. -/
def permLoop (h : Hash) (b : Bucket) (x : Int) : Nat → WorkBucket → Except Fault WorkBucket
  | 0, wb => .ok wb
  | n + 1, wb => do
    let perm ← permSwap h b x wb.permN wb.perm
    permLoop h b x n { wb with permN := wb.permN + 1, perm := perm }

/-- `perm_n` while only the first entry has been calculated. -/
def permMagic : Nat := 0xffff

/-- The permutation up to `pr`, then the item there. -/
def permFinish (b : Bucket) (x : Int) (pr : Nat) (wb : WorkBucket) :
    Except Fault (Int × WorkBucket) := do
  let wb ← permLoop h b x (pr + 1 - wb.permN) wb
  let s ← readAt wb.perm pr
  let item ← readAt b.items s
  return (item, wb)

/-- `bucket_perm_choose`. -/
def bucketPermChoose (b : Bucket) (wb : WorkBucket) (x r : Int) : Except Fault (Int × WorkBucket) :=
  if b.size = 0 then .error .undefined
  else
    let pr := toU32 r % b.size
    if wb.permX ≠ toU32 x ∨ wb.permN = 0 then
      if pr = 0 then do
        let s := (h.hash32_3 b.hash x b.id 0).toNat % b.size
        let perm ← writeAt wb.perm 0 s
        let item ← readAt b.items s
        return (item, ⟨toU32 x, permMagic, perm⟩)
      else do
        let perm ← fillPerm wb.perm 0 b.size
        permFinish h b x pr ⟨toU32 x, 0, perm⟩
    else if wb.permN = permMagic then do
      let perm ← fillPerm wb.perm 1 b.size
      let first ← readAt perm 0
      let perm ← writeAt perm first 0
      permFinish h b x pr ⟨wb.permX, 1, perm⟩
    else permFinish h b x pr wb

/-- The loop of `bucket_list_choose`, from the position before `i` down. -/
def listLoop (h : Hash) (b : Bucket) (itemWeights sumWeights : List UInt32) (x r : Int) :
    Nat → Except Fault Int
  | 0 => readAt b.items 0
  | i + 1 => do
    let item ← readAt b.items i
    let sum ← readAt sumWeights i
    let weight ← readAt itemWeights i
    let w := ((h.hash32_4 b.hash x item r b.id).toNat &&& 0xffff) * sum.toNat
    if w >>> 16 < weight.toNat then return item
    else listLoop h b itemWeights sumWeights x r i

/-- `bucket_list_choose`. -/
def bucketListChoose (b : Bucket) (itemWeights sumWeights : List UInt32)
    (x r : Int) : Except Fault Int := listLoop h b itemWeights sumWeights x r b.size

/-- `height`, which does not end for 0. -/
def height : Nat → Nat → Except Fault Nat
  | 0, _ => .error .fuel
  | fuel + 1, n => if n % 2 = 0 then (height fuel (n / 2)).map (· + 1) else .ok 0

/-- `left`. -/
def treeLeft (n : Nat) : Except Fault Nat := (height (n + 1) n).map fun k => n - 2 ^ (k - 1)

/-- `right`. -/
def treeRight (n : Nat) : Except Fault Nat := (height (n + 1) n).map fun k => n + 2 ^ (k - 1)

/-- The walk of `bucket_tree_choose` down to a terminal node. -/
def treeLoop (h : Hash) (b : Bucket) (nodeWeights : List UInt32) (x r : Int) :
    Nat → Nat → Except Fault Nat
  | 0, _ => .error .fuel
  | fuel + 1, n =>
    if n % 2 = 0 then do
      let w ← readAt nodeWeights n
      let t := ((h.hash32_4 b.hash x n r b.id).toNat * w.toNat) >>> 32
      let l ← treeLeft n
      let wl ← readAt nodeWeights l
      if t < wl.toNat then treeLoop h b nodeWeights x r fuel l
      else do
        let right ← treeRight n
        treeLoop h b nodeWeights x r fuel right
    else .ok n

/-- `bucket_tree_choose`. -/
def bucketTreeChoose (b : Bucket) (numNodes : UInt8) (nodeWeights : List UInt32)
    (x r : Int) : Except Fault Int := do
  let n ← treeLoop h b nodeWeights x r (numNodes.toNat + 1) (numNodes.toNat / 2)
  readAt b.items (n / 2)

/-- `bucket_straw_choose`. -/
def bucketStrawChoose (b : Bucket) (straws : List UInt32) (x r : Int) : Except Fault Int :=
  if straws.length < b.size then .error .bounds
  else
    let draws := List.zipWith (fun item straw =>
      ((h.hash32_3 b.hash x item r).toNat &&& 0xffff) * straw.toNat) b.items straws
    readAt b.items (scanMax draws 0 0 0)

/-- A missing result is an access outside of an array. -/
def orBounds {α : Type} : Option α → Except Fault α
  | some a => .ok a
  | none => .error .bounds

/-- `crush_bucket_choose`. -/
def bucketChoose (b : Bucket) (wb : WorkBucket) (x r : Int)
    (arg : Option ChooseArg) (position : Nat) : Except Fault (Int × WorkBucket) :=
  if b.size = 0 then .error .bug
  else
    match b.alg with
    | .uniform => bucketPermChoose h b wb x r
    | .list itemWeights sumWeights =>
      (bucketListChoose h b itemWeights sumWeights x r).map (·, wb)
    | .tree numNodes nodeWeights =>
      (bucketTreeChoose h b numNodes nodeWeights x r).map (·, wb)
    | .straw straws => (bucketStrawChoose h b straws x r).map (·, wb)
    | .straw2 itemWeights =>
      (orBounds (bucketStraw2Choose h b itemWeights x r arg position)).map (·, wb)
    | .other => (readAt b.items 0).map (·, wb)

/-! ## What a placement reads -/

/-- The map, the weights of the devices and the input of one placement. -/
structure Input where
  h : Hash
  map : CrushMap
  weight : List UInt32
  x : Int
  chooseArgs : Option (List ChooseArg)

namespace Input

variable (E : Input)

/-- `is_out`. -/
def isOut (item : Int) : Except Fault Bool :=
  if (E.weight.length : Int) ≤ item then .ok true
  else if item < 0 then .error .bounds
  else do
    let w ← readAt E.weight item.toNat
    if w ≥ 0x10000 then return false
    else if w = 0 then return true
    else if (E.h.hash32_2 hashRjenkins1 E.x item) &&& 0xffff < w then return false
    else return true

/-- `&choose_args[-1-in->id]`, or no argument at all. -/
def chooseArgOf (b : Bucket) : Except Fault (Option ChooseArg) :=
  match E.chooseArgs with
  | none => .ok none
  | some args => (readAt args (-1 - b.id).toNat).map some

/-- The draw from a bucket, with the bucket's own algorithm or, as a fallback, by a
permutation. -/
def drawFrom (fallback : Bool) (b : Bucket) (wb : WorkBucket) (r : Int) (position : Nat) :
    Except Fault (Int × WorkBucket) :=
  if fallback then bucketPermChoose E.h b wb E.x r
  else do
    let arg ← E.chooseArgOf b
    bucketChoose E.h b wb E.x r arg position

/-- An item is drawn from a bucket, and the work area of the bucket is updated. -/
def chooseItem (fallback : Bool) (b : Bucket) (work : Work) (r : Int) (position : Nat) :
    Except Fault (Int × Work) := do
  let wb ← readAt work (-1 - b.id).toNat
  let (item, wb) ← E.drawFrom fallback b wb r position
  let work ← writeAt work (-1 - b.id).toNat wb
  return (item, work)

end Input

/-! ## crush_choose_firstn -/

/-- The arguments of `crush_choose_firstn` that stay the same in a call. -/
structure FirstnArgs where
  type : Int
  tries : Nat
  recurseTries : Nat
  localRetries : Nat
  localFallbackRetries : Nat
  varyR : Nat
  stable : Nat

/-- How one pass through the inner loop ends: further down in a bucket, with the replica
skipped, with a reject or collision, or with an item. -/
inductive Attempt where
  | descend (b : Bucket)
  | skip
  | again (collide : Bool)
  | found (item : Int)

/-- `r >> (vary_r-1)`, or 0; the shift is undefined from 32 bits on. -/
def subR (varyR : Nat) (r : Int) : Except Fault Int :=
  if varyR = 0 then .ok 0
  else if varyR ≤ 32 then .ok (r >>> (varyR - 1))
  else .error .undefined

/-- The recursive call for a leaf: with the fuel, the position, the room left, the bucket,
`sub_r`, the work area and the leaves, it says whether a leaf was placed. -/
abbrev LeafCall :=
  Nat → Nat → Nat → Bucket → Int → Work → List Int → Except Fault (Bool × Work × List Int)

/-- What a call returns and leaves in the arrays. -/
structure FirstnResult where
  outpos : Nat
  work : Work
  out : List Int
  out2 : List Int

namespace Input

variable (E : Input)

variable (A : FirstnArgs)

/-- The leaf below an item that has the desired type: whether it is rejected. -/
def firstnLeaf (leaf : Option LeafCall) (fuel outpos count : Nat)
    (item r : Int) (work : Work) (out2 : List Int) : Except Fault (Bool × Work × List Int) :=
  match leaf with
  | none => .ok (false, work, out2)
  | some leaf =>
    if item < 0 then do
      let sub ← subR A.varyR r
      let b ← E.map.bucketOf item
      let (got, work, out2) ← leaf fuel outpos count b sub work out2
      return (!got, work, out2)
    else do
      let out2 ← writeAt out2 outpos item
      return (false, work, out2)

/-- One pass through the inner loop of `crush_choose_firstn`. -/
def firstnAttempt (leaf : Option LeafCall) (fuel : Nat) (rep parentR : Int)
    (out : List Int) (outpos count : Nat) (b : Bucket) (ftotal flocal : Nat) (work : Work)
    (out2 : List Int) : Except Fault (Attempt × Work × List Int) :=
  if b.size = 0 then .ok (.again false, work, out2)
  else do
    let r := toS32 (rep + parentR + ftotal)
    let fallback := decide (0 < A.localFallbackRetries ∧ b.size / 2 ≤ flocal ∧
      A.localFallbackRetries < flocal)
    let (item, work) ← E.chooseItem fallback b work r outpos
    if E.map.maxDevices ≤ item then return (.skip, work, out2)
    else do
      let itemtype ← E.map.itemType item
      if (itemtype : Int) ≠ A.type then
        if 0 ≤ item ∨ (E.map.buckets.length : Int) ≤ -1 - item then
          return (.skip, work, out2)
        else do
          let next ← E.map.bucketOf item
          return (.descend next, work, out2)
      else if item ∈ out.take outpos then return (.again true, work, out2)
      else do
        let (reject, work, out2) ← E.firstnLeaf A leaf fuel outpos count item r work out2
        if reject then return (.again false, work, out2)
        else if itemtype = 0 then do
          let isout ← E.isOut item
          return (if isout then .again false else .found item, work, out2)
        else return (.found item, work, out2)

/-- The two retry loops for one replica: `ftotal` and `flocal` are 32-bit counters of the
failures, in all and since the last descent from the top. -/
def firstnTry (A : FirstnArgs) (leaf : Option LeafCall) (top : Bucket) (rep parentR : Int)
    (out : List Int) (outpos count : Nat) :
    Nat → Bucket → Nat → Nat → Work → List Int → Except Fault (Option Int × Work × List Int)
  | 0, _, _, _, _, _ => .error .fuel
  | fuel + 1, b, ftotal, flocal, work, out2 => do
    let (attempt, work, out2) ←
      E.firstnAttempt A leaf fuel rep parentR out outpos count b ftotal flocal work out2
    match attempt with
    | .descend next =>
      firstnTry A leaf top rep parentR out outpos count fuel next ftotal flocal work out2
    | .skip => return (none, work, out2)
    | .found item => return (some item, work, out2)
    | .again collide =>
      let ftotal := (ftotal + 1) % 2 ^ 32
      let flocal := (flocal + 1) % 2 ^ 32
      if collide ∧ flocal ≤ A.localRetries then
        firstnTry A leaf top rep parentR out outpos count fuel b ftotal flocal work out2
      else if 0 < A.localFallbackRetries ∧
          flocal ≤ (b.size + A.localFallbackRetries) % 2 ^ 32 then
        firstnTry A leaf top rep parentR out outpos count fuel b ftotal flocal work out2
      else if ftotal < A.tries then
        firstnTry A leaf top rep parentR out outpos count fuel top ftotal 0 work out2
      else return (none, work, out2)

/-- The loop over the replicas, with the number of replicas that are left. -/
def firstnReps (A : FirstnArgs) (leaf : Option LeafCall) (fuel : Nat) (top : Bucket)
    (parentR : Int) : Nat → Int → Nat → Nat → Work → List Int → List Int →
    Except Fault FirstnResult
  | 0, _, outpos, _, work, out, out2 => .ok ⟨outpos, work, out, out2⟩
  | n + 1, rep, outpos, count, work, out, out2 =>
    if 0 < count then do
      let (item, work, out2) ←
        E.firstnTry A leaf top rep parentR out outpos count fuel top 0 0 work out2
      match item with
      | none =>
        firstnReps A leaf fuel top parentR n (rep + 1) outpos count work out out2
      | some item => do
        let out ← writeAt out outpos item
        firstnReps A leaf fuel top parentR n (rep + 1) (outpos + 1) (count - 1) work out out2
    else .ok ⟨outpos, work, out, out2⟩

/-- `crush_choose_firstn`, with the recursive call as an argument. -/
def firstnWith (leaf : Option LeafCall) (fuel : Nat) (top : Bucket)
    (numrep parentR : Int) (work : Work) (out : List Int) (outpos outSize : Nat)
    (out2 : List Int) : Except Fault FirstnResult :=
  let rep : Int := if A.stable ≠ 0 then 0 else outpos
  E.firstnReps A leaf fuel top parentR (numrep - rep).toNat rep outpos outSize work out out2

/-- The recursive call that `crush_choose_firstn` makes for a leaf. -/
def firstnLeafCall : LeafCall :=
  fun fuel outpos count b sub work out2 => do
    let res ← E.firstnWith { A with type := 0, tries := A.recurseTries, recurseTries := 0 }
      none fuel b (if A.stable ≠ 0 then 1 else outpos + 1) sub work out2 outpos count []
    return (decide (outpos < res.outpos), res.work, res.out)

/-- `crush_choose_firstn`. -/
def chooseFirstn (recurseToLeaf : Bool) (fuel : Nat) (top : Bucket)
    (numrep parentR : Int) (work : Work) (out : List Int) (outpos outSize : Nat)
    (out2 : List Int) : Except Fault FirstnResult :=
  E.firstnWith A (if recurseToLeaf then some (E.firstnLeafCall A) else none) fuel top numrep
    parentR work out outpos outSize out2

end Input

/-! ## crush_choose_indep -/

/-- `CRUSH_ITEM_UNDEF`. -/
def itemUndef : Int := 0x7ffffffe

/-- `CRUSH_ITEM_NONE`. -/
def itemNone : Int := 0x7fffffff

/-- The arguments of `crush_choose_indep` that stay the same in a call. -/
structure IndepArgs where
  numrep : Int
  type : Int
  tries : Nat
  recurseTries : Nat

/-- The arrays of a call and the number of positions that are left; `out2` may be null. -/
structure IndepState where
  work : Work
  out : List Int
  out2 : Option (List Int)
  left : Int

/-- The recursive call for a leaf: with the fuel, the position, the bucket, `r`, the work
area and the leaves. -/
abbrev IndepLeafCall := Nat → Nat → Bucket → Int → Work → List Int → Except Fault (Work × List Int)

/-- An entry that is still undefined becomes empty. -/
def clearUndef (a : List Int) (rep : Nat) : Except Fault (List Int) := do
  let v ← readAt a rep
  if v = itemUndef then writeAt a rep itemNone else return a

namespace IndepState

variable (S : IndepState)

/-- `if (out2) out2[rep] = v`. -/
def setLeaf (rep : Nat) (v : Int) : Except Fault IndepState :=
  match S.out2 with
  | none => .ok S
  | some out2 => do
    let out2 ← writeAt out2 rep v
    return { S with out2 := some out2 }

/-- `out[rep] = v`, and the same for the leaf. -/
def setBoth (rep : Nat) (v : Int) : Except Fault IndepState := do
  let out ← writeAt S.out rep v
  { S with out := out }.setLeaf rep v

/-- A bad item: the position stays empty for good. -/
def giveUp (rep : Nat) : Except Fault IndepState := do
  let S ← S.setBoth rep itemNone
  return { S with left := S.left - 1 }

/-- The position is filled. -/
def place (rep : Nat) (item : Int) : Except Fault IndepState := do
  let out ← writeAt S.out rep item
  return { S with out := out, left := S.left - 1 }

/-- What is undefined at the end is empty. -/
def finish (rep : Nat) : Except Fault IndepState := do
  let out ← clearUndef S.out rep
  match S.out2 with
  | none => return { S with out := out }
  | some out2 => do
    let out2 ← clearUndef out2 rep
    return { S with out := out, out2 := some out2 }

end IndepState

namespace Input

variable (E : Input)

/-- The leaf below an item that has the desired type: whether there is one. -/
def indepLeaf (leaf : Option IndepLeafCall) (fuel rep : Nat) (item r : Int) (S : IndepState) :
    Except Fault (Bool × IndepState) :=
  match leaf with
  | none => .ok (true, S)
  | some leaf =>
    if item < 0 then do
      let b ← E.map.bucketOf item
      let out2 ← orBounds S.out2
      let (work, out2) ← leaf fuel rep b r S.work out2
      let v ← readAt out2 rep
      return (v ≠ itemNone, { S with work := work, out2 := some out2 })
    else do
      let S ← S.setLeaf rep item
      return (true, S)

/-- `r` for a try: the multiplier depends on the bucket. -/
def indepR (A : IndepArgs) (b : Bucket) (rep : Nat) (parentR : Int) (ftotal : Nat) : Int :=
  if b.alg = .uniform ∧ b.size % A.numrep.toNat = 0 then
    toS32 (rep + parentR + (A.numrep + 1) * ftotal)
  else toS32 (rep + parentR + A.numrep * ftotal)

/-- The loop through intervening buckets for one position. -/
def indepDescend (A : IndepArgs) (leaf : Option IndepLeafCall) (parentR : Int)
    (outpos endpos rep ftotal : Nat) : Nat → Bucket → IndepState → Except Fault IndepState
  | 0, _, _ => .error .fuel
  | fuel + 1, b, S =>
    let r := indepR A b rep parentR ftotal
    if b.size = 0 then .ok S
    else do
      let (item, work) ← E.chooseItem false b S.work r outpos
      let S := { S with work := work }
      if E.map.maxDevices ≤ item then S.giveUp rep
      else do
        let itemtype ← E.map.itemType item
        if (itemtype : Int) ≠ A.type then
          if 0 ≤ item ∨ (E.map.buckets.length : Int) ≤ -1 - item then S.giveUp rep
          else do
            let next ← E.map.bucketOf item
            indepDescend A leaf parentR outpos endpos rep ftotal fuel next S
        else if item ∈ (S.out.take endpos).drop outpos then return S
        else do
          let (placed, S) ← E.indepLeaf leaf fuel rep item r S
          if placed = false then return S
          else if itemtype = 0 then do
            let isout ← E.isOut item
            if isout then return S else S.place rep item
          else S.place rep item

/-- One round over the positions. -/
def indepRound (A : IndepArgs) (leaf : Option IndepLeafCall) (fuel : Nat) (top : Bucket)
    (parentR : Int) (outpos left ftotal : Nat) (S : IndepState) : Except Fault IndepState :=
  (List.range' outpos left).foldlM (fun S rep => do
    let v ← readAt S.out rep
    if v ≠ itemUndef then return S
    else E.indepDescend A leaf parentR outpos (outpos + left) rep ftotal fuel top S) S

/-- The rounds, with the number of tries that are left. -/
def indepRounds (A : IndepArgs) (leaf : Option IndepLeafCall) (fuel : Nat) (top : Bucket)
    (parentR : Int) (outpos left : Nat) : Nat → Nat → IndepState → Except Fault IndepState
  | 0, _, S => .ok S
  | n + 1, ftotal, S =>
    if 0 < S.left then do
      let S ← E.indepRound A leaf fuel top parentR outpos left ftotal S
      indepRounds A leaf fuel top parentR outpos left n (ftotal + 1) S
    else .ok S

/-- `crush_choose_indep`, with the recursive call as an argument. -/
def indepWith (A : IndepArgs) (leaf : Option IndepLeafCall) (fuel : Nat) (top : Bucket)
    (left : Nat) (parentR : Int) (work : Work) (out : List Int) (outpos : Nat)
    (out2 : Option (List Int)) : Except Fault IndepState := do
  let S ← (List.range' outpos left).foldlM (fun S rep => S.setBoth rep itemUndef)
    (⟨work, out, out2, left⟩ : IndepState)
  let S ← E.indepRounds A leaf fuel top parentR outpos left A.tries 0 S
  (List.range' outpos left).foldlM IndepState.finish S

/-- The recursive call that `crush_choose_indep` makes for a leaf. -/
def indepLeafCall (A : IndepArgs) : IndepLeafCall :=
  fun fuel rep b r work out2 => do
    let S ← E.indepWith { A with type := 0, tries := A.recurseTries, recurseTries := 0 } none
      fuel b 1 r work out2 rep none
    return (S.work, S.out)

/-- `crush_choose_indep`. -/
def chooseIndep (A : IndepArgs) (recurseToLeaf : Bool) (fuel : Nat) (top : Bucket)
    (left : Nat) (parentR : Int) (work : Work) (out : List Int) (outpos : Nat)
    (out2 : Option (List Int)) : Except Fault IndepState :=
  E.indepWith A (if recurseToLeaf then some (E.indepLeafCall A) else none) fuel top left
    parentR work out outpos out2

end Input

/-! ## crush_do_rule -/

/-- `crush_rule_step`.  The four operations that choose are told apart by two flags. -/
inductive RuleStep where
  | noop
  | take (item : Int)
  | setChooseTries (n : Int)
  | setChooseleafTries (n : Int)
  | setChooseLocalTries (n : Int)
  | setChooseLocalFallbackTries (n : Int)
  | setChooseleafVaryR (n : Int)
  | setChooseleafStable (n : Int)
  | choose (firstn recurseToLeaf : Bool) (n type : Int)
  | emit
  deriving DecidableEq, Repr

/-- The variables of `crush_do_rule`: the working vector `w`, the output vector `o`, the
leaves `c`, and the tunables as the steps have set them. -/
structure RuleState where
  w : List Int
  o : List Int
  c : List Int
  wsize : Nat
  work : Work
  result : List Int
  chooseTries : Nat
  chooseLeafTries : Nat
  chooseLocalRetries : Nat
  chooseLocalFallbackRetries : Nat
  varyR : Nat
  stable : Nat

/-- The output of a choose step while it goes through the working vector. -/
structure ChooseOut where
  osize : Nat
  o : List Int
  c : List Int
  work : Work

namespace Input

variable (E : Input)

/-- The number of replicas: not positive means relative to the size of the result. -/
def numrepOf (n : Int) (resultMax : Nat) : Int := if n ≤ 0 then n + resultMax else n

/-- The arguments of a firstn call, from the tunables. -/
def firstnArgs (S : RuleState) (type : Int) : FirstnArgs where
  type := type
  tries := S.chooseTries
  recurseTries :=
    if S.chooseLeafTries ≠ 0 then S.chooseLeafTries
    else if E.map.chooseleafDescendOnce ≠ 0 then 1
    else S.chooseTries
  localRetries := S.chooseLocalRetries
  localFallbackRetries := S.chooseLocalFallbackRetries
  varyR := S.varyR
  stable := S.stable

/-- The arguments of an indep call, from the tunables. -/
def indepArgs (S : RuleState) (numrep type : Int) : IndepArgs where
  numrep := numrep
  type := type
  tries := S.chooseTries
  recurseTries := if S.chooseLeafTries ≠ 0 then S.chooseLeafTries else 1

/-- A choose step for one entry of the working vector.  The arrays are used from `osize`
on. -/
def chooseFrom (fuel resultMax : Nat) (S : RuleState) (firstn recurseToLeaf : Bool)
    (n type : Int) (out : ChooseOut) (i : Nat) : Except Fault ChooseOut :=
  let numrep := numrepOf n resultMax
  if numrep ≤ 0 then .ok out
  else do
    let wi ← readAt S.w i
    let bno := -1 - wi
    if bno < 0 ∨ (E.map.buckets.length : Int) ≤ bno then return out
    else do
      let bucket ← E.map.bucketOf wi
      if firstn then do
        let res ← E.chooseFirstn (E.firstnArgs S type) recurseToLeaf fuel bucket numrep 0
          out.work (out.o.drop out.osize) 0 (resultMax - out.osize) (out.c.drop out.osize)
        return ⟨out.osize + res.outpos, out.o.take out.osize ++ res.out,
          out.c.take out.osize ++ res.out2, res.work⟩
      else do
        let outSize := min numrep.toNat (resultMax - out.osize)
        let res ← E.chooseIndep (indepArgs S numrep type) recurseToLeaf fuel bucket outSize 0
          out.work (out.o.drop out.osize) 0 (some (out.c.drop out.osize))
        let c ← orBounds res.out2
        return ⟨out.osize + outSize, out.o.take out.osize ++ res.out,
          out.c.take out.osize ++ c, res.work⟩

/-- A choose step. -/
def ruleChoose (fuel resultMax : Nat) (S : RuleState) (firstn recurseToLeaf : Bool)
    (n type : Int) : Except Fault RuleState :=
  if S.wsize = 0 then .ok S
  else do
    let out ← (List.range S.wsize).foldlM
      (E.chooseFrom fuel resultMax S firstn recurseToLeaf n type) ⟨0, S.o, S.c, S.work⟩
    -- the leaves are copied over the items, then the vectors are swapped
    let o := if recurseToLeaf then out.c.take out.osize ++ out.o.drop out.osize else out.o
    return { S with w := o, o := S.w, c := out.c, wsize := out.osize, work := out.work }

/-- One step of a rule. -/
def ruleStep (fuel resultMax : Nat) (S : RuleState) : RuleStep → Except Fault RuleState
  | .noop => .ok S
  | .take item =>
    if (0 ≤ item ∧ item < E.map.maxDevices) ∨ (E.map.bucketOf item).isOk then do
      let w ← writeAt S.w 0 item
      return { S with w := w, wsize := 1 }
    else .ok S
  | .setChooseTries n => .ok (if 0 < n then { S with chooseTries := n.toNat } else S)
  | .setChooseleafTries n => .ok (if 0 < n then { S with chooseLeafTries := n.toNat } else S)
  | .setChooseLocalTries n =>
    .ok (if 0 ≤ n then { S with chooseLocalRetries := n.toNat } else S)
  | .setChooseLocalFallbackTries n =>
    .ok (if 0 ≤ n then { S with chooseLocalFallbackRetries := n.toNat } else S)
  | .setChooseleafVaryR n => .ok (if 0 ≤ n then { S with varyR := n.toNat } else S)
  | .setChooseleafStable n => .ok (if 0 ≤ n then { S with stable := n.toNat } else S)
  | .choose firstn recurseToLeaf n type =>
    E.ruleChoose fuel resultMax S firstn recurseToLeaf n type
  | .emit => .ok { S with
      result := S.result ++ (S.w.take S.wsize).take (resultMax - S.result.length), wsize := 0 }

/-- The variables at the start.  The original value of `choose_total_tries` counted retries;
the sum is one of 32 bits. -/
def ruleInit (a b c : List Int) (work : Work) : RuleState where
  w := a
  o := b
  c := c
  wsize := 0
  work := work
  result := []
  chooseTries := (E.map.chooseTotalTries + 1).toNat
  chooseLeafTries := 0
  chooseLocalRetries := E.map.chooseLocalTries.toNat
  chooseLocalFallbackRetries := E.map.chooseLocalFallbackTries.toNat
  varyR := E.map.chooseleafVaryR.toNat
  stable := E.map.chooseleafStable.toNat

/-- `crush_do_rule` for the steps of a rule, with the three vectors `a`, `b`, `c` of
`result_max` entries and the work area. -/
def doRule (fuel resultMax : Nat) (a b c : List Int) (work : Work) (steps : List RuleStep) :
    Except Fault RuleState := steps.foldlM (E.ruleStep fuel resultMax) (E.ruleInit a b c work)

end Input

end Ceph.Crush
