import Ceph.Crush.Ln
import Ceph.Lib.ArgMax
import Mathlib.Tactic.Linarith

set_option autoImplicit false

/-!
# Crush: the straw2 bucket

Every item of a straw2 bucket draws a straw whose length depends on its own id and weight
only, and the longest straw wins.  Because the draw never falls when the weight grows, over
the whole range of the 32-bit weight, changing the weight of one item moves inputs only to
that item or away from it.
-/

namespace Ceph.Crush

open Ceph.Lib List Option Int

/-- `S64_MIN`, the straw of an item without weight. -/
def s64Min : Int := -2 ^ 63

/-- `get_choose_arg_weights`.  There is no result for a weight set without positions, of which
the source reads entry `-1`. -/
def getChooseArgWeights (itemWeights : List UInt32) (arg : Option ChooseArg) (position : Nat) :
    Option (List UInt32) :=
  match arg.bind ChooseArg.weightSet with
  | none => some itemWeights
  | some sets =>
    let position := if position ≥ sets.length then sets.length - 1 else position
    sets[position]?

/-- `get_choose_arg_ids`. -/
def getChooseArgIds (items : List Int) (arg : Option ChooseArg) : List Int :=
  (arg.bind ChooseArg.ids).getD items

variable (h : Hash)

/-- `generate_exponential_distribution`; the division is C's, towards zero. -/
def generateExponentialDistribution (type : Nat) (x y z weight : Int) : Int :=
  let u := (h.hash32_3 type x y z).toNat &&& 0xffff
  let ln : Int := crushLn u - 0x1000000000000
  Int.tdiv ln weight

/-- The straw of one item.  The 32-bit weight is handed over as an `int`. -/
def straw2Draw (hash : Nat) (x r id : Int) (weight : UInt32) : Int :=
  if weight ≠ 0 then generateExponentialDistribution h hash x id r weight.toInt32.toInt
  else s64Min

/-- The loop of `bucket_straw2_choose`: the position of the longest straw.  There is no
result when one of the arrays is shorter than the bucket. -/
def bucketStraw2High (bucket : Bucket) (itemWeights : List UInt32) (x r : Int)
    (arg : Option ChooseArg) (position : Nat) : Option Nat := do
  let weights ← getChooseArgWeights itemWeights arg position
  let ids := getChooseArgIds bucket.items arg
  if weights.length < bucket.size ∨ ids.length < bucket.size then none
  else
    let draws := (List.zipWith (straw2Draw h bucket.hash x r) ids weights).take bucket.size
    some (scanMax draws 0 0 0)

/-- `bucket_straw2_choose`. -/
def bucketStraw2Choose (bucket : Bucket) (itemWeights : List UInt32) (x r : Int)
    (arg : Option ChooseArg) (position : Nat) : Option Int := do
  let high ← bucketStraw2High h bucket itemWeights x r arg position
  bucket.items[high]?

/-! ## The draw -/

variable {w : UInt32} {ids : List Int}

theorem toInt32_toInt (w : UInt32) : w.toInt32.toInt =
    if w.toNat < 2 ^ 31 then (w.toNat : Int) else -((2 ^ 32 - w.toNat : Nat) : Int) := by
  have hlt := w.toNat_lt
  have hcond := BitVec.toInt_eq_toNat_cond w.toBitVec
  rw [UInt32.toNat_toBitVec] at hcond
  refine hcond.trans ?_
  split <;> split <;> omega

/-- The straws of one item for all of its weights.  From weight `2^31` on the `int` is
negative, and so is the logarithm: the straw is longer than that of any smaller weight. -/
theorem straw2Draw_eq (hash : Nat) (x r id : Int) :
    ∃ n : Nat, n ≤ 2 ^ 48 ∧ ∀ w : UInt32, straw2Draw h hash x r id w =
      if w = 0 then s64Min
      else if w.toNat < 2 ^ 31 then -((n / w.toNat : Nat) : Int)
      else ((n / (2 ^ 32 - w.toNat) : Nat) : Int) := by
  have hln : crushLn ((h.hash32_3 hash x id r).toNat &&& 0xffff) < 2 ^ 48 :=
    crushLn_lt Nat.and_le_right
  generalize hu : crushLn ((h.hash32_3 hash x id r).toNat &&& 0xffff) = ln at hln
  have hneg : (ln : Int) - 0x1000000000000 = -((2 ^ 48 - ln : Nat) : Int) := by omega
  refine ⟨2 ^ 48 - ln, Nat.sub_le _ _, fun w => ?_⟩
  simp only [straw2Draw, generateExponentialDistribution, hu, hneg, ne_eq, ite_not]
  split
  next => rfl
  next =>
    rw [Int.neg_tdiv]
    split
    next hlt => rw [toInt32_toInt, if_pos hlt, ofNat_tdiv]
    next hge => rw [toInt32_toInt, if_neg hge, Int.tdiv_neg, neg_neg, ofNat_tdiv]

/-- An item with weight draws a longer straw than any item without. -/
theorem straw2Draw_zero_lt (hash : Nat) (x r id id' : Int)
    (hw : w ≠ 0) : straw2Draw h hash x r id 0 < straw2Draw h hash x r id' w := by
  obtain ⟨n, _, hdraw⟩ := straw2Draw_eq h hash x r id'
  have hzero : straw2Draw h hash x r id 0 = s64Min := if_neg (not_not.2 rfl)
  have hdiv : n / w.toNat ≤ n := Nat.div_le_self n w.toNat
  have hquot := natCast_nonneg (n / (2 ^ 32 - w.toNat))
  rw [hzero, hdraw w, if_neg hw]
  unfold s64Min
  split <;> omega

/-- A heavier item draws a straw that is not shorter. -/
theorem straw2Draw_mono (hash : Nat) (x r id : Int) {v : UInt32} (hvw : v ≤ w) :
    straw2Draw h hash x r id v ≤ straw2Draw h hash x r id w := by
  cases decEq v 0 with
  | isTrue hv =>
    subst hv
    cases decEq w 0 with
    | isTrue hw => rw [hw]
    | isFalse hw => exact le_of_lt (straw2Draw_zero_lt h hash x r id id hw)
  | isFalse hv =>
    obtain ⟨n, -, hdraw⟩ := straw2Draw_eq h hash x r id
    have hle : v.toNat ≤ w.toNat := UInt32.le_iff_toNat_le.1 hvw
    have hwlt := w.toNat_lt
    have hvpos : 0 < v.toNat := pos_of_ne_zero fun h0 => hv (UInt32.toNat_inj.1 h0)
    have hw : w ≠ 0 := by
      intro h0
      rw [h0] at hle
      exact not_le.2 hvpos hle
    have hquot := natCast_nonneg (n / (2 ^ 32 - w.toNat))
    rw [hdraw v, hdraw w, if_neg hv, if_neg hw]
    rcases lt_or_ge w.toNat (2 ^ 31) with _ | _
    · have hdown : n / w.toNat ≤ n / v.toNat := Nat.div_le_div_left hle hvpos
      omega
    · rcases lt_or_ge v.toNat (2 ^ 31) with _ | _
      · have hquot' := natCast_nonneg (n / v.toNat)
        omega
      · have hup : n / (2 ^ 32 - v.toNat) ≤ n / (2 ^ 32 - w.toNat) :=
          Nat.div_le_div_left (by omega) (by omega)
        omega

/-! ## The choice -/

/-- The arrays that a straw2 bucket reads are there: it has an item, and the ids and weights
it draws with cover all of its items. -/
structure Straw2Arrays (bucket : Bucket) (itemWeights : List UInt32) (arg : Option ChooseArg)
    (position : Nat) (weights : List UInt32) : Prop where
  weights_eq : getChooseArgWeights itemWeights arg position = some weights
  pos : 0 < bucket.size
  weights_len : bucket.size ≤ weights.length
  ids_len : bucket.size ≤ (getChooseArgIds bucket.items arg).length

section

variable {h : Hash} {bucket : Bucket} {itemWeights weights : List UInt32} {x r : Int}
  {arg : Option ChooseArg} {position : Nat}

/-- The straws of the bucket's items, in their order. -/
def straw2Draws (h : Hash) (bucket : Bucket) (x r : Int) (ids : List Int)
    (weights : List UInt32) : List Int :=
  (List.zipWith (straw2Draw h bucket.hash x r) ids weights).take bucket.size

theorem straw2Draws_length (hi : bucket.size ≤ ids.length) (hw : bucket.size ≤ weights.length) :
    (straw2Draws h bucket x r ids weights).length = bucket.size := by
  rw [straw2Draws, length_take, length_zipWith]
  omega

/-- The loop stops at the first of the longest straws. -/
theorem Straw2Arrays.high (ha : Straw2Arrays bucket itemWeights arg position weights) :
    ∃ high, bucketStraw2High h bucket itemWeights x r arg position = some high ∧
      FirstMax (straw2Draws h bucket x r (getChooseArgIds bucket.items arg) weights) high := by
  have hlen := straw2Draws_length ha.ids_len ha.weights_len (h := h) (x := x) (r := r)
  have hne : straw2Draws h bucket x r (getChooseArgIds bucket.items arg) weights ≠ [] := by
    intro hnil
    rw [hnil] at hlen
    exact ne_of_lt ha.pos hlen
  refine ⟨_, ?_, scanMax_firstMax hne 0 0⟩
  have hfit : ¬ (weights.length < bucket.size ∨
      (getChooseArgIds bucket.items arg).length < bucket.size) :=
    not_or.2 ⟨not_lt.2 ha.weights_len, not_lt.2 ha.ids_len⟩
  simp only [bucketStraw2High, ha.weights_eq, bind_eq_bind, bind_some, if_neg hfit]
  rfl

/-- The straw at one position. -/
theorem straw2Draws_getElem {j : Nat} (hj : j < (straw2Draws h bucket x r ids weights).length)
    (hi : j < ids.length) (hw : j < weights.length) :
    (straw2Draws h bucket x r ids weights)[j] =
      straw2Draw h bucket.hash x r ids[j] weights[j] := by
  simp only [straw2Draws, getElem_take, getElem_zipWith]

/-- What is chosen is the item at the position where the loop stopped. -/
theorem bucketStraw2Choose_eq {high : Nat} (hlt : high < bucket.items.length)
    (hhigh : bucketStraw2High h bucket itemWeights x r arg position = some high) :
    bucketStraw2Choose h bucket itemWeights x r arg position = some bucket.items[high] := by
  rw [bucketStraw2Choose, hhigh]
  exact getElem?_eq_getElem hlt

/-- A position without weight is not where the loop stops while another one has weight. -/
theorem Straw2Arrays.high_ne (ha : Straw2Arrays bucket itemWeights arg position weights)
    {high j k : Nat} (hj : j < bucket.size) (hjw : weights[j]? ≠ some 0)
    (hkw : weights[k]? = some 0)
    (hmax : FirstMax (straw2Draws h bucket x r (getChooseArgIds bucket.items arg) weights) high) :
    high ≠ k := by
  intro hk
  subst hk
  have hw := ha.weights_len
  have hi := ha.ids_len
  have hlen := straw2Draws_length hi hw (h := h) (x := x) (r := r)
  have hhigh := hmax.lt
  have hle := hmax.max j (hlen ▸ hj)
  rw [straw2Draws_getElem _ (by omega) (by omega),
    straw2Draws_getElem _ (by omega) (by omega)] at hle
  rw [getElem?_eq_getElem (by omega), some_inj] at hkw
  rw [getElem?_eq_getElem (by omega), ne_eq, some_inj] at hjw
  rw [hkw] at hle
  exact absurd hle (not_le.2 (straw2Draw_zero_lt h bucket.hash x r _ _ hjw))

end

/-- Raising the weight at one position moves the end of the loop there or not at all. -/
theorem straw2_raise {h : Hash} {bucket : Bucket} {x r : Int} {weights weights' : List UInt32}
    {high high' k : Nat} (hi : bucket.size ≤ ids.length) (hw : bucket.size ≤ weights.length)
    (hw' : bucket.size ≤ weights'.length)
    (hmax : FirstMax (straw2Draws h bucket x r ids weights) high)
    (hmax' : FirstMax (straw2Draws h bucket x r ids weights') high')
    (hother : ∀ j, j ≠ k → weights'[j]? = weights[j]?)
    (hup : weights.getD k 0 ≤ weights'.getD k 0) : high' = high ∨ high' = k := by
  have hl := straw2Draws_length hi hw (h := h) (x := x) (r := r)
  have hl' := straw2Draws_length hi hw' (h := h) (x := x) (r := r)
  apply hmax.raise hmax' (hl'.trans hl.symm)
  · intro j hj hj' hne
    rw [straw2Draws_getElem hj' (by omega) (by omega), straw2Draws_getElem hj (by omega) (by omega)]
    have hsame := hother j hne
    rw [getElem?_eq_getElem (by omega), getElem?_eq_getElem (by omega), some_inj] at hsame
    rw [hsame]
  · intro hk hk'
    rw [straw2Draws_getElem hk' (by omega) (by omega), straw2Draws_getElem hk (by omega) (by omega)]
    rw [getD_eq_getElem _ _ (by omega), getD_eq_getElem _ _ (by omega)] at hup
    exact straw2Draw_mono h bucket.hash x r _ hup

/-- Changing the weight of one item moves as little as possible.  The weights before and
after differ at position `k` at most; they are the bucket's own or those of a weight set.  If
the weight grew, the input stays where it was or goes to that item; if it fell, only inputs
that had chosen that item move; and a position without weight is not chosen while another has
weight. -/
theorem straw2_moves_least (bucket : Bucket) (x r : Int) (position k : Nat)
    {itemWeights itemWeights' weights weights' : List UInt32} {arg arg' : Option ChooseArg}
    (ha : Straw2Arrays bucket itemWeights arg position weights)
    (ha' : Straw2Arrays bucket itemWeights' arg' position weights')
    (hids : getChooseArgIds bucket.items arg' = getChooseArgIds bucket.items arg)
    (hother : ∀ j, j ≠ k → weights'[j]? = weights[j]?) :
    ∃ high item item',
      bucketStraw2High h bucket itemWeights x r arg position = some high ∧
      bucket.items[high]? = some item ∧
      bucketStraw2Choose h bucket itemWeights x r arg position = some item ∧
      bucketStraw2Choose h bucket itemWeights' x r arg' position = some item' ∧
      (weights.getD k 0 ≤ weights'.getD k 0 → item' = item ∨ bucket.items[k]? = some item') ∧
      (weights'.getD k 0 ≤ weights.getD k 0 → item' ≠ item → bucket.items[k]? = some item) ∧
      ∀ z j, weights[z]? = some 0 → j < bucket.size → weights[j]? ≠ some 0 → high ≠ z := by
  obtain ⟨high, hhigh, hmax⟩ := ha.high
  obtain ⟨high', hhigh', hmax'⟩ := ha'.high
  rw [hids] at hmax'
  have hlen := straw2Draws_length ha.ids_len ha.weights_len (h := h) (x := x) (r := r)
  have hlen' := straw2Draws_length ha.ids_len ha'.weights_len (h := h) (x := x) (r := r)
  have hlt : high < bucket.items.length := hmax.lt.trans_eq hlen
  have hlt' : high' < bucket.items.length := hmax'.lt.trans_eq hlen'
  refine ⟨high, bucket.items[high], bucket.items[high'], hhigh, getElem?_eq_getElem hlt,
    bucketStraw2Choose_eq hlt hhigh, bucketStraw2Choose_eq hlt' hhigh', ?_, ?_, ?_⟩
  · intro hup
    cases straw2_raise ha.ids_len ha.weights_len ha'.weights_len hmax hmax' hother hup with
    | inl hsame =>
      subst hsame
      exact .inl rfl
    | inr hmoved =>
      subst hmoved
      exact .inr (getElem?_eq_getElem hlt')
  · intro hdown hne
    -- Seen backwards the weight grew, so the old choice was the new one or the item.
    cases straw2_raise ha.ids_len ha'.weights_len ha.weights_len hmax' hmax
        (fun j hj => (hother j hj).symm) hdown with
    | inl hsame =>
      subst hsame
      exact absurd rfl hne
    | inr hmoved =>
      subst hmoved
      exact getElem?_eq_getElem hlt
  · intro z j hz hj hjw
    exact ha.high_ne hj hjw hz hmax

/-- The hash of the example below: of equal weights item 1 would draw the longest straw. -/
def exampleHash : Hash where
  hash32_2 := fun _ _ _ => 0
  hash32_3 := fun _ _ y _ => if y = 1 then 0xffff else 0x8000
  hash32_4 := fun _ _ _ _ _ => 0

/-- Three items of which the second has no weight; raising the first to `2^31` or more takes
the input from the third to the first. -/
theorem straw2_moves_least_raised :
    let bucket : Bucket := ⟨-1, 1, .straw2 [0x10000, 0, 0x20000], 0, [0, 1, 2]⟩
    ∃ high item item',
      bucketStraw2High exampleHash bucket [0x10000, 0, 0x20000] 7 0 none 0 = some high ∧
      bucket.items[high]? = some item ∧
      bucketStraw2Choose exampleHash bucket [0x10000, 0, 0x20000] 7 0 none 0 = some item ∧
      bucketStraw2Choose exampleHash bucket [0x80000000, 0, 0x20000] 7 0 none 0 = some item' ∧
      item = 2 ∧ item' = 0 ∧ high ≠ 1 := by
  intro bucket
  obtain ⟨high, item, item', hhigh, hitem, hold, hnew, -, -, hzero⟩ :=
    straw2_moves_least exampleHash bucket 7 0 0 0
      (⟨rfl, by decide, by decide, by decide⟩ :
        Straw2Arrays bucket [0x10000, 0, 0x20000] none 0 [0x10000, 0, 0x20000])
      (⟨rfl, by decide, by decide, by decide⟩ :
        Straw2Arrays bucket [0x80000000, 0, 0x20000] none 0 [0x80000000, 0, 0x20000]) rfl
      (fun j hj => by cases j with
        | zero => exact absurd rfl hj
        | succ => rfl)
  refine ⟨high, item, item', hhigh, hitem, hold, hnew, ?_, ?_, hzero 1 0 rfl (by decide) ?_⟩
  · exact some_inj.1 (hold.symm.trans (by decide +kernel))
  · exact some_inj.1 (hnew.symm.trans (by decide +kernel))
  · decide

end Ceph.Crush
