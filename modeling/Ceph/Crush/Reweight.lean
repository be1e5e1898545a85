import Ceph.Crush.BuilderWeights

set_option autoImplicit false

/-!
# Crush: reweighting a bucket and the buckets below it

`crush_reweight_bucket` gives every item that is a bucket the weight of that bucket, from the
bottom up.  Where the weights of the items change, a straw or straw2 bucket follows; a list
bucket keeps its old `sum_weights`, a tree bucket its old interior nodes, and a uniform bucket
gives all of its items the average.  So the result is consistent when the items of those three
that are buckets already have the weight that reweighting finds.
-/

namespace Ceph.Crush

open Ceph.Lib List WeightedBucket Except Relation.ReflTransGen Nat

/-! ## The buckets below a bucket -/

/-- The bucket `c` is an item of the bucket `j`. -/
def IsItemOf (map : BucketMap) (j c : Nat) : Prop :=
  ∃ b id, bucketAt map j = .ok b ∧ id ∈ b.items ∧ id < 0 ∧ childIndex id = c

/-- The bucket `j` is the bucket `k` or below it. -/
def Below (map : BucketMap) (k j : Nat) : Prop := Relation.ReflTransGen (IsItemOf map) k j

/-- The weights of the items when each bucket among them has its `mass`. -/
def carry (mass : Nat → Nat) (items : List Int) (ws : List Nat) : List Nat :=
  List.zipWith (fun id w => if id < 0 then mass (childIndex id) else w) items ws

/-- The weights whose repetitions `crush_reweight_bucket` does not bring up to date. -/
def Weights.Stale : Weights → Bool
  | .straw _ => false
  | .straw2 _ => false
  | _ => true

/-- `mass` is the weight of the devices below each bucket under `k`.  It fits into 32 bits, and
buckets that are items of a uniform, list or tree bucket have it already. -/
structure Masses (map : BucketMap) (k : Nat) (mass : Nat → Nat) : Prop where
  eq : ∀ j b, Below map k j → bucketAt map j = .ok b →
    mass j = (carry mass b.items b.itemWeights).sum
  stale : ∀ j b, Below map k j → bucketAt map j = .ok b → b.weights.Stale = true →
    carry mass b.items b.itemWeights = b.itemWeights
  bound : mass k < 2 ^ 32

/-- A bucket with the weights that reweighting finds. -/
def WeightedBucket.settle (mass : Nat → Nat) (b : WeightedBucket) : WeightedBucket :=
  match b.weights with
  | .straw ws =>
    ⟨b.items, (carry mass b.items ws).sum, .straw (carry mass b.items ws)⟩
  | .straw2 ws =>
    ⟨b.items, (carry mass b.items ws).sum, .straw2 (carry mass b.items ws)⟩
  | _ => b

/-! ## Carried weights -/

variable {id : Int} {j : Nat}

section Carry

variable {mass : Nat → Nat} {items : List Int} {ws : List Nat} {i : Nat}

theorem length_carry (mass : Nat → Nat) (h : ws.length = items.length) :
    (carry mass items ws).length = items.length := by
  rw [carry, length_zipWith, h, min_self]

theorem carry_cons (id : Int) (w : Nat) :
    carry mass (id :: items) (w :: ws) =
      (if id < 0 then mass (childIndex id) else w) :: carry mass items ws := rfl

theorem carry_carry : carry mass items (carry mass items ws) = carry mass items ws := by
  induction items generalizing ws with
  | nil => rfl
  | cons id _ ih =>
    cases ws with
    | nil => rfl
    | cons =>
      rw [carry_cons, carry_cons, ih]
      by_cases hid : id < 0
      · rw [if_pos hid, if_pos hid]
      · rw [if_neg hid]

theorem carry_getElem? (mass : Nat → Nat) (hid : items[i]? = some id) (hneg : id < 0)
    (hlen : ws.length = items.length) :
    (carry mass items ws)[i]? = some (mass (childIndex id)) := by
  obtain ⟨_, rfl⟩ := List.getElem?_eq_some_iff.1 hid
  have hw : ws[i]? = some ws[i] := getElem?_eq_getElem (by omega)
  rw [carry, getElem?_zipWith, hid, hw]
  exact congrArg some (if_pos hneg)

end Carry

variable {b : WeightedBucket} {k : Nat} {map map' : BucketMap}

theorem bucketAt_set (hk : bucketAt map k = .ok b) (b' : WeightedBucket) (j : Nat) :
    bucketAt (map.set k (some b')) j = if j = k then .ok b' else bucketAt map j := by
  have hlt : k < map.length := by
    by_contra hge
    rw [bucketAt, getElem?_eq_none (Nat.le_of_not_lt hge)] at hk
    cases hk
  rw [bucketAt, bucketAt, getElem?_set]
  by_cases hj : j = k
  · rw [if_pos hj, if_pos hj.symm, if_pos hlt]
  · rw [if_neg hj, if_neg (Ne.symm hj)]

/-! ## Settled buckets -/

section Settle

variable {mass : Nat → Nat} {b : WeightedBucket}

theorem settle_items (mass : Nat → Nat) (b : WeightedBucket) : (b.settle mass).items = b.items := by
  rw [settle]
  cases b.weights <;> rfl

theorem settle_of_stale (h : b.weights.Stale = true) : b.settle mass = b := by
  rw [settle]
  cases hws : b.weights with
  | straw | straw2 => rw [hws] at h; cases h
  | _ => rfl

variable {mk : List Nat → Weights} {ws : List Nat}

/-- Straw and straw2 buckets take over the weights of the buckets among their items. -/
theorem settle_straw (mass : Nat → Nat) (hmk : Straw mk)
    (hws : b.weights = mk ws) : b.itemWeights = ws ∧ b.settle mass =
      ⟨b.items, (carry mass b.items ws).sum, mk (carry mass b.items ws)⟩ := by
  rw [itemWeights, settle, hws]
  rcases hmk with rfl | rfl <;> exact ⟨rfl, rfl⟩

theorem straw_of_not_stale (h : b.weights.Stale = false) :
    ∃ mk ws, Straw mk ∧ b.weights = mk ws := by
  cases hws : b.weights with
  | straw ws => exact ⟨.straw, ws, .inl rfl, rfl⟩
  | straw2 ws => exact ⟨.straw2, ws, .inr rfl, rfl⟩
  | _ => rw [hws] at h; cases h

theorem settle_itemWeights
    (h : b.weights.Stale = true → carry mass b.items b.itemWeights = b.itemWeights) :
    (b.settle mass).itemWeights = carry mass b.items b.itemWeights := by
  cases hstale : b.weights.Stale with
  | true => rw [settle_of_stale hstale, h hstale]
  | false =>
    obtain ⟨_, _, hmk, hws⟩ := straw_of_not_stale hstale
    obtain ⟨hitems, hsettle⟩ := settle_straw mass hmk hws
    rw [hsettle, hitems]
    exact (settle_straw mass hmk rfl).1

end Settle

/-! ## One call -/

section Call

variable {map₀ : BucketMap} {k₀ : Nat} {mass : Nat → Nat}

/-- The bucket is settled in the map. -/
def SettledAt (map₀ : BucketMap) (mass : Nat → Nat) (map : BucketMap) (j : Nat) : Prop :=
  ∃ b, bucketAt map₀ j = .ok b ∧ bucketAt map j = .ok (b.settle mass)

/-- During a call every bucket is as it was before, or it is below `k₀` and settled. -/
def Settling (map₀ : BucketMap) (k₀ : Nat) (mass : Nat → Nat) (map : BucketMap) : Prop :=
  ∀ j, bucketAt map j = bucketAt map₀ j ∨ Below map₀ k₀ j ∧ SettledAt map₀ mass map j

/-- The map moves on towards the settled one. -/
structure Progress (map₀ : BucketMap) (k₀ : Nat) (mass : Nat → Nat) (map map' : BucketMap) :
    Prop where
  settling : Settling map₀ k₀ mass map'
  keeps : ∀ j, SettledAt map₀ mass map j → SettledAt map₀ mass map' j

/-- A call for the bucket `c` settles everything below it. -/
def Settles (map₀ : BucketMap) (k₀ : Nat) (mass : Nat → Nat)
    (reweight : BucketMap → Nat → Except Fault BucketMap) : Prop :=
  ∀ map c map', Settling map₀ k₀ mass map → Below map₀ k₀ c → reweight map c = .ok map' →
    Progress map₀ k₀ mass map map' ∧ ∀ j, Below map₀ c j → SettledAt map₀ mass map' j

variable {map : BucketMap}

theorem Progress.refl (h : Settling map₀ k₀ mass map) :
    Progress map₀ k₀ mass map map := ⟨h, fun _ hj => hj⟩

theorem Progress.trans {map' map'' : BucketMap} (h : Progress map₀ k₀ mass map map')
    (h' : Progress map₀ k₀ mass map' map'') : Progress map₀ k₀ mass map map'' :=
  ⟨h'.settling, fun j hj => h'.keeps j (h.keeps j hj)⟩

variable {b : WeightedBucket} {ws : List Nat}

theorem Settling.bucket (h : Settling map₀ k₀ mass map) (hb : bucketAt map j = .ok b) :
    ∃ b₀, bucketAt map₀ j = .ok b₀ ∧ (b = b₀ ∨ b = b₀.settle mass) := by
  obtain heq | hset := h j
  · exact ⟨b, heq ▸ hb, .inl rfl⟩
  · obtain ⟨-, b₀, hb₀, hnow⟩ := hset
    exact ⟨b₀, hb₀, .inr (ok.inj (hb.symm.trans hnow))⟩

/-- The map with one more settled bucket. -/
theorem Settling.put {b₀ : WeightedBucket} (h : Settling map₀ k₀ mass map) (hj : Below map₀ k₀ j)
    (hb : bucketAt map j = .ok b) (hb₀ : bucketAt map₀ j = .ok b₀) :
    Progress map₀ k₀ mass map (map.set j (some (b₀.settle mass))) ∧
    SettledAt map₀ mass (map.set j (some (b₀.settle mass))) j := by
  have hdone : SettledAt map₀ mass (map.set j (some (b₀.settle mass))) j :=
    ⟨b₀, hb₀, by rw [bucketAt_set hb, if_pos rfl]⟩
  have hother : ∀ i, i ≠ j →
      bucketAt (map.set j (some (b₀.settle mass))) i = bucketAt map i :=
    fun i hi => by rw [bucketAt_set hb, if_neg hi]
  refine ⟨⟨fun i => ?_, fun i hi => ?_⟩, hdone⟩
  · by_cases hij : i = j
    · exact .inr ⟨hij ▸ hj, hij ▸ hdone⟩
    · rw [SettledAt, hother i hij]
      exact h i
  · by_cases hij : i = j
    · exact hij ▸ hdone
    · rw [SettledAt, hother i hij]
      exact hi

section Loop

variable {reweight : BucketMap → Nat → Except Fault BucketMap}

/-- What a loop over items leaves behind. -/
structure LoopDone (map₀ : BucketMap) (k₀ : Nat) (mass : Nat → Nat) (items : List Int)
    (map map' : BucketMap) : Prop where
  progress : Progress map₀ k₀ mass map map'
  done : ∀ id ∈ items, id < 0 → ∀ j, Below map₀ (childIndex id) j → SettledAt map₀ mass map' j

theorem LoopDone.cons {items : List Int} {map map' map'' : BucketMap}
    (h : LoopDone map₀ k₀ mass [id] map map') (h' : LoopDone map₀ k₀ mass items map' map'') :
    LoopDone map₀ k₀ mass (id :: items) map map'' := by
  refine ⟨h.progress.trans h'.progress, fun i hi hneg j hj => ?_⟩
  obtain heq | hmem := mem_cons.1 hi
  · subst heq
    exact h'.progress.keeps j (h.done i (mem_singleton_self i) hneg j hj)
  · exact h'.done i hmem hneg j hj

variable (hm : Masses map₀ k₀ mass) (hc : map₀.Consistent)

include hm hc in
/-- The masses below `k₀` are not larger than its own. -/
theorem Masses.lt_of_below {j : Nat} (hj : Below map₀ k₀ j) : mass j < 2 ^ 32 := by
  induction hj with
  | refl => exact hm.bound
  | tail hbelow hitem ih =>
    obtain ⟨b, id, hb, hid, hneg, rfl⟩ := hitem
    refine lt_of_le_of_lt ?_ ih
    rw [hm.eq _ b hbelow hb]
    obtain ⟨i, hi⟩ := mem_iff_getElem?.1 hid
    exact le_sum_of_mem (mem_of_getElem? (carry_getElem? _ hi hneg (hc _ b hb).length))

include hm hc in
theorem Masses.settled (hj : Below map₀ k₀ j) (hb : bucketAt map₀ j = .ok b) :
    (b.settle mass).Consistent ∧ (b.settle mass).weight = mass j := by
  have heq := hm.eq j b hj hb
  have hbound := hm.lt_of_below hc hj
  rw [heq] at hbound ⊢
  cases hstale : b.weights.Stale with
  | true =>
    rw [settle_of_stale hstale, hm.stale j b hj hb hstale]
    exact ⟨hc j b hb, (hc j b hb).total⟩
  | false =>
    have hlen := length_carry mass (hc j b hb).length
    obtain ⟨mk, ws, hmk, hws⟩ := straw_of_not_stale hstale
    obtain ⟨hitems, hsettle⟩ := settle_straw mass hmk hws
    rw [hitems] at hbound hlen
    rw [hsettle, hitems]
    rcases hmk with rfl | rfl <;> exact ⟨⟨hlen, rfl, hbound, trivial⟩, rfl⟩

section

variable (hr : Settles map₀ k₀ mass reweight)

include hr

include hm hc in
theorem reweightItem_spec {w : Nat} {map : BucketMap}
    {r : BucketMap × Nat} (hs : Settling map₀ k₀ mass map)
    (hid : id < 0 → Below map₀ k₀ (childIndex id)) (h : reweightItem reweight id w map = .ok r) :
    r.2 = (if id < 0 then mass (childIndex id) else w) ∧
    LoopDone map₀ k₀ mass [id] map r.1 := by
  rw [reweightItem] at h
  by_cases hneg : id < 0
  · rw [if_pos hneg] at h ⊢
    obtain ⟨map', hmap', h⟩ := bind_eq_ok h
    obtain ⟨c, hcb, h⟩ := bind_eq_ok h
    cases h
    obtain ⟨hprogress, hdone⟩ := hr map _ map' hs (hid hneg) hmap'
    obtain ⟨b₀, hb₀, hsettled⟩ := hdone _ refl
    obtain rfl := ok.inj (hcb.symm.trans hsettled)
    refine ⟨(hm.settled hc (hid hneg) hb₀).2, hprogress, fun i hi _ => ?_⟩
    obtain rfl := mem_singleton.1 hi
    exact hdone
  · rw [if_neg hneg] at h ⊢
    cases h
    refine ⟨rfl, .refl hs, fun i hi hi' => absurd ?_ hneg⟩
    exact mem_singleton.1 hi ▸ hi'

include hm hc in
/-- The loop comes to its end when the total fits. -/
theorem reweightItems_spec {items ws map sum s} (hlen : ws.length = items.length)
    (hs : Settling map₀ k₀ mass map) (hbelow : ∀ id ∈ items, id < 0 → Below map₀ k₀ (childIndex id))
    (hbound : sum + (carry mass items ws).sum < 2 ^ 32)
    (h : reweightItems reweight items ws map sum = .ok s) :
    s.complete = true ∧ s.weights = carry mass items ws ∧
      s.sum = sum + (carry mass items ws).sum ∧ LoopDone map₀ k₀ mass items map s.map := by
  induction items generalizing ws map sum s with
  | nil =>
    obtain rfl := eq_nil_of_length_eq_zero hlen
    cases h
    exact ⟨rfl, rfl, rfl, .refl hs, nofun⟩
  | cons id _ ih =>
    cases ws with
    | nil => cases hlen
    | cons _ ws =>
      rw [carry_cons, sum_cons] at hbound
      obtain ⟨r, hitem, h⟩ := bind_eq_ok h
      obtain ⟨hweight, hdone⟩ := reweightItem_spec hm hc hr hs (hbelow id mem_cons_self) hitem
      rw [if_neg (by rw [additionIsUnsafe, decide_eq_true_iff]; omega)] at h
      obtain ⟨s', hrest, h⟩ := bind_eq_ok h
      cases h
      obtain ⟨hcomplete, hws, hsum, hdone'⟩ := ih (Nat.succ.inj hlen)
        hdone.progress.settling (fun i hi => hbelow i (mem_cons_of_mem _ hi)) (by omega) hrest
      rw [carry_cons, ← hweight, sum_cons]
      exact ⟨hcomplete, congrArg _ hws, by dsimp only; omega, hdone.cons hdone'⟩

include hm hc in
/-- The buckets among the items of a uniform bucket all have its weight. -/
theorem reweightUniformItems_spec {itemWeight : Nat} {items map s r}
    (hs : Settling map₀ k₀ mass map) (hitems : ∀ id ∈ items, id < 0 →
      Below map₀ k₀ (childIndex id) ∧ mass (childIndex id) = itemWeight)
    (hsum : s.sum = itemWeight * s.n) (hbound : itemWeight * (s.n + items.length) < 2 ^ 32)
    (h : reweightUniformItems reweight items map s = .ok r) :
    (∃ s', r.2 = some s' ∧ s'.sum = itemWeight * s'.n) ∧ LoopDone map₀ k₀ mass items map r.1 := by
  induction items generalizing map s r with
  | nil =>
    cases h
    exact ⟨⟨s, rfl, hsum⟩, .refl hs, nofun⟩
  | cons id items ih =>
    rw [reweightUniformItems] at h
    rw [length_cons] at hbound
    have hrest : ∀ i ∈ items, i < 0 →
        Below map₀ k₀ (childIndex i) ∧ mass (childIndex i) = itemWeight :=
      fun i hi => hitems i (mem_cons_of_mem _ hi)
    by_cases hneg : id < 0
    · rw [if_pos hneg] at h
      obtain ⟨hbelow, hmass⟩ := hitems id mem_cons_self hneg
      obtain ⟨q, hitem, h⟩ := bind_eq_ok h
      obtain ⟨hweight, hdone⟩ := reweightItem_spec hm hc hr hs (fun _ => hbelow) hitem
      rw [if_pos hneg, hmass] at hweight
      have hstep : itemWeight * s.n + itemWeight ≤ itemWeight * (s.n + (items.length + 1)) := by
        rw [← mul_succ]
        exact mul_le_mul_left _ (by omega)
      rw [if_neg (by rw [additionIsUnsafe, decide_eq_true_iff]; omega)] at h
      obtain ⟨hresult, hdone'⟩ := ih hdone.progress.settling hrest
        (by dsimp only; rw [hsum, hweight, mul_succ])
        (by dsimp only; rwa [add_right_comm, add_assoc]) h
      exact ⟨hresult, hdone.cons hdone'⟩
    · rw [if_neg hneg] at h
      have hle : itemWeight * (s.n + items.length) ≤ itemWeight * (s.n + (items.length + 1)) :=
        mul_le_mul_left _ (by omega)
      obtain ⟨hresult, hdone⟩ := ih hs hrest (by exact hsum)
        (by exact lt_of_le_of_lt hle hbound) h
      refine ⟨hresult, hdone.progress, fun i hi hi' => ?_⟩
      obtain heq | hmem := mem_cons.1 hi
      · exact absurd (heq ▸ hi') hneg
      · exact hdone.done i hmem hi'

end

end Loop

/-! ## The whole call -/

theorem setLeaves_self {nodes : List Nat} {i : Nat}
    (h : ∀ j (hj : j < ws.length), nodes[calcTreeNode (i + j)]? = some ws[j]) :
    setLeaves nodes i ws = nodes := by
  induction ws generalizing i with
  | nil => rfl
  | cons w _ ih =>
    have hfirst : nodes.set (calcTreeNode i) w = nodes := by
      obtain ⟨hlt, hw⟩ := List.getElem?_eq_some_iff.1 (h 0 (Nat.succ_pos _))
      rw [getElem_cons_zero] at hw
      exact hw ▸ set_getElem_self hlt
    rw [setLeaves, hfirst]
    refine ih fun j hj => ?_
    have := h (j + 1) (succ_lt_succ hj)
    rwa [getElem_cons_succ, ← add_assoc, add_right_comm] at this

theorem setLeaves_leafWeights {nodes : List Nat} {size : Nat} (h : NodesOk nodes size) :
    setLeaves nodes 0 (leafWeights nodes size) = nodes := by
  refine setLeaves_self fun j hj => ?_
  have hsize : j < size := by rwa [length_leafWeights] at hj
  have hlt : treeNode 0 j < nodes.length := by
    rw [h.length_eq (by omega)]
    exact leaf_lt hsize
  rw [zero_add, calcTreeNode_eq, getElem_leafWeights, nodeAt,
    getD_eq_getElem _ _ hlt, getElem?_eq_getElem hlt]

section Whole

variable {reweight : BucketMap → Nat → Except Fault BucketMap}
  (hm : Masses map₀ k₀ mass) (hc : map₀.Consistent)

variable {b₀ : WeightedBucket} {k : Nat} {map : BucketMap}

section

variable (hr : Settles map₀ k₀ mass reweight) (hs : Settling map₀ k₀ mass map)
  (hk : Below map₀ k₀ k) (hb₀ : bucketAt map₀ k = .ok b₀)

include hm hc hr hs hk hb₀

/-- The loop over the items of a bucket whose weights are the old ones or the settled ones. -/
theorem reweightItems_bucket {s : Summed}
    (hws : ws = b₀.itemWeights ∨ ws = carry mass b₀.items b₀.itemWeights)
    (h : reweightItems reweight b₀.items ws map 0 = .ok s) :
    s.complete = true ∧ s.weights = carry mass b₀.items b₀.itemWeights ∧
    s.sum = (carry mass b₀.items b₀.itemWeights).sum ∧
    LoopDone map₀ k₀ mass b₀.items map s.map := by
  have hlen := (hc k b₀ hb₀).length
  have hbound := hm.lt_of_below hc hk
  rw [hm.eq k b₀ hk hb₀] at hbound
  have hsame : ws.length = b₀.items.length ∧
      carry mass b₀.items ws = carry mass b₀.items b₀.itemWeights := by
    obtain heq | heq := hws
    · exact ⟨heq ▸ hlen, by rw [heq]⟩
    · exact ⟨heq ▸ length_carry mass hlen, by rw [heq, carry_carry]⟩
  have hloop := reweightItems_spec hm hc hr hsame.1 hs
    (fun id hid hneg => hk.tail ⟨b₀, id, hb₀, hid, hneg, rfl⟩)
    (by rwa [hsame.2, zero_add]) h
  rwa [hsame.2, zero_add] at hloop

theorem reweightUniform_bucket {itemWeight : Nat}
    {r : BucketMap × Option UniformSum} (hws : b₀.weights = .uniform itemWeight)
    (h : reweightUniformItems reweight b₀.items map ⟨0, 0, 0⟩ = .ok r) :
    (∃ s, r.2 = some s ∧ s.itemWeight itemWeight = itemWeight) ∧
    wrap32 (itemWeight * b₀.items.length) = b₀.weight ∧
    LoopDone map₀ k₀ mass b₀.items map r.1 := by
  have hsame := hm.stale k b₀ hk hb₀ (by rw [hws]; rfl)
  have hitems : b₀.itemWeights = List.replicate b₀.items.length itemWeight := by
    rw [itemWeights, hws]
  obtain ⟨htotal, hbound⟩ := (consistent_uniform_iff hws).1 (hc k b₀ hb₀)
  rw [htotal, mul_comm] at hbound
  rw [htotal, mul_comm (length _)]
  have hmass : ∀ id ∈ b₀.items, id < 0 →
      Below map₀ k₀ (childIndex id) ∧ mass (childIndex id) = itemWeight := by
    intro id hid hneg
    refine ⟨hk.tail ⟨b₀, id, hb₀, hid, hneg, rfl⟩, ?_⟩
    obtain ⟨_, hi⟩ := mem_iff_getElem?.1 hid
    have hcarry := carry_getElem? mass hi hneg (hc k b₀ hb₀).length
    rw [hsame, hitems] at hcarry
    exact (eq_of_mem_replicate (mem_of_getElem? hcarry))
  obtain ⟨⟨s, hsome, hsum⟩, hdone⟩ := reweightUniformItems_spec hm hc hr
    hs hmass (mul_zero _).symm (by rwa [zero_add]) h
  refine ⟨⟨s, hsome, ?_⟩, mod_eq_of_lt hbound, hdone⟩
  -- an average of equal weights
  rw [UniformSum.itemWeight]
  split
  next _ => rw [hsum, Nat.mul_div_cancel _ (by omega)]
  next => rfl

variable {r : BucketMap × Option WeightedBucket × Bool}

theorem reweightStraw_bucket {mk : List Nat → Weights} (hmk : Straw mk) (hws : b₀.weights = mk ws)
    (hb : b = b₀ ∨ b = b₀.settle mass) (h : reweightArrays reweight map b = .ok r) :
    r.2 = (some (b₀.settle mass), true) ∧ LoopDone map₀ k₀ mass b₀.items map r.1 := by
  obtain ⟨hitems, hsettle⟩ := settle_straw mass hmk hws
  obtain ⟨heq, ws', hws', hor⟩ : b.items = b₀.items ∧ ∃ ws', b.weights = mk ws' ∧
      (ws' = b₀.itemWeights ∨ ws' = carry mass b₀.items b₀.itemWeights) := by
    rw [hitems]
    obtain hold | hnew := hb
    · exact ⟨by rw [hold], ws, by rw [hold, hws], .inl rfl⟩
    · exact ⟨by rw [hnew, settle_items], _, by rw [hnew, hsettle], .inr rfl⟩
  have hrun : (reweightItems reweight b₀.items ws' map 0 >>= fun s =>
      .ok (b.store s (mk s.weights))) = .ok r := by
    rw [reweightArrays, hws', heq] at h
    rcases hmk with rfl | rfl <;> exact h
  obtain ⟨s, hloop, hrun⟩ := bind_eq_ok hrun
  cases hrun
  obtain ⟨hcomplete, hweights, hsum, hdone⟩ := reweightItems_bucket hm hc hr hs hk hb₀ hor hloop
  rw [store, hcomplete, hsum, hweights, hsettle, hitems, heq]
  exact ⟨rfl, hdone⟩

/-- The function for the algorithm leaves the settled bucket. -/
theorem reweightArrays_spec (hb : b = b₀ ∨ b = b₀.settle mass)
    (h : reweightArrays reweight map b = .ok r) :
    r.2 = (some (b₀.settle mass), true) ∧ LoopDone map₀ k₀ mass b₀.items map r.1 := by
  cases hstale : b₀.weights.Stale with
  | false =>
    obtain ⟨_, ws, hmk, hws⟩ := straw_of_not_stale hstale
    exact reweightStraw_bucket hm hc hr hs hk hb₀ hmk hws hb h
  | true =>
    -- the bucket is the one from before the call in either case
    have hsettle : b₀.settle mass = b₀ := settle_of_stale hstale
    obtain rfl : b = b₀ := hb.elim id fun heq => heq.trans hsettle
    have hcons := hc k b hb₀
    have hitems := fun s => reweightItems_bucket hm hc hr hs hk hb₀ (s := s) (.inl rfl)
    rw [hm.stale k b hk hb₀ hstale, ← hcons.total] at hitems
    rw [reweightArrays] at h
    rw [hsettle]
    cases hws : b.weights with
    | uniform =>
      rw [hws] at h
      obtain ⟨_, hloop, h⟩ := bind_eq_ok h
      obtain ⟨⟨s, hsome, hitem⟩, htotal, hdone⟩ :=
        reweightUniform_bucket hm hc hr hs hk hb₀ hws hloop
      rw [hsome] at h
      cases h
      rw [hitem, htotal, ← hws]
      exact ⟨rfl, hdone⟩
    | list ws =>
      have hlist : b.itemWeights = ws := by rw [itemWeights, hws]
      rw [hws] at h
      obtain ⟨s, hloop, h⟩ := bind_eq_ok h
      cases h
      obtain ⟨hcomplete, hweights, hsum, hdone⟩ := hitems s (by rwa [hlist])
      rw [store, hcomplete, hsum, hweights, hlist, ← hws]
      exact ⟨rfl, hdone⟩
    | tree nodes =>
      have htree : b.itemWeights = leafWeights nodes b.items.length := by rw [itemWeights, hws]
      rw [hws] at h
      dsimp only at h
      split at h
      next _ =>
        obtain ⟨s, hloop, h⟩ := bind_eq_ok h
        cases h
        obtain ⟨hcomplete, hweights, hsum, hdone⟩ := hitems s (by rwa [htree])
        rw [store, hcomplete, hsum, hweights, htree, setLeaves_leafWeights (hcons.tree_eq hws).1,
          ← hws]
        exact ⟨rfl, hdone⟩
      next => cases h
    | straw | straw2 => simp [hws, Weights.Stale] at hstale

end

include hm hc in
theorem reweightBucket_spec {fuel map k r} (hs : Settling map₀ k₀ mass map) (hk : Below map₀ k₀ k)
    (h : reweightBucket fuel map k = .ok r) :
    Progress map₀ k₀ mass map r.1 ∧ ∀ j, Below map₀ k j → SettledAt map₀ mass r.1 j := by
  induction fuel generalizing map k r with
  | zero => cases h
  | succ fuel ih =>
    have hr : Settles map₀ k₀ mass
        (fun map c => (reweightBucket fuel map c).map Prod.fst) := by
      intro map c map' hs hcb h
      dsimp only at h
      cases hcall : reweightBucket fuel map c with
      | error => rw [hcall] at h; cases h
      | ok q =>
        rw [hcall] at h
        cases h
        exact ih hs hcb hcall
    obtain ⟨b, hb, h⟩ := bind_eq_ok h
    obtain ⟨q, harrays, h⟩ := bind_eq_ok h
    cases h
    obtain ⟨b₀, hb₀, hor⟩ := hs.bucket hb
    obtain ⟨hresult, hdone⟩ := reweightArrays_spec hm hc hr hs hk hb₀ hor harrays
    have hfound : ∃ b', bucketAt q.1 k = .ok b' := by
      obtain heq | hset := hdone.progress.settling k
      · exact ⟨b₀, heq.trans hb₀⟩
      · exact ⟨_, hset.2.choose_spec.2⟩
    obtain ⟨b', hb'⟩ := hfound
    rw [hresult]
    obtain ⟨hput, hself⟩ := hdone.progress.settling.put hk hb' hb₀
    refine ⟨hdone.progress.trans hput, fun j hj => ?_⟩
    -- a bucket below is the bucket itself or below one of its items
    obtain rfl | ⟨c, hitem, hbelow⟩ := cases_head hj
    · exact hself
    · obtain ⟨b₁, id, hb₁, hid, hneg, rfl⟩ := hitem
      obtain rfl := ok.inj (hb₁.symm.trans hb₀)
      exact hput.keeps j (hdone.done id hid hneg j hbelow)

end Whole

end Call

/-! ## After the call -/

section After

variable {map map' : BucketMap} {k : Nat} {mass : Nat → Nat}

theorem Settling.below (h : Settling map k mass map') (hj : Below map' k j) : Below map k j := by
  induction hj with
  | refl => exact .refl
  | tail _ hitem ih =>
    obtain ⟨_, id, hb, hid, hneg, rfl⟩ := hitem
    obtain ⟨b₀, hb₀, hor⟩ := h.bucket hb
    refine ih.tail ⟨b₀, id, hb₀, ?_, hneg, rfl⟩
    obtain heq | heq := hor
    · exact heq ▸ hid
    · rw [heq, settle_items] at hid
      exact hid

theorem Settling.consistent (hm : Masses map k mass) (hc : map.Consistent)
    (h : Settling map k mass map') : map'.Consistent := by
  intro j b hb
  obtain heq | hset := h j
  · exact hc j b (heq ▸ hb)
  · obtain ⟨hbelow, _, hb₀, hnow⟩ := hset
    obtain rfl := ok.inj (hb.symm.trans hnow)
    exact (hm.settled hc hbelow hb₀).1

/-- Every item that is a bucket has the weight of that bucket. -/
def CarriesBelow (map : BucketMap) (k : Nat) : Prop :=
  ∀ (j : Nat) (b : WeightedBucket) (i : Nat) (id : Int), Below map k j →
    bucketAt map j = .ok b → b.items[i]? = some id → id < 0 →
    ∃ c, bucketAt map (childIndex id) = .ok c ∧ b.itemWeights[i]? = some c.weight

theorem carriesBelow_of_settled (hm : Masses map k mass) (hc : map.Consistent)
    (hs : Settling map k mass map') (hdone : ∀ j, Below map k j → SettledAt map mass map' j) :
    CarriesBelow map' k := by
  intro j _ _ id hj hb hid hneg
  have hbelow := hs.below hj
  obtain ⟨b₀, hb₀, hnow⟩ := hdone j hbelow
  obtain rfl := ok.inj (hb.symm.trans hnow)
  rw [settle_items] at hid
  have hchild : Below map k (childIndex id) :=
    hbelow.tail ⟨b₀, id, hb₀, mem_of_getElem? hid, hneg, rfl⟩
  obtain ⟨_, hc₀, hcnow⟩ := hdone _ hchild
  refine ⟨_, hcnow, ?_⟩
  rw [settle_itemWeights (hm.stale j b₀ hbelow hb₀),
    carry_getElem? mass hid hneg (hc j b₀ hb₀).length, (hm.settled hc hchild hc₀).2]

end After

/-! ## Runs -/

/-- What a call needs for the weights to stay consistent. -/
def Call.Ok (map : BucketMap) : Call → Prop
  | .addItem k _ _ fresh => ∀ b, bucketAt map k = .ok b → b.CleanFor fresh
  | .removeItem _ _ => True
  | .adjustItemWeight k item weight =>
    ∀ b, bucketAt map k = .ok b → (b.adjusted item weight.toNat).sum < 2 ^ 32
  | .reweight k _ => ∃ mass, Masses map k mass

theorem onBucket_eq_some {f : WeightedBucket → Build WeightedBucket}
    (h : onBucket map k f = some map') :
    ∃ b b', bucketAt map k = .ok b ∧ f b = .ok b' ∧ map' = map.set k (some b') := by
  rw [onBucket] at h
  split at h
  next => cases h
  next b hb =>
    cases hf : f b with
    | error => rw [hf] at h; cases h
    | ok b' =>
      rw [hf] at h
      exact ⟨b, b', hb, hf, (Option.some.inj h).symm⟩

theorem consistent_set {b' : WeightedBucket} (hc : map.Consistent) (hb : bucketAt map k = .ok b)
    (hb' : b'.Consistent) : BucketMap.Consistent (map.set k (some b')) := by
  intro j c hj
  rw [bucketAt_set hb] at hj
  split at hj
  next => exact ok.inj hj ▸ hb'
  next => exact hc j c hj

theorem reweight_step {fuel : Nat} (hc : map.Consistent) (hok : Call.Ok map (.reweight k fuel))
    (h : Call.step map (.reweight k fuel) = some map') : map'.Consistent ∧ CarriesBelow map' k := by
  obtain ⟨_, hm⟩ := hok
  rw [Call.step] at h
  split at h
  next _ hcall =>
    cases h
    obtain ⟨hprogress, hdone⟩ := reweightBucket_spec hm hc (fun _ => .inl rfl)
      refl hcall
    exact ⟨hprogress.settling.consistent hm hc,
      carriesBelow_of_settled hm hc hprogress.settling hdone⟩
  next => cases h

theorem step_consistent {call : Call} (hc : map.Consistent) (hok : call.Ok map)
    (h : call.step map = some map') : map'.Consistent := by
  cases call with
  | addItem k _ weight =>
    obtain ⟨b, b', hb, hadd, rfl⟩ := onBucket_eq_some h
    exact consistent_set hc hb ((hc k b hb).add (UInt32.toNat_lt weight) (hok b hb) hadd)
  | removeItem k =>
    obtain ⟨b, b', hb, hremove, rfl⟩ := onBucket_eq_some h
    exact consistent_set hc hb ((hc k b hb).remove hremove)
  | adjustItemWeight k =>
    obtain ⟨b, b', hb, hadjust, rfl⟩ := onBucket_eq_some h
    exact consistent_set hc hb ((hc k b hb).adjust (hok b hb) hadjust)
  | reweight => exact (reweight_step hc hok h).1

/-- The buckets of a map of two. -/
theorem bucketAt_pair {c d : WeightedBucket} (h : bucketAt [some b, some c] j = .ok d) :
    j = 0 ∧ d = b ∨ j = 1 ∧ d = c := by
  cases j with
  | zero => exact .inl ⟨rfl, (ok.inj h).symm⟩
  | succ j =>
    cases j with
    | zero => exact .inr ⟨rfl, (ok.inj h).symm⟩
    | succ => cases h

theorem consistent_pair {c : WeightedBucket} (hb : b.Consistent) (hc : c.Consistent) :
    BucketMap.Consistent [some b, some c] := by
  intro _ _ hd
  obtain ⟨-, rfl⟩ | ⟨-, rfl⟩ := bucketAt_pair hd
  · exact hb
  · exact hc

/-- The builder keeps the weights: from a consistent map, every run of successful calls that meet
`Call.Ok` leads to a consistent map, and after a successful call of `crush_reweight_bucket` every
item below the bucket that is a bucket carries that bucket's weight. -/
theorem builder_keeps_weights {map₀ map : BucketMap} (hc : map₀.Consistent)
    (hrun : Run (fun map call => Call.step map call) Call.Ok map₀ map) :
    map.Consistent ∧
    ∀ k fuel map', Call.Ok map (.reweight k fuel) →
      Call.step map (.reweight k fuel) = some map' → CarriesBelow map' k := by
  have hmap : map.Consistent :=
    hrun.invariant hc fun _ _ _ hinv hok hstep => step_consistent hinv hok hstep
  exact ⟨hmap, fun k fuel map' hok hstep => (reweight_step hmap hok hstep).2⟩

/-- A straw2 bucket over another one, which holds a device of weight 5. -/
theorem builder_keeps_weights_straw2 :
    ∃ map', Call.step [some ⟨[-2], 1, .straw2 [1]⟩, some ⟨[0], 5, .straw2 [5]⟩] (.reweight 0 2) =
      some map' ∧ CarriesBelow map' 0 := by
  have hc : BucketMap.Consistent [some ⟨[-2], 1, .straw2 [1]⟩, some ⟨[0], 5, .straw2 [5]⟩] :=
    consistent_pair ⟨rfl, rfl, by decide, trivial⟩ ⟨rfl, rfl, by decide, trivial⟩
  refine ⟨[some ⟨[-2], 5, .straw2 [5]⟩, some ⟨[0], 5, .straw2 [5]⟩], rfl,
    (builder_keeps_weights hc .refl).2 0 2 _ ⟨fun _ => 5, ?_, ?_, by decide⟩ rfl⟩
  · intro j b _ hb
    obtain ⟨-, rfl⟩ | ⟨-, rfl⟩ := bucketAt_pair hb <;> rfl
  · intro j b _ hb hstale
    obtain ⟨-, rfl⟩ | ⟨-, rfl⟩ := bucketAt_pair hb <;> cases hstale

/-- A list bucket over a straw2 bucket: after the call its `sum_weights` are those of before. -/
theorem reweight_list_keeps_sums :
    BucketMap.Consistent [some ⟨[-2], 1, .list [1] [1]⟩, some ⟨[0], 5, .straw2 [5]⟩] ∧
    Call.step [some ⟨[-2], 1, .list [1] [1]⟩, some ⟨[0], 5, .straw2 [5]⟩] (.reweight 0 2) =
      some [some ⟨[-2], 5, .list [5] [1]⟩, some ⟨[0], 5, .straw2 [5]⟩] ∧
    ¬ WeightedBucket.Consistent ⟨[-2], 5, .list [5] [1]⟩ := by
  refine ⟨consistent_pair ⟨rfl, rfl, by decide, rfl⟩ ⟨rfl, rfl, by decide, trivial⟩, rfl, ?_⟩
  intro h
  have hsums : [1] = runningSums 0 [5] := h.repeats
  exact absurd hsums (by decide)

end Ceph.Crush
