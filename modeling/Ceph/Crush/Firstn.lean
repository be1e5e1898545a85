import Ceph.Crush.Hierarchy

set_option autoImplicit false

/-!
# Crush: firstn placement

The retry loops end because every failure raises the 32-bit counter `ftotal`, which a bound
on the tunables keeps from wrapping, and between two failures the walk goes down the map.
Whatever the retries do, an item is placed only after it was compared with those in front
of it, and the same holds for the leaves, which the recursive call places one by one.
-/

namespace Ceph.Crush

open Ceph.Lib List Returns

namespace Input

variable (E : Input)

/-! ## What is placed -/

/-- A device that is not out. -/
def Usable (d : Int) : Prop := 0 ≤ d ∧ E.isOut d = .ok false

/-- The device is the item itself or below it. -/
def LeafOf (item d : Int) : Prop := E.Usable d ∧ (d = item ∨ E.map.Below item d)

/-- An item that may be placed: it has the type, and as a device it is not out. -/
def Fits (type item : Int) : Prop :=
  ∃ t : Nat, E.map.itemType item = .ok t ∧ (t : Int) = type ∧ (t = 0 ↔ 0 ≤ item) ∧
    (0 ≤ item → E.isOut item = .ok false)

variable {E} {root item : Int} {outpos count : Nat} {A : FirstnArgs} {out2 : List Int}
  {work : Work}

theorem LeafOf.eq_of_device {d : Int} (h : E.LeafOf item d) (hitem : 0 ≤ item) : d = item := by
  obtain heq | hbelow := h.2
  · exact heq
  · exact absurd hitem (not_le.2 (Valid.lt_zero_of_below hbelow))

theorem Fits.device_iff {type item' : Int} (h : E.Fits type item)
    (h' : E.Fits type item') : 0 ≤ item ↔ 0 ≤ item' := by
  obtain ⟨t, _, ht, hdev, _⟩ := h
  obtain ⟨t', _, ht', hdev', _⟩ := h'
  have heq : t = t' := Int.natCast_inj.1 (ht.trans ht'.symm)
  rw [← hdev, ← hdev', heq]

variable (E)

/-- What the recursive call for a leaf does from `root` downwards: it places a usable device
below the bucket that is not among the leaves in front, or leaves the array alone. -/
def LeafCallOk (root : Int) (leaf : LeafCall) (outpos count : Nat) : Prop :=
  ∀ (b : Bucket) (sub : Int) (work : Work) (out2 : List Int), E.IsBucket b →
    E.map.Within root b.id → E.WorkOk work → outpos < out2.length →
    Returns (fun fuel => leaf fuel outpos count b sub work out2) fun res =>
      E.WorkOk res.2.1 ∧
        ((res.1 = false ∧ res.2.2 = out2) ∨
          (res.1 = true ∧ ∃ d, res.2.2 = out2.set outpos d ∧ E.Usable d ∧ E.map.Below b.id d ∧
            d ∉ out2.take outpos))

/-- What holds of the leaves while a position is tried: those in front do not change. -/
structure LeavesKept (outpos : Nat) (out2 out2' : List Int) : Prop where
  length : out2'.length = out2.length
  front : out2'.take outpos = out2.take outpos

variable {E}

theorem LeavesKept.refl (outpos : Nat) (out2 : List Int) : LeavesKept outpos out2 out2 := ⟨rfl, rfl⟩

theorem LeavesKept.trans {a b c : List Int} (hab : LeavesKept outpos a b)
    (hbc : LeavesKept outpos b c) : LeavesKept outpos a c :=
  ⟨hbc.length.trans hab.length, hbc.front.trans hab.front⟩

theorem LeavesKept.set (outpos : Nat) (out2 : List Int) (d : Int) :
    LeavesKept outpos out2 (out2.set outpos d) := ⟨length_set, take_set_of_le le_rfl⟩

/-- The leaf of an item that is placed. -/
structure NewLeaf (E : Input) (outpos : Nat) (out2 : List Int) (item : Int) (out2' : List Int) :
    Prop where
  kept : LeavesKept outpos out2 out2'
  leaf : ∃ d, out2'[outpos]? = some d ∧ (0 ≤ item → d = item) ∧
    (item < 0 → E.LeafOf item d ∧ d ∉ out2.take outpos)

/-- What the caller gives for leaves, if it wants them. -/
structure LeafReady (E : Input) (root : Int) (A : FirstnArgs) (leaf : Option LeafCall)
    (outpos count : Nat) (out2 : List Int) : Prop where
  call : ∀ f ∈ leaf, E.LeafCallOk root f outpos count
  room : leaf.isSome → outpos < out2.length
  shift : leaf.isSome → A.varyR ≤ 32

theorem LeafReady.of_kept {leaf : Option LeafCall} {out2' : List Int}
    (h : LeafReady E root A leaf outpos count out2)
    (hk : LeavesKept outpos out2 out2') : LeafReady E root A leaf outpos count out2' :=
  ⟨h.call, fun hs => by rw [hk.length]; exact h.room hs, h.shift⟩

theorem subR_of_le {varyR : Nat} (h : varyR ≤ 32) (r : Int) :
    Yields (subR varyR r) fun _ => True := by
  rw [subR]
  split <;> exact Yields.pure trivial

theorem firstnLeaf_spec {leaf : Option LeafCall} {r : Int} (hv : E.Valid root)
    (hin : E.map.Within root item) (hitem : item < 0 → ∃ b, E.map.bucketOf item = .ok b)
    (hw : E.WorkOk work) (hl : LeafReady E root A leaf outpos count out2) :
    Returns (fun fuel => E.firstnLeaf A leaf fuel outpos count item r work out2) fun res =>
      E.WorkOk res.2.1 ∧ LeavesKept outpos out2 res.2.2 ∧
        (res.1 = false → leaf.isSome → NewLeaf E outpos out2 item res.2.2) := by
  cases leaf with
  | none => exact pure ⟨hw, LeavesKept.refl _ _, fun _ h => by cases h⟩
  | some f =>
    have hroom := hl.room rfl
    refine ite (fun hneg => ?_) fun hge => ?_
    · obtain ⟨b, hb⟩ := hitem hneg
      refine (of_yields (subR_of_le (hl.shift rfl) r)).bind fun sub _ => ?_
      refine (of_yields ⟨b, hb, hb⟩ (P := fun b => E.map.bucketOf item = .ok b)).bind fun b hb => ?_
      have hid := hv.id_eq item b hb
      refine (hl.call f rfl b sub work out2 (hv.isBucket hb) (hid ▸ hin) hw hroom).bind
        fun res ⟨hwork, hcase⟩ => pure ?_
      obtain hno | hyes := hcase
      · refine ⟨hwork, hno.2 ▸ LeavesKept.refl _ _, fun h => ?_⟩
        rw [hno.1] at h
        cases h
      · obtain ⟨_, d, hset, husable, hbelow, hfresh⟩ := hyes
        have hkept : LeavesKept outpos out2 res.2.2 := hset ▸ LeavesKept.set _ _ _
        refine ⟨hwork, hkept, fun _ _ => ⟨hkept, d, ?_, fun h => ?_, fun _ => ?_⟩⟩
        · rw [hset, getElem?_set_self hroom]
        · exact absurd h (not_le.2 hneg)
        · exact ⟨⟨husable, .inr (hid ▸ hbelow)⟩, hfresh⟩
    · refine (of_yields (writeAt_yields hroom item)).bind ?_
      rintro _ rfl
      exact pure ⟨hw, LeavesKept.set _ _ _, fun _ _ => ⟨LeavesKept.set _ _ _, item,
        getElem?_set_self hroom, fun _ => rfl, fun h => absurd h hge⟩⟩

/-- How a pass through the inner loop may end. -/
def AttemptOk (E : Input) (A : FirstnArgs) (leaf : Option LeafCall) (out : List Int)
    (outpos : Nat) (b : Bucket) (out2 out2' : List Int) : Attempt → Prop
  | .descend next => E.IsBucket next ∧ E.map.Child b.id next.id
  | .skip => True
  | .again _ => True
  | .found item => E.map.Child b.id item ∧ E.Fits A.type item ∧ item ∉ out.take outpos ∧
      (leaf.isSome → NewLeaf E outpos out2 item out2')

section Attempt

variable {A : FirstnArgs} {leaf : Option LeafCall} {rep parentR : Int} {out : List Int}
  {outpos count : Nat} {b : Bucket} {ftotal flocal : Nat} {work : Work} {out2 : List Int}

theorem isOut_of_nonneg (E : Input) (h : 0 ≤ item) : ∃ isout, E.isOut item = .ok isout := by
  rw [isOut]
  split
  next => exact ⟨_, rfl⟩
  next hlt =>
    rw [if_neg (not_lt.2 h), readAt_of_lt (by omega)]
    dsimp only [Bind.bind, Except.bind]
    split
    next => exact ⟨_, rfl⟩
    next =>
      split
      next => exact ⟨_, rfl⟩
      next => split <;> exact ⟨_, rfl⟩

theorem firstnAttempt_spec (hv : E.Valid root) (hb : E.IsBucket b) (hin : E.map.Within root b.id)
    (hw : E.WorkOk work) (hl : LeafReady E root A leaf outpos count out2) :
    Returns (fun fuel => E.firstnAttempt A leaf fuel rep parentR out outpos count b ftotal flocal
      work out2) fun res => E.WorkOk res.2.1 ∧ LeavesKept outpos out2 res.2.2 ∧
        AttemptOk E A leaf out outpos b out2 res.2.2 res.1 := by
  have hrefl := LeavesKept.refl outpos out2
  refine ite (fun _ => pure ⟨hw, hrefl, trivial⟩) fun hsize => ?_
  refine (of_yields (hv.chooseItem_spec hb hin (pos_of_ne_zero hsize) hw _ _ _)).bind ?_
  rintro ⟨item, work⟩ ⟨hitem, hw⟩
  have hchild : E.map.Child b.id item := ⟨b, hb, hitem⟩
  refine ite (fun _ => pure ⟨hw, hrefl, trivial⟩) fun _ => ?_
  obtain ⟨t, ht, hdev, hbucket⟩ := hv.item_type hb hitem
  simp only [ht, ok_bind]
  refine ite (fun _ => ?_) fun hne => ?_
  · refine ite (fun _ => pure ⟨hw, hrefl, trivial⟩) fun hbad => ?_
    obtain ⟨next, hnext⟩ := hbucket (by omega)
    rw [hnext]
    refine pure ⟨hw, hrefl, hv.isBucket hnext, ?_⟩
    rw [hv.id_eq item next hnext]
    exact hchild
  refine ite (fun _ => pure ⟨hw, hrefl, trivial⟩) fun hcollide => ?_
  refine (firstnLeaf_spec hv (hin.tail hchild) hbucket hw hl).bind ?_
  rintro ⟨reject, work, out2'⟩ ⟨hw, hkept, hnew⟩
  cases reject with
  | true => exact pure ⟨hw, hkept, trivial⟩
  | false =>
    simp only [Bool.false_eq_true, if_false]
    refine ite (fun h0 => ?_) fun h0 => ?_
    · obtain ⟨isout, hisout⟩ := isOut_of_nonneg E (hdev.1 h0)
      rw [hisout]
      refine pure ⟨hw, hkept, ?_⟩
      cases isout with
      | true => exact trivial
      | false => exact ⟨hchild, ⟨t, ht, not_not.1 hne, hdev, fun _ => hisout⟩, hcollide, hnew rfl⟩
    · exact pure ⟨hw, hkept, hchild,
        ⟨t, ht, not_not.1 hne, hdev, fun h => absurd (hdev.2 h) h0⟩, hcollide, hnew rfl⟩

end Attempt

/-! ## The retry loops -/

/-- A bound on the failures between two descents, small enough for the 32-bit counters. -/
structure RetryBound (E : Input) (root : Int) (A : FirstnArgs) (limit : Nat) : Prop where
  localRetries : A.localRetries ≤ limit
  fallback : 0 < A.localFallbackRetries → ∀ b, E.IsBucket b → E.map.Within root b.id →
    (b.size + A.localFallbackRetries) % 2 ^ 32 ≤ limit
  small : limit + 1 < 2 ^ 32
  total : A.tries + limit < 2 ^ 32

theorem RetryBound.within {limit : Nat} (hr : RetryBound E root A limit)
    (h : E.map.Within root item) : RetryBound E item A limit :=
  ⟨hr.localRetries, fun hpos b hb hin => hr.fallback hpos b hb (h.trans hin), hr.small, hr.total⟩

/-- What the retry loops return: no item, or one that may be placed. -/
def TryOk (E : Input) (A : FirstnArgs) (leaf : Option LeafCall) (top : Bucket) (out : List Int)
    (outpos : Nat) (out2 : List Int) (res : Option Int × Work × List Int) : Prop :=
  E.WorkOk res.2.1 ∧ LeavesKept outpos out2 res.2.2 ∧
    ∀ item ∈ res.1, E.map.Below top.id item ∧ E.Fits A.type item ∧ item ∉ out.take outpos ∧
      (leaf.isSome → NewLeaf E outpos out2 item res.2.2)

section Try

variable {A : FirstnArgs} {leaf : Option LeafCall} {top : Bucket} {rep parentR : Int}
  {out : List Int} {outpos count limit : Nat}

theorem TryOk.of_kept {out2' : List Int} (hk : LeavesKept outpos out2 out2')
    {res : Option Int × Work × List Int} (h : TryOk E A leaf top out outpos out2' res) :
    TryOk E A leaf top out outpos out2 res := by
  refine ⟨h.1, hk.trans h.2.1, fun item hitem => ?_⟩
  obtain ⟨hbelow, hfits, hfresh, hnew⟩ := h.2.2 item hitem
  refine ⟨hbelow, hfits, hfresh, fun hs => ?_⟩
  obtain ⟨hkept, d, hd, hdev, hbucket⟩ := hnew hs
  exact ⟨hk.trans hkept, d, hd, hdev, fun hneg => hk.front ▸ hbucket hneg⟩

/-- The counters while a replica is tried: `flocal` is within the limit, and `ftotal` has
grown by at most `flocal` since the last descent. -/
def CountersOk (A : FirstnArgs) (limit ftotal flocal : Nat) : Prop :=
  flocal ≤ limit ∧ ftotal + 1 ≤ flocal + max A.tries 1

/-- One more failure does not wrap the counters. -/
theorem CountersOk.next (hr : RetryBound E root A limit) {ftotal flocal : Nat}
    (hc : CountersOk A limit ftotal flocal) :
    (ftotal + 1) % 2 ^ 32 = ftotal + 1 ∧ (flocal + 1) % 2 ^ 32 = flocal + 1 := by
  obtain ⟨hlocal, htotal⟩ := hc
  have hsmall := hr.small
  have hsum := hr.total
  exact ⟨Nat.mod_eq_of_lt (by omega), Nat.mod_eq_of_lt (by omega)⟩

theorem firstnTry_spec (hv : E.Valid top.id) (hr : RetryBound E top.id A limit)
    (htop : E.IsBucket top) :
    ∀ (n ftotal : Nat), 2 ^ 32 ≤ ftotal + n → ∀ (id : Int) (b : Bucket) (flocal : Nat)
      (work : Work) (out2 : List Int), b.id = id → E.IsBucket b →
      E.map.Within top.id b.id → CountersOk A limit ftotal flocal →
      E.WorkOk work → LeafReady E top.id A leaf outpos count out2 →
      Returns (fun fuel => E.firstnTry A leaf top rep parentR out outpos count fuel b ftotal
        flocal work out2) (TryOk E A leaf top out outpos out2) := by
  -- induction on the failures that are left, then on how far down the bucket is
  intro n
  induction n with
  | zero =>
    intro ftotal hn id b flocal work out2 _ _ _ hc
    have hsum := hr.total
    have hlocal := hc.1
    have htotal := hc.2
    exact absurd hn (by omega)
  | succ _ ih =>
    intro ftotal hn id
    induction id using hv.wellFounded.induction with
    | h id ihdown =>
      intro b flocal work out2 hid hb hreach hc hw hl
      obtain ⟨hnext, hnextLocal⟩ := hc.next hr
      refine of_succ (fun fuel => by rw [firstnTry]) ?_
      refine (firstnAttempt_spec hv hb hreach hw hl).bind ?_
      rintro ⟨attempt, work', out2'⟩ ⟨hw', hkept, hattempt⟩
      have hl' := hl.of_kept hkept
      cases attempt with
      | descend next =>
        refine (ihdown next.id (hid ▸ hattempt.2) next flocal work' out2' rfl hattempt.1
          (hreach.tail hattempt.2) hc hw' hl').imp fun res => TryOk.of_kept hkept
      | skip => exact pure ⟨hw', hkept, fun item hitem => by cases hitem⟩
      | found =>
        refine pure ⟨hw', hkept, fun item' hitem => ?_⟩
        cases hitem
        exact ⟨Relation.TransGen.tail' hreach hattempt.1, hattempt.2⟩
      | again =>
        rw [hnext, hnextLocal]
        have hretry : flocal + 1 ≤ limit → Returns (fun fuel => E.firstnTry A leaf top rep
            parentR out outpos count fuel b (ftotal + 1) (flocal + 1) work' out2')
            (TryOk E A leaf top out outpos out2) := fun hle => by
          refine (ih (ftotal + 1) (by omega) id b (flocal + 1) work' out2' hid hb hreach
            ⟨hle, ?_⟩ hw' hl').imp fun res => TryOk.of_kept hkept
          have := hc.2
          omega
        refine ite (fun hlocal => hretry (le_trans hlocal.2 hr.localRetries)) fun _ => ?_
        refine ite
          (fun hfall => hretry (le_trans hfall.2 (hr.fallback hfall.1 b hb hreach))) fun _ => ?_
        refine ite (fun htries => ?_) fun _ => ?_
        · exact (ih (ftotal + 1) (by omega) top.id top 0 work' out2' rfl htop .refl
            ⟨Nat.zero_le _, by omega⟩ hw' hl').imp fun res => TryOk.of_kept hkept
        · exact pure ⟨hw', hkept, fun item hitem => by cases hitem⟩

/-- A replica is tried from the top. -/
theorem firstnTry_top (hv : E.Valid top.id) (hr : RetryBound E top.id A limit)
    (htop : E.IsBucket top) (hw : E.WorkOk work)
    (hl : LeafReady E top.id A leaf outpos count out2) :
    Returns (fun fuel => E.firstnTry A leaf top rep parentR out outpos count fuel top 0 0 work
      out2) (TryOk E A leaf top out outpos out2) :=
  firstnTry_spec hv hr htop (2 ^ 32) 0 (by omega) top.id top 0 work out2 rfl htop .refl
    ⟨Nat.zero_le _, by omega⟩ hw hl

end Try

/-! ## The recursive call -/

/-- The arguments of the recursive call. -/
def leafArgs (A : FirstnArgs) : FirstnArgs :=
  { A with type := 0, tries := A.recurseTries, recurseTries := 0 }

theorem leafReady_none (A : FirstnArgs) (outpos count : Nat) (out2 : List Int) :
    LeafReady E root A none outpos count out2 :=
  ⟨(fun f hf => by cases hf), (fun h => by cases h), (fun h => by cases h)⟩

theorem firstnLeafCall_ok {limit : Nat} (hv : E.Valid root)
    (hr : RetryBound E root (leafArgs A) limit) (hcount : 0 < count) :
    E.LeafCallOk root (E.firstnLeafCall A) outpos count := by
  intro b sub work out2 hb hin hw hroom
  unfold firstnLeafCall firstnWith
  -- exactly one replica is tried
  have hone : ((if A.stable ≠ 0 then 1 else (outpos : Int) + 1) -
      (if A.stable ≠ 0 then 0 else (outpos : Int))).toNat = 1 := by
    split <;> omega
  dsimp only
  rw [hone]
  simp only [firstnReps, if_pos hcount]
  refine bind (P := fun res => E.WorkOk res.work ∧
    ((res.outpos = outpos ∧ res.out = out2) ∨ (res.outpos = outpos + 1 ∧ ∃ d,
      res.out = out2.set outpos d ∧ E.Usable d ∧ E.map.Below b.id d ∧ d ∉ out2.take outpos)))
    ?_ ?_
  · refine (firstnTry_top (hv.within hin) (hr.within hin) hb hw (leafReady_none _ _ _ _)).bind ?_
    rintro ⟨item, work', out2'⟩ ⟨hw', _, hitem⟩
    cases item with
    | none => exact pure ⟨hw', .inl ⟨rfl, rfl⟩⟩
    | some d =>
      obtain ⟨hbelow, ⟨t, _, ht, hdev, hout⟩, hfresh, _⟩ := hitem d rfl
      have hd : 0 ≤ d := hdev.1 (Int.natCast_eq_zero.1 ht)
      refine (of_yields (writeAt_yields hroom d)).bind ?_
      rintro _ rfl
      exact pure ⟨hw', .inr ⟨rfl, d, rfl, ⟨hd, hout hd⟩, hbelow, hfresh⟩⟩
  · rintro res ⟨hw', hcase⟩
    refine pure ⟨hw', ?_⟩
    obtain hno | hyes := hcase
    · exact .inl ⟨by simp [hno.1], hno.2⟩
    · exact .inr ⟨by simp [hyes.1], hyes.2⟩

/-! ## The replicas -/

/-- The items and leaves in front of a position: all different, all below the top, and a
leaf for each item if leaves are wanted. -/
structure Placed (E : Input) (A : FirstnArgs) (recurse : Bool) (top : Bucket)
    (items leaves : List Int) : Prop where
  nodup : items.Nodup
  fits : ∀ item ∈ items, E.map.Below top.id item ∧ E.Fits A.type item
  leavesNodup : recurse = true → leaves.Nodup
  leafOf : recurse = true → List.Forall₂ E.LeafOf items leaves

/-- One more item with its leaf. -/
theorem Placed.snoc {recurse : Bool} {top : Bucket} {items leaves : List Int}
    (h : Placed E A recurse top items leaves) (hbelow : E.map.Below top.id item)
    (hfits : E.Fits A.type item) (hfresh : item ∉ items) {leaves' : List Int}
    (hleaf : recurse = true → ∃ d, leaves' = leaves ++ [d] ∧ (0 ≤ item → d = item) ∧
      (item < 0 → E.LeafOf item d ∧ d ∉ leaves)) :
    Placed E A recurse top (items ++ [item]) leaves' where
  nodup := nodup_append.2 ⟨h.nodup, nodup_singleton item, fun a ha b hb heq => by
    rw [mem_singleton.1 hb] at heq
    exact hfresh (heq ▸ ha)⟩
  fits := fun i hi => by
    obtain hi | hi := mem_append.1 hi
    · exact h.fits i hi
    · obtain rfl := mem_singleton.1 hi
      exact ⟨hbelow, hfits⟩
  leavesNodup := fun hrec => by
    obtain ⟨d, rfl, hdev, hbucket⟩ := hleaf hrec
    refine nodup_append.2 ⟨h.leavesNodup hrec, nodup_singleton d, fun a ha b hb heq => ?_⟩
    rw [mem_singleton.1 hb] at heq
    subst heq
    obtain hneg | hge := lt_or_ge item 0
    · exact (hbucket hneg).2 ha
    · -- devices are their own leaves, so the item would be there already
      obtain ⟨i, hi, hia⟩ := mem_iff_getElem.1 ha
      have hlen := (h.leafOf hrec).length_eq
      have hof := (h.leafOf hrec).get (by omega) hi
      rw [get_eq_getElem, get_eq_getElem] at hof
      have hmem : items[i] ∈ items := getElem_mem (by omega)
      have hdevice := ((h.fits _ hmem).2.device_iff hfits).2 hge
      have hsame := hof.eq_of_device hdevice
      rw [hia, hdev hge] at hsame
      exact hfresh (hsame ▸ hmem)
  leafOf := fun hrec => by
    obtain ⟨d, rfl, hdev, hbucket⟩ := hleaf hrec
    refine rel_append (h.leafOf hrec) (.cons ?_ .nil)
    obtain hneg | hge := lt_or_ge item 0
    · exact (hbucket hneg).1
    · obtain ⟨t, _, _, _, hout⟩ := hfits
      rw [hdev hge]
      exact ⟨⟨hge, hout hge⟩, .inl rfl⟩

section Reps

variable {A : FirstnArgs} {recurse : Bool} {top : Bucket} {parentR : Int} {limit size : Nat}

section

variable (hv : E.Valid top.id) (hr : RetryBound E top.id A limit)
  (hleaf : recurse = true → RetryBound E top.id (leafArgs A) limit ∧ A.varyR ≤ 32)
  (htop : E.IsBucket top)

include hv hr hleaf htop

theorem firstnReps_spec (n : Nat) (rep : Int) (outpos count : Nat) (work : Work)
    (out out2 : List Int) (hroom : outpos + count ≤ size) (hout : out.length = size)
    (hout2 : out2.length = size) (hw : E.WorkOk work)
    (hplaced : Placed E A recurse top (out.take outpos) (out2.take outpos)) :
    Returns (fun fuel => E.firstnReps A
        (if recurse then some (E.firstnLeafCall A) else none) fuel top parentR n rep outpos count
        work out out2) fun res =>
      res.outpos ≤ outpos + n ∧ res.outpos ≤ outpos + count ∧ res.out.length = size ∧
        res.out2.length = size ∧ E.WorkOk res.work ∧
        Placed E A recurse top (res.out.take res.outpos) (res.out2.take res.outpos) := by
  induction n generalizing rep outpos count work out out2 with
  | zero => exact pure ⟨Nat.le_add_right _ _, Nat.le_add_right _ _, hout, hout2, hw, hplaced⟩
  | succ _ ih =>
    simp only [firstnReps]
    obtain h0 | hcount := eq_zero_or_pos count
    · simp only [h0, lt_irrefl, if_false]
      exact pure ⟨Nat.le_add_right _ _, Nat.le_add_right _ _, hout, hout2, hw, hplaced⟩
    · simp only [if_pos hcount]
      have hready : LeafReady E top.id A (if recurse then some (E.firstnLeafCall A) else none)
          outpos count out2 := by
        cases recurse with
        | false => exact leafReady_none _ _ _ _
        | true =>
          obtain ⟨hlr, hshift⟩ := hleaf rfl
          refine ⟨fun f hf => ?_, fun _ => by omega, fun _ => hshift⟩
          cases hf
          exact firstnLeafCall_ok hv hlr hcount
      refine (firstnTry_top hv hr htop hw hready).bind ?_
      rintro ⟨item, work', out2'⟩ ⟨hw', hkept, hitem⟩
      have hout2' : out2'.length = size := hkept.length.trans hout2
      cases item with
      | none =>
        refine (ih (rep + 1) outpos count work' out out2' hroom hout hout2' hw'
          (hkept.front ▸ hplaced)).imp fun res hres => ?_
        exact ⟨by omega, hres.2⟩
      | some item =>
        obtain ⟨hbelow, hfits, hfresh, hnew⟩ := hitem item rfl
        refine (of_yields (writeAt_yields (by omega) item)).bind ?_
        rintro _ rfl
        refine (ih (rep + 1) (outpos + 1) (count - 1) work' (out.set outpos item) out2'
          (by omega) (by rw [length_set, hout]) hout2' hw' ?_).imp fun res hres =>
            ⟨by omega, by omega, hres.2.2⟩
        rw [take_add_one, take_set_of_le le_rfl, getElem?_set_self (by omega)]
        refine hplaced.snoc hbelow hfits hfresh fun hrec => ?_
        obtain ⟨_, d, hd, hdev, hbucket⟩ := hnew (by rw [hrec]; rfl)
        refine ⟨d, ?_, hdev, hbucket⟩
        rw [take_add_one, hkept.front, hd]
        rfl

/-- `crush_choose_firstn` from the top. -/
theorem chooseFirstn_spec {numrep : Int} (hnum : 0 < numrep) (hw : E.WorkOk work) {out : List Int}
    (hout : out.length = size) (hout2 : out2.length = size) :
    Returns (fun fuel => E.chooseFirstn A recurse fuel top numrep parentR work out 0 size out2)
      fun res => (res.outpos : Int) ≤ numrep ∧ res.outpos ≤ size ∧ res.out.length = size ∧
        res.out2.length = size ∧ E.WorkOk res.work ∧
        Placed E A recurse top (res.out.take res.outpos) (res.out2.take res.outpos) := by
  unfold chooseFirstn firstnWith
  have hstart : (if A.stable ≠ 0 then (0 : Int) else ((0 : Nat) : Int)) = 0 := by
    split <;> rfl
  dsimp only
  rw [hstart, sub_zero]
  refine (firstnReps_spec hv hr hleaf htop numrep.toNat 0 0 size work out out2 (by omega) hout
    hout2 hw ?_).imp fun res hres => ⟨by omega, by omega, hres.2.2⟩
  exact ⟨nodup_nil, nofun, fun _ => nodup_nil, fun _ => .nil⟩

end

end Reps

end Input

end Ceph.Crush
