import Ceph.Crush.BucketChoose

set_option autoImplicit false

/-!
# Crush: valid maps

A map is valid when a bucket is found under its own id, its type is not that of a device,
the buckets it lists exist, no bucket is below itself, and, from a root downwards, the arrays
that a bucket's algorithm reads fit its items.  Drawing from such a bucket yields one of its
items and leaves the work area in order.
-/

namespace Ceph.Crush

open Ceph.Lib CrushMap List

/-- The item is in the bucket `parent`. -/
def CrushMap.Child (m : CrushMap) (parent item : Int) : Prop :=
  ∃ b, m.bucketOf parent = .ok b ∧ item ∈ b.items

/-- The item is below `root`. -/
def CrushMap.Below (m : CrushMap) : Int → Int → Prop := Relation.TransGen m.Child

/-- The item is `root` or below it. -/
def CrushMap.Within (m : CrushMap) : Int → Int → Prop := Relation.ReflTransGen m.Child

/-- A valid map, with choose_args that fit the buckets from `root` downwards. -/
structure Input.Valid (E : Input) (root : Int) : Prop where
  id_eq : ∀ item b, E.map.bucketOf item = .ok b → b.id = item
  type_pos : ∀ item b, E.map.bucketOf item = .ok b → 0 < b.type
  child : ∀ item b, E.map.bucketOf item = .ok b → ∀ c ∈ b.items, c < 0 →
    ∃ b', E.map.bucketOf c = .ok b'
  acyclic : ∀ item, ¬ E.map.Below item item
  arrays : ∀ item b, E.map.bucketOf item = .ok b → E.map.Within root item →
    ∃ arg, E.chooseArgOf b = .ok arg ∧ BucketOk b arg

/-- The bucket is the one of the map under its id. -/
def Input.IsBucket (E : Input) (b : Bucket) : Prop := E.map.bucketOf b.id = .ok b

/-- The work area of every bucket is in order. -/
def Input.WorkOk (E : Input) (work : Work) : Prop :=
  ∀ b, E.IsBucket b → ∃ wb, work[(-1 - b.id).toNat]? = some wb ∧ PermOk b wb

variable {m : CrushMap} {item : Int} {b : Bucket}

theorem CrushMap.bucketOf_neg
    (h : m.bucketOf item = .ok b) : item < 0 ∧ m.buckets[(-1 - item).toNat]? = some (some b) := by
  rw [bucketOf] at h
  split at h
  next hneg =>
    refine ⟨hneg, ?_⟩
    split at h
    next b' hb' =>
      cases h
      exact hb'
    next => cases h
  next => cases h

namespace Input.Valid

variable {E : Input} {root : Int}

theorem within (hv : E.Valid root) (h : E.map.Within root item) : E.Valid item :=
  ⟨hv.id_eq, hv.type_pos, hv.child, hv.acyclic, fun i b hb hi => hv.arrays i b hb (h.trans hi)⟩

theorem isBucket (hv : E.Valid root) (h : E.map.bucketOf item = .ok b) : E.IsBucket b := by
  have hid := hv.id_eq item b h
  rw [IsBucket, hid]
  exact h

/-- A device has no children. -/
theorem lt_zero_of_below {parent : Int} (h : m.Below parent item) : parent < 0 := by
  cases Relation.TransGen.head'_iff.1 h with
  | intro _ hfirst =>
    obtain ⟨⟨b, hb, _⟩, _⟩ := hfirst
    exact (bucketOf_neg hb).1

/-- An item of a bucket is a device, of type 0, or a bucket, of another type. -/
theorem item_type (hv : E.Valid root) (hb : E.IsBucket b) (hitem : item ∈ b.items) :
    ∃ t : Nat, E.map.itemType item = .ok t ∧ (t = 0 ↔ 0 ≤ item) ∧
      (item < 0 → ∃ b', E.map.bucketOf item = .ok b') := by
  rw [itemType]
  cases lt_or_ge item 0 with
  | inr hge => exact ⟨0, if_neg (not_lt.2 hge), by simp [hge], fun h => absurd h (not_lt.2 hge)⟩
  | inl hlt =>
    obtain ⟨b', hb'⟩ := hv.child _ b hb item hitem hlt
    have hpos := hv.type_pos item b' hb'
    refine ⟨b'.type, ?_, by omega, fun _ => ⟨b', hb'⟩⟩
    rw [if_pos hlt, hb']
    rfl

/-- Going down from bucket to bucket ends. -/
theorem wellFounded (hv : E.Valid root) : WellFounded fun c p => E.map.Child p c := by
  let S := {item : Int // ∃ b, E.map.bucketOf item = .ok b}
  have hlt : ∀ s : S, (-1 - s.1).toNat < E.map.buckets.length := by
    rintro ⟨item, b, hb⟩
    exact (List.getElem?_eq_some_iff.1 (bucketOf_neg hb).2).1
  have hfinite : Finite S := by
    refine Finite.of_injective (fun s : S => (⟨_, hlt s⟩ : Fin E.map.buckets.length)) ?_
    rintro ⟨s, b, hs⟩ ⟨t, c, ht⟩ heq
    have hnat := Fin.mk.inj heq
    have hsneg := (bucketOf_neg hs).1
    have htneg := (bucketOf_neg ht).1
    exact Subtype.ext (by dsimp only at hnat ⊢; omega)
  have htrans : IsTrans S fun c p => E.map.Below p.1 c.1 := ⟨fun _ _ _ hab hbc => hbc.trans hab⟩
  have hirrefl : Std.Irrefl fun c p : S => E.map.Below p.1 c.1 := ⟨fun s => hv.acyclic s.1⟩
  have hwf : WellFounded fun c p : S => E.map.Below p.1 c.1 :=
    Finite.wellFounded_of_trans_of_irrefl _
  -- an item that is not a bucket has nothing below it
  have hleaf : ∀ item, (¬ ∃ b, E.map.bucketOf item = .ok b) →
      Acc (fun c p => E.map.Child p c) item := fun item hno =>
    Acc.intro item fun c ⟨b, hb, _⟩ => absurd ⟨b, hb⟩ hno
  have hbucket : ∀ s : S, Acc (fun c p => E.map.Child p c) s.1 := fun s => by
    induction s using hwf.induction with
    | h s ih =>
      refine Acc.intro s.1 fun c hc => ?_
      obtain hb | hno := em (∃ b, E.map.bucketOf c = .ok b)
      · exact ih ⟨c, hb⟩ (Relation.TransGen.single hc)
      · exact hleaf c hno
  refine ⟨fun item => ?_⟩
  obtain hb | hno := em (∃ b, E.map.bucketOf item = .ok b)
  · exact hbucket ⟨item, hb⟩
  · exact hleaf item hno

/-- One of the items is drawn. -/
theorem chooseItem_spec (hv : E.Valid root) (hb : E.IsBucket b) (hin : E.map.Within root b.id)
    (hpos : 0 < b.size) {work : Work} (hw : E.WorkOk work) (fallback : Bool) (r : Int)
    (position : Nat) :
    Yields (E.chooseItem fallback b work r position) fun out =>
      out.1 ∈ b.items ∧ E.WorkOk out.2 := by
  obtain ⟨wb, hwb, hperm⟩ := hw b hb
  have hlt : (-1 - b.id).toNat < work.length := (List.getElem?_eq_some_iff.1 hwb).1
  have hdraw : Yields (E.drawFrom fallback b wb r position) fun out =>
      out.1 ∈ b.items ∧ PermOk b out.2 := by
    cases fallback with
    | true => exact bucketPermChoose_mem hpos hperm
    | false =>
      obtain ⟨arg, harg, hok⟩ := hv.arrays _ b hb hin
      exact Yields.bind ⟨arg, harg, hok⟩ fun arg hok => bucketChoose_spec hpos hok hperm
  rw [chooseItem, readAt_of_some hwb]
  refine hdraw.bind fun out hout => ?_
  refine (writeAt_yields hlt out.2).bind ?_
  rintro _ rfl
  refine Yields.pure ⟨hout.1, fun b' hb' => ?_⟩
  -- another bucket has another place in the work area
  obtain hid | hne := eq_or_ne b'.id b.id
  · have hsame : b' = b := by
      rw [IsBucket, hid] at hb'
      exact Except.ok.inj (hb'.symm.trans hb)
    subst hsame
    exact ⟨out.2, getElem?_set_self hlt, hout.2⟩
  · have hneg := (bucketOf_neg hb).1
    have hneg' := (bucketOf_neg hb').1
    rw [getElem?_set_ne (by omega)]
    exact hw b' hb'

end Input.Valid

end Ceph.Crush
