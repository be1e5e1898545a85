import Ceph.Crush.Firstn

set_option autoImplicit false

/-!
# Crush: indep placement

The positions of a call are filled round by round.  Between two tries a position is
undefined, empty, or holds an item that fits and that no other position holds; its leaf is
undefined, empty, or a usable device of that item.  A device that is chosen as its own leaf
is written before `is_out` is asked, so that a leaf can also be a device that is out.
-/

namespace Ceph.Crush

open Ceph.Lib List Returns Yields

namespace Input

variable {E : Input}

/-! ## The state of a call -/

/-- An entry that was settled: empty, or an item below the top that fits. -/
def Settled (E : Input) (type : Int) (top : Bucket) (v : Int) : Prop :=
  v = itemNone ∨ (E.map.Below top.id v ∧ E.Fits type v)

/-- A device that was written as its own leaf and then rejected. -/
structure Stale (E : Input) (type : Int) (top : Bucket) (d : Int) : Prop where
  type : type = 0
  below : E.map.Below top.id d
  device : 0 ≤ d
  out : E.isOut d = .ok true

/-- The leaf at a position whose item is `v`. -/
def LeafEntry (E : Input) (type : Int) (top : Bucket) (v d : Int) : Prop :=
  d = itemUndef ∨ d = itemNone ∨ (v ≠ itemUndef ∧ E.LeafOf v d) ∨ Stale E type top d

/-- A position of the call. -/
def InWindow (outpos left i : Nat) : Prop := outpos ≤ i ∧ i < outpos + left

/-- Whether leaves were asked for, and the room for them. -/
def LeafRoom (given : Bool) (room : Nat) (out2 : Option (List Int)) : Prop :=
  out2.isSome = given ∧ ∀ o ∈ out2, room ≤ o.length

/-- The arrays of a call, with those it was given. -/
structure IndepInv (E : Input) (type : Int) (recurse given : Bool) (top : Bucket)
    (outpos left : Nat) (out₀ : List Int) (S : IndepState) : Prop where
  work : E.WorkOk S.work
  length : S.out.length = out₀.length
  room : outpos + left ≤ out₀.length
  room2 : LeafRoom given (outpos + left) S.out2
  outside : ∀ i, ¬ InWindow outpos left i → S.out[i]? = out₀[i]?
  inside : ∀ i v, InWindow outpos left i → S.out[i]? = some v → v = itemUndef ∨ Settled E type top v
  distinct : ∀ i j v, InWindow outpos left i → InWindow outpos left j → S.out[i]? = some v →
    S.out[j]? = some v → v = itemUndef ∨ v = itemNone ∨ i = j
  leaves : recurse = true → ∃ out2, S.out2 = some out2 ∧
    ∀ i v d, InWindow outpos left i → S.out[i]? = some v → out2[i]? = some d →
      LeafEntry E type top v d

variable {a : List Int} {i : Nat} {work : Work} {S' S : IndepState}

section Steps

variable {type : Int} {recurse given : Bool} {top : Bucket} {outpos left : Nat} {out₀ : List Int}
  {S : IndepState} {rep : Nat}

variable {v : Int}

theorem getElem?_set_cases {j : Nat} {u : Int}
    (h : (a.set i v)[j]? = some u) : (j = i ∧ u = v) ∨ (j ≠ i ∧ a[j]? = some u) := by
  obtain heq | hne := eq_or_ne i j
  · subst heq
    obtain ⟨_, hu⟩ := List.getElem?_eq_some_iff.1 h
    rw [getElem_set_self] at hu
    exact .inl ⟨rfl, hu.symm⟩
  · rw [getElem?_set_ne hne] at h
    exact .inr ⟨hne.symm, h⟩

section

variable (h : IndepInv E type recurse given top outpos left out₀ S)
  (hrep : InWindow outpos left rep)

include h hrep

theorem IndepInv.lt : rep < S.out.length := by
  rw [h.length]
  exact hrep.2.trans_le h.room

end

theorem LeafRoom.set {room : Nat} {out2 : Option (List Int)} (h : LeafRoom given room out2)
    (v : Int) : LeafRoom given room (out2.map (·.set i v)) := by
  refine ⟨by rw [Option.isSome_map, h.1], fun o ho => ?_⟩
  rw [Option.mem_def, Option.map_eq_some_iff] at ho
  obtain ⟨o', ho', rfl⟩ := ho
  rw [length_set]
  exact h.2 o' ho'

section

variable (h : IndepInv E type recurse given top outpos left out₀ S)

include h

section

variable (hrep : InWindow outpos left rep)

include hrep

/-- A position is written together with its leaf. -/
theorem IndepInv.write (hw : E.WorkOk S'.work) (hout : S'.out = S.out.set rep v)
    (hsettled : v = itemUndef ∨ Settled E type top v) (hfresh : v = itemUndef ∨ v = itemNone ∨
      ∀ i, InWindow outpos left i → i ≠ rep → S.out[i]? ≠ some v)
    (hroom2 : LeafRoom given (outpos + left) S'.out2)
    (hleaf : recurse = true → ∃ out2 out2', S.out2 = some out2 ∧ S'.out2 = some out2' ∧
      (∀ i, i ≠ rep → out2'[i]? = out2[i]?) ∧ ∀ d, out2'[rep]? = some d →
      LeafEntry E type top v d) : IndepInv E type recurse given top outpos left out₀ S' where
  work := hw
  length := by rw [hout, length_set, h.length]
  room := h.room
  room2 := hroom2
  outside := fun i hi => by
    have hne : rep ≠ i := fun heq => hi (heq ▸ hrep)
    rw [hout, getElem?_set_ne hne, h.outside i hi]
  inside := fun i u hi hu => by
    rw [hout] at hu
    obtain hnew | hold := getElem?_set_cases hu
    · exact hnew.2 ▸ hsettled
    · exact h.inside i u hi hold.2
  distinct := fun i j u hi hj hu hu' => by
    rw [hout] at hu hu'
    have hclash : ∀ k, InWindow outpos left k → k ≠ rep → S.out[k]? = some v →
        v = itemUndef ∨ v = itemNone ∨ i = j := fun k hk hne hkv =>
      hfresh.imp_right fun h => .inl (h.resolve_right fun hother => hother k hk hne hkv)
    obtain hi' | hi' := getElem?_set_cases hu
    · obtain hj' | hj' := getElem?_set_cases hu'
      · exact .inr (.inr (hi'.1.trans hj'.1.symm))
      · exact hi'.2 ▸ hclash j hj hj'.1 (hi'.2 ▸ hj'.2)
    · obtain hj' | hj' := getElem?_set_cases hu'
      · exact hj'.2 ▸ hclash i hi hi'.1 (hj'.2 ▸ hi'.2)
      · exact h.distinct i j u hi hj hi'.2 hj'.2
  leaves := fun hrec => by
    obtain ⟨out2, out2', hS, hS', hother, hd⟩ := hleaf hrec
    obtain ⟨out2₀, hS₀, hentries⟩ := h.leaves hrec
    obtain rfl : out2 = out2₀ := Option.some.inj (hS.symm.trans hS₀)
    refine ⟨out2', hS', fun i u d hi hu hud => ?_⟩
    rw [hout] at hu
    obtain hnew | hold := getElem?_set_cases hu
    · exact hnew.2 ▸ hd d (hnew.1 ▸ hud)
    · exact hentries i u d hi hold.2 (hother i hold.1 ▸ hud)

end

end

end Steps

/-! ## One position -/

section Descend

variable {A : IndepArgs} {leaf : Option IndepLeafCall} {recurse given : Bool} {top : Bucket}
  {parentR : Int} {outpos left rep ftotal : Nat} {out₀ : List Int}

end Descend

/-! ## The rounds -/

section Rounds

variable {A : IndepArgs} {leaf : Option IndepLeafCall} {recurse given : Bool} {top : Bucket}
  {parentR : Int} {outpos left : Nat} {out₀ : List Int}

/-- The entry at a position is cleared, if it was undefined. -/
structure Cleared (i : Nat) (a a' : List Int) : Prop where
  length : a'.length = a.length
  other : ∀ j, j ≠ i → a'[j]? = a[j]?
  entry : ∀ (j : Nat) v, a'[j]? = some v → a[j]? = some v ∨ (a[j]? = some itemUndef ∧ v = itemNone)
  defined : a'[i]? ≠ some itemUndef

/-- One more position is defined. -/
theorem Cleared.succ {a' : List Int} {outpos : Nat} (h : Cleared i a a')
    (hdone : ∀ j, outpos ≤ j → j < i → a[j]? ≠ some itemUndef) :
    ∀ j, outpos ≤ j → j < i + 1 → a'[j]? ≠ some itemUndef := by
  intro j hj hji
  obtain hlt | heq := lt_or_eq_of_le (Nat.le_of_lt_succ hji)
  · rw [h.other j hlt.ne]
    exact hdone j hj hlt
  · exact heq ▸ h.defined

section

variable {type : Int} (h : IndepInv E type recurse given top outpos left out₀ S)
  (hi : InWindow outpos left i)

include h hi

end

end Rounds

/-! ## The calls -/

end Input

end Ceph.Crush
