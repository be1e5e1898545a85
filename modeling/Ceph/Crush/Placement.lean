import Ceph.Crush.Indep
import Mathlib.Data.UInt

set_option autoImplicit false

/-!
# Crush: what a rule yields

A rule that takes a root, chooses below it and emits.  The choose step is the only one that
can fail in a valid map with room for a result, and what it places is what is emitted.
-/

namespace Ceph.Crush

open Ceph.Lib List Nat Returns Relation.TransGen

namespace Input

variable {E : Input} {fuel resultMax : Nat}

/-! ## The steps -/

variable {item : Int}

theorem bucketOf_isOk {m : CrushMap} (h : (m.bucketOf item).isOk = true) :
    ∃ b, m.bucketOf item = .ok b := by
  cases hb : m.bucketOf item with
  | ok b => exact ⟨b, rfl⟩
  | error =>
    rw [hb] at h
    cases h

/-- The variables after `TAKE`: the root is the only entry of the working vector, or there
is none. -/
structure Taken (E : Input) (root : Int) (S₀ S : RuleState) : Prop where
  w : S.w.length = S₀.w.length
  rest : S = { S₀ with w := S.w, wsize := S.wsize }
  root : S.wsize = 0 ∨ (S.wsize = 1 ∧ S.w[0]? = some root ∧
    (root < 0 → ∃ b, E.map.bucketOf root = .ok b))

theorem ruleStep_take (E : Input) (fuel resultMax : Nat) (S₀ : RuleState) (root : Int)
    (hwsize : S₀.wsize = 0) (hroom : 0 < S₀.w.length) :
    Yields (E.ruleStep fuel resultMax S₀ (.take root)) (Taken E root S₀) := by
  rw [ruleStep]
  split
  next hok =>
    refine (writeAt_yields hroom root).bind ?_
    rintro _ rfl
    refine Yields.pure ⟨length_set, rfl, .inr ⟨rfl, getElem?_set_self hroom, ?_⟩⟩
    intro hneg
    obtain hdev | hb := hok
    · exact absurd hdev.1 (not_le.2 hneg)
    · exact bucketOf_isOk hb
  next => exact Yields.pure ⟨rfl, rfl, .inl hwsize⟩

/-- What a choose step leaves to be emitted. -/
structure Chosen (resultMax : Nat) (P : List Int → Prop) (S : RuleState) : Prop where
  result : S.result = []
  length : S.w.length = resultMax
  size : S.wsize ≤ resultMax
  chosen : P (S.w.take S.wsize)

variable {S : RuleState} {recurse : Bool}

theorem ruleStep_emit (E : Input) (fuel : Nat) {P : List Int → Prop} (h : Chosen resultMax P S) :
    Yields (E.ruleStep fuel resultMax S .emit) fun S' => P S'.result := by
  refine ⟨_, rfl, ?_⟩
  rw [h.result, length_nil, take_of_length_le]
  · exact h.chosen
  · rw [length_take]
    exact le_trans (min_le_left _ _) h.size

/-- A choose step over a working vector with one entry does one choose call. -/
theorem ruleChoose_one {firstn : Bool} {n type : Int} (h1 : S.wsize = 1) :
    E.ruleChoose fuel resultMax S firstn recurse n type =
      E.chooseFrom fuel resultMax S firstn recurse n type ⟨0, S.o, S.c, S.work⟩ 0 >>= fun out =>
        .ok { S with
          w := if recurse then out.c.take out.osize ++ out.o.drop out.osize else out.o
          o := S.w, c := out.c, wsize := out.osize, work := out.work } := by
  rw [ruleChoose, h1]
  simp only [range_one, foldlM_cons, foldlM_nil, bind_assoc, pure_bind]
  rfl

/-- What a choose call yields.  The leaves are copied over the items, if leaves are wanted. -/
theorem ruleStep_choose {firstn : Bool} {n type : Int} {P : List Int → Prop}
    (hresult : S.result = []) (hone : S.wsize = 1)
    (hcall : Returns (fun fuel => E.chooseFrom fuel resultMax S firstn recurse n type
      ⟨0, S.o, S.c, S.work⟩ 0) fun out =>
      out.o.length = resultMax ∧ out.osize ≤ out.c.length ∧ out.osize ≤ resultMax ∧
      P (if recurse then out.c.take out.osize else out.o.take out.osize)) :
    Returns (fun fuel => E.ruleStep fuel resultMax S (.choose firstn recurse n type))
      (Chosen resultMax P) := by
  unfold ruleStep
  simp only [ruleChoose_one hone]
  refine hcall.bind fun out hout => pure ?_
  obtain ⟨ho, _, hsize, h⟩ := hout
  cases recurse with
  | false => exact ⟨hresult, ho, hsize, h⟩
  | true =>
    refine ⟨hresult, ?_, hsize, ?_⟩
    · show (out.c.take out.osize ++ out.o.drop out.osize).length = resultMax
      rw [length_append, length_take, length_drop]
      omega
    · show P ((out.c.take out.osize ++ out.o.drop out.osize).take out.osize)
      rw [take_append_of_le_length (by rw [length_take]; omega), take_take, min_self]
      exact h

/-! ## firstn -/

/-- The tunables of the map keep the 32-bit counters of the failures from wrapping, and the
shift of `r` for leaves is defined. -/
structure TunablesOk (E : Input) (root : Int) (recurse : Bool) (limit : Nat) : Prop where
  localTries : E.map.chooseLocalTries.toNat ≤ limit
  fallback : 0 < E.map.chooseLocalFallbackTries.toNat → ∀ b, E.IsBucket b →
    E.map.Within root b.id → (b.size + E.map.chooseLocalFallbackTries.toNat) % 2 ^ 32 ≤ limit
  small : limit + 1 < 2 ^ 32
  total : (E.map.chooseTotalTries + 1).toNat + limit < 2 ^ 32
  shift : recurse = true → E.map.chooseleafVaryR.toNat ≤ 32

/-- The tunables of a state are those of the map. -/
def Untuned (E : Input) (S : RuleState) : Prop :=
  S.chooseTries = (E.map.chooseTotalTries + 1).toNat ∧ S.chooseLeafTries = 0 ∧
    S.chooseLocalRetries = E.map.chooseLocalTries.toNat ∧
    S.chooseLocalFallbackRetries = E.map.chooseLocalFallbackTries.toNat ∧
    S.varyR = E.map.chooseleafVaryR.toNat

theorem Taken.ofInit {a b c : List Int} {work : Work} {root : Int}
    (h : Taken E root (E.ruleInit a b c work) S) :
    S.result = [] ∧ S.w.length = a.length ∧ S.o = b ∧ S.c = c ∧ S.work = work ∧ Untuned E S := by
  rw [h.rest]
  exact ⟨rfl, h.w, rfl, rfl, rfl, rfl, rfl, rfl, rfl, rfl⟩

theorem TunablesOk.retryBound {root : Int} {limit : Nat} (h : TunablesOk E root recurse limit)
    (hS : Untuned E S) (type : Int) :
    RetryBound E root (E.firstnArgs S type) limit ∧
      RetryBound E root (leafArgs (E.firstnArgs S type)) limit := by
  obtain ⟨htries, hleafTries, hlocal, hfallback, _⟩ := hS
  have hlocal' : S.chooseLocalRetries ≤ limit := by
    rw [hlocal]
    exact h.localTries
  have hfallback' : 0 < S.chooseLocalFallbackRetries → ∀ b, E.IsBucket b →
      E.map.Within root b.id → (b.size + S.chooseLocalFallbackRetries) % 2 ^ 32 ≤ limit := by
    rw [hfallback]
    exact h.fallback
  refine ⟨⟨hlocal', hfallback', h.small, ?_⟩, ⟨hlocal', hfallback', h.small, ?_⟩⟩
  · show S.chooseTries + limit < 2 ^ 32
    rw [htries]
    exact h.total
  · have hsmall := h.small
    have htotal := h.total
    simp only [leafArgs, firstnArgs, hleafTries, htries]
    split
    next hne => exact absurd rfl hne
    next => split <;> omega

/-- What a firstn rule yields: different items of the type below the root, or a device below
each of some such items, none of them out. -/
structure FirstnOk (E : Input) (root n type : Int) (recurse : Bool) (resultMax : Nat)
    (result : List Int) : Prop where
  length : (result.length : Int) ≤ max 0 (min (numrepOf n resultMax) resultMax)
  nodup : result.Nodup
  items : recurse = false → ∀ item ∈ result, E.map.Below root item ∧
    (∃ t : Nat, E.map.itemType item = .ok t ∧ (t : Int) = type) ∧
    (0 ≤ item → E.isOut item = .ok false)
  leaves : recurse = true → ∃ items : List Int, items.Nodup ∧
    (∀ item ∈ items, E.map.Below root item ∧
      ∃ t : Nat, E.map.itemType item = .ok t ∧ (t : Int) = type) ∧
    List.Forall₂ (fun item d => 0 ≤ d ∧ (d = item ∨ E.map.Below item d)) items result ∧
    ∀ d ∈ result, E.map.Below root d ∧ E.isOut d = .ok false

theorem FirstnOk.nil (E : Input) (root n type : Int) (recurse : Bool) (resultMax : Nat) :
    FirstnOk E root n type recurse resultMax [] where
  length := le_max_left _ _
  nodup := nodup_nil
  items := fun _ _ hitem => absurd hitem not_mem_nil
  leaves := fun _ => ⟨[], nodup_nil, nofun, .nil, nofun⟩

theorem Placed.firstnOk {top : Bucket} {items leaves : List Int} {n type : Int} (count : Nat)
    (h : Placed E (E.firstnArgs S type) recurse top items leaves) (hlen : items.length ≤ count)
    (hleaves : recurse = true → leaves.length = items.length)
    (hnum : (count : Int) ≤ numrepOf n resultMax) (hmax : count ≤ resultMax) :
    FirstnOk E top.id n type recurse resultMax (if recurse then leaves else items) where
  length := by
    have hshort : (if recurse then leaves else items).length ≤ count := by
      cases recurse with
      | false => exact hlen
      | true => exact (hleaves rfl).trans_le hlen
    omega
  nodup := by
    cases recurse with
    | false => exact h.nodup
    | true => exact h.leavesNodup rfl
  items := fun hrec item hitem => by
    subst hrec
    obtain ⟨hbelow, t, ht, htype, _, hout⟩ := h.fits item hitem
    exact ⟨hbelow, ⟨t, ht, htype⟩, hout⟩
  leaves := fun hrec => by
    subst hrec
    have hof := h.leafOf rfl
    refine ⟨items, h.nodup, fun item hitem => ?_, hof.imp fun item d hd => ⟨hd.1.1, hd.2⟩,
      fun d hd => ?_⟩
    · obtain ⟨hbelow, t, ht, htype, _⟩ := h.fits item hitem
      exact ⟨hbelow, t, ht, htype⟩
    · obtain ⟨i, hi, rfl⟩ := mem_iff_getElem.1 hd
      have hlt : i < items.length := by
        rw [hof.length_eq]
        exact hi
      have hleaf := hof.get hlt hi
      have hbelow := (h.fits _ (getElem_mem hlt)).1
      refine ⟨?_, hleaf.1.2⟩
      obtain heq | hdown := hleaf.2
      · rw [get_eq_getElem] at heq
        exact heq ▸ hbelow
      · exact trans hbelow hdown

section Firstn

variable {root n type : Int} {recurse : Bool} {limit : Nat} {S : RuleState}

/-- The choose call for the root. -/
theorem chooseFrom_firstn (hv : E.Valid root) (ht : TunablesOk E root recurse limit)
    (hS : Untuned E S) (hroot : S.w[0]? = some root)
    (hb : root < 0 → ∃ b, E.map.bucketOf root = .ok b) (hw : E.WorkOk S.work)
    (ho : S.o.length = resultMax) (hc : S.c.length = resultMax) :
    Returns (fun fuel => E.chooseFrom fuel resultMax S true recurse n type
        ⟨0, S.o, S.c, S.work⟩ 0) fun out =>
      out.o.length = resultMax ∧ out.osize ≤ out.c.length ∧ out.osize ≤ resultMax ∧
        FirstnOk E root n type recurse resultMax
          (if recurse then out.c.take out.osize else out.o.take out.osize) := by
  have hnone : FirstnOk E root n type recurse resultMax
      (if recurse then S.c.take 0 else S.o.take 0) := by
    cases recurse <;> exact FirstnOk.nil E root n type _ resultMax
  refine ite (fun _ => pure ⟨ho, zero_le _, zero_le _, hnone⟩) fun hnum => ?_
  simp only [readAt_of_some hroot, ok_bind]
  refine ite (fun _ => pure ⟨ho, zero_le _, zero_le _, hnone⟩) fun hbno => ?_
  obtain ⟨top, htop⟩ := hb (by omega)
  simp only [htop, ok_bind, if_true, drop_zero, take_zero, nil_append, zero_add]
  obtain rfl := hv.id_eq root top htop
  obtain ⟨hbound, hleafBound⟩ := ht.retryBound hS type
  have hvary : recurse = true → (E.firstnArgs S type).varyR ≤ 32 := fun hrec => by
    show S.varyR ≤ 32
    rw [hS.2.2.2.2]
    exact ht.shift hrec
  refine (chooseFirstn_spec hv hbound (fun hrec => ⟨hleafBound, hvary hrec⟩)
    (hv.isBucket htop) (by omega) hw ho hc).bind fun res hres => pure ?_
  obtain ⟨hrep, hsize, hout, hout2, _, hplaced⟩ := hres
  refine ⟨hout, hout2.symm ▸ hsize, hsize, ?_⟩
  exact hplaced.firstnOk res.outpos (by rw [length_take]; exact min_le_left _ _)
    (fun _ => by rw [length_take, length_take, hout, hout2]) hrep hsize

theorem Taken.firstn {a b c : List Int} {work : Work} (hv : E.Valid root)
    (ht : TunablesOk E root recurse limit) (hw : E.WorkOk work) (ha : a.length = resultMax)
    (hb : b.length = resultMax) (hc : c.length = resultMax)
    (htaken : Taken E root (E.ruleInit a b c work) S) :
    Returns (fun fuel => E.ruleStep fuel resultMax S (.choose true recurse n type))
      (Chosen resultMax (FirstnOk E root n type recurse resultMax)) := by
  obtain ⟨hresult, hwlen, rfl, rfl, rfl, hS⟩ := htaken.ofInit
  obtain h0 | ⟨hone, hroot, htop⟩ := htaken.root
  · unfold ruleStep ruleChoose
    simp only [if_pos h0]
    refine pure ⟨hresult, hwlen.trans ha, by omega, ?_⟩
    rw [h0]
    exact FirstnOk.nil E root n type recurse resultMax
  · exact ruleStep_choose hresult hone (chooseFrom_firstn hv ht hS hroot htop hw hb hc)

end Firstn

/-- For every map that is valid from the root downwards and whose tunables stay clear of the
32-bit range, every weight vector, input and size of the result but 0, a firstn rule ends
without leaving its arrays, and its result is well formed. -/
theorem doRule_firstn_wellFormed {recurse : Bool} {limit : Nat} {work : Work} {a b c : List Int}
    {root : Int} (hv : E.Valid root) (ht : TunablesOk E root recurse limit) (hw : E.WorkOk work)
    (hmax : 0 < resultMax) (ha : a.length = resultMax) (hb : b.length = resultMax)
    (hc : c.length = resultMax) (n type : Int) :
    Returns (fun fuel => E.doRule fuel resultMax a b c work
        [.take root, .choose true recurse n type, .emit])
      fun S => FirstnOk E root n type recurse resultMax S.result := by
  refine bind (P := Taken E root (E.ruleInit a b c work)) ?_ fun S hS => ?_
  · obtain ⟨S, hS, htaken⟩ := ruleStep_take E 0 resultMax
      (E.ruleInit a b c work) root rfl (ha.symm ▸ hmax)
    exact of_ok (fun _ => hS) htaken
  refine (hS.firstn hv ht hw ha hb hc).bind fun S' hS' => ?_
  obtain ⟨_, hemit, hok⟩ := ruleStep_emit E 0 hS'
  exact of_ok (fun _ => hemit) hok

/-! ### A map with one bucket -/

/-- A hash function that is always 0. -/
def zeroHash : Hash := ⟨fun _ _ _ => 0, fun _ _ _ _ => 0, fun _ _ _ _ _ => 0⟩

/-- A map whose only bucket holds the devices 0 and up, all of them in. -/
def oneBucket (alg : Alg) (items : List Int) (localTries : UInt32) : Input where
  h := zeroHash
  map := ⟨[some ⟨-1, 1, alg, 0, items⟩], items.length, localTries, 0, 50, 1, 1, 1⟩
  weight := items.map fun _ => 0x10000
  x := 7
  chooseArgs := none

theorem oneBucket_bucketOf {alg : Alg} {items : List Int} {localTries : UInt32} {b : Bucket}
    (h : (oneBucket alg items localTries).map.bucketOf item = .ok b) :
    item = -1 ∧ b = ⟨-1, 1, alg, 0, items⟩ := by
  obtain ⟨_, hb⟩ := CrushMap.bucketOf_neg h
  have hlt := (List.getElem?_eq_some_iff.1 hb).1
  have hlen : (oneBucket alg items localTries).map.buckets.length = 1 := rfl
  have hitem : item = -1 := by omega
  subst hitem
  exact ⟨rfl, (Option.some.inj (Option.some.inj hb)).symm⟩

theorem oneBucket_below {root : Int}
    (h : (oneBucket .uniform [0, 1] 0).map.Below root item) : item = 0 ∨ item = 1 := by
  obtain ⟨_, _, _, hb, hitem⟩ := tail'_iff.1 h
  obtain ⟨_, rfl⟩ := oneBucket_bucketOf hb
  simpa using hitem

theorem oneBucket_valid (root : Int) : (oneBucket .uniform [0, 1] 0).Valid root where
  id_eq := fun item b h => by
    obtain ⟨rfl, rfl⟩ := oneBucket_bucketOf h
    rfl
  type_pos := fun item b h => by
    obtain ⟨rfl, rfl⟩ := oneBucket_bucketOf h
    exact zero_lt_one
  child := fun item b h c hc hneg => by
    obtain ⟨rfl, rfl⟩ := oneBucket_bucketOf h
    have hcases : c = 0 ∨ c = 1 := by simpa using hc
    omega
  acyclic := fun item h => by
    have hneg := Valid.lt_zero_of_below h
    have hcases := oneBucket_below h
    omega
  arrays := fun item b h _ => by
    obtain ⟨rfl, rfl⟩ := oneBucket_bucketOf h
    exact ⟨none, rfl, fun _ => trivial⟩

theorem oneBucket_workOk : (oneBucket .uniform [0, 1] 0).WorkOk [⟨0, 0, [0, 0]⟩] := by
  intro _ hb
  obtain ⟨_, rfl⟩ := oneBucket_bucketOf hb
  exact ⟨_, rfl, rfl, (fun h => by cases h), fun h => absurd rfl h⟩

theorem doRule_firstn_wellFormed_oneBucket :
    Returns (fun fuel => (oneBucket .uniform [0, 1] 0).doRule fuel 3 [0, 0, 0] [0, 0, 0]
        [0, 0, 0] [⟨0, 0, [0, 0]⟩] [.take (-1), .choose true true 0 0, .emit])
      fun S => FirstnOk (oneBucket .uniform [0, 1] 0) (-1) 0 0 true 3 S.result :=
  doRule_firstn_wellFormed (oneBucket_valid (-1))
    ⟨le_refl 0, fun h => absurd h (lt_irrefl 0), by decide, by decide, by decide⟩
    oneBucket_workOk (by decide) rfl rfl rfl 0 0

section

variable (A : FirstnArgs) (hlocal : A.localRetries = 2 ^ 32 - 1)
  (hfallback : A.localFallbackRetries = 0) (htype : A.type = 0)

include A hlocal hfallback htype

/-- With `choose_local_tries` all ones, a collision that every draw meets is retried
forever. -/
theorem firstnTry_endless (wb : WorkBucket) (rep parentR : Int) (count : Nat) (out2 : List Int)
    (fuel ftotal flocal : Nat) :
    (oneBucket .other [0] (2 ^ 32 - 1)).firstnTry A none ⟨-1, 1, .other, 0, [0]⟩ rep parentR
      [0, 0] 1 count fuel ⟨-1, 1, .other, 0, [0]⟩ ftotal flocal [wb] out2 = .error .fuel := by
  induction fuel generalizing ftotal flocal with
  | zero => rfl
  | succ fuel ih =>
    have hattempt : (oneBucket .other [0] (2 ^ 32 - 1)).firstnAttempt A none fuel rep parentR
        [0, 0] 1 count ⟨-1, 1, .other, 0, [0]⟩ ftotal flocal [wb] out2 =
        .ok (.again true, [wb], out2) := by
      unfold firstnAttempt
      rw [hfallback, htype]
      rfl
    rw [firstnTry, hattempt]
    refine (if_pos ⟨rfl, ?_⟩).trans (ih _ _)
    omega

/-- The second of two replicas never ends. -/
theorem chooseFirstn_endless (hstable : A.stable = 1) (wb : WorkBucket) (out2 : List Int)
    (fuel : Nat) :
    (oneBucket .other [0] (2 ^ 32 - 1)).chooseFirstn A false fuel ⟨-1, 1, .other, 0, [0]⟩ 2 0
      [wb] [0, 0] 0 2 out2 = .error .fuel := by
  cases fuel with
  | zero =>
    unfold chooseFirstn firstnWith
    rw [hstable]
    rfl
  | succ fuel =>
    have hfirst : (oneBucket .other [0] (2 ^ 32 - 1)).firstnTry A none
        ⟨-1, 1, .other, 0, [0]⟩ 0 0 [0, 0] 0 2 (fuel + 1) ⟨-1, 1, .other, 0, [0]⟩ 0 0 [wb]
        out2 = .ok (some 0, [wb], out2) := by
      unfold firstnTry firstnAttempt
      rw [hfallback, htype]
      rfl
    have hsecond := firstnTry_endless A hlocal hfallback htype wb 1 0 1 out2 (fuel + 1) 0 0
    unfold chooseFirstn firstnWith
    rw [hstable]
    show (oneBucket .other [0] (2 ^ 32 - 1)).firstnReps A none (fuel + 1) _ 0 2 0 0 2 _ _ _ = _
    rw [firstnReps, hfirst]
    show (oneBucket .other [0] (2 ^ 32 - 1)).firstnReps A none (fuel + 1) _ 0 1 1 1 1 _ _ _ = _
    show (firstnTry _ A none _ 1 0 [0, 0] 1 1 (fuel + 1) _ 0 0 [wb] out2 >>= _) = _
    rw [hsecond]
    rfl

end

/-- A device is its own leaf, with no item of type 0 above it.  Without room for a result the
first step writes outside of the working vector; with `choose_local_tries` all ones a second
replica in a bucket with one device never ends; and in a tree bucket of three items without
weight the walk ends at a node without item. -/
theorem doRule_firstn_faults :
    ((∃ S, (oneBucket .uniform [0, 1] 0).doRule 2 1 [0] [0] [0] [⟨0, 0, [0, 0]⟩]
      [.take (-1), .choose true true 1 0, .emit] = .ok S ∧ S.result = [0]) ∧
      ∀ item, (oneBucket .uniform [0, 1] 0).map.itemType item = .ok 0 →
        ¬ (oneBucket .uniform [0, 1] 0).map.Below item 0) ∧
    (∀ fuel, (oneBucket .uniform [0, 1] 0).doRule fuel 0 [] [] [] [⟨0, 0, [0, 0]⟩]
      [.take (-1), .choose true false 2 0, .emit] = .error .bounds) ∧
    (∀ fuel, (oneBucket .other [0] (2 ^ 32 - 1)).doRule fuel 2 [0, 0] [0, 0] [0, 0]
      [⟨0, 0, [0]⟩] [.take (-1), .choose true false 2 0, .emit] = .error .fuel) ∧
    (∀ fuel, (oneBucket (.tree 8 [0, 0, 0, 0, 0, 0, 0, 0]) [0, 1, 2] 0).doRule (fuel + 1) 2
      [0, 0] [0, 0] [0, 0] [⟨0, 0, [0, 0, 0]⟩] [.take (-1), .choose true false 2 0, .emit] =
      .error .bounds) := by
  refine ⟨⟨⟨_, rfl, rfl⟩, fun item htype hbelow => ?_⟩, fun _ => rfl, fun fuel => ?_, fun _ => rfl⟩
  · obtain ⟨_, ⟨b, hb, -⟩, -⟩ := head'_iff.1 hbelow
    obtain ⟨rfl, -⟩ := oneBucket_bucketOf hb
    cases htype
  show (ruleChoose _ fuel 2 _ true false 2 0 >>= _) = _
  rw [ruleChoose_one rfl]
  show (((chooseFirstn _ _ false fuel _ 2 0 [⟨0, 0, [0]⟩] [0, 0] 0 2 [0, 0] >>= _) >>= _) >>= _) = _
  rw [chooseFirstn_endless _ rfl rfl rfl rfl]
  rfl

/-! ## indep -/

section Indep

variable {root n type : Int} {recurse : Bool} {S : RuleState} {top : Bucket}

variable {T : IndepState} {left : Nat} {out₀ : List Int}

end Indep

end Input

end Ceph.Crush
