import Ceph.Common.HObject
import Ceph.Lib.Omap
import Ceph.Lib.Run

set_option autoImplicit false

/-!
# The snap mapper (osd/SnapMapper.cc)

For the objects of one PG the mapper keeps, in one ordered key-value store, the
set of snaps of each object under an `OBJ_` key and, for each snap of the set, an
entry under a `SNA_` key that starts with the snap.  Trimming a snap walks the
`SNA_` keys of the snap by the hash prefixes of the PG.
-/

namespace Ceph.Osd

open Ceph.Lib List
open Ceph.Common

/-! ## Data -/

/-- `set<snapid_t>`: the snap ids in increasing order. -/
structure SnapSet where
  elems : List Nat
  sorted : elems.Pairwise (· < ·)
  lt : ∀ s ∈ elems, s < 2 ^ 64
  deriving DecidableEq

instance : Membership Nat SnapSet := ⟨fun S s => s ∈ S.elems⟩

/-- What is stored under a key: `object_snaps` or `Mapping`. -/
inductive SnapValue where
  | objectSnaps (oid : HObject) (snaps : SnapSet)
  | mapping (snap : Nat) (hoid : HObject)
  deriving DecidableEq

abbrev SnapStore := Omap (List Char) SnapValue

/-- The parameters of a mapper.  `NO_SHARD` is `none`. -/
structure SnapMapper where
  maskBits : Nat
  mask : Nat
  pool : Int64
  shard : Option Nat
  bits_lt : maskBits < 32

def enoent : Int := -2

/-! ## Keys -/

def mappingPrefix : List Char := ['S', 'N', 'A', '_']

def objectPrefix : List Char := ['O', 'B', 'J', '_']

/-- `get_prefix`: the snap is cast to `unsigned` before it is printed. -/
def getPrefix (pool : Int64) (snap : Nat) : List Char :=
  mappingPrefix ++ (signedDecimal pool.toInt ++ '_' :: (fixedHex true 16 (snap % 2 ^ 32) ++ ['_']))

namespace SnapMapper

variable (M : SnapMapper)

/-- `make_shard_prefix`. -/
def shardPrefix : List Char :=
  match M.shard with
  | none => []
  | some shard => '.' :: (plainHex false 8 shard ++ ['_'])

def toRawKey (snap : Nat) (hoid : HObject) : List Char :=
  getPrefix hoid.pool snap ++ (M.shardPrefix ++ hoid.toStr)

def isMapping (k : List Char) : Bool := mappingPrefix.isPrefixOf k

def toObjectKey (hoid : HObject) : List Char := objectPrefix ++ (M.shardPrefix ++ hoid.toStr)

/-- `update_bits`: the set of prefixes, in order. -/
def prefixes : List (List Char) :=
  (((getPrefixes M.maskBits M.mask M.pool).foldl
    (fun (s : Omap (List Char) Unit) i => s.set (M.shardPrefix ++ i) ()) Omap.empty).entries).map
      Prod.fst

def check (hoid : HObject) : Bool := matchHash hoid.hash M.maskBits M.mask

/-! ## Operations

`none` is a failed assertion.  The transaction of an operation is applied to the
store in the order in which the operation fills it; `osd_debug_verify_snaps` is
off, as it is by default. -/

variable (M : SnapMapper)

variable (store : SnapStore)

/-- `get_snaps`: the inner `none` is `-ENOENT`. -/
def getSnaps (oid : HObject) : Option (Option SnapSet) :=
  if M.check oid then
    match store.get? (M.toObjectKey oid) with
    | some (.objectSnaps _ snaps) => some (some snaps)
    | some (.mapping _ _) => none
    | none => some none
  else none

def rawKeys (oid : HObject) (snaps : List Nat) : List (List Char) :=
  snaps.map fun s => M.toRawKey s oid

/-- `remove_oid`. -/
def removeOid (oid : HObject) : Option (SnapStore × Int) :=
  (M.getSnaps store oid).map fun out =>
    match out with
    | none => (store, enoent)
    | some snaps =>
      ((store.erase (M.toObjectKey oid)).eraseAll (M.rawKeys oid snaps.elems), 0)

/-- `map::insert` for each snap: an entry that is there already stays. -/
def toAdd (oid : HObject) (snaps : List Nat) : SnapStore :=
  snaps.foldl (fun m s =>
    match m.get? (M.toRawKey s oid) with
    | some _ => m
    | none => m.set (M.toRawKey s oid) (.mapping s oid)) Omap.empty

/-- The start of `add_oid`: snaps that are mapped already are removed. -/
def dropExisting (oid : HObject) : Option SnapStore :=
  (M.getSnaps store oid).bind fun out =>
    match out with
    | none => some store
    | some _ => (M.removeOid store oid).map Prod.fst

/-- `add_oid`. -/
def addOid (oid : HObject) (snaps : SnapSet) : Option SnapStore :=
  if snaps.elems = [] then none
  else
    (M.dropExisting store oid).map fun (store : SnapStore) =>
      (store.set (M.toObjectKey oid) (.objectSnaps oid snaps)).setAll (M.toAdd oid snaps.elems)

/-- `update_snaps`. -/
def updateSnaps (oid : HObject) (newSnaps : SnapSet)
    (oldSnapsCheck : Option (List Nat)) : Option (SnapStore × Int) :=
  if M.check oid then
    if newSnaps.elems = [] then M.removeOid store oid
    else
      (M.getSnaps store oid).bind fun r =>
        let out := (r.map SnapSet.elems).getD []
        if oldSnapsCheck = none ∨ oldSnapsCheck = some out then
          some ((store.set (M.toObjectKey oid) (.objectSnaps oid newSnaps)).eraseAll
            (M.rawKeys oid (out.filter fun s => !newSnaps.elems.contains s)), 0)
        else none
  else none

/-! ## Trimming -/

/-- The inner loop of `get_next_objects_to_trim`, with the last return value of
`get_next`. -/
def trimLoop (store : SnapStore) (snap max : Nat) (prefixKey : List Char) :
    Nat → List Char → List HObject → Option (List HObject × Int)
  | 0, _, _ => none
  | fuel + 1, pos, out =>
    if out.length < max then
      match store.upperBound pos with
      | none => some (out, enoent)
      | some (k, v) =>
        if prefixKey.isPrefixOf k then
          if isMapping k then
            match v with
            | .objectSnaps _ _ => none
            | .mapping s hoid =>
              if s = snap ∧ M.check hoid then
                trimLoop store snap max prefixKey fuel k (out ++ [hoid])
              else none
          else none
        else some (out, 0)
    else some (out, 0)

/-- The outer loop. -/
def trimPrefixes (store : SnapStore) (snap max : Nat) :
    List (List Char) → List HObject → Int → Option (List HObject)
  | [], out, _ => some out
  | i :: rest, out, r =>
    if out.length < max ∧ r = 0 then
      let prefixKey := getPrefix M.pool snap ++ i
      match M.trimLoop store snap max prefixKey (max + 1) prefixKey out with
      | none => none
      | some (out, r) => trimPrefixes store snap max rest out r
    else some out

/-- `get_next_objects_to_trim`: the objects and the return value. -/
def getNextObjectsToTrim (snap max : Nat) : Option (List HObject × Int) :=
  if 0 < max then
    (M.trimPrefixes store snap max M.prefixes [] 0).map fun out =>
      (out, if out.length = 0 then enoent else 0)
  else none

end SnapMapper

/-! ## The two directions of the snap mapper agree

Every operation replaces what is stored for one object.  The `SNA_` keys of one
object are different for snaps that differ in their low 32 bits, so in runs that
keep to such sets of snaps the entries under `SNA_` keys are exactly those of the
sets stored under `OBJ_` keys. -/

open Option Omap

/-! ## Keys -/

theorem underscore_notMem_signedDecimal (n : Int) : '_' ∉ signedDecimal n := by
  intro h
  obtain heq | hdigit := mem_signedDecimal h
  · exact absurd heq (by decide)
  · exact absurd hdigit (by decide)

theorem getPrefix_append (pool : Int64) (snap : Nat) (rest : List Char) :
    getPrefix pool snap ++ rest = mappingPrefix ++ (signedDecimal pool.toInt ++
      '_' :: (fixedHex true 16 (snap % 2 ^ 32) ++ '_' :: rest)) := by
  simp [getPrefix]

theorem mod_lt_pow (snap : Nat) : snap % 2 ^ 32 < 16 ^ 16 :=
  (Nat.mod_lt _ (Nat.two_pow_pos 32)).trans (by decide)

namespace SnapMapper

variable {M : SnapMapper} {store store' : SnapStore} {o o' : HObject} {s t : Nat}

theorem toObjectKey_inj (h : M.toObjectKey o = M.toObjectKey o') : o = o' :=
  toStr_injective (append_cancel_left (append_cancel_left h))

/-- A `SNA_` key determines its object and the low 32 bits of its snap. -/
theorem toRawKey_inj (h : M.toRawKey s o = M.toRawKey t o') : o = o' ∧ s % 2 ^ 32 = t % 2 ^ 32 := by
  rw [toRawKey, toRawKey, getPrefix_append, getPrefix_append] at h
  obtain ⟨_, h⟩ := separator_inj (underscore_notMem_signedDecimal _)
    (underscore_notMem_signedDecimal _) (append_cancel_left h)
  obtain ⟨hsnap, h⟩ := append_inj h (by rw [length_fixedHex, length_fixedHex])
  have hstr := append_cancel_left (tail_eq_of_cons_eq h)
  exact ⟨toStr_injective hstr, (fixedHex_inj (mod_lt_pow s) (mod_lt_pow t)).1 hsnap⟩

theorem toRawKey_congr (h : s % 2 ^ 32 = t % 2 ^ 32) : M.toRawKey s o = M.toRawKey t o := by
  rw [toRawKey, toRawKey, getPrefix, getPrefix, h]

theorem toObjectKey_ne_toRawKey : M.toObjectKey o ≠ M.toRawKey s o' := by
  intro h
  exact absurd (head_eq_of_cons_eq h) (by decide)

/-! ## What is stored -/

/-- The set stored under the `OBJ_` key of an object. -/
def snapsOf (M : SnapMapper) (store : SnapStore) (o : HObject) : Option SnapSet :=
  match store.get? (M.toObjectKey o) with
  | some (.objectSnaps _ snaps) => some snaps
  | _ => none

/-- An object of the PG of the mapper. -/
def InPg (M : SnapMapper) (o : HObject) : Prop := o.pool = M.pool ∧ M.check o = true

/-- The snaps differ in their low 32 bits. -/
def Distinct (snaps : SnapSet) : Prop := ∀ s ∈ snaps, ∀ t ∈ snaps, s % 2 ^ 32 = t % 2 ^ 32 → s = t

/-- The entries are those of the sets stored, and nothing else. -/
structure Consistent (M : SnapMapper) (store : SnapStore) : Prop where
  objects : ∀ k oid snaps, store.get? k = some (.objectSnaps oid snaps) →
    k = M.toObjectKey oid ∧ M.InPg oid ∧ Distinct snaps
  mappings : ∀ k s o, store.get? k = some (.mapping s o) →
    k = M.toRawKey s o ∧ ∃ snaps, M.snapsOf store o = some snaps ∧ s ∈ snaps
  present : ∀ o snaps, M.snapsOf store o = some snaps → ∀ s ∈ snaps,
    store.get? (M.toRawKey s o) = some (.mapping s o)

variable {snaps : SnapSet} {new : Option SnapSet}

theorem get?_of_snapsOf (h : M.Consistent store) (hs : M.snapsOf store o = some snaps) :
    store.get? (M.toObjectKey o) = some (.objectSnaps o snaps) := by
  rw [snapsOf] at hs
  split at hs
  next _ _ hget =>
    cases hs
    rw [hget, toObjectKey_inj (h.objects _ _ _ hget).1]
  next => cases hs

namespace Consistent

/-- The `SNA_` key of a snap and an object holds them iff the snap is in the set
stored for the object. -/
theorem mapping_iff (h : M.Consistent store) (s : Nat) (o : HObject) :
    store.get? (M.toRawKey s o) = some (.mapping s o) ↔
      ∃ snaps, M.snapsOf store o = some snaps ∧ s ∈ snaps := by
  constructor
  · intro hget
    exact (h.mappings _ _ _ hget).2
  · rintro ⟨snaps, hsnaps, hs⟩
    exact h.present o snaps hsnaps s hs

/-- What is found under a `SNA_` key of an object is one of its snaps. -/
theorem get?_toRawKey (h : M.Consistent store) {v : SnapValue}
    (hget : store.get? (M.toRawKey s o) = some v) :
    ∃ t snaps, v = .mapping t o ∧ t % 2 ^ 32 = s % 2 ^ 32 ∧
      M.snapsOf store o = some snaps ∧ t ∈ snaps := by
  cases v with
  | objectSnaps => exact absurd (h.objects _ _ _ hget).1.symm toObjectKey_ne_toRawKey
  | mapping t =>
    obtain ⟨hkey, snaps, hsnaps, ht⟩ := h.mappings _ _ _ hget
    obtain ⟨rfl, hmod⟩ := toRawKey_inj hkey
    exact ⟨t, snaps, rfl, hmod.symm, hsnaps, ht⟩

theorem inPg (h : M.Consistent store) (hs : M.snapsOf store o = some snaps) :
    M.InPg o ∧ Distinct snaps := (h.objects _ _ _ (get?_of_snapsOf h hs)).2

theorem empty : M.Consistent empty where
  objects := fun _ _ _ h => by cases h
  mappings := fun _ _ _ h => by cases h
  present := fun _ _ h => by cases h

end Consistent

/-! ## Replacing the snaps of one object -/

/-- `store'` is `store` with the snaps of `o` replaced by `new`. -/
structure Replaced (M : SnapMapper) (store store' : SnapStore) (o : HObject)
    (new : Option SnapSet) : Prop where
  at_object : store'.get? (M.toObjectKey o) = new.map (.objectSnaps o)
  at_snap : ∀ snaps, new = some snaps → ∀ s ∈ snaps,
    store'.get? (M.toRawKey s o) = some (.mapping s o)
  gone : ∀ s, (∀ snaps, new = some snaps → ∀ t ∈ snaps, M.toRawKey t o ≠ M.toRawKey s o) →
    store'.get? (M.toRawKey s o) = none
  other : ∀ k, k ≠ M.toObjectKey o → (∀ s, k ≠ M.toRawKey s o) → store'.get? k = store.get? k

section

variable (h : M.Replaced store store' o new)

include h

theorem Replaced.snapsOf_self : M.snapsOf store' o = new := by
  rw [snapsOf, h.at_object]
  cases new <;> rfl

theorem Replaced.snapsOf_of_ne (hne : o' ≠ o) : M.snapsOf store' o' = M.snapsOf store o' := by
  rw [snapsOf, snapsOf, h.other _ (fun heq => hne (toObjectKey_inj heq))
    fun s => toObjectKey_ne_toRawKey]

/-- What is found after the snaps of an object were replaced. -/
theorem Replaced.get?_cases {k : List Char} {v : SnapValue} (hget : store'.get? k = some v) :
    (∃ snaps, new = some snaps ∧ k = M.toObjectKey o ∧ v = .objectSnaps o snaps) ∨
      (∃ snaps, new = some snaps ∧ ∃ s ∈ snaps, k = M.toRawKey s o ∧ v = .mapping s o) ∨
      ((∀ s, k ≠ M.toRawKey s o) ∧ store.get? k = some v) := by
  by_cases hobj : k = M.toObjectKey o
  · rw [hobj, h.at_object] at hget
    obtain ⟨snaps, hsnaps, rfl⟩ := map_eq_some_iff.1 hget
    exact .inl ⟨snaps, hsnaps, hobj, rfl⟩
  by_cases hraw : ∃ s, k = M.toRawKey s o
  · obtain ⟨s, rfl⟩ := hraw
    by_cases hnew : ∃ snaps, new = some snaps ∧ ∃ t ∈ snaps, M.toRawKey t o = M.toRawKey s o
    · obtain ⟨S, hS, t, ht, hkey⟩ := hnew
      rw [← hkey, h.at_snap S hS t ht] at hget
      exact .inr (.inl ⟨S, hS, t, ht, hkey.symm, (some.inj hget).symm⟩)
    · rw [h.gone s fun S hS t ht hkey => hnew ⟨S, hS, t, ht, hkey⟩] at hget
      cases hget
  · have hraw : ∀ s, k ≠ M.toRawKey s o := fun s hs => hraw ⟨s, hs⟩
    exact .inr (.inr ⟨hraw, by rw [← h.other k hobj hraw, hget]⟩)

/-- Replacing keeps the two directions in agreement. -/
theorem Replaced.consistent (hc : M.Consistent store) (hin : M.InPg o)
    (hnew : ∀ snaps, new = some snaps → Distinct snaps) : M.Consistent store' where
  objects := by
    intro k oid snaps hget
    obtain ⟨S, hS, hkey, heq⟩ | ⟨S, _, s, _, _, heq⟩ | ⟨_, hold⟩ := h.get?_cases hget
    · obtain ⟨rfl, rfl⟩ := SnapValue.objectSnaps.inj heq
      exact ⟨hkey, hin, hnew _ hS⟩
    · cases heq
    · exact hc.objects k oid snaps hold
  mappings := by
    intro k s o' hget
    obtain ⟨S, _, _, heq⟩ | ⟨S, hS, t, ht, hkey, heq⟩ | ⟨hraw, hold⟩ := h.get?_cases hget
    · cases heq
    · obtain ⟨rfl, rfl⟩ := SnapValue.mapping.inj heq
      exact ⟨hkey, S, h.snapsOf_self.trans hS, ht⟩
    · obtain ⟨hkey, snaps, hsnaps, hs⟩ := hc.mappings k s o' hold
      have hne : o' ≠ o := by
        rintro rfl
        exact hraw s hkey
      exact ⟨hkey, snaps, (h.snapsOf_of_ne hne).trans hsnaps, hs⟩
  present := by
    intro o' snaps hsnaps s hs
    obtain heq | hne := em (o' = o)
    · subst heq
      rw [h.snapsOf_self] at hsnaps
      exact h.at_snap snaps hsnaps s hs
    · rw [h.snapsOf_of_ne hne] at hsnaps
      rw [h.other _ (fun heq => toObjectKey_ne_toRawKey heq.symm)
        fun t heq => hne (toRawKey_inj heq).1]
      exact hc.present o' snaps hsnaps s hs

end

/-! ## The operations replace -/

theorem getSnaps_eq (hcheck : M.check o = true) (hc : M.Consistent store) :
    M.getSnaps store o = some (M.snapsOf store o) := by
  rw [getSnaps, if_pos hcheck, snapsOf]
  cases hget : store.get? (M.toObjectKey o) with
  | none => rfl
  | some v =>
    cases v with
    | objectSnaps => rfl
    | mapping => exact absurd (hc.mappings _ _ _ hget).1 toObjectKey_ne_toRawKey

theorem mem_elems : s ∈ snaps.elems ↔ s ∈ snaps := Iff.rfl

theorem mem_rawKeys {snaps : List Nat} {k : List Char} :
    k ∈ M.rawKeys o snaps ↔ ∃ s ∈ snaps, k = M.toRawKey s o := by
  simp only [rawKeys, List.mem_map, eq_comm]

/-- The entry of an object is written anew, and those of its old snaps that are not in
the new set are erased. -/
theorem Consistent.replaced (hc : M.Consistent store) {old : SnapSet} {base : SnapStore}
    {ks : List (List Char)} (hold : M.snapsOf store o = some old)
    (hsub : ∀ S, new = some S → ∀ s ∈ S, s ∈ old)
    (hobj : base.get? (M.toObjectKey o) = new.map (.objectSnaps o))
    (hbase : ∀ k, k ≠ M.toObjectKey o → base.get? k = store.get? k)
    (hks : ∀ k, k ∈ ks ↔ ∃ s ∈ old, (∀ S, new = some S → s ∉ S) ∧ k = M.toRawKey s o) :
    M.Replaced store (base.eraseAll ks) o new := by
  refine ⟨?_, ?_, ?_, ?_⟩
  · have hnot : M.toObjectKey o ∉ ks := by
      rw [hks]
      rintro ⟨s, _, _, heq⟩
      exact toObjectKey_ne_toRawKey heq
    rw [get?_eraseAll_of_notMem hnot, hobj]
  · intro S hS s hs
    -- the key of a snap that stays is not the key of one that goes
    have hnot : M.toRawKey s o ∉ ks := by
      rw [hks]
      rintro ⟨t, ht, htn, heq⟩
      exact htn S hS ((hc.inPg hold).2 s (hsub S hS s hs) t ht (toRawKey_inj heq).2 ▸ hs)
    rw [get?_eraseAll_of_notMem hnot, hbase _ toObjectKey_ne_toRawKey.symm]
    exact hc.present o old hold s (hsub S hS s hs)
  · intro s hs
    rw [get?_eraseAll]
    obtain hin | hnot := em (M.toRawKey s o ∈ ks)
    · exact if_pos hin
    · refine (if_neg hnot).trans ?_
      rw [hbase _ toObjectKey_ne_toRawKey.symm]
      cases hget : store.get? (M.toRawKey s o) with
      | none => rfl
      | some =>
        -- an entry there would be one of the snaps erased
        obtain ⟨t, snaps, _, hmod, hsnaps, ht⟩ := hc.get?_toRawKey hget
        obtain rfl : snaps = old := some.inj (hsnaps.symm.trans hold)
        refine absurd ((hks _).2 ⟨t, ht, fun S hS htn => ?_, toRawKey_congr hmod.symm⟩) hnot
        exact hs S hS t htn (toRawKey_congr hmod)
  · intro k hobj hraw
    have hnot : k ∉ ks := by
      rw [hks]
      rintro ⟨s, _, _, heq⟩
      exact hraw s heq
    rw [get?_eraseAll_of_notMem hnot, hbase k hobj]

/-- `remove_oid`. -/
theorem Consistent.removeOid (hc : M.Consistent store) (hcheck : M.check o = true) :
    ∃ store' r, M.removeOid store o = some (store', r) ∧ M.Replaced store store' o none := by
  rw [SnapMapper.removeOid, getSnaps_eq hcheck hc]
  cases hs : M.snapsOf store o with
  | some =>
    refine ⟨_, _, rfl, hc.replaced hs (by simp) ?_ (fun k hk => ?_) fun k => ?_⟩
    · rw [get?_erase, if_pos rfl]
      rfl
    · rw [get?_erase, if_neg hk]
    · simp [mem_rawKeys, mem_elems]
  | none =>
    -- nothing is stored for the object
    have hobj : store.get? (M.toObjectKey o) = none := by
      cases hget : store.get? (M.toObjectKey o) with
      | none => rfl
      | some v =>
        rw [snapsOf, hget] at hs
        cases v with
        | objectSnaps => cases hs
        | mapping => exact absurd (hc.mappings _ _ _ hget).1 toObjectKey_ne_toRawKey
    have hraw : ∀ s, store.get? (M.toRawKey s o) = none := by
      intro s
      cases hget : store.get? (M.toRawKey s o) with
      | none => rfl
      | some =>
        obtain ⟨_, _, _, _, hsnaps, _⟩ := hc.get?_toRawKey hget
        rw [hs] at hsnaps
        cases hsnaps
    exact ⟨store, _, rfl, hobj, (fun _ h => by cases h), fun s _ => hraw s, fun _ _ _ => rfl⟩

/-- The entries to add are those of the snaps, which have different keys. -/
theorem get?_toAdd (hd : Distinct snaps) :
    (∀ s ∈ snaps, (M.toAdd o snaps.elems).get? (M.toRawKey s o) = some (.mapping s o)) ∧
      ∀ k, (∀ s ∈ snaps, k ≠ M.toRawKey s o) → (M.toAdd o snaps.elems).get? k = none := by
  have hkeys : snaps.elems.Pairwise fun s t => M.toRawKey s o ≠ M.toRawKey t o := by
    refine snaps.sorted.imp_of_mem fun {s t} hs ht hlt heq => ?_
    exact absurd (hd s hs t ht (toRawKey_inj heq).2) hlt.ne
  refine get?_foldl_of_fresh (fun m s hnone => ?_) snaps.elems empty hkeys fun _ _ => rfl
  rw [hnone]

/-- `add_oid`. -/
theorem Consistent.addOid (hc : M.Consistent store) (hcheck : M.check o = true)
    (hne : snaps.elems ≠ []) (hd : Distinct snaps) :
    ∃ store', M.addOid store o snaps = some store' ∧ M.Replaced store store' o (some snaps) := by
  -- whatever was there is dropped first
  have hdrop : ∃ store₁, M.dropExisting store o = some store₁ ∧ M.Replaced store store₁ o none := by
    obtain ⟨store₁, _, hremove, hrep⟩ := hc.removeOid hcheck
    rw [dropExisting, getSnaps_eq hcheck hc, bind_some]
    cases hs : M.snapsOf store o with
    | some => exact ⟨store₁, by rw [hremove, map_some], hrep⟩
    | none =>
      rw [SnapMapper.removeOid, getSnaps_eq hcheck hc, hs] at hremove
      obtain rfl : store = store₁ := congrArg Prod.fst (some.inj hremove)
      exact ⟨store, rfl, hrep⟩
  obtain ⟨store₁, hdrop, hrep⟩ := hdrop
  obtain ⟨hadd, hnot⟩ := get?_toAdd hd
  refine ⟨_, by rw [SnapMapper.addOid, if_neg hne, hdrop, map_some], ?_, ?_, ?_, ?_⟩
  · rw [get?_setAll, hnot _ fun s _ => toObjectKey_ne_toRawKey, get?_set, if_pos rfl]
    rfl
  · intro _ hS s hs
    cases hS
    rw [get?_setAll, hadd s hs, some_or]
  · intro s hs
    have hnone := hnot (M.toRawKey s o) fun t ht heq => hs snaps rfl t ht heq.symm
    rw [get?_setAll, hnone, get?_set]
    exact hrep.gone s fun _ h => by cases h
  · intro k hobj hraw
    rw [get?_setAll, hnot k fun s _ => hraw s, get?_set, if_neg hobj]
    exact hrep.other k hobj hraw

/-- `update_snaps` with a part of the snaps stored. -/
theorem Consistent.updateSnaps (hc : M.Consistent store) (hcheck : M.check o = true)
    {old new : SnapSet} (hold : M.snapsOf store o = some old) (hne : new.elems ≠ [])
    (hsub : ∀ s ∈ new, s ∈ old) {chk : Option (List Nat)}
    (hchk : chk = none ∨ chk = some old.elems) :
    ∃ store' r, M.updateSnaps store o new chk = some (store', r) ∧
      M.Replaced store store' o (some new) := by
  rw [SnapMapper.updateSnaps, if_pos hcheck, if_neg hne, getSnaps_eq hcheck hc, hold]
  refine ⟨_, 0, if_pos hchk, hc.replaced hold (by simpa using hsub) ?_ (fun k hk => ?_) fun k => ?_⟩
  · rw [get?_set, if_pos rfl]
    rfl
  · rw [get?_set, if_neg hk]
  · simp [mem_rawKeys, mem_elems, and_assoc]

/-! ## Runs -/

/-- An operation of the mapper. -/
inductive Op where
  | addOid (oid : HObject) (snaps : SnapSet)
  | updateSnaps (oid : HObject) (newSnaps : SnapSet) (oldSnapsCheck : Option (List Nat))
  | removeOid (oid : HObject)

def step (M : SnapMapper) (store : SnapStore) : Op → Option SnapStore
  | .addOid oid snaps => M.addOid store oid snaps
  | .updateSnaps oid new chk => (M.updateSnaps store oid new chk).map Prod.fst
  | .removeOid oid => (M.removeOid store oid).map Prod.fst

/-- How the operations are used: on objects of the PG, with snaps to add, and
updates that keep a part of the snaps stored. -/
def Allowed (M : SnapMapper) (store : SnapStore) : Op → Prop
  | .addOid oid snaps => M.InPg oid ∧ snaps.elems ≠ []
  | .updateSnaps oid new chk => M.InPg oid ∧ new.elems ≠ [] ∧
      ∃ old, M.snapsOf store oid = some old ∧ (∀ s ∈ new, s ∈ old) ∧
        (chk = none ∨ chk = some old.elems)
  | .removeOid oid => M.InPg oid

/-- The snaps that are added for an object differ in their low 32 bits. -/
def AddsDistinct : Op → Prop
  | .addOid _ snaps => Distinct snaps
  | _ => True

/-- An operation used so returns and keeps the two directions in agreement. -/
theorem Consistent.step (hc : M.Consistent store) {op : Op} (hop : M.Allowed store op)
    (hd : AddsDistinct op) : ∃ store', M.step store op = some store' ∧ M.Consistent store' := by
  cases op with
  | addOid =>
    obtain ⟨hin, hne⟩ := hop
    obtain ⟨store', hadd, hrep⟩ := hc.addOid hin.2 hne hd
    refine ⟨store', hadd, hrep.consistent hc hin fun S hS => ?_⟩
    cases hS
    exact hd
  | updateSnaps =>
    obtain ⟨hin, hne, _, hold, hsub, hchk⟩ := hop
    obtain ⟨store', r, hupdate, hrep⟩ := hc.updateSnaps hin.2 hold hne hsub hchk
    refine ⟨store', by rw [SnapMapper.step, hupdate, map_some],
      hrep.consistent hc hin fun S hS => ?_⟩
    cases hS
    have hdold := (hc.inPg hold).2
    exact fun s hs t ht => hdold s (hsub s hs) t (hsub t ht)
  | removeOid =>
    obtain ⟨store', r, hremove, hrep⟩ := hc.removeOid hop.2
    exact ⟨store', by rw [SnapMapper.step, hremove, map_some],
      hrep.consistent hc hop fun S hS => by cases hS⟩

theorem Consistent.of_run
    (h : Run M.step (fun store op => M.Allowed store op ∧ AddsDistinct op) Omap.empty store) :
    M.Consistent store := by
  refine h.invariant Consistent.empty fun st op st' hc hok hstep => ?_
  obtain ⟨st'', hst'', hc'⟩ := hc.step hok.1 hok.2
  obtain rfl : st'' = st' := some.inj (hst''.symm.trans hstep)
  exact hc'

end SnapMapper

end Ceph.Osd
