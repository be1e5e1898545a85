import Ceph.Crush.Mapper
import Mathlib.Data.List.Nodup
import Mathlib.Data.List.Perm.Basic

set_option autoImplicit false

/-!
# The mapping of placement groups to OSDs

`OSDMap` edits the vector that CRUSH yields: OSDs that do not exist leave it, upmap exceptions
are applied, OSDs that are down leave it, and a primary is chosen among the others.  Replicated
pools close the gaps, erasure-coded pools keep the positions.
-/

namespace Ceph.Osd

open Ceph.Crush List

/-- `ceph_stable_mod`. -/
def stableMod (x b bmask : Nat) : Nat :=
  if x &&& bmask < b then x &&& bmask else x &&& (bmask >>> 1)

/-- `pg_t`. -/
structure Pg where
  pool : Int
  ps : Nat
  deriving DecidableEq, Repr

/-- What the mapping reads of a `pg_pool_t`.  `canShiftOsds` is `can_shift_osds`, true for
replicated pools. -/
structure PgPool where
  canShiftOsds : Bool
  pgNum : Nat
  pgNumMask : Nat
  pgpNum : Nat
  pgpNumMask : Nat
  hashPsPool : Bool

def PgPool.rawPgToPg (pool : PgPool) (pg : Pg) : Pg :=
  { pg with ps := stableMod pg.ps pool.pgNum pool.pgNumMask }

/-- What the mapping reads of an `OSDMap`.  `doRule` is what `do_rule` yields for a pool and a
placement seed, nothing if the pool has no rule.  The vectors are read below `maxOsd` only, which
is an `int`. -/
structure OsdMap where
  pools : Int → Option PgPool
  doRule : Int → Nat → List Int
  maxOsd : Int
  maxOsd_le : maxOsd ≤ itemNone
  osdExists : Int → Bool
  osdUp : Int → Bool
  osdWeight : Int → Nat
  primaryAffinity : Option (Int → Nat)
  pgUpmap : Pg → Option (List Int)
  pgUpmapItems : Pg → Option (List (Int × Int))
  pgTemp : Pg → Option (List Int)
  primaryTemp : Pg → Option Int

/-- `CEPH_OSD_DEFAULT_PRIMARY_AFFINITY`, and the maximum. -/
def defaultPrimaryAffinity : Nat := 0x10000

/-- `_pick_primary`. -/
def pickPrimary (osds : List Int) : Int := (osds.find? (· ≠ itemNone)).getD (-1)

namespace OsdMap

variable (h : Hash) (map : OsdMap) (pool : PgPool)

/-- `exists`. -/
def hasOsd (osd : Int) : Bool := 0 ≤ osd ∧ osd < map.maxOsd ∧ map.osdExists osd

/-- `is_up`. -/
def isUp (osd : Int) : Bool := map.hasOsd osd && map.osdUp osd

/-- `exists` and not `is_down`. -/
def isLive (osd : Int) : Bool := map.hasOsd osd && map.isUp osd

/-- The OSDs that are kept, without the others or with `NONE` in their place. -/
def keep (p : Int → Bool) (osds : List Int) : List Int :=
  if pool.canShiftOsds then osds.filter p else osds.map fun osd => if p osd then osd else itemNone

/-- `_remove_nonexistent_osds`. -/
def removeNonexistentOsds (osds : List Int) : List Int := keep pool map.hasOsd osds

/-- `raw_pg_to_pps`. -/
def rawPgToPps (pg : Pg) : Nat :=
  let ps := stableMod pg.ps pool.pgpNum pool.pgpNumMask
  if pool.hashPsPool then (h.hash32_2 hashRjenkins1 ps pg.pool).toNat
  else ((ps + pg.pool) % 2 ^ 32).toNat

/-- `_pg_to_raw_osds`. -/
def pgToRawOsds (pg : Pg) : List Int :=
  map.removeNonexistentOsds pool (map.doRule pg.pool (rawPgToPps h pool pg))

/-- An OSD that is marked out is no target of an upmap. -/
def markedOut (osd : Int) : Bool :=
  osd ≠ itemNone ∧ osd < map.maxOsd ∧ 0 ≤ osd ∧ map.osdWeight osd = 0

/-- The loop over `raw` for one pair of `pg_upmap_items`: the position to overwrite, if any. -/
def upmapPosition (r : Int × Int) : List Int → Nat → Option Nat → Option Nat
  | [], _, pos => pos
  | osd :: raw, i, pos =>
    if osd = r.2 then none
    else upmapPosition r raw (i + 1)
      (if osd = r.1 ∧ pos = none ∧ map.markedOut r.2 = false then some i else pos)

def applyUpmapItem (raw : List Int) (r : Int × Int) : List Int :=
  match map.upmapPosition r raw 0 none with
  | some pos => raw.set pos r.2
  | none => raw

/-- The second half of `_apply_upmap`. -/
def applyUpmapItems (pg : Pg) (raw : List Int) : List Int :=
  ((map.pgUpmapItems pg).getD []).foldl map.applyUpmapItem raw

/-- `_apply_upmap`. -/
def applyUpmap (rawPg : Pg) (raw : List Int) : List Int :=
  let pg := pool.rawPgToPg rawPg
  match map.pgUpmap pg with
  | some osds => if osds.any map.markedOut then raw else map.applyUpmapItems pg osds
  | none => map.applyUpmapItems pg raw

/-- `_raw_to_up_osds`. -/
def rawToUpOsds (raw : List Int) : List Int := keep pool map.isLive raw

/-- The loop of `_apply_primary_affinity` that looks for the primary: the first OSD that is not
rejected, else the first of all. -/
def affinityPosition (affinity : Int → Nat) (seed : Nat) : List Int → Nat → Option Nat → Option Nat
  | [], _, pos => pos
  | o :: osds, i, pos =>
    if o = itemNone then affinityPosition affinity seed osds (i + 1) pos
    else if affinity o < defaultPrimaryAffinity ∧
        affinity o ≤ (h.hash32_2 hashRjenkins1 seed o).toNat >>> 16 then
      affinityPosition affinity seed osds (i + 1) (pos.or (some i))
    else some i

/-- `_apply_primary_affinity`. -/
def applyPrimaryAffinity (seed : Nat) (osds : List Int) (primary : Int) : List Int × Int :=
  match map.primaryAffinity with
  | none => (osds, primary)
  | some affinity =>
    if osds.any fun osd => osd ≠ itemNone ∧ affinity osd ≠ defaultPrimaryAffinity then
      match affinityPosition h affinity seed osds 0 none with
      | none => (osds, primary)
      | some pos =>
        let primary := osds.getD pos itemNone
        (if pool.canShiftOsds ∧ 0 < pos then primary :: osds.eraseIdx pos else osds, primary)
    else (osds, primary)

/-- `_get_temp_osds`. -/
def getTempOsds (pg : Pg) : List Int × Int :=
  let pg := pool.rawPgToPg pg
  let temp := keep pool map.isLive ((map.pgTemp pg).getD [])
  (temp, (map.primaryTemp pg).getD (pickPrimary temp))

/-- `raw` of the two callers. -/
def rawUpmap (pg : Pg) : List Int := map.applyUpmap pool pg (map.pgToRawOsds h pool pg)

/-- `pg_to_raw_up`. -/
def pgToRawUp (pg : Pg) : List Int × Int :=
  match map.pools pg.pool with
  | none => ([], -1)
  | some pool =>
    let raw := map.rawUpmap h pool pg
    map.applyPrimaryAffinity h pool (rawPgToPps h pool pg) (map.rawToUpOsds pool raw)
      (pickPrimary raw)

/-- The four results of `_pg_to_up_acting_osds`, all asked for. -/
structure UpActing where
  up : List Int := []
  upPrimary : Int := -1
  acting : List Int := []
  actingPrimary : Int := -1

/-- `_pg_to_up_acting_osds`. -/
def pgToUpActingOsds (pg : Pg) (rawPgToPg : Bool) : UpActing :=
  match map.pools pg.pool with
  | none => {}
  | some pool =>
    if rawPgToPg = false ∧ pool.pgNum ≤ pg.ps then {}
    else
      let temp := map.getTempOsds pool pg
      let up := map.rawToUpOsds pool (map.rawUpmap h pool pg)
      let r := map.applyPrimaryAffinity h pool (rawPgToPps h pool pg) up (pickPrimary up)
      if temp.1 = [] then ⟨r.1, r.2, r.1, if temp.2 = -1 then r.2 else temp.2⟩
      else ⟨r.1, r.2, temp.1, temp.2⟩

end OsdMap

open OsdMap

/-! ## No OSD twice -/

/-- The OSDs of a vector, without the holes. -/
def real (osds : List Int) : List Int := osds.filter (· ≠ itemNone)

/-- No OSD is in the vector twice; `NONE` may be. -/
def Distinct (osds : List Int) : Prop := (real osds).Nodup

section

variable {map : OsdMap} {pool : PgPool} {osds raw : List Int} {p : Int → Bool} {o : Int}

theorem mem_real : o ∈ real osds ↔ o ∈ osds ∧ o ≠ itemNone := by
  rw [real, mem_filter, decide_eq_true_eq]

theorem pickPrimary_eq (osds : List Int) : pickPrimary osds = (real osds).head?.getD (-1) := by
  rw [pickPrimary, real, head?_filter]

theorem real_keep (hp : p itemNone = false) : real (keep pool p osds) = osds.filter p := by
  have hreal : ∀ o, p o = true → o ≠ itemNone := by
    rintro o ho rfl
    exact Bool.false_ne_true (hp.symm.trans ho)
  induction osds with
  | nil => cases hs : pool.canShiftOsds <;> simp [real, keep, hs]
  | cons o => cases hs : pool.canShiftOsds <;> cases ho : p o <;> simp_all [real, keep]

theorem Distinct.keep (hp : p itemNone = false) (h : Distinct osds) :
    Distinct (keep pool p osds) := by
  have hsub : osds.filter p = (real osds).filter p := by
    rw [real, filter_filter]
    refine filter_congr fun o _ => ?_
    by_cases ho : o = itemNone
    · simp [ho, hp]
    · simp [ho]
  rw [Distinct, real_keep hp, hsub]
  exact List.Nodup.filter p h

theorem Distinct.perm {osds' : List Int} (hperm : osds'.Perm osds) (h : Distinct osds) :
    Distinct osds' := (hperm.filter _).nodup_iff.2 h

theorem Distinct.set (h : Distinct osds) {v : Int} (hv : v ∉ osds) (k : Nat) :
    Distinct (osds.set k v) := by
  by_cases hk : k < osds.length
  · refine Distinct.perm (set_perm_cons_eraseIdx hk v) ?_
    have hrest : Distinct (osds.eraseIdx k) := ((eraseIdx_sublist osds k).filter _).nodup h
    rw [Distinct, real, filter_cons]
    split
    · exact nodup_cons.2 ⟨fun hin => hv (mem_of_mem_eraseIdx (mem_real.1 hin).1), hrest⟩
    · exact hrest
  · rwa [set_eq_of_length_le (Nat.le_of_not_lt hk)]

/-! ## Upmaps -/

theorem notMem_of_upmapPosition {r : Int × Int} {k i : Nat} {pos : Option Nat}
    (h : map.upmapPosition r raw i pos = some k) : r.2 ∉ raw := by
  induction raw generalizing i pos with
  | nil => exact not_mem_nil
  | cons _ _ ih =>
    rw [upmapPosition] at h
    split at h
    · cases h
    next hne => exact not_mem_cons_of_ne_of_not_mem (Ne.symm hne) (ih h)

theorem Distinct.applyUpmapItems (pg : Pg) (h : Distinct raw) :
    Distinct (map.applyUpmapItems pg raw) := by
  rw [OsdMap.applyUpmapItems]
  refine foldlRecOn _ _ h fun v hv r _ => ?_
  rw [applyUpmapItem]
  split
  next pos hpos => exact hv.set (notMem_of_upmapPosition hpos) pos
  next => exact hv

theorem Distinct.applyUpmap {pg : Pg} (h : Distinct raw)
    (hupmap : ∀ osds ∈ map.pgUpmap (pool.rawPgToPg pg), Distinct osds) :
    Distinct (map.applyUpmap pool pg raw) := by
  rw [OsdMap.applyUpmap]
  cases hu : map.pgUpmap (pool.rawPgToPg pg) with
  | none => exact h.applyUpmapItems _
  | some osds =>
    dsimp only
    split
    next => exact h
    next => exact (hupmap osds hu).applyUpmapItems _

/-! ## The primary -/

variable {h : Hash}

/-- The position holds an OSD. -/
def RealAt (osds : List Int) (k : Nat) : Prop := ∃ o, osds[k]? = some o ∧ o ≠ itemNone

theorem affinityPosition_spec (affinity : Int → Nat) (seed : Nat) {l pre : List Int}
    {pos : Option Nat} (hpos : ∀ k ∈ pos, RealAt (pre ++ l) k)
    (hsome : pos.isSome ∨ ∃ o ∈ l, o ≠ itemNone) :
    ∃ k, affinityPosition h affinity seed l pre.length pos = some k ∧ RealAt (pre ++ l) k := by
  induction l generalizing pre pos with
  | nil =>
    obtain hsome | ⟨o, ho, -⟩ := hsome
    · obtain ⟨k, rfl⟩ := Option.isSome_iff_exists.1 hsome
      exact ⟨k, rfl, hpos k rfl⟩
    · cases ho
  | cons o l ih =>
    have hnext : ∀ {pos}, (∀ k ∈ pos, RealAt (pre ++ o :: l) k) →
        (pos.isSome ∨ ∃ o ∈ l, o ≠ itemNone) →
        ∃ k, affinityPosition h affinity seed l (pre.length + 1) pos = some k ∧
          RealAt (pre ++ o :: l) k := by
      intro pos hpos hsome
      have hih := @ih (pre ++ [o]) pos
      rw [append_assoc, length_append] at hih
      exact hih hpos hsome
    have hhere : o ≠ itemNone → RealAt (pre ++ o :: l) pre.length := fun ho => ⟨o, by simp, ho⟩
    rw [affinityPosition]
    split
    next hnone =>
      refine hnext hpos (hsome.imp_right ?_)
      rintro ⟨u, hu, hne⟩
      exact ⟨u, (mem_cons.1 hu).resolve_left fun heq => hne (heq.trans hnone), hne⟩
    next ho =>
      split
      · refine hnext (fun k hk => ?_) (.inl (by cases pos <;> rfl))
        cases pos with
        | none => exact Option.some.inj hk ▸ hhere ho
        | some => exact hpos k hk
      · exact ⟨_, rfl, hhere ho⟩

/-- Some OSD of the vector has another affinity than the default. -/
def OsdMap.AnyAffinity (map : OsdMap) (osds : List Int) : Prop :=
  ∃ affinity ∈ map.primaryAffinity, ∃ o ∈ osds, o ≠ itemNone ∧ affinity o ≠ defaultPrimaryAffinity

/-- With no such OSD nothing happens; otherwise the primary does not depend on the one given. -/
theorem applyPrimaryAffinity_spec (map : OsdMap) (pool : PgPool) (seed : Nat) (osds : List Int) :
    ¬ map.AnyAffinity osds ∧
        (∀ primary, map.applyPrimaryAffinity h pool seed osds primary = (osds, primary)) ∨
      map.AnyAffinity osds ∧ ∃ osds' o,
        (∀ primary, map.applyPrimaryAffinity h pool seed osds primary = (osds', o)) ∧
        osds'.Perm osds ∧ o ∈ osds ∧ o ≠ itemNone ∧
        (pool.canShiftOsds = false → osds' = osds) ∧
        (pool.canShiftOsds = true → osds'.head? = some o) := by
  simp only [applyPrimaryAffinity, AnyAffinity]
  cases hmap : map.primaryAffinity with
  | none => exact .inl ⟨by simp, fun _ => rfl⟩
  | some affinity =>
    simp only [any_eq_true, decide_eq_true_eq]
    by_cases hany : ∃ o ∈ osds, o ≠ itemNone ∧ affinity o ≠ defaultPrimaryAffinity
    · obtain ⟨u, hu, hne, -⟩ := id hany
      obtain ⟨k, hk, o, ho, hreal⟩ := @affinityPosition_spec h affinity seed osds [] none nofun
        (.inr ⟨u, hu, hne⟩)
      obtain ⟨hlt, hget⟩ := List.getElem?_eq_some_iff.1 ho
      have hgetD : osds.getD k itemNone = o := by
        exact congrArg (·.getD itemNone) ho
      refine .inr ⟨⟨affinity, rfl, hany⟩,
        if pool.canShiftOsds = true ∧ 0 < k then o :: osds.eraseIdx k else osds, o,
        fun primary => ?_, ?_, mem_of_getElem? ho, hreal, fun hs => ?_, fun hs => ?_⟩
      · rw [if_pos hany, show affinityPosition h affinity seed osds 0 none = some k from hk]
        dsimp only
        rw [hgetD]
      · split
        · exact hget ▸ getElem_cons_eraseIdx_perm hlt
        · exact .refl _
      · rw [hs, if_neg (by simp)]
      · split
        next => rfl
        next hfront =>
          obtain rfl : k = 0 := Nat.eq_zero_of_not_pos fun hk => hfront ⟨hs, hk⟩
          rw [head?_eq_getElem?]
          exact ho
    · exact .inl ⟨by simpa using hany, fun _ => if_neg hany⟩

/-! ## The two callers -/

/-- What a mapping of the vector `raw` has to be. -/
structure WellMapped (map : OsdMap) (pool : PgPool) (raw up : List Int) (primary : Int) :
    Prop where
  live : ∀ o ∈ up, o ≠ itemNone → map.isLive o = true
  distinct : Distinct up
  noHoles : pool.canShiftOsds = true → itemNone ∉ up ∧ ∀ o ∈ up.head?, primary = o
  positions : pool.canShiftOsds = false → up = raw.map fun o => if map.isLive o then o else itemNone
  primary : primary ∈ up ∧ 0 ≤ primary ∧ primary ≠ itemNone ∨ primary = -1 ∧ ∀ o ∈ up, o = itemNone

theorem hasOsd_itemNone (map : OsdMap) : map.hasOsd itemNone = false := by
  simp [hasOsd, not_lt.2 map.maxOsd_le]

theorem isLive_itemNone (map : OsdMap) : map.isLive itemNone = false := by
  rw [isLive, hasOsd_itemNone, Bool.false_and]

theorem nonneg_of_isLive (ho : map.isLive o = true) : 0 ≤ o := by
  simp only [isLive, hasOsd, Bool.and_eq_true, decide_eq_true_eq] at ho
  exact ho.1.1

theorem real_rawToUpOsds : real (map.rawToUpOsds pool raw) = raw.filter map.isLive :=
  real_keep (isLive_itemNone map)

/-- The live OSDs in order, with holes or without, and the first as the primary. -/
theorem wellMapped_rawToUpOsds (hraw : Distinct raw) :
    WellMapped map pool raw (map.rawToUpOsds pool raw)
      (pickPrimary (map.rawToUpOsds pool raw)) := by
  have hreal := @real_rawToUpOsds map pool raw
  have hlive : ∀ o ∈ map.rawToUpOsds pool raw, o ≠ itemNone → map.isLive o = true :=
    fun o ho hne => (mem_filter.1 (hreal ▸ mem_real.2 ⟨ho, hne⟩)).2
  refine ⟨hlive, hraw.keep (isLive_itemNone map), fun hs => ?_, fun hs => ?_, ?_⟩
  · have hup : map.rawToUpOsds pool raw = raw.filter map.isLive := by
      rw [rawToUpOsds, keep, if_pos hs]
    refine ⟨fun hin => ?_, fun o ho => ?_⟩
    · rw [hup, mem_filter, isLive_itemNone] at hin
      exact Bool.false_ne_true hin.2
    · rw [pickPrimary_eq, hreal, ← hup, ho]
      rfl
  · rw [rawToUpOsds, keep, hs]
    rfl
  · rw [pickPrimary_eq]
    cases hall : real (map.rawToUpOsds pool raw) with
    | nil =>
      refine .inr ⟨rfl, fun o ho => ?_⟩
      by_contra hne
      exact not_mem_nil (hall ▸ mem_real.2 ⟨ho, hne⟩)
    | cons o =>
      have ho : o ∈ real (map.rawToUpOsds pool raw) := hall ▸ mem_cons_self
      obtain ⟨hmem, hne⟩ := mem_real.1 ho
      exact .inl ⟨hmem, nonneg_of_isLive (hlive o hmem hne), hne⟩

theorem WellMapped.perm {up up' : List Int} {primary : Int}
    (hmap : WellMapped map pool raw up primary) (hperm : up'.Perm up) (ho : o ∈ up)
    (hne : o ≠ itemNone) (hkept : pool.canShiftOsds = false → up' = up)
    (hhead : pool.canShiftOsds = true → up'.head? = some o) : WellMapped map pool raw up' o where
  live u hu := hmap.live u (hperm.mem_iff.1 hu)
  distinct := hmap.distinct.perm hperm
  noHoles hs := ⟨fun hin => (hmap.noHoles hs).1 (hperm.mem_iff.1 hin), fun _ hu =>
    Option.some.inj ((hhead hs).symm.trans hu)⟩
  positions hs := (hkept hs).trans (hmap.positions hs)
  primary := .inl ⟨hperm.mem_iff.2 ho, nonneg_of_isLive (hmap.live o ho hne), hne⟩

/-- The first OSD of the one vector is that of the other. -/
theorem pickPrimary_raw_iff : pickPrimary raw = pickPrimary (map.rawToUpOsds pool raw) ↔
    ∀ o ∈ raw.find? (· ≠ itemNone), map.isLive o = true ∨
      o = -1 ∧ ∀ u ∈ raw, map.isLive u = false := by
  rw [pickPrimary_eq (map.rawToUpOsds pool raw), real_rawToUpOsds, pickPrimary]
  induction raw with
  | nil => simp
  | cons o raw ih =>
    by_cases ho : o = itemNone
    · simpa [ho, isLive_itemNone] using ih
    · cases hlive : map.isLive o with
      | true => simp [ho, hlive]
      | false =>
        cases hup : raw.find? map.isLive with
        | none =>
          have hdead : ∀ u ∈ raw, map.isLive u = false := by simpa using hup
          simpa [ho, hlive, hup] using fun _ => hdead
        | some u =>
          have hu := find?_some hup
          have hne : o ≠ u := by
            rintro rfl
            exact Bool.false_ne_true (hlive.symm.trans hu)
          simpa [ho, hlive, hup, hne] using fun _ => ⟨u, mem_of_find?_eq_some hup, hu⟩

/-- Without temporary mappings the acting set is the up set, and it is a mapping as it should be.
`pg_to_raw_up` has the same vector, but the same primary only if an OSD with another affinity
decides it, or the first OSD in front of the filter is live. -/
theorem pg_mapping_agrees_iff (h : Hash) (map : OsdMap) (pool : PgPool) (pg : Pg) (rawPgToPg : Bool)
    (hpool : map.pools pg.pool = some pool) (hps : rawPgToPg = false → pg.ps < pool.pgNum)
    (hcrush : ∀ pps, Distinct (map.doRule pg.pool pps))
    (hupmap : ∀ osds ∈ map.pgUpmap (pool.rawPgToPg pg), Distinct osds)
    (htemp : map.pgTemp (pool.rawPgToPg pg) = none)
    (hprimaryTemp : map.primaryTemp (pool.rawPgToPg pg) = none) :
    ∃ up primary, map.pgToUpActingOsds h pg rawPgToPg = ⟨up, primary, up, primary⟩ ∧
      WellMapped map pool (map.rawUpmap h pool pg) up primary ∧ (map.pgToRawUp h pg).1 = up ∧
      ((map.pgToRawUp h pg).2 = primary ↔
        (∃ affinity ∈ map.primaryAffinity, ∃ o ∈ map.rawUpmap h pool pg,
          map.isLive o = true ∧ affinity o ≠ defaultPrimaryAffinity) ∨
        ∀ o ∈ (map.rawUpmap h pool pg).find? (· ≠ itemNone), map.isLive o = true ∨
          o = -1 ∧ ∀ u ∈ map.rawUpmap h pool pg, map.isLive u = false) := by
  have hraw : Distinct (map.rawUpmap h pool pg) :=
    ((hcrush _).keep (hasOsd_itemNone map)).applyUpmap hupmap
  have hmapped := @wellMapped_rawToUpOsds map pool _ hraw
  have htemps : map.getTempOsds pool pg = ([], -1) := by
    rw [getTempOsds, htemp, hprimaryTemp]
    cases hs : pool.canShiftOsds <;> rw [keep, hs] <;> rfl
  have hany : map.AnyAffinity (map.rawToUpOsds pool (map.rawUpmap h pool pg)) ↔
      ∃ affinity ∈ map.primaryAffinity, ∃ o ∈ map.rawUpmap h pool pg,
        map.isLive o = true ∧ affinity o ≠ defaultPrimaryAffinity := by
    rw [AnyAffinity]
    simp only [← and_assoc, ← mem_real, real_rawToUpOsds, mem_filter]
  rw [pgToUpActingOsds, pgToRawUp, hpool]
  dsimp only
  rw [if_neg fun hout => not_le.2 (hps hout.1) hout.2, htemps, ← hany]
  obtain ⟨hno, hrun⟩ | ⟨hyes, up, o, hrun, hperm, ho, hne, hkept, hhead⟩ :=
    applyPrimaryAffinity_spec map pool (rawPgToPps h pool pg)
      (map.rawToUpOsds pool (map.rawUpmap h pool pg))
  · rw [hrun, hrun]
    refine ⟨_, _, rfl, hmapped, rfl, ?_⟩
    rw [or_iff_right hno]
    exact pickPrimary_raw_iff
  · rw [hrun, hrun]
    exact ⟨_, _, rfl, hmapped.perm hperm ho hne hkept hhead, rfl, iff_of_true rfl (.inl hyes)⟩

end

namespace DownFirst

/-- A replicated pool whose rule yields the OSDs 0 and 1, of which 0 is down. -/
def map : OsdMap where
  pools _ := some ⟨true, 1, 0, 1, 0, false⟩
  doRule _ _ := [0, 1]
  maxOsd := 2
  maxOsd_le := by decide
  osdExists _ := true
  osdUp osd := osd = 1
  osdWeight _ := 0x10000
  primaryAffinity := none
  pgUpmap _ := none
  pgUpmapItems _ := none
  pgTemp _ := none
  primaryTemp _ := none

def hash : Hash := ⟨fun _ _ _ => 0, fun _ _ _ _ => 0, fun _ _ _ _ _ => 0⟩

end DownFirst

theorem pg_mapping_agrees_iff_downFirst :
    ∃ up primary, DownFirst.map.pgToUpActingOsds DownFirst.hash ⟨1, 0⟩ false =
        ⟨up, primary, up, primary⟩ ∧ Distinct up := by
  obtain ⟨up, primary, heq, hmapped, -⟩ := pg_mapping_agrees_iff DownFirst.hash DownFirst.map
    ⟨true, 1, 0, 1, 0, false⟩ ⟨1, 0⟩ false rfl (by decide)
    (fun _ => show (real [0, 1]).Nodup by decide) nofun rfl rfl
  exact ⟨up, primary, heq, hmapped.distinct⟩

/-- `pg_to_raw_up` names an OSD that is down, and not in `up`, as the primary. -/
theorem pgToRawUp_primary_down :
    DownFirst.map.pgToRawUp DownFirst.hash ⟨1, 0⟩ = ([1], 0) ∧
      (DownFirst.map.pgToUpActingOsds DownFirst.hash ⟨1, 0⟩ false).up = [1] ∧
      (DownFirst.map.pgToUpActingOsds DownFirst.hash ⟨1, 0⟩ false).upPrimary = 1 := by
  decide

end Ceph.Osd
