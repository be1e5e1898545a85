import Ceph.Osd.PgMapping

set_option autoImplicit false

/-!
# Cleaning the upmap exceptions

`check_pg_upmaps` looks for exceptions of placement groups that are not valid or not needed any
more, and `clean_pg_upmaps` drops them.  It judges an item by the vector that CRUSH yields;
`_apply_upmap` applies it to one that the explicit mapping and earlier items have changed.
-/

namespace Ceph.Osd

open Ceph.Crush List OsdMap Bool DownFirst

/-- What `check_pg_upmaps` reads besides the map.  `leaving` holds of groups that are gone or are
to be merged.  `ruleWeight` has the weights below the rule of a pool, `0` for an OSD that the rule
does not reach; it is `none` if there is no rule. -/
structure UpmapCheck where
  leaving : Pg → Bool
  size : Int → Nat
  verifyUpmap : Int → List Int → Bool
  ruleWeight : Int → Option (Int → Nat)

/-- What is to become of the exceptions of a group. -/
inductive UpmapChange where
  | keep
  | cancel
  | remap (items : List (Int × Int))
  deriving DecidableEq

/-- The items of the group afterwards. -/
def UpmapChange.items (old : Option (List (Int × Int))) : UpmapChange → Option (List (Int × Int))
  | keep => old
  | cancel => none
  | remap items => some items

/-- The last part of a round of `check_pg_upmaps`. -/
def checkItems (out : Int → Bool) (raw : List Int) : Option (List (Int × Int)) → UpmapChange
  | none => .keep
  | some items =>
    let newmap := items.filter fun r => r.1 ∈ raw ∧ out r.2 = false
    if newmap = [] then .cancel else if newmap = items then .keep else .remap newmap

namespace OsdMap

variable (h : Hash) (c : UpmapCheck) (map : OsdMap)

/-- A round of `check_pg_upmaps`.  `get_weightf` asserts that the OSD is below `max_osd`. -/
def checkPgUpmap (pg : Pg) : UpmapChange :=
  match map.pools pg.pool with
  | none => .cancel
  | some pool =>
    let raw := map.pgToRawOsds h pool pg
    let up := map.rawUpmap h pool pg
    if c.leaving pg ∨ c.verifyUpmap pg.pool up = false then .cancel
    else
      match c.ruleWeight pg.pool with
      | none => .keep
      | some weight =>
        if up.any fun osd => weight osd = 0 ∨ map.osdWeight osd = 0 then .cancel
        else if (map.pgUpmap pg).any fun osds => osds = raw ∨ osds.length ≠ c.size pg.pool then
          .cancel
        else checkItems map.markedOut raw (map.pgUpmapItems pg)

/-- The map after `check_pg_upmaps` and `clean_pg_upmaps`: a group of `to_cancel` loses both kinds
of exceptions, one of `to_remap` gets the items found for it.  No round depends on another, and
the groups that `get_upmap_pgs` leaves out have nothing to lose. -/
def cleanPgUpmaps : OsdMap :=
  { map with
    pgUpmap := fun pg => if map.checkPgUpmap h c pg = .cancel then none else map.pgUpmap pg
    pgUpmapItems := fun pg => (map.checkPgUpmap h c pg).items (map.pgUpmapItems pg) }

/-- `_apply_upmap` for the given exceptions of a group. -/
def upmapWith (osds : Option (List Int)) (items : Option (List (Int × Int))) (raw : List Int) :
    List Int :=
  if (osds.getD []).any map.markedOut then raw
  else (items.getD []).foldl map.applyUpmapItem (osds.getD raw)

end OsdMap

section

variable {h : Hash} {c : UpmapCheck} {map : OsdMap} {pool : PgPool} {pg : Pg} {v : List Int}
  {r : Int × Int} {items : List (Int × Int)}

/-- The group has a mapping that is not dropped as one that is not valid. -/
structure ValidUpmap (h : Hash) (c : UpmapCheck) (map : OsdMap) (pool : PgPool) (pg : Pg) :
    Prop where
  hasPool : map.pools pg.pool = some pool
  ofPool : pool.rawPgToPg pg = pg
  stays : c.leaving pg = false
  verified : c.verifyUpmap pg.pool (map.rawUpmap h pool pg) = true
  weight : ∀ weight ∈ c.ruleWeight pg.pool, ∀ osd ∈ map.rawUpmap h pool pg,
    weight osd ≠ 0 ∧ map.osdWeight osd ≠ 0

/-- The item finds its source in the vector, and its target neither there nor out. -/
def TakesEffect (out : Int → Bool) (v : List Int) (r : Int × Int) : Prop :=
  r.1 ∈ v ∧ r.2 ∉ v ∧ out r.2 = false

instance (out : Int → Bool) (v : List Int) (r : Int × Int) : Decidable (TakesEffect out v r) :=
  inferInstanceAs (Decidable (_ ∧ _))

/-- Of the items, one after the other, those that take effect have their source in `raw`. -/
def SourcesIn (out : Int → Bool) (raw : List Int) : List Int → List (Int × Int) → Prop
  | _, [] => True
  | v, r :: items => (TakesEffect out v r → r.1 ∈ raw) ∧
      SourcesIn out raw (if TakesEffect out v r then v.set (v.idxOf r.1) r.2 else v) items

instance decidableSourcesIn (out : Int → Bool) (raw : List Int) :
    ∀ v items, Decidable (SourcesIn out raw v items)
  | _, [] => inferInstanceAs (Decidable True)
  | _, _ :: items => @instDecidableAnd _ _ _ (decidableSourcesIn out raw _ items)

/-- No exception that takes effect looks redundant next to `raw`. -/
structure Needed (out : Int → Bool) (size : Nat) (raw : List Int) (osds : Option (List Int))
    (items : Option (List (Int × Int))) : Prop where
  /-- An explicit mapping other than `raw` has the size of the pool, and the items next to it are
  not all dropped. -/
  explicit : ∀ v ∈ osds, v ≠ raw →
    v.length = size ∧ ∀ rs ∈ items, ∃ r ∈ rs, r.1 ∈ raw ∧ out r.2 = false
  /-- No item takes effect next to an explicit mapping that repeats `raw`. -/
  redundant : osds = some raw → ∀ rs ∈ items, ∀ r ∈ rs, ¬ TakesEffect out raw r
  sources : ∀ rs ∈ items, SourcesIn out raw (osds.getD raw) rs

/-! ## Items without effect -/

/-- The first occurrence of the source, unless the target is found or is out. -/
theorem upmapPosition_eq (i : Nat) (pos : Option Nat) :
    map.upmapPosition r v i pos = if r.2 ∈ v then none else
      pos.or (if map.markedOut r.2 then none else (v.idxOf? r.1).map (i + ·)) := by
  induction v generalizing i pos with
  | nil => simp [upmapPosition]
  | cons o v ih =>
    rw [upmapPosition, ih, idxOf?_cons]
    by_cases hhead : o = r.2
    · simp [hhead]
    by_cases htail : r.2 ∈ v
    · simp [htail]
    rw [if_neg hhead, if_neg htail, if_neg (not_mem_cons_of_ne_of_not_mem (Ne.symm hhead) htail)]
    by_cases hout : map.markedOut r.2
    · simp [hout]
    by_cases ho : o = r.1
    · cases pos <;> simp [ho, hout]
    · simp [ho, hout, Function.comp_def, add_assoc, add_comm 1]

theorem applyUpmapItem_eq : map.applyUpmapItem v r =
    if TakesEffect map.markedOut v r then v.set (v.idxOf r.1) r.2 else v := by
  rw [applyUpmapItem, upmapPosition_eq, idxOf_eq_getD_idxOf?]
  by_cases htarget : r.2 ∈ v
  · simp [TakesEffect, htarget]
  by_cases hout : map.markedOut r.2
  · simp [TakesEffect, hout]
  cases hfound : v.idxOf? r.1 with
  | none => simp [TakesEffect, idxOf?_eq_none_iff.1 hfound]
  | some k =>
    have hin : r.1 ∈ v := isSome_idxOf?.1 (hfound ▸ rfl)
    simp [TakesEffect, htarget, hout, hin]

/-- The items that are kept do what all of them do. -/
theorem SourcesIn.foldl_filter {raw v : List Int} (hsources : SourcesIn map.markedOut raw v items) :
    (items.filter fun r => r.1 ∈ raw ∧ map.markedOut r.2 = false).foldl map.applyUpmapItem v =
      items.foldl map.applyUpmapItem v := by
  induction items generalizing v with
  | nil => rfl
  | cons r items ih =>
    rw [foldl_cons, filter_cons]
    rw [SourcesIn, ← applyUpmapItem_eq] at hsources
    split
    · exact ih hsources.2
    next hdropped =>
      have hidle : ¬ TakesEffect map.markedOut v r := fun heffect =>
        hdropped (decide_eq_true ⟨hsources.1 heffect, heffect.2.2⟩)
      rw [applyUpmapItem_eq, if_neg hidle] at hsources ⊢
      exact ih hsources.2

theorem foldl_applyUpmapItem_idle (hidle : ∀ r ∈ items, ¬ TakesEffect map.markedOut v r) :
    items.foldl map.applyUpmapItem v = v := by
  refine foldlRecOn items _ (motive := (· = v)) rfl fun _ hv r hr => ?_
  rw [hv, applyUpmapItem_eq, if_neg (hidle r hr)]

/-! ## The cleaned map -/

theorem rawUpmap_eq (hpg : pool.rawPgToPg pg = pg) :
    map.rawUpmap h pool pg =
      map.upmapWith (map.pgUpmap pg) (map.pgUpmapItems pg) (map.pgToRawOsds h pool pg) := by
  rw [rawUpmap, applyUpmap, hpg, upmapWith]
  cases map.pgUpmap pg <;> rfl

/-- What is left to look at for a valid mapping. -/
theorem ValidUpmap.checkPgUpmap_eq (hvalid : ValidUpmap h c map pool pg) :
    map.checkPgUpmap h c pg =
      if c.ruleWeight pg.pool = none then .keep
      else if (map.pgUpmap pg).any fun osds =>
          osds = map.pgToRawOsds h pool pg ∨ osds.length ≠ c.size pg.pool then .cancel
      else checkItems map.markedOut (map.pgToRawOsds h pool pg) (map.pgUpmapItems pg) := by
  rw [checkPgUpmap, hvalid.hasPool]
  dsimp only
  rw [if_neg (by simp [hvalid.stays, hvalid.verified])]
  cases hweight : c.ruleWeight pg.pool with
  | none => rfl
  | some weight =>
    have hlive : ¬ (map.rawUpmap h pool pg).any fun osd =>
        weight osd = 0 ∨ map.osdWeight osd = 0 := by
      simpa using hvalid.weight weight hweight
    dsimp only
    rw [if_neg hlive, if_neg (Option.some_ne_none weight)]

section

variable (out : Int → Bool) (raw : List Int) (items : Option (List (Int × Int)))

/-- Whatever becomes of the items, the good ones stay. -/
theorem getD_checkItems :
    ((checkItems out raw items).items items).getD [] =
      (items.getD []).filter fun r => r.1 ∈ raw ∧ out r.2 = false := by
  cases items with
  | none => rfl
  | some =>
    rw [checkItems]
    split
    next hnil => exact hnil.symm
    · split
      next hall => exact hall.symm
      · rfl

theorem checkItems_again : checkItems out raw ((checkItems out raw items).items items) = .keep := by
  cases items with
  | none => rfl
  | some =>
    rw [checkItems]
    split
    · rfl
    next hsome =>
      split
      next hall => rw [UpmapChange.items, checkItems, if_neg hsome, if_pos hall]
      next hall =>
        rw [UpmapChange.items, checkItems]
        simp only [filter_filter, Bool.and_self]
        rw [if_neg hsome]
        exact if_pos trivial

end

/-- If the cleaned map is valid too, there is nothing to change in it. -/
theorem ValidUpmap.check_cleaned (hvalid : ValidUpmap h c map pool pg)
    (hvalid' : ValidUpmap h c (map.cleanPgUpmaps h c) pool pg) :
    (map.cleanPgUpmaps h c).checkPgUpmap h c pg = .keep := by
  have hosds : (map.cleanPgUpmaps h c).pgUpmap pg =
      if map.checkPgUpmap h c pg = .cancel then none else map.pgUpmap pg := rfl
  have hitems : (map.cleanPgUpmaps h c).pgUpmapItems pg =
      (map.checkPgUpmap h c pg).items (map.pgUpmapItems pg) := rfl
  have hchange := hvalid.checkPgUpmap_eq
  rw [hvalid'.checkPgUpmap_eq]
  split at hchange
  next hnone => exact if_pos hnone
  next hsome =>
    rw [if_neg hsome]
    split at hchange
    next _ =>
      rw [hosds, hitems, hchange]
      rfl
    next hneeded =>
      rw [hitems, hchange, if_neg]
      · exact checkItems_again map.markedOut _ _
      · rw [hosds]
        split
        · exact false_ne_true
        · exact hneeded

theorem upmapWith_cleanPgUpmaps : (map.cleanPgUpmaps h c).upmapWith = map.upmapWith := by
  have hitem : (map.cleanPgUpmaps h c).applyUpmapItem = map.applyUpmapItem := by
    funext v r
    rw [applyUpmapItem_eq, applyUpmapItem_eq]
    rfl
  funext osds items raw
  rw [upmapWith, upmapWith, hitem]
  rfl

section

variable {size : Nat} {raw : List Int} {osds : Option (List Int)}
  {items : Option (List (Int × Int))} {change : UpmapChange}

/-- An explicit mapping to an OSD that is out hides the items, and its own absence. -/
theorem upmapWith_of_out (hout : (osds.getD []).any map.markedOut) :
    map.upmapWith (if change = .cancel then none else osds) (change.items items) raw = raw := by
  cases change with
  | keep => exact if_pos hout
  | cancel => rfl
  | remap => exact if_pos hout

theorem exists_of_checkItems_cancel {out : Int → Bool}
    (hcancel : checkItems out raw items = .cancel) :
    ∃ rs ∈ items, ∀ r ∈ rs, ¬ (r.1 ∈ raw ∧ out r.2 = false) := by
  cases items with
  | none => cases hcancel
  | some rs =>
    refine ⟨rs, rfl, ?_⟩
    rw [checkItems] at hcancel
    split at hcancel
    next hnil => simpa using hnil
    · split at hcancel <;> cases hcancel

variable (hneeded : Needed map.markedOut size raw osds items)

include hneeded

/-- An explicit mapping is cancelled only if it repeats what CRUSH yields. -/
theorem Needed.eq_raw {v : List Int} (hv : osds = some v)
    (hcancel : .cancel = if osds.any fun v => v = raw ∨ v.length ≠ size then .cancel
      else checkItems map.markedOut raw items) : v = raw := by
  by_contra hne
  obtain ⟨hsize, hitems⟩ := hneeded.explicit v hv hne
  rw [hv, if_neg (by simp [hne, hsize])] at hcancel
  obtain ⟨rs, hrs, hdropped⟩ := exists_of_checkItems_cancel hcancel.symm
  obtain ⟨r, hr, hgood⟩ := hitems rs hrs
  exact hdropped r hr hgood

theorem Needed.foldl_kept :
    (((checkItems map.markedOut raw items).items items).getD []).foldl map.applyUpmapItem
        (osds.getD raw) = (items.getD []).foldl map.applyUpmapItem (osds.getD raw) := by
  rw [getD_checkItems]
  cases items with
  | none => rfl
  | some rs => exact (hneeded.sources rs rfl).foldl_filter

theorem Needed.upmapWith_change (hlive : ¬ (osds.getD []).any map.markedOut)
    (hchange : change = if osds.any fun v => v = raw ∨ v.length ≠ size then .cancel
      else checkItems map.markedOut raw items) :
    map.upmapWith (if change = .cancel then none else osds) (change.items items) raw =
      map.upmapWith osds items raw := by
  cases change with
  | cancel =>
    cases osds with
    | none =>
      have hkept := hneeded.foldl_kept
      rw [show checkItems map.markedOut raw items = .cancel from hchange.symm] at hkept
      exact hkept
    | some v =>
      obtain rfl := hneeded.eq_raw rfl hchange
      rw [upmapWith, upmapWith, if_neg hlive]
      refine (foldl_applyUpmapItem_idle ?_).symm
      cases items with
      | none => exact fun _ hr => absurd hr not_mem_nil
      | some rs => exact hneeded.redundant rfl rs rfl
  | keep => rfl
  | remap rs =>
    have hkept := hneeded.foldl_kept
    split at hchange
    · cases hchange
    · rw [← hchange] at hkept
      rw [upmapWith, upmapWith, if_neg hlive, ← hkept]
      exact if_neg hlive

end

/-- Cleaning the exceptions of a group whose mapping is valid leaves the mapping alone, and nothing
more to change, if no exception that takes effect looks redundant.  An explicit mapping to an OSD
that is out has no effect, and neither have the items next to it. -/
theorem clean_upmaps_settled (hvalid : ValidUpmap h c map pool pg)
    (hneeded : c.ruleWeight pg.pool ≠ none → ¬ ((map.pgUpmap pg).getD []).any map.markedOut →
      Needed map.markedOut (c.size pg.pool) (map.pgToRawOsds h pool pg) (map.pgUpmap pg)
      (map.pgUpmapItems pg)) :
    (map.cleanPgUpmaps h c).rawUpmap h pool pg = map.rawUpmap h pool pg ∧
      (map.cleanPgUpmaps h c).checkPgUpmap h c pg = .keep := by
  have hsame : (map.cleanPgUpmaps h c).rawUpmap h pool pg = map.rawUpmap h pool pg := by
    have hchange := hvalid.checkPgUpmap_eq
    rw [rawUpmap_eq hvalid.ofPool, rawUpmap_eq hvalid.ofPool, upmapWith_cleanPgUpmaps]
    dsimp only [cleanPgUpmaps]
    split at hchange
    · rw [hchange]
      rfl
    next hrule =>
      by_cases hout : ((map.pgUpmap pg).getD []).any map.markedOut
      · exact (upmapWith_of_out hout).trans (if_pos hout).symm
      · exact (hneeded hrule hout).upmapWith_change hout hchange
  exact ⟨hsame, hvalid.check_cleaned ⟨hvalid.hasPool, hvalid.ofPool, hvalid.stays,
    hsame ▸ hvalid.verified, hsame ▸ hvalid.weight⟩⟩

end

/-- The pool of `DownFirst` with exceptions for its group. -/
def upmapped (osds : Option (List Int)) (items : Option (List (Int × Int))) : OsdMap :=
  { DownFirst.map with
    maxOsd := 4, maxOsd_le := by decide, pgUpmap := fun _ => osds, pgUpmapItems := fun _ => items }

def twoEach : UpmapCheck := ⟨fun _ => false, fun _ => 2, fun _ _ => true, fun _ => some fun _ => 1⟩

theorem validUpmap_upmapped (osds : Option (List Int)) (items : Option (List (Int × Int))) :
    ValidUpmap hash twoEach (upmapped osds items) ⟨true, 1, 0, 1, 0, false⟩ ⟨1, 0⟩ := by
  refine ⟨rfl, rfl, rfl, rfl, ?_⟩
  rintro _ ⟨⟩ _ _
  exact ⟨one_ne_zero, show 0x10000 ≠ 0 by decide⟩

/-- An item next to an explicit mapping stays, and an item that finds no source goes. -/
theorem clean_upmaps_settled_two :
    let explicit := upmapped (some [2, 1]) (some [(1, 3)])
    let idle := upmapped none (some [(1, 2), (3, 0)])
    (explicit.cleanPgUpmaps hash twoEach).rawUpmap hash
        ⟨true, 1, 0, 1, 0, false⟩ ⟨1, 0⟩ = [2, 3] ∧
      idle.checkPgUpmap hash twoEach ⟨1, 0⟩ = .remap [(1, 2)] ∧
      (idle.cleanPgUpmaps hash twoEach).checkPgUpmap hash twoEach ⟨1, 0⟩ =
        .keep := by
  refine ⟨(clean_upmaps_settled (validUpmap_upmapped _ _) fun _ _ => ⟨?_, ?_, ?_⟩).1.trans
    (by decide), by decide, (clean_upmaps_settled (validUpmap_upmapped _ _) fun _ _ =>
      ⟨?_, ?_, ?_⟩).2⟩
  all_goals decide

/-- The mapping of the group is valid, and the cleaning turns one result of it into another. -/
def Moves (osds : Option (List Int)) (items : List (Int × Int)) (before after : List Int) : Prop :=
  let map := upmapped osds (some items)
  ValidUpmap hash twoEach map ⟨true, 1, 0, 1, 0, false⟩ ⟨1, 0⟩ ∧
    map.rawUpmap hash ⟨true, 1, 0, 1, 0, false⟩ ⟨1, 0⟩ = before ∧
      (map.cleanPgUpmaps hash twoEach).rawUpmap hash ⟨true, 1, 0, 1, 0, false⟩ ⟨1, 0⟩ = after

/-- An item that takes effect goes with a redundant explicit mapping, an explicit mapping with
items that have none, and the second of two items with a source that the first one brings. -/
theorem clean_upmaps_moves :
    Moves (some [0, 1]) [(1, 2)] [0, 2] [0, 1] ∧ Moves (some [2, 1]) [(3, 0)] [2, 1] [0, 1] ∧
      Moves none [(0, 2), (2, 3)] [3, 1] [2, 1] := by
  refine ⟨⟨validUpmap_upmapped _ _, ?_⟩, ⟨validUpmap_upmapped _ _, ?_⟩,
    ⟨validUpmap_upmapped _ _, ?_⟩⟩
  all_goals decide

end Ceph.Osd
