import Ceph.Osd.Split

set_option autoImplicit false

/-!
# The family of a placement group

Three functions compute who descends from whom when `pg_num` changes.  `is_split` steps
through the bits above the seed of a parent, `get_ancestor` cuts the seed of a child down to
the old number of groups, and `is_merge_source` takes the highest bit off again and again.
-/

namespace Ceph.Osd

open Ceph.Lib Nat List Option

/-! ## The functions -/

/-- `pg_t::get_ancestor`. -/
def getAncestor (oldPgNum seed : Nat) : Nat :=
  cephStableMod seed oldPgNum ((1 <<< cbits oldPgNum) - 1)

/-- `pg_t::get_parent`: without the highest bit; the assertion that there is one fails with
`none`. -/
def getParent (seed : Nat) : Option Nat :=
  if cbits seed = 0 then none else some (seed &&& ((1 <<< (cbits seed - 1)) - 1))

/-- The loop of `pg_t::is_merge_source`. -/
def mergeTargetFrom (newPgNum : Nat) : Nat → Nat → Option Nat
  | 0, _ => none
  | fuel + 1, t =>
    if t ≥ newPgNum then (getParent t).bind (mergeTargetFrom newPgNum fuel) else some t

/-- `pg_t::is_merge_source`: the group that the seed is merged into, if it is a source.  Each
round of the loop makes the seed smaller. -/
def isMergeSource (oldPgNum newPgNum seed : Nat) : Option (Option Nat) :=
  if seed < oldPgNum ∧ seed ≥ newPgNum then
    (mergeTargetFrom newPgNum (seed + 1) seed).map some
  else some none

/-! ## They agree -/

section

variable {oldPgNum newPgNum seed : Nat}

/-- Without its highest bit a seed is smaller and keeps its bin. -/
theorem getParent_spec {t : Nat} (hnew : 0 < newPgNum) (hle : newPgNum ≤ t) :
    ∃ t' < t, getParent t = some t' ∧ bin t' newPgNum = bin t newPgNum := by
  have ht : t ≠ 0 := by omega
  obtain ⟨_, hhi⟩ := log2_bounds (pos_of_ne_zero ht)
  have hbits : cbits t - 1 = Nat.log2 t := by rw [cbits, if_neg ht, Nat.add_sub_cancel]
  refine ⟨t % 2 ^ Nat.log2 t, by omega, ?_, ?_⟩
  · rw [getParent, if_neg (by rw [cbits, if_neg ht]; omega), hbits, and_shift_sub_one]
  · rcases lt_or_eq_of_le (log2_mono hle) with hlog | hlog
    · exact bin_congr (mod_mod_of_dvd t (pow_dvd_pow 2 hlog))
    · -- The highest bit is the one that a bin of the old number may have.
      have hfull : t % 2 ^ (Nat.log2 newPgNum + 1) = t := by
        rw [hlog, pow_succ']
        exact mod_eq_of_lt hhi
      have hnlo := (log2_bounds hnew).1
      rw [bin.eq_1 t, hfull, if_neg (not_lt.2 hle), hlog]
      exact bin_of_lt (by rw [hlog] at hnlo; omega)

/-- The loop ends at the bin of the seed. -/
theorem mergeTargetFrom_eq (hnew : 0 < newPgNum) (fuel t : Nat) (ht : t < fuel) :
    mergeTargetFrom newPgNum fuel t = some (bin t newPgNum) := by
  induction fuel generalizing t with
  | zero => exact absurd ht (not_lt_zero t)
  | succ _ ih =>
    rw [mergeTargetFrom]
    split
    next hle =>
      obtain ⟨t', _, heq, hbin⟩ := getParent_spec hnew hle
      rw [heq, bind_some, ih t' (by omega), hbin]
    next hin => rw [bin_of_lt (not_le.1 hin)]

/-- The three computations of the family agree: the loop of `is_split` ends with all the new
groups that `ceph_stable_mod` takes to the seed, and returns whether there are any; the
group that a source is merged into is its ancestor, and the only one that has it among its
children. -/
theorem pg_family_agrees (hold : 1 ≤ oldPgNum) (hlt : oldPgNum < newPgNum) :
    (∀ seed < oldPgNum, ∃ children,
      isSplit oldPgNum newPgNum seed = some (decide children.Nonempty, children) ∧
      ∀ x, x ∈ children ↔ oldPgNum ≤ x ∧ x < newPgNum ∧
        cephStableMod x oldPgNum ((1 <<< cbits oldPgNum) - 1) = seed) ∧
    ∀ x, oldPgNum ≤ x → x < newPgNum → ∃ parent,
      isMergeSource newPgNum oldPgNum x = some (some parent) ∧
      parent = getAncestor oldPgNum x ∧ parent < oldPgNum ∧
      ∀ p < oldPgNum,
        (∃ split children, isSplit oldPgNum newPgNum p = some (split, children) ∧ x ∈ children) ↔
          p = parent := by
  constructor
  · intro seed hseed
    obtain ⟨children, heq, hmem⟩ := isSplit_spec hseed hlt
    refine ⟨children, heq, fun x => ?_⟩
    rw [cephStableMod_eq_bin hold, hmem]
  · intro x hge hx
    refine ⟨bin x oldPgNum, ?_, (cephStableMod_eq_bin hold).symm, bin_lt hold, fun p hp => ?_⟩
    · rw [isMergeSource, if_pos ⟨hx, hge⟩, mergeTargetFrom_eq hold _ x (lt_succ_self x)]
      rfl
    · obtain ⟨children, heq, hmem⟩ := isSplit_spec hp hlt
      rw [heq]
      constructor
      · rintro ⟨_, _, ⟨⟩, hx'⟩
        exact ((hmem x).1 hx').2.2.symm
      · intro hparent
        exact ⟨_, children, rfl, (hmem x).2 ⟨hge, hx, hparent.symm⟩⟩

theorem pg_family_agrees_six_to_thirteen :
    (∀ seed < 6, ∃ children, isSplit 6 13 seed = some (decide children.Nonempty, children) ∧
      ∀ x, x ∈ children ↔ 6 ≤ x ∧ x < 13 ∧ cephStableMod x 6 ((1 <<< cbits 6) - 1) = seed) ∧
    ∀ x, 6 ≤ x → x < 13 → ∃ parent, isMergeSource 13 6 x = some (some parent) ∧
      parent = getAncestor 6 x ∧ parent < 6 ∧
      ∀ p < 6, (∃ split children, isSplit 6 13 p = some (split, children) ∧ x ∈ children) ↔
        p = parent :=
  pg_family_agrees (by decide) (by decide)

end

/-! ## Lowering pg_num step by step -/

/-- The group that holds what `seed` held once `pg_num` has been lowered to each of the sizes. -/
def mergeThrough : Nat → Nat → List Nat → Option Nat
  | _, seed, [] => some seed
  | pgNum, seed, size :: sizes =>
    (isMergeSource pgNum size seed).bind fun target =>
      mergeThrough size (target.getD seed) sizes

theorem isMergeSource_getD {pgNum size seed : Nat} (hsize : 0 < size) (hseed : seed < pgNum) :
    ∃ target, isMergeSource pgNum size seed = some target ∧
      target.getD seed = bin seed size := by
  rw [isMergeSource, mergeTargetFrom_eq hsize _ seed (lt_succ_self seed)]
  split
  next => exact ⟨_, rfl, rfl⟩
  next hin => exact ⟨none, rfl, (bin_of_lt (not_le.1 fun hle => hin ⟨hseed, hle⟩)).symm⟩

/-- An object is where its hash says, however many merges have brought it there. -/
theorem mergeThrough_placement {sizes : List Nat} {pgNum : Nat} (hash : Nat)
    (hpos : ∀ size ∈ pgNum :: sizes, 0 < size) (hdown : (pgNum :: sizes).Pairwise (· ≥ ·)) :
    mergeThrough pgNum (cephStableMod hash pgNum (pgNumMask pgNum)) sizes =
      some (cephStableMod hash (sizes.getLastD pgNum) (pgNumMask (sizes.getLastD pgNum))) := by
  induction sizes generalizing pgNum with
  | nil => rfl
  | cons size _ ih =>
    obtain ⟨hfirst, hrest⟩ := forall_mem_cons.1 hpos
    obtain ⟨hle, hdown'⟩ := pairwise_cons.1 hdown
    have hsize := hrest size mem_cons_self
    obtain ⟨_, heq, hget⟩ := isMergeSource_getD hsize (bin_lt hfirst)
    rw [cephStableMod_pgNumMask hfirst, mergeThrough, heq, bind_some, hget,
      bin_bin hsize (hle size mem_cons_self), ← cephStableMod_pgNumMask hsize,
      ih hrest hdown', getLastD_cons]

theorem mergeThrough_placement_thirteen :
    mergeThrough 13 (cephStableMod 28 13 (pgNumMask 13)) [12, 7, 5] =
      some (cephStableMod 28 5 (pgNumMask 5)) :=
  mergeThrough_placement 28 (by decide) (by decide)

end Ceph.Osd
