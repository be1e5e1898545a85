import Ceph.Lib.Stripes

set_option autoImplicit false

/-!
# Striping of files over objects (osdc/Striper.cc, osdc/StriperTypes.h, include/fs_types.h)

A file is cut into stripe units, which go to the objects of an object set in turn.
`file_to_extents` maps a range of the file to one extent for each object, `extent_to_file` maps an
extent back, and two more functions compute with the same layout.  All are about `uint64_t`; what
can reach `2 ^ 64` is reduced by `u64`, and the rest is below an offset in the file or the size of
an object.
-/

namespace Ceph.Osdc

open Ceph.Lib

/-- `file_layout_t`: the numbers are `uint32_t`, and an object is made of whole stripe units. -/
structure FileLayout where
  stripeUnit : Nat
  stripeCount : Nat
  objectSize : Nat
  unit_pos : 0 < stripeUnit
  count_pos : 0 < stripeCount
  size_pos : 0 < objectSize
  unit_dvd : stripeUnit ∣ objectSize
  count_lt : stripeCount < 2 ^ 32
  size_lt : objectSize < 2 ^ 32

variable (l : FileLayout)

/-- `get_period`. -/
def FileLayout.getPeriod : Nat := l.stripeCount * l.objectSize

/-- `LightweightObjectExtent`. -/
structure ObjectExtent where
  objectNo : Nat
  offset : Nat
  length : Nat
  truncateSize : Nat
  bufferExtents : List (Nat × Nat)
  deriving DecidableEq, Repr

/-- Why an extent is not computed: an assertion, or more rounds than a bound. -/
inductive StriperError where
  | assertion
  | limit
  deriving DecidableEq, Repr

/-! ## Truncation -/

/-- `object_truncate_size`; `trunc_size` of -1 stands for none. -/
def objectTruncateSize (objectno truncSize : Nat) : Nat :=
  if truncSize = 0 ∨ truncSize = 2 ^ 64 - 1 then truncSize
  else
    let stripesPerObject := l.objectSize / l.stripeUnit
    let objectsetno := objectno / l.stripeCount
    let truncObjectsetno := truncSize / l.objectSize / l.stripeCount
    if truncObjectsetno < objectsetno then 0
    else if objectsetno < truncObjectsetno then l.objectSize
    else
      let truncBlockno := truncSize / l.stripeUnit
      let truncStripeno := truncBlockno / l.stripeCount
      let truncStripepos := truncBlockno % l.stripeCount
      let truncObjectno := truncObjectsetno * l.stripeCount + truncStripepos
      if objectno < truncObjectno then (truncStripeno % stripesPerObject + 1) * l.stripeUnit
      else if truncObjectno < objectno then truncStripeno % stripesPerObject * l.stripeUnit
      else truncStripeno % stripesPerObject * l.stripeUnit + truncSize % l.stripeUnit

/-- `get_num_objects`. -/
def getNumObjects (size : Nat) : Nat :=
  let period := l.getPeriod
  let numPeriods := u64 (size + period - 1) / period
  let remainderBytes := size % period
  let remainderObjs :=
    if 0 < remainderBytes ∧ remainderBytes < l.stripeCount * l.stripeUnit then
      l.stripeCount - (remainderBytes + l.stripeUnit - 1) / l.stripeUnit
    else 0
  u64 (numPeriods * l.stripeCount + (2 ^ 64 - remainderObjs))

/-! ## Extents of a file range -/

/-- A range of an object is added to the extents: to the extent of the object that ends in front of
it, or as an extent of its own behind those of the objects up to `objectno`. -/
def addExtent (truncSize : Nat) (extents : List ObjectExtent)
    (objectno xOffset xLen bufferOffset : Nat) : List ObjectExtent :=
  let front := extents.takeWhile (·.objectNo ≤ objectno)
  let back := extents.dropWhile (·.objectNo ≤ objectno)
  let new : ObjectExtent :=
    ⟨objectno, xOffset, xLen, objectTruncateSize l objectno truncSize, [(bufferOffset, xLen)]⟩
  match front.getLast? with
  | none => front ++ new :: back
  | some ex =>
    if ex.objectNo ≠ objectno ∨ ex.offset + ex.length ≠ xOffset then front ++ new :: back
    else front.dropLast ++ { ex with
      length := ex.length + xLen
      bufferExtents := ex.bufferExtents ++ [(bufferOffset, xLen)] } :: back

/-- The loop of `file_to_extents` with the stripe unit `su`. -/
def fileToExtentsLoop (l : FileLayout) (su offset truncSize bufferOffset : Nat) :
    Nat → Nat → Nat → List ObjectExtent → Except StriperError (List ObjectExtent)
  | 0, _, left, extents => if left = 0 then .ok extents else .error .limit
  | rounds + 1, cur, left, extents =>
    if left = 0 then .ok extents
    else
      let stripesPerObject := l.objectSize / su
      let blockno := cur / su
      let stripeno := blockno / l.stripeCount
      let stripepos := blockno % l.stripeCount
      let objectsetno := stripeno / stripesPerObject
      let objectno := objectsetno * l.stripeCount + stripepos
      let blockStart := stripeno % stripesPerObject * su
      let blockOff := cur % su
      let xOffset := blockStart + blockOff
      let xLen := if su - blockOff < left then su - blockOff else left
      fileToExtentsLoop l su offset truncSize bufferOffset rounds (u64 (cur + xLen)) (left - xLen)
        (addExtent l truncSize extents objectno xOffset xLen (u64 (cur - offset + bufferOffset)))

/-- `file_to_extents`. -/
def fileToExtents (offset len truncSize bufferOffset : Nat) :
    Except StriperError (List ObjectExtent) :=
  if len = 0 then .error .assertion
  else
    let su := if l.stripeCount = 1 then l.objectSize else l.stripeUnit
    fileToExtentsLoop l su offset truncSize bufferOffset len offset len []

/-! ## File ranges of an extent -/

/-- The loop of `extent_to_file`. -/
def extentToFileLoop (l : FileLayout) (objectno : Nat) :
    Nat → Nat → Nat → Nat → Except StriperError (List (Nat × Nat))
  | 0, _, _, len => if len = 0 then .ok [] else .error .limit
  | rounds + 1, offInBlock, off, len =>
    if len = 0 then .ok []
    else
      let stripesPerObject := l.objectSize / l.stripeUnit
      let stripepos := objectno % l.stripeCount
      let objectsetno := objectno / l.stripeCount
      let stripeno := u64 (off / l.stripeUnit + objectsetno * stripesPerObject)
      let blockno := u64 (stripeno * l.stripeCount + stripepos)
      let extentOff := u64 (blockno * l.stripeUnit + offInBlock)
      let extentLen := min len (l.stripeUnit - offInBlock)
      (extentToFileLoop l objectno rounds 0 (u64 (off + extentLen)) (len - extentLen)).map
        ((extentOff, extentLen) :: ·)

/-- `extent_to_file`. -/
def extentToFile (objectno off len : Nat) : Except StriperError (List (Nat × Nat)) :=
  extentToFileLoop l objectno len (off % l.stripeUnit) off len

/-! ## The layout as stripes -/

theorem FileLayout.unit_le : l.stripeUnit ≤ l.objectSize := Nat.le_of_dvd l.size_pos l.unit_dvd

/-- The stripes of a layout. -/
def FileLayout.stripes : Stripes where
  su := l.stripeUnit
  spo := l.objectSize / l.stripeUnit
  sc := l.stripeCount
  su_pos := l.unit_pos
  spo_pos := Nat.div_pos l.unit_le l.unit_pos
  sc_pos := l.count_pos

theorem FileLayout.stripes_size :
    l.stripes.spo * l.stripes.su = l.objectSize := Nat.div_mul_cancel l.unit_dvd

/-- The offset in the file of a byte of an object. -/
def FileLayout.fileOffset (objectno off : Nat) : Nat := l.stripes.toLinear objectno off

/-! ## Striping: truncated objects and their number (osdc/Striper.cc)

Both functions are compared with the offsets in the file of the bytes of an object: the bytes in
front of an offset of the file are the first ones of each object, and the objects that have such a
byte are the first ones. -/

variable {l}

/-! ## Truncation -/

theorem div_objectset (l : FileLayout) (t : Nat) : t / l.objectSize / l.stripeCount =
    t / l.stripeUnit / l.stripeCount / (l.objectSize / l.stripeUnit) := by
  rw [Nat.div_div_eq_div_mul, Nat.div_div_eq_div_mul, Nat.div_div_eq_div_mul,
    mul_comm l.stripeCount (l.objectSize / l.stripeUnit), ← mul_assoc,
    Nat.mul_div_cancel' l.unit_dvd]

/-- The number of leading bytes of an object that are in front of an offset of the file. -/
def LeadingBytes (l : FileLayout) (objectno t n : Nat) : Prop :=
  n ≤ l.objectSize ∧ ∀ off < l.objectSize, l.fileOffset objectno off < t ↔ off < n

/-- In the object set of the offset: whole units up to its stripe, and in its own object the bytes
of the unit. -/
theorem leadingBytes_of_objectset {objectno t : Nat} (hset : objectno / l.stripeCount =
      t / l.stripeUnit / l.stripeCount / (l.objectSize / l.stripeUnit)) :
    let stripe := t / l.stripeUnit / l.stripeCount % (l.objectSize / l.stripeUnit)
    let pos := t / l.stripeUnit % l.stripeCount
    LeadingBytes l objectno t
      (if objectno % l.stripeCount < pos then (stripe + 1) * l.stripeUnit
      else if pos < objectno % l.stripeCount then stripe * l.stripeUnit
      else stripe * l.stripeUnit + t % l.stripeUnit) := by
  intro stripe pos
  have hstripe : stripe < l.objectSize / l.stripeUnit := Nat.mod_lt _ l.stripes.spo_pos
  have hsize : (stripe + 1) * l.stripeUnit ≤ l.objectSize := by
    rw [← Nat.div_mul_cancel l.unit_dvd]
    exact Nat.mul_le_mul_right _ hstripe
  have hmod := Nat.mod_lt t l.unit_pos
  have hdigits : ∀ off < l.objectSize, l.fileOffset objectno off < t ↔
      off / l.stripeUnit < stripe ∨ off / l.stripeUnit = stripe ∧
        (objectno % l.stripeCount < pos ∨
          objectno % l.stripeCount = pos ∧ off % l.stripeUnit < t % l.stripeUnit) := by
    intro off hoff
    refine (l.stripes.toLinear_lt_iff_digits (by rwa [l.stripes_size])).trans ?_
    show objectno / l.stripeCount < _ ∨ objectno / l.stripeCount = _ ∧ _ ↔ _
    rw [hset]
    exact (or_iff_right (lt_irrefl _)).trans (and_iff_right rfl)
  have hunits : ∀ n off, off < n * l.stripeUnit ↔ off / l.stripeUnit < n := fun n off =>
    (Nat.div_lt_iff_lt_mul l.unit_pos).symm
  split
  next hlt =>
    refine ⟨hsize, fun off hoff => ?_⟩
    rw [hdigits off hoff, hunits]
    omega
  next _ =>
    rw [Nat.succ_mul] at hsize
    split
    next _ =>
      refine ⟨by omega, fun off hoff => ?_⟩
      rw [hdigits off hoff, hunits]
      omega
    next =>
      refine ⟨by omega, fun off hoff => ?_⟩
      have hlt : off < stripe * l.stripeUnit + t % l.stripeUnit ↔ off / l.stripeUnit < stripe ∨
          off / l.stripeUnit = stripe ∧ off % l.stripeUnit < t % l.stripeUnit := by
        rw [← mul_add_lt_iff (Nat.mod_lt off l.unit_pos) hmod, Nat.div_add_mod']
      rw [hdigits off hoff]
      omega

/-- Only a truncation that stands for none is not the number of bytes. -/
theorem leadingBytes_truncateSize_iff (l : FileLayout) (objectno t : Nat) :
    LeadingBytes l objectno t (objectTruncateSize l objectno t) ↔ t ≠ 2 ^ 64 - 1 := by
  constructor
  · rintro h rfl
    have hle := h.1
    have hlt := l.size_lt
    rw [objectTruncateSize, if_pos (Or.inr rfl)] at hle
    omega
  intro _
  rw [objectTruncateSize]
  obtain rfl | _ := eq_zero_or_pos t
  · rw [if_pos (Or.inl rfl)]
    exact ⟨Nat.zero_le _, fun off _ => by omega⟩
  have hdigits : ∀ off < l.objectSize, l.fileOffset objectno off < t ↔ _ := fun off hoff =>
    l.stripes.toLinear_lt_iff_digits (by rwa [l.stripes_size])
  rw [if_neg (by omega), div_objectset]
  dsimp only
  split
  next hgt =>
    refine ⟨Nat.zero_le _, fun off hoff => iff_of_false ?_ (Nat.not_lt_zero off)⟩
    rw [hdigits off hoff]
    rintro (hlt | ⟨heq, _⟩)
    · exact lt_asymm hgt hlt
    · exact hgt.ne' heq
  next hle =>
    split
    next hlt => exact ⟨le_rfl, fun off hoff => iff_of_true ((hdigits off hoff).2 (Or.inl hlt)) hoff⟩
    next hge =>
      have hset := le_antisymm (Nat.le_of_not_lt hle) (Nat.le_of_not_lt hge)
      have hspec := leadingBytes_of_objectset hset
      have hobject := Nat.div_add_mod' objectno l.stripeCount
      rw [hset] at hobject
      rw [if_congr (show _ ↔ objectno % l.stripeCount < t / l.stripeUnit % l.stripeCount by omega)
        rfl (if_congr (show _ ↔ t / l.stripeUnit % l.stripeCount < objectno % l.stripeCount by
          omega) rfl rfl)]
      exact hspec

/-! ## Number of objects -/

/-- An object has a byte in front of an offset of the file. -/
def HasByte (l : FileLayout) (size objectno : Nat) : Prop :=
  ∃ off < l.objectSize, l.fileOffset objectno off < size

/-- One more than the last object that has a byte in front of an offset, or 0. -/
def NumObjects (l : FileLayout) (size n : Nat) : Prop :=
  (size = 0 → n = 0) ∧
  (0 < size → ∃ last, n = last + 1 ∧ HasByte l size last ∧ ∀ o, HasByte l size o → o ≤ last)

theorem fileOffset_zero (l : FileLayout) (o : Nat) :
    l.fileOffset o 0 = o / l.stripeCount * l.getPeriod + o % l.stripeCount * l.stripeUnit := by
  show ((o / l.stripeCount * (l.objectSize / l.stripeUnit) + 0 / l.stripeUnit) * l.stripeCount +
    o % l.stripeCount) * l.stripeUnit + 0 % l.stripeUnit = _
  obtain ⟨k, hk⟩ := l.unit_dvd
  rw [Nat.zero_div, Nat.zero_mod, FileLayout.getPeriod, hk, Nat.mul_div_cancel_left k l.unit_pos]
  ring

variable {size : Nat}

/-- The first byte of an object tells. -/
theorem hasByte_iff {o : Nat} : HasByte l size o ↔ l.fileOffset o 0 < size := by
  constructor
  · rintro ⟨off, _, hlt⟩
    obtain rfl | hpos := eq_zero_or_pos off
    · exact hlt
    · exact (l.stripes.toLinear_lt_iff.2 hpos).trans hlt
  · exact fun h => ⟨0, l.size_pos, h⟩

theorem getPeriod_pos (l : FileLayout) : 0 < l.getPeriod := mul_pos l.count_pos l.size_pos

/-- The objects of a set that its first bytes reach. -/
def touched (l : FileLayout) (bytes : Nat) : Nat :=
  min l.stripeCount ((bytes + l.stripeUnit - 1) / l.stripeUnit)

/-- The number of objects that have a byte in front of an offset. -/
def countObjects (l : FileLayout) (size : Nat) : Nat :=
  size / l.getPeriod * l.stripeCount + touched l (size % l.getPeriod)

theorem mul_unit_lt_iff (l : FileLayout) (q bytes : Nat) :
    q * l.stripeUnit < bytes ↔ q < (bytes + l.stripeUnit - 1) / l.stripeUnit := by
  have hpos := l.unit_pos
  rw [← Nat.succ_le_iff, ← Nat.succ_le_iff, Nat.le_div_iff_mul_le hpos, Nat.succ_mul]
  omega

theorem hasByte_iff_lt {o : Nat} : HasByte l size o ↔ o < countObjects l size := by
  have hpos : o % l.stripeCount < l.stripeCount := Nat.mod_lt _ l.count_pos
  have hin : o % l.stripeCount * l.stripeUnit < l.getPeriod := by
    exact (mul_lt_mul_of_pos_right hpos l.unit_pos).trans_le (Nat.mul_le_mul_left _ l.unit_le)
  have hsize := Nat.div_add_mod' size l.getPeriod
  have hobject := Nat.div_add_mod' o l.stripeCount
  have hlex : l.fileOffset o 0 < size ↔ o / l.stripeCount < size / l.getPeriod ∨
      o / l.stripeCount = size / l.getPeriod ∧
        o % l.stripeCount * l.stripeUnit < size % l.getPeriod := by
    rw [← mul_add_lt_iff hin (Nat.mod_lt _ (getPeriod_pos l)), hsize, fileOffset_zero]
  have hcount : o < countObjects l size ↔ o / l.stripeCount < size / l.getPeriod ∨
      o / l.stripeCount = size / l.getPeriod ∧
        o % l.stripeCount < touched l (size % l.getPeriod) := by
    have hle : touched l (size % l.getPeriod) ≤ l.stripeCount := min_le_left _ _
    rw [countObjects]
    obtain hlt | heq := lt_or_eq_of_le hle
    · rw [← mul_add_lt_iff hpos hlt, hobject]
    · rw [heq, ← Nat.succ_mul, ← Nat.div_lt_iff_lt_mul l.count_pos]
      omega
  have htouched : o % l.stripeCount < touched l (size % l.getPeriod) ↔
      o % l.stripeCount * l.stripeUnit < size % l.getPeriod := by
    rw [mul_unit_lt_iff, touched, Nat.lt_min]
    exact and_iff_right hpos
  rw [hasByte_iff, hlex, hcount, htouched]

theorem numObjects_iff {n : Nat} : NumObjects l size n ↔ n = countObjects l size := by
  have hzero : HasByte l size 0 ↔ 0 < size := by
    rw [hasByte_iff, fileOffset_zero, Nat.zero_div, Nat.zero_mod, Nat.zero_mul, Nat.zero_mul]
  rw [hasByte_iff_lt] at hzero
  rw [NumObjects]
  simp only [hasByte_iff_lt]
  constructor
  · rintro ⟨hnone, hsome⟩
    obtain rfl | hpos := eq_zero_or_pos size
    · rw [hnone rfl]
      omega
    · obtain ⟨_, rfl, _, hle⟩ := hsome hpos
      have hmax := hle (countObjects l size - 1) (by omega)
      omega
  · rintro rfl
    refine ⟨by omega, fun hpos => ⟨countObjects l size - 1, by omega, by omega, ?_⟩⟩
    omega

theorem touched_zero (l : FileLayout) : touched l 0 = 0 := by
  have hpos := l.unit_pos
  rw [touched, Nat.div_eq_of_lt (by omega), min_zero]

theorem touched_le (l : FileLayout) (bytes : Nat) :
    touched l bytes ≤ l.stripeCount ∧ touched l bytes ≤ bytes ∧
      (0 < bytes → 0 < touched l bytes) := by
  have hzero := (mul_unit_lt_iff l 0 bytes).1
  have hcount := l.count_pos
  refine ⟨min_le_left _ _, (min_le_right _ _).trans ?_, fun h => ?_⟩
  · by_contra hlt
    have hmul := (mul_unit_lt_iff l bytes bytes).2 (Nat.lt_of_not_le hlt)
    exact absurd hmul (not_lt.2 (Nat.le_mul_of_pos_right bytes l.unit_pos))
  · rw [zero_mul] at hzero
    exact lt_min hcount (hzero h)

/-- The objects of the last set that are not reached. -/
theorem remainderObjs_eq (l : FileLayout) {bytes : Nat} (hpos : 0 < bytes) :
    (if 0 < bytes ∧ bytes < l.stripeCount * l.stripeUnit then
      l.stripeCount - (bytes + l.stripeUnit - 1) / l.stripeUnit else 0) =
    l.stripeCount - touched l bytes := by
  have hiff := mul_unit_lt_iff l l.stripeCount bytes
  split
  next h =>
    have hle : ¬ l.stripeCount < (bytes + l.stripeUnit - 1) / l.stripeUnit := by
      omega
    rw [touched, min_eq_right (Nat.le_of_not_lt hle)]
  next h =>
    have hlast := (mul_unit_lt_iff l (l.stripeCount - 1) bytes).1 (by
      have hstep : (l.stripeCount - 1) * l.stripeUnit + l.stripeUnit =
          l.stripeCount * l.stripeUnit := by
        rw [← Nat.succ_mul, Nat.succ_eq_add_one, Nat.sub_add_cancel l.count_pos]
      have hunit := l.unit_pos
      omega)
    rw [touched, Nat.min_eq_left (by omega), Nat.sub_self]

/-- The sum is right as long as it fits. -/
theorem getNumObjects_eq (hfit : size + l.getPeriod ≤ 2 ^ 64) :
    getNumObjects l size = countObjects l size := by
  have hperiod := getPeriod_pos l
  have hsize := Nat.div_add_mod' size l.getPeriod
  have hmod := Nat.mod_lt size hperiod
  obtain ⟨_, _, _⟩ := touched_le l (size % l.getPeriod)
  have hbound : countObjects l size < 2 ^ 64 := by
    have hle : size / l.getPeriod * l.stripeCount ≤ size / l.getPeriod * l.getPeriod :=
      Nat.mul_le_mul_left _ (Nat.le_mul_of_pos_right _ l.size_pos)
    rw [countObjects]
    omega
  rw [countObjects] at hbound ⊢
  rw [getNumObjects, u64, u64, Nat.mod_eq_of_lt (show size + l.getPeriod - 1 < 2 ^ 64 by omega)]
  obtain hzero | hpos := Nat.eq_zero_or_pos (size % l.getPeriod)
  · have hperiods : (size + l.getPeriod - 1) / l.getPeriod = size / l.getPeriod := by
      rw [← hsize, hzero, Nat.add_zero, Nat.add_sub_assoc hperiod,
        mul_add_div_of_lt (Nat.sub_lt hperiod Nat.one_pos), Nat.mul_div_cancel _ hperiod]
    rw [hperiods, hzero, touched_zero, if_neg (by omega), Nat.sub_zero, Nat.add_mod_right]
    rw [hzero, touched_zero] at hbound
    exact Nat.mod_eq_of_lt hbound
  · have hperiods : (size + l.getPeriod - 1) / l.getPeriod = size / l.getPeriod + 1 := by
      have hsum : size + l.getPeriod - 1 =
          (size / l.getPeriod + 1) * l.getPeriod + (size % l.getPeriod - 1) := by
        rw [Nat.succ_mul]
        omega
      rw [hsum, mul_add_div_of_lt (by omega)]
    rw [hperiods, remainderObjs_eq l hpos, Nat.succ_mul]
    have hcount := l.count_lt
    omega

/-- And not if the size is below `2 ^ 63` and the sum does not fit. -/
theorem getNumObjects_ne (hsize : size < 2 ^ 63)
    (hover : 2 ^ 64 < size + l.getPeriod) : getNumObjects l size ≠ countObjects l size := by
  have hperiod : l.getPeriod ≤ 2 ^ 64 := by
    have hmul := mul_le_mul l.count_lt.le l.size_lt.le
    rw [FileLayout.getPeriod]
    omega
  have hpos : 0 < size := by omega
  obtain ⟨_, _, _⟩ := touched_le l size
  have hcount := l.count_lt
  have hwrap : u64 (size + l.getPeriod - 1) / l.getPeriod = 0 := by
    rw [u64, Nat.div_eq_of_lt]
    omega
  rw [getNumObjects, countObjects, hwrap, Nat.mod_eq_of_lt (by omega),
    Nat.div_eq_of_lt (show size < l.getPeriod by omega), remainderObjs_eq l hpos, Nat.zero_mul, u64]
  omega

end Ceph.Osdc
