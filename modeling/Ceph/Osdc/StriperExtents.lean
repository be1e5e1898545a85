import Ceph.Lib.Cut
import Ceph.Osdc.Striper
import Mathlib.Data.List.Nodup

set_option autoImplicit false

/-!
# Striping: extents of a file range and back (osdc/Striper.cc)

The loop of `file_to_extents` goes through the file block by block.  What it has found after some
blocks is described by the offsets in the file of the bytes of each object: those in front of the
loop's position are one interval in each object, and the buffer extents are the pieces of that
interval.
-/

namespace Ceph.Osdc

open Ceph.Lib List FileLayout Stripes

/-! ## The stripes that the loop uses -/

variable (l : FileLayout)

/-- The stripe unit in `file_to_extents`. -/
def FileLayout.usedUnit : Nat :=
  if l.stripeCount = 1 then l.objectSize else l.stripeUnit

theorem FileLayout.usedUnit_dvd : 0 < l.usedUnit ∧ l.usedUnit ∣ l.objectSize := by
  rw [usedUnit]
  split
  next => exact ⟨l.size_pos, dvd_refl _⟩
  next => exact ⟨l.unit_pos, l.unit_dvd⟩

def FileLayout.usedStripes : Stripes where
  su := l.usedUnit
  spo := l.objectSize / l.usedUnit
  sc := l.stripeCount
  su_pos := l.usedUnit_dvd.1
  spo_pos := Nat.div_pos (Nat.le_of_dvd l.size_pos l.usedUnit_dvd.2) l.usedUnit_dvd.1
  sc_pos := l.count_pos

theorem FileLayout.usedStripes_size :
    l.usedStripes.spo * l.usedStripes.su = l.objectSize := Nat.div_mul_cancel l.usedUnit_dvd.2

/-- With one object at a time the unit makes no difference to where a byte is. -/
theorem FileLayout.usedStripes_toLinear (o off : Nat) :
    l.usedStripes.toLinear o off = l.fileOffset o off := by
  by_cases hone : l.stripeCount = 1
  · rw [fileOffset, l.usedStripes.toLinear_of_sc hone, l.stripes.toLinear_of_sc hone,
      l.usedStripes_size, l.stripes_size]
  · have hsame : l.usedUnit = l.stripeUnit := if_neg hone
    show ((_ * (l.objectSize / l.usedUnit) + _ / l.usedUnit) * _ + _) * l.usedUnit + _ % l.usedUnit
      = _
    rw [hsame]
    rfl

/-! ## Adding a range -/

section Add

variable {extents : List ObjectExtent} {objectno xOffset : Nat}

/-- An extent of its own. -/
def newExtent (l : FileLayout) (truncSize objectno xOffset xLen bufferOffset : Nat) :
    ObjectExtent :=
  ⟨objectno, xOffset, xLen, objectTruncateSize l objectno truncSize, [(bufferOffset, xLen)]⟩

/-- An extent with a range behind it. -/
def extendExtent (ex : ObjectExtent) (xLen bufferOffset : Nat) : ObjectExtent :=
  { ex with
    length := ex.length + xLen
    bufferExtents := ex.bufferExtents ++ [(bufferOffset, xLen)] }

/-- If the extent of the object, where there is one, ends in front of the range, the extents keep
one for each object. -/
theorem addExtent_cases (l : FileLayout) (truncSize xLen bufferOffset : Nat)
    (hsorted : extents.Pairwise (·.objectNo < ·.objectNo))
    (hends : ∀ ex ∈ extents, ex.objectNo = objectno → ex.offset + ex.length = xOffset) :
    ∃ front back, (∀ ex ∈ front, ex.objectNo < objectno) ∧ (∀ ex ∈ back, objectno < ex.objectNo) ∧
      ((extents = front ++ back ∧ addExtent l truncSize extents objectno xOffset xLen bufferOffset =
          front ++ newExtent l truncSize objectno xOffset xLen bufferOffset :: back) ∨
      ∃ ex, ex.objectNo = objectno ∧ extents = front ++ ex :: back ∧
        addExtent l truncSize extents objectno xOffset xLen bufferOffset =
          front ++ extendExtent ex xLen bufferOffset :: back) := by
  have hfalls : Falls (fun ex => decide (ex.objectNo ≤ objectno)) extents :=
    hsorted.imp fun hlt h => decide_eq_true (hlt.le.trans (of_decide_eq_true h))
  have hback : ∀ ex ∈ extents.dropWhile (·.objectNo ≤ objectno), objectno < ex.objectNo := by
    intro ex hex
    rw [dropWhile_eq_filter hfalls, mem_filter] at hex
    simpa using hex.2
  have hfront : ∀ ex ∈ extents.takeWhile (·.objectNo ≤ objectno), ex.objectNo ≤ objectno := by
    intro ex hex
    simpa using mem_takeWhile_imp hex
  have hsplit := takeWhile_append_dropWhile (p := fun ex : ObjectExtent =>
    decide (ex.objectNo ≤ objectno)) (l := extents)
  rw [addExtent]
  generalize extents.dropWhile (fun ex => decide (ex.objectNo ≤ objectno)) = back at *
  generalize extents.takeWhile (fun ex => decide (ex.objectNo ≤ objectno)) = front at *
  cases hlast : front.getLast? with
  | none =>
    refine ⟨front, back, ?_, hback, .inl ⟨hsplit.symm, rfl⟩⟩
    rw [getLast?_eq_none_iff.1 hlast]
    exact nofun
  | some ex =>
    obtain ⟨init, rfl⟩ := getLast?_eq_some_iff.1 hlast
    rw [← hsplit, append_assoc, singleton_append, pairwise_append] at hsorted
    obtain ⟨_, ⟨_, _⟩, hcross⟩ := hsorted
    have hinit : ∀ ex' ∈ init, ex'.objectNo < ex.objectNo := fun ex' hex' =>
      hcross ex' hex' ex mem_cons_self
    have hmem : ex ∈ init ++ [ex] := mem_append_right _ mem_cons_self
    have hle := hfront ex hmem
    dsimp only
    by_cases hsame : ex.objectNo = objectno
    · -- the last extent in front is the one of the object
      have hend := hends ex (hsplit ▸ mem_append_left _ hmem) hsame
      refine ⟨init, back, fun ex' hex' => hsame ▸ hinit ex' hex', hback, .inr ⟨ex, hsame, ?_, ?_⟩⟩
      · rw [← hsplit, append_assoc, singleton_append]
      · rw [if_neg (by simp [hsame, hend]), dropLast_concat]
        rfl
    · refine ⟨init ++ [ex], back, ?_, hback, .inl ⟨hsplit.symm, if_pos (.inl hsame)⟩⟩
      intro ex' hex'
      obtain hex' | hex' := mem_append.1 hex'
      · exact (hinit ex' hex').trans_le hle
      · rw [mem_singleton.1 hex']
        omega

end Add

/-! ## The loop of `file_to_extents` -/

/-- The extents of the file range from `offset` to `cur`. -/
structure ExtentsOk (l : FileLayout) (truncSize offset bufferOffset cur : Nat)
    (extents : List ObjectExtent) : Prop where
  sorted : extents.Pairwise (·.objectNo < ·.objectNo)
  covers : ∀ o off, (∃ ex ∈ extents, ex.objectNo = o ∧ ex.offset ≤ off ∧
      off < ex.offset + ex.length) ↔
    off < l.objectSize ∧ offset ≤ l.usedStripes.toLinear o off ∧ l.usedStripes.toLinear o off < cur
  nonempty : ∀ ex ∈ extents, 0 < ex.length
  buffers : ∀ ex ∈ extents, ex.bufferExtents =
    (l.usedStripes.linearPieces ex.objectNo ex.offset ex.length).map
      fun r => (u64 (r.1 - offset + bufferOffset), r.2)
  truncated : ∀ ex ∈ extents, ex.truncateSize = objectTruncateSize l ex.objectNo truncSize

variable {ex : ObjectExtent} {off : Nat}

section Loop

variable {l : FileLayout} {truncSize offset bufferOffset cur : Nat} {extents : List ObjectExtent}

section

variable (h : ExtentsOk l truncSize offset bufferOffset cur extents)

include h

theorem ExtentsOk.unique {ex' : ObjectExtent} (hex : ex ∈ extents) (hex' : ex' ∈ extents)
    (hsame : ex.objectNo = ex'.objectNo) : ex = ex' := by
  have hnodup : (extents.map ObjectExtent.objectNo).Nodup :=
    pairwise_map.2 (h.sorted.imp fun hlt => ne_of_lt hlt)
  exact inj_on_of_nodup_map hnodup hex hex' hsame

/-- The bytes of an object in front of the position end where the next one is. -/
theorem ExtentsOk.ends (hex : ex ∈ extents) (hobject : ex.objectNo = l.usedStripes.column cur) :
    ex.offset + ex.length = l.usedStripes.place cur ∧ offset < cur := by
  have hlen := h.nonempty ex hex
  have hcur := l.usedStripes.toLinear_column_place cur
  have hplace := l.usedStripes.place_lt cur
  rw [l.usedStripes_size] at hplace
  have hlt_iff : ∀ {off off'}, l.usedStripes.toLinear (l.usedStripes.column cur) off <
      l.usedStripes.toLinear (l.usedStripes.column cur) off' ↔ off < off' :=
    l.usedStripes.toLinear_lt_iff
  have hin : ∀ off, ex.offset ≤ off → off < ex.offset + ex.length → _ := fun off hge hlt =>
    (h.covers (l.usedStripes.column cur) off).1 ⟨ex, hex, hobject, hge, hlt⟩
  obtain ⟨_, hge, hlt⟩ := hin ex.offset le_rfl (by omega)
  have hstart : ex.offset < l.usedStripes.place cur := hlt_iff.1 (by rwa [hcur])
  have hend : ex.offset + ex.length ≤ l.usedStripes.place cur := by
    by_contra hgt
    have hself := (hin (l.usedStripes.place cur) (by omega) (by omega)).2.2
    rw [hcur] at hself
    exact lt_irrefl _ hself
  refine ⟨le_antisymm hend ?_, by omega⟩
  -- a byte in between would be in an extent of the same object
  by_contra hgap
  have hlast := hlt_iff.2 (show l.usedStripes.place cur - 1 < l.usedStripes.place cur by omega)
  have hfirst := hlt_iff.2 (show ex.offset < l.usedStripes.place cur - 1 by omega)
  rw [hcur] at hlast
  obtain ⟨_, hex', hobject', _, hlt'⟩ := (h.covers (l.usedStripes.column cur)
    (l.usedStripes.place cur - 1)).2 ⟨by omega, by omega, hlast⟩
  rw [h.unique hex' hex (hobject'.trans hobject.symm)] at hlt'
  omega

/-- A block, or a part of one at the start of the range, is added. -/
theorem ExtentsOk.add (hcur : offset ≤ cur) (halign : cur = offset ∨ l.usedUnit ∣ cur) {x : Nat}
    (hx : 0 < x) (hblock : cur % l.usedUnit + x ≤ l.usedUnit) :
    ExtentsOk l truncSize offset bufferOffset (cur + x)
      (addExtent l truncSize extents (l.usedStripes.column cur) (l.usedStripes.place cur) x
        (u64 (cur - offset + bufferOffset))) := by
  obtain ⟨front, back, hfront, hback, hcases⟩ := addExtent_cases l truncSize x
    (u64 (cur - offset + bufferOffset)) h.sorted fun ex hex hobject => (h.ends hex hobject).1
  have hinterval := l.usedStripes.interval_iff hblock
  rw [l.usedStripes_size] at hinterval
  have hlinear := l.usedStripes.toLinear_column_place cur
  -- in both cases the extent of the object stands between those of the others
  have hsorted : ∀ ex : ObjectExtent, ex.objectNo = l.usedStripes.column cur →
      (front ++ back).Pairwise (·.objectNo < ·.objectNo) →
      (front ++ ex :: back).Pairwise (·.objectNo < ·.objectNo) := by
    rintro ex hobject hpair
    rw [pairwise_append] at hpair ⊢
    rw [pairwise_cons]
    refine ⟨hpair.1, ⟨fun ex' hex' => hobject ▸ hback ex' hex', hpair.2.1⟩,
      fun ex' hex' ex'' hex'' => ?_⟩
    obtain rfl | hex'' := mem_cons.1 hex''
    · exact hobject ▸ hfront ex' hex'
    · exact hpair.2.2 ex' hex' ex'' hex''
  have hmem : ∀ {ex ex' : ObjectExtent},
      ex' ∈ front ++ ex :: back ↔ ex' = ex ∨ ex' ∈ front ++ back :=
    fun {ex ex'} => perm_middle.mem_iff.trans mem_cons
  have hsame : ∀ o off, (l.usedStripes.column cur = o ∧ l.usedStripes.place cur ≤ off ∧
      off < l.usedStripes.place cur + x ∨ off < l.objectSize ∧
        offset ≤ l.usedStripes.toLinear o off ∧ l.usedStripes.toLinear o off < cur) ↔
      off < l.objectSize ∧ offset ≤ l.usedStripes.toLinear o off ∧
        l.usedStripes.toLinear o off < cur + x := by
    intro o off
    rw [eq_comm, hinterval]
    omega
  obtain ⟨rfl, hadd⟩ | ⟨ex, hobject, rfl, hadd⟩ := hcases
  · rw [hadd]
    refine ⟨hsorted _ rfl h.sorted, fun o off => ?_, ?_, ?_, ?_⟩
    · simp only [hmem, or_and_right, exists_or, exists_eq_left, h.covers o off]
      exact hsame o off
    · intro ex hex
      obtain rfl | hex := hmem.1 hex
      · exact hx
      · exact h.nonempty ex hex
    · intro ex hex
      obtain rfl | hex := hmem.1 hex
      · rw [newExtent, linearPieces, pieces_single hx
          (by rw [l.usedStripes.place_mod]; exact hblock), map_singleton, hlinear]
        rfl
      · exact h.buffers ex hex
    · intro ex hex
      obtain rfl | hex := hmem.1 hex
      · rfl
      · exact h.truncated ex hex
  · rw [hadd]
    have hex : ex ∈ front ++ ex :: back := hmem.2 (.inl rfl)
    obtain ⟨hend, hlt⟩ := h.ends hex hobject
    have hrest : ∀ ex' ∈ front ++ back, ex' ∈ front ++ ex :: back := fun ex' hex' =>
      hmem.2 (.inr hex')
    refine ⟨hsorted _ hobject (h.sorted.sublist ?_), fun o off => ?_, ?_, ?_, ?_⟩
    · exact (sublist_cons_self ex back).append_left front
    · rw [← hsame o off, ← h.covers o off]
      simp only [hmem, or_and_right, exists_or, exists_eq_left, ← or_assoc]
      refine or_congr_left ?_
      show ex.objectNo = o ∧ ex.offset ≤ off ∧ off < ex.offset + (ex.length + x) ↔ _
      omega
    · intro ex' hex'
      obtain rfl | hex' := hmem.1 hex'
      · exact Nat.add_pos_right _ hx
      · exact h.nonempty ex' (hrest ex' hex')
    · intro ex' hex'
      obtain rfl | hex' := hmem.1 hex'
      · -- a second piece of the object starts at a block
        have hdvd : l.usedStripes.su ∣ ex.offset + ex.length := by
          have hzero : cur % l.usedUnit = 0 := Nat.mod_eq_zero_of_dvd (halign.resolve_left hlt.ne')
          rw [hend]
          exact Nat.dvd_of_mod_eq_zero ((l.usedStripes.place_mod cur).trans hzero)
        have hle : x ≤ l.usedStripes.su := le_trans (Nat.le_add_left _ _) hblock
        show ex.bufferExtents ++ [(u64 (cur - offset + bufferOffset), x)] =
          (l.usedStripes.linearPieces ex.objectNo ex.offset (ex.length + x)).map _
        rw [linearPieces, pieces_append hdvd hx hle, map_append, map_append,
          h.buffers ex hex, map_singleton, hend, hobject, hlinear]
        rfl
      · exact h.buffers ex' (hrest ex' hex')
    · intro ex' hex'
      obtain rfl | hex' := hmem.1 hex'
      · exact h.truncated ex hex
      · exact h.truncated ex' (hrest ex' hex')

end

/-- What the loop takes in one round. -/
def blockLen (l : FileLayout) (cur left : Nat) : Nat :=
  if l.usedUnit - cur % l.usedUnit < left then l.usedUnit - cur % l.usedUnit else left

/-- A round takes the rest of a block, or the rest of the range. -/
theorem blockLen_spec (l : FileLayout) (cur : Nat) {left : Nat} (hleft : 0 < left) :
    0 < blockLen l cur left ∧ blockLen l cur left ≤ left ∧
    cur % l.usedUnit + blockLen l cur left ≤ l.usedUnit ∧
    (blockLen l cur left = left ∨ l.usedUnit ∣ cur + blockLen l cur left) := by
  have hmod := Nat.mod_lt cur l.usedUnit_dvd.1
  rw [blockLen]
  split
  next hlt => exact ⟨by omega, hlt.le, by omega, .inr (dvd_add_sub_mod l.usedUnit_dvd.1 cur)⟩
  next => exact ⟨hleft, le_rfl, by omega, .inl rfl⟩

/-- The loop goes through the rest of the range. -/
theorem fileToExtentsLoop_spec (rounds cur left : Nat) (extents : List ObjectExtent)
    (hleft : left ≤ rounds) (hcur : offset ≤ cur)
    (halign : 0 < left → cur = offset ∨ l.usedUnit ∣ cur) (hlt : cur + left < 2 ^ 64)
    (h : ExtentsOk l truncSize offset bufferOffset cur extents) :
    ∃ extents', fileToExtentsLoop l l.usedUnit offset truncSize bufferOffset rounds cur left extents
        = .ok extents' ∧
      ExtentsOk l truncSize offset bufferOffset (cur + left) extents' := by
  induction rounds generalizing cur left extents with
  | zero =>
    obtain rfl := Nat.le_zero.1 hleft
    exact ⟨extents, if_pos rfl, h⟩
  | succ _ ih =>
    rw [fileToExtentsLoop]
    obtain rfl | hpos := eq_zero_or_pos left
    · exact ⟨extents, if_pos rfl, h⟩
    · obtain ⟨hxpos, _, hblock, hlast⟩ := blockLen_spec l cur hpos
      obtain ⟨extents', hloop, hok⟩ := ih (cur + blockLen l cur left) (left - blockLen l cur left)
        _ (by omega) (by omega) (fun hmore => Or.inr (hlast.resolve_left (by omega))) (by omega)
        (h.add hcur (halign hpos) hxpos hblock)
      rw [← show u64 (cur + blockLen l cur left) = _ from Nat.mod_eq_of_lt (by omega)] at hloop
      rw [show cur + blockLen l cur left + (left - blockLen l cur left) = cur + left by
        omega] at hok
      rw [if_neg (ne_of_gt hpos)]
      exact ⟨extents', hloop, hok⟩

end Loop

/-! ## The loop of `extent_to_file` -/

section Back

variable {l : FileLayout} {objectno : Nat}

/-- The offset in the file that a round computes. -/
theorem extentOff_eq (hlt : l.fileOffset objectno off < 2 ^ 64) :
    u64 (u64 (u64 (off / l.stripeUnit + objectno / l.stripeCount * (l.objectSize / l.stripeUnit)) *
      l.stripeCount + objectno % l.stripeCount) * l.stripeUnit + off % l.stripeUnit) =
      l.fileOffset objectno off := by
  have hblock := ((Nat.le_mul_of_pos_right _ l.stripes.su_pos).trans
    (Nat.le_add_right _ _)).trans_lt hlt
  have hunit := ((Nat.le_mul_of_pos_right _ l.stripes.sc_pos).trans
    (Nat.le_add_right _ _)).trans_lt hblock
  dsimp only [stripes] at hunit hblock
  rw [u64, u64, u64, add_comm (off / l.stripeUnit), Nat.mod_eq_of_lt hunit, Nat.mod_eq_of_lt hblock]
  exact Nat.mod_eq_of_lt hlt

theorem extentToFileLoop_spec (rounds offInBlock off len : Nat) (hlen : len ≤ rounds)
    (hblock : 0 < len → offInBlock = off % l.stripeUnit) (hx : off + len < 2 ^ 64)
    (hfile : ∀ off', off ≤ off' → off' < off + len → l.fileOffset objectno off' < 2 ^ 64) :
    extentToFileLoop l objectno rounds offInBlock off len =
      .ok (l.stripes.linearPieces objectno off len) := by
  induction rounds generalizing offInBlock off len with
  | zero =>
    obtain rfl := Nat.le_zero.1 hlen
    rw [linearPieces, pieces_zero]
    rfl
  | succ _ ih =>
    obtain rfl | hpos := eq_zero_or_pos len
    · rw [linearPieces, pieces_zero]
      rfl
    · have hmod := Nat.mod_lt off l.unit_pos
      have hpieces : l.stripes.linearPieces objectno off len = _ :=
        congrArg (List.map _) (pieces_of_pos l.unit_pos hpos)
      rw [extentToFileLoop, if_neg (ne_of_gt hpos), hblock hpos, hpieces]
      dsimp only
      rw [extentOff_eq (hfile off le_rfl (by omega)),
        show u64 (off + min len (l.stripeUnit - off % l.stripeUnit)) =
          off + min len (l.stripeUnit - off % l.stripeUnit) from Nat.mod_eq_of_lt (by omega),
        ih 0 _ (len - min len (l.stripeUnit - off % l.stripeUnit)) (by omega) ?_ (by omega)
          (fun off' hge hlt => hfile off' (by omega) (by omega))]
      · rfl
      · -- what is left starts at a block
        intro _
        have hmin : min len (l.stripeUnit - off % l.stripeUnit) =
            l.stripeUnit - off % l.stripeUnit := by omega
        rw [hmin]
        exact (Nat.mod_eq_zero_of_dvd (dvd_add_sub_mod l.unit_pos off)).symm

end Back

/-! ## One mapping -/

/-- The offsets in the file of the bytes of an extent. -/
def ObjectExtent.fileBytes (l : FileLayout) (ex : ObjectExtent) : List Nat :=
  (List.range' ex.offset ex.length).map (l.fileOffset ex.objectNo)

/-- The extents of a file range: one for each object with a byte in the range, with the bytes of the
range that are in the object.  `extent_to_file` gives those bytes back, in the order of the buffer
extents and cut in the same places, unless the objects are filled one after the other by units that
are smaller.  Each byte of the file and of the buffer occurs once. -/
structure Striped (l : FileLayout) (offset len bufferOffset : Nat) (extents : List ObjectExtent) :
    Prop where
  one_each : extents.Pairwise (·.objectNo < ·.objectNo)
  nonempty : ∀ ex ∈ extents, 0 < ex.length
  bytes : ∀ o off, (∃ ex ∈ extents, ex.objectNo = o ∧ ex.offset ≤ off ∧
      off < ex.offset + ex.length) ↔
    off < l.objectSize ∧ offset ≤ l.fileOffset o off ∧ l.fileOffset o off < offset + len
  back : ∀ ex ∈ extents, ∃ ranges,
    extentToFile l ex.objectNo ex.offset ex.length = .ok ranges ∧
    addresses ranges = ex.fileBytes l ∧
    (addresses ex.bufferExtents).map u64 =
      (addresses ranges).map (fun x => u64 (x - offset + bufferOffset)) ∧
    (l.stripeCount ≠ 1 ∨ l.stripeUnit = l.objectSize →
      ex.bufferExtents = ranges.map fun r => (u64 (r.1 - offset + bufferOffset), r.2))
  file : (extents.flatMap (·.fileBytes l)).Perm (List.range' offset len)
  buffer : (extents.flatMap fun ex => (addresses ex.bufferExtents).map u64).Perm
    ((List.range' bufferOffset len).map u64)

section Mapping

variable {l : FileLayout} {truncSize offset bufferOffset len : Nat} {extents : List ObjectExtent}

theorem fileOffset_inj {o o' off' : Nat} (hoff : off < l.objectSize) (hoff' : off' < l.objectSize)
    (h : l.fileOffset o off = l.fileOffset o' off') : o = o' ∧ off = off' := by
  rw [← l.stripes_size] at hoff hoff'
  have hcolumn := congrArg l.stripes.column h
  have hplace := congrArg l.stripes.place h
  rw [fileOffset, fileOffset, l.stripes.column_toLinear hoff,
    l.stripes.column_toLinear hoff'] at hcolumn
  rw [fileOffset, fileOffset, l.stripes.place_toLinear hoff,
    l.stripes.place_toLinear hoff'] at hplace
  exact ⟨hcolumn, hplace⟩

/-- Every byte of the file is in an object. -/
theorem exists_fileOffset (l : FileLayout) (x : Nat) :
    ∃ o off, off < l.objectSize ∧ l.fileOffset o off = x :=
  ⟨l.stripes.column x, l.stripes.place x, l.stripes_size ▸ l.stripes.place_lt x,
    l.stripes.toLinear_column_place x⟩

section

variable (h : ExtentsOk l truncSize offset bufferOffset (offset + len) extents)

include h

theorem ExtentsOk.mem_fileBytes (hex : ex ∈ extents) (hge : ex.offset ≤ off)
    (hlt : off < ex.offset + ex.length) :
    off < l.objectSize ∧ offset ≤ l.fileOffset ex.objectNo off ∧
      l.fileOffset ex.objectNo off < offset + len := by
  rw [← l.usedStripes_toLinear]
  exact (h.covers ex.objectNo off).1 ⟨ex, hex, rfl, hge, hlt⟩

theorem ExtentsOk.fileBytes_perm :
    (extents.flatMap (·.fileBytes l)).Perm (List.range' offset len) := by
  have hmem : ∀ {ex : ObjectExtent} {x : Nat}, x ∈ ex.fileBytes l ↔
      ∃ off, ex.offset ≤ off ∧ off < ex.offset + ex.length ∧ l.fileOffset ex.objectNo off = x := by
    intro ex x
    rw [ObjectExtent.fileBytes, mem_map]
    simp only [mem_range'_1, and_assoc]
  refine (perm_ext_iff_of_nodup ?_ nodup_range').2 fun x => ?_
  · rw [nodup_flatMap]
    constructor
    · intro ex hex
      refine (nodup_map_iff_inj_on nodup_range').2 fun off hoff off' hoff' heq => ?_
      rw [mem_range'_1] at hoff hoff'
      exact (fileOffset_inj (h.mem_fileBytes hex hoff.1 hoff.2).1
        (h.mem_fileBytes hex hoff'.1 hoff'.2).1 heq).2
    · refine h.sorted.imp_of_mem fun {ex ex'} hex hex' hlt x hx hx' => ?_
      obtain ⟨off, hge, hoff, rfl⟩ := hmem.1 hx
      obtain ⟨off', hge', hoff', heq⟩ := hmem.1 hx'
      exact absurd (fileOffset_inj (h.mem_fileBytes hex hge hoff).1
        (h.mem_fileBytes hex' hge' hoff').1 heq.symm).1 (ne_of_lt hlt)
  · rw [mem_flatMap, mem_range'_1]
    constructor
    · rintro ⟨ex, hex, hx⟩
      obtain ⟨off, hge, hlt, rfl⟩ := hmem.1 hx
      exact (h.mem_fileBytes hex hge hlt).2
    · rintro ⟨hge, hlt⟩
      obtain ⟨o, off, hoff, rfl⟩ := exists_fileOffset l x
      rw [← l.usedStripes_toLinear] at hge hlt
      obtain ⟨ex, hex, rfl, hle, hend⟩ := (h.covers o off).2 ⟨hoff, hge, hlt⟩
      exact ⟨ex, hex, hmem.2 ⟨off, hle, hend, rfl⟩⟩

/-- The buffer extents are the bytes of the file, moved to the buffer. -/
theorem ExtentsOk.buffer_eq (hex : ex ∈ extents) :
    (addresses ex.bufferExtents).map u64 =
      (ex.fileBytes l).map fun x => u64 (x - offset + bufferOffset) := by
  have hused : ex.fileBytes l =
      addresses (l.usedStripes.linearPieces ex.objectNo ex.offset ex.length) := by
    rw [addresses_linearPieces]
    exact map_congr_left fun off _ => (l.usedStripes_toLinear _ _).symm
  have hpiece : ∀ r ∈ l.usedStripes.linearPieces ex.objectNo ex.offset ex.length,
      (List.range' (u64 (r.1 - offset + bufferOffset)) r.2).map u64 =
        (List.range' r.1 r.2).map fun x => u64 (x - offset + bufferOffset) := by
    intro r hr
    obtain ⟨_, hp, rfl⟩ := mem_map.1 hr
    obtain ⟨_, _, hge, _⟩ := mem_pieces hp
    have hstart := (h.mem_fileBytes hex hge (by omega)).2.1
    rw [← l.usedStripes_toLinear] at hstart
    refine ext_getElem (by simp) fun j _ _ => ?_
    rw [getElem_map, getElem_map, getElem_range', getElem_range', u64, u64, Nat.mod_add_mod]
    congr 1
    omega
  rw [hused, h.buffers ex hex, addresses, addresses, flatMap_map, map_flatMap, map_flatMap]
  exact flatMap_congr hpiece

theorem ExtentsOk.striped
    (hend : offset + len < 2 ^ 64) : Striped l offset len bufferOffset extents where
  one_each := h.sorted
  nonempty := h.nonempty
  bytes := fun o off => by
    rw [← l.usedStripes_toLinear]
    exact h.covers o off
  back := by
    intro ex hex
    have hlen := h.nonempty ex hex
    have hsize := l.size_lt
    have hlast := (h.mem_fileBytes hex (show ex.offset ≤ ex.offset + ex.length - 1 by omega)
      (by omega)).1
    have hback : addresses (l.stripes.linearPieces ex.objectNo ex.offset ex.length) =
        ex.fileBytes l := addresses_linearPieces ..
    refine ⟨_, extentToFileLoop_spec _ _ _ _ le_rfl (fun _ => rfl) (by omega) fun off hge hlt =>
      (h.mem_fileBytes hex hge hlt).2.2.trans hend, hback, ?_, fun hunit => ?_⟩
    · rw [hback, h.buffer_eq hex]
    · have hsame : l.usedStripes = l.stripes := by
        have hused : l.usedUnit = l.stripeUnit := by
          rw [usedUnit]
          split
          next hone => exact (hunit.resolve_left (not_not.2 hone)).symm
          next => rfl
        rw [usedStripes, stripes]
        simp only [hused]
      rw [h.buffers ex hex, hsame]
  file := h.fileBytes_perm
  buffer := by
    have hbuffer : (extents.flatMap fun ex => (addresses ex.bufferExtents).map u64) =
        (extents.flatMap (·.fileBytes l)).map fun x => u64 (x - offset + bufferOffset) := by
      rw [map_flatMap]
      exact flatMap_congr fun ex hex => h.buffer_eq hex
    have hshift : (List.range' offset len).map (fun x => u64 (x - offset + bufferOffset)) =
        (List.range' bufferOffset len).map u64 := by
      refine ext_getElem (by simp) fun j _ _ => ?_
      rw [getElem_map, getElem_map, getElem_range', getElem_range']
      congr 1
      omega
    rw [hbuffer, ← hshift]
    exact h.fileBytes_perm.map _

end

/-- The pieces of arithmetic describe one mapping: every byte of the file is in one place of one
object, a range of the file is mapped there by `file_to_extents` and back by `extent_to_file`,
`object_truncate_size` counts the bytes of an object in front of an offset of the file, and
`get_num_objects` the objects, as long as size and period fit into 64 bits together. -/
theorem striping_is_one_mapping (l : FileLayout) :
    (∀ x, ∃ o off, off < l.objectSize ∧ l.fileOffset o off = x ∧
      ∀ o' off', off' < l.objectSize → l.fileOffset o' off' = x → o' = o ∧ off' = off) ∧
    (∀ offset len truncSize bufferOffset, offset + len < 2 ^ 64 →
      (0 < len ↔ ∃ extents, fileToExtents l offset len truncSize bufferOffset = .ok extents ∧
        Striped l offset len bufferOffset extents ∧
        ∀ ex ∈ extents, ex.truncateSize = objectTruncateSize l ex.objectNo truncSize)) ∧
    (∀ objectno truncSize,
      LeadingBytes l objectno truncSize (objectTruncateSize l objectno truncSize) ↔
        truncSize ≠ 2 ^ 64 - 1) ∧
    (∀ size, size + l.getPeriod ≤ 2 ^ 64 → NumObjects l size (getNumObjects l size)) ∧
    ∀ size < 2 ^ 63, NumObjects l size (getNumObjects l size) ↔ size + l.getPeriod ≤ 2 ^ 64 := by
  refine ⟨fun x => ?_, fun offset len truncSize bufferOffset hend => ⟨fun hlen => ?_, ?_⟩,
    leadingBytes_truncateSize_iff l, fun size hfit => numObjects_iff.2 (getNumObjects_eq hfit),
    fun size hsize => ⟨fun h => ?_, fun hfit => numObjects_iff.2 (getNumObjects_eq hfit)⟩⟩
  · obtain ⟨o, off, hoff, hx⟩ := exists_fileOffset l x
    exact ⟨o, off, hoff, hx, fun o' off' hoff' hx' => fileOffset_inj hoff' hoff (hx'.trans hx.symm)⟩
  · have hstart : ExtentsOk l truncSize offset bufferOffset offset [] :=
      ⟨.nil, fun _ _ => iff_of_false (fun ⟨_, hex, _⟩ => not_mem_nil hex) (by omega), nofun, nofun,
        nofun⟩
    obtain ⟨extents, hok, h⟩ := fileToExtentsLoop_spec len offset len [] le_rfl le_rfl
      (fun _ => .inl rfl) hend hstart
    rw [fileToExtents, if_neg (ne_of_gt hlen)]
    exact ⟨extents, hok, h.striped hend, h.truncated⟩
  · rintro ⟨extents, hok, _⟩
    by_contra hzero
    rw [fileToExtents, if_pos (by omega)] at hok
    cases hok
  · by_contra hover
    exact getNumObjects_ne hsize (Nat.lt_of_not_le hover) (numObjects_iff.1 h)

end Mapping

/-- Objects of two stripe units each, in sets of three. -/
def narrowLayout : FileLayout where
  stripeUnit := 4
  stripeCount := 3
  objectSize := 8
  unit_pos := by decide
  count_pos := by decide
  size_pos := by decide
  unit_dvd := by decide
  count_lt := by decide
  size_lt := by decide

/-- A range that starts inside a stripe unit and ends in the second set of objects. -/
theorem striping_is_one_mapping_narrow :
    (∃ extents, fileToExtents narrowLayout 6 20 26 0 = .ok extents ∧
      Striped narrowLayout 6 20 0 extents ∧
      extents.map (fun ex => (ex.objectNo, ex.offset, ex.length)) =
        [(0, 4, 4), (1, 2, 6), (2, 0, 8), (3, 0, 2)]) ∧
    objectTruncateSize narrowLayout 1 18 = 6 ∧ LeadingBytes narrowLayout 1 18 6 ∧
    NumObjects narrowLayout 26 (getNumObjects narrowLayout 26) := by
  obtain ⟨-, hextents, hleading, hcount, -⟩ := striping_is_one_mapping narrowLayout
  obtain ⟨extents, hok, hstriped, -⟩ := (hextents 6 20 26 0 (by decide)).1 (by decide)
  have hplaces : (fileToExtents narrowLayout 6 20 26 0).map
      (map fun ex => (ex.objectNo, ex.offset, ex.length)) =
        .ok [(0, 4, 4), (1, 2, 6), (2, 0, 8), (3, 0, 2)] := by decide
  rw [hok] at hplaces
  exact ⟨⟨extents, hok, hstriped, Except.ok.inj hplaces⟩, by decide,
    (hleading 1 18).2 (by decide), hcount 26 (by decide)⟩

/-- A layout with many large objects. -/
def wideLayout : FileLayout where
  stripeUnit := 2 ^ 32 - 65536
  stripeCount := 2 ^ 32 - 1
  objectSize := 2 ^ 32 - 65536
  unit_pos := by decide
  count_pos := by decide
  size_pos := by decide
  unit_dvd := dvd_refl _
  count_lt := by decide
  size_lt := by decide

/-- A file of `2 ^ 49` bytes has 131075 objects of such a layout, not the number returned. -/
theorem getNumObjects_wide :
    getNumObjects wideLayout (2 ^ 49) = 2 ^ 64 - (2 ^ 32 - 1 - 131075) ∧
    NumObjects wideLayout (2 ^ 49) 131075 ∧
    ¬ NumObjects wideLayout (2 ^ 49) (getNumObjects wideLayout (2 ^ 49)) := by
  refine ⟨by decide, numObjects_iff.2 (by decide), fun h => ?_⟩
  exact absurd (numObjects_iff.1 h) (by decide)

end Ceph.Osdc
