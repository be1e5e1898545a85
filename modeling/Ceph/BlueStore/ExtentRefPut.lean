import Ceph.BlueStore.ExtentRefGet

set_option autoImplicit false

/-!
# `bluestore_extent_ref_map_t::put`

`put` lowers the level of the bytes of its range by one.  Bytes whose level becomes 0 are
appended to the extents that are to be released, each of them once.  That an entry with other
than one reference was seen means that there still is one.
-/

namespace Ceph.BlueStore.RefMap

open Ceph.Lib Ceph.Include List Segment Bool

/-- How often a byte is in the extents. -/
def released (l : List PExtent) (x : Nat) : Nat := (l.map fun e => inRange e.offset e.length x).sum

section

variable {lo hi : Nat} {pre post : List Segment} {p s : Segment} {offset length x : Nat}

theorem released_nil : released [] x = 0 := rfl

theorem released_cons {e : PExtent} {l : List PExtent} :
    released (e :: l) x = inRange e.offset e.length x + released l x := by
  rw [released, map_cons, sum_cons, released]

/-! ## The first entry -/

/-- An entry that holds the offset, with the two parts of the map around it. -/
def Holds (m : RefMap) (offset : Nat) (res : Option (List Segment × Segment × List Segment)) :
    Prop :=
  (res = none ∧ levelAt m offset = 0) ∨
    ∃ pre p post, res = some (pre, p, post) ∧ m = pre.reverse ++ p :: post ∧
      p.first ≤ offset ∧ offset < p.stop

theorem holderBefore_spec (hw : Window lo hi) (hm : Valid lo hi (pre.reverse ++ post))
    (hpre : ∀ s ∈ pre, s.first < offset) (hpost : ∀ t ∈ post, offset < t.first) :
    Holds (pre.reverse ++ post) offset (holderBefore offset post pre) := by
  obtain ⟨hopre, _, _⟩ := inOrder_splice.1 hm.order
  have hzero : levelAt post offset = 0 := levelAt_of_lt hpost
  cases pre with
  | nil => exact .inl ⟨rfl, hzero⟩
  | cons q pre =>
    obtain ⟨_, _, _, hfront⟩ := inOrder_reverse_cons.1 hopre
    have hin := (within_cons.1 (within_reverse.1 (within_append.1 hm.within).1)).1
    have hq := hpre q mem_cons_self
    rw [holderBefore, hw.endOf hin.2.1]
    split
    next hle =>
      refine .inl ⟨rfl, ?_⟩
      rw [levelAt_append, levelAt_reverse, hzero]
      refine levelAt_of_ge (forall_mem_cons.2 ⟨hle, fun s hs => ?_⟩)
      have := hfront s hs
      omega
    next hgt =>
      refine .inr ⟨pre, q, post, rfl, ?_, hq.le, not_le.1 hgt⟩
      rw [reverse_cons, append_assoc, singleton_append]

variable {m : RefMap} {unshared : Bool}

/-- Either no entry holds the offset, or the one that does is found. -/
theorem findHolder_spec (hw : Window lo hi) (hm : Valid lo hi m) (offset : Nat) :
    Holds m offset (findHolder m offset) := by
  obtain ⟨pre, post, hbound, rfl, hpre, hpost⟩ := lowerBound_spec hm.order offset
  obtain ⟨_, hopost, _⟩ := inOrder_splice.1 hm.order
  rw [findHolder, hbound]
  cases post with
  | nil => exact holderBefore_spec hw hm hpre nofun
  | cons p post =>
    have hp := hpost p mem_cons_self
    obtain ⟨_, _, _, hrest⟩ := inOrder_cons.1 hopost
    have hstop : p.stop = p.first + p.length := rfl
    dsimp only
    split
    next hgt =>
      refine holderBefore_spec hw hm hpre (forall_mem_cons.2 ⟨hgt, fun t ht => ?_⟩)
      have := hrest t ht
      omega
    next _ => exact .inr ⟨pre, p, post, rfl, rfl, by omega, by omega⟩

/-! ## The loop of put -/

/-- What is left of a map after `put`. -/
structure PutDone (lo hi : Nat) (pre post : List Segment) (offset length : Nat)
    (m : RefMap) (rel : List PExtent) (unshared : Bool) : Prop where
  valid : Valid lo hi m
  levels : ∀ x, levelAt m x + inRange offset length x = levelAt pre x + levelAt post x
  released : ∀ x, released rel x =
    if offset ≤ x ∧ x < offset + length ∧ levelAt post x = 1 then 1 else 0
  shared : unshared = false → ∃ x, 1 < levelAt m x

/-- A byte in front of the position keeps its level. -/
theorem At.shared_of_pre (h : At lo hi pre post offset)
    (hlev : ∀ x, levelAt m x + inRange offset length x = levelAt pre x + levelAt post x)
    (hpre : ∃ x, 1 < levelAt pre x) : ∃ x, 1 < levelAt m x := by
  obtain ⟨x, hx⟩ := hpre
  obtain ⟨s, hs, _, hstop⟩ := exists_of_levelAt_pos (lt_trans one_pos hx)
  have hlt : x < offset := lt_of_lt_of_le hstop (h.behind s hs)
  have hrange : inRange offset length x = 0 := if_neg fun hin => by omega
  have hx' := hlev x
  exact ⟨x, by omega⟩

theorem PutDone.of_zero (hw : Window lo hi) (h : At lo hi pre post offset)
    (hshared : unshared = false → ∃ x, 1 < levelAt pre x) :
    PutDone lo hi pre post offset 0 (mergeAt pre post) [] unshared := by
  obtain ⟨hvalid, hlev⟩ := mergeAt_spec hw h.splice h.preIn h.postIn
  have hlevels : ∀ x, levelAt (mergeAt pre post) x + inRange offset 0 x =
      levelAt pre x + levelAt post x := fun x => by rw [hlev, inRange_zero, add_zero]
  refine ⟨hvalid, hlevels, fun x => ?_, fun hfalse => h.shared_of_pre hlevels (hshared hfalse)⟩
  rw [if_neg fun hx => by omega, released_nil]

/-- The last entry of the range has more than one reference. -/
theorem PutDone.of_lower_part (hw : Window lo hi) (h : At lo hi pre (p :: post) offset)
    (hfirst : p.first = offset) (hpos : 0 < length) (hlt : length < p.length)
    (hlev : 1 < p.level) : ∃ pre' q, maybeMergeLeft pre ⟨p.first, length, p.level - 1⟩ = (pre', q) ∧
      PutDone lo hi pre (p :: post) offset length (pre'.reverse ++ q ::
        ⟨offset + length, p.length - length, p.level⟩ :: post) [] unshared := by
  obtain ⟨⟨hlo, hhi, _⟩, _⟩ := within_cons.1 h.postIn
  have hstop : p.first + p.length ≤ hi := hhi
  have hcut := h.cut hfirst hlt
  have hat : At lo hi pre (⟨offset + length, p.length - length, p.level⟩ :: post) offset :=
    ⟨hcut.splice, hcut.preIn, hcut.postIn, h.behind,
      fun t ht => le_trans (Nat.le_add_right _ _) (hcut.ahead t ht)⟩
  obtain ⟨pre', q, hmerge, hat', hj⟩ := hat.push (s := ⟨p.first, length, p.level - 1⟩) hw hfirst
    hpos (show 0 < p.level - 1 by omega)
    ⟨hlo, (show p.first + length ≤ hi by omega), (show p.level - 1 < 2 ^ 32 by omega)⟩
    (by rw [hfirst]; exact hcut.ahead)
  have hform : pre'.reverse ++ q :: ⟨offset + length, p.length - length, p.level⟩ :: post =
      (q :: pre').reverse ++ ⟨offset + length, p.length - length, p.level⟩ :: post := by
    rw [reverse_cons, append_assoc, singleton_append]
  have hlevels : ∀ x, levelAt (pre'.reverse ++ q ::
      ⟨offset + length, p.length - length, p.level⟩ :: post) x + inRange offset length x =
        levelAt pre x + levelAt (p :: post) x := by
    intro x
    have hjx := hj.levelAt x
    have hp := p.levelOf_cut_at (x := x) hlt.le
    have hlower := levelOf_lower p.first length (x := x) (lt_trans one_pos hlev)
    rw [hfirst] at hp hjx hlower
    simp only [levelAt_cons, levelAt_append, levelAt_reverse] at hjx ⊢
    omega
  refine ⟨pre', q, hmerge, ?_⟩
  refine ⟨⟨?_, ?_, ?_⟩, hlevels, fun x => ?_, fun _ => ?_⟩
  · rw [hform]
    exact hat'.splice.order
  · rw [hform]
    refine hat'.splice.merged_of_apart fun t ht => ?_
    cases ht
    have hq : q.level = p.level - 1 := hj.level
    exact fun _ => by dsimp only; omega
  · rw [hform]
    exact within_append.2 ⟨within_reverse.2 hat'.preIn, hat'.postIn⟩
  · rw [released_nil, if_neg]
    rintro ⟨hlox, _, hone⟩
    rw [(inOrder_splice.1 h.splice.order).2.1.levelAt_eq mem_cons_self
      (le_trans hfirst.le hlox) (by rw [stop]; omega)] at hone
    omega
  · refine ⟨offset + length, ?_⟩
    have hx := hlevels (offset + length)
    have hrange : inRange offset length (offset + length) = 0 := if_neg fun hx => by omega
    have hp := (inOrder_splice.1 h.splice.order).2.1.levelAt_eq mem_cons_self
      (x := offset + length) (by omega) (by rw [stop]; omega)
    omega

/-- The last entry of the range has one reference. -/
theorem PutDone.of_free_part (h : At lo hi pre (p :: post) offset) (hfirst : p.first = offset)
    (hpos : 0 < length) (hlt : length < p.length) (hlev : p.level = 1)
    (hshared : unshared = false → ∃ x, 1 < levelAt pre x) :
    PutDone lo hi pre (p :: post) offset length (pre.reverse ++
        ⟨offset + length, p.length - length, p.level⟩ :: post) [⟨p.first, length⟩] unshared := by
  have hcut := h.cut hfirst hlt
  have hlevels : ∀ x, levelAt (pre.reverse ++
      ⟨offset + length, p.length - length, p.level⟩ :: post) x + inRange offset length x =
        levelAt pre x + levelAt (p :: post) x := by
    intro x
    have hp := p.levelOf_cut_at (x := x) hlt.le
    rw [hfirst, hlev, levelOf_one] at hp
    rw [hlev]
    simp only [levelAt_cons, levelAt_append, levelAt_reverse]
    omega
  refine ⟨⟨hcut.splice.order, hcut.splice.merged_of_apart fun t ht hstop => ?_,
    within_append.2 ⟨within_reverse.2 hcut.preIn, hcut.postIn⟩⟩, hlevels, fun x => ?_,
    fun hfalse => h.shared_of_pre hlevels (hshared hfalse)⟩
  · have hbehind := h.behind t (mem_of_mem_head? ht)
    have hgap : t.stop = offset + length := hstop
    omega
  · rw [released_cons, released_nil, hfirst]
    by_cases hx : offset ≤ x ∧ x < offset + length
    · have hone := (inOrder_splice.1 h.splice.order).2.1.levelAt_eq mem_cons_self
        (x := x) (by omega) (by rw [stop]; omega)
      rw [inRange, if_pos hx, if_pos ⟨hx.1, hx.2, hone.trans hlev⟩]
    · rw [inRange, if_neg hx, if_neg fun hall => hx ⟨hall.1, hall.2.1⟩]

/-- What is released of an entry and of the entries behind it. -/
theorem released_split {rel : List PExtent} (h : At lo hi pre (p :: post) offset)
    (hfirst : p.first = offset) (hle : p.length ≤ length)
    (hrel : ∀ x, released rel x = if offset + p.length ≤ x ∧
      x < offset + p.length + (length - p.length) ∧ levelAt post x = 1 then 1 else 0) (x : Nat) :
    (if p.level = 1 then inRange offset p.length x else 0) + released rel x =
      if offset ≤ x ∧ x < offset + length ∧ levelAt (p :: post) x = 1 then 1 else 0 := by
  obtain ⟨_, hpost, _⟩ := inOrder_splice.1 h.splice.order
  have hstop : p.stop = offset + p.length := by rw [stop, hfirst]
  rw [hrel]
  obtain hlt | hge := lt_or_ge x (offset + p.length)
  · rw [if_neg (show ¬ (offset + p.length ≤ x ∧ _) from fun hx => by omega)]
    by_cases hx : offset ≤ x
    · have hin : inRange offset p.length x = 1 := if_pos ⟨hx, hlt⟩
      rw [hpost.levelAt_eq mem_cons_self (by omega) (by omega), hin]
      by_cases hone : p.level = 1
      · rw [if_pos hone, if_pos ⟨hx, by omega, hone⟩]
      · rw [if_neg hone, if_neg fun hall => hone hall.2.2]
    · have hout : inRange offset p.length x = 0 := if_neg fun hin => hx hin.1
      rw [hout, ite_self, if_neg fun hall => hx hall.1]
  · have hzero : inRange offset p.length x = 0 := if_neg fun hin => by omega
    rw [hzero, ite_self, zero_add, levelAt_cons, p.levelOf_of_ge (by omega), zero_add]
    have hsum : offset + p.length + (length - p.length) = offset + length := by omega
    rw [hsum]
    congr 1
    exact propext ⟨fun hx => ⟨by omega, hx.2⟩, fun hx => ⟨hge, hx.2⟩⟩

theorem putLoop_spec (hw : Window lo hi) (post pre : List Segment) (offset length : Nat)
    (release : List PExtent) (unshared : Bool) (h : At lo hi pre post offset)
    (hhi : offset + length ≤ hi)
    (hpos : ∀ x, offset ≤ x → x < offset + length → 0 < levelAt post x)
    (hshared : unshared = false → ∃ x, 1 < levelAt pre x) :
    ∃ m rel unshared', putLoop post pre offset length release unshared =
      some (m, release ++ rel, unshared') ∧
        PutDone lo hi pre post offset length m rel unshared' := by
  induction post generalizing pre offset length release unshared with
  | nil =>
    obtain rfl : length = 0 := by
      by_contra hne
      have hx := hpos offset le_rfl (by omega)
      rw [levelAt_nil] at hx
      omega
    refine ⟨_, [], unshared, ?_, .of_zero hw h hshared⟩
    rw [putLoop, append_nil]
    rfl
  | cons p post ih =>
    by_cases hzero : length = 0
    · subst hzero
      refine ⟨_, [], unshared, ?_, .of_zero hw h hshared⟩
      rw [putLoop, if_pos rfl, append_nil]
    have hfirst : p.first = offset := le_antisymm
      ((inOrder_splice.1 h.splice.order).2.1.first_le (hpos offset le_rfl (by omega)))
      (h.ahead p mem_cons_self)
    obtain ⟨_, hpost, _⟩ := inOrder_splice.1 h.splice.order
    obtain ⟨hlen, _, _, hrest⟩ := inOrder_cons.1 hpost
    obtain ⟨⟨hlo, hstop, _⟩, _⟩ := within_cons.1 h.postIn
    have htop := hw.top
    have hpstop : p.stop = offset + p.length := by rw [stop, hfirst]
    rw [putLoop, if_neg hzero, if_neg (not_not.2 hfirst)]
    by_cases hpart : length < p.length
    · simp only [if_pos hpart]
      rw [u64_of_lt (by omega)]
      by_cases hmany : p.level > 1
      · rw [if_pos hmany]
        obtain ⟨pre', q, hmerge, hdone⟩ := PutDone.of_lower_part hw h hfirst
          (pos_of_ne_zero hzero) hpart hmany
        exact ⟨_, [], _, by rw [hmerge, append_nil], hdone⟩
      · have hone : p.level = 1 := by omega
        rw [if_neg hmany, decide_eq_true hone, Bool.and_true]
        exact ⟨_, _, _, rfl, .of_free_part h hfirst (pos_of_ne_zero hzero) hpart hone hshared⟩
    · rw [if_neg hpart, u64_of_lt (by omega)]
      have hcover : ∀ x, offset + p.length ≤ x → x < offset + p.length + (length - p.length) →
          0 < levelAt post x := fun x hx hx' => by
        have hp := hpos x (by omega) (by omega)
        rwa [levelAt_cons, p.levelOf_of_ge (by omega), zero_add] at hp
      by_cases hmany : p.level > 1
      · simp only [if_pos hmany]
        obtain ⟨pre', q, hmerge, hat, hj⟩ := (h.skip le_rfl (by omega)).push
          (s := { p with level := p.level - 1 }) hw hfirst hlen
          (show 0 < p.level - 1 by omega) ⟨hlo, hstop, (show p.level - 1 < 2 ^ 32 by omega)⟩ hrest
        rw [hmerge]
        rw [show ({ p with level := p.level - 1 } : Segment).stop = offset + p.length from
          hpstop] at hat
        have hlower : ∀ x, p.levelOf x = ({ p with level := p.level - 1 } : Segment).levelOf x +
            inRange offset p.length x := fun x => by
          rw [← hfirst]
          exact levelOf_lower p.first p.length (lt_trans one_pos hmany)
        have hjoin : ∀ x, levelAt (q :: pre') x =
            ({ p with level := p.level - 1 } : Segment).levelOf x + levelAt pre x := fun x => by
          exact hj.levelAt x
        have hshared' : (unshared && decide (p.level - 1 = 1)) = false →
            ∃ x, 1 < levelAt (q :: pre') x := by
          intro hfalse
          obtain hold | hnew := and_eq_false_iff.1 hfalse
          · obtain ⟨x, hx⟩ := hshared hold
            have hjx := hjoin x
            exact ⟨x, by omega⟩
          · have hne := of_decide_eq_false hnew
            have hp := p.levelOf_of_mem (x := offset) (by omega) (by omega)
            have hin : inRange offset p.length offset = 1 := if_pos ⟨le_rfl, by omega⟩
            have hlow := hlower offset
            have hjx := hjoin offset
            exact ⟨offset, by omega⟩
        obtain ⟨m, rel, unshared', hloop, hdone⟩ := ih (q :: pre') (offset + p.length)
          (length - p.length) release (unshared && decide (p.level - 1 = 1)) hat (by omega) hcover
          hshared'
        refine ⟨m, rel, unshared', hloop, ⟨hdone.valid, fun x => ?_, fun x => ?_, hdone.shared⟩⟩
        · have hx := hdone.levels x
          rw [hjoin] at hx
          rw [inRange_cut (not_lt.1 hpart), levelAt_cons, hlower]
          omega
        · rw [← released_split h hfirst (not_lt.1 hpart) hdone.released,
            if_neg (by omega), zero_add]
      · have hone : p.level = 1 := by omega
        rw [if_neg hmany]
        obtain ⟨m, rel, unshared', hloop, hdone⟩ := ih pre (offset + p.length)
          (length - p.length) (release ++ [⟨p.first, p.length⟩]) unshared
          (h.skip (Nat.le_add_right _ _) (by omega)) (by omega) hcover hshared
        refine ⟨m, ⟨p.first, p.length⟩ :: rel, unshared', ?_, ⟨hdone.valid, fun x => ?_,
          fun x => ?_, hdone.shared⟩⟩
        · rw [hloop, append_assoc, singleton_append]
        · have hx := hdone.levels x
          have hp : p.levelOf x = inRange offset p.length x := by
            rw [← hfirst, ← levelOf_one, ← hone]
          rw [inRange_cut (not_lt.1 hpart), levelAt_cons]
          omega
        · rw [released_cons, hfirst, ← released_split h hfirst (not_lt.1 hpart)
            hdone.released, if_pos hone]

/-- All entries have one reference if and only if no byte has more. -/
theorem all_one_iff (h : InOrder m) :
    (m.all fun p => decide (p.level = 1)) = true ↔ ∀ x, levelAt m x ≤ 1 := by
  rw [all_eq_true]
  constructor
  · intro hall x
    by_contra hx
    obtain ⟨s, hs, hlo, hhi⟩ := exists_of_levelAt_pos (l := m) (x := x) (by omega)
    have hone := of_decide_eq_true (hall s hs)
    rw [h.levelAt_eq hs hlo hhi] at hx
    omega
  · intro hall s hs
    obtain ⟨_, _⟩ := h.pos s hs
    have hx := hall s.first
    rw [h.levelAt_eq hs le_rfl (by rw [stop]; omega)] at hx
    exact decide_eq_true (by omega)

/-- `put` lowers the level of every byte of its range by one, releases exactly the bytes whose
level becomes 0, and says whether no byte is left with a level above one. -/
theorem put_spec (hw : Window lo hi) (hm : Valid lo hi m) (hhi : offset + length ≤ hi)
    (hpos : 0 < length) (hlevel : ∀ x, offset ≤ x → x < offset + length → 0 < levelAt m x)
    (release : List PExtent) :
    ∃ m' rel unshared, put m offset length release = some (m', release ++ rel, unshared) ∧
      Valid lo hi m' ∧ (∀ x, levelAt m' x + inRange offset length x = levelAt m x) ∧
      (∀ x, released rel x = if offset ≤ x ∧ x < offset + length ∧ levelAt m x = 1 then 1 else 0) ∧
      (unshared = true ↔ ∀ x, levelAt m' x ≤ 1) := by
  rw [put]
  obtain _ | hsome := findHolder_spec hw hm offset
  · have hx := hlevel offset le_rfl (by omega)
    omega
  · obtain ⟨pre, p, post, hfind, rfl, hfirst, hstop⟩ := hsome
    obtain ⟨pre', p', hsplit, hat, _, hsame, hleft⟩ := splitAt_spec hw hm hfirst hstop
    rw [hfind]
    dsimp only
    rw [hsplit]
    dsimp only
    have hsum : ∀ x, levelAt (pre.reverse ++ p :: post) x =
        levelAt pre' x + levelAt (p' :: post) x := fun x => by
      rw [hsame, levelAt_append, levelAt_reverse]
    -- in the range, everything is from the position on
    have hahead : ∀ x, offset ≤ x →
        levelAt (pre.reverse ++ p :: post) x = levelAt (p' :: post) x := fun x hx => by
      rw [hsum, levelAt_of_ge fun s hs => le_trans (hat.behind s hs) hx, zero_add]
    have hshared : (!(decide (p.first < offset) && decide (p.level ≠ 1))) = false →
        ∃ x, 1 < levelAt pre' x := by
      intro hfalse
      rw [not_eq_false', and_eq_true, decide_eq_true_eq, decide_eq_true_eq] at hfalse
      obtain ⟨s, hs, _⟩ := hleft hfalse.1
      have horder := (inOrder_splice.1 hat.splice.order).1
      obtain ⟨_, _⟩ := horder.pos s (mem_reverse.2 hs)
      refine ⟨s.first, ?_⟩
      rw [← levelAt_reverse, horder.levelAt_eq (mem_reverse.2 hs) le_rfl (by rw [stop]; omega)]
      omega
    obtain ⟨m', rel, unshared, hloop, hdone⟩ := putLoop_spec hw (p' :: post) pre' offset length
      release (!(decide (p.first < offset) && decide (p.level ≠ 1))) hat hhi
      (fun x hx hx' => hahead x hx ▸ hlevel x hx hx') hshared
    refine ⟨m', rel, unshared && m'.all fun p => decide (p.level = 1), by rw [hloop]; rfl,
      hdone.valid, fun x => by rw [hdone.levels, hsum], fun x => ?_, ?_⟩
    · rw [hdone.released]
      congr 1
      exact propext ⟨fun hx => ⟨hx.1, hx.2.1, (hahead x hx.1).trans hx.2.2⟩,
        fun hx => ⟨hx.1, hx.2.1, (hahead x hx.1).symm.trans hx.2.2⟩⟩
    · rw [and_eq_true, all_one_iff hdone.valid.order]
      refine ⟨fun h => h.2, fun h => ⟨?_, h⟩⟩
      by_contra hfalse
      obtain ⟨x, hx⟩ := hdone.shared (not_eq_true _ ▸ hfalse)
      have := h x
      omega

end

end Ceph.BlueStore.RefMap
