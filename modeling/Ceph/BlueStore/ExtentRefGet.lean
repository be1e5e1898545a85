import Ceph.BlueStore.ExtentRefMap
import Ceph.Lib.Cut

set_option autoImplicit false

/-!
# `bluestore_extent_ref_map_t::get`

As long as all ranges lie in a window of fewer than 2^32 bytes below the end of the address
space, no sum that the code forms wraps around.  Then the loop of `get` raises the level of the
bytes of its range by one and leaves the map as two merged parts, and joining them at the
position where the loop ended makes the map merged.
-/

namespace Ceph.BlueStore.RefMap

open Ceph.Lib Ceph.Include List Nat

/-! ## Windows -/

/-- A window of fewer than 2^32 bytes below the end of the address space. -/
structure Window (lo hi : Nat) : Prop where
  size : hi < lo + 2 ^ 32
  top : hi < 2 ^ 64

/-- The segments lie in the window, and their levels are numbers of references. -/
def Within (lo hi : Nat) (l : List Segment) : Prop :=
  ∀ s ∈ l, lo ≤ s.first ∧ s.stop ≤ hi ∧ s.level < 2 ^ 32

/-- A map that is in order, merged and in the window. -/
structure Valid (lo hi : Nat) (m : RefMap) : Prop where
  order : InOrder m
  merged : Merged m
  within : Within lo hi m

section

variable {lo hi : Nat} {pre post l l' : List Segment} {p s : Segment} {offset length x : Nat}

theorem u32_of_lt {n : Nat} (h : n < 2 ^ 32) : u32 n = n := mod_eq_of_lt h

theorem u64_of_lt {n : Nat} (h : n < 2 ^ 64) : u64 n = n := mod_eq_of_lt h

theorem sub64_of_le {a b : Nat} (h : b ≤ a) (ha : a < 2 ^ 64) : sub64 a b = a - b := by
  rw [sub64, u64]
  omega

theorem Window.endOf (hw : Window lo hi) (h : p.stop ≤ hi) : endOf p = p.stop :=
  u64_of_lt (lt_of_le_of_lt h hw.top)

theorem within_nil : Within lo hi [] := nofun

theorem within_cons : Within lo hi (s :: l) ↔
    (lo ≤ s.first ∧ s.stop ≤ hi ∧ s.level < 2 ^ 32) ∧ Within lo hi l := forall_mem_cons

theorem within_append : Within lo hi (l ++ l') ↔ Within lo hi l ∧ Within lo hi l' :=
  forall_mem_append

theorem within_reverse : Within lo hi l.reverse ↔ Within lo hi l := by
  simp only [Within, mem_reverse]

/-- Nothing wraps around when segments of a window become one. -/
theorem maybeMergeLeft_eq (hw : Window lo hi) (hpre : Within lo hi pre) (hp : p.stop ≤ hi) :
    maybeMergeLeft pre p = joinLeft pre p := by
  cases pre with
  | nil => rfl
  | cons q =>
    obtain ⟨⟨_, hhi, _⟩, _⟩ := within_cons.1 hpre
    rw [maybeMergeLeft, joinLeft, hw.endOf hhi]
    split
    next h =>
      have hsum : q.length + p.length < 2 ^ 32 := by
        have hsize := hw.size
        have hq : q.first + q.length = p.first := h.2
        have hp' : p.first + p.length ≤ hi := hp
        omega
      rw [u32_of_lt hsum]
    next => rfl

theorem within_joined {res : List Segment × Segment} (hj : LeftJoined pre p res)
    (hpre : Within lo hi (p :: pre)) : Within lo hi (res.2 :: res.1) := by
  obtain ⟨hp, hpre'⟩ := within_cons.1 hpre
  refine within_cons.2 ⟨⟨?_, hj.stop ▸ hp.2.1, hj.level ▸ hp.2.2⟩,
    fun s hs => hpre' s (hj.rest s hs)⟩
  obtain ⟨t, ht, hfirst⟩ := hj.first res.2 mem_cons_self
  rw [hfirst]
  exact (hpre t ht).1

/-! ## Positions -/

/-- A position in a map where a loop stands: everything in front of it ends before the offset,
everything from it on starts at the offset or behind it. -/
structure At (lo hi : Nat) (pre post : List Segment) (offset : Nat) : Prop where
  splice : Spliced pre post
  preIn : Within lo hi pre
  postIn : Within lo hi post
  behind : ∀ s ∈ pre, s.stop ≤ offset
  ahead : ∀ t ∈ post, offset ≤ t.first

/-- Other segments in front of the position. -/
theorem At.of_stack {stack : List Segment} {offset' : Nat} (h : At lo hi pre post offset)
    (horder : InOrder stack.reverse) (hmerged : Merged stack.reverse) (hin : Within lo hi stack)
    (hbehind : ∀ t ∈ stack, t.stop ≤ offset') (hahead : ∀ t ∈ post, offset' ≤ t.first) :
    At lo hi stack post offset' :=
  ⟨⟨inOrder_splice.2 ⟨horder, (inOrder_splice.1 h.splice.order).2.1,
    fun t ht u hu => le_trans (hbehind t ht) (hahead u hu)⟩, hmerged, h.splice.right⟩,
    hin, h.postIn, hbehind, hahead⟩

/-- A segment is put in front of the position, and joined with what was there. -/
theorem At.push (hw : Window lo hi) (h : At lo hi pre post offset) (hfirst : s.first = offset)
    (hlen : 0 < s.length) (hlev : 0 < s.level)
    (hin : lo ≤ s.first ∧ s.stop ≤ hi ∧ s.level < 2 ^ 32) (hstop : ∀ t ∈ post, s.stop ≤ t.first) :
    ∃ pre' q, maybeMergeLeft pre s = (pre', q) ∧ At lo hi (q :: pre') post s.stop ∧
      LeftJoined pre s (pre', q) := by
  have hstack : InOrder (s :: pre).reverse := inOrder_reverse_cons.2
    ⟨hlen, hlev, (inOrder_splice.1 h.splice.order).1, fun t ht => hfirst ▸ h.behind t ht⟩
  have hj := leftJoined_joinLeft pre s
  refine ⟨_, _, maybeMergeLeft_eq hw h.preIn hin.2.1, h.of_stack (inOrder_joinLeft hstack)
    (merged_joinLeft h.splice.left) (within_joined hj (within_cons.2 ⟨hin, h.preIn⟩))
    (fun t ht => ?_) hstop, hj⟩
  obtain heq | hmem := mem_cons.1 ht
  · exact heq ▸ le_of_eq hj.stop
  · have hbehind := h.behind t (hj.rest t hmem)
    have hs : s.stop = s.first + s.length := rfl
    omega

/-- The position moves past an entry that is left out. -/
theorem At.skip (h : At lo hi pre (p :: post) offset) {offset' : Nat} (hle : offset ≤ offset')
    (hstop : offset' ≤ p.stop) : At lo hi pre post offset' := by
  obtain ⟨hpre, hpost, hsep⟩ := inOrder_splice.1 h.splice.order
  obtain ⟨_, _, hpost', hrest⟩ := inOrder_cons.1 hpost
  exact {
    splice := ⟨inOrder_splice.2 ⟨hpre, hpost',
      fun s hs t ht => hsep s hs t (mem_cons_of_mem _ ht)⟩, h.splice.left,
      h.splice.right.of_cons⟩
    preIn := h.preIn
    postIn := (within_cons.1 h.postIn).2
    behind := fun s hs => le_trans (h.behind s hs) hle
    ahead := fun t ht => le_trans hstop (hrest t ht) }

/-- The position moves into an entry, of which the rest is kept. -/
theorem At.cut (h : At lo hi pre (p :: post) offset) (hfirst : p.first = offset)
    (hlt : length < p.length) : At lo hi pre
      (⟨offset + length, p.length - length, p.level⟩ :: post) (offset + length) := by
  obtain ⟨hpre, hpost, hsep⟩ := inOrder_splice.1 h.splice.order
  obtain ⟨_, hlev, hpost', hrest⟩ := inOrder_cons.1 hpost
  obtain ⟨⟨_, hhi, hrefs⟩, hin⟩ := within_cons.1 h.postIn
  have hstop : offset + length + (p.length - length) = p.stop := by
    rw [Segment.stop]
    omega
  have hbehind : ∀ s ∈ pre, s.stop ≤ offset + length := fun s hs =>
    le_trans (h.behind s hs) (le_add_right _ _)
  have hahead : ∀ t ∈ post, offset + length ≤ t.first := fun t ht => by
    have := hrest t ht
    omega
  exact {
    splice := ⟨inOrder_splice.2 ⟨hpre, inOrder_cons.2 ⟨Nat.sub_pos_of_lt hlt, hlev, hpost',
        fun t ht => le_trans hstop.le (hrest t ht)⟩,
        fun s hs => forall_mem_cons.2 ⟨hbehind s hs,
          fun t ht => hsep s hs t (mem_cons_of_mem _ ht)⟩⟩,
      h.splice.left, h.splice.right.head_congr hstop rfl⟩
    preIn := h.preIn
    postIn := within_cons.2 ⟨⟨(show lo ≤ offset + length by omega),
      le_trans hstop.le hhi, hrefs⟩, hin⟩
    behind := hbehind
    ahead := forall_mem_cons.2 ⟨le_rfl, hahead⟩ }

/-- The last join makes the map merged. -/
theorem mergeAt_spec (hw : Window lo hi) (h : Spliced pre post) (hpre : Within lo hi pre)
    (hpost : Within lo hi post) : Valid lo hi (mergeAt pre post) ∧
      ∀ x, levelAt (mergeAt pre post) x = levelAt pre x + levelAt post x := by
  cases post with
  | nil =>
    have horder := h.order
    rw [append_nil] at horder
    refine ⟨⟨horder, h.left, within_reverse.2 hpre⟩, fun x => ?_⟩
    rw [mergeAt, levelAt_reverse, levelAt_nil, add_zero]
  | cons p =>
    obtain ⟨hp, hpost'⟩ := within_cons.1 hpost
    have hj := leftJoined_joinLeft pre p
    have hm := h.merged
    have hin := within_joined hj (within_cons.2 ⟨hp, hpre⟩)
    rw [mergeAt, maybeMergeLeft_eq hw hpre hp.2.1]
    refine ⟨⟨hm.2, hm.1, ?_⟩, fun x => ?_⟩
    · obtain ⟨hp', hpre'⟩ := within_cons.1 hin
      exact within_append.2 ⟨within_reverse.2 hpre', within_cons.2 ⟨hp', hpost'⟩⟩
    · have hlevel := hj.levelAt x
      simp only [levelAt_cons, levelAt_append, levelAt_reverse] at hlevel ⊢
      omega

/-! ## The loop of get -/

theorem getGap_spec (hw : Window lo hi) (h : At lo hi pre (p :: post) offset) (hlo : lo ≤ offset)
    (hhi : offset + length ≤ hi) (hpos : 0 < length) :
    ∃ pre' offset' length', getGap p pre offset length = (pre', offset', length') ∧
      At lo hi pre' (p :: post) offset' ∧ offset ≤ offset' ∧
      offset' + length' = offset + length ∧ (length' = 0 ∨ p.first = offset') ∧
      ∀ x, levelAt pre' x + inRange offset' length' x =
        levelAt pre x + inRange offset length x := by
  have hahead := h.ahead p mem_cons_self
  have htop := hw.top
  have hsize := hw.size
  rw [getGap]
  split
  next hgap =>
    obtain ⟨newlen, hnew⟩ : ∃ n, min (p.first - offset) length = n := ⟨_, rfl⟩
    have hsep : ∀ t ∈ p :: post, offset + newlen ≤ t.first := by
      obtain ⟨_, hpost, _⟩ := inOrder_splice.1 h.splice.order
      obtain ⟨_, _, _, hrest⟩ := inOrder_cons.1 hpost
      refine forall_mem_cons.2 ⟨by omega, fun t ht => ?_⟩
      have hstop : p.first + p.length ≤ t.first := hrest t ht
      omega
    obtain ⟨pre', _, hmerge, hat, hj⟩ := h.push (s := ⟨offset, newlen, 1⟩) hw rfl
      (show 0 < newlen by omega) one_pos
      ⟨hlo, (show offset + newlen ≤ hi by omega), Nat.one_lt_two_pow (by decide)⟩ hsep
    simp only [hnew]
    rw [u32_of_lt (by omega), hmerge, u64_of_lt (by omega)]
    refine ⟨_, _, _, rfl, hat, by omega, by omega, by omega, fun x => ?_⟩
    have hlevel := hj.levelAt x
    rw [hlevel, levelAt_cons, levelOf_one, inRange_cut (show newlen ≤ length by omega)]
    omega
  next hgap => exact ⟨_, _, _, rfl, h, le_rfl, rfl, .inr (by omega), fun _ => rfl⟩

theorem splitAt_of_eq (h : p.first = offset) : splitAt p pre offset = some (pre, p) :=
  if_neg (by omega)

/-- The last entry of the range is cut, and its first part is raised. -/
theorem At.raise_part (h : At lo hi pre (p :: post) offset) (hfirst : p.first = offset)
    (hpos : 0 < length) (hlt : length < p.length) (hlevel : p.level + 1 < 2 ^ 32) :
    Spliced pre (⟨offset, length, p.level + 1⟩ :: ⟨offset + length, p.length - length, p.level⟩ ::
      post) ∧
    Within lo hi (⟨offset, length, p.level + 1⟩ ::
      ⟨offset + length, p.length - length, p.level⟩ :: post) := by
  have hcut := h.cut hfirst hlt
  obtain ⟨hpre, hpost, hsep⟩ := inOrder_splice.1 hcut.splice.order
  obtain ⟨⟨hlo, hhi, _⟩, _⟩ := within_cons.1 h.postIn
  have hle : p.first + p.length ≤ hi := hhi
  refine ⟨⟨inOrder_splice.2 ⟨hpre, inOrder_cons.2 ⟨hpos, succ_pos _, hpost, hcut.ahead⟩,
    fun s hs => forall_mem_cons.2 ⟨h.behind s hs, hsep s hs⟩⟩, h.splice.left,
    isChain_cons_cons.2 ⟨fun _ => succ_ne_self _, hcut.splice.right⟩⟩,
    within_cons.2 ⟨⟨hfirst ▸ hlo, (show offset + length ≤ hi by omega), hlevel⟩, hcut.postIn⟩⟩

theorem getLoop_spec (hw : Window lo hi) (post pre : List Segment) (offset length : Nat)
    (h : At lo hi pre post offset) (hlo : lo ≤ offset) (hhi : offset + length ≤ hi)
    (hlevel : ∀ x, offset ≤ x → x < offset + length → levelAt post x + 1 < 2 ^ 32) :
    ∃ pre' post', getLoop post pre offset length = some (pre', post') ∧ Spliced pre' post' ∧
      Within lo hi pre' ∧ Within lo hi post' ∧ ∀ x, levelAt pre' x + levelAt post' x =
        levelAt pre x + levelAt post x + inRange offset length x := by
  induction post generalizing pre offset length with
  | nil =>
    rw [getLoop]
    split
    next hzero =>
      subst hzero
      exact ⟨_, _, rfl, h.splice, h.preIn, h.postIn, fun x => by rw [inRange_zero, add_zero]⟩
    next hne =>
      have hpre : InOrder pre.reverse := (inOrder_splice.1 h.splice.order).1
      refine ⟨_, _, rfl, ⟨inOrder_splice.2 ⟨hpre, inOrder_cons.2 ⟨pos_of_ne_zero hne,
        one_pos, inOrder_nil, nofun⟩, fun s hs t ht => ?_⟩,
        h.splice.left, isChain_singleton _⟩, h.preIn,
        within_cons.2 ⟨⟨hlo, hhi, Nat.one_lt_two_pow (by decide)⟩, within_nil⟩, fun x => ?_⟩
      · rw [mem_singleton.1 ht]
        exact h.behind s hs
      · rw [levelAt_cons, levelOf_one, levelAt_nil, add_zero, add_zero]
  | cons p _ ih =>
    rw [getLoop]
    split
    next hzero =>
      subst hzero
      exact ⟨_, _, rfl, h.splice, h.preIn, h.postIn, fun x => by rw [inRange_zero, add_zero]⟩
    next hne =>
      obtain ⟨_, offset₁, length₁, hgap, h₁, hle, _, hcase, hlev₁⟩ :=
        getGap_spec hw h hlo hhi (pos_of_ne_zero hne)
      simp only [hgap]
      by_cases hzero : length₁ = 0
      · rw [if_pos hzero]
        refine ⟨_, _, rfl, h₁.splice, h₁.preIn, h₁.postIn, fun x => ?_⟩
        have hx := hlev₁ x
        rw [hzero, inRange_zero] at hx
        omega
      rw [if_neg hzero]
      have hfirst : p.first = offset₁ := hcase.resolve_left hzero
      rw [splitAt_of_eq hfirst]
      dsimp only
      obtain ⟨hpre, hpost, _⟩ := inOrder_splice.1 h₁.splice.order
      obtain ⟨hlen, _, _, hrest⟩ := inOrder_cons.1 hpost
      obtain ⟨hp, _⟩ := within_cons.1 h₁.postIn
      have htop := hw.top
      have hraise : p.level + 1 < 2 ^ 32 := by
        have hx := hlevel offset₁ hle (by omega)
        rwa [hpost.levelAt_eq mem_cons_self hfirst.le (by rw [Segment.stop]; omega)] at hx
      rw [u32_of_lt hraise]
      by_cases hpart : length₁ < p.length
      · rw [if_pos hpart, u64_of_lt (by omega), hfirst]
        obtain ⟨hsplice, hin⟩ := h₁.raise_part hfirst (pos_of_ne_zero hzero) hpart hraise
        refine ⟨_, _, rfl, hsplice, h₁.preIn, hin, fun x => ?_⟩
        have hx := hlev₁ x
        have hcut := p.levelOf_cut_at (x := x) hpart.le
        rw [hfirst] at hcut
        rw [levelAt_cons, levelAt_cons, levelAt_cons, levelOf_raise]
        omega
      · rw [if_neg hpart]
        have hstop : p.stop = offset₁ + p.length := by rw [Segment.stop, hfirst]
        obtain ⟨pre₂, q, hmerge, h₂, hj⟩ := (h₁.skip le_rfl (by omega)).push
          (s := { p with level := p.level + 1 }) hw hfirst hlen (succ_pos _)
          ⟨hp.1, hp.2.1, hraise⟩ hrest
        rw [hmerge]
        rw [u64_of_lt (by omega)]
        rw [show ({ p with level := p.level + 1 } : Segment).stop = offset₁ + p.length from
          hstop] at h₂
        obtain ⟨pre', post', hloop, hsplice, hin, hin', hres⟩ := ih (q :: pre₂)
          (offset₁ + p.length) (length₁ - p.length) h₂ (by omega) (by omega) fun x hx hx' => by
            have hold := hlevel x (by omega) (by omega)
            rw [levelAt_cons] at hold
            omega
        refine ⟨pre', post', hloop, hsplice, hin, hin', fun x => ?_⟩
        have hx := hlev₁ x
        have hjx := hj.levelAt x
        have hraised : ({ p with level := p.level + 1 } : Segment).levelOf x =
            p.levelOf x + inRange offset₁ p.length x := by
          rw [← hfirst]
          exact levelOf_raise
        rw [inRange_cut (not_lt.1 hpart)] at hx
        rw [hres x, hjx, levelAt_cons, levelAt_cons]
        omega

/-! ## Where the loops start -/

variable {m : RefMap}

theorem lowerBound_spec (hm : InOrder m) (offset : Nat) :
    ∃ pre post, lowerBound m offset = (pre, post) ∧ m = pre.reverse ++ post ∧
      (∀ s ∈ pre, s.first < offset) ∧ ∀ t ∈ post, offset ≤ t.first := by
  refine ⟨_, _, rfl, ?_, fun s hs => ?_, fun t ht => ?_⟩
  · rw [reverse_reverse, takeWhile_append_dropWhile]
  · have htake := mem_takeWhile_imp (mem_reverse.1 hs)
    exact of_decide_eq_true htake
  · have hfalls : Falls (fun p : Segment => decide (p.first < offset)) m :=
      hm.sep.imp fun {s t} hst ht => decide_eq_true (lt_of_le_of_lt
        (le_trans (le_add_right s.first s.length) hst) (of_decide_eq_true ht))
    rw [dropWhile_eq_filter hfalls, mem_filter, Bool.not_eq_true', decide_eq_false_iff_not] at ht
    exact not_lt.1 ht.2

theorem findInc_spec (hw : Window lo hi) (hm : Valid lo hi m) (offset : Nat) :
    ∃ pre post, findInc m offset = (pre, post) ∧ m = pre.reverse ++ post ∧
      (∀ s ∈ pre, s.stop ≤ offset) ∧ ∀ t ∈ post, offset < t.stop := by
  obtain ⟨pre, post, hbound, rfl, hpre, hpost⟩ := lowerBound_spec hm.order offset
  obtain ⟨hopre, hopost, _⟩ := inOrder_splice.1 hm.order
  have hbehind : ∀ t ∈ post, offset < t.stop := fun t ht => by
    have hlen := (hopost.pos t ht).1
    have hle := hpost t ht
    rw [Segment.stop]
    omega
  rw [findInc, hbound]
  cases pre with
  | nil => exact ⟨_, _, rfl, rfl, fun s hs => absurd hs not_mem_nil, hbehind⟩
  | cons q =>
    obtain ⟨_, _, _, hfront⟩ := inOrder_reverse_cons.1 hopre
    have hq := hpre q mem_cons_self
    have hin := (within_cons.1 (within_reverse.1 (within_append.1 hm.within).1)).1
    dsimp only
    rw [hw.endOf hin.2.1]
    split
    next hle =>
      refine ⟨_, _, rfl, rfl, forall_mem_cons.2 ⟨hle, fun s hs => ?_⟩, hbehind⟩
      have := hfront s hs
      omega
    next hgt =>
      refine ⟨_, _, rfl, ?_, fun s hs => ?_, forall_mem_cons.2 ⟨not_le.1 hgt, hbehind⟩⟩
      · rw [reverse_cons, append_assoc, singleton_append]
      · have := hfront s hs
        omega

/-- The part of an entry before the offset is split off. -/
theorem splitAt_spec (hw : Window lo hi) (hm : Valid lo hi (pre.reverse ++ p :: post))
    (hfirst : p.first ≤ offset) (hstop : offset < p.stop) :
    ∃ pre' p', splitAt p pre offset = some (pre', p') ∧ At lo hi pre' (p' :: post) offset ∧
      p'.first = offset ∧
      (∀ x, levelAt pre' x + levelAt (p' :: post) x = levelAt pre x + levelAt (p :: post) x) ∧
      (p.first < offset → ∃ s ∈ pre', s.level = p.level) := by
  obtain ⟨hpre, hpost, hsep⟩ := inOrder_splice.1 hm.order
  obtain ⟨_, hlev, _, hrest⟩ := inOrder_cons.1 hpost
  obtain ⟨hmpre, hmpost, hjoin⟩ := isChain_append.1 hm.merged
  obtain ⟨hinpre, hinpost⟩ := within_append.1 hm.within
  obtain ⟨hlo, hhi, hrefs⟩ := (within_cons.1 hinpost).1
  have hfront : ∀ s ∈ pre, s.stop ≤ p.first := fun s hs => hsep s hs p mem_cons_self
  have hat : At lo hi pre (p :: post) p.first :=
    ⟨⟨hm.order, hmpre, hmpost⟩, within_reverse.1 hinpre, hinpost, hfront, forall_mem_cons.2
      ⟨le_rfl, fun t ht => le_trans (le_add_right _ _) (hrest t ht)⟩⟩
  rw [splitAt]
  by_cases hlt : p.first < offset
  · have htop := hw.top
    have hsize := hw.size
    have hlength : p.first + p.length = p.stop := rfl
    have hmid : p.first + (offset - p.first) = offset := by omega
    have hend : p.length - (offset - p.first) = p.stop - offset := by omega
    have hcut := hat.cut rfl (show offset - p.first < p.length by omega)
    rw [hmid, hend] at hcut
    rw [if_pos hlt, hw.endOf hhi, if_pos hstop, sub64_of_le hstop.le (by omega),
      u32_of_lt (by omega),
      u32_of_lt (by omega)]
    refine ⟨_, _, rfl, ?_, rfl, fun x => ?_, fun _ => ⟨_, mem_cons_self, rfl⟩⟩
    · refine hcut.of_stack (inOrder_reverse_cons.2
          ⟨(show 0 < offset - p.first by omega), hlev, hpre, hfront⟩)
        (merged_reverse_cons.2 ⟨hmpre, fun q hq => ?_⟩)
        (within_cons.2 ⟨⟨hlo, (show p.first + (offset - p.first) ≤ hi by omega), hrefs⟩, hat.preIn⟩)
        (forall_mem_cons.2 ⟨hmid.le, hcut.behind⟩) hcut.ahead
      rw [getLast?_reverse] at hjoin
      exact hjoin q hq p rfl
    · have hlevel := p.levelOf_cut_at (x := x) (show offset - p.first ≤ p.length by omega)
      rw [hmid, hend] at hlevel
      rw [levelAt_cons, levelAt_cons, levelAt_cons]
      omega
  · obtain rfl : offset = p.first := by omega
    rw [if_neg hlt]
    exact ⟨_, _, rfl, hat, rfl, fun _ => rfl, fun h => absurd h hlt⟩

/-- The loop of `get` may start behind the split. -/
theorem getLoop_split {pre' : List Segment} {p' : Segment} (hpos : 0 < length)
    (hfirst : p.first ≤ offset) (hsplit : splitAt p pre offset = some (pre', p'))
    (hfirst' : p'.first = offset) :
    getLoop (p :: post) pre offset length = getLoop (p' :: post) pre' offset length := by
  have hgap : getGap p pre offset length = (pre, offset, length) :=
    if_neg (not_lt.2 hfirst)
  have hgap' : getGap p' pre' offset length = (pre', offset, length) :=
    if_neg (not_lt.2 hfirst'.le)
  rw [getLoop, getLoop, hgap, hgap']
  dsimp only
  rw [hsplit, splitAt_of_eq hfirst', if_neg hpos.ne', if_neg hpos.ne', if_neg hpos.ne',
    if_neg hpos.ne']

/-- `get` raises the level of every byte of its range by one. -/
theorem get_spec (hw : Window lo hi) (hm : Valid lo hi m) (hlo : lo ≤ offset)
    (hhi : offset + length ≤ hi) (hpos : 0 < length)
    (hlevel : ∀ x, offset ≤ x → x < offset + length → levelAt m x + 1 < 2 ^ 32) :
    ∃ m', get m offset length = some m' ∧ Valid lo hi m' ∧
      ∀ x, levelAt m' x = levelAt m x + inRange offset length x := by
  obtain ⟨pre, post, hfind, rfl, hbehind, hahead⟩ := findInc_spec hw hm offset
  rw [get, hfind]
  have hsum : ∀ x, levelAt (pre.reverse ++ post) x = levelAt pre x + levelAt post x := fun x => by
    rw [levelAt_append, levelAt_reverse]
  -- the loop, from a position that is at the offset
  have hrun : ∀ pre' post', getLoop post pre offset length = getLoop post' pre' offset length →
      At lo hi pre' post' offset →
      (∀ x, levelAt pre' x + levelAt post' x = levelAt pre x + levelAt post x) →
      ∃ m', (getLoop post pre offset length).map (fun q => mergeAt q.1 q.2) = some m' ∧
        Valid lo hi m' ∧
        ∀ x, levelAt m' x = levelAt (pre.reverse ++ post) x + inRange offset length x := by
    intro pre' post' hloop hat hsame
    obtain ⟨pre₁, post₁, hres, hsplice, hin, hin', hlev⟩ := getLoop_spec hw post' pre' offset
      length hat hlo hhi fun x hx hx' => by
        have h₁ := hlevel x hx hx'
        have h₂ := hsame x
        rw [hsum] at h₁
        omega
    obtain ⟨hvalid, hlev'⟩ := mergeAt_spec hw hsplice hin hin'
    refine ⟨mergeAt pre₁ post₁, by rw [hloop, hres]; rfl, hvalid, fun x => ?_⟩
    rw [hlev', hlev, hsame, hsum]
  have haligned : (∀ t ∈ post, offset ≤ t.first) → At lo hi pre post offset := fun h =>
    ⟨⟨hm.order, (isChain_append.1 hm.merged).1, (isChain_append.1 hm.merged).2.1⟩,
      within_reverse.1 (within_append.1 hm.within).1, (within_append.1 hm.within).2, hbehind, h⟩
  cases post with
  | nil => exact hrun pre [] rfl (haligned nofun) fun _ => rfl
  | cons p post =>
    obtain hlt | hge := lt_or_ge offset p.first
    · refine hrun pre (p :: post) rfl (haligned (forall_mem_cons.2 ⟨hlt.le,
        fun t ht => ?_⟩)) fun _ => rfl
      have hsep := (inOrder_cons.1 (inOrder_splice.1 hm.order).2.1).2.2.2 t ht
      have hp := hahead p mem_cons_self
      omega
    · obtain ⟨pre', p', hsplit, hat, hfirst, hsame, _⟩ :=
        splitAt_spec hw hm hge (hahead p mem_cons_self)
      exact hrun pre' (p' :: post) (getLoop_split hpos hge hsplit hfirst) hat hsame

end

end Ceph.BlueStore.RefMap
