import Ceph.BlueStore.ExtentRefPut

set_option autoImplicit false

/-!
# Reference counts of extents

The map is a pointwise reference count: after any sequence of `get` and `put` in a window, the
level of a byte is the number of `get` minus the number of `put` of it.  The queries answer for
the levels, and a map is read back from its encoding.
-/

namespace Ceph.BlueStore.RefMap

open Ceph.Lib Ceph.Include List Bool

section

variable {lo hi : Nat} {pre post : List Segment} {p s : Segment} {offset length x : Nat}

/-! ## Queries -/

theorem containsLoop_spec (hw : Window lo hi) (post : List Segment) (offset length : Nat)
    (horder : InOrder post) (hin : Within lo hi post) (hstop : ∀ t ∈ post, offset < t.stop)
    (hy : length < 2 ^ 32) (htop : offset + length < 2 ^ 64) :
    (containsLoop post offset length = true ↔
      ∀ x, offset ≤ x → x < offset + length → 0 < levelAt post x) := by
  induction post generalizing offset length with
  | nil =>
    rw [containsLoop, decide_eq_true_eq]
    constructor
    · omega
    · intro h
      by_contra hne
      exact absurd (h offset le_rfl (by omega)) (lt_irrefl 0)
  | cons p post ih =>
    obtain ⟨_, _, hpost, hrest⟩ := inOrder_cons.1 horder
    obtain ⟨⟨_, hhi, _⟩, hin'⟩ := within_cons.1 hin
    have hp := hstop p mem_cons_self
    rw [containsLoop]
    by_cases hzero : length = 0
    · rw [if_pos hzero]
      exact iff_of_true rfl fun x hx hx' => by omega
    rw [if_neg hzero]
    by_cases hgap : p.first > offset
    · rw [if_pos hgap]
      refine iff_of_false false_ne_true fun h => ?_
      have hpos := h offset le_rfl (by omega)
      rw [levelAt_of_lt (forall_mem_cons.2 ⟨hgap, fun t ht => by
        have := hrest t ht
        omega⟩)] at hpos
      omega
    rw [if_neg hgap, hw.endOf hhi, u64_of_lt htop]
    have hfront : ∀ x, offset ≤ x → x < p.stop → 0 < levelAt (p :: post) x := fun x hx hx' =>
      horder.levelAt_pos_iff.2 ⟨p, mem_cons_self, by omega, hx'⟩
    by_cases hcover : p.stop ≥ offset + length
    · rw [if_pos hcover]
      exact iff_of_true rfl fun x hx hx' => hfront x hx (by omega)
    rw [if_neg hcover]
    dsimp only
    rw [sub64_of_le hp.le (by omega), u64_of_lt (by omega), u32_of_lt (n := p.stop - offset)
      (by omega)]
    have hnext : offset + (p.stop - offset) = p.stop := by omega
    have hleft : u32 (length + 2 ^ 32 - (p.stop - offset)) = length - (p.stop - offset) := by
      rw [u32]
      omega
    rw [hnext, hleft, ih p.stop (length - (p.stop - offset)) hpost hin' (fun t ht => by
        have hlt := hrest t ht
        have htl := (hpost.pos t ht).1
        have hts : t.stop = t.first + t.length := rfl
        omega) (by omega) (by omega)]
    have htail : ∀ x, p.stop ≤ x → levelAt (p :: post) x = levelAt post x := fun x hx => by
      rw [levelAt_cons, p.levelOf_of_ge hx, zero_add]
    constructor
    · intro h x hx hx'
      obtain hlt | hge := lt_or_ge x p.stop
      · exact hfront x hx hlt
      · rw [htail x hge]
        exact h x hge (by omega)
    · intro h x hx hx'
      rw [← htail x hx]
      exact h x (by omega) (by omega)

variable {m : RefMap}

theorem contains_iff (hw : Window lo hi) (hm : Valid lo hi m) (hpos : 0 < length)
    (hlen : length < 2 ^ 32) (htop : offset + length < 2 ^ 64) :
    contains m offset length = true ↔
      ∀ x, offset ≤ x → x < offset + length → 0 < levelAt m x := by
  rw [contains]
  obtain hnone | hsome := findHolder_spec hw hm offset
  · rw [hnone.1]
    refine iff_of_false false_ne_true fun h => ?_
    have hx := h offset le_rfl (by omega)
    omega
  · obtain ⟨pre, p, post, hfind, rfl, hfirst, hstop⟩ := hsome
    obtain ⟨_, hpost, hsep⟩ := inOrder_splice.1 hm.order
    obtain ⟨_, _, _, hrest⟩ := inOrder_cons.1 hpost
    rw [hfind]
    rw [containsLoop_spec hw (p :: post) offset length hpost (within_append.1 hm.within).2
      (forall_mem_cons.2 ⟨hstop, fun t ht => by
        have hle := hrest t ht
        rw [Segment.stop]
        omega⟩) hlen htop]
    have hsame : ∀ x, offset ≤ x →
        levelAt (pre.reverse ++ p :: post) x = levelAt (p :: post) x := fun x hx =>
      levelAt_splice fun s hs => le_trans (hsep s hs p mem_cons_self) (le_trans hfirst hx)
    exact ⟨fun h x hx hx' => hsame x hx ▸ h x hx hx', fun h x hx hx' => hsame x hx ▸ h x hx hx'⟩

theorem intersects_iff (hw : Window lo hi) (hm : Valid lo hi m) (hpos : 0 < length)
    (htop : offset + length < 2 ^ 64) : intersects m offset length = true ↔
      ∃ x, offset ≤ x ∧ x < offset + length ∧ 0 < levelAt m x := by
  obtain ⟨pre, post, hfind, rfl, hbehind, hahead⟩ := findInc_spec hw hm offset
  obtain ⟨_, hpost, _⟩ := inOrder_splice.1 hm.order
  have hsame : ∀ x, offset ≤ x → levelAt (pre.reverse ++ post) x = levelAt post x := fun x hx =>
    levelAt_splice fun s hs => le_trans (hbehind s hs) hx
  rw [intersects, hfind]
  cases post with
  | nil =>
    refine iff_of_false false_ne_true ?_
    rintro ⟨x, hx, _, hlev⟩
    rw [hsame x hx, levelAt_nil] at hlev
    omega
  | cons p =>
    have hlen := (inOrder_cons.1 hpost).1
    have hp := hahead p mem_cons_self
    rw [decide_eq_true_eq, u64_of_lt htop, not_le]
    constructor
    · intro _
      have hx : offset ≤ max offset p.first := le_max_left _ _
      refine ⟨max offset p.first, hx, by omega, ?_⟩
      rw [hsame _ hx]
      refine hpost.levelAt_pos_iff.2 ⟨p, mem_cons_self, le_max_right _ _, ?_⟩
      rw [Segment.stop] at hp ⊢
      omega
    · rintro ⟨x, hx, hx', hlev⟩
      rw [hsame x hx] at hlev
      exact lt_of_le_of_lt (hpost.first_le hlev) hx'

/-! ## Encoding -/

/-- A window has room for as many entries as it has bytes. -/
theorem length_le_of_within {l : List Segment} {a b : Nat} (horder : InOrder l) (hab : a ≤ b)
    (hin : ∀ s ∈ l, a ≤ s.first ∧ s.stop ≤ b) : a + l.length ≤ b := by
  induction l generalizing a with
  | nil => exact hab
  | cons s _ ih =>
    obtain ⟨_, _, hl, hrest⟩ := inOrder_cons.1 horder
    obtain ⟨_, hhi⟩ := hin s mem_cons_self
    have hs : s.stop = s.first + s.length := rfl
    have htail := ih hl hhi fun t ht =>
      ⟨hrest t ht, (hin t (mem_cons_of_mem _ ht)).2⟩
    rw [length_cons]
    omega

theorem assign_of_gt (h : ∀ t ∈ m, t.first < s.first) : assign m s = m ++ [s] := by
  induction m with
  | nil => rfl
  | cons _ _ ih =>
    obtain ⟨ht, hm⟩ := forall_mem_cons.1 h
    rw [assign, if_pos ht, ih hm, cons_append]

/-- Values of fewer than 62 bits fit. -/
theorem lowz_roundTrip {n : Nat} (h : n < 2 ^ 62) :
    RoundTrip (dencVarintLowz.write (BitVec.ofNat 64 n)) dencVarintLowz.decode
      (BitVec.ofNat 64 n) := by
  refine ((dencVarintLowz_lossless_iff _).2 (.inl ?_)).roundTrip
  rw [BitVec.toNat_ofNat, Nat.mod_eq_of_lt (by omega)]
  exact h

theorem record_roundTrip (hlen : s.length < 2 ^ 32) (hlev : s.level < 2 ^ 32) :
    RoundTrip (encodeRecord s) (decodeRecord s.first) s := by
  have hs : (⟨s.first, ((BitVec.ofNat 64 s.length).setWidth 32).toNat,
      (BitVec.ofNat 32 s.level).toNat⟩ : Segment) = s := by
    rw [BitVec.toNat_setWidth, BitVec.toNat_ofNat, BitVec.toNat_ofNat,
      Nat.mod_eq_of_lt (a := s.length) (by omega), Nat.mod_eq_of_lt hlen, Nat.mod_eq_of_lt hlev]
  have h := (lowz_roundTrip (by omega)).bind
    (s := fun length bytes => ((dencVarint .unsigned 32).decode bytes).bind fun q =>
      some ((⟨s.first, (length.setWidth 32).toNat, q.1.toNat⟩ : Segment), q.2))
    (((dencVarint32_lossless (BitVec.ofNat 32 s.level)).roundTrip).map fun refs =>
      (⟨s.first, ((BitVec.ofNat 64 s.length).setWidth 32).toNat, refs.toNat⟩ : Segment))
  rw [hs] at h
  exact h

theorem entries_roundTrip (hw : Window lo hi) (l : List Segment) (pos : Nat) (m : RefMap)
    (horder : InOrder l) (hin : Within lo hi l) (hpos : ∀ s ∈ l, pos ≤ s.first)
    (hhead : ∀ s ∈ l.head?, s.first - pos < 2 ^ 62) (hm : ∀ t ∈ m, ∀ s ∈ l, t.first < s.first) :
    RoundTrip (encodeEntries pos l) (decodeEntries l.length (BitVec.ofNat 64 pos) m) (m ++ l) := by
  induction l generalizing pos m with
  | nil =>
    rw [append_nil]
    exact RoundTrip.pure m
  | cons s l ih =>
    obtain ⟨_, _, hl, hrest⟩ := inOrder_cons.1 horder
    obtain ⟨⟨_, _, hlev⟩, hin'⟩ := within_cons.1 hin
    have hs := hpos s mem_cons_self
    have hstop : s.stop = s.first + s.length := rfl
    have hsize := hw.size
    have htop := hw.top
    have hdelta : BitVec.ofNat 64 s.first - BitVec.ofNat 64 pos =
        BitVec.ofNat 64 (s.first - pos) := (BitVec.ofNat_sub_ofNat_of_le _ _ (by omega) hs)
    have hkey : BitVec.ofNat 64 pos + BitVec.ofNat 64 (s.first - pos) =
        BitVec.ofNat 64 s.first := by
      rw [← BitVec.ofNat_add, Nat.add_sub_cancel' hs]
    have hfirst : (BitVec.ofNat 64 s.first).toNat = s.first := by
      rw [BitVec.toNat_ofNat, Nat.mod_eq_of_lt (by omega)]
    rw [encodeEntries, hdelta]
    refine (lowz_roundTrip (hhead s rfl)).bind (s := fun delta bytes =>
      (decodeRecord (BitVec.ofNat 64 pos + delta).toNat bytes).bind fun q =>
        decodeEntries l.length (BitVec.ofNat 64 pos + delta) (assign m q.1) q.2) ?_
    rw [hkey, hfirst]
    refine (record_roundTrip (by omega) hlev).bind
      (s := fun p => decodeEntries l.length (BitVec.ofNat 64 s.first) (assign m p)) ?_
    rw [assign_of_gt fun t ht => hm t ht s mem_cons_self]
    have hgap : ∀ t ∈ l, s.first < t.first := fun t ht => by
      have := hrest t ht
      omega
    have htail := ih s.first (m ++ [s]) hl hin' (fun t ht => (hgap t ht).le)
      (fun t ht => by
        have ht' := hin' t (mem_of_mem_head? ht)
        rw [Segment.stop] at ht'
        omega)
      (fun t ht u hu => by
        obtain hmem | hmem := mem_append.1 ht
        · exact hm t hmem u (mem_cons_of_mem _ hu)
        · rw [mem_singleton.1 hmem]
          exact hgap u hu)
    rwa [append_assoc, singleton_append] at htail

/-- A map is read back, if its keys leave room for the two bits that are added to the first. -/
theorem map_roundTrip (hw : Window lo hi) (hlow : hi ≤ 2 ^ 62) (hm : Valid lo hi m) :
    RoundTrip (encode m) decode m := by
  have hsize := hw.size
  have hcount : m.length < 2 ^ 32 := by
    cases hm' : m with
    | nil => exact Nat.two_pow_pos 32
    | cons s =>
      have hs := hm.within s (by rw [hm']; exact mem_cons_self)
      have hle := length_le_of_within hm.order
        (le_trans hs.1 (le_trans (Nat.le_add_right _ _) hs.2.1))
        fun t ht => ⟨(hm.within t ht).1, (hm.within t ht).2.1⟩
      rw [hm'] at hle
      omega
  have hlist : (if u32 m.length = 0 then [] else m) = m := by
    rw [u32_of_lt hcount]
    split
    next h => exact (length_eq_zero_iff.1 h).symm
    next => rfl
  have hn : (BitVec.ofNat 32 m.length).toNat = m.length := by
    rw [BitVec.toNat_ofNat, Nat.mod_eq_of_lt hcount]
  rw [encode, hlist]
  refine (dencVarint32_lossless (BitVec.ofNat 32 m.length)).roundTrip.bind
    (s := fun n => decodeEntries n.toNat 0#64 []) ?_
  rw [hn]
  have h := entries_roundTrip hw m 0 [] hm.order hm.within (fun _ _ => Nat.zero_le _)
    (fun s hs => by
      have hs' := hm.within s (mem_of_mem_head? hs)
      have hlen := (hm.order.pos s (mem_of_mem_head? hs)).1
      rw [Segment.stop] at hs'
      omega)
    nofun
  rwa [nil_append] at h

end

/-! ## Runs -/

/-- A call that changes the map. -/
inductive RefOp where
  | get (offset length : Nat)
  | put (offset length : Nat)
  deriving DecidableEq, Repr

namespace RefOp

def run (m : RefMap) : RefOp → Option RefMap
  | .get offset length => m.get offset length
  | .put offset length => (m.put offset length []).map (·.1)

/-- The number of references of every byte, after the call. -/
def count (c : Nat → Nat) : RefOp → Nat → Nat
  | .get offset length => fun x => c x + inRange offset length x
  | .put offset length => fun x => c x - inRange offset length x

/-- A range that is not empty and lies in the window. -/
def InWindow (lo hi offset length : Nat) : Prop := 0 < length ∧ lo ≤ offset ∧ offset + length ≤ hi

/-- The calls that are allowed: numbers of references stay below 2^32, and only bytes that have
references lose one. -/
def Allowed (lo hi : Nat) (c : Nat → Nat) : RefOp → Prop
  | .get offset length => InWindow lo hi offset length ∧
      ∀ x, offset ≤ x → x < offset + length → c x + 1 < 2 ^ 32
  | .put offset length => InWindow lo hi offset length ∧
      ∀ x, offset ≤ x → x < offset + length → 0 < c x

end RefOp

/-- The numbers of references after a list of calls. -/
def netCount (c : Nat → Nat) (ops : List RefOp) : Nat → Nat := ops.foldl RefOp.count c

/-- Every call of a list is allowed when it is made. -/
def AllAllowed (lo hi : Nat) : (Nat → Nat) → List RefOp → Prop
  | _, [] => True
  | c, op :: ops => op.Allowed lo hi c ∧ AllAllowed lo hi (op.count c) ops

/-- A map that holds the given numbers of references. -/
structure Counts (lo hi : Nat) (m : RefMap) (c : Nat → Nat) : Prop where
  levels : ∀ x, levelAt m x = c x
  order : InOrder m
  merged : Merged m
  put : ∀ offset length release, RefOp.InWindow lo hi offset length →
    (∀ x, offset ≤ x → x < offset + length → 0 < c x) →
    ∃ m' rel unshared, m.put offset length release = some (m', release ++ rel, unshared) ∧
      (∀ x, levelAt m' x = c x - inRange offset length x) ∧
      (∀ x, released rel x = if offset ≤ x ∧ x < offset + length ∧ c x = 1 then 1 else 0) ∧
      (unshared = true ↔ ∀ x, 0 < levelAt m' x → levelAt m' x = 1)
  contains : ∀ offset length, 0 < length → length < 2 ^ 32 → offset + length < 2 ^ 64 →
    (m.contains offset length = true ↔ ∀ x, offset ≤ x → x < offset + length → 0 < c x)
  intersects : ∀ offset length, 0 < length → length < 2 ^ 32 → offset + length < 2 ^ 64 →
    (m.intersects offset length = true ↔ ∃ x, offset ≤ x ∧ x < offset + length ∧ 0 < c x)
  roundTrip : hi ≤ 2 ^ 62 → RoundTrip m.encode decode m

section Runs

variable {lo hi : Nat} {m : RefMap} {c : Nat → Nat}

theorem Valid.counts (hw : Window lo hi) (hm : Valid lo hi m) (hlev : ∀ x, levelAt m x = c x) :
    Counts lo hi m c where
  levels := hlev
  order := hm.order
  merged := hm.merged
  put := fun offset length release hin hpos => by
    obtain ⟨m', rel, unshared, hput, _, hlev', hrel, hun⟩ := put_spec hw hm hin.2.2 hin.1
      (fun x hx hx' => (hlev x).symm ▸ hpos x hx hx') release
    refine ⟨m', rel, unshared, hput, fun x => ?_, fun x => by rw [hrel, hlev], hun.trans ?_⟩
    · have hx := hlev' x
      rw [hlev] at hx
      omega
    · exact ⟨fun h x hx => le_antisymm (h x) hx, fun h x => by
        have hx := h x
        omega⟩
  contains := fun offset length hpos hlen htop => by
    rw [contains_iff hw hm hpos hlen htop]
    simp only [hlev]
  intersects := fun offset length hpos _ htop => by
    rw [intersects_iff hw hm hpos htop]
    simp only [hlev]
  roundTrip := fun hlow => map_roundTrip hw hlow hm

/-- One call keeps the map in step with the numbers of references. -/
theorem run_step (hw : Window lo hi) (hm : Valid lo hi m) (hlev : ∀ x, levelAt m x = c x)
    {op : RefOp} (hop : op.Allowed lo hi c) :
    ∃ m', op.run m = some m' ∧ Valid lo hi m' ∧ ∀ x, levelAt m' x = op.count c x := by
  cases op with
  | get =>
    obtain ⟨⟨hpos, hlo, hhi⟩, hlevel⟩ := hop
    obtain ⟨m', hget, hm', hlev'⟩ := get_spec hw hm hlo hhi hpos
      fun x hx hx' => (hlev x).symm ▸ hlevel x hx hx'
    exact ⟨m', hget, hm', fun x => by rw [hlev', hlev]; rfl⟩
  | put offset length =>
    obtain ⟨⟨hpos, _, hhi⟩, hlevel⟩ := hop
    obtain ⟨m', _, _, hput, hm', hlev', _⟩ := put_spec hw hm hhi hpos
      (fun x hx hx' => (hlev x).symm ▸ hlevel x hx hx') []
    refine ⟨m', by rw [RefOp.run, hput]; rfl, hm', fun x => ?_⟩
    have hx := hlev' x
    rw [hlev] at hx
    show _ = c x - inRange offset length x
    omega

theorem run_valid (hw : Window lo hi) (ops : List RefOp) (m : RefMap) (c : Nat → Nat)
    (hm : Valid lo hi m) (hlev : ∀ x, levelAt m x = c x) (hops : AllAllowed lo hi c ops) :
    ∃ m', ops.foldlM RefOp.run m = some m' ∧ Valid lo hi m' ∧
      ∀ x, levelAt m' x = netCount c ops x := by
  induction ops generalizing m c with
  | nil => exact ⟨m, rfl, hm, hlev⟩
  | cons _ _ ih =>
    obtain ⟨m₁, hrun, hm₁, hlev₁⟩ := run_step hw hm hlev hops.1
    obtain ⟨m', hrest, hm', hlev'⟩ := ih m₁ _ hm₁ hlev₁ hops.2
    refine ⟨m', ?_, hm', hlev'⟩
    rw [foldlM_cons, hrun]
    exact hrest

/-- After every sequence of allowed calls, the map counts the references of every byte, is
sorted, disjoint and merged, releases exactly what loses its last reference, answers the queries
and is read back from its encoding. -/
theorem refMap_counts (hw : Window lo hi) {ops : List RefOp}
    (hops : AllAllowed lo hi (fun _ => 0) ops) :
    ∃ m, ops.foldlM RefOp.run [] = some m ∧ Counts lo hi m (netCount (fun _ => 0) ops) := by
  obtain ⟨m, hrun, hm, hlev⟩ := run_valid hw ops [] (fun _ => 0)
    ⟨inOrder_nil, isChain_nil, within_nil⟩ (fun _ => rfl) hops
  exact ⟨m, hrun, hm.counts hw hlev⟩

theorem refMap_counts_two_calls :
    ∃ m, [RefOp.get 0 8, .put 2 4].foldlM RefOp.run [] = some m ∧
      Counts 0 8 m (netCount (fun _ => 0) [.get 0 8, .put 2 4]) := by
  refine refMap_counts ⟨by decide, by decide⟩ ⟨⟨⟨by decide, by decide, by decide⟩, fun x _ _ => ?_⟩,
    ⟨⟨by decide, by decide, by decide⟩, fun x hx hx' => ?_⟩, trivial⟩
  · show 0 + 1 < 2 ^ 32
    decide
  · show 0 < 0 + inRange 0 8 x
    rw [inRange, if_pos (by omega)]
    decide

/-- A reference to the byte 2^62 + 1 is read back as one to the byte 1. -/
theorem refMap_loses_offset :
    ∃ m bytes, [RefOp.get (2 ^ 62 + 1) 1].foldlM RefOp.run [] = some m ∧
      m = [⟨2 ^ 62 + 1, 1, 1⟩] ∧ m.encode 20 = some bytes ∧
      RefMap.decode bytes = some ([⟨1, 1, 1⟩], []) :=
  ⟨[⟨2 ^ 62 + 1, 1, 1⟩], [1, 4, 4, 1], by decide +kernel, rfl, by decide +kernel, by decide +kernel⟩

end Runs

end Ceph.BlueStore.RefMap
