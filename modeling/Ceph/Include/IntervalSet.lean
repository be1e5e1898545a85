import Ceph.Lib.Intervals
import Ceph.Lib.Cut

set_option autoImplicit false

/-!
# `interval_set`

A set of integers kept as a map from the start of each interval to its length.  The map is a
list in the order of its keys, an iterator into it is the part of the list from there on, and
the total length is kept besides.  Offsets are natural numbers: every sum that the code forms
is the end of an interval of a set or of a range that it is given, so that nothing depends on
the width of the offset type as long as these ends do not exceed its maximum.

A failed assertion, and a loop that runs out of fuel, is `none`.  Out-parameters and the
`claim` callback of `erase`, which no function here uses, are left out.
-/

namespace Ceph.Include

open Ceph.Lib

structure IntervalSet where
  m : Runs := []
  size : Nat := 0
  deriving DecidableEq, Repr

/-! ## The map -/

/-- `m[k] = v`. -/
def assign : Runs → Nat → Nat → Runs
  | [], k, v => [(k, v)]
  | p :: m, k, v =>
    if p.1 < k then p :: assign m k v
    else if p.1 = k then (k, v) :: m
    else (k, v) :: p :: m

/-- `m.insert` and `m.emplace_hint`: an entry that is there stays. -/
def emplace : Runs → Nat → Nat → Runs
  | [], k, v => [(k, v)]
  | p :: m, k, v =>
    if p.1 < k then p :: emplace m k v
    else if p.1 = k then p :: m
    else (k, v) :: p :: m

/-- `m.lower_bound`: what is before the position and what is from there on. -/
def lowerBound (m : Runs) (start : Nat) : Runs × Runs :=
  (m.takeWhile fun p => decide (p.1 < start), m.dropWhile fun p => decide (p.1 < start))

/-- The common part of `find_inc` and `find_adj`: one step back from the lower bound, unless
the interval there is `passed`. -/
def findFrom (passed : Nat × Nat → Bool) (m : Runs) (start : Nat) : Runs × Runs :=
  let (pre, post) := lowerBound m start
  match pre.getLast? with
  | none => (pre, post)
  | some q =>
    if (∀ p ∈ post.head?, p.1 > start) ∧ !passed q then (pre.dropLast, q :: post)
    else (pre, post)

/-- `find_inc`: the interval that holds `start`, or the next one. -/
def findInc (m : Runs) (start : Nat) : Runs × Runs :=
  findFrom (fun q => decide (q.1 + q.2 ≤ start)) m start

/-- `find_adj`: the interval that holds `start` or ends there, or the next one. -/
def findAdj (m : Runs) (start : Nat) : Runs × Runs :=
  findFrom (fun q => decide (q.1 + q.2 < start)) m start

namespace IntervalSet

/-! ## Queries -/

variable (s : IntervalSet)

def empty : Bool := s.m.isEmpty

/-- `range_end`; the assertion fails for an empty set. -/
def rangeEnd : Option Nat := s.m.getLast?.map fun p => p.1 + p.2

/-- `contains(i)`. -/
def contains (i : Nat) : Bool :=
  match (findInc s.m i).2 with
  | [] => false
  | p :: _ => if p.1 > i then false else if p.1 + p.2 ≤ i then false else true

/-- `contains(start, len)`. -/
def containsRange (start len : Nat) : Bool :=
  match (findInc s.m start).2 with
  | [] => false
  | p :: _ =>
    if p.1 > start then false
    else if p.1 + p.2 ≤ start then false
    else if p.1 + p.2 < start + len then false
    else true

/-! ## Inserting and erasing a range -/

/-- `insert(start, len)`. -/
def insert (start len : Nat) : Option IntervalSet :=
  if len > 0 then
    let size := s.size + len
    match findAdj s.m start with
    | (_, []) => some ⟨assign s.m start len, size⟩
    | (pre, p :: post) =>
      if p.1 < start then
        if p.1 + p.2 ≠ start then none
        else
          match post with
          | [] => some ⟨pre ++ [(p.1, p.2 + len)], size⟩
          | n :: post' =>
            if start + len = n.1 then some ⟨pre ++ (p.1, p.2 + len + n.2) :: post', size⟩
            else some ⟨pre ++ (p.1, p.2 + len) :: n :: post', size⟩
      else if start + len = p.1 then some ⟨assign (pre ++ post) start (len + p.2), size⟩
      else if p.1 > start + len then some ⟨assign s.m start len, size⟩
      else none
  else none

/-- `erase(start, len)`. -/
def erase (start len : Nat) : Option IntervalSet :=
  let size := s.size - len
  match findInc s.m start with
  | (_, []) => none
  | (pre, p :: post) =>
    if p.1 ≤ start then
      let before := start - p.1
      if p.2 ≥ before + len then
        let after := p.2 - before - len
        let m := if before ≠ 0 then pre ++ (p.1, before) :: post else pre ++ post
        some ⟨if after ≠ 0 then assign m (start + len) after else m, size⟩
      else none
    else none

/-- `insert(a)`. -/
def insertSet (s a : IntervalSet) : Option IntervalSet := a.m.foldlM (fun s p => s.insert p.1 p.2) s

/-- `subtract(a)`. -/
def subtract (s a : IntervalSet) : Option IntervalSet := a.m.foldlM (fun s p => s.erase p.1 p.2) s

/-! ## Intersection -/

/-- `m.emplace_hint(mi, start, len)`, and the length of the entry added to the size. -/
def put (start len : Nat) : IntervalSet :=
  let m := emplace s.m start len
  ⟨m, s.size + (m.lookup start).getD 0⟩

/-- `m.insert(mi, *p)`, and the length of `p` added to the size. -/
def putEqual (p : Nat × Nat) : IntervalSet := ⟨emplace s.m p.1 p.2, s.size + p.2⟩

/-- The loops over equal intervals of two sets, and what `f` makes of these. -/
def equalRun {σ : Type} (f : σ → Nat × Nat → σ) : Runs → Runs → σ → Runs × Runs × σ
  | a :: pa, b :: pb, st => if a = b then equalRun f pa pb (f st a) else (a :: pa, b :: pb, st)
  | pa, pb, st => (pa, pb, st)

/-- The linear merge of `intersection_of`. -/
def mergeFrom : Nat → Runs → Runs → IntervalSet → Option IntervalSet
  | _, [], _, acc => some acc
  | _, _ :: _, [], acc => some acc
  | 0, _ :: _, _ :: _, _ => none
  | fuel + 1, a :: pa, b :: pb, acc =>
    if a.1 + a.2 ≤ b.1 then mergeFrom fuel pa (b :: pb) acc
    else if b.1 + b.2 ≤ a.1 then mergeFrom fuel (a :: pa) pb acc
    else if a = b then
      let (pa', pb', acc') := equalRun putEqual (a :: pa) (b :: pb) acc
      mergeFrom fuel pa' pb' acc'
    else
      let start := max a.1 b.1
      let en := min (a.1 + a.2) (b.1 + b.2)
      if en > start then
        let acc' := acc.put start (en - start)
        if a.1 + a.2 > b.1 + b.2 then mergeFrom fuel (a :: pa) pb acc'
        else mergeFrom fuel pa (b :: pb) acc'
      else none

/-- The loop of `intersection_size_asym`, over the intervals `ps` of the smaller set. -/
def asymFrom (l : Runs) : Nat → Runs → Nat → IntervalSet → Option IntervalSet
  | 0, _, _, _ => none
  | fuel + 1, ps, offset, acc =>
    match (findInc l offset).2 with
    | [] => some acc
    | pl :: plRest =>
      match ps.dropWhile fun p => decide (p.1 + p.2 ≤ pl.1) with
      | [] => some acc
      | p :: rest =>
        let offset := pl.1 + pl.2
        if offset ≤ p.1 then asymFrom l fuel (p :: rest) p.1 acc
        else if p = pl then
          let (ps', _, acc') := equalRun putEqual (p :: rest) (pl :: plRest) acc
          match ps' with
          | [] => some acc'
          | q :: rest' => asymFrom l fuel (q :: rest') q.1 acc'
        else
          let start := max p.1 pl.1
          let en := min (p.1 + p.2) offset
          if en > start then
            let acc' := acc.put start (en - start)
            if p.1 + p.2 ≤ offset then
              match rest with
              | [] => some acc'
              | q :: rest' => asymFrom l fuel (q :: rest') q.1 acc'
            else asymFrom l fuel (p :: rest) offset acc'
          else none

/-- The linear merge of two sets. -/
def mergeIntersection (a b : IntervalSet) : Option IntervalSet :=
  mergeFrom (a.m.length + b.m.length) a.m b.m {}

/-- `intersection_size_asym(s, l)`, on the set that was just cleared. -/
def intersectionSizeAsym (s l : IntervalSet) : Option IntervalSet :=
  match s.m with
  | [] => none
  | p :: ps => asymFrom l.m (s.m.length + l.m.length + 1) (p :: ps) p.1 {}

/-- `intersection_of(a, b)`. -/
def intersectionOf (a b : IntervalSet) : Option IntervalSet :=
  let (s, l) := if a.size < b.size then (a, b) else (b, a)
  if s.size = 0 then some {}
  else if l.size / s.size ≥ 10 then intersectionSizeAsym s l
  else mergeIntersection a b

/-- `intersects(start, len)`. -/
def intersects (s : IntervalSet) (start len : Nat) : Option Bool := do
  let a ← insert {} start len
  let i ← intersectionOf s a
  return !i.empty

/-! ## Union -/

/-- `union_of(a, b)`: `a` without the common part, and then all of `b`. -/
def unionOf (a b : IntervalSet) : Option IntervalSet := do
  let ab ← intersectionOf a b
  let s ← subtract a ab
  insertSet s b

/-- `union_insert(off, len)`. -/
def unionInsert (s : IntervalSet) (off len : Nat) : Option IntervalSet := do
  let a ← insert {} off len
  unionOf s a

/-! ## Subsets -/

/-- The loop of `subset_size_sym`. -/
def subsetFrom : Nat → Runs → Runs → Option Bool
  | _, [], _ => some true
  | _, _ :: _, [] => some false
  | 0, _ :: _, _ :: _ => none
  | fuel + 1, a :: pa, b :: pb =>
    match (b :: pb).dropWhile fun p => decide (p.1 + p.2 ≤ a.1) with
    | [] => some false
    | b :: pb =>
      if a = b then
        let (pa', pb', _) := equalRun (fun _ _ => ()) (a :: pa) (b :: pb) ()
        subsetFrom fuel pa' pb'
      else if a.1 < b.1 then some false
      else if a.1 + a.2 > b.1 + b.2 then some false
      else subsetFrom fuel pa (b :: pb)

/-- `subset_size_sym(b)`. -/
def subsetSizeSym (a b : IntervalSet) : Option Bool := subsetFrom a.m.length a.m b.m

/-- The loop of `subset_of` that looks every interval up. -/
def subsetLookup (a big : IntervalSet) : Bool := a.m.all fun p => big.containsRange p.1 p.2

/-- `subset_of(big)`. -/
def subsetOf (a big : IntervalSet) : Option Bool :=
  if a.size = 0 then some true
  else if a.size > big.size then some false
  else do
    let aEnd ← a.rangeEnd
    let bigEnd ← big.rangeEnd
    if aEnd > bigEnd then some false
    else if big.size / a.size < 10 then subsetSizeSym a big
    else some (subsetLookup a big)

/-! ## Spans -/

/-- The loop of `span_of`. -/
def spanFrom : Runs → Nat → IntervalSet → Option IntervalSet
  | [], _, acc => some acc
  | p :: rest, len, acc =>
    if len > 0 then
      if p.2 < len then do
        let acc' ← acc.insert p.1 p.2
        spanFrom rest (len - p.2) acc'
      else acc.insert p.1 len
    else some acc

/-- `span_of(other, start, len)`. -/
def spanOf (other : IntervalSet) (start len : Nat) : Option IntervalSet :=
  match (findInc other.m start).2 with
  | [] => some {}
  | p :: rest =>
    if p.1 < start then
      if p.1 + p.2 < start then some {}
      else if p.1 + p.2 < start + len then do
        let howmuch := p.2 - (start - p.1)
        let acc ← insert {} start howmuch
        spanFrom rest (len - howmuch) acc
      else insert {} start len
    else spanFrom (p :: rest) len {}

end IntervalSet

/-! ## `interval_set`: what the operations denote

A set represents a finite set of numbers when its map is canonical, covers these numbers and
its size is the sum of the lengths.  Every operation, on sets that represent and for arguments
that meet its precondition, succeeds and represents the result of the set operation. -/

open List

/-! ## Positions in the map -/

section

variable {m pre post : Runs} {passed : Nat × Nat → Bool} {start k v : Nat}

/-- Looking back one interval from the lower bound is enough to find the first interval that
is not passed. -/
theorem findFrom_spec (h : Canonical m) (hlt : ∀ p : Nat × Nat, p.1 + p.2 < start → passed p = true)
    (hle : ∀ p : Nat × Nat, passed p = true → p.1 + p.2 ≤ start) :
    ∃ pre post, findFrom passed m start = (pre, post) ∧ m = pre ++ post ∧
      (∀ p ∈ pre, passed p = true) ∧ ∀ p ∈ post, passed p = false := by
  obtain ⟨pre, post, hlo, hhi, hm, hpre, -⟩ := cut_spec (fun p => decide (p.1 < start)) m
  -- An interval from the lower bound on ends after `start`.
  have hpost : ∀ p ∈ post, passed p = false := by
    have hfalls : Falls (fun p => decide (p.1 < start)) m := h.sep.imp fun hpq hq =>
      decide_eq_true (by have := of_decide_eq_true hq; omega)
    intro p hp
    rw [← hhi, dropWhile_eq_filter hfalls, mem_filter, Bool.not_eq_true',
      decide_eq_false_iff_not] at hp
    rw [Bool.eq_false_iff]
    intro hpass
    have hpos := h.pos p hp.1
    have hend := hle p hpass
    omega
  unfold findFrom lowerBound
  rw [hlo, hhi]
  subst hm
  obtain ⟨hcpre, -, hgap⟩ := canonical_append.1 h
  dsimp only
  obtain hnil | hconcat := eq_nil_or_concat pre
  · subst hnil
    exact ⟨[], post, rfl, rfl, nofun, hpost⟩
  · obtain ⟨front, q, rfl⟩ := hconcat
    rw [concat_eq_append] at *
    have hlast : q ∈ front ++ [q] := mem_concat_self
    have hfront : ∀ p ∈ front, passed p = true := by
      intro p hp
      have hq := of_decide_eq_true (hpre q hlast)
      have := (canonical_append.1 hcpre).2.2 p hp q (mem_singleton.2 rfl)
      exact hlt p (by omega)
    rw [getLast?_concat, dropLast_concat]
    dsimp only
    cases hpass : passed q with
    | true =>
      rw [if_neg (by simp)]
      exact ⟨_, _, rfl, rfl, forall_mem_append.2 ⟨hfront, forall_mem_singleton.2 hpass⟩, hpost⟩
    | false =>
      have hnext : ∀ p ∈ post.head?, p.1 > start := by
        intro p hp
        have hgt := hgap q hlast p (mem_of_head? hp)
        have hnot : ¬ q.1 + q.2 < start := fun hend => by simp [hlt q hend] at hpass
        omega
      rw [if_pos ⟨hnext, rfl⟩, append_assoc]
      exact ⟨_, _, rfl, rfl, hfront, forall_mem_cons.2 ⟨hpass, hpost⟩⟩

/-- From `start` on, the intervals from the position on are all that matters. -/
theorem findInc_spec (h : Canonical m) (start : Nat) :
    ∃ pre post, findInc m start = (pre, post) ∧ m = pre ++ post ∧ Canonical post ∧
      (∀ p ∈ post, start < p.1 + p.2) ∧ ∀ x, start ≤ x → (Covered m x ↔ Covered post x) := by
  obtain ⟨pre, post, hfind, hm, hpre, hpost⟩ := findFrom_spec h
    (fun p hp => decide_eq_true hp.le) (fun p hp => of_decide_eq_true hp)
  refine ⟨pre, post, hfind, hm, (canonical_append.1 (hm ▸ h)).2.1,
    fun p hp => Nat.lt_of_not_le (of_decide_eq_false (hpost p hp)), fun x hx => ?_⟩
  rw [hm, covered_append_of_past (fun p hp => of_decide_eq_true (hpre p hp)) hx]

/-- A key between two parts of the map is put there. -/
theorem assign_append (hpre : ∀ p ∈ pre, p.1 < k) (hpost : ∀ p ∈ post, k < p.1) :
    assign (pre ++ post) k v = pre ++ (k, v) :: post := by
  induction pre with
  | nil =>
    cases post with
    | nil => rfl
    | cons q =>
      have hq := hpost q mem_cons_self
      rw [nil_append, assign, if_neg (lt_asymm hq), if_neg (ne_of_gt hq)]
      rfl
  | cons p _ ih =>
    rw [cons_append, assign, if_pos (hpre p mem_cons_self),
      ih fun q hq => hpre q (mem_cons_of_mem _ hq)]
    rfl

/-- A key after all others is put at the end. -/
theorem emplace_last (h : ∀ p ∈ m, p.1 < k) : emplace m k v = m ++ [(k, v)] := by
  induction m with
  | nil => rfl
  | cons p _ ih =>
    rw [emplace, if_pos (h p mem_cons_self), ih fun q hq => h q (mem_cons_of_mem _ hq)]
    rfl

theorem lookup_last (h : ∀ p ∈ m, p.1 < k) : (m ++ [(k, v)]).lookup k = some v := by
  rw [lookup_append, lookup_eq_none_iff.2 fun p hp => bne_iff_ne.2 (ne_of_gt (h p hp)),
    Option.none_or, lookup_cons_self]

end

/-! ## Representation -/

/-- The set represents the numbers `S`. -/
structure Rep (s : IntervalSet) (S : Finset Nat) : Prop where
  canonical : Canonical s.m
  size_eq : s.size = total s.m
  covered : ∀ x, Covered s.m x ↔ x ∈ S

theorem rep_empty : Rep {} ∅ := ⟨canonical_nil, rfl, fun x => by simp⟩

section

variable {s t a b : IntervalSet} {S A B : Finset Nat} {start len : Nat}

theorem Rep.points_eq (h : Rep s S) : points s.m = S := by
  ext x
  rw [mem_points, h.covered]

/-- `size()` is the number of elements. -/
theorem Rep.card_eq (h : Rep s S) : s.size = S.card := by
  rw [h.size_eq, ← h.points_eq, h.canonical.card_points]

/-- Sets that represent the same numbers are equal, maps and sizes. -/
theorem Rep.unique (h : Rep s S) (h' : Rep t S) : s = t := by
  obtain ⟨ms, zs⟩ := s
  obtain ⟨mt, zt⟩ := t
  obtain rfl : ms = mt :=
    h.canonical.ext h'.canonical fun x => (h.covered x).trans (h'.covered x).symm
  obtain rfl : zs = zt := h.size_eq.trans h'.size_eq.symm
  rfl

theorem Rep.m_eq_nil_iff (h : Rep s S) : s.m = [] ↔ S = ∅ := by
  constructor
  · intro hnil
    rw [← h.points_eq, hnil]
    rfl
  · intro hempty
    subst hempty
    exact congrArg IntervalSet.m (h.unique rep_empty)

/-- A map with one interval put between two parts, or in the place of some. -/
theorem rep_mid {pre post : Runs} {st ln lo hi size : Nat} (hpre : Canonical pre)
    (hpost : Canonical post) (hln : 0 < ln) (hbefore : ∀ p ∈ pre, p.1 + p.2 < lo) (hlo : lo ≤ st)
    (hafter : ∀ p ∈ post, hi < p.1) (hhi : st + ln ≤ hi)
    (hsize : size = total pre + ln + total post)
    (hcovered : ∀ x, Covered pre x ∨ (st ≤ x ∧ x < st + ln) ∨ Covered post x ↔ x ∈ S) :
    Rep ⟨pre ++ (st, ln) :: post, size⟩ S where
  canonical := by
    refine canonical_append.2 ⟨hpre, canonical_cons.2 ⟨hln, hpost, fun q hq => ?_⟩,
      fun p hp => forall_mem_cons.2 ⟨(hbefore p hp).trans_le hlo, fun q hq => ?_⟩⟩
    · exact hhi.trans_lt (hafter q hq)
    · have := hbefore p hp
      have := hafter q hq
      omega
  size_eq := by rw [total_append, total_cons, hsize, add_assoc]
  covered x := by rw [covered_append, covered_cons, hcovered]

/-! ## Inserting and erasing a range -/

/-- `insert` of a range that is disjoint from the set. -/
theorem Rep.insert (h : Rep s S) (hlen : 0 < len)
    (hdisj : ∀ x, start ≤ x → x < start + len → x ∉ S) :
    ∃ t, s.insert start len = some t ∧ Rep t (S ∪ Finset.Ico start (start + len)) := by
  obtain ⟨pre, post, hfind, hm, hpre, hpost⟩ := findFrom_spec h.canonical
    (fun p hp => decide_eq_true hp) (fun p hp => le_of_lt (of_decide_eq_true hp))
  replace hfind : findAdj s.m start = _ := hfind
  replace hpre : ∀ p ∈ pre, p.1 + p.2 < start := fun p hp => of_decide_eq_true (hpre p hp)
  replace hpost : ∀ p ∈ post, start ≤ p.1 + p.2 := fun p hp =>
    Nat.le_of_not_lt (of_decide_eq_false (hpost p hp))
  have hcanon := h.canonical
  have hcov := h.covered
  have hsize := h.size_eq
  rw [hm] at hcanon hcov hsize
  obtain ⟨hcpre, hcpost, hgap⟩ := canonical_append.1 hcanon
  rw [total_append] at hsize
  have hkeys : ∀ p ∈ pre, p.1 < start := fun p hp => by have := hpre p hp; omega
  -- No element of the set lies in the range, so no interval starts there.
  have hfree : ∀ p ∈ post, p.1 < start ∨ start + len ≤ p.1 := by
    intro p hp
    by_contra hcon
    have hpos := hcpost.pos p hp
    refine hdisj p.1 (by omega) (by omega) ((hcov _).1 ?_)
    exact covered_append.2 (.inr (covered_of_mem hp le_rfl (by omega)))
  have hin : ∀ x, x ∈ S ∪ Finset.Ico start (start + len) ↔
      (Covered pre x ∨ Covered post x) ∨ start ≤ x ∧ x < start + len := fun x => by
    rw [Finset.mem_union, Finset.mem_Ico, ← hcov, covered_append]
  rw [IntervalSet.insert, if_pos hlen, hfind]
  cases post with
  | nil =>
    rw [append_nil] at hm
    have hput : assign (pre ++ []) start len = pre ++ [(start, len)] := assign_append hkeys nofun
    rw [append_nil] at hput
    refine ⟨_, rfl, ?_⟩
    rw [hm, hput]
    refine rep_mid hcpre canonical_nil hlen hpre le_rfl nofun le_rfl
      (by rw [hsize]; omega) fun x => ?_
    simp [hin]
  | cons p post =>
    obtain ⟨_, hcpost', hpgap⟩ := canonical_cons.1 hcpost
    have hpend := hpost p mem_cons_self
    have hpfree := hfree p mem_cons_self
    have hbefore : ∀ q ∈ pre, q.1 + q.2 < p.1 := fun q hq => hgap q hq p mem_cons_self
    rw [total_cons] at hsize
    dsimp only
    split
    next _ =>
      -- The interval before the range ends where it starts.
      have hend : p.1 + p.2 = start := by
        by_contra hne
        refine hdisj start le_rfl (by omega) ((hcov _).1 ?_)
        exact covered_append.2 (.inr (covered_of_mem mem_cons_self (by omega) (by omega)))
      rw [if_neg (not_not.2 hend)]
      cases post with
      | nil =>
        refine ⟨_, rfl, rep_mid hcpre canonical_nil (by omega) hbefore le_rfl
          nofun le_rfl (by rw [hsize]; omega) fun x => ?_⟩
        rw [hin, covered_cons]
        grind
      | cons n =>
        obtain ⟨_, hcpost'', hngap⟩ := canonical_cons.1 hcpost'
        have hpn := hpgap n mem_cons_self
        have hnfree := hfree n (mem_cons_of_mem _ mem_cons_self)
        rw [total_cons] at hsize
        dsimp only
        split
        next hmeet =>
          refine ⟨_, rfl, rep_mid hcpre hcpost'' (by omega) hbefore le_rfl hngap (by omega)
            (by rw [hsize]; omega) fun x => ?_⟩
          rw [hin, covered_cons, covered_cons]
          grind
        next hapart =>
          refine ⟨_, rfl, rep_mid hcpre hcpost' (by omega) hbefore le_rfl ?_ le_rfl
            (by rw [total_cons]; omega) fun x => ?_⟩
          · exact forall_mem_cons.2 ⟨by omega, fun q hq => by have := hngap q hq; omega⟩
          · simp only [hin, covered_cons]
            grind
    next _ =>
      split
      next hmeet =>
        refine ⟨_, rfl, ?_⟩
        rw [assign_append hkeys fun q hq => by have := hpgap q hq; omega]
        refine rep_mid hcpre hcpost' (by omega) hpre le_rfl hpgap (by omega)
          (by rw [hsize]; omega) fun x => ?_
        rw [hin, covered_cons]
        grind
      next hapart =>
        rw [if_pos (by omega)]
        refine ⟨_, rfl, ?_⟩
        have hafter : ∀ q ∈ p :: post, start + len < q.1 :=
          forall_mem_cons.2 ⟨by omega, fun q hq => by have := hpgap q hq; omega⟩
        rw [hm, assign_append hkeys fun q hq => by have := hafter q hq; omega]
        refine rep_mid hcpre hcpost hlen hpre le_rfl hafter le_rfl
          (by rw [total_cons]; omega) fun x => ?_
        grind

/-- `erase` of a range that the set contains. -/
theorem Rep.erase (h : Rep s S) (hlen : 0 < len) (hsub : ∀ x, start ≤ x → x < start + len → x ∈ S) :
    ∃ t, s.erase start len = some t ∧ Rep t (S \ Finset.Ico start (start + len)) := by
  obtain ⟨pre, post, hfind, hm, hcpost, hpost, hfar⟩ := findInc_spec h.canonical start
  -- What lies in the range or beyond is covered by the intervals from the position on.
  have hlater : ∀ x, start ≤ x → x ∈ S → Covered post x := fun x hx hxS =>
    (hfar x hx).1 ((h.covered x).2 hxS)
  have hcanon := h.canonical
  have hcov := h.covered
  have hsize := h.size_eq
  rw [hm] at hcanon hcov hsize
  obtain ⟨hcpre, -, hgap⟩ := canonical_append.1 hcanon
  rw [total_append] at hsize
  cases post with
  | nil => exact absurd (hlater start le_rfl (hsub start le_rfl (by omega))) covered_nil
  | cons p post =>
    obtain ⟨_, hcpost', hpgap⟩ := canonical_cons.1 hcpost
    have hpend := hpost p mem_cons_self
    have hbefore : ∀ q ∈ pre, q.1 + q.2 < p.1 := fun q hq => hgap q hq p mem_cons_self
    have hmid : ∀ q ∈ pre, ∀ r ∈ post, q.1 + q.2 < r.1 :=
      fun q hq r hr => hgap q hq r (mem_cons_of_mem _ hr)
    have hstart : p.1 ≤ start :=
      hcpost.le_of_covered (hlater start le_rfl (hsub start le_rfl (by omega)))
    -- The interval that holds the first number of the range holds all of it.
    have hend : start + len ≤ p.1 + p.2 := by
      by_contra hcon
      have hstop := hlater (p.1 + p.2) (by omega) (hsub _ (by omega) (by omega))
      exact hcpost.not_covered_stop hstop
    rw [total_cons] at hsize
    rw [IntervalSet.erase, hfind]
    dsimp only
    rw [if_pos hstart, if_pos (by omega)]
    refine ⟨_, rfl, ?_⟩
    have hin : ∀ x, x ∈ S ↔ Covered pre x ∨ (p.1 ≤ x ∧ x < p.1 + p.2) ∨ Covered post x := by
      intro x
      rw [← hcov, covered_append, covered_cons]
    have hpostFar : ∀ x, Covered post x → p.1 + p.2 < x := fun x => hcpost.lt_of_covered_tail
    have hpreFar : ∀ x, Covered pre x → x < p.1 := by
      rintro x ⟨q, hq, -, _⟩
      have := hbefore q hq
      omega
    have hkeys : ∀ q ∈ pre, q.1 < start + len := fun q hq => by
      have := hbefore q hq
      omega
    have hafter : ∀ q ∈ post, start + len < q.1 := fun q hq => by
      have := hpgap q hq
      omega
    cases decEq (start - p.1) 0 with
    | isTrue hb =>
      rw [if_neg (not_not.2 hb)]
      cases decEq (p.2 - (start - p.1) - len) 0 with
      | isTrue ha =>
        rw [if_neg (not_not.2 ha)]
        refine ⟨canonical_append.2 ⟨hcpre, hcpost', hmid⟩, ?_, fun x => ?_⟩
        · dsimp only
          rw [total_append]
          omega
        · rw [Finset.mem_sdiff, covered_append]
          grind
      | isFalse ha =>
        rw [if_pos ha, assign_append hkeys hafter]
        refine rep_mid hcpre hcpost' (by omega) hbefore (by omega) hpgap (by omega)
          (by rw [hsize]; omega) fun x => ?_
        grind
    | isFalse hb =>
      rw [if_pos hb]
      cases decEq (p.2 - (start - p.1) - len) 0 with
      | isTrue ha =>
        rw [if_neg (not_not.2 ha)]
        refine rep_mid hcpre hcpost' (by omega) hbefore le_rfl hpgap (by omega)
          (by rw [hsize]; omega) fun x => ?_
        rw [Finset.mem_sdiff]
        grind
      | isFalse ha =>
        have hfront : ∀ q ∈ pre ++ [(p.1, start - p.1)], q.1 + q.2 < start + len := by
          intro q hq
          obtain hq | hq := mem_append.1 hq
          · have := hbefore q hq
            omega
          · rw [mem_singleton.1 hq]
            omega
        rw [if_pos ha, append_cons,
          assign_append (fun q hq => (Nat.le_add_right _ _).trans_lt (hfront q hq)) hafter]
        refine rep_mid ?_ hcpost' (by omega) hfront le_rfl hpgap (by omega) ?_ fun x => ?_
        · refine canonical_append.2 ⟨hcpre, canonical_singleton (by dsimp only; omega), ?_⟩
          intro q hq r hr
          rw [mem_singleton.1 hr]
          exact hbefore q hq
        · rw [total_append, total_cons, total_nil]
          omega
        · simp only [Finset.mem_sdiff, Finset.mem_Ico, hin, covered_append, covered_cons,
            covered_nil, or_false]
          grind

/-- Doing an operation with every interval of a list: `f` is what it does to the numbers, for
ranges with `P`. -/
theorem Rep.foldlM {op : IntervalSet → Nat → Nat → Option IntervalSet}
    {f : Finset Nat → Finset Nat → Finset Nat} {P : Finset Nat → Finset Nat → Prop}
    (hop : ∀ {s S start len}, Rep s S → 0 < len → P S (Finset.Ico start (start + len)) →
      ∃ t, op s start len = some t ∧ Rep t (f S (Finset.Ico start (start + len))))
    (hnil : ∀ S, f S ∅ = S) (hf : ∀ S A B, f (f S A) B = f S (A ∪ B))
    (hP : ∀ {S A B}, P S (A ∪ B) → Disjoint A B → P S A ∧ P (f S A) B)
    {l : Runs} (hl : Canonical l) (h : Rep s S) (hS : P S (points l)) :
    ∃ t, l.foldlM (fun s p => op s p.1 p.2) s = some t ∧ Rep t (f S (points l)) := by
  induction l generalizing s S with
  | nil => exact ⟨s, rfl, (hnil S).symm ▸ h⟩
  | cons _ _ ih =>
    rw [points_cons] at hS ⊢
    obtain ⟨hp, hrest⟩ := hP hS hl.disjoint_points
    obtain ⟨t, ht, hrep⟩ := hop h hl.head_pos hp
    obtain ⟨u, hu, hrep'⟩ := ih hl.tail hrep hrest
    refine ⟨u, ?_, hf S _ _ ▸ hrep'⟩
    rw [foldlM_cons, ht]
    exact hu

/-- `insert(a)`, for disjoint sets. -/
theorem Rep.insertSet (h : Rep s S) (ha : Rep a A) (hdisj : Disjoint S A) :
    ∃ t, s.insertSet a = some t ∧ Rep t (S ∪ A) := by
  rw [← ha.points_eq] at hdisj ⊢
  refine Rep.foldlM (P := Disjoint) (fun h hlen hd => h.insert hlen fun x hlo hhi hx => ?_)
    Finset.union_empty Finset.union_assoc (fun hd hAB => ?_) ha.canonical h hdisj
  · exact Finset.disjoint_left.1 hd hx (Finset.mem_Ico.2 ⟨hlo, hhi⟩)
  · obtain ⟨hA, hB⟩ := Finset.disjoint_union_right.1 hd
    exact ⟨hA, Finset.disjoint_union_left.2 ⟨hB, hAB⟩⟩

/-- `subtract(a)`, for a subset. -/
theorem Rep.subtract (h : Rep s S) (ha : Rep a A) (hsub : A ⊆ S) :
    ∃ t, s.subtract a = some t ∧ Rep t (S \ A) := by
  rw [← ha.points_eq] at hsub ⊢
  refine Rep.foldlM (P := fun S A => A ⊆ S)
    (fun h hlen hs => h.erase hlen fun x hlo hhi => hs (Finset.mem_Ico.2 ⟨hlo, hhi⟩))
    (fun _ => Finset.sdiff_empty) (fun _ _ _ => sdiff_sdiff_left) (fun hs hAB => ?_)
    ha.canonical h hsub
  obtain ⟨hA, hB⟩ := Finset.union_subset_iff.1 hs
  exact ⟨hA, Finset.subset_sdiff.2 ⟨hB, hAB.symm⟩⟩

/-! ## Queries -/

/-- `contains(start, len)` asks for a range that is not empty. -/
theorem Rep.containsRange_iff (h : Rep s S) (start : Nat) (hlen : 0 < len) :
    s.containsRange start len = true ↔ Finset.Ico start (start + len) ⊆ S := by
  obtain ⟨_, post, hfind, -, hcpost, hpost, hfar⟩ := findInc_spec h.canonical start
  have hrange : Finset.Ico start (start + len) ⊆ S ↔
      ∀ x, start ≤ x → x < start + len → Covered post x := by
    simp only [Finset.subset_iff, Finset.mem_Ico, and_imp, ← h.covered]
    exact forall₂_congr fun x hlo => by rw [hfar x hlo]
  rw [IntervalSet.containsRange, hfind, hrange]
  cases post with
  | nil => simpa using ⟨start, le_rfl, by omega⟩
  | cons p =>
    have hpend := hpost p mem_cons_self
    dsimp only
    split
    next _ =>
      refine ⟨nofun, fun hall => ?_⟩
      have hfirst := hcpost.le_of_covered (hall start le_rfl (by omega))
      omega
    next _ =>
      rw [if_neg (not_le.2 hpend)]
      split
      next hshort =>
        refine ⟨nofun, fun hall => ?_⟩
        exact absurd (hall (p.1 + p.2) (by omega) hshort) hcpost.not_covered_stop
      next _ => exact ⟨fun _ x hlo hhi => covered_cons.2 (.inl ⟨by omega, by omega⟩), fun _ => rfl⟩

/-- `contains(i)` asks for an element, that is for a range of one. -/
theorem Rep.contains_iff (h : Rep s S) (i : Nat) : s.contains i = true ↔ i ∈ S := by
  have hrange : s.contains i = s.containsRange i 1 := by
    rw [IntervalSet.contains, IntervalSet.containsRange]
    split
    · rfl
    · split
      · rfl
      · split
        · rfl
        · rw [if_neg (by omega)]
  rw [hrange, h.containsRange_iff i one_pos, Nat.Ico_succ_singleton, Finset.singleton_subset_iff]

end

end Ceph.Include
