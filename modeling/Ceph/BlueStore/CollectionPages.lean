import Ceph.BlueStore.CollectionList
import Ceph.BlueStore.CollectionRange
import Ceph.Lib.Pages
import Mathlib.Data.Finset.Sort

set_option autoImplicit false

/-!
# BlueStore: listing a collection page by page (os/bluestore/BlueStore.cc)

`_collection_list` walks through the range of the temporary objects and then through the other
one, and stops at the page size with the next object as a cursor.  The listing is the one with
`SortedCollectionListIterator`.
-/

namespace Ceph.BlueStore

open Ceph.Lib Ceph.Common List

/-! ## One page -/

/-- Why a page is not returned: `-ENOENT`, an assertion, or more rounds than a bound. -/
inductive ListError where
  | enoent
  | assertion
  | limit
  deriving DecidableEq, Repr

def orAssert {α : Type} : Option α → Except ListError α
  | some a => .ok a
  | none => .error .assertion

/-- `ghobject_t()`. -/
def defaultObject : GHObject :=
  ⟨makeHobj [] 0#64 0#32 Int64.minValue [] [], BitVec.allOnes 64, -1, false⟩

/-- `coll_t::get_min_hobj`. -/
def Coll.getMinHobj : Coll → GHObject
  | .typePg pgid => ⟨makeHobj [] 0#64 0#32 pgid.pool [] [], BitVec.allOnes 64, pgid.shard, false⟩
  | .typeMeta => ⟨makeHobj [] 0#64 0#32 (-1) [] [], BitVec.allOnes 64, -1, false⟩
  | _ => defaultObject

/-- The loop of `_collection_list`, up to the object `stop`. -/
def listLoop (db : List ByteString) (r : CollRange) (stop : GHObject) (max : Nat) :
    Nat → ListIter → Bool → GHObject → List GHObject → Except ListError (List GHObject × GHObject)
  | 0, _, _, _, _ => .error .limit
  | fuel + 1, it, temp, pend, ls =>
    match it.oid.filter (· < pend) with
    | some o =>
      if max ≤ ls.length then .ok (ls, o)
      else do
        let it ← orAssert it.next
        listLoop db r stop max fuel it temp pend (ls ++ [o])
    | none =>
      if temp = true ∧ isTemp stop.hobj = false then do
        -- switch to non-temp namespace
        let it ← orAssert (it.upperBound db r.start)
        listLoop db r stop max fuel it false (if stop.hobj.max then r.stop else stop) ls
      else
        .ok (ls, (it.oid.filter (· < if temp then r.tempEnd else r.stop)).getD maxObject)

/-- Whether a listing starts from the beginning of the collection. -/
abbrev IsFirst (c : Collection) (start : GHObject) : Prop :=
  start = defaultObject ∨ start.hobj = defaultObject.hobj ∨ start = c.cid.getMinHobj

/-- Where the listing starts: the iterator, and whether it is among the temporary objects. -/
def listStart (db : List ByteString) (c : Collection) (start : GHObject) :
    Except ListError (ListIter × Bool) :=
  let it : ListIter := ⟨[], .empty, []⟩
  if IsFirst c start then
    (orAssert (it.upperBound db c.range.tempStart)).map (·, true)
  else if isTemp start.hobj then
    if c.range.tempStart ≤ start ∧ start < c.range.tempEnd then
      (orAssert (it.lowerBound db start)).map (·, true)
    else .error .assertion
  else if c.range.start ≤ start ∧ start < c.range.stop then
    (orAssert (it.lowerBound db start)).map (·, false)
  else .error .assertion

/-- `_collection_list` without `legacy`: the objects, and `*pnext`. -/
def collectionList (db : List ByteString) (c : Collection) (start stop : GHObject) (max : Nat) :
    Except ListError (List GHObject × GHObject) :=
  if c.present = false then .error .enoent
  else if start.max ∨ start.hobj.max then .ok ([], maxObject)
  else do
    let st ← listStart db c start
    let loop := fun pend => listLoop db c.range stop max (2 * db.length + 3) st.1 st.2 pend []
    if stop.hobj.max then loop (if st.2 then c.range.tempEnd else c.range.stop)
    else if isTemp stop.hobj then
      if st.2 then loop stop else .ok ([], maxObject)
    else loop (if st.2 then c.range.tempEnd else stop)

/-- The pages of a whole listing: it goes on from `*pnext` until that is the maximum. -/
def listPages (db : List ByteString) (c : Collection) (max : Nat) :
    Nat → GHObject → Except ListError (List (List GHObject)) :=
  pages (fun start => collectionList db c start maxObject max) maxObject .limit

/-! ## The walk of the iterator -/

/-- The iterator comes to the objects of a list, one after the other. -/
inductive Walk : ListIter → List GHObject → Prop
  | nil {st : ListIter} (h : st.oid = none) : Walk st []
  | cons {st st' : ListIter} {o : GHObject} {l : List GHObject} (h : st.oid = some o)
      (hnext : st.next = some st') (hl : Walk st' l) : Walk st (o :: l)

theorem walk_of_visit {fuel : Nat} {st : ListIter} {l : List GHObject}
    (h : visit fuel st = some l) : Walk st l := by
  induction fuel generalizing st l with
  | zero => cases h
  | succ _ ih =>
    rw [visit] at h
    cases ho : st.oid with
    | none =>
      rw [ho] at h
      cases h
      exact .nil ho
    | some =>
      rw [ho] at h
      obtain ⟨_, hnext, h⟩ := Option.bind_eq_some_iff.1 h
      obtain ⟨_, hrest, h⟩ := Option.bind_eq_some_iff.1 h
      cases h
      exact .cons ho hnext (ih hrest)

/-! ## The objects of a range -/

variable {x : GHObject} {l : List GHObject} {i : Nat} {it : ListIter}

section Between

variable {db : List ByteString} {lo hi : GHObject}

/-- The stored objects between two ends, in their order. -/
def between (db : List ByteString) (lo hi : GHObject) : List GHObject :=
  ((objectsOf db).toFinset.filter fun x => lo < x ∧ x < hi).sort (· ≤ ·)

theorem mem_between : x ∈ between db lo hi ↔ x ∈ objectsOf db ∧ lo < x ∧ x < hi := by
  rw [between, Finset.mem_sort, Finset.mem_filter, mem_toFinset]

theorem between_sorted : (between db lo hi).Pairwise (· < ·) := (Finset.sortedLT_sort _).pairwise

/-- In front of a place of a sorted list stand the objects before the one there. -/
theorem mem_take_sorted (hsorted : l.Pairwise (· < ·)) {y : GHObject} (hx : l[i]? = some x) :
    (y ∈ l.take i ↔ y ∈ l ∧ y < x) ∧ (y ∈ l.drop i ↔ y ∈ l ∧ x ≤ y) := by
  obtain ⟨hi, hxi⟩ := List.getElem?_eq_some_iff.1 hx
  have hmem : y ∈ l ↔ y ∈ l.take i ∨ y ∈ l.drop i := by
    rw [← mem_append, take_append_drop]
  rw [← take_append_drop i l, pairwise_append, drop_eq_getElem_cons hi, hxi] at hsorted
  have hfront : ∀ y ∈ l.take i, y < x := fun y hy => hsorted.2.2 y hy x mem_cons_self
  have hback : ∀ y ∈ l.drop i, x ≤ y := by
    intro y hy
    rw [drop_eq_getElem_cons hi, hxi] at hy
    obtain rfl | hy := mem_cons.1 hy
    · exact le_rfl
    · exact ((pairwise_cons.1 hsorted.2.1).1 y hy).le
  rw [hmem]
  refine ⟨⟨fun hy => ⟨.inl hy, hfront y hy⟩, ?_⟩, ⟨fun hy => ⟨.inr hy, hback y hy⟩, ?_⟩⟩
  · rintro ⟨hy | hy, hlt⟩
    · exact hy
    · exact absurd (hback y hy) (not_le.2 hlt)
  · rintro ⟨hy | hy, hle⟩
    · exact absurd (hfront y hy) (not_lt.2 hle)
    · exact hy

/-- What an iterator with the stored objects of `P` comes to in front of `hi`. -/
theorem walk_between (hok : IterOk it) {P : GHObject → Prop}
    (hpending : ∀ x, Pending it x ↔ x ∈ objectsOf db ∧ P x) {m : List GHObject}
    (hm : m.Pairwise (· < ·)) (hmem : ∀ x, x ∈ m ↔ x ∈ objectsOf db ∧ P x ∧ x < hi) :
    ∃ l, Walk it l ∧ l.length ≤ db.length ∧ l.takeWhile (· < hi) = m := by
  obtain ⟨l, ⟨n, hvisit⟩, hsorted, hl⟩ := visits_pending _ hok
  have hwalk := walk_of_visit (hvisit n (le_refl n))
  have hsub : ∀ x ∈ l, x ∈ objectsOf db := fun x hx => ((hpending x).1 ((hl x).1 hx)).1
  refine ⟨l, hwalk, (List.Nodup.length_le_of_subset (hsorted.imp ne_of_lt) hsub).trans
    (length_filterMap_le _ _), ?_⟩
  have hfalls : Falls (fun x => decide (x < hi)) l := hsorted.imp fun hlt h =>
    decide_eq_true (hlt.trans (of_decide_eq_true h))
  rw [takeWhile_eq_filter hfalls]
  refine (hsorted.filter _).eq_of_mem_iff hm fun x => ?_
  rw [mem_filter, hl, hpending, hmem, decide_eq_true_iff, and_assoc]

theorem upperBound_walk (hdb : Stored db) (hlo : Plain lo) (hi : GHObject) (it : ListIter) :
    ∃ it' l, it.upperBound db lo = some it' ∧ Walk it' l ∧
      l.length ≤ db.length ∧ l.takeWhile (· < hi) = between db lo hi := by
  obtain ⟨it', hupper, hok, hpending⟩ := upperBound_spec hdb hlo it
  obtain ⟨l, hl⟩ := walk_between hok hpending between_sorted fun _ => mem_between
  exact ⟨it', l, hupper, hl⟩

theorem lowerBound_walk (hdb : Stored db) (hx : Plain x) (hi' : (between db lo hi)[i]? = some x)
    (it : ListIter) :
    ∃ it' l, it.lowerBound db x = some it' ∧ Walk it' l ∧
      l.length ≤ db.length ∧ l.takeWhile (· < hi) = (between db lo hi).drop i := by
  obtain ⟨it', hlower, hok, hpending⟩ := lowerBound_spec hdb hx it
  have hlo := (mem_between.1 (mem_of_getElem? hi')).2.1
  have hrest : ∀ y, y ∈ (between db lo hi).drop i ↔ y ∈ objectsOf db ∧ x ≤ y ∧ y < hi := by
    intro y
    rw [(mem_take_sorted between_sorted hi').2, mem_between]
    grind
  obtain ⟨l, hl⟩ := walk_between hok hpending
    (between_sorted.sublist (drop_sublist i (between db lo hi))) hrest
  exact ⟨it', l, hlower, hl⟩

end Between

/-! ## The loop -/

section Loop

variable {db : List ByteString} {r : CollRange} {stop : GHObject} {max : Nat} {temp : Bool}
  {pend : GHObject}

/-- The loop in one of the ranges: it lists the objects of the iterator up to `pend`, and then what
comes behind them. -/
theorem listLoop_range {n : Nat} {rest : List GHObject}
    (hend : ∀ it fuel ls, n ≤ fuel → ls.length ≤ max → it.oid.filter (· < pend) = none →
      listLoop db r stop max (fuel + 1) it temp pend ls = .ok (page max maxObject (ls ++ rest)))
    {it : ListIter} {l : List GHObject} (hwalk : Walk it l) (fuel : Nat) (ls : List GHObject)
    (hfuel : l.length + n < fuel) (hls : ls.length ≤ max) :
    listLoop db r stop max fuel it temp pend ls =
      .ok (page max maxObject (ls ++ (l.takeWhile (· < pend) ++ rest))) := by
  induction hwalk generalizing fuel ls with
  | nil h =>
    obtain ⟨fuel, rfl⟩ := Nat.exists_eq_add_of_lt hfuel
    exact hend _ _ ls (by omega) hls (by rw [h]; rfl)
  | @cons st _ o l h hnext _ ih =>
    rw [length_cons] at hfuel
    obtain ⟨k, rfl⟩ := Nat.exists_eq_add_of_lt hfuel
    generalize l.length + 1 + n + k = fuel at hfuel ⊢
    by_cases ho : o < pend
    · have hfilter : st.oid.filter (· < pend) = some o := by
        rw [h, Option.filter_some, if_pos (decide_eq_true ho)]
      have htake : (o :: l).takeWhile (· < pend) = o :: l.takeWhile (· < pend) :=
        takeWhile_cons_of_pos (decide_eq_true ho)
      rw [listLoop, hfilter, htake]
      dsimp only
      split
      next _ =>
        have hlen : ls.length = max := by omega
        rw [page, ← hlen, take_left, getElem?_append_right le_rfl, Nat.sub_self]
        rfl
      next _ =>
        rw [hnext]
        exact (ih fuel (ls ++ [o]) (by omega) (by simp; omega)).trans (by rw [append_assoc]; rfl)
    · have hfilter : st.oid.filter (· < pend) = none := by
        rw [h, Option.filter_some, if_neg (by rw [decide_eq_true_iff]; exact ho)]
      have htake : (o :: l).takeWhile (· < pend) = [] :=
        takeWhile_cons_of_neg (by rw [decide_eq_true_iff]; exact ho)
      rw [htake]
      exact hend _ fuel ls (by omega) hls hfilter

/-- The loop behind the temporary objects. -/
theorem listLoop_others (hwalk : Walk it l) (fuel : Nat) (ls : List GHObject)
    (hfuel : l.length < fuel) (hls : ls.length ≤ max) :
    listLoop db r stop max fuel it false r.stop ls =
      .ok (page max maxObject (ls ++ l.takeWhile (· < r.stop))) := by
  have hend : ∀ it fuel ls, 0 ≤ fuel → ls.length ≤ max → it.oid.filter (· < r.stop) = none →
      listLoop db r stop max (fuel + 1) it false r.stop ls =
        .ok (page max maxObject (ls ++ [])) := by
    intro it fuel ls _ hls hfilter
    rw [listLoop, append_nil, page, take_of_length_le hls, getElem?_eq_none hls]
    rw [if_neg Bool.false_ne_true, hfilter]
    rfl
  rw [listLoop_range hend hwalk fuel ls (by omega) hls, append_nil]

/-- The loop from the temporary objects on, to the end of the collection. -/
theorem listLoop_temp {others : List GHObject}
    (hupper : ∀ it : ListIter, ∃ it' l, it.upperBound db r.start = some it' ∧ Walk it' l ∧
      l.length ≤ db.length ∧ l.takeWhile (· < r.stop) = others) (hwalk : Walk it l) (fuel : Nat)
    (ls : List GHObject) (hfuel : l.length + db.length + 1 < fuel) (hls : ls.length ≤ max) :
    listLoop db r maxObject max fuel it true r.tempEnd ls =
      .ok (page max maxObject (ls ++ (l.takeWhile (· < r.tempEnd) ++ others))) := by
  refine listLoop_range (n := db.length + 1) ?_ hwalk fuel ls (by omega) hls
  intro it fuel ls hfuel hls hfilter
  obtain ⟨it', _, hnext, hwalk', _, hothers⟩ := hupper it
  rw [listLoop, hfilter]
  rw [hnext]
  exact (listLoop_others hwalk' fuel ls (by omega) hls).trans (by rw [hothers])

end Loop

/-! ## A page -/

section Page

variable {db : List ByteString} {c : Collection}

/-- The objects that the listing of a collection comes to. -/
def listing (db : List ByteString) (c : Collection) : List GHObject :=
  between db c.range.tempStart c.range.tempEnd ++ between db c.range.start c.range.stop

theorem range_plain (c : Collection) : Plain c.range.tempStart ∧ Plain c.range.start := by
  rw [Collection.range]
  cases c.cid with
  | typePg =>
    rw [getCollRange]
    split <;> exact ⟨⟨rfl, rfl⟩, ⟨rfl, rfl⟩⟩
  | _ => exact ⟨⟨rfl, rfl⟩, ⟨rfl, rfl⟩⟩

theorem getMinHobj_plain (cid : Coll) : Plain cid.getMinHobj := by
  cases cid <;> exact ⟨rfl, rfl⟩

/-- The first page. -/
theorem collectionList_first (hdb : Stored db) (hc : c.present = true) {start : GHObject}
    (hstart : Plain start) (hfirst : IsFirst c start) (max : Nat) :
    collectionList db c start maxObject max = .ok (page max maxObject (listing db c)) := by
  obtain ⟨it, _, hupper, hwalk, _, htake⟩ :=
    upperBound_walk hdb (range_plain c).1 c.range.tempEnd ⟨[], .empty, []⟩
  have hbegin : listStart db c start = .ok (it, true) := by
    rw [listStart, if_pos hfirst, hupper]
    rfl
  rw [collectionList, if_neg (by rw [hc]; decide), if_neg (by rw [hstart.1, hstart.2]; decide),
    hbegin]
  show listLoop db c.range maxObject max _ it true c.range.tempEnd [] = _
  rw [listLoop_temp (upperBound_walk hdb (range_plain c).2 _) hwalk _ _ (by omega) (Nat.zero_le _),
    htake]
  rfl

end Page

/-! ## All pages -/

section Listing

variable {db : List ByteString} {c : Collection}

/-- The end of the range of an object, from which on the listing starts behind it. -/
def Collection.rangeStart (c : Collection) (x : GHObject) : GHObject :=
  if isTemp x.hobj then c.range.tempStart else c.range.start

/-- An object of the collection that is between the ends of its range. -/
@[mk_iff]
structure Reached (c : Collection) (x : GHObject) : Prop where
  covers : c.Covers x
  ne_start : x ≠ c.rangeStart x

/-- A range without its first object. -/
theorem and_lt_iff {lo hi : GHObject} {P : Prop} (h : lo ≤ x ∧ x < hi ↔ P) :
    lo < x ∧ x < hi ↔ P ∧ x ≠ lo := by
  rw [← h, lt_iff_le_and_ne, ne_comm]
  exact and_right_comm

section

variable (hdb : Stored db) (hc : c.Listed)

include hdb hc

theorem mem_temps :
    x ∈ between db c.range.tempStart c.range.tempEnd ↔
      x ∈ objectsOf db ∧ c.contains x = true ∧ Reached c x ∧ isTemp x.hobj = true := by
  rw [mem_between]
  refine and_congr_right fun hx => ?_
  rw [and_lt_iff (range_iff hc (plain_of_mem_objectsOf hdb hx)).2, reached_iff,
    Collection.rangeStart]
  grind

theorem mem_others :
    x ∈ between db c.range.start c.range.stop ↔
      x ∈ objectsOf db ∧ c.contains x = true ∧ Reached c x ∧ isTemp x.hobj = false := by
  rw [mem_between]
  refine and_congr_right fun hx => ?_
  rw [and_lt_iff (range_iff hc (plain_of_mem_objectsOf hdb hx)).1, reached_iff,
    Collection.rangeStart]
  grind

theorem mem_listing : x ∈ listing db c ↔ x ∈ objectsOf db ∧ c.contains x = true ∧ Reached c x := by
  rw [listing, mem_append, mem_temps hdb hc, mem_others hdb hc]
  cases isTemp x.hobj with
  | true => simp
  | false => simp

theorem listing_nodup : (listing db c).Nodup := by
  refine List.Nodup.append (between_sorted.imp ne_of_lt) (between_sorted.imp ne_of_lt) ?_
  intro _ htemp hother
  rw [mem_temps hdb hc] at htemp
  rw [mem_others hdb hc] at hother
  exact absurd hother.2.2.2 (by rw [htemp.2.2.2]; decide)

/-- No object of a collection is taken for the start but the one that `get_min_hobj` returns. -/
theorem eq_of_isFirst (hx : x ∈ listing db c) (h : IsFirst c x) : x = c.cid.getMinHobj := by
  obtain ⟨_, hcontains, _⟩ := (mem_listing hdb hc).1 hx
  have hpool : x.hobj.pool ≠ Int64.minValue := by
    rw [ne_eq, ← Int64.toInt_inj]
    show ¬ x.hobj.pool.toInt = -2 ^ 63
    obtain hc | ⟨pgid, hc⟩ := hc
    · rw [(contains_meta hc x).1 hcontains]
      decide
    · have hge := pgid.pool_nonneg
      have hlt := pgid.pool_lt
      obtain ⟨hpool | hpool, _⟩ := (contains_pg hc x).1 hcontains
      · rw [hpool.1]
        omega
      · rw [hpool.1, toInt_getTempPool _ (by omega)]
        omega
  obtain h | h | h := h
  · exact absurd (by rw [h]; rfl) hpool
  · exact absurd (by rw [h]; rfl) hpool
  · exact h

/-- The page of a cursor. -/
theorem collectionList_next (hpresent : c.present = true) (hx : (listing db c)[i]? = some x)
    (hne : x ≠ c.cid.getMinHobj) (max : Nat) :
    collectionList db c x maxObject max = .ok (page max maxObject ((listing db c).drop i)) := by
  have hmem := mem_of_getElem? hx
  have hplain := plain_of_mem_objectsOf hdb ((mem_listing hdb hc).1 hmem).1
  obtain ⟨hothers, htemps⟩ := range_iff hc hplain
  rw [collectionList, if_neg (by rw [hpresent]; decide),
    if_neg (by rw [hplain.1, hplain.2]; decide), listStart,
    if_neg (mt (eq_of_isFirst hdb hc hmem) hne)]
  rw [listing] at hx ⊢
  by_cases hi : i < (between db c.range.tempStart c.range.tempEnd).length
  · -- the cursor is a temporary object
    rw [getElem?_append_left hi] at hx
    have hrange := (mem_between.1 (mem_of_getElem? hx)).2.imp_left le_of_lt
    obtain ⟨it, l, hlower, hwalk, hlen, htake⟩ := lowerBound_walk hdb hplain hx ⟨[], .empty, []⟩
    rw [if_pos (htemps.1 hrange).2.2, if_pos hrange, hlower]
    show listLoop db c.range maxObject max _ it true c.range.tempEnd [] = _
    rw [listLoop_temp (upperBound_walk hdb (range_plain c).2 _) hwalk _ _ (by omega)
      (Nat.zero_le _), htake, drop_append_of_le_length hi.le]
    rfl
  · rw [getElem?_append_right (not_lt.1 hi)] at hx
    have hrange := (mem_between.1 (mem_of_getElem? hx)).2.imp_left le_of_lt
    obtain ⟨it, l, hlower, hwalk, hlen, htake⟩ := lowerBound_walk hdb hplain hx ⟨[], .empty, []⟩
    rw [if_neg (by rw [(hothers.1 hrange).2.2]; decide), if_pos hrange, hlower]
    show listLoop db c.range maxObject max _ it false c.range.stop [] = _
    rw [listLoop_others hwalk _ _ (by omega) (Nat.zero_le _), htake, drop_append,
      drop_eq_nil_of_le (not_lt.1 hi)]

end

/-- The stored objects of the collection that are listed in front of the object of
`get_min_hobj`. -/
def inFront (db : List ByteString) (c : Collection) : Finset GHObject :=
  (objectsOf db).toFinset.filter fun x =>
    c.contains x = true ∧ (isTemp x.hobj = true ∨ x < c.cid.getMinHobj)

theorem getMinHobj_not_temp (hc : c.Listed) : isTemp c.cid.getMinHobj.hobj = false := by
  obtain hc | ⟨pgid, hc⟩ := hc
  · rw [hc]
    exact not_isTemp_of_meta rfl
  · rw [hc]
    exact (@isTemp_of_pool _ pgid).1 rfl

/-- If all objects are listed, the object of `get_min_hobj` comes behind those in front of it. -/
theorem index_getMinHobj (hdb : Stored db) (hc : c.Listed)
    (hall : ∀ x ∈ objectsOf db, c.contains x = true → Reached c x) {k : Nat}
    (hk : (listing db c)[k]? = some c.cid.getMinHobj) : k = (inFront db c).card := by
  have hnot := getMinHobj_not_temp hc
  rw [listing] at hk
  have hle : (between db c.range.tempStart c.range.tempEnd).length ≤ k := by
    by_contra hlt
    rw [getElem?_append_left (not_le.1 hlt)] at hk
    have htemp := ((mem_temps hdb hc).1 (mem_of_getElem? hk)).2.2.2
    exact absurd hnot (by rw [htemp]; decide)
  rw [getElem?_append_right hle] at hk
  have hlen := (List.getElem?_eq_some_iff.1 hk).1
  generalize hT : between db c.range.tempStart c.range.tempEnd = T at hle hk hlen
  generalize hN : between db c.range.start c.range.stop = N at hk hlen
  have hmem : ∀ x, x ∈ inFront db c ↔ x ∈ T ++ N.take (k - T.length) := by
    intro x
    rw [← hN] at hk
    rw [inFront, Finset.mem_filter, List.mem_toFinset, List.mem_append, ← hN,
      (mem_take_sorted between_sorted hk).1, ← hT, mem_temps hdb hc, mem_others hdb hc]
    constructor
    · rintro ⟨hx, hcontains, hor⟩
      have hreached := hall x hx hcontains
      cases htemp : isTemp x.hobj with
      | true => exact .inl ⟨hx, hcontains, hreached, rfl⟩
      | false =>
        refine .inr ⟨⟨hx, hcontains, hreached, rfl⟩, hor.resolve_left ?_⟩
        rw [htemp]
        decide
    · rintro (⟨hx, hcontains, _, htemp⟩ | ⟨⟨hx, hcontains, _, _⟩, hlt⟩)
      · exact ⟨hx, hcontains, .inl htemp⟩
      · exact ⟨hx, hcontains, .inr hlt⟩
  have hnodup : (T ++ N.take (k - T.length)).Nodup := by
    have hlisting := listing_nodup hdb hc
    rw [listing, hT, hN] at hlisting
    exact hlisting.sublist ((take_sublist _ _).append_left T)
  have hset : inFront db c = (T ++ N.take (k - T.length)).toFinset := by
    ext x
    rw [hmem, mem_toFinset]
  rw [hset, toFinset_card_of_nodup hnodup, length_append, length_take]
  omega

/-- All pages from `start` on are returned, and they hold the stored objects of the collection once
each, first the temporary ones and then the others, both in the order of `ghobject_t`. -/
def ListedInFull (db : List ByteString) (c : Collection) (max : Nat) (start : GHObject) : Prop :=
  ∃ ps n, (∀ fuel, n ≤ fuel → listPages db c max fuel start = .ok ps) ∧
    ∃ temps others, ps.flatten = temps ++ others ∧
      (∀ x ∈ temps, isTemp x.hobj = true) ∧ (∀ x ∈ others, isTemp x.hobj = false) ∧
      temps.Pairwise (fun a b => a.cmp b = .lt) ∧ others.Pairwise (fun a b => a.cmp b = .lt) ∧
      ∀ x, x ∈ ps.flatten ↔ (∃ k ∈ db, getObjectKey x = some k) ∧ c.contains x = true

/-- What a listing in full takes: the collection exists, its stored objects are between the ends of
its ranges, and if the object of `get_min_hobj` is stored, no page but the first starts with it. -/
structure Listable (db : List ByteString) (c : Collection) (max : Nat) : Prop where
  present : c.present = true
  reached : ∀ x k, k ∈ db → getObjectKey x = some k → c.contains x = true → Reached c x
  cursor : ∀ k ∈ db, getObjectKey c.cid.getMinHobj = some k →
    c.contains c.cid.getMinHobj = true → (inFront db c).card = 0 ∨ ¬ max ∣ (inFront db c).card

section Runs

variable (hdb : Stored db) (hc : c.Listed) {max : Nat} (hmax : 0 < max) {start : GHObject}
  (hstart : Plain start) (hfirst : IsFirst c start)

include hdb hc

theorem maxObject_not_mem_listing : maxObject ∉ listing db c := by
  intro h
  have hplain := plain_of_mem_objectsOf hdb ((mem_listing hdb hc).1 h).1
  exact absurd hplain.1 (by decide)

include hmax hstart hfirst

/-- The pages are the listing, unless one of them starts with the object of `get_min_hobj`. -/
theorem listPages_flatten (hpresent : c.present = true)
    (hcursor : ∀ i, 0 < i → max ∣ i → (listing db c)[i]? ≠ some c.cid.getMinHobj) :
    ∃ ps n, (∀ fuel, n ≤ fuel → listPages db c max fuel start = .ok ps) ∧
      ps.flatten = listing db c := by
  refine pages_flatten hmax (maxObject_not_mem_listing hdb hc)
    (collectionList_first hdb hpresent hstart hfirst max) fun i x hi hdvd hx => ?_
  refine collectionList_next hdb hc hpresent hx ?_ max
  rintro rfl
  exact hcursor i hi hdvd hx

/-- A page that starts with the object of `get_min_hobj` is the first one again. -/
theorem listPages_never (hpresent : c.present = true) {k : Nat} (hk : 0 < k) (hdvd : max ∣ k)
    (hmin : (listing db c)[k]? = some c.cid.getMinHobj) (fuel : Nat)
    (ps : List (List GHObject)) : listPages db c max fuel start ≠ .ok ps := by
  refine pages_restart (maxObject_not_mem_listing hdb hc)
    (collectionList_first hdb hpresent hstart hfirst max) (fun i x _ hi _ hx => ?_) hmax hk hdvd
    hmin ?_ fuel ps
  · refine collectionList_next hdb hc hpresent hx ?_ max
    rintro rfl
    have heq := (List.getElem?_inj (List.getElem?_eq_some_iff.1 hx).1 (listing_nodup hdb hc)).1
      (hx.trans hmin.symm)
    exact absurd heq (ne_of_lt hi)
  · exact (collectionList_first hdb hpresent (getMinHobj_plain _) (Or.inr (Or.inr rfl)) max).trans
      (collectionList_first hdb hpresent hstart hfirst max).symm

theorem listedInFull_of_listable (h : Listable db c max) : ListedInFull db c max start := by
  have hall : ∀ x ∈ objectsOf db, c.contains x = true → Reached c x := by
    intro x hx
    obtain ⟨k, hk, hkey⟩ := (mem_objectsOf hdb).1 hx
    exact h.reached x k hk hkey
  obtain ⟨ps, n, hps, hflat⟩ :=
    listPages_flatten hdb hc hmax hstart hfirst h.present fun i hi hdvd hmin => by
      obtain ⟨hx, hcontains, _⟩ := (mem_listing hdb hc).1 (mem_of_getElem? hmin)
      obtain ⟨k, hk, hkey⟩ := (mem_objectsOf hdb).1 hx
      have hindex := index_getMinHobj hdb hc hall hmin
      obtain _ | hnot := h.cursor k hk hkey hcontains
      · omega
      · exact hnot (hindex ▸ hdvd)
  refine ⟨ps, n, hps, _, _, hflat, fun x hx => ((mem_temps hdb hc).1 hx).2.2.2,
    fun x hx => ((mem_others hdb hc).1 hx).2.2.2,
    between_sorted.imp fun h => GHObject.cmp_eq_lt.2 h,
    between_sorted.imp fun h => GHObject.cmp_eq_lt.2 h, fun x => ?_⟩
  rw [hflat, mem_listing hdb hc, ← mem_objectsOf hdb]
  exact ⟨fun h => ⟨h.1, h.2.1⟩, fun h => ⟨h.1, h.2, hall x h.1 h.2⟩⟩

theorem listable_of_listedInFull (h : ListedInFull db c max start) : Listable db c max := by
  obtain ⟨ps, n, hps, _, _, _, _, _, _, _, hmem⟩ := h
  have hpresent : c.present = true := by
    by_contra hnot
    have herror : listPages db c max (n + 1) start = .error .enoent := by
      rw [listPages, pages, collectionList, if_pos (Bool.eq_false_of_not_eq_true hnot)]
      rfl
    rw [hps (n + 1) (Nat.le_succ n)] at herror
    cases herror
  have hcursor : ∀ i, 0 < i → max ∣ i → (listing db c)[i]? ≠ some c.cid.getMinHobj :=
    fun i hi hdvd hmin =>
      listPages_never hdb hc hmax hstart hfirst hpresent hi hdvd hmin n ps (hps n (le_refl n))
  -- so the pages are the listing
  obtain ⟨ps', n', hps', hflat⟩ := listPages_flatten hdb hc hmax hstart hfirst hpresent hcursor
  have heq : ps = ps' := Except.ok.inj ((hps (n + n') (Nat.le_add_right n n')).symm.trans
    (hps' (n + n') (Nat.le_add_left n' n)))
  have hall : ∀ x ∈ objectsOf db, c.contains x = true → Reached c x := by
    intro x hx hcontains
    have hlisted := (hmem x).2 ⟨(mem_objectsOf hdb).1 hx, hcontains⟩
    rw [heq, hflat] at hlisted
    exact ((mem_listing hdb hc).1 hlisted).2.2
  refine ⟨hpresent, fun x k hk hkey => hall x ((mem_objectsOf hdb).2 ⟨k, hk, hkey⟩), ?_⟩
  intro k hk hkey hcontains
  have hx := (mem_objectsOf hdb).2 ⟨k, hk, hkey⟩
  obtain ⟨i, hi⟩ := getElem?_of_mem ((mem_listing hdb hc).2 ⟨hx, hcontains, hall _ hx hcontains⟩)
  rw [← index_getMinHobj hdb hc hall hi]
  by_contra hor
  rw [not_or, not_not] at hor
  exact hcursor i (pos_of_ne_zero hor.1) hor.2 hi

end Runs

/-- A collection is listed in full, page by page from the minimum, exactly if its objects are all
between the ends of its ranges and no page starts over. -/
theorem collection_listed_in_full_iff (hdb : Stored db) (hc : c.Listed) {max : Nat} (hmax : 0 < max)
    {start : GHObject} (hstart : start = defaultObject ∨ start = c.cid.getMinHobj) :
    ListedInFull db c max start ↔ Listable db c max := by
  have hfirst : IsFirst c start := hstart.imp_right .inr
  have hplain : Plain start := by
    obtain rfl | rfl := hstart
    · exact ⟨rfl, rfl⟩
    · exact getMinHobj_plain c.cid
  exact ⟨listable_of_listedInFull hdb hc hmax hplain hfirst,
    listedInFull_of_listable hdb hc hmax hplain hfirst⟩

/-- The only placement group of pool 1. -/
def onlyPg : Collection where
  cid := .typePg ⟨1, 0#32, -1, by decide, by decide⟩
  bits := 0
  present := true
  bits_lt := by decide
  seed_lt := by
    rintro _ ⟨⟩
    decide

/-- An object of the group in pool `pool`, with the name `a`. -/
def namedObject (pool : Int64) (hash : BitVec 32) : GHObject :=
  ⟨makeHobj [97] 0#64 hash pool [] [], BitVec.allOnes 64, -1, false⟩

theorem eq_of_pair {a b o : GHObject} {key key' k : ByteString} (ha : getObjectKey a = some key)
    (hb : getObjectKey b = some key') (hk : k ∈ [key, key']) (ho : getObjectKey o = some k) :
    o = a ∨ o = b := by
  have hsame : ∀ {x}, getObjectKey x = some k → o = x := fun hx =>
    Except.ok.inj ((getKeyObject_of_key ho).symm.trans (getKeyObject_of_key hx))
  obtain rfl | hk := mem_cons.1 hk
  · exact .inl (hsame ha)
  · exact .inr (hsame (mem_singleton.1 hk ▸ hb))

theorem stored_singleton {o : GHObject} {key : ByteString} (h : getObjectKey o = some key) :
    Stored [key] := ⟨pairwise_singleton _ _, fun _ hk => Or.inl ⟨o, mem_singleton.1 hk ▸ h⟩⟩

/-- A temporary object and one of the pool, on a page each. -/
theorem collection_listed_in_full_named :
    ∃ key key', getObjectKey (namedObject (-3) 5#32) = some key ∧
      getObjectKey (namedObject 1 5#32) = some key' ∧
      ListedInFull [key, key'] onlyPg 1 defaultObject := by
  have hkey := getObjectKey_of_plain (o := namedObject (-3) 5#32) ⟨rfl, rfl⟩
  have hkey' := getObjectKey_of_plain (o := namedObject 1 5#32) ⟨rfl, rfl⟩
  have hlt := (key_lt_iff_of_placement_ne (a := namedObject (-3) 5#32) (b := namedObject 1 5#32)
    ⟨rfl, rfl⟩ ⟨rfl, rfl⟩ (by decide)).2 (lt_of_placement_lt ⟨rfl, rfl⟩ ⟨rfl, rfl⟩ (by decide))
  refine ⟨_, _, hkey, hkey', (collection_listed_in_full_iff (stored_pair hkey hkey' hlt)
    (Or.inr ⟨_, rfl⟩) one_pos (Or.inl rfl)).2 ⟨rfl, fun x k hk hx _ => ?_, fun k hk hx => ?_⟩⟩
  · obtain rfl | rfl := eq_of_pair hkey hkey' hk hx
    · exact ⟨⟨by decide, by decide, by decide⟩, by decide⟩
    · exact ⟨⟨by decide, by decide, by decide⟩, by decide⟩
  · exact absurd (eq_of_pair hkey hkey' hk hx) (by decide)

/-- A temporary object with the last hash is not listed. -/
theorem temp_object_of_last_hash_not_listed :
    ∃ key, getObjectKey (namedObject (-3) maxHash) = some key ∧ Stored [key] ∧
      onlyPg.contains (namedObject (-3) maxHash) = true ∧
      ∀ max, 0 < max → ¬ ListedInFull [key] onlyPg max defaultObject := by
  obtain ⟨key, hkey⟩ : ∃ key, getObjectKey (namedObject (-3) maxHash) = some key :=
    ⟨_, getObjectKey_of_plain ⟨rfl, rfl⟩⟩
  have hcontains : onlyPg.contains (namedObject (-3) maxHash) = true := by decide
  refine ⟨key, hkey, stored_singleton hkey, hcontains, fun max hmax h => ?_⟩
  have hlistable := listable_of_listedInFull (stored_singleton hkey) (.inr ⟨_, rfl⟩) hmax
    ⟨rfl, rfl⟩ (.inl rfl) h
  have hreached := hlistable.reached _ key mem_cons_self hkey hcontains
  exact hreached.covers.temp (by decide) rfl

end Listing

end Ceph.BlueStore
