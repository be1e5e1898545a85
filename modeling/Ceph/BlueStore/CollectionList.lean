import Ceph.BlueStore.ObjectKey
import Ceph.Lib.Cut
import Ceph.Lib.Omap

set_option autoImplicit false

/-!
# BlueStore: listing a collection in order (os/bluestore/BlueStore.cc)

The store iterates over its keys in their byte order, which is the order of the objects only as
far as shard, pool and hash go.  `SortedCollectionListIterator` reads the objects of one hash at
a time into a map and walks through that.  The raw iterator is the list of the keys from its
position on.
-/

namespace Ceph.BlueStore

open Ceph.Lib Ceph.Common List

/-! ## The iterator -/

/-- `SortedCollectionListIterator`: the raw iterator, `m_chunk`, and the entries of the chunk
from `m_chunk_iter` on. -/
structure ListIter where
  rest : List ByteString
  chunk : Omap GHObject ByteString
  iter : List (GHObject × ByteString)

/-- Whether shard, pool or bit-reversed hash of two objects differ. -/
def differ (a b : GHObject) : Option Bool :=
  if a.shardId ≠ b.shardId ∨ a.hobj.pool ≠ b.hobj.pool then some true
  else do
    let x ← a.hobj.getBitwiseKeyU32
    let y ← b.hobj.getBitwiseKeyU32
    some (decide (x ≠ y))

/-- `m_chunk.insert`, which leaves an entry alone that is there. -/
def chunkInsert (m : Omap GHObject ByteString) (o : GHObject) (key : ByteString) :
    Omap GHObject ByteString :=
  if (m.get? o).isSome then m else m.set o key

/-- The loop of `get_next_chunk` behind an object of the chunk. -/
def chunkLoop : GHObject → List ByteString → Omap GHObject ByteString →
    Option (Omap GHObject ByteString × List ByteString)
  | _, [], m => some (m, [])
  | oid, k :: rest, m =>
    if isExtentShardKey k then chunkLoop oid rest m
    else do
      let next ← (getKeyObject k).toOption
      let new ← differ next oid
      if new then some (m, k :: rest) else chunkLoop next rest (chunkInsert m next k)

/-- `get_next_chunk`. -/
def getNextChunk (st : ListIter) : Option (ListIter × Bool) :=
  match st.rest.dropWhile isExtentShardKey with
  | [] => some ({ st with rest := [] }, false)
  | k :: rest => do
    let oid ← (getKeyObject k).toOption
    let r ← chunkLoop oid rest (chunkInsert .empty oid k)
    some (⟨r.2, r.1, r.1.entries⟩, true)

/-- `oid`. -/
def ListIter.oid (st : ListIter) : Option GHObject := st.iter.head?.map Prod.fst

/-- Move `m_chunk_iter`, and go on to the next chunk from its end. -/
def ListIter.moveTo (st : ListIter) (it : List (GHObject × ByteString)) : Option ListIter :=
  if it = [] then (getNextChunk { st with iter := [] }).map Prod.fst
  else some { st with iter := it }

/-- `next`. -/
def ListIter.next (st : ListIter) : Option ListIter :=
  if st.iter = [] then none else st.moveTo st.iter.tail

/-- `lower_bound` in a store with the keys `db`. -/
def ListIter.lowerBound (db : List ByteString) (st : ListIter) (oid : GHObject) :
    Option ListIter := do
  let start ← encodePrefixed oid
  let r ← getNextChunk { st with rest := db.dropWhile (· < start), iter := [] }
  if r.2 then do
    let first ← r.1.oid
    let new ← differ first oid
    if new then some r.1 else r.1.moveTo (r.1.chunk.entries.dropWhile fun e => e.1 < oid)
  else some r.1

/-- `upper_bound`. -/
def ListIter.upperBound (db : List ByteString) (st : ListIter) (oid : GHObject) :
    Option ListIter := do
  let st ← st.lowerBound db oid
  if st.oid = some oid then st.next else some st

/-- The objects that the iterator comes to, up to its end. -/
def visit : Nat → ListIter → Option (List GHObject)
  | 0, _ => none
  | fuel + 1, st =>
    match st.oid with
    | none => some []
    | some o => do
      let st ← st.next
      let l ← visit fuel st
      some (o :: l)

open ListIter

/-! ## Stored keys -/

/-- The key of an object. -/
def IsOnodeKey (k : ByteString) : Prop := ∃ o, getObjectKey o = some k

/-- The key of an extent shard. -/
def IsShardKey (k : ByteString) : Prop :=
  ∃ o key offset, getObjectKey o = some key ∧ k = getExtentShardKey key offset

/-- The keys of a store, in their order. -/
structure Stored (db : List ByteString) : Prop where
  sorted : db.Pairwise (· < ·)
  keys : ∀ k ∈ db, IsOnodeKey k ∨ IsShardKey k

theorem stored_pair {a b : GHObject} {key key' : ByteString} (ha : getObjectKey a = some key)
    (hb : getObjectKey b = some key') (hlt : key < key') : Stored [key, key'] := by
  refine ⟨pairwise_pair.2 hlt, fun k hk => .inl ?_⟩
  obtain rfl | hk := mem_cons.1 hk
  · exact ⟨a, ha⟩
  · exact ⟨b, mem_singleton.1 hk ▸ hb⟩

/-- The objects among the keys. -/
def objectsOf (l : List ByteString) : List GHObject :=
  l.filterMap fun k => if isExtentShardKey k then none else (getKeyObject k).toOption

variable {k : ByteString} {o x : GHObject} {it : List (GHObject × ByteString)}
    {e : GHObject × ByteString} {st : ListIter}

theorem isExtentShardKey_of_shard (h : IsShardKey k) : isExtentShardKey k = true := by
  obtain ⟨o, key, offset, _, rfl⟩ := h
  rw [isExtentShardKey, getExtentShardKey, ← append_assoc, getLast?_concat]
  rfl

theorem not_isExtentShardKey (h : getObjectKey o = some k) : isExtentShardKey k = false := by
  obtain ⟨_, rfl⟩ := getObjectKey_eq_some.1 h
  rw [isExtentShardKey, keyRest, ← append_assoc, ← append_assoc, ← append_assoc,
    ← append_assoc, getLast?_concat]
  rfl

theorem getKeyObject_of_key (h : getObjectKey o = some k) : getKeyObject k = .ok o := by
  obtain ⟨hplain, rfl⟩ := getObjectKey_eq_some.1 h
  exact getKeyObject_key hplain

section Objects

variable {k : ByteString} {l : List ByteString}

theorem objectsOf_cons_shard (h : isExtentShardKey k = true) :
    objectsOf (k :: l) = objectsOf l := by
  rw [objectsOf, filterMap_cons, if_pos h]
  rfl

variable {o : GHObject}

theorem objectsOf_cons_onode (h : getObjectKey o = some k) :
    objectsOf (k :: l) = o :: objectsOf l := by
  rw [objectsOf, filterMap_cons, not_isExtentShardKey h, getKeyObject_of_key h]
  rfl

theorem mem_objectsOf (hl : Stored l) : o ∈ objectsOf l ↔ ∃ k ∈ l, getObjectKey o = some k := by
  rw [objectsOf, mem_filterMap]
  refine exists_congr fun k => and_congr_right fun hk => ?_
  obtain ⟨o', ho'⟩ | hshard := hl.keys k hk
  · rw [not_isExtentShardKey ho', getKeyObject_of_key ho']
    refine ⟨fun h => Option.some.inj h ▸ ho', fun h => ?_⟩
    rw [Except.ok.inj ((getKeyObject_of_key h).symm.trans (getKeyObject_of_key ho'))]
    rfl
  · have hs := isExtentShardKey_of_shard hshard
    rw [if_pos hs]
    refine iff_of_false nofun fun h => ?_
    rw [not_isExtentShardKey h] at hs
    exact Bool.false_ne_true hs

theorem Stored.of_suffix {l' : List ByteString} (h : Stored l) (hs : l' <:+ l) : Stored l' :=
  ⟨h.sorted.sublist hs.sublist, fun k hk => h.keys k (hs.subset hk)⟩

/-- The objects behind a key are at the same place or further on. -/
theorem placement_le_of_mem {x : GHObject} (hl : Stored (k :: l)) (ho : getObjectKey o = some k)
    (hx : x ∈ objectsOf l) : placement o ≤ placement x := by
  obtain ⟨k', hk', hx'⟩ := (mem_objectsOf (hl.of_suffix (suffix_cons k l))).1 hx
  have hlt := rel_of_pairwise_cons hl.sorted hk'
  obtain ⟨hop, rfl⟩ := getObjectKey_eq_some.1 ho
  obtain ⟨hxp, rfl⟩ := getObjectKey_eq_some.1 hx'
  by_contra hgt
  have hgt := not_le.1 hgt
  exact lt_asymm hlt ((key_lt_iff_of_placement_ne hxp hop (ne_of_lt hgt)).2
    (lt_of_placement_lt hxp hop hgt))

end Objects

theorem differ_eq {a b : GHObject} (ha : Plain a) (hb : Plain b) :
    differ a b = some (decide (placement a ≠ placement b)) := by
  have hplace : placement a = placement b ↔
      a.shardId = b.shardId ∧ a.hobj.pool = b.hobj.pool ∧
        reverseBits a.hobj.hash = reverseBits b.hobj.hash := by
    rw [← Int8.toInt_inj, ← Int64.toInt_inj, ← BitVec.toNat_inj]
    constructor
    · intro h
      obtain ⟨h₁, h⟩ := Prod.mk.inj h
      exact ⟨h₁, Prod.mk.inj h⟩
    · rintro ⟨h₁, h₂, h₃⟩
      rw [placement, placement, h₁, h₂, hashCode, hashCode, h₃]
  rw [differ, Hobj.getBitwiseKeyU32, Hobj.getBitwiseKeyU32, ha.2, hb.2]
  split
  next hne =>
    have hplaces : placement a ≠ placement b := fun heq =>
      hne.elim (fun h => h (hplace.1 heq).1) fun h => h (hplace.1 heq).2.1
    rw [decide_eq_true hplaces]
  next heq =>
    rw [not_or, not_not, not_not] at heq
    refine congrArg some (decide_eq_decide.2 (not_congr ?_))
    rw [hplace]
    exact ⟨fun h => ⟨heq.1, heq.2, h⟩, fun h => h.2.2⟩

/-! ## One chunk -/

/-- The objects of a chunk. -/
def InChunk (m : Omap GHObject ByteString) (x : GHObject) : Prop := x ∈ m.entries.map Prod.fst

variable {m : Omap GHObject ByteString}

theorem inChunk_iff : InChunk m x ↔ (m.get? x).isSome = true := by
  rw [InChunk, mem_map, Option.isSome_iff_exists]
  constructor
  · rintro ⟨e, he, rfl⟩
    exact ⟨e.2, Omap.get?_eq_some.2 he⟩
  · rintro ⟨v, hv⟩
    exact ⟨(x, v), Omap.get?_eq_some.1 hv, rfl⟩

theorem inChunk_insert {key : ByteString} :
    InChunk (chunkInsert m o key) x ↔ x = o ∨ InChunk m x := by
  rw [chunkInsert]
  split
  next hin =>
    refine ⟨.inr, fun h => h.elim (fun heq => ?_) id⟩
    rw [heq]
    exact inChunk_iff.2 hin
  next hout =>
    rw [inChunk_iff, Omap.get?_set, inChunk_iff]
    by_cases hx : x = o
    · rw [if_pos hx]
      exact iff_of_true rfl (.inl hx)
    · rw [if_neg hx]
      exact ⟨.inr, fun h => h.resolve_left hx⟩

/-- What the loop leaves: the objects at the place of `oid` are in the chunk, and the raw iterator
is at the first object of another place, or at the end. -/
theorem chunkLoop_spec (rest : List ByteString) (oid : GHObject) (m : Omap GHObject ByteString)
    (hst : Stored rest) (hplain : Plain oid)
    (hle : ∀ x ∈ objectsOf rest, placement oid ≤ placement x) :
    ∃ m' rest', chunkLoop oid rest m = some (m', rest') ∧ rest' <:+ rest ∧
      (∀ x, InChunk m' x ↔ InChunk m x ∨ x ∈ objectsOf rest ∧ placement x = placement oid) ∧
      ∀ x, x ∈ objectsOf rest' ↔ x ∈ objectsOf rest ∧ placement oid < placement x := by
  induction rest generalizing oid m with
  | nil =>
    refine ⟨m, [], rfl, suffix_refl _, fun x => ?_, fun x => ?_⟩
    · exact ⟨.inl, fun h => h.resolve_right fun hx => not_mem_nil hx.1⟩
    · exact ⟨fun h => absurd h not_mem_nil, And.left⟩
  | cons k rest ih =>
    have hrest := hst.of_suffix (suffix_cons k rest)
    rw [chunkLoop]
    cases hst.keys k mem_cons_self with
    | inr hshard =>
      have hs := isExtentShardKey_of_shard hshard
      rw [objectsOf_cons_shard hs] at hle ⊢
      rw [if_pos hs]
      obtain ⟨m', rest', hloop, hsuffix, hmem, hleft⟩ := ih oid m hrest hplain hle
      exact ⟨m', rest', hloop, hsuffix.trans (suffix_cons k rest), hmem, hleft⟩
    | inl honode =>
      obtain ⟨o, ho⟩ := honode
      have hop := (getObjectKey_eq_some.1 ho).1
      have hbehind : ∀ x ∈ objectsOf rest, placement o ≤ placement x :=
        fun x hx => placement_le_of_mem hst ho hx
      have hfirst : placement oid ≤ placement o :=
        hle o (by rw [objectsOf_cons_onode ho]; exact mem_cons_self)
      rw [if_neg (by rw [not_isExtentShardKey ho]; exact Bool.false_ne_true),
        getKeyObject_of_key ho]
      show ∃ m' rest', (differ o oid >>= _) = _ ∧ _
      rw [differ_eq hop hplain]
      show ∃ m' rest', (if decide (placement o ≠ placement oid) = true then _ else _) = _ ∧ _
      by_cases hsame : placement o = placement oid
      · rw [if_neg (by rw [decide_eq_true_iff]; exact not_not.2 hsame)]
        obtain ⟨m', rest', hloop, hsuffix, hmem, hleft⟩ :=
          ih o (chunkInsert m o k) hrest hop hbehind
        rw [hsame] at hmem hleft
        refine ⟨m', rest', hloop, hsuffix.trans (suffix_cons k rest), fun x => ?_, fun x => ?_⟩
        · rw [hmem, inChunk_insert, objectsOf_cons_onode ho, mem_cons]
          constructor
          · rintro ((rfl | hm) | ⟨hx, hp⟩)
            · exact .inr ⟨.inl rfl, hsame⟩
            · exact .inl hm
            · exact .inr ⟨.inr hx, hp⟩
          · rintro (hm | ⟨rfl | hx, hp⟩)
            · exact .inl (.inr hm)
            · exact .inl (.inl rfl)
            · exact .inr ⟨hx, hp⟩
        · rw [hleft, objectsOf_cons_onode ho, mem_cons]
          refine ⟨fun h => ⟨.inr h.1, h.2⟩, fun h => ⟨h.1.resolve_left ?_, h.2⟩⟩
          rintro rfl
          exact ne_of_gt h.2 hsame
      · rw [if_pos (decide_eq_true hsame)]
        -- everything from here on is at a later place
        have hlater : ∀ x ∈ objectsOf (k :: rest), placement oid < placement x := by
          intro x hx
          rw [objectsOf_cons_onode ho] at hx
          have hlt := lt_of_le_of_ne hfirst (Ne.symm hsame)
          obtain heq | hmem := mem_cons.1 hx
          · rwa [heq]
          · exact hlt.trans_le (hbehind x hmem)
        refine ⟨m, k :: rest, rfl, suffix_refl _, fun x => ?_, fun x => ?_⟩
        · exact ⟨.inl, fun h => h.resolve_right fun hx =>
            absurd hx.2 (ne_of_gt (hlater x hx.1))⟩
        · exact ⟨fun h => ⟨h, hlater x h⟩, And.left⟩

/-- What the iterator has yet to come to. -/
def Pending (st : ListIter) (x : GHObject) : Prop :=
  x ∈ st.iter.map Prod.fst ∨ x ∈ objectsOf st.rest

/-- The state between two calls: the rest of the chunk is in order and in front of everything
else, and it is empty only at the end. -/
structure IterOk (st : ListIter) : Prop where
  stored : Stored st.rest
  sorted : st.iter.Pairwise fun a b => a.1 < b.1
  plain : ∀ e ∈ st.iter, Plain e.1
  ahead : ∀ e ∈ st.iter, ∀ x ∈ objectsOf st.rest, placement e.1 < placement x
  done : st.iter = [] → objectsOf st.rest = []

theorem plain_of_mem_objectsOf {l : List ByteString} (hl : Stored l) (hx : x ∈ objectsOf l) :
    Plain x := by
  obtain ⟨k, _, hk⟩ := (mem_objectsOf hl).1 hx
  exact (getObjectKey_eq_some.1 hk).1

theorem objectsOf_dropWhile (l : List ByteString) :
    objectsOf (l.dropWhile isExtentShardKey) = objectsOf l := by
  induction l with
  | nil => rfl
  | cons k _ ih =>
    by_cases hk : isExtentShardKey k = true
    · rw [dropWhile_cons_of_pos hk, ih, objectsOf_cons_shard hk]
    · rw [dropWhile_cons_of_neg hk]

/-- The next chunk: all objects of the first place that is left. -/
theorem getNextChunk_spec (st : ListIter) (hst : Stored st.rest) (hiter : st.iter = []) :
    ∃ st' more, getNextChunk st = some (st', more) ∧ IterOk st' ∧
      (∀ x, Pending st' x ↔ x ∈ objectsOf st.rest) ∧
      (more = false → st'.iter = []) ∧
      (more = true → st'.iter = st'.chunk.entries ∧ st'.iter ≠ [] ∧
        st'.rest.length < st.rest.length ∧ ∃ p, ∀ e ∈ st'.iter, placement e.1 = p) := by
  have hsuffix := dropWhile_suffix (l := st.rest) isExtentShardKey
  have hobjects := objectsOf_dropWhile st.rest
  rw [getNextChunk]
  cases hdrop : st.rest.dropWhile isExtentShardKey with
  | nil =>
    rw [hdrop] at hobjects
    refine ⟨{ st with rest := [] }, false, rfl, ⟨hst.of_suffix nil_suffix, ?_, ?_, ?_,
      fun _ => rfl⟩, fun x => ?_, fun _ => hiter, fun h => absurd h Bool.false_ne_true⟩
    iterate 3 simp [hiter]
    rw [hiter, ← hobjects]
    exact or_iff_right not_mem_nil
  | cons k rest =>
    have hcons := hst.of_suffix (hdrop ▸ hsuffix)
    have hrest := hcons.of_suffix (suffix_cons k rest)
    -- the key at the front is not that of an extent shard
    obtain ⟨o, ho⟩ : IsOnodeKey k := by
      refine (hcons.keys k mem_cons_self).resolve_right fun hshard => ?_
      have hhead := head?_dropWhile_not isExtentShardKey st.rest
      rw [hdrop] at hhead
      exact absurd (isExtentShardKey_of_shard hshard) (by simpa using hhead)
    have hop := (getObjectKey_eq_some.1 ho).1
    obtain ⟨m, rest', hloop, hsuffix', hmem, hleft⟩ := chunkLoop_spec rest o
      (chunkInsert .empty o k) hrest hop fun x hx => placement_le_of_mem hcons ho hx
    rw [hdrop, objectsOf_cons_onode ho] at hobjects
    have hchunk : ∀ x, InChunk m x ↔ x = o ∨ x ∈ objectsOf rest ∧ placement x = placement o := by
      intro x
      rw [hmem, inChunk_insert]
      refine or_congr_left (or_iff_left ?_)
      exact not_mem_nil
    have hplace : ∀ e ∈ m.entries, placement e.1 = placement o ∧ Plain e.1 := by
      intro e he
      obtain heq | hx := (hchunk e.1).1 (mem_map_of_mem he)
      · exact ⟨by rw [heq], by rw [heq]; exact hop⟩
      · exact ⟨hx.2, plain_of_mem_objectsOf hrest hx.1⟩
    have hbehind : ∀ x ∈ objectsOf rest, placement o ≤ placement x :=
      fun x hx => placement_le_of_mem hcons ho hx
    have hne : m.entries ≠ [] := fun hnil => by
      have := (hchunk o).2 (.inl rfl)
      rw [InChunk, hnil] at this
      exact not_mem_nil this
    have hlen : rest'.length < st.rest.length := by
      have h₁ := hsuffix'.length_le
      have h₂ := hsuffix.length_le
      rw [hdrop, length_cons] at h₂
      omega
    refine ⟨⟨rest', m, m.entries⟩, true, ?_, ⟨hrest.of_suffix hsuffix', m.sorted,
      fun e he => (hplace e he).2, fun e he x hx => ?_, fun hnil => absurd hnil hne⟩,
      fun x => ?_, fun h => absurd h.symm Bool.false_ne_true,
      fun _ => ⟨rfl, hne, hlen, placement o, fun e he => (hplace e he).1⟩⟩
    · dsimp only
      rw [getKeyObject_of_key ho]
      show (chunkLoop o rest (chunkInsert .empty o k) >>= _) = _
      rw [hloop]
      rfl
    · rw [(hplace e he).1]
      exact ((hleft x).1 hx).2
    · show InChunk m x ∨ x ∈ objectsOf rest' ↔ _
      rw [hchunk, hleft, ← hobjects, mem_cons, or_assoc, ← and_or_left]
      refine or_congr_right (and_iff_left_of_imp fun hx => ?_)
      exact (hbehind x hx).eq_or_lt.imp_left Eq.symm

/-! ## Moving on -/

theorem moveTo_spec (st : ListIter) (hst : Stored st.rest)
    (hsorted : it.Pairwise fun a b => a.1 < b.1) (hplain : ∀ e ∈ it, Plain e.1)
    (hahead : ∀ e ∈ it, ∀ x ∈ objectsOf st.rest, placement e.1 < placement x) :
    ∃ st', st.moveTo it = some st' ∧ IterOk st' ∧
      (∀ x, Pending st' x ↔ x ∈ it.map Prod.fst ∨ x ∈ objectsOf st.rest) ∧
      (it ≠ [] ∧ st'.iter = it ∧ st'.rest = st.rest ∨
        st'.rest.length < st.rest.length ∨ st'.iter = []) := by
  rw [moveTo]
  split
  next hnil =>
    obtain ⟨st', more, hnext, hok, hpending, hfalse, htrue⟩ :=
      getNextChunk_spec { st with iter := [] } hst rfl
    refine ⟨st', by rw [hnext]; rfl, hok, fun x => ?_, .inr ?_⟩
    · rw [hpending, hnil]
      exact (or_iff_right not_mem_nil).symm
    · cases more with
      | false => exact .inr (hfalse rfl)
      | true => exact Or.inl (htrue rfl).2.2.1
  next hne =>
    exact ⟨_, rfl, ⟨hst, hsorted, hplain, hahead, fun hnil => absurd hnil hne⟩, fun _ => Iff.rfl,
      Or.inl ⟨hne, rfl, rfl⟩⟩

theorem pending_cons (hiter : st.iter = e :: it) :
    Pending st x ↔ x = e.1 ∨ x ∈ it.map Prod.fst ∨ x ∈ objectsOf st.rest := by
  rw [Pending, hiter, map_cons, mem_cons, or_assoc]

theorem IterOk.not_pending (h : IterOk st) (hiter : st.iter = []) : ¬ Pending st x := by
  rw [Pending, hiter, h.done hiter, map_nil, or_self]
  exact not_mem_nil

/-- The object at the front is the least one that is left. -/
theorem IterOk.lt_of_pending (h : IterOk st) (hiter : st.iter = e :: it)
    (hx : x ∈ it.map Prod.fst ∨ x ∈ objectsOf st.rest) : e.1 < x := by
  have he : e ∈ st.iter := by rw [hiter]; exact mem_cons_self
  obtain hit | hrest := hx
  · obtain ⟨e', he', rfl⟩ := mem_map.1 hit
    have hsorted := h.sorted
    rw [hiter] at hsorted
    exact rel_of_pairwise_cons hsorted he'
  · exact lt_of_placement_lt (h.plain e he) (plain_of_mem_objectsOf h.stored hrest)
      (h.ahead e he x hrest)

theorem next_spec (h : IterOk st) (hiter : st.iter = e :: it) :
    ∃ st', st.next = some st' ∧ IterOk st' ∧
      (∀ x, Pending st' x ↔ x ∈ it.map Prod.fst ∨ x ∈ objectsOf st.rest) ∧
      (st'.iter = it ∧ st'.rest = st.rest ∨ st'.rest.length < st.rest.length ∨ st'.iter = []) := by
  have hsorted := h.sorted
  have hplain := h.plain
  have hahead := h.ahead
  rw [hiter] at hsorted hplain hahead
  obtain ⟨st', hmove, hok, hpending, hor⟩ := moveTo_spec _ h.stored hsorted.of_cons
    (fun e' he' => hplain e' (mem_cons_of_mem _ he'))
    (fun e' he' => hahead e' (mem_cons_of_mem _ he'))
  refine ⟨st', ?_, hok, hpending, hor.imp_left And.right⟩
  rw [ListIter.next, hiter]
  exact hmove

/-! ## The whole walk -/

/-- From some fuel on the walk yields the list. -/
def Visits (st : ListIter) (l : List GHObject) : Prop :=
  ∃ n, ∀ fuel, n ≤ fuel → visit fuel st = some l

theorem visits_nil (h : st.iter = []) : Visits st [] := by
  refine ⟨1, fun fuel hfuel => ?_⟩
  obtain ⟨fuel, rfl⟩ : ∃ n, fuel = n + 1 := ⟨fuel - 1, by omega⟩
  rw [visit, oid, h]
  rfl

theorem visits_cons {st' : ListIter} {l : List GHObject} (hiter : st.iter = e :: it)
    (hnext : st.next = some st') (h : Visits st' l) : Visits st (e.1 :: l) := by
  obtain ⟨n, hn⟩ := h
  refine ⟨n + 1, fun fuel hfuel => ?_⟩
  obtain ⟨fuel, rfl⟩ : ∃ n, fuel = n + 1 := ⟨fuel - 1, by omega⟩
  rw [visit, oid, hiter]
  rw [hnext]
  show (visit fuel st' >>= _) = _
  rw [hn fuel (by omega)]
  rfl

/-- The iterator comes to everything that is pending, once and in order: the chunk is walked
through, and then the rest is shorter. -/
theorem visits_pending (st : ListIter) (hok : IterOk st) :
    ∃ l, Visits st l ∧ l.Pairwise (· < ·) ∧ ∀ x, x ∈ l ↔ Pending st x := by
  have hend : ∀ st : ListIter, st.iter = [] → IterOk st →
      ∃ l, Visits st l ∧ l.Pairwise (· < ·) ∧ ∀ x, x ∈ l ↔ Pending st x := fun st hiter hok =>
    ⟨[], visits_nil hiter, .nil, fun x => iff_of_false not_mem_nil (hok.not_pending hiter)⟩
  cases hiter : st.iter with
  | nil => exact hend st hiter hok
  | cons e =>
    obtain ⟨st', hnext, hok', hpending, hor⟩ := next_spec hok hiter
    obtain ⟨l, hvisits, hsorted, hmem⟩ :
        ∃ l, Visits st' l ∧ l.Pairwise (· < ·) ∧ ∀ x, x ∈ l ↔ Pending st' x := by
      obtain ⟨hiter', hrest'⟩ | hshort | hdone := hor
      · exact visits_pending st' hok'
      · exact visits_pending st' hok'
      · exact hend st' hdone hok'
    refine ⟨e.1 :: l, visits_cons hiter hnext hvisits, ?_, fun x => ?_⟩
    · refine pairwise_cons.2 ⟨fun x hx => ?_, hsorted⟩
      exact hok.lt_of_pending hiter ((hpending x).1 ((hmem x).1 hx))
    · rw [mem_cons, hmem, hpending, pending_cons hiter]
termination_by (st.rest.length, st.iter.length)
decreasing_by
  · rw [hrest', hiter', hiter]
    exact Prod.Lex.right _ (Nat.lt_succ_self _)
  · exact Prod.Lex.left _ _ hshort

/-! ## Starting from an object -/

theorem key_lt_keyStart : keyStart x ++ keyRest x < keyStart o ↔ placement x < placement o := by
  have h := append_lt_append_of_length (x := keyRest x) (y := [])
    (show (keyStart x).length = (keyStart o).length by rw [length_keyStart, length_keyStart])
  rw [append_nil] at h
  rw [h, keyStart_lt_iff]
  exact or_iff_left fun hand => not_lt_nil _ hand.2

section Bound

variable {db : List ByteString} {o : GHObject}

/-- The raw iterator starts with the objects at the place of `o`. -/
theorem mem_objectsOf_from (hdb : Stored db) {x : GHObject} :
    x ∈ objectsOf (db.dropWhile (· < keyStart o)) ↔
      x ∈ objectsOf db ∧ placement o ≤ placement x := by
  have hfrom := hdb.of_suffix (dropWhile_suffix (· < keyStart o))
  have hfalls : Falls (fun k => decide (k < keyStart o)) db :=
    hdb.sorted.imp fun hlt hy => decide_eq_true (hlt.trans (of_decide_eq_true hy))
  rw [mem_objectsOf hfrom, mem_objectsOf hdb, dropWhile_eq_filter hfalls]
  have hkey : ∀ k, getObjectKey x = some k → (¬ k < keyStart o ↔ placement o ≤ placement x) := by
    intro k hk
    obtain ⟨_, rfl⟩ := getObjectKey_eq_some.1 hk
    rw [key_lt_keyStart, not_lt]
  constructor
  · rintro ⟨k, hk, hx⟩
    obtain ⟨hmem, hnot⟩ := mem_filter.1 hk
    exact ⟨⟨k, hmem, hx⟩, (hkey k hx).1 (by simpa using hnot)⟩
  · rintro ⟨⟨k, hmem, hx⟩, hle⟩
    exact ⟨k, mem_filter.2 ⟨hmem, by simpa using (hkey k hx).2 hle⟩, hx⟩

theorem lowerBound_spec (hdb : Stored db) (ho : Plain o) (st : ListIter) :
    ∃ st', st.lowerBound db o = some st' ∧ IterOk st' ∧
      ∀ x, Pending st' x ↔ x ∈ objectsOf db ∧ o ≤ x := by
  have hfrom := hdb.of_suffix (dropWhile_suffix (· < keyStart o))
  obtain ⟨st₁, more, hchunk, hok, hpending, hfalse, htrue⟩ := getNextChunk_spec
    { st with rest := db.dropWhile (· < keyStart o), iter := [] } hfrom rfl
  have hpending : ∀ x, Pending st₁ x ↔ x ∈ objectsOf db ∧ placement o ≤ placement x :=
    fun x => (hpending x).trans (mem_objectsOf_from hdb)
  have hplainOf : ∀ x ∈ objectsOf db, Plain x := fun x hx => plain_of_mem_objectsOf hdb hx
  -- if every pending object is behind `o`, the iterator is where it should be
  have hready : (∀ x, Pending st₁ x → o < x) →
      ∀ x, Pending st₁ x ↔ x ∈ objectsOf db ∧ o ≤ x := by
    intro hall x
    refine ⟨fun hx => ⟨((hpending x).1 hx).1, (hall x hx).le⟩, fun hx => ?_⟩
    exact (hpending x).2 ⟨hx.1, placement_mono ho (hplainOf x hx.1) hx.2⟩
  rw [lowerBound, encodePrefixed_eq ho.2]
  show ∃ st', (getNextChunk _ >>= _) = _ ∧ _
  rw [hchunk]
  cases more with
  | false => exact ⟨st₁, rfl, hok, hready fun x hx => absurd hx (hok.not_pending (hfalse rfl))⟩
  | true =>
    obtain ⟨hentries, hne, _, p, hplace⟩ := htrue rfl
    obtain ⟨e, it, hiter⟩ := exists_cons_of_ne_nil hne
    have he : e ∈ st₁.iter := by rw [hiter]; exact mem_cons_self
    have hoid : st₁.oid = some e.1 := by rw [oid, hiter]; rfl
    have hlep : placement o ≤ placement e.1 := ((hpending e.1).1 (.inl (mem_map_of_mem he))).2
    show ∃ st', (st₁.oid >>= _) = _ ∧ _
    rw [hoid]
    show ∃ st', (differ e.1 o >>= _) = _ ∧ _
    rw [differ_eq (hok.plain e he) ho]
    show ∃ st', (if decide (placement e.1 ≠ placement o) = true then _ else _) = _ ∧ _
    by_cases hsame : placement e.1 = placement o
    · rw [if_neg (by rw [decide_eq_true_iff]; exact not_not.2 hsame)]
      have hfalls : Falls (fun e : GHObject × ByteString => decide (e.1 < o)) st₁.chunk.entries :=
        st₁.chunk.sorted.imp fun hlt hy => decide_eq_true (hlt.trans (of_decide_eq_true hy))
      have hsub : ∀ e' ∈ st₁.chunk.entries.dropWhile (fun e => decide (e.1 < o)),
          e' ∈ st₁.iter := by
        intro e' he'
        rw [hentries]
        exact (dropWhile_suffix _).subset he'
      have hafter : ∀ x ∈ objectsOf st₁.rest, o < x := by
        intro x hx
        have hlt := hok.ahead e he x hx
        rw [hsame] at hlt
        exact lt_of_placement_lt ho (plain_of_mem_objectsOf hok.stored hx) hlt
      obtain ⟨st', hmove, hok', hpending', _⟩ := moveTo_spec st₁ hok.stored
        (st₁.chunk.sorted.sublist (dropWhile_suffix _).sublist)
        (fun e' he' => hok.plain e' (hsub e' he')) (fun e' he' => hok.ahead e' (hsub e' he'))
      refine ⟨st', hmove, hok', fun x => ?_⟩
      rw [hpending', dropWhile_eq_filter hfalls]
      constructor
      · rintro (hx | hx)
        · obtain ⟨e', he', rfl⟩ := mem_map.1 hx
          obtain ⟨hin, hnot⟩ := mem_filter.1 he'
          have hin' : e' ∈ st₁.iter := hentries ▸ hin
          exact ⟨((hpending e'.1).1 (.inl (mem_map_of_mem hin'))).1, by simpa using hnot⟩
        · exact ⟨((hpending x).1 (.inr hx)).1, (hafter x hx).le⟩
      · rintro ⟨hx, hle⟩
        have hx' := (hpending x).2 ⟨hx, placement_mono ho (hplainOf x hx) hle⟩
        refine hx'.imp_left fun hin => ?_
        obtain ⟨e', he', rfl⟩ := mem_map.1 hin
        refine mem_map_of_mem (mem_filter.2 ⟨hentries ▸ he', ?_⟩)
        simpa using hle
    · rw [if_pos (decide_eq_true hsame)]
      have hlt : placement o < placement e.1 := lt_of_le_of_ne hlep (Ne.symm hsame)
      refine ⟨st₁, rfl, hok, hready fun x hx => ?_⟩
      refine lt_of_placement_lt ho (hplainOf x ((hpending x).1 hx).1) ?_
      obtain hin | hrest := hx
      · obtain ⟨e', he', rfl⟩ := mem_map.1 hin
        rw [hplace e' he', ← hplace e he]
        exact hlt
      · exact hlt.trans (hok.ahead e he x hrest)

theorem upperBound_spec (hdb : Stored db) (ho : Plain o) (st : ListIter) :
    ∃ st', st.upperBound db o = some st' ∧ IterOk st' ∧
      ∀ x, Pending st' x ↔ x ∈ objectsOf db ∧ o < x := by
  obtain ⟨st₁, hlower, hok, hpending⟩ := lowerBound_spec hdb ho st
  rw [upperBound, hlower]
  show ∃ st', (if st₁.oid = some o then st₁.next else some st₁) = _ ∧ _
  split
  next heq =>
    obtain ⟨e, it, hiter, he⟩ : ∃ e it, st₁.iter = e :: it ∧ e.1 = o := by
      cases hiter : st₁.iter with
      | nil =>
        rw [oid, hiter] at heq
        cases heq
      | cons e it =>
        rw [oid, hiter] at heq
        exact ⟨e, it, rfl, Option.some.inj heq⟩
    obtain ⟨st', hnext, hok', hpending', _⟩ := next_spec hok hiter
    refine ⟨st', hnext, hok', fun x => ?_⟩
    rw [hpending']
    constructor
    · intro hx
      have hpend := (pending_cons hiter).2 (.inr hx)
      exact ⟨((hpending x).1 hpend).1, he ▸ hok.lt_of_pending hiter hx⟩
    · rintro ⟨hx, hlt⟩
      have hpend := (hpending x).2 ⟨hx, hlt.le⟩
      rw [pending_cons hiter, he] at hpend
      exact hpend.resolve_left (ne_of_gt hlt)
  next hne =>
    refine ⟨st₁, rfl, hok, fun x => (hpending x).trans ?_⟩
    refine ⟨fun hx => ⟨hx.1, lt_of_le_of_ne hx.2 ?_⟩, fun hx => ⟨hx.1, hx.2.le⟩⟩
    rintro rfl
    -- an object that is there is the least one that is pending, so it would be at the front
    have hpend := (hpending o).2 ⟨hx.1, le_rfl⟩
    cases hiter : st₁.iter with
    | nil => exact hok.not_pending hiter hpend
    | cons e =>
      have hle : o ≤ e.1 := ((hpending e.1).1 ((pending_cons hiter).2 (.inl rfl))).2
      obtain heq | hrest := (pending_cons hiter).1 hpend
      · refine hne ?_
        rw [oid, hiter, heq]
        rfl
      · exact absurd (hok.lt_of_pending hiter hrest) (not_lt.2 hle)

end Bound

/-! ## Keys and lists -/

/-- The objects of a list are those of the store that meet a condition, once each and in the order
of `ghobject_t`. -/
def ListsExactly (db : List ByteString) (P : GHObject → Prop) (l : List GHObject) : Prop :=
  l.Pairwise (fun a b => a.cmp b = .lt) ∧
  ∀ x, x ∈ l ↔ (∃ k ∈ db, getObjectKey x = some k) ∧ P x

theorem listsExactly_of_sorted {db : List ByteString} {P Q : GHObject → Prop}
    {l : List GHObject} (hdb : Stored db) (hsorted : l.Pairwise (· < ·))
    (hmem : ∀ x, x ∈ l ↔ x ∈ objectsOf db ∧ Q x) (hPQ : ∀ x, Q x ↔ P x) : ListsExactly db P l := by
  refine ⟨hsorted.imp fun h => GHObject.cmp_eq_lt.2 h, fun x => ?_⟩
  rw [hmem, mem_objectsOf hdb, hPQ]

/-- The keys of objects: every object that is not maximal has a key from which it is read back,
no two objects have the same key, keys sort first by shard, pool and bit-reversed hash as objects
do, and the sorted iterator, started at or behind any object that is not maximal, comes to exactly
the stored objects from there on, once each and in order. -/
theorem object_keys_list_in_order :
    (∀ o, Plain o → ∃ key, getObjectKey o = some key ∧ getKeyObject key = .ok o) ∧
    (∀ o o' key, getObjectKey o = some key → getObjectKey o' = some key → o = o') ∧
    (∀ a b key key', getObjectKey a = some key → getObjectKey b = some key' →
      placement a ≠ placement b →
      (key < key' ↔ placement a < placement b) ∧ (a.cmp b = .lt ↔ placement a < placement b)) ∧
    ∀ (db : List ByteString) (st : ListIter) (o : GHObject), Stored db → Plain o →
      (∃ st' l, st.lowerBound db o = some st' ∧ Visits st' l ∧
        ListsExactly db (fun x => x.cmp o ≠ .lt) l) ∧
      ∃ st' l, st.upperBound db o = some st' ∧ Visits st' l ∧
        ListsExactly db (fun x => o.cmp x = .lt) l := by
  refine ⟨fun o ho => ⟨_, getObjectKey_of_plain ho, getKeyObject_key ho⟩, ?_, ?_, ?_⟩
  · intro o o' key ho ho'
    exact Except.ok.inj ((getKeyObject_of_key ho).symm.trans (getKeyObject_of_key ho'))
  · intro a b key key' ha hb hne
    obtain ⟨hap, rfl⟩ := getObjectKey_eq_some.1 ha
    obtain ⟨hbp, rfl⟩ := getObjectKey_eq_some.1 hb
    have hlt : a < b ↔ placement a < placement b :=
      ⟨fun h => lt_of_le_of_ne (placement_mono hap hbp h.le) hne, lt_of_placement_lt hap hbp⟩
    exact ⟨(key_lt_iff_of_placement_ne hap hbp hne).trans hlt, GHObject.cmp_eq_lt.trans hlt⟩
  · intro db st o hdb ho
    constructor
    · obtain ⟨st', hlower, hok, hpending⟩ := lowerBound_spec hdb ho st
      obtain ⟨l, hvisits, hsorted, hmem⟩ := visits_pending st' hok
      refine ⟨st', l, hlower, hvisits, listsExactly_of_sorted hdb hsorted
        (fun x => (hmem x).trans (hpending x)) fun x => ?_⟩
      rw [ne_eq, GHObject.cmp_eq_lt, not_lt]
    · obtain ⟨st', hupper, hok, hpending⟩ := upperBound_spec hdb ho st
      obtain ⟨l, hvisits, hsorted, hmem⟩ := visits_pending st' hok
      exact ⟨st', l, hupper, hvisits, listsExactly_of_sorted hdb hsorted
        (fun x => (hmem x).trans (hpending x)) fun x => GHObject.cmp_eq_lt.symm⟩

/-- The object of a placement group: no name, no key. -/
def pgmetaObject : GHObject := ⟨makeHobj [] 0#64 1#32 3 [] [], 0#64, 0, false⟩

/-- A clone in a namespace, with a locator. -/
def cloneObject : GHObject := ⟨makeHobj [97] 4#64 3#32 3 [110] [107], BitVec.allOnes 64, 0, false⟩

/-- Behind the object of the group there is the clone. -/
theorem object_keys_list_in_order_clone :
    ∃ key key' st l, getKeyObject key = .ok pgmetaObject ∧ getKeyObject key' = .ok cloneObject ∧
      key < key' ∧ Visits st l ∧ cloneObject ∈ l ∧ pgmetaObject ∉ l ∧
      ListIter.upperBound [key, key'] ⟨[], Omap.empty, []⟩ pgmetaObject = some st := by
  obtain ⟨hread, -, horder, hlist⟩ := object_keys_list_in_order
  obtain ⟨key, hkey, hback⟩ := hread pgmetaObject ⟨rfl, rfl⟩
  obtain ⟨key', hkey', hback'⟩ := hread cloneObject ⟨rfl, rfl⟩
  obtain ⟨hkeys, hcmp⟩ := horder _ _ _ _ hkey hkey' (by decide)
  have hplace : placement pgmetaObject < placement cloneObject := by decide
  obtain ⟨-, st, l, hupper, hvisits, -, hmem⟩ := hlist _ ⟨[], Omap.empty, []⟩
    pgmetaObject (stored_pair hkey hkey' (hkeys.2 hplace)) ⟨rfl, rfl⟩
  refine ⟨key, key', st, l, hback, hback', hkeys.2 hplace, hvisits, ?_, fun h => ?_, hupper⟩
  · exact (hmem _).2 ⟨⟨key', mem_cons_of_mem _ mem_cons_self, hkey'⟩, hcmp.2 hplace⟩
  · exact absurd ((hmem _).1 h).2 (by decide)

/-- `ghobject_t::get_max()`. -/
def maxObject : GHObject where
  hobj := {
    name := []
    snap := 0#64
    hash := 0#32
    max := true
    pool := Int64.minValue
    nspace := []
    key := []
    key_ne := no_key
    max_bare := fun _ => ⟨rfl, rfl, rfl, rfl, rfl, rfl⟩ }
  generation := BitVec.allOnes 64
  shardId := -1
  max := true

/-- The maximal object has no key, and no listing starts from it. -/
theorem maxObject_has_no_key :
    getObjectKey maxObject = none ∧
    ∀ (db : List ByteString) (st : ListIter), st.lowerBound db maxObject = none :=
  ⟨rfl, fun _ _ => rfl⟩

end Ceph.BlueStore
