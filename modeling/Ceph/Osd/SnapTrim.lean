import Ceph.Osd.SnapMapper
import Mathlib.Data.Set.List

set_option autoImplicit false

/-!
# Trimming finds the objects of a snap

The `SNA_` keys of a snap that start with one of the hash prefixes of the PG are
those of the objects mapped to the snap, provided no mapped snap agrees with it
in the low 32 bits only.  The walk collects them in the order of their keys.
-/

namespace Ceph.Osd

open Ceph.Lib List Omap
open Ceph.Common

namespace SnapMapper

variable {M : SnapMapper} {store : SnapStore} {snap max : Nat}

/-- The object is mapped to the snap. -/
def Mapped (M : SnapMapper) (store : SnapStore) (snap : Nat) (o : HObject) : Prop :=
  ∃ snaps, M.snapsOf store o = some snaps ∧ snap ∈ snaps

/-- No mapped snap agrees with this one in the low 32 bits only. -/
def NoAlias (M : SnapMapper) (store : SnapStore) (snap : Nat) : Prop :=
  ∀ o t, M.Mapped store t o → t % 2 ^ 32 = snap % 2 ^ 32 → t = snap

/-- The entry of an object mapped to the snap. -/
def entryOf (M : SnapMapper) (snap : Nat) (o : HObject) : List Char × SnapValue :=
  (M.toRawKey snap o, .mapping snap o)

/-! ## The prefixes -/

/-- The key prefix for the objects whose hash has these low bits. -/
def prefixKeyOf (M : SnapMapper) (snap v : Nat) : List Char :=
  getPrefix M.pool snap ++ (M.shardPrefix ++ prefixText M.maskBits M.pool v)

/-- The text is that of one of the hashes of the PG. -/
def HashText (M : SnapMapper) (i : List Char) : Prop :=
  ∃ v ∈ prefixHashes M.maskBits M.mask, i = M.shardPrefix ++ prefixText M.maskBits M.pool v

variable {i : List Char} {o : HObject}

theorem mem_prefixes : i ∈ M.prefixes ↔ M.HashText i := by
  suffices h : ∀ (l : List (List Char)) (m : Omap (List Char) Unit),
      i ∈ ((l.foldl (fun (s : Omap (List Char) Unit) j =>
        s.set (M.shardPrefix ++ j) ()) m).entries).map Prod.fst ↔
          (m.get? i).isSome ∨ ∃ j ∈ l, i = M.shardPrefix ++ j by
    rw [prefixes, h, getPrefixes_eq M.bits_lt]
    simp [HashText]
  intro l m
  induction l generalizing m with
  | nil =>
    rw [mem_map, Option.isSome_iff_exists]
    constructor
    · rintro ⟨_, he, rfl⟩
      exact .inl ⟨(), get?_eq_some.2 he⟩
    · rintro (⟨_, hu⟩ | ⟨j, hj, _⟩)
      · exact ⟨_, get?_eq_some.1 hu, rfl⟩
      · exact absurd hj not_mem_nil
  | cons j _ ih =>
    rw [foldl_cons, ih, get?_set]
    obtain heq | hne := eq_or_ne i (M.shardPrefix ++ j)
    · simp [heq]
    · simp [hne]

/-! ## The entries under a prefix -/

/-- The key of an object starts with the prefix for a snap and a hash iff the
snap has the same low 32 bits and the object the same low bits of the hash. -/
theorem prefixKeyOf_starts (hpool : o.pool = M.pool) (t v : Nat) :
    M.prefixKeyOf snap v <+: M.toRawKey t o ↔ t % 2 ^ 32 = snap % 2 ^ 32 ∧
      v % 2 ^ nibbleLen M.maskBits = o.hash % 2 ^ nibbleLen M.maskBits := by
  rw [prefixKeyOf, toRawKey, getPrefix_append, getPrefix_append, hpool,
    prefix_append_right_inj, prefix_append_right_inj, cons_prefix_cons]
  constructor
  · rintro ⟨_, h⟩
    obtain ⟨rest, hrest⟩ := h
    rw [append_assoc] at hrest
    obtain ⟨hsnap, htail⟩ := append_inj hrest (by rw [length_fixedHex, length_fixedHex])
    have hmod := (fixedHex_inj (mod_lt_pow snap) (mod_lt_pow t)).1 hsnap
    refine ⟨hmod.symm, (prefixText_prefix_toStr M.bits_lt o v).1 ?_⟩
    rw [cons_append, append_assoc] at htail
    exact hpool ▸ ⟨rest, append_cancel_left (tail_eq_of_cons_eq htail)⟩
  · rintro ⟨hmod, hhash⟩
    refine ⟨rfl, ?_⟩
    rw [hmod, prefix_append_right_inj, cons_prefix_cons, prefix_append_right_inj, ← hpool]
    exact ⟨rfl, (prefixText_prefix_toStr M.bits_lt o v).2 hhash⟩

/-- The key of an object is longer than the prefix. -/
theorem prefixKeyOf_lt (hpool : o.pool = M.pool) {v : Nat}
    (h : M.prefixKeyOf snap v <+: M.toRawKey snap o) :
    M.prefixKeyOf snap v < M.toRawKey snap o := by
  refine lt_of_le_of_ne (le_of_start h) fun heq => ?_
  have hlen := congrArg List.length heq
  have hle := nibbleLen_spec M.maskBits
  have hlt := M.bits_lt
  rw [prefixKeyOf, toRawKey, ← hpool] at hlen
  simp only [prefixText, HObject.toStr, poolText, length_append, length_cons, length_fixedHex,
    length_nibbleText] at hlen
  omega

/-- The entries under a prefix are those of the objects mapped to the snap with
the low bits of the hash. -/
theorem mem_after_prefixKeyOf (hc : M.Consistent store) (ha : M.NoAlias store snap) {v : Nat}
    (hv : v < 2 ^ nibbleLen M.maskBits) {e : List Char × SnapValue} :
    e ∈ store.after (M.prefixKeyOf snap v) (M.prefixKeyOf snap v) ↔
      ∃ o, M.Mapped store snap o ∧ o.hash % 2 ^ nibbleLen M.maskBits = v ∧
        e = M.entryOf snap o := by
  rw [mem_after]
  constructor
  · rintro ⟨hmem, hprefix, _⟩
    obtain ⟨_, w⟩ := e
    have hget := get?_eq_some.2 hmem
    cases w with
    | objectSnaps =>
      -- an `OBJ_` key does not start like a `SNA_` key
      obtain ⟨rfl, _⟩ := hc.objects _ _ _ hget
      obtain ⟨_, hrest⟩ := hprefix
      exact absurd (head_eq_of_cons_eq hrest) (by decide)
    | mapping t o =>
      obtain ⟨rfl, hmapped⟩ := hc.mappings _ _ _ hget
      obtain ⟨snaps, hsnaps, _⟩ := id hmapped
      have hpool := (hc.inPg hsnaps).1.1
      obtain ⟨hmod, hhash⟩ := (prefixKeyOf_starts hpool t v).1 hprefix
      obtain rfl := ha o t hmapped hmod
      rw [Nat.mod_eq_of_lt hv] at hhash
      exact ⟨o, hmapped, hhash.symm, rfl⟩
  · rintro ⟨o, hmapped, hhash, rfl⟩
    have hget := (hc.mapping_iff snap o).2 hmapped
    obtain ⟨snaps, hsnaps, _⟩ := hmapped
    have hpool := (hc.inPg hsnaps).1.1
    have hprefix : M.prefixKeyOf snap v <+: M.toRawKey snap o := by
      rw [prefixKeyOf_starts hpool]
      exact ⟨rfl, by rw [Nat.mod_eq_of_lt hv, hhash]⟩
    exact ⟨get?_eq_some.1 hget, hprefix, prefixKeyOf_lt hpool hprefix⟩

theorem entryOf_injective (M : SnapMapper) (snap : Nat) : Function.Injective (M.entryOf snap) := by
  intro _ _ h
  exact (SnapValue.mapping.inj (congrArg Prod.snd h)).2

/-! ## The walk -/

/-- Under one prefix the walk takes as many objects as still fit.  It ends with
`-ENOENT` only when the store has no key after those with the prefix. -/
theorem trimLoop_spec (max : Nat) {p : List Char} (fuel : Nat) (os : List HObject)
    (pos : List Char) (out : List HObject) (hafter : store.after p pos = os.map (M.entryOf snap))
    (hcheck : ∀ o ∈ os, M.check o = true) (hpos : p <+: pos) (h : max - out.length < fuel) :
    ∃ r, M.trimLoop store snap max p fuel pos out =
      some (out ++ os.take (max - out.length), r) ∧
      (r = 0 ∨ ∃ pos', p <+: pos' ∧ store.upperBound pos' = none) := by
  induction fuel generalizing os pos out with
  | zero => exact absurd h (Nat.not_lt_zero _)
  | succ _ ih =>
    rw [trimLoop]
    split
    next _ =>
      cases os with
      | nil =>
        rw [take_nil, append_nil]
        split
        next hnone => exact ⟨enoent, rfl, .inr ⟨pos, hpos, hnone⟩⟩
        next _ _ hnext =>
          have hnot := not_prefix_of_after_nil hafter hnext
          rw [← isPrefixOf_iff_prefix] at hnot
          exact ⟨0, if_neg hnot, .inl rfl⟩
      | cons o os =>
        obtain ⟨hnext, hprefix, hrest⟩ := upperBound_of_after_cons hafter (le_of_start hpos)
        obtain ⟨r, hr, hend⟩ := ih os _ (out ++ [o]) hrest
          (fun o' ho' => hcheck o' (mem_cons_of_mem _ ho')) hprefix
          (by rw [length_append, length_singleton]; omega)
        refine ⟨r, ?_, hend⟩
        rw [hnext]
        refine (if_pos <| isPrefixOf_iff_prefix.2 hprefix).trans ?_
        refine (if_pos <| isPrefixOf_iff_prefix.2 (prefix_append _ _)).trans ?_
        refine (if_pos ⟨rfl, hcheck o mem_cons_self⟩).trans (hr.trans ?_)
        rw [length_append, length_singleton, append_assoc,
          show max - out.length = (max - (out.length + 1)) + 1 by omega,
          take_succ_cons, singleton_append]
    next _ =>
      rw [show max - out.length = 0 by omega, take_zero, append_nil]
      exact ⟨0, rfl, .inl rfl⟩

/-- The prefix under which an object of the PG is found. -/
def hashText (M : SnapMapper) (o : HObject) : List Char :=
  M.shardPrefix ++ prefixText M.maskBits M.pool (o.hash % 2 ^ nibbleLen M.maskBits)

theorem HashText.length {j : List Char} (hi : M.HashText i) (hj : M.HashText j) :
    i.length = j.length := by
  obtain ⟨_, _, rfl⟩ := hi
  obtain ⟨_, _, rfl⟩ := hj
  simp [prefixText]

/-- The objects found under one of the prefixes. -/
theorem HashText.exists_objects (hi : M.HashText i) (hc : M.Consistent store)
    (ha : M.NoAlias store snap) :
    ∃ os : List HObject, store.after (getPrefix M.pool snap ++ i) (getPrefix M.pool snap ++ i) =
        os.map (M.entryOf snap) ∧ os.Nodup ∧
      ∀ o, o ∈ os ↔ M.Mapped store snap o ∧ M.hashText o = i := by
  obtain ⟨v, hv, rfl⟩ := hi
  have hlt := ((mem_prefixHashes _ _ _).1 hv).1
  have hmem := fun e => mem_after_prefixKeyOf hc ha hlt (e := e)
  obtain ⟨os, hos⟩ : store.after (M.prefixKeyOf snap v) (M.prefixKeyOf snap v) ∈
      Set.range (List.map (M.entryOf snap)) := by
    rw [Set.range_list_map]
    intro e he
    obtain ⟨o, _, _, heq⟩ := (hmem e).1 he
    exact ⟨o, heq.symm⟩
  refine ⟨os, hos.symm, ?_, fun o => ?_⟩
  · have hsorted := store.sorted_after (M.prefixKeyOf snap v) (M.prefixKeyOf snap v)
    rw [← hos, pairwise_map] at hsorted
    exact hsorted.imp fun hlt heq => absurd hlt (by rw [heq]; exact lt_irrefl _)
  · have hin := hmem (M.entryOf snap o)
    rw [← hos, mem_map_of_injective (entryOf_injective M snap)] at hin
    rw [hin]
    constructor
    · rintro ⟨_, hmapped, rfl, heq⟩
      obtain rfl := entryOf_injective M snap heq
      exact ⟨hmapped, rfl⟩
    · rintro ⟨hmapped, heq⟩
      have htail := (nibbleText_inj _ _ _).1
        (tail_eq_of_cons_eq (append_cancel_left (append_cancel_left heq)))
      rw [pow_nibbleLen, Nat.mod_mod, Nat.mod_eq_of_lt hlt] at htail
      exact ⟨o, hmapped, htail, rfl⟩

theorem Mapped.inPg (h : M.Mapped store snap o) (hc : M.Consistent store) : M.InPg o := by
  obtain ⟨_, hsnaps, _⟩ := h
  exact (hc.inPg hsnaps).1

/-- When the store has no key after those of one prefix, no object is found under
a later one. -/
theorem not_mapped_of_upperBound_none {j pos : List Char} (hc : M.Consistent store)
    (hi : M.HashText i) (hj : M.HashText j) (hij : i < j)
    (hpos : getPrefix M.pool snap ++ i <+: pos) (hnone : store.upperBound pos = none)
    (ho : M.Mapped store snap o) : M.hashText o ≠ j := by
  rintro rfl
  have hget := (hc.mapping_iff snap o).2 ho
  have hle := upperBound_eq_none.1 hnone _ (Option.isSome_iff_exists.2 ⟨_, hget⟩)
  have hkey : getPrefix M.pool snap ++ M.hashText o <+: M.toRawKey snap o :=
    (prefixKeyOf_starts (ho.inPg hc).1 snap _).2 ⟨rfl, Nat.mod_mod _ _⟩
  refine absurd hle (not_le.2 (lt_of_blocks ?_ ?_ hpos hkey))
  · rw [length_append, length_append, hi.length hj]
  · exact (append_lt_append_iff _ _ _).2 hij

/-- Over all the prefixes the walk takes as many of the objects as fit. -/
theorem trimPrefixes_spec (max : Nat) (hc : M.Consistent store) (ha : M.NoAlias store snap)
    (is : List (List Char)) (out : List HObject) (r : Int) (hsorted : is.Pairwise (· < ·))
    (htexts : ∀ i ∈ is, M.HashText i)
    (hr : r = 0 ∨ ∀ o, M.Mapped store snap o → M.hashText o ∉ is) :
    ∃ objs : List HObject, M.trimPrefixes store snap max is out r =
        some (out ++ objs.take (max - out.length)) ∧ objs.Nodup ∧
      ∀ o, o ∈ objs ↔ M.Mapped store snap o ∧ M.hashText o ∈ is := by
  induction is generalizing out r with
  | nil => exact ⟨[], by simp [trimPrefixes], nodup_nil, by simp⟩
  | cons i is ih =>
    obtain ⟨hlt, hsorted'⟩ := pairwise_cons.1 hsorted
    have hi := htexts i mem_cons_self
    have htexts' : ∀ j ∈ is, M.HashText j := fun j hj => htexts j (mem_cons_of_mem _ hj)
    obtain ⟨os, hos, hnodup, hmem⟩ := hi.exists_objects hc ha
    obtain ⟨r', hr', hend⟩ := trimLoop_spec max (max + 1) os _ out hos
      (fun o ho => (((hmem o).1 ho).1.inPg hc).2) (prefix_refl _) (by omega)
    obtain ⟨objs, hobjs, hnd, hmems⟩ := ih (out ++ os.take (max - out.length)) r' hsorted'
      htexts' (hend.imp_right fun ⟨pos, hpos, hnone⟩ o ho hin =>
        not_mapped_of_upperBound_none hc hi (htexts' _ hin) (hlt _ hin) hpos hnone ho rfl)
    have hcover : ∀ o, o ∈ os ++ objs ↔ M.Mapped store snap o ∧ M.hashText o ∈ i :: is := by
      intro o
      rw [mem_append, hmem, hmems, ← and_or_left, mem_cons]
    have hdisj : (os ++ objs).Nodup := by
      refine nodup_append.2 ⟨hnodup, hnd, ?_⟩
      rintro o ho _ ho' rfl
      have hlast := hlt _ ((hmems o).1 ho').2
      rw [((hmem o).1 ho).2] at hlast
      exact lt_irrefl _ hlast
    refine ⟨os ++ objs, ?_, hdisj, hcover⟩
    rw [trimPrefixes]
    split
    next _ =>
      have hleft : max - (out ++ os.take (max - out.length)).length =
          max - out.length - os.length := by
        rw [length_append, length_take]
        omega
      simp only [hr', hobjs, hleft, take_append, append_assoc]
    next hstop =>
      -- nothing more fits, or the store has ended and no object is left
      cases lt_or_ge out.length max with
      | inr => rw [show max - out.length = 0 by omega, take_zero, append_nil]
      | inl hroom =>
        have hnone := hr.resolve_left fun h0 => hstop ⟨hroom, h0⟩
        have hnil : os ++ objs = [] := by
          refine eq_nil_iff_forall_not_mem.2 fun o ho => ?_
          exact hnone o ((hcover o).1 ho).1 ((hcover o).1 ho).2
        rw [hnil, take_nil, append_nil]

/-- Trimming returns as many of the objects mapped to the snap as it may. -/
theorem getNextObjectsToTrim_spec (hc : M.Consistent store) (ha : M.NoAlias store snap)
    (hmax : 0 < max) : ∃ objs : List HObject, objs.Nodup ∧
      (∀ o, o ∈ objs ↔ M.Mapped store snap o) ∧
      M.getNextObjectsToTrim store snap max =
        some (objs.take max, if objs = [] then enoent else 0) := by
  obtain ⟨objs, hobjs, hnodup, hmem⟩ := trimPrefixes_spec max hc ha M.prefixes [] 0
    (pairwise_map.2 (sorted _)) (fun _ => mem_prefixes.1) (.inl rfl)
  refine ⟨objs, hnodup, fun o => (hmem o).trans (and_iff_left_of_imp fun ho => ?_), ?_⟩
  · exact mem_prefixes.2 ⟨_, mem_of_matchHash (ho.inPg hc).2, rfl⟩
  · rw [getNextObjectsToTrim, if_pos hmax, hobjs, Option.map_some, nil_append,
      length_nil, Nat.sub_zero]
    cases objs with
    | nil => simp
    | cons o objs =>
      have hlen : (List.take max (o :: objs)).length ≠ 0 := by
        rw [length_take, length_cons]
        omega
      rw [if_neg hlen, if_neg (cons_ne_nil _ _)]

/-! ## Every run -/

/-- After any run whose additions keep snaps apart in their low 32 bits the two
directions agree, and trimming a snap that no other mapped snap agrees with in
these bits returns as many of its objects as it may, each once. -/
theorem snapMapper_consistent
    (hrun : Run M.step (fun st op => M.Allowed st op ∧ AddsDistinct op) Omap.empty store) :
    (∀ s o, store.get? (M.toRawKey s o) = some (.mapping s o) ↔
      ∃ snaps, M.snapsOf store o = some snaps ∧ s ∈ snaps) ∧
    ∀ s max, 0 < max → M.NoAlias store s → ∃ (out : List HObject) (r : Int) (objs : List HObject),
      M.getNextObjectsToTrim store s max = some (out, r) ∧
      out.Nodup ∧ (∀ o ∈ out, M.Mapped store s o ∧ M.check o = true) ∧
      objs.Nodup ∧ (∀ o, o ∈ objs ↔ M.Mapped store s o ∧ M.check o = true) ∧
      out.length = min max objs.length ∧
      (r = enoent ↔ ¬ ∃ o, M.Mapped store s o ∧ M.check o = true) := by
  have hc := Consistent.of_run hrun
  refine ⟨hc.mapping_iff, fun s max hmax ha => ?_⟩
  obtain ⟨objs, hnodup, hmem, htrim⟩ := getNextObjectsToTrim_spec hc ha hmax
  have hmem' : ∀ o, o ∈ objs ↔ M.Mapped store s o ∧ M.check o = true := fun o =>
    (hmem o).trans (and_iff_left_of_imp fun ho => (ho.inPg hc).2).symm
  refine ⟨_, _, objs, htrim, hnodup.sublist (take_sublist _ _),
    fun o ho => (hmem' o).1 (mem_of_mem_take ho), hnodup, hmem', length_take, ?_⟩
  simp only [← hmem']
  cases objs with
  | nil => simp
  | cons => simp [enoent]

/-- An object of pool 3 with hash 5. -/
def sampleObject (name : List Char) : HObject :=
  ⟨name, [], cephNosnap, 5, 3, [], by decide, by decide⟩

/-- The mapper of the PG of pool 3 whose objects have hash 1 modulo 4. -/
def sampleMapper : SnapMapper := ⟨2, 1, 3, none, by decide⟩

/-- Two objects have the snaps 1 and 2, and one of them is returned if no more than one may be. -/
theorem snapMapper_consistent_two_objects :
    ∃ (snaps : SnapSet) (store store' : SnapStore), snaps.elems = [1, 2] ∧
      sampleMapper.step Omap.empty (.addOid (sampleObject ['a', '_']) snaps) = some store ∧
      sampleMapper.step store (.addOid (sampleObject ['b']) snaps) = some store' ∧
      sampleMapper.NoAlias store' 2 ∧
      ∃ (out : List HObject) (r : Int) (objs : List HObject),
        sampleMapper.getNextObjectsToTrim store' 2 1 = some (out, r) ∧
        out.length = min 1 objs.length ∧ objs.Nodup ∧ sampleObject ['a', '_'] ∈ objs ∧
        sampleObject ['b'] ∈ objs ∧ r ≠ enoent := by
  let snaps : SnapSet := ⟨[1, 2], by decide, by decide⟩
  have hin : sampleMapper.InPg (sampleObject ['a', '_']) := ⟨rfl, rfl⟩
  have hin' : sampleMapper.InPg (sampleObject ['b']) := ⟨rfl, rfl⟩
  have hd : Distinct snaps := by
    intro s hs t ht
    have hs' : s = 1 ∨ s = 2 := by simpa using mem_cons.1 hs
    have ht' : t = 1 ∨ t = 2 := by simpa using mem_cons.1 ht
    omega
  have hne : snaps.elems ≠ [] := cons_ne_nil 1 [2]
  have htwo : 2 ∈ snaps := mem_cons_of_mem _ mem_cons_self
  obtain ⟨store, hadd, hrep⟩ := Consistent.empty.addOid hin.2 hne hd
  have hrun : Run sampleMapper.step (fun st op => sampleMapper.Allowed st op ∧ AddsDistinct op)
      Omap.empty store := Run.refl.tail (a := .addOid _ snaps) ⟨⟨hin, hne⟩, hd⟩ hadd
  obtain ⟨store', hadd', hrep'⟩ := (Consistent.of_run hrun).addOid hin'.2 hne hd
  have hold : sampleMapper.snapsOf store' (sampleObject ['a', '_']) = some snaps :=
    (hrep'.snapsOf_of_ne (by decide)).trans hrep.snapsOf_self
  have ha : sampleMapper.NoAlias store' 2 := by
    rintro o t ⟨_, hsnaps, ht⟩ hmod
    by_cases hb : o = sampleObject ['b']
    · rw [hb, hrep'.snapsOf_self] at hsnaps
      cases hsnaps
      exact hd t ht 2 htwo hmod
    · rw [hrep'.snapsOf_of_ne hb] at hsnaps
      by_cases ho : o = sampleObject ['a', '_']
      · rw [ho, hrep.snapsOf_self] at hsnaps
        cases hsnaps
        exact hd t ht 2 htwo hmod
      · rw [hrep.snapsOf_of_ne ho] at hsnaps
        cases hsnaps
  obtain ⟨_, htrim⟩ := snapMapper_consistent
    (hrun.tail (a := .addOid _ snaps) ⟨⟨hin', hne⟩, hd⟩ hadd')
  obtain ⟨out, r, objs, hout, _, _, hobjs, hmem, hlen, hr⟩ := htrim 2 1 one_pos ha
  have hb := (hmem _).2 ⟨⟨_, hrep'.snapsOf_self, htwo⟩, hin'.2⟩
  exact ⟨snaps, store, store', rfl, hadd, hadd', ha, out, r, objs, hout, hlen, hobjs,
    (hmem _).2 ⟨⟨_, hold, htwo⟩, hin.2⟩, hb, fun h => hr.1 h ⟨_, (hmem _).1 hb⟩⟩

/-- An object with snaps 1 and 4294967297 has one `SNA_` key for both, which holds
snap 1; trimming 4294967297 fails an assertion. -/
theorem snapMapper_alias :
    ∃ (S : SnapSet) (store : SnapStore), 4294967297 ∈ S ∧
      sampleMapper.Allowed Omap.empty (.addOid (sampleObject ['a']) S) ∧
      sampleMapper.step Omap.empty (.addOid (sampleObject ['a']) S) = some store ∧
      sampleMapper.snapsOf store (sampleObject ['a']) = some S ∧
      store.get? (sampleMapper.toRawKey 4294967297 (sampleObject ['a'])) =
        some (.mapping 1 (sampleObject ['a'])) ∧
      sampleMapper.getNextObjectsToTrim store 4294967297 1 = none :=
  ⟨⟨[1, 4294967297], by decide, by decide⟩, _, mem_cons_of_mem _ mem_cons_self,
    ⟨⟨rfl, rfl⟩, cons_ne_nil _ _⟩, rfl, by decide +kernel, by decide +kernel,
    by decide +kernel⟩

end SnapMapper

end Ceph.Osd
