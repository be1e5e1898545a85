import Ceph.Lib.Text
import Mathlib.Data.List.Nodup

set_option autoImplicit false

/-!
# Ordered key-value maps with searches from a key on

A map is the list of its entries in strictly increasing order of key.  What an
operation does is said through `get?`; the searches `lowerBound` and
`upperBound` return the entry of the least key among those asked for.
-/

namespace Ceph.Lib

open List

/-- A finite map, its entries listed in increasing order of key. -/
structure Omap (κ V : Type) [LinearOrder κ] where
  entries : List (κ × V)
  sorted : entries.Pairwise fun a b => a.1 < b.1

namespace Omap

variable {κ V : Type} [LinearOrder κ]

def empty : Omap κ V := ⟨[], .nil⟩

variable (m : Omap κ V)

def get? (k : κ) : Option V := (m.entries.find? fun e => e.1 = k).map Prod.snd

/-- Write an entry, over the one of the same key if there is one. -/
def set (k : κ) (v : V) : Omap κ V where
  entries := m.entries.filter (fun e => e.1 < k) ++ (k, v) :: m.entries.filter (fun e => k < e.1)
  sorted := by
    refine pairwise_append.2 ⟨m.sorted.filter _, ?_, ?_⟩
    · refine pairwise_cons.2 ⟨fun e he => ?_, m.sorted.filter _⟩
      simpa using (mem_filter.1 he).2
    · intro a ha b hb
      have hak : a.1 < k := by simpa using (mem_filter.1 ha).2
      obtain heq | hb := mem_cons.1 hb
      · rw [heq]; exact hak
      · have hkb : k < b.1 := by simpa using (mem_filter.1 hb).2
        exact hak.trans hkb

def erase (k : κ) : Omap κ V where
  entries := m.entries.filter fun e => e.1 ≠ k
  sorted := m.sorted.filter _

/-- The entry of the least key that satisfies a condition. -/
def first (p : κ → Bool) : Option (κ × V) := m.entries.find? fun e => p e.1

/-- The first entry at or after a key. -/
def lowerBound (k : κ) : Option (κ × V) := m.first fun k' => k ≤ k'

/-- The first entry after a key. -/
def upperBound (k : κ) : Option (κ × V) := m.first fun k' => k < k'

def eraseAll (ks : List κ) : Omap κ V := ks.foldl erase m

/-- Write all entries of another map. -/
def setAll (m m' : Omap κ V) : Omap κ V := m'.entries.foldl (fun m e => m.set e.1 e.2) m

variable {m : Omap κ V} {k k' : κ} {v : V}

theorem eq_of_mem {v' : V} (h : (k, v) ∈ m.entries) (h' : (k, v') ∈ m.entries) : v = v' := by
  have hnodup : (m.entries.map Prod.fst).Nodup := pairwise_map.2 (m.sorted.imp fun hlt => hlt.ne)
  exact congrArg Prod.snd (inj_on_of_nodup_map hnodup h h' rfl)

theorem get?_eq_some : m.get? k = some v ↔ (k, v) ∈ m.entries := by
  rw [get?, Option.map_eq_some_iff]
  constructor
  · rintro ⟨⟨k', _⟩, hfind, rfl⟩
    have hk : k' = k := by simpa using find?_some hfind
    exact hk ▸ mem_of_find?_eq_some hfind
  · intro hmem
    cases hfind : m.entries.find? fun e => e.1 = k with
    | none =>
      have hno := find?_eq_none.1 hfind (k, v) hmem
      exact absurd (decide_eq_true rfl) hno
    | some e =>
      have hk : e.1 = k := by simpa using find?_some hfind
      refine ⟨e, rfl, ?_⟩
      have hmem' := mem_of_find?_eq_some hfind
      exact eq_of_mem (hk ▸ hmem' : (k, e.2) ∈ m.entries) hmem

@[simp] theorem get?_empty (k : κ) : (empty : Omap κ V).get? k = none := rfl

theorem get?_set (m : Omap κ V) (k k' : κ) (v : V) :
    (m.set k v).get? k' = if k' = k then some v else m.get? k' := by
  have hmem : ∀ w, (k', w) ∈ (m.set k v).entries ↔
      (k' = k ∧ w = v) ∨ (k' ≠ k ∧ (k', w) ∈ m.entries) := by
    intro w
    simp only [set, mem_append, mem_cons, mem_filter, decide_eq_true_eq, Prod.mk.injEq]
    constructor
    · rintro (⟨h, hlt⟩ | h | ⟨h, hlt⟩)
      · exact .inr ⟨hlt.ne, h⟩
      · exact .inl h
      · exact .inr ⟨hlt.ne', h⟩
    · rintro (h | ⟨hne, h⟩)
      · exact .inr (.inl h)
      · obtain hlt | hgt := lt_or_gt_of_ne hne
        · exact .inl ⟨h, hlt⟩
        · exact .inr (.inr ⟨h, hgt⟩)
  refine Option.ext fun w => ?_
  rw [get?_eq_some, hmem]
  split
  next heq => simp [heq, eq_comm]
  next hne => simp [hne, get?_eq_some]

theorem get?_erase (m : Omap κ V) (k k' : κ) :
    (m.erase k).get? k' = if k' = k then none else m.get? k' := by
  refine Option.ext fun w => ?_
  rw [get?_eq_some, erase]
  split
  next heq => simp [heq]
  next hne => simp [hne, get?_eq_some]

theorem get?_eraseAll (ks : List κ) (m : Omap κ V) (k : κ) :
    (m.eraseAll ks).get? k = if k ∈ ks then none else m.get? k := by
  induction ks generalizing m k with
  | nil => rfl
  | cons a _ ih =>
    rw [eraseAll, foldl_cons, ← eraseAll, ih, get?_erase]
    obtain heq | hne := eq_or_ne k a
    · simp [heq]
    · simp [hne]

theorem get?_eraseAll_of_notMem {ks : List κ} (h : k ∉ ks) : (m.eraseAll ks).get? k = m.get? k :=
  (get?_eraseAll ks m k).trans (if_neg h)

theorem get?_setAll (m m' : Omap κ V) (k : κ) :
    (m.setAll m').get? k = (m'.get? k).or (m.get? k) := by
  -- the keys written are distinct, so each key is written at most once
  suffices h : ∀ es : List (κ × V), es.Pairwise (fun a b => a.1 < b.1) →
      (es.foldl (fun m e => m.set e.1 e.2) m).get? k =
        ((es.find? fun e => e.1 = k).map Prod.snd).or (m.get? k) from h m'.entries m'.sorted
  intro es hsorted
  induction es generalizing m with
  | nil => rfl
  | cons a es ih =>
    obtain ⟨hlt, hrest⟩ := pairwise_cons.1 hsorted
    rw [foldl_cons, ih _ hrest, get?_set]
    obtain heq | hne := eq_or_ne k a.1
    · have hnone : (es.find? fun e => e.1 = k) = none := by
        refine find?_eq_none.2 fun e he => ?_
        have := hlt e he
        simpa [heq] using this.ne'
      rw [hnone]
      simp [heq]
    · rw [if_neg hne]
      simp [hne.symm]

/-! ## Searching from a key on -/

theorem first_eq_some {p : κ → Bool} : m.first p = some (k, v) ↔
    m.get? k = some v ∧ p k = true ∧ ∀ k', (m.get? k').isSome → p k' = true → k ≤ k' := by
  rw [first, find?_eq_some_iff_append]
  constructor
  · rintro ⟨hp, before, after, heq, hnot⟩
    refine ⟨get?_eq_some.2 (by rw [heq]; simp), hp, fun k' hk' hpk' => ?_⟩
    obtain ⟨_, hv'⟩ := Option.isSome_iff_exists.1 hk'
    have hmem := get?_eq_some.1 hv'
    rw [heq] at hmem
    have hsorted := m.sorted
    rw [heq] at hsorted
    obtain hb | ha := mem_append.1 hmem
    · have hno := hnot _ hb
      simp [hpk'] at hno
    · obtain heq' | ha := mem_cons.1 ha
      · exact (congrArg Prod.fst heq').ge
      · exact ((pairwise_cons.1 (pairwise_append.1 hsorted).2.1).1 _ ha).le
  · rintro ⟨hget, hp, hleast⟩
    obtain ⟨before, after, heq⟩ := append_of_mem (get?_eq_some.1 hget)
    refine ⟨hp, before, after, heq, fun e he => ?_⟩
    have hsorted := m.sorted
    rw [heq] at hsorted
    have hlt := (pairwise_append.1 hsorted).2.2 e he (k, v) mem_cons_self
    have hmem : (e.1, e.2) ∈ m.entries := by rw [heq]; exact mem_append_left _ he
    have hno : ¬ p e.1 = true := fun hpe =>
      absurd (hleast e.1 (by rw [get?_eq_some.2 hmem]; rfl) hpe) (not_le.2 hlt)
    simpa using hno

theorem first_eq_none {p : κ → Bool} : m.first p = none ↔
    ∀ k, (m.get? k).isSome → p k = false := by
  rw [first, find?_eq_none]
  constructor
  · intro h k hk
    obtain ⟨v, hv⟩ := Option.isSome_iff_exists.1 hk
    simpa using h _ (get?_eq_some.1 hv)
  · rintro h ⟨k, v⟩ he
    simpa using h k (by rw [get?_eq_some.2 he]; rfl)

theorem lowerBound_eq_some : m.lowerBound k = some (k', v) ↔
    m.get? k' = some v ∧ k ≤ k' ∧ ∀ l, (m.get? l).isSome → k ≤ l → k' ≤ l := by
  rw [lowerBound, first_eq_some]
  simp only [decide_eq_true_eq]

theorem upperBound_eq_some : m.upperBound k = some (k', v) ↔
    m.get? k' = some v ∧ k < k' ∧ ∀ l, (m.get? l).isSome → k < l → k' ≤ l := by
  rw [upperBound, first_eq_some]
  simp only [decide_eq_true_eq]

theorem upperBound_eq_none : m.upperBound k = none ↔
    ∀ l, (m.get? l).isSome → l ≤ k := by
  rw [upperBound, first_eq_none]
  simp only [decide_eq_false_iff_not, not_lt]

/-- Entries are written one by one under distinct keys that are not there yet: each stays
as it was written. -/
theorem get?_foldl_of_fresh {α : Type} {key : α → κ} {val : α → V}
    {write : Omap κ V → α → Omap κ V}
    (hwrite : ∀ m a, m.get? (key a) = none → write m a = m.set (key a) (val a)) (l : List α)
    (m : Omap κ V) (hkeys : l.Pairwise (fun a b => key a ≠ key b))
    (hnone : ∀ a ∈ l, m.get? (key a) = none) :
    (∀ a ∈ l, (l.foldl write m).get? (key a) = some (val a)) ∧
      ∀ k, (∀ a ∈ l, k ≠ key a) → (l.foldl write m).get? k = m.get? k := by
  induction l generalizing m with
  | nil => exact ⟨nofun, fun _ _ => rfl⟩
  | cons a _ ih =>
    obtain ⟨ha, hl⟩ := pairwise_cons.1 hkeys
    have hset := hwrite m a (hnone a mem_cons_self)
    have hother : ∀ k, k ≠ key a → (write m a).get? k = m.get? k := by
      intro k hk
      rw [hset, get?_set, if_neg hk]
    obtain ⟨hwritten, hrest⟩ := ih (write m a) hl fun b hb => by
      rw [hother _ (ha b hb).symm, hnone b (mem_cons_of_mem _ hb)]
    rw [foldl_cons]
    refine ⟨fun b hb => ?_, fun k hk => ?_⟩
    · cases mem_cons.1 hb with
      | inr hb => exact hwritten b hb
      | inl heq => rw [heq, hrest _ ha, hset, get?_set, if_pos rfl]
    · rw [hrest k fun b hb => hk b (mem_cons_of_mem _ hb), hother k (hk a mem_cons_self)]

/-! ## Walking the keys that start with a prefix

Keys are texts.  Starting at the prefix itself and asking again and again for the first key after
the last one found visits the entries whose keys start with the prefix in order, and then leaves
them. -/

variable {α : Type} [LinearOrder α] {m : Omap (List α) V} {p pos : List α}

/-- The entries after `pos` whose keys start with `p`. -/
def after (m : Omap (List α) V) (p pos : List α) : List (List α × V) :=
  m.entries.filter fun e => p.isPrefixOf e.1 && decide (pos < e.1)

variable {e : List α × V}

theorem mem_after : e ∈ m.after p pos ↔ e ∈ m.entries ∧ p <+: e.1 ∧ pos < e.1 := by
  simp [after, mem_filter]

theorem sorted_after (m : Omap (List α) V) (p pos : List α) :
    (m.after p pos).Pairwise fun a b => a.1 < b.1 := m.sorted.filter _

/-- The next key after `pos` is the next one with the prefix, if there is one. -/
theorem upperBound_of_after_cons {rest : List (List α × V)} (h : m.after p pos = e :: rest)
    (hpos : p ≤ pos) : m.upperBound pos = some e ∧ p <+: e.1 ∧ m.after p e.1 = rest := by
  have hsorted := m.sorted_after p pos
  rw [h] at hsorted
  obtain ⟨hlt, _⟩ := pairwise_cons.1 hsorted
  have he : e ∈ m.after p pos := by rw [h]; exact mem_cons_self
  obtain ⟨hmem, hprefix, hposlt⟩ := mem_after.1 he
  refine ⟨upperBound_eq_some.2 ⟨get?_eq_some.2 hmem, hposlt, fun l hl hposl => ?_⟩, hprefix, ?_⟩
  · -- a key in between starts with the prefix as well
    refine not_lt.1 fun hle => ?_
    obtain ⟨v, hv⟩ := Option.isSome_iff_exists.1 hl
    obtain ⟨x, hx⟩ := hprefix
    have hpl : p <+: l := by
      refine prefix_of_between (x := []) (y := x) ?_ ?_
      · rw [append_nil]
        exact hpos.trans hposl.le
      · rw [hx]
        exact hle.le
    have hin : (l, v) ∈ m.after p pos := mem_after.2 ⟨get?_eq_some.1 hv, hpl, hposl⟩
    rw [h] at hin
    obtain heq | hrest := mem_cons.1 hin
    · exact absurd hle (by rw [← heq]; exact lt_irrefl _)
    · exact absurd (hlt _ hrest) hle.asymm
  · have hfilter : m.after p e.1 = (m.after p pos).filter fun e' => e.1 < e'.1 := by
      rw [after, after, filter_filter]
      refine filter_congr fun e' _ => ?_
      cases hlt' : decide (e.1 < e'.1) with
      | false => simp
      | true =>
        have hle : pos < e'.1 := hposlt.trans (of_decide_eq_true hlt')
        simp [hle]
    rw [hfilter, h, filter_cons_of_neg (by simp)]
    exact filter_eq_self.2 fun e' he' => by simpa using hlt e' he'

/-- Past the last key with the prefix, the next key does not start with it. -/
theorem not_prefix_of_after_nil (h : m.after p pos = [])
    (he : m.upperBound pos = some e) : ¬ p <+: e.1 := by
  intro hp
  obtain ⟨hget, hlt, _⟩ := upperBound_eq_some.1 he
  have hin : e ∈ m.after p pos := mem_after.2 ⟨get?_eq_some.1 hget, hp, hlt⟩
  rw [h] at hin
  exact absurd hin not_mem_nil

end Omap

end Ceph.Lib
