import Mathlib.Data.List.Basic

set_option autoImplicit false

/-!
# An index of the last element with each key

A list is indexed by a partial key: the index holds, for each key, the last
element of the list that has it.  Elements are entered at one end, or in front
of all others, and leave at the front.
-/

namespace Ceph.Lib

open List Option Function

variable {α κ : Type} [DecidableEq κ] {key : α → Option κ}

/-- The last element with the key `k`. -/
def lastOf (key : α → Option κ) (l : List α) (k : κ) : Option α :=
  (l.filter fun x => decide (key x = some k)).getLast?

/-- Enter an element into an index. -/
def enter (key : α → Option κ) (m : κ → Option α) (x : α) : κ → Option α :=
  match key x with
  | some k => Function.update m k (some x)
  | none => m

theorem lastOf_append (l l' : List α) (k : κ) :
    lastOf key (l ++ l') k = (lastOf key l' k).or (lastOf key l k) := by
  rw [lastOf, filter_append, getLast?_append]
  rfl

theorem lastOf_cons (x : α) (l : List α) (k : κ) :
    lastOf key (x :: l) k = (lastOf key l k).or (lastOf key [x] k) := lastOf_append [x] l k

variable {l : List α} {k : κ} {x : α}

theorem lastOf_eq_none_iff : lastOf key l k = none ↔ ∀ x ∈ l, key x ≠ some k := by
  rw [lastOf, getLast?_eq_none_iff]
  simp

theorem mem_of_lastOf (h : lastOf key l k = some x) : x ∈ l ∧ key x = some k := by
  have hmem := mem_filter.1 (mem_of_getLast? h)
  exact ⟨hmem.1, of_decide_eq_true hmem.2⟩

/-- In a sorted list the last element with a key is the greatest. -/
theorem lastOf_greatest {r : α → α → Prop} (hsorted : l.Pairwise r)
    (h : lastOf key l k = some x) : ∀ y ∈ l, key y = some k → y = x ∨ r y x := by
  intro y hy hkey
  obtain ⟨init, hinit⟩ := getLast?_eq_some_iff.1 h
  have hmem : y ∈ init ++ [x] := hinit ▸ mem_filter.2 ⟨hy, decide_eq_true hkey⟩
  have hfilter := hsorted.sublist (filter_sublist (p := fun x => decide (key x = some k)))
  rw [hinit, pairwise_append] at hfilter
  obtain hin | hin := mem_append.1 hmem
  · exact .inr (hfilter.2.2 y hin x (mem_singleton_self x))
  · exact .inl (mem_singleton.1 hin)

theorem lastOf_singleton (x : α) (k : κ) :
    lastOf key [x] k = if key x = some k then some x else none := by
  by_cases h : key x = some k <;> simp [lastOf, h]

theorem enter_apply (m : κ → Option α) (x : α) (k : κ) :
    enter key m x k = (lastOf key [x] k).or (m k) := by
  rw [enter, lastOf_singleton]
  cases hkey : key x with
  | none => rfl
  | some k' =>
    dsimp only
    cases decEq k' k with
    | isTrue heq =>
      rw [heq, update_self, if_pos rfl]
      rfl
    | isFalse hne =>
      rw [update_of_ne (Ne.symm hne), if_neg fun h => hne (some.inj h)]
      rfl

/-- Entering a list into an index. -/
theorem foldl_enter (l : List α) (m : κ → Option α) (k : κ) :
    l.foldl (enter key) m k = (lastOf key l k).or (m k) := by
  induction l generalizing m k with
  | nil => rfl
  | cons x l ih => rw [List.foldl_cons, ih, enter_apply, ← Option.or_assoc, ← lastOf_cons]

section

variable (key : α → Option κ) {is : α → Bool} (his : is x = true) (hrest : ∀ y ∈ l, is y = false)

include his hrest

/-- When the front element leaves, it is dropped from the index if the index still
refers to it.  `is` recognises the element among those of the list. -/
theorem lastOf_tail (k : κ) : lastOf key l k = (lastOf key (x :: l) k).filter fun y => !is y := by
  rw [lastOf_cons]
  cases hl : lastOf key l k with
  | some y =>
    rw [some_or, filter_some, hrest y (mem_of_lastOf hl).1]
    rfl
  | none =>
    rw [none_or, lastOf_singleton]
    split
    · rw [filter_some, his]
      rfl
    · rfl

/-- Dropping the front element from an index by erasing one key. -/
theorem update_none_of_tail (hkey : ∀ k', key x = some k' → k' = k) :
    (if (lastOf key (x :: l) k).any is then Function.update (lastOf key (x :: l)) k none
      else lastOf key (x :: l)) = lastOf key l := by
  have hother : ∀ k', k' ≠ k → lastOf key (x :: l) k' = lastOf key l k' := by
    intro k' hne
    have hnone : lastOf key [x] k' = none := by
      rw [lastOf_eq_none_iff]
      intro y hy heq
      rw [mem_singleton.1 hy] at heq
      exact hne (hkey k' heq)
    rw [lastOf_cons, hnone, or_none]
  have hown := lastOf_tail key his hrest k
  funext k'
  cases decEq k' k with
  | isFalse hne =>
    rw [← hother k' hne]
    split
    · exact update_of_ne hne ..
    · rfl
  | isTrue heq =>
    rw [heq, hown]
    cases hlast : lastOf key (x :: l) k with
    | none => rw [if_neg (by simp), hlast]; rfl
    | some y =>
      rw [any_some, filter_some]
      cases hy : is y with
      | true => rw [if_pos rfl, update_self]; rfl
      | false => rw [if_neg Bool.false_ne_true, hlast]; rfl

end

/-- Erasing one occurrence of an element that `p` recognises. -/
theorem eraseP_perm {p : α → Bool} {l' : List α} (hx : p x = true) (hperm : l.Perm (x :: l'))
    (hall : ∀ y ∈ l, p y = true → y = x) : (l.eraseP p).Perm l' := by
  obtain ⟨y, _, _, -, hy, hl, herase⟩ := exists_of_eraseP (hperm.mem_iff.2 mem_cons_self) hx
  rw [herase]
  have hyx : y = x := hall y (by rw [hl]; simp) hy
  rw [hl, hyx] at hperm
  exact (perm_middle.symm.trans hperm).cons_inv

end Ceph.Lib
