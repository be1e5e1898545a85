import Mathlib.Data.List.Induction

set_option autoImplicit false

/-!
# Keeping a history without the elements that a later one covers

Elements arrive one by one; a new element drops every older one that it covers.
What is kept after a whole history are the elements that no later one covers, and
where covering is reflexive and transitive each element of the history is covered
by one that is kept and is not older.
-/

namespace Ceph.Lib

open List

variable {α : Type} {covers : α → α → Bool} {l : List α} {x : α}

/-- The arrival of one element. -/
def addCovering (covers : α → α → Bool) (kept : List α) (x : α) : List α :=
  kept.filter (fun y => !covers x y) ++ [x]

/-- What is kept of a history, oldest first. -/
def survivors (covers : α → α → Bool) (l : List α) : List α := l.foldl (addCovering covers) []

theorem survivors_concat (l : List α) (x : α) :
    survivors covers (l ++ [x]) = addCovering covers (survivors covers l) x := by
  rw [survivors, foldl_append, foldl_cons, foldl_nil, survivors]

/-- The elements that are kept stand in the order of their arrival. -/
theorem survivors_sublist (l : List α) : (survivors covers l).Sublist l := by
  induction l using List.reverseRecOn with
  | nil => exact List.Sublist.refl []
  | append_singleton l x ih =>
    rw [survivors_concat]
    exact (filter_sublist.trans ih).append (List.Sublist.refl [x])

/-- Each element is covered by one that is kept and came no earlier. -/
theorem exists_survivor (covers : α → α → Bool) (hrefl : ∀ x, covers x x = true)
    (htrans : ∀ x y z, covers x y = true → covers y z = true → covers x z = true)
    {r : α → α → Prop} (hl : l.Pairwise r) (hx : x ∈ l) :
    ∃ y ∈ survivors covers l, covers y x = true ∧ (y = x ∨ r x y) := by
  induction l using List.reverseRecOn generalizing x with
  | nil => exact absurd hx not_mem_nil
  | append_singleton l z ih =>
    obtain ⟨hlr, -, hlast⟩ := pairwise_append.1 hl
    rw [survivors_concat]
    have hz : z ∈ (survivors covers l).filter (fun y => !covers z y) ++ [z] := mem_concat_self
    cases mem_append.1 hx with
    | inr hx =>
      rw [mem_singleton.1 hx]
      exact ⟨z, hz, hrefl z, .inl rfl⟩
    | inl hx =>
      obtain ⟨y, hy, hyx, hord⟩ := ih hlr hx
      cases hzy : covers z y with
      | true => exact ⟨z, hz, htrans z y x hzy hyx, .inr (hlast x hx z (mem_singleton.2 rfl))⟩
      | false =>
        refine ⟨y, mem_append_left _ (mem_filter.2 ⟨hy, ?_⟩), hyx, hord⟩
        rw [hzy]
        rfl

end Ceph.Lib
