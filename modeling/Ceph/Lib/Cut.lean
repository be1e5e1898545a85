import Mathlib.Data.List.DropRight

set_option autoImplicit false

/-!
# Cutting a list in two where a predicate changes

A sorted list is searched from one end for the first element beyond a bound.
Where the predicate does not change back, what the search passes over is a
filter of the list, and the two ends of an append are found again.
-/

namespace Ceph.Lib

open List

variable {α : Type} {p : α → Bool}

/-- Along the list `p` may change to `false` but not back. -/
abbrev Falls (p : α → Bool) (l : List α) : Prop := l.Pairwise fun x y => p y → p x

/-- What a search from the front passes over, and where it stops. -/
theorem cut_spec (p : α → Bool) (l : List α) :
    ∃ pre post, l.takeWhile p = pre ∧ l.dropWhile p = post ∧ l = pre ++ post ∧
      (∀ x ∈ pre, p x = true) ∧ ∀ x ∈ post.head?, p x = false := by
  refine ⟨_, _, rfl, rfl, takeWhile_append_dropWhile.symm,
    fun x hx => mem_takeWhile_imp hx, fun x hx => ?_⟩
  have hhead := head?_dropWhile_not p l
  rwa [Option.mem_def.1 hx] at hhead

variable {l : List α}

theorem takeWhile_eq_filter (h : Falls p l) : l.takeWhile p = l.filter p := by
  induction l with
  | nil => rfl
  | cons x l ih =>
    rw [Falls, pairwise_cons] at h
    cases hx : p x with
    | true => rw [takeWhile_cons_of_pos hx, filter_cons_of_pos hx, ih h.2]
    | false =>
      have hnone : ∀ y ∈ l, ¬ p y := fun y hy hp => by simp [h.1 y hy hp] at hx
      rw [takeWhile_cons_of_neg (by simp [hx]), filter_cons_of_neg (by simp [hx]),
        filter_eq_nil_iff.2 hnone]

theorem dropWhile_eq_filter (h : Falls p l) : l.dropWhile p = l.filter fun x => !p x := by
  induction l with
  | nil => rfl
  | cons x l ih =>
    rw [Falls, pairwise_cons] at h
    cases hx : p x with
    | true => rw [dropWhile_cons_of_pos hx, filter_cons_of_neg (by simp [hx]), ih h.2]
    | false =>
      have hall : ∀ y ∈ l, (!p y) = true := by
        intro y hy
        cases hy' : p y with
        | true => simp [h.1 y hy hy'] at hx
        | false => rfl
      rw [dropWhile_cons_of_neg (by simp [hx]), filter_cons_of_pos (by simp [hx]),
        filter_eq_self.2 hall]

/-- What stands behind the elements that a search from the front passes over. -/
theorem drop_takeWhile_length (l : List α) : l.drop (l.takeWhile p).length = l.dropWhile p := by
  nth_rewrite 2 [← takeWhile_append_dropWhile (p := p) (l := l)]
  exact drop_left

/-- A search from the front for a weaker predicate passes over more. -/
theorem takeWhile_eq_append {q : α → Bool} (h : ∀ x, p x → q x) (l : List α) :
    l.takeWhile q = l.takeWhile p ++ (l.drop (l.takeWhile p).length).takeWhile q := by
  have hall : ∀ x ∈ l.takeWhile p, q x := fun x hx => h x (mem_takeWhile_imp hx)
  rw [drop_takeWhile_length, ← takeWhile_append_of_pos hall, takeWhile_append_dropWhile]

/-- A search from the back for elements that only the end of the list has. -/
theorem rdropWhile_eq_filter (h : l.Pairwise fun x y => p x → p y) :
    l.rdropWhile p = l.filter fun x => !p x := by
  have hfalls : Falls p l.reverse := pairwise_reverse.2 h
  rw [List.rdropWhile, dropWhile_eq_filter hfalls, filter_reverse, reverse_reverse]

theorem rtakeWhile_append_of {l' : List α} (hl : ∀ x ∈ l, ¬ p x) (hl' : ∀ x ∈ l', p x) :
    (l ++ l').rtakeWhile p = l' := by
  have hnone : l.reverse.takeWhile p = [] := by
    rw [takeWhile_eq_nil_iff]
    intro _
    exact hl _ (mem_reverse.1 (get_mem _ _))
  rw [List.rtakeWhile, reverse_append,
    takeWhile_append_of_pos fun x hx => hl' x (mem_reverse.1 hx), hnone,
    append_nil, reverse_reverse]

theorem rdropWhile_append_of {l' : List α} (hl : ∀ x ∈ l, ¬ p x) (hl' : ∀ x ∈ l', p x) :
    (l ++ l').rdropWhile p = l := by
  have happ := rdropWhile_append_rtakeWhile (p := p) (l := l ++ l')
  rw [rtakeWhile_append_of hl hl'] at happ
  exact append_cancel_right happ

end Ceph.Lib
