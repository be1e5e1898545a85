import Mathlib.Algebra.GroupWithZero.Nat
import Mathlib.Algebra.Order.BigOperators.Group.List

set_option autoImplicit false

/-!
# The running sums of a list, and how they change with it

`runningSums a ws` has at each position the sum of `a` and the entries up to there.  The lemmas
say what becomes of it when an entry is appended, erased or replaced: the sums in front of the
position stay, those behind it are shifted by one amount.
-/

namespace Ceph.Lib

open List Nat

def runningSums : Nat → List Nat → List Nat
  | _, [] => []
  | a, w :: ws => (a + w) :: runningSums (a + w) ws

variable {a i : Nat} {ws : List Nat}

theorem length_runningSums (a : Nat) (ws : List Nat) : (runningSums a ws).length = ws.length := by
  induction ws generalizing a with
  | nil => rfl
  | cons _ _ ih => rw [runningSums, length_cons, length_cons, ih]

theorem runningSums_add (a d : Nat) (ws : List Nat) :
    runningSums (a + d) ws = (runningSums a ws).map (· + d) := by
  induction ws generalizing a with
  | nil => rfl
  | cons _ _ ih => rw [runningSums, runningSums, map_cons, add_right_comm, ih]

theorem runningSums_concat (a : Nat) (ws : List Nat) (w : Nat) :
    runningSums a (ws ++ [w]) = runningSums a ws ++ [a + ws.sum + w] := by
  induction ws generalizing a with
  | nil => rfl
  | cons v _ ih =>
    rw [cons_append, runningSums, runningSums, ih, cons_append, sum_cons, add_assoc a v]

theorem getLast?_runningSums (hne : ws ≠ []) :
    (runningSums a ws)[ws.length - 1]? = some (a + ws.sum) := by
  obtain ⟨front, w, rfl⟩ : ∃ front w, ws = front ++ [w] :=
    ⟨ws.dropLast, ws.getLast hne, (dropLast_concat_getLast hne).symm⟩
  have hlen : (front ++ [w]).length - 1 = (runningSums a front).length := by
    rw [length_append, length_singleton, Nat.add_sub_cancel, length_runningSums]
  rw [runningSums_concat, hlen, getElem?_concat_length, List.sum_append, sum_singleton, add_assoc]

/-- Bounds of a running sum. -/
theorem mem_runningSums {s : Nat} (h : s ∈ runningSums a ws) : a ≤ s ∧ s ≤ a + ws.sum := by
  induction ws generalizing a with
  | nil => cases h
  | cons _ _ ih =>
    rw [sum_cons]
    obtain _ | hmem := mem_cons.1 h
    · omega
    · have := ih hmem
      omega

theorem getElem_le_of_mem_drop {s : Nat} (hi : i < ws.length)
    (h : s ∈ (runningSums a ws).drop i) : a + ws[i] ≤ s := by
  induction ws generalizing a i with
  | nil => exact absurd hi (not_lt_zero i)
  | cons _ _ ih =>
    cases i with
    | zero =>
      obtain heq | hmem := mem_cons.1 h
      · exact heq.ge
      · exact (mem_runningSums hmem).1
    | succ =>
      have := ih (lt_of_succ_lt_succ hi) h
      rw [getElem_cons_succ]
      omega

theorem runningSums_eraseIdx (hi : i < ws.length) :
    runningSums a (ws.eraseIdx i) =
      (runningSums a ws).take i ++ ((runningSums a ws).drop (i + 1)).map (· - ws[i]) := by
  induction ws generalizing a i with
  | nil => exact absurd hi (not_lt_zero i)
  | cons w _ ih =>
    cases i with
    | zero =>
      rw [runningSums, take_zero, drop_succ_cons, drop_zero, runningSums_add, map_map]
      refine (map_id'' (fun s => ?_) _).symm
      exact Nat.add_sub_cancel s w
    | succ =>
      rw [eraseIdx_cons_succ, runningSums, runningSums, take_succ_cons,
        drop_succ_cons, getElem_cons_succ, cons_append,
        ih (lt_of_succ_lt_succ hi)]

theorem runningSums_set (hi : i < ws.length) (x : Nat) :
    runningSums a (ws.set i x) = (runningSums a ws).take i ++
      ((runningSums a ws).drop i).map (fun s => s - ws[i] + x) := by
  induction ws generalizing a i with
  | nil => exact absurd hi (not_lt_zero i)
  | cons _ _ ih =>
    cases i with
    | zero =>
      rw [set_cons_zero, runningSums, runningSums, take_zero,
        drop_zero, getElem_cons_zero, map_cons, Nat.add_sub_cancel,
        runningSums_add, runningSums_add, map_map]
      congr 1
      refine map_congr_left fun s _ => ?_
      rw [Function.comp_apply, Nat.add_sub_cancel]
    | succ =>
      rw [set_cons_succ, runningSums, runningSums, take_succ_cons,
        drop_succ_cons, getElem_cons_succ, cons_append,
        ih (lt_of_succ_lt_succ hi)]

end Ceph.Lib
