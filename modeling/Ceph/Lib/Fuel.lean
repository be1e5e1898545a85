import Mathlib.Order.Nat

set_option autoImplicit false

/-!
# Computations that are given fuel

A loop that need not end is modelled by a function of the fuel that it may use.
`Returns` is total correctness for such a function: from some amount of fuel on
it returns, always the same result, and the result satisfies a postcondition.
The rules follow how such functions are written: a result, a bind, one unit of
fuel for a step.  `Yields` is the same for a computation without fuel.
-/

namespace Ceph.Lib

variable {ε α β : Type}

/-- The computation succeeds, and `P` holds of its result. -/
def Yields (e : Except ε α) (P : α → Prop) : Prop := ∃ a, e = .ok a ∧ P a

theorem ok_bind (a : α) (f : α → Except ε β) : (Except.ok a >>= f) = f a := rfl

variable {a : α} {R : β → Prop}

namespace Yields

variable {e : Except ε α} {P Q : α → Prop}

theorem pure (ha : P a) : Yields (Except.ok a : Except ε α) P := ⟨a, rfl, ha⟩

theorem imp (h : Yields e P) (hPQ : ∀ a, P a → Q a) : Yields e Q := by
  obtain ⟨a, he, ha⟩ := h
  exact ⟨a, he, hPQ a ha⟩

theorem bind {k : α → Except ε β} (h : Yields e P)
    (hk : ∀ a, P a → Yields (k a) R) : Yields (e >>= k) R := by
  obtain ⟨a, rfl, ha⟩ := h
  exact hk a ha

theorem map {f : α → β} (h : Yields e P) (hf : ∀ a, P a → R (f a)) : Yields (e.map f) R := by
  obtain ⟨a, rfl, ha⟩ := h
  exact ⟨f a, rfl, hf a ha⟩

/-- A loop over an interval keeps an invariant that speaks of the next position. -/
theorem foldlM_range' {f : β → Nat → Except ε β} {I : Nat → β → Prop} :
    ∀ (n start : Nat) (b : β),
      (∀ i b, start ≤ i → i < start + n → I i b → Yields (f b i) (I (i + 1))) → I start b →
      Yields ((List.range' start n).foldlM f b) (I (start + n))
  | 0, _, _, _, h => pure h
  | n + 1, start, b, hstep, h => by
    rw [show start + (n + 1) = start + 1 + n by omega]
    refine (hstep start b le_rfl (by omega) h).bind fun b' hb' => ?_
    exact foldlM_range' n (start + 1) b' (fun i b hi hlt => hstep i b (by omega) (by omega)) hb'

end Yields

/-- With enough fuel the computation returns one result, and `P` holds of it. -/
def Returns (f : Nat → Except ε α) (P : α → Prop) : Prop :=
  ∃ a n, (∀ fuel, n ≤ fuel → f fuel = .ok a) ∧ P a

namespace Returns

variable {f : Nat → Except ε α} {P Q : α → Prop}

theorem of_ok (h : ∀ fuel, f fuel = .ok a) (ha : P a) : Returns f P :=
  ⟨a, 0, fun fuel _ => h fuel, ha⟩

theorem pure (ha : P a) : Returns (fun _ => (Except.ok a : Except ε α)) P := of_ok (fun _ => rfl) ha

theorem of_yields {e : Except ε α} (h : Yields e P) : Returns (fun _ => e) P := by
  obtain ⟨_, he, ha⟩ := h
  exact of_ok (fun _ => he) ha

theorem imp (h : Returns f P) (hPQ : ∀ a, P a → Q a) : Returns f Q := by
  obtain ⟨a, n, hf, ha⟩ := h
  exact ⟨a, n, hf, hPQ a ha⟩

/-- What is returned is passed on. -/
theorem bind {k : Nat → α → Except ε β} (h : Returns f P)
    (hk : ∀ a, P a → Returns (fun fuel => k fuel a) R) :
    Returns (fun fuel => f fuel >>= k fuel) R := by
  obtain ⟨a, n, hf, ha⟩ := h
  obtain ⟨b, n', hb, hR⟩ := hk a ha
  refine ⟨b, max n n', fun fuel hfuel => ?_, hR⟩
  dsimp only
  rw [hf fuel (le_trans (le_max_left _ _) hfuel)]
  exact hb fuel (le_trans (le_max_right _ _) hfuel)

theorem ite {c : Prop} [Decidable c] {g : Nat → Except ε α} (hf : c → Returns f P)
    (hg : ¬ c → Returns g P) : Returns (fun fuel => if c then f fuel else g fuel) P := by
  by_cases h : c
  · simpa only [if_pos h] using hf h
  · simpa only [if_neg h] using hg h

/-- A loop over a list keeps an invariant. -/
theorem foldlM {f : Nat → β → α → Except ε β} {I : β → Prop} :
    ∀ (l : List α) (b : β),
      (∀ a ∈ l, ∀ b, I b → Returns (fun fuel => f fuel b a) I) → I b →
      Returns (fun fuel => l.foldlM (f fuel) b) I
  | [], _, _, h => pure h
  | a :: l, b, hstep, h =>
    (hstep a List.mem_cons_self b h).bind fun b' hb' =>
      foldlM l b' (fun a' ha' => hstep a' (List.mem_cons_of_mem a ha')) hb'

/-- One unit of fuel is spent on a step. -/
theorem of_succ {g : Nat → Except ε α} (hfg : ∀ fuel, f (fuel + 1) = g fuel)
    (h : Returns g P) : Returns f P := by
  obtain ⟨a, n, hg, ha⟩ := h
  refine ⟨a, n + 1, fun fuel hfuel => ?_, ha⟩
  cases fuel with
  | zero => exact absurd hfuel (Nat.not_succ_le_zero n)
  | succ fuel =>
    rw [hfg]
    exact hg fuel (Nat.le_of_succ_le_succ hfuel)

end Returns

end Ceph.Lib
