import Mathlib.Data.List.Nodup

set_option autoImplicit false

/-!
# Operations that act on one key of a state

A state is seen through a view at each key.  An operation that belongs to a key
is local if it leaves the view at every other key alone and if what it does at
its own key depends on the view there only.  Local operations with distinct
keys can be run one after the other as if each were run alone.
-/

namespace Ceph.Lib

variable {σ α κ β : Type}

/-- Run one operation after the other; `none` if one of them is not defined. -/
def runAll (f : α → σ → Option σ) : List α → σ → Option σ
  | [], s => some s
  | a :: as, s => (f a s).bind (runAll f as)

/-- The operation of `a` acts on the key `key a` only. -/
structure IsLocal (key : α → κ) (view : σ → κ → β) (f : α → σ → Option σ) : Prop where
  frame : ∀ {a s s'}, f a s = some s' → ∀ k, k ≠ key a → view s' k = view s k
  congr : ∀ {a s t s'}, view s (key a) = view t (key a) → f a s = some s' →
    ∃ t', f a t = some t' ∧ view t' (key a) = view s' (key a)

/-- Local operations with distinct keys that are all defined at `s` can be run
one after the other, and each has the effect that it has at `s`. -/
theorem IsLocal.runAll {key : α → κ} {view : σ → κ → β} {f : α → σ → Option σ}
    (h : IsLocal key view f) {as : List α} {s : σ} (hnodup : (as.map key).Nodup)
    (hdef : ∀ a ∈ as, ∃ s', f a s = some s') :
    ∃ t, runAll f as s = some t ∧ (∀ k, k ∉ as.map key → view t k = view s k) ∧
      ∀ a ∈ as, ∀ s', f a s = some s' → view t (key a) = view s' (key a) := by
  induction as generalizing s with
  | nil => exact ⟨s, rfl, fun _ _ => rfl, by simp⟩
  | cons a as ih =>
    rw [List.map_cons, List.nodup_cons] at hnodup
    obtain ⟨hfresh, hnodup⟩ := hnodup
    obtain ⟨s₁, hs₁⟩ := hdef a List.mem_cons_self
    have hne : ∀ b ∈ as, key b ≠ key a := by
      intro b hb heq
      exact hfresh (heq ▸ List.mem_map_of_mem hb)
    -- at the later keys the first operation has changed nothing
    have hlater : ∀ b ∈ as, ∀ s', f b s = some s' →
        ∃ t', f b s₁ = some t' ∧ view t' (key b) = view s' (key b) :=
      fun b hb s' hs' => h.congr (h.frame hs₁ _ (hne b hb)).symm hs'
    have hdef₁ : ∀ b ∈ as, ∃ t', f b s₁ = some t' := by
      intro b hb
      obtain ⟨s', hs'⟩ := hdef b (List.mem_cons_of_mem _ hb)
      obtain ⟨t', ht', -⟩ := hlater b hb s' hs'
      exact ⟨t', ht'⟩
    obtain ⟨t, ht, hframe, hown⟩ := ih hnodup hdef₁
    refine ⟨t, by simp [Lib.runAll, hs₁, ht], ?_, ?_⟩
    · intro k hk
      rw [List.map_cons, List.mem_cons, not_or] at hk
      rw [hframe k hk.2, h.frame hs₁ k hk.1]
    · intro b hb s' hs'
      obtain heq | hb := List.mem_cons.1 hb
      · subst heq
        rw [hs₁, Option.some.injEq] at hs'
        rw [← hs', hframe _ hfresh]
      · obtain ⟨t', ht', hview⟩ := hlater b hb s' hs'
        rw [hown b hb t' ht', hview]

end Ceph.Lib
