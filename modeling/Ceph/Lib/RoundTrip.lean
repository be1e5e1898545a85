import Mathlib.Order.Nat

set_option autoImplicit false

/-!
# Writers, readers and what is read back

A writer makes a list of tokens if it has enough fuel; a reader takes a value from the front of
a list and returns what is left.  A value makes the round trip through a writer and a reader
when the writer ends, and the reader finds the value and stops at the end of what was written,
whatever follows.  Writers are put one behind the other, and so are round trips.
-/

namespace Ceph.Lib

variable {τ α β : Type}

/-- What is written, given fuel. -/
def Writer (τ : Type) := Nat → Option (List τ)

abbrev Reader (τ α : Type) := List τ → Option (α × List τ)

namespace Writer

def nil : Writer τ := fun _ => some []

/-- One writer behind the other. -/
def append (v w : Writer τ) : Writer τ := fun fuel => (v fuel).bind fun a => (w fuel).map (a ++ ·)

instance : Append (Writer τ) := ⟨append⟩

/-- The writer ends, and this is what it wrote. -/
def Writes (w : Writer τ) (a : List τ) : Prop := ∃ n, ∀ fuel, n ≤ fuel → w fuel = some a

theorem Writes.append {v w : Writer τ} {a b : List τ} (hv : v.Writes a) (hw : w.Writes b) :
    (v ++ w).Writes (a ++ b) := by
  obtain ⟨n, hn⟩ := hv
  obtain ⟨k, hk⟩ := hw
  refine ⟨n + k, fun fuel hfuel => ?_⟩
  show (v fuel).bind _ = _
  rw [hn fuel (by omega), hk fuel (by omega)]
  rfl

end Writer

/-- The value is written, and read back from what was written. -/
def RoundTrip (w : Writer τ) (r : Reader τ α) (a : α) : Prop :=
  ∃ l, w.Writes l ∧ ∀ rest, r (l ++ rest) = some (a, rest)

namespace RoundTrip

theorem pure (a : α) : RoundTrip (Writer.nil : Writer τ) (fun l => some (a, l)) a :=
  ⟨[], ⟨0, fun _ _ => rfl⟩, fun _ => rfl⟩

/-- A second value is written behind the first, and read after it. -/
theorem bind {v w : Writer τ} {r : Reader τ α} {s : α → Reader τ β} {a : α} {b : β}
    (hv : RoundTrip v r a) (hw : RoundTrip w (s a) b) :
    RoundTrip (v ++ w) (fun l => (r l).bind fun res => s res.1 res.2) b := by
  obtain ⟨l, hl, hr⟩ := hv
  obtain ⟨l', hl', hr'⟩ := hw
  refine ⟨l ++ l', hl.append hl', fun rest => ?_⟩
  show (r (l ++ l' ++ rest)).bind _ = _
  rw [List.append_assoc, hr, Option.bind_some, hr']

theorem map {w : Writer τ} {r : Reader τ α} {a : α} (h : RoundTrip w r a) (f : α → β) :
    RoundTrip w (fun l => (r l).bind fun res => some (f res.1, res.2)) (f a) := by
  obtain ⟨l, hl, hr⟩ := h
  refine ⟨l, hl, fun rest => ?_⟩
  show (r (l ++ rest)).bind _ = _
  rw [hr, Option.bind_some]

end RoundTrip

end Ceph.Lib
