import Ceph.Mon.Paxos.Transitions

set_option autoImplicit false

/-!
# Stores that follow one history of commits

Trims travel inside the committed values, so how far a store is trimmed is a
function of what it has committed.  This module states when a store follows a
history of committed values, and shows that committing the next version, or a
run of consecutive versions as `Paxos::store_state` does, keeps it so.
-/

namespace Ceph.Mon.Paxos

open List Store

/-! ## Transactions -/

@[simp] theorem newFirst_nil (f : Nat) : newFirst [] f = f := rfl

@[simp] theorem newFirst_put (v : Nat) (x : Tx) (f : Nat) :
    newFirst (.putFirstCommitted v :: x) f = newFirst x v := rfl

@[simp] theorem newFirst_service (d : Nat) (x : Tx) (f : Nat) :
    newFirst (.service d :: x) f = newFirst x f := rfl

/-- A transaction either leaves `first_committed` alone or sets it without
looking at it. -/
theorem newFirst_cases (x : Tx) :
    (∀ f, newFirst x f = f) ∨ ∀ f f', newFirst x f = newFirst x f' := by
  induction x with
  | nil => exact .inl fun f => rfl
  | cons op _ ih =>
    cases op with
    | service => exact ih
    | erase => exact ih
    | putFirstCommitted => exact .inr fun f f' => by simp

namespace Store

@[simp] theorem applyTx_nil (st : Store) : applyTx [] st = st := rfl

@[simp] theorem applyTx_cons (op : StoreOp) (x : Tx) (st : Store) :
    applyTx (op :: x) st = applyTx x (applyOp st op) := rfl

theorem applyTx_firstCommitted (x : Tx) (st : Store) :
    (applyTx x st).firstCommitted = newFirst x st.firstCommitted := by
  induction x generalizing st with
  | nil => rfl
  | cons op _ ih =>
    rw [applyTx_cons, ih]
    cases op <;> rfl

/-- The operations of Paxos on its values only erase. -/
theorem applyTx_values (x : Tx) (st : Store) (w : Nat) :
    (applyTx x st).values w = if StoreOp.erase w ∈ x then none else st.values w := by
  induction x generalizing st w with
  | nil => simp
  | cons op _ ih =>
    rw [applyTx_cons, ih]
    cases op with
    | service => simp [applyOp]
    | putFirstCommitted => simp [applyOp]
    | erase v =>
      by_cases hw : w = v
      · simp [applyOp, hw]
      · simp [applyOp, hw]

/-- What a transaction leaves alone. -/
theorem applyTx_rest (x : Tx) (st : Store) :
    (applyTx x st).lastPn = st.lastPn ∧ (applyTx x st).acceptedPn = st.acceptedPn ∧
      (applyTx x st).lastCommitted = st.lastCommitted ∧
      (applyTx x st).pendingV = st.pendingV ∧ (applyTx x st).pendingPn = st.pendingPn := by
  induction x generalizing st with
  | nil => simp
  | cons op _ ih =>
    rw [applyTx_cons]
    obtain ⟨h1, h2, h3, h4, h5⟩ := ih (applyOp st op)
    rw [h1, h2, h3, h4, h5]
    cases op <;> simp [applyOp]

theorem putValue_self {st : Store} {v : Nat} {x : Tx} (h : st.values v = some x) :
    putValue v x st = st := by
  unfold putValue
  rw [← h, Function.update_eq_self]

end Store

/-! ## Histories -/

/-- `x` may follow on version `v - 1` of a store whose `first_committed` is `f`:
it never trims its own version away, never moves `first_committed` back, and
erases exactly what it trims. -/
structure WfTx (v f : Nat) (x : Tx) : Prop where
  pos : 1 ≤ newFirst x f
  mono : f ≤ newFirst x f
  le : newFirst x f ≤ v
  erase : ∀ w, StoreOp.erase w ∈ x → w < newFirst x f
  trims : ∀ w, 1 ≤ w → f ≤ w → w < newFirst x f → StoreOp.erase w ∈ x

/-- The values that have been committed, by version. -/
abbrev Commits := Nat → Tx → Prop

/-- `FirstAt C v f`: a store that has committed versions `1, …, v` of a history
`C` has `first_committed = f`. -/
inductive FirstAt (C : Commits) : Nat → Nat → Prop where
  | zero : FirstAt C 0 0
  | succ {v f : Nat} {x : Tx} (h : FirstAt C v f) (hx : C (v + 1) x) :
      FirstAt C (v + 1) (newFirst x f)

/-- Take off the `put first_committed 1` that `begin` puts in front each time it
proposes the first version. -/
def undress : Tx → Tx
  | .putFirstCommitted 1 :: x => undress x
  | x => x

/-- Two values for version `v` are the same transaction; for version 1, up to the
repeated `put first_committed 1`. -/
def SameValue (v : Nat) (x y : Tx) : Prop :=
  if v = 1 then undress x = undress y else x = y

/-- `x` may become the value of version `v + 1` of the history `C`. -/
def Proposable (C : Commits) (v : Nat) (x : Tx) : Prop := ∃ f, FirstAt C v f ∧ WfTx (v + 1) f x

/-- A history of committed values: one value for each version, each of which may
follow on the version before. -/
structure HistoryOk (C : Commits) : Prop where
  same : ∀ v x y, C v x → C v y → SameValue v x y
  wf : ∀ v x, C (v + 1) x → Proposable C v x

theorem sameValue_equivalence (v : Nat) : Equivalence (SameValue v) := by
  unfold SameValue
  split
  · exact ⟨fun _ => rfl, fun h => h.symm, fun h h' => h.trans h'⟩
  · exact ⟨fun _ => rfl, fun h => h.symm, fun h h' => h.trans h'⟩

theorem FirstAt.mono {C C' : Commits} (hC : ∀ v x, C v x → C' v x) {v f : Nat}
    (h : FirstAt C v f) : FirstAt C' v f := by
  induction h with
  | zero => exact .zero
  | succ _ hx ih => exact .succ ih (hC _ _ hx)

theorem Proposable.mono {C C' : Commits} (hC : ∀ v x, C v x → C' v x) {v : Nat} {x : Tx}
    (h : Proposable C v x) : Proposable C' v x := by
  obtain ⟨f, hf, hwf⟩ := h
  exact ⟨f, hf.mono hC, hwf⟩

section History

variable {C : Commits} {f v lo a : Nat} {x : Tx} {st : Store} {p : Monitor}

theorem FirstAt.eq_zero (h : FirstAt C 0 f) : f = 0 := by
  cases h
  rfl

/-- `first_committed` is determined by the version: values that count as the same
move it alike, because the first version always sets it to 1. -/
theorem HistoryOk.first_unique (hC : HistoryOk C) {v f f' : Nat} (h : FirstAt C v f)
    (h' : FirstAt C v f') : f = f' := by
  induction v generalizing f f' with
  | zero => rw [h.eq_zero, h'.eq_zero]
  | succ v ih =>
    cases h with
    | succ h hx =>
      rename_i f₀ x
      cases h' with
      | succ h' hx' =>
        rename_i f₀' x'
        obtain rfl := ih h h'
        obtain ⟨_, hf₁, hwf⟩ := hC.wf v x hx
        obtain ⟨_, hf₂, hwf'⟩ := hC.wf v x' hx'
        obtain rfl := ih h hf₁
        obtain rfl := ih h hf₂
        have hsame := hC.same _ _ _ hx hx'
        unfold SameValue at hsame
        split at hsame
        next _ =>
          have h1 := hwf.pos
          have h2 := hwf.le
          have h3 := hwf'.pos
          have h4 := hwf'.le
          omega
        · rw [hsame]

theorem HistoryOk.wf_at (hC : HistoryOk C) (hx : Proposable C v x) (hf : FirstAt C v f) :
    WfTx (v + 1) f x := by
  obtain ⟨_, hf', _⟩ := hx
  rwa [hC.first_unique hf hf']

theorem HistoryOk.first_le (hC : HistoryOk C) (h : FirstAt C v f) : f ≤ v := by
  cases h with
  | zero => exact le_refl 0
  | succ h hx => exact (hC.wf_at (hC.wf _ _ hx) h).le

theorem HistoryOk.first_pos (hC : HistoryOk C) (h : FirstAt C v f) (hv : 1 ≤ v) : 1 ≤ f := by
  cases h with
  | zero => omega
  | succ h hx => exact (hC.wf_at (hC.wf _ _ hx) h).pos

/-- One more committed value. -/
def extend (C : Commits) (v : Nat) (x : Tx) : Commits := fun w y => C w y ∨ w = v ∧ y = x

/-- A history goes on with a value for the first version it does not have. -/
theorem HistoryOk.extend (hC : HistoryOk C) (hfree : ∀ y, ¬ C (v + 1) y) (hx : Proposable C v x) :
    HistoryOk (extend C (v + 1) x) := by
  have hmono : ∀ w y, C w y → Paxos.extend C (v + 1) x w y := fun _ _ => .inl
  refine ⟨?_, ?_⟩
  · rintro w y z (hy | ⟨rfl, rfl⟩) (hz | ⟨hw, rfl⟩)
    · exact hC.same w y z hy hz
    · exact absurd (hw ▸ hy) (hfree y)
    · exact absurd hz (hfree z)
    · exact (sameValue_equivalence _).refl _
  · rintro w y (hy | ⟨hw, rfl⟩)
    · exact (hC.wf w y hy).mono hmono
    · obtain rfl := Nat.succ.inj hw
      exact hx.mono hmono

/-! ## Stores -/

/-- The store follows the history `C` up to version `v`. -/
structure StoreAt (C : Commits) (v : Nat) (st : Store) : Prop where
  first : FirstAt C v st.firstCommitted
  held : ∀ w, st.firstCommitted ≤ w → 1 ≤ w → w ≤ v → ∃ x, st.values w = some x ∧ C w x
  above : ∀ w, v + 1 < w → st.values w = none
  below : ∀ w, 1 ≤ w → w < st.firstCommitted → st.values w = none

theorem StoreAt.mono {C' : Commits} (hC : ∀ v x, C v x → C' v x) (h : StoreAt C v st) :
    StoreAt C' v st := by
  refine ⟨h.first.mono hC, ?_, h.above, h.below⟩
  intro w hf hpos hle
  obtain ⟨x, hx, hCx⟩ := h.held w hf hpos hle
  exact ⟨x, hx, hC _ _ hCx⟩

/-- Keys other than the values and `first_committed` do not matter. -/
theorem StoreAt.congr {st' : Store} (h : StoreAt C v st)
    (hf : st'.firstCommitted = st.firstCommitted) (hv : st'.values = st.values) :
    StoreAt C v st' := by
  refine ⟨hf ▸ h.first, ?_, ?_, ?_⟩
  · rw [hf, hv]
    exact h.held
  · rw [hv]
    exact h.above
  · rw [hf, hv]
    exact h.below

/-- Writing the version that follows keeps what was there. -/
theorem StoreAt.putValue (hC : HistoryOk C) (h : StoreAt C v st) (x : Tx) :
    StoreAt C v (st.putValue (v + 1) x) := by
  refine ⟨h.first, ?_, ?_, ?_⟩
  · intro w hf hpos hle
    obtain ⟨y, hy, hC⟩ := h.held w hf hpos hle
    refine ⟨y, ?_, hC⟩
    simpa [Store.putValue, show w ≠ v + 1 by omega] using hy
  · intro w hw
    simpa [Store.putValue, show w ≠ v + 1 by omega] using h.above w hw
  · intro w hpos hw
    have hle := hC.first_le h.first
    have hne : w ≠ v + 1 := by
      have : w < st.firstCommitted := hw
      omega
    simpa [Store.putValue, hne] using h.below w hpos hw

/-- Committing the next version of the history. -/
theorem StoreAt.commitVersion (hC : HistoryOk C) (h : StoreAt C v st) (hx : C (v + 1) x) :
    StoreAt C (v + 1) (st.commitVersion (v + 1, x)) := by
  have hwf := hC.wf_at (hC.wf v x hx) h.first
  have hfirst : (st.commitVersion (v + 1, x)).firstCommitted = newFirst x st.firstCommitted :=
    applyTx_firstCommitted x _
  have hval : ∀ w, (st.commitVersion (v + 1, x)).values w =
      if StoreOp.erase w ∈ x then none else (st.putValue (v + 1) x).values w :=
    applyTx_values x _
  refine ⟨hfirst ▸ h.first.succ hx, ?_, ?_, ?_⟩
  · intro w hf hpos hle
    rw [hfirst] at hf
    -- what is still committed has not been erased
    have hkept : StoreOp.erase w ∉ x := fun he => by
      have := hwf.erase w he
      omega
    rw [hval w, if_neg hkept]
    by_cases hw : w = v + 1
    · subst hw
      exact ⟨x, by simp [Store.putValue], hx⟩
    · obtain ⟨y, hy, hCy⟩ := h.held w (hwf.mono.trans hf) hpos (by omega)
      exact ⟨y, by simpa [Store.putValue, hw] using hy, hCy⟩
  · intro w hw
    rw [hval w]
    split
    · rfl
    · simpa [Store.putValue, show w ≠ v + 1 by omega] using h.above w (by omega)
  · intro w hpos hw
    rw [hfirst] at hw
    rw [hval w]
    split
    · rfl
    next hkept =>
      have hlt : w < st.firstCommitted := by
        by_contra hge
        exact hkept (hwf.trims w hpos (not_lt.1 hge) hw)
      have hle := hC.first_le h.first
      simpa [Store.putValue, show w ≠ v + 1 by omega] using h.below w hpos hlt

/-! ## Runs of consecutive versions -/

/-- `vals` lists the versions `lo, …, hi` with values of the history. -/
def Segment (C : Commits) : Nat → Nat → List (Nat × Tx) → Prop
  | lo, hi, [] => lo = hi + 1
  | lo, hi, p :: ps => p.1 = lo ∧ lo ≤ hi ∧ C lo p.2 ∧ Segment C (lo + 1) hi ps

theorem Segment.mono {C' : Commits} (hC : ∀ v x, C v x → C' v x) {vals : List (Nat × Tx)}
    {lo hi : Nat} (h : Segment C lo hi vals) : Segment C' lo hi vals := by
  induction vals generalizing lo hi with
  | nil => exact h
  | cons _ _ ih => exact ⟨h.1, h.2.1, hC _ _ h.2.2.1, ih h.2.2.2⟩

theorem Segment.mem_iff {vals : List (Nat × Tx)} {lo hi : Nat} (h : Segment C lo hi vals) :
    ∀ v, (∃ x, (v, x) ∈ vals) ↔ lo ≤ v ∧ v ≤ hi := by
  induction vals generalizing lo hi with
  | nil =>
    intro v
    simp only [Segment] at h
    simp
    omega
  | cons p _ ih =>
    intro v
    obtain ⟨hp, _, -, hps⟩ := h
    have hrec := ih hps v
    constructor
    · rintro ⟨x, hx⟩
      rcases mem_cons.1 hx with rfl | hx
      · omega
      · have := hrec.1 ⟨x, hx⟩
        omega
    · rintro ⟨_, hhi⟩
      by_cases hv : v = lo
      · subst hv
        exact ⟨p.2, by simp [← hp]⟩
      · obtain ⟨x, hx⟩ := hrec.2 ⟨by omega, hhi⟩
        exact ⟨x, mem_cons_of_mem _ hx⟩

/-- Committing a version leaves nothing uncommitted behind. -/
theorem StoreAt.commitVersion_next (h : StoreAt C v st) :
    (st.commitVersion (v + 1, x)).values (v + 1 + 1) = none := by
  rw [Store.commitVersion, Store.applyTx_values]
  split
  · rfl
  · simpa [Store.putValue] using h.above (v + 1 + 1) (by omega)

/-- Committing a run of consecutive versions, the loop of `Paxos::store_state`. -/
theorem StoreAt.commitSegment (hC : HistoryOk C) {vals : List (Nat × Tx)} {v hi : Nat}
    {st : Store} (h : StoreAt C v st) (hseg : Segment C (v + 1) hi vals) :
    StoreAt C hi (vals.foldl Store.commitVersion st) ∧
      (v < hi → (vals.foldl Store.commitVersion st).values (hi + 1) = none) := by
  induction vals generalizing v hi st with
  | nil =>
    simp only [Segment] at hseg
    obtain rfl : v = hi := by omega
    exact ⟨h, fun hlt => absurd hlt (lt_irrefl v)⟩
  | cons p ps ih =>
    obtain ⟨hp, _, hCp, hps⟩ := hseg
    have hp' : p = (v + 1, p.2) := by rw [← hp]
    rw [hp']
    obtain ⟨hst, hnext⟩ := ih (h.commitVersion hC hCp) hps
    refine ⟨hst, fun _ => ?_⟩
    by_cases hlt : v + 1 < hi
    · exact hnext hlt
    · obtain rfl : hi = v + 1 := by omega
      cases ps with
      | nil => exact h.commitVersion_next
      | cons =>
        have := hps.2.1
        omega

/-- The versions a store holds above `a` form a run of consecutive versions. -/
theorem segment_filterMap {f : Nat → Option Tx} {hi : Nat} (hlo : lo ≤ hi) (k s : Nat)
    (hle : s + k = hi + 1) (hbelow : ∀ w, s ≤ w → w < lo → f w = none)
    (hheld : ∀ w, s ≤ w → lo ≤ w → w ≤ hi → ∃ x, f w = some x ∧ C w x) :
    Segment C (max s lo) hi ((List.range' s k).filterMap fun v => (f v).map (v, ·)) := by
  induction k generalizing s with
  | zero =>
    simp only [range'_zero, filterMap_nil, Segment]
    omega
  | succ _ ih =>
    have hrec := ih (s + 1) (by omega) (fun w hw => hbelow w (by omega))
      (fun w hw => hheld w (by omega))
    rw [range'_succ, filterMap_cons]
    by_cases hlt : s < lo
    · rw [hbelow s (le_refl s) hlt]
      simpa [Nat.max_eq_right hlt, show max s lo = lo by omega] using hrec
    · obtain ⟨x, hx, hCx⟩ := hheld s (le_refl s) (by omega) (by omega)
      rw [hx]
      rw [show max (s + 1) lo = s + 1 by omega] at hrec
      rw [show max s lo = s by omega]
      exact ⟨rfl, by omega, hCx, hrec⟩

theorem sharedValues_segment (hC : HistoryOk C) (h : StoreAt C p.lastCommitted p.store)
    (ha : a < p.lastCommitted) :
    Segment C (max (a + 1) p.store.firstCommitted) p.lastCommitted (sharedValues p a) := by
  have hle := hC.first_le h.first
  refine segment_filterMap hle _ _ (by omega) ?_ ?_
  · intro w hw hlt
    exact h.below w (by omega) hlt
  · intro w hw hge hhi
    exact h.held w hge (by omega) hhi

/-! ## Storing what a peer shares -/

/-- The values of a COMMIT or LAST for committed versions: a run of consecutive
versions that ends at its `last_committed`, and after it at most the uncommitted
value that comes next. -/
def Carries (C : Commits) (lo : Nat) (m : MMonPaxos) : Prop :=
  ∃ vals, Segment C lo m.lastCommitted vals ∧
    (m.values = vals ∨ ∃ x, m.values = vals ++ [(m.lastCommitted + 1, x)])

theorem Segment.dropWhile_le {vals : List (Nat × Tx)} {lo hi : Nat} (h : Segment C lo hi vals) :
    (a < hi → lo ≤ a + 1 → Segment C (a + 1) hi (vals.dropWhile (·.1 ≤ a))) ∧
      (hi ≤ a → vals.dropWhile (·.1 ≤ a) = []) := by
  induction vals generalizing lo hi with
  | nil =>
    simp only [Segment] at h
    refine ⟨fun hlt hle => ?_, fun _ => rfl⟩
    omega
  | cons p _ ih =>
    obtain ⟨hp, hle, hCp, hps⟩ := h
    obtain ⟨ih1, ih2⟩ := ih hps
    refine ⟨?_, ?_⟩
    · intro hlt _
      by_cases hpa : p.1 ≤ a
      · rw [dropWhile_cons_of_pos (by simpa using hpa)]
        exact ih1 hlt (by omega)
      · rw [dropWhile_cons_of_neg (by simpa using hpa)]
        obtain rfl : lo = a + 1 := by omega
        exact ⟨hp, hle, hCp, hps⟩
    · intro hhi
      rw [dropWhile_cons_of_pos (by simp; omega)]
      exact ih2 hhi

/-- What `Paxos::store_state` takes out of a message: everything above our own
`last_committed`, or nothing. -/
theorem Carries.toStore {m : MMonPaxos} (h : Carries C lo m) :
    (lo ≤ a + 1 → a < m.lastCommitted → Segment C (a + 1) m.lastCommitted (toStore m a)) ∧
    (¬ (lo ≤ a + 1 ∧ a < m.lastCommitted) → Paxos.toStore m a = []) := by
  obtain ⟨vals, hseg, hvals⟩ := h
  -- after the run comes at most one value, above `m.lastCommitted`
  obtain ⟨rest, hrest, hmv⟩ : ∃ rest : List (Nat × Tx),
      (rest = [] ∨ ∃ x, rest = [(m.lastCommitted + 1, x)]) ∧ m.values = vals ++ rest := by
    rcases hvals with hv | ⟨x, hv⟩
    · exact ⟨[], .inl rfl, by simpa using hv⟩
    · exact ⟨[(m.lastCommitted + 1, x)], .inr ⟨x, rfl⟩, hv⟩
  have htake : ∀ l : List (Nat × Tx), (∀ p ∈ l, p.1 ≤ m.lastCommitted) →
      (l ++ rest).takeWhile (·.1 ≤ m.lastCommitted) = l := by
    intro l hl
    rw [takeWhile_append_of_pos (by simpa using fun a b => hl (a, b))]
    rcases hrest with rfl | ⟨x, rfl⟩ <;> simp
  obtain ⟨hdrop, hnone⟩ := hseg.dropWhile_le
  have hfirst : ∀ p ps, m.values = p :: ps → p.1 = lo := by
    intro p ps hp
    cases vals with
    | nil =>
      rw [hp] at hmv
      rcases hrest with rfl | ⟨x, rfl⟩
      · simp at hmv
      · rw [(List.cons.inj hmv).1, hseg]
    | cons =>
      rw [hp] at hmv
      rw [(List.cons.inj hmv).1]
      exact hseg.1
  unfold Paxos.toStore
  split
  next hnil =>
    refine ⟨fun hlo hlt => ?_, fun _ => rfl⟩
    have hv : vals = [] := (append_eq_nil_iff.1 (hmv.symm.trans hnil)).1
    subst hv
    simp only [Segment] at hseg
    omega
  next p ps hcons =>
    have hp := hfirst p ps hcons
    rw [← hcons, hmv]
    split
    · refine ⟨fun hlo hlt => by omega, fun _ => rfl⟩
    next hlo =>
      refine ⟨fun _ hlt => ?_, fun hn => ?_⟩
      · have hds := hdrop hlt (by omega)
        have hne : vals.dropWhile (·.1 ≤ a) ≠ [] := by
          intro hnil
          rw [hnil] at hds
          simp only [Segment] at hds
          omega
        rw [dropWhile_append, if_neg (by simpa using hne),
          htake _ fun p hp => ((hds.mem_iff p.1).1 ⟨p.2, hp⟩).2]
        exact hds
      · rw [dropWhile_append, if_pos (by simp [hnone (by omega)])]
        rcases hrest with rfl | ⟨x, rfl⟩
        · rfl
        · by_cases hxa : m.lastCommitted + 1 ≤ a <;> simp [hxa]

theorem Segment.getLast_eq {vals : List (Nat × Tx)} {lo hi : Nat} (h : Segment C lo hi vals)
    (hle : lo ≤ hi) : ∃ x, vals.getLast? = some (hi, x) := by
  induction vals generalizing lo hi with
  | nil =>
    simp only [Segment] at h
    omega
  | cons p ps ih =>
    obtain ⟨_, -, -, hps⟩ := h
    by_cases hlt : lo + 1 ≤ hi
    · obtain ⟨x, hx⟩ := ih hps hlt
      exact ⟨x, by rw [getLast?_cons, hx]; rfl⟩
    · cases ps with
      | nil =>
        refine ⟨p.2, ?_⟩
        rw [getLast?_singleton, show hi = p.1 by omega]
      | cons =>
        have := hps.2.1
        omega

/-- Keys that committing a run of versions leaves alone. -/
theorem foldl_commitVersion_rest (vals : List (Nat × Tx)) (st : Store) :
    (vals.foldl commitVersion st).lastPn = st.lastPn ∧
      (vals.foldl commitVersion st).acceptedPn = st.acceptedPn ∧
      (vals.foldl commitVersion st).lastCommitted = st.lastCommitted ∧
      (vals.foldl commitVersion st).pendingV = st.pendingV ∧
      (vals.foldl commitVersion st).pendingPn = st.pendingPn := by
  induction vals generalizing st with
  | nil => simp
  | cons p _ ih =>
    obtain ⟨h1, h2, h3, h4, h5⟩ := ih (st.commitVersion p)
    obtain ⟨k1, k2, k3, k4, k5⟩ := applyTx_rest p.2 (st.putValue p.1 p.2)
    rw [foldl_cons, h1, h2, h3, h4, h5]
    exact ⟨k1, k2, k3, k4, k5⟩

/-- The state after `Paxos::store_state` has committed up to `hi`. -/
def stored (hi : Nat) (st : Store) (p : Monitor) : Monitor :=
  { p with
    store := st
    lastCommitted := hi
    firstCommitted := st.firstCommitted
    uncommittedV := if p.uncommittedV ≠ 0 ∧ p.uncommittedV ≤ hi then 0 else p.uncommittedV
    uncommittedPn := if p.uncommittedV ≠ 0 ∧ p.uncommittedV ≤ hi then 0 else p.uncommittedPn
    uncommittedValue :=
      if p.uncommittedV ≠ 0 ∧ p.uncommittedV ≤ hi then none else p.uncommittedValue }

/-- `Paxos::store_state` either finds nothing to do or commits every version up to
the sender's `last_committed`. -/
theorem storeState_spec (hC : HistoryOk C) {m : MMonPaxos} (hm : Carries C lo m)
    (hst : StoreAt C p.lastCommitted p.store) :
    (¬ (lo ≤ p.lastCommitted + 1 ∧ p.lastCommitted < m.lastCommitted) ∧ storeState m p = p) ∨
      (lo ≤ p.lastCommitted + 1 ∧ p.lastCommitted < m.lastCommitted ∧
        ∃ st : Store, storeState m p = stored m.lastCommitted st p ∧
          StoreAt C m.lastCommitted st ∧ st.values (m.lastCommitted + 1) = none ∧
          st.lastCommitted = m.lastCommitted ∧
          st.lastPn = p.store.lastPn ∧ st.acceptedPn = p.store.acceptedPn ∧
          st.pendingV = p.store.pendingV ∧ st.pendingPn = p.store.pendingPn) := by
  obtain ⟨htake, hnone⟩ := hm.toStore
  by_cases hdo : lo ≤ p.lastCommitted + 1 ∧ p.lastCommitted < m.lastCommitted
  · right
    have hseg := htake hdo.1 hdo.2
    obtain ⟨_, hx⟩ := hseg.getLast_eq (by omega)
    have hst' : StoreAt C p.lastCommitted { p.store with lastCommitted := m.lastCommitted } :=
      hst.congr rfl rfl
    obtain ⟨hfin, hnext⟩ := hst'.commitSegment hC hseg
    refine ⟨hdo.1, hdo.2, _, ?_, hfin, hnext hdo.2, ?_⟩
    · unfold storeState
      rw [hx]
      rfl
    · obtain ⟨k1, k2, k3, k4, k5⟩ := foldl_commitVersion_rest (toStore m p.lastCommitted)
        { p.store with lastCommitted := m.lastCommitted }
      exact ⟨k3, k1, k2, k4, k5⟩
  · left
    refine ⟨hdo, ?_⟩
    unfold storeState
    rw [hnone hdo]
    rfl

/-! ## Values that are proposed -/

theorem sameValue_dressValue (lc : Nat) (x : Tx) : SameValue (lc + 1) x (dressValue lc x) := by
  unfold SameValue dressValue
  by_cases h : lc = 0
  · simp [h, undress]
  · simp [h]

/-- A learned value may be proposed again. -/
theorem Proposable.dressValue {lc : Nat} (h : Proposable C lc x) :
    Proposable C lc (dressValue lc x) := by
  unfold Paxos.dressValue
  split
  next hlc =>
    subst hlc
    obtain ⟨_, hf, hwf⟩ := h
    obtain rfl := hf.eq_zero
    have hfirst : newFirst x 1 = newFirst x 0 := by
      rcases newFirst_cases x with hid | hconst
      · have := hwf.pos
        rw [hid] at this
        omega
      · exact hconst 1 0
    refine ⟨0, hf, ?_, ?_, ?_, ?_, ?_⟩ <;> rw [newFirst_put, hfirst]
    · exact hwf.pos
    · exact hwf.mono
    · exact hwf.le
    · intro w hw
      exact hwf.erase w (by simpa using hw)
    · intro w hpos hge hlt
      exact mem_cons_of_mem _ (hwf.trims w hpos hge hlt)
  · exact h

theorem newFirst_append (x y : Tx) (f : Nat) : newFirst (x ++ y) f = newFirst y (newFirst x f) := by
  unfold newFirst
  rw [foldl_append]

/-- The transaction of `Paxos::propose_pending`, trim included, may follow on
what its leader has committed. -/
theorem pendingTx_proposable (hC : HistoryOk C) {data : Nat} {trim : Option TrimConf}
    (h : StoreAt C p.lastCommitted p.store) (hf : p.firstCommitted = p.store.firstCommitted) :
    Proposable C p.lastCommitted (dressValue p.lastCommitted (pendingTx data trim p)) := by
  have hfirst : FirstAt C p.lastCommitted p.firstCommitted := hf ▸ h.first
  have hle := hC.first_le hfirst
  by_cases hlc : p.lastCommitted = 0
  · -- nothing to trim yet, and `begin` sets `first_committed`
    have hf0 : p.firstCommitted = 0 := by omega
    have hops : pendingTx data trim p = [.service data] := by
      unfold pendingTx
      cases trim with
      | none => rfl
      | some => simp [trimOps, shouldTrim, hlc]
    rw [hops]
    refine ⟨p.firstCommitted, hfirst, ?_⟩
    unfold Paxos.dressValue
    rw [if_pos hlc]
    refine ⟨?_, ?_, ?_, ?_, ?_⟩ <;> simp <;> omega
  · have hpos := hC.first_pos hfirst (by omega)
    refine ⟨p.firstCommitted, hfirst, ?_⟩
    unfold Paxos.dressValue
    rw [if_neg hlc]
    -- without a trim, `first_committed` stays
    have hstay : WfTx (p.lastCommitted + 1) p.firstCommitted [.service data] :=
      ⟨hpos, by simp, by simp; omega, by simp, by simp⟩
    unfold pendingTx
    cases trim with
    | none => exact hstay
    | some conf =>
      dsimp only
      unfold trimOps
      split
      next _ =>
        have hend : trimEnd conf p.firstCommitted p.lastCommitted ≤ p.lastCommitted := by
          unfold trimEnd
          omega
        have hnew : newFirst (.service data :: ((List.range' p.firstCommitted
                (trimEnd conf p.firstCommitted p.lastCommitted - p.firstCommitted)).map .erase ++
              [.putFirstCommitted (trimEnd conf p.firstCommitted p.lastCommitted)]))
            p.firstCommitted = trimEnd conf p.firstCommitted p.lastCommitted := by
          rw [newFirst_service, newFirst_append]
          rfl
        refine ⟨?_, ?_, ?_, ?_, ?_⟩ <;> rw [hnew]
        · omega
        · omega
        · omega
        · intro _ hw
          simp at hw
          omega
        · simp
          omega
      · exact hstay

end History

end Ceph.Mon.Paxos
