import Mathlib.Order.Interval.Finset.Nat

set_option autoImplicit false

/-!
# The unused parts of a blob (`bluestore_blob_t` of os/bluestore/bluestore_types.h)

A blob remembers in a word of 16 bits which of its 16 chunks have never been
written.  Ranges are rounded inwards where they become unused and outwards where
they are used or asked for.
-/

namespace Ceph.BlueStore

open Finset

def roundUpTo (n d : Nat) : Nat := if n % d ≠ 0 then n + d - n % d else n

/-- The fields of a blob that the three functions read; `unused` holds the
positions of the bits that are set. -/
structure Blob where
  logicalLength : Nat
  compressed : Bool := false
  unused : Finset Nat := ∅
  hasUnused : Bool := false
  deriving DecidableEq

namespace Blob

def chunkSize (b : Blob) : Nat := b.logicalLength / 16

/-- What is asserted about a range, and that the chunk size can divide. -/
def Fits (b : Blob) (offset length : Nat) : Prop :=
  b.compressed = false ∧ b.logicalLength % 16 = 0 ∧ offset + length ≤ b.logicalLength ∧
    0 < b.chunkSize
  deriving Decidable

/-- The chunks that a range touches. -/
def touched (b : Blob) (offset length : Nat) : Finset Nat :=
  Ico (offset / b.chunkSize) (roundUpTo (offset + length) b.chunkSize / b.chunkSize)

def isUnused (b : Blob) (offset length : Nat) : Option Bool :=
  if b.hasUnused then
    if b.Fits offset length then some (decide (b.touched offset length ⊆ b.unused)) else none
  else some false

def addUnused (b : Blob) (offset length : Nat) : Option Blob :=
  if b.Fits offset length then
    let first := roundUpTo offset b.chunkSize / b.chunkSize
    let last := (offset + length) / b.chunkSize
    some { b with
      unused := b.unused ∪ Ico first last
      hasUnused := b.hasUnused || decide (first ≠ last) }
  else none

def markUsed (b : Blob) (offset length : Nat) : Option Blob :=
  if b.hasUnused then
    if b.Fits offset length then
      let unused := b.unused \ b.touched offset length
      some { b with unused := unused, hasUnused := decide (unused ≠ ∅) }
    else none
  else some b

end Blob

/-! ## Runs -/

/-- A call of `mark_used` or of `add_unused`, with its range. -/
structure UnusedOp where
  use : Bool
  offset : Nat
  length : Nat

namespace UnusedOp

def run (b : Blob) (op : UnusedOp) : Option Blob :=
  if op.use then b.markUsed op.offset op.length else b.addUnused op.offset op.length

def Covers (op : UnusedOp) (x : Nat) : Prop := op.offset ≤ x ∧ x < op.offset + op.length

/-- The range lies inside a chunk and reaches neither of its ends: the last boundary up to its
end comes before it. -/
def Inner (op : UnusedOp) (chunk : Nat) : Prop :=
  (op.offset + op.length) / chunk * chunk < op.offset

end UnusedOp

/-- Some call that has `p` marks a range unused, and no later one that has `q` uses one. -/
def Since (p q : UnusedOp → Prop) (ops : List UnusedOp) : Prop :=
  ops.foldl (fun since op => if op.use then since ∧ ¬ q op else since ∨ p op) False

/-- A blob whose unused bytes are `fresh`; `inner` says that the flag may be set without a bit. -/
structure Tracks (size : Nat) (fresh : Nat → Prop) (inner : Prop) (b : Blob) : Prop where
  size : b.logicalLength = size
  plain : b.compressed = false
  bits : ∀ x, x / b.chunkSize ∈ b.unused → fresh x
  flag : b.hasUnused = true ↔ b.unused ≠ ∅ ∨ inner

theorem roundUpTo_div_le {n d i : Nat} (hd : 0 < d) : roundUpTo n d / d ≤ i ↔ n ≤ i * d := by
  unfold roundUpTo
  split
  next hmod =>
    have hup : n + d - n % d = (n / d + 1) * d := by
      have hdiv := Nat.div_add_mod' n d
      rw [Nat.add_mul]
      omega
    have hne : n ≠ i * d := fun heq => hmod (heq ▸ Nat.mul_mod_left i d)
    rw [hup, Nat.mul_div_cancel _ hd, Nat.succ_le_iff, Nat.div_lt_iff_lt_mul hd]
    exact ⟨le_of_lt, fun h => lt_of_le_of_ne h hne⟩
  next hmod => exact Nat.div_le_iff_le_mul_of_dvd hd.ne' (Nat.dvd_of_mod_eq_zero (not_not.1 hmod))

/-- A byte of a range lies in a chunk that the range touches. -/
theorem mem_touched {b : Blob} (hchunk : 0 < b.chunkSize) (op : UnusedOp) {x : Nat}
    (hx : op.Covers x) : x / b.chunkSize ∈ b.touched op.offset op.length := by
  refine mem_Ico.2 ⟨Nat.div_le_div_right hx.1, not_le.1 fun hle => ?_⟩
  rw [roundUpTo_div_le hchunk] at hle
  exact hle.not_gt ((Nat.div_mul_le_self x _).trans_lt hx.2)

section Step

variable {size : Nat} {fresh : Nat → Prop} {inner : Prop} {b : Blob} {op : UnusedOp}

theorem Tracks.fits (h : Tracks size fresh inner b) (hsize : 0 < size) (h16 : size % 16 = 0)
    {offset length : Nat} (hin : offset + length ≤ size) : b.Fits offset length := by
  refine ⟨h.plain, h.size ▸ h16, h.size ▸ hin, ?_⟩
  rw [Blob.chunkSize, h.size]
  omega

section

variable (h : Tracks size fresh inner b) (hfits : b.Fits op.offset op.length)

include h hfits

theorem Tracks.markUsed :
    ∃ b', b.markUsed op.offset op.length = some b' ∧
      Tracks size (fun x => fresh x ∧ ¬ op.Covers x) False b' := by
  unfold Blob.markUsed
  split
  next hflag =>
    refine ⟨_, rfl, h.size, h.plain, fun x hx => ?_, by simp⟩
    obtain ⟨hin, hout⟩ := mem_sdiff.1 hx
    exact ⟨h.bits x hin, fun hr => hout (mem_touched hfits.2.2.2 op hr)⟩
  next hflag =>
    obtain ⟨hempty, -⟩ := not_or.1 fun hor => hflag (h.flag.2 hor)
    rw [not_not] at hempty
    refine ⟨b, rfl, h.size, h.plain, fun x hx => ?_, by simp [hflag, hempty]⟩
    rw [hempty] at hx
    exact absurd hx (notMem_empty _)

theorem Tracks.addUnused :
    ∃ b', b.addUnused op.offset op.length = some b' ∧
      Tracks size (fun x => fresh x ∨ op.Covers x) (inner ∨ op.Inner (size / 16)) b' := by
  have hchunk := hfits.2.2.2
  rw [Blob.addUnused, if_pos hfits]
  refine ⟨_, rfl, h.size, h.plain, fun x hx => ?_, ?_⟩
  · rcases mem_union.1 hx with hx | hx
    · exact .inl (h.bits x hx)
    · -- the whole chunk lies in the range
      obtain ⟨hlo, hhi⟩ := mem_Ico.1 hx
      rw [roundUpTo_div_le hchunk] at hlo
      exact .inr ⟨hlo.trans (Nat.div_mul_le_self _ _), Nat.lt_of_div_lt_div hhi⟩
  · have hinner : op.Inner (size / 16) ↔
        (op.offset + op.length) / b.chunkSize < roundUpTo op.offset b.chunkSize / b.chunkSize := by
      rw [← not_le, roundUpTo_div_le hchunk, not_le, ← h.size]
      rfl
    simp only [Bool.or_eq_true, h.flag, hinner, decide_eq_true_eq, ← lt_or_lt_iff_ne, ne_eq,
      union_eq_empty, Ico_eq_empty_iff]
    tauto

theorem Tracks.run :
    ∃ b', op.run b = some b' ∧ Tracks size
      (fun x => if op.use then fresh x ∧ ¬ op.Covers x else fresh x ∨ op.Covers x)
      (if op.use then inner ∧ ¬ True else inner ∨ op.Inner (size / 16)) b' := by
  unfold UnusedOp.run
  cases op.use with
  | false => exact h.addUnused hfits
  | true =>
    rw [not_true, and_false]
    exact h.markUsed hfits

end

end Step

/-- After any calls with ranges in the blob, a range that is said to be unused has only bytes that
were marked unused and not used since.  The flag is set if a bit is, or if a range inside a chunk
was marked unused since the last use of any range. -/
theorem unused_never_written {size : Nat} {ops : List UnusedOp} (hsize : 0 < size)
    (h16 : size % 16 = 0) (hops : ∀ op ∈ ops, op.offset + op.length ≤ size) :
    ∃ b, ops.foldlM UnusedOp.run { logicalLength := size } = some b ∧
      (∀ offset length, offset + length ≤ size → ∃ r, b.isUnused offset length = some r ∧
        (r = true → ∀ x, offset ≤ x → x < offset + length →
          Since (UnusedOp.Covers · x) (UnusedOp.Covers · x) ops)) ∧
      (b.hasUnused = true ↔ b.unused ≠ ∅ ∨
        Since (UnusedOp.Inner · (size / 16)) (fun _ => True) ops) := by
  obtain ⟨b, hrun, h⟩ : ∃ b, ops.foldlM UnusedOp.run { logicalLength := size } = some b ∧
      Tracks size (fun x => Since (UnusedOp.Covers · x) (UnusedOp.Covers · x) ops)
        (Since (UnusedOp.Inner · (size / 16)) (fun _ => True) ops) b := by
    induction ops using List.reverseRecOn with
    | nil => exact ⟨_, rfl, rfl, rfl, by simp, by simp [Since]⟩
    | append_singleton _ op ih =>
      obtain ⟨b, hrun, h⟩ := ih fun a ha => hops a (List.mem_append_left _ ha)
      obtain ⟨b', hstep, h'⟩ := h.run (h.fits hsize h16 (hops op List.mem_concat_self))
      refine ⟨b', by simp [hrun, hstep], ?_⟩
      simpa only [Since, List.foldl_concat] using h'
  refine ⟨b, hrun, fun offset length hin => ?_, h.flag⟩
  have hfits := h.fits hsize h16 hin
  unfold Blob.isUnused
  split
  next _ =>
    refine ⟨_, rfl, fun hr x hlo hhi => h.bits x (of_decide_eq_true hr ?_)⟩
    exact mem_touched hfits.2.2.2 ⟨true, offset, length⟩ ⟨hlo, hhi⟩
  · exact ⟨false, rfl, fun hr => absurd hr Bool.false_ne_true⟩

theorem unused_never_written_two :
    ∃ b, [⟨false, 0, 8⟩, ⟨true, 2, 1⟩].foldlM UnusedOp.run { logicalLength := 64 } = some b ∧
      (b.hasUnused = true ↔ b.unused ≠ ∅ ∨
        Since (UnusedOp.Inner · 4) (fun _ => True) [⟨false, 0, 8⟩, ⟨true, 2, 1⟩]) := by
  obtain ⟨b, hrun, -, hflag⟩ := @unused_never_written 64 [⟨false, 0, 8⟩, ⟨true, 2, 1⟩]
    (by decide) (by decide) (by decide)
  exact ⟨b, hrun, hflag⟩

/-- One byte inside a chunk is marked unused: the flag is set, and no bit. -/
theorem flag_without_unused :
    (({ logicalLength := 64 } : Blob).addUnused 1 1).map (fun b => (b.hasUnused, b.unused)) =
      some (true, ∅) := by
  decide

end Ceph.BlueStore
