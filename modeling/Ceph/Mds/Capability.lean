import Ceph.Lib.Cut
import Ceph.Lib.Run
import Ceph.Lib.Word
import Mathlib.Data.Finset.SDiff

set_option autoImplicit false

/-!
# Client capabilities: `Capability`

What the MDS remembers of the caps one client has on one inode.  Every grant is
sent to the client with its sequence number, the client answers with the last
number it has seen and the caps it holds, and both links are FIFO.
-/

namespace Ceph.Mds

open Ceph.Lib List

/-- The bits of a `__u32`: `a & ~b` is `a \ b`. -/
abbrev Caps := Finset (Fin 32)

/-- `Capability::revoke_info`. -/
structure RevokeInfo where
  before : Caps
  seq : Nat
  lastIssue : Nat

/-- `Capability`, as far as it tracks caps in flight.  The state flags, the
validity generation and the MDS lists of revoking caps, which the methods below
only write, are left out. -/
structure Capability where
  pending : Caps := ∅
  issued : Caps := ∅
  revokes : List RevokeInfo := []
  lastSent : Nat := 0
  lastIssue : Nat := 0

/-- A sequence number with caps: a grant, or a report of the client. -/
structure CapMsg where
  seq : Nat
  caps : Caps

namespace Capability

/-- `inc_last_seq`; a `ceph_seq_t` has 32 bits. -/
def incLastSeq (c : Capability) : Capability := { c with lastSent := u32 (c.lastSent + 1) }

def calcIssued (c : Capability) : Capability :=
  { c with issued := c.revokes.foldl (fun caps r => caps ∪ r.before) c.pending }

/-- `issue`; `none` is a failed assertion. -/
def issue (caps : Caps) (c : Capability) : Option Capability :=
  if c.pending \ caps ≠ ∅ then
    -- revoking (and maybe adding) bits
    some (incLastSeq { c with
      revokes := c.revokes ++ [⟨c.pending, c.lastSent, c.lastIssue⟩]
      pending := caps
      issued := c.issued ∪ caps })
  else if caps \ c.pending ≠ ∅ then
    -- adding bits only; old revocations with no bits we don't have are dropped
    let pending := c.pending ∪ caps
    some (incLastSeq { c with
      pending := pending
      issued := c.issued ∪ caps
      revokes := c.revokes.rdropWhile fun r => decide (r.before \ pending = ∅) })
  else if c.pending = caps then some (incLastSeq c)
  else none

def issueNorevoke (caps : Caps) (c : Capability) : Capability :=
  incLastSeq { c with pending := c.pending ∪ caps, issued := c.issued ∪ caps }

/-- `confirm_receipt`, with the revoked caps it returns. -/
def confirmReceipt (seq : Nat) (caps : Caps) (c : Capability) : Capability × Caps :=
  let wasRevoking := c.issued \ c.pending
  let c' :=
    if seq = c.lastSent then
      { c with revokes := [], issued := caps, pending := c.pending ∩ caps }
    else
      match c.revokes.dropWhile fun r => decide (r.seq < seq) with
      | [] => { c with revokes := [], issued := caps ∪ c.pending }
      | r :: rs =>
        calcIssued { c with
          revokes := (if r.seq = seq then { r with before := caps } else r) :: rs }
  (c', wasRevoking \ c'.issued)

end Capability

/-! ## The MDS, the client and the links between them -/

/-- A capability with its client.  `confirmed` is the last report the MDS has
processed and `issues` counts the grants. -/
structure CapState where
  cap : Capability := {}
  /-- The last grant the client has seen, with the caps it still holds. -/
  client : CapMsg := ⟨0, ∅⟩
  toClient : List CapMsg := []
  toMds : List CapMsg := []
  confirmed : Option CapMsg := none
  issues : Nat := 0

inductive CapAction where
  | issue (caps : Caps)
  | issueNorevoke (caps : Caps)
  /-- The client takes over the caps of the next grant. -/
  | deliver
  /-- The client gives up all caps outside `keep`. -/
  | drop (keep : Caps)
  | report
  | confirm

/-- A grant leaves with `pending()` and `get_last_seq()`. -/
def CapState.send (s : CapState) (c : Capability) : CapState :=
  { s with
    cap := c
    toClient := s.toClient ++ [⟨c.lastSent, c.pending⟩]
    issues := s.issues + 1 }

def capStep (s : CapState) : CapAction → Option CapState
  | .issue caps => (s.cap.issue caps).map s.send
  | .issueNorevoke caps => some (s.send (s.cap.issueNorevoke caps))
  | .deliver =>
    match s.toClient with
    | [] => none
    | m :: ms => some { s with client := m, toClient := ms }
  | .drop keep => some { s with client := { s.client with caps := s.client.caps ∩ keep } }
  | .report => some { s with toMds := s.toMds ++ [s.client] }
  | .confirm =>
    match s.toMds with
    | [] => none
    | m :: ms =>
      some { s with
        cap := (s.cap.confirmReceipt m.seq m.caps).1
        toMds := ms
        confirmed := some m }

/-! ## What one call keeps -/

namespace Capability

variable {c c' : Capability} {caps : Caps} {m : CapMsg}

/-- The MDS still accounts for the caps of `m`: each is pending, or part of a
revocation that came no earlier than `m`. -/
def Covers (c : Capability) (m : CapMsg) : Prop :=
  m.seq ≤ c.lastSent ∧ ∀ x ∈ m.caps, x ∈ c.pending ∨ ∃ r ∈ c.revokes, m.seq ≤ r.seq ∧ x ∈ r.before

structure Sound (c : Capability) : Prop where
  pending : c.pending ⊆ c.issued
  revokes : ∀ r ∈ c.revokes, r.seq < c.lastSent ∧ r.before ⊆ c.issued

theorem Sound.subset_issued (h : Sound c) (hm : Covers c m) : m.caps ⊆ c.issued := by
  intro x hx
  obtain hp | ⟨r, hr, -, hb⟩ := hm.2 x hx
  · exact h.pending hp
  · exact (h.revokes r hr).2 hb

/-- A call that grants: the counter moves on and nothing is forgotten. -/
structure Grants (c c' : Capability) : Prop where
  seq : c'.lastSent = c.lastSent + 1
  sound : Sound c'
  covers : ∀ m, Covers c m → Covers c' m

/-- A grant may replace the pending caps if it records the old ones, and may drop
revocations of caps that are pending now. -/
theorem Sound.grants (h : Sound c) (hseq : c'.lastSent = c.lastSent + 1)
    (hpend : c'.pending ⊆ c'.issued) (hissued : c.issued ⊆ c'.issued)
    (hold : c.pending ⊆ c'.pending ∨ ⟨c.pending, c.lastSent, c.lastIssue⟩ ∈ c'.revokes)
    (hdrop : ∀ r ∈ c.revokes, r.before ⊆ c'.pending ∨ r ∈ c'.revokes)
    (hnew : ∀ r ∈ c'.revokes, r ∈ c.revokes ∨ r = ⟨c.pending, c.lastSent, c.lastIssue⟩) :
    Grants c c' := by
  refine ⟨hseq, ⟨hpend, fun r hr => ?_⟩, fun m hm => ⟨by have := hm.1; omega, fun x hx => ?_⟩⟩
  · rw [hseq]
    obtain hr | rfl := hnew r hr
    · exact ⟨Nat.lt_succ_of_lt (h.revokes r hr).1, (h.revokes r hr).2.trans hissued⟩
    · exact ⟨Nat.lt_succ_self _, h.pending.trans hissued⟩
  · obtain hp | ⟨r, hr, hs, hb⟩ := hm.2 x hx
    · exact hold.imp (fun hsub => hsub hp) fun hmem => ⟨_, hmem, hm.1, hp⟩
    · exact (hdrop r hr).imp (fun hsub => hsub hb) fun hmem => ⟨r, hmem, hs, hb⟩

section

variable (h : Sound c) (hlt : c.lastSent + 1 < 2 ^ 32)

include h hlt

/-- Adding bits, with revocations dropped or not. -/
theorem Sound.grants_add {rs : List RevokeInfo} (hsub : rs ⊆ c.revokes)
    (hdrop : ∀ r ∈ c.revokes, r.before ⊆ c.pending ∪ caps ∨ r ∈ rs) :
    Grants c (incLastSeq { c with
      pending := c.pending ∪ caps
      issued := c.issued ∪ caps
      revokes := rs }) :=
  h.grants (u32_of_lt hlt) (Finset.union_subset_union_left h.pending) Finset.subset_union_left
    (.inl Finset.subset_union_left) hdrop fun _ hr => .inl (hsub hr)

theorem issueNorevoke_grants : Grants c (c.issueNorevoke caps) :=
  h.grants_add hlt (fun _ hr => hr) fun _ hr => .inr hr

theorem issue_grants (hi : c.issue caps = some c') : Grants c c' := by
  unfold issue at hi
  split at hi
  · cases hi
    refine h.grants (u32_of_lt hlt) Finset.subset_union_right Finset.subset_union_left
      (Or.inr ?_) (fun r hr => Or.inr ?_) fun r hr => ?_
    · exact mem_append_right _ (mem_singleton_self _)
    · exact mem_append_left _ hr
    · exact (mem_append.1 hr).imp_right mem_singleton.1
  · split at hi
    · cases hi
      refine h.grants_add hlt (IsPrefix.subset <| rdropWhile_prefix _ _) fun r hr => ?_
      rw [← rdropWhile_append_rtakeWhile (p := fun r => decide
        (r.before \ (c.pending ∪ caps) = ∅)) (l := c.revokes), mem_append] at hr
      refine hr.symm.imp_left fun hr => Finset.sdiff_eq_empty_iff_subset.1 ?_
      have hcond := mem_rtakeWhile_imp hr
      exact of_decide_eq_true hcond
    · split at hi
      · cases hi
        exact h.grants (u32_of_lt hlt) h.pending (fun _ h => h) (.inl fun _ h => h)
          (fun _ hr => .inr hr) fun _ hr => .inl hr
      · cases hi

end

theorem mem_calcIssued {x : Fin 32} : x ∈ c.calcIssued.issued ↔
    x ∈ c.pending ∨ ∃ r ∈ c.revokes, x ∈ r.before := by
  obtain ⟨p, -, rs, -, -⟩ := c
  simp only [calcIssued]
  induction rs generalizing p with
  | nil => simp
  | cons _ _ ih => simp [ih, or_assoc]

/-- Confirming a report forgets nothing of a message that the client has not gone
beyond, provided the report has the caps left of a message it is about. -/
theorem confirmReceipt_spec (h : Sound c) (seq : Nat) (caps : Caps) :
    Sound (c.confirmReceipt seq caps).1 ∧
    (c.confirmReceipt seq caps).1.lastSent = c.lastSent ∧
    (seq = c.lastSent → (c.confirmReceipt seq caps).1.issued = caps) ∧
    ∀ m, Covers c m → seq ≤ m.seq → (m.seq = seq → m.caps ⊆ caps) →
      Covers (c.confirmReceipt seq caps).1 m := by
  simp only [confirmReceipt]
  split
  next hlast =>
    refine ⟨⟨Finset.inter_subset_right, by simp⟩, rfl, fun _ => rfl,
      fun m hm hge hcaps => ⟨hm.1, fun x hx => ?_⟩⟩
    have hle := hm.1
    obtain hp | ⟨r, hr, hs, -⟩ := hm.2 x hx
    · exact .inl (Finset.mem_inter.2 ⟨hp, hcaps (by omega) hx⟩)
    · have := (h.revokes r hr).1
      omega
  next hlast =>
    obtain ⟨pre, post, -, hpost, hall, hpre, -⟩ :=
      cut_spec (fun r : RevokeInfo => decide (r.seq < seq)) c.revokes
    simp only [decide_eq_true_eq] at hpre
    rw [hpost]
    -- the revocations that are dropped are older than every message in question
    have hrest : ∀ m, Covers c m → seq ≤ m.seq → ∀ x ∈ m.caps,
        x ∈ c.pending ∨ ∃ r ∈ post, m.seq ≤ r.seq ∧ x ∈ r.before := by
      intro m hm hge x hx
      refine (hm.2 x hx).imp_right fun ⟨r, hr, hs, hb⟩ => ⟨r, ?_, hs, hb⟩
      rw [hall] at hr
      refine (mem_append.1 hr).resolve_left fun hr => ?_
      have := hpre r hr
      omega
    cases post with
    | nil =>
      refine ⟨⟨Finset.subset_union_right, by simp⟩, rfl, fun h => absurd h hlast,
        fun m hm hge hcaps => ⟨hm.1, fun x hx => ?_⟩⟩
      simpa using hrest m hm hge x hx
    | cons r =>
      refine ⟨⟨fun x hx => mem_calcIssued.2 (.inl hx), fun r' hr' => ⟨?_, fun x hx =>
          mem_calcIssued.2 (.inr ⟨r', hr', hx⟩)⟩⟩, rfl, fun h => absurd h hlast,
        fun m hm hge hcaps => ⟨hm.1, fun x hx => ?_⟩⟩
      · have hold := fun r' hr' => (h.revokes r' (hall ▸ mem_append_right pre hr')).1
        obtain rfl | hr' := mem_cons.1 hr'
        · have := hold r mem_cons_self
          split <;> exact this
        · exact hold r' (mem_cons_of_mem _ hr')
      · refine (hrest m hm hge x hx).imp_right fun ⟨r', hr', hs, hb⟩ => ?_
        obtain rfl | hr' := mem_cons.1 hr'
        · refine ⟨_, mem_cons_self, ?_⟩
          split
          next _ => exact ⟨hs, hcaps (by omega) hx⟩
          · exact ⟨hs, hb⟩
        · exact ⟨r', mem_cons_of_mem _ hr', hs, hb⟩

end Capability

/-! ## Runs -/

namespace CapState

variable {s s' : CapState}

structure Inv (s : CapState) : Prop where
  seq : s.cap.lastSent = s.issues
  sound : s.cap.Sound
  /-- Grants in flight are newer than what the client has seen, in order. -/
  order : (s.client :: s.toClient).Pairwise (·.seq < ·.seq)
  covers : ∀ m ∈ s.client :: s.toClient, s.cap.Covers m
  reports : ∀ m ∈ s.toMds, m.seq ≤ s.client.seq ∧ (m.seq = s.client.seq → s.client.caps ⊆ m.caps)
  confirmed : ∀ m ∈ s.confirmed, m.seq ≤ s.cap.lastSent ∧
    (m.seq = s.cap.lastSent → s.cap.issued = m.caps)

theorem Inv.send (h : Inv s) {c : Capability} (hg : s.cap.Grants c) : Inv (s.send c) where
  seq := hg.seq.trans (congrArg (· + 1) h.seq)
  sound := hg.sound
  order := by
    refine pairwise_append.2 ⟨h.order, pairwise_singleton _ _, fun m hm m' hm' => ?_⟩
    rw [mem_singleton.1 hm']
    exact hg.seq ▸ Nat.lt_succ_of_le (h.covers m hm).1
  covers := by
    intro m hm
    obtain hm | hm := mem_append.1 (cons_append ▸ hm)
    · exact hg.covers m (h.covers m hm)
    · rw [mem_singleton.1 hm]
      exact ⟨le_rfl, fun _ hx => Or.inl hx⟩
  reports := h.reports
  confirmed := by
    intro m hm
    have hlt : m.seq < c.lastSent := hg.seq ▸ Nat.lt_succ_of_le (h.confirmed m hm).1
    exact ⟨hlt.le, fun heq => absurd heq hlt.ne⟩

theorem Inv.step (h : Inv s) {a : CapAction} (hs : capStep s a = some s')
    (hfew : s'.issues < 2 ^ 32) : Inv s' := by
  cases a with
  | issue =>
    obtain ⟨_, hc, rfl⟩ := Option.map_eq_some_iff.1 hs
    exact h.send (Capability.issue_grants h.sound (h.seq ▸ hfew) hc)
  | issueNorevoke =>
    cases hs
    exact h.send (Capability.issueNorevoke_grants h.sound (h.seq ▸ hfew))
  | deliver =>
    simp only [capStep] at hs
    split at hs
    · cases hs
    next m ms heq =>
      cases hs
      have horder := h.order
      have hcovers := h.covers
      rw [heq, pairwise_cons] at horder
      rw [heq] at hcovers
      refine ⟨h.seq, h.sound, horder.2, (forall_mem_cons.1 hcovers).2, fun r hr => ?_, h.confirmed⟩
      have hlt : r.seq < m.seq := (h.reports r hr).1.trans_lt (horder.1 m mem_cons_self)
      exact ⟨hlt.le, fun heq => absurd heq hlt.ne⟩
  | drop keep =>
    cases hs
    have hsub : s.client.caps ∩ keep ⊆ s.client.caps := Finset.inter_subset_left
    obtain ⟨hclient, hflight⟩ := forall_mem_cons.1 h.covers
    exact ⟨h.seq, h.sound, pairwise_cons.2 (pairwise_cons.1 h.order),
      forall_mem_cons.2 ⟨⟨hclient.1, fun x hx => hclient.2 x (hsub hx)⟩, hflight⟩,
      fun r hr => ⟨(h.reports r hr).1, fun heq => hsub.trans ((h.reports r hr).2 heq)⟩,
      h.confirmed⟩
  | report =>
    cases hs
    refine ⟨h.seq, h.sound, h.order, h.covers, fun r hr => ?_, h.confirmed⟩
    obtain hr | hr := mem_append.1 hr
    · exact h.reports r hr
    · rw [mem_singleton.1 hr]
      exact ⟨le_rfl, fun _ _ hx => hx⟩
  | confirm =>
    simp only [capStep] at hs
    split at hs
    · cases hs
    next m ms heq =>
      cases hs
      have hreports := h.reports
      rw [heq] at hreports
      obtain ⟨⟨hle, hcaps⟩, hrest⟩ := forall_mem_cons.1 hreports
      obtain ⟨hclient, hflight⟩ := forall_mem_cons.1 h.covers
      obtain ⟨hsound, hseq, hlast, hkeep⟩ := Capability.confirmReceipt_spec h.sound m.seq m.caps
      refine ⟨hseq.trans h.seq, hsound, h.order, forall_mem_cons.2 ⟨?_, fun g hg => ?_⟩, hrest,
        fun r hr => ?_⟩
      · exact hkeep s.client hclient hle fun heq => hcaps heq.symm
      · have hlt := hle.trans_lt ((pairwise_cons.1 h.order).1 g hg)
        exact hkeep g (hflight g hg) hlt.le fun heq => absurd heq hlt.ne'
      · cases hr
        exact ⟨hseq ▸ hle.trans hclient.1, fun heq => hlast (heq.trans hseq)⟩

theorem issues_le {a : CapAction} (hs : capStep s a = some s') : s.issues ≤ s'.issues := by
  cases a with
  | issue =>
    obtain ⟨_, -, rfl⟩ := Option.map_eq_some_iff.1 hs
    exact Nat.le_succ _
  | issueNorevoke =>
    cases hs
    exact Nat.le_succ _
  | drop | report =>
    cases hs
    exact le_rfl
  | deliver | confirm =>
    simp only [capStep] at hs
    split at hs <;> cases hs
    exact le_rfl

/-- The numbers do not wrap before `2 ^ 32` grants, and till then the invariant
holds. -/
theorem Inv.of_run (h : Reaches capStep {} s) : s.issues < 2 ^ 32 → Inv s := by
  induction h with
  | refl =>
    exact fun _ => ⟨rfl, ⟨fun _ hx => hx, by simp⟩, by simp, by simp [Capability.Covers], by simp,
      by simp⟩
  | tail _ _ hs ih => exact fun hfew => (ih ((issues_le hs).trans_lt hfew)).step hs hfew

end CapState

/-- A run of fewer than `2 ^ 32` grants: whatever the client holds or may still
receive is issued, and after a report of the last grant the report is exact. -/
theorem issued_covers_client {s : CapState} (h : Reaches capStep {} s) (hfew : s.issues < 2 ^ 32) :
    (∀ m ∈ s.client :: s.toClient, m.caps ⊆ s.cap.issued) ∧
    s.cap.pending ⊆ s.cap.issued ∧
    ∀ m ∈ s.confirmed, m.seq = s.cap.lastSent → s.cap.issued = m.caps := by
  have hinv := CapState.Inv.of_run h hfew
  exact ⟨fun m hm => hinv.sound.subset_issued (hinv.covers m hm), hinv.sound.pending,
    fun m hm => (hinv.confirmed m hm).2⟩

/-- Two caps are granted and one of them is revoked while a report is under way. -/
theorem issued_covers_client_revoked :
    ∃ s, exec capStep {} [.issue {0, 1}, .deliver, .report, .issue {0}, .confirm] = some s ∧
      s.client.caps = {0, 1} ∧ s.cap.pending = {0} ∧ s.client.caps ⊆ s.cap.issued := by
  refine ⟨_, rfl, by decide, by decide, ?_⟩
  exact (issued_covers_client (exec_reaches (show exec capStep {} [.issue {0, 1}, .deliver, .report,
    .issue {0}, .confirm] = some _ from rfl)) (by decide)).1 _ mem_cons_self

/-- A client that keeps up while grants of nothing are sent. -/
theorem reaches_idle (n : Nat) : Reaches capStep {}
    { cap := { lastSent := u32 n }, client := ⟨u32 n, ∅⟩, issues := n } := by
  induction n with
  | zero => exact .refl
  | succ n ih =>
    have hseq : u32 (u32 n + 1) = u32 (n + 1) := by simp [u32]
    rw [← hseq]
    refine ih.trans (exec_reaches (show exec capStep _ [.issue ∅, .deliver] = some _ from ?_))
    simp [exec, execOk, capStep, Capability.issue, Capability.incLastSeq, CapState.send]

/-- After the wrap a revocation looks older than the report of the grant before
it, and is forgotten while the grant it revokes is still in flight. -/
theorem wrapped_revocation_forgotten :
    ∃ s, Reaches capStep {} s ∧ s.issues = 2 ^ 32 + 1 ∧
      ∃ m ∈ s.toClient, ¬ m.caps ⊆ s.cap.issued := by
  refine ⟨_, (reaches_idle (2 ^ 32 - 1)).trans (exec_reaches (show exec capStep _
    [.issue {0}, .issue ∅, .report, .confirm] = some _ from rfl)), rfl, ⟨0, {0}⟩, ?_, ?_⟩
  · exact mem_cons_self
  · decide

end Ceph.Mds
