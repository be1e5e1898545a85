import Ceph.Mon.Paxos.Monitor

set_option autoImplicit false

/-!
# Values in circulation

Every value a monitor holds or sends is either part of the history of commits
or a candidate for the version that comes next.  The two are parameters here:
`C v x` says that `x` is the committed value of version `v`, and `P v x` that
`x` is a candidate for version `v + 1`.
-/

namespace Ceph.Mon.Paxos

open Ceph.Lib Option Store List Function

variable {n : Nat} {C P : Commits}

/-- The values held by a monitor. -/
structure MonHist (C P : Commits) (p : Monitor) : Prop where
  store : StoreAt C p.store.lastCommitted p.store
  pending : ∀ x, p.store.values (p.store.lastCommitted + 1) = some x → P p.store.lastCommitted x
  uncommitted : p.role = .leader → p.state = .recovering → ∀ x, p.uncommittedValue = some x →
    ∃ v, p.uncommittedV = v + 1 ∧ P v x
  newValue : p.role = .leader → ∀ x, p.newValue = some x → P p.lastCommitted x
  done : p.commit = .applied → ∀ x, p.newValue = some x → C (p.lastCommitted + 1) x

/-- The values carried by a message. -/
structure MsgHist (C P : Commits) (m : MMonPaxos) : Prop where
  begin : m.op = .begin → ∃ x, m.values = [(m.lastCommitted + 1, x)] ∧ P m.lastCommitted x
  carries : m.op = .commit ∨ m.op = .last → ∃ lo, Carries C lo m
  last : m.op = .last → m.uncommittedPn ≠ 0 →
    ∃ x, m.values.lookup (m.lastCommitted + 1) = some x ∧ P m.lastCommitted x

variable {lo i : Nat} {m : MMonPaxos} {p p' : Monitor} {x : Tx} {out : Sends} {a : Action}
    {inp : Option MMonPaxos}

theorem Carries.mono {C' : Commits} (hC : ∀ v x, C v x → C' v x) (h : Carries C lo m) :
    Carries C' lo m := by
  obtain ⟨vals, hseg, hv⟩ := h
  exact ⟨vals, hseg.mono hC, hv⟩

section

variable {C' P' : Commits} (hC : ∀ v x, C v x → C' v x) (hP : ∀ v x, P v x → P' v x)

include hC hP

theorem MonHist.mono (h : MonHist C P p) : MonHist C' P' p where
  store := h.store.mono hC
  pending x hx := hP _ _ (h.pending x hx)
  uncommitted hr hs x hx := by
    exact (h.uncommitted hr hs x hx).imp fun _ hv => ⟨hv.1, hP _ _ hv.2⟩
  newValue hr x hx := hP _ _ (h.newValue hr x hx)
  done hc x hx := hC _ _ (h.done hc x hx)

theorem MsgHist.mono (h : MsgHist C P m) : MsgHist C' P' m where
  begin hop := by
    exact (h.begin hop).imp fun _ hx => ⟨hx.1, hP _ _ hx.2⟩
  carries hop := by
    exact (h.carries hop).imp fun _ hlo => hlo.mono hC
  last hop hpn := by
    exact (h.last hop hpn).imp fun _ hx => ⟨hx.1, hP _ _ hx.2⟩

end

/-! ## Messages that are sent -/

theorem Segment.lookup_append {vals : List (Nat × Tx)} {lo hi : Nat} (h : Segment C lo hi vals) :
    ∀ x, (vals ++ [(hi + 1, x)]).lookup (hi + 1) = some x := by
  induction vals generalizing lo hi with
  | nil => simp
  | cons p _ ih =>
    intro x
    obtain ⟨_, _, -, hps⟩ := h
    have hne : (hi + 1 == p.1) = false := by
      rw [beq_eq_false_iff_ne]
      omega
    rw [cons_append, lookup_cons, hne]
    exact ih hps x

/-- The committed part of the answer to a COLLECT. -/
theorem shared_segment (hC : HistoryOk C) (a : Nat) (hst : StoreAt C p.lastCommitted p.store) :
    ∃ lo, Segment C lo p.lastCommitted (if a < p.lastCommitted then sharedValues p a else []) ∧
      (lo ≤ a + 1 ∨ lo ≤ p.store.firstCommitted) := by
  split
  next hlt => exact ⟨_, sharedValues_segment hC hst hlt, by omega⟩
  · exact ⟨p.lastCommitted + 1, rfl, by omega⟩

/-- What the answer to a COLLECT carries. -/
theorem lastMsg_carries (hC : HistoryOk C) (m : MMonPaxos) (prev : Nat)
    (hst : StoreAt C p.lastCommitted p.store) (hf : p.firstCommitted = p.store.firstCommitted) :
    ∃ lo, Carries C lo (lastMsg m prev p) ∧
      (lo ≤ m.lastCommitted + 1 ∨ lo ≤ (lastMsg m prev p).firstCommitted) := by
  obtain ⟨lo, hseg, hlo⟩ := shared_segment hC m.lastCommitted hst
  rw [← hf] at hlo
  unfold lastMsg shareUncommitted
  refine ⟨lo, ?_⟩
  split
  · split
    · exact ⟨⟨_, hseg, .inl rfl⟩, hlo⟩
    next x _ => exact ⟨⟨_, hseg, .inr ⟨x, rfl⟩⟩, hlo⟩
  · exact ⟨⟨_, hseg, .inl rfl⟩, hlo⟩

@[simp] theorem lastMsg_rest (m : MMonPaxos) (prev : Nat) (p : Monitor) :
    (lastMsg m prev p).op = .last ∧ (lastMsg m prev p).epoch = p.epoch ∧
      (lastMsg m prev p).pn = p.acceptedPn ∧
      (lastMsg m prev p).lastCommitted = p.lastCommitted := by
  unfold lastMsg shareUncommitted
  split
  · split <;> exact ⟨rfl, rfl, rfl, rfl⟩
  · exact ⟨rfl, rfl, rfl, rfl⟩

theorem lastMsg_lastCommitted (m : MMonPaxos) (prev : Nat) (p : Monitor) :
    (lastMsg m prev p).lastCommitted = p.lastCommitted := (lastMsg_rest m prev p).2.2.2

/-- An uncommitted value is reported with the proposal number it was accepted
under, unless the leader is known to be further on. -/
theorem lastMsg_uncommitted (hC : HistoryOk C) (prev : Nat)
    (hst : StoreAt C p.lastCommitted p.store) (hle : m.lastCommitted ≤ p.lastCommitted)
    (hx : p.store.values (p.lastCommitted + 1) = some x) :
    (lastMsg m prev p).uncommittedPn = pendingPnOf p.store p.lastCommitted prev ∧
      (lastMsg m prev p).values.lookup (p.lastCommitted + 1) = some x := by
  obtain ⟨_, hseg, -⟩ := shared_segment hC m.lastCommitted hst
  unfold lastMsg shareUncommitted
  rw [if_pos hle, hx]
  exact ⟨rfl, hseg.lookup_append x⟩

theorem lastMsg_uncommittedPn_none {prev : Nat}
    (h : p.store.values (p.lastCommitted + 1) = none ∨ p.lastCommitted < m.lastCommitted) :
    (lastMsg m prev p).uncommittedPn = 0 := by
  unfold lastMsg shareUncommitted
  rcases h with h | h
  · rw [h]
    split <;> rfl
  · rw [if_neg (by omega)]

theorem lastMsg_hist (hC : HistoryOk C) {prev : Nat} (hst : StoreAt C p.lastCommitted p.store)
    (hf : p.firstCommitted = p.store.firstCommitted)
    (hpend : ∀ x, p.store.values (p.lastCommitted + 1) = some x → P p.lastCommitted x) :
    MsgHist C P (lastMsg m prev p) where
  begin hop := by simp at hop
  carries _ := by
    obtain ⟨lo, hlo, -⟩ := lastMsg_carries hC m prev hst hf
    exact ⟨lo, hlo⟩
  last _ hpn := by
    cases hx : p.store.values (p.lastCommitted + 1) with
    | none => exact absurd (lastMsg_uncommittedPn_none (.inl hx)) hpn
    | some x =>
      by_cases hle : m.lastCommitted ≤ p.lastCommitted
      · have hu := (lastMsg_uncommitted hC prev hst hle hx).2
        exact ⟨x, by simpa using hu, by simpa using hpend x hx⟩
      · exact absurd (lastMsg_uncommittedPn_none (.inr (not_le.1 hle))) hpn

/-- The COMMIT with which a leader brings a peer at `a` up to date. -/
def shareMsg (p : Monitor) (a : Nat) : MMonPaxos :=
  { epoch := p.epoch, op := .commit, values := sharedValues p a, lastCommitted := p.lastCommitted }

theorem shareMsg_carries (hC : HistoryOk C) {a : Nat} (hst : StoreAt C p.lastCommitted p.store)
    (ha : a < p.lastCommitted) : Carries C (max (a + 1) p.store.firstCommitted) (shareMsg p a) :=
  ⟨_, sharedValues_segment hC hst ha, .inl rfl⟩

/-- The loop over the peers sends each one that lags what it misses, and nothing
else. -/
theorem sharePeers_mem {is : List Nat} {shared : Sends × Bool} (h : sharePeers p is = some shared) :
    ∀ k m, (k, m) ∈ shared.1 → ∃ a, p.peerLastCommitted k = some a ∧ a < p.lastCommitted ∧
      ¬ (a + 1 < p.firstCommitted ∧ 1 < p.firstCommitted) ∧
      m = shareMsg p a := by
  induction is generalizing shared with
  | nil =>
    intro k m hm
    simp only [sharePeers, some.injEq] at h
    simp [← h] at hm
  | cons _ _ ih =>
    intro k m hm
    simp only [sharePeers] at h
    split at h
    · exact ih h k m hm
    next a ha =>
      split at h
      · simp only [some.injEq] at h
        simp [← h] at hm
      next hlow =>
        split at h
        next hlt =>
          rw [shareState_eq hlt] at h
          obtain ⟨_, hr, rfl⟩ := map_eq_some_iff.1 h
          rcases mem_cons.1 hm with heq | hm
          · cases heq
            exact ⟨a, ha, hlt, hlow, rfl⟩
          · exact ih hr k m hm
        · exact ih h k m hm

/-! ## Local steps -/

/-- Storing what a peer shares keeps the values in order: what was uncommitted
before has either been committed or is still the next version. -/
theorem MonHist.storeState (hC : HistoryOk C) (h : MonHist C P p) (hs : Synced p)
    (hm : Carries C lo m) (hnew : p.role = .leader → p.newValue = none) :
    MonHist C P (storeState m p) := by
  have hst : StoreAt C p.lastCommitted p.store := hs.last ▸ h.store
  rcases storeState_spec hC hm hst with ⟨-, heq⟩ | ⟨-, _, _, heq, hst', hnext, hlc, -⟩
  · rw [heq]
    exact h
  · rw [heq]
    refine ⟨by simpa [stored, hlc] using hst', ?_, ?_, ?_, ?_⟩
    · intro x hx
      simp [stored, hlc, hnext] at hx
    · intro hr hrec x hx
      simp only [stored] at hx ⊢
      split at hx
      · simp at hx
      next hob =>
        rw [if_neg hob]
        exact h.uncommitted hr hrec x hx
    · intro hr x hx
      simp [stored, hnew hr] at hx
    · intro hc
      simp [stored, hs.idle] at hc

/-- A state without a proposal of its own, over the same store. -/
theorem MonHist.of_store (h : MonHist C P p) (hst : ∀ v, p'.store.values v = p.store.values v)
    (hlc : p'.store.lastCommitted = p.store.lastCommitted)
    (hfc : p'.store.firstCommitted = p.store.firstCommitted)
    (hunc : p'.role = .leader → p'.state = .recovering → ∀ x, p'.uncommittedValue = some x →
      ∃ v, p'.uncommittedV = v + 1 ∧ P v x) (hnew : p'.role = .leader → p'.newValue = none)
    (hidle : p'.commit = .idle) : MonHist C P p' where
  store := by
    rw [hlc]
    exact h.store.congr hfc (funext hst)
  pending x hx := by
    rw [hlc] at hx ⊢
    exact h.pending x (hst _ ▸ hx)
  uncommitted := hunc
  newValue hr x hx := by simp [hnew hr] at hx
  done hc := by simp [hidle] at hc

theorem MonHist.bootstrapped (h : MonHist C P p) (hidle : p.commit = .idle) :
    MonHist C P (bootstrapped p) := h.of_store (fun _ => rfl) rfl rfl nofun (fun _ => rfl) hidle

/-- A leader collects over the store of `p`. -/
theorem MonHist.collecting {q : Monitor} (h : MonHist C P p) (hst : q.store = p.store)
    (hs : Synced q) (hnew : q.role = .leader → q.newValue = none) (i oldpn : Nat) :
    MonHist C P (collecting i oldpn q) := by
  refine h.of_store (fun _ => by rw [← hst]; rfl) (by rw [← hst]; rfl) (by rw [← hst]; rfl) ?_ hnew
    hs.idle
  intro _ _ x hx
  have hx' : q.store.values (q.lastCommitted + 1) = some x := hx
  refine ⟨q.lastCommitted, by simp [Paxos.collecting, hx'], ?_⟩
  rw [hs.last, hst] at hx' ⊢
  exact h.pending x hx'

theorem MonHist.heard (hC : HistoryOk C) (h : MonHist C P p) (hs : Synced p) (hm : Carries C lo m)
    (hnew : p.role = .leader → p.newValue = none) (j : Nat) : MonHist C P (heard j m p) :=
  MonHist.storeState hC
    ⟨h.store, h.pending, h.uncommitted, h.newValue, h.done⟩
    ⟨hs.idle, hs.last, hs.first, hs.pn⟩ hm hnew

theorem MonHist.counted (h : MonHist C P p) (hm : MsgHist C P m) (hop : m.op = .last)
    (hnew : p.role = .leader → p.newValue = none) (hidle : p.commit = .idle) :
    MonHist C P (counted m p) := by
  refine h.of_store (by simp) (by simp) (by simp) ?_ (by simpa using hnew) (by simpa using hidle)
  intro hr hrec x hx
  rcases counted_eq m p with heq | ⟨hpn, -, -, -, heq⟩
  · rw [heq] at hx ⊢
    exact h.uncommitted (by simpa using hr) (by simpa using hrec) x hx
  · rw [heq] at hx ⊢
    obtain ⟨y, hy, hP⟩ := hm.last hop hpn
    obtain rfl : y = x := some.inj (hy.symm.trans hx)
    exact ⟨m.lastCommitted, rfl, hP⟩

section

variable (hC : HistoryOk C) (h : MonHist C P p)

include hC h

/-- A leader begins with a value that is a candidate. -/
theorem MonHist.begin {v : Tx} (hs : Synced p) (hbegin : begin n i v p = some (p', out))
    (hP : P p.lastCommitted (dressValue p.lastCommitted v)) : MonHist C P p' := by
  obtain ⟨_, _, -, -, hcase⟩ := begin_eq_some hbegin
  have hstore : StoreAt C p.lastCommitted (begun i v p).store := by
    have hst : StoreAt C p.lastCommitted p.store := hs.last ▸ h.store
    exact (hst.putValue hC _).congr rfl rfl
  have hbegun : MonHist C P (begun i v p) := by
    refine ⟨?_, ?_, h.uncommitted, ?_, ?_⟩
    · exact hs.last.symm ▸ hstore
    · intro x hx
      have hx' : (begun i v p).store.values (p.lastCommitted + 1) = some x := by
        rw [hs.last]
        exact hx
      simp only [begun, putValue, update_self, some.injEq] at hx'
      subst hx'
      exact hs.last ▸ hP
    · intro _ x hx
      cases hx
      exact hP
    · intro hc
      simp [begun, hs.idle] at hc
  rcases hcase with ⟨-, hr⟩ | ⟨-, hr⟩
  · obtain ⟨rfl, -⟩ := Prod.mk.inj hr
    exact ⟨hbegun.store, hbegun.pending, fun _ hrec => by simp [committing, ite_eq_iff] at hrec,
      hbegun.newValue, fun hc => by simp [committing] at hc⟩
  · obtain ⟨rfl, -⟩ := Prod.mk.inj hr
    exact hbegun

/-- A peon accepts a value that is a candidate. -/
theorem MonHist.voted (hs : Synced p) (hrole : p.role ≠ .leader) (hP : P p.lastCommitted x) :
    MonHist C P (voted x p) := by
  have hst : StoreAt C p.lastCommitted p.store := hs.last ▸ h.store
  have hlc : (Paxos.voted x p).store.lastCommitted = p.lastCommitted := hs.last.symm
  refine ⟨?_, ?_, fun hr => absurd hr hrole, fun hr => absurd hr hrole, fun hc => ?_⟩
  · rw [hlc]
    exact (hst.putValue hC x).congr rfl rfl
  · intro _ hy
    rw [hlc] at hy ⊢
    simp only [Paxos.voted, putValue, update_self, some.injEq] at hy
    subst hy
    exact hP
  · simp [Paxos.voted, hs.idle] at hc

/-- The queued commit of a value of the history is applied. -/
theorem MonHist.applied {v : Nat} (hb : MonBase p) (hqueued : p.commit = .queued v x)
    (hx : C (p.lastCommitted + 1) x) : MonHist C P (applied v x p) := by
  obtain ⟨rfl, hnew⟩ := hb.queued v x hqueued
  obtain ⟨hrole, hstate⟩ := hb.busy (by simp [hqueued])
  obtain ⟨hlc, -⟩ := hb.caught (by simp [hqueued])
  obtain ⟨y, hy, hval⟩ := hb.proposing hrole
    (by rcases hstate with hs | hs <;> simp [Proposing, hs])
  obtain rfl : y = x := some.inj (hy.symm.trans hnew)
  replace hval := hval (by simp [hqueued])
  have hst : StoreAt C p.lastCommitted p.store := hlc ▸ h.store
  -- the value is in the store already, so applying it is committing the version
  have heq : (Paxos.applied (p.lastCommitted + 1) y p).store =
      commitVersion { p.store with lastCommitted := p.lastCommitted + 1 }
        (p.lastCommitted + 1, y) := by
    rw [commitVersion, putValue_self]
    · rfl
    · exact hval
  have hst' : StoreAt C p.lastCommitted { p.store with lastCommitted := p.lastCommitted + 1 } :=
    hst.congr rfl rfl
  obtain ⟨-, -, hlc', -, -⟩ := applyTx_rest y { p.store with lastCommitted := p.lastCommitted + 1 }
  have hstore : (Paxos.applied (p.lastCommitted + 1) y p).store.lastCommitted =
      p.lastCommitted + 1 := hlc'
  refine ⟨?_, ?_, h.uncommitted, h.newValue, ?_⟩
  · rw [hstore, heq]
    exact hst'.commitVersion hC hx
  · intro z hz
    rw [hstore, heq, hst'.commitVersion_next] at hz
    simp at hz
  · intro _ z hz
    obtain rfl : z = y := some.inj (hz.symm.trans hnew)
    exact hx

end

/-! ## All of them -/

theorem begin_newValue {v : Tx} (hbegin : begin n i v p = some (p', out)) :
    p'.role = .leader ∧ p'.newValue = some (dressValue p.lastCommitted v) ∧
      p'.lastCommitted = p.lastCommitted ∧
      ∀ k m, (k, m) ∈ out → m = beginMsg p (dressValue p.lastCommitted v) := by
  obtain ⟨hrole, -, -, -, hcase⟩ := begin_eq_some hbegin
  rcases hcase with ⟨-, hr⟩ | ⟨-, hr⟩
  · cases hr
    exact ⟨hrole, rfl, rfl, by simp⟩
  · cases hr
    refine ⟨hrole, rfl, rfl, ?_⟩
    intro k m hm
    exact (mem_broadcast hm).2

theorem MsgHist.of_op (h : m.op = .collect ∨ m.op = .accept) : MsgHist C P m := by
  refine ⟨fun hop => ?_, fun hop => ?_, fun hop => ?_⟩ <;> rcases h with h | h <;> simp [h] at hop

theorem beginMsg_hist (h : P p.lastCommitted x) : MsgHist C P (beginMsg p x) :=
  ⟨fun _ => ⟨x, rfl, h⟩, fun hop => by simp [beginMsg] at hop, fun hop => by simp [beginMsg] at hop⟩

theorem commitMsg_hist (h : C (p.lastCommitted + 1) x) : MsgHist C P (commitMsg p x) where
  begin hop := by simp [commitMsg] at hop
  carries _ := ⟨p.lastCommitted + 1, [(p.lastCommitted + 1, x)], ⟨rfl, le_rfl, h, rfl⟩, .inl rfl⟩
  last hop := by simp [commitMsg] at hop

theorem collects_hist {Q : Finset Nat} :
    ∀ k m, (k, m) ∈ (others n i Q).map (fun k => (k, collectMsg p)) → MsgHist C P m := by
  intro k m hm
  obtain ⟨-, rfl⟩ := mem_broadcast hm
  exact .of_op (.inl rfl)

section

variable (hC : HistoryOk C)

include hC

/-- A leader that hears a LAST, and what it shares then. -/
theorem MonHist.of_last (h : MonHist C P p) (hb : MonBase p)
    (hexp : Expected p (some m)) (hm : MsgHist C P m) (hl : LastHeard p m) (j : Nat) :
    (Paxos.heard j m p).newValue = none ∧ Synced (Paxos.heard j m p) ∧
      MonHist C P (Paxos.heard j m p) ∧ MonHist C P (Paxos.counted m (Paxos.heard j m p)) ∧
      ∀ {is : List Nat} {shared : Sends × Bool}, sharePeers (Paxos.heard j m p) is = some shared →
        ∀ k m', (k, m') ∈ shared.1 → MsgHist C P m' := by
  obtain ⟨-, hnone, hs⟩ := hb.of_last hexp hl
  obtain ⟨_, hlo⟩ := hm.carries (.inr hl.op)
  have hh := h.heard hC hs hlo (fun _ => hnone) j
  have hnone' : (Paxos.heard j m p).newValue = none := by simpa using hnone
  refine ⟨hnone', hs.heard j m, hh, hh.counted hm hl.op (fun _ => hnone') (hs.heard j m).idle,
    fun h k m' hm' => ?_⟩
  obtain ⟨a, -, ha, -, rfl⟩ := sharePeers_mem h k m' hm'
  exact ⟨fun hop => by simp [shareMsg] at hop,
    fun _ => ⟨_, shareMsg_carries hC ((hs.heard j m).last ▸ hh.store) ha⟩,
    fun hop => by simp [shareMsg] at hop⟩

/-- Every local step keeps the values in circulation in order, if what it newly
proposes is a candidate and what it newly commits is part of the history. -/
theorem MonHist.step (h : MonHist C P p) (hb : MonBase p) (hlocal : Local n p inp a p' out)
    (hexp : Expected p inp) (hm : ∀ m, inp = some m → MsgHist C P m)
    (hnew : p'.role = .leader → ∀ x, p'.newValue = some x → P p'.lastCommitted x)
    (hdone : p'.commit = .applied → ∀ x, p'.newValue = some x → C (p'.lastCommitted + 1) x) :
    MonHist C P p' ∧ ∀ k m, (k, m) ∈ out → MsgHist C P m := by
  cases hlocal with
  | @win i e Q _ _ _ hidle =>
    have hsync := hb.synced hidle
    exact ⟨h.collecting (q := elected e Q p) rfl ⟨hidle, hsync.last, hsync.first, hsync.pn⟩
      (fun _ => rfl) i 0, collects_hist⟩
  | winAlone _ _ _ hidle | lose _ _ hidle
  | lastBoot _ hidle =>
    exact ⟨h.of_store (fun _ => rfl) rfl rfl nofun (fun _ => rfl) hidle, by simp⟩
  | leave hidle | newer _ hidle | collectBoot _ _ _ hidle => exact ⟨h.bootstrapped hidle, by simp⟩
  | crash => exact ⟨h.of_store (fun _ => rfl) rfl rfl nofun (fun _ => rfl) rfl, by simp⟩
  | drop => exact ⟨h, by simp⟩
  | @collect _ _ m _ _ hrole =>
    have hs := hb.synced (hb.idle_of_not_leader (by simp [hrole]))
    have hp : MonHist C P (promised m p) :=
      h.of_store (fun v => by simp) (by simp) (by simp) (fun hl => by simp [hrole] at hl)
        (fun hl => by simp [hrole] at hl) (by simpa using hs.idle)
    refine ⟨hp, ?_⟩
    intro k m' hm'
    obtain ⟨-, rfl⟩ := mem_reply hm'
    have hlast : (promised m p).lastCommitted = (promised m p).store.lastCommitted := by
      simpa using hs.last
    refine lastMsg_hist hC (hlast ▸ hp.store) (by simpa using hs.first) ?_
    rw [hlast]
    exact hp.pending
  | @lastShareBoot j _ m _ hl hidle =>
    obtain ⟨-, -, hh, -, hshare⟩ := h.of_last hC hb hexp (hm m rfl) hl.toLastHeard j
    exact ⟨hh.bootstrapped hidle, hshare hl.sent⟩
  | @lastRetry j i m _ hl =>
    obtain ⟨hnone, hs, hh, -, hshare⟩ := h.of_last hC hb hexp (hm m rfl) hl.toLastHeard j
    refine ⟨hh.collecting rfl hs (fun _ => hnone) i m.pn, ?_⟩
    intro k m' hm'
    rcases mem_append.1 hm' with hm' | hm'
    · exact hshare hl.sent k m' hm'
    · exact collects_hist k m' hm'
  | @lastOld j _ m _ hl =>
    obtain ⟨-, -, hh, -, hshare⟩ := h.of_last hC hb hexp (hm m rfl) hl.toLastHeard j
    exact ⟨hh, hshare hl.sent⟩
  | @lastCount j _ m _ hl =>
    obtain ⟨-, -, -, hc, hshare⟩ := h.of_last hC hb hexp (hm m rfl) hl.toLastHeard j
    exact ⟨hc, hshare hl.sent⟩
  | @lastActive j _ m _ hl =>
    obtain ⟨-, -, -, hc, hshare⟩ := h.of_last hC hb hexp (hm m rfl) hl.toLastHeard j
    exact ⟨⟨hc.store, hc.pending, nofun, hc.newValue, hc.done⟩, hshare hl.sent⟩
  | @lastBegin j _ m _ _ _ _ hl _ _ _ _ _ hbegin =>
    obtain ⟨-, hs, -, hc, hshare⟩ := h.of_last hC hb hexp (hm m rfl) hl.toLastHeard j
    have hcs := hs.counted m
    obtain ⟨hr', hnv, hlc, hout⟩ := begin_newValue hbegin
    have hP := hnew hr' _ hnv
    rw [hlc] at hP
    refine ⟨MonHist.begin (p := recovered .updatingPrevious (Paxos.counted m (Paxos.heard j m p)))
      hC ⟨hc.store, hc.pending, nofun, hc.newValue, hc.done⟩
      ⟨hcs.idle, hcs.last, hcs.first, hcs.pn⟩ hbegin hP, ?_⟩
    intro k m' hm'
    rcases mem_append.1 hm' with hm' | hm'
    · exact hshare hl.sent k m' hm'
    · rw [hout k m' hm']
      exact beginMsg_hist hP
  | @vote _ _ m _ hop hepoch _ hpn hlast hx =>
    have hne := hexp.vote _ rfl hop hepoch hpn
    have hs := hb.synced (hb.idle_of_not_leader hne)
    obtain ⟨_, hy, hP⟩ := (hm m rfl).begin hop
    rw [hlast] at hP hy
    rw [hy] at hx
    simp only [lookup_cons_self, some.injEq] at hx
    subst hx
    refine ⟨h.voted hC hs hne hP, ?_⟩
    intro k m' hm'
    obtain ⟨-, rfl⟩ := mem_reply hm'
    exact .of_op (.inr rfl)
  | accept => exact ⟨⟨h.store, h.pending, h.uncommitted, h.newValue, h.done⟩, by simp⟩
  | acceptCommit =>
    exact ⟨⟨h.store, h.pending, fun _ hrec => by simp [committing, ite_eq_iff] at hrec, h.newValue,
      fun hc => by simp [committing] at hc⟩, by simp⟩
  | @commit _ _ m hop _ hrole =>
    have hs := hb.synced (hb.idle_of_not_leader (by simp [hrole]))
    obtain ⟨_, hlo⟩ := (hm m rfl).carries (.inl hop)
    exact ⟨h.storeState hC hs hlo (fun hl => by simp [hrole] at hl), by simp⟩
  | @propose _ _ _ _ _ _ hstate hbegin =>
    have hs := hb.synced (hb.idle_of_state (by simp [hstate]) (by simp [hstate]))
    obtain ⟨hr', hnv, hlc, hout⟩ := begin_newValue hbegin
    have hP := hnew hr' _ hnv
    rw [hlc] at hP
    refine ⟨MonHist.begin (p := { p with state := .updating }) hC
      ⟨h.store, h.pending, (fun _ hrec => by cases hrec), h.newValue, h.done⟩
      ⟨hs.idle, hs.last, hs.first, hs.pn⟩ hbegin hP, ?_⟩
    intro k m' hm'
    rw [hout k m' hm']
    exact beginMsg_hist hP
  | @apply _ v x hqueued =>
    exact ⟨h.applied hC hb hqueued (hdone rfl x (hb.queued v x hqueued).2), by simp⟩
  | @finish _ x hx happlied =>
    refine ⟨h.of_store (fun _ => rfl) rfl rfl (fun _ hrec => by cases hrec) (fun _ => rfl) rfl, ?_⟩
    intro k m' hm'
    obtain ⟨-, rfl⟩ := mem_broadcast hm'
    exact commitMsg_hist (h.done happlied x hx)

/-- A leader only begins with a value that may follow: its own, or one it has
learned. -/
theorem MonHist.newValue_step (h : MonHist C (Proposable C) p) (hb : MonBase p)
    (hlocal : Local n p inp a p' out) (hexp : Expected p inp)
    (hm : ∀ m, inp = some m → MsgHist C (Proposable C) m) (hrole' : p'.role = .leader) :
    ∀ x, p'.newValue = some x → Proposable C p'.lastCommitted x := by
  intro x hx
  cases hlocal with
  | win => simp [Paxos.collecting, elected] at hx
  | winAlone => simp [elected] at hx
  | lose => simp [peonInit] at hrole'
  | leave | newer | collectBoot | lastBoot | lastShareBoot => simp [Paxos.bootstrapped] at hrole'
  | crash => simp [restarted] at hrole'
  | drop | accept | acceptCommit | apply => exact h.newValue hrole' x hx
  | collect _ _ hrole => simp [hrole] at hrole'
  | lastRetry hl => simp [Paxos.collecting, (hb.of_last hexp hl.toLastHeard).2.1] at hx
  | lastOld hl | lastCount hl => simp [(hb.of_last hexp hl.toLastHeard).2.1] at hx
  | lastActive hl => simp [recovered, (hb.of_last hexp hl.toLastHeard).2.1] at hx
  | @lastBegin j _ m _ y _ _ hl _ _ _ hy _ hbegin =>
    obtain ⟨-, -, -, hc, -⟩ := h.of_last hC hb hexp (hm m rfl) hl.toLastHeard j
    obtain ⟨v, _, hP⟩ := hc.uncommitted (by simpa using hl.role)
      (by simpa using (hb.of_last hexp hl.toLastHeard).1) y hy
    obtain ⟨-, hnv, hlc, -⟩ := begin_newValue hbegin
    obtain rfl : dressValue _ y = x := some.inj (hnv.symm.trans hx)
    rw [hlc]
    obtain rfl : v = (Paxos.counted m (Paxos.heard j m p)).lastCommitted := by omega
    exact hP.dressValue
  | vote hop hepoch _ hpn => exact absurd hrole' (hexp.vote _ rfl hop hepoch hpn)
  | commit _ _ hrole => simp [hrole] at hrole'
  | @propose _ _ _ _ _ _ hstate hbegin =>
    have hs := hb.synced (hb.idle_of_state (by simp [hstate]) (by simp [hstate]))
    obtain ⟨-, hnv, hlc, -⟩ := begin_newValue hbegin
    obtain rfl : dressValue _ _ = x := some.inj (hnv.symm.trans hx)
    rw [hlc]
    exact pendingTx_proposable hC (hs.last ▸ h.store) hs.first
  | finish => simp [finished] at hx

/-- Committed versions stay committed. -/
theorem MonHist.lastCommitted_step (h : MonHist C P p) (hb : MonBase p)
    (hlocal : Local n p inp a p' out) (hexp : Expected p inp)
    (hm : ∀ m, inp = some m → MsgHist C P m) : p.store.lastCommitted ≤ p'.store.lastCommitted := by
  have hstored : ∀ {q : Monitor} {m : MMonPaxos}, inp = some m → m.op = .commit ∨ m.op = .last →
      q.store = p.store → Synced q →
      p.store.lastCommitted ≤ (Paxos.storeState m q).store.lastCommitted := by
    intro q m hinp hop hst hs
    obtain ⟨_, hlo⟩ := (hm m hinp).carries hop
    have hat : StoreAt C q.lastCommitted q.store := by
      rw [hs.last, hst]
      exact h.store
    rcases storeState_spec hC hlo hat with ⟨-, heq⟩ | ⟨-, _, _, heq, -, -, hlc, -⟩ <;> rw [heq]
    · rw [hst]
    · have := hs.last
      rw [← hst]
      simp only [stored, hlc]
      omega
  have hbegin : ∀ {q p' : Monitor} {i : Nat} {v : Tx} {out : Sends},
      Paxos.begin n i v q = some (p', out) → p'.store.lastCommitted = q.store.lastCommitted := by
    intro q p' i v out hbegin
    obtain ⟨-, -, -, -, hcase⟩ := begin_eq_some hbegin
    rcases hcase with ⟨-, hr⟩ | ⟨-, hr⟩ <;> rw [(Prod.mk.inj hr).1] <;> rfl
  have hheard : ∀ {j : Nat} {m : MMonPaxos}, inp = some m → LastHeard p m →
      p.store.lastCommitted ≤ (Paxos.heard j m p).store.lastCommitted := by
    intro j m hinp hl
    subst hinp
    obtain ⟨-, -, hs⟩ := hb.of_last hexp hl
    exact hstored rfl (.inr hl.op) rfl ⟨hs.idle, hs.last, hs.first, hs.pn⟩
  cases hlocal with
  | collect => simp
  | lastShareBoot hl | lastRetry hl | lastOld hl => exact hheard rfl hl.toLastHeard
  | lastCount hl =>
    rw [counted_store]
    exact hheard rfl hl.toLastHeard
  | @lastActive j _ m _ hl =>
    show _ ≤ (Paxos.counted m (Paxos.heard j m p)).store.lastCommitted
    rw [counted_store]
    exact hheard rfl hl.toLastHeard
  | @lastBegin j _ m _ _ _ _ hl _ _ _ _ _ hb' =>
    rw [hbegin hb']
    show _ ≤ (Paxos.counted m (Paxos.heard j m p)).store.lastCommitted
    rw [counted_store]
    exact hheard rfl hl.toLastHeard
  | commit hop _ hrole =>
    exact hstored rfl (.inl hop) rfl (hb.synced (hb.idle_of_not_leader (by simp [hrole])))
  | propose _ _ hb' => exact le_of_eq (hbegin hb').symm
  | @apply _ v x hqueued =>
    have hv := (hb.queued v x hqueued).1
    have hlc := (hb.caught (by simp [hqueued])).1
    obtain ⟨-, -, hlast, -, -⟩ := applyTx_rest x { p.store with lastCommitted := v }
    show _ ≤ (applyTx x { p.store with lastCommitted := v }).lastCommitted
    rw [hlast]
    dsimp only
    omega
  | _ => exact le_rfl

/-- The step that applies a commit extends the history; the version must be new. -/
theorem MonHist.extend_step (h : MonHist C (Proposable C) p) (hb : MonBase p)
    (hlocal : Local n p inp a p' out) (hexp : Expected p inp)
    (hfree : ∀ v x, p.commit = .queued v x → ∀ y, ¬ C (p.lastCommitted + 1) y) :
    ∃ C', HistoryOk C' ∧ (∀ v x, C v x → C' v x) ∧
      (∀ v x, C' v x → C v x ∨ v ≤ p'.store.lastCommitted) ∧
      (p'.commit = .applied → ∀ x, p'.newValue = some x → C' (p'.lastCommitted + 1) x) := by
  by_cases happ : p'.commit = .applied
  · obtain ⟨hlc, -, hnv, hcase⟩ := hlocal.applied_cases hb hexp happ
    rw [hlc, hnv]
    obtain hold | hnew := hcase
    · exact ⟨C, hC, fun _ _ => id, fun _ _ => .inl, fun _ => h.done hold⟩
    · obtain ⟨v, x, hqueued, _⟩ := hnew
      obtain ⟨_, hx⟩ := hb.queued v x hqueued
      have hlead := (hb.busy (by simp [hqueued])).1
      refine ⟨extend C (p.lastCommitted + 1) x,
        hC.extend (hfree v x hqueued) (h.newValue hlead x hx), fun _ _ => .inl, ?_, ?_⟩
      · rintro _ y (hy | ⟨rfl, rfl⟩)
        · exact .inl hy
        · rw [(hb.step hlocal hexp).ahead happ, hlc]
          exact .inr le_rfl
      · intro _ y hy
        exact .inr ⟨rfl, some.inj (hy.symm.trans hx)⟩
  · exact ⟨C, hC, fun _ _ => id, fun _ _ => .inl, fun hc => absurd hc happ⟩

end

end Ceph.Mon.Paxos
