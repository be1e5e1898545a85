import Ceph.Mon.Paxos.History

set_option autoImplicit false

/-!
# What holds of a single monitor

How the volatile state of a monitor relates to its store, through all the local
steps, and which of its fields a step can move.
-/

namespace Ceph.Mon.Paxos

open Ceph.Lib

variable {n : Nat}

/-! ## Fields that storing and counting leave alone -/

section Fields

variable (m : MMonPaxos) (p : Monitor) (j : Nat)

theorem storeState_cases :
    storeState m p = p ∨ ∃ hi st, storeState m p = stored hi st p ∧ st.lastCommitted = hi ∧
      st.lastPn = p.store.lastPn ∧ st.acceptedPn = p.store.acceptedPn := by
  unfold storeState
  split
  · exact .inl rfl
  next final _ =>
    obtain ⟨k1, k2, k3, -, -⟩ := foldl_commitVersion_rest (toStore m p.lastCommitted)
      { p.store with lastCommitted := final.1 }
    exact .inr ⟨final.1, _, rfl, k3, k1, k2⟩

@[simp] theorem storeState_rest : (storeState m p).epoch = p.epoch ∧
    (storeState m p).role = p.role ∧ (storeState m p).quorum = p.quorum ∧
    (storeState m p).state = p.state ∧ (storeState m p).acceptedPn = p.acceptedPn ∧
    (storeState m p).numLast = p.numLast ∧
    (storeState m p).peerLastCommitted = p.peerLastCommitted ∧
    (storeState m p).accepted = p.accepted ∧ (storeState m p).newValue = p.newValue ∧
    (storeState m p).commit = p.commit := by
  unfold storeState
  split <;> simp

@[simp] theorem storeState_store : (storeState m p).store.lastPn = p.store.lastPn ∧
    (storeState m p).store.acceptedPn = p.store.acceptedPn := by
  rcases storeState_cases m p with h | ⟨_, _, h, -, hpn⟩ <;> rw [h]
  · exact ⟨rfl, rfl⟩
  · exact hpn

@[simp] theorem heard_rest : (heard j m p).epoch = p.epoch ∧ (heard j m p).role = p.role ∧
    (heard j m p).quorum = p.quorum ∧ (heard j m p).state = p.state ∧
    (heard j m p).numLast = p.numLast ∧ (heard j m p).accepted = p.accepted ∧
    (heard j m p).newValue = p.newValue ∧
    (heard j m p).store.acceptedPn = p.store.acceptedPn := by
  simp [heard, recorded]

@[simp] theorem heard_commit : (heard j m p).commit = p.commit := by simp [heard, recorded]

@[simp] theorem heard_acceptedPn : (heard j m p).acceptedPn = p.acceptedPn := by
  simp [heard, recorded]

@[simp] theorem heard_peerLastCommitted : (heard j m p).peerLastCommitted =
    Function.update p.peerLastCommitted j (some m.lastCommitted) := by
  simp [heard, recorded]

@[simp] theorem heard_store_lastPn : (heard j m p).store.lastPn = p.store.lastPn := by
  simp [heard, recorded]

/-- Counting a LAST changes the count and possibly the uncommitted value. -/
theorem counted_eq :
    counted m p = { p with numLast := p.numLast + 1 } ∨
      (m.uncommittedPn ≠ 0 ∧ p.uncommittedPn ≤ m.uncommittedPn ∧
        p.lastCommitted ≤ m.lastCommitted ∧ p.uncommittedV ≤ m.lastCommitted + 1 ∧
        counted m p = { p with
          numLast := p.numLast + 1
          uncommittedV := m.lastCommitted + 1
          uncommittedPn := m.uncommittedPn
          uncommittedValue := m.values.lookup (m.lastCommitted + 1) }) := by
  unfold counted learnUncommitted
  split
  next h => exact .inr ⟨h.1, h.2.1, h.2.2.1, h.2.2.2, rfl⟩
  · exact .inl rfl

@[simp] theorem counted_rest : (counted m p).epoch = p.epoch ∧ (counted m p).role = p.role ∧
    (counted m p).quorum = p.quorum ∧ (counted m p).state = p.state ∧
    (counted m p).firstCommitted = p.firstCommitted ∧ (counted m p).numLast = p.numLast + 1 ∧
    (counted m p).peerLastCommitted = p.peerLastCommitted ∧
    (counted m p).accepted = p.accepted ∧ (counted m p).newValue = p.newValue ∧
    (counted m p).commit = p.commit := by
  rcases counted_eq m p with h | ⟨-, -, -, -, h⟩ <;> simp [h]

@[simp] theorem counted_acceptedPn : (counted m p).acceptedPn = p.acceptedPn := by
  rcases counted_eq m p with h | ⟨-, -, -, -, h⟩ <;> rw [h]

@[simp] theorem counted_lastCommitted : (counted m p).lastCommitted = p.lastCommitted := by
  rcases counted_eq m p with h | ⟨-, -, -, -, h⟩ <;> rw [h]

@[simp] theorem counted_store : (counted m p).store = p.store := by
  rcases counted_eq m p with h | ⟨-, -, -, -, h⟩ <;> rw [h]

/-- Looking at a COLLECT changes the proposal number at most. -/
theorem promised_eq :
    promised m p = { p with state := .recovering } ∨
      (p.acceptedPn < m.pn ∧ promised m p =
        { p with state := .recovering, acceptedPn := m.pn,
                 store := { p.store with acceptedPn := m.pn } }) := by
  unfold promised
  split
  next h => exact .inr ⟨h, rfl⟩
  · exact .inl rfl

@[simp] theorem promised_rest : (promised m p).epoch = p.epoch ∧ (promised m p).role = p.role ∧
    (promised m p).quorum = p.quorum ∧ (promised m p).lastCommitted = p.lastCommitted ∧
    (promised m p).firstCommitted = p.firstCommitted ∧ (promised m p).commit = p.commit ∧
    (promised m p).uncommittedV = p.uncommittedV ∧
    (promised m p).uncommittedValue = p.uncommittedValue := by
  rcases promised_eq m p with h | ⟨-, h⟩ <;> simp [h]

@[simp] theorem promised_store :
    (promised m p).store.lastCommitted = p.store.lastCommitted ∧
      (promised m p).store.lastPn = p.store.lastPn ∧
      (promised m p).store.values = p.store.values ∧
      (promised m p).store.firstCommitted = p.store.firstCommitted := by
  rcases promised_eq m p with h | ⟨-, h⟩ <;> simp [h]

theorem promised_acceptedPn_ge : p.acceptedPn ≤ (promised m p).acceptedPn := by
  rcases promised_eq m p with h | ⟨hlt, h⟩ <;> rw [h]
  exact hlt.le

end Fields

/-! ## Memory and store -/

/-- The leader has a proposal under way. -/
def Proposing (p : Monitor) : Prop :=
  p.state = .updating ∨ p.state = .updatingPrevious ∨ p.state = .writing ∨
    p.state = .writingPrevious

/-- How the volatile state of a monitor relates to its store. -/
structure MonBase (p : Monitor) : Prop where
  caught : p.commit ≠ .applied → p.lastCommitted = p.store.lastCommitted ∧
    p.firstCommitted = p.store.firstCommitted
  ahead : p.commit = .applied → p.store.lastCommitted = p.lastCommitted + 1
  busy : p.commit ≠ .idle → p.role = .leader ∧ (p.state = .writing ∨ p.state = .writingPrevious)
  queued : ∀ v x, p.commit = .queued v x → v = p.lastCommitted + 1 ∧ p.newValue = some x
  writing : p.role = .leader → p.state = .writing ∨ p.state = .writingPrevious → p.commit ≠ .idle
  proposing : p.role = .leader → Proposing p → ∃ x, p.newValue = some x ∧
    (p.commit ≠ .applied → p.store.values (p.lastCommitted + 1) = some x)
  clear : p.role = .leader → p.state = .recovering ∨ p.state = .active → p.newValue = none
  pn : p.store.acceptedPn ≤ p.acceptedPn

variable {p p' : Monitor} {out : Sends}

theorem MonBase.idle_of_not_leader (h : MonBase p) (hrole : p.role ≠ .leader) :
    p.commit = .idle := by
  by_contra hc
  exact hrole (h.busy hc).1

theorem MonBase.idle_of_state (h : MonBase p) (hw : p.state ≠ .writing)
    (hwp : p.state ≠ .writingPrevious) : p.commit = .idle := by
  by_contra hc
  rcases (h.busy hc).2 with hs | hs
  · exact hw hs
  · exact hwp hs

/-- No commit is being written, and memory and store agree. -/
structure Synced (p : Monitor) : Prop where
  idle : p.commit = .idle
  last : p.lastCommitted = p.store.lastCommitted
  first : p.firstCommitted = p.store.firstCommitted
  pn : p.store.acceptedPn ≤ p.acceptedPn

theorem MonBase.synced (h : MonBase p) (hidle : p.commit = .idle) : Synced p :=
  have hc := h.caught (by simp [hidle])
  ⟨hidle, hc.1, hc.2, h.pn⟩

theorem Synced.base (h : Synced p)
    (hstate : p.role = .leader → p.state ≠ .writing ∧ p.state ≠ .writingPrevious)
    (hprop : p.role = .leader → Proposing p → ∃ x, p.newValue = some x ∧ p.store.values
      (p.lastCommitted + 1) = some x)
    (hclear : p.role = .leader → p.state = .recovering ∨ p.state = .active → p.newValue = none) :
    MonBase p where
  caught _ := ⟨h.last, h.first⟩
  ahead hc := by simp [h.idle] at hc
  busy hc := absurd h.idle hc
  queued v x hc := by simp [h.idle] at hc
  writing hrole hs := by
    rcases hs with hs | hs
    · exact absurd hs (hstate hrole).1
    · exact absurd hs (hstate hrole).2
  proposing hrole hp := by
    obtain ⟨x, hx, hv⟩ := hprop hrole hp
    exact ⟨x, hx, fun _ => hv⟩
  clear := hclear
  pn := h.pn

/-- A monitor that is no leader, or a leader without a proposal. -/
theorem Synced.base_of_state (h : Synced p)
    (hstate : p.role = .leader → (p.state = .recovering ∨ p.state = .active) ∧ p.newValue = none) :
    MonBase p := by
  refine h.base ?_ ?_ ?_
  · intro hr
    rcases (hstate hr).1 with hs | hs <;> simp [hs]
  · intro hr hp
    rcases (hstate hr).1 with hs | hs <;> simp [Proposing, hs] at hp
  · intro hr _
    exact (hstate hr).2

theorem Synced.base_of_role (h : Synced p) (hrole : p.role ≠ .leader) : MonBase p :=
  h.base_of_state fun hr => absurd hr hrole

/-! ## Proposal numbers -/

/-- A leader that collects has a new proposal number, above all it knows of. -/
theorem collecting_pn (i oldpn : Nat) (p : Monitor) :
    (collecting i oldpn p).acceptedPn = (collecting i oldpn p).store.lastPn ∧
      p.store.lastPn < (collecting i oldpn p).acceptedPn ∧
      p.acceptedPn < (collecting i oldpn p).acceptedPn ∧
      ∃ k, (collecting i oldpn p).acceptedPn = 100 * k + i := by
  -- for ranks below 100 the leader's rank is what is left of the number modulo 100
  refine ⟨rfl, ?_, ?_, max p.store.lastPn (max p.acceptedPn oldpn) / 100 + 1, ?_⟩ <;>
    simp only [Paxos.collecting, newProposalNumber] <;> omega

/-! ## Local steps keep the base facts -/

theorem Synced.collecting (h : Synced p) (i oldpn : Nat) : Synced (collecting i oldpn p) := by
  obtain ⟨-, -, hgt, -⟩ := collecting_pn i oldpn p
  exact ⟨h.idle, h.last, h.first, h.pn.trans hgt.le⟩

theorem Synced.storeState (h : Synced p) (m : MMonPaxos) : Synced (storeState m p) := by
  refine ⟨by simpa using h.idle, ?_, ?_, by simpa using h.pn⟩
  · rcases storeState_cases m p with heq | ⟨hi, st, heq, hst, -⟩ <;> rw [heq]
    · exact h.last
    · exact hst.symm
  · rcases storeState_cases m p with heq | ⟨hi, st, heq, -⟩ <;> rw [heq]
    · exact h.first
    · rfl

theorem Synced.heard (h : Synced p) (j : Nat) (m : MMonPaxos) : Synced (heard j m p) :=
  Synced.storeState (p := recorded j m p) ⟨h.idle, h.last, h.first, h.pn⟩ m

theorem Synced.bootstrapped (h : Synced p) : MonBase (bootstrapped p) :=
  Synced.base_of_role ⟨h.idle, h.last, h.first, h.pn⟩ (by simp [Paxos.bootstrapped])

theorem Synced.counted (h : Synced p) (m : MMonPaxos) : Synced (counted m p) :=
  ⟨by simpa using h.idle, by simpa using h.last, by simpa using h.first, by simpa using h.pn⟩

theorem MonBase.committing {x : Tx} (h : MonBase p) (hidle : p.commit = .idle)
    (hrole : p.role = .leader) (hx : p.newValue = some x)
    (hval : p.store.values (p.lastCommitted + 1) = some x) : MonBase (committing x p) where
  caught _ := h.caught (by simp [hidle])
  ahead hc := by simp [Paxos.committing] at hc
  busy _ := by
    refine ⟨hrole, ?_⟩
    unfold Paxos.committing
    split <;> simp
  queued v y hc := by
    obtain ⟨rfl, rfl⟩ := hc
    exact ⟨rfl, hx⟩
  writing _ _ := by simp [Paxos.committing]
  proposing _ _ := ⟨x, hx, fun _ => hval⟩
  clear _ hs := by
    simp only [Paxos.committing] at hs
    split at hs <;> simp at hs
  pn := h.pn

/-- A leader stores its proposal as it begins; alone, it queues the commit too. -/
theorem Synced.begin {i : Nat} {v : Tx} (h : Synced p) (hbegin : begin n i v p = some (p', out)) :
    MonBase p' := by
  obtain ⟨hrole, hstate, -, -, hcase⟩ := begin_eq_some hbegin
  have hbegun : MonBase (begun i v p) := by
    refine Synced.base ⟨h.idle, h.last, h.first, h.pn⟩ ?_ ?_ ?_
    · rcases hstate with hs | hs <;> simp [begun, hs]
    · intro _ _
      exact ⟨dressValue p.lastCommitted v, rfl, by simp [begun, Store.putValue]⟩
    · intro _ hs
      rcases hstate with hs' | hs' <;> simp [begun, hs'] at hs
  rcases hcase with ⟨-, hr⟩ | ⟨-, hr⟩
  · obtain ⟨rfl, -⟩ := Prod.mk.inj hr
    exact hbegun.committing h.idle hrole rfl (by simp [begun, Store.putValue])
  · obtain ⟨rfl, -⟩ := Prod.mk.inj hr
    exact hbegun

/-- What the messages in flight guarantee to the monitor that receives one: a
leader hears a LAST only while it recovers, it never accepts another's proposal,
and only a leader counts an ACCEPT. -/
structure Expected (p : Monitor) (inp : Option MMonPaxos) : Prop where
  last : ∀ m, inp = some m → LastHeard p m → p.state = .recovering
  vote : ∀ m, inp = some m → m.op = .begin → m.epoch = p.epoch → m.pn = p.acceptedPn →
    p.role ≠ .leader
  accept : ∀ m, inp = some m → m.op = .accept → m.epoch = p.epoch → ∀ l, p.role ≠ .peon l

theorem MonBase.of_last {m : MMonPaxos} (h : MonBase p) (hexp : Expected p (some m))
    (hl : LastHeard p m) : p.state = .recovering ∧ p.newValue = none ∧ Synced p := by
  have hrec := hexp.last m rfl hl
  exact ⟨hrec, h.clear hl.role (.inl hrec),
    h.synced (h.idle_of_state (by simp [hrec]) (by simp [hrec]))⟩

/-- Every local step keeps the base facts. -/
theorem MonBase.step {inp : Option MMonPaxos} {a : Action} (h : MonBase p)
    (hlocal : Local n p inp a p' out) (hexp : Expected p inp) : MonBase p' := by
  cases hlocal with
  | win _ _ _ hidle =>
    have hs := h.synced hidle
    exact Synced.base_of_state
      (Synced.collecting (p := elected _ _ p) ⟨hs.idle, hs.last, hs.first, hs.pn⟩ _ _)
      fun _ => ⟨.inl rfl, rfl⟩
  | winAlone _ _ _ hidle =>
    have hs := h.synced hidle
    exact Synced.base_of_state ⟨hs.idle, hs.last, hs.first, hs.pn⟩ fun _ => ⟨.inr rfl, rfl⟩
  | lose _ _ hidle =>
    have hs := h.synced hidle
    exact Synced.base_of_role ⟨hs.idle, hs.last, hs.first, hs.pn⟩ (by simp [peonInit])
  | leave hidle | newer _ hidle | collectBoot _ _ _ hidle => exact (h.synced hidle).bootstrapped
  | crash => exact Synced.base_of_role ⟨rfl, rfl, rfl, le_rfl⟩ (by simp [restarted])
  | drop => exact h
  | collect _ _ hrole =>
    have hs := h.synced (h.idle_of_not_leader (by simp [hrole]))
    unfold promised
    split
    · exact Synced.base_of_role ⟨hs.idle, hs.last, hs.first, le_rfl⟩ (by simp [hrole])
    · exact Synced.base_of_role ⟨hs.idle, hs.last, hs.first, hs.pn⟩ (by simp [hrole])
  | lastBoot _ hidle =>
    have hs := h.synced hidle
    exact Synced.bootstrapped ⟨hs.idle, hs.last, hs.first, hs.pn⟩
  | @lastShareBoot j _ m _ _ hidle =>
    exact ((h.synced (by simpa using hidle)).heard j m).bootstrapped
  | @lastRetry j i m _ hl =>
    obtain ⟨-, hnew, hs⟩ := h.of_last hexp hl.toLastHeard
    exact ((hs.heard j m).collecting i m.pn).base_of_state
      fun _ => ⟨.inl rfl, by simpa [collecting] using hnew⟩
  | @lastOld j _ m _ hl =>
    obtain ⟨hrec, hnew, hs⟩ := h.of_last hexp hl.toLastHeard
    exact (hs.heard j m).base_of_state fun _ => ⟨.inl (by simpa using hrec), by simpa using hnew⟩
  | @lastCount j _ m _ hl =>
    obtain ⟨hrec, hnew, hs⟩ := h.of_last hexp hl.toLastHeard
    exact ((hs.heard j m).counted m).base_of_state
      fun _ => ⟨.inl (by simpa using hrec), by simpa using hnew⟩
  | @lastActive j _ m _ hl =>
    obtain ⟨-, hnew, hs⟩ := h.of_last hexp hl.toLastHeard
    replace hs := (hs.heard j m).counted m
    exact Synced.base_of_state ⟨hs.idle, hs.last, hs.first, hs.pn⟩
      fun _ => ⟨.inr rfl, by simpa [recovered] using hnew⟩
  | @lastBegin j _ m _ _ _ _ hl _ _ _ _ _ hbegin =>
    obtain ⟨-, -, hs⟩ := h.of_last hexp hl.toLastHeard
    replace hs := (hs.heard j m).counted m
    exact Synced.begin (p := recovered _ _) ⟨hs.idle, hs.last, hs.first, hs.pn⟩ hbegin
  | vote hop hepoch _ hpn =>
    have hne := hexp.vote _ rfl hop hepoch hpn
    have hs := h.synced (h.idle_of_not_leader hne)
    exact Synced.base_of_role ⟨hs.idle, hs.last, hs.first, hs.pn⟩ hne
  | accept => exact ⟨h.caught, h.ahead, h.busy, h.queued, h.writing, h.proposing, h.clear, h.pn⟩
  | acceptCommit hop hepoch hrole _ _ hstate _ _ hx =>
    have hleader : p.role = .leader := hrole.resolve_right (hexp.accept _ rfl hop hepoch _)
    have hidle : p.commit = .idle := by
      rcases hstate with hs | hs <;> exact h.idle_of_state (by simp [hs]) (by simp [hs])
    obtain ⟨y, hy, hval⟩ := h.proposing hleader (by
      rcases hstate with hs | hs <;> simp [Proposing, hs])
    obtain rfl : y = _ := Option.some.inj (hy.symm.trans hx)
    refine MonBase.committing ?_ hidle hleader hx (hval (by simp [hidle]))
    exact ⟨h.caught, h.ahead, h.busy, h.queued, h.writing, h.proposing, h.clear, h.pn⟩
  | commit _ _ hrole =>
    have hs := h.synced (h.idle_of_not_leader (by simp [hrole]))
    exact (hs.storeState _).base_of_role (by simp [hrole])
  | propose _ hstate hbegin =>
    have hs := h.synced (h.idle_of_state (by simp [hstate]) (by simp [hstate]))
    exact Synced.begin (p := { p with state := .updating })
      ⟨hs.idle, hs.last, hs.first, hs.pn⟩ hbegin
  | apply hqueued =>
    rename_i v x
    obtain ⟨hv, hx⟩ := h.queued v x hqueued
    obtain ⟨hrole, hstate⟩ := h.busy (by simp [hqueued])
    obtain ⟨_, hk2, hk3, -, -⟩ := Store.applyTx_rest x { p.store with lastCommitted := v }
    refine ⟨fun hc => absurd rfl hc, fun _ => ?_, fun _ => ⟨hrole, hstate⟩, ?_, ?_, ?_, ?_, ?_⟩
    · exact hk3.trans hv
    · intro v x hc
      simp [applied] at hc
    · simp [applied]
    · intro _ _
      exact ⟨x, hx, fun hc => absurd rfl hc⟩
    · intro _ hs
      rcases hstate with hs' | hs' <;> simp [applied, hs'] at hs
    · exact hk2 ▸ h.pn
  | finish _ _ hlc => exact Synced.base_of_state ⟨rfl, hlc.symm, rfl, h.pn⟩ fun _ => ⟨.inr rfl, rfl⟩

/-- Between the two halves of a commit nothing else happens to the leader. -/
theorem Local.applied_cases {inp : Option MMonPaxos} {a : Action} (hb : MonBase p)
    (hlocal : Local n p inp a p' out) (hexp : Expected p inp) (happlied : p'.commit = .applied) :
    p'.lastCommitted = p.lastCommitted ∧ p'.firstCommitted = p.firstCommitted ∧
      p'.newValue = p.newValue ∧
      (p.commit = .applied ∨ ∃ v x, p.commit = .queued v x ∧ p' = Paxos.applied v x p) := by
  have hidle : p.commit = .idle → p'.commit = p.commit → False := by
    intro h heq
    simp [heq, h] at happlied
  have hbegin : ∀ {q : Monitor} {i : Nat} {v : Tx} {out' : Sends},
      begin n i v q = some (p', out') → q.commit = .idle → False := by
    intro q i v out' h hq
    obtain ⟨-, -, -, -, hcase⟩ := begin_eq_some h
    rcases hcase with ⟨-, hr⟩ | ⟨-, hr⟩
    · simp [(Prod.mk.inj hr).1, Paxos.committing] at happlied
    · simp [(Prod.mk.inj hr).1, begun, hq] at happlied
  cases hlocal with
  | win _ _ _ hi | winAlone _ _ _ hi | lose _ _ hi | leave hi
  | newer _ hi | collectBoot _ _ _ hi | lastBoot _ hi => exact (hidle hi rfl).elim
  | crash => simp [restarted] at happlied
  | drop | vote | accept => exact ⟨rfl, rfl, rfl, .inl happlied⟩
  | collect _ _ hrole | commit _ _ hrole =>
    exact (hidle (hb.idle_of_not_leader (by simp [hrole])) (by simp)).elim
  | lastShareBoot _ hi => exact (hidle (by simpa using hi) (heard_commit _ _ _)).elim
  | lastRetry hl | lastOld hl =>
    exact (hidle (hb.of_last hexp hl.toLastHeard).2.2.idle (heard_commit _ _ _)).elim
  | lastCount hl => exact (hidle (hb.of_last hexp hl.toLastHeard).2.2.idle (by simp)).elim
  | lastActive hl =>
    exact (hidle (hb.of_last hexp hl.toLastHeard).2.2.idle (by simp [recovered])).elim
  | lastBegin hl _ _ _ _ _ hb' =>
    exact (hbegin hb' (by simp [recovered, (hb.of_last hexp hl.toLastHeard).2.2.idle])).elim
  | acceptCommit => simp [Paxos.committing] at happlied
  | propose _ hstate hb' =>
    exact (hbegin hb' (hb.idle_of_state (by simp [hstate]) (by simp [hstate]))).elim
  | @apply _ v x hqueued => exact ⟨rfl, rfl, rfl, .inr ⟨v, x, hqueued, rfl⟩⟩
  | finish => simp [finished] at happlied

end Ceph.Mon.Paxos
