import Ceph.Mon.Paxos.Handlers

set_option autoImplicit false

/-!
# What a step can do

Inversion of the handlers: each way a monitor can move, with its guards, its new
state and what it sends.  The invariants are proved from these lemmas and never
unfold a handler again.
-/

namespace Ceph.Mon.Paxos

open Ceph.Lib Option List

variable {n rank : Nat}

/-! ## Pieces of the handlers -/

/-- The state in which `Monitor::bootstrap` leaves a monitor. -/
def bootstrapped (p : Monitor) : Monitor :=
  { p with role := .electing, quorum := ∅, state := .recovering, newValue := none }

variable {p p' : Monitor} {r : Monitor × Sends} {m : MMonPaxos} {j : Nat}

theorem bootstrap_eq_some (h : bootstrap p = some p') : p.commit = .idle ∧ p' = bootstrapped p := by
  unfold bootstrap at h
  split at h
  next hc => exact ⟨hc, (some.inj h).symm⟩
  · simp at h

/-- One message goes to each of a list of peers. -/
theorem mem_broadcast {is : List Nat} {k : Nat} {sent : MMonPaxos}
    (h : (k, m) ∈ is.map fun k => (k, sent)) : k ∈ is ∧ m = sent := by
  obtain ⟨_, hi, heq⟩ := mem_map.1 h
  cases heq
  exact ⟨hi, rfl⟩

theorem mem_reply {k : Nat} {sent : MMonPaxos} (h : (k, m) ∈ [(j, sent)]) : k = j ∧ m = sent :=
  Prod.mk.inj (mem_singleton.1 h)

/-- The state in which `Paxos::collect` leaves a leader. -/
def collecting (rank oldpn : Nat) (p : Monitor) : Monitor :=
  let value := p.store.values (p.lastCommitted + 1)
  let pn := newProposalNumber rank p.store.lastPn (max p.acceptedPn oldpn)
  { p with
    state := .recovering
    uncommittedV := if value.isSome then p.lastCommitted + 1 else 0
    uncommittedPn := if value.isSome then pendingPnOf p.store p.lastCommitted p.acceptedPn else 0
    uncommittedValue := value
    peerLastCommitted := fun _ => none
    store := { p.store with lastPn := pn }
    acceptedPn := pn
    numLast := 1 }

/-- The COLLECT that a leader sends once its state is `collecting`. -/
def collectMsg (p : Monitor) : MMonPaxos :=
  { epoch := p.epoch, op := .collect, firstCommitted := p.firstCommitted,
    lastCommitted := p.lastCommitted, pn := p.acceptedPn }

theorem collect_eq_some {oldpn : Nat} (h : collect n rank oldpn p = some r) :
    r = (collecting rank oldpn p,
      (others n rank p.quorum).map fun i => (i, collectMsg (collecting rank oldpn p))) := by
  unfold collect at h
  split at h
  · exact (some.inj h).symm
  · simp at h

/-- The state of a leader that proposes `v`. -/
def begun (rank : Nat) (v : Tx) (p : Monitor) : Monitor :=
  { p with
    accepted := {rank}
    newValue := some (dressValue p.lastCommitted v)
    store :=
      { p.store.putValue (p.lastCommitted + 1) (dressValue p.lastCommitted v) with
        pendingV := p.lastCommitted + 1, pendingPn := p.acceptedPn } }

/-- The BEGIN that a leader sends for the value `x`. -/
def beginMsg (p : Monitor) (x : Tx) : MMonPaxos :=
  { epoch := p.epoch, op := .begin, lastCommitted := p.lastCommitted,
    pn := p.acceptedPn, values := [(p.lastCommitted + 1, x)] }

/-- The state of a leader that has queued the commit of `x`. -/
def committing (x : Tx) (p : Monitor) : Monitor :=
  { p with
    state := if p.state = .updatingPrevious then .writingPrevious else .writing
    commit := .queued (p.lastCommitted + 1) x }

theorem commitStart_eq_some (h : commitStart p = some p') :
    ∃ x, p.newValue = some x ∧ p' = committing x p := by
  unfold commitStart at h
  split at h
  next x hv hs =>
    refine ⟨x, hv, ?_⟩
    rw [← some.inj h]
    simp [committing, hs]
  next x hv hs =>
    refine ⟨x, hv, ?_⟩
    rw [← some.inj h]
    simp [committing, hs]
  · simp at h

theorem begin_eq_some {v : Tx} (h : begin n rank v p = some r) :
    p.role = .leader ∧ (p.state = .updating ∨ p.state = .updatingPrevious) ∧
      (p.quorum.card = 1 ∨ n / 2 < p.numLast) ∧ p.newValue = none ∧
      ((p.quorum.card = 1 ∧ r = (committing (dressValue p.lastCommitted v) (begun rank v p), [])) ∨
        (p.quorum.card ≠ 1 ∧ r = (begun rank v p, (others n rank p.quorum).map fun i =>
          (i, beginMsg p (dressValue p.lastCommitted v))))) := by
  unfold begin at h
  split at h
  next hg =>
    refine ⟨hg.1, hg.2.1, hg.2.2.1, hg.2.2.2, ?_⟩
    dsimp only at h
    split at h
    next hone =>
      obtain ⟨_, hp', rfl⟩ := map_eq_some_iff.1 h
      obtain ⟨_, hx, rfl⟩ := commitStart_eq_some hp'
      simp only [some.injEq] at hx
      subst hx
      exact .inl ⟨hone, rfl⟩
    next hone => exact .inr ⟨hone, (some.inj h).symm⟩
  · simp at h

theorem shareState_eq {a : Nat} (h : a < p.lastCommitted) :
    shareState m a p =
      some { m with values := sharedValues p a, lastCommitted := p.lastCommitted } :=
  if_pos h

/-! ## Received messages -/

/-- The LAST that answers the COLLECT `m`, from the state after it was looked at. -/
def lastMsg (m : MMonPaxos) (previousPn : Nat) (p : Monitor) : MMonPaxos :=
  shareUncommitted m previousPn p
    { epoch := p.epoch, op := .last, lastCommitted := p.lastCommitted,
      firstCommitted := p.firstCommitted, pn := p.acceptedPn,
      values := if m.lastCommitted < p.lastCommitted then sharedValues p m.lastCommitted else [] }

/-- The state of a peon after it has looked at the proposal number of a COLLECT. -/
def promised (m : MMonPaxos) (p : Monitor) : Monitor :=
  if p.acceptedPn < m.pn then
    { p with state := .recovering, acceptedPn := m.pn,
             store := { p.store with acceptedPn := m.pn } }
  else { p with state := .recovering }

/-- The leader notes how far the sender of a LAST has committed. -/
def recorded (j : Nat) (m : MMonPaxos) (p : Monitor) : Monitor :=
  { p with peerLastCommitted := Function.update p.peerLastCommitted j (some m.lastCommitted) }

/-- The leader has noted a LAST and stored what was committed elsewhere. -/
def heard (j : Nat) (m : MMonPaxos) (p : Monitor) : Monitor := storeState m (recorded j m p)

/-- The leader counts a LAST that accepts its proposal number. -/
def counted (m : MMonPaxos) (p : Monitor) : Monitor :=
  learnUncommitted m { p with numLast := p.numLast + 1 }

/-- The whole quorum has answered, and the leader goes on to `st`. -/
def recovered (st : PaxosState) (p : Monitor) : Monitor :=
  { p with peerLastCommitted := fun _ => none, state := st }

/-- The state of a peon that has accepted the value `x`. -/
def voted (x : Tx) (p : Monitor) : Monitor :=
  { p with
    state := .updating
    store :=
      { p.store.putValue (p.lastCommitted + 1) x with
        pendingV := p.lastCommitted + 1, pendingPn := p.acceptedPn } }

/-- The ACCEPT of a peon. -/
def acceptMsg (p : Monitor) : MMonPaxos :=
  { epoch := p.epoch, op := .accept, pn := p.acceptedPn, lastCommitted := p.lastCommitted }

/-- The leader counts an ACCEPT. -/
def acceptedBy (j : Nat) (p : Monitor) : Monitor :=
  { p with accepted := insert j p.accepted }

/-! ## Local steps -/

/-- The state of a leader whose queued commit has been applied. -/
def applied (v : Nat) (x : Tx) (p : Monitor) : Monitor :=
  { p with store := Store.applyTx x { p.store with lastCommitted := v }, commit := .applied }

/-- The state of a leader after `Paxos::commit_finish`. -/
def finished (p : Monitor) : Monitor :=
  { p with
    lastCommitted := p.lastCommitted + 1
    firstCommitted := p.store.firstCommitted
    newValue := none
    state := .active
    commit := .idle }

/-- The COMMIT for the value `x` that has just been committed. -/
def commitMsg (p : Monitor) (x : Tx) : MMonPaxos :=
  { epoch := p.epoch, op := .commit, pn := p.acceptedPn,
    lastCommitted := p.lastCommitted + 1, values := [(p.lastCommitted + 1, x)] }

/-- The transaction that `Paxos::propose_pending` proposes. -/
def pendingTx (data : Nat) (trim : Option TrimConf) (p : Monitor) : Tx :=
  .service data :: match trim with
    | none => []
    | some conf => trimOps conf p.firstCommitted p.lastCommitted

/-- The state of a process that has just started over its store. -/
def restarted (p : Monitor) : Monitor :=
  { store := p.store, epoch := p.epoch, acceptedPn := p.store.acceptedPn,
    lastCommitted := p.store.lastCommitted, firstCommitted := p.store.firstCommitted }

/-- The state of a monitor that has won an election, before it collects. -/
def elected (epoch : Nat) (quorum : Finset Nat) (p : Monitor) : Monitor :=
  { p with
    epoch := epoch, role := .leader, quorum := quorum, newValue := none, state := .recovering }

/-! ## All of them -/

/-- A leader hears a LAST of its epoch. -/
structure LastHeard (p : Monitor) (m : MMonPaxos) : Prop where
  op : m.op = .last
  epoch : m.epoch = p.epoch
  role : p.role = .leader

/-- The LAST leaves no gap, and the leader shares what it then has. -/
structure LastShared (n : Nat) (p : Monitor) (j : Nat) (m : MMonPaxos) (shared : Sends × Bool) :
    Prop extends LastHeard p m where
  first : m.firstCommitted ≤ p.lastCommitted + 1
  sent : sharePeers (heard j m p) (List.range n) = some shared

/-- `Local n p inp a p' out`: by the action `a`, and the message `inp` if it is a
delivery, a monitor moves from `p` to `p'` and sends `out`. -/
inductive Local (n : Nat) (p : Monitor) : Option MMonPaxos → Action → Monitor → Sends → Prop where
  | win {i e : Nat} {Q : Finset Nat} (hepoch : p.epoch < e) (hmaj : Majority n Q) (hmem : i ∈ Q)
      (hidle : p.commit = .idle) (hcard : Q.card ≠ 1) :
      Local n p none (.win i e Q) (collecting i 0 (elected e Q p))
        ((others n i Q).map fun k => (k, collectMsg (collecting i 0 (elected e Q p))))
  | winAlone {i e : Nat} {Q : Finset Nat} (hepoch : p.epoch < e) (hmaj : Majority n Q)
      (hmem : i ∈ Q) (hidle : p.commit = .idle) (hcard : Q.card = 1) :
      Local n p none (.win i e Q) { elected e Q p with state := .active } []
  | lose {i e l : Nat} {Q : Finset Nat} (hepoch : p.epoch < e) (hne : l ≠ i)
      (hidle : p.commit = .idle) :
      Local n p none (.lose i e l Q) (peonInit e l Q p) []
  | leave {i : Nat} (hidle : p.commit = .idle) : Local n p none (.leave i) (bootstrapped p) []
  | crash {i : Nat} : Local n p none (.crash i) (restarted p) []
  /-- The message is dropped; a COLLECT or a COMMIT only when it is not for the
  monitor as it now is. -/
  | drop {j i : Nat} {m : MMonPaxos}
      (hstale : m.op = .collect ∨ m.op = .commit → m.epoch = p.epoch → p.role = .electing) :
      Local n p (some m) (.deliver j i) p []
  /-- The message is from an epoch the monitor has not seen. -/
  | newer {j i : Nat} {m : MMonPaxos} (hepoch : p.epoch < m.epoch) (hidle : p.commit = .idle) :
      Local n p (some m) (.deliver j i) (bootstrapped p) []
  | collectBoot {j i : Nat} {m : MMonPaxos} (hop : m.op = .collect) (hepoch : m.epoch = p.epoch)
      (hrole : p.role = .peon j) (hidle : p.commit = .idle) :
      Local n p (some m) (.deliver j i) (bootstrapped p) []
  | collect {j i : Nat} {m : MMonPaxos} (hop : m.op = .collect) (hepoch : m.epoch = p.epoch)
      (hrole : p.role = .peon j) (hfirst : m.firstCommitted ≤ p.lastCommitted + 1) :
      Local n p (some m) (.deliver j i) (promised m p) [(j, lastMsg m p.acceptedPn (promised m p))]
  | lastBoot {j i : Nat} {m : MMonPaxos} (hl : LastHeard p m) (hidle : p.commit = .idle) :
      Local n p (some m) (.deliver j i) (bootstrapped (recorded j m p)) []
  | lastShareBoot {j i : Nat} {m : MMonPaxos} {shared : Sends × Bool}
      (hl : LastShared n p j m shared) (hidle : (heard j m p).commit = .idle) :
      Local n p (some m) (.deliver j i) (bootstrapped (heard j m p)) shared.1
  | lastRetry {j i : Nat} {m : MMonPaxos} {shared : Sends × Bool} (hl : LastShared n p j m shared)
      (hpn : (heard j m p).acceptedPn < m.pn) :
      Local n p (some m) (.deliver j i) (collecting i m.pn (heard j m p))
        (shared.1 ++ (others n i (heard j m p).quorum).map fun k =>
          (k, collectMsg (collecting i m.pn (heard j m p))))
  | lastOld {j i : Nat} {m : MMonPaxos} {shared : Sends × Bool} (hl : LastShared n p j m shared)
      (hall : shared.2 = false) (hpn : m.pn < (heard j m p).acceptedPn) :
      Local n p (some m) (.deliver j i) (heard j m p) shared.1
  | lastCount {j i : Nat} {m : MMonPaxos} {shared : Sends × Bool} (hl : LastShared n p j m shared)
      (hall : shared.2 = false) (hpn : m.pn = (heard j m p).acceptedPn)
      (hmore : (counted m (heard j m p)).numLast ≠ (heard j m p).quorum.card) :
      Local n p (some m) (.deliver j i) (counted m (heard j m p)) shared.1
  | lastActive {j i : Nat} {m : MMonPaxos} {shared : Sends × Bool} (hl : LastShared n p j m shared)
      (hall : shared.2 = false) (hpn : m.pn = (heard j m p).acceptedPn)
      (hdone : (counted m (heard j m p)).numLast = (heard j m p).quorum.card)
      (hnone : (counted m (heard j m p)).uncommittedValue = none ∨
        (counted m (heard j m p)).uncommittedV ≠ (counted m (heard j m p)).lastCommitted + 1) :
      Local n p (some m) (.deliver j i) (recovered .active (counted m (heard j m p))) shared.1
  | lastBegin {j i : Nat} {m : MMonPaxos} {shared : Sends × Bool} {x : Tx} {p' : Monitor}
      {out : Sends} (hl : LastShared n p j m shared) (hall : shared.2 = false)
      (hpn : m.pn = (heard j m p).acceptedPn)
      (hdone : (counted m (heard j m p)).numLast = (heard j m p).quorum.card)
      (hx : (counted m (heard j m p)).uncommittedValue = some x)
      (hv : (counted m (heard j m p)).uncommittedV = (counted m (heard j m p)).lastCommitted + 1)
      (hbegin : begin n i x (recovered .updatingPrevious (counted m (heard j m p))) =
        some (p', out)) :
      Local n p (some m) (.deliver j i) p' (shared.1 ++ out)
  | vote {j i : Nat} {m : MMonPaxos} {x : Tx} (hop : m.op = .begin) (hepoch : m.epoch = p.epoch)
      (hrole : p.role = .leader ∨ p.role = .peon j) (hpn : m.pn = p.acceptedPn)
      (hlast : m.lastCommitted = p.lastCommitted)
      (hx : m.values.lookup (p.lastCommitted + 1) = some x) :
      Local n p (some m) (.deliver j i) (voted x p) [(j, acceptMsg p)]
  | accept {j i : Nat} {m : MMonPaxos} (hop : m.op = .accept) (hepoch : m.epoch = p.epoch)
      (hrole : p.role = .leader ∨ p.role = .peon j) (hpn : m.pn = p.acceptedPn)
      (hlast : m.lastCommitted = p.lastCommitted ∨ m.lastCommitted + 1 = p.lastCommitted)
      (hstate : p.state = .updating ∨ p.state = .updatingPrevious) (hnew : j ∉ p.accepted)
      (hmore : insert j p.accepted ≠ p.quorum) :
      Local n p (some m) (.deliver j i) (acceptedBy j p) []
  | acceptCommit {j i : Nat} {m : MMonPaxos} {x : Tx} (hop : m.op = .accept)
      (hepoch : m.epoch = p.epoch) (hrole : p.role = .leader ∨ p.role = .peon j)
      (hpn : m.pn = p.acceptedPn)
      (hlast : m.lastCommitted = p.lastCommitted ∨ m.lastCommitted + 1 = p.lastCommitted)
      (hstate : p.state = .updating ∨ p.state = .updatingPrevious) (hnew : j ∉ p.accepted)
      (hdone : insert j p.accepted = p.quorum) (hx : p.newValue = some x) :
      Local n p (some m) (.deliver j i) (committing x (acceptedBy j p)) []
  | commit {j i : Nat} {m : MMonPaxos} (hop : m.op = .commit) (hepoch : m.epoch = p.epoch)
      (hrole : p.role = .peon j) :
      Local n p (some m) (.deliver j i) (storeState m p) []
  | propose {i data : Nat} {trim : Option TrimConf} {p' : Monitor} {out : Sends}
      (hrole : p.role = .leader) (hstate : p.state = .active)
      (hbegin : begin n i (pendingTx data trim p) { p with state := .updating } = some (p', out)) :
      Local n p none (.propose i data trim) p' out
  | apply {i v : Nat} {x : Tx} (hqueued : p.commit = .queued v x) :
      Local n p none (.commitApply i) (applied v x p) []
  | finish {i : Nat} {x : Tx} (hx : p.newValue = some x) (happlied : p.commit = .applied)
      (hlast : p.store.lastCommitted = p.lastCommitted + 1) (hrole : p.role = .leader)
      (hstate : p.state = .writing ∨ p.state = .writingPrevious) :
      Local n p none (.commitFinish i) (finished p)
        ((others n i p.quorum).map fun k => (k, commitMsg p x))

/-- A peon that takes messages from `j` has it as its leader. -/
theorem peon_of_role {l : Nat} (hrole : p.role = .leader ∨ p.role = .peon j)
    (hl : p.role = .peon l) : p.role = .peon j := by
  rcases hrole with hr | hr
  · rw [hr] at hl
    simp at hl
  · exact hr

/-- A leader that has shared its state looks at the proposal number of a LAST. -/
theorem countLast_local {i : Nat} {shared : Sends × Bool} (hl : LastShared n p j m shared)
    (hall : shared.2 = false) (h : countLast n i m (heard j m p) = some r) :
    Local n p (some m) (.deliver j i) r.1 (shared.1 ++ r.2) := by
  have hq : (counted m (heard j m p)).quorum = (heard j m p).quorum := by
    unfold counted learnUncommitted
    split <;> rfl
  unfold countLast at h
  split at h
  next hlt =>
    obtain rfl := collect_eq_some h
    exact .lastRetry hl hlt
  · split at h
    next heq =>
      dsimp only at h
      have hc : learnUncommitted m { heard j m p with numLast := (heard j m p).numLast + 1 } =
        counted m (heard j m p) := rfl
      rw [hc, hq] at h
      split at h
      next hdone =>
        unfold finishCollect at h
        dsimp only at h
        split at h
        next _ hx =>
          split at h
          next hv => exact .lastBegin hl hall heq hdone hx hv h
          next hv =>
            cases h
            rw [append_nil]
            exact .lastActive hl hall heq hdone (.inr hv)
        next hx =>
          cases h
          rw [append_nil]
          exact .lastActive hl hall heq hdone (.inl hx)
      next hmore =>
        cases h
        simpa using Local.lastCount hl hall heq hmore
    · cases h
      simpa using Local.lastOld hl hall (by omega)

section Handlers

variable {i : Nat} (hepoch : m.epoch = p.epoch)

include hepoch

theorem handleCollect_local (hrole : p.role = .leader ∨ p.role = .peon j) (hop : m.op = .collect)
    (h : handleCollect j m p = some r) : Local n p (some m) (.deliver j i) r.1 r.2 := by
  unfold handleCollect at h
  split at h
  next _ hl =>
    have hj := peon_of_role hrole hl
    dsimp only at h
    split at h
    · obtain ⟨_, hp', rfl⟩ := map_eq_some_iff.1 h
      obtain ⟨hidle, rfl⟩ := bootstrap_eq_some hp'
      exact .collectBoot hop hepoch hj hidle
    next _ =>
      have hp : (if p.acceptedPn < m.pn then
          { p with state := .recovering, acceptedPn := m.pn,
                   store := { p.store with acceptedPn := m.pn } }
        else { p with state := .recovering }) = promised m p := rfl
      simp only [hp] at h
      obtain ⟨last, hlast, rfl⟩ := map_eq_some_iff.1 h
      have hmsg : shareUncommitted m p.acceptedPn (promised m p) last =
          lastMsg m p.acceptedPn (promised m p) := by
        split at hlast
        next hlt =>
          rw [shareState_eq hlt] at hlast
          cases hlast
          simp [lastMsg, hlt]
        next hlt =>
          cases hlast
          simp [lastMsg, hlt]
      rw [hmsg]
      exact .collect hop hepoch hj (by omega)
  · simp at h

theorem handleLast_local (hop : m.op = .last) (h : handleLast n i j m p = some r) :
    Local n p (some m) (.deliver j i) r.1 r.2 := by
  unfold handleLast at h
  split at h
  next hrole =>
    dsimp only at h
    split at h
    · obtain ⟨p', hp', rfl⟩ := map_eq_some_iff.1 h
      obtain ⟨hidle, rfl⟩ := bootstrap_eq_some hp'
      exact .lastBoot ⟨hop, hepoch, hrole⟩ hidle
    · obtain ⟨_, hshared, hs⟩ := bind_eq_some_iff.1 h
      split at hs
      · obtain ⟨p', hp', rfl⟩ := map_eq_some_iff.1 hs
        obtain ⟨hidle, rfl⟩ := bootstrap_eq_some hp'
        exact .lastShareBoot ⟨⟨hop, hepoch, hrole⟩, by omega, hshared⟩ hidle
      next hall =>
        obtain ⟨_, hr', rfl⟩ := map_eq_some_iff.1 hs
        exact countLast_local ⟨⟨hop, hepoch, hrole⟩, by omega, hshared⟩ (by simpa using hall) hr'
  · cases h
    exact .drop (by simp [hop])

theorem handleBegin_local (hrole : p.role = .leader ∨ p.role = .peon j) (hop : m.op = .begin)
    (h : handleBegin j m p = some r) : Local n p (some m) (.deliver j i) r.1 r.2 := by
  unfold handleBegin at h
  split at h
  · cases h
    exact .drop (by simp [hop])
  · split at h
    next heq =>
      split at h
      · simp at h
      next _ hx =>
        cases h
        exact .vote hop hepoch hrole heq.1 heq.2 hx
    · simp at h

theorem handleAccept_local (hrole : p.role = .leader ∨ p.role = .peon j) (hop : m.op = .accept)
    (h : handleAccept j m p = some r) : Local n p (some m) (.deliver j i) r.1 r.2 := by
  unfold handleAccept at h
  split at h
  · cases h
    exact .drop (by simp [hop])
  next hpn =>
    rw [not_not] at hpn
    split at h
    · cases h
      exact .drop (by simp [hop])
    · split at h
      next hg =>
        dsimp only at h
        split at h
        next hdone =>
          obtain ⟨_, hp', rfl⟩ := map_eq_some_iff.1 h
          obtain ⟨_, hx, rfl⟩ := commitStart_eq_some hp'
          exact .acceptCommit hop hepoch hrole hpn hg.1 hg.2.1 hg.2.2 hdone hx
        next hmore =>
          cases h
          exact .accept hop hepoch hrole hpn hg.1 hg.2.1 hg.2.2 hmore
      · simp at h

end Handlers

theorem dispatchOp_local {i : Nat} (h : dispatchOp n i j m p = some r) :
    Local n p (some m) (.deliver j i) r.1 r.2 := by
  unfold dispatchOp at h
  split at h
  next hnew =>
    obtain ⟨_, hp', rfl⟩ := map_eq_some_iff.1 h
    obtain ⟨hidle, rfl⟩ := bootstrap_eq_some hp'
    exact .newer hnew hidle
  split at h
  next hepoch =>
    cases h
    exact .drop fun _ he => absurd he hepoch
  rename_i hepoch
  replace hepoch : m.epoch = p.epoch := by simpa using hepoch
  unfold dispatch at h
  split at h
  next hrole =>
    cases h
    exact .drop fun _ _ => hrole
  split at h
  next hrole =>
    split at h
    next hop => exact handleCollect_local hepoch hrole hop h
    next hop => exact handleLast_local hepoch hop h
    next hop => exact handleBegin_local hepoch hrole hop h
    next hop => exact handleAccept_local hepoch hrole hop h
    next hop =>
      unfold handleCommit at h
      split at h
      next _ hl =>
        cases h
        exact .commit hop hepoch (peon_of_role hrole hl)
      · simp at h
  · simp at h

/-- Every step of the system is a local step of the monitor that takes it. -/
theorem step_local {s s' : System} {a : Action} (h : step n s a = some s') :
    a.actor < n ∧ ∃ inp p' out, Local n (s.mon a.actor) inp a p' out ∧
      s' = (s.consume a).settle a.actor (p', out) ∧
      ∀ j i, a = .deliver j i → ∃ m rest, inp = some m ∧ s.net j i = m :: rest := by
  cases a <;> simp only [step, ite_none_right_eq_some, map_eq_some_iff] at h
  case win i e Q =>
    obtain ⟨⟨hi, hepoch, hmaj, hmem, hidle⟩, r, hr, rfl⟩ := h
    refine ⟨hi, none, r.1, r.2, ?_, rfl, by simp⟩
    unfold leaderInit at hr
    split at hr
    next hone =>
      cases hr
      exact .winAlone hepoch hmaj hmem hidle hone
    next hone =>
      obtain rfl := collect_eq_some hr
      exact .win hepoch hmaj hmem hidle hone
  case lose i e l Q =>
    obtain ⟨⟨hi, hepoch, hne, hidle⟩, h⟩ := h
    cases h
    exact ⟨hi, none, _, _, .lose hepoch hne hidle, rfl, by simp⟩
  case leave i =>
    obtain ⟨hi, p', hp', rfl⟩ := h
    obtain ⟨hidle, rfl⟩ := bootstrap_eq_some hp'
    exact ⟨hi, none, _, _, .leave hidle, rfl, by simp⟩
  case crash i =>
    obtain ⟨hi, p', hp', rfl⟩ := h
    rw [restart, ite_none_right_eq_some] at hp'
    cases hp'.2
    exact ⟨hi, none, _, _, .crash, rfl, by simp⟩
  case deliver j i =>
    obtain ⟨hi, h⟩ := h
    split at h
    · simp at h
    next m rest hnet =>
      obtain ⟨r, hr, rfl⟩ := map_eq_some_iff.1 h
      refine ⟨hi, some m, r.1, r.2, dispatchOp_local hr, rfl, ?_⟩
      rintro _ _ ⟨⟩
      exact ⟨m, rest, rfl, hnet⟩
  case propose i data trim =>
    obtain ⟨hi, r, hr, rfl⟩ := h
    obtain ⟨⟨hrole, hstate⟩, hb⟩ := ite_none_right_eq_some.1 hr
    exact ⟨hi, none, r.1, r.2, .propose hrole hstate hb, rfl, by simp⟩
  case commitApply i =>
    obtain ⟨hi, p', hp', rfl⟩ := h
    unfold commitApply at hp'
    split at hp'
    next _ x hq =>
      cases hp'
      exact ⟨hi, none, _, _, .apply hq, rfl, by simp⟩
    · simp at hp'
  case commitFinish i =>
    obtain ⟨hi, r, hr, rfl⟩ := h
    unfold commitFinish at hr
    split at hr
    · simp at hr
    next x hx =>
      obtain ⟨⟨happ, hlast, hrole, hstate⟩, hr⟩ := ite_none_right_eq_some.1 hr
      cases hr
      exact ⟨hi, none, _, _, .finish hx happ hlast hrole hstate, rfl, by simp⟩

end Ceph.Mon.Paxos
