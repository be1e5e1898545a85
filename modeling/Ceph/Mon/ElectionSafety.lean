import Ceph.Lib.Run
import Ceph.Mon.Elector

set_option autoImplicit false

/-!
# Elections among a fixed set of monitors

Any number of monitors exchange PROPOSE, ACK, VICTORY and NAK messages over a
network that delays, reorders and loses them, timers fire in any order, and
processes restart from their stores.  The system records every victory that is
declared and every leader a monitor joins.
-/

namespace Ceph.Mon

open Ceph.Lib List Option Finset

/-! ## The system -/

/-- `ElectionLogic::declare_victory` ran on `monitor`. -/
structure Victory where
  monitor : Nat
  epoch : Nat
  quorum : Finset Nat
  deriving DecidableEq

/-- `monitor` entered `epoch` under `leader`, by winning or by accepting a
victory claim. -/
structure Join where
  monitor : Nat
  leader : Nat
  epoch : Nat
  deriving DecidableEq, Repr

structure ElectionSystem where
  mon : Nat → Elector
  /-- Messages in flight, each with its destination. -/
  net : List (Nat × MMonElection)
  victories : List Victory
  joins : List Join

inductive ElectionAction where
  /-- `Monitor::start_election`, once probing has found enough peers. -/
  | callElection (i : Nat)
  /-- The pending election timer of a monitor fires. -/
  | timer (i : Nat)
  /-- The `k`-th message in flight arrives. -/
  | deliver (k : Nat)
  /-- The `k`-th message in flight is lost. -/
  | lose (k : Nat)
  | bootstrap (i : Nat)
  /-- A probing monitor starts to synchronise its store from a peer. -/
  | synchronize (i : Nat)
  | restart (i : Nat) (joined : Bool)
  | quorumExit (i : Nat)
  | quorumEnter (i : Nat)
  deriving DecidableEq, Repr

/-- Carry out one call that left the election code of monitor `i`. -/
def applyEffect (i : Nat) (sys : ElectionSystem) : Effect → ElectionSystem
  | .send dst m => { sys with net := sys.net ++ [(dst, m)] }
  | .winElection e q =>
    { sys with victories := ⟨i, e, q⟩ :: sys.victories, joins := ⟨i, i, e⟩ :: sys.joins }
  | .loseElection e _ l => { sys with joins := ⟨i, l, e⟩ :: sys.joins }

/-- Install what a handler of monitor `i` left behind. -/
def settle (i : Nat) (sys : ElectionSystem) (out : Outcome) : ElectionSystem :=
  out.2.foldl (applyEffect i) { sys with mon := Function.update sys.mon i out.1 }

section System

variable (n : Nat) (feat : Nat → MonFeatures)

/-- One step of the system.  A monitor that a NAK shut down only comes back by a
restart. -/
def electionStep (sys : ElectionSystem) : ElectionAction → Option ElectionSystem
  | .callElection i =>
    if i < n ∧ (sys.mon i).state ≠ .shutdown then
      (triggerNewElection n (feat i) i (sys.mon i)).map (settle i sys)
    else none
  | .timer i =>
    if i < n ∧ (sys.mon i).expireEvent then
      (endElectionPeriod n (feat i) i { sys.mon i with expireEvent := false }).map (settle i sys)
    else none
  | .deliver k =>
    match sys.net[k]? with
    | none => none
    | some (i, m) =>
      if i < n then
        (dispatchOp n (feat i) i m (sys.mon i)).map
          (settle i { sys with net := sys.net.eraseIdx k })
      else none
  | .lose k => some { sys with net := sys.net.eraseIdx k }
  | .bootstrap i =>
    if i < n ∧ (sys.mon i).state ≠ .shutdown then
      some (settle i sys (resetElection (sys.mon i), []))
    else none
  | .synchronize i =>
    if i < n ∧ (sys.mon i).state = .probing then
      some (settle i sys ({ sys.mon i with state := .synchronizing }, []))
    else none
  | .restart i joined =>
    if i < n then some (settle i sys (restarted joined (sys.mon i), [])) else none
  | .quorumExit i =>
    if i < n ∧ (sys.mon i).state ≠ .shutdown then
      -- the election is called before `stop_participating`
      (triggerNewElection n (feat i) i (sys.mon i)).map fun out =>
        settle i sys ({ out.1 with participating := false }, out.2)
    else none
  | .quorumEnter i =>
    if i < n ∧ (sys.mon i).state ≠ .shutdown then
      (triggerNewElection n (feat i) i { sys.mon i with participating := true }).map (settle i sys)
    else none

end System

/-- Every monitor is up for the first time and has an empty store. -/
def firstBoot : ElectionSystem where
  mon _ := { state := .probing }
  net := []
  victories := []
  joins := []

/-! ## What one handler can do -/

variable {q : Finset Nat}

section Handler

variable {n : Nat} {feat : MonFeatures} {rank : Nat}

/-- The epoch in memory is the persisted one, except on first boot. -/
def Current (s : Elector) : Prop :=
  s.epoch = s.persistedEpoch ∨ (s.persistedEpoch = 0 ∧ s.epoch = 1)

/-- A process that has not called `ElectionLogic::init` yet: no message reaches
its election code and no timer is pending. -/
def Unstarted (s : Elector) : Prop :=
  s.expireEvent = false ∧ s.electingMe = false ∧
    (s.participating = false ∨ takesElectionMessages s.state = false)

/-- What holds of every monitor's election state between two steps. -/
structure ElectorOk (n rank : Nat) (s : Elector) : Prop where
  epoch : Current s ∨ Unstarted s
  acked : s.ackedMe ⊆ Finset.range n
  self : s.electingMe = true → rank ∈ s.ackedMe

/-- The effects are proposals, acknowledgements and refusals only. -/
def Quiet (effs : List Effect) : Prop := ∀ eff ∈ effs, ∃ dst m, eff = .send dst m ∧ m.op ≠ .victory

/-- The outcome of a handler that neither wins nor joins. -/
structure Calm (n rank : Nat) (s : Elector) (out : Outcome) : Prop where
  ok : ElectorOk n rank out.1
  mono : s.persistedEpoch ≤ out.1.persistedEpoch
  quiet : Quiet out.2

/-- The outcome of a handler that declares victory for `e` with quorum `q`. -/
structure Wins (n rank : Nat) (s : Elector) (out : Outcome) (e : Nat) (q : Finset Nat) :
    Prop where
  ok : ElectorOk n rank out.1
  fresh : s.persistedEpoch < e
  persisted : out.1.persistedEpoch = e
  even : e % 2 = 0
  majority : Majority n q
  mem : rank ∈ q
  effects : ∃ sends : List Effect, out.2 = sends ++ [.winElection e q] ∧
    ∀ eff ∈ sends, ∃ dst m, eff = .send dst m ∧ dst ∈ q ∧
      m.op = .victory ∧ m.source = rank ∧ m.epoch = e ∧ m.quorum = q

/-- The outcome of accepting the victory claim `m`. -/
structure Follows (n rank : Nat) (s : Elector) (m : MMonElection) (out : Outcome) : Prop where
  ok : ElectorOk n rank out.1
  fresh : s.persistedEpoch < m.epoch
  persisted : out.1.persistedEpoch = m.epoch
  claim : m.op = .victory
  effects : out.2 = [.loseElection m.epoch m.quorum m.source]

theorem quiet_nil : Quiet [] := by simp [Quiet]

variable {s s' : Elector} {out : Outcome} {e sender : Nat} {m : MMonElection}

theorem Calm.refl (h : ElectorOk n rank s) : Calm n rank s (s, []) := ⟨h, le_rfl, quiet_nil⟩

theorem Calm.idle (hok : ElectorOk n rank s) (h : some (s, []) = some out) : Calm n rank s out :=
  some.inj h ▸ Calm.refl hok

theorem Calm.of_le {t : Elector} (h : Calm n rank t out)
    (hle : s.persistedEpoch ≤ t.persistedEpoch) : Calm n rank s out :=
  ⟨h.ok, hle.trans h.mono, h.quiet⟩

theorem Wins.of_eq {t : Elector} (h : Wins n rank t out e q)
    (heq : s.persistedEpoch = t.persistedEpoch) : Wins n rank s out e q :=
  { h with fresh := heq ▸ h.fresh }

/-! ### The epoch -/

theorem init_current (s : Elector) : Current (init s) := by
  unfold init Current
  split_ifs <;> simp_all

theorem init_mono (s : Elector) : s.persistedEpoch ≤ (init s).persistedEpoch := by
  unfold init
  split_ifs <;> simp

/-- Everything `bump_epoch` does, when its assertion holds. -/
theorem bumpEpoch_eq_some (h : bumpEpoch e s = some s') :
    s.epoch ≤ e ∧ s' = { s with
      epoch := e, persistedEpoch := e, electingMe := false, ackedMe := ∅, quorum := ∅,
      state := .electing } := by
  unfold bumpEpoch at h
  split at h
  next hle => exact ⟨hle, (some.inj h).symm⟩
  · simp at h

theorem bumpEpoch_current (h : bumpEpoch e s = some s') : Current s' := by
  obtain ⟨-, rfl⟩ := bumpEpoch_eq_some h
  exact .inl rfl

theorem bumpEpoch_ok (h : bumpEpoch e s = some s') : ElectorOk n rank s' := by
  refine ⟨.inl (bumpEpoch_current h), ?_, ?_⟩ <;> obtain ⟨-, rfl⟩ := bumpEpoch_eq_some h <;> simp

/-- A monitor whose epoch is current never goes back by bumping it. -/
theorem bumpEpoch_mono (hc : Current s) (h : bumpEpoch e s = some s') :
    s.persistedEpoch ≤ s'.persistedEpoch := by
  obtain ⟨hle, rfl⟩ := bumpEpoch_eq_some h
  rcases hc with hc | ⟨hc, -⟩
  · simpa [← hc] using hle
  · simp [hc]

/-! ### The handlers -/

theorem standForElection_calm (hrank : rank < n) (hc : Current s) :
    Calm n rank s (standForElection n feat rank s) := by
  refine ⟨⟨.inl hc, ?_, ?_⟩, le_rfl, fun eff heff => ?_⟩
  · simpa [standForElection] using hrank
  · simp [standForElection]
  · obtain ⟨i, -, rfl⟩ := mem_map.1 heff
    exact ⟨i, _, rfl, by simp⟩

theorem start_calm (hrank : rank < n) (hok : s.participating = false → ElectorOk n rank s)
    (h : start n feat rank s = some out) : Calm n rank s out := by
  unfold start at h
  split at h
  · have hinit := init_current { s with ackedMe := ∅ }
    have hle : s.persistedEpoch ≤ (init { s with ackedMe := ∅ }).persistedEpoch :=
      init_mono { s with ackedMe := ∅ }
    dsimp only at h
    split at h
    · obtain ⟨t, ht, rfl⟩ := map_eq_some_iff.1 h
      have hle' := bumpEpoch_mono hinit ht
      exact (standForElection_calm hrank (bumpEpoch_current ht)).of_le (hle.trans hle')
    · cases h
      exact (standForElection_calm hrank hinit).of_le hle
  next hp => exact Calm.idle (hok (by simpa using hp)) h

theorem triggerNewElection_calm (hrank : rank < n) (hok : ElectorOk n rank s)
    (h : triggerNewElection n feat rank s = some out) : Calm n rank s out := by
  refine (start_calm hrank ?_ h).of_le le_rfl
  intro hp
  refine ⟨?_, hok.acked, hok.self⟩
  rcases hok.epoch with hc | ⟨he, hm, -⟩
  · exact .inl hc
  · exact .inr ⟨he, hm, .inl hp⟩

theorem resetElection_calm (hok : ElectorOk n rank s) : Calm n rank s (resetElection s, []) := by
  refine ⟨⟨?_, hok.acked, hok.self⟩, le_rfl, quiet_nil⟩
  rcases hok.epoch with hc | ⟨he, hm, -⟩
  · exact .inl hc
  · exact .inr ⟨he, hm, .inr rfl⟩

theorem defer_calm (who : Nat) (hc : Current s) (hok : ElectorOk n rank s) :
    Calm n rank s (defer feat rank who s) := by
  unfold defer
  by_cases he : s.electingMe
  · simp only [he, if_true]
    exact ⟨⟨.inl hc, by simp, by simp⟩, le_rfl, by simp [Quiet]⟩
  · simp only [he, if_false, Bool.false_eq_true]
    exact ⟨⟨.inl hc, hok.acked, by simp⟩, le_rfl, by simp [Quiet]⟩

/-- A declared victory is for the next even epoch, which the store has not
reached before, and its quorum is the set of acknowledgements. -/
theorem declareVictory_wins (hc : Current s) (hmaj : Majority n s.ackedMe) (hmem : rank ∈ s.ackedMe)
    (h : declareVictory n feat rank s = some out) : Wins n rank s out (s.epoch + 1) s.ackedMe := by
  unfold declareVictory at h
  simp only at h
  split at h
  next hodd =>
    obtain ⟨t, ht, hv⟩ := bind_eq_some_iff.1 h
    have hok : ElectorOk n rank t := bumpEpoch_ok ht
    obtain ⟨hepoch, hper, hstate⟩ :
        t.epoch = s.epoch + 1 ∧ t.persistedEpoch = s.epoch + 1 ∧ t.state = .electing := by
      obtain ⟨-, rfl⟩ := bumpEpoch_eq_some ht
      exact ⟨rfl, rfl, rfl⟩
    unfold messageVictory at hv
    split at hv
    · simp at hv
    · rw [if_pos hstate] at hv
      cases hv
      refine ⟨⟨?_, hok.acked, hok.self⟩, ?_, hper, by omega, hmaj, hmem, ?_⟩
      · exact .inl (.inl (hepoch.trans hper.symm))
      · rcases hc with hc | ⟨hc, -⟩ <;> omega
      · refine ⟨_, by rw [hepoch], ?_⟩
        intro eff heff
        obtain ⟨i, hi, rfl⟩ := mem_map.1 heff
        simp only [mem_filter, decide_eq_true_eq] at hi
        exact ⟨i, _, rfl, hi.1.2, rfl, rfl, rfl, rfl⟩
  · simp at h

section

variable (hrank : rank < n) (hc : Current s) (hok : ElectorOk n rank s)

include hrank hc hok

theorem endElectionPeriod_cases (h : endElectionPeriod n feat rank s = some out) :
    Calm n rank s out ∨ ∃ e q, Wins n rank s out e q := by
  unfold endElectionPeriod at h
  split at h
  next hwin => exact .inr ⟨_, _, declareVictory_wins hc ⟨hok.acked, hwin.2⟩ (hok.self hwin.1) h⟩
  · left
    split at h
    · exact start_calm hrank (fun _ => hok) h
    · cases h
      exact resetElection_calm hok

theorem rankPropose_calm (h : rankPropose n feat rank sender s = some out) : Calm n rank s out := by
  unfold rankPropose at h
  split at h
  · split at h
    · split at h
      · exact Calm.idle hok h
      · simp at h
    · split at h
      · exact Calm.idle hok h
      · exact triggerNewElection_calm hrank hok h
  · split at h
    · cases h
      exact defer_calm sender hc hok
    · split at h
      · cases h
        exact defer_calm sender hc hok
      · exact Calm.idle hok h

theorem receivePropose_calm {mepoch : Nat}
    (h : receivePropose n feat rank sender mepoch s = some out) : Calm n rank s out := by
  unfold receivePropose at h
  split at h
  · obtain ⟨t, ht, hr⟩ := bind_eq_some_iff.1 h
    exact (rankPropose_calm hrank (bumpEpoch_current ht) (bumpEpoch_ok ht) hr).of_le
      (bumpEpoch_mono hc ht)
  · split at h
    · split at h
      · exact triggerNewElection_calm hrank hok h
      · exact Calm.idle hok h
    · exact rankPropose_calm hrank hc hok h

end

theorem receiveAck_cases {mepoch : Nat} (hrank : rank < n) (hsender : sender < n) (hc : Current s)
    (hok : ElectorOk n rank s) (h : receiveAck n feat rank sender mepoch s = some out) :
    Calm n rank s out ∨ ∃ e q, Wins n rank s out e q := by
  unfold receiveAck at h
  split at h
  · split at h
    · left
      obtain ⟨t, ht, hr⟩ := bind_eq_some_iff.1 h
      exact (start_calm hrank (fun _ => bumpEpoch_ok ht) hr).of_le (bumpEpoch_mono hc ht)
    · split at h
      next hme =>
        have hsub : insert sender s.ackedMe ⊆ Finset.range n :=
          Finset.insert_subset (Finset.mem_range.2 hsender) hok.acked
        have hmem : rank ∈ insert sender s.ackedMe := mem_insert_of_mem (hok.self hme)
        simp only at h
        split at h
        next hall =>
          have hmaj : Majority n (insert sender s.ackedMe) := ⟨hsub, by omega⟩
          have hw := declareVictory_wins (s := { s with ackedMe := insert sender s.ackedMe })
            hc hmaj hmem h
          exact .inr ⟨_, _, hw.of_eq rfl⟩
        · cases h
          exact .inl ⟨⟨hok.epoch.imp id id, hsub, fun _ => hmem⟩, le_rfl, quiet_nil⟩
      · split at h
        · exact .inl (Calm.idle hok h)
        · simp at h
  · simp at h

theorem handlePropose_calm (hrank : rank < n) (hc : Current s) (hok : ElectorOk n rank s)
    (h : handlePropose n feat rank m s = some out) : Calm n rank s out := by
  have hnak : Quiet (nakOldPeer feat rank m) := by simp [Quiet, nakOldPeer]
  unfold handlePropose at h
  split at h
  · split at h
    · cases h
      exact ⟨hok, le_rfl, hnak⟩
    · split at h
      · cases h
        exact ⟨hok, le_rfl, hnak⟩
      · split at h
        · obtain ⟨out', hout, rfl⟩ := map_eq_some_iff.1 h
          have hcalm := receivePropose_calm hrank hc hok hout
          exact ⟨hcalm.ok, hcalm.mono, forall_mem_append.2 ⟨hnak, hcalm.quiet⟩⟩
        · exact receivePropose_calm hrank hc hok h
  · simp at h

/-- Only `peer_info` changes when a peer's features are noted. -/
theorem recordPeer_eq (m : MMonElection) (s : Elector) :
    ∃ info, recordPeer m s = { s with peerInfo := info } := by
  unfold recordPeer
  split
  · exact ⟨_, rfl⟩
  · exact ⟨s.peerInfo, rfl⟩

theorem handleAck_cases (hrank : rank < n) (hsource : m.source < n) (hc : Current s)
    (hok : ElectorOk n rank s) (h : handleAck n feat rank m s = some out) :
    Calm n rank s out ∨ ∃ e q, Wins n rank s out e q := by
  unfold handleAck at h
  split at h
  · split at h
    · exact .inl (Calm.idle hok h)
    · split at h
      · exact .inl (Calm.idle hok h)
      · obtain ⟨info, hrec⟩ := recordPeer_eq m s
        rw [hrec] at h
        rcases receiveAck_cases (s := { s with peerInfo := info }) hrank hsource hc
          ⟨hok.epoch, hok.acked, hok.self⟩ h with hcalm | ⟨e, q, hw⟩
        · exact .inl (hcalm.of_le le_rfl)
        · exact .inr ⟨e, q, hw.of_eq rfl⟩
  · simp at h

theorem handleVictory_cases (hrank : rank < n) (hop : m.op = .victory) (hc : Current s)
    (h : handleVictory n feat rank m s = some out) :
    Calm n rank s out ∨ Follows n rank s m out := by
  obtain ⟨⟨out', accepted⟩, hclaim, hout⟩ := map_eq_some_iff.1 h
  unfold receiveVictoryClaim at hclaim
  split at hclaim
  · dsimp only at hclaim
    split at hclaim
    · obtain ⟨out'', hstart, hpair⟩ := map_eq_some_iff.1 hclaim
      obtain ⟨rfl, rfl⟩ := Prod.mk.inj hpair
      obtain ⟨t, ht, hr⟩ := bind_eq_some_iff.1 hstart
      left
      obtain rfl : out'' = out := hout
      exact (start_calm hrank (fun _ => bumpEpoch_ok ht) hr).of_le
        (bumpEpoch_mono (s := { s with leaderAcked := none }) hc ht)
    next hnext =>
      obtain ⟨t, ht, hpair⟩ := map_eq_some_iff.1 hclaim
      cases hpair
      obtain rfl := hout
      obtain ⟨-, rfl⟩ := bumpEpoch_eq_some ht
      refine .inr ⟨⟨.inl (.inl rfl), by simp, by simp⟩, ?_, rfl, hop, by simp⟩
      rcases hc with hc | ⟨hc, -⟩ <;> omega
  · simp at hclaim

theorem dispatch_cases (hrank : rank < n) (hc : s.participating = true → Current s)
    (hok : ElectorOk n rank s) (h : dispatch n feat rank m s = some out) :
    Calm n rank s out ∨ (∃ e q, Wins n rank s out e q) ∨ Follows n rank s m out := by
  unfold dispatch at h
  split at h
  · exact .inl (Calm.idle hok h)
  rename_i hpart
  replace hc : Current s := hc (by simpa using hpart)
  split at h
  · exact .inl (Calm.idle hok h)
  split at h
  · exact .inl (handlePropose_calm hrank hc hok h)
  · split at h
    · exact .inl (Calm.idle hok h)
    · exact (handleAck_cases hrank (by omega) hc hok h).imp id .inl
  next hop =>
    split at h
    · exact .inl (Calm.idle hok h)
    · exact (handleVictory_cases hrank hop hc h).imp id .inr
  · split at h
    · exact .inl (Calm.idle hok h)
    · cases h
      exact .inl ⟨⟨.inl hc, hok.acked, hok.self⟩, le_rfl, quiet_nil⟩

/-- Everything a delivered message can do. -/
theorem dispatchOp_cases (hrank : rank < n) (hok : ElectorOk n rank s)
    (h : dispatchOp n feat rank m s = some out) :
    Calm n rank s out ∨ (∃ e q, Wins n rank s out e q) ∨ Follows n rank s m out := by
  unfold dispatchOp at h
  split at h
  next hstate =>
    refine dispatch_cases hrank ?_ hok h
    -- in a state where messages are looked at, `init` has been called
    intro hpart
    rcases hok.epoch with hc | ⟨-, -, hp | hp⟩
    · exact hc
    · simp [hpart] at hp
    · simp [hstate] at hp
  · exact .inl (Calm.idle hok h)

end Handler

/-! ## Whole runs -/

section Runs

variable {n : Nat} {feat : Nat → MonFeatures}

/-- The system invariant: stores have reached every epoch their monitor joined,
a monitor joins one leader per epoch, and every claim of victory in flight or
accepted goes back to a declared victory. -/
structure SystemOk (n : Nat) (sys : ElectionSystem) : Prop where
  mons : ∀ i, i < n → ElectorOk n i (sys.mon i)
  net : ∀ p ∈ sys.net, p.2.op = .victory →
    ⟨p.2.source, p.2.epoch, p.2.quorum⟩ ∈ sys.victories ∧ p.1 ∈ p.2.quorum
  victories : ∀ v ∈ sys.victories, v.epoch % 2 = 0 ∧ Majority n v.quorum ∧ v.monitor ∈ v.quorum
  reached : ∀ j ∈ sys.joins, j.epoch ≤ (sys.mon j.monitor).persistedEpoch
  claimed : ∀ j ∈ sys.joins, ∃ q, ⟨j.leader, j.epoch, q⟩ ∈ sys.victories ∧ j.monitor ∈ q
  unique : ∀ j ∈ sys.joins, ∀ j' ∈ sys.joins,
    j.monitor = j'.monitor → j.epoch = j'.epoch → j.leader = j'.leader

/-- A list of sends only adds messages to the network. -/
theorem foldl_applyEffect_sends {P : Nat → MMonElection → Prop} (i : Nat) {effs : List Effect}
    (sys : ElectionSystem) (h : ∀ eff ∈ effs, ∃ dst m, eff = .send dst m ∧ P dst m) :
    ∃ msgs : List (Nat × MMonElection),
      effs.foldl (applyEffect i) sys = { sys with net := sys.net ++ msgs } ∧
        ∀ p ∈ msgs, P p.1 p.2 := by
  induction effs generalizing sys with
  | nil => exact ⟨[], by simp, by simp⟩
  | cons eff _ ih =>
    obtain ⟨dst, m, rfl, hP⟩ := h eff (by simp)
    obtain ⟨msgs, hfold, hmsgs⟩ :=
      ih (applyEffect i sys (.send dst m)) (fun eff heff => h eff (by simp [heff]))
    refine ⟨(dst, m) :: msgs, ?_, ?_⟩
    · rw [foldl_cons, hfold]
      simp [applyEffect]
    · intro p hp
      rcases mem_cons.1 hp with rfl | hp
      · exact hP
      · exact hmsgs p hp

variable {i : Nat} {sys : ElectionSystem} {out : Outcome}

section

variable (h : SystemOk n sys)

include h

/-- The invariant survives raising the store of one monitor, sending messages
that are no claims of victory and losing any. -/
theorem SystemOk.update {s : Elector} (hs : ElectorOk n i s)
    (hle : (sys.mon i).persistedEpoch ≤ s.persistedEpoch) (net : List (Nat × MMonElection))
    (hnet : ∀ p ∈ net, p ∈ sys.net ∨ p.2.op ≠ .victory) :
    SystemOk n { sys with mon := Function.update sys.mon i s, net := net } where
  mons k hk := by
    by_cases hki : k = i
    · subst hki
      simpa using hs
    · simpa [hki] using h.mons k hk
  net p hp hop := by
    rcases hnet p hp with hp | hne
    · exact h.net p hp hop
    · exact absurd hop hne
  victories := h.victories
  reached j hj := by
    have hle' := h.reached j hj
    by_cases hji : j.monitor = i
    · simp only [hji, Function.update_self]
      rw [hji] at hle'
      exact hle'.trans hle
    · simpa [hji] using hle'
  claimed := h.claimed
  unique := h.unique

theorem SystemOk.erase (k : Nat) : SystemOk n { sys with net := sys.net.eraseIdx k } where
  mons := h.mons
  net p hp := h.net p (mem_of_mem_eraseIdx hp)
  victories := h.victories
  reached := h.reached
  claimed := h.claimed
  unique := h.unique

theorem SystemOk.settle_calm (hout : Calm n i (sys.mon i) out) : SystemOk n (settle i sys out) := by
  unfold settle
  obtain ⟨msgs, hfold, hmsgs⟩ := foldl_applyEffect_sends i
    { sys with mon := Function.update sys.mon i out.1 } hout.quiet
  rw [hfold]
  refine h.update hout.ok hout.mono _ ?_
  intro p hp
  rcases mem_append.1 hp with hp | hp
  · exact .inl hp
  · exact .inr (hmsgs p hp)

/-- A monitor may join an epoch its store has not reached before. -/
theorem SystemOk.join {l e : Nat} {s : Elector} (hs : ElectorOk n i s)
    (hfresh : (sys.mon i).persistedEpoch < e) (hper : s.persistedEpoch = e)
    (hv : ⟨l, e, q⟩ ∈ sys.victories) (hmem : i ∈ q) :
    SystemOk n { sys with
      mon := Function.update sys.mon i s, joins := ⟨i, l, e⟩ :: sys.joins } := by
  have hup := h.update hs (by omega) sys.net (fun p hp => .inl hp)
  -- no earlier join of this monitor is for the new epoch
  have hnew : ∀ j ∈ sys.joins, j.monitor = i → j.epoch ≠ e := by
    intro j hj hji hje
    have hle := h.reached j hj
    rw [hji] at hle
    omega
  refine ⟨hup.mons, h.net, h.victories, ?_, ?_, ?_⟩
  · intro j hj
    rcases mem_cons.1 hj with rfl | hj
    · simp [hper]
    · exact hup.reached j hj
  · intro j hj
    rcases mem_cons.1 hj with rfl | hj
    · exact ⟨q, hv, hmem⟩
    · exact h.claimed j hj
  · intro j hj j' hj' hmon hepoch
    rcases mem_cons.1 hj with rfl | hj <;> rcases mem_cons.1 hj' with rfl | hj'
    · rfl
    · exact absurd hepoch.symm (hnew j' hj' hmon.symm)
    · exact absurd hepoch (hnew j hj hmon)
    · exact h.unique j hj j' hj' hmon hepoch

theorem SystemOk.settle_wins {e : Nat} (hout : Wins n i (sys.mon i) out e q) :
    SystemOk n (settle i sys out) := by
  obtain ⟨sends, heffs, hsends⟩ := hout.effects
  unfold settle
  obtain ⟨msgs, hfold, hmsgs⟩ := foldl_applyEffect_sends i
    { sys with mon := Function.update sys.mon i out.1 } hsends
  rw [heffs, foldl_append, hfold]
  -- record the victory, then the messages that announce it, then the join
  have hvict : SystemOk n { sys with
      net := sys.net ++ msgs, victories := ⟨i, e, q⟩ :: sys.victories } := by
    refine ⟨h.mons, ?_, ?_, h.reached, ?_, h.unique⟩
    · intro p hp hop
      rcases mem_append.1 hp with hp | hp
      · obtain ⟨hv, hd⟩ := h.net p hp hop
        exact ⟨mem_cons_of_mem _ hv, hd⟩
      · obtain ⟨hd, -, hsource, hepoch, hquorum⟩ := hmsgs p hp
        rw [hsource, hepoch, hquorum]
        exact ⟨by simp, hd⟩
    · intro v hv
      rcases mem_cons.1 hv with rfl | hv
      · exact ⟨hout.even, hout.majority, hout.mem⟩
      · exact h.victories v hv
    · intro j hj
      obtain ⟨q', hq', hmem⟩ := h.claimed j hj
      exact ⟨q', mem_cons_of_mem _ hq', hmem⟩
  exact hvict.join hout.ok hout.fresh hout.persisted (by simp) hout.mem

end

theorem firstBoot_ok : SystemOk n firstBoot where
  mons _ _ := ⟨.inr ⟨rfl, rfl, .inr rfl⟩, by simp [firstBoot], by simp [firstBoot]⟩
  net := by simp [firstBoot]
  victories := by simp [firstBoot]
  reached := by simp [firstBoot]
  claimed := by simp [firstBoot]
  unique := by simp [firstBoot]

theorem electionStep_ok {sys' : ElectionSystem} {a : ElectionAction} (h : SystemOk n sys)
    (hstep : electionStep n feat sys a = some sys') : SystemOk n sys' := by
  cases a <;> simp only [electionStep, ite_none_right_eq_some, map_eq_some_iff, some.injEq] at hstep
  case callElection i =>
    obtain ⟨hi, out, hout, rfl⟩ := hstep
    exact h.settle_calm (triggerNewElection_calm hi.1 (h.mons i hi.1) hout)
  case timer i =>
    obtain ⟨hi, out, hout, rfl⟩ := hstep
    have hok := h.mons i hi.1
    -- a pending timer means that `init` has been called
    have hc : Current (sys.mon i) := by
      rcases hok.epoch with hc | ⟨he, -⟩
      · exact hc
      · simp [hi.2] at he
    rcases endElectionPeriod_cases (s := { sys.mon i with expireEvent := false }) hi.1 hc
      ⟨.inl hc, hok.acked, hok.self⟩ hout with hcalm | ⟨e, q, hw⟩
    · exact h.settle_calm (hcalm.of_le le_rfl)
    · exact h.settle_wins (hw.of_eq rfl)
  case deliver k =>
    split at hstep
    · simp at hstep
    next i m hk =>
      obtain ⟨hi, hstep⟩ := ite_none_right_eq_some.1 hstep
      obtain ⟨out, hout, rfl⟩ := map_eq_some_iff.1 hstep
      have herase := h.erase k
      rcases dispatchOp_cases hi (h.mons i hi) hout with hcalm | ⟨e, q, hw⟩ | hf
      · exact herase.settle_calm hcalm
      · exact herase.settle_wins hw
      · obtain ⟨hv, hmem⟩ := h.net (i, m) (mem_of_getElem? hk) hf.claim
        rw [settle, hf.effects]
        exact herase.join hf.ok hf.fresh hf.persisted hv hmem
  case lose k =>
    subst hstep
    exact h.erase k
  case bootstrap i =>
    obtain ⟨hi, rfl⟩ := hstep
    exact h.settle_calm (resetElection_calm (h.mons i hi.1))
  case synchronize i =>
    obtain ⟨hi, rfl⟩ := hstep
    have hok := h.mons i hi.1
    refine h.settle_calm ⟨⟨?_, hok.acked, hok.self⟩, le_rfl, quiet_nil⟩
    exact hok.epoch.imp id fun hu => ⟨hu.1, hu.2.1, .inr rfl⟩
  case restart i joined =>
    obtain ⟨-, rfl⟩ := hstep
    exact h.settle_calm ⟨⟨.inr ⟨rfl, rfl, .inr rfl⟩, by simp [restarted], by simp [restarted]⟩,
      le_rfl, quiet_nil⟩
  case quorumExit i =>
    obtain ⟨hi, out, hout, rfl⟩ := hstep
    have hcalm := triggerNewElection_calm hi.1 (h.mons i hi.1) hout
    have hexit : ElectorOk n i { out.1 with participating := false } :=
      ⟨hcalm.ok.epoch.imp id fun hu => ⟨hu.1, hu.2.1, .inl rfl⟩, hcalm.ok.acked, hcalm.ok.self⟩
    exact h.settle_calm ⟨hexit, hcalm.mono, hcalm.quiet⟩
  case quorumEnter i =>
    obtain ⟨hi, out, hout, rfl⟩ := hstep
    -- the monitor stands for election at once, so its old epoch is of no use
    have hcalm := start_calm hi.1 (by simp) hout
    exact h.settle_calm (hcalm.of_le le_rfl)

/-- The invariant holds in every state the election system reaches. -/
theorem reaches_ok (hrun : Reaches (electionStep n feat) firstBoot sys) : SystemOk n sys :=
  hrun.invariant firstBoot_ok fun _ _ _ hok _ hstep => electionStep_ok hok hstep

/-! ## Election safety -/

/-- Every member of the quorum of `v` has joined its leader. -/
def Formed (sys : ElectionSystem) (v : Victory) : Prop :=
  ∀ i ∈ v.quorum, ⟨i, v.monitor, v.epoch⟩ ∈ sys.joins

/-- What elections guarantee.  More than one monitor may declare victory for
one epoch, each with a majority that contains it; but a monitor joins a single
leader per epoch, across restarts too, and only one that declared victory with
it in the quorum, so at most one of the victors of an epoch is joined by the
whole of its quorum. -/
theorem election_safety (n : Nat) (feat : Nat → MonFeatures) (sys : ElectionSystem)
    (hrun : Reaches (electionStep n feat) firstBoot sys) :
    (∀ v ∈ sys.victories, v.epoch % 2 = 0 ∧ Majority n v.quorum ∧ v.monitor ∈ v.quorum) ∧
    (∀ j ∈ sys.joins, ∃ v ∈ sys.victories,
      v.monitor = j.leader ∧ v.epoch = j.epoch ∧ j.monitor ∈ v.quorum) ∧
    (∀ j ∈ sys.joins, ∀ j' ∈ sys.joins,
      j.monitor = j'.monitor → j.epoch = j'.epoch → j.leader = j'.leader) ∧
    (∀ v ∈ sys.victories, ∀ v' ∈ sys.victories,
      v.epoch = v'.epoch → Formed sys v → Formed sys v' → v.monitor = v'.monitor) := by
  have hok := reaches_ok hrun
  refine ⟨hok.victories, ?_, hok.unique, ?_⟩
  · intro j hj
    obtain ⟨q, hv, hmem⟩ := hok.claimed j hj
    exact ⟨_, hv, rfl, rfl, hmem⟩
  · intro v hv v' hv' hepoch hformed hformed'
    obtain ⟨i, hi, hi'⟩ := (hok.victories v hv).2.1.exists_common (hok.victories v' hv').2.1
    exact hok.unique _ (hformed i hi) _ (hformed' i hi') rfl hepoch

/-- Three monitors on first boot: monitor 2 acknowledges monitor 1 and then the
better ranked monitor 0, while the proposal from 0 to 1 is delayed. -/
def twoVictors : List ElectionAction :=
  [.callElection 0, .callElection 1, .callElection 2,
   .deliver 3, .deliver 1, .deliver 4, .deliver 4, .timer 1, .timer 0]

/-- Both candidates then hold a majority of acknowledgements when their timers
fire, and both declare victory for epoch 2. -/
theorem two_victors_one_epoch :
    ∃ sys, Reaches (electionStep 3 fun _ => {}) firstBoot sys ∧
      ∃ v ∈ sys.victories, ∃ v' ∈ sys.victories,
        v.epoch = 2 ∧ v'.epoch = 2 ∧ v.monitor ≠ v'.monitor := by
  have hexec : (exec (electionStep 3 fun _ => {}) firstBoot twoVictors).map (·.victories) =
      some [⟨0, 2, {2, 0}⟩, ⟨1, 2, {2, 1}⟩] := by decide
  obtain ⟨sys, hsys, hv⟩ := map_eq_some_iff.1 hexec
  exact ⟨sys, exec_reaches hsys, ⟨0, 2, {2, 0}⟩, by simp [hv], ⟨1, 2, {2, 1}⟩, by simp [hv],
    rfl, rfl, by decide⟩

/-- The run that elects two victors meets the hypothesis of the safety theorem,
and none of the joins it records is for both of them. -/
theorem election_safety_twoVictors :
    ∃ sys, Reaches (electionStep 3 fun _ => {}) firstBoot sys ∧ sys.victories.length = 2 ∧
      ∀ j ∈ sys.joins, ∀ j' ∈ sys.joins,
        j.monitor = j'.monitor → j.epoch = j'.epoch → j.leader = j'.leader := by
  have hexec : (exec (electionStep 3 fun _ => {}) firstBoot twoVictors).map
      (·.victories.length) = some 2 := by decide
  obtain ⟨sys, hsys, hv⟩ := map_eq_some_iff.1 hexec
  exact ⟨sys, exec_reaches hsys, hv, (election_safety 3 _ sys (exec_reaches hsys)).2.2.1⟩

end Runs

end Ceph.Mon
