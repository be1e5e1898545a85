import Ceph.Lib.Voting

set_option autoImplicit false

/-!
# Monitor elections: `ElectionLogic` and `Elector`

The election code of one monitor, as functions of its state.  `ElectionLogic`
calls back into its owner (`Elector`, and through it `Monitor`) to send
messages, to persist the epoch and to announce the outcome; here a call-back
that leaves the process is an `Effect` in the list a function returns, in the
order the code makes the calls.  A failed assertion is `none`.

The monitor map is fixed, so the checks on its `fsid` and epoch never fire and
are left out, and a rank names a monitor for good.  Epochs (`epoch_t`, 32 bits)
are natural numbers.
-/

namespace Ceph.Mon

open Ceph.Lib

/-- What a monitor supports and what it requires of its peers.  Feature masks
are bit sets, `release` is the numeric `ceph_release_t`. -/
structure MonFeatures where
  /-- Features a peer sees on a connection to this monitor. -/
  conFeatures : Nat := 0
  supported : Nat := 0
  release : Nat := 0
  requiredFeatures : Nat := 0
  requiredMonFeatures : Nat := 0
  minMonRelease : Nat := 0
  deriving DecidableEq, Repr, Inhabited

inductive ElectionOp where
  | propose
  | ack
  | nak
  | victory
  deriving DecidableEq, Repr, Inhabited

/-- `MMonElection`, with the sender's rank and the features of the connection
it arrives on. -/
structure MMonElection where
  op : ElectionOp
  epoch : Nat
  source : Nat
  conFeatures : Nat := 0
  monFeatures : Nat := 0
  monRelease : Nat := 0
  quorum : Finset Nat := ∅
  quorumFeatures : Nat := 0
  deriving DecidableEq

/-- `Elector::elector_info_t`, without the metadata strings. -/
structure ElectorInfo where
  clusterFeatures : Nat
  monFeatures : Nat
  monRelease : Nat
  deriving DecidableEq, Repr

/-- The states of `Monitor`. -/
inductive MonState where
  | init
  | probing
  | synchronizing
  | electing
  | leader
  | peon
  | shutdown
  deriving DecidableEq, Repr, Inhabited

/-- The election state of one monitor.  Only `persistedEpoch` and `everJoined`
are in the store; the rest is lost with the process. -/
structure Elector where
  persistedEpoch : Nat := 0
  everJoined : Bool := false
  epoch : Nat := 0
  leaderAcked : Option Nat := none
  participating : Bool := true
  electingMe : Bool := false
  ackedMe : Finset Nat := ∅
  peerInfo : Nat → Option ElectorInfo := fun _ => none
  /-- An election timer is pending. -/
  expireEvent : Bool := false
  state : MonState := .init
  quorum : Finset Nat := ∅

/-- A call that leaves the election code. -/
inductive Effect where
  | send (dst : Nat) (m : MMonElection)
  | winElection (epoch : Nat) (quorum : Finset Nat)
  | loseElection (epoch : Nat) (quorum : Finset Nat) (leader : Nat)
  deriving DecidableEq

/-- What a handler leaves behind: the new state and the calls it made. -/
abbrev Outcome := Elector × List Effect

section Logic

variable (n : Nat) (feat : MonFeatures) (rank : Nat)

/-- `CEPH_FEATURES_ALL` as a 64 bit mask. -/
def cephFeaturesAll : Nat := 2 ^ 64 - 1

/-- `ElectionLogic::init`.  On first boot the epoch becomes 1 without being
persisted. -/
def init (s : Elector) : Elector :=
  if s.persistedEpoch = 0 then { s with epoch := 1 }
  else if s.persistedEpoch % 2 = 1 then
    { s with epoch := s.persistedEpoch + 1, persistedEpoch := s.persistedEpoch + 1 }
  else { s with epoch := s.persistedEpoch }

/-- `ElectionLogic::bump_epoch`; `notify_bump_epoch` is `Monitor::join_election`,
which empties the quorum and enters the electing state. -/
def bumpEpoch (e : Nat) (s : Elector) : Option Elector :=
  if s.epoch ≤ e then
    some { s with
      epoch := e
      persistedEpoch := e
      electingMe := false
      ackedMe := ∅
      quorum := ∅
      state := .electing }
  else none

/-- `Elector::propose_to_peers`. -/
def proposeToPeers (e : Nat) : List Effect :=
  ((List.range n).filter (· ≠ rank)).map fun i =>
    .send i { op := .propose, epoch := e, source := rank, conFeatures := feat.conFeatures,
              monFeatures := feat.supported, monRelease := feat.release }

/-- The part of `ElectionLogic::start` after the epoch is settled, with
`Elector::_start`: stand for election and arm the timer. -/
def standForElection (s : Elector) : Outcome :=
  ({ s with
      electingMe := true
      ackedMe := {rank}
      leaderAcked := none
      peerInfo := fun i =>
        if i = rank then some ⟨cephFeaturesAll, feat.supported, feat.release⟩ else none
      expireEvent := true },
    proposeToPeers n feat rank s.epoch)

/-- `ElectionLogic::start`. -/
def start (s : Elector) : Option Outcome :=
  if s.participating then
    let s := init { s with ackedMe := ∅ }
    if s.epoch % 2 = 0 then
      (bumpEpoch (s.epoch + 1) s).map (standForElection n feat rank)
    else some (standForElection n feat rank s)
  else some (s, [])

/-- `Elector::trigger_new_election`, that is `Monitor::start_election`. -/
def triggerNewElection (s : Elector) : Option Outcome :=
  start n feat rank { s with quorum := ∅, state := .electing }

/-- `Elector::reset_election`, that is `Monitor::bootstrap`: back to probing. -/
def resetElection (s : Elector) : Elector :=
  { s with quorum := ∅, state := .probing }

/-- `ElectionLogic::defer`, with `Elector::_defer_to`. -/
def defer (who : Nat) (s : Elector) : Outcome :=
  let s := if s.electingMe then { s with ackedMe := ∅, electingMe := false } else s
  ({ s with leaderAcked := some who, expireEvent := true },
    [.send who { op := .ack, epoch := s.epoch, source := rank, conFeatures := feat.conFeatures,
                 monFeatures := feat.supported, monRelease := feat.release }])

/-- The features shared by a quorum and its oldest release, as
`Elector::message_victory` folds them; `none` when a member is unknown. -/
def quorumInfo (peerInfo : Nat → Option ElectorInfo) : List Nat → ElectorInfo → Option ElectorInfo
  | [], acc => some acc
  | i :: is, acc =>
    match peerInfo i with
    | none => none
    | some info =>
      quorumInfo peerInfo is
        { clusterFeatures := acc.clusterFeatures &&& info.clusterFeatures
          monFeatures := acc.monFeatures &&& info.monFeatures
          monRelease :=
            if acc.monRelease = 0 ∨ info.monRelease < acc.monRelease then info.monRelease
            else acc.monRelease }

/-- `Elector::message_victory`, with `Monitor::win_election`. -/
def messageVictory (quorum : Finset Nat) (s : Elector) : Option Outcome :=
  match quorumInfo s.peerInfo ((List.range n).filter (· ∈ quorum))
      ⟨cephFeaturesAll, feat.supported, 0⟩ with
  | none => none
  | some info =>
    if s.state = .electing then
      some ({ s with expireEvent := false, state := .leader, quorum := quorum },
        (((List.range n).filter (· ∈ quorum)).filter (· ≠ rank)).map (fun i =>
          .send i { op := .victory, epoch := s.epoch, source := rank,
                    conFeatures := feat.conFeatures, monFeatures := info.monFeatures,
                    monRelease := info.monRelease, quorum := quorum,
                    quorumFeatures := info.clusterFeatures })
          ++ [.winElection s.epoch quorum])
    else none

/-- `ElectionLogic::declare_victory`. -/
def declareVictory (s : Elector) : Option Outcome :=
  let newQuorum := s.ackedMe
  let s := { s with leaderAcked := none, electingMe := false, ackedMe := ∅ }
  if s.epoch % 2 = 1 then
    (bumpEpoch (s.epoch + 1) s).bind (messageVictory n feat rank newQuorum)
  else none

/-- `ElectionLogic::end_election_period`, the election timer. -/
def endElectionPeriod (s : Elector) : Option Outcome :=
  if s.electingMe ∧ n / 2 < s.ackedMe.card then declareVictory n feat rank s
  else if s.everJoined then start n feat rank s
  else some (resetElection s, [])

/-- The ranking part of `ElectionLogic::receive_propose`, once the epochs agree. -/
def rankPropose (sender : Nat) (s : Elector) : Option Outcome :=
  if rank < sender then
    match s.leaderAcked with
    | some l => if l < sender then some (s, []) else none
    | none => if s.electingMe then some (s, []) else triggerNewElection n feat rank s
  else
    match s.leaderAcked with
    | none => some (defer feat rank sender s)
    | some l => if sender ≤ l then some (defer feat rank sender s) else some (s, [])

/-- `ElectionLogic::receive_propose`. -/
def receivePropose (sender mepoch : Nat) (s : Elector) : Option Outcome :=
  if s.epoch < mepoch then
    (bumpEpoch mepoch s).bind (rankPropose n feat rank sender)
  else if mepoch < s.epoch then
    if s.epoch % 2 = 0 ∧ sender ∉ s.quorum then triggerNewElection n feat rank s
    else some (s, [])
  else rankPropose n feat rank sender s

/-- `ElectionLogic::receive_ack`. -/
def receiveAck (sender fromEpoch : Nat) (s : Elector) : Option Outcome :=
  if fromEpoch % 2 = 1 then
    if s.epoch < fromEpoch then (bumpEpoch fromEpoch s).bind (start n feat rank)
    else if s.electingMe then
      let s := { s with ackedMe := insert sender s.ackedMe }
      if s.ackedMe.card = n then declareVictory n feat rank s else some (s, [])
    else if s.leaderAcked.isSome then some (s, [])
    else none
  else none

/-- `ElectionLogic::receive_victory_claim`; the flag says whether the claim is
accepted. -/
def receiveVictoryClaim (sender fromEpoch : Nat) (s : Elector) : Option (Outcome × Bool) :=
  if sender < rank ∧ fromEpoch % 2 = 0 then
    let s := { s with leaderAcked := none }
    if fromEpoch ≠ s.epoch + 1 then
      ((bumpEpoch fromEpoch s).bind (start n feat rank)).map (·, false)
    else (bumpEpoch fromEpoch s).map fun s => ((s, []), true)
  else none

/-- Some required bit is missing from the offered mask. -/
def lacks (offered required : Nat) : Bool := (required ^^^ offered) &&& required ≠ 0

variable (m : MMonElection)

/-- `Elector::nak_old_peer`. -/
def nakOldPeer : List Effect :=
  [.send m.source { op := .nak, epoch := m.epoch, source := rank,
                    conFeatures := feat.conFeatures, monFeatures := feat.requiredMonFeatures,
                    monRelease := feat.minMonRelease, quorumFeatures := feat.requiredFeatures }]

/-- `Elector::handle_propose`.  The first two refusals return; the one for
missing monitor features sends its NAK and goes on. -/
def handlePropose (s : Elector) : Option Outcome :=
  if m.epoch % 2 = 1 then
    if lacks m.conFeatures feat.requiredFeatures then some (s, nakOldPeer feat rank m)
    else if m.monRelease < feat.minMonRelease then some (s, nakOldPeer feat rank m)
    else if lacks m.monFeatures feat.requiredMonFeatures then
      (receivePropose n feat rank m.source m.epoch s).map fun out =>
        (out.1, nakOldPeer feat rank m ++ out.2)
    else receivePropose n feat rank m.source m.epoch s
  else none

/-- A candidate notes the features of a peer that acknowledged it. -/
def recordPeer (s : Elector) : Elector :=
  if s.electingMe then
    let info : ElectorInfo := ⟨m.conFeatures, m.monFeatures, m.monRelease⟩
    { s with peerInfo := Function.update s.peerInfo m.source (some info) }
  else s

/-- `Elector::handle_ack`. -/
def handleAck (s : Elector) : Option Outcome :=
  if m.epoch = s.epoch then
    if lacks m.conFeatures feat.requiredFeatures then some (s, [])
    else if lacks m.monFeatures feat.requiredMonFeatures then some (s, [])
    else receiveAck n feat rank m.source m.epoch (recordPeer m s)
  else none

/-- `Elector::handle_victory`, with `Monitor::lose_election`. -/
def handleVictory (s : Elector) : Option Outcome :=
  (receiveVictoryClaim n feat rank m.source m.epoch s).map fun r =>
    if r.2 then
      ({ r.1.1 with state := .peon, quorum := m.quorum, expireEvent := false },
        r.1.2 ++ [.loseElection r.1.1.epoch m.quorum m.source])
    else r.1

/-- `Elector::dispatch`.  A NAK makes the process exit. -/
def dispatch (s : Elector) : Option Outcome :=
  if ¬ s.participating then some (s, [])
  else if n ≤ m.source then some (s, [])
  else
    match m.op with
    | .propose => handlePropose n feat rank m s
    | .ack => if m.epoch < s.epoch then some (s, []) else handleAck n feat rank m s
    | .victory => if m.epoch < s.epoch then some (s, []) else handleVictory n feat rank m s
    | .nak =>
      if m.epoch < s.epoch then some (s, [])
      else some ({ s with state := .shutdown, expireEvent := false }, [])

/-- The states in which `Monitor::dispatch_op` hands a message to the elector. -/
def takesElectionMessages : MonState → Bool
  | .init | .probing | .synchronizing | .shutdown => false
  | .electing | .leader | .peon => true

/-- `Monitor::dispatch_op` on an election message. -/
def dispatchOp (s : Elector) : Option Outcome :=
  if takesElectionMessages s.state then dispatch n feat rank m s else some (s, [])

end Logic

/-- The state of a freshly started process over the store of `s`.  The
`joined` key is written by the monitor map service once the monitor has been
part of a quorum. -/
def restarted (joined : Bool) (s : Elector) : Elector :=
  { persistedEpoch := s.persistedEpoch, everJoined := s.everJoined || joined, state := .probing }

end Ceph.Mon
