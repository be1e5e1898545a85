import Ceph.Lib.Voting
import Ceph.Lib.Run

set_option autoImplicit false

/-!
# The Paxos code of the monitors

`Paxos::collect` … `Paxos::handle_commit` as functions of the state of one
monitor.  A handler returns the new state and the messages it sends, in order;
`none` is a failed assertion.  Leases, timers and the notification of the
services are left out: a timeout is a step of its own that makes the monitor
leave the quorum.  Versions and proposal numbers (`version_t`, 64 bits) and epochs
(`epoch_t`, 32 bits) are natural numbers, which never wrap around.
-/

namespace Ceph.Mon.Paxos

open Ceph.Lib

/-! ## The Paxos part of the monitor store

A committed value is an encoded `MonitorDBStore::Transaction`.  The codec is
lossless, so a value is modelled by the operations it decodes to.  Of those,
Paxos itself writes two kinds under its own keys, both from `Paxos::trim` and
from the first proposal: erasing an old version and moving `first_committed`.
What the services write is opaque. -/

inductive StoreOp where
  /-- Writes of the services, which touch no key of Paxos. -/
  | service (data : Nat)
  | erase (v : Nat)
  | putFirstCommitted (v : Nat)
  deriving DecidableEq, Repr

/-- A decoded transaction.  An empty bufferlist is no transaction at all, and is
modelled by `none` where the source tests `length()`. -/
abbrev Tx := List StoreOp

/-- The durable keys of Paxos.  A version without a key reads as `none`, a
number without a key as 0. -/
structure Store where
  lastPn : Nat := 0
  acceptedPn : Nat := 0
  lastCommitted : Nat := 0
  firstCommitted : Nat := 0
  pendingV : Nat := 0
  pendingPn : Nat := 0
  values : Nat → Option Tx := fun _ => none

namespace Store

/-- `t->put(get_name(), v, bl)`. -/
def putValue (v : Nat) (x : Tx) (st : Store) : Store :=
  { st with values := Function.update st.values v (some x) }

def applyOp (st : Store) : StoreOp → Store
  | .service _ => st
  | .erase v => { st with values := Function.update st.values v none }
  | .putFirstCommitted v => { st with firstCommitted := v }

/-- `MonitorDBStore::apply_transaction` on decoded operations. -/
def applyTx (x : Tx) (st : Store) : Store := x.foldl applyOp st

/-- One round of the loop of `Paxos::store_state`: write the version and apply
its transaction. -/
def commitVersion (st : Store) (p : Nat × Tx) : Store := applyTx p.2 (putValue p.1 p.2 st)

end Store

/-- What `first_committed` becomes when a transaction is applied. -/
def newFirst (x : Tx) (f : Nat) : Nat :=
  x.foldl (fun f op => match op with
    | .putFirstCommitted v => v
    | _ => f) f

/-- The configuration options that govern trimming, read anew each time. -/
structure TrimConf where
  paxosMin : Nat
  paxosTrimMin : Nat
  paxosTrimMax : Nat
  deriving DecidableEq, Repr

/-- `Paxos::should_trim`, with no trim under way. -/
def shouldTrim (conf : TrimConf) (first last : Nat) : Bool :=
  conf.paxosMin + conf.paxosTrimMin < last - first

/-- The end of the range that `Paxos::trim` erases. -/
def trimEnd (conf : TrimConf) (first last : Nat) : Nat :=
  min (last - conf.paxosMin) (first + conf.paxosTrimMax)

/-- The operations `Paxos::trim` adds to the pending transaction. -/
def trimOps (conf : TrimConf) (first last : Nat) : Tx :=
  if shouldTrim conf first last ∧ first < trimEnd conf first last then
    (List.range' first (trimEnd conf first last - first)).map .erase ++
      [.putFirstCommitted (trimEnd conf first last)]
  else []

/-! ## The code of one monitor -/

inductive PaxosOp where
  | collect
  | last
  | begin
  | accept
  | commit
  deriving DecidableEq, Repr

/-- `MMonPaxos`.  `values` lists the map of versions in increasing order. -/
structure MMonPaxos where
  epoch : Nat
  op : PaxosOp
  firstCommitted : Nat := 0
  lastCommitted : Nat := 0
  pn : Nat := 0
  uncommittedPn : Nat := 0
  values : List (Nat × Tx) := []
  deriving DecidableEq, Repr

/-- What `Monitor` is in the current epoch; `electing` stands for every state in
which Paxos messages are dropped. -/
inductive Role where
  | electing
  | leader
  | peon (leader : Nat)
  deriving DecidableEq, Repr

inductive PaxosState where
  | recovering
  | active
  | updating
  | updatingPrevious
  | writing
  | writingPrevious
  deriving DecidableEq, Repr

/-- The transaction `commit_start` hands to the store: queued, applied, or none. -/
inductive CommitPhase where
  | idle
  | queued (v : Nat) (x : Tx)
  | applied
  deriving DecidableEq, Repr

/-- The state of one monitor.  `last_pn` is written whenever it changes, so it is
kept in the store only. -/
structure Monitor where
  store : Store := {}
  epoch : Nat := 0
  role : Role := .electing
  quorum : Finset Nat := ∅
  state : PaxosState := .recovering
  acceptedPn : Nat := 0
  lastCommitted : Nat := 0
  firstCommitted : Nat := 0
  uncommittedV : Nat := 0
  uncommittedPn : Nat := 0
  uncommittedValue : Option Tx := none
  numLast : Nat := 0
  peerLastCommitted : Nat → Option Nat := fun _ => none
  accepted : Finset Nat := ∅
  newValue : Option Tx := none
  commit : CommitPhase := .idle

/-- Messages to send, each with its destination. -/
abbrev Sends := List (Nat × MMonPaxos)

/-- The message that is delivered, if any, and its sender. -/
abbrev Source := Option (Nat × MMonPaxos)

section Code

variable (n rank : Nat)

/-- The members of the quorum other than the monitor itself. -/
def others (quorum : Finset Nat) : List Nat := (List.range n).filter fun i => i ∈ quorum ∧ i ≠ rank

/-- `Monitor::bootstrap`: leave the quorum.  `wait_for_paxos_write` makes it wait
until a commit that is being written has finished. -/
def bootstrap (p : Monitor) : Option Monitor :=
  match p.commit with
  | .idle => some { p with role := .electing, quorum := ∅, state := .recovering, newValue := none }
  | _ => none

/-- `Paxos::get_new_proposal_number`. -/
def newProposalNumber (lastPn gt : Nat) : Nat := (max lastPn gt / 100 + 1) * 100 + rank

/-- The proposal number under which the value at `last_committed + 1` was
accepted, as the store records it. -/
def pendingPnOf (st : Store) (lastCommitted fallback : Nat) : Nat :=
  if st.pendingV ≠ 0 ∧ st.pendingPn ≠ 0 ∧ st.pendingV = lastCommitted + 1 then st.pendingPn
  else fallback

/-- `Paxos::collect`. -/
def collect (oldpn : Nat) (p : Monitor) : Option (Monitor × Sends) :=
  if p.role = .leader then
    let value := p.store.values (p.lastCommitted + 1)
    let pn := newProposalNumber rank p.store.lastPn (max p.acceptedPn oldpn)
    some
      ({ p with
          state := .recovering
          uncommittedV := if value.isSome then p.lastCommitted + 1 else 0
          uncommittedPn :=
            if value.isSome then pendingPnOf p.store p.lastCommitted p.acceptedPn else 0
          uncommittedValue := value
          peerLastCommitted := fun _ => none
          store := { p.store with lastPn := pn }
          acceptedPn := pn
          numLast := 1 },
        (others n rank p.quorum).map fun i =>
          (i, { epoch := p.epoch, op := .collect, firstCommitted := p.firstCommitted,
                lastCommitted := p.lastCommitted, pn := pn }))
  else none

/-- The versions that `Paxos::share_state` adds to a message. -/
def sharedValues (p : Monitor) (peerLast : Nat) : List (Nat × Tx) :=
  (List.range' (peerLast + 1) (p.lastCommitted - peerLast)).filterMap fun v =>
    (p.store.values v).map (v, ·)

/-- `Paxos::share_state`. -/
def shareState (m : MMonPaxos) (peerLast : Nat) (p : Monitor) : Option MMonPaxos :=
  if peerLast < p.lastCommitted then
    some { m with values := sharedValues p peerLast, lastCommitted := p.lastCommitted }
  else none

/-- The values of a message that `Paxos::store_state` commits. -/
def toStore (m : MMonPaxos) (lastCommitted : Nat) : List (Nat × Tx) :=
  match m.values with
  | [] => []
  | first :: rest =>
    if lastCommitted + 1 < first.1 then []
    else
      ((first :: rest).dropWhile (·.1 ≤ lastCommitted)).takeWhile (·.1 ≤ m.lastCommitted)

/-- `Paxos::store_state`; the sanity check at its end reads back what it wrote. -/
def storeState (m : MMonPaxos) (p : Monitor) : Monitor :=
  match (toStore m p.lastCommitted).getLast? with
  | none => p
  | some final =>
    let st := (toStore m p.lastCommitted).foldl Store.commitVersion
      { p.store with lastCommitted := final.1 }
    let obsolete := p.uncommittedV ≠ 0 ∧ p.uncommittedV ≤ final.1
    { p with
      store := st
      lastCommitted := final.1
      firstCommitted := st.firstCommitted
      uncommittedV := if obsolete then 0 else p.uncommittedV
      uncommittedPn := if obsolete then 0 else p.uncommittedPn
      uncommittedValue := if obsolete then none else p.uncommittedValue }

/-- The uncommitted value that `Paxos::handle_collect` adds to its answer. -/
def shareUncommitted (collect : MMonPaxos) (previousPn : Nat) (p : Monitor) (last : MMonPaxos) :
    MMonPaxos :=
  if collect.lastCommitted ≤ p.lastCommitted then
    match p.store.values (p.lastCommitted + 1) with
    | none => last
    | some x =>
      { last with
        values := last.values ++ [(p.lastCommitted + 1, x)]
        uncommittedPn := pendingPnOf p.store p.lastCommitted previousPn }
  else last

/-- `Paxos::handle_collect`. -/
def handleCollect (sender : Nat) (m : MMonPaxos) (p : Monitor) : Option (Monitor × Sends) :=
  match p.role with
  | .peon _ =>
    let p := { p with state := .recovering }
    if p.lastCommitted + 1 < m.firstCommitted then (bootstrap p).map (·, [])
    else
      let accept := p.acceptedPn < m.pn
      let p' := if accept then
          { p with acceptedPn := m.pn, store := { p.store with acceptedPn := m.pn } }
        else p
      let last : MMonPaxos :=
        { epoch := p'.epoch, op := .last, lastCommitted := p'.lastCommitted,
          firstCommitted := p'.firstCommitted, pn := p'.acceptedPn }
      let shared := if m.lastCommitted < p'.lastCommitted then
          shareState last m.lastCommitted p'
        else some last
      shared.map fun last => (p', [(sender, shareUncommitted m p.acceptedPn p' last)])
  | _ => none

/-- `Paxos::commit_start`. -/
def commitStart (p : Monitor) : Option Monitor :=
  match p.newValue, p.state with
  | some x, .updatingPrevious =>
    some { p with state := .writingPrevious, commit := .queued (p.lastCommitted + 1) x }
  | some x, .updating =>
    some { p with state := .writing, commit := .queued (p.lastCommitted + 1) x }
  | _, _ => none

/-- The value `Paxos::begin` proposes: the very first one also sets
`first_committed`. -/
def dressValue (lastCommitted : Nat) (v : Tx) : Tx :=
  if lastCommitted = 0 then .putFirstCommitted 1 :: v else v

/-- `Paxos::begin`. -/
def begin (v : Tx) (p : Monitor) : Option (Monitor × Sends) :=
  if p.role = .leader ∧ (p.state = .updating ∨ p.state = .updatingPrevious) ∧
      (p.quorum.card = 1 ∨ n / 2 < p.numLast) ∧ p.newValue = none then
    let x := dressValue p.lastCommitted v
    let st := p.store.putValue (p.lastCommitted + 1) x
    let p' := { p with
      accepted := {rank}
      newValue := some x
      store := { st with pendingV := p.lastCommitted + 1, pendingPn := p.acceptedPn } }
    if p'.quorum.card = 1 then (commitStart p').map (·, [])
    else
      some (p', (others n rank p'.quorum).map fun i =>
        (i, { epoch := p'.epoch, op := .begin, lastCommitted := p'.lastCommitted,
              pn := p'.acceptedPn, values := [(p'.lastCommitted + 1, x)] }))
  else none

/-- The loop of `Paxos::handle_last` over the peers heard from: bring each one
that lags up to date.  The flag says that one lags too far. -/
def sharePeers (p : Monitor) : List Nat → Option (Sends × Bool)
  | [] => some ([], false)
  | i :: is =>
    match p.peerLastCommitted i with
    | none => sharePeers p is
    | some a =>
      if a + 1 < p.firstCommitted ∧ 1 < p.firstCommitted then some ([], true)
      else if a < p.lastCommitted then
        (shareState { epoch := p.epoch, op := .commit } a p).bind fun m =>
          (sharePeers p is).map fun r => ((i, m) :: r.1, r.2)
      else sharePeers p is

/-- The part of `Paxos::handle_last` for a peer that accepted our proposal
number: learn its uncommitted value. -/
def learnUncommitted (m : MMonPaxos) (p : Monitor) : Monitor :=
  if m.uncommittedPn ≠ 0 ∧ p.uncommittedPn ≤ m.uncommittedPn ∧
      p.lastCommitted ≤ m.lastCommitted ∧ p.uncommittedV ≤ m.lastCommitted + 1 then
    { p with
      uncommittedV := m.lastCommitted + 1
      uncommittedPn := m.uncommittedPn
      uncommittedValue := m.values.lookup (m.lastCommitted + 1) }
  else p

/-- The end of `Paxos::handle_last` once the whole quorum has answered: propose
the value learned, or go active. -/
def finishCollect (p : Monitor) : Option (Monitor × Sends) :=
  let p := { p with peerLastCommitted := fun _ => none }
  match p.uncommittedValue with
  | some x =>
    if p.uncommittedV = p.lastCommitted + 1 then
      begin n rank x { p with state := .updatingPrevious }
    else some ({ p with state := .active }, [])
  | none => some ({ p with state := .active }, [])

/-- The part of `Paxos::handle_last` that looks at the proposal number. -/
def countLast (m : MMonPaxos) (p : Monitor) : Option (Monitor × Sends) :=
  if p.acceptedPn < m.pn then collect n rank m.pn p
  else if m.pn = p.acceptedPn then
    let p := learnUncommitted m { p with numLast := p.numLast + 1 }
    if p.numLast = p.quorum.card then finishCollect n rank p else some (p, [])
  else some (p, [])

/-- `Paxos::handle_last`. -/
def handleLast (sender : Nat) (m : MMonPaxos) (p : Monitor) : Option (Monitor × Sends) :=
  if p.role = .leader then
    let p := { p with
      peerLastCommitted := Function.update p.peerLastCommitted sender (some m.lastCommitted) }
    if p.lastCommitted + 1 < m.firstCommitted then (bootstrap p).map (·, [])
    else
      let p := storeState m p
      (sharePeers p (List.range n)).bind fun shared =>
        if shared.2 then (bootstrap p).map (·, shared.1)
        else (countLast n rank m p).map fun r => (r.1, shared.1 ++ r.2)
  else some (p, [])

/-- `Paxos::handle_begin`. -/
def handleBegin (sender : Nat) (m : MMonPaxos) (p : Monitor) : Option (Monitor × Sends) :=
  if m.pn < p.acceptedPn then some (p, [])
  else if m.pn = p.acceptedPn ∧ m.lastCommitted = p.lastCommitted then
    match m.values.lookup (p.lastCommitted + 1) with
    | none => none
    | some x =>
      let st := p.store.putValue (p.lastCommitted + 1) x
      some
        ({ p with
            state := .updating
            store := { st with pendingV := p.lastCommitted + 1, pendingPn := p.acceptedPn } },
          [(sender, { epoch := p.epoch, op := .accept, pn := p.acceptedPn,
                      lastCommitted := p.lastCommitted })])
  else none

/-- `Paxos::handle_accept`.  `last_committed - 1` is only looked at when it does
not wrap. -/
def handleAccept (sender : Nat) (m : MMonPaxos) (p : Monitor) : Option (Monitor × Sends) :=
  if m.pn ≠ p.acceptedPn then some (p, [])
  else if 0 < p.lastCommitted ∧ m.lastCommitted < p.lastCommitted - 1 then some (p, [])
  else if (m.lastCommitted = p.lastCommitted ∨ m.lastCommitted + 1 = p.lastCommitted) ∧
      (p.state = .updating ∨ p.state = .updatingPrevious) ∧ sender ∉ p.accepted then
    let p := { p with accepted := insert sender p.accepted }
    if p.accepted = p.quorum then (commitStart p).map (·, []) else some (p, [])
  else none

/-- The store applies the transaction that `commit_start` queued. -/
def commitApply (p : Monitor) : Option Monitor :=
  match p.commit with
  | .queued v x =>
    some { p with
      store := Store.applyTx x { p.store with lastCommitted := v }, commit := .applied }
  | _ => none

/-- `Paxos::commit_finish`, run when the transaction has been applied. -/
def commitFinish (p : Monitor) : Option (Monitor × Sends) :=
  match p.newValue with
  | none => none
  | some x =>
    if p.commit = .applied ∧ p.store.lastCommitted = p.lastCommitted + 1 ∧ p.role = .leader ∧
        (p.state = .writing ∨ p.state = .writingPrevious) then
      some
        ({ p with
            lastCommitted := p.lastCommitted + 1
            firstCommitted := p.store.firstCommitted
            newValue := none
            state := .active
            commit := .idle },
          (others n rank p.quorum).map fun i =>
            (i, { epoch := p.epoch, op := .commit, pn := p.acceptedPn,
                  lastCommitted := p.lastCommitted + 1,
                  values := [(p.lastCommitted + 1, x)] }))
    else none

/-- `Paxos::handle_commit`. -/
def handleCommit (m : MMonPaxos) (p : Monitor) : Option (Monitor × Sends) :=
  match p.role with
  | .peon _ => some (storeState m p, [])
  | _ => none

/-- `Paxos::dispatch`. -/
def dispatch (sender : Nat) (m : MMonPaxos) (p : Monitor) : Option (Monitor × Sends) :=
  if p.role = .electing then some (p, [])
  else if p.role = .leader ∨ p.role = .peon sender then
    match m.op with
    | .collect => handleCollect sender m p
    | .last => handleLast n rank sender m p
    | .begin => handleBegin sender m p
    | .accept => handleAccept sender m p
    | .commit => handleCommit m p
  else none

/-- The filter of `Monitor::dispatch_op` on the epoch of a Paxos message. -/
def dispatchOp (sender : Nat) (m : MMonPaxos) (p : Monitor) : Option (Monitor × Sends) :=
  if p.epoch < m.epoch then (bootstrap p).map (·, [])
  else if m.epoch ≠ p.epoch then some (p, [])
  else dispatch n rank sender m p

/-- `Paxos::propose_pending` on a transaction with the writes of the services
and, when `Paxos::finish_round` found that it should trim, the trim. -/
def proposePending (data : Nat) (trim : Option TrimConf) (p : Monitor) : Option (Monitor × Sends) :=
  if p.role = .leader ∧ p.state = .active then
    let ops := match trim with
      | none => []
      | some conf => trimOps conf p.firstCommitted p.lastCommitted
    begin n rank (.service data :: ops) { p with state := .updating }
  else none

/-- `Paxos::leader_init`, after `Monitor::win_election`. -/
def leaderInit (epoch : Nat) (quorum : Finset Nat) (p : Monitor) : Option (Monitor × Sends) :=
  let p := { p with epoch := epoch, role := .leader, quorum := quorum, newValue := none }
  if quorum.card = 1 then some ({ p with state := .active }, [])
  else collect n rank 0 { p with state := .recovering }

/-- `Paxos::peon_init`, after `Monitor::lose_election`. -/
def peonInit (epoch leader : Nat) (quorum : Finset Nat) (p : Monitor) : Monitor :=
  { p with
    epoch := epoch, role := .peon leader, quorum := quorum, newValue := none,
    state := .recovering }

/-- `Paxos::init` of a restarted process; it refuses a store with
`last_committed < first_committed`. -/
def restart (p : Monitor) : Option Monitor :=
  if p.store.firstCommitted ≤ p.store.lastCommitted then
    some { store := p.store, epoch := p.epoch, acceptedPn := p.store.acceptedPn,
           lastCommitted := p.store.lastCommitted, firstCommitted := p.store.firstCommitted }
  else none

end Code

/-! ## Monitors that run Paxos

Any number of monitors over FIFO links with arbitrary delay, across any number
of elections, crashes and restarts.  An election is given by its outcome: a
monitor becomes leader of a majority, or follows a leader, in an epoch above
all it has been in. -/

structure System where
  mon : Nat → Monitor
  /-- `net j i` holds the messages from `j` to `i`, the oldest first. -/
  net : Nat → Nat → List MMonPaxos

/-- Every store is empty. -/
def System.init : System where
  mon _ := {}
  net _ _ := []

inductive Action where
  /-- `Monitor::win_election`. -/
  | win (i epoch : Nat) (quorum : Finset Nat)
  /-- `Monitor::lose_election`. -/
  | lose (i epoch leader : Nat) (quorum : Finset Nat)
  /-- A timeout or an election message makes the monitor leave its quorum. -/
  | leave (i : Nat)
  /-- The process dies and comes back with what is in its store. -/
  | crash (i : Nat)
  /-- The oldest message from `j` to `i` arrives. -/
  | deliver (j i : Nat)
  | propose (i data : Nat) (trim : Option TrimConf)
  | commitApply (i : Nat)
  | commitFinish (i : Nat)
  deriving DecidableEq

/-- The monitor that takes a step. -/
def Action.actor : Action → Nat
  | .win i _ _ => i
  | .lose i _ _ _ => i
  | .leave i => i
  | .crash i => i
  | .deliver _ i => i
  | .propose i _ _ => i
  | .commitApply i => i
  | .commitFinish i => i

/-- The messages among `out` that go to `i`. -/
def msgsTo (i : Nat) (out : Sends) : List MMonPaxos := (out.filter (·.1 = i)).map (·.2)

/-- Put the messages that `i` sends behind those already under way. -/
def post (i : Nat) (out : Sends) (net : Nat → Nat → List MMonPaxos) : Nat → Nat → List MMonPaxos :=
  fun a b => if a = i then net a b ++ msgsTo b out else net a b

/-- The outcome of a handler of monitor `i`. -/
def System.settle (s : System) (i : Nat) (r : Monitor × Sends) : System where
  mon := Function.update s.mon i r.1
  net := post i r.2 s.net

/-- Take the oldest message off the link from `j` to `i`. -/
def System.take (s : System) (j i : Nat) : System :=
  { s with net := fun a b => if a = j ∧ b = i then (s.net a b).tail else s.net a b }

/-- The system once a step has taken the message it looks at. -/
def System.consume (s : System) : Action → System
  | .deliver j i => s.take j i
  | _ => s

/-- One step of the system.  Leaving an epoch waits for a commit that is being
written. -/
def step (n : Nat) (s : System) : Action → Option System
  | .win i epoch quorum =>
    if i < n ∧ (s.mon i).epoch < epoch ∧ Majority n quorum ∧ i ∈ quorum ∧
        (s.mon i).commit = .idle then
      (leaderInit n i epoch quorum (s.mon i)).map (s.settle i)
    else none
  | .lose i epoch leader quorum =>
    if i < n ∧ (s.mon i).epoch < epoch ∧ leader ≠ i ∧ (s.mon i).commit = .idle then
      some (s.settle i (peonInit epoch leader quorum (s.mon i), []))
    else none
  | .leave i => if i < n then (bootstrap (s.mon i)).map fun p => s.settle i (p, []) else none
  | .crash i => if i < n then (restart (s.mon i)).map fun p => s.settle i (p, []) else none
  | .deliver j i =>
    if i < n then
      match s.net j i with
      | [] => none
      | m :: _ => (dispatchOp n i j m (s.mon i)).map ((s.take j i).settle i)
    else none
  | .propose i data trim =>
    if i < n then (proposePending n i data trim (s.mon i)).map (s.settle i) else none
  | .commitApply i =>
    if i < n then (commitApply (s.mon i)).map fun p => s.settle i (p, []) else none
  | .commitFinish i =>
    if i < n then (commitFinish n i (s.mon i)).map (s.settle i) else none

end Ceph.Mon.Paxos
