import Ceph.Mon.Paxos.Completeness

set_option autoImplicit false

/-!
# How far the peers are

Before a leader proposes it brings every member of its quorum to its own
`last_committed`, with COMMITs that travel ahead of the BEGIN on the same link.
The invariant of this module follows a peer through the messages on their way
to it: where it will be once it has read them, and what its answers say about
where it was.
-/

namespace Ceph.Mon.Paxos

open Ceph.Lib List Option Monitor Function

variable {n : Nat} {C : Commits}

/-! ## The progress of a peon -/

/-- What a BEGIN is checked against. -/
structure Progress where
  last : Nat
  pn : Nat

def Monitor.progress (p : Monitor) : Progress := ⟨p.lastCommitted, p.acceptedPn⟩

/-- `last_committed` after `Paxos::store_state`. -/
def lastAfter (m : MMonPaxos) (last : Nat) : Nat :=
  match (toStore m last).getLast? with
  | none => last
  | some final => final.1

/-- The progress of a peon that reads a message of its leader. -/
def Progress.after (v : Progress) (m : MMonPaxos) : Progress :=
  match m.op with
  | .collect => { v with pn := max v.pn m.pn }
  | .commit => { v with last := lastAfter m v.last }
  | _ => v

/-- `Paxos::handle_begin` will not fail on the message. -/
def Progress.Ready (v : Progress) (m : MMonPaxos) : Prop :=
  m.op = .begin → m.pn ≤ v.pn ∧ m.lastCommitted = v.last

/-- Where a peon will be after the messages `D`. -/
def Monitor.ahead (q : Monitor) (D : List MMonPaxos) : Progress := D.foldl Progress.after q.progress

theorem storeState_lastCommitted (m : MMonPaxos) (p : Monitor) :
    (storeState m p).lastCommitted = lastAfter m p.lastCommitted := by
  unfold lastAfter storeState
  cases (toStore m p.lastCommitted).getLast? <;> rfl

variable {m : MMonPaxos} {p q : Monitor} {a l i : Nat}

theorem storeState_progress (hop : m.op = .commit) :
    (storeState m p).progress = p.progress.after m := by
  simp [progress, Progress.after, hop, storeState_lastCommitted]

theorem promised_progress (hop : m.op = .collect) :
    (promised m p).progress = p.progress.after m := by
  unfold promised
  split
  next hlt => simp [progress, Progress.after, hop, max_eq_right hlt.le]
  next hlt => simp [progress, Progress.after, hop, max_eq_left (not_lt.1 hlt)]

/-- Only COLLECT and COMMIT move a peon. -/
theorem Progress.after_other {v : Progress} (hc : m.op ≠ .collect) (hm : m.op ≠ .commit) :
    v.after m = v := by
  unfold Progress.after
  split
  next hop => exact absurd hop hc
  next hop => exact absurd hop hm
  · rfl

/-- A message that carries committed versions moves `last_committed` to its own
if the first of them is low enough, and never beyond. -/
theorem Carries.lastAfter {lo : Nat} (h : Carries C lo m) :
    (lo ≤ a + 1 → lastAfter m a = max a m.lastCommitted) ∧ a ≤ lastAfter m a ∧
      lastAfter m a ≤ max a m.lastCommitted := by
  obtain ⟨hsome, hnone⟩ := h.toStore
  by_cases hdo : lo ≤ a + 1 ∧ a < m.lastCommitted
  · obtain ⟨_, hx⟩ := (hsome hdo.1 hdo.2).getLast_eq (by omega)
    have heq : Paxos.lastAfter m a = m.lastCommitted := by simp [Paxos.lastAfter, hx]
    omega
  · have heq : Paxos.lastAfter m a = a := by simp [Paxos.lastAfter, hnone hdo]
    omega

section Ahead

variable {D : List MMonPaxos} {v : Progress}

theorem ahead_pn_le : v.pn ≤ (D.foldl Progress.after v).pn := by
  refine foldlRecOn D Progress.after (motive := (v.pn ≤ ·.pn)) le_rfl fun w hw m _ => hw.trans ?_
  unfold Progress.after
  split <;> simp

theorem ahead_last_ge (hD : ∀ m ∈ D, m.op = .commit → ∃ lo, Carries C lo m) :
    v.last ≤ (D.foldl Progress.after v).last := by
  refine foldlRecOn D Progress.after (motive := (v.last ≤ ·.last)) le_rfl
    fun w hw m hm => hw.trans ?_
  unfold Progress.after
  split
  · exact le_rfl
  next hop =>
    obtain ⟨lo, hlo⟩ := hD m hm hop
    exact hlo.lastAfter.2.1
  · exact le_rfl

theorem ahead_last_le {b : Nat} (hD : ∀ m ∈ D, m.op = .commit → ∃ lo, Carries C lo m)
    (hb : ∀ m ∈ D, m.op = .commit → m.lastCommitted ≤ b) (hv : v.last ≤ b) :
    (D.foldl Progress.after v).last ≤ b := by
  induction D generalizing v with
  | nil => exact hv
  | cons m _ ih =>
    refine ih (fun m' hm' => hD m' (mem_cons_of_mem _ hm'))
      (fun m' hm' => hb m' (mem_cons_of_mem _ hm')) ?_
    unfold Progress.after
    split
    · exact hv
    next hop =>
      obtain ⟨lo, hlo⟩ := hD m (by simp) hop
      have hle := hb m (by simp) hop
      have := (hlo.lastAfter (a := v.last)).2.2
      show Paxos.lastAfter m v.last ≤ b
      omega
    · exact hv

/-- COMMITs that start low enough bring a peon to `b`. -/
theorem ahead_last_reach {b : Nat} (hne : D ≠ [])
    (hD : ∀ m ∈ D, m.op = .commit ∧ m.lastCommitted = b ∧ ∃ lo, Carries C lo m ∧ lo ≤ v.last + 1) :
    b ≤ (D.foldl Progress.after v).last := by
  cases D with
  | nil => exact absurd rfl hne
  | cons m =>
    obtain ⟨hop, _, lo, hlo, hle⟩ := hD m (by simp)
    have hm : b ≤ (v.after m).last := by
      simp only [Progress.after, hop, hlo.lastAfter.1 hle]
      omega
    refine hm.trans (ahead_last_ge (C := C) fun m' hm' _ => ?_)
    obtain ⟨-, -, lo', hlo', -⟩ := hD m' (mem_cons_of_mem _ hm')
    exact ⟨lo', hlo'⟩

end Ahead

/-! ## A leader and a peer -/

/-- What an answer under way says about the peer that sent it. -/
structure UpMsg (C : Commits) (l : Nat) (p q : Monitor) (m : MMonPaxos) : Prop where
  low : m.lastCommitted ≤ q.lastCommitted
  high : q.lastCommitted ≤ max m.lastCommitted p.lastCommitted
  pn : q.role = .peon l → m.pn ≤ q.acceptedPn
  carries : ∃ lo, Carries C lo m ∧ (lo ≤ p.lastCommitted + 1 ∨ lo ≤ m.firstCommitted)

/-- The leader `p`, of rank `l`, and the peer `i`, with the messages `D` to the
peer and `U` back. -/
structure LevelTok (C : Commits) (l i : Nat) (counted : Prop) (p q : Monitor)
    (D U : List MMonPaxos) : Prop where
  down : ∀ m ∈ D, m.op = .collect ∨ m.op = .commit → m.lastCommitted ≤ p.lastCommitted
  up : ∀ m ∈ U, m.op = .last → UpMsg C l p q m
  seen : ∀ a, p.peerLastCommitted i = some a → a ≤ q.lastCommitted
  bound : counted → q.lastCommitted ≤ p.lastCommitted
  pn : counted → q.role = .peon l → p.acceptedPn ≤ q.acceptedPn
  told : counted → p.state = .recovering → p.peerLastCommitted i ≠ none
  level : q.role = .peon l → p.state ≠ .recovering ∨ p.peerLastCommitted i ≠ none →
    p.lastCommitted ≤ (q.ahead D).last

theorem UpMsg.mono {p' : Monitor} (h : UpMsg C l p q m)
    (hlast : p.lastCommitted ≤ p'.lastCommitted) : UpMsg C l p' q m := by
  obtain ⟨lo, hlo, _⟩ := h.carries
  have := h.high
  exact ⟨h.low, by omega, h.pn, lo, hlo, by omega⟩

variable {c : Prop} {j : Nat} {out : Sends} {m : MMonPaxos}

theorem LevelTok.mono {C' : Commits} (hC : ∀ v x, C v x → C' v x) {D U : List MMonPaxos}
    (h : LevelTok C l i c p q D U) : LevelTok C' l i c p q D U := by
  refine ⟨h.down, ?_, h.seen, h.bound, h.pn, h.told, h.level⟩
  intro m hm hop
  have hup := h.up m hm hop
  obtain ⟨lo, hlo, hle⟩ := hup.carries
  exact ⟨hup.low, hup.high, hup.pn, lo, hlo.mono hC, hle⟩

/-- A peon that its leader has counted and brought to its own `last_committed`
will be ready for a BEGIN. -/
theorem LevelTok.ready {D U : List MMonPaxos} {b : MMonPaxos} (h : LevelTok C l i c p q D U)
    (hc : c) (hD : ∀ m ∈ D, m.op = .commit → ∃ lo, Carries C lo m) (hrole : q.role = .peon l)
    (hstate : p.state ≠ .recovering) (hpn : b.pn = p.acceptedPn)
    (hlast : b.lastCommitted = p.lastCommitted) : (q.ahead D).Ready b := by
  intro _
  have hge := h.level hrole (.inl hstate)
  have hle : (q.ahead D).last ≤ p.lastCommitted :=
    ahead_last_le hD (fun m hm hop => h.down m hm (.inr hop)) (h.bound hc)
  refine ⟨?_, by omega⟩
  rw [hpn]
  exact (h.pn hc hrole).trans (ahead_pn_le (v := q.progress))

/-! ## Moves of the leader -/

/-- The moves of a leader as far as `last_committed` goes. -/
inductive Lead (n i : Nat) (p : Monitor) :
    Source → Monitor → Sends → Prop where
  | still {src : Source} {p' : Monitor} {out : Sends}
      (hrole : p.role = .leader) (hlast : p'.lastCommitted = p.lastCommitted)
      (hplc : p'.peerLastCommitted = p.peerLastCommitted)
      (hacc : p'.acceptedPn = p.acceptedPn) (hnum : p'.numLast = p.numLast)
      (hrec : p'.state = .recovering ↔ p.state = .recovering)
      (hout : ∀ k m, (k, m) ∈ out → m.op = .begin) : Lead n i p src p' out
  | finish {src : Source} {p' : Monitor} {x : Tx}
      (hrole : p.role = .leader) (hx : p.newValue = some x) (happlied : p.commit = .applied)
      (hlast : p'.lastCommitted = p.lastCommitted + 1)
      (hplc : p'.peerLastCommitted = p.peerLastCommitted)
      (hacc : p'.acceptedPn = p.acceptedPn) (hnum : p'.numLast = p.numLast)
      (hstate : p.state ≠ .recovering) (hstate' : p'.state ≠ .recovering) :
      Lead n i p src p' ((others n i p.quorum).map fun k => (k, commitMsg p x))
  /-- As it is elected, or again with a higher proposal number. -/
  | collect {src : Source} {p' : Monitor} {out : Sends}
      (hnew : p.epoch < p'.epoch ∨ p.role = .leader)
      (hlast : p.lastCommitted ≤ p'.lastCommitted) (hplc : ∀ k, p'.peerLastCommitted k = none)
      (hacc : p.acceptedPn < p'.acceptedPn) (hstate : p'.state = .recovering)
      (hout : ∀ k m, (k, m) ∈ out → (m.op = .collect ∨ m.op = .commit) ∧
        m.lastCommitted = p'.lastCommitted) : Lead n i p src p' out
  /-- It hears a LAST, and goes on or not. -/
  | hear {j : Nat} {m : MMonPaxos} {p' : Monitor} {shared : Sends × Bool} {begins : Sends}
      (hl : LastShared n p j m shared) (hrec : p.state = .recovering)
      (hall : shared.2 = false) (hlast : p'.lastCommitted = (heard j m p).lastCommitted)
      (hacc : p'.acceptedPn = p.acceptedPn)
      (hcount : p'.numLast = p.numLast ∧ p'.state = .recovering ∨
        p'.numLast = p.numLast + 1 ∧ m.pn = p.acceptedPn)
      (hplc : p'.state = .recovering ∧ p'.peerLastCommitted = (heard j m p).peerLastCommitted ∨
        p'.state ≠ .recovering ∧ ∀ k, p'.peerLastCommitted k = none)
      (hout : ∀ k m, (k, m) ∈ begins → m.op = .begin) :
      Lead n i p (some (j, m)) p' (shared.1 ++ begins)

/-- Hearing a LAST moves `last_committed` up. -/
theorem heard_last_ge {P : Commits} (hop : m.op = .last) (hm : MsgHist C P m) :
    p.lastCommitted ≤ (heard j m p).lastCommitted := by
  obtain ⟨_, hlo⟩ := hm.carries (.inr hop)
  show _ ≤ (storeState m (recorded j m p)).lastCommitted
  rw [storeState_lastCommitted]
  exact hlo.lastAfter.2.1

/-- Every local step of a monitor that leads afterwards is one of these moves. -/
theorem Local.lead {P : Commits} {p' : Monitor} {inp : Option MMonPaxos} {a : Action}
    (hn : 2 ≤ n) (h : Local n p inp a p' out) (hexp : Expected p inp)
    (hm : ∀ m, inp = some m → MsgHist C P m) (hcard : p.role = .leader → p.quorum.card ≠ 1)
    (hrole' : p'.role = .leader) : Lead n a.actor p (a.source inp) p' out := by
  cases h with
  | @win i e Q hepoch =>
    obtain ⟨-, -, hacc, -⟩ := collecting_pn i 0 (elected e Q p)
    refine .collect (.inl hepoch) le_rfl (fun _ => rfl) hacc rfl ?_
    intro k m' hm'
    obtain ⟨-, rfl⟩ := mem_broadcast hm'
    exact ⟨.inl rfl, rfl⟩
  | winAlone _ hmaj =>
    have := hmaj.2
    omega
  | lose => simp [peonInit] at hrole'
  | leave | newer | collectBoot | lastBoot | lastShareBoot => simp [bootstrapped] at hrole'
  | crash => simp [restarted] at hrole'
  | drop | accept | apply => exact .still hrole' rfl rfl rfl rfl Iff.rfl (by simp)
  | collect _ _ hrole => simp [hrole] at hrole'
  | @lastRetry j i m _ hl =>
    obtain ⟨-, -, hacc, -⟩ := collecting_pn i m.pn (heard j m p)
    refine .collect (.inr hl.role) (heard_last_ge hl.op (hm m rfl)) (fun _ => rfl)
      (by simpa using hacc) rfl ?_
    intro k m' hm'
    rcases mem_append.1 hm' with hm' | hm'
    · obtain ⟨_, -, -, -, rfl⟩ := sharePeers_mem hl.sent k m' hm'
      exact ⟨.inr rfl, rfl⟩
    · obtain ⟨-, rfl⟩ := mem_broadcast hm'
      exact ⟨.inl rfl, rfl⟩
  | @lastOld j i m shared hl hall =>
    have hrec := hexp.last m rfl hl.toLastHeard
    have := @Lead.hear n i p j m _ shared [] hl hrec hall rfl
      (by simp) (.inl ⟨by simp, by simpa using hrec⟩) (.inl ⟨by simpa using hrec, rfl⟩) (by simp)
    rwa [append_nil] at this
  | @lastCount j i m shared hl hall hpn =>
    have hrec := hexp.last m rfl hl.toLastHeard
    have := @Lead.hear n i p j m (counted m (heard j m p)) shared [] hl hrec hall (by simp)
      (by simp) (.inr ⟨by simp, by simpa using hpn⟩) (.inl ⟨by simpa using hrec, by simp⟩) (by simp)
    rwa [append_nil] at this
  | @lastActive j i m shared hl hall hpn =>
    have hrec := hexp.last m rfl hl.toLastHeard
    have := @Lead.hear n i p j m (recovered .active (counted m (heard j m p))) shared [] hl hrec
      hall (by simp [recovered]) (by simp [recovered])
      (.inr ⟨by simp [recovered], by simpa using hpn⟩)
      (.inr ⟨by simp [recovered], fun _ => rfl⟩) (by simp)
    rwa [append_nil] at this
  | @lastBegin _ _ m _ _ _ _ hl hall hpn _ _ _ hbegin =>
    obtain ⟨rfl, hupd, rfl⟩ := begin_round hbegin (by simpa [recovered] using hcard hl.role)
    refine .hear hl (hexp.last m rfl hl.toLastHeard) hall (by simp [begun, recovered])
      (by simp [begun, recovered]) (.inr ⟨by simp [begun, recovered], by simpa using hpn⟩)
      (.inr ⟨by simp [begun, recovered], fun _ => rfl⟩) ?_
    intro k m' hm'
    obtain ⟨-, rfl⟩ := mem_broadcast hm'
    rfl
  | vote hop hepoch _ hpn => exact absurd hrole' (hexp.vote _ rfl hop hepoch hpn)
  | acceptCommit _ _ _ _ _ hstate =>
    refine .still hrole' rfl rfl rfl rfl ?_ (by simp)
    rcases hstate with hs | hs <;> simp [committing, acceptedBy, hs]
  | @commit _ _ _ _ _ hrole => simp [hrole] at hrole'
  | @propose _ _ _ _ _ hrole hstate hbegin =>
    obtain ⟨rfl, hupd, rfl⟩ := begin_round hbegin (hcard hrole)
    refine .still hrole rfl rfl rfl rfl (by simp [begun, hstate]) ?_
    intro k m' hm'
    obtain ⟨-, rfl⟩ := mem_broadcast hm'
    rfl
  | @finish _ _ hx happlied _ hrole hstate =>
    refine .finish hrole hx happlied rfl rfl rfl rfl ?_ (by simp [finished])
    rcases hstate with hs | hs <;> simp [hs]

/-- The loop of `Paxos::handle_last` leaves out no peer that lags. -/
theorem sharePeers_sent {k : Nat} {is : List Nat} {shared : Sends × Bool}
    (ha : p.peerLastCommitted k = some a) (hlt : a < p.lastCommitted)
    (h : sharePeers p is = some shared) (hall : shared.2 = false) (hk : k ∈ is) :
    (k, shareMsg p a) ∈ shared.1 := by
  induction is generalizing shared with
  | nil => cases hk
  | cons _ _ ih =>
    simp only [sharePeers] at h
    rcases mem_cons.1 hk with rfl | hk
    · simp only [ha, hlt, shareState_eq, if_true] at h
      split at h
      · simp only [some.injEq] at h
        simp [← h] at hall
      · obtain ⟨r, -, rfl⟩ := map_eq_some_iff.1 h
        exact mem_cons_self
    · split at h
      · exact ih h hall hk
      · split at h
        · simp only [some.injEq] at h
          simp [← h] at hall
        · split at h
          next hlt' =>
            rw [shareState_eq hlt'] at h
            obtain ⟨r, hr, rfl⟩ := map_eq_some_iff.1 h
            exact mem_cons_of_mem _ (ih hr hall hk)
          · exact ih h hall hk

/-- What a leader shares brings a peer that was at `a` to its own
`last_committed`. -/
theorem shared_reach (hC : HistoryOk C) (hst : StoreAt C p.lastCommitted p.store)
    (hfirst : p.firstCommitted = p.store.firstCommitted) {shared : Sends × Bool}
    (hshared : sharePeers p (List.range n) = some shared) (hall : shared.2 = false) (hi : i < n)
    (ha : p.peerLastCommitted i = some a) {v : Progress} (hv : a ≤ v.last) :
    p.lastCommitted ≤ ((msgsTo i shared.1).foldl Progress.after v).last := by
  have hmsg : ∀ m ∈ msgsTo i shared.1, a < p.lastCommitted ∧ m = shareMsg p a ∧
      Carries C (max (a + 1) p.store.firstCommitted) m ∧
      max (a + 1) p.store.firstCommitted ≤ v.last + 1 := by
    intro m hm
    obtain ⟨b, hb, hlt, _, rfl⟩ := sharePeers_mem hshared i m (mem_msgsTo.1 hm)
    obtain rfl : a = b := some.inj (ha.symm.trans hb)
    exact ⟨hlt, rfl, shareMsg_carries hC hst hlt, by omega⟩
  obtain hlt | hge := lt_or_ge a p.lastCommitted
  · have hmem := sharePeers_sent ha hlt hshared hall (mem_range.2 hi)
    refine ahead_last_reach (C := C) (ne_nil_of_mem (mem_msgsTo.2 hmem)) fun m hm => ?_
    obtain ⟨-, rfl, hcar, hle⟩ := hmsg m hm
    exact ⟨rfl, rfl, _, hcar, hle⟩
  · refine (hge.trans hv).trans (ahead_last_ge (C := C) fun m hm _ => ?_)
    obtain ⟨-, -, hcar, -⟩ := hmsg m hm
    exact ⟨_, hcar⟩

section Leader

variable {P : Commits} {l i : Nat} {S : Finset Nat} {p p' q : Monitor}
  {D E U U' : List MMonPaxos}

theorem ahead_append : q.ahead (D ++ E) = E.foldl Progress.after (q.ahead D) := foldl_append

theorem ahead_begins (hE : ∀ m ∈ E, m.op = .begin) : q.ahead (D ++ E) = q.ahead D := by
  rw [ahead_append]
  exact foldl_of_still fun m hm => Progress.after_other (by simp [hE m hm]) (by simp [hE m hm])

/-- The leader stays where it is, and may have sent a BEGIN. -/
theorem LevelTok.still (h : LevelTok C l i c p q D U) (hlast : p'.lastCommitted = p.lastCommitted)
    (hplc : p'.peerLastCommitted = p.peerLastCommitted) (hacc : p'.acceptedPn = p.acceptedPn)
    (hrec : p'.state = .recovering ↔ p.state = .recovering) (hE : ∀ m ∈ E, m.op = .begin)
    (hU : ∀ m ∈ U', m ∈ U) : LevelTok C l i c p' q (D ++ E) U' := by
  refine ⟨?_, ?_, ?_, ?_, ?_, ?_, ?_⟩
  · intro m hm hop
    rw [hlast]
    rcases mem_append.1 hm with hm | hm
    · exact h.down m hm hop
    · simp [hE m hm] at hop
  · intro m hm hop
    exact (h.up m (hU m hm) hop).mono (le_of_eq hlast.symm)
  · rw [hplc]
    exact h.seen
  · rw [hlast]
    exact h.bound
  · rw [hacc]
    exact h.pn
  · rw [hplc, hrec]
    exact h.told
  · rw [hplc, Ne, hrec, hlast, ahead_begins hE]
    exact h.level

/-- A new collect forgets who was heard. -/
theorem LevelTok.collect (hc : ¬ c)
    (hD : ∀ m ∈ D, m.op = .collect ∨ m.op = .commit → m.lastCommitted ≤ p'.lastCommitted)
    (hE : ∀ m ∈ E, m.lastCommitted = p'.lastCommitted)
    (hU : ∀ m ∈ U', m.op = .last → UpMsg C l p' q m) (hplc : p'.peerLastCommitted i = none)
    (hstate : p'.state = .recovering) : LevelTok C l i c p' q (D ++ E) U' := by
  refine ⟨?_, hU, by simp [hplc], fun h => absurd h hc, fun h => absurd h hc,
    fun h => absurd h hc, by simp [hplc, hstate]⟩
  intro m hm hop
  rcases mem_append.1 hm with hm | hm
  · exact hD m hm hop
  · exact le_of_eq (hE m hm)

/-- The leader commits and tells everyone. -/
theorem LevelTok.finish {x : Tx} (h : LevelTok C l i c p q D U) (hx : C (p.lastCommitted + 1) x)
    (hlast : p'.lastCommitted = p.lastCommitted + 1)
    (hplc : p'.peerLastCommitted = p.peerLastCommitted) (hacc : p'.acceptedPn = p.acceptedPn)
    (hstate : p.state ≠ .recovering) (hstate' : p'.state ≠ .recovering)
    (hE : ∀ m ∈ E, m = commitMsg p x) (hne : E ≠ []) (hU : ∀ m ∈ U', m ∈ U) :
    LevelTok C l i c p' q (D ++ E) U' := by
  refine ⟨?_, ?_, ?_, ?_, ?_, ?_, ?_⟩
  · intro m hm hop
    rw [hlast]
    rcases mem_append.1 hm with hm | hm
    · exact (h.down m hm hop).trans (Nat.le_succ _)
    · rw [hE m hm]
      exact le_rfl
  · intro m hm hop
    exact (h.up m (hU m hm) hop).mono (by omega)
  · rw [hplc]
    exact h.seen
  · intro hc
    have := h.bound hc
    omega
  · rw [hacc]
    exact h.pn
  · exact fun _ hrec => absurd hrec hstate'
  · intro hrole _
    have hlevel := h.level hrole (.inl hstate)
    rw [hlast, ahead_append]
    refine ahead_last_reach (C := C) hne fun m hm => ?_
    obtain rfl := hE m hm
    exact ⟨rfl, rfl, p.lastCommitted + 1, ⟨[(p.lastCommitted + 1, x)],
      ⟨rfl, le_rfl, hx, rfl⟩, .inl rfl⟩, by omega⟩

/-- The leader hears a LAST from `j` and brings every peer it has heard from to
its own `last_committed`. -/
theorem LevelTok.hear (hC : HistoryOk C) {c' : Prop} {shared : Sends × Bool}
    (h : LevelTok C l i c p q D U) (hi : i < n) (hrec : p.state = .recovering)
    (hst : StoreAt C (heard j m p).lastCommitted (heard j m p).store)
    (hfc : (heard j m p).firstCommitted = (heard j m p).store.firstCommitted)
    (hge : p.lastCommitted ≤ (heard j m p).lastCommitted)
    (hfirst : m.firstCommitted ≤ p.lastCommitted + 1)
    (hshared : sharePeers (heard j m p) (List.range n) = some shared) (hall : shared.2 = false)
    (hlast : p'.lastCommitted = (heard j m p).lastCommitted) (hacc : p'.acceptedPn = p.acceptedPn)
    (hplc : p'.state = .recovering ∧ p'.peerLastCommitted = (heard j m p).peerLastCommitted ∨
      p'.state ≠ .recovering ∧ ∀ k, p'.peerLastCommitted k = none)
    (hc : c' → c ∨ i = j ∧ m.pn = p.acceptedPn) (hc' : p'.state ≠ .recovering → c')
    (hm : i = j → m ∈ U) (hop : m.op = .last) (hD : ∀ m ∈ D, m.op = .commit → ∃ lo, Carries C lo m)
    (hE : ∀ m ∈ E, m.op = .begin) (hU : ∀ m ∈ U', m ∈ U) :
    LevelTok C l i c' p' q (D ++ (msgsTo i shared.1 ++ E)) U' := by
  have hup : i = j → UpMsg C l p q m := fun hij => h.up m (hm hij) hop
  -- whoever has been heard now is at least where its last answer said
  have hheard : ∀ a, (heard j m p).peerLastCommitted i = some a → a ≤ q.lastCommitted := by
    intro a ha
    rw [heard_peerLastCommitted] at ha
    by_cases hij : i = j
    · have hlow := (hup hij).low
      subst hij
      simp only [update_self, some.injEq] at ha
      omega
    · rw [update_of_ne hij] at ha
      exact h.seen a ha
  have hnone : c' → (heard j m p).peerLastCommitted i ≠ none := by
    intro hc''
    rw [heard_peerLastCommitted]
    by_cases hij : i = j
    · simp [hij]
    · rw [update_of_ne hij]
      exact h.told ((hc hc'').resolve_right fun h => hij h.1) hrec
  refine ⟨?_, ?_, ?_, ?_, ?_, ?_, ?_⟩
  · intro m' hm' hop'
    rw [hlast]
    rcases mem_append.1 hm' with hm' | hm'
    · exact (h.down m' hm' hop').trans hge
    rcases mem_append.1 hm' with hm' | hm'
    · obtain ⟨a, -, -, -, rfl⟩ := sharePeers_mem hshared i m' (mem_msgsTo.1 hm')
      exact le_rfl
    · simp [hE m' hm'] at hop'
  · intro m' hm' hop'
    exact (h.up m' (hU m' hm') hop').mono (hlast ▸ hge)
  · intro a ha
    rcases hplc with ⟨-, heq⟩ | ⟨-, heq⟩
    · exact hheard a (heq ▸ ha)
    · simp [heq] at ha
  · intro hc''
    rw [hlast]
    rcases hc hc'' with hold | ⟨hij, -⟩
    · exact (h.bound hold).trans hge
    · have := (hup hij).high
      obtain ⟨lo, hlo, _⟩ := (hup hij).carries
      have hmax := hlo.lastAfter.1 (show lo ≤ p.lastCommitted + 1 by omega)
      show _ ≤ (storeState m (recorded j m p)).lastCommitted
      rw [storeState_lastCommitted]
      exact le_trans (by omega) hmax.ge
  · intro hc'' hrole
    rw [hacc]
    rcases hc hc'' with hold | ⟨hij, hpn⟩
    · exact h.pn hold hrole
    · exact hpn ▸ (hup hij).pn hrole
  · intro hc'' hrec'
    rcases hplc with ⟨-, heq⟩ | ⟨hne, -⟩
    · rw [heq]
      exact hnone hc''
    · exact absurd hrec' hne
  · intro hrole hwhen
    have hsome : (heard j m p).peerLastCommitted i ≠ none := by
      rcases hplc with ⟨hrec', heq⟩ | ⟨hne, -⟩
      · exact heq ▸ hwhen.resolve_left fun hne => hne hrec'
      · exact hnone (hc' hne)
    obtain ⟨a, ha⟩ := ne_none_iff_exists'.1 hsome
    rw [hlast, ← append_assoc, ahead_begins hE, ahead_append]
    exact shared_reach hC hst hfc hshared hall hi ha
      ((hheard a ha).trans (ahead_last_ge (v := q.progress) hD))

/-- Every move of a monitor that leads afterwards keeps its peers in view. -/
theorem Lead.level (hC : HistoryOk C) {src : Source}
    (hlead : Lead n l p src p' out) (hi : i < n) (hne : i ≠ l) (hb : MonBase p) (hh : MonHist C P p)
    (hmsg : ∀ j m, src = some (j, m) → MsgHist C P m)
    (hold : p.role = .leader → i ∈ p.quorum ∧ LevelTok C l i (i ∈ S) p q D U)
    (hnew : p.epoch < p'.epoch → D = [] ∧ U = [])
    (hall : p'.state ≠ .recovering → i ∈ countedAfter S src p p')
    (hsrc : ∀ m, src = some (i, m) → m ∈ U) (hU : ∀ m ∈ U', m ∈ U)
    (hD : ∀ m ∈ D, m.op = .commit → ∃ lo, Carries C lo m) :
    LevelTok C l i (i ∈ countedAfter S src p p') p' q (D ++ msgsTo i out) U' := by
  cases hlead with
  | still hrole hlast hplc hacc hnum hrec hout =>
    rw [countedAfter_quiet hacc hnum]
    exact (hold hrole).2.still hlast hplc hacc hrec (fun m hm => hout i m (mem_msgsTo.1 hm)) hU
  | @finish _ _ x hrole hx happlied hlast hplc hacc hnum hstate hstate' =>
    rw [countedAfter_quiet hacc hnum]
    obtain ⟨hmem, htok⟩ := hold hrole
    refine htok.finish (hh.done happlied x hx) hlast hplc hacc hstate hstate' ?_ ?_ hU
    · intro m hm
      exact (mem_broadcast (mem_msgsTo.1 hm)).2
    · refine ne_nil_of_mem (mem_msgsTo.2 (mem_map.2 ⟨i, ?_, rfl⟩))
      simp [others, hi, hmem, hne]
  | collect hnew' hlast hplc hacc hstate hout =>
    rw [countedAfter_collect hacc]
    refine .collect (by simp) ?_ (fun m hm => (hout i m (mem_msgsTo.1 hm)).2) ?_ (hplc i) hstate
    · intro m hm hop
      rcases hnew' with hlt | hrole
      · simp [(hnew hlt).1] at hm
      · exact ((hold hrole).2.down m hm hop).trans hlast
    · intro m hm hop
      rcases hnew' with hlt | hrole
      · have := hU m hm
        simp [(hnew hlt).2] at this
      · exact ((hold hrole).2.up m (hU m hm) hop).mono hlast
  | @hear j m _ _ _ hl hrec hdone hlast hacc hcount hplc hout =>
      have hm := hmsg j m rfl
      have hs : Synced p := hb.synced (hb.idle_of_state (by simp [hrec]) (by simp [hrec]))
      have hnone := hb.clear hl.role (.inl hrec)
      obtain ⟨lo, hlo⟩ := hm.carries (.inr hl.op)
      have hh' := hh.heard hC hs hlo (fun _ => hnone) j
      have hs' := hs.heard j m
      rw [msgsTo_append]
      refine (hold hl.role).2.hear hC hi hrec (hs'.last ▸ hh'.store) hs'.first
        (heard_last_ge hl.op hm) hl.first hl.sent hdone hlast hacc hplc ?_ hall
        (fun hij => hsrc m (by rw [hij])) hl.op hD (fun m' hm' => hout i m' (mem_msgsTo.1 hm')) hU
      intro hc
      rcases hcount with ⟨hnum, -⟩ | ⟨hnum, hpn⟩
      · rw [countedAfter_quiet hacc hnum] at hc
        exact .inl hc
      · rw [countedAfter_count hacc hnum] at hc
        rcases Finset.mem_insert.1 hc with hij | hold
        · exact .inr ⟨hij, hpn⟩
        · exact .inl hold

end Leader

/-! ## Moves of a peer -/

/-- The moves of a monitor that follows `l` or nobody. -/
inductive Follow (l : Nat) (q : Monitor) :
    Source → Monitor → Sends → Prop where
  | join {q' : Monitor} (hepoch : q.epoch < q'.epoch) (hlast : q'.lastCommitted = q.lastCommitted) :
      Follow l q none q' []
  | gone {src : Source} {q' : Monitor} (hrole : q'.role = .electing)
      (hlast : q'.lastCommitted = q.lastCommitted) : Follow l q src q' []
  | answer {m : MMonPaxos} (hop : m.op = .collect) (hrole : q.role = .peon l) :
      Follow l q (some (l, m)) (promised m q) [(l, lastMsg m q.acceptedPn (promised m q))]
  | store {m : MMonPaxos} (hop : m.op = .commit) (hrole : q.role = .peon l) :
      Follow l q (some (l, m)) (storeState m q) []
  | still {src : Source} {q' : Monitor} {out : Sends}
      (hrole : q'.role = q.role) (hprogress : q'.progress = q.progress)
      (hsrc : ∀ j m, src = some (j, m) → q.role = .peon l → m.op ≠ .collect ∧ m.op ≠ .commit)
      (hout : ∀ k m, (k, m) ∈ out → m.op ≠ .last) : Follow l q src q' out

/-- Every local step of a monitor that does not lead is one of these moves. -/
theorem Local.follow {q' : Monitor} {inp : Option MMonPaxos} {a : Action}
    (h : Local n q inp a q' out) (hb : MonBase q) (hexp : Expected q inp) (hrole : q.role ≠ .leader)
    (hpeon : ∀ l', q.role = .peon l' → l' = l) (hwin : ∀ i e Q, a ≠ .win i e Q)
    (hepoch : ∀ m, inp = some m → q.role = .peon l → m.epoch = q.epoch) :
    Follow l q (a.source inp) q' out := by
  have hlead : ∀ {j : Nat}, q.role = .leader ∨ q.role = .peon j → q.role = .peon j := fun h =>
    h.resolve_left hrole
  cases h with
  | win => exact absurd rfl (hwin _ _ _)
  | winAlone => exact absurd rfl (hwin _ _ _)
  | lose hlt => exact .join hlt rfl
  | leave | newer | collectBoot => exact .gone rfl rfl
  | crash => exact .gone rfl (hb.synced (hb.idle_of_not_leader hrole)).last.symm
  | @drop _ _ m hstale =>
    refine .still rfl rfl ?_ (by simp)
    rintro j' m' heq hr
    obtain ⟨-, rfl⟩ := heq
    have hne : ¬ (m.op = .collect ∨ m.op = .commit) := fun hop => by
      have := hstale hop (hepoch m rfl hr)
      simp [hr] at this
    exact ⟨fun hop => hne (.inl hop), fun hop => hne (.inr hop)⟩
  | collect hop _ hr =>
    obtain rfl := hpeon _ hr
    exact .answer hop hr
  | lastBoot hl => exact absurd hl.role hrole
  | lastShareBoot hl | lastRetry hl | lastOld hl | lastCount hl | lastActive hl | lastBegin hl =>
    exact absurd hl.role hrole
  | propose hr | finish _ _ _ hr => exact absurd hr hrole
  | @vote _ _ _ _ hop =>
    refine .still rfl rfl ?_ ?_
    · rintro j' m' heq -
      obtain ⟨-, rfl⟩ := heq
      simp [hop]
    · intro _ m' hm'
      simp [(mem_reply hm').2, acceptMsg]
  | accept hop he hr | acceptCommit hop he hr =>
    exact absurd (hlead hr) (hexp.accept _ rfl hop he _)
  | commit hop _ hr =>
    obtain rfl := hpeon _ hr
    exact .store hop hr
  | apply hqueued => exact absurd (hb.busy (by simp [hqueued])).1 hrole

section Peer

variable {P : Commits} {l i : Nat} {c : Prop} {p q q' : Monitor}
  {D D' U : List MMonPaxos} {src : Source} {out : Sends}

/-- A message of the leader has been taken off the link. -/
theorem eq_of_taken
    (hread : (∀ m, src ≠ some (l, m)) ∧ D = D' ∨ ∃ m, src = some (l, m) ∧ D = m :: D')
    (hsrc : src = some (l, m)) : D = m :: D' := by
  rcases hread with ⟨hsame, -⟩ | ⟨_, hm', rfl⟩
  · exact absurd hsrc (hsame m)
  · rw [(Prod.mk.inj (some.inj (hsrc.symm.trans hm'))).2]

/-- The peer moves on, at most to where its leader is, and may have answered. -/
theorem LevelTok.moved {E : List MMonPaxos} (h : LevelTok C l i c p q D U)
    (hD : ∀ m ∈ D', m ∈ D) (hlow : q.lastCommitted ≤ q'.lastCommitted)
    (hhigh : q'.lastCommitted ≤ max q.lastCommitted p.lastCommitted)
    (hpeon : q'.role = .peon l → q.role = .peon l ∧ q.acceptedPn ≤ q'.acceptedPn ∧
      q'.ahead D' = q.ahead D)
    (hE : ∀ m ∈ E, m.op = .last → UpMsg C l p q' m) : LevelTok C l i c p q' D' (U ++ E) := by
  refine ⟨fun m hm => h.down m (hD m hm), ?_, ?_, ?_, ?_, h.told, ?_⟩
  · intro m hm hop
    rcases mem_append.1 hm with hm | hm
    · have hup := h.up m hm hop
      have hlow' := hup.low
      have hhigh' := hup.high
      exact ⟨by omega, by omega, fun hr => (hup.pn (hpeon hr).1).trans (hpeon hr).2.1, hup.carries⟩
    · exact hE m hm hop
  · exact fun a ha => (h.seen a ha).trans hlow
  · intro hc
    have := h.bound hc
    omega
  · exact fun hc hr => (h.pn hc (hpeon hr).1).trans (hpeon hr).2.1
  · intro hr hwhen
    rw [(hpeon hr).2.2]
    exact h.level (hpeon hr).1 hwhen

/-- Every move of a peer keeps it in the view of its leader. -/
theorem Follow.level (hC : HistoryOk C) (hfollow : Follow l q src q' out)
    (h : LevelTok C l i c p q D U) (hb : MonBase q) (hh : MonHist C P q)
    (hD : ∀ m ∈ D, MsgHist C P m)
    (hread : (∀ m, src ≠ some (l, m)) ∧ D = D' ∨ ∃ m, src = some (l, m) ∧ D = m :: D')
    (hjoin : q.epoch < q'.epoch → U = [] ∧ ¬ c ∧ p.peerLastCommitted i = none ∧
      p.state = .recovering) : LevelTok C l i c p q' D' (U ++ msgsTo l out) := by
  have hsub : ∀ m ∈ D', m ∈ D := by
    intro m hm
    rcases hread with ⟨-, rfl⟩ | ⟨m', -, rfl⟩
    · exact hm
    · exact mem_cons_of_mem _ hm
  -- the peer has moved with a message that it has taken off the link
  have hahead : ∀ {m : MMonPaxos}, D = m :: D' → q'.progress = q.progress.after m →
      q'.ahead D' = q.ahead D := by
    rintro m rfl hprog
    simp [ahead, hprog]
  cases hfollow with
  | join hepoch =>
    obtain ⟨rfl, hc, hplc, hrec⟩ := hjoin hepoch
    exact ⟨fun m hm => h.down m (hsub m hm), by simp [msgsTo], by simp [hplc],
      fun h => absurd h hc, fun h => absurd h hc, fun h => absurd h hc, by simp [hplc, hrec]⟩
  | gone hrole hlast =>
    exact h.moved hsub hlast.ge (hlast.le.trans (le_max_left _ _)) (by simp [hrole])
      (by simp [msgsTo])
  | @answer m hop hrole =>
    have hs := hb.synced (hb.idle_of_not_leader (by simp [hrole]))
    have htaken := eq_of_taken hread rfl
    refine h.moved hsub (by simp) (by simp)
      (fun _ => ⟨hrole, promised_acceptedPn_ge m q, hahead htaken (promised_progress hop)⟩) ?_
    intro m' hm' _
    obtain ⟨lo, hlo, hle⟩ := lastMsg_carries hC m q.acceptedPn
      (p := promised m q) (StoreAt.congr (by simpa using hs.last ▸ hh.store) (by simp)
        (by simp)) (by simpa using hs.first)
    have hm := h.down m (by simp [htaken]) (.inl hop)
    simp only [msgsTo, filter_cons_of_pos, filter_nil, decide_true,
      map_cons, map_nil, mem_singleton] at hm'
    rw [hm']
    exact ⟨by simp, by simp, by simp, lo, hlo, by omega⟩
  | @store m hop hrole =>
    have htaken := eq_of_taken hread rfl
    obtain ⟨lo, hlo⟩ := (hD m (by simp [htaken])).carries (.inl hop)
    have hm := h.down m (by simp [htaken]) (.inr hop)
    have hlast := storeState_lastCommitted m q
    obtain ⟨-, _, hle⟩ := hlo.lastAfter (a := q.lastCommitted)
    exact h.moved hsub (by omega) (by omega)
      (fun _ => ⟨hrole, by simp, hahead htaken (storeState_progress hop)⟩) (by simp [msgsTo])
  | still hrole hprogress hsrc hout =>
    have hlast : q'.lastCommitted = q.lastCommitted := congrArg Progress.last hprogress
    have hacc : q'.acceptedPn = q.acceptedPn := congrArg Progress.pn hprogress
    refine h.moved hsub hlast.ge (hlast.le.trans (le_max_left _ _)) (fun hr => ?_)
      fun m hm hop => absurd hop (hout l m (mem_msgsTo.1 hm))
    rw [hrole] at hr
    refine ⟨hr, hacc.ge, ?_⟩
    rcases hread with ⟨-, rfl⟩ | ⟨m, hm, htaken⟩
    · rw [ahead, hprogress, ahead]
    · obtain ⟨hnc, hnm⟩ := hsrc l m hm hr
      exact hahead htaken (by rw [hprogress, Progress.after_other hnc hnm])

/-- What is on its way to a peon still fits after each of its moves. -/
theorem Follow.fits (hfollow : Follow l q src q' out)
    (h : q.role = .peon l → Fits Progress.after Progress.Ready q.progress D)
    (hread : (∀ m, src ≠ some (l, m)) ∧ D = D' ∨ ∃ m, src = some (l, m) ∧ D = m :: D')
    (hjoin : q.epoch < q'.epoch → ∀ m ∈ D, m.op = .collect) (hrole' : q'.role = .peon l) :
    Fits Progress.after Progress.Ready q'.progress D' := by
  have htake : ∀ {m : MMonPaxos}, src = some (l, m) → q.role = .peon l →
      q'.progress = q.progress.after m → Fits Progress.after Progress.Ready q'.progress D' := by
    intro m hsrc hrole hprog
    obtain rfl := eq_of_taken hread hsrc
    exact hprog ▸ (h hrole).2
  cases hfollow with
  | join hepoch =>
    obtain rfl : D = D' := by
      obtain hsame | htake := hread
      · exact hsame.2
      · simp at htake
    exact fits_of_forall fun m hm v hop => by simp [hjoin hepoch m hm] at hop
  | gone hrole => simp [hrole] at hrole'
  | answer hop hrole => exact htake rfl hrole (promised_progress hop)
  | store hop hrole => exact htake rfl hrole (storeState_progress hop)
  | still hrole hprogress hsrc =>
    rw [hrole] at hrole'
    obtain hsame | hread' := hread
    · exact hprogress ▸ hsame.2 ▸ h hrole'
    · obtain ⟨m, hm, -⟩ := hread'
      obtain ⟨hnc, hnm⟩ := hsrc l m hm hrole'
      exact htake hm hrole' (by rw [hprogress, Progress.after_other hnc hnm])

/-- What the leader adds fits too: it begins only when the peer has caught up. -/
theorem Round.fits (hround : Round n l p src q' out)
    (h : Fits Progress.after Progress.Ready q.progress D) (hrole : q.role = .peon l)
    (hcarry : ∀ m ∈ D ++ msgsTo i out, m.op = .commit → ∃ lo, Carries C lo m)
    (hlevel : q'.role = .leader → Updating q' → c ∧ LevelTok C l i c q' q (D ++ msgsTo i out) U) :
    Fits Progress.after Progress.Ready q.progress (D ++ msgsTo i out) := by
  have hother : (∀ k m, (k, m) ∈ out → m.op ≠ .begin) →
      Fits Progress.after Progress.Ready q.progress (D ++ msgsTo i out) := by
    intro hout
    exact fits_append.2 ⟨h, fits_of_forall fun m hm v hop =>
      absurd hop (hout i m (mem_msgsTo.1 hm))⟩
  cases hround with
  | quiet hout | fresh hout => exact hother fun k m hm => (hout k m hm).1
  | vote =>
    refine hother fun k m hm => ?_
    simp [(mem_reply hm).2, acceptMsg]
  | @start _ _ _ b _ _ _ hupd _ hbop _ hbpn hblast hshares hrole' =>
    have hbegins : ∀ m ∈ msgsTo i ((others n l q'.quorum).map fun k => (k, b)), m = b := by
      intro m hm
      exact (mem_broadcast (mem_msgsTo.1 hm)).2
    obtain ⟨hc, htok⟩ := hlevel hrole' hupd
    have hready := htok.ready hc hcarry hrole hupd.ne.1 hbpn hblast
    rw [msgsTo_append, ← append_assoc] at hready ⊢
    rw [ahead_begins fun m hm => hbegins m hm ▸ hbop] at hready
    refine fits_append.2 ⟨fits_append.2 ⟨h, fits_of_forall fun m hm v hop => ?_⟩,
      fits_of_still (fun m hm => ?_) fun m hm => ?_⟩
    · simp [hshares i m (mem_msgsTo.1 hm)] at hop
    · rw [hbegins m hm]
      exact Progress.after_other (by simp [hbop]) (by simp [hbop])
    · rw [hbegins m hm]
      exact hready
  | accept => exact hother (by simp)

end Peer

end Ceph.Mon.Paxos
