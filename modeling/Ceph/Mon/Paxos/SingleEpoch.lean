import Ceph.Mon.Paxos.Catchup
import Mathlib.Data.Finset.Max

set_option autoImplicit false

/-!
# One epoch

The protocol inside one election epoch: one leader, its quorum, any interleaving
of their messages, timeouts and restarts.  No assertion of the handlers can
fail there.  The epoch may start with any stores that follow one history, and
with messages of earlier epochs still under way: the epoch filter of
`Monitor::dispatch_op` drops those, so the run is that of a system without them.
-/

namespace Ceph.Mon.Paxos

open Ceph.Lib Finset Option Function

variable {n e l : Nat} {Q : Finset Nat} {R : Nat → Finset Nat} {C : Commits}
  {s s' : System}

/-- The action is one of a member of `Q`, in epoch `e` under the leader `l`. -/
def inEpoch (e l : Nat) (Q : Finset Nat) : Action → Bool
  | .win i e' Q' => i = l ∧ l ∈ Q ∧ e' = e ∧ Q' = Q
  | .lose i e' l' _ => i ∈ Q ∧ e' = e ∧ l' = l
  | a => a.actor ∈ Q

variable {a : Action} {i j : Nat} {p : Monitor} {m : MMonPaxos} {rest : List MMonPaxos}

theorem inEpoch_actor (h : inEpoch e l Q a) : a.actor ∈ Q := by
  cases a with
  | win =>
    simp only [inEpoch, decide_eq_true_eq] at h
    exact h.1 ▸ h.2.1
  | lose =>
    simp only [inEpoch, decide_eq_true_eq] at h
    exact h.1
  | _ => simpa [inEpoch] using h

/-- An epoch that is about to start.  Nobody is in it yet and no message of it is
under way; the stores hold parts of one history of commits, and nobody has
promised the leader a number it has not handed out. -/
structure EpochStart (n e l : Nat) (Q : Finset Nat) (C : Commits) (s : System) :
    Prop where
  majority : Majority n Q
  leader : l ∈ Q
  epoch : ∀ i ∈ Q, (s.mon i).epoch < e
  role : ∀ i ∈ Q, (s.mon i).role = .electing
  synced : ∀ i ∈ Q, Synced (s.mon i)
  history : HistoryOk C
  values : ∀ i ∈ Q, MonHist C (Proposable C) (s.mon i)
  known : ∀ v x, C v x → ∃ i ∈ Q, v ≤ (s.mon i).lastCommitted
  fresh : ∀ i ∈ Q, Fresh l (s.mon l) (s.mon i)
  net : ∀ j i m, m ∈ s.net j i → m.epoch < e

/-- Where a monitor can be during the epoch. -/
def Placed (e l : Nat) (Q : Finset Nat) (i : Nat) (p : Monitor) : Prop :=
  (p.role = .electing ∧ p.epoch ≤ e) ∨
    (p.epoch = e ∧ (p.role = .leader ∧ i = l ∧ p.quorum = Q ∨ p.role = .peon l ∧ i ≠ l))

section

variable (h : Placed e l Q i p)

include h

theorem Placed.leader (hrole : p.role = .leader) : p.epoch = e ∧ i = l ∧ p.quorum = Q := by
  rcases h with ⟨hr, -⟩ | ⟨he, ⟨-, hi, hQ⟩ | ⟨hr, -⟩⟩
  · simp [hrole] at hr
  · exact ⟨he, hi, hQ⟩
  · simp [hrole] at hr

theorem Placed.peon (hrole : p.role = .peon j) : p.epoch = e ∧ j = l ∧ i ≠ l := by
  rcases h with ⟨hr, -⟩ | ⟨he, ⟨hr, -, -⟩ | ⟨hr, hne⟩⟩
  · simp [hrole] at hr
  · simp [hrole] at hr
  · exact ⟨he, by simpa [hrole] using hr, hne⟩

theorem Placed.epoch_le : p.epoch ≤ e := by
  rcases h with ⟨-, hle⟩ | ⟨he, -⟩
  · exact hle
  · exact he.le

theorem Placed.electing (hlt : p.epoch < e) : p.role = .electing := by
  rcases h with ⟨hr, -⟩ | ⟨_, -⟩
  · exact hr
  · omega

end

/-- The message belongs to the epoch and goes from the leader or to it. -/
def Directed (e l j i : Nat) (m : MMonPaxos) : Prop :=
  m.epoch = e ∧ (j = l ∧ (m.op = .collect ∨ m.op = .begin ∨ m.op = .commit) ∨
    i = l ∧ (m.op = .last ∨ m.op = .accept))

/-! ## One local step -/

section Local

variable {p p' : Monitor} {inp : Option MMonPaxos} {a : Action} {out : Sends}

/-- A monitor keeps its place as long as it acts within the epoch. -/
theorem Local.placed (h : Local n p inp a p' out) (hp : Placed e l Q a.actor p)
    (hok : inEpoch e l Q a) : Placed e l Q a.actor p' := by
  have hkeep : p'.epoch = p.epoch → p'.role = p.role → p'.quorum = p.quorum →
      Placed e l Q a.actor p' := by
    intro he hr hQ
    unfold Placed
    rw [he, hr, hQ]
    exact hp
  have hle := hp.epoch_le
  cases h with
  | win | winAlone =>
    simp only [inEpoch, decide_eq_true_eq] at hok
    obtain ⟨rfl, -, rfl, rfl⟩ := hok
    exact .inr ⟨rfl, .inl ⟨rfl, rfl, rfl⟩⟩
  | @lose _ _ _ _ _ hne =>
    simp only [inEpoch, decide_eq_true_eq] at hok
    obtain ⟨-, rfl, rfl⟩ := hok
    exact .inr ⟨rfl, .inr ⟨rfl, hne.symm⟩⟩
  | leave | crash | newer | collectBoot | lastBoot => exact .inl ⟨rfl, hle⟩
  | drop | vote | accept | acceptCommit | apply | finish => exact hp
  | collect | lastOld | lastCount | commit => exact hkeep (by simp) (by simp) (by simp)
  | lastShareBoot => exact .inl ⟨rfl, by simpa [bootstrapped] using hle⟩
  | lastRetry => exact hkeep (by simp [collecting]) (by simp [collecting]) (by simp [collecting])
  | lastActive => exact hkeep (by simp [recovered]) (by simp [recovered]) (by simp [recovered])
  | lastBegin _ _ _ _ _ _ hbegin =>
    have hview := (begin_move hbegin).1
    exact hkeep (by simpa [recovered] using hview.epoch) (by simpa [recovered] using hview.role)
      (by simpa [recovered] using hview.quorum)
  | propose _ _ hbegin =>
    have hview := (begin_move hbegin).1
    exact hkeep hview.epoch hview.role hview.quorum

/-- What a monitor sends within the epoch. -/
theorem Local.directed (h : Local n p inp a p' out) (hp : Placed e l Q a.actor p)
    (hexp : Expected p inp) (hok : inEpoch e l Q a) :
    ∀ k m, (k, m) ∈ out → Directed e l a.actor k m := by
  have hshare : ∀ {j : Nat} {m : MMonPaxos} {shared : Sends × Bool}, LastShared n p j m shared →
      ∀ k m', (k, m') ∈ shared.1 → Directed e l a.actor k m' := by
    intro j m shared hl k m' hm'
    obtain ⟨he, hi, -⟩ := hp.leader hl.role
    obtain ⟨_, -, -, -, rfl⟩ := sharePeers_mem hl.sent k m' hm'
    exact ⟨by simpa [shareMsg] using he, .inl ⟨hi, .inr (.inr rfl)⟩⟩
  have hbegins : ∀ {x : Tx} {q : Monitor} {i : Nat} {p' : Monitor} {out : Sends},
      p.role = .leader → begin n i x q = some (p', out) → q.epoch = p.epoch →
      ∀ k m', (k, m') ∈ out → Directed e l a.actor k m' := by
    intro x q i p' out hr hbegin hq k m' hm'
    obtain ⟨he, hi, -⟩ := hp.leader hr
    obtain ⟨he', hop, -⟩ := (begin_move hbegin).2.2.2.2 k m' hm'
    exact ⟨by rw [he', hq, he], .inl ⟨hi, .inr (.inl hop)⟩⟩
  intro k m' hm'
  cases h with
  | win =>
    simp only [inEpoch, decide_eq_true_eq] at hok
    obtain ⟨rfl, -, rfl, rfl⟩ := hok
    obtain ⟨-, rfl⟩ := mem_broadcast hm'
    exact ⟨rfl, .inl ⟨rfl, .inl rfl⟩⟩
  | @collect _ _ _ _ _ hr =>
    obtain ⟨hpe, rfl, -⟩ := hp.peon hr
    obtain ⟨rfl, rfl⟩ := mem_reply hm'
    exact ⟨by simpa using hpe, .inr ⟨rfl, .inl (by simp)⟩⟩
  | lastShareBoot hl | lastOld hl | lastCount hl | lastActive hl => exact hshare hl k m' hm'
  | lastRetry hl =>
    obtain hm' | hm' := List.mem_append.1 hm'
    · exact hshare hl k m' hm'
    · obtain ⟨hpe, hi, -⟩ := hp.leader hl.role
      obtain ⟨-, rfl⟩ := mem_broadcast hm'
      exact ⟨by simpa [collectMsg, collecting] using hpe, .inl ⟨hi, .inl rfl⟩⟩
  | lastBegin hl _ _ _ _ _ hbegin =>
    obtain hm' | hm' := List.mem_append.1 hm'
    · exact hshare hl k m' hm'
    · exact hbegins hl.role hbegin (by simp [recovered]) k m' hm'
  | @vote _ _ m _ hop he hr hpn =>
    obtain ⟨hpe, rfl, -⟩ := hp.peon (hr.resolve_left (hexp.vote m rfl hop he hpn))
    obtain ⟨rfl, rfl⟩ := mem_reply hm'
    exact ⟨hpe, .inr ⟨rfl, .inr rfl⟩⟩
  | propose hr _ hbegin => exact hbegins hr hbegin rfl k m' hm'
  | finish _ _ _ hr =>
    obtain ⟨hpe, hi, -⟩ := hp.leader hr
    obtain ⟨-, rfl⟩ := mem_broadcast hm'
    exact ⟨hpe, .inl ⟨hi, .inr (.inr rfl)⟩⟩
  | _ => simp at hm'

end Local

/-! ## The invariant -/

/-- The invariant of an epoch among two or more monitors, without the messages
of earlier ones. -/
structure InRun (n e l : Nat) (Q : Finset Nat) (R : Nat → Finset Nat) (C : Commits)
    (s : System) : Prop where
  core : Core n Q {l} R s
  rounds : Rounds Q s
  history : HistoryOk C
  hist : ∀ i ∈ Q, MonHist C (Proposable C) (s.mon i)
  msgs : ∀ j i m, m ∈ s.net j i → MsgHist C (Proposable C) m
  directed : ∀ j i m, m ∈ s.net j i → Directed e l j i m
  placed : ∀ i ∈ Q, Placed e l Q i (s.mon i)
  level : (s.mon l).role = .leader → ∀ i ∈ Q, i ≠ l →
    LevelTok C l i (i ∈ R l) (s.mon l) (s.mon i) (s.net l i) (s.net i l)
  fits : ∀ i ∈ Q, (s.mon i).role = .peon l →
    Fits Progress.after Progress.Ready (s.mon i).progress (s.net l i)
  known : ∀ v x, C v x → ∃ i ∈ Q, v ≤ (s.mon i).store.lastCommitted

theorem distinct_singleton (l : Nat) : Distinct {l} := by
  intro _ ha _ hb _
  rw [mem_singleton.1 ha, mem_singleton.1 hb]

section Step

variable {a : Action} {inp : Option MMonPaxos} {p' : Monitor} {out : Sends} {R' : Nat → Finset Nat}
  {C' : Commits} {i : Nat} (h : InRun n e l Q R C s) (hlQ : l ∈ Q)

include h

include hlQ in
/-- A leader that has gone on has counted everyone. -/
theorem InRun.counted (hrole : (s.mon l).role = .leader)
    (hstate : (s.mon l).state ≠ .recovering) (hi : i ∈ Q) (hne : i ≠ l) : i ∈ R l := by
  rw [(h.core.leader l hlQ hrole).all hstate, ((h.placed l hlQ).leader hrole).2.2]
  exact mem_erase.2 ⟨hne, hi⟩

include hlQ in
/-- The version that a leader is about to commit is new. -/
theorem InRun.free {v : Nat} {x : Tx} (hqueued : (s.mon l).commit = .queued v x) (y : Tx) :
    ¬ C ((s.mon l).lastCommitted + 1) y := by
  intro hy
  have hb := h.core.base l hlQ
  obtain ⟨hrole, hstate⟩ := hb.busy (by simp [hqueued])
  have hne : (s.mon l).state ≠ .recovering := by
    rcases hstate with hs | hs <;> simp [hs]
  obtain ⟨i, hi, hle⟩ := h.known _ y hy
  by_cases hil : i = l
  · subst hil
    have := (hb.caught (by simp [hqueued])).1
    omega
  · have hbi := h.core.base i hi
    have hri : (s.mon i).role ≠ .leader := fun hr => hil ((h.placed i hi).leader hr).2.1
    have hs := hbi.synced (hbi.idle_of_not_leader hri)
    have := (h.level hrole i hi hil).bound (h.counted hlQ hrole hne hi hil)
    have := hs.last
    omega

/-! ## Steps -/

/-- Before the leader has won, no message of the epoch is on its links. -/
theorem InRun.links_empty (hlt : (s.mon l).epoch < e) (hne : i ≠ l) :
    s.net l i = [] ∧ s.net i l = [] := by
  refine ⟨List.eq_nil_iff_forall_not_mem.2 fun m hm => ?_,
    List.eq_nil_iff_forall_not_mem.2 fun m hm => ?_⟩
  · have hsent := (h.core.link l i m hm).sent
    have := (h.directed l i m hm).1
    omega
  · obtain ⟨_, ⟨hil, -⟩ | ⟨-, hop⟩⟩ := h.directed i l m hm
    · exact hne hil
    · rcases (h.core.link i l m hm).up hop with _ | ⟨_, -⟩ <;> omega

include hlQ in
/-- A monitor that is about to join has not been heard. -/
theorem InRun.unheard (hi : i ∈ Q) (hne : i ≠ l) (hlt : (s.mon i).epoch < e)
    (hrole : (s.mon l).role = .leader) :
    s.net i l = [] ∧ i ∉ R l ∧ (s.mon l).peerLastCommitted i = none ∧
      (s.mon l).state = .recovering := by
  have he := ((h.placed l hlQ).leader hrole).1
  have hpair := h.core.pair l hlQ hrole i hi hne
  have hR : i ∉ R l := fun hc => by
    have := (hpair.done hc).1
    omega
  refine ⟨List.eq_nil_iff_forall_not_mem.2 fun m hm => ?_, hR, ?_, ?_⟩
  · have hsent := (h.core.link i l m hm).sent
    have := (h.directed i l m hm).1
    omega
  · by_contra hplc
    have := hpair.heard hplc
    omega
  · by_contra hstate
    exact hR (h.counted hlQ hrole hstate hi hne)

variable (hok : inEpoch e l Q a) (hlocal : Local n (s.mon a.actor) inp a p' out)
  (heff : Effect s s' a.actor (a.source inp) p' out) (hexp : Expected (s.mon a.actor) inp)

include hok hlocal heff hexp

/-- The move of a monitor other than the leader. -/
theorem InRun.follow (hne : a.actor ≠ l) : Follow l (s.mon a.actor) (a.source inp) p' out := by
  have hx := inEpoch_actor hok
  have hplaced := h.placed _ hx
  refine hlocal.follow (h.core.base _ hx) hexp (fun hr => hne (hplaced.leader hr).2.1)
    (fun l' hr => (hplaced.peon hr).2.1) ?_ ?_
  · rintro _ _ _ rfl
    simp only [inEpoch, decide_eq_true_eq] at hok
    exact hne hok.1
  · intro m hm hr
    obtain ⟨j, hj⟩ := hlocal.source hm
    rw [(hplaced.peon hr).1, (h.directed j _ m (heff.src_mem j m hj)).1]

include hlQ

/-- The leader moves. -/
theorem InRun.level_leader (hn : 2 ≤ n) (hmaj : Majority n Q) (hC' : HistoryOk C')
    (hsub : ∀ v x, C v x → C' v x) (hl : a.actor = l) (hcore' : Core n Q {l} R' s')
    (hR : R' l = countedAfter (R l) (a.source inp) (s.mon l) p')
    (hrole' : p'.role = .leader) (hi : i ∈ Q) (hne : i ≠ l) :
    LevelTok C' l i (i ∈ R' l) p' (s.mon i) (s'.net l i) (s'.net i l) := by
  subst hl
  have hP : ∀ v y, Proposable C v y → Proposable C' v y := fun v y hy => hy.mono hsub
  have hsrc : ∀ j m, a.source inp = some (j, m) → MsgHist C' (Proposable C') m := fun j m hj =>
    (h.msgs j _ m (heff.src_mem j m hj)).mono hsub hP
  have hlead := hlocal.lead hn hexp (fun m hm => by
    obtain ⟨j, hj⟩ := hlocal.source hm
    exact hsrc j m hj) (fun hr => (h.core.leader _ hlQ hr).card_ne_one hn) hrole'
  have hplaced' := hlocal.placed (h.placed _ hlQ) hok
  rw [hR, heff.sent i hne]
  refine hlead.level hC' (hmaj.lt hi) hne (h.core.base _ hlQ) ((h.hist _ hlQ).mono hsub hP) hsrc
    (fun hr => ⟨?_, (h.level hr i hi hne).mono hsub⟩) (fun hlt => ?_) (fun hstate => ?_)
    (fun m hm => heff.src_mem i m hm) (fun m hm => (heff.suffix hne).subset hm) fun m hm hop => ?_
  · rw [((h.placed _ hlQ).leader hr).2.2]
    exact hi
  · exact h.links_empty ((hplaced'.leader hrole').1 ▸ hlt) hne
  · have hself := heff.mon_self
    have htok := hcore'.leader _ hlQ (by rw [hself]; exact hrole')
    rw [← hR, htok.all (by rw [hself]; exact hstate), hself, (hplaced'.leader hrole').2.2]
    exact mem_erase.2 ⟨hne, hi⟩
  · obtain ⟨lo, hlo⟩ := (h.msgs _ i m hm).carries (.inl hop)
    exact ⟨lo, hlo.mono hsub⟩

/-- Another monitor moves. -/
theorem InRun.level_peer (hC' : HistoryOk C') (hsub : ∀ v x, C v x → C' v x)
    (hne : a.actor ≠ l) (hrole : (s.mon l).role = .leader) :
    LevelTok C' l a.actor (a.actor ∈ R l) (s.mon l) p' (s'.net l a.actor) (s'.net a.actor l) := by
  have hP : ∀ v y, Proposable C v y → Proposable C' v y := fun v y hy => hy.mono hsub
  have hx := inEpoch_actor hok
  have hle := (hlocal.placed (h.placed _ hx) hok).epoch_le
  rw [heff.sent l hne.symm]
  exact (h.follow hok hlocal heff hexp hne).level hC' ((h.level hrole _ hx hne).mono hsub)
    (h.core.base _ hx) ((h.hist _ hx).mono hsub hP) (fun m hm => (h.msgs _ _ m hm).mono hsub hP)
    (heff.taken l hne.symm) fun hlt => h.unheard hlQ hx hne (lt_of_lt_of_le hlt hle) hrole

/-- What is under way to a peon fits, whoever moves. -/
theorem InRun.fits_step (hround : Round n a.actor (s.mon a.actor) (a.source inp) p' out)
    (hcore' : Core n Q {l} R' s') (hmsgs' : ∀ j i m, m ∈ s'.net j i → MsgHist C' (Proposable C') m)
    (hlevel' : (s'.mon l).role = .leader → ∀ i ∈ Q, i ≠ l → LevelTok C' l i (i ∈ R' l) (s'.mon l)
      (s'.mon i) (s'.net l i) (s'.net i l)) (hi : i ∈ Q) (hrole' : (s'.mon i).role = .peon l) :
    Fits Progress.after Progress.Ready (s'.mon i).progress (s'.net l i) := by
  have hx := inEpoch_actor hok
  have hplaced' := hlocal.placed (h.placed _ hx) hok
  by_cases hxl : a.actor = l
  · rw [hxl] at hround heff hplaced'
    have hself := heff.mon_self
    have hne : i ≠ l := by
      rintro rfl
      exact ((hself.symm ▸ hplaced').peon hrole').2.2 rfl
    have hlev := fun hr => hlevel' hr i hi hne
    rw [heff.mon_ne hne, hself, heff.sent i hne] at hlev
    rw [heff.mon_ne hne] at hrole' ⊢
    rw [heff.sent i hne]
    refine hround.fits (h.fits i hi hrole') hrole' ?_ fun hr hupd => ⟨?_, hlev hr⟩
    · intro m hm hop
      rw [← heff.sent i hne] at hm
      exact (hmsgs' l i m hm).carries (.inl hop)
    · have htok := hcore'.leader l hlQ (by rw [hself]; exact hr)
      rw [hself] at htok
      rw [htok.all hupd.ne.1, (hplaced'.leader hr).2.2]
      exact mem_erase.2 ⟨hne, hi⟩
  · have hlx : l ≠ a.actor := Ne.symm hxl
    by_cases hxi : i = a.actor
    · subst hxi
      rw [heff.mon_self] at hrole' ⊢
      refine (h.follow hok hlocal heff hexp hxl).fits (h.fits _ hx) (heff.taken l hlx)
        (fun hlt m hm => ?_) hrole'
      exact (h.core.link l _ m hm).early
        ((h.directed l _ m hm).1.symm ▸ lt_of_lt_of_le hlt hplaced'.epoch_le)
    · rw [heff.mon_ne hxi] at hrole' ⊢
      rw [heff.other l i hlx hxi]
      exact h.fits i hi hrole'

omit hexp in
/-- Every step within the epoch keeps the invariant. -/
theorem InRun.step (hn : 2 ≤ n) (hmaj : Majority n Q) : ∃ R' C', InRun n e l Q R' C' s' := by
  have hx := inEpoch_actor hok
  have hclosed : Closed Q {l} a := by
    refine ⟨hx, ?_⟩
    rintro i e' Q' rfl
    simp only [inEpoch, decide_eq_true_eq] at hok
    exact ⟨mem_singleton.2 hok.1, hok.2.2.2 ▸ Finset.Subset.refl _⟩
  obtain ⟨hexp, hcore', -⟩ := h.core.local_step hn (distinct_singleton l) hclosed hlocal heff
  have hb := h.core.base _ hx
  have hround := hlocal.round hn hexp fun hr => (h.core.leader _ hx hr).card_ne_one hn
  have hplaced' := hlocal.placed (h.placed _ hx) hok
  have hself := heff.mon_self
  obtain ⟨C', hC', hsub, hnew, hdone⟩ := (h.hist _ hx).extend_step h.history hb hlocal hexp
    fun v x hqueued => by
      have hl := ((h.placed _ hx).leader (hb.busy (by simp [hqueued])).1).2.1
      rw [hl] at hqueued ⊢
      exact h.free hlQ hqueued
  have hP : ∀ v y, Proposable C v y → Proposable C' v y := fun v y hy => hy.mono hsub
  have hh := (h.hist _ hx).mono hsub hP
  have hsrc : ∀ m, inp = some m → MsgHist C' (Proposable C') m := by
    intro m hm
    obtain ⟨j, hj⟩ := hlocal.source hm
    exact (h.msgs j _ m (heff.src_mem j m hj)).mono hsub hP
  obtain ⟨hhist', hmsgs'⟩ := hh.step hC' hb hlocal hexp hsrc
    (hh.newValue_step hC' hb hlocal hexp hsrc) hdone
  have hnet := fun j i m (hm : m ∈ s'.net j i) => heff.origin
    (List.eq_nil_iff_forall_not_mem.2 fun m hm => (hcore'.ends _ _ m hm).2.2 rfl) hm
  have hmsgs : ∀ j i m, m ∈ s'.net j i → MsgHist C' (Proposable C') m := by
    intro j i m hm
    obtain hold | hsent := hnet j i m hm
    · exact (h.msgs j i m hold).mono hsub hP
    · exact hmsgs' i m hsent.2
  have hlevel : (s'.mon l).role = .leader → ∀ i ∈ Q, i ≠ l →
      LevelTok C' l i (i ∈ Function.update R a.actor
        (countedAfter (R a.actor) (a.source inp) (s.mon a.actor) p') l)
        (s'.mon l) (s'.mon i) (s'.net l i) (s'.net i l) := by
    intro hrole' i hi hne
    by_cases hxl : a.actor = l
    · subst hxl
      rw [hself] at hrole' ⊢
      rw [heff.mon_ne hne]
      exact h.level_leader hlQ hok hlocal heff hexp hn hmaj hC' hsub rfl hcore'
        (update_self _ _ _) hrole' hi hne
    · have hlx : l ≠ a.actor := Ne.symm hxl
      rw [heff.mon_ne hlx] at hrole' ⊢
      rw [update_of_ne hlx]
      by_cases hxi : i = a.actor
      · subst hxi
        rw [hself]
        exact h.level_peer hlQ hok hlocal heff hexp hC' hsub hxl hrole'
      · rw [heff.mon_ne hxi, heff.other l i hlx hxi, heff.other i l hxi hlx]
        exact (h.level hrole' i hi hne).mono hsub
  refine ⟨_, C', hcore', h.rounds.step h.core hx hround heff, hC', fun i hi => ?_, hmsgs, ?_,
    fun i hi => ?_, hlevel, fun i hi hrole' => ?_, fun v x hvx => ?_⟩
  · exact heff.mon_step (P := fun _ => MonHist C' (Proposable C')) hhist'
      ((h.hist i hi).mono hsub hP)
  · intro j i m hm
    obtain hold | hsent := hnet j i m hm
    · exact h.directed j i m hold
    · obtain ⟨rfl, hout⟩ := hsent
      exact hlocal.directed (h.placed _ hx) hexp hok i m hout
  · exact heff.mon_step hplaced' (h.placed i hi)
  · exact h.fits_step hlQ hok hlocal heff hexp hround hcore' hmsgs hlevel hi hrole'
  · obtain hold | hle := hnew v x hvx
    · obtain ⟨i, hi, hle⟩ := h.known v x hold
      refine ⟨i, hi, ?_⟩
      by_cases hxi : i = a.actor
      · subst hxi
        rw [hself]
        exact hle.trans (hh.lastCommitted_step hC' hb hlocal hexp hsrc)
      · rw [heff.mon_ne hxi]
        exact hle
    · exact ⟨a.actor, hx, by rw [hself]; exact hle⟩

end Step

/-! ## Messages of earlier epochs -/

/-- The system without the messages of other epochs. -/
def System.since (s : System) (e : Nat) : System :=
  { s with net := fun j i => (s.net j i).filter fun m => m.epoch = e }

theorem mem_since : m ∈ (s.since e).net j i ↔ m ∈ s.net j i ∧ m.epoch = e := by
  simp [System.since]

theorem since_settle {r : Monitor × Sends} (hout : ∀ k m, (k, m) ∈ r.2 → m.epoch = e) :
    (s.settle i r).since e = (s.since e).settle i r := by
  have hkeep : ∀ k, (msgsTo k r.2).filter (fun m => m.epoch = e) = msgsTo k r.2 := by
    intro k
    refine List.filter_eq_self.2 fun m hm => ?_
    simpa using hout k m (mem_msgsTo.1 hm)
  simp only [System.since, System.settle, System.mk.injEq, true_and]
  funext j k
  unfold post
  split
  · rw [List.filter_append, hkeep]
  · rfl

/-- A message of the epoch is taken from both systems; an earlier one was not there in
the first place. -/
theorem since_take (hnet : s.net j i = m :: rest) :
    (s.take j i).since e = if m.epoch = e then (s.since e).take j i else s.since e := by
  split
  all_goals
    next hm =>
      simp only [System.since, System.take, System.mk.injEq, true_and]
      funext a b
      split
      next hab =>
        obtain ⟨rfl, rfl⟩ := hab
        simp [hnet, hm]
      · rfl

theorem settle_self (i : Nat) : s.settle i (s.mon i, []) = s := by
  simp only [System.settle, update_eq_self]
  congr
  funext a b
  simp [post, msgsTo]

/-- A message of another epoch is dropped, or makes a monitor that is not in the
epoch start over. -/
theorem Local.of_old {p' : Monitor} {out : Sends} (h : Local n p (some m) (.deliver j i) p' out)
    (hp : Placed e l Q i p) (hm : m.epoch ≠ e) :
    out = [] ∧ (p' = p ∨ p.commit = .idle ∧ p' = bootstrapped p) := by
  have hlead : m.epoch = p.epoch → p.role ≠ .leader := fun he hr =>
    hm (he.trans (hp.leader hr).1)
  have hpeon : m.epoch = p.epoch → ∀ k, p.role ≠ .peon k := fun he k hr =>
    hm (he.trans (hp.peon hr).1)
  cases h with
  | drop => exact ⟨rfl, .inl rfl⟩
  | newer _ hidle => exact ⟨rfl, .inr ⟨hidle, rfl⟩⟩
  | collectBoot _ he hr | collect _ he hr | commit _ he hr => exact absurd hr (hpeon he _)
  | lastBoot hl => exact absurd hl.role (hlead hl.epoch)
  | lastShareBoot hl | lastRetry hl | lastOld hl | lastCount hl | lastActive hl | lastBegin hl =>
    exact absurd hl.role (hlead hl.epoch)
  | vote _ he hr | accept _ he hr | acceptCommit _ he hr =>
    exact absurd hr (by simp [hlead he, hpeon he])

variable {k : Nat}

theorem mem_consume (hm : m ∈ (s.consume a).net j k) : m ∈ s.net j k := by
  cases a with
  | deliver =>
    simp only [System.consume, System.take] at hm
    split at hm
    · exact List.mem_of_mem_tail hm
    · exact hm
  | _ => exact hm

/-- Without the messages of other epochs, a step is a step, or nothing. -/
theorem step_since (hp : ∀ i ∈ Q, Placed e l Q i (s.mon i))
    (hexp : ∀ j i m, m ∈ (s.since e).net j i → Expected (s.mon i) (some m))
    (hok : inEpoch e l Q a) (hstep : step n s a = some s') :
    (∀ j i m, m ∈ s'.net j i → m ∈ s.net j i ∨ m.epoch = e) ∧
      (s'.since e = s.since e ∨ ∃ a' inp p' out, inEpoch e l Q a' ∧
        Local n ((s.since e).mon a'.actor) inp a' p' out ∧
        Effect (s.since e) (s'.since e) a'.actor (a'.source inp) p' out) := by
  obtain ⟨-, inp, p', out, hlocal, rfl, hdel⟩ := step_local hstep
  have hx := inEpoch_actor hok
  -- what is answered is of the epoch, and there is no answer to other messages
  have hout : ∀ k m, (k, m) ∈ out → m.epoch = e := by
    have hout' := fun hexp' k m hm => (hlocal.directed (hp _ hx) hexp' hok k m hm).1
    cases a with
    | deliver j i =>
      obtain ⟨m, rest, rfl, hnet⟩ := hdel j i rfl
      by_cases hm : m.epoch = e
      · exact hout' (hexp j i m (mem_since.2 ⟨by simp [hnet], hm⟩))
      · simp [(hlocal.of_old (hp i hx) hm).1]
    | _ =>
      have hnone : inp = none := by
        cases hlocal <;> rfl
      exact hout' (hnone ▸ ⟨by simp, by simp, by simp⟩)
  refine ⟨fun j i m hm => ?_, ?_⟩
  · simp only [System.settle, post] at hm
    split at hm
    · obtain hold | hsent := List.mem_append.1 hm
      · exact .inl (mem_consume hold)
      · exact .inr (hout i m (by simpa using hsent))
    · exact .inl (mem_consume hm)
  rw [since_settle hout]
  cases a with
  | deliver j i =>
    obtain ⟨m, rest, rfl, hnet⟩ := hdel j i rfl
    have htake : (s.consume (.deliver j i)).since e = _ := since_take hnet
    rw [htake]
    split
    next hm =>
      have hhead : (s.since e).net j i = m :: rest.filter fun m => m.epoch = e := by
        simp [System.since, hnet, hm]
      exact .inr ⟨.deliver j i, _, p', out, hok, hlocal, take_effect hhead⟩
    next hm =>
      obtain ⟨rfl, rfl | ⟨hidle, rfl⟩⟩ := hlocal.of_old (hp i hx) hm
      · exact .inl (settle_self i)
      · exact .inr ⟨.leave i, none, _, [], hok, .leave hidle, settle_effect⟩
  | _ => exact .inr ⟨_, inp, p', out, hok, hlocal, settle_effect⟩

/-! ## Handlers that do not fail -/

section Handlers

variable {p : Monitor} {i j : Nat} {m : MMonPaxos}

theorem bootstrap_isSome (h : p.commit = .idle) : (bootstrap p).isSome := by
  simp [bootstrap, h]

/-- `share_state` is called only for a peer that is behind. -/
theorem shareBehind_isSome (last : MMonPaxos) (b : Nat) (p : Monitor) :
    (if b < p.lastCommitted then shareState last b p else some last).isSome := by
  split
  next hlt =>
    rw [shareState_eq hlt]
    rfl
  · rfl

theorem handleCollect_isSome (hrole : p.role = .peon k) (hidle : p.commit = .idle) :
    (handleCollect j m p).isSome := by
  unfold handleCollect
  split
  · dsimp only
    split
    · rw [isSome_map]
      exact bootstrap_isSome hidle
    · rw [isSome_map]
      exact shareBehind_isSome _ _ _
  next hne => exact absurd hrole (hne k)

theorem sharePeers_isSome (p : Monitor) (is : List Nat) : (sharePeers p is).isSome := by
  induction is with
  | nil => rfl
  | cons _ _ ih =>
    unfold sharePeers
    split
    · exact ih
    · split
      · rfl
      · split
        next hlt =>
          rw [shareState_eq hlt]
          simpa using ih
        · exact ih

variable {x : Tx}

theorem commitStart_isSome (hx : p.newValue = some x) (hupd : Updating p) :
    (commitStart p).isSome := by
  unfold commitStart
  rcases hupd with hs | hs <;> simp [hx, hs]

theorem begin_isSome {v : Tx} (hrole : p.role = .leader) (hupd : Updating p)
    (hnum : p.quorum.card = 1 ∨ n / 2 < p.numLast) (hnew : p.newValue = none) :
    (begin n i v p).isSome := by
  unfold begin
  rw [if_pos ⟨hrole, hupd, hnum, hnew⟩]
  dsimp only
  split
  · rw [isSome_map]
    exact commitStart_isSome rfl hupd
  · rfl

theorem finishCollect_isSome (hrole : p.role = .leader)
    (hnum : p.quorum.card = 1 ∨ n / 2 < p.numLast) (hnew : p.newValue = none) :
    (finishCollect n i p).isSome := by
  unfold finishCollect
  dsimp only
  split
  · split
    · exact begin_isSome hrole (.inr rfl) hnum hnew
    · rfl
  · rfl

theorem countLast_isSome (hrole : p.role = .leader) (hmaj : n / 2 < p.quorum.card)
    (hnew : p.newValue = none) : (countLast n i m p).isSome := by
  unfold countLast
  split
  · simp [collect, hrole]
  · split
    · dsimp only
      have hc : learnUncommitted m { p with numLast := p.numLast + 1 } = counted m p := rfl
      rw [hc]
      split
      next hall =>
        refine finishCollect_isSome (by simpa using hrole) (.inr ?_) (by simpa using hnew)
        rw [hall]
        simpa using hmaj
      · rfl
    · rfl

theorem handleLast_isSome (hmaj : n / 2 < p.quorum.card) (hidle : p.commit = .idle)
    (hnew : p.newValue = none) : (handleLast n i j m p).isSome := by
  unfold handleLast
  split
  next hrole =>
    dsimp only
    split
    · rw [isSome_map]
      exact bootstrap_isSome hidle
    · have hh : storeState m { p with
          peerLastCommitted := Function.update p.peerLastCommitted j (some m.lastCommitted) } =
          heard j m p := rfl
      rw [hh]
      obtain ⟨_, hshared⟩ := isSome_iff_exists.1 (sharePeers_isSome (heard j m p) (List.range n))
      rw [hshared, bind_some]
      split
      · simpa using bootstrap_isSome (by simpa using hidle)
      · simpa using countLast_isSome (by simpa using hrole) (by simpa using hmaj)
          (by simpa using hnew)
  · rfl

theorem MonBase.commitFinish_isSome (h : MonBase p) (happlied : p.commit = .applied) :
    (commitFinish n i p).isSome := by
  obtain ⟨hrole, hstate⟩ := h.busy (by simp [happlied])
  obtain ⟨_, hx, -⟩ := h.proposing hrole (.inr (.inr hstate))
  unfold commitFinish
  rw [hx]
  dsimp only
  rw [if_pos ⟨happlied, h.ahead happlied, hrole, hstate⟩]
  rfl

theorem handleBegin_isSome
    (hready : p.acceptedPn ≤ m.pn → m.pn = p.acceptedPn ∧ m.lastCommitted = p.lastCommitted)
    (hx : m.values = [(m.lastCommitted + 1, x)]) : (handleBegin j m p).isSome := by
  unfold handleBegin
  split
  · rfl
  next hlt =>
    have heq := hready (not_lt.1 hlt)
    rw [if_pos heq, hx, heq.2]
    simp

theorem handleAccept_isSome (hx : p.newValue = some x)
    (howed : m.lastCommitted = p.lastCommitted ∧ Updating p ∧ j ∉ p.accepted) :
    (handleAccept j m p).isSome := by
  unfold handleAccept
  split
  · rfl
  · split
    · rfl
    · rw [if_pos ⟨.inl howed.1, howed.2.1, howed.2.2⟩]
      dsimp only
      split
      · simpa using @commitStart_isSome { p with accepted := insert j p.accepted } x hx howed.2.1
      · rfl

end Handlers

/-! ## The result -/

/-- What the assertions of the handlers ask of a message that has got through to
them. -/
structure Sound (j : Nat) (m : MMonPaxos) (p : Monitor) : Prop where
  /-- `handle_begin`, unless the BEGIN is ignored. -/
  begin : m.op = .begin → p.acceptedPn ≤ m.pn →
    m.pn = p.acceptedPn ∧ m.lastCommitted = p.lastCommitted
  /-- `handle_accept`, unless the ACCEPT is ignored. -/
  accept : m.op = .accept → m.pn = p.acceptedPn →
    ¬ (0 < p.lastCommitted ∧ m.lastCommitted < p.lastCommitted - 1) →
    (m.lastCommitted = p.lastCommitted ∨ m.lastCommitted + 1 = p.lastCommitted) ∧
      (p.state = .updating ∨ p.state = .updatingPrevious) ∧ j ∉ p.accepted

section

variable (h : InRun n e l Q R C s)

include h

/-- What gets through to a handler: a leader has answers, a peon the messages of
its leader. -/
theorem InRun.received (hm : m ∈ s.net j i) (hrole : (s.mon i).role ≠ .electing) :
    m.epoch = (s.mon i).epoch ∧
      ((s.mon i).role = .leader ∧ (m.op = .last ∨ m.op = .accept) ∨
        (s.mon i).role = .peon j ∧ (m.op = .collect ∨ m.op = .begin ∨ m.op = .commit)) := by
  obtain ⟨-, hi, hne⟩ := h.core.ends j i m hm
  obtain ⟨he, hdir⟩ := h.directed j i m hm
  rcases h.placed i hi with ⟨hr, -⟩ | ⟨hpe, ⟨hr, rfl, -⟩ | ⟨hr, hil⟩⟩
  · exact absurd hr hrole
  · exact ⟨he.trans hpe.symm, .inl ⟨hr, (hdir.resolve_left fun h => hne h.1).2⟩⟩
  · obtain ⟨rfl, hop⟩ := hdir.resolve_right fun h => hil h.1
    exact ⟨he.trans hpe.symm, .inr ⟨hr, hop⟩⟩

/-- An ACCEPT of the epoch is owed. -/
theorem InRun.owed (hm : m ∈ s.net j i)
    (hr : (s.mon i).role = .leader) (hop : m.op = .accept) : Owed j (s.mon i) m := by
  obtain ⟨hj, hi, hne⟩ := h.core.ends j i m hm
  exact (h.rounds.pair i hi hr j hj hne).up m hm
    (isOp_iff.2 ⟨hop, (h.received hm (by simp [hr])).1⟩)

/-- A message of the epoch meets the assertions of its handler. -/
theorem InRun.sound (hnet : s.net j i = m :: rest) (hrole : (s.mon i).role ≠ .electing) :
    Sound j m (s.mon i) := by
  have hmem : m ∈ s.net j i := by simp [hnet]
  obtain ⟨-, hi, -⟩ := h.core.ends j i m hmem
  obtain ⟨-, ⟨hr, hup⟩ | ⟨hr, hdown⟩⟩ := h.received hmem hrole
  · refine ⟨fun hop => by simp [hop] at hup, fun hop _ _ => ?_⟩
    have howed := h.owed hmem hr hop
    exact ⟨.inl howed.last, howed.updating, howed.notCounted⟩
  · refine ⟨fun hop hle => ?_, fun hop => by simp [hop] at hdown⟩
    obtain rfl := ((h.placed i hi).peon hr).2.1
    have hfit := h.fits i hi hr
    rw [hnet] at hfit
    obtain ⟨hpn, hlast⟩ := hfit.1 hop
    exact ⟨le_antisymm hpn hle, hlast⟩

/-- A message of the epoch is handled. -/
theorem InRun.dispatch_isSome (hnet : s.net j i = m :: rest) :
    (dispatch n i j m (s.mon i)).isSome := by
  have hmem : m ∈ s.net j i := by simp [hnet]
  obtain ⟨-, hi, -⟩ := h.core.ends j i m hmem
  have hb := h.core.base i hi
  unfold dispatch
  split
  · rfl
  rename_i hrole
  have hsound := h.sound hnet hrole
  obtain ⟨he, ⟨hr, hop | hop⟩ | ⟨hr, hop⟩⟩ := h.received hmem hrole
  · rw [if_pos (.inl hr)]
    obtain ⟨-, hnew, hs⟩ := hb.of_last (h.core.expected (distinct_singleton l) hmem) ⟨hop, he, hr⟩
    simp only [hop]
    exact handleLast_isSome (h.core.leader i hi hr).majority.2 hs.idle hnew
  · rw [if_pos (.inl hr)]
    have howed := h.owed hmem hr hop
    obtain ⟨x, hx, -⟩ := hb.proposing hr (by
      rcases howed.updating with hs | hs <;> simp [Proposing, hs])
    simp only [hop]
    exact handleAccept_isSome hx ⟨howed.last, howed.updating, howed.notCounted⟩
  · rw [if_pos (.inr hr)]
    rcases hop with hop | hop | hop <;> simp only [hop]
    · exact handleCollect_isSome hr (hb.idle_of_not_leader (by simp [hr]))
    · obtain ⟨x, hx, -⟩ := (h.msgs j i m hmem).begin hop
      exact handleBegin_isSome (hsound.begin hop) hx
    · simp [handleCommit, hr]

end

/-- A message is handled, whatever its epoch. -/
theorem dispatchOp_isSome (hp : Placed e l Q i p) (hb : MonBase p) (hle : m.epoch ≤ e)
    (hnow : m.epoch = e → (dispatch n i j m p).isSome) : (dispatchOp n i j m p).isSome := by
  have hidle : p.epoch < e → p.role = .electing ∧ p.commit = .idle := fun hlt => by
    have hr := hp.electing hlt
    exact ⟨hr, hb.idle_of_not_leader (by simp [hr])⟩
  unfold dispatchOp
  split
  · rw [isSome_map]
    exact bootstrap_isSome (hidle (by omega)).2
  · split
    · rfl
    next _ =>
      by_cases he : m.epoch = e
      · exact hnow he
      · unfold dispatch
        rw [if_pos (hidle (by omega)).1]
        rfl

/-- No assertion can fail in the next step of a member of `Q`. -/
structure NoFailure (n : Nat) (Q : Finset Nat) (s : System) : Prop where
  deliver : ∀ j i m rest, i ∈ Q → s.net j i = m :: rest → (dispatchOp n i j m (s.mon i)).isSome ∧
    ((s.mon i).role ≠ .electing → m.epoch = (s.mon i).epoch → Sound j m (s.mon i))
  propose : ∀ i ∈ Q, (s.mon i).role = .leader → (s.mon i).state = .active →
    ∀ data trim, (proposePending n i data trim (s.mon i)).isSome
  finish : ∀ i ∈ Q, (s.mon i).commit = .applied → (commitFinish n i (s.mon i)).isSome

/-- From what holds without the messages of other epochs. -/
theorem noFailure_since (hp : ∀ i ∈ Q, Placed e l Q i (s.mon i)) (hb : ∀ i ∈ Q, MonBase (s.mon i))
    (hle : ∀ j i m, m ∈ s.net j i → m.epoch ≤ e)
    (hnow : ∀ j i m rest, i ∈ Q → (s.since e).net j i = m :: rest →
      (dispatch n i j m (s.mon i)).isSome ∧
      ((s.mon i).role ≠ .electing → Sound j m (s.mon i)))
    (hnum : ∀ i ∈ Q, (s.mon i).role = .leader → (s.mon i).state = .active →
      (s.mon i).quorum.card = 1 ∨ n / 2 < (s.mon i).numLast) : NoFailure n Q s where
  deliver j i m rest hi hnet := by
    have hhead : m.epoch = e → (s.since e).net j i = m :: (rest.filter fun m => m.epoch = e) :=
      fun he => by simp [System.since, hnet, he]
    refine ⟨dispatchOp_isSome (hp i hi) (hb i hi) (hle j i m (by simp [hnet])) fun he =>
      (hnow j i m _ hi (hhead he)).1, fun hr he => ?_⟩
    have hpe : (s.mon i).epoch = e := by
      rcases hp i hi with ⟨hel, -⟩ | ⟨hpe, -⟩
      · exact absurd hel hr
      · exact hpe
    exact (hnow j i m _ hi (hhead (he.trans hpe))).2 hr
  propose i hi hr hs data trim := by
    unfold proposePending
    rw [if_pos ⟨hr, hs⟩]
    exact begin_isSome hr (.inl rfl) (hnum i hi hr hs) ((hb i hi).clear hr (.inr hs))
  finish i hi happlied := (hb i hi).commitFinish_isSome happlied

/-- A single monitor, to which no message of the epoch is under way. -/
structure Lone (e l : Nat) (Q : Finset Nat) (s : System) : Prop where
  base : ∀ i ∈ Q, MonBase (s.mon i)
  placed : ∀ i ∈ Q, Placed e l Q i (s.mon i)
  net : ∀ j i, s.net j i = []

theorem Lone.step {inp : Option MMonPaxos} {p' : Monitor} {out : Sends} (hmaj : Majority 1 Q)
    (h : Lone e l Q s) (hok : inEpoch e l Q a) (hlocal : Local 1 (s.mon a.actor) inp a p' out)
    (heff : Effect s s' a.actor (a.source inp) p' out) : Lone e l Q s' := by
  have hx := inEpoch_actor hok
  obtain ⟨rfl, hnet'⟩ := hlocal.silent (by have := hmaj.lt hx; omega) heff h.net
  have hbase' := (h.base _ hx).step hlocal ⟨by simp, by simp, by simp⟩
  have hplaced' := hlocal.placed (h.placed _ hx) hok
  exact ⟨fun i hi => heff.mon_step (P := fun _ => MonBase) hbase' (h.base i hi),
    fun i hi => heff.mon_step hplaced' (h.placed i hi), hnet'⟩

section

variable (h : EpochStart n e l Q C s)

include h

theorem EpochStart.since_net (j i : Nat) : (s.since e).net j i = [] := by
  rw [List.eq_nil_iff_forall_not_mem]
  intro m hm
  obtain ⟨hm, _⟩ := mem_since.1 hm
  have := h.net j i m hm
  omega

theorem EpochStart.base : ∀ i ∈ Q, MonBase (s.mon i) := fun i hi =>
  (h.synced i hi).base_of_role (by simp [h.role i hi])

theorem EpochStart.placed : ∀ i ∈ Q, Placed e l Q i (s.mon i) :=
  fun i hi => .inl ⟨h.role i hi, le_of_lt (h.epoch i hi)⟩

theorem EpochStart.inRun : InRun n e l Q (fun _ => ∅) C (s.since e) := by
  have hlead : ∀ i ∈ Q, ((s.since e).mon i).role ≠ .leader := fun i hi hr => by
    have := h.role i hi
    simp [System.since, this] at hr
  have hnone : ∀ {P : Nat → Nat → MMonPaxos → Prop} j i m, m ∈ (s.since e).net j i → P j i m :=
    fun j i m hm => by simp [h.since_net] at hm
  refine ⟨⟨h.base, hnone, hnone, fun j i => by simp [h.since_net], ?_,
      fun i hi hr => absurd hr (hlead i hi), fun i hi hr => absurd hr (hlead i hi)⟩,
    ⟨fun i hi hr => absurd hr (hlead i hi), fun i hi hr => absurd hr (hlead i hi)⟩, h.history,
    h.values, hnone, hnone, h.placed, fun hr => absurd hr (hlead l h.leader), fun i hi hr => ?_,
    fun v x hvx => ?_⟩
  · intro _ hk i hi
    rw [mem_singleton.1 hk]
    exact h.fresh i hi
  · have := h.role i hi
    simp [System.since, this] at hr
  · obtain ⟨i, hi, hle⟩ := h.known v x hvx
    exact ⟨i, hi, (h.synced i hi).last ▸ hle⟩

end

/-- What the steps of the epoch keep, without the messages of earlier ones, holds along
a run of it. -/
theorem invariant_since {I : System → Prop} {s₀ : System} (hstart : EpochStart n e l Q C s₀)
    (hinit : I (s₀.since e)) (hplaced : ∀ t, I t → ∀ i ∈ Q, Placed e l Q i (t.mon i))
    (hexp : ∀ t, I t → ∀ j i m, m ∈ t.net j i → Expected (t.mon i) (some m))
    (hkeep : ∀ {t t' a inp p' out}, I t → inEpoch e l Q a → Local n (t.mon a.actor) inp a p' out →
      Effect t t' a.actor (a.source inp) p' out → I t')
    (hrun : Run (step n) (fun _ a => inEpoch e l Q a = true) s₀ s) :
    I (s.since e) ∧ ∀ j i m, m ∈ s.net j i → m.epoch ≤ e := by
  refine @Run.invariant _ _ _ _ _ _ (fun s => I (s.since e) ∧
    ∀ j i m, m ∈ s.net j i → m.epoch ≤ e) hrun
    ⟨hinit, fun j i m hm => le_of_lt (hstart.net j i m hm)⟩ ?_
  rintro t a t' ⟨h, hle⟩ hok hstep
  obtain ⟨hmem, hcase⟩ := step_since (s := t) (hplaced (t.since e) h) (hexp (t.since e) h) hok hstep
  refine ⟨?_, fun j i m hm => ?_⟩
  · obtain hsame | hstep := hcase
    · exact hsame ▸ h
    · obtain ⟨_, inp, p', out, hok', hlocal, heff⟩ := hstep
      exact hkeep h hok' hlocal heff
  · obtain hold | heq := hmem j i m hm
    · exact hle j i m hold
    · exact heq.le

/-- In every run inside one epoch no assertion of the protocol can fail. -/
theorem single_epoch_no_failure {s₀ : System} (hstart : EpochStart n e l Q C s₀)
    (hrun : Run (step n) (fun _ a => inEpoch e l Q a = true) s₀ s) : NoFailure n Q s := by
  have hpos : 0 < n := Nat.lt_of_le_of_lt (Nat.zero_le l) (hstart.majority.lt hstart.leader)
  cases Nat.lt_or_eq_of_le hpos with
  | inl htwo =>
    obtain ⟨⟨R, C', h⟩, hle⟩ : (∃ R C', InRun n e l Q R C' (s.since e)) ∧
        ∀ j i m, m ∈ s.net j i → m.epoch ≤ e := by
      refine invariant_since (I := fun t => ∃ R C', InRun n e l Q R C' t) hstart
        ⟨_, C, hstart.inRun⟩ ?_ ?_ ?_ hrun
      · rintro t ⟨R, C', h⟩
        exact h.placed
      · rintro t ⟨R, C', h⟩ j i m hm
        exact h.core.expected (distinct_singleton l) hm
      · rintro t _ a _ _ _ ⟨R, C', h⟩ hok hlocal heff
        exact h.step hstart.leader hok hlocal heff htwo hstart.majority
    refine noFailure_since h.placed h.core.base hle
      (fun j i m rest hi hnet => ⟨h.dispatch_isSome hnet, h.sound hnet⟩) fun i hi hr hs => ?_
    -- an active leader has counted its whole quorum
    have htok := h.core.leader i hi hr
    have hnum := htok.num
    rw [htok.all (show (s.mon i).state ≠ .recovering by simp [hs]),
      card_erase_of_mem htok.self] at hnum
    have hmaj := htok.majority.2
    exact .inr (show n / 2 < ((s.since e).mon i).numLast by omega)
  | inr hone =>
    subst hone
    -- a single monitor never gets a message of its epoch
    obtain ⟨h, hle⟩ := invariant_since hstart ⟨hstart.base, hstart.placed, hstart.since_net⟩
      (fun _ => Lone.placed) (fun t h j i m hm => by simp [h.net] at hm)
      (fun h hok hlocal heff => h.step hstart.majority hok hlocal heff) hrun
    refine noFailure_since h.placed h.base hle (fun j i m rest hi hnet => ?_)
      fun i hi hr hs => .inl ?_
    · simp [h.net] at hnet
    · have hQ := ((h.placed i hi).leader hr).2.2
      have hcard := card_le_card hstart.majority.1
      have hmaj := hstart.majority.2
      rw [card_range] at hcard
      show ((s.since e).mon i).quorum.card = 1
      rw [hQ]
      omega

/-! ## Epochs of whole runs -/

/-- The members of `Q` hold an election, and no message is as late as epoch `e`. -/
def Opening (n e : Nat) (Q : Finset Nat) (s : System) : Prop :=
  (∀ i ∈ Q, (s.mon i).role = .electing ∧ (s.mon i).epoch < e) ∧
    ∀ j < n, ∀ i < n, ∀ m ∈ s.net j i, m.epoch < e

instance : Decidable (Opening n e Q s) := inferInstanceAs (Decidable (_ ∧ _))

/-- The first `b` versions of a history. -/
def upTo (C : Commits) (b : Nat) : Commits := fun v x => C v x ∧ v ≤ b

section UpTo

variable {b v f : Nat}

theorem FirstAt.upTo (h : FirstAt C v f) (hv : v ≤ b) : FirstAt (upTo C b) v f := by
  induction h with
  | zero => exact .zero
  | succ _ hx ih => exact .succ (ih (by omega)) ⟨hx, hv⟩

theorem HistoryOk.upTo (hC : HistoryOk C) : HistoryOk (upTo C b) where
  same v x y hx hy := hC.same v x y hx.1 hy.1
  wf v x hx := by
    obtain ⟨f, hf, hwf⟩ := hC.wf v x hx.1
    exact ⟨f, hf.upTo (Nat.le_of_succ_le hx.2), hwf⟩

/-- A monitor that takes part in no epoch needs no more of the history than it has
committed. -/
theorem MonHist.upTo (hC : HistoryOk C) (h : MonHist C (Proposable C) p)
    (hrole : p.role ≠ .leader) (hidle : p.commit = .idle) (hle : p.store.lastCommitted ≤ b) :
    MonHist (upTo C b) (Proposable (upTo C b)) p where
  store := by
    refine ⟨h.store.first.upTo hle, fun w hf hpos hw => ?_, h.store.above, h.store.below⟩
    obtain ⟨x, hx, hCx⟩ := h.store.held w hf hpos hw
    exact ⟨x, hx, hCx, hw.trans hle⟩
  pending x hx := ⟨_, h.store.first.upTo hle, hC.wf_at (h.pending x hx) h.store.first⟩
  uncommitted hr := absurd hr hrole
  newValue hr := absurd hr hrole
  done hc := by simp [hidle] at hc

end UpTo

/-- In a run that keeps promises every epoch starts with stores that follow one
history: what has been chosen, as far as its members have committed it. -/
theorem epochStart_of_run (htwo : 2 ≤ n) (hn : n ≤ 100)
    (hrun : Run (step n) (fun s a => remembers s a = true) System.init s) (hmaj : Majority n Q)
    (hl : l ∈ Q) (hopen : Opening n e Q s) : ∃ C, EpochStart n e l Q C s := by
  obtain ⟨_, g, h⟩ := agreed_of_run htwo hn hrun
  have hbase := fun i (hi : i ∈ Q) => h.core.base i (hmaj.1 hi)
  have hrole := fun i (hi : i ∈ Q) => (hopen.1 i hi).1
  have hnot := fun i (hi : i ∈ Q) => show (s.mon i).role ≠ .leader by simp [hrole i hi]
  have hsync := fun i (hi : i ∈ Q) =>
    (hbase i hi).synced ((hbase i hi).idle_of_not_leader (hnot i hi))
  have hC := h.votes.props.history
  -- the member that has committed most
  obtain ⟨k, hk, hmax⟩ := exists_max_image Q (fun i => (s.mon i).store.lastCommitted) ⟨l, hl⟩
  refine ⟨upTo (g.Chosen n) (s.mon k).store.lastCommitted, hmaj, hl, fun i hi => (hopen.1 i hi).2,
    hrole, hsync, hC.upTo, fun i hi => ?_, fun v x hx => ⟨k, hk, ?_⟩,
    fun i hi => h.core.fresh l (hmaj.1 hl) i (hmaj.1 hi), fun j i m hm => ?_⟩
  · exact (h.hist i (hmaj.lt hi)).upTo hC (hnot i hi) (hsync i hi).idle (hmax i hi)
  · exact (hsync k hk).last ▸ hx.2
  · obtain ⟨hj, hi, -⟩ := h.core.ends j i m hm
    exact hopen.2 j (mem_range.1 hj) i (mem_range.1 hi) m hm

/-- Monitors 0 and 1 commit a version; monitor 2, which has missed it, promises
monitor 1 a number higher than that of monitor 0. -/
def missedCommit : List Action :=
  [.win 0 2 {0, 1}, .lose 1 2 0 {0, 1}, .deliver 0 1, .deliver 1 0, .propose 0 7 none,
    .deliver 0 1, .deliver 1 0, .commitApply 0, .commitFinish 0, .deliver 0 1,
    .win 1 4 {1, 2}, .lose 2 4 1 {1, 2}, .deliver 1 2, .leave 0, .leave 1, .leave 2]

/-- The next leader is told of the higher number and starts over. -/
def startedOver : List Action :=
  [.win 0 6 {0, 1, 2}, .lose 1 6 0 {0, 1, 2}, .lose 2 6 0 {0, 1, 2}, .deliver 0 1, .deliver 0 2,
    .deliver 1 0, .deliver 2 0]

/-- The second COLLECT and, for the monitor that is behind, a COMMIT are under way,
beside a message of an earlier epoch. -/
theorem single_epoch_no_failure_startedOver :
    ∃ s₀ s, Run (step 3) (fun s a => remembers s a = true) System.init s₀ ∧
      Run (step 3) (fun _ a => inEpoch 6 0 {0, 1, 2} a = true) s₀ s ∧
      (s.net 0 1).map (fun m => (m.op, m.pn)) = [(.collect, 300)] ∧
      (s.net 0 2).map (·.op) = [.collect, .commit] ∧ (s.net 2 1).map (·.epoch) = [4] ∧
      NoFailure 3 {0, 1, 2} s := by
  have hview : (execOk (step 3) remembers System.init missedCommit).any (fun s₀ =>
      Opening 3 6 {0, 1, 2} s₀ ∧
        (execOk (step 3) (fun _ a => inEpoch 6 0 {0, 1, 2} a) s₀ startedOver).any fun s =>
          (s.net 0 1).map (fun m => (m.op, m.pn)) = [(.collect, 300)] ∧
            (s.net 0 2).map (·.op) = [.collect, .commit] ∧
            (s.net 2 1).map (·.epoch) = [4]) = true := by
    decide +kernel
  simp only [any_eq_true, decide_eq_true_eq] at hview
  obtain ⟨s₀, hs₀, hopen, s, hs, hcollect, hcommit, hold⟩ := hview
  obtain ⟨_, hstart⟩ := epochStart_of_run (l := 0) (by decide) (by decide) (execOk_run hs₀)
    (by decide) (by decide) hopen
  exact ⟨s₀, s, execOk_run hs₀, execOk_run hs, hcollect, hcommit, hold,
    single_epoch_no_failure hstart (execOk_run hs)⟩

/-- Monitor 0, whose store has lost version 2, leads an epoch with monitor 4, which has
committed version 1 alone, and proposes. -/
def stuckBegin : List Action :=
  [.win 0 20 {0, 1, 4}, .lose 1 20 0 {0, 1, 4}, .lose 4 20 0 {0, 1, 4}, .deliver 0 1, .deliver 0 1,
    .deliver 0 4, .deliver 1 0, .deliver 4 0, .propose 0 44 none, .deliver 0 4]

/-- After promises have been forgotten an assertion of `handle_begin` fails: monitor 4
cannot store the versions it is sent, and the BEGIN is for a version far ahead. -/
theorem single_epoch_begin_fails :
    ∃ s₀ s, Reaches (step 5) System.init s₀ ∧ Opening 5 20 {0, 1, 4} s₀ ∧
      Run (step 5) (fun _ a => inEpoch 20 0 {0, 1, 4} a = true) s₀ s ∧
      (s.net 0 4).map (fun m => (m.op, m.lastCommitted)) = [(.begin, 5)] ∧
      (s.mon 4).lastCommitted = 1 ∧ ¬ NoFailure 5 {0, 1, 4} s := by
  have hview : (exec (step 5) System.init (forgottenTrim ++ [.leave 0, .leave 1, .leave 4])).any
      (fun s₀ => Opening 5 20 {0, 1, 4} s₀ ∧
        (execOk (step 5) (fun _ a => inEpoch 20 0 {0, 1, 4} a) s₀ stuckBegin).any fun s =>
          (s.net 0 4).map (fun m => (m.op, m.lastCommitted)) = [(.begin, 5)] ∧
            (s.mon 4).lastCommitted = 1 ∧ step 5 s (.deliver 0 4) = none) = true := by
    decide +kernel
  simp only [any_eq_true, decide_eq_true_eq] at hview
  obtain ⟨s₀, hs₀, hopen, s, hs, hbegin, hlast, hnone⟩ := hview
  refine ⟨s₀, s, exec_reaches hs₀, hopen, execOk_run hs, hbegin, hlast, fun h => ?_⟩
  obtain ⟨m, rest, hnet, -⟩ := List.map_eq_cons_iff.1 hbegin
  obtain ⟨_, hsome⟩ := isSome_iff_exists.1 (h.deliver 0 4 m rest (by decide) hnet).1
  simp [step, hnet, hsome] at hnone

end Ceph.Mon.Paxos
