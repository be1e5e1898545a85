import Ceph.Mon.Paxos.Actor

set_option autoImplicit false

/-!
# Agreement

The voting invariant holds along every run in which each monitor that accepts a
proposal number has not handed out a higher one itself.  `Paxos::collect` writes
`last_pn` but not `accepted_pn`, so the code does not ensure this by itself: a
leader that restarts forgets its own promise.
-/

namespace Ceph.Mon.Paxos

open Ceph.Lib Function Finset Option

variable {n : Nat} {R : Nat → Finset Nat} {g g' : Ghost} {s s' : System}

/-- The invariant of the agreement proof. -/
structure Agreed (n : Nat) (R : Nat → Finset Nat) (g : Ghost) (s : System) : Prop where
  core : Core n (Finset.range n) (Finset.range n) R s
  rounds : Rounds (Finset.range n) s
  votes : Voting n R g s
  hist : ∀ i, i < n → MonHist (g.Chosen n) (Proposable (g.Chosen n)) (s.mon i)
  msgs : ∀ j i m, m ∈ s.net j i → MsgHist (g.Chosen n) (Proposable (g.Chosen n)) m

/-- A monitor that accepts the number of a COLLECT has not handed out a higher
one itself. -/
def remembers (s : System) : Action → Bool
  | .deliver j i =>
    match s.net j i with
    | [] => true
    | m :: _ =>
      decide (m.op = .collect → m.epoch = (s.mon i).epoch → (s.mon i).role = .peon j →
        (s.mon i).acceptedPn < m.pn → (s.mon i).store.lastPn < m.pn)
  | _ => true

section Step

/-- A step of monitor `x` that keeps promises. -/
structure Stepped (n : Nat) (R : Nat → Finset Nat) (g g' : Ghost) (s s' : System) (x : Nat)
    (src : Source) (p' : Monitor) (out : Sends) : Prop where
  lt : x < n
  move : Move n x (s.mon x) src p' out
  effect : Effect s s' x src p' out
  after : After n g g' x (R x) (s.mon x) p' src out
  keeps : ∀ j m, src = some (j, m) → m.op = .collect → m.epoch = (s.mon x).epoch →
    (s.mon x).role = .peon j → (s.mon x).acceptedPn < m.pn → (s.mon x).store.lastPn < m.pn

variable {x : Nat} {src : Source} {p' : Monitor} {out : Sends}

theorem Agreed.before (h : Agreed n R g s) (hx : x < n) (heff : Effect s s' x src p' out) :
    Before n g x (R x) (s.mon x) src := by
  have hxM := mem_range.2 hx
  refine ⟨h.core.base x hxM, h.hist x hx, h.votes.props.history, h.votes.props.pos, ?_, ?_,
    h.votes.mon x hx, h.votes.leader x hx, h.core.leader x hxM, ?_, ?_, ?_, ?_⟩
  · exact fun k v hne => h.votes.props.fresh x k v hx hne
  · intro q v y hy
    obtain ⟨_, hu, hwf⟩ := h.votes.props.wf q (v + 1) y hy
    obtain rfl := Nat.succ.inj hu
    exact hwf
  · rintro j m hsrc ⟨hop, hepoch, hrole⟩
    have hmem := heff.src_mem j m hsrc
    obtain ⟨hj, -, hne⟩ := h.core.ends j x m hmem
    have hpair := h.votes.pair x hx hrole j (mem_range.1 hj) hne
    exact ⟨hpair.carries m hmem hop hepoch, fun hpn => ⟨_, hpair.last m hmem hop hepoch hpn⟩⟩
  · intro j m hsrc hop hepoch hrole hpn
    have hmsg := h.votes.msg j x m (heff.src_mem j m hsrc)
    exact ⟨hmsg.live hop hrole hepoch.symm hpn.symm, hmsg.begin hop⟩
  · intro j m hsrc hop hepoch hrole
    have hmem := heff.src_mem j m hsrc
    obtain ⟨hj, -, hne⟩ := h.core.ends j x m hmem
    have howed := (h.rounds.pair x hxM hrole j hj hne).up m hmem (isOp_iff.2 ⟨hop, hepoch⟩)
    have hvote := (h.votes.msg j x m hmem).accept hop
    rw [howed.pn, howed.last] at hvote
    exact ⟨howed.updating, hvote⟩
  · intro j m hsrc hop
    exact (h.msgs j x m (heff.src_mem j m hsrc)).carries (.inl hop)

variable {l : Nat}

section

variable (h : Agreed n R g s) (hst : Stepped n R g g' s s' x src p' out)

include h hst

/-- The actor as a leader. -/
theorem Agreed.leader_pair (hxL : p'.role = .leader) {i : Nat} (hi : i < n) (hne : i ≠ x) :
    PairVote n g' x i (i ∈ countedAfter (R x) src (s.mon x) p') p' (s.mon i)
      (s.net x i ++ msgsTo i out) (s'.net i x) := by
  obtain ⟨hx, hmove, heff, hafter, -⟩ := hst
  have hxM := mem_range.2 hx
  have hgrows := hafter.grows
  have hU : ∀ m ∈ s'.net i x, m ∈ s.net i x := fun m hm => (heff.suffix hne).subset hm
  have hD : (∀ m, (i, m) ∈ out → m.op ≠ .collect) →
      ∀ m ∈ s.net x i ++ msgsTo i out, m.op = .collect → m ∈ s.net x i := by
    intro hout m hm hop
    rcases List.mem_append.1 hm with hm | hm
    · exact hm
    · exact absurd hop (hout m (mem_msgsTo.1 hm))
  cases hmove with
  | quiet hview hnum _ _ hout =>
    have hrole : (s.mon x).role = .leader := hview.role ▸ hxL
    rw [countedAfter_quiet hview.acceptedPn hnum]
    exact (h.votes.pair x hx hrole i hi hne).frame hgrows hview.epoch hview.acceptedPn hafter.last
      le_rfl (fun m hm hop _ => hD (fun m hm => (hout i m hm).op_ne.1) m hm hop)
      (fun m hm _ => hU m hm) .inl (fun hr he ha => .inr ⟨hr, he, ha, id⟩)
      fun hix => absurd hix hne
  | depose hrole => exact absurd hxL hrole
  | promise _ _ hrole _ _ _ _ hrole' => simp [hrole', hrole] at hxL
  | collect hor _ _ _ _ _ _ _ hacc hres hout =>
    rw [countedAfter_collect hacc]
    obtain ⟨k, hk⟩ := hres
    refine ⟨?_, ?_, ?_, by simp, ?_⟩
    · intro m hm hop hepoch
      rcases List.mem_append.1 hm with hm | hm
      · rcases hor with ⟨hlt, -⟩ | ⟨hr, he, -⟩
        · have := (h.core.link x i m hm).sent
          omega
        · exact ((h.votes.pair x hx hr i hi hne).collect m hm hop (hepoch.trans he)).trans
            hafter.last
      · rcases List.mem_append.1 (mem_msgsTo.1 hm) with hm | hm
        · exact absurd hop (hout i m hm).1.op_ne.1
        · obtain ⟨-, rfl⟩ := mem_broadcast hm
          exact le_rfl
    · intro m hm hop hepoch
      rcases hor with ⟨hlt, -⟩ | ⟨hr, he, -⟩
      · rcases (h.core.link i x m (hU m hm)).up (.inl hop) with _ | ⟨_, -⟩ <;> omega
      · obtain ⟨lo, hlo, _⟩ := (h.votes.pair x hx hr i hi hne).carries m (hU m hm) hop
          (hepoch.trans he)
        have := hafter.last
        exact ⟨lo, hlo.mono hgrows.chosen, by omega⟩
    · intro m hm hop _ hpn'
      have := (h.core.link i x m (hU m hm)).lastFresh hop k (hpn'.trans hk)
      omega
    · intro _ _ ha
      have hxL' : x ∈ range n := hxM
      have := (h.core.fresh x hxL' i (mem_range.2 hi)).mem k (ha.trans hk)
      omega
  | @count _ m _ _ hl hpn hview hnum _ _ hout =>
    rw [countedAfter_count hview.acceptedPn hnum]
    have hpair := h.votes.pair x hx hl.role i hi hne
    refine hpair.frame hgrows hview.epoch hview.acceptedPn hafter.last le_rfl
      (fun m hm hop _ => hD (fun m hm => (hout i m hm).op_ne.1) m hm hop)
      (fun m hm _ => hU m hm) ?_ (fun hr he ha => .inr ⟨hr, he, ha, id⟩)
      fun hix => absurd hix hne
    intro hmem
    rcases mem_insert.1 hmem with rfl | hmem
    · exact .inr (hpair.last m (heff.src_mem i m rfl) hl.op hl.epoch hpn).promised
    · exact .inl hmem

/-- A LAST that the actor sends. -/
theorem Agreed.last_sent (hl : l < n) (hrole : (s.mon l).role = .leader) (hne : x ≠ l)
    {m : MMonPaxos} (hm : (l, m) ∈ out) (hop : m.op = .last) (hepoch : m.epoch = (s.mon l).epoch) :
    (∃ lo, Carries (g'.Chosen n) lo m ∧
        (lo ≤ (s.mon l).lastCommitted + 1 ∨ lo ≤ m.firstCommitted)) ∧
      (m.pn = (s.mon l).acceptedPn → LastVote g' x (s.mon l) p' m) := by
  obtain ⟨hx, hmove, heff, hafter, hok⟩ := hst
  have hxM := mem_range.2 hx
  have hlM := mem_range.2 hl
  cases hmove with
  | quiet _ _ _ _ hout | depose _ _ _ _ _ _ hout => exact absurd hop (hout l m hm).op_ne.2
  | @promise _ c _ _ hcop hcepoch hpeon _ hlepoch hlpn _ _ _ hacc hp' hl' =>
    obtain ⟨rfl, rfl⟩ := mem_reply hm
    have hstate : p'.state = .recovering := by
      rw [hp']
      unfold promised
      split <;> rfl
    obtain rfl := hafter.still hstate
    have hmem := heff.src_mem l c rfl
    have hce : c.epoch = (s.mon l).epoch := hcepoch.trans (hlepoch.symm.trans hepoch)
    have hpair := h.votes.pair l hl hrole x hx hne
    have hle := hpair.collect c hmem hcop hce
    have hC := h.votes.props.history
    have hs := (h.core.base x hxM).synced ((h.core.base x hxM).idle_of_not_leader (by simp [hpeon]))
    have hst : StoreAt (g'.Chosen n) (s.mon x).lastCommitted (s.mon x).store :=
      hs.last ▸ (h.hist x hx).store
    have hst' : StoreAt (g'.Chosen n) p'.lastCommitted p'.store := by
      rw [hp']
      unfold promised
      split
      · exact hst.congr rfl rfl
      · exact hst
    have hf' : p'.firstCommitted = p'.store.firstCommitted := by
      rw [hp']
      unfold promised
      split <;> exact hs.first
    subst hl'
    refine ⟨?_, fun hpn => ?_⟩
    · obtain ⟨lo, hlo, _⟩ := lastMsg_carries hC c (s.mon x).acceptedPn hst' hf'
      exact ⟨lo, hlo, by omega⟩
    · rcases hacc with ⟨ha, -⟩ | ⟨hlt, ha, -⟩
      · -- a peer that already has the number has no COLLECT to answer
        have hold : (s.mon x).acceptedPn = (s.mon l).acceptedPn :=
          ha.symm.trans (hlpn.symm.trans hpn)
        exact absurd hce (((h.core.pair l hlM hrole x hxM hne).promised (.inl hold)).2 c hmem hcop)
      · subst hp'
        exact lastMsg_vote hC hs (h.votes.mon x hx) h.votes.props.pos hst
          (ha.symm.trans (hlpn.symm.trans hpn)) hlt (hok l c rfl hcop hcepoch hpeon hlt) hle
  | collect _ _ _ _ _ _ _ _ _ _ hout =>
    rcases List.mem_append.1 hm with hm | hm
    · exact absurd hop (hout l m hm).1.op_ne.2
    · obtain ⟨-, rfl⟩ := mem_broadcast hm
      simp [collectMsg] at hop
  | count _ _ _ _ _ _ hout => exact absurd hop (hout l m hm).op_ne.2

/-- The actor as the peer of another leader. -/
theorem Agreed.peer_pair (hl : l < n) (hrole : (s.mon l).role = .leader) (hne : x ≠ l) :
    PairVote n g' l x (x ∈ R l) (s.mon l) p' (s'.net l x) (s.net x l ++ msgsTo l out) := by
  obtain ⟨hx, hmove, heff, hafter, hok⟩ := id hst
  have hxM := mem_range.2 hx
  have hgrows := hafter.grows
  have hbase : PairVote n g' l x (x ∈ R l) (s.mon l) p' (s'.net l x) (s.net x l) := by
    refine (h.votes.pair l hl hrole x hx hne).frame hgrows rfl rfl le_rfl
      (hmove.promise_le (h.core.base x hxM)) (fun m hm _ _ => (heff.suffix hne.symm).subset hm)
      (fun _ hm _ => hm) .inl ?_ fun _ => le_rfl
    intro hr he ha
    rcases hmove.live hok hr with ⟨_, hor⟩ | hlive | ⟨hr', he', ha', himp⟩
    · -- the number is of an epoch the peer has not been in
      have hprom : (s.mon x).acceptedPn = (s.mon l).acceptedPn ∨
          (s.mon x).store.acceptedPn = (s.mon l).acceptedPn :=
        hor.imp (fun heq => heq.symm.trans ha) fun heq => heq.symm.trans ha
      have := ((h.core.pair l (mem_range.2 hl) hrole x hxM hne).promised hprom).1
      omega
    · exact Or.inl hlive
    · exact Or.inr ⟨hr', he'.trans he, ha'.trans ha, himp⟩
  have hsent := fun m (hm : m ∈ msgsTo l out) => h.last_sent hst hl hrole hne (mem_msgsTo.1 hm)
  refine ⟨hbase.collect, ?_, ?_, hbase.promised, hbase.live⟩
  · intro m hm hop hepoch
    rcases List.mem_append.1 hm with hm | hm
    · exact hbase.carries m hm hop hepoch
    · exact (hsent m hm hop hepoch).1
  · intro m hm hop hepoch hpn
    rcases List.mem_append.1 hm with hm | hm
    · exact hbase.last m hm hop hepoch hpn
    · exact (hsent m hm hop hepoch).2 hpn

end

/-- The proposals after a step. -/
theorem Agreed.props_step (hL : Distinct (range n)) (h : Agreed n R g s)
    (hst : Stepped n R g g' s s' x src p' out)
    (htok' : p'.role = .leader → LeaderTok n (range n) (range n) x
      (countedAfter (R x) src (s.mon x) p') p') : Props n g' s' := by
  obtain ⟨hx, hmove, heff, hafter, -⟩ := id hst
  have hgrows := hafter.grows
  have hmon : ∀ i, promise (s.mon i) ≤ promise (s'.mon i) ∧
      (s.mon i).store.lastPn ≤ (s'.mon i).store.lastPn := by
    intro i
    rw [heff.mon]
    by_cases hi : i = x
    · subst hi
      simpa using ⟨hmove.promise_le (h.core.base i (mem_range.2 hx)), hmove.later.lastPn⟩
    · simp [hi]
  refine ⟨?_, ?_, ?_, ?_⟩
  · intro q v y hy
    rcases hafter.props q v y hy with hold | hnew
    · exact h.votes.props.pos q v y hold
    · exact hnew.pos
  · intro l k v hl hne
    obtain ⟨y, hy⟩ := ne_none_iff_exists'.1 hne
    rcases hafter.props _ v y hy with hold | hnew
    · exact (h.votes.props.fresh l k v hl (by simp [hold])).trans (hmon l).2
    · have htok := htok' hnew.leader
      obtain ⟨_, hk'⟩ := htok.res
      obtain rfl := hL.eq (mem_range.2 hl) htok.mem (hnew.pn.trans hk')
      rw [heff.mon_self, hnew.pn, htok.pn]
  · intro q v y hy
    rcases hafter.props q v y hy with hold | hnew
    · obtain ⟨u, hu, hwf⟩ := h.votes.props.wf q v y hold
      exact ⟨u, hu, hwf.mono hgrows.chosen⟩
    · obtain ⟨u, hu, hwf⟩ := hnew.wf
      exact ⟨u, hu, hwf.mono hgrows.chosen⟩
  · intro q v y hy
    rcases hafter.props q v y hy with hold | hnew
    · obtain ⟨Q, hQ, hprom, hsafe⟩ := h.votes.props.safe q v y hold
      refine ⟨Q, hQ, fun i hi => (hprom i hi).trans (hmon i).1,
        hsafe.mono (fun pn z => hgrows.prop pn v z) ?_⟩
      intro i hi pn hlt hv
      exact hgrows.old hlt (fun hix => hix ▸ hprom i hi) hv
    · have htok := htok' hnew.leader
      refine ⟨p'.quorum, htok.majority, fun i hi => ?_, hnew.safe⟩
      rw [hnew.pn, heff.mon]
      by_cases hix : i = x
      · subst hix
        rw [update_self, htok.pn]
        exact le_max_right _ _
      · rw [update_of_ne hix]
        have hin : i < n := htok.majority.lt hi
        refine (h.leader_pair hst hnew.leader hin hix).promised ?_
        rw [htok.all hnew.going]
        exact mem_erase.2 ⟨hix, hi⟩

/-- The messages after a step. -/
theorem Agreed.msg_step (h : Agreed n R g s) (hst : Stepped n R g g' s s' x src p' out)
    (hends : ∀ k m, (k, m) ∈ out → k < n ∧ k ≠ x) {j i : Nat} {m : MMonPaxos}
    (hm : m ∈ s.net j i ∨ j = x ∧ (i, m) ∈ out) : MsgVote g' j (s'.mon i) m := by
  obtain ⟨_, hmove, heff, hafter, hok⟩ := id hst
  have hgrows := hafter.grows
  rw [heff.mon]
  rcases hm with hm | ⟨rfl, hm⟩
  · refine (h.votes.msg j i m hm).frame hgrows ?_
    intro hop hr he ha
    by_cases hix : i = x
    · subst hix
      rw [update_self] at hr he ha ⊢
      rcases hmove.live hok hr with ⟨hlt, -⟩ | hlive | ⟨hr', he', ha', himp⟩
      · -- only a COLLECT can be of an epoch that the receiver has not seen
        have := (h.core.link j i m hm).early (he ▸ hlt)
        simp [this] at hop
      · exact .inl hlive
      · exact .inr ⟨hr', he'.trans he, ha'.trans ha, himp⟩
    · rw [update_of_ne hix] at hr he ha ⊢
      exact .inr ⟨hr, he, ha, id⟩
  · obtain ⟨hin, hne⟩ := hends i m hm
    rw [update_of_ne hne]
    refine ⟨fun hop => (hafter.begin i m hm hop).2.2.2, fun hop hr he ha => ?_,
      hafter.accept i m hm⟩
    obtain ⟨hl, hepoch, hpn, -⟩ := hafter.begin i m hm hop
    exact (h.leader_pair hst hl hin hne).live hr (he.trans hepoch) (ha.trans hpn)

/-- Every move that keeps promises keeps the voting invariant. -/
theorem Agreed.votes_step (hL : Distinct (range n)) (h : Agreed n R g s)
    (hst : Stepped n R g g' s s' x src p' out) (hcore' : Core n (range n) (range n)
      (Function.update R x (countedAfter (R x) src (s.mon x) p')) s')
    (hnet : ∀ j i m, m ∈ s'.net j i → m ∈ s.net j i ∨ j = x ∧ (i, m) ∈ out)
    (hends : ∀ k m, (k, m) ∈ out → k < n ∧ k ≠ x) :
    Voting n (Function.update R x (countedAfter (R x) src (s.mon x) p')) g' s' := by
  obtain ⟨hx, -, heff, hafter, -⟩ := id hst
  have hxM := mem_range.2 hx
  have hgrows := hafter.grows
  have hself := heff.mon_self
  have hother := fun i (hi : i ≠ x) => heff.mon_ne hi
  have htok' : p'.role = .leader → LeaderTok n (range n) (range n) x
      (countedAfter (R x) src (s.mon x) p') p' := by
    intro hr
    have htok := hcore'.leader x hxM (hself ▸ hr)
    rwa [update_self, hself] at htok
  refine ⟨h.props_step hL hst htok', ?_, ?_, ?_, ?_⟩
  · intro i hi
    by_cases hix : i = x
    · subst hix
      rw [hself]
      exact hafter.vote
    · rw [hother i hix]
      exact (h.votes.mon i hi).frame hgrows hix
  · intro l hl hrole
    by_cases hlx : l = x
    · subst hlx
      rw [hself] at hrole ⊢
      rw [update_self]
      exact hafter.lead hrole
    · rw [hother l hlx] at hrole ⊢
      rw [update_of_ne hlx]
      have hprop : ∀ v, g'.prop (s.mon l).acceptedPn v = g.prop (s.mon l).acceptedPn v := by
        intro v
        rcases hgrows.prop_eq (s.mon l).acceptedPn v with heq | ⟨heq, hr⟩
        · exact heq
        · have htok := h.core.leader l (mem_range.2 hl) hrole
          obtain ⟨_, hk⟩ := htok.res
          obtain ⟨_, hk'⟩ := (htok' hr).res
          exact absurd (hL.eq htok.mem (htok' hr).mem (hk.symm.trans (heq.trans hk'))) hlx
      refine (h.votes.leader l hl hrole).frame hgrows hprop fun hi => ?_
      have hmem : x ∈ R l := (mem_insert.1 hi).resolve_left fun heq => hlx heq.symm
      exact (h.votes.pair l hl hrole x hx fun heq => hlx heq.symm).promised hmem
  · intro l hl hrole i hi hne
    by_cases hlx : l = x
    · subst hlx
      rw [hself] at hrole ⊢
      rw [update_self, hother i hne, heff.sent i hne]
      exact h.leader_pair hst hrole hi hne
    · rw [hother l hlx] at hrole ⊢
      rw [update_of_ne hlx]
      by_cases hix : i = x
      · subst hix
        rw [hself, heff.sent l hlx]
        exact h.peer_pair hst hl hrole hne
      · rw [hother i hix, heff.other l i hlx hix, heff.other i l hix hlx]
        exact (h.votes.pair l hl hrole i hi hne).frame hgrows rfl rfl le_rfl le_rfl
          (fun _ hm _ _ => hm) (fun _ hm _ => hm) .inl (fun hr he ha => .inr ⟨hr, he, ha, id⟩)
          fun heq => absurd heq hix
  · exact fun j i m hm => h.msg_step hst hends (hnet j i m hm)

end Step

/-- Ranks below 100 are told apart by their proposal numbers. -/
theorem distinct_range (hn : n ≤ 100) : Distinct (range n) := by
  intro _ ha _ hb _
  have := mem_range.1 ha
  have := mem_range.1 hb
  omega

theorem remembers_source {a : Action} {inp : Option MMonPaxos} {p' : Monitor} {out : Sends}
    (hok : remembers s a = true) (hstep : Local n (s.mon a.actor) inp a p' out)
    (heff : Effect s s' a.actor (a.source inp) p' out) (hends : ∀ j i m, m ∈ s.net j i → j ≠ i) :
    ∀ j m, a.source inp = some (j, m) → m.op = .collect → m.epoch = (s.mon a.actor).epoch →
      (s.mon a.actor).role = .peon j → (s.mon a.actor).acceptedPn < m.pn →
      (s.mon a.actor).store.lastPn < m.pn := by
  intro j m hsrc
  cases a with
  | deliver k i =>
    cases inp with
    | none => simp [Action.source] at hsrc
    | some c =>
      simp only [Action.source, map_some, some.injEq, Prod.mk.injEq] at hsrc
      obtain ⟨rfl, rfl⟩ := hsrc
      have hnet := heff.head (hends k i c (heff.src_mem k c rfl))
      simp only [remembers, Action.actor] at hok hnet ⊢
      rw [hnet] at hok
      exact of_decide_eq_true hok
  | _ => simp [Action.source] at hsrc

/-- No step of a monitor leads out of the monitors. -/
theorem Local.closed {inp : Option MMonPaxos} {a : Action} {p p' : Monitor} {out : Sends}
    (h : Local n p inp a p' out) (hlt : a.actor < n) : Closed (range n) (range n) a := by
  refine ⟨mem_range.2 hlt, ?_⟩
  rintro i _ _ rfl
  cases h with
  | win _ hmaj | winAlone _ hmaj => exact ⟨mem_range.2 hlt, hmaj.1⟩

/-- Every step that keeps promises keeps the invariant, and what is chosen stays chosen. -/
theorem Agreed.step (hn : 2 ≤ n) (hL : Distinct (range n)) (h : Agreed n R g s) {a : Action}
    (hok : remembers s a = true) (hstep : step n s a = some s') :
    ∃ R' g', Agreed n R' g' s' ∧ ∀ v y, g.Chosen n v y → g'.Chosen n v y := by
  obtain ⟨hlt, inp, p', _, hlocal, heff⟩ := step_effect hstep
  have hxM := mem_range.2 hlt
  obtain ⟨hexp, hcore', hends⟩ := h.core.local_step hn hL (hlocal.closed hlt) hlocal heff
  have hself := heff.mon_self
  have hrounds' := h.rounds.step h.core hxM
    (hlocal.round hn hexp fun hr => (h.core.leader _ hxM hr).card_ne_one hn) heff
  obtain ⟨g', hafter⟩ := (h.before hlt heff).step hn rfl hlocal hexp fun hr => by
    have htok := hcore'.leader _ hxM (hself ▸ hr)
    rwa [update_self, hself] at htok
  have hnet := fun j i m (hm : m ∈ s'.net j i) => heff.origin
    (List.eq_nil_iff_forall_not_mem.2 fun m hm => (hcore'.ends _ _ m hm).2.2 rfl) hm
  have hvotes' := h.votes_step hL ⟨hlt, hlocal.move hn hexp, heff, hafter,
    remembers_source hok hlocal heff fun j i m hm => (h.core.ends j i m hm).2.2⟩ hcore' hnet
    fun k m hm => ⟨mem_range.1 (hends k m hm).1, (hends k m hm).2⟩
  -- the values, over the history that the new votes have made
  have hC := hafter.grows.chosen (n := n)
  have hP : ∀ v y, Proposable (g.Chosen n) v y → Proposable (g'.Chosen n) v y :=
    fun v y hy => hy.mono hC
  have hbase' : MonBase p' := hself ▸ hcore'.base _ hxM
  have hlead' := fun hr => hself ▸ hvotes'.leader _ hlt (by rw [hself]; exact hr)
  have hprop' : p'.role = .leader → ∀ y, p'.newValue = some y →
      g'.prop p'.acceptedPn (p'.lastCommitted + 1) = some y ∧ Proposing p' := by
    intro hr y hy
    have hprop : Proposing p' := by
      have hclear := hbase'.clear hr
      unfold Proposing
      cases hs : p'.state <;> simp_all
    exact ⟨((hlead' hr).proposing hprop).2.2.1 y hy, hprop⟩
  have hinp : ∀ m, inp = some m → MsgHist (g'.Chosen n) (Proposable (g'.Chosen n)) m := by
    intro m hinp
    obtain ⟨j, hj⟩ := hlocal.source hinp
    exact (h.msgs j _ m (heff.src_mem j m hj)).mono hC hP
  have hnew : p'.role = .leader → ∀ y, p'.newValue = some y →
      Proposable (g'.Chosen n) p'.lastCommitted y := by
    intro hr y hy
    obtain ⟨_, hu, hwf⟩ := hvotes'.props.wf _ _ y (hprop' hr y hy).1
    obtain rfl := Nat.succ.inj hu
    exact hwf
  -- a leader that has applied a commit has the votes of its quorum
  have hdone : p'.commit = .applied → ∀ y, p'.newValue = some y →
      g'.Chosen n (p'.lastCommitted + 1) y := by
    intro hc y hy
    obtain ⟨hr, hw⟩ := hbase'.busy (by simp [hc])
    obtain ⟨hprop, hgoing⟩ := hprop' hr y hy
    have htok := hself ▸ hcore'.leader _ hxM (by rw [hself]; exact hr)
    refine ⟨p'.acceptedPn, hprop, p'.quorum, htok.majority, fun i hi => ?_⟩
    have hacc := hrounds'.writing _ hxM (by rw [hself]; exact hr) (by rw [hself]; exact hw)
    rw [hself] at hacc
    exact ((hlead' hr).proposing hgoing).2.2.2 i (hacc ▸ hi)
  obtain ⟨hmon', hmsgs'⟩ := ((h.hist _ hlt).mono hC hP).step hvotes'.props.history
    (h.core.base _ hxM) hlocal hexp hinp hnew hdone
  refine ⟨_, g', ⟨hcore', hrounds', hvotes', fun i hi => ?_, fun j i m hm => ?_⟩, hC⟩
  · exact heff.mon_step (P := fun _ => MonHist (g'.Chosen n) (Proposable (g'.Chosen n))) hmon'
      ((h.hist i hi).mono hC hP)
  · rcases hnet j i m hm with hm | ⟨-, hm⟩
    · exact (h.msgs j i m hm).mono hC hP
    · exact hmsgs' i m hm

theorem MonHist.init {C P : Commits} (i : Nat) : MonHist C P (System.init.mon i) := by
  refine ⟨⟨.zero, fun w _ hw hle => ?_, fun _ _ => rfl, fun _ _ _ => rfl⟩, by simp [System.init],
    by simp [System.init], by simp [System.init], by simp [System.init]⟩
  simp only [System.init] at hle
  omega

theorem Core.init : Core n (range n) (range n) (fun _ => ∅) System.init := by
  refine ⟨?_, ?_, ?_, ?_, ?_, ?_, ?_⟩
  · exact fun i _ => Synced.base_of_role ⟨rfl, rfl, rfl, le_rfl⟩ (by simp [System.init])
  · simp [System.init]
  · simp [System.init]
  · simp [System.init]
  · exact fun l _ i _ => ⟨fun k _ => le_rfl, fun k _ => le_rfl⟩
  · simp [System.init]
  · simp [System.init]

theorem Agreed.init : Agreed n (fun _ => ∅) ⟨fun _ _ => none, fun _ _ _ => False⟩ System.init := by
  refine ⟨Core.init, ⟨?_, ?_⟩, ⟨⟨?_, ?_, ?_, ?_⟩, ?_, ?_, ?_, ?_⟩, ?_, ?_⟩
  · simp [System.init]
  · simp [System.init]
  · simp
  · simp
  · simp
  · simp
  · exact fun i _ => ⟨by simp, by simp, by simp [System.init]⟩
  · simp [System.init]
  · simp [System.init]
  · simp [System.init]
  · exact fun i _ => .init i
  · simp [System.init]

/-- The invariant along whole runs. -/
theorem agreed_of_run (hn : 2 ≤ n) (hL : n ≤ 100)
    (h : Run (step n) (fun s a => remembers s a = true) System.init s) : ∃ R g, Agreed n R g s := by
  refine @Run.invariant _ _ _ _ _ _ (fun s => ∃ R g, Agreed n R g s) h ⟨_, _, Agreed.init⟩ ?_
  rintro s a _ ⟨R, g, hs⟩ hok hstep
  obtain ⟨R', g', hs', -⟩ := hs.step hn (distinct_range hL) hok hstep
  exact ⟨R', g', hs'⟩

/-- What a monitor has committed is part of the history of chosen values. -/
theorem Agreed.committed (h : Agreed n R g s) {i v : Nat} {x : Tx} (hi : i < n) (hv : 1 ≤ v)
    (hle : v ≤ (s.mon i).store.lastCommitted) (hx : (s.mon i).store.values v = some x) :
    g.Chosen n v x := by
  have hst := (h.hist i hi).store
  have hfirst : (s.mon i).store.firstCommitted ≤ v := by
    by_contra hlt
    have := hst.below v hv (not_le.1 hlt)
    simp [hx] at this
  obtain ⟨y, hy, hCy⟩ := hst.held v hfirst hv hle
  obtain rfl : y = x := some.inj (hy.symm.trans hx)
  exact hCy

/-! ## The result -/

/-- Agreement, for at most 100 monitors that never accept a proposal number below
one they have handed out themselves: two monitors that have both committed a
version hold the same value for it. -/
theorem committed_values_agree {i j v : Nat} {x y : Tx} (hn : n ≤ 100)
    (hrun : Run (step n) (fun s a => remembers s a = true) System.init s) (hi : i < n) (hj : j < n)
    (hv : 1 ≤ v) (hvi : v ≤ (s.mon i).store.lastCommitted)
    (hvj : v ≤ (s.mon j).store.lastCommitted) (hx : (s.mon i).store.values v = some x)
    (hy : (s.mon j).store.values v = some y) : SameValue v x y := by
  by_cases hone : 2 ≤ n
  · obtain ⟨_, _, h⟩ := agreed_of_run hone hn hrun
    exact h.votes.props.history.same v x y (h.committed hi hv hvi hx) (h.committed hj hv hvj hy)
  · obtain rfl : i = j := by omega
    obtain rfl : x = y := some.inj (hx.symm.trans hy)
    exact (sameValue_equivalence v).refl x

/-- Three monitors elect the first and commit one value everywhere. -/
def oneCommit : List Action :=
  [.win 0 2 {0, 1, 2}, .lose 1 2 0 {0, 1, 2}, .lose 2 2 0 {0, 1, 2}, .deliver 0 1, .deliver 0 2,
    .deliver 1 0, .deliver 2 0, .propose 0 7 none, .deliver 0 1, .deliver 0 2, .deliver 1 0,
    .deliver 2 0, .commitApply 0, .commitFinish 0, .deliver 0 1, .deliver 0 2]

theorem committed_values_agree_oneCommit :
    ∃ s x y, Run (step 3) (fun s a => remembers s a = true) System.init s ∧
      (s.mon 0).store.values 1 = some x ∧ (s.mon 1).store.values 1 = some y ∧ SameValue 1 x y := by
  have hview : (execOk (step 3) remembers System.init oneCommit).map (fun s =>
      ((s.mon 0).store.lastCommitted, (s.mon 0).store.values 1, (s.mon 1).store.lastCommitted,
        (s.mon 1).store.values 1)) =
      some (1, some [.putFirstCommitted 1, .service 7], 1,
        some [.putFirstCommitted 1, .service 7]) := by decide +kernel
  obtain ⟨s, hs, hv⟩ := map_eq_some_iff.1 hview
  simp only [Prod.mk.injEq] at hv
  obtain ⟨h0, hx, h1, hy⟩ := hv
  have hrun := execOk_run hs
  exact ⟨s, _, _, hrun, hx, hy, committed_values_agree (by decide) hrun
    (by decide) (by decide) (le_refl 1) h0.ge h1.ge hx hy⟩

/-- Monitor `i` has committed `x` as version `v` and not trimmed it. -/
def Holds (s : System) (i v : Nat) (x : Tx) : Prop :=
  1 ≤ v ∧ v ≤ (s.mon i).store.lastCommitted ∧ (s.mon i).store.values v = some x

/-- Commits are durable.  Whatever happens next, crashes and elections included,
`last_committed` of a monitor never goes back, and no monitor ever commits another
value for a version that one of them has committed. -/
theorem committed_values_durable {t : System} {i j v : Nat} {x y : Tx} (htwo : 2 ≤ n) (hn : n ≤ 100)
    (hs : Run (step n) (fun s a => remembers s a = true) System.init s)
    (ht : Run (step n) (fun s a => remembers s a = true) s t) (hi : i < n) (hj : j < n) :
    (s.mon i).store.lastCommitted ≤ (t.mon i).store.lastCommitted ∧
      (Holds s i v x → Holds t j v y → SameValue v x y) := by
  obtain ⟨R, g, h⟩ := agreed_of_run htwo hn hs
  obtain ⟨⟨_, g', h', hkept⟩, hmono⟩ :
      (∃ R g', Agreed n R g' t ∧ ∀ v x, g.Chosen n v x → g'.Chosen n v x) ∧
        (s.mon i).store.lastCommitted ≤ (t.mon i).store.lastCommitted := by
    induction ht with
    | refl => exact ⟨⟨R, g, h, fun _ _ => id⟩, le_rfl⟩
    | @tail t _ _ _ hok hstep ih =>
      obtain ⟨⟨_, _, h, hkept⟩, hmono⟩ := ih
      obtain ⟨R', g', h', hgrows⟩ := h.step htwo (distinct_range hn) hok hstep
      obtain ⟨hlt, _, _, _, hlocal, heff⟩ := step_effect hstep
      refine ⟨⟨R', g', h', fun v x hx => hgrows v x (hkept v x hx)⟩,
        hmono.trans (heff.mon_step (P := fun i p =>
          (t.mon i).store.lastCommitted ≤ p.store.lastCommitted) ?_ le_rfl)⟩
      refine (h.hist _ hlt).lastCommitted_step h.votes.props.history
        (h.core.base _ (mem_range.2 hlt)) hlocal
        (h.core.expected_step (distinct_range hn) hlocal heff) fun m hm => ?_
      obtain ⟨k, hk⟩ := hlocal.source hm
      exact h.msgs k _ m (heff.src_mem k m hk)
  refine ⟨hmono, fun ⟨hv, hle, hval⟩ ⟨_, hle', hval'⟩ => ?_⟩
  exact h'.votes.props.history.same v x y (hkept v x (h.committed hi hv hle hval))
    (h'.committed hj hv hle' hval')

/-- The first leader crashes after its commit; the other two elect the second, which
commits one more version. -/
theorem committed_values_durable_reelected :
    ∃ s t x y, Run (step 3) (fun s a => remembers s a = true) s t ∧
      (s.mon 2).store.lastCommitted = 1 ∧ (t.mon 2).store.lastCommitted = 2 ∧
      (s.mon 2).store.lastCommitted ≤ (t.mon 2).store.lastCommitted ∧
      Holds s 2 1 x ∧ Holds t 1 1 y ∧ SameValue 1 x y := by
  let view (s : System) (i : Nat) := ((s.mon i).store.lastCommitted, (s.mon i).store.values 1)
  have hview : (execOk (step 3) remembers System.init oneCommit).bind (fun s =>
      (execOk (step 3) remembers s
        [.crash 0, .win 1 4 {1, 2}, .lose 2 4 1 {1, 2}, .deliver 1 2, .deliver 2 1,
          .propose 1 8 none, .deliver 1 2, .deliver 2 1, .commitApply 1, .commitFinish 1,
          .deliver 1 2]).map fun t => (view s 2, view t 1, (t.mon 2).store.lastCommitted)) =
      let first : Tx := [.putFirstCommitted 1, .service 7]
      some ((1, some first), (2, some first), 2) := by decide +kernel
  obtain ⟨s, hs, hmap⟩ := bind_eq_some_iff.1 hview
  obtain ⟨t, ht, hv⟩ := map_eq_some_iff.1 hmap
  simp only [view, Prod.mk.injEq] at hv
  obtain ⟨⟨hlc, hx⟩, ⟨hlc', hy⟩, hlater⟩ := hv
  have hx : Holds s 2 1 _ := ⟨le_rfl, hlc.ge, hx⟩
  have hy : Holds t 1 1 _ := ⟨le_rfl, by omega, hy⟩
  obtain ⟨hmono, hsame⟩ := committed_values_durable (i := 2) (j := 1) (by decide) (by decide)
    (execOk_run hs) (execOk_run ht) (by decide) (by decide)
  exact ⟨s, t, _, _, execOk_run ht, hlc, hlater, hmono, hx, hy, hsame hx hy⟩

/-! ## Proposal numbers -/

theorem core_of_run (htwo : 2 ≤ n) (hn : n ≤ 100) (hrun : Reaches (step n) System.init s) :
    ∃ R, Core n (range n) (range n) R s := by
  induction hrun with
  | refl => exact ⟨_, Core.init⟩
  | tail _ _ hstep ih =>
    obtain ⟨_, h⟩ := ih
    obtain ⟨hlt, _, _, _, hlocal, heff⟩ := step_effect hstep
    exact ⟨_, (h.local_step htwo (distinct_range hn) (hlocal.closed hlt) hlocal heff).2.1⟩

/-- Proposal numbers are never shared, along every run.  No other leader works under the number
of a leader, no message of another monitor carries it, and no monitor has accepted a later
number of the leader, not even from before a restart. -/
theorem proposal_number_unique {l : Nat} (htwo : 2 ≤ n) (hn : n ≤ 100)
    (hrun : Reaches (step n) System.init s) (hl : l < n) (hrole : (s.mon l).role = .leader) :
    (∀ i < n, (s.mon i).role = .leader → (s.mon i).acceptedPn = (s.mon l).acceptedPn → i = l) ∧
    (∀ j i m, m ∈ s.net j i → m.op = .collect ∨ m.op = .begin →
      m.pn = (s.mon l).acceptedPn → j = l) ∧
    ∀ i < n, ∀ k, (s.mon i).acceptedPn = 100 * k + l →
      (s.mon i).acceptedPn ≤ (s.mon l).acceptedPn := by
  obtain ⟨_, h⟩ := core_of_run htwo hn hrun
  have htok := h.leader l (mem_range.2 hl) hrole
  obtain ⟨k, hk⟩ := htok.res
  refine ⟨fun i hi hr heq => ?_, fun j i m hm hop heq => ?_, fun i hi k hik => ?_⟩
  · obtain ⟨k', hk'⟩ := (h.leader i (mem_range.2 hi) hr).res
    omega
  · obtain ⟨hj, k', hk'⟩ := (h.link j i m hm).pn hop
    have := mem_range.1 hj
    omega
  · exact htok.pn ▸ (h.fresh l htok.mem i (mem_range.2 hi)).mem k hik

/-- Two monitors lead at once, in different epochs. -/
theorem proposal_number_unique_two_leaders :
    ∃ s, Reaches (step 3) System.init s ∧ (s.mon 0).role = .leader ∧ (s.mon 1).role = .leader ∧
      (s.mon 1).acceptedPn ≠ (s.mon 0).acceptedPn := by
  have hview : (exec (step 3) System.init [.win 0 2 {0, 1, 2}, .win 1 4 {0, 1, 2}]).map
      (fun s => ((s.mon 0).role, (s.mon 1).role)) = some (.leader, .leader) := by decide +kernel
  obtain ⟨s, hs, hv⟩ := map_eq_some_iff.1 hview
  obtain ⟨h0, h1⟩ := Prod.mk.inj hv
  have hunique := proposal_number_unique (by decide) (by decide) (exec_reaches hs) (by decide) h0
  exact ⟨s, exec_reaches hs, h0, h1, fun heq => nomatch hunique.1 1 (by decide) h1 heq⟩

/-! ## What goes wrong without the condition -/

/-- Five monitors.  Monitors 1 and 2 lead in turn, each with a proposal of its own
under way as it restarts, and then accept the lower number of monitor 0: the
value of monitor 2 is voted for again under a number below the one it came from.
Monitor 0 commits the value of monitor 1, and a later majority commits that of
monitor 2. -/
def forgottenPromises : List Action :=
  [.win 1 2 {1, 3, 4}, .lose 3 2 1 {1, 3, 4}, .lose 4 2 1 {1, 3, 4}, .deliver 1 3, .deliver 1 4,
    .deliver 3 1, .deliver 4 1, .propose 1 11 none, .crash 1,
    .win 2 4 {2, 3, 4}, .win 2 6 {2, 3, 4}, .lose 3 6 2 {2, 3, 4}, .lose 4 6 2 {2, 3, 4},
    .deliver 2 3, .deliver 2 4, .deliver 2 3, .deliver 2 4, .deliver 3 2, .deliver 4 2,
    .propose 2 22 none, .deliver 2 3, .deliver 2 4, .crash 2,
    .win 0 8 {0, 1, 2}, .lose 1 8 0 {0, 1, 2}, .lose 2 8 0 {0, 1, 2}, .deliver 0 1, .deliver 0 2,
    .deliver 1 0, .deliver 2 0, .deliver 0 2,
    .win 0 10 {0, 1, 2}, .lose 1 10 0 {0, 1, 2}, .lose 2 10 0 {0, 1, 2}, .deliver 0 1,
    .deliver 0 1, .deliver 0 2, .deliver 1 0, .deliver 2 0, .deliver 2 0, .deliver 0 1,
    .deliver 0 2, .deliver 1 0, .deliver 2 0, .commitApply 0, .commitFinish 0,
    .win 1 12 {1, 3, 4}, .lose 3 12 1 {1, 3, 4}, .lose 4 12 1 {1, 3, 4}, .deliver 1 3,
    .deliver 1 3, .deliver 1 4, .deliver 1 4, .deliver 3 1, .deliver 4 1, .deliver 1 3,
    .deliver 1 4, .deliver 3 1, .deliver 4 1, .commitApply 1, .commitFinish 1]

/-- Two monitors have committed different values for version 1. -/
theorem forgottenPromises_disagree :
    ∃ s x y, Reaches (step 5) System.init s ∧ (s.mon 0).store.lastCommitted = 1 ∧
      (s.mon 1).store.lastCommitted = 1 ∧ (s.mon 0).store.values 1 = some x ∧
      (s.mon 1).store.values 1 = some y ∧ ¬ SameValue 1 x y := by
  have hview : (exec (step 5) System.init forgottenPromises).map (fun s =>
      ((s.mon 0).store.lastCommitted, (s.mon 1).store.lastCommitted, (s.mon 0).store.values 1,
        (s.mon 1).store.values 1)) =
      some (1, 1, some [.putFirstCommitted 1, .putFirstCommitted 1, .service 11],
        some [.putFirstCommitted 1, .putFirstCommitted 1, .service 22]) := by decide +kernel
  obtain ⟨s, hs, hv⟩ := map_eq_some_iff.1 hview
  simp only [Prod.mk.injEq] at hv
  obtain ⟨h0, h1, hx, hy⟩ := hv
  refine ⟨s, _, _, exec_reaches hs, h0, h1, hx, hy, ?_⟩
  simp [SameValue, undress]

end Ceph.Mon.Paxos
