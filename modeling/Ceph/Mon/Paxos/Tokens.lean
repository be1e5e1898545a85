import Ceph.Mon.Paxos.Moves

set_option autoImplicit false

/-!
# Who has answered whom

A leader counts the answers to its COLLECT without looking at who sent them.
The invariant of this module says why the count is right: over FIFO links each
member of the quorum has at most one answer with the current proposal number
under way, and none once it has been counted.  It is stated for a set `M` of
monitors that only talk among themselves and a set `L` of those that may lead;
the ranks in `L` differ modulo 100, so that a proposal number tells its leader.
-/

namespace Ceph.Mon.Paxos

open Ceph.Lib List Function

variable {n : Nat} {M L : Finset Nat} {R : Nat → Finset Nat}

/-! ## Messages -/

/-- The monitor is no peon in epoch `e`, and will not become one. -/
def NotPeon (p : Monitor) (e : Nat) : Prop := e < p.epoch ∨ e = p.epoch ∧ ∀ l, p.role ≠ .peon l

/-- How a monitor may have changed since a message was sent. -/
structure Later (p p' : Monitor) : Prop where
  epoch : p.epoch ≤ p'.epoch
  role : p'.epoch = p.epoch → p'.role = p.role ∨ p'.role = .electing
  lastPn : p.store.lastPn ≤ p'.store.lastPn

theorem Later.refl (p : Monitor) : Later p p := ⟨le_rfl, fun _ => .inl rfl, le_rfl⟩

theorem NotPeon.later {p p' : Monitor} {e : Nat} (h : NotPeon p e) (hl : Later p p') :
    NotPeon p' e := by
  rcases h with h | ⟨rfl, h⟩
  · exact .inl (lt_of_lt_of_le h hl.epoch)
  · rcases lt_or_eq_of_le hl.epoch with hlt | heq
    · exact .inl hlt
    · refine .inr ⟨heq, fun l hrole => ?_⟩
      rcases hl.role heq.symm with hr | hr
      · exact h l (hr ▸ hrole)
      · simp [hr] at hrole

/-- What a message from `j` to `i` says about its two ends. -/
structure LinkMsg (L : Finset Nat) (j i : Nat) (pj pi : Monitor) (m : MMonPaxos) : Prop where
  sent : m.epoch ≤ pj.epoch
  early : pi.epoch < m.epoch → m.op = .collect
  down : m.op = .collect ∨ m.op = .begin ∨ m.op = .commit → NotPeon pj m.epoch
  up : m.op = .last ∨ m.op = .accept → NotPeon pi m.epoch
  pn : m.op = .collect ∨ m.op = .begin → j ∈ L ∧ ∃ k, m.pn = 100 * k + j
  collectFresh : m.op = .collect → m.pn ≤ pj.store.lastPn
  lastFresh : m.op = .last → ∀ k, m.pn = 100 * k + i → m.pn ≤ pi.store.lastPn

variable {j l k : Nat} {m : MMonPaxos}

theorem LinkMsg.later {i : Nat} {pj pj' pi pi' : Monitor} (h : LinkMsg L j i pj pi m)
    (hj : Later pj pj') (hi : Later pi pi') : LinkMsg L j i pj' pi' m where
  sent := h.sent.trans hj.epoch
  early hlt := h.early (lt_of_le_of_lt hi.epoch hlt)
  down hop := (h.down hop).later hj
  up hop := (h.up hop).later hi
  pn := h.pn
  collectFresh hop := (h.collectFresh hop).trans hj.lastPn
  lastFresh hop k hk := (h.lastFresh hop k hk).trans hi.lastPn

/-- An answer to a monitor that is no peon in its epoch. -/
theorem NotPeon.linkMsg {i : Nat} {pj pi : Monitor} (h : NotPeon pi m.epoch)
    (hop : m.op = .last ∨ m.op = .accept) (hsent : m.epoch ≤ pj.epoch)
    (hfresh : m.op = .last → ∀ k, m.pn = 100 * k + i → m.pn ≤ pi.store.lastPn) :
    LinkMsg L j i pj pi m := by
  refine ⟨hsent, fun hlt => ?_, ?_, fun _ => h, ?_, ?_, hfresh⟩
  · rcases h with _ | ⟨_, -⟩ <;> omega
  all_goals rcases hop with hop | hop <;> simp [hop]

/-- COLLECTs go out with increasing proposal numbers. -/
def CollectLt (m m' : MMonPaxos) : Prop := m.op = .collect → m'.op = .collect → m.pn < m'.pn

/-- No number of leader `l` is known that `l` has not handed out. -/
structure Fresh (l : Nat) (pl pi : Monitor) : Prop where
  mem : ∀ k, pi.acceptedPn = 100 * k + l → pi.acceptedPn ≤ pl.store.lastPn
  store : ∀ k, pi.store.acceptedPn = 100 * k + l → pi.store.acceptedPn ≤ pl.store.lastPn

/-! ## A leader and its quorum -/

/-- A leader, and the set `R` of peers it has counted. -/
structure LeaderTok (n : Nat) (M L : Finset Nat) (l : Nat) (R : Finset Nat) (p : Monitor) :
    Prop where
  mem : l ∈ L
  majority : Majority n p.quorum
  self : l ∈ p.quorum
  quorum : p.quorum ⊆ M
  pn : p.acceptedPn = p.store.lastPn
  res : ∃ k, p.acceptedPn = 100 * k + l
  subset : R ⊆ p.quorum.erase l
  num : p.numLast = R.card + 1
  heard : ∀ k, p.peerLastCommitted k ≠ none → k ∈ p.quorum ∧ k ≠ l
  all : p.state ≠ .recovering → R = p.quorum.erase l

/-- Among two or more monitors a leader is not alone in its quorum. -/
theorem LeaderTok.card_ne_one {S : Finset Nat} {p : Monitor} (h : LeaderTok n M L l S p)
    (hn : 2 ≤ n) : p.quorum.card ≠ 1 := by
  have := h.majority.2
  omega

/-- A leader `p` and a peer `q`, with the messages `D` to the peer and `U` back. -/
structure PairTok (i : Nat) (counted : Prop) (p q : Monitor) (D U : List MMonPaxos) : Prop where
  mint : ∀ m ∈ D, m.op = .collect → m.pn = p.acceptedPn → m.epoch = p.epoch
  promised : q.acceptedPn = p.acceptedPn ∨ q.store.acceptedPn = p.acceptedPn →
    p.epoch ≤ q.epoch ∧ ∀ m ∈ D, m.op = .collect → m.epoch ≠ p.epoch
  answered : ∀ m ∈ U, m.op = .last → m.epoch = p.epoch → m.pn = p.acceptedPn →
    ∀ m' ∈ D, m'.op = .collect → m'.epoch ≠ p.epoch
  final : U.Pairwise fun m m' => m.op = .last → m.epoch = p.epoch → m.pn = p.acceptedPn →
    m'.op = .last → m'.epoch ≠ p.epoch
  done : counted → p.epoch ≤ q.epoch ∧ (∀ m ∈ D, m.op = .collect → m.epoch ≠ p.epoch) ∧
    ∀ m ∈ U, m.op = .last → m.epoch ≠ p.epoch
  memDown : ∀ m ∈ D, m.op = .collect → m.epoch = p.epoch → i ∈ p.quorum
  memUp : ∀ m ∈ U, m.op = .last → m.epoch = p.epoch → i ∈ p.quorum
  heard : p.peerLastCommitted i ≠ none → p.epoch ≤ q.epoch

/-- The invariant of the proposal-number protocol. -/
structure Core (n : Nat) (M L : Finset Nat) (R : Nat → Finset Nat) (s : System) : Prop where
  base : ∀ i ∈ M, MonBase (s.mon i)
  ends : ∀ j i m, m ∈ s.net j i → j ∈ M ∧ i ∈ M ∧ j ≠ i
  link : ∀ j i m, m ∈ s.net j i → LinkMsg L j i (s.mon j) (s.mon i) m
  sorted : ∀ j i, (s.net j i).Pairwise CollectLt
  fresh : ∀ l ∈ L, ∀ i ∈ M, Fresh l (s.mon l) (s.mon i)
  leader : ∀ l ∈ M, (s.mon l).role = .leader → LeaderTok n M L l (R l) (s.mon l)
  pair : ∀ l ∈ M, (s.mon l).role = .leader → ∀ i ∈ M, i ≠ l →
    PairTok i (i ∈ R l) (s.mon l) (s.mon i) (s.net l i) (s.net i l)

/-- Ranks in `L` can be told from their proposal numbers. -/
def Distinct (L : Finset Nat) : Prop := ∀ a ∈ L, ∀ b ∈ L, a % 100 = b % 100 → a = b

theorem Distinct.eq (h : Distinct L) {a b k' : Nat} (ha : a ∈ L) (hb : b ∈ L)
    (heq : 100 * k + a = 100 * k' + b) : a = b := h a ha b hb (by omega)

/-- A monitor receives only what it can handle. -/
theorem Core.expected {s : System} {x : Nat} (hL : Distinct L) (h : Core n M L R s)
    (hm : m ∈ s.net j x) : Expected (s.mon x) (some m) := by
  obtain ⟨hj, hx, hne⟩ := h.ends j x m hm
  have hlink := h.link j x m hm
  refine ⟨?_, ?_, ?_⟩
  · rintro m' ⟨⟩ ⟨hop, hepoch, hrole⟩
    by_contra hrec
    have htok := h.leader x hx hrole
    have hpair := h.pair x hx hrole j hj hne
    have hR : j ∈ R x := by
      rw [htok.all hrec]
      exact Finset.mem_erase.2 ⟨hne, hpair.memUp m hm hop hepoch⟩
    exact (hpair.done hR).2.2 m hm hop hepoch
  · rintro m' ⟨⟩ hop hepoch hpn hrole
    obtain ⟨hjL, _, hk⟩ := hlink.pn (.inr hop)
    have htok := h.leader x hx hrole
    obtain ⟨_, hk'⟩ := htok.res
    exact hne (hL.eq hjL htok.mem (hk.symm.trans (hpn.trans hk')))
  · rintro m' ⟨⟩ hop hepoch l hrole
    rcases hlink.up (.inr hop) with _ | ⟨-, hnot⟩
    · omega
    · exact hnot l hrole

/-! ## What a move changes -/

section Moves

variable {i : Nat} {p p' q q' : Monitor} {D D' U U' : List MMonPaxos}
  {src : Source} {out : Sends}

theorem SameView.later (h : SameView p p') : Later p p' :=
  ⟨le_of_eq h.epoch.symm, fun _ => .inl h.role, le_of_eq h.lastPn.symm⟩

theorem Move.later (h : Move n i p src p' out) : Later p p' := by
  cases h with
  | quiet hview => exact hview.later
  | depose _ hepoch hsame _ _ hlast =>
    exact ⟨hepoch, fun he => .inr (hsame he), le_of_eq hlast.symm⟩
  | promise _ _ _ _ _ _ hepoch' hrole' hlast =>
    exact ⟨le_of_eq hepoch'.symm, fun _ => .inl hrole', le_of_eq hlast.symm⟩
  | collect hnew hrole _ _ _ _ hpn hgt =>
    refine ⟨?_, fun he => ?_, le_of_lt (hpn ▸ hgt)⟩
    · rcases hnew with ⟨hlt, -⟩ | ⟨-, he, -⟩
      · exact hlt.le
      · exact le_of_eq he.symm
    · rcases hnew with ⟨hlt, -⟩ | ⟨hr, -, -⟩
      · omega
      · exact .inl (hrole.trans hr.symm)
  | count _ _ hview => exact hview.later

variable {m : MMonPaxos}

theorem Plain.op_ne (h : Plain i p src p' k m) : m.op ≠ .collect ∧ m.op ≠ .last := by
  rcases h.kind with ⟨hop, -⟩ | ⟨-, ⟨hop, -⟩ | hop, -⟩ <;> simp [hop]

/-- The COLLECTs among the messages of a move: one for each member of the quorum,
from a leader that has just taken a new number. -/
theorem Move.collects (h : Move n i p src p' out) (hm : (k, m) ∈ out)
    (hop : m.op = .collect) : m = collectMsg p' ∧ p.store.lastPn < p'.acceptedPn := by
  cases h with
  | quiet _ _ _ _ hout | depose _ _ _ _ _ _ hout => exact absurd hop (hout k m hm).op_ne.1
  | promise _ _ _ hlop => simp [(mem_reply hm).2, hlop] at hop
  | collect _ _ _ _ _ _ _ hgt _ _ hout =>
    rcases mem_append.1 hm with hm | hm
    · exact absurd hop (hout k m hm).1.op_ne.1
    · exact ⟨(mem_broadcast hm).2, hgt⟩
  | count _ _ _ _ _ _ hout => exact absurd hop (hout k m hm).op_ne.1

theorem others_nodup (i : Nat) (Q : Finset Nat) : (others n i Q).Nodup := nodup_range.filter _

/-- No two COLLECTs of a move go to the same monitor. -/
theorem Move.sorted (h : Move n i p src p' out) (k : Nat) : (msgsTo k out).Pairwise CollectLt := by
  have hall : out.Pairwise fun a b => a.1 = b.1 → CollectLt a.2 b.2 := by
    have hnone : ∀ l : Sends, (∀ k m, (k, m) ∈ l → m.op ≠ .collect) →
        l.Pairwise fun a b => a.1 = b.1 → CollectLt a.2 b.2 := by
      exact fun l hl => pairwise_of_forall_mem_list fun a ha b _ _ hop =>
        absurd hop (hl a.1 a.2 ha)
    cases h with
    | quiet _ _ _ _ hout => exact hnone _ fun k m hm => (hout k m hm).op_ne.1
    | depose _ _ _ _ _ _ hout
    | count _ _ _ _ _ _ hout => exact hnone _ fun k m hm => (hout k m hm).op_ne.1
    | promise => simp
    | collect _ _ _ _ _ _ _ _ _ _ hout =>
      refine pairwise_append.2 ⟨hnone _ fun k m hm => (hout k m hm).1.op_ne.1, ?_, ?_⟩
      · refine pairwise_map.2 ((others_nodup i p'.quorum).imp ?_)
        intro a b hne heq
        exact absurd heq hne
      · intro a ha b _ _ hop
        exact absurd hop (hout a.1 a.2 ha).1.op_ne.1
  refine pairwise_map.2 ((hall.filter _).imp_of_mem ?_)
  intro a b ha hb hab
  simp only [mem_filter, decide_eq_true_eq] at ha hb
  exact hab (ha.2.trans hb.2.symm)

/-! ## Pairs of a leader and a peer -/

theorem mem_left_of_op {o : PaxosOp} (hU : ∀ m ∈ U, m.op ≠ o) (hm : m ∈ D ++ U) (hop : m.op = o) :
    m ∈ D := (mem_append.1 hm).resolve_right fun h => hU m h hop

variable {c : Prop}

/-- Nothing that matters for the pair has happened. -/
theorem PairTok.mono {c' : Prop} (h : PairTok i c p q D U) (hc : c' → c) (hp : SameView p p')
    (hheard : p'.peerLastCommitted i ≠ none → p.peerLastCommitted i ≠ none ∨ p.epoch ≤ q'.epoch)
    (hq : q.epoch ≤ q'.epoch)
    (hacc : q'.acceptedPn = p.acceptedPn ∨ q'.store.acceptedPn = p.acceptedPn →
      q.acceptedPn = p.acceptedPn ∨ q.store.acceptedPn = p.acceptedPn)
    (hD : ∀ m ∈ D', m.op = .collect → m ∈ D)
    (hU : ∃ U₁ V, U' = U₁ ++ V ∧ U₁.Sublist U ∧ ∀ m ∈ V, m.op ≠ .last) :
    PairTok i c' p' q' D' U' := by
  obtain ⟨U₁, V, rfl, hsub, hV⟩ := hU
  have hmemU : ∀ m ∈ U₁ ++ V, m.op = .last → m ∈ U := fun m hm hop =>
    hsub.subset (mem_left_of_op hV hm hop)
  obtain ⟨he, _, hQ, ha, -, -⟩ := hp
  refine ⟨?_, ?_, ?_, ?_, ?_, ?_, ?_, ?_⟩ <;> rw [he]
  · intro m hm hop hpn
    exact h.mint m (hD m hm hop) hop (hpn.trans ha)
  · intro hacc'
    rw [ha] at hacc'
    obtain ⟨hle, hnone⟩ := h.promised (hacc hacc')
    exact ⟨hle.trans hq, fun m hm hop => hnone m (hD m hm hop) hop⟩
  · intro m hm hop hepoch hpn m' hm' hop'
    exact h.answered m (hmemU m hm hop) hop hepoch (hpn.trans ha) m' (hD m' hm' hop') hop'
  · rw [ha]
    refine pairwise_append.2 ⟨h.final.sublist hsub, ?_, ?_⟩
    · exact pairwise_of_forall_mem_list fun m hm m' _ hop => absurd hop (hV m hm)
    · intro m _ m' hm' _ _ _ hop'
      exact absurd hop' (hV m' hm')
  · intro hc'
    obtain ⟨hle, hnone, hnone'⟩ := h.done (hc hc')
    exact ⟨hle.trans hq, fun m hm hop => hnone m (hD m hm hop) hop,
      fun m hm hop => hnone' m (hmemU m hm hop) hop⟩
  · intro m hm hop hepoch
    exact hQ ▸ h.memDown m (hD m hm hop) hop hepoch
  · intro m hm hop hepoch
    exact hQ ▸ h.memUp m (hmemU m hm hop) hop hepoch
  · intro hne
    rcases hheard hne with hne | hle
    · exact (h.heard hne).trans hq
    · exact hle

/-- A leader with a number that nobody has seen sends its COLLECT. -/
theorem PairTok.collecting (hD : ∀ m ∈ D, m.op = .collect → m.pn ≠ p'.acceptedPn)
    (hU : ∀ m ∈ U, m.op = .last → m.pn ≠ p'.acceptedPn)
    (hq : q.acceptedPn ≠ p'.acceptedPn ∧ q.store.acceptedPn ≠ p'.acceptedPn)
    (hmemD : ∀ m ∈ D, m.op = .collect → m.epoch = p'.epoch → i ∈ p'.quorum)
    (hmemU : ∀ m ∈ U, m.op = .last → m.epoch = p'.epoch → i ∈ p'.quorum)
    (hheard : p'.peerLastCommitted i = none) {V : List MMonPaxos}
    (hV : ∀ m ∈ V, m.op = .collect → m = collectMsg p' ∧ i ∈ p'.quorum) :
    PairTok i False p' q (D ++ V) U where
  mint m hm hop hpn := by
    rcases mem_append.1 hm with hm | hm
    · exact absurd hpn (hD m hm hop)
    · rw [(hV m hm hop).1]
      rfl
  promised h := by
    rcases h with h | h
    · exact absurd h hq.1
    · exact absurd h hq.2
  answered m hm hop _ hpn := absurd hpn (hU m hm hop)
  final := pairwise_of_forall_mem_list fun m hm m' _ hop _ hpn => absurd hpn (hU m hm hop)
  done h := h.elim
  memDown m hm hop hepoch := by
    rcases mem_append.1 hm with hm | hm
    · exact hmemD m hm hop hepoch
    · exact (hV m hm hop).2
  memUp := hmemU
  heard h := absurd hheard h

/-- The leader counts the answer of the peer: it was the last one under way. -/
theorem PairTok.count {V : List MMonPaxos} (h : PairTok i c p q D (m :: U)) (hp : SameView p p')
    (hop : m.op = .last) (hepoch : m.epoch = p.epoch) (hpn : m.pn = p.acceptedPn)
    (hle : p.epoch ≤ q.epoch) (hV : ∀ m ∈ V, m.op ≠ .collect) : PairTok i True p' q (D ++ V) U := by
  have hD : ∀ m ∈ D ++ V, m.op = .collect → m ∈ D := fun _ => mem_left_of_op hV
  have hnoD := h.answered m (by simp) hop hepoch hpn
  have hnoU : ∀ m' ∈ U, m'.op = .last → m'.epoch ≠ p.epoch := fun m' hm' =>
    (pairwise_cons.1 h.final).1 m' hm' hop hepoch hpn
  have hmono : PairTok i c p' q (D ++ V) U :=
    h.mono id hp (fun _ => .inr hle) le_rfl id hD ⟨U, [], by simp, sublist_cons_self _ _, by simp⟩
  refine ⟨hmono.mint, hmono.promised, hmono.answered, hmono.final, ?_, hmono.memDown, hmono.memUp,
    hmono.heard⟩
  intro _
  rw [hp.epoch]
  exact ⟨hle, fun m' hm' hop' => hnoD m' (hD m' hm' hop') hop', hnoU⟩

/-- The peer answers a COLLECT of the leader. -/
theorem PairTok.promise {last : MMonPaxos} (h : PairTok i c p q (m :: D) U)
    (hsorted : (m :: D).Pairwise CollectLt)
    (hfresh : ∀ m' ∈ D, m'.op = .collect → m'.pn ≤ p.acceptedPn) (hop : m.op = .collect)
    (hepoch : m.epoch = q.epoch) (hlop : last.op = .last) (hlepoch : last.epoch = q.epoch)
    (hlpn : last.pn = q'.acceptedPn) (hepoch' : q'.epoch = q.epoch)
    (hacc : q'.acceptedPn = q.acceptedPn ∧ q'.store.acceptedPn = q.store.acceptedPn ∨ q.acceptedPn
      < m.pn ∧ q'.acceptedPn = m.pn ∧ q'.store.acceptedPn = m.pn) :
    PairTok i c p q' D (U ++ [last]) := by
  -- once the peer has the current number, no COLLECT of this epoch follows
  have hprom : q'.acceptedPn = p.acceptedPn ∨ q'.store.acceptedPn = p.acceptedPn →
      p.epoch ≤ q'.epoch ∧ ∀ m' ∈ D, m'.op = .collect → m'.epoch ≠ p.epoch := by
    intro hor
    rw [hepoch']
    rcases hacc with ⟨ha, hs⟩ | ⟨-, ha, hs⟩
    · rw [ha, hs] at hor
      obtain ⟨hle, hnone⟩ := h.promised hor
      exact ⟨hle, fun m' hm' => hnone m' (mem_cons_of_mem _ hm')⟩
    · rw [ha, hs, or_self] at hor
      have he := h.mint m (by simp) hop hor
      refine ⟨le_of_eq (he.symm.trans hepoch), fun m' hm' hop' => ?_⟩
      have hlt := (pairwise_cons.1 hsorted).1 m' hm' hop hop'
      have hle := hfresh m' hm' hop'
      omega
  refine ⟨?_, hprom, ?_, ?_, ?_, ?_, ?_, ?_⟩
  · exact fun m' hm' => h.mint m' (mem_cons_of_mem _ hm')
  · intro u hu huop huepoch hupn
    rcases mem_append.1 hu with hu | hu
    · exact fun m' hm' => h.answered u hu huop huepoch hupn m' (mem_cons_of_mem _ hm')
    · obtain rfl := mem_singleton.1 hu
      exact (hprom (Or.inl (hlpn.symm.trans hupn))).2
  · refine pairwise_append.2 ⟨h.final, by simp, ?_⟩
    intro u hu _ hv huop huepoch hupn _ hvepoch
    obtain rfl := mem_singleton.1 hv
    exact h.answered u hu huop huepoch hupn m (by simp) hop
      (hepoch.trans (hlepoch.symm.trans hvepoch))
  · intro hc
    obtain ⟨hle, hD, hU⟩ := h.done hc
    refine ⟨hle.trans (le_of_eq hepoch'.symm), fun m' hm' => hD m' (mem_cons_of_mem _ hm'), ?_⟩
    intro u hu huop huepoch
    rcases mem_append.1 hu with hu | hu
    · exact hU u hu huop huepoch
    · obtain rfl := mem_singleton.1 hu
      exact hD m (by simp) hop (hepoch.trans (hlepoch.symm.trans huepoch))
  · exact fun m' hm' => h.memDown m' (mem_cons_of_mem _ hm')
  · intro u hu huop huepoch
    rcases mem_append.1 hu with hu | hu
    · exact h.memUp u hu huop huepoch
    · obtain rfl := mem_singleton.1 hu
      exact h.memDown m (by simp) hop (hepoch.trans (hlepoch.symm.trans huepoch))
  · intro hne
    exact (h.heard hne).trans (le_of_eq hepoch'.symm)

end Moves

/-! ## Steps -/

section Steps

variable {s s' : System} {x : Nat} {src : Source} {p' : Monitor} {out : Sends}

/-- A monitor the actor has heard from is a member of its quorum in its epoch. -/
theorem Core.heard (h : Core n M L R s) (hx : x ∈ M) (heff : Effect s s' x src p' out)
    (hrole : (s.mon x).role = .leader) (hk : Heard (s.mon x) src k) :
    k ∈ (s.mon x).quorum ∧ k ≠ x ∧ (s.mon x).epoch ≤ (s.mon k).epoch := by
  have htok := h.leader x hx hrole
  rcases hk with hk | ⟨m, hm, hop, hepoch, -⟩
  · obtain ⟨hQ, hne⟩ := htok.heard k hk
    exact ⟨hQ, hne, (h.pair x hx hrole k (htok.quorum hQ) hne).heard hk⟩
  · have hmem := heff.src_mem k m hm
    obtain ⟨hkM, -, hne⟩ := h.ends k x m hmem
    exact ⟨(h.pair x hx hrole k hkM hne).memUp m hmem hop hepoch, hne,
      hepoch ▸ (h.link k x m hmem).sent⟩

/-- The peers that a leader has counted after a step, from those before it. -/
def countedAfter (S : Finset Nat) (src : Source) (p p' : Monitor) : Finset Nat :=
  if p'.acceptedPn ≠ p.acceptedPn then ∅
  else match src with
    | some (j, _) => if p'.numLast = p.numLast + 1 then insert j S else S
    | none => S

variable {S : Finset Nat} {p p' : Monitor} {m : MMonPaxos} {a : Action} {inp : Option MMonPaxos}

variable {src : Source}

theorem countedAfter_collect (h : p.acceptedPn < p'.acceptedPn) : countedAfter S src p p' = ∅ :=
  if_pos (ne_of_gt h)

theorem countedAfter_quiet (hacc : p'.acceptedPn = p.acceptedPn) (hnum : p'.numLast = p.numLast) :
    countedAfter S src p p' = S := by
  unfold countedAfter
  rw [if_neg (by simp [hacc])]
  split
  · rw [if_neg (by omega)]
  · rfl

theorem countedAfter_count (hacc : p'.acceptedPn = p.acceptedPn)
    (hnum : p'.numLast = p.numLast + 1) :
    countedAfter S (some (j, m)) p p' = insert j S := by
  unfold countedAfter
  rw [if_neg (by simp [hacc])]
  exact if_pos hnum

/-- A leader that has counted more, but looks the same to the others. -/
theorem LeaderTok.ofView {S' : Finset Nat} (h : LeaderTok n M L l S p) (hview : SameView p p')
    (hsub : S' ⊆ p.quorum.erase l) (hnum : p'.numLast = S'.card + 1)
    (hheard : ∀ k, p'.peerLastCommitted k ≠ none → k ∈ p.quorum ∧ k ≠ l)
    (hall : p'.state ≠ .recovering → S' = p.quorum.erase l) : LeaderTok n M L l S' p' := by
  obtain ⟨hmem, hmaj, hself, hquorum, hpn, hres, -⟩ := h
  rw [← hview.quorum] at *
  rw [← hview.acceptedPn] at hpn hres
  exact ⟨hmem, hmaj, hself, hquorum, hpn.trans hview.lastPn.symm, hres, hsub, hnum, hheard, hall⟩

section

variable (hL : Distinct L) (h : Core n M L R s) (hx : x ∈ M) (hmove : Move n x (s.mon x) src p' out)
  (heff : Effect s s' x src p' out)
  (hwin : (s.mon x).epoch < p'.epoch → p'.role = .leader → x ∈ L ∧ p'.quorum ⊆ M)

include hL h hx hmove heff hwin

omit hL in
/-- The actor as a leader, and its pairs. -/
theorem Core.leader_step (hrole' : p'.role = .leader) :
    LeaderTok n M L x (countedAfter (R x) src (s.mon x) p') p' ∧ ∀ i ∈ M, i ≠ x →
      PairTok i (i ∈ countedAfter (R x) src (s.mon x) p') p' (s.mon i)
        (s.net x i ++ msgsTo i out) (s'.net i x) := by
  have hsub : ∀ i, i ≠ x → ∃ U₁ V, s'.net i x = U₁ ++ V ∧ U₁.Sublist (s.net i x) ∧
      ∀ m ∈ V, m.op ≠ .last := fun i hne =>
    ⟨_, [], (append_nil _).symm, (heff.suffix hne).sublist, by simp⟩
  cases hmove with
  | quiet hview hnum hstate hheard hout =>
    have hrole : (s.mon x).role = .leader := hview.role ▸ hrole'
    have htok := h.leader x hx hrole
    rw [countedAfter_quiet hview.acceptedPn hnum]
    have hknown := fun k hk => h.heard hx heff hrole (hheard k hk)
    exact ⟨htok.ofView hview htok.subset (hnum ▸ htok.num)
      (fun k hk => (hknown k hk).imp_right And.left)
      fun hrec => htok.all fun hs => hrec ((hstate hrole).2 hs),
      fun i hi hne => (h.pair x hx hrole i hi hne).mono id hview
        (fun hk => .inr (hknown i hk).2.2) le_rfl id
        (fun m => mem_left_of_op fun m hm => (hout i m (mem_msgsTo.1 hm)).op_ne.1) (hsub i hne)⟩
  | depose hrole => exact absurd hrole' hrole
  | promise _ _ hrole _ _ _ _ hrole'' => simp [hrole'', hrole] at hrole'
  | @collect _ _ _ hnew _ hstate hnum hheard _ hpn _ hacc hres hout =>
    have hxL : x ∈ L ∧ Majority n p'.quorum ∧ x ∈ p'.quorum ∧ p'.quorum ⊆ M := by
      rcases hnew with ⟨hlt, hmaj, hmem, -⟩ | ⟨hr, -, hQ⟩
      · exact ⟨(hwin hlt hrole').1, hmaj, hmem, (hwin hlt hrole').2⟩
      · have htok := h.leader x hx hr
        rw [hQ]
        exact ⟨htok.mem, htok.majority, htok.self, htok.quorum⟩
    rw [countedAfter_collect hacc]
    refine ⟨⟨hxL.1, hxL.2.1, hxL.2.2.1, hxL.2.2.2, hpn, hres, by simp, hnum, ?_,
      fun hne => absurd hstate hne⟩, fun i hi hne => ?_⟩
    · intro k hk
      exact absurd (hheard k) hk
    · obtain ⟨k, hk⟩ := hres
      have hUmem : ∀ m ∈ s'.net i x, m ∈ s.net i x := fun m hm => (heff.suffix hne).subset hm
      have hfresh := h.fresh x hxL.1 i hi
      rw [show (i ∈ (∅ : Finset Nat)) = False by simp]
      refine .collecting ?_ ?_ ⟨?_, ?_⟩ ?_ ?_ (hheard i) ?_
      · intro m hm hop
        have := (h.link x i m hm).collectFresh hop
        omega
      · intro m hm hop heq
        have := (h.link i x m (hUmem m hm)).lastFresh hop k (heq.trans hk)
        omega
      · intro heq
        have := hfresh.mem k (heq.trans hk)
        omega
      · intro heq
        have := hfresh.store k (heq.trans hk)
        omega
      · intro m hm hop hepoch
        rcases hnew with ⟨hlt, -⟩ | ⟨hr, he, hQ⟩
        · have := (h.link x i m hm).sent
          omega
        · rw [hQ]
          exact (h.pair x hx hr i hi hne).memDown m hm hop (hepoch.trans he)
      · intro m hm hop hepoch
        rcases hnew with ⟨hlt, -⟩ | ⟨hr, he, hQ⟩
        · rcases (h.link i x m (hUmem m hm)).up (.inl hop) with hlt' | ⟨heq, -⟩ <;> omega
        · rw [hQ]
          exact (h.pair x hx hr i hi hne).memUp m (hUmem m hm) hop (hepoch.trans he)
      · intro m hm hop
        rcases mem_append.1 (mem_msgsTo.1 hm) with hm | hm
        · exact absurd hop (hout i m hm).1.op_ne.1
        · obtain ⟨hk', rfl⟩ := mem_broadcast hm
          exact ⟨rfl, (others_mem hk').1⟩
  | @count j m _ _ hl hpn hview hnum hstate hheard hout =>
    obtain ⟨hop, hepoch, hrole⟩ := hl
    have htok := h.leader x hx hrole
    have hmem := heff.src_mem j m rfl
    obtain ⟨hjM, -, hjx⟩ := h.ends j x m hmem
    have hpair := h.pair x hx hrole j hjM hjx
    have hjR : j ∉ R x := fun hj => (hpair.done hj).2.2 m hmem hop hepoch
    have hjQ := hpair.memUp m hmem hop hepoch
    have hjmem := Finset.mem_erase.2 ⟨hjx, hjQ⟩
    have hsubset := Finset.insert_subset hjmem htok.subset
    rw [countedAfter_count hview.acceptedPn hnum]
    have hknown := fun k hk => h.heard hx heff hrole (hheard k hk)
    refine ⟨htok.ofView hview hsubset ?_ (fun k hk => (hknown k hk).imp_right And.left)
      fun hrec => ?_, fun i hi hne => ?_⟩
    · rw [Finset.card_insert_of_notMem hjR, hnum, htok.num]
    · refine Finset.eq_of_subset_of_card_le hsubset ?_
      rcases hstate with hs | hs
      · -- a leader that has gone on has already counted everyone
        refine absurd ?_ hjR
        rw [htok.all (hs ▸ hrec)]
        exact hjmem
      · rw [Finset.card_insert_of_notMem hjR, Finset.card_erase_of_mem htok.self]
        have := htok.num
        omega
    · by_cases hij : i = j
      · subst hij
        have hnet := heff.head hne
        have hdone := PairTok.count (hnet ▸ hpair) hview hop hepoch hpn
          (hepoch ▸ (h.link i x m hmem).sent)
          fun m' hm' => (hout i m' (mem_msgsTo.1 hm')).op_ne.1
        simpa using hdone
      · exact (h.pair x hx hrole i hi hne).mono
          (fun hi' => Finset.mem_of_mem_insert_of_ne hi' hij) hview
          (fun hk => .inr (hknown i hk).2.2) le_rfl id
          (fun m => mem_left_of_op fun m hm => (hout i m (mem_msgsTo.1 hm)).op_ne.1) (hsub i hne)

omit hL hmove heff in
theorem Core.mem_of_leads (hrole : p'.role = .leader)
    (hnew : (s.mon x).epoch < p'.epoch ∨ (s.mon x).role = .leader) : x ∈ L := by
  rcases hnew with hlt | hr
  · exact (hwin hlt hrole).1
  · exact (h.leader x hx hr).mem

/-- The actor as the peer of another leader. -/
theorem Core.peer_step (hl : l ∈ M) (hrole : (s.mon l).role = .leader) (hne : x ≠ l) :
    PairTok x (x ∈ R l) (s.mon l) p' (s'.net l x) (s.net x l ++ msgsTo l out) := by
  have hpair := h.pair l hl hrole x hx hne
  have htok := h.leader l hl hrole
  have hD : ∀ m ∈ s'.net l x, m.op = .collect → m ∈ s.net l x := fun m hm _ =>
    (heff.suffix hne.symm).subset hm
  have hU : (∀ k m, (k, m) ∈ out → m.op ≠ .last) → ∃ U₁ V, s.net x l ++ msgsTo l out = U₁ ++ V ∧
      U₁.Sublist (s.net x l) ∧ ∀ m ∈ V, m.op ≠ .last := fun hout =>
    ⟨_, _, rfl, List.Sublist.refl _, fun m hm => hout l m (mem_msgsTo.1 hm)⟩
  have hsame : SameView (s.mon l) (s.mon l) := ⟨rfl, rfl, rfl, rfl, rfl, rfl⟩
  have hlater := hmove.later
  cases hmove with
  | quiet hview _ _ _ hout
  | count _ _ hview _ _ _ hout =>
    refine hpair.mono id hsame .inl hlater.epoch ?_ hD (hU fun k m hm => (hout k m hm).op_ne.2)
    rw [hview.acceptedPn, hview.storeAcceptedPn]
    exact id
  | depose _ _ _ hacc hstore _ hout =>
    refine hpair.mono id hsame .inl hlater.epoch ?_ hD (hU fun k m hm => (hout k m hm).op_ne.2)
    rw [hstore]
    rcases hacc with ha | ha <;> rw [ha]
    · exact id
    · exact fun h => .inr (h.elim id id)
  | @promise j m last _ hop hepoch _ hlop hlepoch hlpn hepoch' _ _ hacc =>
    have hmem := heff.src_mem j m rfl
    by_cases hj : j = l
    · subst hj
      have hnet := heff.head hne.symm
      have hlast' : msgsTo j [(j, last)] = [last] := by simp [msgsTo]
      rw [hlast']
      refine PairTok.promise (hnet ▸ hpair) (hnet ▸ h.sorted j x) ?_ hop hepoch hlop
        hlepoch hlpn hepoch' hacc
      intro m' hm' hop'
      rw [htok.pn]
      exact (h.link j x m' (hD m' hm' hop')).collectFresh hop'
    · obtain ⟨hjL, k, hk⟩ := (h.link j x m hmem).pn (.inl hop)
      obtain ⟨k', hk'⟩ := htok.res
      have hnil : msgsTo l [(j, last)] = [] := by simp [msgsTo, hj]
      refine hpair.mono id hsame .inl hlater.epoch ?_ hD
        ⟨s.net x l, [], by rw [hnil], List.Sublist.refl _, by simp⟩
      rcases hacc with ⟨ha, hs⟩ | ⟨-, ha, hs⟩ <;> rw [ha, hs]
      · exact id
      · -- the number belongs to another leader
        intro hor
        rw [or_self] at hor
        exact absurd (hL.eq hjL htok.mem (hk.symm.trans (hor.trans hk'))) hj
  | collect hnew hrole' _ _ _ hstore _ _ _ hres hout =>
    obtain ⟨k, hk⟩ := hres
    obtain ⟨k', hk'⟩ := htok.res
    have hxL := h.mem_of_leads hx hwin hrole' (hnew.imp And.left And.left)
    refine hpair.mono id hsame .inl hlater.epoch ?_ hD (hU ?_)
    · rw [hstore]
      rintro (ha | hs)
      · exact absurd (hL.eq hxL htok.mem (hk.symm.trans (ha.trans hk'))) hne
      · exact .inr hs
    · intro i m hm
      rcases mem_append.1 hm with hm | hm
      · exact (hout i m hm).1.op_ne.2
      · obtain ⟨-, rfl⟩ := mem_broadcast hm
        simp [collectMsg]

/-- The actor knows no number that its leader has not handed out. -/
theorem Core.fresh_step (hl : l ∈ L) : Fresh l (update s.mon x p' l) p' := by
  have hle : (s.mon l).store.lastPn ≤ (update s.mon x p' l).store.lastPn := by
    by_cases hlx : l = x
    · subst hlx
      simpa using hmove.later.lastPn
    · simp [hlx]
  have hold := h.fresh l hl x hx
  have hsame : Fresh l (update s.mon x p' l) (s.mon x) :=
    ⟨fun k hk => (hold.mem k hk).trans hle, fun k hk => (hold.store k hk).trans hle⟩
  have hview : SameView (s.mon x) p' → Fresh l (update s.mon x p' l) p' := fun hv =>
    ⟨by rw [hv.acceptedPn]; exact hsame.mem, by rw [hv.storeAcceptedPn]; exact hsame.store⟩
  cases hmove with
  | quiet hv => exact hview hv
  | depose _ _ _ hacc hstore =>
    refine ⟨?_, by rw [hstore]; exact hsame.store⟩
    rcases hacc with ha | ha <;> rw [ha]
    · exact hsame.mem
    · exact hsame.store
  | @promise j m _ _ hop _ _ _ _ _ _ _ _ hacc =>
    rcases hacc with ⟨ha, hs⟩ | ⟨-, ha, hs⟩
    · refine ⟨by rw [ha]; exact hsame.mem, by rw [hs]; exact hsame.store⟩
    · have hlink := h.link j x m (heff.src_mem j m rfl)
      obtain ⟨hjL, k, hk⟩ := hlink.pn (.inl hop)
      have hpn : ∀ k', m.pn = 100 * k' + l →
          m.pn ≤ (update s.mon x p' l).store.lastPn := by
        intro k' hk'
        obtain rfl := hL.eq hjL hl (hk.symm.trans hk')
        exact (hlink.collectFresh hop).trans hle
      exact ⟨by rw [ha]; exact hpn, by rw [hs]; exact hpn⟩
  | collect hnew hrole _ _ _ hstore hpn _ _ hres =>
    refine ⟨?_, by rw [hstore]; exact hsame.store⟩
    intro k' hk'
    obtain ⟨k, hk⟩ := hres
    have hxL := h.mem_of_leads hx hwin hrole (hnew.imp And.left And.left)
    obtain rfl := hL.eq hxL hl (hk.symm.trans hk')
    simp [hpn]
  | count _ _ hv => exact hview hv

/-- What the actor sends is in order. -/
theorem Core.sends_step (hm : (k, m) ∈ out) : k ∈ M ∧ k ≠ x ∧ LinkMsg L x k p' (s.mon k) m := by
  have hlater := hmove.later
  have htok := h.leader_step hx hmove heff hwin
  have hfresh := fun l => h.fresh_step hL hx hmove heff hwin (l := l)
  have hplain : Plain x (s.mon x) src p' k m → k ∈ M ∧ k ≠ x ∧ LinkMsg L x k p' (s.mon k) m := by
    rintro ⟨hepoch, ⟨hop, b, hb, hbop, hbepoch⟩ | ⟨hrole, hop, hk⟩⟩
    · have hmem := heff.src_mem k b hb
      obtain ⟨hkM, -, hkx⟩ := h.ends k x b hmem
      have hnp : NotPeon (s.mon k) m.epoch := by
        rw [hepoch, ← hbepoch]
        exact (h.link k x b hmem).down (.inr (.inl hbop))
      exact ⟨hkM, hkx, hnp.linkMsg (.inr hop) (hepoch ▸ hlater.epoch) (by simp [hop])⟩
    · have htok' := h.leader x hx hrole
      obtain ⟨hkM, hkx, hle⟩ : k ∈ M ∧ k ≠ x ∧ (s.mon x).epoch ≤ (s.mon k).epoch := by
        rcases hk with hk | ⟨hr, hrec, hQ, hkx⟩
        · obtain ⟨hQ, hkx, hle⟩ := h.heard hx heff hrole hk
          exact ⟨htok'.quorum hQ, hkx, hle⟩
        · have hkM := htok'.quorum hQ
          obtain ⟨hlt, hpairs⟩ := htok hr
          have hkC : k ∈ countedAfter (R x) src (s.mon x) p' := by
            rw [hlt.all hrec]
            refine Finset.mem_erase.2 ⟨hkx, ?_⟩
            cases hmove with
            | quiet hview => exact hview.quorum ▸ hQ
            | depose hr' => exact absurd hr hr'
            | promise _ _ hrole'' => simp [hrole''] at hrole
            | collect _ _ hstate => exact absurd hstate hrec
            | count _ _ hview => exact hview.quorum ▸ hQ
          exact ⟨hkM, hkx, hlater.epoch.trans ((hpairs k hkM hkx).done hkC).1⟩
      refine ⟨hkM, hkx, hepoch ▸ hlater.epoch, fun hlt => ?_, fun _ => ?_, ?_, ?_, ?_, ?_⟩
      · omega
      · exact NotPeon.later (.inr ⟨hepoch, by simp [hrole]⟩) hlater
      · rcases hop with ⟨hop, -⟩ | hop <;> simp [hop]
      · rcases hop with ⟨hop, hpn⟩ | hop
        · exact fun _ => ⟨htok'.mem, hpn ▸ htok'.res⟩
        · simp [hop]
      · rcases hop with ⟨hop, -⟩ | hop <;> simp [hop]
      · rcases hop with ⟨hop, -⟩ | hop <;> simp [hop]
  cases hmove with
  | quiet _ _ _ _ hout | depose _ _ _ _ _ _ hout
  | count _ _ _ _ _ _ hout => exact hplain (hout k m hm)
  | @promise _ c _ _ hop hepoch _ hlop hlepoch hlpn hepoch' =>
    obtain ⟨rfl, rfl⟩ := mem_reply hm
    have hmem := heff.src_mem k c rfl
    obtain ⟨hkM, -, hkx⟩ := h.ends k x c hmem
    have hlink := h.link k x c hmem
    have hnp : NotPeon (s.mon k) m.epoch := by
      rw [hlepoch, ← hepoch]
      exact hlink.down (.inl hop)
    refine ⟨hkM, hkx, hnp.linkMsg (.inl hlop) (hlepoch.trans hepoch'.symm).le ?_⟩
    intro _ k' hk'
    have := (hfresh k (hlink.pn (.inl hop)).1).mem k' (hlpn ▸ hk')
    rw [hlpn]
    simpa [hkx] using this
  | collect _ hrole _ _ _ _ hpn _ _ _ hout =>
    rcases mem_append.1 hm with hm | hm
    · exact hplain (hout k m hm).1
    · obtain ⟨hk', rfl⟩ := mem_broadcast hm
      obtain ⟨hQ, hkx⟩ := others_mem hk'
      have hlead := (htok hrole).1
      refine ⟨hlead.quorum hQ, hkx, le_rfl, fun _ => rfl, fun _ => ?_, ?_, ?_, ?_, ?_⟩
      · exact .inr ⟨rfl, by simp [hrole]⟩
      · simp [collectMsg]
      · exact fun _ => ⟨hlead.mem, hlead.res⟩
      · exact fun _ => hpn.le
      · simp [collectMsg]

/-- Every move keeps the invariant. -/
theorem Core.move (hbase : MonBase p') :
    Core n M L (update R x (countedAfter (R x) src (s.mon x) p')) s' ∧
      ∀ k m, (k, m) ∈ out → k ∈ M ∧ k ≠ x := by
  have hlater := hmove.later
  have htok := h.leader_step hx hmove heff hwin
  have hsends := fun k m (hm : (k, m) ∈ out) => h.sends_step hL hx hmove heff hwin hm
  have hself : s'.net x x = [] := by
    refine heff.self ?_ fun m hm => (hsends x m hm).2.1 rfl
    rw [eq_nil_iff_forall_not_mem]
    exact fun m hm => (h.ends x x m hm).2.2 rfl
  have hmon : ∀ i, Later (s.mon i) (s'.mon i) := fun i =>
    heff.mon_step (P := fun i => Later (s.mon i)) hlater (Later.refl _)
  have hnet := fun j i m (hm : m ∈ s'.net j i) => heff.origin hself hm
  refine ⟨⟨?_, ?_, ?_, ?_, ?_, ?_, ?_⟩, fun k m hm => ⟨(hsends k m hm).1, (hsends k m hm).2.1⟩⟩
  · exact fun i hi => heff.mon_step (P := fun _ => MonBase) hbase (h.base i hi)
  · intro j i m hm
    rcases hnet j i m hm with hm | ⟨rfl, hm⟩
    · exact h.ends j i m hm
    · obtain ⟨hM, hne, -⟩ := hsends i m hm
      exact ⟨hx, hM, hne.symm⟩
  · intro j i m hm
    rcases hnet j i m hm with hm | ⟨rfl, hm⟩
    · exact (h.link j i m hm).later (hmon j) (hmon i)
    · obtain ⟨hM, hne, hlink⟩ := hsends i m hm
      rw [heff.mon]
      simpa [hne] using hlink
  · intro j i
    by_cases hj : j = x
    · subst hj
      by_cases hi : i = j
      · subst hi
        simp [hself]
      · rw [heff.sent i hi]
        refine pairwise_append.2 ⟨h.sorted j i, hmove.sorted i, ?_⟩
        intro m hm _ hm' hop hop'
        obtain ⟨rfl, hgt⟩ := hmove.collects (mem_msgsTo.1 hm') hop'
        exact lt_of_le_of_lt ((h.link j i m hm).collectFresh hop) hgt
    · by_cases hi : i = x
      · subst hi
        exact (h.sorted j i).sublist (heff.suffix hj).sublist
      · rw [heff.other j i hj hi]
        exact h.sorted j i
  · intro l hl i hi
    have hold := h.fresh l hl i hi
    have hle := (hmon l).lastPn
    refine heff.mon_step (P := fun _ => Fresh l (s'.mon l))
      (heff.mon ▸ h.fresh_step hL hx hmove heff hwin hl) ?_
    exact ⟨fun k hk => (hold.mem k hk).trans hle, fun k hk => (hold.store k hk).trans hle⟩
  · intro l hl hrole
    rw [heff.mon] at hrole ⊢
    by_cases hlx : l = x
    · subst hlx
      simp only [update_self] at hrole ⊢
      exact (htok hrole).1
    · simp only [update_of_ne hlx] at hrole ⊢
      exact h.leader l hl hrole
  · intro l hl hrole i hi hne
    rw [heff.mon] at hrole ⊢
    by_cases hlx : l = x
    · subst hlx
      simp only [update_self, update_of_ne hne] at hrole ⊢
      rw [heff.sent i hne]
      exact (htok hrole).2 i hi hne
    · simp only [update_of_ne hlx] at hrole ⊢
      by_cases hix : i = x
      · subst hix
        rw [update_self, heff.sent l hlx]
        exact h.peer_step hL hx hmove heff hwin hl hrole hne
      · rw [update_of_ne hix, heff.other l i hlx hix, heff.other i l hix hlx]
        exact h.pair l hl hrole i hi hne

end

/-- The action stays among the monitors `M`, and only those in `L` lead. -/
def Closed (M L : Finset Nat) (a : Action) : Prop :=
  a.actor ∈ M ∧ ∀ i e Q, a = .win i e Q → i ∈ L ∧ Q ⊆ M

theorem Local.win_of_leader (h : Local n p inp a p' out) (hlt : p.epoch < p'.epoch)
    (hrole : p'.role = .leader) : ∃ e, a = .win a.actor e p'.quorum := by
  have hview : SameView p p' → False := fun hv => by
    have := hv.epoch
    omega
  cases h with
  | win | winAlone => exact ⟨_, rfl⟩
  | lose => simp [peonInit] at hrole
  | leave | newer | collectBoot | lastBoot | lastShareBoot => simp [bootstrapped] at hrole
  | crash => simp [restarted] at hrole
  | lastRetry | lastActive | acceptCommit | apply =>
    simp [collecting, recovered, committing, acceptedBy, applied] at hlt
  | lastBegin _ _ _ _ _ _ hbegin =>
    have := (begin_move hbegin).1.epoch
    simp only [recovered, counted_rest, heard_rest] at this
    omega
  | @propose _ _ _ _ _ _ _ hbegin =>
    have := (begin_move hbegin).1.epoch
    simp only at this
    omega
  | collect | lastOld | lastCount | commit => simp at hlt
  | _ => exact (hview ⟨rfl, rfl, rfl, rfl, rfl, rfl⟩).elim

/-- Only a delivery reads a message. -/
theorem Local.source (h : Local n p inp a p' out) (hm : inp = some m) :
    ∃ j, a.source inp = some (j, m) := by
  subst hm
  cases h <;> exact ⟨_, rfl⟩

theorem Core.expected_step (hL : Distinct L) (h : Core n M L R s)
    (hlocal : Local n (s.mon a.actor) inp a p' out)
    (heff : Effect s s' a.actor (a.source inp) p' out) : Expected (s.mon a.actor) inp := by
  cases hinp : inp with
  | none => exact ⟨by simp, by simp, by simp⟩
  | some m =>
    obtain ⟨j, hj⟩ := hlocal.source hinp
    exact h.expected hL (heff.src_mem j m hj)

/-- Every local step keeps the invariant. -/
theorem Core.local_step (hn : 2 ≤ n) (hL : Distinct L) (h : Core n M L R s) (hok : Closed M L a)
    (hlocal : Local n (s.mon a.actor) inp a p' out)
    (heff : Effect s s' a.actor (a.source inp) p' out) :
    Expected (s.mon a.actor) inp ∧
      Core n M L (update R a.actor
        (countedAfter (R a.actor) (a.source inp) (s.mon a.actor) p')) s' ∧
      ∀ k m, (k, m) ∈ out → k ∈ M ∧ k ≠ a.actor := by
  have hexp := h.expected_step hL hlocal heff
  have hwin : (s.mon a.actor).epoch < p'.epoch → p'.role = .leader →
      a.actor ∈ L ∧ p'.quorum ⊆ M := by
    intro hlt hrole
    obtain ⟨_, he⟩ := hlocal.win_of_leader hlt hrole
    exact hok.2 _ _ _ he
  exact ⟨hexp, h.move hL hok.1 (hlocal.move hn hexp) heff hwin ((h.base _ hok.1).step hlocal hexp)⟩

end Steps

end Ceph.Mon.Paxos
