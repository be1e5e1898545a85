import Ceph.Mon.Paxos.Tokens

set_option autoImplicit false

/-!
# The rounds of a leader

A leader that proposes waits for one ACCEPT from each other member of its
quorum.  For each of them exactly one of three things is out: the BEGIN, the
ACCEPT, or the leader has counted it.  Hence a leader never counts an ACCEPT
for an earlier version, and when it commits, nothing of the round is left.
-/

namespace Ceph.Mon.Paxos

open Ceph.Lib List Function

variable {n : Nat} {M L : Finset Nat} {R : Nat → Finset Nat}

/-- The leader waits for ACCEPTs. -/
def Updating (p : Monitor) : Prop := p.state = .updating ∨ p.state = .updatingPrevious

/-- The leader writes a commit. -/
def Writing (p : Monitor) : Prop := p.state = .writing ∨ p.state = .writingPrevious

variable {p : Monitor} {is : List Nat}

theorem Updating.ne (h : Updating p) : p.state ≠ .recovering ∧ p.state ≠ .active ∧ ¬ Writing p := by
  rcases h with h | h <;> simp [Writing, h]

/-- The moves of the rounds, for monitor `i`. -/
inductive Round (n i : Nat) (p : Monitor) :
    Source → Monitor → Sends → Prop where
  /-- The leader stays where it is in its round. -/
  | quiet {src : Source} {p' : Monitor} {out : Sends}
      (hout : ∀ k m, (k, m) ∈ out → m.op ≠ .begin ∧ m.op ≠ .accept)
      (hepoch : p'.role = .leader → p.role = .leader ∧ p'.epoch = p.epoch)
      (hupd : p'.role = .leader → (Updating p' ↔ Updating p))
      (hsame : p'.role = .leader → Updating p → p'.acceptedPn = p.acceptedPn ∧
        p'.lastCommitted = p.lastCommitted ∧ p'.accepted = p.accepted ∧ p'.quorum = p.quorum)
      (hwrite : p'.role = .leader → Writing p' → Writing p ∧ p'.accepted = p.accepted ∧
        p'.quorum = p.quorum) : Round n i p src p' out
  /-- The monitor does not lead, or leads a new epoch. -/
  | fresh {src : Source} {p' : Monitor} {out : Sends}
      (hout : ∀ k m, (k, m) ∈ out → m.op ≠ .begin ∧ m.op ≠ .accept)
      (hlead : p'.role = .leader → p.epoch < p'.epoch ∧ p'.state = .recovering) :
      Round n i p src p' out
  /-- A peon accepts. -/
  | vote {j : Nat} {m : MMonPaxos} {p' : Monitor} (hop : m.op = .begin)
      (hepoch : m.epoch = p.epoch) (hpn : m.pn = p.acceptedPn)
      (hlast : m.lastCommitted = p.lastCommitted) (hrole : p'.role ≠ .leader) :
      Round n i p (some (j, m)) p' [(j, acceptMsg p)]
  /-- A leader begins. -/
  | start {src : Source} {p' : Monitor} {shares : Sends} {b : MMonPaxos}
      (hrole : p.role = .leader) (hidle : ¬ Updating p) (hepoch : p'.epoch = p.epoch)
      (hupd : Updating p') (haccepted : p'.accepted = {i}) (hbop : b.op = .begin)
      (hbepoch : b.epoch = p'.epoch) (hbpn : b.pn = p'.acceptedPn)
      (hblast : b.lastCommitted = p'.lastCommitted)
      (hshares : ∀ k m, (k, m) ∈ shares → m.op = .commit) (hrole' : p'.role = .leader) :
      Round n i p src p' (shares ++ (others n i p'.quorum).map fun k => (k, b))
  /-- A leader counts an ACCEPT; with the last one it writes the commit. -/
  | accept {j : Nat} {m : MMonPaxos} {p' : Monitor} (hop : m.op = .accept)
      (hepoch : m.epoch = p.epoch) (hrole : p.role = .leader) (hepoch' : p'.epoch = p.epoch)
      (hpn : p'.acceptedPn = p.acceptedPn) (hlast : p'.lastCommitted = p.lastCommitted)
      (hquorum : p'.quorum = p.quorum) (haccepted : p'.accepted = insert j p.accepted)
      (hstate : Updating p' ∨ Writing p' ∧ p'.accepted = p'.quorum) :
      Round n i p (some (j, m)) p' []

/-- A leader begins among several. -/
theorem begin_round {i : Nat} {v : Tx} {p' : Monitor} {out : Sends}
    (h : begin n i v p = some (p', out)) (hcard : p.quorum.card ≠ 1) :
    p' = begun i v p ∧ Updating p ∧
      out = (others n i p.quorum).map fun k => (k, beginMsg p (dressValue p.lastCommitted v)) := by
  obtain ⟨-, hstate, -, -, hcase⟩ := begin_eq_some h
  rcases hcase with ⟨hone, -⟩ | ⟨-, hr⟩
  · exact absurd hone hcard
  · cases hr
    exact ⟨rfl, hstate, rfl⟩

theorem shared_commit {shared : Sends × Bool}
    (h : sharePeers p is = some shared) : ∀ k m, (k, m) ∈ shared.1 → m.op = .commit := by
  intro k m hm
  obtain ⟨_, -, -, -, rfl⟩ := sharePeers_mem h k m hm
  rfl

/-- Neither what is shared nor a COLLECT is part of a round. -/
theorem shared_op {shared : Sends × Bool} (h : sharePeers p is = some shared) :
    ∀ k m, (k, m) ∈ shared.1 → m.op ≠ .begin ∧ m.op ≠ .accept := by
  intro k m hm
  simp [shared_commit h k m hm]

theorem collects_op :
    ∀ k m, (k, m) ∈ is.map (fun k => (k, collectMsg p)) → m.op ≠ .begin ∧ m.op ≠ .accept := by
  intro k m hm
  obtain ⟨-, rfl⟩ := mem_broadcast hm
  simp [collectMsg]

/-- Every local step is one of these moves. -/
theorem Local.round {p' : Monitor} {inp : Option MMonPaxos} {a : Action} {out : Sends} (hn : 2 ≤ n)
    (h : Local n p inp a p' out) (hexp : Expected p inp)
    (hcard : p.role = .leader → p.quorum.card ≠ 1) : Round n a.actor p (a.source inp) p' out := by
  cases h with
  | @win _ _ _ hepoch => exact .fresh collects_op fun _ => ⟨hepoch, rfl⟩
  | winAlone _ hmaj =>
    have := hmaj.2
    omega
  | lose => exact .fresh (by simp) (by simp [peonInit])
  | leave | newer | collectBoot | lastBoot => exact .fresh (by simp) (by simp [bootstrapped])
  | crash => exact .fresh (by simp) (by simp [restarted])
  | drop | apply =>
    exact .quiet (by simp) (fun hr => ⟨hr, rfl⟩) (fun _ => Iff.rfl)
      (fun _ _ => ⟨rfl, rfl, rfl, rfl⟩) fun _ hw => ⟨hw, rfl, rfl⟩
  | collect _ _ hrole | @commit _ _ _ _ _ hrole => exact .fresh (by simp) (by simp [hrole])
  | lastShareBoot hl => exact .fresh (shared_op hl.sent) (by simp [bootstrapped])
  | @lastRetry _ _ m _ hl =>
    have hrec := hexp.last m rfl hl.toLastHeard
    refine .quiet ?_ (fun _ => ⟨hl.role, by simp [collecting]⟩)
      (fun _ => by simp [Updating, collecting, hrec])
      (fun _ hu => absurd hrec hu.ne.1) fun _ hw => by simp [Writing, collecting] at hw
    intro k m' hm'
    rcases mem_append.1 hm' with hm' | hm'
    · exact shared_op hl.sent k m' hm'
    · exact collects_op k m' hm'
  | @lastOld _ _ m _ hl | @lastCount _ _ m _ hl =>
    have hrec := hexp.last m rfl hl.toLastHeard
    exact .quiet (shared_op hl.sent) (fun _ => ⟨hl.role, by simp⟩) (fun _ => by simp [Updating])
      (fun _ hu => absurd hrec hu.ne.1) fun _ hw => by simp [Writing, hrec] at hw
  | @lastActive _ _ m _ hl =>
    have hrec := hexp.last m rfl hl.toLastHeard
    exact .quiet (shared_op hl.sent) (fun _ => ⟨hl.role, by simp [recovered]⟩)
      (fun _ => by simp [Updating, recovered, hrec])
      (fun _ hu => absurd hrec hu.ne.1) fun _ hw => by simp [Writing, recovered] at hw
  | @lastBegin j i m _ x _ _ hl _ _ _ _ _ hbegin =>
    have hrec := hexp.last m rfl hl.toLastHeard
    obtain ⟨rfl, hupd, rfl⟩ := begin_round hbegin (by simpa [recovered] using hcard hl.role)
    exact @Round.start n i p _ (begun i x (recovered .updatingPrevious (counted m (heard j m p))))
      _ _ hl.role (fun hu => hu.ne.1 hrec) (by simp [begun, recovered]) hupd rfl rfl rfl rfl rfl
      (shared_commit hl.sent) (by simpa [begun, recovered] using hl.role)
  | vote hop hepoch _ hpn hlast => exact .vote hop hepoch hpn hlast (hexp.vote _ rfl hop hepoch hpn)
  | @accept _ _ _ hop hepoch hrole _ _ hstate =>
    exact .accept hop hepoch (hrole.resolve_right (hexp.accept _ rfl hop hepoch _)) rfl rfl rfl
      rfl rfl (.inl hstate)
  | @acceptCommit _ _ _ _ hop hepoch hrole _ _ _ _ hdone =>
    refine .accept hop hepoch (hrole.resolve_right (hexp.accept _ rfl hop hepoch _)) rfl rfl rfl
      rfl rfl (.inr ⟨?_, hdone⟩)
    unfold Writing committing
    split <;> simp
  | @propose i _ _ _ _ hrole hstate hbegin =>
    obtain ⟨rfl, hupd, rfl⟩ := begin_round hbegin (hcard hrole)
    exact @Round.start n i p _ (begun i _ { p with state := .updating }) [] _ hrole
      (fun hu => hu.ne.2.1 hstate) rfl hupd rfl rfl rfl rfl rfl (by simp) hrole
  | @finish _ _ _ _ _ hrole hstate =>
    refine .quiet ?_ (fun _ => ⟨hrole, rfl⟩) (fun _ => ?_) (fun _ hu => absurd hstate hu.ne.2.2)
      fun _ hw => by simp [Writing, finished] at hw
    · intro k m' hm'
      obtain ⟨-, rfl⟩ := mem_broadcast hm'
      simp [commitMsg]
    · rcases hstate with hs | hs <;> simp [Updating, finished, hs]

/-! ## The invariant -/

/-- The message is for the round the leader is in, and the peer is still to be
counted. -/
structure Owed (i : Nat) (p : Monitor) (m : MMonPaxos) : Prop where
  updating : Updating p
  pn : m.pn = p.acceptedPn
  last : m.lastCommitted = p.lastCommitted
  notCounted : i ∉ p.accepted
  mem : i ∈ p.quorum

/-- Is it a message of kind `op` in epoch `e`? -/
def isOp (op : PaxosOp) (e : Nat) (m : MMonPaxos) : Bool := m.op = op ∧ m.epoch = e

theorem isOp_iff {op : PaxosOp} {e : Nat} {m : MMonPaxos} :
    isOp op e m = true ↔ m.op = op ∧ m.epoch = e := by
  simp [isOp]

/-- A leader `p` and a peer, with the messages `D` to the peer and `U` back. -/
structure RoundTok (i : Nat) (p : Monitor) (D U : List MMonPaxos) : Prop where
  down : ∀ m ∈ D, isOp .begin p.epoch m → Owed i p m
  up : ∀ m ∈ U, isOp .accept p.epoch m → Owed i p m
  one : D.countP (isOp .begin p.epoch) + U.countP (isOp .accept p.epoch) ≤ 1

structure Rounds (M : Finset Nat) (s : System) : Prop where
  writing : ∀ l ∈ M, (s.mon l).role = .leader → Writing (s.mon l) →
    (s.mon l).accepted = (s.mon l).quorum
  pair : ∀ l ∈ M, (s.mon l).role = .leader → ∀ i ∈ M, i ≠ l →
    RoundTok i (s.mon l) (s.net l i) (s.net i l)

section Pairs

variable {i : Nat} {p p' : Monitor} {D D' U U' V : List MMonPaxos}

theorem RoundTok.none (hD : ∀ m ∈ D, ¬ isOp .begin p.epoch m)
    (hU : ∀ m ∈ U, ¬ isOp .accept p.epoch m) : RoundTok i p D U where
  down m hm hop := absurd hop (hD m hm)
  up m hm hop := absurd hop (hU m hm)
  one := by
    rw [countP_eq_zero.2 hD, countP_eq_zero.2 hU]
    omega

/-- Outside a round nothing is out. -/
theorem RoundTok.quiet (h : RoundTok i p D U) (hidle : ¬ Updating p) :
    (∀ m ∈ D, ¬ isOp .begin p.epoch m) ∧ ∀ m ∈ U, ¬ isOp .accept p.epoch m :=
  ⟨fun m hm hop => hidle (h.down m hm hop).updating, fun m hm hop => hidle (h.up m hm hop).updating⟩

theorem RoundTok.mono (h : RoundTok i p D U) (hepoch : p'.epoch = p.epoch)
    (howed : ∀ m, Owed i p m → Owed i p' m) (hD : ∀ m ∈ D', isOp .begin p.epoch m → m ∈ D)
    (hU : ∀ m ∈ U', isOp .accept p.epoch m → m ∈ U)
    (hcD : D'.countP (isOp .begin p.epoch) ≤ D.countP (isOp .begin p.epoch))
    (hcU : U'.countP (isOp .accept p.epoch) ≤ U.countP (isOp .accept p.epoch)) :
    RoundTok i p' D' U' := by
  refine ⟨?_, ?_, ?_⟩ <;> rw [hepoch]
  · exact fun m hm hop => howed m (h.down m (hD m hm hop) hop)
  · exact fun m hm hop => howed m (h.up m (hU m hm hop) hop)
  · exact (Nat.add_le_add hcD hcU).trans h.one

/-- More messages of other kinds. -/
theorem countP_append_other {op : PaxosOp} {e : Nat} (hno : ∀ m ∈ V, ¬ isOp op e m) :
    (D ++ V).countP (isOp op e) = D.countP (isOp op e) ∧
      ∀ m ∈ D ++ V, isOp op e m → m ∈ D := by
  refine ⟨?_, ?_⟩
  · rw [countP_append, countP_eq_zero.2 hno, add_zero]
  · intro m hm hop
    rcases mem_append.1 hm with hm | hm
    · exact hm
    · exact absurd hop (hno m hm)

theorem msgsTo_map_length (k : Nat) (b : MMonPaxos) (ks : List Nat) :
    (msgsTo k (ks.map fun i => (i, b))).length = ks.count k := by
  induction ks with
  | nil => rfl
  | cons i _ ih =>
    unfold msgsTo at ih ⊢
    by_cases hi : i = k <;> simp_all

theorem msgsTo_append (k : Nat) (out out' : Sends) :
    msgsTo k (out ++ out') = msgsTo k out ++ msgsTo k out' := by
  simp [msgsTo]

end Pairs

/-! ## Steps -/

section Steps

variable {s s' : System} {x : Nat} {src : Source} {p' : Monitor} {out : Sends}

theorem Rounds.leader_step (h : Rounds M s) (hcore : Core n M L R s) (hx : x ∈ M)
    (hround : Round n x (s.mon x) src p' out) (heff : Effect s s' x src p' out)
    (hrole' : p'.role = .leader) :
    (Writing p' → p'.accepted = p'.quorum) ∧ ∀ i ∈ M, i ≠ x →
      RoundTok i p' (s.net x i ++ msgsTo i out) (s'.net i x) := by
  have hsub : ∀ i, i ≠ x → (s'.net i x).Sublist (s.net i x) := fun i hi => (heff.suffix hi).sublist
  cases hround with
  | quiet hout hepoch hupd hsame hwrite =>
    obtain ⟨hrole, he⟩ := hepoch hrole'
    refine ⟨fun hw => ?_, fun i hi hne => ?_⟩
    · obtain ⟨hw', ha, hq⟩ := hwrite hrole' hw
      rw [ha, hq]
      exact h.writing x hx hrole hw'
    · obtain ⟨hc, hD⟩ := countP_append_other
        fun m hm hop => (hout i m (mem_msgsTo.1 hm)).1 (isOp_iff.1 hop).1
      refine (h.pair x hx hrole i hi hne).mono he ?_ hD (fun m hm _ => (hsub i hne).subset hm)
        hc.le (hsub i hne).countP_le
      intro m ho
      obtain ⟨ha, hl, hacc, hq⟩ := hsame hrole' ho.updating
      exact ⟨(hupd hrole').2 ho.updating, by rw [ha, ho.pn], by rw [hl, ho.last],
        by rw [hacc]; exact ho.notCounted, by rw [hq]; exact ho.mem⟩
  | fresh hout hlead =>
    obtain ⟨_, hrec⟩ := hlead hrole'
    refine ⟨fun hw => by simp [Writing, hrec] at hw, fun i hi hne => .none ?_ ?_⟩
    · intro m hm hop
      obtain ⟨hop, he⟩ := isOp_iff.1 hop
      rcases mem_append.1 hm with hm | hm
      · have := (hcore.link x i m hm).sent
        omega
      · exact (hout i m (mem_msgsTo.1 hm)).1 hop
    · intro m hm hop
      obtain ⟨hop, he⟩ := isOp_iff.1 hop
      rcases (hcore.link i x m ((hsub i hne).subset hm)).up (.inr hop) with h' | ⟨h', -⟩ <;> omega
  | vote _ _ _ _ hrole => exact absurd hrole' hrole
  | @start _ _ shares b hrole hidle hepoch hupd haccepted _ _ hbpn hblast hshares =>
    refine ⟨fun hw => absurd hw hupd.ne.2.2, fun i hi hne => ?_⟩
    have hold := (h.pair x hx hrole i hi hne).quiet hidle
    rw [← hepoch] at hold
    have hU : ∀ m ∈ s'.net i x, ¬ isOp .accept p'.epoch m := fun m hm =>
      hold.2 m ((hsub i hne).subset hm)
    have hS : ∀ m ∈ msgsTo i shares, ¬ isOp .begin p'.epoch m := by
      intro m hm hop
      simp [hshares i m (mem_msgsTo.1 hm), isOp] at hop
    rw [msgsTo_append]
    refine ⟨?_, fun m hm hop => absurd hop (hU m hm), ?_⟩
    · intro m hm hop
      rcases mem_append.1 hm with hm | hm
      · exact absurd hop (hold.1 m hm)
      rcases mem_append.1 hm with hm | hm
      · exact absurd hop (hS m hm)
      · obtain ⟨hk, rfl⟩ := mem_broadcast (mem_msgsTo.1 hm)
        exact ⟨hupd, hbpn, hblast, by simpa [haccepted] using hne, (others_mem hk).1⟩
    · rw [countP_eq_zero.2 hU, countP_append, countP_append,
        countP_eq_zero.2 hold.1, countP_eq_zero.2 hS]
      -- a broadcast puts at most one message on each link
      have := nodup_iff_count_le_one.1 (others_nodup (n := n) x p'.quorum) i
      rw [← msgsTo_map_length i b] at this
      have := countP_le_length (p := isOp .begin p'.epoch)
        (l := msgsTo i ((others n x p'.quorum).map fun k => (k, b)))
      omega
  | @accept j _ _ hop hepoch hrole hepoch' hpn hlast hquorum haccepted hstate =>
    refine ⟨fun hw => ?_, fun i hi hne => ?_⟩
    · rcases hstate with hu | ⟨-, hall⟩
      · exact absurd hw hu.ne.2.2
      · exact hall
    · have hnil : s.net x i ++ msgsTo i [] = s.net x i := by simp [msgsTo]
      rw [hnil]
      have hpair := h.pair x hx hrole i hi hne
      by_cases hij : i = j
      · -- the ACCEPT was all that was out for this peer
        subst hij
        have hone := hpair.one
        rw [heff.head hne, countP_cons_of_pos (isOp_iff.2 ⟨hop, hepoch⟩)] at hone
        refine .none ?_ ?_ <;> rw [hepoch'] <;> refine countP_eq_zero.1 ?_ <;> omega
      · rw [heff.same hne hij]
        refine hpair.mono hepoch' ?_ (fun _ hm _ => hm) (fun _ hm _ => hm) le_rfl le_rfl
        intro _ ho
        have hi' : i ∉ p'.accepted := by
          rw [haccepted, Finset.mem_insert, not_or]
          exact ⟨hij, ho.notCounted⟩
        rcases hstate with hu | ⟨-, hall⟩
        · exact ⟨hu, by rw [hpn, ho.pn], by rw [hlast, ho.last], hi', hquorum ▸ ho.mem⟩
        · rw [hall, hquorum] at hi'
          exact absurd ho.mem hi'

theorem Rounds.peer_step (h : Rounds M s) (hx : x ∈ M) (hround : Round n x (s.mon x) src p' out)
    (heff : Effect s s' x src p' out) {l : Nat} (hl : l ∈ M) (hrole : (s.mon l).role = .leader)
    (hne : x ≠ l) : RoundTok x (s.mon l) (s'.net l x) (s.net x l ++ msgsTo l out) := by
  have hpair := h.pair l hl hrole x hx hne
  have hsub : (s'.net l x).Sublist (s.net l x) := (heff.suffix hne.symm).sublist
  have hother : (∀ k m, (k, m) ∈ out → k = l → m.op ≠ .accept) →
      RoundTok x (s.mon l) (s'.net l x) (s.net x l ++ msgsTo l out) := by
    intro hout
    obtain ⟨hc, hU⟩ := countP_append_other
      fun m hm hop => hout l m (mem_msgsTo.1 hm) rfl (isOp_iff.1 hop).1
    exact hpair.mono rfl (fun _ ho => ho) (fun m hm _ => hsub.subset hm) hU hsub.countP_le hc.le
  cases hround with
  | quiet hout | fresh hout => exact hother fun k m hm _ => (hout k m hm).2
  | @vote j m _ hop hepoch hpn hlast =>
    by_cases hj : j = l
    · subst hj
      have hhead := heff.head hne.symm
      rw [hhead] at hpair
      have hto : msgsTo j [(j, acceptMsg (s.mon x))] = [acceptMsg (s.mon x)] := by simp [msgsTo]
      rw [hto]
      by_cases he : m.epoch = (s.mon j).epoch
      · have hb : isOp .begin (s.mon j).epoch m := isOp_iff.2 ⟨hop, he⟩
        have ho := hpair.down m (by simp) hb
        have hone := hpair.one
        rw [countP_cons_of_pos hb] at hone
        refine ⟨fun m' hm' => hpair.down m' (mem_cons_of_mem _ hm'), ?_, ?_⟩
        · intro m' hm' hop'
          rcases mem_append.1 hm' with hm' | hm'
          · exact hpair.up m' hm' hop'
          · obtain rfl := mem_singleton.1 hm'
            exact ⟨ho.updating, hpn.symm.trans ho.pn, hlast.symm.trans ho.last, ho.notCounted,
              ho.mem⟩
        · have ha : isOp .accept (s.mon j).epoch (acceptMsg (s.mon x)) :=
            isOp_iff.2 ⟨rfl, hepoch.symm.trans he⟩
          rw [countP_append, countP_cons_of_pos ha, countP_nil]
          omega
      · -- an old round, which says nothing about the current one
        have ha : ∀ m' ∈ [acceptMsg (s.mon x)], ¬ isOp .accept (s.mon j).epoch m' := by
          intro m' hm' hop'
          obtain rfl := mem_singleton.1 hm'
          exact he (hepoch.trans (isOp_iff.1 hop').2)
        obtain ⟨hc, hU⟩ := countP_append_other ha
        exact hpair.mono rfl (fun _ ho => ho) (fun m' hm' _ => mem_cons_of_mem _ hm') hU
          (sublist_cons_self _ _).countP_le hc.le
    · refine hother fun k m' hm' hk => ?_
      exact absurd ((mem_reply hm').1.symm.trans hk) hj
  | start _ _ _ _ _ hbop _ _ _ hshares =>
    refine hother fun k m hm _ => ?_
    rcases mem_append.1 hm with hm | hm
    · simp [hshares k m hm]
    · obtain ⟨-, rfl⟩ := mem_broadcast hm
      simp [hbop]
  | accept => exact hother (by simp)

/-- Every step keeps the rounds in order. -/
theorem Rounds.step (h : Rounds M s) (hcore : Core n M L R s) (hx : x ∈ M)
    (hround : Round n x (s.mon x) src p' out) (heff : Effect s s' x src p' out) : Rounds M s' := by
  refine ⟨fun l hl hrole hw => ?_, fun l hl hrole i hi hne => ?_⟩
  · rw [heff.mon] at hrole hw ⊢
    by_cases hlx : l = x
    · subst hlx
      simp only [update_self] at hrole hw ⊢
      exact (h.leader_step hcore hx hround heff hrole).1 hw
    · simp only [update_of_ne hlx] at hrole hw ⊢
      exact h.writing l hl hrole hw
  · rw [heff.mon] at hrole ⊢
    by_cases hlx : l = x
    · subst hlx
      simp only [update_self] at hrole ⊢
      rw [heff.sent i hne]
      exact (h.leader_step hcore hx hround heff hrole).2 i hi hne
    · simp only [update_of_ne hlx] at hrole ⊢
      by_cases hix : i = x
      · subst hix
        rw [heff.sent l hlx]
        exact h.peer_step hx hround heff hl hrole hne
      · rw [heff.other l i hlx hix, heff.other i l hix hlx]
        exact h.pair l hl hrole i hi hne

end Steps

end Ceph.Mon.Paxos
