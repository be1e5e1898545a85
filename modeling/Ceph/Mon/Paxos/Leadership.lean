import Ceph.Mon.Paxos.Votes

set_option autoImplicit false

/-!
# What a leader finds out

From COLLECT to commit: a leader starts with its own votes, adds what each LAST
reports, and at the end knows enough about the votes of a majority to propose.
-/

namespace Ceph.Mon.Paxos

open Ceph.Lib Option Finset

variable {n : Nat} {g g' : Ghost} {p p' : Monitor} {S : Finset Nat}

/-- A leader that collects knows its own votes. -/
theorem LeaderVote.collecting {x oldpn : Nat} (hs : Synced p) (hvote : MonVote g x p)
    (hpos : ∀ q v x, g.prop q v = some x → 0 < q)
    (hnone : ∀ v, g.prop (collecting x oldpn p).acceptedPn v = none) :
    LeaderVote g {x} (collecting x oldpn p) := by
  obtain ⟨-, hgt, hgt', -⟩ := collecting_pn x oldpn p
  have hlt : promise p < _ := max_lt (lt_of_le_of_lt hs.pn hgt') hgt
  refine ⟨by omega, fun _ => ⟨hnone, ?_, ?_⟩, fun h => by simp [Paxos.collecting] at h,
    fun h => by simp [Proposing, Paxos.collecting] at h⟩
  · cases hy : p.store.values (p.lastCommitted + 1) with
    | none => exact .inl (by simp [Paxos.collecting, hy])
    | some y =>
      obtain ⟨hpn, -, hle, hprop⟩ := hvote.pendingPnOf hs hpos hy p.acceptedPn
      refine .inr ⟨by simp [Paxos.collecting, hy], ?_, y, hy, ?_⟩
      · simp only [Paxos.collecting, hy, isSome_some, if_true, hpn] at hlt ⊢
        omega
      · simpa [Paxos.collecting, hy, hpn] using hprop
  · intro _ hi q v hv _
    obtain rfl := mem_singleton.1 hi
    have hlast := hs.last
    have hle := (hvote.le q v hv).2
    refine ⟨by simp only [Paxos.collecting]; omega, ?_⟩
    intro hveq
    have hveq' : v = p.store.lastCommitted + 1 := by
      simp only [Paxos.collecting] at hveq
      omega
    subst hveq'
    obtain ⟨hq, hsome⟩ := hvote.top q hv
    rw [← hlast] at hsome
    obtain ⟨y, hy⟩ := isSome_iff_exists.1 hsome
    obtain ⟨hpn, -⟩ := hvote.pendingPnOf hs hpos hy p.acceptedPn
    simp only [Paxos.collecting, hy, isSome_some, if_true, hpn]
    exact ⟨trivial, hq⟩

variable {m : MMonPaxos}

/-- Hearing a LAST keeps what the leader knows: versions that others have
committed are no longer open. -/
theorem LeaderVote.heard {C : Commits} (hC : HistoryOk C) {lo : Nat} (h : LeaderVote g S p)
    (hrec : p.state = .recovering) (hm : Carries C lo m) (hst : StoreAt C p.lastCommitted p.store)
    (hlo : lo ≤ p.lastCommitted + 1 ∨ lo ≤ m.firstCommitted)
    (hfirst : m.firstCommitted ≤ p.lastCommitted + 1) (j : Nat) :
    LeaderVote g S (heard j m p) ∧
      (heard j m p).lastCommitted = max p.lastCommitted m.lastCommitted := by
  have hst' : StoreAt C (recorded j m p).lastCommitted (recorded j m p).store := hst
  rcases storeState_spec hC hm hst' with ⟨hno, heq⟩ | ⟨-, hlt, _, heq, -⟩ <;>
    rw [show Paxos.heard j m p = _ from heq]
  · have hle : m.lastCommitted ≤ p.lastCommitted := by
      by_contra hgt
      exact hno ⟨by simp only [recorded]; omega, not_le.1 hgt⟩
    exact ⟨⟨h.pos, h.recovering, h.active, h.proposing⟩, (max_eq_left hle).symm⟩
  · replace hlt : p.lastCommitted < m.lastCommitted := hlt
    obtain ⟨hnone, hlearned, hknown⟩ := h.recovering hrec
    refine ⟨⟨h.pos, fun _ => ⟨hnone, ?_, ?_⟩, fun hs => ?_, fun hs => ?_⟩,
      (max_eq_right hlt.le).symm⟩
    · left
      rcases hlearned with ⟨hv, hpn, hval⟩ | ⟨hv, -⟩
      · simp [stored, recorded, hv, hpn, hval]
      · have hob : p.uncommittedV ≠ 0 ∧ p.uncommittedV ≤ m.lastCommitted := by omega
        simp [stored, recorded, hob]
    · intro i hi q v hv hq
      have := (hknown i hi q v hv hq).1
      refine ⟨by simp only [stored]; omega, fun hveq => ?_⟩
      simp only [stored] at hveq
      omega
    · simp [stored, recorded, hrec] at hs
    · simp [Proposing, stored, recorded, hrec] at hs

/-- Counting a LAST adds the votes of its sender. -/
theorem LeaderVote.counted {j : Nat} {q : Monitor} (h : LeaderVote g S p')
    (hrec : p'.state = .recovering) (hacc : p'.acceptedPn = p.acceptedPn)
    (hlc : p'.lastCommitted = max p.lastCommitted m.lastCommitted)
    (hlast : LastVote g j p q m) : LeaderVote g (insert j S) (counted m p') := by
  obtain ⟨hnone, hlearned, hknown⟩ := h.recovering hrec
  refine ⟨by simpa using h.pos, fun _ => ⟨by simpa using hnone, ?_, ?_⟩,
    fun hs => by simp [hrec] at hs, fun hs => by simp [Proposing, hrec] at hs⟩
  · rcases counted_eq m p' with heq | ⟨hpn, -, hle, -, heq⟩ <;> rw [heq]
    · exact hlearned
    · obtain ⟨hlt, y, hy, hprop⟩ := hlast.value hpn
      have hmlc : m.lastCommitted = p'.lastCommitted := by omega
      exact .inr ⟨by simp only [hmlc], by simpa [hacc] using hlt, y, hy, by
        simpa [hmlc] using hprop⟩
  · intro i hi pn v hv hlt
    simp only [counted_acceptedPn] at hlt
    simp only [counted_lastCommitted]
    rcases mem_insert.1 hi with rfl | hi
    · -- the sender of the LAST
      rw [hacc] at hlt
      have hb := hlast.bound pn v hv hlt
      refine ⟨by omega, fun hveq => ?_⟩
      have hmlc : m.lastCommitted = p'.lastCommitted := by omega
      obtain ⟨hne, hle⟩ : m.uncommittedPn ≠ 0 ∧ pn ≤ m.uncommittedPn := by
        rw [hveq, ← hmlc] at hv
        rcases hlast.top pn hv hlt with _ | h'
        · omega
        · exact h'
      have hcases : p'.uncommittedV = 0 ∧ p'.uncommittedPn = 0 ∨
          p'.uncommittedV = p'.lastCommitted + 1 := by
        rcases hlearned with ⟨hV, hz, -⟩ | ⟨hV, -⟩
        · exact .inl ⟨hV, hz⟩
        · exact .inr hV
      unfold Paxos.counted learnUncommitted
      by_cases hge : p'.uncommittedPn ≤ m.uncommittedPn
      · rw [if_pos ⟨hne, hge, by simp only; omega, by simp only; omega⟩]
        exact ⟨by simp only [hmlc], hle⟩
      · -- the leader keeps a value voted for under a higher number
        rw [if_neg fun hcond => hge hcond.2.1]
        exact ⟨by simp only; omega, by simp only; omega⟩
    · obtain ⟨hle, htop⟩ := hknown i hi pn v hv hlt
      refine ⟨hle, fun hveq => ?_⟩
      obtain ⟨hV, hpn⟩ := htop hveq
      rcases counted_eq m p' with heq | ⟨-, hge, _, -, heq⟩ <;> rw [heq]
      · exact ⟨hV, hpn⟩
      · have hmlc : m.lastCommitted = p'.lastCommitted := by omega
        exact ⟨by simp only [hmlc], hpn.trans hge⟩

/-- The whole quorum has answered and left nothing open. -/
theorem LeaderVote.activated (h : LeaderVote g S p) (hrec : p.state = .recovering)
    (hnone : p.uncommittedValue = none ∨ p.uncommittedV ≠ p.lastCommitted + 1) :
    LeaderVote g S (recovered .active p) := by
  obtain ⟨hprop, hlearned, hknown⟩ := h.recovering hrec
  refine ⟨h.pos, fun hs => by simp [recovered] at hs, fun _ => ⟨fun v _ => hprop v, ?_⟩,
    fun hs => by simp [Proposing, recovered] at hs⟩
  intro i hi q v hv hlt
  obtain ⟨_, _⟩ := hknown i hi q v hv hlt
  have hV : p.uncommittedV ≠ p.lastCommitted + 1 := by
    rcases hlearned with ⟨hV, -⟩ | ⟨-, -, _, hy, -⟩
    · omega
    · exact hnone.resolve_left (by simp [hy])
  simp only [recovered]
  omega

/-- The proposal of `v` by `x` as the next version, with its own vote. -/
abbrev Ghost.begun (g : Ghost) (x : Nat) (v : Tx) (p : Monitor) : Ghost :=
  (g.propose p.acceptedPn (p.lastCommitted + 1) (dressValue p.lastCommitted v)).cast x
    p.acceptedPn (p.lastCommitted + 1)

/-- A leader begins with a version that it has not proposed before. -/
theorem LeaderVote.begun {x : Nat} {v : Tx} (hpos : 0 < p.acceptedPn) (hupd : Updating p)
    (hprop : ∀ w, p.lastCommitted < w → g.prop p.acceptedPn w = none)
    (hvotes : ∀ i ∈ S, ∀ q w, g.vote i q w → q < p.acceptedPn → w ≤ p.lastCommitted + 1) :
    LeaderVote (g.begun x v p) S (begun x v p) := by
  have hstate : (Paxos.begun x v p).state = p.state := rfl
  refine ⟨hpos, fun hs => absurd hs (hstate ▸ hupd.ne.1),
    fun hs => absurd hs (hstate ▸ hupd.ne.2.1), fun _ => ⟨?_, ?_, ?_, ?_⟩⟩
  · intro w hw
    have hw' : p.lastCommitted + 1 < w := hw
    have hne : w ≠ p.lastCommitted + 1 := by omega
    simpa [Paxos.begun, Ghost.cast, Ghost.propose, hne] using hprop w (by omega)
  · rintro i hi q w (hv | ⟨-, rfl, -⟩) hlt
    · exact hvotes i hi q w hv hlt
    · exact absurd hlt (lt_irrefl _)
  · intro _ hy
    cases hy
    simp [Paxos.begun, Ghost.cast, Ghost.propose]
  · intro i hi
    obtain rfl := mem_singleton.1 hi
    exact .inr ⟨rfl, rfl, rfl⟩

/-- Counting an ACCEPT, and writing the commit, as long as votes back it up. -/
theorem LeaderVote.accept (h : LeaderVote g S p) (hupd : Updating p) (hprop' : Proposing p')
    (hpn : p'.acceptedPn = p.acceptedPn) (hlc : p'.lastCommitted = p.lastCommitted)
    (hnew : p'.newValue = p.newValue)
    (haccepted : ∀ i ∈ p'.accepted, i ∈ p.accepted ∨ g.vote i p.acceptedPn (p.lastCommitted + 1)) :
    LeaderVote g S p' := by
  have hprop : Proposing p := by
    rcases hupd with hs | hs <;> simp [Proposing, hs]
  obtain ⟨hnone, hvotes, hval, hacc⟩ := h.proposing hprop
  refine ⟨hpn ▸ h.pos, fun hs => by simp [Proposing, hs] at hprop',
    fun hs => by simp [Proposing, hs] at hprop', fun _ => ?_⟩
  rw [hpn, hlc, hnew]
  refine ⟨hnone, hvotes, hval, fun i hi => ?_⟩
  rcases haccepted i hi with hi | hi
  · exact hacc i hi
  · exact hi

/-- The commit is finished: the next version is open. -/
theorem LeaderVote.finished (h : LeaderVote g S p) (hprop : Proposing p) :
    LeaderVote g S (finished p) := by
  obtain ⟨hnone, hvotes, -, -⟩ := h.proposing hprop
  exact ⟨h.pos, fun hs => by simp [Paxos.finished] at hs, fun _ => ⟨hnone, hvotes⟩,
    fun hs => by simp [Proposing, Paxos.finished] at hs⟩

/-- What a peon that accepts the number of the leader `p` reports. -/
theorem lastMsg_vote {C : Commits} (hC : HistoryOk C) {i : Nat} {q : Monitor}
    (hs : Synced q) (hvote : MonVote g i q) (hpos : ∀ q v x, g.prop q v = some x → 0 < q)
    (hst : StoreAt C q.lastCommitted q.store) (hpn : m.pn = p.acceptedPn)
    (hacc : q.acceptedPn < m.pn) (hlast : q.store.lastPn < m.pn)
    (hle : m.lastCommitted ≤ p.lastCommitted) :
    LastVote g i p (promised m q) (lastMsg m q.acceptedPn (promised m q)) := by
  have hprom : promise q < m.pn := max_lt (lt_of_le_of_lt hs.pn hacc) hlast
  have hq : promised m q = { q with
      state := .recovering, acceptedPn := m.pn, store := { q.store with acceptedPn := m.pn } } := by
    unfold promised
    rw [if_pos hacc]
  have hlc : (promised m q).lastCommitted = q.lastCommitted := by rw [hq]
  have hval : (promised m q).store.values = q.store.values := by rw [hq]
  have hst' : StoreAt C (promised m q).lastCommitted (promised m q).store := by
    rw [hq]
    exact hst.congr rfl rfl
  have hpend : pendingPnOf (promised m q).store (promised m q).lastCommitted q.acceptedPn =
      pendingPnOf q.store q.lastCommitted q.acceptedPn := by
    rw [hq]
    rfl
  refine ⟨?_, ?_, ?_, ?_⟩
  · rw [← hpn, hq]
    exact le_max_left _ _
  · intro pn v hv _
    have := (hvote.le pn v hv).2
    rw [lastMsg_lastCommitted, hlc, hs.last]
    exact this
  · intro pn hv _
    rw [lastMsg_lastCommitted, hlc] at hv ⊢
    by_cases hcase : m.lastCommitted ≤ q.lastCommitted
    · right
      rw [hs.last] at hv
      obtain ⟨hle', hsome⟩ := hvote.top pn hv
      rw [← hs.last] at hsome
      obtain ⟨y, hy⟩ := isSome_iff_exists.1 hsome
      obtain ⟨hpo, hne, -, -⟩ := hvote.pendingPnOf hs hpos hy q.acceptedPn
      have hu := (lastMsg_uncommitted hC q.acceptedPn hst' (hlc ▸ hcase)
        (show (promised m q).store.values _ = some y by rw [hval, hlc, hy])).1
      rw [hpend, hpo] at hu
      rw [hu]
      exact ⟨hne, hle'⟩
    · exact .inl (by omega)
  · intro hne
    rw [lastMsg_lastCommitted]
    cases hy : q.store.values (q.lastCommitted + 1) with
    | none => exact absurd (lastMsg_uncommittedPn_none (.inl (by rw [hval, hlc, hy]))) hne
    | some y =>
      by_cases hcase : m.lastCommitted ≤ q.lastCommitted
      · obtain ⟨hpo, -, hle', hprop⟩ := hvote.pendingPnOf hs hpos hy q.acceptedPn
        obtain ⟨hu, hlook⟩ := lastMsg_uncommitted hC q.acceptedPn hst' (hlc ▸ hcase)
          (show (promised m q).store.values _ = some y by rw [hval, hlc, hy])
        rw [hpend, hpo] at hu
        rw [hu, hlc]
        rw [hlc] at hlook
        exact ⟨by omega, y, hlook, hprop⟩
      · exact absurd (lastMsg_uncommittedPn_none (.inr (by rw [hlc]; omega))) hne

end Ceph.Mon.Paxos
