import Ceph.Mon.Paxos.Rounds

set_option autoImplicit false

/-!
# Proposals and votes

The ghost state of the agreement proof: which value was proposed under which
proposal number for which version, and who has voted for it.  A monitor votes
under the largest number it has promised, where the numbers that a leader hands
out count as promises of its own.  The invariant ties both to what the monitors
store and to what the messages under way report.
-/

namespace Ceph.Mon.Paxos

open Ceph.Lib

variable {n : Nat}

/-- Proposals by proposal number and version, and votes by monitor, proposal
number and version. -/
structure Ghost where
  prop : Nat → Nat → Option Tx
  vote : Nat → Nat → Nat → Prop

/-- The ballots of one version. -/
def Ghost.decision (g : Ghost) (v : Nat) : Ballots Nat Nat Tx where
  proposed pn := g.prop pn v
  voted i pn := g.vote i pn v

/-- `x` has been chosen as the value of version `v`. -/
def Ghost.Chosen (g : Ghost) (n v : Nat) (x : Tx) : Prop :=
  ∃ pn, (g.decision v).Chosen (Majority n) pn x

/-- The largest number a monitor has promised, by its store. -/
def promise (p : Monitor) : Nat := max p.store.acceptedPn p.store.lastPn

/-- What a monitor has voted for, as far as its store goes. -/
structure MonVote (g : Ghost) (i : Nat) (p : Monitor) : Prop where
  le : ∀ q v, g.vote i q v → q ≤ promise p ∧ v ≤ p.store.lastCommitted + 1
  top : ∀ q, g.vote i q (p.store.lastCommitted + 1) → q ≤ p.store.pendingPn ∧
    (p.store.values (p.store.lastCommitted + 1)).isSome
  pending : ∀ x, p.store.values (p.store.lastCommitted + 1) = some x →
    p.store.pendingV = p.store.lastCommitted + 1 ∧ p.store.pendingPn ≤ promise p ∧
      g.prop p.store.pendingPn (p.store.lastCommitted + 1) = some x

/-- What a leader knows of the votes of monitor `i` below its own number. -/
def Known (g : Ghost) (i : Nat) (p : Monitor) : Prop :=
  ∀ q v, g.vote i q v → q < p.acceptedPn → v ≤ p.lastCommitted + 1 ∧
    (v = p.lastCommitted + 1 → p.uncommittedV = p.lastCommitted + 1 ∧ q ≤ p.uncommittedPn)

/-- The uncommitted value a leader has learned. -/
def Learned (g : Ghost) (p : Monitor) : Prop :=
  (p.uncommittedV = 0 ∧ p.uncommittedPn = 0 ∧ p.uncommittedValue = none) ∨
    (p.uncommittedV = p.lastCommitted + 1 ∧ p.uncommittedPn < p.acceptedPn ∧
      ∃ x, p.uncommittedValue = some x ∧ g.prop p.uncommittedPn (p.lastCommitted + 1) = some x)

/-- A leader that has heard from the monitors `S`, itself among them. -/
structure LeaderVote (g : Ghost) (S : Finset Nat) (p : Monitor) : Prop where
  pos : 0 < p.acceptedPn
  recovering : p.state = .recovering → (∀ v, g.prop p.acceptedPn v = none) ∧ Learned g p ∧
    ∀ i ∈ S, Known g i p
  active : p.state = .active → (∀ v, p.lastCommitted < v → g.prop p.acceptedPn v = none) ∧
    ∀ i ∈ S, ∀ q v, g.vote i q v → q < p.acceptedPn → v ≤ p.lastCommitted
  proposing : Proposing p → (∀ v, p.lastCommitted + 1 < v → g.prop p.acceptedPn v = none) ∧
    (∀ i ∈ S, ∀ q v, g.vote i q v → q < p.acceptedPn → v ≤ p.lastCommitted + 1) ∧
    (∀ x, p.newValue = some x → g.prop p.acceptedPn (p.lastCommitted + 1) = some x) ∧
    ∀ i ∈ p.accepted, g.vote i p.acceptedPn (p.lastCommitted + 1)

/-- What a LAST from `i` under the number of the leader `p` reports. -/
structure LastVote (g : Ghost) (i : Nat) (p q : Monitor) (m : MMonPaxos) : Prop where
  promised : p.acceptedPn ≤ promise q
  bound : ∀ pn v, g.vote i pn v → pn < p.acceptedPn → v ≤ m.lastCommitted + 1
  top : ∀ pn, g.vote i pn (m.lastCommitted + 1) → pn < p.acceptedPn →
    m.lastCommitted < p.lastCommitted ∨ m.uncommittedPn ≠ 0 ∧ pn ≤ m.uncommittedPn
  value : m.uncommittedPn ≠ 0 → m.uncommittedPn < p.acceptedPn ∧
    ∃ x, m.values.lookup (m.lastCommitted + 1) = some x ∧
      g.prop m.uncommittedPn (m.lastCommitted + 1) = some x

/-- The number in memory is the one promised. -/
def Live (p : Monitor) : Prop := p.store.acceptedPn = p.acceptedPn ∧ p.store.lastPn ≤ p.acceptedPn

theorem Live.promise {p : Monitor} (h : Live p) : promise p = p.acceptedPn := by
  unfold Paxos.promise
  rw [h.1]
  exact max_eq_left h.2

/-- The leader `p` of rank `l` and the peer `q` of rank `i`. -/
structure PairVote (n : Nat) (g : Ghost) (l i : Nat) (counted : Prop) (p q : Monitor)
    (D U : List MMonPaxos) : Prop where
  collect : ∀ m ∈ D, m.op = .collect → m.epoch = p.epoch → m.lastCommitted ≤ p.lastCommitted
  carries : ∀ m ∈ U, m.op = .last → m.epoch = p.epoch →
    ∃ lo, Carries (g.Chosen n) lo m ∧ (lo ≤ p.lastCommitted + 1 ∨ lo ≤ m.firstCommitted)
  last : ∀ m ∈ U, m.op = .last → m.epoch = p.epoch → m.pn = p.acceptedPn → LastVote g i p q m
  promised : counted → p.acceptedPn ≤ promise q
  live : q.role = .peon l → q.epoch = p.epoch → q.acceptedPn = p.acceptedPn → Live q

/-- A BEGIN or ACCEPT from `j` to the monitor `q`. -/
structure MsgVote (g : Ghost) (j : Nat) (q : Monitor) (m : MMonPaxos) : Prop where
  begin : m.op = .begin → ∃ x, m.values = [(m.lastCommitted + 1, x)] ∧
    g.prop m.pn (m.lastCommitted + 1) = some x
  live : m.op = .begin → q.role = .peon j → q.epoch = m.epoch → q.acceptedPn = m.pn → Live q
  accept : m.op = .accept → g.vote j m.pn (m.lastCommitted + 1)

/-- Every proposal was safe when it was made, by a majority that has promised to
cast no more votes below it. -/
structure Props (n : Nat) (g : Ghost) (s : System) : Prop where
  pos : ∀ q v x, g.prop q v = some x → 0 < q
  fresh : ∀ l k v, l < n → g.prop (100 * k + l) v ≠ none → 100 * k + l ≤ (s.mon l).store.lastPn
  wf : ∀ q v x, g.prop q v = some x → ∃ u, v = u + 1 ∧ Proposable (g.Chosen n) u x
  safe : ∀ q v x, g.prop q v = some x → ∃ Q, Majority n Q ∧
    (∀ i ∈ Q, q ≤ promise (s.mon i)) ∧ (g.decision v).SafeBy (SameValue v) Q q x

/-- The voting invariant. -/
structure Voting (n : Nat) (R : Nat → Finset Nat) (g : Ghost) (s : System) : Prop where
  props : Props n g s
  mon : ∀ i, i < n → MonVote g i (s.mon i)
  leader : ∀ l, l < n → (s.mon l).role = .leader → LeaderVote g (insert l (R l)) (s.mon l)
  pair : ∀ l, l < n → (s.mon l).role = .leader → ∀ i, i < n → i ≠ l →
    PairVote n g l i (i ∈ R l) (s.mon l) (s.mon i) (s.net l i) (s.net i l)
  msg : ∀ j i m, m ∈ s.net j i → MsgVote g j (s.mon i) m

/-- The chosen values form a history. -/
theorem Props.history {g : Ghost} {s : System} (h : Props n g s) : HistoryOk (g.Chosen n) where
  same v x y hx hy := by
    obtain ⟨p, hp⟩ := hx
    obtain ⟨q, hq⟩ := hy
    refine Ballots.chosen_agree hp hq (fun _ _ hQ hQ' => hQ.exists_common hQ') ?_
      (sameValue_equivalence v)
    intro q z hz
    obtain ⟨Q, hQ, -, hsafe⟩ := h.safe q v z hz
    exact ⟨Q, hQ, hsafe⟩
  wf v x hx := by
    obtain ⟨p, hprop, -⟩ := hx
    obtain ⟨_, hu, hwf⟩ := h.wf p (v + 1) x hprop
    obtain rfl := Nat.succ.inj hu
    exact hwf

/-! ## Growing ghost states -/

/-- The proposal of `y` for version `v` under `pn`. -/
def Ghost.propose (g : Ghost) (pn v : Nat) (y : Tx) : Ghost :=
  { g with prop := fun q w => if q = pn ∧ w = v then some y else g.prop q w }

/-- The vote of monitor `x` for the proposal of version `v` under `pn`. -/
def Ghost.cast (g : Ghost) (x pn v : Nat) : Ghost :=
  { g with vote := fun i q w => g.vote i q w ∨ (i = x ∧ q = pn ∧ w = v) }

/-- What monitor `x` adds in a step from `p` to `p'`: votes at or above what it
has promised, and as a leader proposals under its number. -/
structure Grows (g g' : Ghost) (x : Nat) (p p' : Monitor) : Prop where
  prop : ∀ q v y, g.prop q v = some y → g'.prop q v = some y
  prop_eq : ∀ q v, g'.prop q v = g.prop q v ∨ q = p'.acceptedPn ∧ p'.role = .leader
  vote : ∀ i q v, g.vote i q v → g'.vote i q v
  vote_new : ∀ i q v, g'.vote i q v → g.vote i q v ∨ i = x ∧ promise p ≤ q

variable {y : Tx} {m : MMonPaxos}

section Frame

variable {g g' : Ghost} {x : Nat} {p p' q q' : Monitor} {S : Finset Nat}

theorem Grows.refl : Grows g g x p p' :=
  ⟨fun _ _ _ h => h, fun _ _ => .inl rfl, fun _ _ _ h => h, fun _ _ _ h => .inl h⟩

theorem Grows.cast {pn v : Nat} (hpn : promise p ≤ pn) : Grows g (g.cast x pn v) x p p' := by
  refine ⟨fun _ _ _ h => h, fun _ _ => .inl rfl, fun _ _ _ h => .inl h, ?_⟩
  rintro _ _ _ (h | ⟨rfl, rfl, -⟩)
  · exact .inl h
  · exact .inr ⟨rfl, hpn⟩

theorem Grows.begin {v : Nat} (hnone : g.prop p'.acceptedPn v = none) (hrole : p'.role = .leader)
    (hpn : promise p ≤ p'.acceptedPn) :
    Grows g ((g.propose p'.acceptedPn v y).cast x p'.acceptedPn v) x p p' := by
  refine ⟨?_, ?_, fun _ _ _ h => .inl h, ?_⟩
  · intro q w _ hz
    by_cases h : q = p'.acceptedPn ∧ w = v
    · rw [h.1, h.2, hnone] at hz
      simp at hz
    · simpa [Ghost.cast, Ghost.propose, h] using hz
  · intro q w
    by_cases h : q = p'.acceptedPn
    · exact .inr ⟨h, hrole⟩
    · exact .inl (by simp [Ghost.cast, Ghost.propose, h])
  · rintro _ q w (h | ⟨rfl, rfl, -⟩)
    · exact .inl h
    · exact .inr ⟨rfl, hpn⟩

theorem Grows.chosen (h : Grows g g' x p p') (v : Nat) (y : Tx) (hy : g.Chosen n v y) :
    g'.Chosen n v y := by
  obtain ⟨pn, hpn⟩ := hy
  exact ⟨pn, hpn.mono (fun q z => h.prop q v z) fun i q => h.vote i q v⟩

variable {i : Nat} {src : Source}

/-- Whoever relies on a promise sees no new votes below it. -/
theorem Grows.old (h : Grows g g' x p p') {pn w v : Nat} (hlt : pn < w)
    (hle : i = x → w ≤ promise p) (hv : g'.vote i pn v) : g.vote i pn v := by
  rcases h.vote_new i pn v hv with hv | ⟨_, _⟩
  · exact hv
  · omega

theorem MonVote.frame (h : MonVote g i q) (hg : Grows g g' x p p') (hi : i ≠ x) :
    MonVote g' i q := by
  have hold : ∀ pn v, g'.vote i pn v → g.vote i pn v := fun pn v hv =>
    (hg.vote_new i pn v hv).resolve_right fun hx => hi hx.1
  refine ⟨fun pn v hv => h.le pn v (hold pn v hv), fun pn hv => h.top pn (hold pn _ hv), ?_⟩
  intro y hy
  obtain ⟨hv, hle, hprop⟩ := h.pending y hy
  exact ⟨hv, hle, hg.prop _ _ _ hprop⟩

section

variable {a a' : Monitor} (hg : Grows g g' x a a')

include hg

theorem Learned.mono (h : Learned g p) : Learned g' p := by
  rcases h with h | ⟨hv, hlt, y, hy, hp⟩
  · exact .inl h
  · exact .inr ⟨hv, hlt, y, hy, hg.prop _ _ _ hp⟩

/-- A leader keeps what it knows as long as those it has heard from have promised
its number and nobody else proposes under it. -/
theorem LeaderVote.frame (h : LeaderVote g S p)
    (hsame : ∀ v, g'.prop p.acceptedPn v = g.prop p.acceptedPn v)
    (hpn : x ∈ S → p.acceptedPn ≤ promise a) : LeaderVote g' S p := by
  have hnew : ∀ i ∈ S, ∀ q v, q < p.acceptedPn → g'.vote i q v → g.vote i q v :=
    fun i hi q v hlt hv => hg.old hlt (fun hix => hpn (hix ▸ hi)) hv
  refine ⟨h.pos, fun hs => ?_, fun hs => ?_, fun hs => ?_⟩
  · obtain ⟨hp, hl, hk⟩ := h.recovering hs
    exact ⟨fun v => (hsame v).trans (hp v), hl.mono hg,
      fun i hi q v hv hlt => hk i hi q v (hnew i hi q v hlt hv) hlt⟩
  · obtain ⟨hp, hk⟩ := h.active hs
    exact ⟨fun v hv => (hsame v).trans (hp v hv),
      fun i hi q v hv hlt => hk i hi q v (hnew i hi q v hlt hv) hlt⟩
  · obtain ⟨hp, hk, hx, ha⟩ := h.proposing hs
    exact ⟨fun v hv => (hsame v).trans (hp v hv),
      fun i hi q v hv hlt => hk i hi q v (hnew i hi q v hlt hv) hlt,
      fun y hy => hg.prop _ _ _ (hx y hy), fun i hi => hg.vote _ _ _ (ha i hi)⟩

theorem LastVote.frame (h : LastVote g i p q m) (hq : promise q ≤ promise q')
    (hacc : p'.acceptedPn = p.acceptedPn) (hlc : p.lastCommitted ≤ p'.lastCommitted)
    (hpr : i = x → promise q ≤ promise a) : LastVote g' i p' q' m := by
  have hnew : ∀ pn v, pn < p.acceptedPn → g'.vote i pn v → g.vote i pn v :=
    fun pn v hlt hv => hg.old hlt (fun hix => h.promised.trans (hpr hix)) hv
  refine ⟨?_, ?_, ?_, ?_⟩ <;> rw [hacc]
  · exact h.promised.trans hq
  · exact fun pn v hv hlt => h.bound pn v (hnew pn v hlt hv) hlt
  · intro pn hv hlt
    exact (h.top pn (hnew pn _ hlt hv) hlt).imp (fun hm => lt_of_lt_of_le hm hlc) id
  · intro hne
    obtain ⟨hlt, y, hy, hp⟩ := h.value hne
    exact ⟨hlt, y, hy, hg.prop _ _ _ hp⟩

theorem PairVote.frame {l : Nat} {c c' : Prop} {D D' U U' : List MMonPaxos}
    (h : PairVote n g l i c p q D U) (hepoch : p'.epoch = p.epoch)
    (hacc : p'.acceptedPn = p.acceptedPn) (hlc : p.lastCommitted ≤ p'.lastCommitted)
    (hq : promise q ≤ promise q') (hD : ∀ m ∈ D', m.op = .collect → m.epoch = p.epoch → m ∈ D)
    (hU : ∀ m ∈ U', m.op = .last → m ∈ U) (hc : c' → c ∨ p.acceptedPn ≤ promise q')
    (hlive : q'.role = .peon l → q'.epoch = p.epoch → q'.acceptedPn = p.acceptedPn →
      Live q' ∨ q.role = .peon l ∧ q.epoch = p.epoch ∧ q.acceptedPn = p.acceptedPn ∧
      (Live q → Live q')) (hpr : i = x → promise q ≤ promise a) :
    PairVote n g' l i c' p' q' D' U' := by
  refine ⟨?_, ?_, ?_, ?_, ?_⟩
  · rw [hepoch]
    exact fun m hm hop he => (h.collect m (hD m hm hop he) hop he).trans hlc
  · intro m hm hop he
    rw [hepoch] at he
    obtain ⟨lo, hlo, hle⟩ := h.carries m (hU m hm hop) hop he
    exact ⟨lo, hlo.mono hg.chosen, hle.imp (fun hle => hle.trans (Nat.succ_le_succ hlc)) id⟩
  · intro m hm hop he hpn
    rw [hepoch] at he
    have hl := h.last m (hU m hm hop) hop he (hpn.trans hacc)
    exact hl.frame hg hq hacc hlc hpr
  · intro hc'
    rw [hacc]
    rcases hc hc' with hc | hc
    · exact (h.promised hc).trans hq
    · exact hc
  · rw [hepoch, hacc]
    intro hr he ha
    rcases hlive hr he ha with hl | ⟨hr', he', ha', himp⟩
    · exact hl
    · exact himp (h.live hr' he' ha')

theorem MsgVote.frame {j : Nat} (h : MsgVote g j q m)
    (hlive : m.op = .begin → q'.role = .peon j → q'.epoch = m.epoch → q'.acceptedPn = m.pn →
      Live q' ∨ q.role = .peon j ∧ q.epoch = m.epoch ∧ q.acceptedPn = m.pn ∧
      (Live q → Live q')) : MsgVote g' j q' m where
  begin hop := by
    obtain ⟨y, hy, hp⟩ := h.begin hop
    exact ⟨y, hy, hg.prop _ _ _ hp⟩
  live hop hr he ha := by
    rcases hlive hop hr he ha with hl | ⟨hr', he', ha', himp⟩
    · exact hl
    · exact himp (h.live hop hr' he' ha')
  accept hop := hg.vote _ _ _ (h.accept hop)

end

/-! ## What a move does to promises -/

theorem promise_le_of {p p' : Monitor} (hacc : p.store.acceptedPn ≤ p'.store.acceptedPn)
    (hlast : p.store.lastPn ≤ p'.store.lastPn) : promise p ≤ promise p' := max_le_max hacc hlast

theorem Move.promise_le {out : Sends} (hb : MonBase p)
    (h : Move n i p src p' out) : Paxos.promise p ≤ Paxos.promise p' := by
  refine promise_le_of ?_ h.later.lastPn
  cases h with
  | quiet hview | count _ _ hview => exact le_of_eq hview.storeAcceptedPn.symm
  | depose _ _ _ _ hstore => exact le_of_eq hstore.symm
  | promise _ _ _ _ _ _ _ _ _ hacc =>
    rcases hacc with ⟨-, hs⟩ | ⟨hlt, -, hs⟩
    · exact le_of_eq hs.symm
    · rw [hs]
      exact hb.pn.trans hlt.le
  | collect _ _ _ _ _ hstore => exact le_of_eq hstore.symm

/-- A peon after a move: in a new epoch, bound by the number it has just accepted,
or as it was. -/
theorem Move.live {l : Nat} {out : Sends} (h : Move n i p src p' out)
    (hok : ∀ j m, src = some (j, m) → m.op = .collect → m.epoch = p.epoch → p.role = .peon j →
      p.acceptedPn < m.pn → p.store.lastPn < m.pn) (hrole : p'.role = .peon l) :
    (p.epoch < p'.epoch ∧
        (p'.acceptedPn = p.acceptedPn ∨ p'.acceptedPn = p.store.acceptedPn)) ∨ Live p' ∨
      p.role = .peon l ∧ p.epoch = p'.epoch ∧ p.acceptedPn = p'.acceptedPn ∧
        (Live p → Live p') := by
  have hview : SameView p p' → p.role = .peon l ∧ p.epoch = p'.epoch ∧
      p.acceptedPn = p'.acceptedPn ∧ (Live p → Live p') := by
    intro hv
    refine ⟨hv.role ▸ hrole, hv.epoch.symm, hv.acceptedPn.symm, ?_⟩
    unfold Live
    rw [hv.storeAcceptedPn, hv.lastPn, hv.acceptedPn]
    exact id
  cases h with
  | quiet hv => exact .inr (.inr (hview hv))
  | depose _ hepoch hsame hacc =>
    rcases lt_or_eq_of_le hepoch with hlt | heq
    · exact .inl ⟨hlt, hacc⟩
    · simp [hsame heq.symm] at hrole
  | @promise j m _ _ hop hepoch hrole'' _ _ _ hepoch' hrole' hlast hacc =>
    rcases hacc with ⟨ha, hs⟩ | ⟨hlt, ha, hs⟩
    · refine .inr (.inr ⟨hrole' ▸ hrole, hepoch'.symm, ha.symm, ?_⟩)
      unfold Live
      rw [hs, hlast, ha]
      exact id
    · refine .inr (.inl ⟨hs.trans ha.symm, ?_⟩)
      rw [hlast, ha]
      exact le_of_lt (hok j m rfl hop hepoch hrole'' hlt)
  | collect _ hrole' => simp [hrole'] at hrole
  | count _ _ hv => exact .inr (.inr (hview hv))

end Frame

/-! ## The votes of one monitor -/

section Monitor

variable {g g' : Ghost} {i : Nat} {p p' : Monitor}

theorem MonVote.congr (h : MonVote g i p) (hlc : p'.store.lastCommitted = p.store.lastCommitted)
    (hval : p'.store.values = p.store.values) (hv : p'.store.pendingV = p.store.pendingV)
    (hpn : p'.store.pendingPn = p.store.pendingPn) (hle : promise p ≤ promise p') :
    MonVote g i p' := by
  refine ⟨?_, ?_, ?_⟩ <;> rw [hlc]
  · exact fun q v hvote => ⟨(h.le q v hvote).1.trans hle, (h.le q v hvote).2⟩
  · rw [hpn, hval]
    exact h.top
  · rw [hpn, hval, hv]
    intro x hx
    obtain ⟨hv', hle', hprop⟩ := h.pending x hx
    exact ⟨hv', hle'.trans hle, hprop⟩

theorem MonVote.of_store (h : MonVote g i p) (hstore : p'.store = p.store) : MonVote g i p' := by
  refine h.congr ?_ ?_ ?_ ?_ (le_of_eq ?_) <;> simp only [promise, hstore]

/-- Once a later version is committed, what was pending does not matter. -/
theorem MonVote.advance (h : MonVote g i p) (hlt : p.store.lastCommitted < p'.store.lastCommitted)
    (hnone : p'.store.values (p'.store.lastCommitted + 1) = none) (hle : promise p ≤ promise p') :
    MonVote g i p' := by
  refine ⟨?_, ?_, ?_⟩
  · intro q v hv
    obtain ⟨hq, _⟩ := h.le q v hv
    exact ⟨hq.trans hle, by omega⟩
  · intro q hv
    have := (h.le q _ hv).2
    omega
  · intro _ hx
    simp [hnone] at hx

/-- A vote under the number promised, for the value stored as pending. -/
theorem MonVote.cast (h : MonVote g i p) (hlc : p'.store.lastCommitted = p.store.lastCommitted)
    (hval : p'.store.values (p.store.lastCommitted + 1) = some y)
    (hv : p'.store.pendingV = p.store.lastCommitted + 1) (hpn : p'.store.pendingPn = promise p)
    (hpromise : promise p' = promise p)
    (hprop : g'.prop (promise p) (p.store.lastCommitted + 1) = some y)
    (hvote : ∀ q v, g'.vote i q v → g.vote i q v ∨ q = promise p ∧ v = p.store.lastCommitted + 1) :
    MonVote g' i p' := by
  have hle : ∀ q v, g'.vote i q v → q ≤ promise p ∧ v ≤ p.store.lastCommitted + 1 := by
    intro q v hq
    rcases hvote q v hq with hq | ⟨rfl, rfl⟩
    · exact h.le q v hq
    · exact ⟨le_rfl, le_rfl⟩
  refine ⟨?_, ?_, ?_⟩ <;> rw [hlc]
  · rw [hpromise]
    exact hle
  · intro q hq
    rw [hpn, hval]
    exact ⟨(hle q _ hq).1, rfl⟩
  · intro _ hx
    rw [hval] at hx
    cases hx
    rw [hpn, hpromise]
    exact ⟨hv, le_rfl, hprop⟩

variable {C : Commits} {lo : Nat}

section

variable (hC : HistoryOk C) (h : MonVote g i p) (hs : Synced p) (hm : Carries C lo m)
  (hst : StoreAt C p.lastCommitted p.store)

include hC h hs hm hst

theorem MonVote.storeState : MonVote g i (storeState m p) := by
  have hle : promise p ≤ promise (Paxos.storeState m p) := promise_le_of (by simp) (by simp)
  rcases storeState_spec hC hm hst with ⟨-, heq⟩ | ⟨-, _, _, heq, -, hnone, hlc, -⟩
  · rw [heq]
    exact h
  · rw [heq] at hle ⊢
    refine h.advance ?_ ?_ hle
    · have := hs.last
      simp only [stored]
      omega
    · simpa [stored, hlc] using hnone

theorem MonVote.heard (j : Nat) : MonVote g i (heard j m p) :=
  MonVote.storeState (p := recorded j m p) hC (h.congr rfl rfl rfl rfl le_rfl)
    ⟨hs.idle, hs.last, hs.first, hs.pn⟩ hm hst

end

/-- The pending number is the one under which the pending value was voted for. -/
theorem MonVote.pendingPnOf (h : MonVote g i p) (hs : Synced p)
    (hpos : ∀ q v x, g.prop q v = some x → 0 < q)
    (hy : p.store.values (p.lastCommitted + 1) = some y) (fallback : Nat) :
    pendingPnOf p.store p.lastCommitted fallback = p.store.pendingPn ∧
      p.store.pendingPn ≠ 0 ∧ p.store.pendingPn ≤ promise p ∧
      g.prop p.store.pendingPn (p.lastCommitted + 1) = some y := by
  rw [hs.last] at hy ⊢
  obtain ⟨hv, hle, hprop⟩ := h.pending y hy
  have hne := (hpos _ _ _ hprop).ne'
  refine ⟨?_, hne, hle, hprop⟩
  unfold Paxos.pendingPnOf
  rw [if_pos ⟨by omega, hne, hv⟩]

end Monitor

end Ceph.Mon.Paxos
