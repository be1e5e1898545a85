import Ceph.Mon.Paxos.Values

set_option autoImplicit false

/-!
# The moves of the proposal-number protocol

For the question who has promised what to whom, most local steps look alike.
`Move` groups them into five kinds: those that leave the proposal numbers alone,
those that end a leadership, a promise, a new collect, and the counting of an
answer.
-/

namespace Ceph.Mon.Paxos

open Ceph.Lib List Function

variable {n : Nat}

/-! ## The effect of a step on the system -/

/-- The message that a step reads, with its sender. -/
def Action.source : Action → Option MMonPaxos → Source
  | .deliver j _, inp => inp.map fun m => (j, m)
  | _, _ => none

theorem source_deliver (j i : Nat) (m : MMonPaxos) :
    (Action.deliver j i).source (some m) = some (j, m) := rfl

/-- Monitor `x` has read `src`, moved to `p'` and sent `out`. -/
structure Effect (s s' : System) (x : Nat) (src : Source) (p' : Monitor)
    (out : Sends) : Prop where
  mon : s'.mon = Function.update s.mon x p'
  other : ∀ a b, a ≠ x → b ≠ x → s'.net a b = s.net a b
  sent : ∀ b, b ≠ x → s'.net x b = s.net x b ++ msgsTo b out
  taken : ∀ a, a ≠ x → ((∀ m, src ≠ some (a, m)) ∧ s.net a x = s'.net a x) ∨
    ∃ m, src = some (a, m) ∧ s.net a x = m :: s'.net a x
  self : s.net x x = [] → (∀ m, (x, m) ∉ out) → s'.net x x = []
  src_mem : ∀ j m, src = some (j, m) → m ∈ s.net j x

variable {i x j : Nat} {m : MMonPaxos} {out : Sends} {p' p : Monitor} {s s' : System}
    {src : Source}

@[simp] theorem mem_msgsTo : m ∈ msgsTo i out ↔ (i, m) ∈ out := by
  unfold msgsTo
  simp

theorem Effect.mon_self (h : Effect s s' x src p' out) : s'.mon x = p' := by
  rw [h.mon, update_self]

theorem Effect.mon_ne (h : Effect s s' x src p' out) (hi : i ≠ x) : s'.mon i = s.mon i := by
  rw [h.mon, update_of_ne hi]

theorem Effect.mon_step {P : Nat → Monitor → Prop} (h : Effect s s' x src p' out) (hx : P x p')
    (hold : P i (s.mon i)) : P i (s'.mon i) := by
  by_cases hi : i = x
  · subst hi
    exact h.mon_self ▸ hx
  · exact h.mon_ne hi ▸ hold

/-- The message a step reads is the oldest of its link. -/
theorem Effect.head (h : Effect s s' x (some (j, m)) p' out) (hj : j ≠ x) :
    s.net j x = m :: s'.net j x := by
  rcases h.taken j hj with ⟨hnot, -⟩ | ⟨_, hm', hnet⟩
  · exact absurd rfl (hnot m)
  · simp only [Option.some.injEq, Prod.mk.injEq, true_and] at hm'
    rw [hnet, hm']

/-- The other links stay as they are. -/
theorem Effect.same {a : Nat} (h : Effect s s' x (some (j, m)) p' out) (ha : a ≠ x) (hne : a ≠ j) :
    s'.net a x = s.net a x := by
  rcases h.taken a ha with ⟨-, hnet⟩ | ⟨_, hm', -⟩
  · exact hnet.symm
  · simp only [Option.some.injEq, Prod.mk.injEq] at hm'
    exact absurd hm'.1.symm hne

theorem Effect.suffix {a : Nat} (h : Effect s s' x src p' out) (ha : a ≠ x) :
    s'.net a x <:+ s.net a x := by
  rcases h.taken a ha with ⟨-, heq⟩ | ⟨_, -, heq⟩ <;> rw [heq]
  exact suffix_cons _ _

/-- Where a message of the new state comes from. -/
theorem Effect.origin (h : Effect s s' x src p' out) (hself : s'.net x x = [])
    (hm : m ∈ s'.net j i) : m ∈ s.net j i ∨ j = x ∧ (i, m) ∈ out := by
  by_cases hj : j = x
  · subst hj
    by_cases hi : i = j
    · subst hi
      simp [hself] at hm
    · rw [h.sent i hi] at hm
      rcases mem_append.1 hm with hm | hm
      · exact .inl hm
      · exact .inr ⟨rfl, mem_msgsTo.1 hm⟩
  · by_cases hi : i = x
    · subst hi
      exact .inl ((h.suffix hj).subset hm)
    · rw [h.other j i hj hi] at hm
      exact .inl hm

theorem settle_effect : Effect s (s.settle x (p', out)) x none p' out where
  mon := rfl
  other a b ha hb := by simp [System.settle, post, ha]
  sent b hb := by simp [System.settle, post]
  taken a ha := .inl ⟨by simp, by simp [System.settle, post, ha]⟩
  self hnet hout := by
    have hnil : msgsTo x out = [] := by
      rw [eq_nil_iff_forall_not_mem]
      simpa using hout
    simp [System.settle, post, hnet, hnil]
  src_mem j m h := by simp at h

theorem take_effect {rest : List MMonPaxos} (hnet : s.net j x = m :: rest) :
    Effect s ((s.take j x).settle x (p', out)) x (some (j, m)) p' out where
  mon := rfl
  other a b ha hb := by simp [System.settle, System.take, post, ha, hb]
  sent b hb := by simp [System.settle, System.take, post, hb]
  taken a ha := by
    by_cases hj : a = j
    · subst hj
      exact .inr ⟨m, rfl, by simp [System.settle, System.take, post, ha, hnet]⟩
    · refine .inl ⟨?_, by simp [System.settle, System.take, post, ha, hj]⟩
      intro m' h
      simp only [Option.some.injEq, Prod.mk.injEq] at h
      exact hj h.1.symm
  self hself hout := by
    have hnil : msgsTo x out = [] := by
      rw [eq_nil_iff_forall_not_mem]
      simpa using hout
    simp [System.settle, System.take, post, hself, hnil]
  src_mem j' m' h := by
    cases h
    simp [hnet]

/-- Every step of the system is a local step with its effect. -/
theorem step_effect {a : Action} (h : step n s a = some s') :
    a.actor < n ∧ ∃ inp p' out, Local n (s.mon a.actor) inp a p' out ∧
      Effect s s' a.actor (a.source inp) p' out := by
  obtain ⟨hlt, inp, p', out, hlocal, rfl, hdel⟩ := step_local h
  refine ⟨hlt, inp, p', out, hlocal, ?_⟩
  cases a with
  | deliver j i =>
    obtain ⟨_, _, rfl, hnet⟩ := hdel j i rfl
    exact take_effect hnet
  | _ => exact settle_effect

/-! ## Moves -/

/-- The monitor has heard from `k` since it last collected. -/
def Heard (p : Monitor) (src : Source) (k : Nat) : Prop :=
  p.peerLastCommitted k ≠ none ∨ ∃ m, src = some (k, m) ∧ LastHeard p m

/-- A message other than COLLECT and LAST: an ACCEPT for a leader whose BEGIN has
just come in, or a BEGIN or COMMIT for a peer that has answered. -/
structure Plain (i : Nat) (p : Monitor) (src : Source) (p' : Monitor) (k : Nat)
    (m : MMonPaxos) : Prop where
  epoch : m.epoch = p.epoch
  kind : (m.op = .accept ∧ ∃ b, src = some (k, b) ∧ b.op = .begin ∧ b.epoch = p.epoch) ∨
    (p.role = .leader ∧ (m.op = .begin ∧ m.pn = p.acceptedPn ∨ m.op = .commit) ∧ (Heard p src k ∨
        (p'.role = .leader ∧ p'.state ≠ .recovering ∧ k ∈ p.quorum ∧ k ≠ i)))

/-- The fields that matter for the proposal numbers. -/
structure SameView (p p' : Monitor) : Prop where
  epoch : p'.epoch = p.epoch
  role : p'.role = p.role
  quorum : p'.quorum = p.quorum
  acceptedPn : p'.acceptedPn = p.acceptedPn
  storeAcceptedPn : p'.store.acceptedPn = p.store.acceptedPn
  lastPn : p'.store.lastPn = p.store.lastPn

/-- The moves of monitor `i`. -/
inductive Move (n i : Nat) (p : Monitor) : Source → Monitor → Sends → Prop where
  /-- Nothing changes as far as proposal numbers go. -/
  | quiet {src : Source} {p' : Monitor} {out : Sends} (hview : SameView p p')
      (hnum : p'.numLast = p.numLast)
      (hstate : p.role = .leader → (p'.state = .recovering ↔ p.state = .recovering))
      (hheard : ∀ k, p'.peerLastCommitted k ≠ none → Heard p src k)
      (hout : ∀ k m, (k, m) ∈ out → Plain i p src p' k m) : Move n i p src p' out
  /-- The monitor is no leader afterwards; a restart falls back to the store. -/
  | depose {src : Source} {p' : Monitor} {out : Sends}
      (hrole : p'.role ≠ .leader) (hepoch : p.epoch ≤ p'.epoch)
      (hsame : p'.epoch = p.epoch → p'.role = .electing)
      (hacc : p'.acceptedPn = p.acceptedPn ∨ p'.acceptedPn = p.store.acceptedPn)
      (hstore : p'.store.acceptedPn = p.store.acceptedPn) (hlast : p'.store.lastPn = p.store.lastPn)
      (hout : ∀ k m, (k, m) ∈ out → Plain i p src p' k m) : Move n i p src p' out
  /-- A peon answers a COLLECT. -/
  | promise {j : Nat} {m last : MMonPaxos} {p' : Monitor} (hop : m.op = .collect)
      (hepoch : m.epoch = p.epoch) (hrole : p.role = .peon j) (hlop : last.op = .last)
      (hlepoch : last.epoch = p.epoch) (hlpn : last.pn = p'.acceptedPn)
      (hepoch' : p'.epoch = p.epoch) (hrole' : p'.role = p.role)
      (hlast : p'.store.lastPn = p.store.lastPn)
      (hacc : p'.acceptedPn = p.acceptedPn ∧ p'.store.acceptedPn = p.store.acceptedPn ∨
        p.acceptedPn < m.pn ∧ p'.acceptedPn = m.pn ∧ p'.store.acceptedPn = m.pn)
      (hpeon : p' = promised m p) (hanswer : last = lastMsg m p.acceptedPn p') :
      Move n i p (some (j, m)) p' [(j, last)]
  /-- A leader collects, as it is elected or again. -/
  | collect {src : Source} {p' : Monitor} {shares : Sends}
      (hnew : p.epoch < p'.epoch ∧ Majority n p'.quorum ∧ i ∈ p'.quorum ∧ shares = [] ∨
        p.role = .leader ∧ p'.epoch = p.epoch ∧ p'.quorum = p.quorum)
      (hrole : p'.role = .leader) (hstate : p'.state = .recovering) (hnum : p'.numLast = 1)
      (hheard : ∀ k, p'.peerLastCommitted k = none)
      (hstore : p'.store.acceptedPn = p.store.acceptedPn)
      (hpn : p'.acceptedPn = p'.store.lastPn) (hgt : p.store.lastPn < p'.acceptedPn)
      (hacc : p.acceptedPn < p'.acceptedPn)
      (hres : ∃ k, p'.acceptedPn = 100 * k + i)
      (hout : ∀ k m, (k, m) ∈ shares → Plain i p src p' k m ∧ m.op = .commit) :
      Move n i p src p' (shares ++ (others n i p'.quorum).map fun k => (k, collectMsg p'))
  /-- A leader counts an answer to its COLLECT. -/
  | count {j : Nat} {m : MMonPaxos} {p' : Monitor} {out : Sends} (hl : LastHeard p m)
      (hpn : m.pn = p.acceptedPn)
      (hview : SameView p p') (hnum : p'.numLast = p.numLast + 1)
      (hstate : p'.state = p.state ∨ p'.numLast = p.quorum.card)
      (hheard : ∀ k, p'.peerLastCommitted k ≠ none → Heard p (some (j, m)) k)
      (hout : ∀ k m', (k, m') ∈ out → Plain i p (some (j, m)) p' k m') :
      Move n i p (some (j, m)) p' out

theorem others_mem {k : Nat} {Q : Finset Nat} (h : k ∈ others n i Q) : k ∈ Q ∧ k ≠ i := by
  simp only [others, mem_filter, mem_range, decide_eq_true_eq] at h
  exact h.2

theorem heard_plc {k : Nat} (hl : LastHeard p m) (h : (heard j m p).peerLastCommitted k ≠ none) :
    Heard p (some (j, m)) k := by
  by_cases hk : k = j
  · subst hk
    exact .inr ⟨m, rfl, hl⟩
  · exact .inl (by simpa [update_of_ne hk] using h)

/-- What a leader shares as it hears a LAST. -/
theorem shared_plain {shared : Sends × Bool} (hl : LastShared n p j m shared) :
    ∀ k m', (k, m') ∈ shared.1 → Plain i p (some (j, m)) p' k m' ∧ m'.op = .commit := by
  intro k m' hm'
  obtain ⟨a, ha, -, -, rfl⟩ := sharePeers_mem hl.sent k m' hm'
  refine ⟨⟨by simp [shareMsg], .inr ⟨hl.role, .inr rfl, .inl ?_⟩⟩, rfl⟩
  exact heard_plc hl.toLastHeard (by simp [ha])

/-- A leader begins. -/
theorem begin_move {v : Tx} (h : begin n i v p = some (p', out)) :
    SameView p p' ∧ p'.numLast = p.numLast ∧ p'.state ≠ .recovering ∧
      p'.peerLastCommitted = p.peerLastCommitted ∧
      ∀ k m, (k, m) ∈ out → m.epoch = p.epoch ∧ m.op = .begin ∧ m.pn = p.acceptedPn ∧
        k ∈ p.quorum ∧ k ≠ i := by
  obtain ⟨-, hstate, -, -, hcase⟩ := begin_eq_some h
  rcases hcase with ⟨-, hr⟩ | ⟨-, hr⟩
  · cases hr
    refine ⟨⟨rfl, rfl, rfl, rfl, rfl, rfl⟩, rfl, ?_, rfl, by simp⟩
    simp only [committing]
    split <;> simp
  · cases hr
    refine ⟨⟨rfl, rfl, rfl, rfl, rfl, rfl⟩, rfl, ?_, rfl, ?_⟩
    · rcases hstate with hs | hs <;> simp [begun, hs]
    · intro k m hm
      obtain ⟨hk', rfl⟩ := mem_broadcast hm
      exact ⟨rfl, rfl, rfl, others_mem hk'⟩

theorem SameView.heard (j : Nat) (m : MMonPaxos) (p : Monitor) : SameView p (heard j m p) :=
  ⟨by simp, by simp, by simp, by simp, by simp, by simp⟩

theorem SameView.counted (j : Nat) (m : MMonPaxos) (p : Monitor) :
    SameView p (counted m (Paxos.heard j m p)) :=
  ⟨by simp, by simp, by simp, by simp, by simp, by simp⟩

/-- Among two or more monitors every local step is one of the moves: nobody is
elected alone. -/
theorem Local.move {inp : Option MMonPaxos} {a : Action} (hn : 2 ≤ n) (h : Local n p inp a p' out)
    (hexp : Expected p inp) : Move n a.actor p (a.source inp) p' out := by
  cases h with
  | @win i e Q hepoch hmaj hmem =>
    obtain ⟨hpn, hgt, hacc, hres⟩ := collecting_pn i 0 (elected e Q p)
    exact @Move.collect n i p none _ [] (.inl ⟨hepoch, hmaj, hmem, rfl⟩) rfl rfl rfl
      (fun _ => rfl) rfl hpn hgt hacc hres (by simp)
  | winAlone _ hmaj =>
    have := hmaj.2
    omega
  | lose hepoch =>
    exact .depose (by simp [peonInit]) hepoch.le
      (fun he => absurd he (ne_of_gt hepoch)) (.inl rfl) rfl rfl (by simp)
  | leave | newer | collectBoot
  | lastBoot =>
    exact .depose (by simp [bootstrapped]) le_rfl (fun _ => rfl) (.inl rfl) rfl rfl (by simp)
  | crash => exact .depose (by simp [restarted]) le_rfl (fun _ => rfl) (.inr rfl) rfl rfl (by simp)
  | drop | accept =>
    exact .quiet ⟨rfl, rfl, rfl, rfl, rfl, rfl⟩ rfl (fun _ => Iff.rfl) (fun k hk => .inl hk)
      (by simp)
  | @collect _ _ m hop hepoch hrole =>
    refine .promise hop hepoch hrole ?_ ?_ ?_ ?_ ?_ ?_ ?_ rfl rfl
    · simp
    · simp
    · simp
    · simp
    · simp
    · simp
    · rcases promised_eq m p with hq | ⟨hlt, hq⟩ <;> rw [hq]
      · exact .inl ⟨rfl, rfl⟩
      · exact .inr ⟨hlt, rfl, rfl⟩
  | @lastShareBoot j _ m _ hl =>
    have hv := SameView.heard j m p
    exact .depose (by simp [bootstrapped]) (le_of_eq hv.epoch.symm) (fun _ => rfl)
      (.inl hv.acceptedPn) hv.storeAcceptedPn hv.lastPn
      fun k m' hm' => (shared_plain hl k m' hm').1
  | @lastRetry j i m _ hl =>
    obtain ⟨hpn', hgt, hacc, hres⟩ := collecting_pn i m.pn (heard j m p)
    have hv := SameView.heard j m p
    exact .collect (.inr ⟨hl.role, hv.epoch, hv.quorum⟩) (hv.role.trans hl.role) rfl rfl
      (fun _ => rfl) hv.storeAcceptedPn hpn' (hv.lastPn ▸ hgt) (hv.acceptedPn ▸ hacc) hres
      (shared_plain hl)
  | @lastOld j _ m _ hl =>
    exact .quiet (.heard j m p) (by simp) (fun _ => by simp)
      (fun k hk => heard_plc hl.toLastHeard hk)
      fun k m' hm' => (shared_plain hl k m' hm').1
  | @lastCount j _ m _ hl _ hpn =>
    exact .count hl.toLastHeard (by simpa using hpn) (.counted j m p) (by simp)
      (.inl (by simp)) (fun k hk => heard_plc hl.toLastHeard (by simpa using hk))
      fun k m' hm' => (shared_plain hl k m' hm').1
  | @lastActive j _ m _ hl _ hpn hdone =>
    have hv := SameView.counted j m p
    refine .count hl.toLastHeard (by simpa using hpn)
      ⟨hv.epoch, hv.role, hv.quorum, hv.acceptedPn, hv.storeAcceptedPn, hv.lastPn⟩
      (by simp [recovered]) (.inr (by simpa [recovered] using hdone)) ?_
      fun k m' hm' => (shared_plain hl k m' hm').1
    intro k hk
    simp [recovered] at hk
  | @lastBegin j _ m _ _ p' _ hl _ hpn hdone _ _ hbegin =>
    have hc := SameView.counted j m p
    obtain ⟨hw, hnum, hstate, hplc, hout⟩ := begin_move hbegin
    have hrole' : p'.role = .leader := hw.role.trans (hc.role.trans hl.role)
    refine .count hl.toLastHeard (by simpa using hpn)
      ⟨hw.epoch.trans hc.epoch, hw.role.trans hc.role, hw.quorum.trans hc.quorum,
        hw.acceptedPn.trans hc.acceptedPn, hw.storeAcceptedPn.trans hc.storeAcceptedPn,
        hw.lastPn.trans hc.lastPn⟩
      (by simpa [recovered] using hnum)
      (.inr (hnum.trans (by simpa [recovered] using hdone))) ?_ ?_
    · intro k hk
      simp [hplc, recovered] at hk
    · intro k m' hm'
      rcases mem_append.1 hm' with hm' | hm'
      · exact (shared_plain hl k m' hm').1
      · obtain ⟨he, hb, hp, hk, hne⟩ := hout k m' hm'
        refine ⟨by simpa [recovered] using he, .inr ⟨hl.role, .inl ⟨hb, ?_⟩, .inr ?_⟩⟩
        · simpa [recovered] using hp
        · exact ⟨hrole', hstate, by simpa [recovered] using hk, hne⟩
  | @vote _ _ m _ hop hepoch _ hpn =>
    have hne := hexp.vote _ rfl hop hepoch hpn
    refine .quiet ⟨rfl, rfl, rfl, rfl, rfl, rfl⟩ rfl (fun hl => absurd hl hne)
      (fun k hk => .inl hk) ?_
    intro k m' hm'
    obtain ⟨rfl, rfl⟩ := mem_reply hm'
    exact ⟨rfl, .inl ⟨rfl, m, rfl, hop, hepoch⟩⟩
  | acceptCommit _ _ _ _ _ hstate =>
    refine .quiet ⟨rfl, rfl, rfl, rfl, rfl, rfl⟩ rfl (fun _ => ?_) (fun k hk => .inl hk) (by simp)
    rcases hstate with hs | hs <;> simp [committing, acceptedBy, hs]
  | commit =>
    exact .quiet ⟨by simp, by simp, by simp, by simp, by simp, by simp⟩ (by simp)
      (fun _ => by simp) (fun k hk => .inl (by simpa using hk)) (by simp)
  | @propose _ _ _ _ _ hrole hstate hbegin =>
    obtain ⟨hw, hnum, hstate', hplc, hout⟩ := begin_move hbegin
    refine .quiet ⟨hw.epoch, hw.role, hw.quorum, hw.acceptedPn, hw.storeAcceptedPn, hw.lastPn⟩
      hnum (fun _ => ?_) (fun k hk => .inl (hplc ▸ hk)) ?_
    · simp [hstate, hstate']
    · intro k m' hm'
      obtain ⟨he, hb, hp, hk, hne⟩ := hout k m' hm'
      exact ⟨he, .inr ⟨hrole, .inl ⟨hb, hp⟩, .inr ⟨hw.role.trans hrole, hstate', hk, hne⟩⟩⟩
  | @apply _ v x =>
    obtain ⟨hpn, hacc, -⟩ := Store.applyTx_rest x { p.store with lastCommitted := v }
    exact .quiet ⟨rfl, rfl, rfl, rfl, hacc, hpn⟩ rfl (fun _ => Iff.rfl)
      (fun k hk => .inl hk) (by simp)
  | @finish _ _ _ _ _ hrole hstate =>
    refine .quiet ⟨rfl, rfl, rfl, rfl, rfl, rfl⟩ rfl (fun _ => ?_) (fun k hk => .inl hk) ?_
    · rcases hstate with hs | hs <;> simp [finished, hs]
    · intro k m' hm'
      obtain ⟨hk', rfl⟩ := mem_broadcast hm'
      exact ⟨rfl, .inr ⟨hrole, .inr rfl, .inr ⟨hrole, by simp [finished], others_mem hk'⟩⟩⟩

end Ceph.Mon.Paxos
