import Ceph.Mon.Paxos.Leadership

set_option autoImplicit false

/-!
# The votes of a step

What the monitor that takes a step adds to the proposals and votes, and what
holds of it afterwards.
-/

namespace Ceph.Mon.Paxos

open Ceph.Lib Finset Nat List

variable {n : Nat} {g g' : Ghost}

/-- What is known about the actor before its step. -/
structure Before (n : Nat) (g : Ghost) (x : Nat) (S : Finset Nat) (p : Monitor)
    (src : Source) : Prop where
  base : MonBase p
  hist : MonHist (g.Chosen n) (Proposable (g.Chosen n)) p
  history : HistoryOk (g.Chosen n)
  pos : ∀ q v y, g.prop q v = some y → 0 < q
  fresh : ∀ k v, g.prop (100 * k + x) v ≠ none → 100 * k + x ≤ p.store.lastPn
  wf : ∀ q v y, g.prop q (v + 1) = some y → Proposable (g.Chosen n) v y
  vote : MonVote g x p
  lead : p.role = .leader → LeaderVote g (insert x S) p
  tok : p.role = .leader → LeaderTok n (Finset.range n) (Finset.range n) x S p
  last : ∀ j m, src = some (j, m) → LastHeard p m →
    (∃ lo, Carries (g.Chosen n) lo m ∧ (lo ≤ p.lastCommitted + 1 ∨ lo ≤ m.firstCommitted)) ∧
      (m.pn = p.acceptedPn → ∃ q, LastVote g j p q m)
  begin : ∀ j m, src = some (j, m) → m.op = .begin → m.epoch = p.epoch → p.role = .peon j →
    m.pn = p.acceptedPn → Live p ∧ ∃ y, m.values = [(m.lastCommitted + 1, y)] ∧
      g.prop m.pn (m.lastCommitted + 1) = some y
  accept : ∀ j m, src = some (j, m) → m.op = .accept → m.epoch = p.epoch → p.role = .leader →
    Updating p ∧ g.vote j p.acceptedPn (p.lastCommitted + 1)
  commit : ∀ j m, src = some (j, m) → m.op = .commit → ∃ lo, Carries (g.Chosen n) lo m

/-- A proposal that the actor has just made. -/
structure NewProp (n : Nat) (g g' : Ghost) (p' : Monitor) (q v : Nat) (y : Tx) : Prop where
  leader : p'.role = .leader
  going : p'.state ≠ .recovering
  pn : q = p'.acceptedPn
  pos : 0 < q
  wf : ∃ u, v = u + 1 ∧ Proposable (g.Chosen n) u y
  safe : (g'.decision v).SafeBy (SameValue v) p'.quorum q y

/-- What the actor adds to the votes, and what holds of it afterwards. -/
structure After (n : Nat) (g g' : Ghost) (x : Nat) (S : Finset Nat) (p p' : Monitor)
    (src : Source) (out : Sends) : Prop where
  grows : Grows g g' x p p'
  vote : MonVote g' x p'
  lead : p'.role = .leader → LeaderVote g' (insert x (countedAfter S src p p')) p'
  last : p.lastCommitted ≤ p'.lastCommitted
  props : ∀ q v y, g'.prop q v = some y → g.prop q v = some y ∨ NewProp n g g' p' q v y
  begin : ∀ k m, (k, m) ∈ out → m.op = .begin →
    p'.role = .leader ∧ m.epoch = p'.epoch ∧ m.pn = p'.acceptedPn ∧
    ∃ y, m.values = [(m.lastCommitted + 1, y)] ∧ g'.prop m.pn (m.lastCommitted + 1) = some y
  accept : ∀ k m, (k, m) ∈ out → m.op = .accept → g'.vote x m.pn (m.lastCommitted + 1)
  still : p'.state = .recovering → g' = g

section Actor

variable {x : Nat} {S : Finset Nat} {p p' : Monitor} {src : Source}
  {out : Sends}

/-- A step without a vote. -/
theorem After.same (hvote : MonVote g x p')
    (hlead : p'.role = .leader → LeaderVote g (insert x (countedAfter S src p p')) p')
    (hlast : p.lastCommitted ≤ p'.lastCommitted)
    (hout : ∀ k m, (k, m) ∈ out → m.op ≠ .begin ∧ m.op ≠ .accept) :
    After n g g x S p p' src out where
  grows := .refl
  vote := hvote
  lead := hlead
  last := hlast
  props _ _ _ h := .inl h
  begin k m hm hop := absurd hop (hout k m hm).1
  accept k m hm hop := absurd hop (hout k m hm).2
  still _ := rfl

/-- A step that leaves the store alone and ends or keeps out of leadership. -/
theorem After.quiet (h : MonVote g x p) (hstore : p'.store = p.store) (hrole : p'.role ≠ .leader)
    (hlast : p.lastCommitted ≤ p'.lastCommitted)
    (hout : ∀ k m, (k, m) ∈ out → m.op ≠ .begin ∧ m.op ≠ .accept) : After n g g x S p p' src out :=
  .same (h.of_store hstore) (fun hr => absurd hr hrole) hlast hout

/-- The actor begins with `v` from the state `q`, which has its store. -/
theorem After.of_begun (shares : Sends) {q : Monitor} {v : Tx} {T : Finset Nat}
    (hs : Synced q) (hvote : MonVote g x q) (hpromise : promise p ≤ promise q)
    (hpn : q.acceptedPn = q.store.lastPn) (hrole : q.role = .leader) (hupd : Updating q)
    (hpos : 0 < q.acceptedPn) (hlast : p.lastCommitted ≤ q.lastCommitted)
    (hnone : ∀ w, q.lastCommitted < w → g.prop q.acceptedPn w = none)
    (hvotes : ∀ i ∈ T, ∀ pn w, g.vote i pn w → pn < q.acceptedPn → w ≤ q.lastCommitted + 1)
    (hT : insert x (countedAfter S src p (begun x v q)) = T)
    (hwf : Proposable (g.Chosen n) q.lastCommitted (dressValue q.lastCommitted v))
    (hsafe : (g.decision (q.lastCommitted + 1)).SafeBy (SameValue (q.lastCommitted + 1)) q.quorum
      q.acceptedPn (dressValue q.lastCommitted v))
    (hshares : ∀ k m, (k, m) ∈ shares → m.op = .commit) :
    After n g (g.begun x v q) x S p (begun x v q) src
      (shares ++ (others n x q.quorum).map fun k =>
        (k, beginMsg q (dressValue q.lastCommitted v))) := by
  have hprom : promise q = q.acceptedPn := by
    unfold promise
    rw [← hpn]
    exact max_eq_right hs.pn
  have hgrows : Grows g (g.begun x v q) x p (begun x v q) :=
    @Grows.begin _ g x p (begun x v q) _ (hnone _ (lt_succ_self _)) hrole (hprom ▸ hpromise)
  have hnew : (g.begun x v q).prop q.acceptedPn (q.lastCommitted + 1) =
      some (dressValue q.lastCommitted v) := by
    simp [Ghost.cast, Ghost.propose]
  refine ⟨hgrows, ?_, fun _ => hT ▸ LeaderVote.begun hpos hupd hnone hvotes, hlast, ?_, ?_, ?_,
    fun hrec => absurd hrec hupd.ne.1⟩
  · refine hvote.cast (y := dressValue q.lastCommitted v) rfl ?_ ?_ hprom.symm rfl ?_ ?_
    · simp [Paxos.begun, Store.putValue, hs.last]
    · simp [Paxos.begun, hs.last]
    · rw [hprom, ← hs.last]
      exact hnew
    · rintro pn w (hv | ⟨-, rfl, rfl⟩)
      · exact .inl hv
      · exact .inr ⟨hprom.symm, by rw [hs.last]⟩
  · intro pn w y hy
    by_cases heq : pn = q.acceptedPn ∧ w = q.lastCommitted + 1
    · obtain ⟨rfl, rfl⟩ := heq
      rw [hnew] at hy
      cases hy
      refine .inr ⟨hrole, hupd.ne.1, rfl, hpos, ⟨_, rfl, hwf⟩, ?_⟩
      refine hsafe.mono (fun pn y => hgrows.prop pn _ y) ?_
      rintro i - pn hlt (hv | ⟨-, rfl, -⟩)
      · exact hv
      · exact absurd hlt (lt_irrefl _)
    · left
      simpa [Ghost.cast, Ghost.propose, heq] using hy
  · intro k m hm hop
    rcases mem_append.1 hm with hm | hm
    · simp [hshares k m hm] at hop
    · obtain ⟨-, rfl⟩ := mem_broadcast hm
      exact ⟨hrole, rfl, rfl, _, rfl, hnew⟩
  · intro k m hm hop
    rcases mem_append.1 hm with hm | hm
    · simp [hshares k m hm] at hop
    · obtain ⟨-, rfl⟩ := mem_broadcast hm
      simp [beginMsg] at hop

/-- A new number has not been used. -/
theorem Before.unused (h : Before n g x S p src) {q : Nat} (hres : ∃ k, q = 100 * k + x)
    (hgt : p.store.lastPn < q) (v : Nat) : g.prop q v = none := by
  obtain ⟨k, rfl⟩ := hres
  by_contra hne
  have := h.fresh k v hne
  omega

variable {j : Nat} {m : MMonPaxos}

section

variable (h : Before n g x S p src) (hsrc : src = some (j, m)) (hexp : Expected p (some m))
  (hl : LastHeard p m) (hfirst : m.firstCommitted ≤ p.lastCommitted + 1)

include h hsrc hexp hl hfirst

/-- A leader that hears a LAST. -/
theorem Before.of_heard :
    p.state = .recovering ∧ Synced (heard j m p) ∧ MonVote g x (heard j m p) ∧
      LeaderVote g (insert x S) (heard j m p) ∧
      p.lastCommitted ≤ (heard j m p).lastCommitted ∧
      (heard j m p).lastCommitted = max p.lastCommitted m.lastCommitted := by
  obtain ⟨hrec, -, hs⟩ := h.base.of_last hexp hl
  obtain ⟨⟨_, hlo, hle⟩, -⟩ := h.last j m hsrc hl
  have hst : StoreAt (g.Chosen n) p.lastCommitted p.store := hs.last ▸ h.hist.store
  obtain ⟨hlead, hlc⟩ := (h.lead hl.role).heard h.history hrec hlo hst hle hfirst j
  exact ⟨hrec, hs.heard j m, h.vote.heard h.history hs hlo hst j, hlead, hlc ▸ le_max_left _ _, hlc⟩

/-- A leader that counts a LAST. -/
theorem Before.of_counted (hpn : m.pn = p.acceptedPn) :
    LeaderVote g (insert x (insert j S)) (counted m (heard j m p)) := by
  obtain ⟨hrec, -, -, hlead, -, hlc⟩ := h.of_heard hsrc hexp hl hfirst
  obtain ⟨_, hq⟩ := (h.last j m hsrc hl).2 hpn
  rw [insert_comm]
  exact hlead.counted (by simpa using hrec) (by simp) hlc hq

end

/-- A leader that counts an ACCEPT. -/
theorem Before.of_accept (h : Before n g x S p src) (hsrc : src = some (j, m))
    (hop : m.op = .accept) (hepoch : m.epoch = p.epoch) (hrole : p.role = .leader)
    (hprop : Proposing p') (hsame : p' =
      { p with accepted := insert j p.accepted, commit := p'.commit, state := p'.state }) :
    After n g g x S p p' src [] := by
  obtain ⟨hupd, hvote⟩ := h.accept j m hsrc hop hepoch hrole
  rw [hsame] at hprop ⊢
  refine .same (h.vote.of_store rfl) (fun _ => ?_) le_rfl (by simp)
  rw [countedAfter_quiet (by rfl) (by rfl)]
  refine (h.lead hrole).accept hupd hprop rfl rfl rfl fun k hk => ?_
  rcases mem_insert.1 hk with rfl | hk
  · exact .inr hvote
  · exact .inl hk

end Actor

/-- Every local step of a monitor adds at most its own proposal and its own vote. -/
theorem Before.step {x : Nat} {S : Finset Nat} {p p' : Monitor} {inp : Option MMonPaxos}
    {a : Action} {out : Sends} (hn : 2 ≤ n) (hx : a.actor = x) (h : Before n g x S p (a.source inp))
    (hlocal : Local n p inp a p' out) (hexp : Expected p inp)
    (htok' : p'.role = .leader → LeaderTok n (range n) (range n) x
      (countedAfter S (a.source inp) p p') p') :
    ∃ g', After n g g' x S p p' (a.source inp) out := by
  have hcard : p.role = .leader → p.quorum.card ≠ 1 := by
    intro hr
    have := (h.tok hr).majority.2
    omega
  cases hlocal with
  | @win i e Q _ _ _ hidle =>
    obtain rfl : i = x := hx
    have hs := h.base.synced hidle
    obtain ⟨-, hgt, hacc, hres⟩ := collecting_pn i 0 (elected e Q p)
    refine ⟨g, .same ?_ ?_ le_rfl collects_op⟩
    · exact h.vote.congr rfl rfl rfl rfl (promise_le_of le_rfl hgt.le)
    · intro _
      rw [countedAfter_collect (show p.acceptedPn < _ from hacc)]
      exact .collecting ⟨hs.idle, hs.last, hs.first, hs.pn⟩
        (h.vote.of_store rfl) h.pos (h.unused hres hgt)
  | winAlone _ hmaj =>
    have := hmaj.2
    omega
  | lose => exact ⟨g, .quiet h.vote rfl (by simp [peonInit]) le_rfl (by simp)⟩
  | leave | newer | collectBoot | lastBoot =>
    exact ⟨g, .quiet h.vote rfl (by simp [bootstrapped]) le_rfl (by simp)⟩
  | crash =>
    refine ⟨g, .quiet h.vote rfl (by simp [restarted]) ?_ (by simp)⟩
    by_cases hc : p.commit = .applied
    · have := h.base.ahead hc
      simp only [restarted]
      omega
    · exact le_of_eq (h.base.caught hc).1
  | drop =>
    refine ⟨g, .same h.vote (fun hr => ?_) le_rfl (by simp)⟩
    rw [countedAfter_quiet (by rfl) (by rfl)]
    exact h.lead hr
  | @collect _ _ m _ _ hrole =>
    refine ⟨g, .same ?_ (fun hr => by simp [hrole] at hr) (by simp) (by simp)⟩
    rcases promised_eq m p with hq | ⟨hlt, hq⟩ <;> rw [hq]
    · exact h.vote.of_store rfl
    · exact h.vote.congr rfl rfl rfl rfl (promise_le_of (h.base.pn.trans hlt.le) le_rfl)
  | lastShareBoot hl =>
    obtain ⟨-, -, hvote, -, hle, -⟩ := h.of_heard rfl hexp hl.toLastHeard hl.first
    exact ⟨g, .same (hvote.of_store rfl) (fun hr => by simp [bootstrapped] at hr) hle
      (shared_op hl.sent)⟩
  | @lastRetry j i m _ hl =>
    obtain rfl : i = x := hx
    obtain ⟨-, hs, hvote, -, hle, -⟩ := h.of_heard rfl hexp hl.toLastHeard hl.first
    obtain ⟨-, hgt, hacc, hres⟩ := collecting_pn i m.pn (heard j m p)
    rw [heard_store_lastPn] at hgt
    rw [heard_acceptedPn] at hacc
    refine ⟨g, .same ?_ ?_ hle ?_⟩
    · refine hvote.congr rfl rfl rfl rfl (promise_le_of le_rfl ?_)
      rw [heard_store_lastPn]
      exact hgt.le
    · intro _
      rw [countedAfter_collect hacc]
      exact .collecting hs hvote h.pos (h.unused hres hgt)
    · intro k m' hm'
      rcases mem_append.1 hm' with hm' | hm'
      · exact shared_op hl.sent k m' hm'
      · exact collects_op k m' hm'
  | lastOld hl =>
    obtain ⟨-, -, hvote, hlead, hle, -⟩ := h.of_heard rfl hexp hl.toLastHeard hl.first
    refine ⟨g, .same hvote (fun _ => ?_) hle (shared_op hl.sent)⟩
    rw [countedAfter_quiet (by simp) (by simp)]
    exact hlead
  | lastCount hl _ hpn =>
    rw [heard_acceptedPn] at hpn
    obtain ⟨-, -, hvote, -, hle, -⟩ := h.of_heard rfl hexp hl.toLastHeard hl.first
    have hlead := h.of_counted rfl hexp hl.toLastHeard hl.first hpn
    refine ⟨g, .same (hvote.of_store (by simp)) (fun _ => ?_) (by simpa using hle)
      (shared_op hl.sent)⟩
    rw [source_deliver, countedAfter_count (by simp) (by simp)]
    exact hlead
  | lastActive hl _ hpn _ hnone =>
    rw [heard_acceptedPn] at hpn
    obtain ⟨hrec, -, hvote, -, hle, -⟩ := h.of_heard rfl hexp hl.toLastHeard hl.first
    have hlead := h.of_counted rfl hexp hl.toLastHeard hl.first hpn
    refine ⟨g, .same (hvote.of_store (by simp [recovered])) (fun _ => ?_)
      (by simpa [recovered] using hle) (shared_op hl.sent)⟩
    rw [source_deliver, countedAfter_count (by simp [recovered]) (by simp [recovered])]
    exact hlead.activated (by simpa using hrec) hnone
  | @lastBegin j i m shared y _ _ hl _ hpn _ hy hv hbegin =>
    obtain rfl : i = x := hx
    rw [heard_acceptedPn] at hpn
    obtain ⟨hrec, hs, hvote, -, hle, -⟩ := h.of_heard rfl hexp hl.toLastHeard hl.first
    have hlead := h.of_counted rfl hexp hl.toLastHeard hl.first hpn
    obtain ⟨hnone, hlearned, hknown⟩ := hlead.recovering (by simpa using hrec)
    obtain ⟨rfl, hupd, rfl⟩ := begin_round hbegin (by simpa [recovered] using hcard hl.role)
    have hcs := hs.counted m
    have hT : insert i (countedAfter S (some (j, m)) p
        (begun i y (recovered .updatingPrevious (counted m (heard j m p))))) =
        insert i (insert j S) := by
      rw [countedAfter_count (by simp [begun, recovered]) (by simp [begun, recovered])]
    -- the whole quorum has answered
    have hall' : ∀ k ∈ (counted m (heard j m p)).quorum, k ∈ insert i (insert j S) := by
      intro k hk
      have htok := htok' (by simpa [begun, recovered] using hl.role)
      have hR := htok.all (by simp [begun, recovered])
      rw [← hT]
      by_cases hki : k = i
      · simp [hki]
      · refine mem_insert_of_mem ?_
        rw [source_deliver] at hR
        rw [hR]
        exact mem_erase.2 ⟨hki, hk⟩
    obtain ⟨hupn, z, hz, hprop⟩ : (counted m (heard j m p)).uncommittedPn <
        (counted m (heard j m p)).acceptedPn ∧
        ∃ z, (counted m (heard j m p)).uncommittedValue = some z ∧
          g.prop (counted m (heard j m p)).uncommittedPn
            ((counted m (heard j m p)).lastCommitted + 1) = some z := by
      rcases hlearned with ⟨-, -, hval⟩ | ⟨-, hlt, z, hz, hprop⟩
      · simp [hval] at hy
      · exact ⟨hlt, z, hz, hprop⟩
    obtain rfl : z = y := Option.some.inj (hz.symm.trans hy)
    refine ⟨_, After.of_begun shared.1
      ⟨hcs.idle, hcs.last, hcs.first, hcs.pn⟩ (hvote.of_store (by simp [recovered])) ?_ ?_ ?_ hupd
      hlead.pos (by simpa [recovered] using hle) (fun w _ => hnone w)
      (fun k hk q w hv hlt => (hknown k hk q w hv hlt).1) hT ?_ ?_ (shared_commit hl.sent)⟩
    · exact promise_le_of (by simp [recovered]) (by simp [recovered])
    · simpa [recovered] using (h.tok hl.role).pn
    · simpa [recovered] using hl.role
    · exact (h.wf _ _ _ hprop).dressValue
    · refine .inr ⟨_, z, hupn, hprop, sameValue_dressValue _ z, ?_⟩
      intro k hk q' hlt hlt' hvote'
      have := (hknown k (hall' k hk) q' _ hvote' hlt').2 rfl
      omega
  | @vote j i m y hop hepoch hrole hpn hlast hy =>
    obtain rfl : i = x := hx
    have hne := hexp.vote _ rfl hop hepoch hpn
    have hr : p.role = .peon j := hrole.resolve_left hne
    have hs := h.base.synced (h.base.idle_of_not_leader hne)
    obtain ⟨hlive, z, hz, hprop⟩ := h.begin j m rfl hop hepoch hr hpn
    have hprom := hlive.promise
    rw [hlast] at hz hprop
    rw [hz] at hy
    simp only [lookup_cons_self, Option.some.injEq] at hy
    subst hy
    refine ⟨g.cast i p.acceptedPn (p.lastCommitted + 1), Grows.cast hprom.le, ?_,
      fun hl => absurd hl hne, le_rfl, fun _ _ _ hq => .inl hq, ?_, ?_,
      fun hrec => by simp [voted] at hrec⟩
    · refine h.vote.cast (y := z) rfl ?_ ?_ hprom.symm rfl ?_ ?_
      · simp [voted, Store.putValue, hs.last]
      · simp [voted, hs.last]
      · rw [hprom, ← hpn, ← hs.last]
        exact hprop
      · rintro q w (hv | ⟨-, rfl, rfl⟩)
        · exact .inl hv
        · exact .inr ⟨hprom.symm, by rw [hs.last]⟩
    · intro k m' hm' hop'
      simp [(mem_reply hm').2, acceptMsg] at hop'
    · intro k m' hm' _
      obtain ⟨-, rfl⟩ := mem_reply hm'
      exact .inr ⟨rfl, rfl, rfl⟩
  | @accept _ _ _ hop hepoch hrole _ _ hstate =>
    have hr : p.role = .leader := hrole.resolve_right (hexp.accept _ rfl hop hepoch _)
    refine ⟨g, h.of_accept rfl hop hepoch hr ?_ rfl⟩
    rcases hstate with hs | hs <;> simp [Proposing, acceptedBy, hs]
  | @acceptCommit _ _ _ _ hop hepoch hrole _ _ hstate =>
    have hr : p.role = .leader := hrole.resolve_right (hexp.accept _ rfl hop hepoch _)
    refine ⟨g, h.of_accept rfl hop hepoch hr ?_ rfl⟩
    rcases hstate with hs | hs <;> simp [Proposing, committing, acceptedBy, hs]
  | @commit j _ m hop _ hrole =>
    have hs := h.base.synced (h.base.idle_of_not_leader (by simp [hrole]))
    obtain ⟨_, hlo⟩ := h.commit j m rfl hop
    have hst : StoreAt (g.Chosen n) p.lastCommitted p.store := hs.last ▸ h.hist.store
    refine ⟨g, .same (h.vote.storeState h.history hs hlo hst) (fun hl => by simp [hrole] at hl) ?_
      (by simp)⟩
    rcases storeState_spec h.history hlo hst with ⟨-, heq⟩ | ⟨-, hlt, _, heq, -⟩ <;> rw [heq]
    exact hlt.le
  | @propose i _ _ _ _ hrole hstate hbegin =>
    obtain rfl : i = x := hx
    have hs := h.base.synced (h.base.idle_of_state (by simp [hstate]) (by simp [hstate]))
    have hlead := h.lead hrole
    have htok := h.tok hrole
    obtain ⟨hnone, hvotes⟩ := hlead.active hstate
    have hQ : p.quorum ⊆ insert i S := by
      rw [htok.all (by simp [hstate]), insert_erase htok.self]
    obtain ⟨rfl, hupd, rfl⟩ := begin_round hbegin (hcard hrole)
    refine ⟨_, After.of_begun [] ⟨hs.idle, hs.last, hs.first, hs.pn⟩ (h.vote.of_store rfl)
      le_rfl htok.pn hrole hupd hlead.pos le_rfl hnone ?_
      (by rw [countedAfter_quiet (by rfl) (by rfl)]) ?_ (.inl ?_) (by simp)⟩
    · exact fun k hk q w hv hlt => (hvotes k hk q w hv hlt).trans (le_succ _)
    · exact pendingTx_proposable h.history (hs.last ▸ h.hist.store) hs.first
    · intro k hk q hlt hv
      have := hvotes k (hQ hk) q _ hv hlt
      exact absurd this (not_succ_le_self _)
  | @apply _ v y hqueued =>
    obtain ⟨hv, -⟩ := h.base.queued v y hqueued
    have hcaught := (h.base.caught (by simp [hqueued])).1
    obtain ⟨hlastPn, hacc, hlc, -, -⟩ := Store.applyTx_rest y { p.store with lastCommitted := v }
    refine ⟨g, .same (h.vote.advance ?_ ?_ ?_) (fun hr => ?_) le_rfl (by simp)⟩
    · simp only [applied]
      rw [hlc]
      dsimp only
      omega
    · simp only [applied]
      rw [hlc]
      rw [Store.applyTx_values, h.hist.store.above (v + 1) (by omega)]
      exact ite_self none
    · exact promise_le_of (le_of_eq hacc.symm) (le_of_eq hlastPn.symm)
    · rw [countedAfter_quiet (by rfl) (by rfl)]
      have hlead := h.lead hr
      exact ⟨hlead.pos, hlead.recovering, hlead.active, hlead.proposing⟩
  | @finish _ _ _ _ _ hrole hstate =>
    refine ⟨g, .same (h.vote.of_store rfl) (fun _ => ?_) (le_succ _) ?_⟩
    · rw [countedAfter_quiet (by rfl) (by rfl)]
      refine (h.lead hrole).finished ?_
      rcases hstate with hs | hs <;> simp [Proposing, hs]
    · intro k m' hm'
      obtain ⟨-, rfl⟩ := mem_broadcast hm'
      simp [commitMsg]

end Ceph.Mon.Paxos
