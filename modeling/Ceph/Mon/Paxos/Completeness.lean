import Ceph.Mon.Paxos.Agreement

set_option autoImplicit false

/-!
# Completeness of the store

Between `first_committed` and `last_committed` every version is there.  This
rests on agreement: a trim names its versions, so it is right only for a store
that holds the same versions as that of the leader who proposed it.  A single
monitor needs no agreement and is looked at on its own.
-/

namespace Ceph.Mon.Paxos

open Ceph.Lib List Option

variable {n : Nat} {C : Commits} {s s' : System}

/-- The store has a value for every version that it claims to have. -/
def StoreComplete (st : Store) : Prop :=
  st.firstCommitted ≤ st.lastCommitted ∧
    ∀ v, 1 ≤ v → st.firstCommitted ≤ v → v ≤ st.lastCommitted → (st.values v).isSome

theorem StoreAt.complete (hC : HistoryOk C) {st : Store} (h : StoreAt C st.lastCommitted st) :
    StoreComplete st := by
  refine ⟨hC.first_le h.first, fun v hv hf hle => ?_⟩
  obtain ⟨_, hx, -⟩ := h.held v hf hv hle
  simp [hx]

/-! ## Any number of monitors that follow one history -/

/-- All monitors follow the history `C`. -/
structure Following (n : Nat) (C : Commits) (s : System) : Prop where
  history : HistoryOk C
  base : ∀ i, i < n → MonBase (s.mon i)
  hist : ∀ i, i < n → MonHist C (Proposable C) (s.mon i)
  msgs : ∀ j i m, m ∈ s.net j i → MsgHist C (Proposable C) m
  /-- In memory too, also between the two halves of a commit. -/
  first : ∀ i, i < n → (s.mon i).firstCommitted ≤ (s.mon i).lastCommitted

theorem Agreed.following {R : Nat → Finset Nat} {g : Ghost} (h : Agreed n R g s)
    (hfirst : ∀ i, i < n → (s.mon i).firstCommitted ≤ (s.mon i).lastCommitted) :
    Following n (g.Chosen n) s :=
  ⟨h.votes.props.history, fun i hi => h.core.base i (Finset.mem_range.2 hi), h.hist, h.msgs, hfirst⟩

variable {a : Action}

/-- `first_committed` in memory after a step. -/
theorem Following.first_step {C' : Commits} (h : Following n C s) {inp : Option MMonPaxos}
    {p' : Monitor} {out : Sends} (hlt : a.actor < n) (hlocal : Local n (s.mon a.actor) inp a p' out)
    (heff : Effect s s' a.actor (a.source inp) p' out) (hexp : Expected (s.mon a.actor) inp)
    (hC' : HistoryOk C') (hbase' : MonBase p') (hhist' : MonHist C' (Proposable C') p') :
    ∀ i, i < n → (s'.mon i).firstCommitted ≤ (s'.mon i).lastCommitted := by
  intro i hi
  refine heff.mon_step (P := fun _ p => p.firstCommitted ≤ p.lastCommitted) ?_ (h.first i hi)
  by_cases hc : p'.commit = .applied
  · obtain ⟨hlc, hfc, -, -⟩ := hlocal.applied_cases (h.base _ hlt) hexp hc
    rw [hlc, hfc]
    exact h.first _ hlt
  · obtain ⟨hlc, hfc⟩ := hbase'.caught hc
    rw [hlc, hfc]
    exact hC'.first_le hhist'.store.first

/-! ## A single monitor -/

/-- A single monitor, which talks to nobody. -/
structure Solo (C : Commits) (s : System) : Prop extends Following 1 C s where
  net : ∀ j i, s.net j i = []
  bound : ∀ v x, C v x → v ≤ (s.mon 0).store.lastCommitted

theorem others_solo (Q : Finset Nat) : others 1 0 Q = [] := by
  simp [others, range_succ]

theorem Local.solo_out {p p' : Monitor} {out : Sends} (hx : a.actor = 0)
    (h : Local 1 p none a p' out) : out = [] := by
  cases h with
  | @win i | @finish i => rw [show i = 0 from hx, others_solo, map_nil]
  | @propose i _ _ _ _ _ _ hbegin =>
    obtain ⟨-, -, -, -, hcase⟩ := begin_eq_some hbegin
    rcases hcase with ⟨-, hr⟩ | ⟨-, hr⟩ <;> rw [(Prod.mk.inj hr).2]
    rw [show i = 0 from hx, others_solo, map_nil]
  | _ => rfl

/-- With no message under way, a single monitor receives none and sends none. -/
theorem Local.silent {inp : Option MMonPaxos} {p' : Monitor} {out : Sends} (hx : a.actor = 0)
    (h : Local 1 (s.mon a.actor) inp a p' out) (heff : Effect s s' a.actor (a.source inp) p' out)
    (hnet : ∀ j i, s.net j i = []) : inp = none ∧ ∀ j i, s'.net j i = [] := by
  have hinp : inp = none := by
    cases inp with
    | none => rfl
    | some m =>
      obtain ⟨j, hj⟩ := h.source rfl
      have := heff.src_mem j m hj
      simp [hnet] at this
  subst hinp
  obtain rfl := h.solo_out hx
  refine ⟨rfl, fun j i => eq_nil_iff_forall_not_mem.2 fun m hm => ?_⟩
  rcases heff.origin (heff.self (hnet _ _) (by simp)) hm with hm | ⟨-, hm⟩
  · simp [hnet] at hm
  · simp at hm

/-- A single monitor extends its own history with each commit. -/
theorem Solo.step (h : Solo C s) (hstep : step 1 s a = some s') : ∃ C', Solo C' s' := by
  obtain ⟨hlt, _, _, _, hlocal, heff⟩ := step_effect hstep
  have hx : a.actor = 0 := by omega
  obtain ⟨rfl, hnet'⟩ := hlocal.silent hx heff h.net
  have hexp : Expected (s.mon a.actor) none := ⟨by simp, by simp, by simp⟩
  have hb := h.base _ hlt
  have hh := h.hist _ hlt
  have hself := heff.mon_self
  have hmono := hh.lastCommitted_step h.history hb hlocal hexp (by simp)
  have hbase' := hb.step hlocal hexp
  obtain ⟨C', hC', hsub, hnew, hdone⟩ := hh.extend_step h.history hb hlocal hexp
    fun v x hqueued y hy => by
      have := h.bound _ _ hy
      have hcaught := (hb.caught (by simp [hqueued])).1
      rw [hx] at hcaught this
      omega
  have hP : ∀ v y, Proposable C v y → Proposable C' v y := fun v y hy => hy.mono hsub
  have hh' := hh.mono hsub hP
  obtain ⟨hhist', -⟩ := hh'.step hC' hb hlocal hexp (by simp)
    (hh'.newValue_step hC' hb hlocal hexp (by simp)) hdone
  have hfirst' := h.toFollowing.first_step hlt hlocal heff hexp hC' hbase' hhist'
  refine ⟨C', ⟨hC', fun i hi => ?_, fun i hi => ?_, ?_, hfirst'⟩, hnet', fun v x hvx => ?_⟩
  · obtain rfl : i = a.actor := by omega
    rw [hself]
    exact hbase'
  · obtain rfl : i = a.actor := by omega
    rw [hself]
    exact hhist'
  · simp [hnet']
  · rw [← hx, hself]
    rcases hnew v x hvx with hold | hle
    · have := h.bound v x hold
      rw [hx] at hmono
      omega
    · exact hle

theorem Solo.init : Solo (fun _ _ => False) System.init := by
  refine ⟨⟨⟨by simp, by simp⟩, ?_, fun i _ => .init i, by simp [System.init],
    by simp [System.init]⟩, by simp [System.init], by simp⟩
  exact fun i _ => Synced.base_of_role ⟨rfl, rfl, rfl, le_rfl⟩ (by simp [System.init])

/-! ## The result -/

/-- Along every run that keeps promises, all monitors follow one history. -/
theorem following_of_run (hpos : 0 < n) (hn : n ≤ 100)
    (hrun : Run (step n) (fun s a => remembers s a = true) System.init s) :
    ∃ C, Following n C s := by
  rcases Nat.lt_or_eq_of_le hpos with htwo | rfl
  · obtain ⟨⟨R, g, h⟩, hfirst⟩ := @Run.invariant _ _ _ _ _ _ (fun s => (∃ R g, Agreed n R g s) ∧
        ∀ i, i < n → (s.mon i).firstCommitted ≤ (s.mon i).lastCommitted) hrun
      ⟨⟨_, _, Agreed.init⟩, fun _ _ => le_rfl⟩
      fun s a s' ⟨⟨R, g, h⟩, hfirst⟩ hok hstep => by
        obtain ⟨R', g', h', -⟩ := h.step htwo (distinct_range hn) hok hstep
        refine ⟨⟨R', g', h'⟩, ?_⟩
        obtain ⟨hlt, _, _, _, hlocal, heff⟩ := step_effect hstep
        have hself := heff.mon_self
        exact (h.following hfirst).first_step hlt hlocal heff
          (h.core.expected_step (distinct_range hn) hlocal heff) h'.votes.props.history
          (hself ▸ h'.core.base _ (Finset.mem_range.2 hlt)) (hself ▸ h'.hist _ hlt)
    exact ⟨_, h.following hfirst⟩
  · obtain ⟨C, hC⟩ := @Run.invariant _ _ _ _ _ _ (fun s => ∃ C, Solo C s) hrun ⟨_, Solo.init⟩
      fun s a s' ⟨C, hC⟩ _ hstep => hC.step hstep
    exact ⟨C, hC.toFollowing⟩

/-- Completeness, for at most 100 monitors that never accept a proposal number
below one they have handed out themselves: the store of every monitor has all
versions from `first_committed` to `last_committed`, and `store_state` on the
next message of a link passes over no version that it does not write. -/
theorem store_complete {i : Nat} (hn : n ≤ 100)
    (hrun : Run (step n) (fun s a => remembers s a = true) System.init s) (hi : i < n) :
    StoreComplete (s.mon i).store ∧
      (s.mon i).firstCommitted ≤ (s.mon i).lastCommitted ∧
      ∀ j m rest, s.net j i = m :: rest → m.op = .commit ∨ m.op = .last →
        ∀ v, (s.mon i).lastCommitted < v → v ≤ (storeState m (s.mon i)).lastCommitted →
          ∃ x, (v, x) ∈ toStore m (s.mon i).lastCommitted := by
  obtain ⟨_, h⟩ := following_of_run (Nat.zero_lt_of_lt hi) hn hrun
  refine ⟨(h.hist i hi).store.complete h.history, h.first i hi, ?_⟩
  intro j m rest hnet hop v hlt hle
  obtain ⟨lo, hlo⟩ := (h.msgs j i m (by simp [hnet])).carries hop
  obtain ⟨hsome, hnone⟩ := hlo.toStore
  by_cases hdo : lo ≤ (s.mon i).lastCommitted + 1 ∧ (s.mon i).lastCommitted < m.lastCommitted
  · have hseg := hsome hdo.1 hdo.2
    obtain ⟨x, hx⟩ := hseg.getLast_eq (by omega)
    have hlc : (storeState m (s.mon i)).lastCommitted = m.lastCommitted := by
      unfold storeState
      rw [hx]
    exact (hseg.mem_iff v).2 ⟨hlt, hlc ▸ hle⟩
  · have hlc : (storeState m (s.mon i)).lastCommitted = (s.mon i).lastCommitted := by
      unfold storeState
      rw [hnone hdo]
      rfl
    omega

theorem store_complete_oneCommit :
    ∃ s, Run (step 3) (fun s a => remembers s a = true) System.init s ∧
      (s.mon 2).store.lastCommitted = 1 ∧ StoreComplete (s.mon 2).store := by
  have hview : (execOk (step 3) remembers System.init oneCommit).map
      (fun s => (s.mon 2).store.lastCommitted) = some 1 := by decide +kernel
  obtain ⟨s, hs, hv⟩ := map_eq_some_iff.1 hview
  exact ⟨s, execOk_run hs, hv, (store_complete (by decide) (execOk_run hs) (by decide)).1⟩

/-! ## What goes wrong without the condition -/

/-- Commit `data` with leader `l` and the peers `a` and `b`. -/
def commitRound (l a b data : Nat) (trim : Option TrimConf) : List Action :=
  [.propose l data trim, .deliver l a, .deliver l b, .deliver a l, .deliver b l, .commitApply l,
    .commitFinish l, .deliver l a, .deliver l b]

/-- The promises that monitors 0, 1 and 2 give each other over version 4 are forgotten:
monitor 0 commits the value of monitor 1, which trims versions 1 and 2, and the
majority of monitor 1 that of monitor 2, without a trim. -/
def twoFourths : List Action :=
  [.win 1 6 {1, 3, 4}, .lose 3 6 1 {1, 3, 4}, .lose 4 6 1 {1, 3, 4}, .deliver 1 3, .deliver 1 4,
    .deliver 3 1, .deliver 4 1, .deliver 1 3, .deliver 1 3, .propose 1 11 (some ⟨0, 0, 2⟩),
    .crash 1,
    .win 2 8 {2, 3, 4}, .win 2 10 {2, 3, 4}, .lose 3 10 2 {2, 3, 4}, .lose 4 10 2 {2, 3, 4},
    .deliver 2 3, .deliver 2 4, .deliver 2 3, .deliver 2 4, .deliver 3 2, .deliver 4 2,
    .propose 2 22 none, .deliver 2 3, .crash 2,
    .win 0 12 {0, 1, 2}, .lose 1 12 0 {0, 1, 2}, .lose 2 12 0 {0, 1, 2}, .deliver 0 1,
    .deliver 0 2, .deliver 1 0, .deliver 2 0, .deliver 0 2,
    .win 0 14 {0, 1, 2}, .lose 1 14 0 {0, 1, 2}, .lose 2 14 0 {0, 1, 2}, .deliver 0 1,
    .deliver 0 1, .deliver 0 2, .deliver 1 0, .deliver 2 0, .deliver 2 0, .deliver 0 1,
    .deliver 0 2, .deliver 1 0, .deliver 2 0, .commitApply 0, .commitFinish 0,
    .win 1 16 {1, 2, 3}, .lose 2 16 1 {1, 2, 3}, .lose 3 16 1 {1, 2, 3}, .deliver 1 2,
    .deliver 1 3, .deliver 1 3, .deliver 2 1, .deliver 3 1, .deliver 1 2, .deliver 1 3,
    .deliver 2 1, .deliver 3 1, .commitApply 1, .commitFinish 1, .deliver 1 2, .deliver 1 3]

/-- Three versions are committed, the first of them by monitor 4 too, and then two
fourths.  The next commit of monitor 1 trims version 1 alone, and monitor 0 takes it
over. -/
def forgottenTrim : List Action :=
  [.win 0 2 {0, 1, 4}, .lose 1 2 0 {0, 1, 4}, .lose 4 2 0 {0, 1, 4}, .deliver 0 1, .deliver 0 4,
    .deliver 1 0, .deliver 4 0] ++
  commitRound 0 1 4 1 none ++
  [.win 0 4 {0, 1, 2}, .lose 1 4 0 {0, 1, 2}, .lose 2 4 0 {0, 1, 2}, .deliver 0 1, .deliver 0 2,
    .deliver 1 0, .deliver 2 0, .deliver 0 2] ++
  commitRound 0 1 2 2 none ++ commitRound 0 1 2 3 none ++ twoFourths ++
  commitRound 1 2 3 33 (some ⟨0, 0, 1⟩) ++
  [.win 0 18 {0, 1, 2}, .lose 1 18 0 {0, 1, 2}, .deliver 0 1, .deliver 0 1, .deliver 1 0]

/-- Monitor 0 claims versions 2 to 5 and has erased version 2. -/
theorem forgottenTrim_incomplete :
    ∃ s, Reaches (step 5) System.init s ∧ (s.mon 0).store.firstCommitted = 2 ∧
      (s.mon 0).store.lastCommitted = 5 ∧ (s.mon 0).store.values 2 = none ∧
      ¬ StoreComplete (s.mon 0).store := by
  have hview : (exec (step 5) System.init forgottenTrim).any (fun s =>
      (s.mon 0).store.firstCommitted = 2 ∧ (s.mon 0).store.lastCommitted = 5 ∧
        (s.mon 0).store.values 2 = none) = true := by decide +kernel
  simp only [Option.any_eq_true, decide_eq_true_eq] at hview
  obtain ⟨s, hs, hfc, hlc, hnone⟩ := hview
  refine ⟨s, exec_reaches hs, hfc, hlc, hnone, fun hcomplete => ?_⟩
  have := hcomplete.2 2 (by decide) hfc.le (by omega)
  simp [hnone] at this

end Ceph.Mon.Paxos
