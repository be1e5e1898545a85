import Ceph.Include.IntervalSet

set_option autoImplicit false

/-!
# `interval_set`: intersection, union, subsets and spans

Both intersection algorithms produce their result from left to right.  What is still to come
is the common part of the intervals that are left; each round either drops an interval that
meets nothing, or emits the common part of two intervals and drops the one that ends first.
-/

namespace Ceph.Include

open Ceph.Lib List Option IntervalSet

variable {s l a b : IntervalSet} {S L A B : Finset Nat}

/-! ## Building a set from left to right -/

/-- The invariant of the set that is being built. -/
structure Building (acc : IntervalSet) (rest target : Nat → Prop) : Prop
    extends Emitted acc.m rest target where
  size_eq : acc.size = total acc.m

section

variable {acc : IntervalSet} {rest rest' target : Nat → Prop} {start len : Nat}

theorem Building.init (target : Nat → Prop) : Building {} target target :=
  ⟨Emitted.start target, rfl⟩

section

variable (h : Building acc rest target)

include h

theorem Building.congr (heq : ∀ x, rest x ↔ rest' x) : Building acc rest' target :=
  ⟨h.toEmitted.congr heq, h.size_eq⟩

/-- Everything emitted has a smaller key than what is still to come. -/
theorem Building.keys_lt (hstart : rest start) : ∀ p ∈ acc.m, p.1 < start := fun p hp => by
  have := h.ahead p hp start hstart
  omega

theorem Building.putEqual {p : Nat × Nat} (hlen : 0 < p.2)
    (heq : ∀ x, rest x ↔ p.1 ≤ x ∧ x < p.1 + p.2 ∨ rest' x)
    (hgap : ∀ x, rest' x → p.1 + p.2 < x) : Building (acc.putEqual p) rest' target := by
  have hkeys := h.keys_lt ((heq p.1).2 (Or.inl ⟨le_rfl, Nat.lt_add_of_pos_right hlen⟩))
  rw [IntervalSet.putEqual, emplace_last hkeys]
  refine ⟨h.emit hlen heq hgap, ?_⟩
  rw [total_append, total_cons, total_nil, h.size_eq, add_zero]

theorem Building.put (hlen : 0 < len) (heq : ∀ x, rest x ↔ start ≤ x ∧ x < start + len ∨ rest' x)
    (hgap : ∀ x, rest' x → start + len < x) : Building (acc.put start len) rest' target := by
  have hkeys := h.keys_lt ((heq start).2 (Or.inl ⟨le_rfl, Nat.lt_add_of_pos_right hlen⟩))
  have hput : acc.put start len = acc.putEqual (start, len) := by
    rw [IntervalSet.put, IntervalSet.putEqual, emplace_last hkeys, lookup_last hkeys, getD_some]
  rw [hput]
  exact h.putEqual hlen heq hgap

end

theorem Building.rep (h : Building acc rest (· ∈ S)) (hdone : ∀ x, ¬ rest x) : Rep acc S :=
  ⟨h.canonical, h.size_eq, (h.done hdone).2⟩

end

/-! ## Equal intervals -/

/-- The loop over equal intervals takes a common front off both lists. -/
theorem equalRun_eq {σ : Type} (f : σ → Nat × Nat → σ) (pa pb : Runs) (st : σ) :
    ∃ c pa' pb', equalRun f pa pb st = (pa', pb', c.foldl f st) ∧
      pa = c ++ pa' ∧ pb = c ++ pb' := by
  induction pa generalizing pb st with
  | nil =>
    refine ⟨[], [], pb, ?_, rfl, rfl⟩
    cases pb <;> rfl
  | cons p pa ih =>
    cases pb with
    | nil => exact ⟨[], p :: pa, [], rfl, rfl, rfl⟩
    | cons q pb =>
      rw [equalRun]
      split
      next heq =>
        subst heq
        obtain ⟨c, pa', pb', hrun, rfl, rfl⟩ := ih pb (f st p)
        exact ⟨p :: c, pa', pb', hrun, rfl, rfl⟩
      · exact ⟨[], p :: pa, q :: pb, rfl, rfl, rfl⟩

variable {c pa pb m ps : Runs} {p q : Nat × Nat} {offset len : Nat} {x : Nat}

/-- Behind a common front it does not matter. -/
theorem covered_rest (ha : Canonical (c ++ pa)) (hx : Covered pa x) :
    Covered (c ++ pb) x ↔ Covered pb x := by
  rw [covered_append]
  refine or_iff_right ?_
  obtain ⟨q, hq, _, -⟩ := hx
  rintro ⟨p, hp, -, _⟩
  have := (canonical_append.1 ha).2.2 p hp q hq
  omega

/-- Emitting a common front. -/
theorem Building.putList {acc : IntervalSet} {target : Nat → Prop} (ha : Canonical (c ++ pa))
    (h : Building acc (fun x => Covered (c ++ pa) x ∧ Covered (c ++ pb) x) target) :
    Building (c.foldl IntervalSet.putEqual acc) (fun x => Covered pa x ∧ Covered pb x)
      target := by
  induction c generalizing acc with
  | nil => exact h
  | cons p c ih =>
    refine ih ha.tail (h.putEqual ha.head_pos (fun x => ?_) fun x hx => ?_)
    · rw [cons_append, cons_append, ← singleton_append, ← singleton_append (l := c ++ pb),
        covered_append, or_and_right]
      refine or_congr ?_ (and_congr_right fun hx => covered_rest ha hx)
      exact (and_iff_left_of_imp fun hx => covered_append.2 (.inl hx)).trans (by simp)
    · exact Canonical.lt_of_covered_tail ha hx.1

/-! ## The linear merge -/

/-- An interval that ends before the other list begins meets nothing of it. -/
theorem common_drop (hb : Canonical (q :: pb)) (hpass : p.1 + p.2 ≤ q.1) (x : Nat) :
    Covered (p :: pa) x ∧ Covered (q :: pb) x ↔ Covered pa x ∧ Covered (q :: pb) x := by
  refine and_congr_left fun hx => ?_
  have hfirst := hb.le_of_covered hx
  rw [covered_cons]
  exact or_iff_right fun hp => by omega

/-- Emitting the common part of two intervals that meet, the first of which does not end
later. -/
theorem Building.putMeet {acc : IntervalSet} {target : Nat → Prop} (ha : Canonical (p :: pa))
    (hb : Canonical (q :: pb)) (hmeet : q.1 < p.1 + p.2) (hend : p.1 + p.2 ≤ q.1 + q.2)
    (h : Building acc (fun x => Covered (p :: pa) x ∧ Covered (q :: pb) x) target) :
    Building (acc.put (max p.1 q.1) (p.1 + p.2 - max p.1 q.1))
      (fun x => Covered pa x ∧ Covered (q :: pb) x) target := by
  have hlt : max p.1 q.1 < p.1 + p.2 := max_lt (Nat.lt_add_of_pos_right ha.head_pos) hmeet
  have hstop : max p.1 q.1 + (p.1 + p.2 - max p.1 q.1) = p.1 + p.2 := Nat.add_sub_cancel' hlt.le
  refine h.put (Nat.sub_pos_of_lt hlt) (fun x => ?_) fun x hx => ?_
  · rw [hstop]
    constructor
    · rintro ⟨hx, hxb⟩
      have hfirst := hb.le_of_covered hxb
      obtain hp | hp := covered_cons.1 hx
      · exact .inl ⟨max_le hp.1 hfirst, hp.2⟩
      · exact .inr ⟨hp, hxb⟩
    · rintro (⟨hlo, hhi⟩ | ⟨hp, hxb⟩)
      · rw [max_le_iff] at hlo
        exact ⟨covered_cons.2 (.inl ⟨hlo.1, hhi⟩), covered_cons.2 (.inl ⟨hlo.2, by omega⟩)⟩
      · exact ⟨covered_cons.2 (.inr hp), hxb⟩
  · rw [hstop]
    exact ha.lt_of_covered_tail hx.1

theorem mergeFrom_rep (fuel : Nat) {pa pb : Runs} {acc : IntervalSet} (ha : Canonical pa)
    (hb : Canonical pb) (hfuel : pa.length + pb.length ≤ fuel)
    (h : Building acc (fun x => Covered pa x ∧ Covered pb x) (· ∈ S)) :
    ∃ t, IntervalSet.mergeFrom fuel pa pb acc = some t ∧ Rep t S := by
  induction fuel generalizing pa pb acc with
  | zero =>
    obtain rfl : pa = [] := length_eq_zero_iff.1 (by omega)
    exact ⟨acc, by rw [mergeFrom], h.rep fun x hx => covered_nil hx.1⟩
  | succ _ ih =>
    cases pa with
    | nil => exact ⟨acc, by rw [mergeFrom], h.rep fun x hx => covered_nil hx.1⟩
    | cons p pa =>
      cases pb with
      | nil => exact ⟨acc, by rw [mergeFrom], h.rep fun x hx => covered_nil hx.2⟩
      | cons q pb =>
        rw [length_cons, length_cons] at hfuel
        have hp := ha.head_pos
        have hq := hb.head_pos
        have hswap : Building acc (fun x => Covered (q :: pb) x ∧ Covered (p :: pa) x)
            (· ∈ S) := h.congr fun x => and_comm
        rw [mergeFrom]
        split
        next hpass =>
          exact ih ha.tail hb (by rw [length_cons]; omega) (h.congr (common_drop hb hpass))
        next _ =>
          split
          next hpass =>
            refine ih ha hb.tail (by rw [length_cons]; omega) (hswap.congr fun x => ?_)
            rw [common_drop ha hpass, and_comm]
          next _ =>
            split
            next heq =>
              subst heq
              obtain ⟨c, _, _, hrun, rfl, rfl⟩ := equalRun_eq putEqual pa pb (acc.putEqual p)
              rw [equalRun, if_pos rfl, hrun]
              rw [length_append, length_append] at hfuel
              exact ih (canonical_append.1 ha.tail).2.1 (canonical_append.1 hb.tail).2.1
                (by omega) (h.putList (c := p :: c) ha)
            next _ =>
              rw [if_pos (lt_min (max_lt (by omega) (by omega)) (max_lt (by omega) (by omega)))]
              split
              next hlonger =>
                rw [min_eq_right hlonger.le, max_comm]
                exact ih ha hb.tail (by rw [length_cons]; omega)
                  ((hswap.putMeet hb ha (by omega) hlonger.le).congr fun x => and_comm)
              next hshorter =>
                rw [min_eq_left (le_of_not_gt hshorter)]
                exact ih ha.tail hb (by rw [length_cons]; omega)
                  (h.putMeet ha hb (by omega) (le_of_not_gt hshorter))

/-- The linear merge of two sets is their intersection. -/
theorem mergeIntersection_rep (ha : Rep a A) (hb : Rep b B) :
    ∃ t, mergeIntersection a b = some t ∧ Rep t (A ∩ B) := by
  refine mergeFrom_rep _ ha.canonical hb.canonical le_rfl ((Building.init _).congr fun x => ?_)
  rw [Finset.mem_inter, ha.covered, hb.covered]

/-! ## The lookup merge -/

theorem countP_lt_countP {α : Type} {p q : α → Bool} {l : List α} {x : α}
    (hle : ∀ y, p y = true → q y = true) (hx : x ∈ l) (hp : p x = false) (hq : q x = true) :
    l.countP p < l.countP q := by
  have hsub := monotone_filter_right l hle
  rw [countP_eq_length_filter, countP_eq_length_filter]
  refine lt_of_le_of_ne hsub.length_le fun hlen => ?_
  have hmem : x ∈ l.filter p := hsub.eq_of_length hlen ▸ mem_filter.2 ⟨hx, hq⟩
  rw [(mem_filter.1 hmem).2] at hp
  cases hp

/-- The number of intervals of the larger set that the search from `offset` can still find. -/
def toSearch (m : Runs) (offset : Nat) : Nat := m.countP fun p => decide (offset < p.1 + p.2)

theorem toSearch_lt {offset' : Nat} (hq : q ∈ m) (hin : offset < q.1 + q.2)
    (hout : q.1 + q.2 ≤ offset') : toSearch m offset' < toSearch m offset :=
  countP_lt_countP (fun p hp => decide_eq_true (by have := of_decide_eq_true hp; omega)) hq
    (decide_eq_false (not_lt.2 hout)) (decide_eq_true hin)

/-- What the loop of `intersection_size_asym` keeps: all that is left of the smaller set ends
beyond `offset`, and `offset` is not in the middle of a pair of intervals that meet. -/
structure AsymInv (m ps : Runs) (offset : Nat) : Prop where
  canonical : Canonical ps
  ends : ∀ q ∈ ps, offset < q.1 + q.2
  fresh : (∀ q ∈ ps, offset ≤ q.1) ∨ ¬ Covered m offset

theorem AsymInv.suffix {qs : Runs} (h : AsymInv m (ps ++ qs) offset) : AsymInv m qs offset :=
  ⟨(canonical_append.1 h.canonical).2.1, fun q hq => h.ends q (mem_append_right _ hq),
    h.fresh.imp_left fun hall q hq => hall q (mem_append_right _ hq)⟩

/-- The search starts anew at the start of the next interval. -/
theorem AsymInv.restart {qs : Runs} (h : Canonical (q :: qs)) : AsymInv m (q :: qs) q.1 := by
  have hfirst : ∀ r ∈ q :: qs, q.1 ≤ r.1 := fun r hr =>
    h.le_of_covered (covered_of_mem hr le_rfl (Nat.lt_add_of_pos_right (h.pos r hr)))
  refine ⟨h, fun r hr => ?_, .inl hfirst⟩
  have := hfirst r hr
  have := h.pos r hr
  omega

theorem asymFrom_rep (hm : Canonical m) (fuel : Nat) {ps : Runs} {offset : Nat} {acc : IntervalSet}
    (hinv : AsymInv m ps offset) (hfuel : ps.length + toSearch m offset < fuel)
    (h : Building acc (fun x => Covered ps x ∧ Covered m x ∧ offset ≤ x) (· ∈ S)) :
    ∃ t, IntervalSet.asymFrom m fuel ps offset acc = some t ∧ Rep t S := by
  induction fuel generalizing ps offset acc with
  | zero => exact absurd hfuel (Nat.not_lt_zero _)
  | succ fuel ih =>
    obtain ⟨_, post, hfind, hsplit, hcpost, hpost, hsuf⟩ := findInc_spec hm offset
    have hsub : ∀ x, Covered post x → Covered m x := by
      intro x hx
      rw [hsplit, covered_append]
      exact .inr hx
    rw [asymFrom, hfind]
    cases post with
    | nil => exact ⟨acc, rfl, h.rep fun x hx => covered_nil ((hsuf x hx.2.2).1 hx.2.1)⟩
    | cons pl plRest =>
      have hplEnd := hpost pl mem_cons_self
      have hplMem : pl ∈ m := by
        rw [hsplit]
        exact mem_append_right _ mem_cons_self
      obtain ⟨_, left, -, hdrop, hskip, hpast, hmeet⟩ :=
        cut_spec (fun p => decide (p.1 + p.2 ≤ pl.1)) ps
      simp only [decide_eq_true_eq, decide_eq_false_iff_not, not_le] at hpast hmeet
      dsimp only
      rw [hdrop]
      subst hskip
      rw [length_append] at hfuel
      have hleft := hinv.suffix
      -- The intervals that were passed end before anything of the larger set that is left.
      have hB : Building acc (fun x => Covered left x ∧ Covered m x ∧ offset ≤ x) (· ∈ S) := by
        refine h.congr fun x => and_congr_left fun hx => ?_
        exact covered_append_of_past hpast (hcpost.le_of_covered ((hsuf x hx.2).1 hx.1))
      cases left with
      | nil => exact ⟨acc, rfl, hB.rep fun x hx => covered_nil hx.1⟩
      | cons p rest =>
        have hpMeet := hmeet p rfl
        have hcp := hleft.canonical
        have hpEnd := hleft.ends p mem_cons_self
        rw [length_cons] at hfuel
        -- The search goes on from a later interval of the smaller set, if there is one.
        have hnext : ∀ {q : Nat × Nat} {ps : Runs} {acc : IntervalSet},
            Canonical (q :: ps) → p.1 + p.2 < q.1 → ps.length < rest.length →
            Building acc (fun x => Covered (q :: ps) x ∧ Covered m x) (· ∈ S) →
            ∃ t, asymFrom m fuel (q :: ps) q.1 acc = some t ∧ Rep t S := by
          intro q ps acc hc hgap hlen hD
          have hmono : toSearch m q.1 ≤ toSearch m offset := countP_mono_left fun p _ hp =>
            decide_eq_true (by have := of_decide_eq_true hp; omega)
          refine ih (AsymInv.restart hc) (by rw [length_cons]; omega)
            (hD.congr fun x => and_congr_right fun hx => ?_)
          exact (and_iff_left (hc.le_of_covered hx)).symm
        dsimp only
        split
        next hpass =>
          refine ih (AsymInv.restart hcp) ?_ (hB.congr fun x => ?_)
          · have := toSearch_lt hplMem hplEnd hpass
            rw [length_cons]
            omega
          · refine and_congr_right fun hx => and_congr_right fun _ => ?_
            have := hcp.le_of_covered hx
            constructor <;> intro <;> omega
        next _ =>
          -- Both intervals meet, and the search started before their common part.
          have hfresh : offset ≤ max p.1 pl.1 := by
            obtain hall | hnot := hleft.fresh
            · exact le_trans (hall p mem_cons_self) (le_max_left _ _)
            · refine le_trans ?_ (le_max_right p.1 pl.1)
              by_contra hcon
              exact hnot (hsub offset (covered_cons.2 (.inl ⟨by omega, hplEnd⟩)))
          have hC : Building acc
              (fun x => Covered (p :: rest) x ∧ Covered (pl :: plRest) x) (· ∈ S) := by
            refine hB.congr fun x => and_congr_right fun hx => ?_
            constructor
            · intro hxm
              exact (hsuf x hxm.2).1 hxm.1
            · intro hxp
              exact ⟨hsub x hxp, le_trans hfresh
                (max_le (hcp.le_of_covered hx) (hcpost.le_of_covered hxp))⟩
          split
          next heq =>
            subst heq
            obtain ⟨c, ps', _, hrun, rfl, rfl⟩ := equalRun_eq putEqual rest plRest (acc.putEqual p)
            rw [equalRun, if_pos rfl, hrun]
            rw [length_append] at hfuel
            have hD := hC.putList (c := p :: c) hcp
            cases ps' with
            | nil => exact ⟨_, rfl, hD.rep fun x hx => covered_nil hx.1⟩
            | cons q =>
              refine hnext (canonical_append.1 hcp.tail).2.1
                ((canonical_cons.1 hcp).2.2 q (by simp)) (by simp; omega)
                (hD.congr fun x => and_congr_right fun hx => ?_)
              have := hcp.lt_of_covered_tail (covered_append.2 (.inr hx))
              rw [hsuf x (by omega), ← cons_append, covered_rest hcp hx]
          next _ =>
            rw [if_pos (lt_min (max_lt (by have := hcp.head_pos; omega) hpMeet)
              (max_lt (by omega) (Nat.lt_add_of_pos_right hcpost.head_pos)))]
            split
            next hfirst =>
              rw [min_eq_left hfirst]
              have hD := hC.putMeet hcp hcpost hpMeet hfirst
              cases rest with
              | nil => exact ⟨_, rfl, hD.rep fun x hx => covered_nil hx.1⟩
              | cons q =>
                refine hnext hcp.tail ((canonical_cons.1 hcp).2.2 q mem_cons_self)
                  (Nat.lt_succ_self _) (hD.congr fun x => and_congr_right fun hx => ?_)
                have := hcp.lt_of_covered_tail hx
                rw [hsuf x (by omega)]
            next hlast =>
              have hplFirst : pl.1 + pl.2 ≤ p.1 + p.2 := Nat.le_of_not_le hlast
              rw [min_eq_right hplFirst, max_comm]
              have hD := (hC.congr fun x => and_comm).putMeet hcpost hcp (by omega) hplFirst
              have hstep := toSearch_lt hplMem hplEnd (le_refl (pl.1 + pl.2))
              refine ih ⟨hcp, fun q hq => ?_, .inr fun hstop => ?_⟩
                (by rw [length_cons]; omega) (hD.congr fun x => ?_)
              · obtain rfl | hq := mem_cons.1 hq
                · omega
                · have := (canonical_cons.1 hcp).2.2 q hq
                  omega
              · exact hcpost.not_covered_stop ((hsuf _ hplEnd.le).1 hstop)
              · rw [and_comm]
                refine and_congr_right fun _ => ?_
                rw [hcpost.tail_covered_iff]
                exact and_congr_left fun hx => (hsuf x (by omega)).symm

/-- `intersection_size_asym`, for a smaller set that is not empty, is the intersection too. -/
theorem intersectionSizeAsym_rep (hs : Rep s S) (hl : Rep l L) (hne : S.Nonempty) :
    ∃ t, intersectionSizeAsym s l = some t ∧ Rep t (S ∩ L) := by
  have hcanon := hs.canonical
  have hcov := hs.covered
  cases hm : s.m with
  | nil => exact absurd (hs.m_eq_nil_iff.1 hm) hne.ne_empty
  | cons p =>
    rw [hm] at hcanon hcov
    rw [intersectionSizeAsym, hm]
    refine asymFrom_rep hl.canonical _ (AsymInv.restart hcanon) ?_
      ((Building.init _).congr fun x => ?_)
    · have : toSearch l.m p.1 ≤ l.m.length := countP_le_length
      omega
    · rw [Finset.mem_inter, ← hcov, ← hl.covered]
      refine and_congr_right fun hx => (and_iff_left (hcanon.le_of_covered hx)).symm

theorem intersectionOf_rep (ha : Rep a A) (hb : Rep b B) :
    ∃ t, intersectionOf a b = some t ∧ Rep t (A ∩ B) := by
  -- The smaller set comes first.
  have hcase : ∀ {s l : IntervalSet} {S L : Finset Nat}, Rep s S → Rep l L → S ∩ L = A ∩ B →
      ∃ t, (if s.size = 0 then some {} else if l.size / s.size ≥ 10 then
        intersectionSizeAsym s l else mergeIntersection a b) = some t ∧
        Rep t (A ∩ B) := by
    intro s l S L hs hl heq
    split
    next h0 =>
      rw [hs.card_eq, Finset.card_eq_zero] at h0
      rw [← heq, h0]
      exact ⟨{}, rfl, rep_empty⟩
    next h0 =>
      split
      · rw [hs.card_eq] at h0
        rw [← heq]
        exact intersectionSizeAsym_rep hs hl (Finset.card_ne_zero.1 h0)
      · exact mergeIntersection_rep ha hb
  unfold intersectionOf
  by_cases hlt : a.size < b.size
  · rw [if_pos hlt]
    exact hcase ha hb rfl
  · rw [if_neg hlt]
    exact hcase hb ha (Finset.inter_comm B A)

/-- A set of one range. -/
theorem insert_empty_rep (start : Nat) (hlen : 0 < len) :
    ∃ t, insert {} start len = some t ∧ Rep t (Finset.Ico start (start + len)) := by
  obtain ⟨t, ht, hrep⟩ := rep_empty.insert hlen fun x (_ : start ≤ x) _ => Finset.notMem_empty x
  exact ⟨t, ht, hrep⟩

/-- `intersects` asks whether a range that is not empty has an element of the set. -/
theorem intersects_iff (hs : Rep s S) {start : Nat} (hlen : 0 < len) :
    ∃ r, s.intersects start len = some r ∧
      (r = true ↔ (S ∩ Finset.Ico start (start + len)).Nonempty) := by
  obtain ⟨t, ht, hrep⟩ := insert_empty_rep start hlen
  obtain ⟨i, hi, hrepi⟩ := intersectionOf_rep hs hrep
  refine ⟨!i.empty, ?_, ?_⟩
  · exact bind_eq_some_iff.2 ⟨t, ht, bind_eq_some_iff.2 ⟨i, hi, rfl⟩⟩
  · rw [Bool.not_eq_true', empty, isEmpty_eq_false_iff, ne_eq,
      hrepi.m_eq_nil_iff, Finset.nonempty_iff_ne_empty]

/-! ## Union -/

theorem unionOf_rep (ha : Rep a A) (hb : Rep b B) : ∃ t, unionOf a b = some t ∧ Rep t (A ∪ B) := by
  obtain ⟨ab, hab, hrepab⟩ := intersectionOf_rep ha hb
  obtain ⟨d, hd, hrepd⟩ := ha.subtract hrepab Finset.inter_subset_left
  have hdisj : Disjoint (A \ (A ∩ B)) B := by
    rw [Finset.disjoint_left]
    intro _ hx hxB
    rw [Finset.mem_sdiff, Finset.mem_inter] at hx
    exact hx.2 ⟨hx.1, hxB⟩
  obtain ⟨t, ht, hrep⟩ := hrepd.insertSet hb hdisj
  have hunion : A \ (A ∩ B) ∪ B = A ∪ B := by
    rw [Finset.sdiff_inter_self_left, Finset.sdiff_union_self_eq_union]
  refine ⟨t, ?_, hunion ▸ hrep⟩
  exact bind_eq_some_iff.2 ⟨ab, hab, bind_eq_some_iff.2 ⟨d, hd, ht⟩⟩

theorem unionInsert_rep (hs : Rep s S) {off : Nat} (hlen : 0 < len) :
    ∃ t, s.unionInsert off len = some t ∧ Rep t (S ∪ Finset.Ico off (off + len)) := by
  obtain ⟨a, ha, hrepa⟩ := insert_empty_rep off hlen
  obtain ⟨t, ht, hrep⟩ := unionOf_rep hs hrepa
  exact ⟨t, bind_eq_some_iff.2 ⟨a, ha, ht⟩, hrep⟩

/-! ## Subsets -/

/-- With a common front, what is left decides. -/
theorem subset_append (ha : Canonical (c ++ pa)) :
    (∀ x, Covered (c ++ pa) x → Covered (c ++ pb) x) ↔ ∀ x, Covered pa x → Covered pb x := by
  constructor
  · intro h x hx
    exact (covered_rest ha hx).1 (h x (covered_append.2 (.inr hx)))
  · intro h x hx
    exact covered_append.2 ((covered_append.1 hx).imp_right (h x))

theorem subsetFrom_iff (fuel : Nat) {pa pb : Runs} (ha : Canonical pa) (hb : Canonical pb)
    (hfuel : pa.length ≤ fuel) : ∃ r, subsetFrom fuel pa pb = some r ∧
      (r = true ↔ ∀ x, Covered pa x → Covered pb x) := by
  induction fuel generalizing pa pb with
  | zero =>
    obtain rfl : pa = [] := length_eq_zero_iff.1 (by omega)
    exact ⟨true, by rw [subsetFrom], by simp⟩
  | succ _ ih =>
    cases pa with
    | nil => exact ⟨true, by rw [subsetFrom], by simp⟩
    | cons p pa =>
      have hfalse : ∀ {qs : Runs} {x : Nat}, Covered (p :: pa) x →
          ¬ Covered qs x → (false = true ↔ ∀ x, Covered (p :: pa) x → Covered qs x) :=
        fun hx hnot => ⟨nofun, fun hall => absurd (hall _ hx) hnot⟩
      rw [length_cons] at hfuel
      cases pb with
      | nil => exact ⟨false, by rw [subsetFrom], hfalse ha.covered_head covered_nil⟩
      | cons q pb =>
        rw [subsetFrom]
        generalize q :: pb = qs at *
        obtain ⟨_, left, -, hdrop, hskip, hpast, hmeet⟩ :=
          cut_spec (fun r => decide (r.1 + r.2 ≤ p.1)) qs
        simp only [decide_eq_true_eq, decide_eq_false_iff_not, not_le] at hpast hmeet
        rw [hdrop]
        subst hskip
        -- What was passed ends before the first interval.
        rw [forall_congr' fun x => imp_congr_right fun hx =>
          covered_append_of_past hpast (ha.le_of_covered hx)]
        have hleft := (canonical_append.1 hb).2.1
        cases left with
        | nil => exact ⟨false, rfl, hfalse ha.covered_head covered_nil⟩
        | cons r left =>
          have hr := hmeet r rfl
          dsimp only
          split
          next heq =>
            subst heq
            obtain ⟨_, _, _, hrun, rfl, rfl⟩ := equalRun_eq (fun _ _ => ()) pa left ()
            rw [equalRun, if_pos rfl, hrun]
            rw [length_append] at hfuel
            rw [← cons_append, ← cons_append, subset_append ha]
            dsimp only
            exact ih (canonical_append.1 ha.tail).2.1 (canonical_append.1 hleft.tail).2.1 (by omega)
          next _ =>
            split
            next hbefore =>
              refine ⟨false, rfl, hfalse ha.covered_head fun hx => ?_⟩
              exact absurd (hleft.le_of_covered hx) (not_le.2 hbefore)
            next _ =>
              split
              next hlonger =>
                refine ⟨false, rfl, hfalse (covered_cons.2 (.inl ⟨?_, hlonger⟩))
                  hleft.not_covered_stop⟩
                exact hr.le
              next _ =>
                obtain ⟨t, ht, hiff'⟩ := ih ha.tail hleft (by omega)
                refine ⟨t, ht, hiff'.trans ?_⟩
                constructor
                · intro hall x hx
                  obtain hx | hx := covered_cons.1 hx
                  · exact covered_cons.2 (.inl ⟨by omega, by omega⟩)
                  · exact hall x hx
                · exact fun hall x hx => hall x (covered_cons.2 (.inr hx))

/-- `subset_size_sym` and the loop of lookups ask the same question. -/
theorem subsetSizeSym_iff (ha : Rep a A) (hb : Rep b B) :
    ∃ r, a.subsetSizeSym b = some r ∧ (r = true ↔ A ⊆ B) := by
  obtain ⟨r, hr, hiff⟩ := subsetFrom_iff a.m.length ha.canonical hb.canonical le_rfl
  refine ⟨r, hr, hiff.trans ⟨fun h x hx => ?_, fun h x hx => ?_⟩⟩
  · exact (hb.covered x).1 (h x ((ha.covered x).2 hx))
  · exact (hb.covered x).2 (h ((ha.covered x).1 hx))

theorem subsetLookup_iff (ha : Rep a A) (hb : Rep b B) : a.subsetLookup b = true ↔ A ⊆ B := by
  rw [subsetLookup, List.all_eq_true]
  constructor
  · intro h x hx
    obtain ⟨p, hp, hlo, hhi⟩ := (ha.covered x).2 hx
    have hrange := (hb.containsRange_iff p.1 (ha.canonical.pos p hp)).1 (h p hp)
    exact hrange (Finset.mem_Ico.2 ⟨hlo, hhi⟩)
  · intro h p hp
    rw [hb.containsRange_iff p.1 (ha.canonical.pos p hp)]
    intro x hx
    rw [Finset.mem_Ico] at hx
    exact h ((ha.covered x).1 (covered_of_mem hp hx.1 hx.2))

/-- `range_end` of a set that is not empty is the number after its last element. -/
theorem rangeEnd_spec (h : Rep s S) (hne : S.Nonempty) :
    ∃ e, s.rangeEnd = some e ∧ 0 < e ∧ e - 1 ∈ S ∧ ∀ x ∈ S, x < e := by
  obtain hnil | hconcat := eq_nil_or_concat s.m
  · exact absurd (h.m_eq_nil_iff.1 hnil) hne.ne_empty
  · obtain ⟨_, p, hm⟩ := hconcat
    rw [concat_eq_append] at hm
    have hcanon := h.canonical
    rw [hm] at hcanon
    have hpos := hcanon.pos p (mem_concat_self)
    refine ⟨p.1 + p.2, by rw [rangeEnd, hm, getLast?_concat]; rfl, by omega,
      ?_, fun x hx => ?_⟩
    · rw [← h.covered, hm]
      exact covered_of_mem (mem_concat_self) (by omega) (by omega)
    · rw [← h.covered, hm, covered_append] at hx
      obtain hx | hx := hx
      · obtain ⟨q, hq, -, hlt⟩ := hx
        have := (canonical_append.1 hcanon).2.2 q hq p (mem_singleton.2 rfl)
        omega
      · obtain ⟨q, hq, -, hlt⟩ := hx
        rwa [mem_singleton.1 hq] at hlt

theorem subsetOf_iff (ha : Rep a A) (hb : Rep b B) :
    ∃ r, a.subsetOf b = some r ∧ (r = true ↔ A ⊆ B) := by
  unfold subsetOf
  rw [ha.card_eq, hb.card_eq]
  split
  next h0 =>
    rw [Finset.card_eq_zero.1 h0]
    exact ⟨true, rfl, by simp⟩
  next h0 =>
    have hA : A.Nonempty := Finset.card_ne_zero.1 h0
    have hno : ¬ A ⊆ B → (false = true ↔ A ⊆ B) := fun h => ⟨nofun, fun hs => absurd hs h⟩
    split
    next hbig =>
      exact ⟨false, rfl, hno fun hsub => absurd (Finset.card_le_card hsub) (not_le.2 hbig)⟩
    next _ =>
      have hB : B.Nonempty := Finset.card_pos.1 (by omega)
      obtain ⟨_, hea, _, hlast, -⟩ := rangeEnd_spec ha hA
      obtain ⟨_, heb, -, -, hbound⟩ := rangeEnd_spec hb hB
      rw [hea, heb]
      simp only [bind_eq_bind, bind_some]
      split
      next _ =>
        refine ⟨false, rfl, hno fun hsub => ?_⟩
        have := hbound _ (hsub hlast)
        omega
      next _ =>
        split
        · exact subsetSizeSym_iff ha hb
        · exact ⟨_, rfl, subsetLookup_iff ha hb⟩

/-! ## Spans -/

/-- The number of elements of a set below `x`. -/
def rank (S : Finset Nat) (x : Nat) : Nat := (S.filter fun y => y < x).card

/-- The first `len` elements of a set from `start` on. -/
def spanSet (S : Finset Nat) (start len : Nat) : Finset Nat :=
  (S.filter fun x => start ≤ x).filter fun x => rank (S.filter fun y => start ≤ y) x < len

theorem rank_head (h : Canonical (p :: ps)) (hhi : x < p.1 + p.2) :
    rank (points (p :: ps)) x = x - p.1 := by
  have heq : (points (p :: ps)).filter (fun y => y < x) = Finset.Ico p.1 x := by
    ext y
    rw [Finset.mem_filter, mem_points, Finset.mem_Ico, covered_cons]
    constructor
    · rintro ⟨hy | hy, hlt⟩
      · exact ⟨hy.1, hlt⟩
      · have := h.lt_of_covered_tail hy
        omega
    · rintro ⟨hy, hlt⟩
      exact ⟨.inl ⟨hy, by omega⟩, hlt⟩
  rw [rank, heq, Nat.card_Ico]

theorem rank_tail (h : Canonical (p :: ps)) (hx : Covered ps x) :
    rank (points (p :: ps)) x = p.2 + rank (points ps) x := by
  have hfar := h.lt_of_covered_tail hx
  have hall : (Finset.Ico p.1 (p.1 + p.2)).filter (fun y => y < x) =
      Finset.Ico p.1 (p.1 + p.2) := by
    refine Finset.filter_true_of_mem fun y hy => ?_
    rw [Finset.mem_Ico] at hy
    omega
  rw [rank, points_cons, Finset.filter_union, hall, Finset.card_union_of_disjoint
    (Finset.disjoint_of_subset_right (Finset.filter_subset _ _) h.disjoint_points),
    Nat.card_Ico, rank]
  omega

/-- The loop of `span_of` takes the first `len` elements. -/
theorem spanFrom_rep (hps : Canonical ps) (len : Nat) {acc : IntervalSet} {T : Finset Nat}
    (h : Rep acc T) (hdisj : ∀ x, Covered ps x → x ∉ T) : ∃ t, spanFrom ps len acc = some t ∧
      Rep t (T ∪ (points ps).filter fun x => rank (points ps) x < len) := by
  induction ps generalizing len acc T with
  | nil =>
    refine ⟨acc, rfl, ?_⟩
    rw [show points [] = ∅ from rfl, Finset.filter_empty, Finset.union_empty]
    exact h
  | cons p ps ih =>
    have hmem : ∀ x, x ∈ (points (p :: ps)).filter (fun x => rank (points (p :: ps)) x < len) ↔
        p.1 ≤ x ∧ x < p.1 + p.2 ∧ x < p.1 + len ∨
          Covered ps x ∧ p.2 + rank (points ps) x < len := by
      intro x
      rw [Finset.mem_filter, mem_points, covered_cons, or_and_right]
      refine or_congr ?_ (and_congr_right fun hx => by rw [rank_tail hps hx])
      rw [and_assoc]
      refine and_congr_right fun hlo => and_congr_right fun hhi => ?_
      rw [rank_head hps hhi]
      omega
    have hin : ∀ x, p.1 ≤ x → x < p.1 + p.2 → x ∉ T :=
      fun x hlo hhi => hdisj x (covered_cons.2 (.inl ⟨hlo, hhi⟩))
    rw [spanFrom]
    split
    next hpos =>
      split
      next _ =>
        obtain ⟨acc', hacc', hrep⟩ := h.insert hps.head_pos hin
        obtain ⟨t, ht, _⟩ := ih hps.tail (len - p.2) hrep fun x hx => by
          rw [Finset.mem_union, Finset.mem_Ico]
          have hfar := hps.lt_of_covered_tail hx
          exact not_or.2 ⟨hdisj x (covered_cons.2 (.inr hx)), by omega⟩
        refine ⟨t, bind_eq_some_iff.2 ⟨acc', hacc', ht⟩, ?_⟩
        have hset : T ∪ Finset.Ico p.1 (p.1 + p.2) ∪
            (points ps).filter (fun x => rank (points ps) x < len - p.2) =
            T ∪ (points (p :: ps)).filter fun x => rank (points (p :: ps)) x < len := by
          ext x
          simp only [Finset.mem_union, hmem, Finset.mem_Ico, Finset.mem_filter, mem_points]
          grind
        rwa [← hset]
      next _ =>
        obtain ⟨t, ht, hrep⟩ := h.insert hpos fun x hlo hhi => hin x hlo (by omega)
        refine ⟨t, ht, ?_⟩
        have hset : T ∪ Finset.Ico p.1 (p.1 + len) =
            T ∪ (points (p :: ps)).filter fun x => rank (points (p :: ps)) x < len := by
          ext x
          grind
        rwa [← hset]
    next _ =>
      have hset : (points (p :: ps)).filter (fun x => rank (points (p :: ps)) x < len) = ∅ :=
        Finset.filter_false_of_mem fun x _ => by omega
      rw [hset, Finset.union_empty]
      exact ⟨acc, rfl, h⟩

theorem spanOf_rep (h : Rep s S) (start : Nat) (hlen : 0 < len) :
    ∃ t, spanOf s start len = some t ∧ Rep t (spanSet S start len) := by
  obtain ⟨_, post, hfind, -, hcpost, hpost, hfar⟩ := findInc_spec h.canonical start
  -- From `start` on the set is covered by the intervals that the search finds.
  have hin : ∀ x, x ∈ S.filter (fun x => start ≤ x) ↔ Covered post x ∧ start ≤ x := by
    intro x
    rw [Finset.mem_filter, ← h.covered]
    exact and_congr_left (hfar x)
  -- It is enough to run the loop on a canonical list with these elements.
  have hrun : ∀ {ps : Runs}, Canonical ps →
      (∀ x, Covered ps x ↔ Covered post x ∧ start ≤ x) →
      ∃ t, spanFrom ps len {} = some t ∧ Rep t (spanSet S start len) := by
    intro ps hps hcov
    obtain ⟨t, ht, hrep⟩ := spanFrom_rep hps len rep_empty fun x _ => Finset.notMem_empty x
    have hpoints : points ps = S.filter fun x => start ≤ x := by
      ext x
      rw [mem_points, hcov, hin]
    rw [Finset.empty_union, hpoints] at hrep
    exact ⟨t, ht, hrep⟩
  rw [spanOf, hfind]
  cases post with
  | nil =>
    obtain ⟨t, ht, hrep⟩ := hrun canonical_nil (fun x => by simp)
    rw [← some_inj.1 ht] at hrep
    exact ⟨_, rfl, hrep⟩
  | cons p post =>
    have hpend := hpost p mem_cons_self
    obtain ⟨-, hctail, hgap⟩ := canonical_cons.1 hcpost
    dsimp only
    split
    next _ =>
      rw [if_neg (by omega)]
      -- The interval is cut at `start`, and then it is the first of the loop.
      have hcut : Canonical ((start, p.2 - (start - p.1)) :: post) :=
        canonical_cons.2 ⟨by dsimp only; omega, hctail, fun q hq => by
          have := hgap q hq
          omega⟩
      have hcov : ∀ x, Covered ((start, p.2 - (start - p.1)) :: post) x ↔
          Covered (p :: post) x ∧ start ≤ x := by
        intro x
        have hfar : Covered post x → p.1 + p.2 < x := hcpost.lt_of_covered_tail
        rw [covered_cons, covered_cons]
        grind
      obtain ⟨t, ht, hrep⟩ := hrun hcut hcov
      rw [spanFrom, if_pos hlen] at ht
      refine ⟨t, ?_, hrep⟩
      split
      next _ =>
        rwa [if_pos (by dsimp only; omega)] at ht
      next _ =>
        rwa [if_neg (by dsimp only; omega)] at ht
    next hafter =>
      refine hrun hcpost fun x => (and_iff_left_of_imp fun hx => ?_).symm
      exact le_trans (le_of_not_gt hafter) (hcpost.le_of_covered hx)

end Ceph.Include
