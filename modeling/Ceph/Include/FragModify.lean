import Ceph.Include.FragTree

set_option autoImplicit false

/-!
# What the modifiers of a fragment tree do

Splitting, merging and assimilating keep a tree well-formed, and their
assertions hold.  `force_to_leaf` takes the table through states with orphans:
it clears an entry before the entries below it, and it puts an intermediary
split under a fragment after taking the old split away.
-/

namespace Ceph.Include

open Ceph.Lib List Option Function Frag Bool
open Ceph.Lib.Levels

namespace FragTree

variable {T : FragTree} {f x : Frag}

/-! ## Writing an entry -/

theorem sp_set (T : FragTree) (f : Frag) (b : Nat) :
    (T.set f.enc b).sp = Function.update T.sp f b :=
  update_comp_eq_of_injective T.splits enc_injective f b

theorem sp_erase (T : FragTree) (f : Frag) :
    (T.erase f.enc).sp = Function.update T.sp f 0 := T.sp_set f 0

variable {b : Nat} {p : Frag}

theorem Bounded.set (h : T.Bounded) (hb : b ≠ 0 → f.bits + b ≤ 24) : (T.set f.enc b).Bounded := by
  intro k hk
  obtain heq | hne := eq_or_ne k f.enc
  · subst heq
    refine ⟨f, rfl, ?_⟩
    rw [sp_set, update_self]
    refine hb ?_
    simpa [FragTree.set] using hk
  · have hkT : T.splits k ≠ 0 := by simpa [FragTree.set, update_of_ne hne] using hk
    obtain ⟨g, hg, _⟩ := h k hkT
    refine ⟨g, hg, ?_⟩
    rwa [sp_set, update_of_ne]
    rintro rfl
    exact hne hg.symm

theorem Bounded.erase (h : T.Bounded) : (T.erase f.enc).Bounded := h.set fun hne => absurd rfl hne

/-! ## Assimilating -/

/-- The loop over the children finds the split that all of them have. -/
theorem commonSplit_spec (T : FragTree) {fs : List Frag} {cb r : Nat}
    (h : T.commonSplit (fs.map enc) cb = some r) :
    (∀ f ∈ fs, T.sp f = r ∧ r ≠ 0) ∧ (cb ≠ 0 → r = cb) := by
  induction fs generalizing cb r with
  | nil =>
    cases h
    exact ⟨nofun, fun _ => rfl⟩
  | cons a _ ih =>
    rw [map_cons, commonSplit] at h
    split at h
    next => cases h
    next hne =>
      split at h
      next => cases h
      next hsame =>
        obtain ⟨hall, hcb⟩ := ih h
        have hr : r = T.sp a := hcb hne
        refine ⟨?_, fun hnz => ?_⟩
        · intro f hf
          obtain heq | hf := mem_cons.1 hf
          · subst heq
            exact ⟨hr.symm, hr ▸ hne⟩
          · exact hall f hf
        · rw [hr]
          exact not_not.1 fun hdiff => hsame ⟨hnz, hdiff⟩

theorem sp_foldl_erase (fs : List Frag) (T : FragTree) (k : Frag) :
    ((fs.map enc).foldl FragTree.erase T).sp k = if k ∈ fs then 0 else T.sp k := by
  induction fs generalizing T k with
  | nil => rfl
  | cons a _ ih =>
    rw [map_cons, foldl_cons, ih, sp_erase]
    obtain heq | hne := eq_or_ne k a
    · simp [heq]
    · simp [hne]

theorem Bounded.foldl_erase (fs : List Frag) {T : FragTree} (h : T.Bounded) :
    ((fs.map enc).foldl FragTree.erase T).Bounded := by
  rw [foldl_map]
  exact foldlRecOn fs _ h fun _ hT _ _ => hT.erase

/-- The table before an assimilation is the table after it, with one split cut. -/
theorem assimilate_cut (h : T.Bounded) {cb : Nat} (hf : T.sp f ≠ 0)
    (hcb : T.commonSplit (fragSplit f.enc (T.sp f)) 0 = some cb) :
    CutSplit levels (T.tryAssimilateChildren f.enc).sp T.sp f (T.sp f) cb ∧
      (T.tryAssimilateChildren f.enc).Bounded := by
  have hle := h.le hf
  have hmem := fun c => mem_children (c := c) hle
  rw [h.fragSplit_enc hf] at hcb
  obtain ⟨hall, _⟩ := T.commonSplit_spec hcb
  have hself : f ∉ f.children (T.sp f) := by
    intro hin
    have hbits := ((hmem f).1 hin).1
    omega
  -- there is a child, so the common split is one
  obtain ⟨c, hc⟩ : ∃ c, c ∈ f.children (T.sp f) := by
    refine exists_mem_of_length_pos ?_
    rw [length_children hle]
    exact Nat.two_pow_pos _
  have hT' : T.tryAssimilateChildren f.enc =
      (((f.children (T.sp f)).map enc).foldl FragTree.erase T).set f.enc
        (T.sp f + cb) := by
    have hsame := sp_foldl_erase (f.children (T.sp f)) T f
    rw [if_neg hself] at hsame
    simp only [tryAssimilateChildren, getSplit_enc, h.fragSplit_enc hf, hcb, if_neg hf, hsame]
  have hsp : ∀ k, k ≠ f → (T.tryAssimilateChildren f.enc).sp k =
      if k ∈ f.children (T.sp f) then 0 else T.sp k := by
    intro k hk
    rw [hT', sp_set, update_of_ne hk, sp_foldl_erase]
  have hne : ∀ m, m.bits = f.bits + T.sp f → m ≠ f := by
    rintro m hm rfl
    omega
  refine ⟨?_, ?_⟩
  · constructor
    · exact pos_of_ne_zero hf
    · exact pos_of_ne_zero (hall c hc).2
    · rw [hT', sp_set, update_self]
    · rfl
    · intro m hfm hm
      rw [hsp m (hne m hm), if_pos ((hmem m).2 ⟨hm, hfm⟩)]
    · intro m hfm hm
      exact (hall m ((hmem m).2 ⟨hm, hfm⟩)).1
    · intro k hk hnot
      rw [hsp k hk, if_neg fun hin => hnot ⟨((hmem k).1 hin).2, ((hmem k).1 hin).1⟩]
  · rw [hT']
    refine (Bounded.foldl_erase _ h).set fun _ => ?_
    have hcle := h.le (by rw [(hall c hc).1]; exact (hall c hc).2 : T.sp c ≠ 0)
    have hbits := ((hmem c).1 hc).1
    have hcsp := (hall c hc).1
    omega

/-- `try_assimilate_children` keeps a tree well-formed and its leaves the same. -/
theorem Wf.tryAssimilateChildren (h : T.Wf) (f : Frag) :
    (T.tryAssimilateChildren f.enc).Wf ∧
      ∀ l, (T.tryAssimilateChildren f.enc).Leaf l ↔
        T.Leaf l := by
  have unchanged : T.tryAssimilateChildren f.enc = T →
      (T.tryAssimilateChildren f.enc).Wf ∧
        ∀ l, (T.tryAssimilateChildren f.enc).Leaf l ↔
          T.Leaf l := by
    intro heq
    rw [heq]
    exact ⟨h, fun _ => Iff.rfl⟩
  obtain hz | hpos := eq_zero_or_pos (T.sp f)
  · refine unchanged ?_
    exact if_pos hz
  · cases hcb : T.commonSplit (fragSplit f.enc (T.sp f)) 0 with
    | none =>
      refine unchanged ?_
      simp only [FragTree.tryAssimilateChildren, getSplit_enc, if_neg hpos.ne', hcb]
    | some =>
      obtain ⟨hcut, hbounded⟩ := assimilate_cut h.bounded hpos.ne' hcb
      have hroot := hcut.rooted_coarse h.rooted
      exact ⟨⟨hbounded, hroot⟩, fun l => (hcut.leaf_iff hroot).symm⟩

theorem Wf.simplifyAbove (h : T.Wf) (x : Frag) (simplify : Bool) :
    ∃ T', T.simplifyAbove x.enc simplify = some T' ∧ T'.Wf ∧
      ∀ l, T'.Leaf l ↔ T.Leaf l := by
  cases simplify with
  | false => exact ⟨T, rfl, h, fun _ => Iff.rfl⟩
  | true =>
    obtain ⟨q, hq⟩ := T.getBranchAbove_some x
    obtain ⟨hwf, hleaf⟩ := h.tryAssimilateChildren q
    refine ⟨_, ?_, hwf, hleaf⟩
    rw [FragTree.simplifyAbove, if_pos rfl, hq, map_some]

/-! ## Splitting and merging -/

theorem Wf.split (h : T.Wf) (hx : T.Leaf x) (hb : x.bits + b ≤ 24) (simplify : Bool) :
    ∃ T', T.split x.enc b simplify = some T' ∧ T'.Wf ∧
      ∀ l, T'.Leaf l ↔
        levels.Leaf (Function.update T.sp x b) root l := by
  obtain ⟨_, hr, hiff⟩ := h.isLeaf_spec x
  have hset : (T.set x.enc b).Wf := by
    refine ⟨h.bounded.set fun _ => hb, ?_⟩
    rw [sp_set]
    exact h.rooted.split hx b
  obtain ⟨T', hT', hwf, hleaf⟩ := hset.simplifyAbove x simplify
  refine ⟨T', ?_, hwf, fun l => by rw [hleaf, FragTree.Leaf, sp_set]⟩
  rw [FragTree.split, hr, bind_some, if_pos (hiff.2 hx), hT']

theorem Wf.merge (h : T.Wf) (hx : T.sp x = b) (hb : b ≠ 0)
    (hkids : ∀ c, levels.Child T.sp x c → T.sp c = 0) (simplify : Bool) :
    ∃ T', T.merge x.enc b simplify = some T' ∧ T'.Wf := by
  have hne : T.sp x ≠ 0 := hx ▸ hb
  have herase : (T.erase x.enc).Wf := by
    refine ⟨h.bounded.erase, ?_⟩
    rw [sp_erase]
    refine h.rooted.clear (x := x) ?_ ?_
    · intro k hk
      obtain heq | hfirst := hk.cases_head
      · rw [heq, update_self]
      · obtain ⟨c, hc, hrest⟩ := hfirst
        have hz := hkids c hc
        rw [Reach.eq_of_unsplit hrest hz, update_of_ne, hz]
        rintro rfl
        exact absurd hc.level_lt (lt_irrefl _)
    · intro k hk
      refine update_of_ne ?_ _ _
      rintro rfl
      exact hk .refl
  obtain ⟨T', hT', hwf, _⟩ := herase.simplifyAbove x simplify
  refine ⟨T', ?_, hwf⟩
  rw [FragTree.merge, h.bounded.isLeaf_false hne, bind_some, if_pos ⟨rfl, hx⟩, hT']

/-! ## Merging everything below a fragment -/

/-- Erasing a split entry, as `merge` without simplification does. -/
theorem Bounded.merge_false (h : T.Bounded) (hx : T.sp x ≠ 0) :
    T.merge x.enc (T.sp x) false = some (T.erase x.enc) := by
  rw [FragTree.merge, h.isLeaf_false hx, bind_some, if_pos ⟨rfl, rfl⟩]
  rfl

/-- What the loop of `force_to_leaf` keeps: the entries reached from `x` are
erased, those below the stack still to come. -/
structure Hoovering (T : FragTree) (x : Frag) (T' : FragTree) (stack : List Frag) :
    Prop where
  frontier : Frontier levels stack
  below : ∀ s ∈ stack, levels.Reach T.sp x s
  bounded : T'.Bounded
  pending : ∀ s ∈ stack, ∀ k, levels.Reach T.sp s k → T'.sp k = T.sp k
  elsewhere : ∀ k, ¬ levels.Reach T.sp x k → T'.sp k = T.sp k
  erased : ∀ k, levels.Reach T.sp x k → (∀ s ∈ stack, ¬ levels.Reach T.sp s k) → T'.sp k = 0

namespace Hoovering

variable {T' : FragTree} {t : Frag} {stack : List Frag}

theorem init (h : T.Bounded) (x : Frag) : Hoovering T x T [x] where
  frontier := pairwise_singleton _ _
  below := by
    intro _ hs
    rw [mem_singleton.1 hs]
  bounded := h
  pending := fun _ _ _ _ => rfl
  elsewhere := fun _ _ => rfl
  erased := fun k hk hnone => absurd hk (hnone x (mem_singleton_self x))

theorem top (h : Hoovering T x T' (t :: stack)) : T'.sp t = T.sp t :=
  h.pending t mem_cons_self t .refl

theorem skip (h : Hoovering T x T' (t :: stack)) (ht : T.sp t = 0) : Hoovering T x T' stack where
  frontier := (pairwise_cons.1 h.frontier).2
  below := fun s hs => h.below s (mem_cons_of_mem _ hs)
  bounded := h.bounded
  pending := fun s hs => h.pending s (mem_cons_of_mem _ hs)
  elsewhere := h.elsewhere
  erased := by
    intro k hk hnone
    obtain htk | htk := em (levels.Reach T.sp t k)
    · rw [Reach.eq_of_unsplit htk ht, h.top, ht]
    · refine h.erased k hk fun s hs => ?_
      obtain heq | hs := mem_cons.1 hs
      · exact heq ▸ htk
      · exact hnone s hs

theorem push (hT : T.Bounded) (h : Hoovering T x T' (t :: stack)) (ht : T.sp t ≠ 0) :
    Hoovering T x (T'.erase t.enc) ((t.children (T.sp t)).reverse ++ stack) := by
  obtain ⟨hapart, _⟩ := pairwise_cons.1 h.frontier
  have hkid : ∀ c ∈ t.children (T.sp t), levels.Child T.sp t c :=
    fun c hc => (hT.kids.mem_iff ht).1 hc
  have hxt := h.below t mem_cons_self
  have other : ∀ k, k ≠ t → (T'.erase t.enc).sp k = T'.sp k := by
    intro k hk
    rw [sp_erase, update_of_ne hk]
  refine ⟨h.frontier.push hT.kids ht, ?_, h.bounded.erase, ?_, ?_, ?_⟩
  · intro s hs
    obtain hs | hs := mem_append.1 hs
    · exact hxt.tail (hkid s (mem_reverse.1 hs))
    · exact h.below s (mem_cons_of_mem _ hs)
  · intro s hs k hk
    obtain hs | hrest := mem_append.1 hs
    · have hc := hkid s (mem_reverse.1 hs)
      rw [other, h.pending t mem_cons_self k (.head hc hk)]
      rintro rfl
      exact absurd (Reach.above hk).1 (not_le.2 hc.level_lt)
    · rw [other, h.pending s (mem_cons_of_mem _ hrest) k hk]
      rintro rfl
      exact hapart s hrest k (above_refl k) (Reach.above hk)
  · intro k hk
    rw [other, h.elsewhere k hk]
    rintro rfl
    exact hk hxt
  · intro k hk hnone
    obtain heq | hne := eq_or_ne k t
    · rw [heq, sp_erase, update_self]
    · rw [other k hne]
      refine h.erased k hk fun s hs hsk => ?_
      cases mem_cons.1 hs with
      | inr hs => exact hnone s (mem_append_right _ hs) hsk
      | inl heq =>
        subst heq
        obtain heq | hc := (hT.kids.reach_iff ht).1 hsk
        · exact hne heq
        · obtain ⟨c, hc, hck⟩ := hc
          exact hnone c (mem_append_left _ (mem_reverse.2 hc)) hck

end Hoovering

/-- What a walk may visit below a word. -/
def wordWeight (w : Nat) : Nat := 2 * 2 ^ (24 - cephFragBits w) - 1

theorem wordWeight_enc (f : Frag) : wordWeight f.enc = f.weight := by
  rw [wordWeight, bits_enc, weight]

theorem wordWeight_pos (w : Nat) : 0 < wordWeight w := by
  have h : 0 < 2 ^ (24 - cephFragBits w) := Nat.two_pow_pos _
  rw [wordWeight]
  omega

/-- One pop of the loop. -/
theorem hooverStep_spec (hT : T.Bounded) {T' : FragTree} {t : Frag} {stack : List Frag}
    (h : Hoovering T x T' (t :: stack)) :
    (T.sp t = 0 ∧ hooverStep (some T') t.enc = (some T', some [])) ∨
      (T.sp t ≠ 0 ∧ hooverStep (some T') t.enc =
        (some (T'.erase t.enc), some ((t.children (T.sp t)).map enc))) := by
  have htop := h.top
  obtain hz | hpos := eq_zero_or_pos (T.sp t)
  · refine .inl ⟨hz, ?_⟩
    simp [hooverStep, getSplit_enc, htop, hz]
  · refine .inr ⟨hpos.ne', ?_⟩
    have hmerge := h.bounded.merge_false (htop ▸ hpos.ne')
    rw [htop] at hmerge
    simp [hooverStep, getSplit_enc, htop, hpos.ne', hmerge, hT.fragSplit_enc hpos.ne']

/-- The loop ends with exactly the entries reached from `x` erased. -/
theorem hoover_spec (hT : T.Bounded) (x : Frag) :
    ∃ T', T.hoover x.enc = some T' ∧ Hoovering T x T' [] := by
  have hloop : ∃ st, stackLoop hooverStep walkFuel (some T) [x.enc] = some st ∧
      ∃ T', st = some T' ∧ Hoovering T x T' [] := by
    refine stackLoop_spec (fun st words => ∃ T' stack, st = some T' ∧
        words = stack.map enc ∧ Hoovering T x T' stack)
      wordWeight_pos ?_ ?_ walkFuel (some T) [x.enc] ⟨T, [x], rfl, rfl, .init hT x⟩ ?_
    · rintro st ⟨T', stack, rfl, hnil, h⟩
      obtain rfl := map_eq_nil_iff.1 hnil.symm
      exact ⟨T', rfl, h⟩
    · rintro st _ words ⟨T', stack, rfl, hcons, h⟩
      obtain ⟨_, rest, rfl, rfl, rfl⟩ := map_eq_cons_iff.1 hcons.symm
      refine .inr ?_
      obtain ⟨hz, heq⟩ | ⟨hne, heq⟩ := hooverStep_spec hT h
      · exact ⟨_, _, heq, ⟨T', rest, rfl, rfl, h.skip hz⟩, wordWeight_pos _⟩
      · refine ⟨_, _, heq, ⟨_, _, rfl, ?_, h.push hT hne⟩, ?_⟩
        · rw [map_append, map_reverse]
        · have hweight : wordWeight ∘ enc = weight := funext wordWeight_enc
          rw [List.map_map, hweight, wordWeight_enc]
          exact hT.kids.lighter hne
    · simpa [wordWeight_enc] using weight_le_walkFuel x
  obtain ⟨st, hst, T', rfl, h⟩ := hloop
  refine ⟨T', ?_, h⟩
  rw [hoover, hst]
  rfl

/-- After the loop the fragment is a leaf of a well-formed tree, and so are the
leaves outside of it. -/
theorem Wf.hoover (h : T.Wf) (hx : levels.Reach T.sp root x) :
    ∃ T', T.hoover x.enc = some T' ∧ T'.Wf ∧ T'.Leaf x ∧
      ∀ l, T.Leaf l → ¬ levels.Above x l → T'.Leaf l := by
  obtain ⟨T', hT', hs⟩ := hoover_spec h.bounded x
  have hin : ∀ k, levels.Reach T.sp x k → T'.sp k = 0 := fun k hk => hs.erased k hk nofun
  refine ⟨T', hT', ⟨hs.bounded, h.rooted.clear hin hs.elsewhere⟩, ⟨?_, hin x .refl⟩, ?_⟩
  · refine Reach.of_agree hx fun t ht hne => hs.elsewhere t fun hxt => hne ?_
    exact (Reach.above ht).antisymm (Reach.above hxt)
  · intro l hl hout
    have hsame : ∀ t, levels.Reach T.sp t l → T'.sp t = T.sp t := fun t ht =>
      hs.elsewhere t fun hxt => hout (Reach.above (hxt.trans ht))
    exact ⟨Reach.of_agree hl.1 fun t ht _ => hsame t ht, (hsame l .refl).trans hl.2⟩

/-! ## An intermediary split -/

/-- A child of a split with nothing split in between is a leaf, orphans or not. -/
theorem Bounded.isLeaf_child (h : T.Bounded) {t : Frag} (hc : levels.Child T.sp t x)
    (hx : T.sp x = 0) (hbetween : ∀ k, t.bits < k → k < x.bits → T.sp (x.anc k) = 0) :
    T.isLeaf x.enc = some true := by
  have hself : x.anc x.bits = x := levels.anc_self x
  have hbits : x.bits = t.bits + T.sp t := hc.2.1
  have hbranch : levels.Branch T.sp root x t := by
    refine ⟨hc.2.2, .inl hc.1, fun k hk hkx => ?_⟩
    obtain hlt | hge := lt_or_ge k x.bits
    · exact hbetween k hk hlt
    · obtain rfl : k = x.bits := le_antisymm hkx hge
      rw [levels_anc, hself, hx]
  refine h.isLeaf_true hbranch ?_ hx
  rw [startOf, if_pos ⟨pos_of_ne_zero hc.1, hbits.ge⟩, ← hbits, hself]

/-- A split entry of a well-formed tree is a leaf once it is erased, although
the entries below it are orphans then. -/
theorem Wf.isLeaf_erase (h : T.Wf) (hx : T.sp x ≠ 0) :
    (T.erase x.enc).isLeaf x.enc = some true := by
  have hz : (T.erase x.enc).sp x = 0 := by rw [sp_erase, update_self]
  have hne : ∀ k, k ≠ x → (T.erase x.enc).sp k = T.sp k := by
    intro k hk
    rw [sp_erase, update_of_ne hk]
  obtain heq | ⟨t, _, hc⟩ := (h.rooted x hx).cases_tail
  · subst heq
    refine h.bounded.erase.isLeaf_true
      ⟨above_refl _, .inr rfl, fun k hk hkx => absurd hk (not_lt.2 hkx)⟩ ?_ hz
    rw [startOf, if_neg]
    exact fun hc => absurd hc.1 (lt_irrefl 0)
  · have ht : (T.erase x.enc).sp t = T.sp t := hne t fun heq => by
      subst heq
      exact absurd hc.level_lt (lt_irrefl _)
    refine h.bounded.erase.isLeaf_child ⟨by rw [ht]; exact hc.1, ?_, hc.2.2⟩ hz ?_
    · rw [ht]; exact hc.2.1
    · intro k hk hkx
      have hanc : (x.anc k).bits = k := bits_anc hkx.le
      rw [hne]
      · exact h.rooted.unsplit_anc hc.1 hc.2.2 hk hkx.le (hkx.trans_eq hc.2.1)
      · intro heq
        rw [heq] at hanc
        omega

/-- The table while the children of `p` are being split: those in `fs` still are
to be. -/
structure Cutting (T : FragTree) (p : Frag) (spread : Nat) (T' : FragTree)
    (fs : List Frag) : Prop where
  bounded : T'.Bounded
  at_top : T'.sp p = spread
  waiting : ∀ m ∈ fs, T'.sp m = 0
  cut : ∀ m ∈ p.children spread, m ∉ fs → T'.sp m = T.sp p - spread
  other : ∀ k, k ≠ p → k ∉ p.children spread → T'.sp k = T.sp k

/-- The loop over the intermediary fragments splits each of them. -/
theorem Wf.foldlM_split (h : T.Wf) {spread : Nat} (hpos : 0 < spread) (hlt : spread < T.sp p) :
    ∀ {fs : List Frag} {T' : FragTree}, fs.Nodup → (∀ m ∈ fs, m ∈ p.children spread) →
      Cutting T p spread T' fs →
      ∃ T'', (fs.map enc).foldlM
          (fun (U : FragTree) f => U.split f (T.sp p - spread) false) T' = some T'' ∧
        Cutting T p spread T'' [] := by
  have hp : T.sp p ≠ 0 := by omega
  have hle := h.bounded.le hp
  have hmem := fun m => mem_children (c := m) (by omega : p.bits + spread ≤ 24)
  intro fs
  induction fs with
  | nil => intro T' _ _ hc; exact ⟨T', rfl, hc⟩
  | cons m _ ih =>
    intro T' hnodup hsub hc
    obtain ⟨hmfs, hnodup⟩ := nodup_cons.1 hnodup
    have hm := hsub m mem_cons_self
    obtain ⟨hbits, habove⟩ := (hmem m).1 hm
    have hchild : levels.Child T'.sp p m := by
      refine ⟨?_, ?_, habove⟩
      · rw [hc.at_top]; exact hpos.ne'
      · rw [hc.at_top]; exact hbits
    -- nothing strictly between `p` and its child is split, before or now
    have hleaf : T'.isLeaf m.enc = some true := by
      refine hc.bounded.isLeaf_child hchild (hc.waiting m mem_cons_self) ?_
      intro k hk hkm
      have hanc : (m.anc k).bits = k := bits_anc hkm.le
      rw [hc.other]
      · exact h.rooted.unsplit_anc hp habove hk hkm.le (by omega : k < p.bits + T.sp p)
      · intro heq
        rw [heq] at hanc
        omega
      · intro hin
        have hb := ((hmem _).1 hin).1
        omega
    have hmp : m ≠ p := by
      rintro rfl
      omega
    have hsplit : T'.split m.enc (T.sp p - spread) false =
        some (T'.set m.enc (T.sp p - spread)) := by
      rw [FragTree.split, hleaf, bind_some]
      rfl
    rw [map_cons, foldlM_cons, hsplit]
    refine ih hnodup (fun k hk => hsub k (mem_cons_of_mem _ hk)) ?_
    refine ⟨hc.bounded.set fun _ => by omega, ?_, ?_, ?_, ?_⟩
    · rw [sp_set, update_of_ne hmp.symm, hc.at_top]
    · intro k hk
      rw [sp_set, update_of_ne, hc.waiting k (mem_cons_of_mem _ hk)]
      rintro rfl
      exact hmfs hk
    · intro k hk hnot
      rw [sp_set]
      obtain heq | hne := eq_or_ne k m
      · rw [heq, update_self]
      · rw [update_of_ne hne]
        refine hc.cut k hk fun hin => ?_
        exact hnot ((mem_cons.1 hin).resolve_left hne)
    · intro k hkp hk
      rw [sp_set, update_of_ne, hc.other k hkp hk]
      rintro rfl
      exact hk hm

/-- The intermediary split cuts the split of the parent in two. -/
theorem Wf.splitBetween (h : T.Wf) {spread : Nat} (hpos : 0 < spread) (hlt : spread < T.sp p) :
    ∃ T', T.splitBetween p.enc spread (T.sp p) = some T' ∧ T'.Wf ∧
      CutSplit levels T.sp T'.sp p spread (T.sp p - spread) := by
  have hp : T.sp p ≠ 0 := by omega
  have hle := h.bounded.le hp
  have hspread : p.bits + spread ≤ 24 := by omega
  have hmem := fun m => mem_children (c := m) hspread
  have hinside : ∀ m ∈ p.children spread, T.sp m = 0 := by
    intro m hm
    obtain ⟨hbits, habove⟩ := (hmem m).1 hm
    refine h.rooted.unsplit_inside hp habove ?_ ?_
    · rw [levels_level, levels_level]; omega
    · rw [levels_level, levels_level]; omega
  have hne : ∀ m ∈ p.children spread, m ≠ p := by
    rintro m hm rfl
    have hbits := ((hmem m).1 hm).1
    omega
  have hsp : ∀ k, k ≠ p → ((T.erase p.enc).set p.enc spread).sp k = T.sp k := by
    intro k hk
    rw [sp_set, update_of_ne hk, sp_erase, update_of_ne hk]
  have hstart : Cutting T p spread ((T.erase p.enc).set p.enc spread) (p.children spread) := by
    refine ⟨h.bounded.erase.set fun _ => hspread, ?_, ?_, ?_, ?_⟩
    · rw [sp_set, update_self]
    · intro m hm
      rw [hsp m (hne m hm), hinside m hm]
    · intro m hm hnot
      exact absurd hm hnot
    · intro k hk _
      exact hsp k hk
  obtain ⟨T', hT', hcut⟩ := h.foldlM_split hpos hlt (nodup_children p spread)
    (fun _ hm => hm) hstart
  have hcs : CutSplit levels T.sp T'.sp p spread (T.sp p - spread) := by
    refine ⟨hpos, by omega, by omega, hcut.at_top, ?_, ?_, ?_⟩
    · intro m habove hbits
      exact hinside m ((hmem m).2 ⟨hbits, habove⟩)
    · intro m habove hbits
      exact hcut.cut m ((hmem m).2 ⟨hbits, habove⟩) not_mem_nil
    · intro k hk hnot
      refine hcut.other k hk fun hin => hnot ?_
      exact ⟨((hmem k).1 hin).2, ((hmem k).1 hin).1⟩
  refine ⟨T', ?_, ⟨hcut.bounded, hcs.rooted_fine h.rooted⟩, hcs⟩
  have hmid : (T.erase p.enc).split p.enc spread false =
      some ((T.erase p.enc).set p.enc spread) := by
    rw [FragTree.split, h.isLeaf_erase hp, bind_some]
    rfl
  rw [FragTree.splitBetween, h.bounded.merge_false hp, bind_some, hmid,
    bind_some, p.fragSplit_enc hspread, hT']

/-! ## `force_to_leaf` -/

theorem Wf.assertLeaf (h : T.Wf) (hx : T.Leaf x) : T.assertLeaf x.enc = some (T, true) := by
  obtain ⟨_, hr, hiff⟩ := h.isLeaf_spec x
  rw [FragTree.assertLeaf, hr, hiff.2 hx, if_pos rfl]

/-- Splitting the leaf above `x` by the difference makes `x` and the fragments of
its size beside it leaves; the other leaves stay. -/
theorem Wf.split_to (h : T.Wf) (hp : T.Leaf p) (hpx : levels.Above p x) (hlt : p.bits < x.bits)
    (simplify : Bool) :
    ∃ T', T.split p.enc (x.bits - p.bits) simplify = some T' ∧ T'.Wf ∧
      (∀ c, levels.Above p c → c.bits = x.bits → T'.Leaf c) ∧
      ∀ l, T.Leaf l → l ≠ p → T'.Leaf l := by
  have hxle := x.bits_le
  obtain ⟨T', hT', hwf, hleaf⟩ := h.split hp (by omega : p.bits + (x.bits - p.bits) ≤ 24) simplify
  refine ⟨T', hT', hwf, fun c hpc hc => (hleaf c).2 ⟨?_, ?_⟩, fun l hl hne => (hleaf l).2 ?_⟩
  · refine (Reach.split hp.1 hp.2 _).tail ⟨?_, ?_, hpc⟩
    · rw [update_self]; omega
    · rw [update_self, levels_level, levels_level]; omega
  · have hne : c ≠ p := by
      rintro rfl
      omega
    rw [update_of_ne hne]
    exact h.rooted.unsplit_below hp hpc hne
  · exact ⟨Reach.split hl.1 hp.2 _, (update_of_ne hne _ _).trans hl.2⟩

/-- What `force_to_leaf` leaves of the leaves: those outside of `x` and not above
it stay, and one above it is split to the size of `x`. -/
structure Forced (T : FragTree) (x : Frag) (T' : FragTree) : Prop where
  wf : T'.Wf
  leaf : T'.Leaf x
  kept : ∀ l, T.Leaf l → ¬ levels.Above x l → ¬ levels.Above l x → T'.Leaf l
  filled : ∀ p c, T.Leaf p → levels.Above p x → levels.Above p c → c.bits = x.bits → T'.Leaf c

/-- A leaf above a node is the node, and so is every fragment of its size below. -/
theorem filled_of_reach {T' : FragTree} (hx : levels.Reach T.sp root x)
    (hleaf : T'.Leaf x) {c : Frag} (hp : T.Leaf p) (hpx : levels.Above p x)
    (hpc : levels.Above p c) (hc : c.bits = x.bits) : T'.Leaf c := by
  obtain rfl := hp.eq_of_reach hx hpx
  rwa [← hpc.eq_of_level (above_refl c) hc.symm]

/-- The assertions of `force_to_leaf` hold, and it returns whether `x` was no leaf. -/
theorem Wf.forceToLeaf (h : T.Wf) (x : Frag) :
    ∃ T' r, T.forceToLeaf x.enc = some (T', r) ∧ T.Forced x T' ∧ (r = false ↔ T.Leaf x) := by
  obtain ⟨leaf, hleaf, hiff⟩ := h.isLeaf_spec x
  rw [FragTree.forceToLeaf, hleaf, bind_some]
  cases leaf with
  | true =>
    have hx := hiff.1 rfl
    exact ⟨T, false, rfl, ⟨h, hx, fun l hl _ _ => hl, fun p c => filled_of_reach hx.1 hx⟩,
      iff_of_true rfl hx⟩
  | false =>
    have hnot : ¬ T.Leaf x := fun hx => absurd (hiff.2 hx) false_ne_true
    have hret : true = false ↔ T.Leaf x := iff_of_false false_ne_true.symm hnot
    obtain ⟨q, hq, hstart⟩ := getBranchOrLeaf_spec T x
    obtain ⟨habove, hcases⟩ := h.startOf_cases hq
    generalize T.startOf x q = p at hstart habove hcases
    have hle : p.bits ≤ x.bits := habove.1
    rw [if_neg Bool.false_ne_true, hstart, bind_some]
    simp only [bits_enc, getSplit_enc]
    obtain hlt | hge := lt_or_ge p.bits x.bits
    · obtain hp | hp := hcases
      · obtain ⟨T', hT', hwf, hfill, hkeep⟩ := h.split_to hp habove hlt true
        have hx := hfill x habove rfl
        refine ⟨T', true, ?_, ⟨hwf, hx, ?_, ?_⟩, hret⟩
        · rw [if_pos hlt, if_pos hp.2, hT', bind_some, hwf.assertLeaf hx]
        · intro l hl _ hlx
          exact hkeep l hl fun heq => hlx (heq ▸ habove)
        · intro _ c hp' hpx
          rw [hp'.unique hp hpx habove]
          exact hfill c
      · obtain ⟨T₁, hT₁, hwf₁, hcut⟩ := h.splitBetween (by omega)
          (by have := hp.2.2; omega : x.bits - p.bits < T.sp p)
        have hreach : levels.Reach T₁.sp root x := hwf₁.rooted x (by
          rw [hcut.fine_mid x habove (by rw [levels_level, levels_level]; omega)]
          omega)
        have hsame : ∀ l, T.Leaf l → T₁.Leaf l := fun l => (hcut.leaf_iff h.rooted).2
        obtain ⟨T₂, hT₂, hwf₂, hx, hkeep⟩ := hwf₁.hoover hreach
        refine ⟨T₂, true, ?_, ⟨hwf₂, hx, fun l hl hout _ => hkeep l (hsame l hl) hout,
          fun p c hp => filled_of_reach hreach hx (hsame p hp)⟩, hret⟩
        rw [if_pos hlt, if_neg hp.2.1, if_pos (by omega), hT₁, bind_some, hT₂,
          bind_some, hwf₂.assertLeaf hx]
    · -- the search stopped at `x` itself, which is split
      have heq : p = x := habove.eq_of_level (above_refl x) (le_antisymm hle hge)
      subst heq
      have hreach := (hcases.resolve_left hnot).1
      obtain ⟨T', hT', hwf, hx, hkeep⟩ := h.hoover hreach
      refine ⟨T', true, ?_, ⟨hwf, hx, fun l hl hout _ => hkeep l hl hout,
        fun p c => filled_of_reach hreach hx⟩, hret⟩
      rw [if_neg (lt_irrefl _), if_pos rfl, hT', bind_some, hwf.assertLeaf hx]

end FragTree

end Ceph.Include
