import Ceph.Osd.History
import Ceph.Lib.Local

set_option autoImplicit false

/-!
# The missing set through a merge

`append_log_entries_update_missing` and `_merge_divergent_entries` work through
lists of entries of many objects.  Here they are taken apart: what they do to the
item and the stored version of one object is what its own entries do to it.
-/

namespace Ceph.Osd

open Ceph.Lib List Option Std.ExtTreeMap MissingSet Function Bool

variable {O : Type} [LinearOrder O]

/-! ## Appending -/

variable {o : O} {entries : Entries O}

section Append

variable (lastBackfill : O) (maintainRollback : Bool)

@[simp] theorem appendMissingEntry_track (m : MissingSet O) (e : LogEntry O) :
    (appendMissingEntry lastBackfill maintainRollback m e).1.mayIncludeDeletes =
      m.mayIncludeDeletes := by
  unfold appendMissingEntry
  split
  · split
    · rfl
    · split <;> simp
  · rfl

variable {e : LogEntry O}

/-- The entry counts for the object. -/
theorem relevant_iff :
    e.soid ≤ lastBackfill ∧ ¬ e.isError ↔ e.soid ≤ lastBackfill ∧ about e.soid e = true := by
  simp [about]

theorem appendMissingEntry_other {m : MissingSet O} (h : ¬ (o ≤ lastBackfill ∧ about o e = true)) :
    (appendMissingEntry lastBackfill maintainRollback m e).1.missing[o]? = m.missing[o]? ∧
      ∀ store, runCalls store (appendMissingEntry lastBackfill maintainRollback m e).2 o =
        store o := by
  unfold appendMissingEntry
  split
  next he =>
    have ho : e.soid ≠ o := by
      rintro rfl
      exact h ((relevant_iff lastBackfill).1 he)
    split
    · exact ⟨by simp [ho], fun _ => rfl⟩
    · refine ⟨by split <;> simp [ho, rmUpTo_missing], fun store => ?_⟩
      dsimp only
      split
      · simp [runCalls, Call.apply, update_of_ne (Ne.symm ho)]
      · split
        · simp [runCalls, Call.apply, update_of_ne (Ne.symm ho)]
        · rfl
  · exact ⟨rfl, fun _ => rfl⟩

theorem rmUpTo_missing_self (m : MissingSet O) (oid : O) (v : EVersion) :
    (m.rmUpTo oid v).missing[oid]? = m.missing[oid]?.filter fun i => decide (v < i.need) := by
  rw [rmUpTo_missing, isMissingAt]
  cases h : m.missing[oid]? with
  | none => simp
  | some i =>
    obtain hle | hlt := le_or_gt i.need v
    · simp [Option.filter, hle, not_lt.2 hle]
    · simp [Option.filter, hlt, not_le.2 hlt]

theorem appendMissingEntry_self {m : MissingSet O} (h : o ≤ lastBackfill ∧ about o e = true) :
    (appendMissingEntry lastBackfill maintainRollback m e).1.missing[o]? =
        appendedItem m.mayIncludeDeletes m.missing[o]? e ∧
      ∀ store, runCalls store (appendMissingEntry lastBackfill maintainRollback m e).2 o =
        appendedStored m.mayIncludeDeletes (store o) e := by
  have ho : e.soid = o := by
    have := h.2
    simp only [about, and_eq_true, decide_eq_true_eq] at this
    exact this.1
  subst ho
  -- an entry whose object is stashed is a delete
  have hlost : e.isLostDelete = true → e.isDelete = true := by
    simp only [LogEntry.isLostDelete, LogEntry.isDelete, or_eq_true]
    exact .inr
  unfold appendMissingEntry
  rw [if_pos ((relevant_iff lastBackfill).2 h)]
  cases htrack : m.mayIncludeDeletes with
  | true => exact ⟨by simp [appendedItem], fun _ => by simp [appendedStored]⟩
  | false =>
    simp only [false_eq_true, if_false]
    constructor
    · cases hd : e.isDelete with
      | false => simp [appendedItem, hd]
      | true => simp [appendedItem, hd, rmUpTo_missing_self]
    · split
      next hstash =>
        simp only [and_eq_true] at hstash
        simp [runCalls, Call.apply, appendedStored, hlost hstash.1.2]
      · split
        next hd => simp [runCalls, Call.apply, appendedStored, hd]
        next hd => simp [runCalls, appendedStored, hd]

theorem appendMissing_cons (m : MissingSet O) (e : LogEntry O) (es : Entries O) :
    appendMissing lastBackfill maintainRollback (e :: es) m =
      ((appendMissing lastBackfill maintainRollback es
          (appendMissingEntry lastBackfill maintainRollback m e).1).1,
        (appendMissingEntry lastBackfill maintainRollback m e).2 ++
          (appendMissing lastBackfill maintainRollback es
            (appendMissingEntry lastBackfill maintainRollback m e).1).2) := rfl

@[simp] theorem appendMissing_track (es : Entries O) (m : MissingSet O) :
    (appendMissing lastBackfill maintainRollback es m).1.mayIncludeDeletes =
      m.mayIncludeDeletes := by
  induction es generalizing m with
  | nil => rfl
  | cons _ _ ih => rw [appendMissing_cons, ih, appendMissingEntry_track]

theorem appendMissing_object (ho : o ≤ lastBackfill) (es : Entries O) (m : MissingSet O) :
    (appendMissing lastBackfill maintainRollback es m).1.missing[o]? =
        (updates es o).foldl (appendedItem m.mayIncludeDeletes) m.missing[o]? ∧
      ∀ store, runCalls store (appendMissing lastBackfill maintainRollback es m).2 o =
        (updates es o).foldl (appendedStored m.mayIncludeDeletes) (store o) := by
  induction es generalizing m with
  | nil => exact ⟨rfl, fun _ => rfl⟩
  | cons e es ih =>
    obtain ⟨hitem, hstore⟩ := ih (appendMissingEntry lastBackfill maintainRollback m e).1
    simp only [appendMissing_cons, runCalls_append, hitem, hstore, appendMissingEntry_track]
    cases habout : about o e with
    | true =>
      obtain ⟨hitem₁, hstore₁⟩ := appendMissingEntry_self lastBackfill maintainRollback ⟨ho, habout⟩
      rw [updates_cons_of_about es habout]
      exact ⟨by rw [hitem₁]; rfl, fun store => by rw [hstore₁]; rfl⟩
    | false =>
      obtain ⟨hitem₁, hstore₁⟩ := appendMissingEntry_other lastBackfill maintainRollback
        (e := e) (o := o) (by simp [habout])
      rw [updates_cons_of_not_about es habout]
      exact ⟨by rw [hitem₁], fun store => by rw [hstore₁]⟩

theorem appendMissing_missing_of_lt (ho : lastBackfill < o) (es : Entries O) (m : MissingSet O) :
    (appendMissing lastBackfill maintainRollback es m).1.missing[o]? = m.missing[o]? := by
  induction es generalizing m with
  | nil => rfl
  | cons _ _ ih =>
    rw [appendMissing_cons, ih,
      (appendMissingEntry_other lastBackfill maintainRollback (by simp [not_le.2 ho])).1]

end Append

/-! ## Stripping the error entries -/

/-- The assertions of the loop hold for a well linked history, and the loop keeps
the entries that change the object. -/
theorem stripErrors_eq {es past : Entries O} {begin_ seen : Bool} {last : EVersion}
    (hlinked : Linked past es) (hrising : Rising (past ++ es)) (hpos : ∀ e ∈ es, 0 < e.version)
    (hseen : seen = false ∧ last = 0 ∨
      seen = true ∧ ∃ f, newest past o = some f ∧ f.version = last) :
    stripErrors o begin_ seen last (es.filter fun e => decide (e.soid = o)) =
      some (updates es o) := by
  induction es generalizing past begin_ seen last with
  | nil => rfl
  | cons e es ih =>
    have hrising' : Rising (past ++ [e] ++ es) := by simpa using hrising
    have hpos' : ∀ e' ∈ es, 0 < e'.version := fun e' he' => hpos e' (mem_cons_of_mem _ he')
    by_cases ho : e.soid = o
    · have hlast : last < e.version := by
        obtain h | h := hseen
        · exact h.2 ▸ hpos e mem_cons_self
        · obtain ⟨-, f, hf, rfl⟩ := h
          exact ((pairwise_append.1 hrising).2.2 f (mem_of_newest hf).1 e mem_cons_self).lt
      rw [filter_cons_of_pos (by simp [ho]), stripErrors]
      cases herr : e.isError with
      | true =>
        have habout : about o e = false := by simp [about, herr]
        rw [if_pos (by simp [ho, hlast]), updates_cons_of_not_about es habout]
        refine ih hlinked.2 hrising' hpos' ?_
        rwa [newest_concat_of_not_about past habout]
      | false =>
        have habout : about o e = true := by simp [about, ho, herr]
        have hlink := hlinked.1 herr
        have hprior : e.priorVersion = 0 ∨ seen = false ∨ e.priorVersion = last := by
          obtain h | h := hseen
          · exact .inr (.inl h.1)
          · obtain ⟨-, f, hf, rfl⟩ := h
            rw [ho, hf, LinkedTo] at hlink
            split at hlink
            · cases hlink
            · rw [hlink, versionOf]
              split
              · exact .inl rfl
              · exact .inr (.inr rfl)
        have hassert : e.soid = o ∧ (begin_ = true ∨ e.priorVersion = 0 ∨ (!seen && !false) = true ∨
            last < e.version ∧ (e.priorVersion = last ∨ false = true)) := by
          refine ⟨ho, ?_⟩
          obtain h | h := hprior
          · exact .inr (.inl h)
          · obtain h | h := h
            · exact .inr (.inr (.inl (by simp [h])))
            · exact .inr (.inr (.inr ⟨hlast, .inl h⟩))
        rw [if_pos hassert, updates_cons_of_about es habout, ih hlinked.2 hrising' hpos'
            (.inr ⟨rfl, e, newest_concat_of_about past habout, rfl⟩)]
        rfl
    · have habout : about o e = false := by simp [about, ho]
      rw [filter_cons_of_neg (by simp [ho]), updates_cons_of_not_about es habout]
      refine ih hlinked.2 hrising' hpos' ?_
      rwa [newest_concat_of_not_about past habout]

/-! ## The calls for one object -/

theorem runCalls_trim (store : Store O) (entries : Entries O) :
    runCalls store (entries.map .trim) = store := foldl_map.trans (foldl_fixed entries)

theorem runCalls_discard (store : Store O) (hoid : O) (objectNotInStore : Bool)
    (entries : Entries O) :
    runCalls store (discard hoid objectNotInStore entries) =
      if objectNotInStore then store else update store hoid none := by
  rw [discard, runCalls_append, runCalls_trim]
  cases objectNotInStore <;> rfl

/-- Rolling back the entries of one object touches nothing else. -/
theorem runCalls_rollback_of_ne {hoid : O} (ho : o ≠ hoid) (hsoid : ∀ e ∈ entries, e.soid = hoid)
    (store : Store O) : runCalls store (entries.map .rollback) o = store o := by
  induction entries generalizing store with
  | nil => rfl
  | cons e _ ih =>
    have he : o ≠ e.soid := by
      rw [hsoid e mem_cons_self]
      exact ho
    refine (ih (fun e' he' => hsoid e' (mem_cons_of_mem _ he')) _).trans ?_
    exact update_of_ne he ..

/-! ## The divergent entries of one object -/

section MergeObject

variable {log : IndexedLog O} {hoid : O} {first : LogEntry O} {rest : Entries O}
  {crt : EVersion} {m m' : MissingSet O} {calls : List (Call O)}

variable {n : LogEntry O} {r : MissingSet O × List (Call O)}

theorem missingFollows_of_itemFollows {stored : Option EVersion} (herr : n.isError = false)
    (h : ItemFollows m.mayIncludeDeletes n stored m.missing[hoid]?) :
    missingFollows m hoid n = true := by
  have hupdate : (n.isUpdate || (m.mayIncludeDeletes && n.isDelete)) =
      (m.mayIncludeDeletes || !n.isDelete) := by
    rw [n.isUpdate_eq, herr]
    cases m.mayIncludeDeletes <;> cases n.isDelete <;> rfl
  unfold missingFollows
  rw [hupdate]
  unfold ItemFollows at h
  split at h
  next hk =>
    obtain ⟨_, hi, hneed, -⟩ := h
    rw [if_pos hk, hi, map_some, hneed]
    exact beq_self_eq_true _
  next hk =>
    rw [if_neg hk, isMissing, h.1]
    rfl

theorem mergeStripped_isSome (h : ∀ n, moreRecent log hoid first = some n →
      (rest.getLastD first).version < n.version ∧ missingFollows m hoid n = true) :
    ∃ r, mergeStripped log hoid first rest crt m = some r := by
  unfold mergeStripped
  dsimp only
  split
  next n hn =>
    rw [if_pos (h n hn)]
    exact ⟨_, rfl⟩
  · split
    · exact ⟨_, rfl⟩
    · split
      · exact ⟨_, rfl⟩
      · split
        · exact ⟨_, rfl⟩
        · exact ⟨_, rfl⟩

section

variable (hsoid : ∀ e ∈ first :: rest, e.soid = hoid)
  (h : mergeStripped log hoid first rest crt m = some (m', calls))

include hsoid h

/-- The five cases, read off at the object itself. -/
theorem mergeStripped_self :
    m'.missing[hoid]? =
        mergedItem (moreRecent log hoid first).isSome first rest crt m.missing[hoid]? ∧
      ∀ store, runCalls store calls hoid =
        mergedStored (moreRecent log hoid first).isSome first rest crt m.missing[hoid]?
          (store hoid) := by
  have hdiscard : ∀ store : Store O,
      runCalls store (discard hoid (!m.isMissing hoid && (rest.getLastD first).isDelete)
        (first :: rest)) hoid =
      if m.missing[hoid]?.isNone && (rest.getLastD first).isDelete then store hoid else none := by
    intro store
    rw [runCalls_discard, isMissing, not_isSome]
    split
    · rfl
    · exact update_self ..
  unfold mergeStripped at h
  dsimp only at h
  split at h
  next _ hn =>
    split at h
    · cases h
      rw [hn]
      exact ⟨by simp [mergedItem], fun store => by rw [hdiscard]; simp [mergedStored]⟩
    · cases h
  next hn =>
    rw [hn]
    split at h
    next hcreate =>
      cases h
      refine ⟨?_, fun store => by rw [hdiscard]; simp [mergedStored, hcreate]⟩
      simp only [mergedItem, hcreate, isSome_none, false_eq_true, if_false, if_true]
      split
      · simp
      next hmiss => simpa [isMissing] using hmiss
    next hcreate =>
      split at h
      next _ hitem =>
        cases h
        rw [hitem]
        refine ⟨?_, fun store => by rw [runCalls_trim]; simp [mergedStored, hcreate]⟩
        simp only [mergedItem, hcreate, isSome_none, false_eq_true, if_false]
        split
        · simp
        · simp [hitem]
      next hitem =>
        split at h
        next hall =>
          have hall' : canRollbackAll crt (first :: rest) := hall
          cases h
          rw [hitem]
          refine ⟨by simp [mergedItem, hcreate, hall'], fun store => ?_⟩
          rw [← hsoid first mem_cons_self, reverse_cons, map_append, runCalls_append]
          refine (update_self ..).trans ?_
          simp [restored, mergedStored, hcreate, hall']
        next hall =>
          have hall' : ¬ canRollbackAll crt (first :: rest) := hall
          cases h
          refine ⟨by simp [mergedItem, hcreate, hall', hitem], fun store => ?_⟩
          rw [hdiscard, hitem]
          simp [mergedStored, hcreate, hall']

/-- Nothing else is touched. -/
theorem mergeStripped_other :
    m'.mayIncludeDeletes = m.mayIncludeDeletes ∧
      ∀ o, o ≠ hoid → m'.missing[o]? = m.missing[o]? ∧
        ∀ store, runCalls store calls o = store o := by
  have hdiscard : ∀ o, o ≠ hoid → ∀ (b : Bool) (store : Store O),
      runCalls store (discard hoid b (first :: rest)) o = store o := by
    intro o ho b store
    rw [runCalls_discard]
    split
    · rfl
    · exact update_of_ne ho ..
  unfold mergeStripped at h
  dsimp only at h
  split at h
  · split at h
    · cases h
      exact ⟨by simp, fun o ho => ⟨by simp [Ne.symm ho], hdiscard o ho _⟩⟩
    · cases h
  · split at h
    · cases h
      exact ⟨by split <;> simp,
        fun o ho => ⟨by split <;> simp [Ne.symm ho], hdiscard o ho _⟩⟩
    · split at h
      · cases h
        exact ⟨by split <;> simp,
          fun o ho => ⟨by split <;> simp [Ne.symm ho], fun store => by rw [runCalls_trim]⟩⟩
      · split at h
        · cases h
          refine ⟨rfl, fun o ho => ⟨rfl, fun store => ?_⟩⟩
          exact runCalls_rollback_of_ne ho (fun e he => hsoid e (mem_reverse.1 he)) store
        · cases h
          exact ⟨by simp, fun o ho => ⟨by simp [Ne.symm ho], hdiscard o ho _⟩⟩

end

/-- The loop asserts that all entries are on the object. -/
theorem soid_of_stripErrors {stripped : Entries O} {begin_ seen : Bool} {last : EVersion}
    (h : stripErrors hoid begin_ seen last entries = some stripped) :
    ∀ e ∈ stripped, e.soid = hoid := by
  induction entries generalizing stripped begin_ seen last with
  | nil =>
    simp only [stripErrors, some.injEq] at h
    subst h
    simp
  | cons _ _ ih =>
    rw [stripErrors] at h
    split at h
    next hassert =>
      split at h
      · exact ih h
      · rw [map_eq_some_iff] at h
        obtain ⟨_, htail, rfl⟩ := h
        intro e' he'
        obtain heq | hmem := mem_cons.1 he'
        · exact heq ▸ hassert.1
        · exact ih htail e' hmem
    · cases h

/-- What `_merge_object_divergent_entries` does on success. -/
theorem mergeObject_cases {info : PgInfo O}
    (h : mergeObjectDivergentEntries log hoid entries info crt m = some r) :
    (r = (m, []) ∧ ∀ m₂ : MissingSet O,
        mergeObjectDivergentEntries log hoid entries info crt m₂ = some (m₂, [])) ∨
      ∃ first rest, (∀ e ∈ first :: rest, e.soid = hoid) ∧
        mergeStripped log hoid first rest crt m = some r ∧ ∀ m₂ : MissingSet O,
          mergeObjectDivergentEntries log hoid entries info crt m₂ =
            mergeStripped log hoid first rest crt m₂ := by
  unfold mergeObjectDivergentEntries at h ⊢
  split at h
  next hlt =>
    simp only [some.injEq] at h
    exact .inl ⟨h.symm, fun m₂ => if_pos hlt⟩
  next hlt =>
    split at h
    · cases h
    next hne =>
      simp only [if_neg hlt, if_neg hne]
      split at h
      · cases h
      · simp only [some.injEq] at h
        exact .inl ⟨h.symm, fun _ => rfl⟩
      next first rest hstrip =>
        exact .inr ⟨first, rest, soid_of_stripErrors hstrip, h, fun _ => rfl⟩

end MergeObject

/-! ## All objects -/

/-- One object of `_merge_divergent_entries`, with its calls run on the store. -/
def mergeOne (log : IndexedLog O) (info : PgInfo O) (crt : EVersion)
    (p : O × Entries O) (s : MissingSet O × Store O) : Option (MissingSet O × Store O) :=
  (mergeObjectDivergentEntries log p.1 p.2 info crt s.1).map fun r => (r.1, runCalls s.2 r.2)

/-- What is seen of a shard at one object. -/
def objectView (s : MissingSet O × Store O) (o : O) : Option MissingItem × Bool × Option EVersion :=
  (s.1.missing[o]?, s.1.mayIncludeDeletes, s.2 o)

theorem mergeOne_isLocal (log : IndexedLog O) (info : PgInfo O) (crt : EVersion) :
    IsLocal Prod.fst objectView (mergeOne log info crt) where
  frame := by
    intro p s s' h o ho
    obtain ⟨r, hr, rfl⟩ := map_eq_some_iff.1 h
    obtain hkeep | hmerge := mergeObject_cases hr
    · rw [hkeep.1]
      rfl
    · obtain ⟨first, rest, hsoid, hr', -⟩ := hmerge
      obtain ⟨htrack, hother⟩ := mergeStripped_other hsoid hr'
      obtain ⟨hitem, hstore⟩ := hother o ho
      simp only [objectView, htrack, hitem, hstore]
  congr := by
    intro p s t s' hview h
    obtain ⟨r, hr, rfl⟩ := map_eq_some_iff.1 h
    simp only [objectView, Prod.mk.injEq] at hview
    obtain ⟨hitem, htrack, hstore⟩ := hview
    obtain hkeep | hmerge := mergeObject_cases hr
    · obtain ⟨rfl, hall⟩ := hkeep
      refine ⟨(t.1, t.2), by simp [mergeOne, hall], ?_⟩
      simp only [objectView, runCalls_nil, hitem, htrack, hstore]
    · obtain ⟨first, rest, hsoid, hr', hall⟩ := hmerge
      obtain ⟨r₂, hr₂⟩ : ∃ r₂, mergeStripped log p.1 first rest crt t.1 = some r₂ := by
        apply mergeStripped_isSome
        intro _ hn
        rw [mergeStripped, hn] at hr'
        dsimp only at hr'
        split at hr'
        next hassert => rwa [missingFollows, isMissing, hitem, htrack] at hassert
        · cases hr'
      refine ⟨(r₂.1, runCalls t.2 r₂.2), by simp [mergeOne, hall, hr₂], ?_⟩
      obtain ⟨hitem₁, hstore₁⟩ := mergeStripped_self hsoid hr'
      obtain ⟨hitem₂, hstore₂⟩ := mergeStripped_self hsoid hr₂
      have htrack₁ := (mergeStripped_other hsoid hr').1
      have htrack₂ := (mergeStripped_other hsoid hr₂).1
      simp only [objectView, hitem₁, hitem₂, hstore₁, hstore₂, htrack₁, htrack₂, hitem, htrack,
        hstore]

/-- The loop over the objects is a run of local operations. -/
theorem mergeObjects_runAll (log : IndexedLog O) (info : PgInfo O) (crt : EVersion)
    (objects : List (O × Entries O)) (m : MissingSet O) (store : Store O) :
    runAll (mergeOne log info crt) objects (m, store) =
      (mergeObjects log info crt objects m).map fun r => (r.1, runCalls store r.2) := by
  induction objects generalizing m store with
  | nil => rfl
  | cons p objects ih =>
    rw [runAll, mergeOne, mergeObjects]
    cases mergeObjectDivergentEntries log p.1 p.2 info crt m with
    | none => rfl
    | some r =>
      simp only [Option.map_some, Option.bind_some, ih, Option.map_map]
      cases mergeObjects log info crt objects r.1 with
      | none => rfl
      | some => simp

theorem getElem?_splitByObject (entries : Entries O) (o : O) :
    (splitByObject entries)[o]? =
      if (entries.filter fun e => decide (e.soid = o)) = [] then none
      else some (entries.filter fun e => decide (e.soid = o)) := by
  induction entries using List.reverseRecOn with
  | nil => simp [splitByObject]
  | append_singleton entries e ih =>
    have hstep : splitByObject (entries ++ [e]) =
        (splitByObject entries).insert e.soid
          ((splitByObject entries)[e.soid]?.getD [] ++ [e]) := by
      simp [splitByObject]
    rw [hstep, Std.ExtTreeMap.getElem?_insert]
    by_cases ho : e.soid = o
    · subst ho
      simp only [Std.compare_self, if_true, ih]
      split <;> simp_all
    · simpa [ho] using ih

/-- An object of the split map has its own entries. -/
theorem mem_splitByObject {p : O × Entries O} (hp : p ∈ (splitByObject entries).toList) :
    p.2 = (entries.filter fun e => decide (e.soid = p.1)) ∧ p.2 ≠ [] := by
  have hget := mem_toList_iff_getElem?_eq_some.1 hp
  rw [getElem?_splitByObject] at hget
  split at hget
  · cases hget
  next hne =>
    rw [some.injEq] at hget
    exact ⟨hget.symm, hget ▸ hne⟩

theorem nodup_keys_toList {β : Type} (t : Std.ExtTreeMap O β) : (t.toList.map Prod.fst).Nodup := by
  rw [map_fst_toList_eq_keys]
  exact nodup_keys

@[simp] theorem mergeDivergentEntries_nil (log : IndexedLog O) (info : PgInfo O) (crt : EVersion)
    (m : MissingSet O) : mergeDivergentEntries log [] info crt m = some (m, []) := by
  have hempty : (splitByObject ([] : Entries O)).toList = [] := by
    rw [← List.isEmpty_iff, isEmpty_toList]
    exact isEmpty_empty
  rfl

/-- `_merge_divergent_entries` does to each object what its own divergent entries
demand, and nothing to the others. -/
structure MergeSpec (log : IndexedLog O) (entries : Entries O) (lastBackfill : O)
    (crt : EVersion) (m m' : MissingSet O) (calls : List (Call O)) : Prop where
  track : m'.mayIncludeDeletes = m.mayIncludeDeletes
  other : ∀ o, lastBackfill < o ∨ updates entries o = [] →
    m'.missing[o]? = m.missing[o]? ∧ ∀ store, runCalls store calls o = store o
  own : ∀ o ≤ lastBackfill, ∀ first rest, updates entries o = first :: rest →
    m'.missing[o]? =
        mergedItem (moreRecent log o first).isSome first rest crt m.missing[o]? ∧
      ∀ store, runCalls store calls o =
        mergedStored (moreRecent log o first).isSome first rest crt m.missing[o]? (store o)

section MergeDivergent

variable {log : IndexedLog O} {entries : Entries O} {info : PgInfo O} {crt : EVersion}
  {m : MissingSet O}

theorem mergeObjects_track {objects : List (O × Entries O)} {m : MissingSet O}
    {r : MissingSet O × List (Call O)} (h : mergeObjects log info crt objects m = some r) :
    r.1.mayIncludeDeletes = m.mayIncludeDeletes := by
  induction objects generalizing m r with
  | nil =>
    simp only [mergeObjects, some.injEq] at h
    rw [← h]
  | cons _ _ ih =>
    rw [mergeObjects] at h
    split at h
    · cases h
    next _ _ hone =>
      obtain ⟨_, hr', rfl⟩ := map_eq_some_iff.1 h
      refine (ih hr').trans ?_
      obtain hkeep | hmerge := mergeObject_cases hone
      · exact congrArg (fun r => r.1.mayIncludeDeletes) hkeep.1
      · obtain ⟨_, _, hsoid, hr₁, -⟩ := hmerge
        exact (mergeStripped_other hsoid hr₁).1

/-- One object by itself: its entries, up to `last_backfill`. -/
theorem mergeObject_eq
    (hstrip : stripErrors o true false 0 (entries.filter fun e => decide (e.soid = o)) =
      some (updates entries o)) (hne : (entries.filter fun e => decide (e.soid = o)) ≠ []) :
    mergeObjectDivergentEntries log o (entries.filter fun e => decide (e.soid = o)) info crt m =
      if info.lastBackfill < o then some (m, [])
      else
        match updates entries o with
        | [] => some (m, [])
        | first :: rest => mergeStripped log o first rest crt m := by
  unfold mergeObjectDivergentEntries
  rw [hstrip]
  split
  · rfl
  · cases updates entries o <;> rfl

theorem mergeDivergentEntries_spec
    (hstrip : ∀ o, stripErrors o true false 0 (entries.filter fun e => decide (e.soid = o)) =
      some (updates entries o))
    (hnewer : ∀ o ≤ info.lastBackfill, ∀ first rest, updates entries o = first :: rest →
      ∀ n, moreRecent log o first = some n →
      (rest.getLastD first).version < n.version ∧ missingFollows m o n = true) :
    ∃ m' calls, mergeDivergentEntries log entries info crt m = some (m', calls) ∧
      MergeSpec log entries info.lastBackfill crt m m' calls := by
  have hlocal := mergeOne_isLocal log info crt
  have hone : ∀ p ∈ (splitByObject entries).toList, ∃ r,
      mergeObjectDivergentEntries log p.1 p.2 info crt m = some r := by
    intro p hp
    obtain ⟨heq, hne⟩ := mem_splitByObject hp
    rw [heq] at hne ⊢
    rw [mergeObject_eq (hstrip p.1) hne]
    split
    · exact ⟨_, rfl⟩
    next hle =>
      split
      · exact ⟨_, rfl⟩
      next first rest hupd => exact mergeStripped_isSome (hnewer p.1 (not_lt.1 hle) first rest hupd)
  have hnodup := nodup_keys_toList (splitByObject entries)
  have hdef : ∀ store, ∀ p ∈ (splitByObject entries).toList,
      ∃ s', mergeOne log info crt p (m, store) = some s' := by
    intro store p hp
    obtain ⟨r, hr⟩ := hone p hp
    exact ⟨_, by rw [mergeOne, hr]; rfl⟩
  -- the result does not depend on the store
  obtain ⟨r, hr⟩ : ∃ r, mergeDivergentEntries log entries info crt m = some r := by
    obtain ⟨t, ht, -⟩ := hlocal.runAll hnodup (hdef fun _ => none)
    rw [mergeObjects_runAll] at ht
    obtain ⟨r, hr, -⟩ := map_eq_some_iff.1 ht
    exact ⟨r, hr⟩
  have hview : ∀ store,
      (∀ o, o ∉ (splitByObject entries).toList.map Prod.fst →
        objectView (r.1, runCalls store r.2) o = objectView (m, store) o) ∧
      ∀ p ∈ (splitByObject entries).toList, ∀ r',
        mergeObjectDivergentEntries log p.1 p.2 info crt m = some r' →
        objectView (r.1, runCalls store r.2) p.1 =
          objectView (r'.1, runCalls store r'.2) p.1 := by
    intro store
    obtain ⟨t, ht, hframe, hown⟩ := hlocal.runAll hnodup (hdef store)
    rw [mergeObjects_runAll, show mergeObjects _ _ _ _ _ = some r from hr, map_some,
      some.injEq] at ht
    subst ht
    refine ⟨hframe, fun p hp r' hr' => hown p hp _ ?_⟩
    rw [mergeOne, hr']
    rfl
  have hsplit : ∀ o, (entries.filter fun e => decide (e.soid = o)) ≠ [] →
      (o, entries.filter fun e => decide (e.soid = o)) ∈ (splitByObject entries).toList := by
    intro o hne
    rw [mem_toList_iff_getElem?_eq_some, getElem?_splitByObject, if_neg hne]
  refine ⟨r.1, r.2, hr, mergeObjects_track hr, ?_, ?_⟩
  · intro o ho
    have hsame : ∀ store, objectView (r.1, runCalls store r.2) o = objectView (m, store) o := by
      intro store
      by_cases hne : (entries.filter fun e => decide (e.soid = o)) = []
      · apply (hview store).1
        rw [Std.ExtTreeMap.map_fst_toList_eq_keys, Std.ExtTreeMap.mem_keys,
          ← isSome_getElem?_iff_mem, getElem?_splitByObject, if_pos hne]
        exact false_ne_true
      · refine (hview store).2 _ (hsplit o hne) (m, []) ?_
        rw [mergeObject_eq (hstrip o) hne]
        obtain hlt | hnil := ho
        · rw [if_pos hlt]
        · rw [hnil]
          exact ite_self _
    have hitem := congrArg Prod.fst (hsame fun _ => none)
    exact ⟨hitem, fun store => congrArg (fun v => v.2.2) (hsame store)⟩
  · intro o hle first rest hupd
    have hne : (entries.filter fun e => decide (e.soid = o)) ≠ [] := by
      intro hnil
      have hfirst : first ∈ updates entries o := hupd ▸ mem_cons_self
      obtain ⟨hin, hso, -⟩ := mem_updates.1 hfirst
      have : first ∈ entries.filter fun e => decide (e.soid = o) :=
        mem_filter.2 ⟨hin, by simp [hso]⟩
      rw [hnil] at this
      cases this
    obtain ⟨r', hr'⟩ := hone _ (hsplit o hne)
    have hown := fun store => (hview store).2 _ (hsplit o hne) r' hr'
    rw [mergeObject_eq (hstrip o) hne, if_neg (not_lt.2 hle), hupd] at hr'
    have hsoid : ∀ e ∈ first :: rest, e.soid = o := fun e he =>
      (mem_updates.1 (hupd ▸ he)).2.1
    obtain ⟨hitem, hstore⟩ := mergeStripped_self hsoid hr'
    refine ⟨(congrArg Prod.fst (hown fun _ => none)).trans hitem, fun store => ?_⟩
    exact (congrArg (fun v => v.2.2) (hown store)).trans (hstore store)

end MergeDivergent

end Ceph.Osd
