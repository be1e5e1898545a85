import Ceph.Osd.PGLog

set_option autoImplicit false

/-!
# What a log says about its objects

The purpose of the log and the missing set, object by object.  A history is the
list of all entries ever logged.  It gives each object its newest entry, and
with it the version a complete shard stores.  What a shard has is recorded in
its missing set: an object without an item is stored at its newest version, an
item names the newest version and, if it can, the version that is stored.
-/

namespace Ceph.Osd

open List

variable {O : Type} [LinearOrder O]

/-! ## Histories -/

/-- The entry changes the object `o`. -/
def about (o : O) (e : LogEntry O) : Bool := decide (e.soid = o) && !e.isError

/-- The entries of a history that change the object. -/
def updates (h : Entries O) (o : O) : Entries O := h.filter (about o)

/-- The newest entry of a history that changes the object. -/
def newest (h : Entries O) (o : O) : Option (LogEntry O) := (updates h o).getLast?

/-- The version at which an object is stored after its newest entry. -/
def versionOf : Option (LogEntry O) → Option EVersion
  | none => none
  | some e => if e.isDelete then none else some e.version

@[simp] theorem updates_append (h h' : Entries O) (o : O) :
    updates (h ++ h') o = updates h o ++ updates h' o := filter_append ..

theorem newest_append (h h' : Entries O) (o : O) :
    newest (h ++ h') o = (newest h' o).or (newest h o) := by
  rw [newest, updates_append, getLast?_append]
  rfl

variable {e : LogEntry O} {o : O} {h : Entries O}

theorem updates_cons_of_not_about (h : Entries O) (he : about o e = false) :
    updates (e :: h) o = updates h o := filter_cons_of_neg (by simp [he])

theorem updates_cons_of_about (h : Entries O) (he : about o e = true) :
    updates (e :: h) o = e :: updates h o := filter_cons_of_pos he

theorem newest_concat_of_not_about (h : Entries O) (he : about o e = false) :
    newest (h ++ [e]) o = newest h o := by
  rw [newest_append, newest, updates_cons_of_not_about [] he]
  rfl

theorem newest_concat_of_about (h : Entries O) (he : about o e = true) :
    newest (h ++ [e]) o = some e := by
  rw [newest_append, newest, updates_cons_of_about [] he]
  rfl

theorem mem_updates : e ∈ updates h o ↔ e ∈ h ∧ e.soid = o ∧ e.isError = false := by
  simp [updates, about]

theorem mem_of_newest (he : newest h o = some e) : e ∈ h ∧ e.soid = o ∧ e.isError = false :=
  mem_updates.1 (mem_of_getLast? he)

theorem newest_eq_none_iff : newest h o = none ↔ updates h o = [] := getLast?_eq_none_iff

/-- The entry fits an object whose newest entry is `cur`: a clone is the first
entry of its object, any other entry names the version it replaces. -/
def LinkedTo (cur : Option (LogEntry O)) (e : LogEntry O) : Prop :=
  if e.isClone then cur = none else e.priorVersion = (versionOf cur).getD 0

instance (cur : Option (LogEntry O)) (e : LogEntry O) : Decidable (LinkedTo cur e) :=
  inferInstanceAs (Decidable (if e.isClone then cur = none
    else e.priorVersion = (versionOf cur).getD 0))

/-- The prior versions of `h` are correct when it continues `past`. -/
def Linked : Entries O → Entries O → Prop
  | _, [] => True
  | past, e :: es =>
    (e.isError = false → LinkedTo (newest past e.soid) e) ∧ Linked (past ++ [e]) es

instance Linked.decidable : ∀ past h : Entries O, Decidable (Linked past h)
  | _, [] => .isTrue trivial
  | past, e :: es =>
    @instDecidableAnd _ _ inferInstance (Linked.decidable (past ++ [e]) es)

theorem linked_append {h' : Entries O} {past : Entries O} :
    Linked past (h ++ h') ↔ Linked past h ∧ Linked (past ++ h) h' := by
  induction h generalizing past with
  | nil => simp [Linked]
  | cons _ _ ih => simp only [cons_append, Linked, ih, append_assoc, nil_append, and_assoc]

theorem Linked.right {h' : Entries O} (hl : Linked [] (h ++ h')) : Linked h h' :=
  (linked_append.1 hl).2

/-- The versions of a history increase. -/
abbrev Rising (h : Entries O) : Prop := h.Pairwise fun e f => e.version.Precedes f.version

/-! ## The history of one object -/

/-- The entries continue the history of an object whose newest entry is `cur`. -/
def Chained : Option (LogEntry O) → Entries O → Prop
  | _, [] => True
  | cur, e :: es =>
    LinkedTo cur e ∧ (∀ f, cur = some f → f.version < e.version) ∧ Chained (some e) es

/-- The entries of one object form a chain. -/
theorem Linked.chained (o : O) {past : Entries O} (hlinked : Linked past h)
    (hrising : Rising (past ++ h)) : Chained (newest past o) (updates h o) := by
  induction h generalizing past with
  | nil => exact trivial
  | cons e h ih =>
    have hrest := ih hlinked.2 (by simpa using hrising)
    cases habout : about o e with
    | false =>
      rw [updates_cons_of_not_about h habout]
      rwa [newest_concat_of_not_about past habout] at hrest
    | true =>
      have hmem : e.soid = o ∧ e.isError = false := by simpa [about] using habout
      rw [newest_concat_of_about past habout] at hrest
      rw [updates_cons_of_about h habout]
      refine ⟨hmem.1 ▸ hlinked.1 hmem.2, ?_, hrest⟩
      intro f hf
      have hf' := (mem_of_newest hf).1
      exact ((pairwise_append.1 hrising).2.2 f hf' e mem_cons_self).lt

omit [LinearOrder O] in
/-- Everything that continues an object's history is newer than it. -/
theorem Chained.lt {es : Entries O} {cur : Option (LogEntry O)} (h : Chained cur es)
    (f : LogEntry O) (hf : cur = some f) : ∀ e ∈ es, f.version < e.version := by
  induction es generalizing cur f with
  | nil => simp
  | cons e _ ih =>
    intro e' he'
    obtain ⟨-, hlt, hrest⟩ := h
    obtain heq | hmem := mem_cons.1 he'
    · exact heq ▸ hlt f hf
    · exact (hlt f hf).trans (ih hrest e rfl e' hmem)

omit [LinearOrder O] in
/-- An entry that does not create its object replaces a stored version. -/
theorem LinkedTo.replaces {cur : Option (LogEntry O)} (h : LinkedTo cur e)
    (hcreate : e.isCreate = false) : versionOf cur = some e.priorVersion := by
  simp only [LogEntry.isCreate, Bool.or_eq_false_iff, beq_eq_false_iff_ne] at hcreate
  rw [LinkedTo, if_neg (by simp [hcreate.2])] at h
  cases hcur : versionOf cur with
  | none => exact absurd (by rw [h, hcur]; rfl) hcreate.1
  | some => rw [h, hcur, Option.getD_some]

omit [LinearOrder O] in
/-- An entry that creates its object finds nothing stored. -/
theorem LinkedTo.creates {cur : Option (LogEntry O)} (h : LinkedTo cur e)
    (hpos : ∀ f, cur = some f → f.version ≠ 0) (hcreate : e.isCreate = true) :
    versionOf cur = none := by
  cases hclone : e.isClone with
  | true =>
    rw [LinkedTo, if_pos hclone] at h
    rw [h]
    rfl
  | false =>
    rw [LinkedTo, if_neg (by simp [hclone])] at h
    simp only [LogEntry.isCreate, hclone, Bool.or_false, beq_iff_eq] at hcreate
    cases cur with
    | none => rfl
    | some f =>
      rw [versionOf] at h ⊢
      split at h
      · rw [if_pos (by assumption)]
      · exact absurd (by rw [← hcreate, h]; rfl) (hpos f rfl)

/-! ## The store and the missing set -/

/-- The version at which each object is stored. -/
abbrev Store (O : Type) := O → Option EVersion

/-- The version that rolling an entry back restores. -/
def restored (e : LogEntry O) : Option EVersion :=
  if e.isCreate then none else some e.priorVersion

/-- What a call of the handler does to the stored versions.  Rolling forward and
trimming only drop what is kept for a rollback; stashing moves the object away. -/
def Call.apply (store : Store O) : Call O → Store O
  | .rollback e => Function.update store e.soid (restored e)
  | .rollforward _ => store
  | .trim _ => store
  | .remove hoid => Function.update store hoid none
  | .tryStash hoid _ => Function.update store hoid none

def runCalls (store : Store O) (calls : List (Call O)) : Store O := calls.foldl Call.apply store

@[simp] theorem runCalls_nil (store : Store O) : runCalls store [] = store := rfl

@[simp] theorem runCalls_append (store : Store O) (calls calls' : List (Call O)) :
    runCalls store (calls ++ calls') = runCalls (runCalls store calls) calls' := foldl_append

/-- The item of an object, or its absence, is right for an object with newest
entry `cur` that is stored at `stored`.  Deletes have items only if the missing
set tracks them. -/
def ItemAccurate (track : Bool) (cur : Option (LogEntry O)) (stored : Option EVersion) :
    Option MissingItem → Prop
  | none => stored = versionOf cur
  | some item =>
    ∃ e, cur = some e ∧ item.need = e.version ∧ item.isDelete = e.isDelete ∧
      (e.isDelete = true → track = true) ∧ (item.have_ = 0 ∨ stored = some item.have_)

/-- The missing set is accurate for a shard with the given store: for every object
up to `lastBackfill`, whose newest entry `cur` gives. -/
def Accurate (lastBackfill : O) (cur : O → Option (LogEntry O)) (store : Store O)
    (m : MissingSet O) : Prop :=
  ∀ o ≤ lastBackfill, ItemAccurate m.mayIncludeDeletes (cur o) (store o) m.missing[o]?

/-! ## One object through a merge

The functions that update the missing set for a list of entries treat each
object by itself.  This file says what happens to one object: to its item and to
its stored version when entries are appended to the log
(`append_log_entries_update_missing`) and when its divergent entries are dropped
(`_merge_object_divergent_entries`), and that the item stays right. -/

open MissingSet

variable {O : Type}

/-! ## Appending an entry -/

/-- The item of an object after an entry for it is appended. -/
def appendedItem (track : Bool) (item : Option MissingItem) (e : LogEntry O) : Option MissingItem :=
  if track || !e.isDelete then some (MissingSet.nextItem e item)
  else item.filter fun i => decide (e.version < i.need)

/-- The stored version after an entry for the object is appended. -/
def appendedStored (track : Bool) (stored : Option EVersion) (e : LogEntry O) : Option EVersion :=
  if !track && e.isDelete then none else stored

/-- The missing set follows the entry `e` of an object, whatever is stored. -/
def ItemFollows (track : Bool) (e : LogEntry O) (stored : Option EVersion)
    (item : Option MissingItem) : Prop :=
  if track || !e.isDelete then
    ∃ i, item = some i ∧ i.need = e.version ∧ i.isDelete = e.isDelete
  else item = none ∧ stored = none

/-- Nothing newer than `v` is needed. -/
def NeedsUpTo (v : EVersion) (item : Option MissingItem) : Prop := ∀ i, item = some i → i.need ≤ v

@[simp] theorem nextItem_need (e : LogEntry O) (item : Option MissingItem) :
    (nextItem e item).need = e.version := by
  unfold nextItem
  split
  · rfl
  · split <;> rfl

@[simp] theorem nextItem_isDelete (e : LogEntry O) (item : Option MissingItem) :
    (nextItem e item).isDelete = e.isDelete := by
  unfold nextItem
  split
  · rfl
  · split <;> rfl

variable {e : LogEntry O} {item : Option MissingItem} {track : Bool} {stored : Option EVersion}

theorem appendedItem_eq_none (hup : NeedsUpTo e.version item) (h : (track || !e.isDelete) = false) :
    appendedItem track item e = none := by
  rw [appendedItem, if_neg (by simp [h]), Option.filter_eq_none_iff]
  intro i hi
  simpa using hup i hi

theorem itemFollows_append (stored : Option EVersion) (hup : NeedsUpTo e.version item) :
    ItemFollows track e (appendedStored track stored e) (appendedItem track item e) := by
  unfold ItemFollows
  cases h : track || !e.isDelete with
  | true =>
    rw [appendedItem, if_pos h]
    exact ⟨_, rfl, nextItem_need e item, nextItem_isDelete e item⟩
  | false =>
    have hdel : (!track && e.isDelete) = true := by
      cases track <;> cases hd : e.isDelete <;> simp_all
    rw [appendedStored, if_pos hdel]
    exact ⟨appendedItem_eq_none hup h, rfl⟩

theorem ItemFollows.needsUpTo (h : ItemFollows track e stored item) : NeedsUpTo e.version item := by
  intro _ hi
  unfold ItemFollows at h
  split at h
  · obtain ⟨_, hj, hneed, -⟩ := h
    rw [hi, Option.some.injEq] at hj
    rw [hj, hneed]
  · rw [h.1] at hi
    cases hi

/-- After a non-empty list of entries the missing set follows the last of them. -/
theorem itemFollows_foldl {es : Entries O} {e : LogEntry O} {item : Option MissingItem}
    {stored : Option EVersion} (hchain : Chained (some e) es)
    (h : ItemFollows track e stored item) :
    ItemFollows track (es.getLastD e) (es.foldl (appendedStored track) stored)
      (es.foldl (appendedItem track) item) := by
  induction es generalizing e item stored with
  | nil => exact h
  | cons e' es ih =>
    obtain ⟨-, hlt, hchain⟩ := hchain
    have hup : NeedsUpTo e'.version item := fun i hi =>
      (h.needsUpTo i hi).trans (hlt e rfl).le
    have hlast : (e' :: es).getLastD e = es.getLastD e' := getLastD_cons ..
    rw [hlast]
    exact ih hchain (itemFollows_append stored hup)

/-- Appending the next entry of an object keeps its item right. -/
theorem itemAccurate_append {cur : Option (LogEntry O)} (h : ItemAccurate track cur stored item)
    (hlink : LinkedTo cur e) (hlt : ∀ f, cur = some f → f.version < e.version) :
    ItemAccurate track (some e) (appendedStored track stored e)
      (appendedItem track item e) := by
  cases hk : track || !e.isDelete with
  | false =>
    have hup : NeedsUpTo e.version item := by
      intro _ hi
      subst hi
      obtain ⟨f, hf, hneed, -⟩ := h
      exact hneed ▸ (hlt f hf).le
    have hdel : track = false ∧ e.isDelete = true := by
      cases track <;> cases hd : e.isDelete <;> simp_all
    rw [appendedItem_eq_none hup hk]
    simp [ItemAccurate, appendedStored, versionOf, hdel]
  | true =>
    have hstored : appendedStored track stored e = stored := by
      cases track <;> cases hd : e.isDelete <;> simp_all [appendedStored]
    rw [hstored, appendedItem, if_pos hk]
    refine ⟨e, rfl, nextItem_need e item, nextItem_isDelete e item, ?_, ?_⟩
    · intro hd
      simpa [hd] using hk
    · cases hcreate : e.isCreate with
      | true => exact .inl (by simp [nextItem, hcreate])
      | false =>
        cases item with
        | none =>
          have hcur : stored = versionOf cur := h
          refine .inr ?_
          simp [nextItem, hcreate, hcur, hlink.replaces hcreate]
        | some =>
          obtain ⟨-, -, -, -, -, hhave⟩ := h
          simpa [nextItem, hcreate] using hhave

theorem getLast?_cons_or (e : LogEntry O) (es : Entries O) (cur : Option (LogEntry O)) :
    (e :: es).getLast?.or cur = es.getLast?.or (some e) := by
  rw [getLast?_cons]
  cases es.getLast? <;> rfl

theorem itemAccurate_foldl {es : Entries O} {cur : Option (LogEntry O)} {item : Option MissingItem}
    {stored : Option EVersion} (hchain : Chained cur es) (h : ItemAccurate track cur stored item) :
    ItemAccurate track (es.getLast?.or cur) (es.foldl (appendedStored track) stored)
      (es.foldl (appendedItem track) item) := by
  induction es generalizing cur item stored with
  | nil => exact h
  | cons _ _ ih =>
    obtain ⟨hlink, hlt, hchain⟩ := hchain
    rw [getLast?_cons_or]
    exact ih hchain (itemAccurate_append h hlink hlt)

/-! ## Dropping divergent entries -/

/-- Every entry can be rolled back. -/
def canRollbackAll (crt : EVersion) (entries : Entries O) : Prop :=
  ∀ e ∈ entries, e.canRollback = true ∧ crt < e.version

instance (crt : EVersion) (entries : Entries O) :
    Decidable (canRollbackAll crt entries) :=
  inferInstanceAs (Decidable (∀ e ∈ entries, e.canRollback = true ∧ crt < e.version))

/-- The item of an object after its divergent entries `first :: rest` are
dropped; `newer` says that the log has a more recent entry. -/
def mergedItem (newer : Bool) (first : LogEntry O) (rest : Entries O) (crt : EVersion)
    (item : Option MissingItem) : Option MissingItem :=
  if newer then item.map fun i => { i with have_ := 0 }
  else if first.isCreate then none
  else
    match item with
    | some i =>
      if i.have_ = first.priorVersion then none else some ⟨first.priorVersion, i.have_, false⟩
    | none =>
      if canRollbackAll crt (first :: rest) then none else some ⟨first.priorVersion, 0, false⟩

/-- The stored version after the divergent entries are dropped. -/
def mergedStored (newer : Bool) (first : LogEntry O) (rest : Entries O) (crt : EVersion)
    (item : Option MissingItem) (stored : Option EVersion) : Option EVersion :=
  let dropped := if item.isNone && (rest.getLastD first).isDelete then stored else none
  if newer || first.isCreate then dropped
  else if item.isSome then stored
  else if canRollbackAll crt (first :: rest) then some first.priorVersion
  else dropped

/-- A more recent entry, which the missing set follows, makes the item right. -/
theorem itemAccurate_merged_newer {first : LogEntry O} {rest : Entries O} {crt : EVersion}
    (h : ItemFollows track e stored item) :
    ItemAccurate track (some e) (mergedStored true first rest crt item stored)
      (mergedItem true first rest crt item) := by
  unfold ItemFollows at h
  split at h
  next hk =>
    obtain ⟨_, rfl, hneed, hdel⟩ := h
    refine ⟨e, rfl, hneed, hdel, ?_, .inl rfl⟩
    intro hd
    simpa [hd] using hk
  next hk =>
    obtain ⟨rfl, rfl⟩ := h
    have hd : e.isDelete = true := by
      cases hd : e.isDelete <;> simp_all
    simp [ItemAccurate, mergedItem, mergedStored, versionOf, hd]

/-- Without a more recent entry the object falls back to what it was before the
first divergent entry. -/
theorem itemAccurate_merged {cur : Option (LogEntry O)} {first : LogEntry O} {rest : Entries O}
    {crt : EVersion} (h : ItemAccurate track (some (rest.getLastD first)) stored item)
    (hlink : LinkedTo cur first) (hpos : ∀ f, cur = some f → f.version ≠ 0) :
    ItemAccurate track cur (mergedStored false first rest crt item stored)
      (mergedItem false first rest crt item) := by
  cases hcreate : first.isCreate with
  | true =>
    have hnone := hlink.creates hpos hcreate
    cases item with
    | none =>
      have hstored : stored = versionOf (some (rest.getLastD first)) := h
      have hitem : mergedItem false first rest crt none = none := by
        simp [mergedItem, hcreate]
      rw [hitem]
      show mergedStored _ _ _ _ _ _ = versionOf cur
      rw [hnone, hstored, versionOf]
      cases hd : (rest.getLastD first).isDelete <;>
        simp [mergedStored, hcreate, hd, -getLastD_eq_getLast?]
    | some => simp [ItemAccurate, mergedItem, mergedStored, hcreate, hnone]
  | false =>
    have hcur := hlink.replaces hcreate
    -- the object existed before the divergent entries, at `prior_version`
    obtain ⟨f, rfl, hfdel, hfv⟩ : ∃ f, cur = some f ∧ f.isDelete = false ∧
        f.version = first.priorVersion := by
      cases cur with
      | none => cases hcur
      | some f =>
        rw [versionOf] at hcur
        split at hcur
        · cases hcur
        next hd => exact ⟨f, rfl, by simpa using hd, Option.some.inj hcur⟩
    have hneeds : ∀ v, (v = 0 ∨ mergedStored false first rest crt item stored = some v) →
        ItemAccurate track (some f) (mergedStored false first rest crt item stored)
          (some ⟨first.priorVersion, v, false⟩) := fun v hv =>
      ⟨f, rfl, hfv.symm, hfdel.symm, by simp [hfdel], hv⟩
    cases item with
    | some i =>
      obtain ⟨-, -, -, -, -, hhave⟩ := h
      have hsame : mergedStored false first rest crt (some i) stored = stored := by
        simp [mergedStored, hcreate]
      have hitem : mergedItem false first rest crt (some i) =
          if i.have_ = first.priorVersion then none
          else some ⟨first.priorVersion, i.have_, false⟩ := by
        simp [mergedItem, hcreate]
      rw [hitem]
      split
      next heq =>
        rw [hsame]
        show stored = _
        rw [hcur]
        obtain hzero | hs := hhave
        · simp [LogEntry.isCreate, ← heq, hzero] at hcreate
        · rw [hs, heq]
      · exact hneeds _ (by rwa [hsame])
    | none =>
      have hitem : mergedItem false first rest crt none =
          if canRollbackAll crt (first :: rest) then none
          else some ⟨first.priorVersion, 0, false⟩ := by
        simp [mergedItem, hcreate]
      rw [hitem]
      split
      next hall =>
        show mergedStored _ _ _ _ _ _ = _
        rw [hcur]
        simp [mergedStored, hcreate, hall]
      · exact hneeds _ (.inl rfl)

end Ceph.Osd
