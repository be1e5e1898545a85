import Mathlib.Data.List.Lattice
import Mathlib.Data.List.Nodup
import Ceph.Lib.Cut
import Ceph.Lib.Run
import Ceph.Osd.IndexedLog

set_option autoImplicit false

/-!
# Disposing of rollback information

An entry may carry what is needed to undo it.  `roll_forward_to` and
`trim_rollback_info_to` walk a cursor over the log from the tail to the head and
hand each entry to the handler, which disposes of that information.  The cursor
is a reverse iterator into a list that grows at one end, is trimmed at the other
and is rewound.
-/

namespace Ceph.Osd

open Ceph.Lib List Option IndexedLog

variable {O : Type}

/-! ## The cursor -/

/-- The entry is not newer than `v`. -/
abbrev notAfter (v : EVersion) (e : LogEntry O) : Bool := decide (e.version ≤ v)

/-- The cursor is in place: the entries in front of it are those up to
`rollback_info_trimmed_to`. -/
structure Cursor (l : IndexedLog O) : Prop where
  sorted : l.log.Pairwise fun e f => e.version < f.version ∧ e.version.version ≤ f.version.version
  upto : ∀ e ∈ l.log, e.version.Upto l.head
  trimmedTo : l.rollbackInfoTrimmedTo ≤ l.canRollbackTo
  rollbackTo : l.canRollbackTo ≤ l.head
  riter : l.riter = (l.log.takeWhile (notAfter l.rollbackInfoTrimmedTo)).length

/-- In a sorted log the entries up to a version come first. -/
theorem falls_notAfter {es : Entries O}
    (h : es.Pairwise fun e f => e.version < f.version ∧ e.version.version ≤ f.version.version)
    (v : EVersion) : Falls (notAfter v) es := by
  refine h.imp fun {e f} hlt hf => ?_
  simp only [decide_eq_true_eq] at hf ⊢
  exact hlt.1.le.trans hf

variable {l : IndexedLog O} {e : LogEntry O} {divergent : Entries O}

theorem Cursor.nodup (h : Cursor l) : l.log.Nodup :=
  h.sorted.imp fun hlt => ne_of_apply_ne LogEntry.version hlt.1.ne

/-- The entries in front of the cursor. -/
theorem Cursor.lt_riter_iff (h : Cursor l) {i : Nat}
    (he : l.log[i]? = some e) : i < l.riter ↔ e.version ≤ l.rollbackInfoTrimmedTo := by
  rw [h.riter]
  rw [← takeWhile_append_dropWhile (l := l.log)] at he
  obtain hlt | hge := lt_or_ge i (l.log.takeWhile (notAfter l.rollbackInfoTrimmedTo)).length
  · rw [getElem?_append_left hlt] at he
    have hp := mem_takeWhile_imp (mem_of_getElem? he)
    exact iff_of_true hlt (by simpa using hp)
  · rw [getElem?_append_right hge, dropWhile_eq_filter (falls_notAfter h.sorted _)] at he
    have hp := (mem_filter.1 (mem_of_getElem? he)).2
    exact iff_of_false hge.not_gt (by simpa using hp)

/-- The entries that the cursor passes are newer than those it has passed and older
than those it leaves. -/
theorem Cursor.mem_passed (h : Cursor l) {bound : EVersion} :
    e ∈ l.passed bound ↔ e ∈ l.log ∧ l.rollbackInfoTrimmedTo < e.version ∧ e.version ≤ bound := by
  have hsorted := h.sorted.sublist (drop_sublist l.riter l.log)
  rw [passed, takeWhile_eq_filter (falls_notAfter hsorted bound), mem_filter,
    h.riter, drop_takeWhile_length, dropWhile_eq_filter (falls_notAfter h.sorted _), mem_filter,
    and_assoc]
  simp

theorem Cursor.advance (h : Cursor l) {upTo : EVersion}
    (hto : upTo ≤ l.head) : Cursor (l.advanceCanRollbackTo upTo).1 where
  sorted := h.sorted
  upto := h.upto
  trimmedTo := max_le_max h.trimmedTo le_rfl
  rollbackTo := max_le h.rollbackTo hto
  riter := by
    have hmono : ∀ e : LogEntry O, notAfter l.rollbackInfoTrimmedTo e →
        notAfter (max l.rollbackInfoTrimmedTo upTo) e := by
      intro e he
      simp only [decide_eq_true_eq] at he ⊢
      exact he.trans (le_max_left _ _)
    show l.riter + (l.passed (max l.rollbackInfoTrimmedTo upTo)).length =
      (l.log.takeWhile (notAfter (max l.rollbackInfoTrimmedTo upTo))).length
    rw [takeWhile_eq_append hmono, length_append, ← h.riter]
    rfl

/-- Resetting puts the cursor in place. -/
theorem cursor_resetRiter (hsorted : l.log.Pairwise fun e f =>
      e.version < f.version ∧ e.version.version ≤ f.version.version)
    (hupto : ∀ e ∈ l.log, e.version.Upto l.head)
    (htrimmed : l.rollbackInfoTrimmedTo ≤ l.canRollbackTo)
    (hrollback : l.canRollbackTo ≤ l.head) : Cursor l.resetRiter where
  sorted := hsorted
  upto := hupto
  trimmedTo := htrimmed
  rollbackTo := hrollback
  riter := by
    have hrises : l.log.Pairwise fun e f => decide (l.rollbackInfoTrimmedTo < e.version) →
        decide (l.rollbackInfoTrimmedTo < f.version) :=
      hsorted.imp fun {e f} hlt he => by
        simp only [decide_eq_true_eq] at he ⊢
        exact he.trans hlt.1
    show (l.log.rdropWhile _).length = (l.log.takeWhile (notAfter l.rollbackInfoTrimmedTo)).length
    rw [rdropWhile_eq_filter hrises, takeWhile_eq_filter (falls_notAfter hsorted _)]
    congr 2
    funext e
    simp [← not_le]

variable [LinearOrder O]

/-- What `rewind_from_head` keeps, if no entry with a number up to that of the new
head is newer than it, and what it returns. -/
theorem rewindFromHead_cursor {l' : IndexedLog O} (h : Cursor l) {newhead : EVersion}
    (hnum : ∀ e ∈ l.log, e.version.version ≤ newhead.version → e.version ≤ newhead)
    (hrun : l.rewindFromHead newhead = some (l', divergent)) :
    Cursor l' ∧ l.log = l'.log ++ divergent ∧ (∀ e ∈ l'.log, e.version ≤ newhead) ∧
      l'.rollbackInfoTrimmedTo = min l.rollbackInfoTrimmedTo newhead ∧
      l'.canRollbackTo = min l.canRollbackTo newhead := by
  unfold rewindFromHead PgLog.rewindFromHead at hrun
  dsimp only at hrun
  split at hrun
  next _ _ hrewind =>
    split at hrewind
    · obtain ⟨rfl, rfl⟩ := hrewind
      obtain ⟨rfl, rfl⟩ := hrun
      have hrises : l.log.Pairwise fun e f =>
          decide (newhead.version < e.version.version) →
            decide (newhead.version < f.version.version) :=
        h.sorted.imp fun {e f} hlt he => by
          simp only [decide_eq_true_eq] at he ⊢
          exact he.trans_le hlt.2
      have hkept : ∀ e ∈ l.log.rdropWhile fun e => decide (newhead.version < e.version.version),
          e.version.Upto newhead := by
        intro e he
        rw [rdropWhile_eq_filter hrises, mem_filter] at he
        have hle : e.version.version ≤ newhead.version := by simpa using he.2
        exact EVersion.upto_of_le (hnum e he.1 hle) hle
      refine ⟨cursor_resetRiter ?_ hkept ?_ ?_, ?_, fun e he => (hkept e he).le, rfl, rfl⟩
      · exact h.sorted.sublist <| IsPrefix.sublist <| rdropWhile_prefix _ _
      · exact min_le_min h.trimmedTo le_rfl
      · exact min_le_right _ _
      · exact (rdropWhile_append_rtakeWhile ..).symm
    · cases hrewind
  · cases hrun

/-- What `add` does to the log and to the cursor. -/
theorem add_cursor {l' : IndexedLog O} (h : Cursor l) {applied : Bool}
    (hrun : l.add e applied = some l') :
    Cursor l' ∧ l'.log = l.log ++ [e] ∧ l.rollbackInfoTrimmedTo ≤ l'.rollbackInfoTrimmedTo ∧
      (l.canRollbackTo = l.rollbackInfoTrimmedTo →
        l'.canRollbackTo = l'.rollbackInfoTrimmedTo) := by
  have hriter : (if (if l.riter = l.log.length then l.riter + 1 else l.riter) = l.log.length + 1
      then (if l.riter = l.log.length then l.riter + 1 else l.riter) - 1
      else if l.riter = l.log.length then l.riter + 1 else l.riter) = l.riter := by
    have hle : l.riter ≤ l.log.length := h.riter ▸ (takeWhile_sublist _).length_le
    split <;> split <;> omega
  unfold add at hrun
  dsimp only at hrun
  rw [hriter] at hrun
  split at hrun
  next hassert =>
    obtain ⟨-, hlt, _⟩ := hassert
    rw [some.injEq] at hrun
    have hnew : ∀ f ∈ l.log, f.version < e.version ∧ f.version.version ≤ e.version.version := by
      intro f hf
      have hupto := h.upto f hf
      exact ⟨hupto.le.trans_lt hlt, by have := hupto.2; omega⟩
    have hbase : ∀ l₁ : IndexedLog O, l₁.log = l.log ++ [e] → l₁.head = e.version →
        l₁.riter = l.riter → l₁.canRollbackTo = l.canRollbackTo →
        l₁.rollbackInfoTrimmedTo = l.rollbackInfoTrimmedTo → Cursor l₁ := by
      intro l₁ hlog hhead hriter₁ hcrt hrit
      constructor
      · rw [hlog, pairwise_append]
        refine ⟨h.sorted, pairwise_singleton _ _, fun f hf g hg => ?_⟩
        rw [mem_singleton.1 hg]
        exact hnew f hf
      · intro f hf
        rw [hlog, mem_append, mem_singleton] at hf
        rw [hhead]
        obtain hf | hf := hf
        · exact EVersion.upto_of_le (hnew f hf).1.le (hnew f hf).2
        · exact hf ▸ ⟨le_rfl, le_rfl⟩
      · rw [hrit, hcrt]
        exact h.trimmedTo
      · rw [hcrt, hhead]
        exact h.rollbackTo.trans hlt.le
      · have hnot : notAfter l.rollbackInfoTrimmedTo e = false := by
          simpa using (h.trimmedTo.trans h.rollbackTo).trans_lt hlt
        rw [hriter₁, hlog, hrit, h.riter, takeWhile_append]
        split
        · simp [*]
        · rfl
    cases applied with
    | true =>
      subst hrun
      exact ⟨hbase _ rfl rfl rfl rfl rfl, rfl, le_rfl, fun heq => heq⟩
    | false =>
      subst hrun
      refine ⟨Cursor.advance ?_ le_rfl, rfl, le_max_left _ _, fun heq => ?_⟩
      · exact hbase _ rfl rfl rfl rfl rfl
      show max l.canRollbackTo e.version = max l.rollbackInfoTrimmedTo e.version
      rw [heq]
  · cases hrun

/-! ## Trimming -/

section Same

omit [LinearOrder O]

/-- The logs have the same entries, bounds and cursor. -/
structure SameCursor (l l' : IndexedLog O) : Prop where
  log : l'.log = l.log
  riter : l'.riter = l.riter
  head : l'.head = l.head
  canRollbackTo : l'.canRollbackTo = l.canRollbackTo
  rollbackInfoTrimmedTo : l'.rollbackInfoTrimmedTo = l.rollbackInfoTrimmedTo

theorem Cursor.congr {l' : IndexedLog O} (h : Cursor l) (hsame : SameCursor l l') : Cursor l' := by
  obtain ⟨hlog, hriter, hhead, hcrt, hrit⟩ := hsame
  constructor
  · rw [hlog]
    exact h.sorted
  · rw [hlog, hhead]
    exact h.upto
  · rw [hrit, hcrt]
    exact h.trimmedTo
  · rw [hcrt, hhead]
    exact h.rollbackTo
  · rw [hriter, hlog, hrit]
    exact h.riter

/-- Popping the front entry keeps the cursor in place. -/
theorem Cursor.popFront (h : Cursor l) {rest : Entries O}
    (hlog : l.log = e :: rest) : Cursor (l.popFront e) := by
  have hsorted := h.sorted
  rw [hlog, pairwise_cons] at hsorted
  have htail : (l.popFront e).log = rest := by
    show l.log.tail = rest
    rw [hlog, tail_cons]
  refine ⟨htail ▸ hsorted.2, fun f hf => ?_, h.trimmedTo, h.rollbackTo, ?_⟩
  · rw [htail] at hf
    exact h.upto f (hlog ▸ mem_cons_of_mem _ hf)
  show (if l.riter = 0 ∨ l.riterVersion = some e.version then 0 else l.riter - 1) =
    ((l.popFront e).log.takeWhile (notAfter l.rollbackInfoTrimmedTo)).length
  rw [htail]
  have hriter := h.riter
  rw [hlog] at hriter
  cases hp : notAfter l.rollbackInfoTrimmedTo e with
  | false =>
    rw [takeWhile_cons_of_neg (by simp [hp])] at hriter
    rw [if_pos (.inl hriter)]
    have hnil : rest.takeWhile (notAfter l.rollbackInfoTrimmedTo) = [] := by
      rw [takeWhile_eq_filter (falls_notAfter hsorted.2 _), filter_eq_nil_iff]
      intro f hf
      have hlt : l.rollbackInfoTrimmedTo < e.version := by simpa using hp
      simpa using hlt.trans (hsorted.1 f hf).1
    rw [hnil, length_nil]
  | true =>
    rw [takeWhile_cons_of_pos hp, length_cons] at hriter
    split
    next hcase =>
      cases hrest : rest.takeWhile (notAfter l.rollbackInfoTrimmedTo) with
      | nil => rw [length_nil]
      | cons =>
        -- the cursor refers to an entry behind the front one
        exfalso
        rw [hrest, length_cons] at hriter
        have hzero : l.riter ≠ 0 := by omega
        have hversion := hcase.resolve_left hzero
        rw [riterVersion, hriter, hlog, Nat.add_sub_cancel] at hversion
        obtain ⟨g, hg, heq⟩ := map_eq_some_iff.1 hversion
        have hlt := (hsorted.1 g (mem_of_getElem? hg)).1
        rw [heq] at hlt
        exact absurd hlt (lt_irrefl _)
    · rw [hriter, Nat.add_sub_cancel]

end Same

/-- The loop of `trim` over the log drops entries up to the bound from the front. -/
theorem trimEntries_cursor (s : EVersion) (earliest : Nat) (es : Entries O)
    (t : IndexedLog.Trimming O) (h : Cursor t.log) (hlog : t.log.log = es) :
    Cursor (trimEntries s earliest es t).log ∧
      (trimEntries s earliest es t).log.rollbackInfoTrimmedTo = t.log.rollbackInfoTrimmedTo ∧
      (trimEntries s earliest es t).log.canRollbackTo = t.log.canRollbackTo ∧
      ∃ gone, es = gone ++ (trimEntries s earliest es t).log.log ∧
        ∀ e ∈ gone, e.version ≤ s := by
  induction es generalizing t with
  | nil => exact ⟨h, rfl, rfl, [], hlog.symm, by simp⟩
  | cons e es ih =>
    unfold trimEntries
    split
    · exact ⟨h, rfl, rfl, [], hlog.symm, by simp⟩
    next hle =>
      have hsame : SameCursor t.log
          (if decide (earliest ≤ e.version.version) = true then
            (dupsOf e).foldl pushDup (t.log.unindexEntry e)
          else t.log.unindexEntry e) := by
        rw [foldl_pushDup_eq]
        split <;> exact ⟨rfl, rfl, rfl, rfl, rfl⟩
      have htail : (trimEntry earliest t e).log.log = es := by
        have hpopped := congrArg List.tail (hsame.log.trans hlog)
        exact hpopped
      obtain ⟨hcursor, hrit, hcrt, gone, hgone, hbound⟩ :=
        ih (trimEntry earliest t e) ((h.congr hsame).popFront (hsame.log.trans hlog)) htail
      refine ⟨hcursor, hrit.trans hsame.rollbackInfoTrimmedTo, hcrt.trans hsame.canRollbackTo,
        e :: gone, by rw [cons_append, ← hgone], fun f hf => ?_⟩
      obtain heq | hmem := mem_cons.1 hf
      · exact heq ▸ not_lt.1 hle
      · exact hbound f hmem

/-- What `trim` does to the log and to the cursor. -/
theorem trim_cursor {dupsTracked : Nat} {s : EVersion} {t t' : IndexedLog.Trimming O}
    (h : Cursor t.log) (hrun : trim dupsTracked s t = some t') :
    Cursor t'.log ∧ s ≤ t.log.canRollbackTo ∧
      t'.log.rollbackInfoTrimmedTo = t.log.rollbackInfoTrimmedTo ∧
      t'.log.canRollbackTo = t.log.canRollbackTo ∧
      ∃ gone, t.log.log = gone ++ t'.log.log ∧ ∀ e ∈ gone, e.version ≤ s := by
  unfold trim at hrun
  split at hrun
  · cases hrun
  next hs =>
    split at hrun
    · cases hrun
    next newest _ =>
      rw [some.injEq] at hrun
      obtain ⟨hcursor, hrit, hcrt, gone, hgone, hbound⟩ := trimEntries_cursor s
        (earliestDupVersion dupsTracked newest.version.version) t.log.log t h rfl
      subst hrun
      rw [trimDups_log _ _ _ rfl]
      exact ⟨hcursor.congr ⟨rfl, rfl, rfl, rfl, rfl⟩, not_lt.1 hs, hrit, hcrt, gone, hgone, hbound⟩

/-! ## Runs -/

inductive CursorOp (O : Type) where
  | add (e : LogEntry O) (applied : Bool)
  | rollForwardTo (upTo : EVersion)
  | trimRollbackInfoTo (upTo : EVersion)
  | skipCanRollbackToToHead
  | trim (dupsTracked : Nat) (s : EVersion)
  | rewindFromHead (newhead : EVersion)

/-- A log with what has become of its entries. -/
structure Disposal (O : Type) where
  log : IndexedLog O
  /-- every entry that the log has held -/
  logged : Entries O
  /-- the entries given to the handler's `rollforward` and `trim`, in order -/
  handed : Entries O := []
  /-- the entries that the cursor has passed: handed, skipped, or at the start -/
  passed : Entries O
  trimmed : Entries O := []
  divergent : Entries O := []

namespace Disposal

def start (l : IndexedLog O) : Disposal O where
  log := l
  logged := l.log
  passed := l.log.take l.riter

/-- The cursor moves; `hands` says whether the entries go to the handler. -/
def advance (x : Disposal O) (upTo : EVersion) (hands : Bool) : Disposal O :=
  let (log, entries, _) := x.log.advanceCanRollbackTo upTo
  { x with
    log := log
    handed := if hands then x.handed ++ entries else x.handed
    passed := x.passed ++ entries }

def step (x : Disposal O) : CursorOp O → Option (Disposal O)
  | .add e applied =>
    (x.log.add e applied).map fun l =>
      { x with
        log := l
        logged := x.logged ++ [e]
        passed := x.passed ++ (l.log.take l.riter).drop x.log.riter }
  | .rollForwardTo upTo => some (x.advance upTo true)
  | .trimRollbackInfoTo upTo => some (x.advance upTo true)
  | .skipCanRollbackToToHead => some (x.advance x.log.head false)
  | .trim dupsTracked s =>
    (IndexedLog.trim dupsTracked s ⟨x.log, [], [], s⟩).map fun t =>
      { x with
        log := t.log
        trimmed := x.trimmed ++ x.log.log.take (x.log.log.length - t.log.log.length) }
  | .rewindFromHead newhead =>
    (x.log.rewindFromHead newhead).map fun r =>
      { x with log := r.1, divergent := x.divergent ++ r.2 }

/-- The calls are in order: nothing is rolled forward beyond the head, a new entry is
newer than all that were ever logged, and a rewind compares versions of one history. -/
def InOrder (x : Disposal O) : CursorOp O → Prop
  | .add e _ => ∀ f ∈ x.logged, f.version < e.version
  | .rollForwardTo upTo => upTo ≤ x.log.head
  | .trimRollbackInfoTo upTo => upTo ≤ x.log.head
  | .skipCanRollbackToToHead => True
  | .trim _ _ => True
  | .rewindFromHead newhead =>
    ∀ e ∈ x.log.log, e.version.version ≤ newhead.version → e.version ≤ newhead

instance (x : Disposal O) : ∀ op : CursorOp O, Decidable (x.InOrder op)
  | .add e _ => inferInstanceAs (Decidable (∀ f ∈ x.logged, f.version < e.version))
  | .rollForwardTo upTo => inferInstanceAs (Decidable (upTo ≤ x.log.head))
  | .trimRollbackInfoTo upTo => inferInstanceAs (Decidable (upTo ≤ x.log.head))
  | .skipCanRollbackToToHead => .isTrue trivial
  | .trim _ _ => .isTrue trivial
  | .rewindFromHead newhead => inferInstanceAs (Decidable
      (∀ e ∈ x.log.log, e.version.version ≤ newhead.version → e.version ≤ newhead))

end Disposal

/-- What holds along a run.  `even` says that the two bounds were equal at its start. -/
structure Disposed (even : Prop) (x : Disposal O) : Prop where
  cursor : Cursor x.log
  logged : ∀ e ∈ x.log.log, e ∈ x.logged
  handedLogged : ∀ e ∈ x.handed, e ∈ x.logged
  goneLogged : ∀ e ∈ x.trimmed ++ x.divergent, e ∈ x.logged
  apart : ∀ e ∈ x.log.log, e ∉ x.trimmed ++ x.divergent
  ordered : x.handed.Pairwise fun e f => e.version < f.version
  ahead : ∀ e ∈ x.log.log, x.log.rollbackInfoTrimmedTo < e.version →
    ∀ f ∈ x.handed, f.version < e.version
  behind : ∀ e ∈ x.log.log, e.version ≤ x.log.rollbackInfoTrimmedTo → e ∈ x.passed
  level : even → x.log.canRollbackTo = x.log.rollbackInfoTrimmedTo
  trimmedPassed : even → ∀ e ∈ x.trimmed, e ∈ x.passed

section Steps

variable {even : Prop} {x : Disposal O}

omit [LinearOrder O] in
theorem disposed_start (h : Cursor l) :
    Disposed (l.canRollbackTo = l.rollbackInfoTrimmedTo) (Disposal.start l) where
  cursor := h
  logged := fun _ he => he
  handedLogged := by simp [Disposal.start]
  goneLogged := by simp [Disposal.start]
  apart := by simp [Disposal.start]
  ordered := List.Pairwise.nil
  ahead := by simp [Disposal.start]
  behind := by
    intro e he hle
    obtain ⟨i, hi⟩ := mem_iff_getElem?.1 he
    have hlt := (h.lt_riter_iff hi).2 hle
    exact mem_of_getElem? ((getElem?_take_of_lt hlt).trans hi)
  level := fun h => h
  trimmedPassed := by simp [Disposal.start]

section

variable (h : Disposed even x)

include h

omit [LinearOrder O] in
theorem Disposed.advance {upTo : EVersion} (hto : upTo ≤ x.log.head)
    (hands : Bool) : Disposed even (x.advance upTo hands) := by
  have hcursor := h.cursor.advance hto
  have hmem : ∀ e, e ∈ x.log.passed (max x.log.rollbackInfoTrimmedTo upTo) ↔ _ := fun e =>
    h.cursor.mem_passed
  have hsorted : (x.log.passed (max x.log.rollbackInfoTrimmedTo upTo)).Pairwise
      fun e f => e.version < f.version :=
    ((h.cursor.sorted.imp fun hlt => hlt.1).sublist (drop_sublist ..)).sublist (takeWhile_sublist _)
  have hhanded : ∀ f ∈ (x.advance upTo hands).handed,
      f ∈ x.handed ∨ f ∈ x.log.passed (max x.log.rollbackInfoTrimmedTo upTo) := by
    intro f hf
    cases hands with
    | true => exact mem_append.1 hf
    | false => exact .inl hf
  refine ⟨hcursor, h.logged, fun e he => ?_, h.goneLogged, h.apart, ?_, ?_, ?_, fun hl => ?_,
    fun hl e he => mem_append_left _ (h.trimmedPassed hl e he)⟩
  · obtain hin | hin := hhanded e he
    · exact h.handedLogged e hin
    · exact h.logged e ((hmem e).1 hin).1
  · cases hands with
    | false => exact h.ordered
    | true =>
      refine pairwise_append.2 ⟨h.ordered, hsorted, fun f hf e he => ?_⟩
      obtain ⟨hin, hlt, -⟩ := (hmem e).1 he
      exact h.ahead e hin hlt f hf
  · intro e he hlt f hf
    have hlt' : max x.log.rollbackInfoTrimmedTo upTo < e.version := hlt
    obtain hin | hin := hhanded f hf
    · exact h.ahead e he ((le_max_left _ _).trans_lt hlt') f hin
    · exact ((hmem f).1 hin).2.2.trans_lt hlt'
  · intro e he hle
    obtain hold | hnew := le_or_gt e.version x.log.rollbackInfoTrimmedTo
    · exact mem_append_left _ (h.behind e he hold)
    · exact mem_append_right _ ((hmem e).2 ⟨he, hnew, hle⟩)
  · show max x.log.canRollbackTo upTo = max x.log.rollbackInfoTrimmedTo upTo
    rw [h.level hl]

theorem Disposed.add {applied : Bool} (hfresh : ∀ f ∈ x.logged, f.version < e.version)
    (hrun : x.log.add e applied = some l) :
    Disposed even { x with
      log := l
      logged := x.logged ++ [e]
      passed := x.passed ++ (l.log.take l.riter).drop x.log.riter } := by
  obtain ⟨hcursor, hlog, hrit, hlevel⟩ := add_cursor h.cursor hrun
  have hcases : ∀ f ∈ l.log, f ∈ x.log.log ∨ f = e := by
    intro f hf
    rw [hlog, mem_append, mem_singleton] at hf
    exact hf
  refine ⟨hcursor, fun f hf => ?_, fun f hf => mem_append_left _ (h.handedLogged f hf),
    fun f hf => mem_append_left _ (h.goneLogged f hf), fun f hf => ?_, h.ordered, ?_, ?_,
    fun hl => hlevel (h.level hl),
    fun hl f hf => mem_append_left _ (h.trimmedPassed hl f hf)⟩
  · obtain hin | heq := hcases f hf
    · exact mem_append_left _ (h.logged f hin)
    · exact mem_append_right _ (mem_singleton.2 heq)
  · obtain hin | heq := hcases f hf
    · exact h.apart f hin
    · intro hgone
      rw [heq] at hgone
      exact absurd (hfresh e (h.goneLogged e hgone)) (lt_irrefl _)
  · intro f hf hlt g hg
    obtain hin | heq := hcases f hf
    · exact h.ahead f hin (hrit.trans_lt hlt) g hg
    · exact heq ▸ hfresh g (h.handedLogged g hg)
  · intro f hf hle
    obtain ⟨i, hi⟩ := mem_iff_getElem?.1 hf
    have hlt := (hcursor.lt_riter_iff hi).2 hle
    obtain hold | hnew := lt_or_ge i x.log.riter
    · -- an old position in front of the cursor
      have hi' : x.log.log[i]? = some f := by
        have hlen : i < x.log.log.length :=
          hold.trans_le (h.cursor.riter ▸ (takeWhile_sublist _).length_le)
        rw [hlog, getElem?_append_left hlen] at hi
        exact hi
      refine mem_append_left _ (h.behind f (mem_of_getElem? hi') ?_)
      exact (h.cursor.lt_riter_iff hi').1 hold
    · refine mem_append_right _ (mem_of_getElem? (i := i - x.log.riter) ?_)
      rw [getElem?_drop, Nat.add_sub_cancel' hnew, getElem?_take_of_lt hlt, hi]

omit [LinearOrder O] in
/-- Entries leave the log; the bound moves over none of those that stay. -/
theorem Disposed.shrink {dropped trimmed divergent : Entries O} (hcursor : Cursor l)
    (hlog : ∀ e, e ∈ x.log.log ↔ e ∈ l.log ∨ e ∈ dropped) (hapart : List.Disjoint l.log dropped)
    (hgone : ∀ e ∈ trimmed ++ divergent, e ∈ x.trimmed ++ x.divergent ∨ e ∈ dropped)
    (hrit : ∀ e ∈ l.log, e.version ≤ l.rollbackInfoTrimmedTo ↔
      e.version ≤ x.log.rollbackInfoTrimmedTo)
    (hlevel : even → l.canRollbackTo = l.rollbackInfoTrimmedTo)
    (htrimmed : even → ∀ e ∈ trimmed, e ∈ x.passed) :
    Disposed even { x with log := l, trimmed := trimmed, divergent := divergent } := by
  have hin : ∀ e ∈ l.log, e ∈ x.log.log := fun e he => (hlog e).2 (.inl he)
  refine ⟨hcursor, fun e he => h.logged e (hin e he), h.handedLogged, fun e he => ?_,
    fun e he hmem => ?_, h.ordered, fun e he hlt => h.ahead e (hin e he) ?_,
    fun e he hle => h.behind e (hin e he) ((hrit e he).1 hle), hlevel, htrimmed⟩
  · exact (hgone e he).elim (h.goneLogged e) fun hd => h.logged e ((hlog e).2 (.inr hd))
  · exact (hgone e hmem).elim (h.apart e (hin e he)) (hapart he)
  · rw [← not_le] at hlt ⊢
    exact fun hle => hlt ((hrit e he).2 hle)

theorem Disposed.trim {dupsTracked : Nat} {s : EVersion} {t : IndexedLog.Trimming O}
    (hrun : trim dupsTracked s ⟨x.log, [], [], s⟩ = some t) :
    Disposed even { x with
      log := t.log
      trimmed := x.trimmed ++ x.log.log.take (x.log.log.length - t.log.log.length) } := by
  obtain ⟨hcursor, hs, hrit, hcrt, gone, hgone, hbound⟩ := trim_cursor h.cursor hrun
  have htake : x.log.log.take (x.log.log.length - t.log.log.length) = gone := by
    rw [hgone, length_append, Nat.add_sub_cancel, take_left]
  rw [htake]
  refine h.shrink hcursor (fun e => ?_) (disjoint_of_nodup_append (hgone ▸ h.cursor.nodup)).symm
    (fun e he => ?_) (fun e _ => by rw [hrit]) (fun hl => ?_) fun hl e he => ?_
  · rw [hgone, mem_append, or_comm]
  · simp only [mem_append] at he ⊢
    exact or_right_comm.1 he
  · exact hcrt.trans ((h.level hl).trans hrit.symm)
  · obtain he | he := mem_append.1 he
    · exact h.trimmedPassed hl e he
    · exact h.behind e (hgone ▸ mem_append_left _ he)
        (((hbound e he).trans hs).trans_eq (h.level hl))

theorem Disposed.rewind {newhead : EVersion}
    (hnum : ∀ e ∈ x.log.log, e.version.version ≤ newhead.version → e.version ≤ newhead)
    (hrun : x.log.rewindFromHead newhead = some (l, divergent)) :
    Disposed even { x with log := l, divergent := x.divergent ++ divergent } := by
  obtain ⟨hcursor, hlog, hle, hrit, hcrt⟩ := rewindFromHead_cursor h.cursor hnum hrun
  refine h.shrink hcursor (fun e => ?_) (disjoint_of_nodup_append (hlog ▸ h.cursor.nodup))
    (fun e he => ?_) (fun e he => ?_) (fun hl => ?_) h.trimmedPassed
  · rw [hlog, mem_append]
  · rwa [← append_assoc, mem_append] at he
  · rw [hrit, le_min_iff, and_iff_left (hle e he)]
  · rw [hcrt, hrit, h.level hl]

/-- One call keeps what holds along a run. -/
theorem Disposed.step {op : CursorOp O} {x' : Disposal O} (hok : x.InOrder op)
    (hrun : x.step op = some x') : Disposed even x' := by
  cases op with
  | add =>
    obtain ⟨_, hadd, rfl⟩ := map_eq_some_iff.1 hrun
    exact h.add hok hadd
  | rollForwardTo | trimRollbackInfoTo =>
    rw [← some.inj hrun]
    exact h.advance hok true
  | skipCanRollbackToToHead =>
    rw [← some.inj hrun]
    exact h.advance le_rfl false
  | trim =>
    obtain ⟨_, htrim, rfl⟩ := map_eq_some_iff.1 hrun
    exact h.trim htrim
  | rewindFromHead =>
    obtain ⟨_, hrewind, rfl⟩ := map_eq_some_iff.1 hrun
    exact h.rewind hok hrewind

end

end Steps

/-- Along every run of calls that are in order the cursor refers to the newest entry
up to `rollback_info_trimmed_to`, the bounds are in order, the entries are handed to
the handler in increasing order, hence at most once, and only while they are in the
log.  If the two bounds are equal at the start, as in an empty log, an entry is
trimmed only after the cursor has passed it. -/
theorem rollbackInfo_disposed_once {l : IndexedLog O} (hl : Cursor l) {x : Disposal O}
    (hrun : Run Disposal.step Disposal.InOrder (Disposal.start l) x) :
    (x.log.riter ≤ x.log.log.length ∧ ∀ i e, x.log.log[i]? = some e →
        (i < x.log.riter ↔ e.version ≤ x.log.rollbackInfoTrimmedTo)) ∧
      x.log.rollbackInfoTrimmedTo ≤ x.log.canRollbackTo ∧ x.log.canRollbackTo ≤ x.log.head ∧
      (x.handed.Pairwise fun e f => e.version < f.version) ∧
      (∀ upTo, ∀ e ∈ (x.log.advanceCanRollbackTo upTo).2.1,
        e ∈ x.log.log ∧ e ∉ x.handed ∧ e ∉ x.trimmed ∧ e ∉ x.divergent) ∧
      (l.canRollbackTo = l.rollbackInfoTrimmedTo → ∀ e ∈ x.trimmed, e ∈ x.passed) := by
  have h : Disposed (l.canRollbackTo = l.rollbackInfoTrimmedTo) x :=
    hrun.invariant (disposed_start hl) fun _ _ _ hx hok hstep => hx.step hok hstep
  refine ⟨⟨?_, fun i e he => h.cursor.lt_riter_iff he⟩, h.cursor.trimmedTo, h.cursor.rollbackTo,
    h.ordered, fun upTo e he => ?_, h.trimmedPassed⟩
  · rw [h.cursor.riter]
    exact (takeWhile_sublist _).length_le
  · obtain ⟨hin, hlt, -⟩ := h.cursor.mem_passed.1 he
    have hapart := h.apart e hin
    rw [mem_append, not_or] at hapart
    exact ⟨hin, fun hhanded => absurd (h.ahead e hin hlt e hhanded) (lt_irrefl _), hapart⟩

namespace Disposal

/-- A modification of object 1 at the given version. -/
def modifyAt (v : EVersion) : LogEntry Nat := ⟨.modify, 1, v, 0, {}, [], [], 0, 0, [], false⟩

end Disposal

open Disposal in
theorem rollbackInfo_disposed_once_run :
    Cursor ({} : IndexedLog Nat) ∧
      ∃ x, Run Disposal.step Disposal.InOrder (Disposal.start {}) x ∧
        x.handed = [modifyAt ⟨1, 1⟩] ∧ x.log.canRollbackTo ≤ x.log.head ∧
        x.handed.Pairwise fun e f => e.version < f.version := by
  have hempty : Cursor ({} : IndexedLog Nat) := ⟨List.Pairwise.nil, by simp, le_rfl, le_rfl, rfl⟩
  have hexec : (execOk Disposal.step (fun x op => decide (x.InOrder op)) (start {})
      [.add (modifyAt ⟨1, 1⟩) true, .add (modifyAt ⟨1, 2⟩) true,
        .rollForwardTo ⟨1, 1⟩]).map Disposal.handed = some [modifyAt ⟨1, 1⟩] := by
    decide +kernel
  obtain ⟨x, hx, hhanded⟩ := map_eq_some_iff.1 hexec
  have hrun := (execOk_run hx).mono fun _ _ hok => of_decide_eq_true hok
  have hdisposed := rollbackInfo_disposed_once hempty hrun
  exact ⟨hempty, x, hrun, hhanded, hdisposed.2.2.1, hdisposed.2.2.2.1⟩

open Disposal in
/-- Calls that are out of order.  Rolling forward beyond the head takes
`can_rollback_to` there, and the next entry lands behind the cursor.  An entry that is
logged again after a rewind, and one that a rewind keeps although it is newer than the
new head, are handed over twice. -/
theorem rollbackInfo_out_of_order :
    (exec Disposal.step (Disposal.start {})
        [.add (modifyAt ⟨1, 1⟩) true, .rollForwardTo ⟨1, 5⟩, .add (modifyAt ⟨1, 2⟩) true]).map
        (fun x => (x.log.head, x.log.canRollbackTo, x.log.rollbackInfoTrimmedTo, x.log.riter)) =
      some (⟨1, 2⟩, ⟨1, 5⟩, ⟨1, 5⟩, 1) ∧
    (exec Disposal.step (Disposal.start {})
        [.add (modifyAt ⟨1, 1⟩) true, .add (modifyAt ⟨1, 2⟩) true, .rollForwardTo ⟨1, 2⟩,
          .rewindFromHead ⟨1, 1⟩, .add (modifyAt ⟨1, 2⟩) true, .rollForwardTo ⟨1, 2⟩]).map
        (fun x => x.handed.map LogEntry.version) =
      some [⟨1, 1⟩, ⟨1, 2⟩, ⟨1, 2⟩] ∧
    (exec Disposal.step (Disposal.start {})
        [.add (modifyAt ⟨2, 1⟩) true, .rollForwardTo ⟨2, 1⟩, .rewindFromHead ⟨1, 3⟩,
          .add (modifyAt ⟨2, 4⟩) true, .rollForwardTo ⟨2, 4⟩]).map
        (fun x => x.handed.map LogEntry.version) =
      some [⟨2, 1⟩, ⟨2, 1⟩, ⟨2, 4⟩] := by
  decide +kernel

end Ceph.Osd
