import Mathlib.Logic.Relation

set_option autoImplicit false

/-!
# Executable transition systems and their guarded runs

A system is a partial step function `step : σ → α → Option σ`: `none` says
that the action is not enabled in the state, or that the program would stop
on a failed assertion there.  A run is a finite sequence of enabled actions;
a guarded run additionally meets a condition on the state before each step.
-/

namespace Ceph.Lib

variable {σ α : Type}

/-- `Run step ok s t`: some sequence of enabled actions leads from `s` to `t`,
and every one of them meets the condition `ok` on the state it is taken in. -/
inductive Run (step : σ → α → Option σ) (ok : σ → α → Prop) (s : σ) : σ → Prop where
  | refl : Run step ok s s
  | tail {t u : σ} {a : α} (h : Run step ok s t) (hok : ok t a)
      (hstep : step t a = some u) : Run step ok s u

/-- A run without a condition on its steps. -/
abbrev Reaches (step : σ → α → Option σ) (s t : σ) : Prop := Run step (fun _ _ => True) s t

namespace Run

variable {step : σ → α → Option σ} {ok : σ → α → Prop} {s t : σ}

/-- The invariant rule: what holds at the start and is kept by every guarded
step holds at the end of every guarded run. -/
theorem invariant {Inv : σ → Prop} (h : Run step ok s t) (hinit : Inv s)
    (hstep : ∀ s a s', Inv s → ok s a → step s a = some s' → Inv s') : Inv t := by
  induction h with
  | refl => exact hinit
  | tail _ hok hs ih => exact hstep _ _ _ ih hok hs

/-- A condition may be weakened along a whole run. -/
theorem mono {ok' : σ → α → Prop} (h : Run step ok s t)
    (hok : ∀ s a, ok s a → ok' s a) : Run step ok' s t := by
  induction h with
  | refl => exact .refl
  | tail _ hk hs ih => exact ih.tail (hok _ _ hk) hs

theorem trans {u : σ} (h : Run step ok s t) (h' : Run step ok t u) : Run step ok s u := by
  induction h' with
  | refl => exact h
  | tail _ hok hs ih => exact ih.tail hok hs

end Run

/-- Execute a list of actions, checking a decidable condition before each. -/
def execOk (step : σ → α → Option σ) (ok : σ → α → Bool) : σ → List α → Option σ
  | s, [] => some s
  | s, a :: as =>
    if ok s a then
      match step s a with
      | none => none
      | some s' => execOk step ok s' as
    else none

/-- Execute a list of actions. -/
def exec (step : σ → α → Option σ) : σ → List α → Option σ := execOk step fun _ _ => true

variable {step : σ → α → Option σ}

/-- A checked execution is a guarded run. -/
theorem execOk_run {ok : σ → α → Bool} {as : List α} {s t : σ} (h : execOk step ok s as = some t) :
    Run step (fun s a => ok s a = true) s t := by
  induction as generalizing s t with
  | nil =>
    simp only [execOk, Option.some.injEq] at h
    subst h
    exact .refl
  | cons _ _ ih =>
    simp only [execOk] at h
    split at h
    next hok =>
      split at h
      · simp at h
      next _ hs => exact Run.trans (Run.tail .refl hok hs) (ih h)
    · simp at h

/-- An execution is a run. -/
theorem exec_reaches {as : List α} {s t : σ} (h : exec step s as = some t) : Reaches step s t :=
  (execOk_run h).mono fun _ _ _ => trivial

/-! ## What a receiver will find in a FIFO queue

The receiver reads the messages of its queue one after the other; `next` says how its state moves
and `ok` what a message may demand of the state in which it is read.  A queue fits a state if every
demand will be met.  Reading takes the head off and sending appends at the tail, so both keep the
property with one lemma each. -/

variable {next : σ → α → σ} {ok : σ → α → Prop}

/-- Every message meets `ok` in the state in which it will be read. -/
def Fits (next : σ → α → σ) (ok : σ → α → Prop) : σ → List α → Prop
  | _, [] => True
  | v, m :: ms => ok v m ∧ Fits next ok (next v m) ms

variable {ms : List α}

theorem fits_append {ms' : List α} :
    ∀ {v : σ}, Fits next ok v (ms ++ ms') ↔
      Fits next ok v ms ∧ Fits next ok (ms.foldl next v) ms' := by
  induction ms with
  | nil => simp [Fits]
  | cons _ _ ih => simp [Fits, ih, and_assoc]

/-- Messages without demands fit every state. -/
theorem fits_of_forall {v : σ} (h : ∀ m ∈ ms, ∀ v, ok v m) : Fits next ok v ms := by
  induction ms generalizing v with
  | nil => exact trivial
  | cons m _ ih =>
    exact ⟨h m (by simp) v, ih fun m' hm' => h m' (List.mem_cons_of_mem _ hm')⟩

/-- Messages that do not move the state. -/
theorem foldl_of_still {v : σ} (h : ∀ m ∈ ms, next v m = v) : ms.foldl next v = v := by
  refine List.foldlRecOn ms next (motive := (· = v)) rfl fun w hw m hm => ?_
  rw [hw, h m hm]

/-- If the messages do not move the state, each is read in the present one. -/
theorem fits_of_still {v : σ} (hstill : ∀ m ∈ ms, next v m = v)
    (hok : ∀ m ∈ ms, ok v m) : Fits next ok v ms := by
  induction ms with
  | nil => exact trivial
  | cons m _ ih =>
    refine ⟨hok m (by simp), ?_⟩
    rw [hstill m (by simp)]
    exact ih (fun m' hm' => hstill m' (List.mem_cons_of_mem _ hm'))
      fun m' hm' => hok m' (List.mem_cons_of_mem _ hm')

end Ceph.Lib
