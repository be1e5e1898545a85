import Mathlib.Data.List.Basic
import Mathlib.Order.Nat

set_option autoImplicit false

/-!
# Reading a list page by page

A reader asks for a page at a cursor and is told the cursor of the next page,
until it is told the end.  If each cursor is the next element of the list and
brings the page that starts there, the pages are the list.  If a cursor brings
the first page again, the reader never comes to the end.
-/

namespace Ceph.Lib

open List Nat

variable {ε α : Type}

/-- The first page of `l`, and the cursor for what is behind it. -/
def page (p : Nat) (top : α) (l : List α) : List α × α := (l.take p, (l[p]?).getD top)

/-- All pages from a cursor on, up to the cursor `top`. -/
def pages [DecidableEq α] (fetch : α → Except ε (List α × α)) (top : α) (limit : ε) :
    Nat → α → Except ε (List (List α))
  | 0, _ => .error limit
  | fuel + 1, cursor => do
    let r ← fetch cursor
    if r.2 = top then .ok [r.1]
    else do
      let rest ← pages fetch top limit fuel r.2
      .ok (r.1 :: rest)

variable {top : α} {l : List α} {p : Nat}

theorem page_snd_eq (htop : top ∉ l) : (page p top l).2 = top ↔ l.length ≤ p := by
  rw [page]
  cases h : l[p]? with
  | none => exact iff_of_true rfl (getElem?_eq_none_iff.1 h)
  | some =>
    refine iff_of_false ?_ (not_le.2 (List.getElem?_eq_some_iff.1 h).1)
    intro hx
    exact htop (hx ▸ mem_of_getElem? h)

theorem page_drop_snd (top : α) {i : Nat} (h : i + p < l.length) :
    l[i + p]? = some (page p top (l.drop i)).2 := by
  rw [page]
  rw [getElem?_drop, getElem?_eq_getElem h]
  rfl

variable [DecidableEq α] {fetch : α → Except ε (List α × α)} {limit : ε}

theorem pages_more {cursor : α} {r : List α × α} (h : fetch cursor = .ok r) (hr : r.2 ≠ top)
    (fuel : Nat) : pages fetch top limit (fuel + 1) cursor =
      (pages fetch top limit fuel r.2).map (r.1 :: ·) := by
  rw [pages, h]
  exact if_neg hr

/-- Two cursors that bring the same page bring the same pages. -/
theorem pages_congr {a b : α} (h : fetch a = fetch b) (fuel : Nat) :
    pages fetch top limit fuel a = pages fetch top limit fuel b := by
  cases fuel with
  | zero => rfl
  | succ => rw [pages, pages, h]

/-- Cursors that bring the page they stand for give the list. -/
theorem pages_flatten {start : α} (hp : 0 < p) (htop : top ∉ l)
    (hstart : fetch start = .ok (page p top l))
    (hnext : ∀ i x, 0 < i → p ∣ i → l[i]? = some x → fetch x = .ok (page p top (l.drop i))) :
    ∃ ps n, (∀ fuel, n ≤ fuel → pages fetch top limit fuel start = .ok ps) ∧ ps.flatten = l := by
  have hpages : ∀ n i cursor, (l.drop i).length < n → p ∣ i →
      fetch cursor = .ok (page p top (l.drop i)) →
      ∃ ps, (∀ fuel, n ≤ fuel → pages fetch top limit fuel cursor = .ok ps) ∧
        ps.flatten = l.drop i := by
    intro n
    induction n with
    | zero => exact fun i cursor hlen => absurd hlen (not_lt_zero _)
    | succ _ ih =>
      intro i cursor hlen hdvd hfetch
      have htop' : top ∉ l.drop i := fun h => htop (mem_of_mem_drop h)
      by_cases hlast : (page p top (l.drop i)).2 = top
      · refine ⟨[(page p top (l.drop i)).1], fun fuel hfuel => ?_, ?_⟩
        · obtain ⟨fuel, rfl⟩ := Nat.exists_eq_add_of_le' hfuel
          rw [← Nat.add_assoc, pages, hfetch]
          exact if_pos hlast
        · rw [flatten_singleton]
          exact take_of_length_le ((page_snd_eq htop').1 hlast)
      · have hlt : p < (l.drop i).length := not_le.1 fun h => hlast ((page_snd_eq htop').2 h)
        rw [length_drop] at hlt hlen
        have hcursor := page_drop_snd top (show i + p < l.length by omega)
        obtain ⟨ps, hps, hflat⟩ := ih (i + p) _ (by rw [length_drop]; omega)
          ((Nat.dvd_add_right hdvd).2 (Nat.dvd_refl p))
          (hnext (i + p) _ (by omega) ((Nat.dvd_add_right hdvd).2 (Nat.dvd_refl p)) hcursor)
        refine ⟨(page p top (l.drop i)).1 :: ps, fun fuel hfuel => ?_, ?_⟩
        · obtain ⟨fuel, rfl⟩ := Nat.exists_eq_add_of_le' hfuel
          rw [← Nat.add_assoc, pages_more hfetch hlast, hps _ (le_add_left _ _)]
          rfl
        · rw [flatten_cons, hflat, ← drop_drop]
          exact take_append_drop p (l.drop i)
  obtain ⟨ps, hps, hflat⟩ := hpages _ 0 start (lt_succ_self _) (Nat.dvd_zero p) hstart
  exact ⟨ps, _, hps, hflat⟩

/-- If the cursor at `k` brings the first page again, the last page is never reached. -/
theorem pages_restart {start x : α} {k : Nat} (htop : top ∉ l)
    (hstart : fetch start = .ok (page p top l))
    (hnext : ∀ i x, 0 < i → i < k → p ∣ i → l[i]? = some x → fetch x = .ok (page p top (l.drop i)))
    (hp : 0 < p) (hk : 0 < k) (hdvd : p ∣ k) (hx : l[k]? = some x) (hagain : fetch x = fetch start)
    (fuel : Nat) (ps : List (List α)) : pages fetch top limit fuel start ≠ .ok ps := by
  have hlen : k < l.length := (List.getElem?_eq_some_iff.1 hx).1
  -- no cursor up to the one at `k` brings the reader to the end
  have hnever : ∀ fuel i cursor ps, i < k → p ∣ i → fetch cursor = .ok (page p top (l.drop i)) →
      pages fetch top limit fuel cursor ≠ .ok ps := by
    intro fuel
    induction fuel with
    | zero => exact fun i cursor ps _ _ _ => nofun
    | succ fuel ih =>
      intro i cursor ps _ hdi hfetch h
      have hle : i + p ≤ k := by
        have hstep := le_of_dvd (by omega) (dvd_sub hdvd hdi)
        omega
      have hmore : (page p top (l.drop i)).2 ≠ top := by
        rw [ne_eq, page_snd_eq fun h => htop (mem_of_mem_drop h), length_drop]
        omega
      have hcursor := page_drop_snd top (show i + p < l.length by omega)
      rw [pages_more hfetch hmore] at h
      cases hrest : pages fetch top limit fuel (page p top (l.drop i)).2 with
      | error =>
        rw [hrest] at h
        cases h
      | ok rest =>
        obtain heq | hlt := eq_or_lt_of_le hle
        · -- the reader is back at the start
          rw [heq, hx] at hcursor
          rw [← Option.some.inj hcursor, pages_congr hagain] at hrest
          exact ih 0 start rest hk (Nat.dvd_zero p) hstart hrest
        · have hdvd' := (Nat.dvd_add_right hdi).2 (Nat.dvd_refl p)
          exact ih (i + p) _ rest hlt hdvd' (hnext _ _ (by omega) hlt hdvd' hcursor) hrest
  exact hnever fuel 0 start ps hk (Nat.dvd_zero p) hstart

end Ceph.Lib
