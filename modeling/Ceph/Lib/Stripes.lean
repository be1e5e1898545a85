import Mathlib.Data.Nat.ModEq
import Ceph.Lib.Word

set_option autoImplicit false

/-!
# An address space dealt out in units to several columns

A linear address is a unit and a place in it.  Units go to `sc` columns in
turn, and after `spo` rounds to the next `sc` columns, so that a column holds
`spo` units.  In mixed radix this exchanges two digits of the address: it is a
bijection, and along a column it is increasing.  An interval of a column is cut
at the units, and each piece is an interval of linear addresses.
-/

namespace Ceph.Lib

open List Nat

/-! ## Quotient and remainder -/

theorem mul_add_div_of_lt {q r c : Nat} (h : r < c) : (q * c + r) / c = q := by
  rw [mul_comm, mul_add_div (by omega), div_eq_of_lt h, add_zero]

theorem mul_add_mod_of_lt' {q r c : Nat} (h : r < c) : (q * c + r) % c = r := by
  rw [mul_comm, mul_add_mod, mod_eq_of_lt h]

/-- The end of a unit is a multiple of it. -/
theorem dvd_add_sub_mod {su : Nat} (hsu : 0 < su) (x : Nat) : su ∣ x + (su - x % su) := by
  rw [← Nat.add_sub_assoc (mod_lt x hsu).le, Nat.sub_add_comm (mod_le x su)]
  exact Nat.dvd_add (dvd_sub_mod x) (Nat.dvd_refl su)

/-! ## The two addresses -/

/-- The numbers of a striped space: the length of a unit, the units of a column, and the columns
that are filled in turn. -/
structure Stripes where
  su : Nat
  spo : Nat
  sc : Nat
  su_pos : 0 < su
  spo_pos : 0 < spo
  sc_pos : 0 < sc

variable {off x : Nat}

namespace Stripes

variable (s : Stripes)

/-- The linear address of a place in a column. -/
def toLinear (o off : Nat) : Nat :=
  ((o / s.sc * s.spo + off / s.su) * s.sc + o % s.sc) * s.su + off % s.su

/-- The column of a linear address. -/
def column (x : Nat) : Nat := x / s.su / s.sc / s.spo * s.sc + x / s.su % s.sc

/-- The place in its column of a linear address. -/
def place (x : Nat) : Nat := x / s.su / s.sc % s.spo * s.su + x % s.su

theorem toLinear_column_place (x : Nat) : s.toLinear (s.column x) (s.place x) = x := by
  rw [toLinear, column, place, mul_add_div_of_lt (mod_lt _ s.sc_pos),
    mul_add_div_of_lt (mod_lt _ s.su_pos), mul_add_mod_of_lt' (mod_lt _ s.sc_pos),
    mul_add_mod_of_lt' (mod_lt _ s.su_pos), div_add_mod', div_add_mod',
    div_add_mod']

theorem place_add_le {n : Nat} (h : x % s.su + n ≤ s.su) : s.place x + n ≤ s.spo * s.su := by
  have hmul := mul_le_mul_right s.su (succ_le_of_lt (mod_lt (x / s.su / s.sc) s.spo_pos))
  rw [succ_mul] at hmul
  rw [place]
  omega

theorem place_lt (x : Nat) : s.place x < s.spo * s.su := s.place_add_le (n := 1) (mod_lt x s.su_pos)

theorem div_su_lt (h : off < s.spo * s.su) : off / s.su < s.spo :=
  Nat.div_lt_of_lt_mul (mul_comm s.spo s.su ▸ h)

variable {o : Nat}

theorem column_toLinear (h : off < s.spo * s.su) : s.column (s.toLinear o off) = o := by
  rw [column, toLinear, mul_add_div_of_lt (mod_lt _ s.su_pos),
    mul_add_div_of_lt (mod_lt _ s.sc_pos), mul_add_div_of_lt (s.div_su_lt h),
    mul_add_mod_of_lt' (mod_lt _ s.sc_pos), div_add_mod']

theorem place_toLinear (h : off < s.spo * s.su) : s.place (s.toLinear o off) = off := by
  rw [place, toLinear, mul_add_div_of_lt (mod_lt _ s.su_pos),
    mul_add_div_of_lt (mod_lt _ s.sc_pos), mul_add_mod_of_lt' (s.div_su_lt h),
    mul_add_mod_of_lt' (mod_lt _ s.su_pos), div_add_mod']

/-- Along a column the linear addresses increase. -/
theorem toLinear_lt_iff {off' : Nat} : s.toLinear o off < s.toLinear o off' ↔ off < off' := by
  have hmod := mod_lt off s.su_pos
  have hmod' := mod_lt off' s.su_pos
  have hsc := mod_lt o s.sc_pos
  have hoff : off < off' ↔ off / s.su < off' / s.su ∨
      off / s.su = off' / s.su ∧ off % s.su < off' % s.su := by
    rw [← mul_add_lt_iff hmod hmod', div_add_mod', div_add_mod']
  rw [toLinear, toLinear, mul_add_lt_iff hmod hmod', mul_add_lt_iff hsc hsc, mul_add_inj hsc hsc]
  omega

/-- A linear address is compared by round of columns, unit, column and place in the unit. -/
theorem toLinear_lt_iff_digits {t : Nat} (hoff : off < s.spo * s.su) :
    s.toLinear o off < t ↔ o / s.sc < t / s.su / s.sc / s.spo ∨
      o / s.sc = t / s.su / s.sc / s.spo ∧ (off / s.su < t / s.su / s.sc % s.spo ∨
        off / s.su = t / s.su / s.sc % s.spo ∧ (o % s.sc < t / s.su % s.sc ∨
          o % s.sc = t / s.su % s.sc ∧ off % s.su < t % s.su)) := by
  have hunit := s.div_su_lt hoff
  have hunit' := mod_lt (t / s.su / s.sc) s.spo_pos
  have hsc := mod_lt o s.sc_pos
  have hsc' := mod_lt (t / s.su) s.sc_pos
  -- the digits of `t`
  conv_lhs => rw [toLinear, ← div_add_mod' t s.su, ← div_add_mod' (t / s.su) s.sc,
    ← div_add_mod' (t / s.su / s.sc) s.spo]
  rw [mul_add_lt_iff (mod_lt _ s.su_pos) (mod_lt _ s.su_pos), mul_add_lt_iff hsc hsc',
    mul_add_inj hsc hsc', mul_add_lt_iff hunit hunit', mul_add_inj hunit hunit']
  omega

/-- In a unit both addresses go up together. -/
theorem toLinear_add {j : Nat} (h : off % s.su + j < s.su) :
    s.toLinear o (off + j) = s.toLinear o off + j := by
  have hsplit : off + j = off / s.su * s.su + (off % s.su + j) := by
    rw [← add_assoc, div_add_mod']
  rw [toLinear, hsplit, mul_add_div_of_lt h, mul_add_mod_of_lt' h, ← add_assoc]
  rfl

theorem place_mod (x : Nat) : s.place x % s.su = x % s.su := by
  rw [place, mul_add_mod_of_lt' (mod_lt _ s.su_pos)]

/-- An interval of linear addresses in one unit is an interval of one column. -/
theorem interval_iff {n : Nat} (h : x % s.su + n ≤ s.su) (o off : Nat) :
    o = s.column x ∧ s.place x ≤ off ∧ off < s.place x + n ↔
      off < s.spo * s.su ∧ x ≤ s.toLinear o off ∧ s.toLinear o off < x + n := by
  have hle := s.place_add_le h
  have hlinear : ∀ j < n, s.toLinear (s.column x) (s.place x + j) = x + j := by
    intro j _
    rw [s.toLinear_add (by rw [s.place_mod]; omega), s.toLinear_column_place]
  constructor
  · rintro ⟨rfl, hge, hlt⟩
    have hoff := hlinear (off - s.place x) (by omega)
    rw [show s.place x + (off - s.place x) = off by omega] at hoff
    omega
  · rintro ⟨hoff, hge, hlt⟩
    have hx := hlinear (s.toLinear o off - x) (by omega)
    rw [show x + (s.toLinear o off - x) = s.toLinear o off by omega] at hx
    have hcolumn := congrArg s.column hx
    have hplace := congrArg s.place hx
    rw [s.column_toLinear (by omega), s.column_toLinear hoff] at hcolumn
    rw [s.place_toLinear (by omega), s.place_toLinear hoff] at hplace
    omega

/-- One column at a time is the linear order. -/
theorem toLinear_of_sc (hsc : s.sc = 1) (o off : Nat) :
    s.toLinear o off = o * (s.spo * s.su) + off := by
  rw [toLinear, hsc, Nat.div_one, mod_one, Nat.mul_one, Nat.add_zero, Nat.add_mul,
    add_assoc, div_add_mod', mul_assoc]

end Stripes

/-! ## Pieces of an interval -/

/-- The interval from `off` on of length `len`, cut at the multiples of `su`. -/
def pieces (su off len : Nat) : List (Nat × Nat) :=
  if _h : 0 < su ∧ 0 < len then
    (off, min len (su - off % su)) ::
      pieces su (off + min len (su - off % su)) (len - min len (su - off % su))
  else []
termination_by len
decreasing_by
  have := mod_lt off _h.1
  omega

section Pieces

variable {su off len : Nat}

theorem pieces_zero (su off : Nat) : pieces su off 0 = [] := by
  rw [pieces, dif_neg (by omega)]

theorem pieces_of_pos (hsu : 0 < su) (hlen : 0 < len) :
    pieces su off len = (off, min len (su - off % su)) ::
      pieces su (off + min len (su - off % su)) (len - min len (su - off % su)) := by
  rw [pieces, dif_pos ⟨hsu, hlen⟩]

/-- An interval in one unit is one piece. -/
theorem pieces_single (hlen : 0 < len) (h : off % su + len ≤ su) :
    pieces su off len = [(off, len)] := by
  rw [pieces_of_pos (by omega) hlen, Nat.min_eq_left (by omega), Nat.sub_self, pieces_zero]

/-- A piece that starts at a unit is added to an interval that ends there. -/
theorem pieces_append (hdvd : su ∣ off + len) (hx : 0 < x) (hxsu : x ≤ su) :
    pieces su off (len + x) = pieces su off len ++ [(off + len, x)] := by
  induction len using Nat.strong_induction_on generalizing off with
  | _ len ih =>
    obtain rfl | hlen := len.eq_zero_or_pos
    · rw [zero_add, pieces_zero]
      exact pieces_single hx (by rw [add_zero] at hdvd; rw [mod_eq_zero_of_dvd hdvd]; omega)
    · have hmod := mod_lt off (show 0 < su by omega)
      -- the interval reaches the end of its first unit
      have hfirst : su - off % su ≤ len := by
        have hsplit := div_add_mod' off su
        have hsub := dvd_sub hdvd (dvd_mul_left su (off / su))
        have hle := le_of_dvd (by omega) hsub
        omega
      rw [pieces_of_pos (by omega) (by omega), pieces_of_pos (by omega) hlen,
        min_eq_right (by omega), min_eq_right hfirst, cons_append,
        show len + x - (su - off % su) = len - (su - off % su) + x by omega,
        ih (len - (su - off % su)) (by omega)
          (by rwa [show off + (su - off % su) + (len - (su - off % su)) = off + len by omega]),
        show off + (su - off % su) + (len - (su - off % su)) = off + len by omega]

/-- Each piece lies in one unit. -/
theorem mem_pieces {p : Nat × Nat} (hp : p ∈ pieces su off len) :
    0 < p.2 ∧ p.1 % su + p.2 ≤ su ∧ off ≤ p.1 ∧ p.1 + p.2 ≤ off + len := by
  induction len using Nat.strong_induction_on generalizing off with
  | _ len ih =>
    rw [pieces] at hp
    split at hp
    next h =>
      have hmod := mod_lt off h.1
      obtain rfl | hp := mem_cons.1 hp
      · dsimp only
        omega
      · have hrest := ih (len - min len (su - off % su)) (by omega) hp
        omega
    next => cases hp

/-- The addresses of a list of intervals, in order. -/
def addresses (l : List (Nat × Nat)) : List Nat := l.flatMap fun p => List.range' p.1 p.2

/-- The pieces are the interval. -/
theorem addresses_pieces (hsu : 0 < su) : addresses (pieces su off len) = List.range' off len := by
  induction len using Nat.strong_induction_on generalizing off with
  | _ len ih =>
    obtain rfl | hlen := len.eq_zero_or_pos
    · rw [pieces_zero]
      rfl
    · have hmod := mod_lt off hsu
      have hrest := @ih (len - min len (su - off % su)) (by omega) (off + min len (su - off % su))
      rw [addresses] at hrest
      rw [pieces_of_pos hsu hlen, addresses, flatMap_cons, hrest, range'_append_1,
        show min len (su - off % su) + (len - min len (su - off % su)) = len by omega]

/-- The linear intervals of a column's interval. -/
def Stripes.linearPieces (s : Stripes) (o off len : Nat) : List (Nat × Nat) :=
  (pieces s.su off len).map fun p => (s.toLinear o p.1, p.2)

/-- They hold the linear addresses of the interval, in order. -/
theorem Stripes.addresses_linearPieces (s : Stripes) (o off len : Nat) :
    addresses (s.linearPieces o off len) = (List.range' off len).map (s.toLinear o) := by
  have hpiece : ∀ p ∈ pieces s.su off len,
      List.range' (s.toLinear o p.1) p.2 = (List.range' p.1 p.2).map (s.toLinear o) := by
    intro p hp
    obtain ⟨_, _, _, _⟩ := mem_pieces hp
    refine ext_getElem (by simp) fun j hj _ => ?_
    rw [length_range'] at hj
    rw [getElem_map, getElem_range', getElem_range', s.toLinear_add (by omega)]
  rw [← addresses_pieces s.su_pos, addresses, addresses, linearPieces, flatMap_map, map_flatMap]
  exact flatMap_congr hpiece

end Pieces

end Ceph.Lib
