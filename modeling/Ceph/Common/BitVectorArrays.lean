import Ceph.Common.BitVector
import Ceph.Lib.Run

set_option autoImplicit false

/-!
# Bit vectors as arrays

Vectors that are resized, assigned to, cleared, encoded and decoded behave as plain arrays, and
compare equal exactly if the arrays are equal, as long as three conditions hold: a vector stays
below 4 GiB, a resize that cuts through a byte cuts off zeros only, and what is decoded has not
been overwritten through the vector that it was encoded from.
-/

namespace Ceph.Common

open Ceph.Lib List Option Function Nat Bool BitVector

/-! ## One byte -/

variable {e o : Nat}

section Byte

open BitVector

variable {b : BitCount} {s t : Nat} {x y value : BitVec 8}

theorem BitCount.per_mul (b : BitCount) : b.elementsPerBlock * b.bits = 8 :=
  Nat.div_mul_cancel b.dvd

theorem BitCount.getLsbD_mask (b : BitCount) (k : Nat) :
    b.mask.getLsbD k = decide (k < b.bits) := by
  have hle := le_of_dvd (by decide) b.dvd
  rw [BitCount.mask, BitVec.getLsbD_ofNat, testBit_two_pow_sub_one]
  by_cases hk : k < b.bits
  · rw [decide_eq_true hk, decide_eq_true (by omega), Bool.and_true]
  · rw [decide_eq_false hk, Bool.and_false]

theorem toNat_and_mask : (value &&& b.mask).toNat = value.toNat % 2 ^ b.bits := by
  have hle := Nat.pow_le_pow_right two_pos (le_of_dvd (by decide) b.dvd)
  rw [BitVec.toNat_and, BitCount.mask, BitVec.toNat_ofNat, mod_eq_of_lt (by omega),
    and_two_pow_sub_one_eq_mod]

theorem getLsbD_extract (k : Nat) : (extract b s x).getLsbD k =
    (x.getLsbD (s + k) && decide (k < b.bits)) := by
  rw [BitVector.extract, BitVec.getLsbD_and, BitVec.getLsbD_ushiftRight, b.getLsbD_mask]

/-- An assignment replaces the bits of the element. -/
theorem getLsbD_packedValue {k : Nat} (hk : k < 8) :
    (packedValue b s x value).getLsbD k =
      if s ≤ k ∧ k < s + b.bits then value.getLsbD (k - s) else x.getLsbD k := by
  have hmask : (b.mask <<< s).getLsbD k = decide (s ≤ k ∧ k < s + b.bits) := by
    rw [BitVec.getLsbD_shiftLeft, b.getLsbD_mask, decide_eq_true hk, Bool.true_and,
      ← decide_not, ← decide_and]
    exact decide_eq_decide.2 (by omega)
  rw [packedValue, BitVec.getLsbD_or, BitVec.getLsbD_and, BitVec.getLsbD_and,
    BitVec.getLsbD_not, hmask, BitVec.getLsbD_shiftLeft, decide_eq_true hk]
  by_cases hin : s ≤ k ∧ k < s + b.bits
  · simp [hin, hin.1.not_gt]
  · simp [hin]

theorem extract_packedValue_self (hs : s + b.bits ≤ 8) :
    (extract b s (packedValue b s x value)) = value &&& b.mask := by
  refine BitVec.eq_of_getLsbD_eq fun k hk => ?_
  rw [getLsbD_extract, BitVec.getLsbD_and, b.getLsbD_mask]
  by_cases hlt : k < b.bits
  · rw [getLsbD_packedValue (by omega), if_pos (by omega), Nat.add_sub_cancel_left]
  · rw [decide_eq_false hlt, Bool.and_false, Bool.and_false]

theorem extract_packedValue_ne (ht : t + b.bits ≤ 8) (hne : s + b.bits ≤ t ∨ t + b.bits ≤ s) :
    extract b t (packedValue b s x value) = extract b t x := by
  refine BitVec.eq_of_getLsbD_eq fun k hk => ?_
  rw [getLsbD_extract, getLsbD_extract]
  by_cases hlt : k < b.bits
  · rw [getLsbD_packedValue (by omega), if_neg (by omega)]
  · rw [decide_eq_false hlt, Bool.and_false, Bool.and_false]

theorem shift_le (b : BitCount) (e : Nat) : shift b e + b.bits ≤ 8 := by
  have hmod := mod_lt e b.per_pos
  have hle := mul_le_mul_right b.bits
    (show b.elementsPerBlock - 1 - e % b.elementsPerBlock + 1 ≤ b.elementsPerBlock by omega)
  rw [b.per_mul, succ_mul] at hle
  exact hle

/-- Different elements of a byte are apart. -/
theorem shift_apart (hne : e % b.elementsPerBlock ≠ o % b.elementsPerBlock) :
    shift b o + b.bits ≤ shift b e ∨
      shift b e + b.bits ≤ shift b o := by
  have he := mod_lt e b.per_pos
  have ho := mod_lt o b.per_pos
  unfold shift
  rw [← succ_mul, ← succ_mul]
  obtain hlt | hgt := lt_or_gt_of_ne hne
  · exact Or.inl (mul_le_mul_right _ (by omega))
  · exact Or.inr (mul_le_mul_right _ (by omega))

/-- The elements of a byte determine it. -/
theorem byte_ext (p : Nat)
    (h : ∀ e, index b e = p → extract b (shift b e) x = extract b (shift b e) y) : x = y := by
  refine BitVec.eq_of_getLsbD_eq fun k hk => ?_
  have hpos := b.per_pos
  have hq : k / b.bits < b.elementsPerBlock :=
    Nat.div_lt_of_lt_mul (by rw [mul_comm, b.per_mul]; exact hk)
  -- the element that the bit `k` belongs to
  have hr : b.elementsPerBlock - 1 - k / b.bits < b.elementsPerBlock :=
    (sub_le _ _).trans_lt (sub_lt hpos one_pos)
  have hindex : index b (p * b.elementsPerBlock + (b.elementsPerBlock - 1 - k / b.bits)) = p := by
    rw [index, mul_comm, mul_add_div hpos, div_eq_of_lt hr, add_zero]
  have hshift : shift b (p * b.elementsPerBlock +
      (b.elementsPerBlock - 1 - k / b.bits)) = k / b.bits * b.bits := by
    rw [shift, mul_add_mod', mod_eq_of_lt hr]
    congr 1
    omega
  have hbit := congrArg (fun z => z.getLsbD (k % b.bits)) (h _ hindex)
  rw [hshift, getLsbD_extract, getLsbD_extract, div_add_mod',
    decide_eq_true (mod_lt k (Nat.pos_of_dvd_of_pos b.dvd (by decide))), Bool.and_true,
    Bool.and_true] at hbit
  exact hbit

end Byte

/-! ## One vector -/

theorem getElem?_resizeList {α : Type} (d : α) (n : Nat) (l : List α) (i : Nat) :
    (resizeList (fun _ => d) n l)[i]? = if i < n then some (l[i]?.getD d) else none := by
  rw [resizeList]
  split
  next hin =>
    obtain hlt | hge := lt_or_ge i l.length
    · rw [getElem?_append_left (by rw [length_take]; omega),
        getElem?_take_of_lt hin, getElem?_eq_getElem hlt, getD_some]
    · rw [take_of_length_le (by omega), getElem?_append_right hge, getElem?_map,
        getElem?_range (by omega), getElem?_eq_none hge]
      rfl
  next hout =>
    refine getElem?_eq_none ?_
    rw [← resizeList, length_resizeList]
    omega

namespace BitVector

variable {b : BitCount} {v w : BitVector} {arr arr' : List Nat}

/-- The vector has the elements of the array, and zeros behind them up to the end of the last
byte. -/
structure Holds (b : BitCount) (v : BitVector) (arr : List Nat) : Prop extends Shaped b v where
  size_eq : v.size = arr.length
  elem : ∀ e, index b e < v.data.length → (v.get b e).map BitVec.toNat = some (arr[e]?.getD 0)

theorem Holds.congr (h : v.Holds b arr) (hw : w.Shaped b) (hdata : w.data = v.data)
    (hsize : w.size = v.size) : w.Holds b arr where
  toShaped := hw
  size_eq := hsize.trans h.size_eq
  elem e he := by
    rw [get, read, hdata]
    exact h.elem e (hdata ▸ he)

theorem get_eq (he : index b e < v.data.length) :
    v.get b e = some (extract b (shift b e) v.data[index b e]) := by
  rw [get, read, getElem?_eq_getElem he, map_some]

theorem Shaped.index_lt (h : v.Shaped b) (he : e < v.size) : index b e < v.data.length := by
  rw [h.length, h.fits.bufferSize, index, div_lt_iff_lt_mul b.per_pos]
  have := lt_div_mul_add (a := v.size + b.elementsPerBlock - 1) b.per_pos
  omega

theorem Holds.beq_iff (hv : v.Holds b arr) (hw : w.Holds b arr') : v.beq w = true ↔ arr = arr' := by
  rw [beq, decide_eq_true_eq]
  constructor
  · rintro ⟨hsize, hdata⟩
    have hlen : arr.length = arr'.length := by rw [← hv.size_eq, ← hw.size_eq, hsize]
    refine ext_getElem hlen fun e he he' => ?_
    have hvlt := hv.index_lt (hv.size_eq ▸ he)
    have hvget := hv.elem e hvlt
    have hwget := hw.elem e (hdata ▸ hvlt)
    rw [get, read, ← hdata] at hwget
    rw [getElem?_eq_getElem he] at hvget
    rw [getElem?_eq_getElem he'] at hwget
    exact some.inj (hvget.symm.trans hwget)
  · rintro rfl
    have hsize : v.size = w.size := by rw [hv.size_eq, hw.size_eq]
    have hlen : v.data.length = w.data.length := by rw [hv.length, hw.length, hsize]
    refine ⟨hsize, ext_getElem hlen fun p hp hp' => byte_ext (b := b) p fun e he => ?_⟩
    subst he
    have heq := (hv.elem e hp).trans (hw.elem e hp').symm
    rw [get_eq hp, get_eq hp', map_some, map_some, some.injEq] at heq
    exact BitVec.eq_of_toNat_eq heq

/-- A resize that cuts off zeros only from the last byte. -/
theorem Holds.resize {n : Nat} (h : v.Holds b arr) (new : NewMemory) (hn : b.Fits n)
    (hcut : ∀ e, n ≤ e → index b e < b.bufferSize n → arr[e]?.getD 0 = 0) :
    (v.resize b new n).Holds b (resizeList (fun _ => 0) n arr) := by
  have hdata := h.resizeWith_data new true hn
  have hshape := h.toShaped.resizeWith new true hn
  refine ⟨hshape, (length_resizeList _ _ _).symm, fun e he => ?_⟩
  have hlt : index b e < b.bufferSize n := lt_of_lt_of_eq he hshape.length
  have hbyte : (v.resize b new n).data[index b e]? = some (v.data[index b e]?.getD 0) := by
    refine (congrArg (·[index b e]?) hdata).trans ((getElem?_resizeList 0 _ _ _).trans ?_)
    rw [if_pos hlt]
  have harr : (resizeList (fun _ => 0) n arr)[e]?.getD 0 = arr[e]?.getD 0 := by
    rw [getElem?_resizeList]
    split
    next => rfl
    next hge => exact (hcut e (not_lt.1 hge) hlt).symm
  rw [harr, get, read, hbyte]
  obtain hold | hge := lt_or_ge (index b e) v.data.length
  · have helem := h.elem e hold
    rw [get, read, getElem?_eq_getElem hold] at helem
    rw [getElem?_eq_getElem hold]
    exact helem
  · have hle : v.size ≤ e := not_lt.1 fun hlt => (h.index_lt hlt).not_ge hge
    have hout : arr[e]? = none := getElem?_eq_none (h.size_eq ▸ hle)
    rw [getElem?_eq_none hge, hout]
    simp [extract]

/-- An assignment changes one element. -/
theorem Holds.write (h : v.Holds b arr) (ho : o < arr.length) (value : BitVec 8) :
    ∃ w, v.write b (index b o) (shift b o) value = some w ∧
      w.Holds b (arr.set o (value.toNat % 2 ^ b.bits)) := by
  have hlt := h.index_lt (h.size_eq ▸ ho)
  let byte := packedValue b (shift b o) v.data[index b o] value
  refine ⟨{ v with data := v.data.set (index b o) byte }, ?_, ⟨h.fits, ?_, ?_⟩, ?_, fun e he => ?_⟩
  · rw [BitVector.write, getElem?_eq_getElem hlt, map_some]
  · exact length_set.trans h.length
  · exact h.crcs.trans (congrArg blockCount length_set.symm)
  · exact h.size_eq.trans length_set.symm
  · have hold : index b e < v.data.length := by rwa [length_set] at he
    rw [get_eq he, map_some]
    by_cases heo : e = o
    · subst heo
      rw [getElem_set_self, extract_packedValue_self (shift_le b e), getElem?_set_self ho,
        getD_some, toNat_and_mask]
    · rw [getElem?_set_ne (Ne.symm heo), ← h.elem e hold, get_eq hold, getElem_set]
      split
      next hindex =>
        rw [extract_packedValue_ne (shift_le b e) (shift_apart fun hmod => heo ?_)]
        · congr 4
        · rw [← div_add_mod e b.elementsPerBlock, hmod]
          exact (congrArg (b.elementsPerBlock * · + _) hindex.symm).trans (div_add_mod _ _)
      next => rfl

theorem holds_nil (b : BitCount) (hdata : v.data = []) (hsize : v.size = 0)
    (hcrcs : v.dataCrcs = []) : v.Holds b [] := by
  have hzero : (0 + b.elementsPerBlock - 1) / b.elementsPerBlock = 0 :=
    div_eq_of_lt (by rw [zero_add]; exact sub_lt b.per_pos one_pos)
  have hfits : b.Fits 0 := by
    rw [BitCount.Fits, hzero]
    decide
  refine ⟨⟨hsize ▸ hfits, ?_, ?_⟩, hsize, fun e he => ?_⟩
  · rw [hdata, hsize, hfits.bufferSize, hzero]
    rfl
  · rw [hdata, hcrcs]
    rfl
  · rw [hdata] at he
    exact absurd he (not_lt_zero _)

/-! ## Iterators -/

/-- Where a move leads from an offset; `++` is not for an iterator at the end. -/
def Move.target (size offset : Nat) : Move → Option Nat
  | .next => if offset < size then some (offset + 1) else none
  | .add n => some (u64 (offset + n))

/-- The iterator is at the offset, and at its byte if there is an element. -/
structure Iterator.At (b : BitCount) (v : BitVector) (it : Iterator) (o : Nat) : Prop where
  offset : it.offset = o
  index : it.index = BitVector.index b o
  shift : it.shift = BitVector.shift b o
  pos : o < v.size → it.pos = BitVector.index b o

theorem Iterator.move_add (hv : v.Shaped b) (it : Iterator) (n : Nat) :
    ∃ it', it.move b v (.add n) = some it' ∧ it'.At b v (u64 (it.offset + n)) := by
  rw [Iterator.move]
  split
  next hlt =>
    rw [if_pos (hv.index_lt hlt).le]
    exact ⟨_, rfl, rfl, rfl, rfl, fun _ => rfl⟩
  next hge => exact ⟨_, rfl, rfl, rfl, rfl, fun hlt => absurd hlt hge⟩

theorem Iterator.At.move {it : Iterator} {o' : Nat} (hv : v.Shaped b) (h : it.At b v o) {m : Move}
    (hm : m.target v.size o = some o') : ∃ it', it.move b v m = some it' ∧ it'.At b v o' := by
  cases m with
  | add n =>
    cases hm
    exact h.offset ▸ it.move_add hv n
  | next =>
    rw [Move.target] at hm
    split at hm
    next hlt =>
      cases hm
      have hsize := hv.fits.lt
      have hpos := h.pos hlt
      have hlen := hv.index_lt hlt
      rw [Iterator.move, h.offset, u64_of_lt (by omega), h.index]
      split
      next heq => exact ⟨_, rfl, rfl, heq.symm, rfl, fun _ => hpos.trans heq.symm⟩
      next hne =>
        have hnext : BitVector.index b (o + 1) = BitVector.index b o + 1 := by
          rw [BitVector.index, Nat.succ_div, if_pos]
          · rfl
          · by_contra hdvd
            exact hne (by rw [BitVector.index, Nat.succ_div, if_neg hdvd]; rfl)
        rw [if_pos ⟨hnext, hpos ▸ hlen⟩]
        exact ⟨_, rfl, rfl, rfl, rfl, fun _ => by dsimp only; rw [hpos, hnext]⟩
    next => cases hm

theorem walk_spec (hv : v.Shaped b) {moves : List Move}
    (hm : moves.foldlM (Move.target v.size) 0 = some o) :
    ∃ it, v.walk b moves = some it ∧ it.At b v o := by
  obtain ⟨it, hit, hat⟩ := Iterator.move_add hv {} 0
  rw [walk, foldlM_cons, hit]
  show ∃ it', moves.foldlM (Iterator.move b v) it = some it' ∧ _
  change it.At b v 0 at hat
  generalize 0 = start at hm hat
  clear hit
  induction moves generalizing it start with
  | nil =>
    cases hm
    exact ⟨it, rfl, hat⟩
  | cons _ _ ih =>
    rw [foldlM_cons] at hm ⊢
    obtain ⟨o₁, ho₁, hm⟩ := bind_eq_some_iff.1 hm
    obtain ⟨it₁, hit₁, hat₁⟩ := hat.move hv ho₁
    rw [hit₁]
    exact ih it₁ o₁ hm hat₁

end BitVector

/-! ## Histories -/

/-- Vectors and encodings by number. -/
structure Vectors where
  vectors : Nat → BitVector := fun _ => {}
  encodings : Nat → Option Encoded := fun _ => none

/-- A call for the vector `i`.  Encodings are kept under the number `j`. -/
inductive VectorOp where
  | resize (i size : Nat) (new : NewMemory)
  | assign (i offset : Nat) (value : BitVec 8)
  | assignAt (i : Nat) (moves : List BitVector.Move) (value : BitVec 8)
  | clear (i : Nat)
  | encode (i j : Nat)
  | decode (i j : Nat) (new : NewMemory)

section

variable (b : BitCount) (crc32c : Buffer → BitVec 32)

def Vectors.set (s : Vectors) (i : Nat) (v : BitVector) : Vectors :=
  { s with vectors := Function.update s.vectors i v }

/-- An assignment through a reference, which is seen in the encodings that share the byte. -/
def Vectors.write (s : Vectors) (i pos shift : Nat) (value : BitVec 8) : Option Vectors :=
  ((s.vectors i).write b pos shift value).map fun v =>
    { s.set i v with encodings := fun j => (s.encodings j).map fun e =>
        match v.addrs[pos]?, v.data[pos]? with
        | some addr, some byte => e.overwrite addr byte
        | _, _ => e }

def Vectors.step (s : Vectors) : VectorOp → Option Vectors
  | .resize i n new => some (s.set i ((s.vectors i).resize b new n))
  | .assign i offset value =>
    s.write b i (index b offset) (shift b offset) value
  | .assignAt i moves value =>
    ((s.vectors i).walk b moves).bind fun it => s.write b i it.pos it.shift value
  | .clear i => some (s.set i (s.vectors i).clear)
  | .encode i j => ((s.vectors i).encode b crc32c).map fun r =>
    { s.set i r.2 with encodings := Function.update s.encodings j (some r.1) }
  | .decode i j new => (s.encodings j).bind fun e =>
    match (s.vectors i).decode b crc32c new e.bytes with
    | .ok r => some (s.set i r.1)
    | .error _ => none

/-- The vectors, the arrays that they stand for, and of each encoding the array and the bytes that
were written. -/
structure History where
  sys : Vectors := {}
  arrays : Nat → List Nat := fun _ => []
  saved : Nat → Option (List Nat × Buffer) := fun _ => none

/-- What a call means for plain arrays. -/
def History.arraysAfter (h : History) : VectorOp → Nat → List Nat
  | .resize i n _ => Function.update h.arrays i (resizeList (fun _ => 0) n (h.arrays i))
  | .assign i offset value =>
    Function.update h.arrays i ((h.arrays i).set offset (value.toNat % 2 ^ b.bits))
  | .assignAt i moves value =>
    match moves.foldlM (BitVector.Move.target (h.arrays i).length) 0 with
    | some offset =>
      Function.update h.arrays i ((h.arrays i).set offset (value.toNat % 2 ^ b.bits))
    | none => h.arrays
  | .clear i => Function.update h.arrays i []
  | .encode _ _ => h.arrays
  | .decode i j _ =>
    match h.saved j with
    | some r => Function.update h.arrays i r.1
    | none => h.arrays

def History.savedAfter (h : History) (s : Vectors) : VectorOp → Nat → Option (List Nat × Buffer)
  | .encode i j => Function.update h.saved j ((s.encodings j).map fun e => (h.arrays i, e.bytes))
  | _ => h.saved

def History.step (h : History) (op : VectorOp) : Option History :=
  (h.sys.step b crc32c op).map fun s => ⟨s, h.arraysAfter b op, h.savedAfter s op⟩

/-- The call is within the size of an array, and meets the three conditions. -/
def History.Ok (h : History) : VectorOp → Prop
  | .resize i n _ => b.Fits n ∧ ∀ e, n ≤ e →
    index b e < b.bufferSize n → (h.arrays i)[e]?.getD 0 = 0
  | .assign i offset _ => offset < (h.arrays i).length
  | .assignAt i moves _ => ∃ offset < (h.arrays i).length,
    moves.foldlM (BitVector.Move.target (h.arrays i).length) 0 = some offset
  | .clear _ => True
  | .encode _ _ => True
  | .decode _ j _ => ∃ arr e, h.saved j = some (arr, Encoded.bytes e) ∧ h.sys.encodings j = some e

end

variable {b : BitCount} {crc32c : Buffer → BitVec 32} {h : History}

/-- The vectors hold the arrays, and so does what the bytes of an encoding decode to. -/
structure History.Inv (b : BitCount) (crc32c : Buffer → BitVec 32) (h : History) : Prop where
  holds : ∀ i, (h.sys.vectors i).Holds b (h.arrays i)
  saved : ∀ j arr bytes, h.saved j = some (arr, bytes) → ∀ (new : NewMemory) (w : BitVector),
    w.Shaped b → ∃ u, w.decode b crc32c new bytes = .ok (u, []) ∧ u.Holds b arr

theorem History.Inv.init : History.Inv b crc32c {} :=
  ⟨fun _ => holds_nil b rfl rfl rfl, fun _ _ _ hs => by cases hs⟩

/-- One vector and its array are replaced. -/
theorem History.Inv.update (hinv : h.Inv b crc32c) {i : Nat} {v : BitVector} {arr : List Nat}
    (hv : v.Holds b arr) (k : Nat) :
    (Function.update h.sys.vectors i v k).Holds b (Function.update h.arrays i arr k) := by
  by_cases hk : k = i
  · subst hk
    rwa [update_self, update_self]
  · rw [update_of_ne hk, update_of_ne hk]
    exact hinv.holds k

theorem History.Inv.write (hinv : h.Inv b crc32c) {i : Nat} (ho : o < (h.arrays i).length)
    (value : BitVec 8) :
    ∃ s, h.sys.write b i (index b o) (shift b o) value = some s ∧ ∀ k,
      (s.vectors k).Holds b (Function.update h.arrays i
        ((h.arrays i).set o (value.toNat % 2 ^ b.bits)) k) := by
  obtain ⟨w, hw, hholds⟩ := (hinv.holds i).write ho value
  exact ⟨_, by rw [Vectors.write, hw]; rfl, hinv.update hholds⟩

theorem History.step_eq {s : Vectors} {op : VectorOp} (hs : h.sys.step b crc32c op = some s) :
    h.step b crc32c op = some ⟨s, h.arraysAfter b op, h.savedAfter s op⟩ := by
  rw [History.step, hs]
  rfl

/-- A call that meets the conditions succeeds, and keeps the invariant. -/
theorem History.Inv.step (hinv : h.Inv b crc32c) {op : VectorOp} (hok : h.Ok b op) :
    ∃ h', h.step b crc32c op = some h' ∧ h'.Inv b crc32c := by
  cases op with
  | resize i _ new =>
    exact ⟨_, rfl, hinv.update ((hinv.holds i).resize new hok.1 hok.2), hinv.saved⟩
  | assign _ _ value =>
    obtain ⟨s, hs, hholds⟩ := hinv.write hok value
    exact ⟨_, History.step_eq hs, hholds, hinv.saved⟩
  | assignAt i _ value =>
    obtain ⟨o, ho, hm⟩ := hok
    have hi := hinv.holds i
    obtain ⟨it, hit, hat⟩ := walk_spec hi.toShaped (hi.size_eq ▸ hm)
    obtain ⟨s, hs, hholds⟩ := hinv.write ho value
    rw [← hat.shift, ← hat.pos (hi.size_eq ▸ ho)] at hs
    refine ⟨_, History.step_eq (by rw [Vectors.step, hit, bind_some, hs]), ?_, hinv.saved⟩
    rw [History.arraysAfter, hm]
    exact hholds
  | clear => exact ⟨_, rfl, hinv.update (holds_nil b rfl rfl rfl), hinv.saved⟩
  | encode i j =>
    have hi := hinv.holds i
    obtain ⟨e, v', henc, hdata, hsize, hshape, hdec⟩ := hi.toShaped.encode_spec crc32c
    refine ⟨_, History.step_eq (by rw [Vectors.step, henc]; rfl), fun k => ?_, ?_⟩
    · have hk := hinv.update (i := i) (hi.congr hshape hdata hsize) k
      rwa [update_eq_self] at hk
    · intro k arr bytes hs new w hw
      change Function.update h.saved j _ k = _ at hs
      by_cases hk : k = j
      · subst hk
        rw [update_self] at hs
        dsimp only at hs
        rw [update_self] at hs
        cases hs
        obtain ⟨u, hu, hdata, hsize, hshape⟩ := hdec new w hw
        exact ⟨u, hu, hi.congr hshape hdata hsize⟩
      · rw [update_of_ne hk] at hs
        exact hinv.saved k arr bytes hs new w hw
  | decode i j new =>
    obtain ⟨arr, e, hsaved, henc⟩ := hok
    obtain ⟨u, hdec, hu⟩ := hinv.saved j arr _ hsaved new _ (hinv.holds i).toShaped
    refine ⟨_, History.step_eq (by rw [Vectors.step, henc, bind_some, hdec]), ?_, hinv.saved⟩
    rw [History.arraysAfter, hsaved]
    exact hinv.update hu

/-- In every history whose calls meet the conditions, sizes and elements are those of the arrays,
vectors compare equal exactly if the arrays are equal, and no call fails. -/
theorem bitVector_is_array (b : BitCount) (crc32c : Buffer → BitVec 32) {h : History}
    (hrun : Run (History.step b crc32c) (History.Ok b) {} h) :
    (∀ i, (h.sys.vectors i).size = (h.arrays i).length ∧ ∀ e (he : e < (h.arrays i).length),
      ((h.sys.vectors i).get b e).map BitVec.toNat = some ((h.arrays i).get ⟨e, he⟩)) ∧
    (∀ i j, (h.sys.vectors i).beq (h.sys.vectors j) = true ↔ h.arrays i = h.arrays j) ∧
    ∀ op, h.Ok b op → (h.step b crc32c op).isSome := by
  have hinv : h.Inv b crc32c := by
    refine hrun.invariant History.Inv.init fun s op s' hs hok hstep => ?_
    obtain ⟨s'', hstep', hinv⟩ := hs.step hok
    exact some.inj (hstep'.symm.trans hstep) ▸ hinv
  refine ⟨fun i => ⟨(hinv.holds i).size_eq, fun e he => ?_⟩, fun i j =>
    (hinv.holds i).beq_iff (hinv.holds j), fun op hok => ?_⟩
  · have hi := hinv.holds i
    rw [hi.elem e (hi.index_lt (hi.size_eq ▸ he)), getElem?_eq_getElem he]
    rfl
  · obtain ⟨h', hstep, -⟩ := hinv.step hok
    rw [hstep]
    rfl

/-- Two bits an element: an element of one vector is assigned through an iterator, and one of a
vector that was cleared before by its offset. -/
theorem bitVector_is_array_assigned :
    ∃ h, Run (History.step ⟨2, by decide⟩ fun _ => 0) (History.Ok ⟨2, by decide⟩) {} h ∧
      h.arrays 0 = [0, 3, 0] ∧ h.arrays 1 = [0, 3, 0] ∧
      ((h.sys.vectors 1).get ⟨2, by decide⟩ 1).map BitVec.toNat = some 3 ∧
      (h.sys.vectors 0).beq (h.sys.vectors 1) = true := by
  let resize (i : Nat) : VectorOp := .resize i 3 ⟨fun _ => 9, fun _ => 0, id⟩
  have hfits : BitCount.Fits ⟨2, by decide⟩ 3 := by
    rw [BitCount.Fits]
    decide
  have hrun : Run (History.step ⟨2, by decide⟩ fun _ => 0) (History.Ok ⟨2, by decide⟩) {} _ :=
    Run.refl.tail (a := resize 0) ⟨hfits, fun _ _ _ => rfl⟩ rfl
  have hnext := hrun.tail (a := VectorOp.assignAt 0 [.next] 7) ⟨1, by decide, rfl⟩ rfl
  have hfilled := hnext.tail (a := resize 1) ⟨hfits, fun _ _ _ => rfl⟩ rfl
  have hcleared := hfilled.tail (a := VectorOp.clear 1) True.intro rfl
  have hagain := hcleared.tail (a := resize 1) ⟨hfits, fun _ _ _ => rfl⟩ rfl
  have hlast := hagain.tail (a := VectorOp.assign 1 1 3) (by decide : 1 < 3) rfl
  obtain ⟨helems, heq, -⟩ := bitVector_is_array _ _ hlast
  exact ⟨_, hlast, rfl, rfl, (helems 1).2 1 (by decide), (heq 0 1).2 rfl⟩

/-- An element that was cut off inside a byte is back when the vector grows again. -/
theorem resize_keeps_old_bits :
    (([.resize 0 2 ⟨fun _ => 0, fun _ => 0, id⟩, .assign 0 1 1,
      .resize 0 1 ⟨fun _ => 0, fun _ => 0, id⟩, .resize 0 2 ⟨fun _ => 0, fun _ => 0, id⟩].foldlM
        (History.step ⟨1, by decide⟩ fun _ => 0) {}).map fun h =>
          (h.arrays 0, (h.sys.vectors 0).get ⟨1, by decide⟩ 1)) = some ([0, 0], some 1) := by
  decide

end Ceph.Common
