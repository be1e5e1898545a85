import Mathlib.Tactic.IntervalCases
import Mathlib.Data.List.Range
import Ceph.Lib.Text

set_option autoImplicit false

/-!
# Object names (common/hobject.h, common/hobject.cc)

`hobject_t::to_str` prints an object as one text: pool, hash with its nibbles
reversed, snap, and the escaped name, key and namespace, separated by dots.  The
text determines the object, and the hash part starts with one of the prefixes of
`hobject_t::get_prefixes` iff the object matches the bits they were made for.
-/

namespace Ceph.Common

open Ceph.Lib List Nat

/-- `hobject_t`, apart from the maximum object, which has no text. -/
@[ext] structure HObject where
  name : List Char
  key : List Char
  snap : Nat
  hash : Nat
  pool : Int64
  nspace : List Char
  snap_lt : snap < 2 ^ 64
  hash_lt : hash < 2 ^ 32
  deriving DecidableEq

def cephSnapdir : Nat := 2 ^ 64 - 1

def cephNosnap : Nat := 2 ^ 64 - 2

/-! ## The text of an object -/

def escapeChar (c : Char) : List Char :=
  if c = '%' then ['%', 'p']
  else if c = '.' then ['%', 'e']
  else if c = '_' then ['%', 'u']
  else [c]

/-- `append_escaped`. -/
def appendEscaped (s : List Char) : List Char := s.flatMap escapeChar

/-- `reverse_nibbles`; no shift leaves the 32 bits. -/
def reverseNibbles (v : Nat) : Nat :=
  let v := ((v &&& 0x0f0f0f0f) <<< 4) ||| ((v &&& 0xf0f0f0f0) >>> 4)
  let v := ((v &&& 0x00ff00ff) <<< 8) ||| ((v &&& 0xff00ff00) >>> 8)
  ((v &&& 0x0000ffff) <<< 16) ||| ((v &&& 0xffff0000) >>> 16)

def snapText (snap : Nat) : List Char :=
  if snap = cephNosnap then ['h', 'e', 'a', 'd']
  else if snap = cephSnapdir then ['s', 'n', 'a', 'p', 'd', 'i', 'r']
  else plainHex false 16 snap

/-- The pool as `%.*llX` with sixteen digits. -/
def poolText (pool : Int64) : List Char := fixedHex true 16 pool.toUInt64.toNat

/-- `hobject_t::to_str`. -/
def HObject.toStr (o : HObject) : List Char :=
  poolText o.pool ++ '.' :: (fixedHex true 8 (reverseNibbles o.hash) ++
    '.' :: (snapText o.snap ++ '.' :: (appendEscaped o.name ++
      '.' :: (appendEscaped o.key ++ '.' :: appendEscaped o.nspace))))

/-! ## Matching and prefixes -/

/-- `match_hash`, for fewer than 32 bits; the shift of the source is undefined
for 32. -/
def matchHash (toCheck bits mask : Nat) : Bool := mask % 2 ^ bits == toCheck % 2 ^ bits

/-- The bits rounded up to whole nibbles. -/
def nibbleLen (bits : Nat) : Nat := if bits % 4 = 0 then bits else bits + (4 - bits % 4)

/-- The loop that fills up the bits of the last nibble in every way. -/
def fillBits (bits : Nat) : Nat → List Nat → List Nat
  | 0, vs => vs
  | n + 1, vs => fillBits (bits + 1) n (vs.flatMap fun j => [j ||| (1 <<< bits), j])

/-- The hash values of `get_prefixes`. -/
def prefixHashes (bits mask : Nat) : List Nat :=
  fillBits bits (nibbleLen bits - bits) [mask % 2 ^ bits]

/-- `hobject_t::get_prefixes`, before they are put into a set. -/
def getPrefixes (bits mask : Nat) (pool : Int64) : List (List Char) :=
  (prefixHashes bits mask).map fun v =>
    poolText pool ++ '.' :: (fixedHex true 8 (reverseNibbles v)).take (nibbleLen bits / 4)

/-! ## Reversed nibbles -/

theorem testBit_mask {m : Nat} {p : Nat → Bool} (hm : m < 2 ^ 32)
    (h : ∀ k < 32, m.testBit k = p k) (k : Nat) : m.testBit k = (decide (k < 32) && p k) := by
  obtain hk | hk := lt_or_ge k 32
  · simp [h k hk, hk]
  · have hlt : m < 2 ^ k := hm.trans_le (Nat.pow_le_pow_right (by omega) hk)
    simp [testBit_lt_two_pow hlt, not_lt.2 hk]

/-- One round of `reverse_nibbles` exchanges neighbouring blocks of `n` bits. -/
theorem testBit_swapBlocks {lo hi n v : Nat} (hlo : lo < 2 ^ 32) (hhi : hi < 2 ^ 32)
    (hn : n = 4 ∨ n = 8 ∨ n = 16) (hl : ∀ k < 32, lo.testBit k = decide (k / n % 2 = 0))
    (hh : ∀ k < 32, hi.testBit k = decide (k / n % 2 = 1)) {k : Nat} (hk : k < 32) :
    (((v &&& lo) <<< n) ||| ((v &&& hi) >>> n)).testBit k =
      v.testBit (if k / n % 2 = 0 then k + n else k - n) := by
  simp only [testBit_or, testBit_and, testBit_shiftLeft, testBit_shiftRight,
    testBit_mask hlo hl, testBit_mask hhi hh]
  all_goals
    split
    · grind
    · grind

theorem testBit_reverseNibbles (v : Nat) {k : Nat} (hk : k < 32) :
    (reverseNibbles v).testBit k = v.testBit (28 - k / 4 * 4 + k % 4) := by
  unfold reverseNibbles
  rw [testBit_swapBlocks (by decide) (by decide) (by decide) (by decide) (by decide) hk,
    testBit_swapBlocks (by decide) (by decide) (by decide) (by decide) (by decide)
      (by split <;> omega),
    testBit_swapBlocks (by decide) (by decide) (by decide) (by decide) (by decide)
      (by split <;> split <;> omega)]
  congr 1
  interval_cases k <;> rfl

theorem testBit_nibble (v j i : Nat) :
    (v / 16 ^ j % 16).testBit i = (decide (i < 4) && v.testBit (4 * j + i)) := by
  rw [show (16 : Nat) = 2 ^ 4 from rfl, ← pow_mul, testBit_mod_two_pow,
    testBit_div_two_pow, add_comm]

theorem nibble_reverseNibbles (v : Nat) {j : Nat} (hj : j < 8) :
    reverseNibbles v / 16 ^ j % 16 = v / 16 ^ (7 - j) % 16 := by
  refine eq_of_testBit_eq fun i => ?_
  rw [testBit_nibble, testBit_nibble]
  cases lt_or_ge i 4 with
  | inr hi => simp [not_lt.2 hi]
  | inl =>
    rw [testBit_reverseNibbles v (by omega)]
    congr 2
    omega

/-- The hash part of the text: the nibbles of the hash, the lowest first. -/
def nibbleText (n v : Nat) : List Char :=
  (List.range n).map fun i => hexDigit true (v / 16 ^ i % 16)

theorem fixedHex_reverseNibbles (v : Nat) :
    fixedHex true 8 (reverseNibbles v) = nibbleText 8 v := by
  simp only [fixedHex, nibbleText, nibble_reverseNibbles v (by omega : 7 < 8),
    nibble_reverseNibbles v (by omega : 6 < 8), nibble_reverseNibbles v (by omega : 5 < 8),
    nibble_reverseNibbles v (by omega : 4 < 8), nibble_reverseNibbles v (by omega : 3 < 8),
    nibble_reverseNibbles v (by omega : 2 < 8), nibble_reverseNibbles v (by omega : 1 < 8),
    nibble_reverseNibbles v (by omega : 0 < 8)]
  rfl

theorem take_nibbleText (v : Nat) {n : Nat} (hn : n ≤ 8) :
    (nibbleText 8 v).take n = nibbleText n v := by
  rw [nibbleText, ← map_take, take_range, min_eq_left hn, nibbleText]

@[simp] theorem length_nibbleText (n v : Nat) : (nibbleText n v).length = n := by
  rw [nibbleText, length_map, length_range]

/-- The first nibbles are those of the value modulo their power. -/
theorem nibbleText_inj (n a b : Nat) :
    nibbleText n a = nibbleText n b ↔ a % 16 ^ n = b % 16 ^ n := by
  induction n with
  | zero => simp [nibbleText, mod_one]
  | succ n ih =>
    have hlt : ∀ v, v % 16 ^ n < 16 ^ n := fun v => Nat.mod_lt _ (Nat.pow_pos (by omega))
    have hsnoc : ∀ v, nibbleText (n + 1) v =
        nibbleText n v ++ [hexDigit true (v / 16 ^ n % 16)] := by
      intro v
      rw [nibbleText, range_succ, map_append]
      rfl
    rw [hsnoc, hsnoc, append_singleton_inj, ih, hexDigit_inj (mod_lt _ (by omega))
      (mod_lt _ (by omega)), mod_pow_lead, mod_pow_lead, mul_add_inj (hlt a) (hlt b), and_comm]

/-! ## Injectivity of the text -/

/-- Undo the escaping. -/
def unescape : List Char → List Char
  | '%' :: 'p' :: rest => '%' :: unescape rest
  | '%' :: 'e' :: rest => '.' :: unescape rest
  | '%' :: 'u' :: rest => '_' :: unescape rest
  | c :: rest => c :: unescape rest
  | [] => []

theorem unescape_appendEscaped (s : List Char) : unescape (appendEscaped s) = s := by
  induction s with
  | nil => rfl
  | cons _ _ ih =>
    rw [appendEscaped, flatMap_cons, ← appendEscaped, escapeChar]
    split
    next hc => rw [hc]; exact congrArg _ ih
    next hc =>
      split
      next hc' => rw [hc']; exact congrArg _ ih
      next hc' =>
        split
        next hc'' => rw [hc'']; exact congrArg _ ih
        next hc'' =>
          rw [singleton_append, unescape, ih]
          all_goals
            intro _ heq
            exact absurd heq hc

theorem appendEscaped_injective : Function.Injective appendEscaped :=
  Function.LeftInverse.injective unescape_appendEscaped

theorem notMem_appendEscaped {c : Char} (hc : c = '.' ∨ c = '_') (s : List Char) :
    c ∉ appendEscaped s := by
  intro h
  obtain ⟨_, _, hd⟩ := mem_flatMap.1 h
  rw [escapeChar] at hd
  split_ifs at hd with hpercent hdot hunder
  iterate 3 obtain rfl | rfl := hc <;> simp at hd
  obtain rfl := mem_singleton.1 hd
  exact hc.elim hdot hunder

theorem dot_ne_hexDigit : ∀ (upper : Bool) (d : Fin 16), hexDigit upper d.val ≠ '.' := by
  decide

theorem dot_notMem_fixedHex (upper : Bool) (w n : Nat) : '.' ∉ fixedHex upper w n := by
  intro h
  obtain ⟨d, hd, heq⟩ := mem_fixedHex h
  exact dot_ne_hexDigit upper ⟨d, hd⟩ heq.symm

theorem dot_notMem_snapText (snap : Nat) : '.' ∉ snapText snap := by
  rw [snapText]
  split
  · decide
  · split
    · decide
    · exact notMem_plainHex (dot_ne_hexDigit false)

/-- The texts for head and snapdir have letters that are no digits. -/
theorem snapText_inj {s t : Nat} (hs : s < 2 ^ 64) (ht : t < 2 ^ 64)
    (h : snapText s = snapText t) : s = t := by
  have hhead : ∀ n, 'h' ∉ plainHex false 16 n := fun n => notMem_plainHex (by decide)
  have hdir : ∀ n, 's' ∉ plainHex false 16 n := fun n => notMem_plainHex (by decide)
  have hpow : (2 : Nat) ^ 64 = 16 ^ 16 := rfl
  rw [snapText, snapText] at h
  split at h
  next hs' =>
    split at h
    next ht' => rw [hs', ht']
    next =>
      split at h
      · exact absurd h (by decide)
      · exact absurd (h ▸ mem_cons_self) (hhead t)
  next =>
    split at h
    next hs' =>
      split at h
      next => exact absurd h (by decide)
      next =>
        split at h
        next ht' => rw [hs', ht']
        next => exact absurd (h ▸ mem_cons_self) (hdir t)
    next =>
      split at h
      next => exact absurd (h ▸ mem_cons_self) (hhead s)
      next =>
        split at h
        next => exact absurd (h ▸ mem_cons_self) (hdir s)
        next => exact plainHex_inj (hpow ▸ hs) (hpow ▸ ht) h

theorem reverseNibbles_injOn {a b : Nat} (ha : a < 2 ^ 32) (hb : b < 2 ^ 32)
    (h : fixedHex true 8 (reverseNibbles a) = fixedHex true 8 (reverseNibbles b)) : a = b := by
  rw [fixedHex_reverseNibbles, fixedHex_reverseNibbles, nibbleText_inj,
    show (16 : Nat) ^ 8 = 2 ^ 32 from rfl] at h
  rwa [mod_eq_of_lt ha, mod_eq_of_lt hb] at h

theorem poolText_injective : Function.Injective poolText := by
  intro p q h
  have hlt : ∀ r : Int64, r.toUInt64.toNat < 16 ^ 16 := fun r => UInt64.toNat_lt _
  have hu : p.toUInt64 = q.toUInt64 := UInt64.toNat.inj ((fixedHex_inj (hlt p) (hlt q)).1 h)
  exact congrArg Int64.ofUInt64 hu

/-- The text determines the object. -/
theorem toStr_injective : Function.Injective HObject.toStr := by
  intro a b h
  have hdot : ∀ s, '.' ∉ appendEscaped s := notMem_appendEscaped (.inl rfl)
  obtain ⟨hpool, h⟩ := separator_inj (dot_notMem_fixedHex _ _ _) (dot_notMem_fixedHex _ _ _) h
  obtain ⟨hhash, h⟩ := separator_inj (dot_notMem_fixedHex _ _ _) (dot_notMem_fixedHex _ _ _) h
  obtain ⟨hsnap, h⟩ := separator_inj (dot_notMem_snapText _) (dot_notMem_snapText _) h
  obtain ⟨hname, h⟩ := separator_inj (hdot _) (hdot _) h
  obtain ⟨hkey, hns⟩ := separator_inj (hdot _) (hdot _) h
  exact HObject.ext (appendEscaped_injective hname) (appendEscaped_injective hkey)
    (snapText_inj a.snap_lt b.snap_lt hsnap) (reverseNibbles_injOn a.hash_lt b.hash_lt hhash)
    (poolText_injective hpool) (appendEscaped_injective hns)

/-! ## Prefixes -/

theorem nibbleLen_spec (bits : Nat) : bits ≤ nibbleLen bits ∧ nibbleLen bits % 4 = 0 ∧
    nibbleLen bits < bits + 4 := by
  rw [nibbleLen]
  split
  · omega
  · omega

variable {bits : Nat}

/-- The values with one more bit, set and not set. -/
theorem mem_fillBits_step {vs : List Nat} (hvs : ∀ v ∈ vs, v < 2 ^ bits) (w : Nat) :
    w ∈ (vs.flatMap fun j => [j ||| (1 <<< bits), j]) ↔
      w < 2 ^ (bits + 1) ∧ w % 2 ^ bits ∈ vs := by
  have hor : ∀ j, j < 2 ^ bits → j ||| (1 <<< bits) = 2 ^ bits + j := by
    intro j hj
    rw [Nat.or_comm, ← Nat.shiftLeft_add_eq_or_of_lt hj, Nat.one_shiftLeft]
  simp only [mem_flatMap, mem_cons, not_mem_nil, or_false]
  constructor
  · rintro ⟨j, hj, rfl | rfl⟩
    · have hlt := hvs j hj
      rw [hor j hlt, add_mod_left, mod_eq_of_lt hlt]
      exact ⟨by omega, hj⟩
    · have hlt := hvs w hj
      rw [mod_eq_of_lt hlt]
      exact ⟨by omega, hj⟩
  · rintro ⟨_, hmem⟩
    refine ⟨w % 2 ^ bits, hmem, ?_⟩
    obtain hlt | hge := lt_or_ge w (2 ^ bits)
    · exact .inr (mod_eq_of_lt hlt).symm
    · refine .inl ?_
      rw [hor _ (hvs _ hmem), mod_eq_sub_mod hge, mod_eq_of_lt (by omega)]
      omega

theorem mem_fillBits (n bits : Nat) (vs : List Nat) (hvs : ∀ v ∈ vs, v < 2 ^ bits) (w : Nat) :
    w ∈ fillBits bits n vs ↔ w < 2 ^ (bits + n) ∧ w % 2 ^ bits ∈ vs := by
  induction n generalizing bits vs with
  | zero =>
    constructor
    · intro hw
      have hlt := hvs w hw
      exact ⟨hlt, by rwa [mod_eq_of_lt hlt]⟩
    · rintro ⟨hlt, hw⟩
      rw [add_zero] at hlt
      rwa [mod_eq_of_lt hlt] at hw
  | succ n ih =>
    have hstep := mem_fillBits_step hvs
    rw [fillBits, ih (bits + 1) _ fun v hv => ((hstep v).1 hv).1, hstep,
      mod_mod_of_dvd _ (pow_dvd_pow 2 (le_succ bits)),
      show bits + 1 + n = bits + (n + 1) by omega]
    have hlt : w % 2 ^ (bits + 1) < 2 ^ (bits + 1) := mod_lt _ (Nat.two_pow_pos _)
    exact and_congr_right fun _ => ⟨fun h => h.2, fun h => ⟨hlt, h⟩⟩

theorem mem_prefixHashes (bits mask w : Nat) : w ∈ prefixHashes bits mask ↔
    w < 2 ^ nibbleLen bits ∧ w % 2 ^ bits = mask % 2 ^ bits := by
  have hlen := (nibbleLen_spec bits).1
  rw [prefixHashes, mem_fillBits, mem_singleton, show bits + (nibbleLen bits - bits) =
    nibbleLen bits by omega]
  intro _ hv
  rw [mem_singleton.1 hv]
  exact mod_lt _ (Nat.two_pow_pos _)

/-- The part of the text that a prefix is compared with. -/
def prefixText (bits : Nat) (pool : Int64) (v : Nat) : List Char :=
  poolText pool ++ '.' :: nibbleText (nibbleLen bits / 4) v

theorem getPrefixes_eq (hbits : bits < 32) (mask : Nat) (pool : Int64) :
    getPrefixes bits mask pool = (prefixHashes bits mask).map (prefixText bits pool) := by
  have hlen := nibbleLen_spec bits
  refine map_congr_left fun v _ => ?_
  rw [prefixText, fixedHex_reverseNibbles, take_nibbleText v (by omega)]

theorem pow_nibbleLen (bits : Nat) : 16 ^ (nibbleLen bits / 4) = 2 ^ nibbleLen bits := by
  have hlen := (nibbleLen_spec bits).2.1
  rw [show (16 : Nat) = 2 ^ 4 from rfl, ← pow_mul, show 4 * (nibbleLen bits / 4) =
    nibbleLen bits by omega]

/-- The text of an object starts with the prefix of the low bits of its hash. -/
theorem prefixText_prefix_toStr (hbits : bits < 32) (o : HObject) (v : Nat) :
    prefixText bits o.pool v <+: o.toStr ↔
      v % 2 ^ nibbleLen bits = o.hash % 2 ^ nibbleLen bits := by
  have hlen := nibbleLen_spec bits
  rw [prefixText, HObject.toStr, prefix_append_right_inj, cons_prefix_cons,
    fixedHex_reverseNibbles, ← pow_nibbleLen, ← nibbleText_inj]
  have hle : nibbleLen bits / 4 ≤ 8 := by omega
  have htake := take_nibbleText o.hash hle
  constructor
  · rintro ⟨_, hp⟩
    rw [prefix_iff_eq_take, length_nibbleText, take_append_of_le_length
      (by rw [length_nibbleText]; exact hle), htake] at hp
    exact hp
  · intro h
    refine ⟨rfl, ?_⟩
    rw [h, ← htake]
    exact take_prefix _ _ |>.trans (prefix_append _ _)

/-- An object of the pool matches the bits iff its text starts with one of the
prefixes, that of the low bits of its hash. -/
theorem mem_of_matchHash {hash bits mask : Nat} (h : matchHash hash bits mask = true) :
    hash % 2 ^ nibbleLen bits ∈ prefixHashes bits mask := by
  rw [matchHash, beq_iff_eq] at h
  rw [mem_prefixHashes, mod_mod_of_dvd _ (pow_dvd_pow 2 (nibbleLen_spec bits).1)]
  exact ⟨mod_lt _ (Nat.two_pow_pos _), h.symm⟩

end Ceph.Common
