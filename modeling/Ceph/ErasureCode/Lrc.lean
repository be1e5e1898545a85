import Mathlib.Algebra.Order.Group.Nat
import Mathlib.Data.UInt

set_option autoImplicit false

/-!
# Layered erasure codes

`ErasureCodeLrc` (`lrc/ErasureCodeLrc.cc`) stacks codes: the chunks that a layer computes may be
data of the layers after it. An encoding of some chunks only starts at the last layer that has all
of them. The layers before it are left out, and what they would have computed is memory that
nobody wrote.
-/

open List Function Bool

namespace Ceph.ErasureCode

abbrev Chunk := List UInt8

/-- The positions of a letter in the map of a layer, `D` for its data and `c` for its coding
chunks. -/
def positions (letter : Char) (map : List Char) : List Nat :=
  (range map.length).filter fun i => map[i]? == some letter

structure Layer where
  chunksMap : List Char
  /-- What the plugin computes from the data chunks, by number of the coding chunk. The plugins
  compute all of them, whichever are wanted. -/
  encodeChunks : List Chunk → Nat → Chunk

/-- A round of the loop of `encode_chunks`. -/
def encodeLayer (encoded : Nat → Chunk) (layer : Layer) (c : Nat) : Chunk :=
  let coding := positions 'c' layer.chunksMap
  if c ∈ coding then
    layer.encodeChunks ((positions 'D' layer.chunksMap).map encoded) (coding.idxOf c)
  else encoded c

/-- The layer has all the wanted chunks. -/
def includes (want : Finset Nat) (map : List Char) : Bool :=
  decide (∀ c ∈ want, c ∈ positions 'D' map ∨ c ∈ positions 'c' map)

/-- The layer that an encoding starts with: the last one that has all the wanted chunks, or the
first if there is none. -/
def top (maps : List (List Char)) (want : Finset Nat) : Nat :=
  maps.length - 1 - maps.reverse.findIdx (includes want)

def encodeChunks (layers : List Layer) (want : Finset Nat) (encoded : Nat → Chunk) : Nat → Chunk :=
  (layers.drop (top (layers.map Layer.chunksMap) want)).foldl encodeLayer encoded

/-- `encode_prepare`: the input in blocks, padded with zeros, at the data positions of the mapping.
The other chunks are allocated and hold what was in the memory. -/
def encodePrepare (mapping : List Char) (blocksize : Nat) (raw : List UInt8)
    (memory : Nat → Chunk) (c : Nat) : Chunk :=
  let data := positions 'D' mapping
  if c ∈ data then ((raw.drop (data.idxOf c * blocksize)).take blocksize).rightpad blocksize 0
  else memory c

/-- The wanted chunks of an input. -/
def encode (mapping : List Char) (layers : List Layer) (want : Finset Nat) (blocksize : Nat)
    (raw : List UInt8) (memory : Nat → Chunk) (c : Nat) : Option Chunk :=
  if c ∈ want then
    some (encodeChunks layers want (encodePrepare mapping blocksize raw memory) c)
  else none

/-- `parse_kml`: the mapping and the layers that three numbers stand for, if they divide. -/
def parseKml (k m l : Nat) : Option (List Char × List (List Char)) :=
  let groups := (k + m) / l
  let group (c : Char) := replicate (k / groups) 'D' ++ replicate (m / groups) c ++ ['_']
  let localGroup (i j : Nat) := if i = j then replicate l 'D' ++ ['c'] else replicate (l + 1) '_'
  if l = 0 ∨ (k + m) % l ≠ 0 ∨ k % groups ≠ 0 ∨ m % groups ≠ 0 then none
  else some ((replicate groups (group '_')).flatten, (replicate groups (group 'c')).flatten ::
      (range groups).map fun i => (range groups).flatMap (localGroup i))

/-! ## Chunks that depend on the memory or on a layer left out -/

/-- A layer passes on what it reads. If it is left out, all its coding chunks are stale. -/
def taint (out : Bool) (stale : Nat → Bool) (map : List Char) (c : Nat) : Bool :=
  if c ∈ positions 'c' map then out || (positions 'D' map).any stale else stale c

/-- The layers that an encoding of all chunks runs and one of the wanted chunks leaves out. -/
def skipped {α : Type} (mapping : List Char) (maps : List (List Char)) (want : Finset Nat)
    (layers : List α) : List α :=
  (layers.take (top maps want)).drop (top maps (Finset.range mapping.length))

/-- The chunks that may differ in the two encodings. -/
def stale (mapping : List Char) (maps : List (List Char)) (want : Finset Nat) : Nat → Bool :=
  (maps.drop (top maps want)).foldl (taint false) ((skipped mapping maps want maps).foldl
    (taint true) fun c => decide (c ∉ positions 'D' mapping))

section

variable {mapping : List Char} {maps : List (List Char)} {want : Finset Nat} {layers : List Layer}

/-- An encoding of all chunks runs the layers left out and goes on as one of the wanted chunks. -/
theorem encodeChunks_all (hwant : want ⊆ Finset.range mapping.length)
    (hmaps : layers.map Layer.chunksMap = maps) (encoded : Nat → Chunk) :
    encodeChunks layers (Finset.range mapping.length) encoded =
      encodeChunks layers want ((skipped mapping maps want layers).foldl encodeLayer encoded) := by
  have hfirst : maps.reverse.findIdx (includes want) ≤
      maps.reverse.findIdx (includes (Finset.range mapping.length)) :=
    findIdx_le_findIdx fun map _ hmap =>
      decide_eq_true fun c hc => of_decide_eq_true hmap c (hwant hc)
  have hle : top maps (Finset.range mapping.length) ≤ top maps want := by
    unfold top
    omega
  rw [encodeChunks, encodeChunks, skipped, hmaps, drop_take, ← foldl_append,
    ← Nat.add_sub_cancel' hle, ← drop_drop, Nat.add_sub_cancel_left, take_append_drop]

variable {s : Nat → Bool} {e e' : Nat → Chunk} {c : Nat}

theorem foldl_encodeLayer_skipped (h : ∀ c, s c = false → e c = e' c)
    (hc : (layers.map Layer.chunksMap).foldl (taint true) s c = false) :
    e c = layers.foldl encodeLayer e' c := by
  induction layers generalizing s e' with
  | nil => exact h c hc
  | cons layer layers ih =>
    refine ih (fun d hd => ?_) hc
    unfold taint at hd
    split at hd
    next => cases hd
    next hmem => exact (h d hd).trans (if_neg hmem).symm

/-- Encodings that agree but for some chunks agree but for those that are tainted by them. -/
theorem foldl_encodeLayer_congr (h : ∀ c, s c = false → e c = e' c)
    (hc : (layers.map Layer.chunksMap).foldl (taint false) s c = false) :
    layers.foldl encodeLayer e c = layers.foldl encodeLayer e' c := by
  induction layers generalizing s e e' with
  | nil => exact h c hc
  | cons layer layers ih =>
    refine ih (fun d hd => ?_) hc
    unfold taint at hd
    unfold encodeLayer
    split at hd
    next hmem =>
      have hdata : ∀ x ∈ positions 'D' layer.chunksMap, e x = e' x := fun x hx =>
        h x (eq_false_iff.2 (any_eq_false.1 hd x hx))
      rw [if_pos hmem, if_pos hmem, map_congr_left hdata]
    next hmem => rw [if_neg hmem, if_neg hmem, h d hd]

/-! ## Codes that show every stale chunk -/

def bit (b : Bool) : Chunk := if b then [1] else [0]

/-- The coding chunks are set always, or if one of the data chunks is. -/
def testLayer (always : Bool) (map : List Char) : Layer :=
  ⟨map, fun data _ => bit (always || data.any (· == [1]))⟩

theorem foldl_testLayer (out : Bool) (maps : List (List Char)) (s : Nat → Bool) :
    (maps.map (testLayer out)).foldl encodeLayer (fun c => bit (s c)) =
      fun c => bit (maps.foldl (taint out) s c) := by
  induction maps generalizing s with
  | nil => rfl
  | cons map maps ih =>
    have hset : ∀ b, (bit b == [1]) = b := by decide
    have hstep : encodeLayer (fun c => bit (s c)) (testLayer out map) =
        fun c => bit (taint out s map c) := by
      funext c
      by_cases hmem : c ∈ positions 'c' map <;>
        simp [encodeLayer, testLayer, taint, hmem, any_map, comp_def, hset]
    rw [map_cons, foldl_cons, hstep, ih]
    rfl

theorem foldl_taint_false (maps : List (List Char)) :
    maps.foldl (taint false) (fun _ => false) = fun _ => false := by
  refine foldl_fixed' (fun map => ?_) maps
  funext c
  simp [taint]

theorem encodePrepare_bit (b : Bool) :
    encodePrepare mapping 1 [] (fun _ => bit b) =
      fun c => bit (decide (c ∉ positions 'D' mapping) && b) := by
  funext c
  by_cases hmem : c ∈ positions 'D' mapping <;> simp [encodePrepare, hmem, bit]

end

/-- Whatever codes the layers have, an encoding of the wanted chunks gives what one of all chunks
gives just if none of them is stale. -/
theorem encode_agrees_iff (mapping : List Char) (maps : List (List Char)) {want : Finset Nat}
    (hwant : want ⊆ Finset.range mapping.length) :
    (∀ layers : List Layer, layers.map Layer.chunksMap = maps →
      ∀ blocksize raw memory memory', ∀ c ∈ want,
        encode mapping layers want blocksize raw memory c =
          encode mapping layers (Finset.range mapping.length) blocksize raw memory' c) ↔
      ∀ c ∈ want, stale mapping maps want c = false := by
  constructor
  · intro h c hc
    let layers := (maps.take (top maps want)).map (testLayer true) ++
      (maps.drop (top maps want)).map (testLayer false)
    have hmaps : layers.map Layer.chunksMap = maps := by
      simp [layers, testLayer, comp_def]
    have heq := h layers hmaps 1 [] (fun _ => bit false) (fun _ => bit true) c hc
    rw [encode, encode, if_pos hc, if_pos (hwant hc), encodeChunks_all hwant hmaps] at heq
    have hlen : ((maps.take (top maps want)).map (testLayer true)).length = top maps want := by
      rw [length_map, length_take_of_le]
      unfold top
      omega
    have hrun : encodeChunks layers want = fun encoded =>
        ((maps.drop (top maps want)).map (testLayer false)).foldl encodeLayer encoded := by
      funext encoded
      rw [encodeChunks, hmaps, drop_left' hlen]
    have hskip : skipped mapping maps want layers =
        (skipped mapping maps want maps).map (testLayer true) := by
      rw [skipped, take_left' hlen, ← map_drop, skipped]
    rw [hrun, hskip, encodePrepare_bit, encodePrepare_bit, foldl_testLayer] at heq
    simp only [foldl_testLayer, Bool.and_false, Bool.and_true, foldl_taint_false] at heq
    cases hstale : stale mapping maps want c with
    | false => rfl
    | true =>
      rw [stale] at hstale
      rw [hstale] at heq
      cases heq
  · rintro h layers rfl blocksize raw memory memory' c hc
    rw [encode, encode, if_pos hc, if_pos (hwant hc), encodeChunks_all hwant rfl]
    have hstale := h c hc
    rw [stale, ← map_drop] at hstale
    refine congrArg some (foldl_encodeLayer_congr (fun d hd => ?_) hstale)
    rw [skipped, ← map_take, ← map_drop] at hd
    refine foldl_encodeLayer_skipped (fun x hx => ?_) hd
    have hmem : x ∈ positions 'D' mapping := not_not.1 (of_decide_eq_false hx)
    rw [encodePrepare, encodePrepare, if_pos hmem, if_pos hmem]

/-- The first layer is left out if only the chunk of the second is wanted, which needs none of its
chunks. -/
theorem encode_agrees_local :
    let maps := ["DDcDD_".toList, "___DDc".toList]
    top maps {5} = 1 ∧ ∀ layers : List Layer, layers.map Layer.chunksMap = maps →
      ∀ blocksize raw memory memory',
        encode "DD_DD_".toList layers {5} blocksize raw memory 5 =
          encode "DD_DD_".toList layers (Finset.range 6) blocksize raw memory' 5 :=
  ⟨by decide, fun layers hmaps blocksize raw memory memory' =>
    (encode_agrees_iff "DD_DD_".toList _ (by decide)).2 (by decide) layers hmaps blocksize raw
      memory memory' 5 (by decide)⟩

/-- The layers of `k = 4`, `m = 2`, `l = 3`, with codes that add the data chunks up. -/
def kmlLayers : List Layer :=
  ["DDc_DDc_", "DDDc____", "____DDDc"].map fun map =>
    ⟨map.toList, fun data _ => [data.flatten.sum]⟩

/-- The coding chunk of a local layer is computed from a global one that is left out. -/
theorem local_chunk_stale :
    parseKml 4 2 3 = some ("DD__DD__".toList, kmlLayers.map Layer.chunksMap) ∧
      encode "DD__DD__".toList kmlLayers {3} 1 [1, 2, 3, 4] (fun _ => [9]) 3 = some [12] ∧
      encode "DD__DD__".toList kmlLayers (Finset.range 8) 1 [1, 2, 3, 4] (fun _ => [9]) 3 =
        some [13] := by
  decide

end Ceph.ErasureCode
