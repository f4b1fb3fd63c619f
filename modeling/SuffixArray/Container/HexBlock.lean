import SuffixArray.Container.Image

/-!
# Blocks of indices as text of one width

`writeCompSA` gives each index as many digits as the data size has, which are enough
for every index up to it: `setw` pads the shorter ones and never has to let a longer one
through. So an extraction of the same width takes one index from the front of a block,
whatever is behind it.
-/

namespace SuffixArray.Container

open InputStream (Reads extract whileExtract ofBytes)
open InducedSorting (idxBits)

/-- What the loops of `writeCompSA` put out for a sequence of indices. -/
def hexBlock (width : Nat) (indices : List Nat) : List UInt8 :=
  indices.flatMap (HexText.padded width)

theorem hexStrTToIdxT_padded (unset : Unset) (width : Nat) {i : Nat} (h : i < 2 ^ idxBits) :
    hexStrTToIdxT unset (HexText.padded width i) = i := by
  rw [hexStrTToIdxT, HexText.parse_padded width h, Option.getD_some]

theorem maxIdxSize_pos (dataSize : Nat) : 0 < maxIdxSize dataSize := by
  rw [maxIdxSize_eq]
  exact List.length_pos_iff.mpr (HexText.text_ne_nil _)

/-- The number of digits that `dataSize` needs. -/
theorem maxIdxSize_bounds (dataSize : Nat) : dataSize < 16 ^ maxIdxSize dataSize ∧
    (maxIdxSize dataSize = 1 ∨ 16 ^ (maxIdxSize dataSize - 1) ≤ dataSize) := by
  rw [maxIdxSize_eq]
  exact HexText.length_text_bounds dataSize

/-- A 32-bit word has at most eight digits. -/
theorem maxIdxSize_le {dataSize : Nat} (h : dataSize < 2 ^ idxBits) : maxIdxSize dataSize ≤ 8 := by
  have largest : (HexText.text (2 ^ idxBits - 1)).length = 8 := by decide
  rw [maxIdxSize_eq, ← largest]
  exact HexText.length_text_mono (Nat.le_sub_one_of_lt h)

theorem setw_maxIdxSize {dataSize : Nat} (h : dataSize < 2 ^ idxBits) :
    setw (maxIdxSize dataSize) = maxIdxSize dataSize :=
  if_pos (Nat.lt_of_le_of_lt (maxIdxSize_le h) (by decide))

/-- The text of an index fills a field of the announced width. -/
theorem padded_token {dataSize i : Nat} (h : i ≤ dataSize) :
    (HexText.padded (maxIdxSize dataSize) i).length = maxIdxSize dataSize ∧
      ∀ b ∈ HexText.padded (maxIdxSize dataSize) i, InputStream.isSpace b = false := by
  rw [maxIdxSize_eq]
  exact ⟨HexText.length_padded (HexText.length_text_mono h), (HexText.isDigits_padded _ _).visible⟩

theorem foldl_concat (indices : List Nat) :
    indices.foldl (fun row i => row ++ [i]) [] = indices := by
  rw [List.foldl_append_eq_append]
  exact List.flatMap_singleton' indices

theorem foldl_pushHex (unset : Unset) (width : Nat) {indices : List Nat}
    (h : ∀ i ∈ indices, i < 2 ^ idxBits) (SA : List Nat) :
    (indices.map (HexText.padded width)).foldl (pushHex unset) SA = SA ++ indices := by
  induction indices generalizing SA with
  | nil => exact (List.append_nil SA).symm
  | cons i indices ih =>
      obtain ⟨hi, others⟩ := List.forall_mem_cons.mp h
      rw [List.map_cons, List.foldl_cons, ih others, pushHex, hexStrTToIdxT_padded unset width hi,
        List.append_assoc, List.singleton_append]

section Reading

variable {dataSize : Nat} {indices : List Nat} (size : dataSize < 2 ^ idxBits)
  (bounded : ∀ i ∈ indices, i ≤ dataSize) (unset : Unset)

include size

/-- One extraction and what `HexStrTToIdxT` makes of it. -/
theorem reads_hexIndex {i : Nat} (hi : i ≤ dataSize) (hexstr : List UInt8) {σ : Type}
    (push : Nat → List UInt8 → σ) :
    Reads (do
      let hexstr ← extract (setw (maxIdxSize dataSize)) hexstr
      return push (hexStrTToIdxT unset hexstr) hexstr)
      (HexText.padded (maxIdxSize dataSize) i)
      (push i (HexText.padded (maxIdxSize dataSize) i)) := by
  obtain ⟨hlen, visible⟩ := padded_token hi
  have token := Reads.extract hexstr (maxIdxSize_pos dataSize) hlen visible
  have index := hexStrTToIdxT_padded unset (maxIdxSize dataSize) (Nat.lt_of_le_of_lt hi size)
  have reads := token.map fun hexstr => push (hexStrTToIdxT unset hexstr) hexstr
  rw [index] at reads
  rwa [setw_maxIdxSize size]

include bounded

/-- The loop with `hexstr` outside. -/
theorem reads_hexRowL : Reads (readHexRowL unset (maxIdxSize dataSize) indices.length)
    (hexBlock (maxIdxSize dataSize) indices) indices := by
  let push (row : List Nat × List UInt8) (i : Nat) :=
    (row.1 ++ [i], HexText.padded (maxIdxSize dataSize) i)
  have rows : (indices.foldl push ([], [])).1 = indices := by
    have forget : indices.foldl (fun row i => row ++ [i]) [] = (indices.foldl push ([], [])).1 :=
      @List.foldl_hom _ _ _ Prod.fst push _ indices ([], []) (fun _ _ => rfl)
    rw [← forget, foldl_concat]
  have loop := Reads.foldlM (fun i hi (row : List Nat × List UInt8) (_ : Nat) =>
    reads_hexIndex size unset (bounded i hi) row.2 fun i hexstr => (row.1 ++ [i], hexstr))
    (List.range indices.length) ([], []) List.length_range
  have result := loop.map Prod.fst
  rwa [rows] at result

/-- The loop that clears `hexstr` in each iteration. -/
theorem reads_hexRowR : Reads (readHexRowR unset (maxIdxSize dataSize) indices.length)
    (hexBlock (maxIdxSize dataSize) indices) indices := by
  have loop := Reads.foldlM (fun i hi (row : List Nat) (_ : Nat) =>
    reads_hexIndex size unset (bounded i hi) [] fun i _ => row ++ [i])
    (List.range indices.length) [] List.length_range
  rwa [foldl_concat] at loop

/-- The first iterations of the loop in `read` take the block, one index each. -/
theorem whileExtract_hexBlock (SA : List Nat) (hexstr tail : List UInt8) :
    ∃ last, whileExtract (setw (maxIdxSize dataSize)) (pushHex unset) SA hexstr
      (ofBytes (hexBlock (maxIdxSize dataSize) indices ++ tail)) =
        whileExtract (setw (maxIdxSize dataSize)) (pushHex unset) (SA ++ indices) last
          (ofBytes tail) := by
  have tokens : ∀ token ∈ indices.map (HexText.padded (maxIdxSize dataSize)),
      token.length = maxIdxSize dataSize ∧ ∀ b ∈ token, InputStream.isSpace b = false := by
    intro token htoken
    obtain ⟨i, hi, rfl⟩ := List.mem_map.mp htoken
    exact padded_token (bounded i hi)
  have words : ∀ i ∈ indices, i < 2 ^ idxBits :=
    fun i hi => Nat.lt_of_le_of_lt (bounded i hi) size
  obtain ⟨last, rest⟩ := InputStream.whileExtract_tokens (maxIdxSize_pos dataSize) (pushHex unset)
    tokens SA hexstr tail
  rw [foldl_pushHex unset (maxIdxSize dataSize) words] at rest
  rw [setw_maxIdxSize size, hexBlock, List.flatMap_def]
  exact ⟨last, rest⟩

end Reading

/-- A block of indices up to `dataSize`: each takes as many digits as `dataSize` has, and
whatever is behind the block, as many extractions as there are indices find them again. -/
structure SplitsBack (unset : Unset) (dataSize : Nat) (indices : List Nat) : Prop where
  digits : dataSize < 16 ^ maxIdxSize dataSize ∧
    (maxIdxSize dataSize = 1 ∨ 16 ^ (maxIdxSize dataSize - 1) ≤ dataSize)
  width : ∀ i ∈ indices, (HexText.padded (maxIdxSize dataSize) i).length = maxIdxSize dataSize ∧
    HexText.IsDigits (HexText.padded (maxIdxSize dataSize) i)
  written : ∀ (out : List UInt8) (lcpL lcpR : List (List Nat)), lcpL.length ≤ lcpR.length →
    lcpL.length < 2 ^ idxBits → writeCompSA out indices dataSize lcpL lcpR =
      .ok (out ++ (bytesOfIdxT (maxIdxSize dataSize) ++ (hexBlock (maxIdxSize dataSize) indices ++
        (bytesOfBool (lcpL.length != 0) ++ rowsImage (fun row =>
          bytesOfIdxT (row.length % 2 ^ idxBits) ++ hexBlock (maxIdxSize dataSize) row)
            (lcpL.zip lcpR)))))
  rowL : Reads (readHexRowL unset (maxIdxSize dataSize) indices.length)
    (hexBlock (maxIdxSize dataSize) indices) indices
  rowR : Reads (readHexRowR unset (maxIdxSize dataSize) indices.length)
    (hexBlock (maxIdxSize dataSize) indices) indices
  loop : ∀ (SA : List Nat) (hexstr tail : List UInt8), ∃ last,
    whileExtract (setw (maxIdxSize dataSize)) (pushHex unset) SA hexstr
      (ofBytes (hexBlock (maxIdxSize dataSize) indices ++ tail)) =
        whileExtract (setw (maxIdxSize dataSize)) (pushHex unset) (SA ++ indices) last
          (ofBytes tail)

/-- The block that `writeCompSA` writes splits back into the indices, for every data size. -/
theorem hexBlock_splitsBack {dataSize : Nat} (size : dataSize < 2 ^ idxBits) {indices : List Nat}
    (bounded : ∀ i ∈ indices, i ≤ dataSize) (unset : Unset) :
    SplitsBack unset dataSize indices where
  digits := maxIdxSize_bounds dataSize
  width i hi := ⟨(padded_token (bounded i hi)).1, HexText.isDigits_padded _ _⟩
  written out _ _ rows fits := writeCompSA_eq rows fits out indices dataSize
  rowL := reads_hexRowL size bounded unset
  rowR := reads_hexRowR size bounded unset
  loop := whileExtract_hexBlock size bounded unset

theorem hexBlock_splitsBack_sixteen : SplitsBack
    { cmpr := false, dataSize := 0, maxIdxSize := 0, useLcp := false, s := 0, idx := 0 }
    16 [16, 0, 10] :=
  hexBlock_splitsBack (by decide) (by decide) _

end SuffixArray.Container
