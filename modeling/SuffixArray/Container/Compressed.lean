import SuffixArray.Container.HexBlock

/-!
# The compressed container never comes back as it was written

The suffix array is read by `while(strm_in >> setw(max_idx_size) >> hexstr)`. That
loop ends with the stream, not with the suffix array: the flag that `writeCompSA`
puts behind the last index is no white space, so it is extracted as one more index,
and whatever else the file holds goes the same way. The indices themselves are
decoded correctly, in front of what does not belong to them.
-/

namespace SuffixArray.Container

open Checked
open InputStream (whileExtract ofBytes)
open InducedSorting (idxBits)

/-- No index and no row entry lies behind the end of the data. -/
structure Contents.Bounded (c : Contents) : Prop where
  SA : ∀ i ∈ c.SA, i ≤ c.data.length
  rows : ∀ row ∈ c.lcpL ++ c.lcpR, ∀ i ∈ row, i ≤ c.data.length

/-- The loop never takes an index back. -/
theorem whileExtract_pushHex (unset : Unset) (width : Nat) (SA : List Nat) (str : List UInt8)
    (strm : InputStream) :
    ∃ extra, (whileExtract width (pushHex unset) SA str strm).1 = SA ++ extra := by
  apply InputStream.whileExtract_inv (fun result => ∃ extra, result = SA ++ extra)
  · rintro acc token ⟨extra, rfl⟩
    exact ⟨_, List.append_assoc ..⟩
  · exact ⟨[], (List.append_nil SA).symm⟩

/-- The loop over the suffix array, with the flag behind it: every index, then at
least one that is none. -/
theorem readSA_compressed {c : Contents} (h : c.Shaped) (bounded : c.Bounded) (unset : Unset)
    (flag : Bool) (tail : List UInt8) :
    ∃ extra, extra ≠ [] ∧ (whileExtract (width c) (pushHex unset) [] []
      (ofBytes (c.SA.flatMap (HexText.padded (width c)) ++ (bytesOfBool flag ++ tail)))).1 =
        c.SA ++ extra := by
  have size := h.data_lt
  obtain ⟨last, indices⟩ :=
    whileExtract_hexBlock size bounded.SA unset [] [] (bytesOfBool flag ++ tail)
  rw [setw_maxIdxSize size, ← width_eq, hexBlock, List.nil_append] at indices
  obtain ⟨b, hb, visible⟩ : ∃ b, bytesOfBool flag = [b] ∧ InputStream.isSpace b = false := by
    cases flag with
    | false => exact ⟨0, rfl, rfl⟩
    | true => exact ⟨1, rfl, rfl⟩
  have extracted := InputStream.extract_visible (width c) last tail visible
  obtain ⟨more, hmore⟩ := whileExtract_pushHex unset (width c)
    (pushHex unset c.SA (InputStream.extract (width c) last (ofBytes (b :: tail))).1)
    (InputStream.extract (width c) last (ofBytes (b :: tail))).1
    (InputStream.extract (width c) last (ofBytes (b :: tail))).2
  refine ⟨hexStrTToIdxT unset (InputStream.extract (width c) last (ofBytes (b :: tail))).1 ::
    more, List.cons_ne_nil _ _, ?_⟩
  rw [indices, hb, List.singleton_append, InputStream.whileExtract_of_extracted extracted, hmore,
    pushHex, List.append_assoc, List.singleton_append]

/-- The suffix array that `read` delivers is the one its loop delivers. -/
theorem readOpened_compressed_SA {c : Contents} (h : c.Shaped) (unset : Unset) (tail : List UInt8) :
    (readOpened unset fresh (ofBytes (bytesOfBool true ++ (bytesOfIdxT c.data.length ++
      (c.data ++ (bytesOfIdxT (width c) ++ tail)))))).1.SA =
        (whileExtract (width c) (pushHex unset) [] [] (ofBytes tail)).1 := by
  have size := h.data_lt
  have digits : maxIdxSize c.data.length < 2 ^ idxBits :=
    Nat.lt_of_le_of_lt (maxIdxSize_le size) (by decide)
  rw [readOpened, run_header h true unset fresh.data, if_pos rfl, width_eq,
    (reads_idxT unset.maxIdxSize digits).run, setw_maxIdxSize size]
  rfl

/-- The compressed form never survives the round trip. For all contents, what comes
back as the suffix array is the suffix array with something behind it. -/
theorem compressed_never_roundTrips {c : Contents} (h : c.Shaped) (bounded : c.Bounded)
    (unset : Unset) :
    (∃ image extra, write c true = .ok image ∧ extra ≠ [] ∧
      (read unset (some image) fresh).2.1.SA = c.SA ++ extra) ∧
    ¬ RoundTrips true unset c := by
  obtain ⟨extra, hne, hSA⟩ := readSA_compressed h bounded unset (c.lcpL.length != 0)
    (rowsImage (writeCompRow (width c)) c.pairs)
  have image := write_compressed_eq h
  have result := readOpened_compressed_SA h unset (c.SA.flatMap (HexText.padded (width c)) ++
    (bytesOfBool (c.lcpL.length != 0) ++ rowsImage (writeCompRow (width c)) c.pairs))
  refine ⟨⟨_, extra, image, hne, result.trans hSA⟩, ?_⟩
  rintro ⟨other, hother, -, same⟩
  obtain rfl : _ = other := Except.ok.inj (image.symm.trans hother)
  have longer : c.SA = c.SA ++ extra := by
    calc c.SA = _ := (congrArg Contents.SA same).symm
      _ = c.SA ++ extra := result.trans hSA
  exact hne (List.self_eq_append_right.mp longer)

/-- `ab` with its suffix array and no tables. -/
def ab : Contents := { data := [97, 98], SA := [2, 0, 1], lcpL := [], lcpR := [] }

def abUnset : Unset :=
  { cmpr := false, dataSize := 0, maxIdxSize := 0, useLcp := false, s := 0, idx := 0 }

theorem ab_fits : ab.Fits where
  size := by decide
  entries := rfl
  words := by decide
  tables := Or.inl ⟨rfl, rfl⟩
  rowSizes := by decide
  rowWords := by decide

theorem compressed_never_roundTrips_ab :
    (∃ image extra, write ab true = .ok image ∧ extra ≠ [] ∧
      (read abUnset (some image) fresh).2.1.SA = ab.SA ++ extra) ∧ ¬ RoundTrips true abUnset ab :=
  compressed_never_roundTrips ab_fits.toShaped ⟨by decide, by decide⟩ abUnset

/-- The flag comes back as a fourth suffix of `ab`. -/
theorem compressed_ab_gains_suffix :
    write ab true = .ok [1, 2, 0, 0, 0, 97, 98, 1, 0, 0, 0, 50, 48, 49, 0] ∧
    (read abUnset (some [1, 2, 0, 0, 0, 97, 98, 1, 0, 0, 0, 50, 48, 49, 0]) fresh).2.1.SA =
      [2, 0, 1, 0] ∧
    ¬ RoundTrips true abUnset ab := by
  have image : write ab true = .ok [1, 2, 0, 0, 0, 97, 98, 1, 0, 0, 0, 50, 48, 49, 0] := by
    decide +kernel
  have SA : (read abUnset (some [1, 2, 0, 0, 0, 97, 98, 1, 0, 0, 0, 50, 48, 49, 0]) fresh).2.1.SA =
      [2, 0, 1, 0] := by
    decide +kernel
  refine ⟨image, SA, ?_⟩
  rintro ⟨other, hother, -, same⟩
  obtain rfl := Except.ok.inj (image.symm.trans hother)
  rw [same] at SA
  exact absurd SA (by decide)

end SuffixArray.Container
