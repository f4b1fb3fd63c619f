import SuffixArray.Container.Compressed

/-!
# A compressed file without tables

Nothing is behind the flag of such a file, so the flag is the only byte that is read as an
index. It is no digit, so the index is 0. The flag itself is then found missing, and the
local that it was to be read into keeps what it happens to hold.
-/

namespace SuffixArray.Container

open InputStream (whileExtract extract ofBytes)
open InducedSorting (idxBits)

theorem run_bind {α β : Type} (m : Reading α) (f : α → Reading β) (strm : InputStream) :
    (m >>= f) strm = f (m strm).1 (m strm).2 := rfl

/-- The flag is extracted whatever the width. -/
theorem extract_flag (width : Nat) (str : List UInt8) :
    extract width str (ofBytes [0]) =
      ([0], { rest := [], eof := 1 != width, failed := false }) := by
  have alone : InputStream.field width [0] = [0] := by
    cases width with
    | zero => rfl
    | succ width => rw [InputStream.field, if_neg (Nat.succ_ne_zero width), List.take_succ_cons,
        List.take_nil]; rfl
  change (InputStream.field width [0], _) = _
  rw [alone]
  rfl

theorem whileExtract_flag (unset : Unset) (width : Nat) (SA : List Nat) (str : List UInt8) :
    whileExtract width (pushHex unset) SA str (ofBytes [0]) =
      (SA ++ [0], (whileExtract width (pushHex unset) SA str (ofBytes [0])).2) := by
  have index : hexStrTToIdxT unset [0] = 0 := rfl
  have stop : (extract width [0] { rest := [], eof := 1 != width, failed := false }).2.failed =
      true := by
    rw [extract]
    split <;> rfl
  refine Prod.ext ?_ rfl
  rw [InputStream.whileExtract_of_extracted (by rw [extract_flag]), extract_flag, pushHex, index,
    whileExtract, if_pos stop]

/-- On a stream that has failed there are no tables if the flag happens to be unset. -/
theorem readLcpLr_failed {unset : Unset} (unread : unset.useLcp = false) {strm : InputStream}
    (failed : strm.failed = true) (cmpr : Bool) (dataSize maxIdxSize : Nat) :
    (readLcpLr unset [] [] cmpr dataSize maxIdxSize strm).1 = ([], []) := by
  have broken : strm.good = false := by
    rw [InputStream.good, failed, Bool.not_true, Bool.and_false]
  have flag : (readBool unset.useLcp strm).1 = false := by
    change ((InputStream.read (bytesOfBool unset.useLcp) strm).1 != [0]) = false
    rw [InputStream.read, broken, unread]
    rfl
  change ((if (readBool unset.useLcp strm).1 = true then _ else
    pure ([], []) : Reading (List (List Nat) × List (List Nat)))
    (readBool unset.useLcp strm).2).1 = _
  rw [flag]
  rfl

/-- What `read` makes of a compressed file without tables. -/
theorem read_write_untabled {c : Contents} (h : c.Fits) (bounded : c.Bounded)
    (untabled : c.lcpL = [] ∧ c.lcpR = []) {unset : Unset} (unread : unset.useLcp = false) :
    ∃ image strm, write c true = .ok image ∧
      read unset (some image) fresh =
        (true, { data := c.data, SA := c.SA ++ [0], lcpL := [], lcpR := [] }, strm) := by
  have size := h.data_lt
  have digits : maxIdxSize c.data.length < 2 ^ idxBits :=
    Nat.lt_of_le_of_lt (maxIdxSize_le size) (by decide)
  have image := write_compressed_eq h.toShaped
  have behind : bytesOfBool (([] : List (List Nat)).length != 0) ++
      rowsImage (writeCompRow (width c)) (List.zip [] []) = [0] := rfl
  rw [Contents.pairs, untabled.1, untabled.2, behind] at image
  obtain ⟨last, block⟩ := whileExtract_hexBlock size bounded.SA unset [] [] [0]
  rw [setw_maxIdxSize size, ← width_eq, hexBlock, List.nil_append, whileExtract_flag] at block
  have failed := InputStream.whileExtract_failed (width c) (pushHex unset) c.SA last (ofBytes [0])
  generalize (whileExtract (width c) (pushHex unset) c.SA last (ofBytes [0])).2 = strm at *
  have skipped := readLcpLr_failed unread failed true ((c.data.length + 1) % 2 ^ idxBits) (width c)
  refine ⟨_, (readLcpLr unset [] [] true ((c.data.length + 1) % 2 ^ idxBits) (width c) strm).2,
    image, ?_⟩
  rw [read, readOpened, run_header h.toShaped true unset fresh.data, if_pos rfl, width_eq,
    (reads_idxT unset.maxIdxSize digits).run, setw_maxIdxSize size, ← width_eq]
  change (true, (whileExtract (width c) (pushHex unset) [] [] >>= _) (ofBytes _)) = _
  rw [run_bind, block]
  change (true, (readLcpLr unset [] [] true _ (width c) >>= _) strm) = _
  rw [run_bind, skipped]
  rfl

end SuffixArray.Container
