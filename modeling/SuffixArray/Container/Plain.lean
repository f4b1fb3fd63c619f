import SuffixArray.Container.Image

/-!
# The plain container comes back as it was written

Every field of the plain form has a size that is known before it is read, from the
format or from a word read earlier. So each reader takes exactly the bytes of its
field, whatever follows, and the readers compose to the whole file.
-/

namespace SuffixArray.Container

open Checked
open InputStream (Reads)
open InducedSorting (idxBits)

/-- A row, behind its size. -/
theorem reads_row {β : Type} (old : Nat) {row : List Nat} (size : row.length < 2 ^ idxBits)
    (words : ∀ i ∈ row, i < 2 ^ idxBits) {rest : Nat → List Nat → Reading β} {bytes : List UInt8}
    {b : β} (hrest : Reads (rest row.length row) bytes b) :
    Reads (do
      let s ← InputStream.readWord idxBytes old
      let l ← InputStream.readWords idxBytes (List.replicate s 0)
      rest s l) (binWriteRow row ++ bytes) b := by
  have count : row.length = (List.replicate row.length 0).length := List.length_replicate.symm
  rw [binWriteRow, Nat.mod_eq_of_lt size, List.take_length, List.append_assoc]
  exact (reads_idxT old size).bind
    ((Reads.readWords count fun i hi => idxT_fits (words i hi)).bind hrest)

/-- The tables with one more row each. -/
def Rows.push (rows : Rows) (pair : List Nat × List Nat) : Rows :=
  { s := pair.2.length, lcpL := rows.lcpL ++ [pair.1], lcpR := rows.lcpR ++ [pair.2] }

theorem Rows.foldl_push (pairs : List (List Nat × List Nat)) (rows : Rows) :
    (pairs.foldl push rows).lcpL = rows.lcpL ++ pairs.map Prod.fst ∧
    (pairs.foldl push rows).lcpR = rows.lcpR ++ pairs.map Prod.snd := by
  induction pairs generalizing rows with
  | nil => exact ⟨(List.append_nil _).symm, (List.append_nil _).symm⟩
  | cons pair pairs ih =>
      obtain ⟨left, right⟩ := ih (rows.push pair)
      rw [List.foldl_cons, left, right, List.map_cons, List.map_cons]
      exact ⟨List.append_assoc .., List.append_assoc ..⟩

theorem reads_pair (unset : Unset) (maxIdxSize : Nat) {pair : List Nat × List Nat}
    (sizes : pair.1.length < 2 ^ idxBits ∧ pair.2.length < 2 ^ idxBits)
    (words : (∀ i ∈ pair.1, i < 2 ^ idxBits) ∧ ∀ i ∈ pair.2, i < 2 ^ idxBits)
    (rows : Rows) (i : Nat) :
    Reads (readRow unset false maxIdxSize rows i) (binWriteRow pair.1 ++ binWriteRow pair.2)
      (rows.push pair) := by
  rw [readRow, if_neg Bool.false_ne_true]
  apply reads_row rows.s sizes.1 words.1
  rw [← List.append_nil (binWriteRow pair.2)]
  exact reads_row pair.1.length sizes.2 words.2 (Reads.pure (rows.push pair))

/-- `read_lcp_lr` on the end of a plain file. Without tables the flag is all there is. -/
theorem reads_tables {c : Contents} (h : c.Fits) (unset : Unset) (maxIdxSize : Nat) :
    Reads (readLcpLr unset [] [] false (c.data.length + 1) maxIdxSize)
      (bytesOfBool (c.lcpL.length != 0) ++ rowsImage binWriteRow c.pairs) (c.lcpL, c.lcpR) := by
  rw [readLcpLr]
  apply (reads_bool unset.useLcp (c.lcpL.length != 0)).bind
  cases h.tables with
  | inl none =>
      rw [Contents.pairs, none.1, none.2]
      exact Reads.pure _
  | inr full =>
      have used : (c.lcpL.length != 0) = true := by
        rw [full.1]
        rfl
      have rounds : (List.range (c.data.length + 1)).length = c.pairs.length := by
        rw [List.length_range, h.length_pairs, full.1]
      have loop := Reads.foldlM (fun pair hpair rows i =>
        have rows_mem := c.mem_of_mem_pairs hpair
        reads_pair unset maxIdxSize ⟨h.rowSizes _ rows_mem.1, h.rowSizes _ rows_mem.2⟩
          ⟨h.rowWords _ rows_mem.1, h.rowWords _ rows_mem.2⟩ rows i)
        (List.range (c.data.length + 1)) { s := unset.s, lcpL := [], lcpR := [] } rounds
      obtain ⟨left, right⟩ := Rows.foldl_push c.pairs { s := unset.s, lcpL := [], lcpR := [] }
      have tables := loop.map fun rows => (rows.lcpL, rows.lcpR)
      rw [left, right, h.unzip_pairs.1, h.unzip_pairs.2] at tables
      rw [used, if_pos rfl]
      exact tables

theorem reads_plain {c : Contents} (h : c.Fits) (unset : Unset) (data : List UInt8)
    (SA : List Nat) :
    Reads (readOpened unset { data := data, SA := SA, lcpL := [], lcpR := [] })
      (bytesOfBool false ++ (bytesOfIdxT c.data.length ++ (c.data ++
        (LittleEndian.encodeAll idxBytes c.SA ++ (bytesOfBool (c.lcpL.length != 0) ++
          rowsImage binWriteRow c.pairs))))) c := by
  have count : c.SA.length = (LcpTables.resize SA (c.data.length + 1) 0).length := by
    rw [length_resize, h.entries]
  apply reads_header h.toShaped false unset data
  rw [Nat.mod_eq_of_lt h.size, if_neg Bool.false_ne_true]
  apply (Reads.readWords count fun i hi => idxT_fits (h.words i hi)).bind
  exact (reads_tables h unset unset.maxIdxSize).map fun tables =>
    { data := c.data, SA := c.SA, lcpL := tables.1, lcpR := tables.2 : Contents }

/-- What `write` stores without compression, `read` restores: the same data, the same
suffix array and the same tables, with nothing of the file left over, also when the
vectors for the data and the suffix array had contents before. -/
theorem read_write_plain {c : Contents} (h : c.Fits) (unset : Unset) (data : List UInt8)
    (SA : List Nat) :
    ∃ image, write c false = .ok image ∧
      read unset (some image) { data := data, SA := SA, lcpL := [], lcpR := [] } =
        (true, c, InputStream.ofBytes []) := by
  refine ⟨_, write_plain_eq h, ?_⟩
  have whole := reads_plain h unset data SA []
  rw [List.append_nil] at whole
  rw [read, whole]

/-- Two rows of different lengths for each of the three suffixes of `ab`. -/
def abTables : Contents where
  data := [97, 98]
  SA := [2, 0, 1]
  lcpL := [[], [0, 1, 1], [2]]
  lcpR := [[0], [], [1, 2]]

theorem abTables_fits : abTables.Fits where
  size := by decide
  entries := rfl
  words := by decide
  tables := Or.inr ⟨rfl, rfl⟩
  rowSizes := by decide
  rowWords := by decide

theorem read_write_plain_ab :
    ∃ image, write abTables false = .ok image ∧
      read { cmpr := true, dataSize := 7, maxIdxSize := 0, useLcp := false, s := 9, idx := 1 }
        (some image) { data := [1], SA := [5], lcpL := [], lcpR := [] } =
        (true, abTables, InputStream.ofBytes []) :=
  read_write_plain abTables_fits _ _ _

end SuffixArray.Container
