import SuffixArray.Container

/-!
# What a container file looks like

For contents that fit, `write` runs through and its file is a plain concatenation of
the fields, in both forms. The fields up to the data read back in both forms too.
-/

namespace SuffixArray.Container

open Checked
open InducedSorting (idxBits)
open InputStream (Reads)

/-- The rows of two tables in turn, `row` being how one row is stored. -/
def rowsImage (row : List Nat → List UInt8) (pairs : List (List Nat × List Nat)) : List UInt8 :=
  pairs.flatMap fun pair => row pair.1 ++ row pair.2

/-- The two rows of each rank. -/
def Contents.pairs (c : Contents) : List (List Nat × List Nat) := c.lcpL.zip c.lcpR

/-- The loop over the rows, for either way to store one. -/
theorem writeRows_eq (row : List Nat → List UInt8) {lcpL lcpR : List (List Nat)}
    (rows : lcpL.length ≤ lcpR.length) (fits : lcpL.length < 2 ^ idxBits) (out : List UInt8) :
    forUp idxBits 0 lcpL.length (fun i out => do
      let l ← load lcpL i
      let r ← load lcpR i
      return out ++ (row l ++ row r)) out = .ok (out ++ rowsImage row (lcpL.zip lcpR)) := by
  let inv (i : Nat) (s : List UInt8) : Prop :=
    s = out ++ rowsImage row ((lcpL.zip lcpR).take i)
  have init : inv 0 out := by
    change out = out ++ []
    rw [List.append_nil]
  have count : (lcpL.zip lcpR).length = lcpL.length := by
    rw [List.length_zip, Nat.min_eq_left rows]
  have step : ∀ i s, 0 ≤ i → i < lcpL.length → inv i s → ∃ t, (do
      let l ← load lcpL i
      let r ← load lcpR i
      return s ++ (row l ++ row r) : Run (List UInt8)) = .ok t ∧ inv (i + 1) t := by
    intro i s _ hi hs
    have hpair : i < (lcpL.zip lcpR).length := by rwa [count]
    refine ⟨_, by rw [load_of_lt hi, ok_bind, load_of_lt (by omega), ok_bind, pure_eq_ok], ?_⟩
    change s ++ _ = _
    rw [hs, List.append_assoc, rowsImage, rowsImage, List.take_succ_eq_append_getElem hpair,
      List.flatMap_append, List.flatMap_singleton, List.getElem_zip]
  obtain ⟨result, run, hresult⟩ := forUp_ok inv (Nat.zero_le _) fits init step
  rw [run, hresult, ← count, List.take_length]

theorem Contents.Shaped.data_lt {c : Contents} (h : c.Shaped) : c.data.length < 2 ^ idxBits :=
  Nat.lt_of_succ_lt h.size

theorem Contents.Shaped.same {c : Contents} (h : c.Shaped) : c.lcpR.length = c.lcpL.length := by
  cases h.tables with
  | inl none => rw [none.1, none.2]
  | inr full => rw [full.1, full.2]

theorem Contents.Shaped.rows_lt {c : Contents} (h : c.Shaped) : c.lcpL.length < 2 ^ idxBits := by
  have := h.size
  cases h.tables with
  | inl none =>
      rw [none.1]
      exact Nat.two_pow_pos _
  | inr full => rwa [full.1]

/-- A pair of rows is a row of each table. -/
theorem Contents.mem_of_mem_pairs {c : Contents} {pair : List Nat × List Nat}
    (h : pair ∈ c.pairs) : pair.1 ∈ c.lcpL ++ c.lcpR ∧ pair.2 ∈ c.lcpL ++ c.lcpR := by
  obtain ⟨left, right⟩ := List.of_mem_zip h
  exact ⟨List.mem_append_left _ left, List.mem_append_right _ right⟩

theorem Contents.Shaped.unzip_pairs {c : Contents} (h : c.Shaped) :
    c.pairs.map Prod.fst = c.lcpL ∧ c.pairs.map Prod.snd = c.lcpR := by
  constructor
  · exact List.map_fst_zip (Nat.le_of_eq h.same.symm)
  · exact List.map_snd_zip (Nat.le_of_eq h.same)

theorem Contents.Shaped.length_pairs {c : Contents} (h : c.Shaped) :
    c.pairs.length = c.lcpL.length := by
  rw [pairs, List.length_zip, h.same, Nat.min_self]

/-- The plain file. -/
theorem write_plain_eq {c : Contents} (h : c.Fits) :
    write c false = .ok (bytesOfBool false ++ (bytesOfIdxT c.data.length ++ (c.data ++
      (LittleEndian.encodeAll idxBytes c.SA ++ (bytesOfBool (c.lcpL.length != 0) ++
        rowsImage binWriteRow c.pairs))))) := by
  have size : c.data.length % 2 ^ idxBits = c.data.length :=
    Nat.mod_eq_of_lt h.data_lt
  have entries : slice c.SA 0 (c.data.length + 1) = .ok c.SA := by
    rw [slice_of_le (Nat.zero_le _) (Nat.le_of_eq h.entries.symm), List.drop_zero, Nat.sub_zero,
      ← h.entries, List.take_length]
  rw [write, size, List.take_length, if_neg Bool.false_ne_true, binWriteSA, inc_of_lt h.size,
    ok_bind, entries, ok_bind, writeRows_eq binWriteRow h.same.ge h.rows_lt]
  simp only [List.append_assoc, Contents.pairs]

/-- `max_idx_size` of `writeCompSA`. -/
def maxIdxSize (dataSize : Nat) : Nat := (idxTToHexStr dataSize 0).length

theorem maxIdxSize_eq (dataSize : Nat) : maxIdxSize dataSize = (HexText.text dataSize).length := by
  rw [maxIdxSize, idxTToHexStr, HexText.padded, Nat.zero_sub, List.replicate_zero,
    List.nil_append]

/-- The text of the indices stands between the width and the flag. -/
theorem writeCompSA_eq {lcpL lcpR : List (List Nat)} (rows : lcpL.length ≤ lcpR.length)
    (fits : lcpL.length < 2 ^ idxBits) (out : List UInt8) (SA : List Nat) (dataSize : Nat) :
    writeCompSA out SA dataSize lcpL lcpR = .ok (out ++ (bytesOfIdxT (maxIdxSize dataSize) ++
      (SA.flatMap (HexText.padded (maxIdxSize dataSize)) ++ (bytesOfBool (lcpL.length != 0) ++
        rowsImage (writeCompRow (maxIdxSize dataSize)) (lcpL.zip lcpR))))) := by
  rw [writeCompSA]
  simp only [writeRows_eq _ rows fits, List.append_assoc, maxIdxSize]

/-- The number of digits that the compressed form gives to each index. -/
def width (c : Contents) : Nat := (HexText.text c.data.length).length

theorem width_eq (c : Contents) : width c = maxIdxSize c.data.length :=
  (maxIdxSize_eq c.data.length).symm

/-- The compressed file. -/
theorem write_compressed_eq {c : Contents} (h : c.Shaped) :
    write c true = .ok (bytesOfBool true ++ (bytesOfIdxT c.data.length ++ (c.data ++
      (bytesOfIdxT (width c) ++ (c.SA.flatMap (HexText.padded (width c)) ++
        (bytesOfBool (c.lcpL.length != 0) ++
          rowsImage (writeCompRow (width c)) c.pairs)))))) := by
  have size : c.data.length % 2 ^ idxBits = c.data.length :=
    Nat.mod_eq_of_lt h.data_lt
  rw [write, size, List.take_length, if_pos rfl, writeCompSA_eq h.same.ge h.rows_lt, width_eq]
  simp only [List.append_assoc, Contents.pairs]

theorem idxT_fits {i : Nat} (h : i < 2 ^ idxBits) : i < 256 ^ idxBytes := h

theorem length_resize {α : Type} (v : List α) (k : Nat) (x : α) :
    (LcpTables.resize v k x).length = k := by
  rw [LcpTables.resize, List.length_append, List.length_take, List.length_replicate]
  omega

theorem reads_bool (old b : Bool) : Reads (readBool old) (bytesOfBool b) b := by
  have lengths : (bytesOfBool b).length = (bytesOfBool old).length := by
    cases b <;> cases old <;> rfl
  have := (Reads.read lengths).map (fun buf => buf != [0])
  cases b <;> exact this

theorem reads_idxT (old : Nat) {i : Nat} (h : i < 2 ^ idxBits) :
    Reads (InputStream.readWord idxBytes old) (bytesOfIdxT i) i :=
  Reads.readWord old (idxT_fits h)

/-- The fields in front of the suffix array, for either form: whatever reads on
starts behind the data. -/
theorem run_header {β : Type} {c : Contents} (h : c.Shaped) (cmpr : Bool) (unset : Unset)
    (old tail : List UInt8) (rest : Bool → Nat → List UInt8 → Reading β) :
    (do
      let cmpr ← readBool unset.cmpr
      let dataSize ← InputStream.readWord idxBytes unset.dataSize
      let data ← InputStream.read (LcpTables.resize old dataSize 0)
      rest cmpr dataSize data : Reading β)
      (InputStream.ofBytes (bytesOfBool cmpr ++ (bytesOfIdxT c.data.length ++ (c.data ++ tail)))) =
    rest cmpr c.data.length c.data (InputStream.ofBytes tail) := by
  have count : c.data.length = (LcpTables.resize old c.data.length 0).length :=
    (length_resize old _ _).symm
  rw [(reads_bool unset.cmpr cmpr).run,
    (reads_idxT unset.dataSize h.data_lt).run, (Reads.read count).run]

theorem reads_header {β : Type} {c : Contents} (h : c.Shaped) (cmpr : Bool) (unset : Unset)
    (old : List UInt8) {rest : Bool → Nat → List UInt8 → Reading β} {bytes : List UInt8} {b : β}
    (hrest : Reads (rest cmpr c.data.length c.data) bytes b) :
    Reads (do
      let cmpr ← readBool unset.cmpr
      let dataSize ← InputStream.readWord idxBytes unset.dataSize
      let data ← InputStream.read (LcpTables.resize old dataSize 0)
      rest cmpr dataSize data)
      (bytesOfBool cmpr ++ (bytesOfIdxT c.data.length ++ (c.data ++ bytes))) b := by
  intro tail
  simp only [List.append_assoc]
  rw [run_header h cmpr unset old (bytes ++ tail) rest, hrest]

end SuffixArray.Container
