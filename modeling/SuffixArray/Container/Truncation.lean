import SuffixArray.Container.Plain

/-!
# A file that has been cut off

A stream that ends inside a field fails, and from then on every read fails and leaves
its target as it was. So after reading any proper beginning of a file the stream has
failed, wherever the cut is.
-/

namespace SuffixArray.Container

open Checked
open InducedSorting (idxBits)
open InputStream (Keeps FailsShort Reads)

variable {c : Contents}

theorem keeps_bool (b : Bool) : Keeps (readBool b) := (Keeps.read _).map _

theorem keeps_hexRowL (unset : Unset) (maxIdxSize s : Nat) :
    Keeps (readHexRowL unset maxIdxSize s) := by
  apply Keeps.map
  exact Keeps.foldlM (fun row _ => (Keeps.extract _ _).map _) _ _

theorem keeps_hexRowR (unset : Unset) (maxIdxSize s : Nat) :
    Keeps (readHexRowR unset maxIdxSize s) :=
  Keeps.foldlM (fun _ _ => (Keeps.extract _ _).map _) _ _

theorem keeps_row (unset : Unset) (cmpr : Bool) (maxIdxSize : Nat) (rows : Rows) (i : Nat) :
    Keeps (readRow unset cmpr maxIdxSize rows i) := by
  rw [readRow]
  split
  · exact (Keeps.readWord _ _).bind fun s => (keeps_hexRowL _ _ s).bind fun l =>
      (Keeps.readWord _ _).bind fun s => (keeps_hexRowR _ _ s).map _
  · exact (Keeps.readWord _ _).bind fun s => (Keeps.readWords _ _).bind fun l =>
      (Keeps.readWord _ _).bind fun s => (Keeps.readWords _ _).map _

theorem keeps_tables (unset : Unset) (lcpL lcpR : List (List Nat)) (cmpr : Bool)
    (dataSize maxIdxSize : Nat) : Keeps (readLcpLr unset lcpL lcpR cmpr dataSize maxIdxSize) := by
  apply (keeps_bool _).bind
  intro useLcp
  cases useLcp with
  | false => exact Keeps.pure _
  | true => exact (Keeps.foldlM (fun rows i => keeps_row unset cmpr maxIdxSize rows i) _ _).map _

/-- The fields behind the data, in either form. -/
def readBehindData (unset : Unset) (c : Contents) (cmpr : Bool) (dataSize : Nat)
    (data : List UInt8) : Reading Contents := do
  let dataSize := (dataSize + 1) % 2 ^ idxBits
  if cmpr then
    let maxIdxSize ← InputStream.readWord idxBytes unset.maxIdxSize
    let SA ← InputStream.whileExtract (setw maxIdxSize) (pushHex unset) c.SA []
    let tables ← readLcpLr unset c.lcpL c.lcpR cmpr dataSize maxIdxSize
    return { data := data, SA := SA, lcpL := tables.1, lcpR := tables.2 }
  else
    let SA ← InputStream.readWords idxBytes (LcpTables.resize c.SA dataSize 0)
    let tables ← readLcpLr unset c.lcpL c.lcpR cmpr dataSize unset.maxIdxSize
    return { data := data, SA := SA, lcpL := tables.1, lcpR := tables.2 }

/-- The compressed form is read until the stream has failed. -/
theorem readBehindData_compressed (unset : Unset) (c : Contents) (dataSize : Nat)
    (data : List UInt8) (strm : InputStream) :
    (readBehindData unset c true dataSize data strm).2.failed = true :=
  keeps_tables unset c.lcpL c.lcpR true _ _ _ (InputStream.whileExtract_failed _ _ _ _ _)

theorem keeps_behindData (unset : Unset) (c : Contents) (cmpr : Bool) (dataSize : Nat)
    (data : List UInt8) : Keeps (readBehindData unset c cmpr dataSize data) := by
  cases cmpr with
  | true => exact fun strm _ => readBehindData_compressed unset c dataSize data strm
  | false =>
      exact (Keeps.readWords _ _).bind fun SA => (keeps_tables _ _ _ _ _ _).map _

theorem failsShort_bool (old b : Bool) : FailsShort (readBool old) (bytesOfBool b) := by
  apply FailsShort.map
  apply FailsShort.read
  cases b <;> cases old <;> rfl

theorem failsShort_idxT (old i : Nat) :
    FailsShort (InputStream.readWord idxBytes old) (bytesOfIdxT i) := FailsShort.readWord old i

/-- A cut in front of the suffix array, or behind the data where `rest` fails. -/
theorem failsShort_header (h : c.Fits) (cmpr : Bool) (unset : Unset) (old bytes : List UInt8)
    {β : Type} {rest : Bool → Nat → List UInt8 → Reading β}
    (hrest : FailsShort (rest cmpr c.data.length c.data) bytes)
    (keeps : ∀ cmpr dataSize data, Keeps (rest cmpr dataSize data)) :
    FailsShort (do
      let cmpr ← readBool unset.cmpr
      let dataSize ← InputStream.readWord idxBytes unset.dataSize
      let data ← InputStream.read (LcpTables.resize old dataSize 0)
      rest cmpr dataSize data)
      (bytesOfBool cmpr ++ (bytesOfIdxT c.data.length ++ (c.data ++ bytes))) := by
  have count : c.data.length = (LcpTables.resize old c.data.length 0).length :=
    (length_resize old _ _).symm
  have keepsData (cmpr : Bool) (dataSize : Nat) : Keeps (do
      let data ← InputStream.read (LcpTables.resize old dataSize 0)
      rest cmpr dataSize data) := (Keeps.read _).bind fun data => keeps cmpr dataSize data
  apply (failsShort_bool _ cmpr).bind (reads_bool _ cmpr)
  · apply (failsShort_idxT _ c.data.length).bind (reads_idxT _ h.data_lt)
    · exact (FailsShort.read count).bind (Reads.read count) hrest fun data => keeps _ _ data
    · exact fun dataSize => keepsData cmpr dataSize
  · exact fun cmpr => (Keeps.readWord _ _).bind fun dataSize => keepsData cmpr dataSize

theorem failsShort_row {β : Type} (old : Nat) {row : List Nat} (size : row.length < 2 ^ idxBits)
    (words : ∀ i ∈ row, i < 2 ^ idxBits) {rest : Nat → List Nat → Reading β} {bytes : List UInt8}
    (hrest : FailsShort (rest row.length row) bytes) (keeps : ∀ s l, Keeps (rest s l)) :
    FailsShort (do
      let s ← InputStream.readWord idxBytes old
      let l ← InputStream.readWords idxBytes (List.replicate s 0)
      rest s l) (binWriteRow row ++ bytes) := by
  have count : row.length = (List.replicate row.length 0).length := List.length_replicate.symm
  rw [binWriteRow, Nat.mod_eq_of_lt size, List.take_length, List.append_assoc]
  apply (failsShort_idxT old row.length).bind (reads_idxT old size)
  · exact (FailsShort.readWords count).bind
      (Reads.readWords count fun i hi => idxT_fits (words i hi)) hrest fun l => keeps _ l
  · exact fun s => (Keeps.readWords _ _).bind fun l => keeps s l

theorem failsShort_pair (unset : Unset) (maxIdxSize : Nat) {pair : List Nat × List Nat}
    (sizes : pair.1.length < 2 ^ idxBits ∧ pair.2.length < 2 ^ idxBits)
    (words : (∀ i ∈ pair.1, i < 2 ^ idxBits) ∧ ∀ i ∈ pair.2, i < 2 ^ idxBits)
    (rows : Rows) (i : Nat) :
    FailsShort (readRow unset false maxIdxSize rows i)
      (binWriteRow pair.1 ++ binWriteRow pair.2) := by
  rw [readRow, if_neg Bool.false_ne_true]
  apply failsShort_row rows.s sizes.1 words.1
  · rw [← List.append_nil (binWriteRow pair.2)]
    exact failsShort_row pair.1.length sizes.2 words.2 (FailsShort.nil _) fun s r => Keeps.pure _
  · exact fun s l => (Keeps.readWord _ _).bind fun s => (Keeps.readWords _ _).map _

theorem failsShort_tables (h : c.Fits) (unset : Unset) (maxIdxSize : Nat) :
    FailsShort (readLcpLr unset [] [] false (c.data.length + 1) maxIdxSize)
      (bytesOfBool (c.lcpL.length != 0) ++ rowsImage binWriteRow c.pairs) := by
  have pairSizes {pair : List Nat × List Nat} (hpair : pair ∈ c.pairs) :
      pair.1.length < 2 ^ idxBits ∧ pair.2.length < 2 ^ idxBits :=
    ⟨h.rowSizes _ (c.mem_of_mem_pairs hpair).1, h.rowSizes _ (c.mem_of_mem_pairs hpair).2⟩
  have pairWords {pair : List Nat × List Nat} (hpair : pair ∈ c.pairs) :
      (∀ i ∈ pair.1, i < 2 ^ idxBits) ∧ ∀ i ∈ pair.2, i < 2 ^ idxBits :=
    ⟨h.rowWords _ (c.mem_of_mem_pairs hpair).1, h.rowWords _ (c.mem_of_mem_pairs hpair).2⟩
  apply (failsShort_bool _ _).bind (reads_bool _ _)
  · cases h.tables with
    | inl none =>
        rw [Contents.pairs, none.1, none.2]
        exact FailsShort.nil _
    | inr full =>
        have used : (c.lcpL.length != 0) = true := by
          rw [full.1]
          rfl
        have rounds : (List.range (c.data.length + 1)).length = c.pairs.length := by
          rw [List.length_range, h.length_pairs, full.1]
        rw [used, if_pos rfl]
        apply FailsShort.map
        exact FailsShort.foldlM
          (fun pair hpair rows i =>
            failsShort_pair unset maxIdxSize (pairSizes hpair) (pairWords hpair) rows i)
          (fun pair hpair rows i =>
            reads_pair unset maxIdxSize (pairSizes hpair) (pairWords hpair) rows i)
          (fun rows i => keeps_row unset false maxIdxSize rows i) _ _ rounds
  · intro useLcp
    cases useLcp with
    | false => exact Keeps.pure _
    | true => exact (Keeps.foldlM (fun rows i => keeps_row unset false maxIdxSize rows i) _ _).map _

/-- After a proper beginning of a file the stream has failed, wherever the cut is. -/
theorem read_short_failed (h : c.Fits) {cmpr : Bool} {image short : List UInt8}
    (written : write c cmpr = .ok image) (shorter : short <+: image) (proper : short ≠ image)
    (unset : Unset) : (read unset (some short) fresh).2.2.failed = true := by
  have keeps : ∀ cmpr dataSize data, Keeps (readBehindData unset fresh cmpr dataSize data) :=
    fun cmpr dataSize data => keeps_behindData unset fresh cmpr dataSize data
  cases cmpr with
  | true =>
      obtain rfl := Except.ok.inj ((write_compressed_eq h.toShaped).symm.trans written)
      exact failsShort_header h true unset fresh.data _
        (FailsShort.of_failed (readBehindData_compressed unset fresh _ _) _) keeps short shorter
        proper
  | false =>
      obtain rfl := Except.ok.inj ((write_plain_eq h).symm.trans written)
      have count : c.SA.length = (LcpTables.resize fresh.SA (c.data.length + 1) 0).length := by
        rw [length_resize, h.entries]
      have behind : FailsShort (readBehindData unset fresh false c.data.length c.data)
          (LittleEndian.encodeAll idxBytes c.SA ++ (bytesOfBool (c.lcpL.length != 0) ++
            rowsImage binWriteRow c.pairs)) := by
        rw [readBehindData, Nat.mod_eq_of_lt h.size, if_neg Bool.false_ne_true]
        apply (FailsShort.readWords count).bind
          (Reads.readWords count fun i hi => idxT_fits (h.words i hi))
        · exact (failsShort_tables h unset unset.maxIdxSize).map _
        · exact fun SA => (keeps_tables _ _ _ _ _ _).map _
      exact failsShort_header h false unset fresh.data _ behind keeps short shorter proper

theorem writeRows_ne_nil {lcpL lcpR : List (List Nat)} {row : List Nat → List UInt8}
    {out : List UInt8} (hout : out ≠ []) :
    Ensures (forUp idxBits 0 lcpL.length (fun i out => do
      let l ← load lcpL i
      let r ← load lcpR i
      return out ++ (row l ++ row r)) out) (· ≠ []) :=
  Ensures.forUp (· ≠ []) hout (fun _ _ hout => Ensures.bind_any (fun _ _ =>
    Ensures.bind_any (fun _ _ => Ensures.pure (List.append_ne_nil_of_left_ne_nil hout _))))

/-- Every file begins with its flag. -/
theorem write_ne_nil {cmpr : Bool} {image : List UInt8}
    (written : write c cmpr = .ok image) : image ≠ [] := by
  have flag : ∀ rest, bytesOfBool cmpr ++ rest ≠ [] := by
    intro rest
    cases cmpr <;> exact List.cons_ne_nil _ _
  rw [write] at written
  simp only [List.append_assoc] at written
  split at written
  · rw [writeCompSA] at written
    simp only [List.append_assoc] at written
    exact writeRows_ne_nil (flag _) image written
  · rw [binWriteSA] at written
    obtain ⟨count, -, written⟩ := bind_eq_ok.mp written
    obtain ⟨entries, -, written⟩ := bind_eq_ok.mp written
    simp only [List.append_assoc] at written
    exact writeRows_ne_nil (flag _) image written

end SuffixArray.Container
