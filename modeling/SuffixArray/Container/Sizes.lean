import SuffixArray.Container.Compressed

/-!
# How much the compressed form saves

Apart from the indices both forms hold the same fields, and the compressed one the number of
digits as well. An index takes four bytes or as many as the data size has digits, so text is
the smaller form as long as three digits are enough.
-/

namespace SuffixArray.Container

open InducedSorting (idxBits)

/-- All indices that a file holds: the suffix array and the entries of the tables. -/
def Contents.indices (c : Contents) : List Nat := c.SA ++ c.pairs.flatMap fun p => p.1 ++ p.2

/-- What both forms take apart from the indices. -/
def Contents.overhead (c : Contents) : Nat := 6 + c.data.length + 8 * c.pairs.length

theorem length_bytesOfBool (b : Bool) : (bytesOfBool b).length = 1 := by cases b <;> rfl

theorem length_bytesOfIdxT (i : Nat) : (bytesOfIdxT i).length = 4 :=
  LittleEndian.length_encode idxBytes i

theorem length_binWriteRow {row : List Nat} (size : row.length < 2 ^ idxBits) :
    (binWriteRow row).length = 4 + 4 * row.length := by
  rw [binWriteRow, Nat.mod_eq_of_lt size, List.take_length, List.length_append,
    length_bytesOfIdxT, LittleEndian.length_encodeAll]
  rfl

theorem length_hexBlock {dataSize : Nat} {indices : List Nat}
    (bounded : ∀ i ∈ indices, i ≤ dataSize) :
    (hexBlock (maxIdxSize dataSize) indices).length = maxIdxSize dataSize * indices.length := by
  induction indices with
  | nil => rfl
  | cons i indices ih =>
      obtain ⟨hi, others⟩ := List.forall_mem_cons.mp bounded
      have rest := ih others
      rw [hexBlock] at rest
      rw [hexBlock, List.flatMap_cons, List.length_append, (padded_token hi).1, rest,
        List.length_cons, Nat.mul_succ, Nat.add_comm]

/-- Rows that take four bytes and `k` more for each of their entries. -/
theorem length_rowsImage {row : List Nat → List UInt8} {k : Nat}
    {pairs : List (List Nat × List Nat)}
    (h : ∀ p ∈ pairs, (row p.1).length = 4 + k * p.1.length ∧
      (row p.2).length = 4 + k * p.2.length) :
    (rowsImage row pairs).length =
      8 * pairs.length + k * (pairs.flatMap fun p => p.1 ++ p.2).length := by
  induction pairs with
  | nil => rfl
  | cons pair pairs ih =>
      obtain ⟨hpair, others⟩ := List.forall_mem_cons.mp h
      have rest := ih others
      rw [rowsImage] at rest
      rw [rowsImage, List.flatMap_cons, List.flatMap_cons, List.length_append, List.length_append,
        List.length_append, List.length_append, hpair.1, hpair.2, rest, List.length_cons,
        Nat.mul_add, Nat.mul_add, Nat.mul_add]
      omega

theorem length_writeCompRow {dataSize : Nat} {row : List Nat}
    (bounded : ∀ i ∈ row, i ≤ dataSize) :
    (writeCompRow (maxIdxSize dataSize) row).length = 4 + maxIdxSize dataSize * row.length := by
  rw [writeCompRow, List.length_append, length_bytesOfIdxT, ← hexBlock, length_hexBlock bounded]

/-- Both forms, in bytes. -/
theorem length_images {c : Contents} (h : c.Fits) (bounded : c.Bounded) :
    ∃ plain compressed, write c false = .ok plain ∧ write c true = .ok compressed ∧
      plain.length = c.overhead + 4 * c.indices.length ∧
      compressed.length = c.overhead + 4 + maxIdxSize c.data.length * c.indices.length := by
  have rows {p : List Nat × List Nat} (hp : p ∈ c.pairs) := Contents.mem_of_mem_pairs hp
  have plainRows : (rowsImage binWriteRow c.pairs).length =
      8 * c.pairs.length + 4 * (c.pairs.flatMap fun p => p.1 ++ p.2).length :=
    length_rowsImage fun p hp => ⟨length_binWriteRow (h.rowSizes _ (rows hp).1),
      length_binWriteRow (h.rowSizes _ (rows hp).2)⟩
  have compressedRows : (rowsImage (writeCompRow (maxIdxSize c.data.length)) c.pairs).length =
      8 * c.pairs.length +
        maxIdxSize c.data.length * (c.pairs.flatMap fun p => p.1 ++ p.2).length :=
    length_rowsImage fun p hp => ⟨length_writeCompRow (bounded.rows _ (rows hp).1),
      length_writeCompRow (bounded.rows _ (rows hp).2)⟩
  have block := length_hexBlock bounded.SA
  rw [hexBlock] at block
  refine ⟨_, _, write_plain_eq h, write_compressed_eq h.toShaped, ?_, ?_⟩
  · rw [Contents.overhead, Contents.indices, List.length_append, List.length_append,
      List.length_append, List.length_append, List.length_append, List.length_append,
      length_bytesOfBool, length_bytesOfBool, length_bytesOfIdxT, LittleEndian.length_encodeAll,
      plainRows, idxBytes]
    omega
  · rw [width_eq, Contents.overhead, Contents.indices, List.length_append, List.length_append,
      List.length_append, List.length_append, List.length_append, List.length_append,
      List.length_append, length_bytesOfBool, length_bytesOfBool, length_bytesOfIdxT,
      length_bytesOfIdxT, block, compressedRows, Nat.mul_add]
    omega

/-- The compressed form is the smaller one for texts of less than 4096 characters, whatever
the tables hold. -/
theorem compressed_lt_plain_iff {c : Contents} (h : c.Fits) (bounded : c.Bounded)
    (two : 2 ≤ c.data.length) :
    ∃ plain compressed, write c false = .ok plain ∧ write c true = .ok compressed ∧
      (compressed.length < plain.length ↔ c.data.length < 4096) := by
  obtain ⟨plain, compressed, written, written', hplain, hcompressed⟩ := length_images h bounded
  refine ⟨plain, compressed, written, written', ?_⟩
  rw [hplain, hcompressed]
  have many : c.data.length + 1 ≤ c.indices.length := by
    rw [Contents.indices, List.length_append, h.entries]
    exact Nat.le_add_right _ _
  obtain ⟨below, above⟩ := maxIdxSize_bounds c.data.length
  have positive := maxIdxSize_pos c.data.length
  generalize maxIdxSize c.data.length = width at *
  obtain few | enough := Nat.lt_or_ge width 4
  · obtain rfl | rfl | rfl : width = 1 ∨ width = 2 ∨ width = 3 := by omega
    all_goals omega
  · have large : 16 ^ 3 ≤ c.data.length := by
      refine Nat.le_trans (Nat.pow_le_pow_right (by decide) ?_) (above.resolve_left (by omega))
      omega
    have wide : 4 * c.indices.length ≤ width * c.indices.length := Nat.mul_le_mul_right _ enough
    omega

theorem compressed_lt_plain_iff_ab :
    ∃ plain compressed, write ab false = .ok plain ∧ write ab true = .ok compressed ∧
      (compressed.length < plain.length ↔ ab.data.length < 4096) :=
  compressed_lt_plain_iff ab_fits ⟨by decide, by decide⟩ (by decide)

end SuffixArray.Container
