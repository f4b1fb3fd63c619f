import SuffixArray.Container.Image

/-!
# What can be read from any file

The number of data bytes is a word, however it comes about, and so is the number of indices in
a plain file. The indices in a compressed one are cut out of the file one by one, so there are
not more of them than bytes.
-/

namespace SuffixArray.Container

open InducedSorting (idxBits)
open InputStream (Delivers)

variable {left : Nat}

theorem delivers_bool (b : Bool) : Delivers left (readBool b) fun _ => True :=
  (Delivers.read _).bind fun _ _ => .pure trivial

theorem delivers_hexRowL (unset : Unset) (maxIdxSize s : Nat) :
    Delivers left (readHexRowL unset maxIdxSize s) fun _ => True :=
  (Delivers.foldlM (fun _ _ => (Delivers.extract _ _).bind fun _ _ => .pure trivial) _ _).bind
    fun _ _ => .pure trivial

theorem delivers_hexRowR (unset : Unset) (maxIdxSize s : Nat) :
    Delivers left (readHexRowR unset maxIdxSize s) fun _ => True :=
  Delivers.foldlM (fun _ _ => (Delivers.extract _ _).bind fun _ _ => .pure trivial) _ _

theorem delivers_row (unset : Unset) (cmpr : Bool) (maxIdxSize : Nat) (rows : Rows) (i : Nat) :
    Delivers left (readRow unset cmpr maxIdxSize rows i) fun _ => True := by
  cases cmpr with
  | true =>
      exact (Delivers.readWord _ _).bind fun s _ => (delivers_hexRowL _ _ s).bind fun l _ =>
        (Delivers.readWord _ _).bind fun s _ => (delivers_hexRowR _ _ s).bind fun r _ =>
          .pure trivial
  | false =>
      exact (Delivers.readWord _ _).bind fun s _ => (Delivers.readWords _ _).bind fun l _ =>
        (Delivers.readWord _ _).bind fun s _ => (Delivers.readWords _ _).bind fun r _ =>
          .pure trivial

theorem delivers_tables (unset : Unset) (lcpL lcpR : List (List Nat)) (cmpr : Bool)
    (dataSize maxIdxSize : Nat) :
    Delivers left (readLcpLr unset lcpL lcpR cmpr dataSize maxIdxSize) fun _ => True :=
  (delivers_bool _).bind fun _ _ => .ite
    ((Delivers.foldlM (delivers_row unset cmpr maxIdxSize) _ _).bind fun _ _ => .pure trivial)
    (.pure trivial)

/-- The sizes of what comes out of a file. -/
theorem read_limits (unset : Unset) (bytes : List UInt8) {c : Contents}
    (holds : (read unset (some bytes) fresh).2.1 = c) :
    c.data.length < 2 ^ idxBits ∧ (c.SA.length < 2 ^ idxBits ∨ c.SA.length ≤ bytes.length) := by
  have opened : Delivers bytes.length (readOpened unset fresh) fun c =>
      c.data.length < 2 ^ idxBits ∧
        (c.SA.length < 2 ^ idxBits ∨ c.SA.length ≤ bytes.length) := by
    refine (delivers_bool _).bind fun cmpr _ => (Delivers.readWord _ _).bind fun dataSize word =>
      (Delivers.read _).bind fun data length => ?_
    have size : data.length < 2 ^ idxBits := by
      rw [length, length_resize]
      exact word
    refine .ite ?_ ?_
    · refine (Delivers.readWord _ _).bind fun maxIdxSize _ =>
        (Delivers.whileExtract List.length (fun SA str => ?_) _ _).bind fun SA entries =>
          (delivers_tables _ _ _ _ _ _).bind fun tables _ => .pure ⟨size, Or.inr ?_⟩
      · exact Nat.le_of_eq List.length_append
      · exact entries.trans (Nat.le_of_eq (Nat.zero_add _))
    · refine (Delivers.readWords _ _).bind fun SA entries =>
        (delivers_tables _ _ _ _ _ _).bind fun tables _ => .pure ⟨size, Or.inl ?_⟩
      rw [entries, length_resize]
      exact Nat.mod_lt _ (Nat.two_pow_pos _)
  subst holds
  exact (opened (InputStream.ofBytes bytes) (Nat.le_refl _)).2

end SuffixArray.Container
