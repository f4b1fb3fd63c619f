import SuffixArray.InducedSorting.Levels

/-!
# `read_data` and what its result means for the induced sort

The corpus is read as `char`, which is signed here, and stored as `unsigned char`.
`min` and `max` come in as the largest and the smallest `idxT` and leave as bounds
of the stored bytes, with or without the newlines. These bounds are all the induced
sort needs to stay inside its vectors.
-/

namespace SuffixArray.ReadData

open Checked SuffixOrder

/-- The reference parameters of `read_data`. -/
structure Corpus where
  data : List UInt8
  min : Nat
  max : Nat
  deriving DecidableEq, Repr

/-- `(alph)(*i)`. -/
def alphOfChar (c : Int8) : UInt8 := c.toUInt8

/-- `(alph)(idxT)(*i)`: sign extension to 32 bits, then the low byte. -/
def alphOfIdxT (c : Int8) : UInt8 := c.toInt32.toUInt32.toUInt8

/-- The loop body without the newline filter. -/
def readChar (corpus : Corpus) (c : Int8) : Corpus :=
  let min := if (alphOfChar c).toNat < corpus.min then (alphOfChar c).toNat else corpus.min
  let max := if (alphOfChar c).toNat > corpus.max then (alphOfChar c).toNat else corpus.max
  { data := corpus.data ++ [alphOfChar c], min := min, max := max }

/-- The loop body with the newline filter. -/
def readFiltered (corpus : Corpus) (c : Int8) : Corpus :=
  if c ≠ 10 then
    let min := if (alphOfChar c).toNat < corpus.min then (alphOfIdxT c).toNat else corpus.min
    let max := if (alphOfChar c).toNat > corpus.max then (alphOfIdxT c).toNat else corpus.max
    { data := corpus.data ++ [alphOfChar c], min := min, max := max }
  else
    corpus

/-- The loop over the stream. -/
def readStream (filtEndline : Bool) (stream : List Int8) (corpus : Corpus) : Corpus :=
  if filtEndline then stream.foldl readFiltered corpus else stream.foldl readChar corpus

/-- `read_data` on a file that may fail to open: the returned flag and the
reference parameters afterwards. -/
def readData (file : Option (List Int8)) (filtEndline : Bool) (corpus : Corpus) : Bool × Corpus :=
  match file with
  | none => (false, corpus)
  | some stream =>
    let corpus := readStream filtEndline stream corpus
    if corpus.data.length = 0 then (false, corpus)
    else if corpus.data.length < 2 then (false, corpus)
    else (true, corpus)

/-- The call in the constructor: `min = -1`, `max = 0`, no data. -/
def start : Corpus := { data := [], min := InducedSorting.invalid, max := 0 }

/-- Both casts keep the byte. -/
theorem alphOfIdxT_eq (c : Int8) : alphOfIdxT c = alphOfChar c := by
  rw [alphOfIdxT, alphOfChar, ← UInt8.toBitVec_inj]
  simp only [UInt32.toBitVec_toUInt8, Int32.toBitVec_toUInt32, Int8.toBitVec_toInt32,
    Int8.toBitVec_toUInt8]
  ext i hi
  rw [BitVec.getElem_setWidth, BitVec.getLsbD_eq_getElem (by omega),
    BitVec.getElem_signExtend (by omega), dif_pos hi]

/-- `min` and `max` bound what has been stored. -/
structure Bounds (corpus : Corpus) : Prop where
  lower : ∀ c ∈ corpus.data, corpus.min ≤ c.toNat
  upper : ∀ c ∈ corpus.data, c.toNat ≤ corpus.max
  byte : corpus.max < 2 ^ 8

theorem bounds_start : Bounds start where
  lower _ h := absurd h List.not_mem_nil
  upper _ h := absurd h List.not_mem_nil
  byte := by decide

theorem Bounds.readChar {corpus : Corpus} (h : Bounds corpus) (c : Int8) :
    Bounds (readChar corpus c) where
  lower b hb := by
    simp only [ReadData.readChar] at hb ⊢
    obtain hb | hb := List.mem_append.mp hb
    · have := h.lower b hb
      split <;> omega
    · rw [List.mem_singleton.mp hb]
      split <;> omega
  upper b hb := by
    simp only [ReadData.readChar] at hb ⊢
    obtain hb | hb := List.mem_append.mp hb
    · have := h.upper b hb
      split <;> omega
    · rw [List.mem_singleton.mp hb]
      split <;> omega
  byte := by
    have := h.byte
    have := (alphOfChar c).toNat_lt
    simp only [ReadData.readChar]
    split <;> omega

theorem readFiltered_eq (corpus : Corpus) (c : Int8) :
    readFiltered corpus c = if c ≠ 10 then readChar corpus c else corpus := by
  rw [readFiltered, alphOfIdxT_eq, readChar]

theorem bounds_foldl {body : Corpus → Int8 → Corpus}
    (step : ∀ corpus c, Bounds corpus → Bounds (body corpus c)) (stream : List Int8)
    {corpus : Corpus} (h : Bounds corpus) : Bounds (stream.foldl body corpus) := by
  induction stream generalizing corpus with
  | nil => exact h
  | cons c stream ih => exact ih (step corpus c h)

theorem bounds_readStream (filtEndline : Bool) (stream : List Int8) :
    Bounds (readStream filtEndline stream start) := by
  cases filtEndline with
  | false => exact bounds_foldl (fun corpus c h => h.readChar c) stream bounds_start
  | true =>
      refine bounds_foldl (fun corpus c h => ?_) stream bounds_start
      rw [readFiltered_eq]
      split
      · exact h.readChar c
      · exact h

/-- What `read_data` promises when it returns true. -/
theorem readData_bounds {file : Option (List Int8)} {filtEndline : Bool} {corpus : Corpus}
    (accepted : readData file filtEndline start = (true, corpus)) :
    2 ≤ corpus.data.length ∧ Bounds corpus := by
  cases file with
  | none => cases accepted
  | some stream =>
      have bounds := bounds_readStream filtEndline stream
      simp only [readData] at accepted
      generalize readStream filtEndline stream start = read at bounds accepted
      split at accepted
      · cases accepted
      · split at accepted
        · cases accepted
        · next hlen =>
            obtain rfl := (Prod.mk.inj accepted).2
            exact ⟨Nat.le_of_not_lt hlen, bounds⟩

/-- The induced sort of an accepted corpus returns. In the checked semantics this
says that no subscript, range or counter left its bounds on the way: the run stops
at the first that does, entries equal to `invalid` included. -/
theorem run_of_readData {file : Option (List Int8)} {filtEndline : Bool} {corpus : Corpus}
    (accepted : readData file filtEndline start = (true, corpus))
    (fits : corpus.data.length < 2 ^ 32 - 1) (fuel : Nat) (enough : corpus.data.length ≤ fuel) :
    ∃ SA, InducedSorting.run fuel corpus.min corpus.data corpus.max = .ok SA := by
  obtain ⟨two, bounds⟩ := readData_bounds accepted
  have level := InducedSorting.isLevel_bytes (by omega) fits bounds.lower bounds.upper
  have byte : corpus.max + 1 < 2 ^ InducedSorting.idxBits :=
    Nat.lt_of_le_of_lt (Nat.succ_le_of_lt bounds.byte) (by decide)
  obtain ⟨SA, run, _⟩ := InducedSorting.run_eq level byte enough
  exact ⟨SA, run⟩

theorem run_of_readData_lines : ∃ SA, InducedSorting.run 4 98 [98, 255, 98] 255 = .ok SA := by
  have accepted : readData (some [98, 10, -1, 98, 10]) true start =
      (true, { data := [98, 255, 98], min := 98, max := 255 }) := by decide
  exact run_of_readData accepted (by decide) 4 (by decide)

end SuffixArray.ReadData
