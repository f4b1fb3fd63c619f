import SuffixArray.Report

/-!
# The text of a report

The newlines of the data are escaped, so every position has one line, and the positions
can be told from the lines whatever the data contain. The characters printed from a
position on are those of the data, as many as asked for, and no counter wraps on the way.
-/

namespace SuffixArray.Report

open Checked
open InducedSorting (idxBits)
open Program (chars patternBytes)
open Search (MatchRange Occurs)
open SuffixOrder (IsSuffixArray)

variable {data : List UInt8} {SA : List Nat}

/-- Newlines as they are printed. -/
def escape (str : List UInt8) : List UInt8 :=
  str.flatMap fun c => if c = 10 then literal "\\n" else [c]

theorem newline_not_mem_escape (str : List UInt8) : (10 : UInt8) ∉ escape str := by
  rw [escape, List.mem_flatMap]
  rintro ⟨c, -, hc⟩
  split at hc
  · exact absurd hc (by decide)
  · next other => exact other (List.mem_singleton.mp hc).symm

/-- The counter does not wrap before the text ends. -/
theorem excerpt_eq (fits : data.length < 2 ^ idxBits) {start : Nat} (rest j : Nat)
    (inside : start + j ≤ data.length) :
    excerpt data start rest j = .ok (escape ((data.drop (start + j)).take rest)) := by
  induction rest generalizing j with
  | zero => rw [excerpt, List.take_zero, pure_eq_ok]; rfl
  | succ rest ih =>
      rw [excerpt, add_of_lt (Nat.lt_of_le_of_lt inside fits), ok_bind]
      obtain ended | next := Nat.eq_or_lt_of_le inside
      · rw [if_neg (Nat.not_lt_of_le (Nat.le_of_eq ended.symm)), ended, List.drop_length,
          List.take_nil, pure_eq_ok]
        rfl
      · rw [if_pos next, load_of_lt next, ok_bind, ih (j + 1) next, ok_bind, pure_eq_ok,
          List.drop_eq_getElem_cons next, List.take_succ_cons, escape, escape, List.flatMap_cons]
        rfl

/-- The line about one position, up to its end. -/
def entryLine (data : List UInt8) (width p : Nat) : List UInt8 :=
  literal "\t" ++ DecimalText.text p ++
    if width ≠ 0 then literal " :\t" ++ escape ((data.drop p).take width) else []

theorem newline_not_mem_entryLine (data : List UInt8) (width p : Nat) :
    (10 : UInt8) ∉ entryLine data width p := by
  have excerpt := newline_not_mem_escape ((data.drop p).take width)
  have position := DecimalText.newline_not_mem_text p
  rw [entryLine]
  split
  · simp only [List.mem_append, not_or]
    exact ⟨⟨by decide, position⟩, by decide, excerpt⟩
  · simp only [List.append_nil, List.mem_append, not_or]
    exact ⟨by decide, position⟩

theorem printEntry_eq (fits : data.length < 2 ^ idxBits) (width : Nat) {i p : Nat}
    (hi : SA[i]? = some p) (inside : p ≤ data.length) :
    printEntry SA data width i = .ok (entryLine data width p ++ [10]) := by
  rw [printEntry, load_eq_ok.mpr hi, ok_bind, entryLine]
  split
  · rw [excerpt_eq fits width 0 inside, ok_bind, pure_eq_ok, Nat.add_zero]
    simp only [List.append_assoc]
    rfl
  · rw [List.append_nil]
    rfl

/-- A substring width that is a number no `unsigned long` holds. -/
def Rejected (sw : List UInt8) : Prop := DecimalText.Numeral sw ∧ 2 ^ 64 ≤ DecimalText.value sw

/-- How many characters of each suffix a substring width asks for: none if it is not a number, and
no more than an `unsigned` can tell. -/
def widthOf (sw : List UInt8) : Nat :=
  if DecimalText.Numeral sw then DecimalText.value sw % 2 ^ 32 else 0

theorem isNumber_iff {sw : List UInt8} : isNumber sw = true ↔ DecimalText.Numeral sw := by
  rw [isNumber, Bool.and_eq_true, bne_iff_ne, beq_iff_eq, List.dropWhile_eq_nil_iff]
  rfl

theorem subwidth_rejected {sw : List UInt8} (rejected : Rejected sw) : subwidth sw = none := by
  rw [subwidth, if_pos (isNumber_iff.mpr rejected.1), stoul, if_pos rejected.2]
  rfl

theorem subwidth_accepted {sw : List UInt8} (accepted : ¬ Rejected sw) :
    subwidth sw = some (widthOf sw) := by
  rw [subwidth, widthOf]
  by_cases numeral : DecimalText.Numeral sw
  · rw [if_pos (isNumber_iff.mpr numeral), if_pos numeral, stoul,
      if_neg fun large => accepted ⟨numeral, large⟩]
    rfl
  · rw [if_neg fun number => numeral (isNumber_iff.mp number), if_neg numeral]

/-- The positions between two ranks. -/
def between (SA : List Nat) (range : Nat × Nat) : List Nat :=
  (SA.drop range.1).take (range.2 - range.1)

theorem printRange_eq (fits : data.length < 2 ^ idxBits) (positions : ∀ p ∈ SA, p ≤ data.length)
    {range : Nat × Nat} (order : range.1 ≤ range.2) (bound : range.2 ≤ SA.length)
    (last : range.2 < 2 ^ idxBits) {sw : List UInt8} (accepted : ¬ Rejected sw) :
    printRange range SA data sw = .ok (some (rangeHeader range ++
      (between SA range).flatMap fun p => entryLine data (widthOf sw) p ++ [10])) := by
  let inv (k : Nat) (out : List UInt8) : Prop := out = rangeHeader range ++
    (between SA (range.1, k)).flatMap fun p => entryLine data (widthOf sw) p ++ [10]
  have init : inv range.1 (rangeHeader range) := by
    simp only [inv, between, Nat.sub_self, List.take_zero, List.flatMap_nil, List.append_nil]
  have step : ∀ i out, range.1 ≤ i → i < range.2 → inv i out → ∃ t, (do
      let line ← printEntry SA data (widthOf sw) i
      return out ++ line : Run (List UInt8)) = .ok t ∧ inv (i + 1) t := by
    rintro i _ lower upper rfl
    have hi := List.getElem?_eq_getElem (show i < SA.length by omega)
    rw [printEntry_eq fits (widthOf sw) hi (positions _ (List.getElem_mem _)), ok_bind]
    refine ⟨_, rfl, ?_⟩
    have grown : between SA (range.1, i + 1) = between SA (range.1, i) ++ [SA[i]] := by
      rw [between, between, show i + 1 - range.1 = i - range.1 + 1 by omega, List.take_add_one,
        List.getElem?_drop, show range.1 + (i - range.1) = i by omega, hi]
      rfl
    simp only [inv]
    rw [grown, List.flatMap_append, List.flatMap_singleton, List.append_assoc]
  obtain ⟨_, run, rfl⟩ := forUp_ok inv order last init step
  rw [printRange, subwidth_accepted accepted]
  simp only []
  rw [run]
  rfl

theorem printRange_rejected (range : Nat × Nat) {sw : List UInt8} (rejected : Rejected sw) :
    printRange range SA data sw = .ok none := by
  rw [printRange, subwidth_rejected rejected]
  rfl

/-- The positions read back from the lines behind the third. -/
def positions (out : List UInt8) : List Nat :=
  ((DecimalText.lines out).drop 3).map fun line => DecimalText.leading (line.drop 1)

/-- The second line of a report. -/
def rangeLine (range : Nat × Nat) : List UInt8 :=
  literal "\t(" ++ DecimalText.text range.1 ++ literal ", " ++ DecimalText.text range.2 ++
    literal ")"

theorem newline_not_mem_rangeLine (range : Nat × Nat) : (10 : UInt8) ∉ rangeLine range := by
  have first := DecimalText.newline_not_mem_text range.1
  have last := DecimalText.newline_not_mem_text range.2
  simp only [rangeLine, List.mem_append, not_or]
  exact ⟨⟨⟨⟨by decide, first⟩, by decide⟩, last⟩, by decide⟩

/-- The three lines in front of the positions. -/
theorem lines_rangeHeader (range : Nat × Nat) (body : List UInt8) :
    DecimalText.lines (rangeHeader range ++ body) = literal "Suffix-array-indices-range :" ::
      rangeLine range :: literal "String-indices:" :: DecimalText.lines body := by
  have opens : literal "Suffix-array-indices-range :\n\t(" =
      literal "Suffix-array-indices-range :" ++ 10 :: literal "\t(" := by decide
  have closes : literal ")\nString-indices:\n" =
      literal ")" ++ 10 :: (literal "String-indices:" ++ [10]) := by decide
  have split : rangeHeader range ++ body = literal "Suffix-array-indices-range :" ++ 10 ::
      (rangeLine range ++ 10 :: (literal "String-indices:" ++ 10 :: body)) := by
    rw [rangeHeader, rangeLine, opens, closes]
    simp only [List.append_assoc, List.cons_append, List.nil_append]
  rw [split, DecimalText.lines_cons _ _ (by decide),
    DecimalText.lines_cons _ _ (newline_not_mem_rangeLine range),
    DecimalText.lines_cons _ _ (by decide)]

/-- The position in the line about it. -/
theorem leading_entryLine (data : List UInt8) (width p : Nat) :
    DecimalText.leading ((entryLine data width p).drop 1) = p := by
  have tab : (literal "\t").length = 1 := by decide
  rw [entryLine, List.append_assoc, List.drop_left' tab]
  refine DecimalText.leading_text p fun c hc => ?_
  split at hc
  · have space : (literal " :\t").head? = some 32 := by decide
    rw [List.head?_append, space] at hc
    obtain rfl := Option.some.inj hc
    decide
  · contradiction

/-- Whatever the text contains, the positions between two ranks can be told from what
`print_range` writes about them. -/
theorem positions_printRange (fits : data.length < 2 ^ idxBits)
    (inside : ∀ p ∈ SA, p ≤ data.length) {range : Nat × Nat} (order : range.1 ≤ range.2)
    (bound : range.2 ≤ SA.length) (last : range.2 < 2 ^ idxBits) {sw : List UInt8}
    (accepted : ¬ Rejected sw) :
    ∃ out, printRange range SA data sw = .ok (some out) ∧ positions out = between SA range := by
  refine ⟨_, printRange_eq fits inside order bound last accepted, ?_⟩
  rw [positions, lines_rangeHeader,
    DecimalText.lines_flatMap _ _ fun p _ => newline_not_mem_entryLine data (widthOf sw) p,
    List.drop_succ_cons, List.drop_succ_cons, List.drop_succ_cons, List.drop_zero, List.map_map]
  exact (List.map_congr_left fun p _ => leading_entryLine data _ p).trans (List.map_id _)

/-- A text of a digit, a newline, a tab and a digit. -/
theorem positions_printRange_newline :
    ∃ out, printRange (1, 4) [4, 2, 1, 0, 3] [49, 10, 9, 50] [51] = .ok (some out) ∧
      positions out = [2, 1, 0] :=
  @positions_printRange [49, 10, 9, 50] [4, 2, 1, 0, 3] (by decide) (by decide) (1, 4) (by decide)
    (by decide) (by decide) [51] fun rejected => absurd rejected.2 (by decide)

section Answers

variable {pattern : String} {sw : List UInt8}

/-- The occurrences, each once and by increasing suffix. -/
structure Listed (data pattern : List UInt8) (listed : List Nat) : Prop where
  nonempty : listed ≠ []
  exact : ∀ p, p ∈ listed ↔ Occurs data pattern p
  sorted : listed.Pairwise (fun p q => data.drop p < data.drop q)

theorem Listed.exists_occurs {pattern : List UInt8} {listed : List Nat}
    (h : Listed data pattern listed) : ∃ p, Occurs data pattern p := by
  obtain ⟨p, hp⟩ := List.exists_mem_of_ne_nil _ h.nonempty
  exact ⟨p, (h.exact p).mp hp⟩

/-- What a search for a pattern prints that returns `range`. -/
inductive Answers (data : List UInt8) (SA : List Nat) (pattern : String) (sw : List UInt8)
    (range : Nat × Nat) : Option (List UInt8) → Prop
  | absent : (∀ p, ¬ Occurs data (patternBytes pattern) p) →
      Answers data SA pattern sw range
        (some (literal "Pattern ''" ++ patternBytes pattern ++ literal "'' Not Found\n"))
  | present : ¬ Rejected sw → Listed data (patternBytes pattern) (between SA range) →
      Answers data SA pattern sw range
        (some (literal "Pattern ''" ++ patternBytes pattern ++ literal "'':\n" ++
          (rangeHeader range ++
            (between SA range).flatMap fun p => entryLine data (widthOf sw) p ++ [10])))
  /-- A width that `std::stoul` rejects loses an answer that there is. -/
  | lost : Rejected sw → (∃ p, Occurs data (patternBytes pattern) p) →
      Answers data SA pattern sw range none

theorem mem_between {range : Nat × Nat} {p : Nat} :
    p ∈ between SA range ↔ ∃ k : Nat, range.1 ≤ k ∧ k < range.2 ∧ SA[k]? = some p := by
  rw [between, List.mem_iff_getElem?]
  constructor
  · rintro ⟨k, hk⟩
    rw [List.getElem?_take, List.getElem?_drop] at hk
    split at hk
    · exact ⟨range.1 + k, by omega, by omega, hk⟩
    · contradiction
  · rintro ⟨k, lower, upper, hk⟩
    refine ⟨k - range.1, ?_⟩
    rw [List.getElem?_take, List.getElem?_drop, if_pos (by omega),
      show range.1 + (k - range.1) = k by omega, hk]

theorem exists_rank_of_occurs (hSA : IsSuffixArray data SA) (nonempty : pattern ≠ "") {p : Nat}
    (occurs : Occurs data (patternBytes pattern) p) : ∃ k : Nat, SA[k]? = some p := by
  have hp : p ≤ data.length := by
    by_contra hgt
    rw [Occurs, List.drop_eq_nil_of_le (by omega), List.prefix_nil, patternBytes,
      List.map_eq_nil_iff, chars, List.map_eq_nil_iff, String.toList_eq_nil_iff] at occurs
    exact nonempty occurs
  obtain ⟨k, hk, hrank⟩ := hSA.exists_rank hp
  exact ⟨k, hrank ▸ List.getElem?_eq_getElem hk⟩

/-- What a pair of ranks with matches stands for. -/
theorem listed_of_matchRange (hSA : IsSuffixArray data SA) (nonempty : pattern ≠ "")
    {range : Nat × Nat} (found : MatchRange data SA (patternBytes pattern) range)
    (proper : range.1 < range.2 ∧ range.2 ≤ SA.length) :
    Listed data (patternBytes pattern) (between SA range) where
  nonempty := by
    have first := List.getElem?_eq_getElem (show range.1 < SA.length by omega)
    exact List.ne_nil_of_mem (mem_between.mpr ⟨_, Nat.le_refl _, proper.1, first⟩)
  exact p := by
    rw [mem_between]
    constructor
    · rintro ⟨k, lower, upper, hk⟩
      exact (found.exact k p hk).mp ⟨lower, upper⟩
    · intro occurs
      obtain ⟨k, hk⟩ := exists_rank_of_occurs hSA nonempty occurs
      obtain ⟨lower, upper⟩ := (found.exact k p hk).mpr occurs
      exact ⟨k, lower, upper, hk⟩
  sorted := (hSA.sorted.sublist (List.drop_sublist _ _)).sublist (List.take_sublist _ _)

/-- What is printed about a correct pair of ranks. -/
theorem report_ok (sw : List UInt8) (fits : data.length + 1 < 2 ^ idxBits)
    (hSA : IsSuffixArray data SA) (nonempty : pattern ≠ "") {range : Nat × Nat}
    (found : MatchRange data SA (patternBytes pattern) range) :
    ∃ out, report pattern range SA data sw = .ok out ∧ Answers data SA pattern sw range out := by
  have ranked {p : Nat} := exists_rank_of_occurs (p := p) hSA nonempty
  rw [report]
  obtain rfl | ⟨order, bound⟩ := found.shape
  · rw [if_pos rfl]
    refine ⟨_, rfl, .absent fun p occurs => ?_⟩
    obtain ⟨k, hk⟩ := ranked occurs
    have := (found.exact k p hk).mpr occurs
    omega
  · rw [if_neg (by omega)]
    have listed := listed_of_matchRange hSA nonempty found ⟨order, bound⟩
    by_cases rejected : Rejected sw
    · rw [printRange_rejected _ rejected]
      exact ⟨none, rfl, .lost rejected listed.exists_occurs⟩
    · have length := hSA.length_eq
      rw [printRange_eq (Nat.lt_of_succ_lt fits) (fun p hp => hSA.mem_iff.mp hp) order.le bound
        (by omega) rejected]
      exact ⟨_, rfl, .present rejected listed⟩

end Answers

end SuffixArray.Report
