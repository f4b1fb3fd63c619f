import SuffixArray.CompressedIndex
import SuffixArray.Report.Answers

/-!
# What a search of a compressed index prints

The occurrences are printed as they are for any other index, but for two effects of the index
too many. The whole text is printed twice if it matches and the greatest suffix does. And an
occurrence that is the only one and at the greatest suffix may be missed.
-/

namespace SuffixArray.Report

open Checked Console
open InducedSorting (idxBits)
open Program (chars patternBytes reported Environment)
open Search (MatchRange Occurs repeatedRange RunsOver CountsTwice)
open SuffixOrder (IsSuffixArray)
open Bisection (LeadingOnes)

variable {data : List UInt8} {SA : List Nat}

/-- The position of the greatest suffix. -/
def Greatest (data : List UInt8) (p : Nat) : Prop :=
  p ≤ data.length ∧ ∀ q ≤ data.length, data.drop q ≤ data.drop p

/-- The only occurrence is the greatest suffix, and the bisection runs over it. -/
def Missed (data pattern : List UInt8) : Prop :=
  (∃ p, Greatest data p ∧ ∀ q, Occurs data pattern q ↔ q = p) ∧ data < pattern ∧
    LeadingOnes (data.length + 3)

/-- The greatest suffix matches and so does the whole text. -/
def Doubled (data pattern : List UInt8) : Prop :=
  (∃ p, Greatest data p ∧ Occurs data pattern p) ∧ Occurs data pattern 0

/-- What a search of a compressed index prints for a pattern whose matches have the ranks of
`range`. -/
inductive CompressedAnswers (data : List UInt8) (SA : List Nat) (pattern : String)
    (sw : List UInt8) (range : Nat × Nat) : Option (List UInt8) → Prop
  | absent : (∀ p, ¬ Occurs data (patternBytes pattern) p) ∨ Missed data (patternBytes pattern) →
      CompressedAnswers data SA pattern sw range
        (some (literal "Pattern ''" ++ patternBytes pattern ++ literal "'' Not Found\n"))
  | present {doubled : List Nat} : ¬ Rejected sw →
      Listed data (patternBytes pattern) (between SA range) →
      ¬ Missed data (patternBytes pattern) →
      (doubled = [0] ∧ Doubled data (patternBytes pattern) ∨
        doubled = [] ∧ ¬ Doubled data (patternBytes pattern)) →
      CompressedAnswers data SA pattern sw range
        (some (literal "Pattern ''" ++ patternBytes pattern ++ literal "'':\n" ++
          (rangeHeader (range.1, range.2 + doubled.length) ++
            (between SA range ++ doubled).flatMap fun p =>
              entryLine data (widthOf sw) p ++ [10])))
  | lost : Rejected sw → (∃ p, Occurs data (patternBytes pattern) p) →
      ¬ Missed data (patternBytes pattern) → CompressedAnswers data SA pattern sw range none

/-- The greatest suffix has the last rank. -/
theorem greatest_iff (hSA : IsSuffixArray data SA) {p : Nat} :
    Greatest data p ↔ SA[data.length]? = some p := by
  have length := hSA.length_eq
  have hlast : data.length < SA.length := by omega
  have last := List.getElem?_eq_getElem hlast
  constructor
  · rintro ⟨hp, greatest⟩
    obtain ⟨k, hk, rfl⟩ := hSA.exists_rank hp
    obtain hlt | rfl := Nat.lt_or_eq_of_le (show k ≤ data.length by omega)
    · have less := hSA.getElem?_lt (List.getElem?_eq_getElem hk) last hlt
      exact absurd less (not_lt.mpr (greatest _ (hSA.getElem_le hlast)))
    · exact last
  · intro hp
    obtain rfl := Option.some.inj (last.symm.trans hp)
    refine ⟨hSA.getElem_le hlast, fun q hq => ?_⟩
    obtain ⟨k, hk, rfl⟩ := hSA.exists_rank hq
    exact hSA.getElem?_le (List.getElem?_eq_getElem hk) last (by omega)

section Matches

variable {pattern : String} {range : Nat × Nat}

/-- An occurrence is at the last rank exactly if the range ends there. -/
theorem doubled_iff (hSA : IsSuffixArray data SA)
    (found : MatchRange data SA (patternBytes pattern) range)
    (proper : range.1 < range.2 ∧ range.2 ≤ SA.length) :
    Doubled data (patternBytes pattern) ↔
      CountsTwice data (patternBytes pattern) SA.length range := by
  have length := hSA.length_eq
  have last := List.getElem?_eq_getElem (show data.length < SA.length by omega)
  refine and_congr_left' ?_
  constructor
  · rintro ⟨p, greatest, occurs⟩
    have := (found.exact _ p ((greatest_iff hSA).mp greatest)).mpr occurs
    omega
  · intro hend
    exact ⟨_, (greatest_iff hSA).mpr last, (found.exact _ _ last).mp (by omega)⟩

theorem missed_iff (hSA : IsSuffixArray data SA) (nonempty : pattern ≠ "")
    (found : MatchRange data SA (patternBytes pattern) range)
    (proper : range.1 < range.2 ∧ range.2 ≤ SA.length) :
    Missed data (patternBytes pattern) ↔ RunsOver data (patternBytes pattern) SA.length range := by
  have length := hSA.length_eq
  have last := List.getElem?_eq_getElem (show data.length < SA.length by omega)
  rw [Missed, RunsOver, length]
  refine and_congr_left' ?_
  constructor
  · rintro ⟨p, greatest, only⟩
    have rank := (greatest_iff hSA).mp greatest
    have inside := (found.exact _ p rank).mpr ((only p).mpr rfl)
    have first := List.getElem?_eq_getElem (show range.1 < SA.length by omega)
    have occurs := (found.exact _ _ first).mp ⟨Nat.le_refl _, proper.1⟩
    by_contra other
    have less := hSA.getElem?_lt first rank (by omega)
    rw [(only _).mp occurs] at less
    exact lt_irrefl _ less
  · intro hfirst
    refine ⟨_, (greatest_iff hSA).mpr last, fun q => ⟨fun occurs => ?_, ?_⟩⟩
    · obtain ⟨k, hk⟩ := exists_rank_of_occurs hSA nonempty occurs
      have := (found.exact k q hk).mpr occurs
      obtain rfl : k = data.length := by omega
      exact Option.some.inj (hk.symm.trans last)
    · rintro rfl
      exact (found.exact _ _ last).mp (by omega)

theorem between_append_of_le (y : Nat) (h : range.2 ≤ SA.length)
    (order : range.1 ≤ range.2) : between (SA ++ [y]) range = between SA range := by
  rw [between, between, List.drop_append_of_le_length (by omega),
    List.take_append_of_le_length (by rw [List.length_drop]; omega)]

theorem between_append (y : Nat) {first : Nat} (h : first ≤ SA.length) :
    between (SA ++ [y]) (first, SA.length + 1) = between SA (first, SA.length) ++ [y] := by
  rw [between, between, List.drop_append_of_le_length h, List.take_of_length_le,
    List.take_of_length_le]
  · rw [List.length_drop]
  · rw [List.length_append, List.length_drop, List.length_singleton]
    omega

/-- What lies between the ranks that are returned, unless the match is missed. -/
theorem exists_doubled (hSA : IsSuffixArray data SA)
    (found : MatchRange data SA (patternBytes pattern) range)
    (proper : range.1 < range.2 ∧ range.2 ≤ SA.length)
    (stays : ¬ RunsOver data (patternBytes pattern) SA.length range) :
    ∃ doubled : List Nat,
      repeatedRange data (patternBytes pattern) SA.length range =
        (range.1, range.2 + doubled.length) ∧
      range.2 + doubled.length ≤ SA.length + 1 ∧
      between (SA ++ [0]) (range.1, range.2 + doubled.length) = between SA range ++ doubled ∧
      (doubled = [0] ∧ Doubled data (patternBytes pattern) ∨
        doubled = [] ∧ ¬ Doubled data (patternBytes pattern)) := by
  have twice := doubled_iff hSA found proper
  have here : range.1 ≠ SA.length := by omega
  rw [repeatedRange, if_neg (fun either => either.elim here stays)]
  by_cases both : CountsTwice data (patternBytes pattern) SA.length range
  · refine ⟨[0], ?_, ?_, ?_, Or.inl ⟨rfl, twice.mpr both⟩⟩
    · rw [if_pos both, both.1]
      rfl
    · rw [both.1]
      rfl
    · rw [List.length_singleton, both.1, between_append 0 (by omega), ← both.1]
  · refine ⟨[], if_neg both, ?_, ?_, Or.inr ⟨rfl, twice.not.mpr both⟩⟩
    · exact Nat.le_succ_of_le proper.2
    · rw [List.length_nil, Nat.add_zero, List.append_nil,
        between_append_of_le 0 proper.2 proper.1.le]

/-- What is printed about a correct pair of ranks with one suffix too many behind them. -/
theorem report_compressed (sw : List UInt8) (small : data.length + 2 < 2 ^ idxBits)
    (hSA : IsSuffixArray data SA) (nonempty : pattern ≠ "")
    (found : MatchRange data SA (patternBytes pattern) range) :
    ∃ out, report pattern (repeatedRange data (patternBytes pattern) SA.length range) (SA ++ [0])
        data sw = .ok out ∧
      CompressedAnswers data SA pattern sw range out := by
  have length := hSA.length_eq
  have count : (SA ++ [0]).length = SA.length + 1 := List.length_append
  have positions : ∀ p ∈ SA ++ [0], p ≤ data.length := by
    intro p hp
    obtain hp | hp := List.mem_append.mp hp
    · exact hSA.mem_iff.mp hp
    · exact List.mem_singleton.mp hp ▸ Nat.zero_le _
  rw [report, count]
  obtain rfl | proper := found.shape
  · have behind : repeatedRange data (patternBytes pattern) SA.length (SA.length, SA.length) =
        (SA.length + 1, SA.length + 1) := if_pos (Or.inl rfl)
    rw [behind, if_pos rfl]
    exact ⟨_, rfl, .absent (Or.inl (found.absent hSA))⟩
  · have missed := missed_iff hSA nonempty found proper
    by_cases beyond : RunsOver data (patternBytes pattern) SA.length range
    · have behind : repeatedRange data (patternBytes pattern) SA.length range =
          (SA.length + 1, SA.length + 1) := if_pos (Or.inr beyond)
      rw [behind, if_pos rfl]
      exact ⟨_, rfl, .absent (Or.inr (missed.mpr beyond))⟩
    · have unmissed := missed.not.mpr beyond
      have listed := listed_of_matchRange hSA nonempty found proper
      obtain ⟨doubled, hrange, bound, hbetween, hdoubled⟩ :=
        exists_doubled hSA found proper beyond
      rw [hrange, if_neg (by simp only; omega)]
      by_cases rejected : Rejected sw
      · rw [printRange_rejected _ rejected]
        exact ⟨none, rfl, .lost rejected listed.exists_occurs unmissed⟩
      · rw [printRange_eq (by omega) positions (by simp only; omega) (by rw [count]; exact bound)
          (by simp only; omega) rejected, hbetween]
        exact ⟨_, rfl, .present rejected listed unmissed hdoubled⟩

end Matches

variable {env : Environment} {args : List String} {modes : Modes} {text image : List UInt8}

/-- `main -f PATTERN -i FILE` on a compressed index. -/
theorem main_answers_compressed (made : Modes.make args = .ok modes)
    (stores : Program.Stores text true image) (small : text.length + 2 < 2 ^ idxBits)
    (file : env.files (modes.value "InFile") = some image) (unread : env.unset.useLcp = false)
    (long : modes.shortInput = false) (pattern : modes.value "Infix" ≠ "")
    (named : modes.value "InFile" ≠ "") :
    ∃ SA range out, IsSuffixArray text SA ∧
      MatchRange text SA (patternBytes (modes.value "Infix")) range ∧
      main env args = pure (.searched (repeatedRange text (patternBytes (modes.value "Infix"))
        SA.length range), out) ∧
      CompressedAnswers text SA (modes.value "Infix")
        (patternBytes (modes.value "SubstringWidth")) range out := by
  obtain ⟨SA, strm, hSA, read⟩ := Program.read_compressed stores unread
  obtain ⟨range, -, found⟩ :=
    Search.findAllInfix_plain_eq stores.fits hSA (chars (modes.value "Infix"))
  have search := Search.findAllInfix_append small hSA found env.fuel env.past
  obtain ⟨out, printed, answers⟩ := report_compressed
    (patternBytes (modes.value "SubstringWidth")) small hSA pattern found
  refine ⟨SA, range, out, hSA, found, ?_, answers⟩
  rw [main_find made long pattern named, findInfixInF, file, read]
  change (ofRun (Search.findAllInfix env.fuel env.past (chars (modes.value "Infix")) text
    (SA ++ [0]) [] []) >>= _) = _
  rw [search, ofRun_ok, pure_bind]
  change (ofRun (report (modes.value "Infix") (repeatedRange text
    (patternBytes (modes.value "Infix")) SA.length range) (SA ++ [0]) text
    (patternBytes (modes.value "SubstringWidth"))) >>= _) = _
  rw [printed, ofRun_ok, pure_bind]
  rfl

theorem main_answers_compressed_aab : ∃ SA range out,
    IsSuffixArray ([97, 97, 98] : List UInt8) SA ∧
      MatchRange [97, 97, 98] SA (patternBytes "b") range ∧
      main { Program.aabFile with files := fun _ => some Program.aabCompressed }
        ["-f", "b", "-i", "SA_DATA", "-sw", "3"] = pure (.searched
          (repeatedRange [97, 97, 98] (patternBytes "b") SA.length range), out) ∧
      CompressedAnswers [97, 97, 98] SA "b" (patternBytes "3") range out := by
  have made : Modes.make ["-f", "b", "-i", "SA_DATA", "-sw", "3"] = .ok
      { shortInput := false,
        modes := #v["SA_DATA", "-is", "b", "SA_DATA", "3", "", "", ""] } := by decide
  exact main_answers_compressed made Program.aabCompressed_stores (by decide) rfl rfl rfl
    (by decide) (by decide)

end SuffixArray.Report
