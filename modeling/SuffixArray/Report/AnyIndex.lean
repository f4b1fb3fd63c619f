import SuffixArray.AnyIndex
import SuffixArray.Container.Limits
import SuffixArray.Report.Answers

/-!
# What a search prints of any file

The file need not be one that the program has written. If the entries that are read for the
suffix array are positions of the text that is read with them, and no tables are read, the run
comes to its end, whatever the order of the entries. It prints a position only if the text
from there on and the pattern do not differ before one of them ends, and the first one it
prints is a match.
-/

namespace SuffixArray.Report

open Checked Console
open Container (Contents)
open InducedSorting (idxBits)
open Program (chars patternBytes Environment)
open Search (Agrees AgreeingRange Occurs)

variable {data : List UInt8} {SA : List Nat}

/-- What is printed about a pair of ranks in an array of any positions. -/
inductive AgreeingAnswers (data : List UInt8) (SA : List Nat) (pattern : String) (sw : List UInt8)
    (range : Nat × Nat) : Option (List UInt8) → Prop
  | absent : range = (SA.length, SA.length) →
      AgreeingAnswers data SA pattern sw range
        (some (literal "Pattern ''" ++ patternBytes pattern ++ literal "'' Not Found\n"))
  | present {first : Nat} {others : List Nat} : ¬ Rejected sw →
      between SA range = first :: others → Occurs data (patternBytes pattern) first →
      (∀ p ∈ others, Agrees data (patternBytes pattern) p) →
      AgreeingAnswers data SA pattern sw range
        (some (literal "Pattern ''" ++ patternBytes pattern ++ literal "'':\n" ++
          (rangeHeader range ++
            (first :: others).flatMap fun p => entryLine data (widthOf sw) p ++ [10])))
  | lost : Rejected sw → (∃ p, Occurs data (patternBytes pattern) p) →
      AgreeingAnswers data SA pattern sw range none

/-- What is printed about ranks that agree. -/
theorem report_any {pattern : String} (sw : List UInt8) (fits : data.length < 2 ^ idxBits)
    (few : SA.length < 2 ^ idxBits) (inside : ∀ p ∈ SA, p ≤ data.length) {range : Nat × Nat}
    (found : AgreeingRange data SA (patternBytes pattern) range) :
    ∃ out, report pattern range SA data sw = .ok out ∧
      AgreeingAnswers data SA pattern sw range out := by
  rw [report]
  obtain absent | ⟨order, bound⟩ := found.shape
  · rw [if_pos (congrArg Prod.fst absent)]
    exact ⟨_, rfl, .absent absent⟩
  · have hlt : range.1 < SA.length := by omega
    have matched := found.first _ (List.getElem?_eq_getElem hlt)
    rw [if_neg (Nat.ne_of_lt hlt)]
    by_cases rejected : Rejected sw
    · rw [printRange_rejected _ rejected]
      exact ⟨none, rfl, .lost rejected ⟨_, matched⟩⟩
    · have split : between SA range =
          SA[range.1] :: between SA (range.1 + 1, range.2) := by
        rw [between, between, List.drop_eq_getElem_cons hlt,
          show range.2 - range.1 = range.2 - (range.1 + 1) + 1 by omega, List.take_succ_cons]
      have others : ∀ p ∈ between SA (range.1 + 1, range.2),
          Agrees data (patternBytes pattern) p := by
        intro p hp
        obtain ⟨k, lower, upper, hk⟩ := mem_between.mp hp
        exact found.agrees k p (by omega) upper hk
      rw [printRange_eq fits inside order.le bound (by omega) rejected, split]
      exact ⟨_, rfl, .present rejected split matched others⟩

section Program

variable {env : Environment} {args : List String} {modes : Modes} {bytes : List UInt8}

/-- `main -f PATTERN -i FILE` on a file with any contents. -/
theorem main_answers_any (made : Modes.make args = .ok modes) (long : modes.shortInput = false)
    (pattern : modes.value "Infix" ≠ "") (named : modes.value "InFile" ≠ "")
    (file : env.files (modes.value "InFile") = some bytes) (small : bytes.length < 2 ^ idxBits)
    {c : Contents} (holds : (Container.read env.unset (some bytes) Container.fresh).2.1 = c)
    (untabled : c.lcpL = []) (inside : ∀ p ∈ c.SA, p ≤ c.data.length) :
    ∃ range out, main env args = pure (.searched range, out) ∧
      AgreeingAnswers c.data c.SA (modes.value "Infix")
        (patternBytes (modes.value "SubstringWidth")) range out := by
  obtain ⟨fits, entries⟩ := Container.read_limits env.unset bytes holds
  have few : c.SA.length < 2 ^ idxBits := entries.elim id fun most => most.trans_lt small
  obtain ⟨range, search, found⟩ := Search.findAllInfix_any fits few inside
    (chars (modes.value "Infix")) env.fuel env.past c.lcpR
  obtain ⟨out, printed, answers⟩ :=
    report_any (patternBytes (modes.value "SubstringWidth")) fits few inside found
  refine ⟨range, out, ?_, answers⟩
  have opened : (Container.read env.unset (some bytes) Container.fresh).1 = true := rfl
  rw [main_find made long pattern named, findInfixInF, file]
  simp only [opened, if_true, holds, untabled]
  rw [search, ofRun_ok, pure_bind, printed, ofRun_ok, pure_bind]

/-- An index of "ab" with its entries out of order. -/
def unsortedIndex : List UInt8 :=
  [0, 2, 0, 0, 0, 97, 98, 0, 0, 0, 0, 1, 0, 0, 0, 2, 0, 0, 0, 0]

def unsortedFile : Environment := { Program.oneFile with files := fun _ => some unsortedIndex }

theorem main_answers_any_unsorted : ∃ range out,
    main unsortedFile ["-f", "b", "-i", "SA_DATA", "-sw", "3"] = pure (.searched range, out) ∧
      AgreeingAnswers [97, 98] [0, 1, 2] "b" (patternBytes "3") range out := by
  have made : Modes.make ["-f", "b", "-i", "SA_DATA", "-sw", "3"] = .ok
      { shortInput := false,
        modes := #v["SA_DATA", "-is", "b", "SA_DATA", "3", "", "", ""] } := by decide
  have holds : (Container.read unsortedFile.unset (some unsortedIndex) Container.fresh).2.1 =
      ⟨[97, 98], [0, 1, 2], [], []⟩ := by decide
  have answers := @main_answers_any unsortedFile _ _ unsortedIndex made rfl (by decide) (by decide)
    rfl (by decide) _ holds rfl (by decide)
  exact answers

end Program

end SuffixArray.Report
