import SuffixArray.Container.Truncation
import SuffixArray.Program

/-!
# Searching a file that has been cut off

`read` does not ask whether its stream has failed: it returns true for every file that opens,
and `findInfixInF` goes on to search what the vectors happen to hold.
-/

namespace SuffixArray.Program

open Checked Console
open Container (Contents fresh read write)

/-- A file that ends too early is noticed: `read` returns false on it, and `findInfixInF` prints
an error and exits. -/
def DetectsTruncation (image : List UInt8) : Prop :=
  ∀ short, short <+: image → short ≠ image →
    (∀ unset, (read unset (some short) fresh).1 = false) ∧
    ∀ (env : Environment) (pattern fName : String) (texts : List String),
      env.files fName = some short → findInfixInF env pattern fName texts =
        .error (.exit (texts ++ ["ERROR while reading ''" ++ fName ++ "''\n"]))

/-- No cut is ever noticed. For every file and every proper beginning of it `read` returns true
and `findInfixInF` searches the vectors it leaves, although for contents that fit the stream has
failed. -/
theorem truncation_never_detected {c : Contents} {cmpr : Bool} {image : List UInt8}
    (written : write c cmpr = .ok image) :
    ¬ DetectsTruncation image ∧ ∀ short, short <+: image → short ≠ image →
      (∀ unset, (read unset (some short) fresh).1 = true ∧
        (c.Fits → (read unset (some short) fresh).2.2.failed = true)) ∧
      ∀ (env : Environment) (pattern fName : String), env.files fName = some short →
        findInfixInF env pattern fName = (do
          let partly := (read env.unset (some short) fresh).2.1
          let range ← ofRun (Search.findAllInfix env.fuel env.past (chars pattern)
            partly.data partly.SA partly.lcpL partly.lcpR)
          return .searched range) := by
  constructor
  · intro detects
    have := (detects [] List.nil_prefix (Container.write_ne_nil written).symm).1
      { cmpr := false, dataSize := 0, maxIdxSize := 0, useLcp := false, s := 0, idx := 0 }
    exact nomatch this
  · intro short shorter proper
    constructor
    · intro unset
      exact ⟨rfl, fun fits => Container.read_short_failed fits written shorter proper unset⟩
    · intro env pattern fName opened
      rw [findInfixInF, opened]
      rfl

theorem truncation_never_detected_ab :
    ¬ DetectsTruncation [1, 2, 0, 0, 0, 97, 98, 1, 0, 0, 0, 50, 48, 49, 0] ∧
    (∀ unset, (read unset (some [1, 2]) fresh).1 = true) := by
  have written : write { data := [97, 98], SA := [2, 0, 1], lcpL := [], lcpR := [] } true =
      .ok [1, 2, 0, 0, 0, 97, 98, 1, 0, 0, 0, 50, 48, 49, 0] := by decide +kernel
  obtain ⟨never, cut⟩ := truncation_never_detected written
  exact ⟨never, fun unset => ((cut [1, 2] ⟨_, rfl⟩ (by decide)).1 unset).1⟩

/-- A file that has been cut off behind the data. -/
def cutFile : Environment where
  files _ := some [0, 2, 0, 0, 0, 97, 98]
  sort _ l := l
  parallelSort _ l := l
  past _ := none
  unset := { cmpr := false, dataSize := 0, maxIdxSize := 0, useLcp := false, s := 0, idx := 0 }
  fuel := 0

/-- Without its suffix array the file of `ab` yields three matches of `a`, where there is one. -/
theorem truncation_unnoticed :
    write { data := [97, 98], SA := [2, 0, 1], lcpL := [], lcpR := [] } false =
      .ok [0, 2, 0, 0, 0, 97, 98, 2, 0, 0, 0, 0, 0, 0, 0, 1, 0, 0, 0, 0] ∧
    findInfixInF cutFile "a" "SA_DATA" [] = .ok (.searched (0, 3), []) ∧
    ¬ ∀ (c : Contents) (cmpr : Bool) (image : List UInt8), write c cmpr = .ok image →
      DetectsTruncation image := by
  have written : write { data := [97, 98], SA := [2, 0, 1], lcpL := [], lcpR := [] } false =
      .ok [0, 2, 0, 0, 0, 97, 98, 2, 0, 0, 0, 0, 0, 0, 0, 1, 0, 0, 0, 0] := by decide +kernel
  have run : findInfixInF cutFile "a" "SA_DATA" [] = .ok (.searched (0, 3), []) := by
    decide +kernel
  refine ⟨written, run, fun claim => ?_⟩
  have detected := (claim _ _ _ written [0, 2, 0, 0, 0, 97, 98] ⟨_, rfl⟩ (by decide)).2
    cutFile "a" "SA_DATA" [] rfl
  exact nomatch run.symm.trans detected

end SuffixArray.Program
