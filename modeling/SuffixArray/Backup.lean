import SuffixArray.InducedSorting

/-!
# `SuffixArrayInducedSorting`, the header that fills `all_lms` while it guesses

`SuffixArrayInducedSorting_bu.hpp` is the included header but for the table `all_lms`, which
`guessSortLMS` fills from left to right. Its `lms_bef` has no value until the
first LMS position is found, and without one it is used as it is; `unset` stands for what it
holds then, by the string of the level. Where the text is that of the included header its
definitions are used. Progress output and running times are left out.
-/

namespace SuffixArray.Backup

open Checked
open InducedSorting (Guess Pushed StackElement Summarized idxBits invalid)

/-- The variables of `guessSortLMS`: the array with its tails, `lms_bef` and `i`. -/
structure First where
  placed : List Nat × List Nat
  lmsBef : Nat
  i : Nat
  deriving DecidableEq, Repr

/-- The loop up to the first LMS position, with `rest` positions left. -/
def firstLms (alphCont : List Nat) (sTypes : List Bool) (sub : Nat) :
    (rest : Nat) → First → Run First
  | 0, state => return state
  | rest + 1, state => do
    if ← InducedSorting.idxIsLMSC state.i sTypes then
      let placed ← InducedSorting.putTail alphCont sub state.i state.placed
      return { placed := placed, lmsBef := state.i, i := state.i }
    else
      let i ← inc idxBits state.i
      firstLms alphCont sTypes sub rest { state with i := i }

/-- The loop variables behind the first LMS position. -/
structure Guessing where
  placed : List Nat × List Nat
  allLms : List Nat
  lmsBef : Nat
  deriving DecidableEq, Repr

/-- One iteration of the second loop. -/
def guessStep (alphCont : List Nat) (sTypes : List Bool) (sub i : Nat) (state : Guessing) :
    Run Guessing := do
  if ← InducedSorting.idxIsLMSC i sTypes then
    let placed ← InducedSorting.putTail alphCont sub i state.placed
    let allLms ← store state.allLms state.lmsBef i
    return { placed := placed, allLms := allLms, lmsBef := i }
  else
    return state

/-- Both loops, with the value of `i` behind them. The second one starts at `i + 1` and does
nothing if that is past the end. -/
def guessLoops (unset : Nat) (alphCont : List Nat) (sTypes : List Bool) (tails : List Nat)
    (sub : Nat) : Run (Guessing × Nat) := do
  let first ← firstLms alphCont sTypes sub (alphCont.length - 1)
    { placed := (List.replicate (alphCont.length + 1) invalid, tails), lmsBef := unset, i := 1 }
  let start ← inc idxBits first.i
  let state ← forUp idxBits start alphCont.length (guessStep alphCont sTypes sub)
    { placed := first.placed, allLms := List.replicate (alphCont.length + 1) 0,
      lmsBef := first.lmsBef }
  return (state, max start alphCont.length)

/-- The guess and `all_lms`. The tails are a copy. -/
def guessSortLMS (unset : Nat) (alphCont : List Nat) (sTypes : List Bool) (tails : List Nat)
    (sub : Nat) : Run (List Nat × List Nat) := do
  let looped ← guessLoops unset alphCont sTypes tails sub
  let allLms ← store looped.1.allLms looped.1.lmsBef looped.2
  let guessedSA ← store looped.1.placed.1 0 alphCont.length
  return (guessedSA, allLms)

/-- `summarizeSA`, which is given `all_lms`. -/
def summarizeSA (alphCont guessedSA allLms : List Nat) : Run Summarized := do
  let first ← load guessedSA 0
  let lms ← store (List.replicate (alphCont.length + 1) invalid) first 0
  let named ← forUp idxBits 1 guessedSA.length
    (InducedSorting.nameStep alphCont guessedSA allLms)
    { curName := 0, lms := lms, lmsBefFir := first, lmsBefSec := first }
  let collected ← InducedSorting.collectNames named.lms
  let summAlphS ← inc idxBits named.curName
  return { summ := collected.1, summAlphS := summAlphS, summIdc := collected.2 }

def toStack (unset : List Nat → Nat) (alphCont : List Nat) (summAlphS min : Nat) :
    Run Pushed := do
  let sTypes ← InducedSorting.makeSTypes alphCont
  let size ← Checked.sub summAlphS min
  let counts ← InducedSorting.makeCounts alphCont (List.replicate size 0) min
  let tails ← InducedSorting.makeBuckets counts [] false
  let guessed ← guessSortLMS (unset alphCont) alphCont sTypes tails min
  let heads ← InducedSorting.makeBuckets counts [] true
  let afterL ← InducedSorting.lInduceSort guessed.1 alphCont sTypes heads min
  let afterS ← InducedSorting.sInduceSort afterL.1 alphCont sTypes tails min
  let summarized ← summarizeSA alphCont afterS.1 guessed.2
  return { element := ⟨alphCont, sTypes, summarized.summIdc, counts⟩
           summary := summarized.summ
           summS := summarized.summ.length
           summAlphS := summarized.summAlphS }

/-- `while(summ_s != summ_alph_s)`, at most `fuel` iterations. -/
def populate (unset : List Nat → Nat) : Nat → List StackElement → List Nat → Nat → Nat →
    Run (List StackElement × List Nat)
  | fuel, stack, newAlphCont, summS, summAlphS =>
    if summS = summAlphS then
      return (stack, newAlphCont)
    else
      match fuel with
      | 0 => .error .exhausted
      | fuel + 1 => do
        let pushed ← toStack unset newAlphCont summAlphS 0
        populate unset fuel (pushed.element :: stack) pushed.summary pushed.summS
          pushed.summAlphS

/-- `SuffixArrayInducedSorting(subtract).operator()(alph_cont, max)`. -/
def run (unset : List Nat → Nat) (fuel : Nat) (subtract : Nat) (alphCont : List UInt8)
    (max : Nat) : Run (List Nat) := do
  let max ← inc idxBits max
  let fse ← toStack unset (alphCont.map UInt8.toNat) max subtract
  let populated ← populate unset fuel [] fse.summary fse.summS fse.summAlphS
  let summary ← InducedSorting.retSummarySA populated.2
  let summary ← InducedSorting.unwind populated.1 summary
  InducedSorting.fromStack fse.element summary subtract

end SuffixArray.Backup
