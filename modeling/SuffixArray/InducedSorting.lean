import SuffixArray.Checked

/-!
# `SuffixArrayInducedSorting`, the header the build includes

Every function of `SuffixArrayInducedSorting_bu0.hpp` as a checked run. Vectors
of `idxT` hold natural numbers, and so do the level strings: the elements of the
first one are `unsigned char` and of all later ones `idxT`, both promoted to
`idxT` wherever they are used. `idxT` is the `unsigned` of `IndexType`.

Subscripts, iterator ranges and counters are checked. The two subtractions that
the source lets wrap on purpose are `(*i) - 1` in the induce passes, which is
`wrappingPred`, and the loop counter of `make_STypes`.
-/

namespace SuffixArray.InducedSorting

open Checked

/-- The width of `IndexType`. -/
abbrev idxBits : Nat := 32

/-- `idxT(-1)`, the constructor's `invalid(-1)`. -/
abbrev invalid : Nat := 2 ^ idxBits - 1

/-- One entry of the stack: the level string, its types, the positions behind the
names of its summary, and its bucket sizes. -/
structure StackElement where
  alphCont : List Nat
  sTypes : List Bool
  summIdc : List Nat
  counts : List Nat
  deriving DecidableEq, Repr

/-- What `toStack` returns and what it sets through its reference parameters. -/
structure Pushed where
  element : StackElement
  summary : List Nat
  summS : Nat
  summAlphS : Nat
  deriving DecidableEq, Repr

/-- `++counts[(*it) - sub]` for every element. -/
def makeCounts (alphCont counts : List Nat) (sub : Nat) : Run (List Nat) :=
  alphCont.foldlM (fun counts c => do
    let b ← Checked.sub c sub
    let k ← load counts b
    store counts b (← inc idxBits k)) counts

/-- Append the running sum, then add the size. -/
def pushHead (state : Nat × List Nat) (count : Nat) : Run (Nat × List Nat) := do
  let sum ← add idxBits state.1 count
  return (sum, state.2 ++ [state.1])

/-- Add the size, then append the running sum. -/
def pushTail (state : Nat × List Nat) (count : Nat) : Run (Nat × List Nat) := do
  let sum ← add idxBits state.1 count
  return (sum, state.2 ++ [sum])

/-- The first slot of each bucket, counted from slot 1, or its last slot. -/
def makeBuckets (counts buckets : List Nat) (heads : Bool) : Run (List Nat) := do
  if heads then
    let state ← counts.foldlM pushHead (1, buckets)
    return state.2
  else
    let state ← counts.foldlM pushTail (0, buckets)
    return state.2

/-- The inverse of a summary without repetitions, the empty suffix first. -/
def retSummarySA (summary : List Nat) : Run (List Nat) :=
  forUp idxBits 0 summary.length (fun i summarySA => do
    store summarySA (← inc idxBits (← load summary i)) i)
    (List.replicate (summary.length + 1) summary.length)

/-- S- and L-type flags from right to left. -/
def makeSTypes (alphCont : List Nat) : Run (List Bool) := do
  let sTypes ← store (List.replicate (alphCont.length + 1) false) alphCont.length true
  if alphCont.length ≠ 0 then
    let sTypes ← store sTypes (alphCont.length - 1) false
    forSlotsDown (alphCont.length - 1) (fun i sTypes => do
      let c ← load alphCont i
      let c' ← load alphCont (i + 1)
      let next ← load sTypes (i + 1)
      if c' < c ∨ (c = c' ∧ ¬ next) then store sTypes i false else store sTypes i true) sTypes
  else
    return sTypes

def idxIsLMSC (i : Nat) (sTypes : List Bool) : Run Bool := do
  if ← load sTypes i then
    return !(← load sTypes (← sub i 1))
  else
    return false

/-- `idc[Tails[alph_cont[j] - sub]] = j; --Tails[alph_cont[j] - sub]`, on the pair
of the array and the tails. -/
def putTail (alphCont : List Nat) (sub : Nat) (j : Nat) (state : List Nat × List Nat) :
    Run (List Nat × List Nat) := do
  let b ← Checked.sub (← load alphCont j) sub
  let slot ← load state.2 b
  let idc ← store state.1 slot j
  let tails ← store state.2 b (← Checked.sub slot 1)
  return (idc, tails)

/-- `idc[Heads[alph_cont[j] - sub]] = j; ++Heads[alph_cont[j] - sub]`. -/
def putHead (alphCont : List Nat) (sub : Nat) (j : Nat) (state : List Nat × List Nat) :
    Run (List Nat × List Nat) := do
  let b ← Checked.sub (← load alphCont j) sub
  let slot ← load state.2 b
  let idc ← store state.1 slot j
  let heads ← store state.2 b (← inc idxBits slot)
  return (idc, heads)

/-- Drop every LMS position at the tail of its bucket, in text order. The tails
are a copy. -/
def guessSortLMS (alphCont : List Nat) (sTypes : List Bool) (tails : List Nat) (sub : Nat) :
    Run (List Nat) := do
  let state ← forUp idxBits 1 alphCont.length (fun i state => do
    if ← idxIsLMSC i sTypes then putTail alphCont sub i state else return state)
    (List.replicate (alphCont.length + 1) invalid, tails)
  store state.1 0 alphCont.length

/-- One visit of `LInduceSort`. -/
def lInduceStep (alphCont : List Nat) (sTypes : List Bool) (sub : Nat) (i : Nat)
    (state : List Nat × List Nat) : Run (List Nat × List Nat) := do
  let e ← load state.1 i
  if e ≠ invalid then
    let j := wrappingPred idxBits e
    if j ≠ invalid then
      if !(← load sTypes j) then putHead alphCont sub j state else return state
    else
      return state
  else
    return state

/-- One visit of `SInduceSort`. -/
def sInduceStep (alphCont : List Nat) (sTypes : List Bool) (sub : Nat) (i : Nat)
    (state : List Nat × List Nat) : Run (List Nat × List Nat) := do
  let e ← load state.1 i
  if e ≠ invalid then
    let j := wrappingPred idxBits e
    if j ≠ invalid then
      if ← load sTypes j then putTail alphCont sub j state else return state
    else
      return state
  else
    return state

/-- The array and the heads are updated in place. -/
def lInduceSort (guessedSA alphCont : List Nat) (sTypes : List Bool) (heads : List Nat)
    (sub : Nat) : Run (List Nat × List Nat) :=
  forSlots guessedSA.length (lInduceStep alphCont sTypes sub) (guessedSA, heads)

/-- The array and the tails are updated in place. -/
def sInduceSort (guessedSA alphCont : List Nat) (sTypes : List Bool) (tails : List Nat)
    (sub : Nat) : Run (List Nat × List Nat) :=
  forSlotsDown guessedSA.length (sInduceStep alphCont sTypes sub) (guessedSA, tails)

/-- One iteration of the loop that fills `all_lms`, on the table and `alllms_bef`. -/
def allLmsStep (sTypes : List Bool) (i : Nat) (state : List Nat × Nat) :
    Run (List Nat × Nat) := do
  if ← idxIsLMSC i sTypes then
    let allLms ← store state.1 i state.2
    return (allLms, i)
  else
    return state

/-- `all_lms`: for every LMS position the next one or the end, elsewhere zero. -/
def makeAllLms (alphCont : List Nat) (sTypes : List Bool) : Run (List Nat) := do
  let start ← sub alphCont.length 1
  let state ← forDown start 0 (allLmsStep sTypes)
    (List.replicate (alphCont.length + 1) 0, alphCont.length)
  return state.1

/-- The loop variables of the naming loop in `summarizeSA`. -/
structure Naming where
  curName : Nat
  lms : List Nat
  lmsBefFir : Nat
  lmsBefSec : Nat
  deriving DecidableEq, Repr

/-- One iteration of the naming loop: the block from `lmsI` up to the next LMS
position, its end left out, gets the current name if it equals the block named
before and a new one otherwise. -/
def nameStep (alphCont guessedSA allLms : List Nat) (i : Nat) (state : Naming) : Run Naming := do
  let lmsI ← load guessedSA i
  let next ← load allLms lmsI
  if next ≠ 0 then
    let same ← equalRanges alphCont state.lmsBefFir state.lmsBefSec lmsI next
    let curName ← if same then pure state.curName else inc idxBits state.curName
    let lms ← store state.lms lmsI curName
    return { curName := curName, lms := lms, lmsBefFir := lmsI, lmsBefSec := next }
  else
    return state

/-- One iteration of the collecting loop, on `summ` and `summIdc`. -/
def collectStep (lms : List Nat) (i : Nat) (state : List Nat × List Nat) :
    Run (List Nat × List Nat) := do
  let name ← load lms i
  if name ≠ invalid then return (state.1 ++ [name], state.2 ++ [i]) else return state

/-- The names in text order and the positions they belong to. -/
def collectNames (lms : List Nat) : Run (List Nat × List Nat) :=
  forUp idxBits 0 lms.length (collectStep lms) ([], [])

/-- The summary `summarizeSA` returns and what it sets through its references. -/
structure Summarized where
  summ : List Nat
  summAlphS : Nat
  summIdc : List Nat
  deriving DecidableEq, Repr

def summarizeSA (alphCont guessedSA : List Nat) (sTypes : List Bool) : Run Summarized := do
  let first ← load guessedSA 0
  let lms ← store (List.replicate (alphCont.length + 1) invalid) first 0
  let allLms ← makeAllLms alphCont sTypes
  let named ← forUp idxBits 1 guessedSA.length (nameStep alphCont guessedSA allLms)
    { curName := 0, lms := lms, lmsBefFir := first, lmsBefSec := first }
  let collected ← collectNames named.lms
  let summAlphS ← inc idxBits named.curName
  return { summ := collected.1, summAlphS := summAlphS, summIdc := collected.2 }

/-- Place the LMS positions by the order of the summary, without the two lowest
entries of `summarySA`. The tails are a copy. -/
def lmsSort (alphCont tails : List Nat) (_sTypes : List Bool) (summarySA summIdc : List Nat)
    (sub : Nat) : Run (List Nat) := do
  let start ← Checked.sub summarySA.length 1
  let state ← forDown start 1 (fun i state => do
    let idx ← load summIdc (← load summarySA i)
    putTail alphCont sub idx state) (List.replicate (alphCont.length + 1) invalid, tails)
  store state.1 0 alphCont.length

/-- Undo one level: from the suffix array of the summary to that of the level string. -/
def fromStack (top : StackElement) (summarySA : List Nat) (min : Nat) : Run (List Nat) := do
  let tails ← makeBuckets top.counts [] false
  let heads ← makeBuckets top.counts [] true
  let idc ← lmsSort top.alphCont tails top.sTypes summarySA top.summIdc min
  let afterL ← lInduceSort idc top.alphCont top.sTypes heads min
  let afterS ← sInduceSort afterL.1 top.alphCont top.sTypes tails min
  return afterS.1

/-- What `toStack` has computed when it calls `summarizeSA`. -/
structure Guess where
  sTypes : List Bool
  counts : List Nat
  guessedSA : List Nat
  deriving DecidableEq, Repr

/-- The part of `toStack` before `summarizeSA`. -/
def guess (alphCont : List Nat) (summAlphS min : Nat) : Run Guess := do
  let sTypes ← makeSTypes alphCont
  let counts ← makeCounts alphCont (List.replicate (← sub summAlphS min) 0) min
  let tails ← makeBuckets counts [] false
  let guessedSA ← guessSortLMS alphCont sTypes tails min
  let heads ← makeBuckets counts [] true
  let afterL ← lInduceSort guessedSA alphCont sTypes heads min
  let afterS ← sInduceSort afterL.1 alphCont sTypes tails min
  return { sTypes := sTypes, counts := counts, guessedSA := afterS.1 }

def toStack (alphCont : List Nat) (summAlphS min : Nat) : Run Pushed := do
  let g ← guess alphCont summAlphS min
  let summarized ← summarizeSA alphCont g.guessedSA g.sTypes
  return { element := ⟨alphCont, g.sTypes, summarized.summIdc, g.counts⟩
           summary := summarized.summ
           summS := summarized.summ.length
           summAlphS := summarized.summAlphS }

/-- `while(summ_s != summ_alph_s)`, at most `fuel` iterations. The head of the list
is `Stack.back()`. Returns the stack and the last summary. -/
def populate : Nat → List StackElement → List Nat → Nat → Nat →
    Run (List StackElement × List Nat)
  | fuel, stack, newAlphCont, summS, summAlphS =>
    if summS = summAlphS then
      return (stack, newAlphCont)
    else
      match fuel with
      | 0 => .error .exhausted
      | fuel + 1 => do
        let pushed ← toStack newAlphCont summAlphS 0
        populate fuel (pushed.element :: stack) pushed.summary pushed.summS pushed.summAlphS

/-- `while(Stack.size())`. -/
def unwind : List StackElement → List Nat → Run (List Nat)
  | [], summary => return summary
  | top :: stack, summary => do
    unwind stack (← fromStack top summary 0)

/-- `SuffixArrayInducedSorting(subtract).operator()(alph_cont, max)`. -/
def run (fuel : Nat) (subtract : Nat) (alphCont : List UInt8) (max : Nat) : Run (List Nat) := do
  let max ← inc idxBits max
  let fse ← toStack (alphCont.map UInt8.toNat) max subtract
  let populated ← populate fuel [] fse.summary fse.summS fse.summAlphS
  let summary ← retSummarySA populated.2
  let summary ← unwind populated.1 summary
  fromStack fse.element summary subtract

end SuffixArray.InducedSorting
