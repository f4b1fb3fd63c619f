import SuffixArray.InducedSorting

/-!
# `SuffixArrayInducedSorting`, the header behind the commented include

`SuffixArrayInducedSorting.hpp` defines the same class once more. It records the
LMS positions in a hash map while it guesses, and it has two copies of the stack
functions, one for the first level with its alphabet shifted by `subtract` and one
for the levels above. Where its text is that of the other header the definitions of
the other one are used.

The passes write at `alph_cont[j] - sub` but move the pointer at `alph_cont[j]`.
Such a pointer may leave its bucket and its word, so here the updates of pointers
wrap. Progress output and running times are left out.
-/

namespace SuffixArray.Alternative

open Checked
open InducedSorting (StackElement Pushed Naming Summarized idxBits invalid)

/-- `x + 1` on `idxT` with the wrap left in. -/
def wrappingSucc (x : Nat) : Nat := (x + 1) % 2 ^ idxBits

/-- `std::unordered_map::insert`: a key already there keeps its value. -/
def insert (allLms : List (Nat × Nat)) (key value : Nat) : List (Nat × Nat) :=
  match allLms.lookup key with
  | some _ => allLms
  | none => (key, value) :: allLms

/-- `idc[P[alph_cont[j] - sub]] = j`, then the pointer `P[alph_cont[j] - moved]` is
moved, on the pair of the array and the pointers. -/
def put (next : Nat → Nat) (alphCont : List Nat) (sub moved j : Nat)
    (state : List Nat × List Nat) : Run (List Nat × List Nat) := do
  let c ← load alphCont j
  let idc ← store state.1 (← load state.2 (← Checked.sub c sub)) j
  let b ← Checked.sub c moved
  let pointers ← store state.2 b (next (← load state.2 b))
  return (idc, pointers)

/-- The placement of `guessSortLMS` and `LMSSort`. -/
def putLms (alphCont : List Nat) (sub j : Nat) (state : List Nat × List Nat) :
    Run (List Nat × List Nat) := put (wrappingPred idxBits) alphCont sub sub j state

/-- The placement of `LInduceSort`. -/
def putHead (alphCont : List Nat) (sub j : Nat) (state : List Nat × List Nat) :
    Run (List Nat × List Nat) := put wrappingSucc alphCont sub 0 j state

/-- The placement of `SInduceSort`. -/
def putTail (alphCont : List Nat) (sub j : Nat) (state : List Nat × List Nat) :
    Run (List Nat × List Nat) := put (wrappingPred idxBits) alphCont sub 0 j state

def idxIsLMSC (i : Nat) (sTypes : List Bool) : Run Bool := do
  if i ≠ 0 then InducedSorting.idxIsLMSC i sTypes else return false

/-- The loop variables of `guessSortLMS`: the array with its tails, the map, and the
LMS position found last. -/
structure Guessing where
  placed : List Nat × List Nat
  allLms : List (Nat × Nat)
  lmsBef : Nat
  deriving DecidableEq, Repr

def guessStep (alphCont : List Nat) (sTypes : List Bool) (sub i : Nat) (state : Guessing) :
    Run Guessing := do
  if ← idxIsLMSC i sTypes then
    let placed ← putLms alphCont sub i state.placed
    let allLms :=
      if state.lmsBef ≠ invalid then insert state.allLms state.lmsBef i else state.allLms
    return { placed := placed, allLms := allLms, lmsBef := i }
  else
    return state

/-- The guess and the map from every LMS position to the next one or the end. The tails
are a copy. -/
def guessSortLMS (alphCont : List Nat) (sTypes : List Bool) (tails : List Nat) (sub : Nat) :
    Run (List Nat × List (Nat × Nat)) := do
  let state ← forUp idxBits 0 alphCont.length (guessStep alphCont sTypes sub)
    { placed := (List.replicate (alphCont.length + 1) invalid, tails)
      allLms := []
      lmsBef := invalid }
  let allLms := insert state.allLms state.lmsBef alphCont.length
  let guessedSA ← store state.placed.1 0 alphCont.length
  return (guessedSA, allLms)

/-- One visit of `LInduceSort`. -/
def lInduceStep (alphCont : List Nat) (sTypes : List Bool) (sub : Nat) (i : Nat)
    (state : List Nat × List Nat) : Run (List Nat × List Nat) := do
  let e ← load state.1 i
  if e ≠ invalid then
    let j := wrappingPred idxBits e
    if j ≠ invalid then
      if !(← load sTypes j) then putHead alphCont sub j state else return state
    else
      return state
  else
    return state

/-- One visit of `SInduceSort`. -/
def sInduceStep (alphCont : List Nat) (sTypes : List Bool) (sub : Nat) (i : Nat)
    (state : List Nat × List Nat) : Run (List Nat × List Nat) := do
  let e ← load state.1 i
  if e ≠ invalid then
    let j := wrappingPred idxBits e
    if j ≠ invalid then
      if ← load sTypes j then putTail alphCont sub j state else return state
    else
      return state
  else
    return state

/-- The array and the heads are updated in place. -/
def lInduceSort (guessedSA alphCont : List Nat) (sTypes : List Bool) (heads : List Nat)
    (sub : Nat) : Run (List Nat × List Nat) :=
  forSlots guessedSA.length (lInduceStep alphCont sTypes sub) (guessedSA, heads)

/-- The array and the tails are updated in place. -/
def sInduceSort (guessedSA alphCont : List Nat) (sTypes : List Bool) (tails : List Nat)
    (sub : Nat) : Run (List Nat × List Nat) :=
  forSlotsDown guessedSA.length (sInduceStep alphCont sTypes sub) (guessedSA, tails)

/-- One iteration of the naming loop. Only the positions in the map are named. -/
def nameStep (alphCont guessedSA : List Nat) (allLms : List (Nat × Nat)) (i : Nat)
    (state : Naming) : Run Naming := do
  let lmsI ← load guessedSA i
  match allLms.lookup lmsI with
  | some next => do
    let same ← equalRanges alphCont state.lmsBefFir state.lmsBefSec lmsI next
    let curName ← if same then pure state.curName else inc idxBits state.curName
    let lms ← store state.lms lmsI curName
    return { curName := curName, lms := lms, lmsBefFir := lmsI, lmsBefSec := next }
  | none => return state

def summarizeSA (alphCont guessedSA : List Nat) (allLms : List (Nat × Nat)) :
    Run Summarized := do
  let first ← load guessedSA 0
  let lms ← store (List.replicate (alphCont.length + 1) invalid) first 0
  let named ← forUp idxBits 1 guessedSA.length (nameStep alphCont guessedSA allLms)
    { curName := 0, lms := lms, lmsBefFir := first, lmsBefSec := first }
  let collected ← InducedSorting.collectNames named.lms
  let summAlphS ← inc idxBits named.curName
  return { summ := collected.1, summAlphS := summAlphS, summIdc := collected.2 }

/-- The tails are a copy. -/
def lmsSort (alphCont tails : List Nat) (_sTypes : List Bool) (summarySA summIdc : List Nat)
    (sub : Nat) : Run (List Nat) := do
  let start ← Checked.sub summarySA.length 1
  let state ← forDown start 1 (fun i state => do
    let idx ← load summIdc (← load summarySA i)
    putLms alphCont sub idx state) (List.replicate (alphCont.length + 1) invalid, tails)
  store state.1 0 alphCont.length

/-- The common text of `FirsttoStack` and `toStack`. -/
def reduce (alphCont : List Nat) (summAlphS sub : Nat) : Run Pushed := do
  let sTypes ← InducedSorting.makeSTypes alphCont
  let size ← Checked.sub summAlphS sub
  let counts ← InducedSorting.makeCounts alphCont (List.replicate size 0) sub
  let tails ← InducedSorting.makeBuckets counts [] false
  let guessed ← guessSortLMS alphCont sTypes tails sub
  let heads ← InducedSorting.makeBuckets counts [] true
  let afterL ← lInduceSort guessed.1 alphCont sTypes heads sub
  let afterS ← sInduceSort afterL.1 alphCont sTypes tails sub
  let summarized ← summarizeSA alphCont afterS.1 guessed.2
  return { element := ⟨alphCont, sTypes, summarized.summIdc, counts⟩
           summary := summarized.summ
           summS := summarized.summ.length
           summAlphS := summarized.summAlphS }

def firstToStack (subtract : Nat) (alphCont : List Nat) (summAlphS : Nat) : Run Pushed :=
  reduce alphCont summAlphS subtract

def toStack (alphCont : List Nat) (summAlphS : Nat) : Run Pushed := reduce alphCont summAlphS 0

/-- The common text of `fromStack` and `LastfromStack`. -/
def induce (top : StackElement) (summarySA : List Nat) (sub : Nat) : Run (List Nat) := do
  let tails ← InducedSorting.makeBuckets top.counts [] false
  let idc ← lmsSort top.alphCont tails top.sTypes summarySA top.summIdc sub
  let heads ← InducedSorting.makeBuckets top.counts [] true
  let afterL ← lInduceSort idc top.alphCont top.sTypes heads sub
  let afterS ← sInduceSort afterL.1 top.alphCont top.sTypes tails sub
  return afterS.1

def fromStack (top : StackElement) (summarySA : List Nat) : Run (List Nat) :=
  induce top summarySA 0

def lastFromStack (subtract : Nat) (top : StackElement) (summarySA : List Nat) :
    Run (List Nat) := induce top summarySA subtract

/-- `while(summ_s != summ_alph_s)`, at most `fuel` iterations. -/
def populate : Nat → List StackElement → List Nat → Nat → Nat →
    Run (List StackElement × List Nat)
  | fuel, stack, newAlphCont, summS, summAlphS =>
    if summS = summAlphS then
      return (stack, newAlphCont)
    else
      match fuel with
      | 0 => .error .exhausted
      | fuel + 1 => do
        let pushed ← toStack newAlphCont summAlphS
        populate fuel (pushed.element :: stack) pushed.summary pushed.summS pushed.summAlphS

/-- `while(Stack.size())`. -/
def unwind : List StackElement → List Nat → Run (List Nat)
  | [], summary => return summary
  | top :: stack, summary => do
    unwind stack (← fromStack top summary)

/-- `SuffixArrayInducedSorting(subtract).operator()(alph_cont, max)`. -/
def run (fuel : Nat) (subtract : Nat) (alphCont : List UInt8) (max : Nat) : Run (List Nat) := do
  let summAlphS ← inc idxBits max
  let fse ← firstToStack subtract (alphCont.map UInt8.toNat) summAlphS
  let populated ← populate fuel [] fse.summary fse.summS fse.summAlphS
  let summary ← InducedSorting.retSummarySA populated.2
  let summary ← unwind populated.1 summary
  lastFromStack subtract fse.element summary

end SuffixArray.Alternative
