import SuffixArray.Alternative
import SuffixArray.LcpTables

/-!
# `SuffixArrayInducedSorting`, the header with maps of buckets

`SuffixArrayInducedSorting_bu2.hpp` is a copy of the class that nothing includes. It is not told
the smallest and the largest character. The heads and tails of the first level are in a hash
map, made from a tree map of the characters that occur; those of the levels above are in a
vector that grows with the names it meets. The passes are templates over the container and get
it by value.

Where its text is that of one of the other headers their definitions are used: all of
`summarizeSA` is that of `SuffixArrayInducedSorting.hpp`, which records the LMS positions in a
map as well. Progress output is left out.
-/

namespace SuffixArray.MapBuckets

open Checked
open InducedSorting (idxBits invalid)
open LcpTables (resize)

/-- What the templates ask of `HeadsTails`: the pair `HeadsTails[c]`, read and assigned. -/
class HeadsTails (β : Type) where
  get : β → Nat → Run (Nat × Nat)
  set : β → Nat → Nat × Nat → Run β

instance : HeadsTails (List (Nat × Nat)) where
  get := load
  set := store

/-- `operator[]` inserts a pair of zeros for a key that is not there. -/
instance : HeadsTails (Std.HashMap Nat (Nat × Nat)) where
  get headsTails c := .ok (headsTails.getD c (0, 0))
  set headsTails c bounds := .ok (headsTails.insert c bounds)

open HeadsTails (get set)

/-- The bucket of `size` elements from `buf` on, and what is behind it. -/
def bucket (buf size : Nat) : Run ((Nat × Nat) × Nat) := do
  let tail ← Checked.sub (← add idxBits buf size) 1
  let behind ← add idxBits buf size
  return ((buf, tail), behind)

/-- The loop of `getBucketSizesFirst`. -/
def countFirst (mp : Std.TreeMap Nat Nat) (e : Nat) : Run (Std.TreeMap Nat Nat) :=
  match mp[e]? with
  | none => return mp.insert e 1
  | some size => do
    let size ← inc idxBits size
    return mp.insert e size

def getBucketSizesFirst (alphCont : List Nat) : Run (Std.TreeMap Nat Nat) :=
  alphCont.foldlM countFirst ∅

/-- The loop of `makeHeadsTailsFirst`, on the map and `buf`. -/
def pushFirst (state : Std.HashMap Nat (Nat × Nat) × Nat) (entry : Nat × Nat) :
    Run (Std.HashMap Nat (Nat × Nat) × Nat) := do
  let bounds ← bucket state.2 entry.2
  return (state.1.insertIfNew entry.1 bounds.1, bounds.2)

/-- The tree map is gone through by increasing keys. -/
def makeHeadsTailsFirst (alphCont : List Nat) : Run (Std.HashMap Nat (Nat × Nat)) := do
  let sizes ← getBucketSizesFirst alphCont
  let state ← sizes.toList.foldlM pushFirst (∅, 1)
  return state.1

/-- The loop of `getBucketSizesSecond`. -/
def countSecond (vec : List Nat) (i : Nat) : Run (List Nat) := do
  if i < vec.length then
    let size ← load vec i
    store vec i (← inc idxBits size)
  else
    let vec := resize vec (← inc idxBits i) 0
    let size ← load vec i
    store vec i (← inc idxBits size)

def getBucketSizesSecond (alphCont : List Nat) : Run (List Nat) :=
  alphCont.foldlM countSecond []

/-- The loop of `makeHeadsTailsSecond`, on the vector and `buf`. -/
def pushSecond (state : List (Nat × Nat) × Nat) (size : Nat) : Run (List (Nat × Nat) × Nat) := do
  let bounds ← bucket state.2 size
  return (state.1 ++ [bounds.1], bounds.2)

def makeHeadsTailsSecond (alphCont : List Nat) : Run (List (Nat × Nat)) := do
  let sizes ← getBucketSizesSecond alphCont
  let state ← sizes.foldlM pushSecond ([], 1)
  return state.1

/-- One entry of the stack. -/
structure StackElement (β : Type) where
  alphCont : List Nat
  sTypes : List Bool
  summIdc : List Nat
  headsTails : β

/-- What `toStack` returns and what it sets through its reference parameters. -/
structure Pushed (β : Type) where
  element : StackElement β
  summary : List Nat
  summS : Nat
  summAlphS : Nat

section Templates

variable {β : Type} [HeadsTails β]

/-- `idc[HeadsTails[alph_cont[j]].second] = j; --(HeadsTails[alph_cont[j]].second)`. -/
def putTail (alphCont : List Nat) (j : Nat) (state : List Nat × β) : Run (List Nat × β) := do
  let c ← load alphCont j
  let bounds ← get state.2 c
  let idc ← store state.1 bounds.2 j
  let tail ← Checked.sub bounds.2 1
  let headsTails ← set state.2 c (bounds.1, tail)
  return (idc, headsTails)

/-- `idc[HeadsTails[alph_cont[j]].first] = j; ++(HeadsTails[alph_cont[j]].first)`. -/
def putHead (alphCont : List Nat) (j : Nat) (state : List Nat × β) : Run (List Nat × β) := do
  let c ← load alphCont j
  let bounds ← get state.2 c
  let idc ← store state.1 bounds.1 j
  let head ← inc idxBits bounds.1
  let headsTails ← set state.2 c (head, bounds.2)
  return (idc, headsTails)

/-- The loop variables of `guessSortLMS`. -/
structure Guessing (β : Type) where
  placed : List Nat × β
  allLms : List (Nat × Nat)
  lmsBef : Nat

def guessStep (alphCont : List Nat) (sTypes : List Bool) (i : Nat) (state : Guessing β) :
    Run (Guessing β) := do
  if ← Alternative.idxIsLMSC i sTypes then
    let placed ← putTail alphCont i state.placed
    let allLms :=
      if state.lmsBef ≠ invalid then Alternative.insert state.allLms state.lmsBef i
      else state.allLms
    return { placed := placed, allLms := allLms, lmsBef := i }
  else
    return state

def guessSortLMS (alphCont : List Nat) (sTypes : List Bool) (headsTails : β) :
    Run (List Nat × List (Nat × Nat)) := do
  let state ← forUp idxBits 0 alphCont.length (guessStep alphCont sTypes)
    { placed := (List.replicate (alphCont.length + 1) invalid, headsTails)
      allLms := []
      lmsBef := invalid }
  let allLms := Alternative.insert state.allLms state.lmsBef alphCont.length
  let guessedSA ← store state.placed.1 0 alphCont.length
  return (guessedSA, allLms)

/-- One visit of `LInduceSort`. -/
def lInduceStep (alphCont : List Nat) (sTypes : List Bool) (i : Nat) (state : List Nat × β) :
    Run (List Nat × β) := do
  let e ← load state.1 i
  if e ≠ invalid then
    let j := wrappingPred idxBits e
    if j ≠ invalid then
      if !(← load sTypes j) then putHead alphCont j state else return state
    else
      return state
  else
    return state

/-- One visit of `SInduceSort`. -/
def sInduceStep (alphCont : List Nat) (sTypes : List Bool) (i : Nat) (state : List Nat × β) :
    Run (List Nat × β) := do
  let e ← load state.1 i
  if e ≠ invalid then
    let j := wrappingPred idxBits e
    if j ≠ invalid then
      if ← load sTypes j then putTail alphCont j state else return state
    else
      return state
  else
    return state

def lInduceSort (guessedSA alphCont : List Nat) (sTypes : List Bool) (headsTails : β) :
    Run (List Nat) := do
  let state ← forSlots guessedSA.length (lInduceStep alphCont sTypes) (guessedSA, headsTails)
  return state.1

def sInduceSort (guessedSA alphCont : List Nat) (sTypes : List Bool) (headsTails : β) :
    Run (List Nat) := do
  let state ← forSlotsDown guessedSA.length (sInduceStep alphCont sTypes)
    (guessedSA, headsTails)
  return state.1

def lmsSort (alphCont : List Nat) (headsTails : β) (_sTypes : List Bool)
    (summarySA summIdc : List Nat) : Run (List Nat) := do
  let start ← Checked.sub summarySA.length 1
  let state ← forDown start 1 (fun i state => do
    let idx ← load summIdc (← load summarySA i)
    putTail alphCont idx state) (List.replicate (alphCont.length + 1) invalid, headsTails)
  store state.1 0 alphCont.length

def fromStack (top : StackElement β) (summarySA : List Nat) : Run (List Nat) := do
  let idc ← lmsSort top.alphCont top.headsTails top.sTypes summarySA top.summIdc
  let idc ← lInduceSort idc top.alphCont top.sTypes top.headsTails
  sInduceSort idc top.alphCont top.sTypes top.headsTails

/-- `headsTailsFO` is the function object. -/
def toStack (alphCont : List Nat) (headsTailsFO : List Nat → Run β) : Run (Pushed β) := do
  let sTypes ← InducedSorting.makeSTypes alphCont
  let headsTails ← headsTailsFO alphCont
  let guessed ← guessSortLMS alphCont sTypes headsTails
  let afterL ← lInduceSort guessed.1 alphCont sTypes headsTails
  let afterS ← sInduceSort afterL alphCont sTypes headsTails
  let summarized ← Alternative.summarizeSA alphCont afterS guessed.2
  return { element := ⟨alphCont, sTypes, summarized.summIdc, headsTails⟩
           summary := summarized.summ
           summS := summarized.summ.length
           summAlphS := summarized.summAlphS }

end Templates

/-- `while(summ_s != summ_alph_s)`, at most `fuel` iterations. -/
def populate : Nat → List (StackElement (List (Nat × Nat))) → List Nat → Nat → Nat →
    Run (List (StackElement (List (Nat × Nat))) × List Nat)
  | fuel, stack, newAlphCont, summS, summAlphS =>
    if summS = summAlphS then
      return (stack, newAlphCont)
    else
      match fuel with
      | 0 => .error .exhausted
      | fuel + 1 => do
        let pushed ← toStack newAlphCont makeHeadsTailsSecond
        populate fuel (pushed.element :: stack) pushed.summary pushed.summS pushed.summAlphS

/-- `while(Stack.size())`. -/
def unwind : List (StackElement (List (Nat × Nat))) → List Nat → Run (List Nat)
  | [], summary => return summary
  | top :: stack, summary => do
    unwind stack (← fromStack top summary)

/-- `SuffixArrayInducedSorting(_).operator()(alph_cont, _)`. -/
def run (fuel : Nat) (alphCont : List UInt8) : Run (List Nat) := do
  let fse ← toStack (alphCont.map UInt8.toNat) makeHeadsTailsFirst
  let populated ← populate fuel [] fse.summary fse.summS fse.summAlphS
  let summary ← InducedSorting.retSummarySA populated.2
  let summary ← unwind populated.1 summary
  fromStack fse.element summary

end SuffixArray.MapBuckets
