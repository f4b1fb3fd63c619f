import Mathlib.Data.List.Perm.Basic
import Mathlib.Order.Nat
import SuffixArray.Checked

/-!
# `tbb::parallel_sort`

`quick_sort_range` places a key taken from nine of the elements so that nothing in front
of it is greater and nothing behind it is smaller. The functions are given the elements
of one range, so a subscript outside the range is a fault. That nothing is read or
written outside it is then part of the fact that they return.

The tasks that `parallel_for` makes of a range are run in any order and a task that splits
may be interrupted after each round. Which of the waiting ranges are split and which are
sorted at once is the partitioner's choice, as long as it splits no range below the
grainsize, so both are left open.
-/

namespace ParallelSort

open Checked

variable {α : Type}

section Code

variable (comp : α → α → Bool)

def medianOfThree (array : List α) (l m r : Nat) : Run Nat := do
  let atL ← load array l
  let atM ← load array m
  let atR ← load array r
  return if comp atL atM then
    if comp atM atR then m else if comp atL atR then r else l
  else
    if comp atR atM then m else if comp atR atL then r else l

def pseudoMedianOfNine (array : List α) : Run Nat := do
  let offset := array.length / 8
  let last ← sub array.length 1
  let l ← medianOfThree comp array 0 offset (offset * 2)
  let m ← medianOfThree comp array (offset * 3) (offset * 4) (offset * 5)
  let r ← medianOfThree comp array (offset * 6) (offset * 7) last
  medianOfThree comp array l m r

/-- `std::iter_swap`. -/
def iterSwap (array : List α) (i j : Nat) : Run (List α) := do
  let atI ← load array i
  let atJ ← load array j
  let array ← store array i atJ
  store array j atI

/-- `do { --j; } while (comp(*key0, array[j]));` -/
def scanDown (array : List α) : (j : Nat) → Run Nat
  | 0 => .error .wrapped
  | j + 1 => do
    let key ← load array 0
    let atJ ← load array j
    if comp key atJ then scanDown array j else return j

/-- `do { if (i == j) goto partition; ++i; } while (comp(array[i], *key0));` -/
def scanUp (array : List α) (j : Nat) : (fuel i : Nat) → Run Nat
  | 0, _ => .error .exhausted
  | fuel + 1, i =>
    if i = j then
      return i
    else do
      let atI ← load array (i + 1)
      let key ← load array 0
      if comp atI key then scanUp array j fuel (i + 1) else return i + 1

/-- One round of `for (;;)`, with the cursors it leaves behind. They have met when it went
on to `partition`. -/
def round (array : List α) (i j : Nat) : Run (List α × Nat × Nat) := do
  let j ← scanDown comp array j
  let i ← scanUp comp array j (array.length + 1) i
  if i = j then
    return (array, i, j)
  else do
    let array ← iterSwap array i j
    return (array, i, j)

/-- Everything in front of `partition`. -/
def chooseKey (array : List α) : Run (List α) := do
  let m ← pseudoMedianOfNine comp array
  if m ≠ 0 then iterSwap array 0 m else return array

/-- `for (;;)`. -/
def rounds : (fuel : Nat) → (array : List α) → (i j : Nat) → Run (List α × Nat)
  | 0, _, _, _ => .error .exhausted
  | fuel + 1, array, i, j => do
    let next ← round comp array i j
    if next.2.1 = next.2.2 then return (next.1, next.2.2)
    else rounds fuel next.1 next.2.1 next.2.2

/-- `split_range`, with the elements it leaves and the sizes of the two parts. -/
def splitRange (array : List α) : Run (List α × Nat × Nat) := do
  let array ← chooseKey comp array
  let placed ← rounds comp array.length array 0 array.length
  let array ← iterSwap placed.1 placed.2 0
  let newRangeSize ← sub array.length (placed.2 + 1)
  return (array, placed.2, newRangeSize)

/-- `quick_sort_range`, its comparator apart. -/
structure QuickSortRange where
  begin : Nat
  size : Nat
  deriving DecidableEq, Repr

def grainsize : Nat := 500

def QuickSortRange.isDivisible (range : QuickSortRange) : Prop := range.size ≥ grainsize

inductive Phase where
  | waiting
  /-- In `split_range`, with its cursors at the head of the loop. -/
  | splitting (i j : Nat)
  deriving DecidableEq, Repr

structure Task where
  range : QuickSortRange
  phase : Phase
  deriving DecidableEq, Repr

/-- The constructor that splits, up to its loop. -/
def beginSplit (range : QuickSortRange) (array : List α) : Run (List α × List Task) := do
  let array ← chooseKey comp array
  return (array, [⟨range, .splitting 0 range.size⟩])

/-- A round and, once the cursors have met, the two ranges. -/
def continueSplit (range : QuickSortRange) (i j : Nat) (array : List α) :
    Run (List α × List Task) := do
  let next ← round comp array i j
  if next.2.1 = next.2.2 then do
    let array ← iterSwap next.1 next.2.2 0
    let newRangeSize ← sub range.size (next.2.2 + 1)
    return (array, [⟨⟨range.begin, next.2.2⟩, .waiting⟩,
      ⟨⟨range.begin + next.2.2 + 1, newRangeSize⟩, .waiting⟩])
  else
    return (next.1, [⟨range, .splitting next.2.1 next.2.2⟩])

/-- What a task may do next with the elements of its range, and what is left of it then. -/
inductive TaskAction (sort : List α → List α) (array : List α) :
    Task → Run (List α × List Task) → Prop
  | split {range : QuickSortRange} : range.isDivisible →
      TaskAction sort array ⟨range, .waiting⟩ (beginSplit comp range array)
  | round {range : QuickSortRange} {i j : Nat} :
      TaskAction sort array ⟨range, .splitting i j⟩ (continueSplit comp range i j array)
  /-- `quick_sort_body`. -/
  | body {range : QuickSortRange} :
      TaskAction sort array ⟨range, .waiting⟩ (.ok (sort array, []))

/-- A part of the `blocked_range` of the pretest. -/
inductive Chunk where
  | waiting (begin stop : Nat)
  /-- In `quick_sort_pretest_body`, at the head of the loop. -/
  | running (k stop i : Nat)
  deriving DecidableEq, Repr

/-- `comp(*k, *(k-1))`. -/
def descends (array : List α) (k : Nat) : Run Bool := do
  let before ← sub k 1
  let atK ← load array k
  let atBefore ← load array before
  return comp atK atBefore

/-- One iteration of the pretest with the chunks and the state of cancellation behind it. The
counter of the source is an `int i` that is asked only for `i % 64`; it is taken without its
overflow, behind `2 ^ 31` iterations of one chunk. -/
def pretest (array : List α) (cancelled : Bool) (k stop i : Nat) : Run (List Chunk × Bool) := do
  if ← descends comp array k then return ([], true)
  else return ([.running (k + 1) stop (i + 1)], cancelled)

/-- What may happen to a chunk next. A cancelled group starts no further chunk, and a
running one may overlook the cancellation as long as it likes. -/
inductive ChunkAction (array : List α) (cancelled : Bool) :
    Chunk → Run (List Chunk × Bool) → Prop
  | split {begin stop : Nat} : 1 < stop - begin →
      ChunkAction array cancelled (.waiting begin stop)
        (.ok ([.waiting begin (begin + (stop - begin) / 2),
          .waiting (begin + (stop - begin) / 2) stop], cancelled))
  | start {begin stop : Nat} :
      ChunkAction array cancelled (.waiting begin stop) (.ok ([.running begin stop 0], cancelled))
  | drop {begin stop : Nat} : cancelled = true →
      ChunkAction array cancelled (.waiting begin stop) (.ok ([], cancelled))
  | finish {k stop i : Nat} : k = stop →
      ChunkAction array cancelled (.running k stop i) (.ok ([], cancelled))
  | leave {k stop i : Nat} : k ≠ stop → i % 64 = 0 → cancelled = true →
      ChunkAction array cancelled (.running k stop i) (.ok ([], cancelled))
  | test {k stop i : Nat} : k ≠ stop →
      ChunkAction array cancelled (.running k stop i) (pretest comp array cancelled k stop i)

end Code

/-- `parallel_sort`, between two actions of its tasks. -/
inductive State (α : Type) where
  | pretesting (array : List α) (chunks : List Chunk) (cancelled : Bool)
  | sorting (array : List α) (tasks : List Task)
  | done (array : List α)
  | failed (fault : Fault)

/-- The range of the elements from `begin` on, replaced. -/
def splice (array : List α) (begin : Nat) (part : List α) : List α :=
  array.take begin ++ part ++ array.drop (begin + part.length)

/-- A chunk has done something. -/
def resumePretest (array : List α) (before after : List Chunk) :
    Run (List Chunk × Bool) → State α
  | .ok next => .pretesting array (before ++ next.1 ++ after) next.2
  | .error fault => .failed fault

/-- A task has done something. -/
def resumeSort (array : List α) (begin : Nat) (before after : List Task) :
    Run (List α × List Task) → State α
  | .ok next => .sorting (splice array begin next.1) (before ++ next.2 ++ after)
  | .error fault => .failed fault

def wholeRange (array : List α) : Task := ⟨⟨0, array.length⟩, .waiting⟩

/-- The next action of any chunk or task, or the step to the next phase. -/
inductive Step (comp : α → α → Bool) (sort : List α → List α) : State α → State α → Prop
  | chunk {array : List α} {before after : List Chunk} {chunk : Chunk} {cancelled : Bool}
      {result : Run (List Chunk × Bool)} :
      ChunkAction comp array cancelled chunk result →
      Step comp sort (.pretesting array (before ++ chunk :: after) cancelled)
        (resumePretest array before after result)
  | pretested {array : List α} {cancelled : Bool} :
      Step comp sort (.pretesting array [] cancelled)
        (if cancelled then .sorting array [wholeRange array] else .done array)
  | task {array part : List α} {before after : List Task} {task : Task}
      {result : Run (List α × List Task)} :
      slice array task.range.begin (task.range.begin + task.range.size) = .ok part →
      TaskAction comp sort part task result →
      Step comp sort (.sorting array (before ++ task :: after))
        (resumeSort array task.range.begin before after result)
  | outside {array : List α} {before after : List Task} {task : Task} {fault : Fault} :
      slice array task.range.begin (task.range.begin + task.range.size) = .error fault →
      Step comp sort (.sorting array (before ++ task :: after)) (.failed fault)
  | sorted {array : List α} : Step comp sort (.sorting array []) (.done array)

def minParallelSize : Nat := 500

def serialCutoff : Nat := 9

/-- The serial tests from the element `k` on. -/
def serialPretest (comp : α → α → Bool) (array : List α) : (k left : Nat) → Run Bool
  | _, 0 => return false
  | k, left + 1 => do
    if ← descends comp array (k + 1) then return true
    else serialPretest comp array (k + 1) left

/-- `parallel_quick_sort`, up to its first task. -/
def parallelQuickSort (comp : α → α → Bool) (array : List α) : Run (State α) := do
  if ← serialPretest comp array 0 serialCutoff then
    return .sorting array [wholeRange array]
  else
    return .pretesting array [.waiting (serialCutoff + 1) array.length] false

/-- `parallel_sort`, up to its first task. -/
def start (comp : α → α → Bool) (sort : List α → List α) (array : List α) : Run (State α) :=
  if 0 < array.length then
    if array.length < minParallelSize then return .done (sort array)
    else parallelQuickSort comp array
  else
    return .done array

/-- What `parallel_sort` asks of its comparator. -/
structure StrictWeak (comp : α → α → Bool) : Prop where
  asymm : ∀ {a b}, comp a b = true → comp b a = false
  trans : ∀ {a b c}, comp b a = false → comp c b = false → comp c a = false

theorem StrictWeak.irrefl {comp : α → α → Bool} (order : StrictWeak comp) (a : α) :
    comp a a = false := by
  cases h : comp a a with
  | false => rfl
  | true => exact h.symm.trans (order.asymm h)

theorem strictWeak_lt : StrictWeak (fun a b : Nat => decide (a < b)) where
  asymm h := by
    rw [decide_eq_true_eq] at h
    exact decide_eq_false (Nat.not_lt_of_lt h)
  trans h h' := by
    rw [decide_eq_false_iff_not] at *
    omega

end ParallelSort
