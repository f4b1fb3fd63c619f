import SuffixArray.Bisection
import SuffixArray.Bytes
import SuffixArray.InducedSorting
import SuffixArray.ReadData

/-!
# Searching a pattern

`find_all_infix` and the free function `lower_bound` behind it. The pattern comes as
`char` and is compared as `unsigned char`. Both return a pair of ranks, or the
number of ranks twice when nothing was found.

`std::equal` in `lower_bound` is bounded by the end of the data only and may read
one element behind the pattern. What such a read delivers is a parameter, given by
the position of the data it is compared with; `none` stops the run.
-/

namespace SuffixArray.Search

open Checked SuffixOrder
open InducedSorting (idxBits)
open ReadData (alphOfChar)

/-- The memory right behind the pattern. -/
abbrev Past : Type := Nat → Option UInt8

/-- `*(val.cbegin() + q)`, compared with position `p` of the data. -/
def readVal (val : List UInt8) (past : Past) (p q : Nat) : Run UInt8 :=
  if q = val.length then
    match past p with
    | some b => .ok b
    | none => .error .outOfRange
  else
    load val q

/-- `std::equal` with `Find_if_unequal`, on `depth` and `smaller`, over the `rest`
positions left before the end of the data. -/
def equalVal (data val : List UInt8) (past : Past) :
    (rest p q depth : Nat) → (smaller : Bool) → Run (Nat × Bool)
  | 0, _, _, depth, smaller => return (depth, smaller)
  | rest + 1, p, q, depth, smaller => do
    let a ← load data p
    let b ← readVal val past p q
    if a < b then return (depth, true)
    else if a > b then return (depth, false)
    else equalVal data val past rest (p + 1) (q + 1) (← inc idxBits depth) smaller

/-- The loop variables of `lower_bound`. -/
structure Window where
  fir : Nat
  count : Nat
  depthBef : Nat
  smaller : Bool
  deriving DecidableEq, Repr

/-- `depth_bef-1 < lcp_l[i].size() ? lcp_l[i][depth_bef-1] : i`. -/
def rangeL (lcpL : List (List Nat)) (i depthBef : Nat) : Run Nat := do
  let row ← load lcpL i
  let d ← Checked.sub depthBef 1
  if d < row.length then load row d else return i

/-- `depth_bef-1 < lcp_r[i].size() ? lcp_r[i][depth_bef-1]+1 : i+1`. -/
def rangeR (lcpR : List (List Nat)) (i depthBef : Nat) : Run Nat := do
  let row ← load lcpR i
  let d ← Checked.sub depthBef 1
  if d < row.length then inc idxBits (← load row d) else inc idxBits i

/-- One iteration of `lower_bound`: a result or the next window. -/
def lowerBoundStep (past : Past) (data : List UInt8) (SA : List Nat) (lcpL lcpR : List (List Nat))
    (val : List UInt8) (w : Window) : Run ((Nat × Nat) ⊕ Window) := do
  let step := w.count / 2
  let i ← add idxBits w.fir step
  let start ← load SA i
  let rest ← Checked.sub data.length (start + w.depthBef)
  let compared ← equalVal data val past rest (start + w.depthBef) w.depthBef 0 w.smaller
  if compared.1 ≠ 0 then
    let depthBef ← add idxBits w.depthBef compared.1
    let l ← rangeL lcpL i depthBef
    let r ← rangeR lcpR i depthBef
    if depthBef = val.length then
      return .inl (l, r)
    else
      let count ← Checked.sub r l
      return .inr { fir := l, count := count, depthBef := depthBef, smaller := compared.2 }
  else if compared.2 then
    let fir ← inc idxBits i
    let count ← Checked.sub w.count (step + 1)
    return .inr { fir := fir, count := count, depthBef := w.depthBef, smaller := compared.2 }
  else
    return .inr { fir := w.fir, count := step, depthBef := w.depthBef, smaller := compared.2 }

/-- `while(count)`, at most `fuel` iterations. -/
def lowerBoundLoop (past : Past) (data : List UInt8) (SA : List Nat) (lcpL lcpR : List (List Nat))
    (val : List UInt8) : (fuel : Nat) → Window → Run (Nat × Nat)
  | fuel, w =>
    if w.count = 0 then
      return (SA.length, SA.length)
    else
      match fuel with
      | 0 => .error .exhausted
      | fuel + 1 => do
        match ← lowerBoundStep past data SA lcpL lcpR val w with
        | .inl range => return range
        | .inr w => lowerBoundLoop past data SA lcpL lcpR val fuel w

/-- The free function `lower_bound`. -/
def lowerBound (fuel : Nat) (past : Past) (data : List UInt8) (SA : List Nat)
    (lcpL lcpR : List (List Nat)) (val : List UInt8) : Run (Nat × Nat) :=
  lowerBoundLoop past data SA lcpL lcpR val fuel
    { fir := 0, count := SA.length, depthBef := 0, smaller := false }

/-- `(char)c` of a pattern element that reaches the comparator as `char`. -/
def charOfAlph (c : UInt8) : Int8 := c.toInt8

/-- A pattern as it goes into `find_all_infix` and back. -/
theorem map_charOfAlph (val : List UInt8) : (val.map charOfAlph).map alphOfChar = val := by
  rw [List.map_map]
  exact List.map_id val

/-- `CompLess`. -/
def compLess (cSizet : UInt8) (c : Int8) : Bool := decide (cSizet < alphOfChar c)

/-- `CompSeq`: the suffix at `saIdx` against the pattern. -/
def compSeq (data pattern : List UInt8) (saIdx : Nat) : Bool :=
  lexicographicalCompare (fun a b => compLess a (charOfAlph b)) (data.drop saIdx) pattern

/-- The loop that confirms the first candidate, with `rest` pattern positions left.
Nothing is returned at a mismatch and `d` otherwise. -/
def confirm (data pattern : List UInt8) (start : Nat) : (rest i d : Nat) → Run (Option Nat)
  | 0, _, d => return some d
  | rest + 1, i, d => do
    let p ← add idxBits start i
    if p < data.length then
      let a ← load data p
      let b ← load pattern i
      if a = b then
        let d ← inc idxBits d
        let i ← inc idxBits i
        confirm data pattern start rest i d
      else
        return none
    else
      return some d

/-- `equal`, with `rest` of the `d` positions left. -/
def equal (pattern data : List UInt8) (begin_ : Nat) : (rest depth : Nat) → Run Bool
  | 0, _ => return true
  | rest + 1, depth => do
    if depth < pattern.length ∧ begin_ + depth ≠ data.length then
      let a ← load pattern depth
      let b ← load data (begin_ + depth)
      if a = b then
        let depth ← inc idxBits depth
        equal pattern data begin_ rest depth
      else
        return false
    else
      return true

/-- The loop that moves `sec` over the further matches, with `rest` ranks left. -/
def extend (data pattern : List UInt8) (SA : List Nat) (d : Nat) : (rest sec : Nat) → Run Nat
  | 0, sec => return sec
  | rest + 1, sec => do
    let start ← load SA sec
    if ← equal pattern data start d 0 then
      let sec ← inc idxBits sec
      extend data pattern SA d rest sec
    else
      return sec

/-- `find_all_infix` after its call of `std::lower_bound`. -/
def rangeFrom (data pattern : List UInt8) (SA : List Nat) (idx : Nat) : Run (Nat × Nat) := do
  if idx = SA.length then
    return (SA.length, SA.length)
  else
    let start ← load SA idx
    match ← confirm data pattern start pattern.length 0 0 with
    | none => return (SA.length, SA.length)
    | some d =>
      if d ≠ pattern.length then
        return (SA.length, SA.length)
      else
        let sec ← inc idxBits idx
        let sec ← extend data pattern SA d (SA.length - sec) sec
        return (idx, sec)

/-- `find_all_infix`. Tables of size zero select the plain search. -/
def findAllInfix (fuel : Nat) (past : Past) (infixIn : List Int8) (data : List UInt8)
    (SA : List Nat) (lcpL lcpR : List (List Nat)) : Run (Nat × Nat) := do
  let pattern := infixIn.map alphOfChar
  if lcpL.length ≠ 0 then
    lowerBound fuel past data SA lcpL lcpR pattern
  else
    let idx ← Bisection.lowerBound (compSeq data pattern) SA
    rangeFrom data pattern SA idx

end SuffixArray.Search
