import SuffixArray.DecimalText
import SuffixArray.Construct

/-!
# What a search prints

`print_range` with `is_number`, and `init` and `findInfixInF` with their output. The
standard output is a list of bytes. `std::stoul` throws when a number is too large for an
`unsigned long`, and nothing catches that; the output is then missing.
-/

namespace SuffixArray.Report

open Checked Console
open DecimalText (isDigit)
open InducedSorting (idxBits)
open Modes (parseFlag)
open Program (Done Environment alphabetType algorithm chars indexType init makeTables
  patternBytes reported)

/-- The bytes of a literal. -/
def literal (s : String) : List UInt8 := patternBytes s

/-- `is_number`. -/
def isNumber (s : List UInt8) : Bool := s != [] && s.dropWhile isDigit == []

/-- `std::stoul` on a string of digits. -/
def stoul (s : List UInt8) : Option Nat :=
  if 2 ^ 64 ≤ DecimalText.value s then none else some (DecimalText.value s)

/-- `subwidth`, an `unsigned`. -/
def subwidth (sw : List UInt8) : Option Nat :=
  if isNumber sw then (stoul sw).map (· % 2 ^ 32) else some 0

/-- The loop over the characters of an excerpt, with `rest` of them left. -/
def excerpt (data : List UInt8) (start : Nat) : (rest j : Nat) → Run (List UInt8)
  | 0, _ => return []
  | rest + 1, j => do
    let p ← add idxBits start j
    if p < data.length then do
      let c ← load data p
      let more ← excerpt data start rest (j + 1)
      return (if c = 10 then literal "\\n" else [c]) ++ more
    else
      return []

/-- One line of `print_range`. -/
def printEntry (SA : List Nat) (data : List UInt8) (width i : Nat) : Run (List UInt8) := do
  let start ← load SA i
  if width ≠ 0 then do
    let text ← excerpt data start width 0
    return literal "\t" ++ DecimalText.text start ++ literal " :\t" ++ text ++ literal "\n"
  else
    return literal "\t" ++ DecimalText.text start ++ literal "\n"

/-- The first two lines of `print_range` and the third. -/
def rangeHeader (range : Nat × Nat) : List UInt8 :=
  literal "Suffix-array-indices-range :\n\t(" ++ DecimalText.text range.1 ++ literal ", " ++
    DecimalText.text range.2 ++ literal ")\nString-indices:\n"

/-- `print_range`. -/
def printRange (range : Nat × Nat) (SA : List Nat) (data sw : List UInt8) :
    Run (Option (List UInt8)) :=
  match subwidth sw with
  | none => return none
  | some width => do
    let out ← forUp idxBits range.1 range.2 (fun i out => do
      let line ← printEntry SA data width i
      return out ++ line) (rangeHeader range)
    return some out

/-- What follows the search in `init` and in `findInfixInF`. -/
def report (pattern : String) (range : Nat × Nat) (SA : List Nat) (data sw : List UInt8) :
    Run (Option (List UInt8)) :=
  if range.1 = SA.length then
    return some (literal "Pattern ''" ++ patternBytes pattern ++ literal "'' Not Found\n")
  else do
    let printed ← printRange range SA data sw
    return printed.map fun out =>
      literal "Pattern ''" ++ patternBytes pattern ++ literal "'':\n" ++ out

/-- A run and its standard output. -/
abbrev Printed : Type := Done × Option (List UInt8)

variable (env : Environment)

/-- `init` behind the call of the algorithm. -/
def storeOrSearch (outF pattern sw : String) (lcp cmpr : Bool) (data : List UInt8)
    (SA : List Nat) : Console Printed := do
  let tables ← ofRun (makeTables lcp data SA)
  if pattern ≠ "" then do
    let range ← ofRun
      (Search.findAllInfix env.fuel env.past (chars pattern) data SA tables.1 tables.2)
    let out ← ofRun (report pattern range SA data (patternBytes sw))
    return (.searched range, out)
  else do
    let image ← ofRun (Container.write { data, SA, lcpL := tables.1, lcpR := tables.2 } cmpr)
    return (.wrote outF image, some (literal "Data wrote to " ++ patternBytes outF ++ literal "\n"))

/-- The constructor that is given the modes. -/
def construct (modes : Modes) : Console Printed := do
  let inFile ← reported modes "InFile"
  let filterNewline ← reported modes "FilterNewline"
  let corpus ← Program.readData env inFile (parseFlag filterNewline)
  let name ← reported modes "Algorithm"
  let outFile ← reported modes "OutFile"
  let pattern ← reported modes "Infix"
  let useLCP ← reported modes "useLCP"
  let sw ← reported modes "SubstringWidth"
  let tryCompression ← reported modes "TryCompression"
  init indexType alphabetType (algorithm env name corpus.min)
    (storeOrSearch env outFile pattern sw (parseFlag useLCP) (parseFlag tryCompression) corpus.data)
    corpus.data corpus.max

/-- `findInfixInF`. -/
def findInfixInF (pattern fName sw : String) : Console Printed :=
  let read := Container.read env.unset (env.files fName) Container.fresh
  if read.1 then do
    let c := read.2.1
    let range ← ofRun
      (Search.findAllInfix env.fuel env.past (chars pattern) c.data c.SA c.lcpL c.lcpR)
    let out ← ofRun (report pattern range c.SA c.data (patternBytes sw))
    return (.searched range, out)
  else
    fail ("ERROR while reading ''" ++ fName ++ "''\n")

/-- `main`, without the line about the time. -/
def main (args : List String) : Console Printed := do
  let modes ← ofExcept (Modes.make args)
  let pattern ← reported modes "Infix"
  if modes.shortInput ∨ pattern = "" then
    construct env modes
  else do
    let inFile ← reported modes "InFile"
    if inFile = "" then
      fail "ERROR : SuffixArray previously stored data-file ''-i'' not specified!\n"
    else do
      let sw ← reported modes "SubstringWidth"
      findInfixInF env pattern inFile sw

end SuffixArray.Report
