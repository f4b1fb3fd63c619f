import SuffixArray.Console
import SuffixArray.Container
import SuffixArray.Modes
import SuffixArray.Naive
import SuffixArray.Search

/-!
# The program

`main`, the two constructors of the class `SuffixArray` with `init` and `findInfixInF`
behind them, and the checks of `typeChecks.hpp`. What the program finds in the world is
an `Environment`: the files, the library sorts, and what is behind a pattern or in a
local without a value. A run ends with a file written or with a pair of ranks to print;
the printing itself is left out.
-/

namespace SuffixArray.Program

open Checked Console
open Modes (parseFlag)
open Naive (Sorter)

/-- A template argument for an integer type. -/
structure IntType where
  bits : Nat
  signed : Bool
  deriving DecidableEq, Repr

/-- `typedef unsigned char AlphabetType`. -/
def alphabetType : IntType := { bits := 8, signed := false }

/-- `typedef unsigned IndexType`. -/
def indexType : IntType := { bits := 32, signed := false }

def checkIndexType (idxT : IntType) : Console Unit :=
  if idxT.signed then fail "ERROR : Index Type must not be signed!\n" else pure ()

def checkAlphabetType (alph : IntType) : Console Unit :=
  if alph.signed then fail "ERROR : Alphabet Type must not be signed!\n" else pure ()

/-- `checkDataSizeIdxT`, on a size that is an `idxT`. -/
def checkDataSizeIdxT (idxT : IntType) (dataSize : Nat) : Console Unit :=
  if dataSize ≥ 2 ^ idxT.bits - 1 then
    cerr "Input has too many positions for index-type(idxT)!!!\n"
  else
    pure ()

/-- `init`, with the algorithm and with what it goes on to do with the result. The call of the
last check converts the size. -/
def init {β : Type} (idxT alph : IntType) (algorithm : List UInt8 → Nat → Console (List Nat))
    (goOn : List Nat → Console β) (data : List UInt8) (max : Nat) : Console β := do
  checkIndexType idxT
  checkAlphabetType alph
  checkDataSizeIdxT idxT (data.length % 2 ^ idxT.bits)
  let SA ← algorithm data max
  goOn SA

/-- What the program finds in the world. -/
structure Environment where
  files : String → Option (List UInt8)
  sort : Sorter
  parallelSort : Sorter
  past : Search.Past
  unset : Container.Unset
  /-- The iterations that loops without a bound of their own are followed for. -/
  fuel : Nat

/-- How a run that returns ends. -/
inductive Done where
  | wrote (outF : String) (image : List UInt8)
  | searched (range : Nat × Nat)
  deriving DecidableEq, Repr

/-- The bytes of a `std::string` as `char`. A `String` stands for bytes: its characters are those
below 256. -/
def chars (s : String) : List Int8 := s.toList.map fun c => (UInt8.ofNat c.toNat).toInt8

/-- The interval tables, if they are wanted. -/
def makeTables (lcp : Bool) (data : List UInt8) (SA : List Nat) :
    Run (List (List Nat) × List (List Nat)) :=
  if lcp then do
    let neighbours ← Lcp.makeLcp data SA
    LcpTables.makeLcpLr SA neighbours [] []
  else
    return ([], [])

variable (env : Environment)

/-- `init` behind the call of the algorithm. -/
def storeOrSearch (outF pattern : String) (lcp cmpr : Bool) (data : List UInt8) (SA : List Nat) :
    Console Done := do
  let tables ← ofRun (makeTables lcp data SA)
  if pattern ≠ "" then do
    let range ← ofRun
      (Search.findAllInfix env.fuel env.past (chars pattern) data SA tables.1 tables.2)
    return .searched range
  else do
    let image ← ofRun (Container.write { data, SA, lcpL := tables.1, lcpR := tables.2 } cmpr)
    return .wrote outF image

/-- `SuffixArrayNaive(p).operator()`. -/
def naiveSA (p : Bool) (data : List UInt8) (_max : Nat) : Console (List Nat) := do
  checkIndexType indexType
  checkDataSizeIdxT indexType (data.length % 2 ^ indexType.bits)
  ofRun (Naive.makeSA env.sort env.parallelSort p data)

/-- The algorithm that the constructor selects. -/
def algorithm (name : String) (min : Nat) (data : List UInt8) (max : Nat) : Console (List Nat) :=
  if name = Modes.naive then naiveSA env false data max
  else if name = Modes.naiveParallel then naiveSA env true data max
  else ofRun (InducedSorting.run env.fuel min data max)

/-- The text that a failing `read_data` prints. -/
def readDataError (file : Option (List UInt8)) (data : List UInt8) : String :=
  if file = none then "ERROR : Failed to read data\n"
  else if data.length = 0 then "ERROR : No data in file\n"
  else "ERROR : data file empty or contains only one character\n"

/-- `read_data`, with the exit that the constructor makes of a failure. -/
def readData (fName : String) (filtEndline : Bool) : Console ReadData.Corpus :=
  let file := env.files fName
  let read := ReadData.readData (file.map (List.map UInt8.toInt8)) filtEndline ReadData.start
  if read.1 then
    return read.2
  else do
    cerr (readDataError file read.2.data)
    fail "ERROR : Failed to read input-corpus-file\n"

/-- `modes[key]`. -/
def reported (modes : Modes) (key : String) : Console String := ofExcept (modes.get key)

/-- The constructor that is given the modes. -/
def construct (modes : Modes) : Console Done := do
  let inFile ← reported modes "InFile"
  let filterNewline ← reported modes "FilterNewline"
  let corpus ← readData env inFile (parseFlag filterNewline)
  let name ← reported modes "Algorithm"
  let outFile ← reported modes "OutFile"
  let pattern ← reported modes "Infix"
  let useLCP ← reported modes "useLCP"
  let tryCompression ← reported modes "TryCompression"
  init indexType alphabetType (algorithm env name corpus.min)
    (storeOrSearch env outFile pattern (parseFlag useLCP) (parseFlag tryCompression) corpus.data)
    corpus.data corpus.max

/-- `findInfixInF`. -/
def findInfixInF (pattern fName : String) : Console Done :=
  let read := Container.read env.unset (env.files fName) Container.fresh
  if read.1 then do
    let c := read.2.1
    let range ← ofRun
      (Search.findAllInfix env.fuel env.past (chars pattern) c.data c.SA c.lcpL c.lcpR)
    return .searched range
  else
    fail ("ERROR while reading ''" ++ fName ++ "''\n")

/-- `main`, on `argv` without the name of the program. -/
def main (args : List String) : Console Done := do
  let modes ← ofExcept (Modes.make args)
  let pattern ← reported modes "Infix"
  if modes.shortInput ∨ pattern = "" then
    construct env modes
  else do
    let inFile ← reported modes "InFile"
    if inFile = "" then
      fail "ERROR : SuffixArray previously stored data-file ''-i'' not specified!\n"
    else
      findInfixInF env pattern inFile

end SuffixArray.Program
