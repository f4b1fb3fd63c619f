import SuffixArray.HexText
import SuffixArray.LcpTables

/-!
# The container file

`write` and `read` with their helpers. A file holds a flag, the number of data
bytes, the data, the suffix array, a second flag and, when that is set, the rows of
the two interval tables in turn, each behind its length. The plain form stores
words; the compressed form stores the suffix array and the rows as hexadecimal text
of one width, without separators, and announces the width once. Words are 32 bits
wide and little-endian.

Reading is modelled down to the state of the stream. A local that a failed read
leaves without a value has an arbitrary one, given by `Unset`. `&(*v.begin())` is
taken as the address of the elements also where there are none.
-/

namespace SuffixArray.Container

open Checked
open InducedSorting (idxBits)
open InputStream (extract readWord readWords whileExtract)
open LcpTables (resize)

/-- The four vectors that `write` stores and `read` fills. -/
structure Contents where
  data : List UInt8
  SA : List Nat
  lcpL : List (List Nat)
  lcpR : List (List Nat)
  deriving DecidableEq, Repr

/-- `sizeof(idxT)`. -/
def idxBytes : Nat := 4

/-- The representation of an `idxT`. -/
def bytesOfIdxT (i : Nat) : List UInt8 := LittleEndian.encode idxBytes i

/-- The representation of a `bool`. -/
def bytesOfBool (b : Bool) : List UInt8 := if b then [1] else [0]

def idxTToHexStr (i w : Nat) : List UInt8 := HexText.padded w i

/-- One row in the loop of `bin_writeSA`: its size, then as many entries. -/
def binWriteRow (row : List Nat) : List UInt8 :=
  let s := row.length % 2 ^ idxBits
  bytesOfIdxT s ++ LittleEndian.encodeAll idxBytes (row.take s)

/-- `bin_writeSA`. -/
def binWriteSA (out : List UInt8) (SA : List Nat) (dataSize : Nat)
    (lcpL lcpR : List (List Nat)) : Run (List UInt8) := do
  let count ← inc idxBits dataSize
  let entries ← slice SA 0 count
  let out := out ++ LittleEndian.encodeAll idxBytes entries ++ bytesOfBool (lcpL.length != 0)
  forUp idxBits 0 lcpL.length (fun i out => do
    let l ← load lcpL i
    let r ← load lcpR i
    return out ++ (binWriteRow l ++ binWriteRow r)) out

/-- One row in the loop of `writeCompSA`: its size, then all entries as text. -/
def writeCompRow (maxIdxSize : Nat) (row : List Nat) : List UInt8 :=
  bytesOfIdxT (row.length % 2 ^ idxBits) ++ row.flatMap (HexText.padded maxIdxSize)

/-- `writeCompSA`. -/
def writeCompSA (out : List UInt8) (SA : List Nat) (dataSize : Nat)
    (lcpL lcpR : List (List Nat)) : Run (List UInt8) :=
  let maxIdxSize := (idxTToHexStr dataSize 0).length
  let out := out ++ bytesOfIdxT maxIdxSize ++ SA.flatMap (HexText.padded maxIdxSize) ++
    bytesOfBool (lcpL.length != 0)
  forUp idxBits 0 lcpL.length (fun i out => do
    let l ← load lcpL i
    let r ← load lcpR i
    return out ++ (writeCompRow maxIdxSize l ++ writeCompRow maxIdxSize r)) out

/-- `write`: the bytes of the file. -/
def write (c : Contents) (cmpr : Bool) : Run (List UInt8) :=
  let dataSize := c.data.length % 2 ^ idxBits
  let out := bytesOfBool cmpr ++ bytesOfIdxT dataSize ++ c.data.take dataSize
  if cmpr then
    writeCompSA out c.SA dataSize c.lcpL c.lcpR
  else
    binWriteSA out c.SA dataSize c.lcpL c.lcpR

/-- The values that locals without an initializer happen to have: those of `read`
and `read_lcp_lr`, and `idx` of `HexStrTToIdxT`. -/
structure Unset where
  cmpr : Bool
  dataSize : Nat
  maxIdxSize : Nat
  useLcp : Bool
  s : Nat
  idx : Nat
  deriving DecidableEq, Repr

/-- `HexStrTToIdxT`. -/
def hexStrTToIdxT (unset : Unset) (hexstr : List UInt8) : Nat :=
  (HexText.parse idxBits hexstr).getD unset.idx

/-- `strm_in.read` into a `bool`. -/
def readBool (b : Bool) : Reading Bool := do
  let buf ← InputStream.read (bytesOfBool b)
  return buf != [0]

/-- `std::setw(w)` takes an `int`, and a negative width sets no limit. -/
def setw (w : Nat) : Nat := if w < 2 ^ (idxBits - 1) then w else 0

/-- A row of `lcp_l` as text. `hexstr` outlives the iterations. -/
def readHexRowL (unset : Unset) (maxIdxSize s : Nat) : Reading (List Nat) := do
  let row ← (List.range s).foldlM (fun (row : List Nat × List UInt8) _ => do
    let hexstr ← extract (setw maxIdxSize) row.2
    return (row.1 ++ [hexStrTToIdxT unset hexstr], hexstr)) ([], [])
  return row.1

/-- A row of `lcp_r` as text. `hexstr` is cleared in each iteration. -/
def readHexRowR (unset : Unset) (maxIdxSize s : Nat) : Reading (List Nat) :=
  (List.range s).foldlM (fun r _ => do
    let hexstr ← extract (setw maxIdxSize) []
    return r ++ [hexStrTToIdxT unset hexstr]) []

/-- The tables as far as they have been read, and the last row size. -/
structure Rows where
  s : Nat
  lcpL : List (List Nat)
  lcpR : List (List Nat)
  deriving DecidableEq, Repr

/-- One iteration of the loop in `read_lcp_lr`. -/
def readRow (unset : Unset) (cmpr : Bool) (maxIdxSize : Nat) (rows : Rows) (_i : Nat) :
    Reading Rows :=
  if cmpr then do
    let s ← readWord idxBytes rows.s
    let l ← readHexRowL unset maxIdxSize s
    let s ← readWord idxBytes s
    let r ← readHexRowR unset maxIdxSize s
    return { s := s, lcpL := rows.lcpL ++ [l], lcpR := rows.lcpR ++ [r] }
  else do
    let s ← readWord idxBytes rows.s
    let l ← readWords idxBytes (List.replicate s 0)
    let s ← readWord idxBytes s
    let r ← readWords idxBytes (List.replicate s 0)
    return { s := s, lcpL := rows.lcpL ++ [l], lcpR := rows.lcpR ++ [r] }

/-- `read_lcp_lr` on the two tables. -/
def readLcpLr (unset : Unset) (lcpL lcpR : List (List Nat)) (cmpr : Bool)
    (dataSize maxIdxSize : Nat) : Reading (List (List Nat) × List (List Nat)) := do
  let useLcp ← readBool unset.useLcp
  if useLcp then
    let rows ← (List.range dataSize).foldlM (readRow unset cmpr maxIdxSize)
      { s := unset.s, lcpL := lcpL, lcpR := lcpR }
    return (rows.lcpL, rows.lcpR)
  else
    return (lcpL, lcpR)

/-- The body of `while(strm_in >> setw(max_idx_size) >> hexstr)`. -/
def pushHex (unset : Unset) (SA : List Nat) (hexstr : List UInt8) : List Nat :=
  SA ++ [hexStrTToIdxT unset hexstr]

/-- `read` on a stream that is open, into vectors that may have contents. -/
def readOpened (unset : Unset) (c : Contents) : Reading Contents := do
  let cmpr ← readBool unset.cmpr
  let dataSize ← readWord idxBytes unset.dataSize
  let data ← InputStream.read (resize c.data dataSize 0)
  let dataSize := (dataSize + 1) % 2 ^ idxBits
  if cmpr then
    let maxIdxSize ← readWord idxBytes unset.maxIdxSize
    let SA ← whileExtract (setw maxIdxSize) (pushHex unset) c.SA []
    let tables ← readLcpLr unset c.lcpL c.lcpR cmpr dataSize maxIdxSize
    return { data := data, SA := SA, lcpL := tables.1, lcpR := tables.2 }
  else
    let SA ← readWords idxBytes (resize c.SA dataSize 0)
    let tables ← readLcpLr unset c.lcpL c.lcpR cmpr dataSize unset.maxIdxSize
    return { data := data, SA := SA, lcpL := tables.1, lcpR := tables.2 }

/-- `read` on a file that may fail to open: the returned flag, the vectors and the
stream afterwards. -/
def read (unset : Unset) (file : Option (List UInt8)) (c : Contents) :
    Bool × Contents × InputStream :=
  match file with
  | none => (false, c, { rest := [], eof := false, failed := true })
  | some bytes => (true, readOpened unset c (InputStream.ofBytes bytes))

/-- The vectors as `findInfixInF` declares them. -/
def fresh : Contents := { data := [], SA := [], lcpL := [], lcpR := [] }

/-- `read` gets back from the file what `write` was given. -/
def RoundTrips (cmpr : Bool) (unset : Unset) (c : Contents) : Prop :=
  ∃ image, write c cmpr = .ok image ∧ (read unset (some image) fresh).1 = true ∧
    (read unset (some image) fresh).2.1 = c

/-- What `write` needs to run through: the number of suffixes is a word, and the tables are both
empty or have a row for each suffix. -/
structure Contents.Shaped (c : Contents) : Prop where
  size : c.data.length + 1 < 2 ^ idxBits
  tables : (c.lcpL = [] ∧ c.lcpR = []) ∨
    (c.lcpL.length = c.data.length + 1 ∧ c.lcpR.length = c.data.length + 1)

/-- What the callers of `write` hand over: one suffix for each position of the data
and one for its end, and words only. -/
structure Contents.Fits (c : Contents) : Prop extends c.Shaped where
  entries : c.SA.length = c.data.length + 1
  words : ∀ i ∈ c.SA, i < 2 ^ idxBits
  rowSizes : ∀ row ∈ c.lcpL ++ c.lcpR, row.length < 2 ^ idxBits
  rowWords : ∀ row ∈ c.lcpL ++ c.lcpR, ∀ i ∈ row, i < 2 ^ idxBits

end SuffixArray.Container
