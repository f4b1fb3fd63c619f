import SuffixArray.Container.Flag
import SuffixArray.History
import SuffixArray.RepeatedSearch

/-!
# What a compressed index is good for

A search of a compressed index is a search with the whole text repeated behind the suffix
array, whatever has been done since the index was built. That is as long as the file is left
alone and the local that the flag is read into happens to hold `false`.
-/

namespace SuffixArray.Program

open Checked Console
open SuffixOrder (IsSuffixArray)
open Search (MatchRange repeatedRange)

variable {env : Environment} {text image : List UInt8} {SA : List Nat} {name : String}

theorem contents_bounded (hSA : IsSuffixArray text SA) : (contentsOf text SA).Bounded where
  SA i hi := hSA.mem_iff.mp hi
  rows := by simp [contentsOf]

/-- What `read` makes of a compressed index. -/
theorem read_compressed (stores : Stores text true image) {unset : Container.Unset}
    (unread : unset.useLcp = false) : ∃ SA strm, IsSuffixArray text SA ∧
      Container.read unset (some image) Container.fresh =
        (true, contentsOf text (SA ++ [0]), strm) := by
  obtain ⟨SA, hSA, written⟩ := stores.written
  obtain ⟨other, strm, written', read⟩ := Container.read_write_untabled
    (contents_fits stores.fits hSA) (contents_bounded hSA) ⟨rfl, rfl⟩ unread
  obtain rfl := Except.ok.inj (written.symm.trans written')
  exact ⟨SA, strm, hSA, read⟩

variable {args : List String} {modes : Modes} {bytes : List UInt8}

/-- A text whose greatest suffix a search of its compressed index does not find. -/
def aabFile : Environment := { oneFile with files := fun _ => some [97, 97, 98], fuel := 3 }

/-- Its compressed index. -/
def aabCompressed : List UInt8 :=
  [1, 3, 0, 0, 0, 97, 97, 98, 1, 0, 0, 0, 51, 48, 49, 50, 0]

theorem aabCompressed_stores : Stores [97, 97, 98] true aabCompressed where
  fits := by decide
  written := ⟨[3, 0, 1, 2], by decide, by decide +kernel⟩

end SuffixArray.Program
