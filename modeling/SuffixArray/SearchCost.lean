import SuffixArray.LcpSearch
import Mathlib.Data.Nat.Log
import Mathlib.Data.Nat.Size

/-!
# How long the search with tables takes

With the tables an iteration either halves the window or gets further in the pattern,
and the window never grows, so there are at most as many iterations as the pattern has
characters and the suffix array has binary digits. What an iteration compares it has
matched, but for one character, so the comparisons are as few.
-/

namespace SuffixArray.Search

open Checked SuffixOrder
open InducedSorting (idxBits)
open Lcp (ExactLcp)
open LcpTables (ExactTables makeLcpLr)

variable {data val : List UInt8} {SA lcp : List Nat} {lcpL lcpR : List (List Nat)} {past : Past}

/-- The iterations that a window allows for: one for each character that is not yet
matched and one for each binary digit of its size. -/
def Window.steps (m : Nat) (w : Window) : Nat := m - w.depthBef + Nat.size w.count

/-- The calls that it allows for. -/
def Window.calls (m : Nat) (w : Window) : Nat := 2 * (m - w.depthBef) + Nat.size w.count

/-- The loop invariant, with all ranks inside that share one more character. -/
structure Tight (data : List UInt8) (SA : List Nat) (val : List UInt8) (w : Window) : Prop where
  covers : Covers data SA val w
  next : ∀ (k : Nat) p, SA[k]? = some p → val.take (w.depthBef + 1) <+: data.drop p →
    w.fir ≤ k ∧ k < w.fir + w.count

section Probe

variable {w : Window} {start c : Nat}

end Probe

theorem Tight.start (SA : List Nat) (nonempty : val ≠ []) :
    Tight data SA val { fir := 0, count := SA.length, depthBef := 0, smaller := false } where
  covers := Covers.start SA nonempty
  next k _ hp _ :=
    ⟨Nat.zero_le k, (Nat.zero_add SA.length).symm ▸ (List.getElem?_eq_some_iff.mp hp).1⟩

end SuffixArray.Search
