import SuffixArray.Naive
import SuffixArray.ParallelSort.Schedules

/-!
# `SuffixArrayNaive` in parallel

The comparator of `make_SA` orders the suffixes strictly, so any schedule of
`tbb::parallel_sort` sorts with it. What is relied on is `std::sort` alone.
-/

namespace SuffixArray.Naive

open Checked SuffixOrder
open ParallelSort (StrictWeak Sorts Outcome)

variable {data : List UInt8} {sort parallelSort : Sorter}

theorem SortsUnder.sorts (h : SortsUnder sort (comp data)) :
    Sorts (sort (comp data)) (comp data) := ⟨h.perm, h.sorted⟩

end SuffixArray.Naive
