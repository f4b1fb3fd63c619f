import SuffixArray.InducedScan
import SuffixArray.InducedSorting.Seeding
import SuffixArray.SuffixOrder
import SuffixArray.InducedSorting.Buckets
import SuffixArray.InducedSorting.Passes
import SuffixArray.LmsSubstring
import SuffixArray.Naive
import SuffixArray.ReadData
import SuffixArray.LcpSearch
import SuffixArray.Container.Plain
import SuffixArray.Container.Compressed
import SuffixArray.InducedSorting.Reached
import SuffixArray.Modes
import SuffixArray.Console
import SuffixArray.Program
import SuffixArray.Dispatch
import SuffixArray.SizeCheck
import SuffixArray.Truncation
import SuffixArray.Alternative.Shifted
import SuffixArray.SearchReads
import SuffixArray.InducedSorting.Types
import SuffixArray.NaiveParallel
import SuffixArray.Report.CompressedAnswers
import SuffixArray.SearchCost
import SuffixArray.Container.Sizes
import SuffixArray.InducedSorting.Footprint
import SuffixArray.InducedSorting.NamingCost
import SuffixArray.Report.AnyIndex
import SuffixArray.MapBuckets.Agreement
import SuffixArray.LcpCost
import SuffixArray.Backup.Agreement
