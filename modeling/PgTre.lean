import PgTre.Strings.Windows
import PgTre.Strings.Edits
import PgTre.Query.Hash
import PgTre.Query.RegexAst
import PgTre.Query.Uleven
import PgTre.Query.Tiling
import PgTre.Query.TilePieces
import PgTre.Query.TileSpine
import PgTre.Query.Extract
import PgTre.Query.Linearizer
import PgTre.Query.ExtractCnf
import PgTre.Query.ExtractPieces
import PgTre.Query.PerPhrase
import PgTre.Query.PrefixKey
import PgTre.Query.Tokens
import PgTre.Query.Parser
import PgTre.Query.Grammar
import PgTre.Query.BracketReadings
import PgTre.Query.LikeTranslate
import PgTre.Query.LikeSound
import PgTre.Query.NumberRange
import PgTre.Query.ClassRanges
import PgTre.Util.LinkedChain
import PgTre.Util.OpenAddressing
import PgTre.Util.Allocation
import PgTre.Util.Sparsemap
import PgTre.Util.SparsemapBytes
import PgTre.Util.Successor
import PgTre.Util.Intervals
import PgTre.Sparsemap.Chunks
import PgTre.Sparsemap.Windows
import PgTre.Sparsemap.Append
import PgTre.Sparsemap.Union
import PgTre.Sparsemap.Intersection
import PgTre.Sparsemap.Lookup
import PgTre.Sparsemap.Rank
import PgTre.Sparsemap.Coalesce
import PgTre.Sparsemap.SetBit
import PgTre.Sparsemap.Add
import PgTre.Sparsemap.Emit
import PgTre.Sparsemap.Runs
import PgTre.Sparsemap.AddMany
import PgTre.Sparsemap.Small
import PgTre.Sparsemap.Forms
import PgTre.Sparsemap.Format
import PgTre.Util.TreMatch
import PgTre.Util.RankSelect
import PgTre.Util.Surf
import PgTre.Util.SurfTrie
import PgTre.Util.SurfQueries
import PgTre.Util.ByteLayout
import PgTre.Util.DenseRank
import PgTre.Util.SlidingWindow
import PgTre.Util.StackWalk
import PgTre.Util.Decimal
import PgTre.Util.CharDecode
import PgTre.Util.Traced
import PgTre.Util.BigEndian
import PgTre.Query.TokenPositions
import PgTre.Query.TokenProgress
import PgTre.Query.TokenDomain
import PgTre.Query.TokenScans
import PgTre.Query.TokenRefinement
import PgTre.Query.WalkDepth
import PgTre.Query.WordSimilarity
import PgTre.Query.WordSearch
import PgTre.Query.WordExtent
import PgTre.Util.Routing
import PgTre.Pages.RunCatalog
import PgTre.Util.TypePattern
import PgTre.Util.PatternInput
import PgTre.Util.PatternDatum
import PgTre.Util.PatternCache
import PgTre.Pages.HanoiMerge
import PgTre.Pages.TidPacking
import PgTre.Pages.PostingBytes
import PgTre.Pages.SparsemapLibrary
import PgTre.Pages.BulkDelete
import PgTre.Pages.BulkDeleteSemantics
import PgTre.Pages.BulkDeleteLeaf
import PgTre.Pages.BulkDeleteIndex
import PgTre.Pages.BulkDeleteExact
import PgTre.Pages.PendingMerge
import PgTre.Pages.PostingRead
import PgTre.Pages.Pending
import PgTre.Pages.CatalogPages
import PgTre.Util.Upgrade
import PgTre.Pages.PageStore
import PgTre.Pages.SurfPage
import PgTre.Pages.Coalesced
import PgTre.Pages.UpperPage
import PgTre.Pages.UpperTree
import PgTre.Pages.FreeLog
import PgTre.Pages.PostingBuild
import PgTre.Pages.PostingRoundTrip
import PgTre.Pages.PostingRuns
import PgTre.Util.ImageDelta
import PgTre.Pages.WalRecords
import PgTre.Pages.WalComplete
import PgTre.Pages.CatalogIterator
import PgTre.Pages.CorruptPosting
import PgTre.Pages.SharedTrees
import PgTre.Pages.RunPages
import PgTre.Am.CandidateSet
import PgTre.Am.CrackCache
import PgTre.Am.IndexLife
import PgTre.Am.TrigramCount
import PgTre.Am.CatalogHistory
import PgTre.Am.CandidateExact
import PgTre.Am.StoredIndex
import PgTre.Am.ScanMemory
import PgTre.Am.StoredScan
import PgTre.Am.CrackReads
import PgTre.Am.SurfBuild
import PgTre.Am.Insert
import PgTre.Am.ParallelBuild
import PgTre.Am.SortKeys
import PgTre.Am.ScanInterleaving
import PgTre.Am.MergeMemory
import PgTre.Am.MergedReads
import PgTre.Am.SurfFlag
import PgTre.Am.Heap
import PgTre.Am.Knn
import PgTre.Am.OrderedScan
import PgTre.Am.DistanceAgreement
import PgTre.Am.Similarity
import PgTre.Am.Rescan
import PgTre.Am.CostEstimate
import PgTre.Am.BuiltTree
import PgTre.Am.LiveRows
import PgTre.Am.LiveFilter
import PgTre.Am.LiveScans
