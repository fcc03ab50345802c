import QDesktopSearch.Lib.Slots
import QDesktopSearch.Lib.Machine
import QDesktopSearch.Lib.Separated
import QDesktopSearch.Model.Index
import QDesktopSearch.Model.Modifier
import QDesktopSearch.Model.Text
import QDesktopSearch.Model.Document
import QDesktopSearch.Model.Lucy
import QDesktopSearch.Model.Worker
import QDesktopSearch.Model.Commits
import QDesktopSearch.Model.Indexer
import QDesktopSearch.Model.Application
import QDesktopSearch.Model.Settings
import QDesktopSearch.Model.Removal
import QDesktopSearch.Abstract.Collection
import QDesktopSearch.Proof.Modifier
import QDesktopSearch.Proof.Refine
import QDesktopSearch.Proof.Identity
import QDesktopSearch.Proof.Indexer
import QDesktopSearch.Proof.Indexing
import QDesktopSearch.Proof.Numbering
import QDesktopSearch.Proof.Purge
import QDesktopSearch.Proof.Session
import QDesktopSearch.Proof.Soundness
import QDesktopSearch.Proof.Completeness
import QDesktopSearch.Proof.Durability
import QDesktopSearch.Proof.Reindex
import QDesktopSearch.Proof.Registry
import QDesktopSearch.Proof.Separation
import QDesktopSearch.Proof.Opening
import QDesktopSearch.Proof.Removal
import QDesktopSearch.Proof.Metadata
import QDesktopSearch.Proof.Settings
import QDesktopSearch.Lib.Runs
import QDesktopSearch.Lib.Source
import QDesktopSearch.Model.Analysis
import QDesktopSearch.Proof.Tokens
import QDesktopSearch.Proof.Analysis
import QDesktopSearch.Model.WriteLock
import QDesktopSearch.Proof.WriteLock
import QDesktopSearch.Model.CleanUp
import QDesktopSearch.Proof.CleanUp
import QDesktopSearch.Model.Searcher
import QDesktopSearch.Proof.Commits
import QDesktopSearch.Proof.OnePath
import QDesktopSearch.Proof.Hits
import QDesktopSearch.Proof.Overlap
import QDesktopSearch.Lib.MultiMap
import QDesktopSearch.Proof.Values
import QDesktopSearch.Model.HitAttrs
import QDesktopSearch.Proof.HitAttrs
import QDesktopSearch.Proof.Noticed
import QDesktopSearch.Proof.OwnIndex
import QDesktopSearch.Lib.Walk
import QDesktopSearch.Model.EmptyDir
import QDesktopSearch.Proof.EmptyDir
import QDesktopSearch.Proof.Emptied
import QDesktopSearch.Proof.Confined
import QDesktopSearch.Model.Highlighter
import QDesktopSearch.Proof.Highlighter
import QDesktopSearch.Lib.Heap
import QDesktopSearch.Model.MultiSearcher
import QDesktopSearch.Model.Request
import QDesktopSearch.Proof.Request
import QDesktopSearch.Lib.Munch
import QDesktopSearch.Model.QueryParserTokenManager
import QDesktopSearch.Model.QueryParser
import QDesktopSearch.Proof.Lexing
import QDesktopSearch.Lib.Program
import QDesktopSearch.Proof.Clauses
import QDesktopSearch.Proof.Highlightable
import QDesktopSearch.Model.SortedSearch
import QDesktopSearch.Proof.SortByFile
import QDesktopSearch.Proof.FileCount
import QDesktopSearch.Proof.BooleanScorer
import QDesktopSearch.Proof.TermDocs
import QDesktopSearch.Proof.TermScorer
import QDesktopSearch.Proof.Weight
import QDesktopSearch.Proof.Scorers
import QDesktopSearch.Proof.TermInfosWriter
import QDesktopSearch.Lib.Merge
import QDesktopSearch.Lib.Occurrences
import QDesktopSearch.Model.Positions
import QDesktopSearch.Model.Segment
import QDesktopSearch.Model.SegmentMerger
import QDesktopSearch.Proof.MergePostings
import QDesktopSearch.Proof.SegmentMerger
import QDesktopSearch.Model.MultiSegmentReader
import QDesktopSearch.Proof.MultiSegmentReader
import QDesktopSearch.Proof.MergedIndex
import QDesktopSearch.Model.Jvm
import QDesktopSearch.Proof.Jvm
