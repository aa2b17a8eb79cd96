import MDRack.Lib.Binary64
import MDRack.Lib.Json
import MDRack.Lib.Checks
import MDRack.Lib.Transaction
import MDRack.Lib.FreshVersion
import MDRack.Core.Common
import MDRack.Core.Records
import MDRack.Core.Validation
import MDRack.Sqlite.Rows
import MDRack.Sqlite.Preflight
import MDRack.Sqlite.GraphReader
import MDRack.Sqlite.Store
import MDRack.Sqlite.Coherence
import MDRack.Sqlite.Writing
import MDRack.Sqlite.Publication
import MDRack.Sqlite.Invariant
import MDRack.Sqlite.History
import MDRack.Sqlite.Verify
import MDRack.Lib.Dependencies
import MDRack.Enrichment.Outputs
import MDRack.Enrichment.Merge
import MDRack.Enrichment.MergeExact
import MDRack.Lib.Interference
import MDRack.Sqlite.Snapshots
import MDRack.Sqlite.Client
import MDRack.Enrichment.Publish
import MDRack.Lib.Sorting
import MDRack.Sqlite.NormalForm
import MDRack.Sqlite.Admission
import MDRack.Sqlite.RoundTrip
import MDRack.Sqlite.Isolation
import MDRack.Sqlite.SourceBinding
import MDRack.Lib.Selection
import MDRack.Search.Scope
import MDRack.Search.ScopeSql
import MDRack.Search.MediaUnits
import MDRack.Lib.Dict
import MDRack.Search.Fusion
import MDRack.Search.Retrieval
import MDRack.Reindex.Reconcile
import MDRack.Reindex.Generation
import MDRack.Folder.Paths
import MDRack.Folder.Scan
import MDRack.Folder.Lifecycle
import MDRack.Folder.Import
import MDRack.Folder.Withdrawal
import MDRack.Media.Boundary
import MDRack.Media.Grouper
import MDRack.Media.Grouping
import MDRack.Media.Unsplittable
import MDRack.Media.Truthful
import MDRack.Lib.Overfetch
import MDRack.Search.Similarity
import MDRack.Lib.Tiling
import MDRack.Markdown.Projection
import MDRack.Markdown.Evidence
import MDRack.Search.Lexical
import MDRack.Sqlite.Fallback
import MDRack.Markdown.Lines
import MDRack.Markdown.Splitting
import MDRack.Markdown.Chunking
import MDRack.Markdown.Location
import MDRack.Lib.Joining
import MDRack.Markdown.Merging
import MDRack.Markdown.Tables
import MDRack.Lib.CodePoints
import MDRack.Lib.Percent
import MDRack.Metadata.Facets
import MDRack.Lib.Pointer
import MDRack.Metadata.Projection
import MDRack.Lib.Firsts
import MDRack.Search.ExactFusion
import MDRack.Lib.Occurrences
import MDRack.Markdown.Identities
import MDRack.Markdown.Moving
import MDRack.Markdown.Locality
import MDRack.Lib.Cutting
import MDRack.Transcripts.Source
import MDRack.Transcripts.Build
import MDRack.Transcripts.Accounting
import MDRack.Folder.References
import MDRack.Markdown.Partition
import MDRack.Media.NativePlan
import MDRack.Media.NativeSound
import MDRack.Lib.JsonAscii
import MDRack.Lib.Recency
import MDRack.Media.ImageCache
import MDRack.Media.Orientation
import MDRack.Media.ImagePrepare
import MDRack.Media.ImageTransparent
import MDRack.Lib.Octets
import MDRack.Media.Exif
import MDRack.Media.ExifContainers
import MDRack.Lib.Discounted
import MDRack.Lib.Intervals
import MDRack.Eval.QualityRecords
import MDRack.Eval.QualityInput
import MDRack.Eval.QualityEvaluate
import MDRack.Eval.QualitySound
import MDRack.Markdown.HtmlImages
import MDRack.Markdown.HtmlAttributes
import MDRack.Transcripts.Readers
import MDRack.Transcripts.Stamps
import MDRack.Transcripts.WrittenBlocks
import MDRack.Transcripts.WrittenSubtitles
import MDRack.Reindex.Publish
import MDRack.Reindex.Safety
import MDRack.Artifacts.Cache
import MDRack.Artifacts.Invariant
import MDRack.Artifacts.Steps
import MDRack.Artifacts.Calls
import MDRack.Artifacts.Reading
import MDRack.Artifacts.Writing
import MDRack.Artifacts.Safety
