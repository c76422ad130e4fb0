import BlastRadius.Text.Blank
import BlastRadius.Text.Word
import BlastRadius.Text.Utf8
import BlastRadius.Text.Reading
import BlastRadius.Source.Region
import BlastRadius.Source.Mask
import BlastRadius.Source.Position
import BlastRadius.Statement.Import
import BlastRadius.Statement.Export
import BlastRadius.Decimal.Shortest
import BlastRadius.Json.Number
import BlastRadius.Json.Basic
import BlastRadius.Json.Printer
import BlastRadius.Json.Token
import BlastRadius.Json.Tree
import BlastRadius.Json.Relaxed
import BlastRadius.Json.Record
import BlastRadius.Digest.Sha256
import BlastRadius.Digest.Word
import BlastRadius.Path.Component
import BlastRadius.Path.Basic
import BlastRadius.Path.Normal
import BlastRadius.Path.Map
import BlastRadius.Path.Imprint
import BlastRadius.Resolve.Extension
import BlastRadius.Resolve.Alias
import BlastRadius.Resolve.Basic
import BlastRadius.Resolve.Fingerprint
import BlastRadius.Graph.Node
import BlastRadius.Graph.Basic
import BlastRadius.Graph.Impact
import BlastRadius.Graph.Cycle
import BlastRadius.Graph.Depth
import BlastRadius.Graph.Summary
import BlastRadius.Graph.Snapshot
import BlastRadius.Graph.Report
import BlastRadius.Graph.Saved
import BlastRadius.Disk.Basic
import BlastRadius.Disk.Write
import BlastRadius.Disk.Scan
import BlastRadius.Project.Analysis
import BlastRadius.Project.Config
import BlastRadius.Project.Cache
import BlastRadius.Project.Aliases
import BlastRadius.Project.Basic
import BlastRadius.Change.Basic
import BlastRadius.Change.Window
import BlastRadius.Change.Stream
import BlastRadius.Command.Verb
import BlastRadius.Command.Arguments
import BlastRadius.Command.Run
import BlastRadius.Main
import BlastRadius.Proofs.PathMap
import BlastRadius.Proofs.Adjacency
import BlastRadius.Proofs.Canonical
import BlastRadius.Proofs.NormalForm
import BlastRadius.Proofs.Impact
import BlastRadius.Proofs.Spelling
import BlastRadius.Proofs.Cycles
import BlastRadius.Proofs.SimpleCycles
import BlastRadius.Proofs.CycleKey
import BlastRadius.Proofs.Rankings
import BlastRadius.Proofs.CriticalExports
import BlastRadius.Proofs.AliasReach
import BlastRadius.Proofs.Coalesce
import BlastRadius.Proofs.View
import BlastRadius.Proofs.Tree
import BlastRadius.Proofs.Unambiguous
import BlastRadius.Proofs.Overwrite
import BlastRadius.Proofs.Session
import BlastRadius.Proofs.Cache
import BlastRadius.Proofs.Analyze
import BlastRadius.Proofs.Incremental
import BlastRadius.Proofs.Batch
import BlastRadius.Proofs.Created
import BlastRadius.Proofs.Transparent
import BlastRadius.Proofs.Runs
import BlastRadius.Proofs.Lexeme
import BlastRadius.Proofs.Utf8
import BlastRadius.Proofs.Lines
import BlastRadius.Proofs.Mask
import BlastRadius.Proofs.Reading
import BlastRadius.Proofs.Grounded
import BlastRadius.Proofs.Extension
import BlastRadius.Proofs.Determined
import BlastRadius.Proofs.Neighbours
import BlastRadius.Proofs.Order
import BlastRadius.Proofs.Reload
import BlastRadius.Proofs.Listing
import BlastRadius.Proofs.Rendered
import BlastRadius.Proofs.SnapshotText
import BlastRadius.Proofs.Covered
import BlastRadius.Proofs.Counts
import BlastRadius.Proofs.LongestChain
import BlastRadius.Proofs.Loosened
import BlastRadius.Proofs.InStep
import BlastRadius.Proofs.Targets
import BlastRadius.Proofs.Tiers
import BlastRadius.Proofs.Spelled
import BlastRadius.Proofs.TokenTree
import BlastRadius.Proofs.TrailingComma
import BlastRadius.Proofs.Relaxed
import BlastRadius.Proofs.Resolution
import BlastRadius.Proofs.Scan
import BlastRadius.Proofs.Places
import BlastRadius.Proofs.ScriptText
import BlastRadius.Proofs.ScriptLines
import BlastRadius.Proofs.ImportLines
import BlastRadius.Proofs.ExportText
import BlastRadius.Proofs.ExportLines
import BlastRadius.Proofs.ExportPlaces
import BlastRadius.Proofs.FirstExport
import BlastRadius.Proofs.Placement
import BlastRadius.Proofs.LiteralBody
import BlastRadius.Proofs.Uncommented
import BlastRadius.Proofs.ChangeLine
import BlastRadius.Proofs.Ledger
import BlastRadius.Proofs.PlainAlias
