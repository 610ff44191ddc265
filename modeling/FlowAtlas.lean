import FlowAtlas.Main
import FlowAtlas.Proofs.Data.KeyOrder
import FlowAtlas.Proofs.Scan.Transcript
import FlowAtlas.Proofs.Scan.Scopes
import FlowAtlas.Proofs.Data.Arcs
import FlowAtlas.Proofs.FlowGraph.Partition
import FlowAtlas.Proofs.Dot.Escape
import FlowAtlas.Proofs.Dot.Reader
import FlowAtlas.Proofs.Text.Pieces
import FlowAtlas.Proofs.Files.Frame
import FlowAtlas.Proofs.Batch.Job
import FlowAtlas.Proofs.Batch.Naming
import FlowAtlas.Proofs.Batch.Documents
import FlowAtlas.Proofs.Batch.Overwriting
import FlowAtlas.Proofs.Scan.EntityName
import FlowAtlas.Proofs.Markup.Values
import FlowAtlas.Proofs.Files.PlainNames
import FlowAtlas.Proofs.Files.Directory
import FlowAtlas.Proofs.Batch.Placement
import FlowAtlas.Proofs.Batch.Progress
import FlowAtlas.Proofs.Text.Occurrence
import FlowAtlas.Proofs.Tables.Loaded
import FlowAtlas.Proofs.Label.Missing
import FlowAtlas.Proofs.Scan.History
import FlowAtlas.Proofs.Files.SoundPaths
import FlowAtlas.Proofs.Files.Puts
import FlowAtlas.Proofs.Batch.Endings
import FlowAtlas.Proofs.Batch.Course
import FlowAtlas.Proofs.Batch.Takes
import FlowAtlas.Proofs.Batch.Sharing
import FlowAtlas.Proofs.Batch.LogFree
import FlowAtlas.Proofs.Batch.Unread
import FlowAtlas.Proofs.Batch.Inputs
import FlowAtlas.Proofs.Program.Counts
import FlowAtlas.Proofs.Label.Noted
import FlowAtlas.Proofs.Batch.Effect
import FlowAtlas.Proofs.Batch.SourceEffect
import FlowAtlas.Proofs.Batch.Independence
import FlowAtlas.Proofs.Batch.Reports
import FlowAtlas.Proofs.Tables.Ids
import FlowAtlas.Proofs.Label.Unmarked
import FlowAtlas.Proofs.Label.Absent
import FlowAtlas.Proofs.Batch.Provided
import FlowAtlas.Proofs.Batch.OwnDocuments
import FlowAtlas.Proofs.Markup.Spelled
import FlowAtlas.Proofs.Scan.Records
import FlowAtlas.Proofs.Scan.Written
import FlowAtlas.Proofs.Scan.ReadBack
import FlowAtlas.Proofs.Scan.WellFormed
import FlowAtlas.Proofs.Scan.Boundary
import FlowAtlas.Proofs.Markup.Quotes
import FlowAtlas.Proofs.Tables.Objectives
import FlowAtlas.Proofs.Tables.OwnFiles
import FlowAtlas.Proofs.Label.RecordedIds
import FlowAtlas.Proofs.Label.Reads
import FlowAtlas.Proofs.Scan.TrailingBlanks
import FlowAtlas.Proofs.Text.ByteLines
import FlowAtlas.Proofs.Batch.Drawings
import FlowAtlas.Proofs.Batch.Images
import FlowAtlas.Proofs.Settings.Layers
import FlowAtlas.Proofs.Settings.TimeLimit
import FlowAtlas.Proofs.Number.Decimals
import FlowAtlas.Proofs.Number.Range
import FlowAtlas.Proofs.Dot.Positions
import FlowAtlas.Proofs.Label.Unhandled
import FlowAtlas.Proofs.Markup.Positions
import FlowAtlas.Proofs.Label.Fallback
import FlowAtlas.Proofs.Program.MissingRoot
import FlowAtlas.Proofs.Dot.Backslashes
import FlowAtlas.Proofs.Label.Registering
