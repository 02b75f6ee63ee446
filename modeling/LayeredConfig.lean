import LayeredConfig.Calendar
import LayeredConfig.CommandLine.Arguments
import LayeredConfig.CommandLine.Run
import LayeredConfig.CommandLine.Words
import LayeredConfig.Compose.Error
import LayeredConfig.Compose.Lenient
import LayeredConfig.Compose.Plan
import LayeredConfig.Compose.Preview
import LayeredConfig.Compose.Strict
import LayeredConfig.Decimal.Double
import LayeredConfig.Decimal.Shortest
import LayeredConfig.Decimal.Written
import LayeredConfig.Defaults.Basic
import LayeredConfig.Defaults.Module
import LayeredConfig.Defaults.Resolved
import LayeredConfig.Defaults.Rewrite
import LayeredConfig.Document.Merge
import LayeredConfig.Document.Path
import LayeredConfig.Files.Discovery
import LayeredConfig.Files.Path
import LayeredConfig.Files.Tree
import LayeredConfig.Interpolation.Pieces
import LayeredConfig.Interpolation.Resolver
import LayeredConfig.Json.Basic
import LayeredConfig.Json.Printer
import LayeredConfig.Json.Reader
import LayeredConfig.Main
import LayeredConfig.Override.Argument
import LayeredConfig.Override.Basic
import LayeredConfig.Proofs.Compose.Agreement
import LayeredConfig.Proofs.Compose.Assigned
import LayeredConfig.Proofs.Compose.Batched
import LayeredConfig.Proofs.Compose.EmptyModules
import LayeredConfig.Proofs.Compose.Framing
import LayeredConfig.Proofs.Compose.Grammar
import LayeredConfig.Proofs.Compose.Interleaved
import LayeredConfig.Proofs.Compose.Lenient
import LayeredConfig.Proofs.Compose.ListEdits
import LayeredConfig.Proofs.Compose.Loads
import LayeredConfig.Proofs.Compose.Merged
import LayeredConfig.Proofs.Compose.Noting
import LayeredConfig.Proofs.Compose.Reads
import LayeredConfig.Proofs.Compose.Represented
import LayeredConfig.Proofs.Compose.Settled
import LayeredConfig.Proofs.Compose.Steps
import LayeredConfig.Proofs.Compose.Strict
import LayeredConfig.Proofs.Compose.Swapped
import LayeredConfig.Proofs.Defaults.Decoded
import LayeredConfig.Proofs.Defaults.Encoded
import LayeredConfig.Proofs.Defaults.Entries
import LayeredConfig.Proofs.Defaults.Forms
import LayeredConfig.Proofs.Defaults.Lines
import LayeredConfig.Proofs.Defaults.Occurrences
import LayeredConfig.Proofs.Defaults.Replaced
import LayeredConfig.Proofs.Defaults.Rewritten
import LayeredConfig.Proofs.Defaults.Selected
import LayeredConfig.Proofs.Defaults.Undone
import LayeredConfig.Proofs.Document.Branches
import LayeredConfig.Proofs.Document.Keys
import LayeredConfig.Proofs.Document.Layers
import LayeredConfig.Proofs.Document.Lookup
import LayeredConfig.Proofs.Document.MergeLaws
import LayeredConfig.Proofs.Document.Nulls
import LayeredConfig.Proofs.Document.Overlay
import LayeredConfig.Proofs.Document.Places
import LayeredConfig.Proofs.Document.Positions
import LayeredConfig.Proofs.Document.Removal
import LayeredConfig.Proofs.Document.Reordered
import LayeredConfig.Proofs.Document.Setting
import LayeredConfig.Proofs.Document.Shown
import LayeredConfig.Proofs.Files.Copy
import LayeredConfig.Proofs.Files.Directory
import LayeredConfig.Proofs.Files.Edit
import LayeredConfig.Proofs.Files.Fresh
import LayeredConfig.Proofs.Files.Overwrite
import LayeredConfig.Proofs.Files.Path
import LayeredConfig.Proofs.Files.Paving
import LayeredConfig.Proofs.Files.Relative
import LayeredConfig.Proofs.Files.Spelled
import LayeredConfig.Proofs.Files.Tree
import LayeredConfig.Proofs.Files.Way
import LayeredConfig.Proofs.Files.Write
import LayeredConfig.Proofs.Interpolation.Coherence
import LayeredConfig.Proofs.Interpolation.Complete
import LayeredConfig.Proofs.Interpolation.Cycles
import LayeredConfig.Proofs.Interpolation.Escaping
import LayeredConfig.Proofs.Interpolation.Expansion
import LayeredConfig.Proofs.Interpolation.Leaves
import LayeredConfig.Proofs.Interpolation.Machine
import LayeredConfig.Proofs.Interpolation.Pieces
import LayeredConfig.Proofs.Interpolation.References
import LayeredConfig.Proofs.Interpolation.Resolved
import LayeredConfig.Proofs.Interpolation.Scan
import LayeredConfig.Proofs.Interpolation.Siblings
import LayeredConfig.Proofs.Interpolation.Stack
import LayeredConfig.Proofs.Interpolation.Termination
import LayeredConfig.Proofs.Json.Complete
import LayeredConfig.Proofs.Json.Reader
import LayeredConfig.Proofs.Json.RoundTrip
import LayeredConfig.Proofs.Outcome
import LayeredConfig.Proofs.Override.Assignments
import LayeredConfig.Proofs.Override.FlowForm
import LayeredConfig.Proofs.Override.Written
import LayeredConfig.Proofs.Settings.Tiers
import LayeredConfig.Proofs.Snapshot.Changes
import LayeredConfig.Proofs.Snapshot.Confined
import LayeredConfig.Proofs.Snapshot.Create
import LayeredConfig.Proofs.Snapshot.Faithful
import LayeredConfig.Proofs.Snapshot.Listed
import LayeredConfig.Proofs.Snapshot.Manifest
import LayeredConfig.Proofs.Snapshot.Name
import LayeredConfig.Proofs.Snapshot.Restore
import LayeredConfig.Proofs.Snapshot.Revival
import LayeredConfig.Proofs.Snapshot.RoundTrip
import LayeredConfig.Proofs.Snapshot.Safety
import LayeredConfig.Proofs.Snapshot.Sealed
import LayeredConfig.Proofs.Text.Bytes
import LayeredConfig.Proofs.Text.Digits
import LayeredConfig.Proofs.Text.Segments
import LayeredConfig.Proofs.Text.Trimmed
import LayeredConfig.Proofs.Workspace.Browsed
import LayeredConfig.Proofs.Workspace.History
import LayeredConfig.Proofs.Workspace.Rewrite
import LayeredConfig.Proofs.Workspace.Tracked
import LayeredConfig.Proofs.Yaml.Blockless
import LayeredConfig.Proofs.Yaml.Bracketed
import LayeredConfig.Proofs.Yaml.FlowElements
import LayeredConfig.Proofs.Yaml.FlowNode
import LayeredConfig.Proofs.Yaml.Gaps
import LayeredConfig.Proofs.Yaml.Growth
import LayeredConfig.Proofs.Yaml.Lexemes
import LayeredConfig.Proofs.Yaml.Lexing
import LayeredConfig.Proofs.Yaml.ListNode
import LayeredConfig.Proofs.Yaml.ListText
import LayeredConfig.Proofs.Yaml.Listing
import LayeredConfig.Proofs.Yaml.Local.Block
import LayeredConfig.Proofs.Yaml.Local.Lexer
import LayeredConfig.Proofs.Yaml.Local.Marks
import LayeredConfig.Proofs.Yaml.Local.Scalars
import LayeredConfig.Proofs.Yaml.Local.Text
import LayeredConfig.Proofs.Yaml.Plain
import LayeredConfig.Proofs.Yaml.Reader
import LayeredConfig.Proofs.Yaml.Root
import LayeredConfig.Proofs.Yaml.Scalar
import LayeredConfig.Proofs.Yaml.Scan
import LayeredConfig.Proofs.Yaml.SingleItem
import LayeredConfig.Proofs.Yaml.SingleValue
import LayeredConfig.Proofs.Yaml.Trail
import LayeredConfig.Settings.Basic
import LayeredConfig.Settings.Tiers
import LayeredConfig.Snapshot.Manifest
import LayeredConfig.Snapshot.Store
import LayeredConfig.Text.Basic
import LayeredConfig.Text.Blank
import LayeredConfig.Text.Hidden
import LayeredConfig.Text.Letter
import LayeredConfig.Wording
import LayeredConfig.Workspace.Basic
import LayeredConfig.Workspace.Browser
import LayeredConfig.Workspace.Listing
import LayeredConfig.Workspace.Watch
import LayeredConfig.Yaml.Cursor
import LayeredConfig.Yaml.Fault
import LayeredConfig.Yaml.Inspect
import LayeredConfig.Yaml.Node
import LayeredConfig.Yaml.Printer.Basic
import LayeredConfig.Yaml.Printer.Pen
import LayeredConfig.Yaml.Printer.Style
import LayeredConfig.Yaml.Reader
import LayeredConfig.Yaml.Scalar
import LayeredConfig.Yaml.Token.Basic
import LayeredConfig.Yaml.Token.Block
import LayeredConfig.Yaml.Token.Lexer
import LayeredConfig.Yaml.Token.Plain
import LayeredConfig.Yaml.Token.Quoted
import LayeredConfig.Yaml.Token.Tag
import LayeredConfig.Yaml.Value
