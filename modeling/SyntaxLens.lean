import SyntaxLens.Arguments
import SyntaxLens.Binary64
import SyntaxLens.Binary64.Shortest
import SyntaxLens.Binary64.Text
import SyntaxLens.Config
import SyntaxLens.Diagnostic
import SyntaxLens.Disk
import SyntaxLens.Dump.Lexer
import SyntaxLens.Dump.Literal
import SyntaxLens.Dump.Problem
import SyntaxLens.Dump.Reader
import SyntaxLens.Dump.Token
import SyntaxLens.Export.Document
import SyntaxLens.Export.Table
import SyntaxLens.Failure
import SyntaxLens.Json
import SyntaxLens.LabelSet
import SyntaxLens.LineTable
import SyntaxLens.Machine
import SyntaxLens.Main
import SyntaxLens.Node
import SyntaxLens.Outline
import SyntaxLens.Outline.Lookup
import SyntaxLens.Outline.Resolve
import SyntaxLens.Position
import SyntaxLens.Process
import SyntaxLens.Proofs.Cursor
import SyntaxLens.Proofs.Disk
import SyntaxLens.Proofs.Dump.Attributes
import SyntaxLens.Proofs.Dump.Blame
import SyntaxLens.Proofs.Dump.Boundary
import SyntaxLens.Proofs.Dump.Closing
import SyntaxLens.Proofs.Dump.Completeness
import SyntaxLens.Proofs.Dump.Continuations
import SyntaxLens.Proofs.Dump.Cutting
import SyntaxLens.Proofs.Dump.Derivation
import SyntaxLens.Proofs.Dump.Erasure
import SyntaxLens.Proofs.Dump.Excerpts
import SyntaxLens.Proofs.Dump.Extents
import SyntaxLens.Proofs.Dump.Faults
import SyntaxLens.Proofs.Dump.Foreign
import SyntaxLens.Proofs.Dump.Grammar
import SyntaxLens.Proofs.Dump.Labels
import SyntaxLens.Proofs.Dump.Literals
import SyntaxLens.Proofs.Dump.Locality
import SyntaxLens.Proofs.Dump.Moves
import SyntaxLens.Proofs.Dump.Naming
import SyntaxLens.Proofs.Dump.Numbering
import SyntaxLens.Proofs.Dump.Numbers
import SyntaxLens.Proofs.Dump.Phrases
import SyntaxLens.Proofs.Dump.Prefixes
import SyntaxLens.Proofs.Dump.Printing
import SyntaxLens.Proofs.Dump.Respacing
import SyntaxLens.Proofs.Dump.RoundTrip
import SyntaxLens.Proofs.Dump.Scanning
import SyntaxLens.Proofs.Dump.Spelling
import SyntaxLens.Proofs.Dump.Torn
import SyntaxLens.Proofs.Dump.Truncation
import SyntaxLens.Proofs.Dump.Wording
import SyntaxLens.Proofs.Dump.Words
import SyntaxLens.Proofs.Export.Alignment
import SyntaxLens.Proofs.Export.Document
import SyntaxLens.Proofs.Export.Listing
import SyntaxLens.Proofs.Export.Table
import SyntaxLens.Proofs.Json
import SyntaxLens.Proofs.LineTable.Boundaries
import SyntaxLens.Proofs.LineTable.Offsets
import SyntaxLens.Proofs.LineTable.Partition
import SyntaxLens.Proofs.LineTable.Places
import SyntaxLens.Proofs.LineTable.Rows
import SyntaxLens.Proofs.LineTable.Slices
import SyntaxLens.Proofs.Order
import SyntaxLens.Proofs.Outline.Building
import SyntaxLens.Proofs.Outline.Detachment
import SyntaxLens.Proofs.Outline.Following
import SyntaxLens.Proofs.Outline.Labels
import SyntaxLens.Proofs.Outline.Lookup
import SyntaxLens.Proofs.Outline.Moving
import SyntaxLens.Proofs.Outline.Nesting
import SyntaxLens.Proofs.Outline.Paths
import SyntaxLens.Proofs.Outline.Placement
import SyntaxLens.Proofs.Outline.PostOrder
import SyntaxLens.Proofs.Outline.Preceding
import SyntaxLens.Proofs.Outline.Resolving
import SyntaxLens.Proofs.Outline.Routes
import SyntaxLens.Proofs.Outline.SelectedSpan
import SyntaxLens.Proofs.Outline.Siblings
import SyntaxLens.Proofs.Outline.Wording
import SyntaxLens.Proofs.Relabelling
import SyntaxLens.Proofs.Run.Configured
import SyntaxLens.Proofs.Run.Options
import SyntaxLens.Proofs.Run.Outcomes
import SyntaxLens.Proofs.Run.Selecting
import SyntaxLens.Proofs.Selection
import SyntaxLens.Proofs.Text.Blank
import SyntaxLens.Proofs.Text.Bytes
import SyntaxLens.Proofs.Text.Lines
import SyntaxLens.Proofs.Text.Numeral
import SyntaxLens.Proofs.Tiling
import SyntaxLens.Run
import SyntaxLens.Scalar
import SyntaxLens.Shell.Process
import SyntaxLens.Shell.Program
import SyntaxLens.Shell.Script
import SyntaxLens.Shell.Word
import SyntaxLens.Span
import SyntaxLens.Text.Blank
import SyntaxLens.Text.Numeral
import SyntaxLens.Text.Quoted
import SyntaxLens.Text.Utf8
import SyntaxLens.Toml.Options
import SyntaxLens.Toml.Reader
import SyntaxLens.Toml.Scalar
import SyntaxLens.Toml.Setting
import SyntaxLens.Toml.Table
import SyntaxLens.View
import SyntaxLens.Viewer
