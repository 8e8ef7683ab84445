import SheetDiff.Sheet.Json
import SheetDiff.Command.Run
import SheetDiff.Proofs.Diff.Path
import SheetDiff.Proofs.Diff.Script
import SheetDiff.Proofs.Diff.Compaction
import SheetDiff.Proofs.Diff.Sections
import SheetDiff.Proofs.Diff.Groups
import SheetDiff.Proofs.Diff.Windows
import SheetDiff.Proofs.Diff.Patch
import SheetDiff.Proofs.Diff.Context
import SheetDiff.Proofs.Css.Scan
import SheetDiff.Proofs.Text.Words
import SheetDiff.Proofs.Css.Reads
import SheetDiff.Proofs.Sheet.Items
import SheetDiff.Proofs.Sheet.Normal
import SheetDiff.Proofs.Sheet.Injective
import SheetDiff.Proofs.Css.Enclosed
import SheetDiff.Proofs.Text.Squeeze
import SheetDiff.Proofs.Css.Squeeze
import SheetDiff.Proofs.Css.Spell
import SheetDiff.Proofs.Sheet.Unlined
import SheetDiff.Proofs.Diff.Verdict
import SheetDiff.Proofs.Sheet.Respaced
import SheetDiff.Proofs.Sheet.Spacing
import SheetDiff.Proofs.Sheet.Stepwise
import SheetDiff.Proofs.Sheet.Statements
import SheetDiff.Proofs.Sheet.Clean
import SheetDiff.Proofs.Sheet.Relayout
import SheetDiff.Proofs.Css.Edge
import SheetDiff.Proofs.Css.Unclosed
import SheetDiff.Proofs.Sheet.Rewritten
import SheetDiff.Proofs.Sheet.Minified
import SheetDiff.Proofs.Css.Tally
import SheetDiff.Proofs.Sheet.Weights
import SheetDiff.Proofs.Sheet.Conserved
import SheetDiff.Proofs.Diff.Common
import SheetDiff.Proofs.Diff.Frontier
import SheetDiff.Proofs.Diff.Shortest
import SheetDiff.Proofs.Diff.Fewest
import SheetDiff.Proofs.Diff.Narrowed
import SheetDiff.Proofs.Compare.Failures
import SheetDiff.Proofs.Sheet.Shape
import SheetDiff.Proofs.Css.Joint
import SheetDiff.Proofs.Css.Barrier
import SheetDiff.Proofs.Css.Joined
import SheetDiff.Proofs.Sheet.Lowered
import SheetDiff.Proofs.Sheet.Joined
import SheetDiff.Proofs.Css.Collapsed
import SheetDiff.Proofs.Sheet.Entries
import SheetDiff.Proofs.Sheet.Spelled
import SheetDiff.Proofs.Sheet.Stored
import SheetDiff.Proofs.Sheet.Reread
import SheetDiff.Proofs.Sheet.Charset
import SheetDiff.Proofs.Files.Written
import SheetDiff.Proofs.Compare.Display
import SheetDiff.Proofs.Json.Text
import SheetDiff.Proofs.Json.Record
import SheetDiff.Proofs.Sheet.Json
import SheetDiff.Proofs.Compare.Json
import SheetDiff.Proofs.Css.Ended
import SheetDiff.Proofs.Sheet.Grouped
import SheetDiff.Proofs.Diff.ReadBack
import SheetDiff.Proofs.Diff.Report
import SheetDiff.Proofs.Diff.Positions
import SheetDiff.Proofs.Css.Lines
import SheetDiff.Proofs.Sheet.Places
import SheetDiff.Proofs.Sheet.Reported
import SheetDiff.Proofs.Css.Steady
import SheetDiff.Proofs.Sheet.Sources
import SheetDiff.Proofs.Css.Spans
import SheetDiff.Proofs.Sheet.Rising
import SheetDiff.Proofs.Files.Grown
import SheetDiff.Proofs.Compare.Reports
import SheetDiff.Proofs.Text.Sequences
import SheetDiff.Proofs.Compare.Colors
