import SheetDiff.Compare.Result
import SheetDiff.Text.Lines

/-!
# Terminal output

`Comparison.render` writes a comparison for a terminal and `Failure.render` a failure, with or
without colors. Colors are escape sequences around the pieces of a line: without them a piece is
written as it is.
-/

namespace SheetDiff

/-! ## Styles -/

inductive Color where
  | red
  | green
  | yellow
  | cyan
  deriving DecidableEq, Repr

/-- The digit of a color in an escape sequence. -/
def Color.digit : Color → String
  | red => "1"
  | green => "2"
  | yellow => "3"
  | cyan => "6"

/-- How a piece of text is shown. -/
structure Style where
  color : Option Color
  bold : Bool
  deriving DecidableEq, Repr

namespace Style

def plain : Style := ⟨none, false⟩
def addition : Style := ⟨some .green, false⟩
def deletion : Style := ⟨some .red, false⟩
def hunk : Style := ⟨some .cyan, false⟩
def modified : Style := ⟨some .yellow, false⟩
def warning : Style := ⟨some .yellow, false⟩
def error : Style := ⟨some .red, true⟩
def heading : Style := ⟨none, true⟩

/-- The escape sequences that start a style. -/
def start (s : Style) : String :=
  (match s.color with
    | some color => "\x1b[3" ++ color.digit ++ "m"
    | none => "") ++ if s.bold then "\x1b[1m" else ""

/-- A piece of text in a style. -/
def apply (s : Style) (colored : Bool) (text : String) : String :=
  if colored && s ≠ plain then s.start ++ text ++ "\x1b[0m" else text

/-- The style of a line of a comparison, by how it starts. -/
def ofLine (line : String) : Style :=
  let starts (word : String) : Bool := word.toList.isPrefixOf line.toList
  if starts "@@" then hunk
  else if starts "+" || starts "Added:" then addition
  else if starts "-" || starts "Removed:" then deletion
  else if starts "Modified:" then modified
  else plain

end Style

/-! ## Comparisons -/

/-- Lines with their terminators. -/
def unlines (lines : List String) : String := String.join (lines.map (· ++ "\n"))

namespace Comparison

def warningLines (colored : Bool) (c : Comparison) : List String :=
  c.warnings.map fun w => Style.warning.apply colored ("Warning: " ++ w.text)

/-- The counts of a comparison. -/
def summaryLines (colored : Bool) (c : Comparison) : List String :=
  Style.heading.apply colored "Summary:" :: match c.strategy with
    | .textual =>
      ["  Added lines: " ++ toString c.summary.added,
        "  Removed lines: " ++ toString c.summary.removed]
    | .structural =>
      ["  Added: " ++ toString c.summary.added,
        "  Removed: " ++ toString c.summary.removed,
        "  Modified: " ++ toString (c.summary.modified.getD 0)]

/-- The heading of the shown lines. -/
def heading (c : Comparison) : String :=
  let shown := toString c.lines.length
  match c.strategy with
  | .textual => "Diff (showing first " ++ shown ++ " lines):"
  | .structural => "Details (showing first " ++ shown ++ "):"

/-- The number of the lines that are not shown. -/
def hiddenNote (c : Comparison) : List String :=
  let unit := match c.strategy with
    | .textual => "lines"
    | .structural => "changes"
  if 0 < c.hiddenLines then ["... and " ++ toString c.hiddenLines ++ " more " ++ unit ++ "."] else []

/-- The shown lines of the body under a heading, and the number of the others. -/
def windowLines (colored : Bool) (c : Comparison) : List String :=
  ["", Style.heading.apply colored c.heading]
    ++ c.lines.map (fun line => (Style.ofLine line).apply colored line) ++ c.hiddenNote

/-- Where the report is. -/
def reportNote (c : Comparison) : List String :=
  match c.reportPath with
  | some path => ["", "Full diff report saved to: " ++ path]
  | none => []

/-- The lines written for a comparison. -/
def outputLines (colored : Bool) (c : Comparison) : List String :=
  c.warningLines colored ++ c.summaryLines colored
    ++ (if c.totalLines = 0 then ["", "No differences found."] else c.windowLines colored)
    ++ c.reportNote

/-- The text written for a comparison. -/
def render (colored : Bool) (c : Comparison) : String := unlines (c.outputLines colored)

end Comparison

/-- The text written for a failure. -/
def Failure.render (colored : Bool) (f : Failure) : String :=
  unlines ((Text.lines f.message).map fun line => Style.error.apply colored ("Error: " ++ line))

end SheetDiff
