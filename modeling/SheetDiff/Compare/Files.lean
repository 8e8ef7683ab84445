import SheetDiff.Compare.Report
import SheetDiff.Sheet.Parse

/-!
# Comparing two files

Both files are read and parsed before anything is compared. `Comparison.ofSheets` holds what
depends on the two sheets alone, and `compareFiles` also writes the full report if one is asked
for.
-/

namespace SheetDiff

/-- What is asked for besides the two files. -/
structure Options where
  strategy : Strategy
  /-- The largest number of lines shown by the textual strategy. -/
  maxLines : Nat
  /-- The largest number of lines shown by the structural strategy. -/
  maxDetails : Nat
  /-- Whether a full report is written. -/
  fullReport : Bool
  /-- The directory for full reports. -/
  reportDirectory : String
  deriving DecidableEq, Repr

/-- A hundred lines or ten details, compared textually, without a report. -/
def Options.default : Options := ⟨.textual, 100, 10, false, "."⟩

/-- The largest number of lines shown. -/
def Options.displayLimit (o : Options) : Nat :=
  match o.strategy with
  | .textual => o.maxLines
  | .structural => o.maxDetails

/-! ## Reading -/

/-- A stylesheet from the contents of the file at a path, as far as they could be read. -/
def Stylesheet.ofContents (path : String) (contents : Except IoError String) :
    Except Failure Stylesheet :=
  match contents with
  | .error e => .error (.unreadable path e.text)
  | .ok text =>
    match parse text with
    | .error e => .error (.unparsable path e)
    | .ok sheet => .ok sheet

/-- Two values, or the failures of both or of the one that failed. -/
def Failure.pair {α β : Type} : Except Failure α → Except Failure β → Except Failure (α × β)
  | .ok a, .ok b => .ok (a, b)
  | .error e, .error f => .error (.both e f)
  | .error e, .ok _ => .error e
  | .ok _, .error f => .error f

/-! ## Comparing -/

/-- The warnings of a stylesheet with the path of its file. -/
def Side.warnings (side : Side) : List FileWarning :=
  side.sheet.warnings.map fun w => ⟨side.label, w.line, w.message⟩

/-- Compares two stylesheets, and keeps as many lines as are shown. -/
def Comparison.ofSheets (options : Options) (old new : Side) : Comparison :=
  let outcome := Outcome.compare options.strategy old new defaultContext
  { strategy := options.strategy
    summary := outcome.summary
    diff := outcome.text
    lines := outcome.body.take options.displayLimit
    totalLines := outcome.body.length
    warnings := old.warnings ++ new.warnings
    reportPath := none }

/-- Compares two files by what could be read of them. -/
def Comparison.ofContents (options : Options) (a b : String) (old new : Except IoError String) :
    Except Failure Comparison := do
  let (old, new) ← Failure.pair (Stylesheet.ofContents a old) (Stylesheet.ofContents b new)
  return ofSheets options ⟨a, old⟩ ⟨b, new⟩

/-- Compares two files at a time and writes the full report if one is asked for. -/
def compareFiles (options : Options) (a b : String) (millis : Int) (files : FileTree) :
    Except Failure Comparison × FileTree :=
  match Comparison.ofContents options a b (files.readText a) (files.readText b) with
  | .error e => (.error e, files)
  | .ok result =>
    if options.fullReport then
      match Report.write options.reportDirectory result millis files with
      | (.ok path, files) => (.ok { result with reportPath := some path }, files)
      | (.error e, files) => (.error e, files)
    else (.ok result, files)

end SheetDiff
