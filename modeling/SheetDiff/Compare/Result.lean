import SheetDiff.Diff.Outcome
import SheetDiff.Files.Tree
import SheetDiff.Sheet.Fault

/-!
# Results

A comparison of two files gives a `Comparison`, or a `Failure` with the paths of the files it
concerns.
-/

namespace SheetDiff

/-- A warning with the path of its stylesheet. -/
structure FileWarning where
  path : String
  line : Nat
  message : String
  deriving DecidableEq, Repr, Inhabited

def FileWarning.text (w : FileWarning) : String :=
  w.path ++ ":" ++ toString w.line ++ ": " ++ w.message

/-- The result of comparing two files. -/
structure Comparison where
  strategy : Strategy
  summary : Summary
  /-- The whole text of the comparison. -/
  diff : String
  /-- The first lines of its body. -/
  lines : List String
  /-- The number of lines of the whole body. -/
  totalLines : Nat
  warnings : List FileWarning
  /-- Where the full report is, if one was written. -/
  reportPath : Option String
  deriving DecidableEq, Repr, Inhabited

/-- The number of lines of the body that are not shown. -/
def Comparison.hiddenLines (c : Comparison) : Nat := c.totalLines - c.lines.length

/-- Why a comparison failed; `cause` is the text of an error of the system. -/
inductive Failure where
  | unreadable (path cause : String)
  | unparsable (path : String) (error : ParseError)
  | both (first second : Failure)
  | unwritable (path cause : String)
  deriving DecidableEq, Repr, Inhabited

namespace Failure

/-- The message, one line for each file. -/
def message : Failure → String
  | unreadable path cause => "failed to read " ++ path ++ ": " ++ cause
  | unparsable path error => "failed to parse " ++ path ++ ": " ++ error.text
  | both first second => first.message ++ "\n" ++ second.message
  | unwritable path cause => "failed to write report " ++ path ++ ": " ++ cause

/-- The paths of the files that failed. -/
def paths : Failure → List String
  | unreadable path _ | unparsable path _ | unwritable path _ => [path]
  | both first second => first.paths ++ second.paths

end Failure

end SheetDiff
