import SheetDiff.Compare.Result
import SheetDiff.Files.Work

/-!
# Full reports

A full report is a file with the whole text of a comparison. Its name holds the strategy and the
time of writing, in milliseconds since 1970.
-/

namespace SheetDiff.Report

/-- The name of a report written at a time. -/
def fileName (strategy : Strategy) (millis : Nat) : String :=
  match strategy with
  | .textual => "css_diff_report_" ++ toString millis ++ ".diff"
  | .structural => "css_comparison_report_" ++ toString millis ++ ".txt"

/-- A name in a directory, as a path. -/
def join (directory name : String) : String :=
  if directory.isEmpty || directory.toList.getLast? = some '/' then directory ++ name
  else directory ++ "/" ++ name

/-- The path of a report; times before 1970 count as its start. -/
def path (directory : String) (strategy : Strategy) (millis : Int) : String :=
  join directory (fileName strategy millis.toNat)

/-- Writes the text of a report at a path in a directory, which is made if it is not there. -/
def work (directory path text : String) : FileWork Unit := do
  FileWork.ensurePath directory
  FileWork.writeText path text

/-- Writes the report of a comparison and gives its path. -/
def write (directory : String) (result : Comparison) (millis : Int) (files : FileTree) :
    Except Failure String × FileTree :=
  let path := path directory result.strategy millis
  let (outcome, files) := (work directory path result.diff).run files
  match outcome with
  | .ok () => (.ok path, files)
  | .error e => (.error (.unwritable path e.text), files)

end SheetDiff.Report
