import SheetDiff.Command.Arguments
import SheetDiff.Compare.Json
import SheetDiff.Compare.Render
import SheetDiff.Json.Text

/-!
# Running the command

`plan` says what the arguments and the environment ask for: a text to print, nothing because the
arguments are wrong, or a comparison. `conclude` turns the result of a comparison into the output
of the command, and `run` does all of it on a file tree.
-/

namespace SheetDiff.Command

/-- What the command leaves: its exit code and what it writes. -/
structure Output where
  code : Nat
  /-- Whether the arguments were wrong. -/
  usageError : Bool
  out : String
  err : String
  deriving DecidableEq, Repr, Inhabited

/-- What the command is to do. -/
inductive Plan where
  | print (text : String)
  | refuse
  | compare (options : Options) (a b : String) (json colored : Bool)
  deriving DecidableEq, Repr

def versionText : String := "css-compare 0.1.0\n"

/-- The note on a variable of the environment in the help text. -/
def variableNote (environment : String → Option String) (setting : Setting) : String :=
  "[env: " ++ setting.variable ++ "=" ++ (environment setting.variable).getD "" ++ "]"

def helpText (environment : String → Option String) : String :=
  unlines
    ["Compare two CSS files and summarize the differences",
      "",
      "Usage: css-compare [OPTIONS] <FILE1> <FILE2>",
      "",
      "Arguments:",
      "  <FILE1>  Original stylesheet",
      "  <FILE2>  Stylesheet to compare against",
      "",
      "Options:",
      "      --full-report                Write the complete diff to a timestamped report file",
      "      --strategy <STRATEGY>        Comparison strategy: `textual` or `structural` "
        ++ variableNote environment .strategy ++ " [default: textual]",
      "      --max-lines <MAX_LINES>      Maximum diff lines shown by the textual strategy "
        ++ variableNote environment .maxLines ++ " [default: 100]",
      "      --max-details <MAX_DETAILS>  Maximum change entries shown by the structural strategy "
        ++ variableNote environment .maxDetails ++ " [default: 10]",
      "      --report-dir <REPORT_DIR>    Directory receiving full reports "
        ++ variableNote environment .reportDirectory ++ " [default: .]",
      "      --json                       Print the comparison result as JSON",
      "      --no-color                   Disable colored output",
      "  -v, --verbose...                 Increase log verbosity (-v info, -vv debug)",
      "  -h, --help                       Print help",
      "  -V, --version                    Print version"]

/-- Whether the environment asks for colors where the output is no terminal. -/
def forcesColor (environment : String → Option String) : Bool :=
  (environment "CLICOLOR_FORCE").any (· ≠ "0")

/-- What the arguments ask for; `terminal` says whether the output shows colors by itself. -/
def plan (environment : String → Option String) (terminal : Bool) (args : List String) : Plan :=
  match Request.parse environment args with
  | .error .help => .print (helpText environment)
  | .error .version => .print versionText
  | .error .usage => .refuse
  | .ok (r, a, b) =>
    let colored := !r.switches.contains .noColor && (terminal || forcesColor environment)
    .compare r.options a b (r.switches.contains .json) colored

/-- The output for the result of a comparison. -/
def conclude (json colored : Bool) : Except Failure Comparison → Output
  | .error failure => ⟨1, false, "", failure.render colored⟩
  | .ok result =>
    ⟨0, false, if json then result.toJson.pretty ++ "\n" else result.render colored, ""⟩

/-- Runs the command on a file tree at a time, with its output in a pipe. -/
def run (environment : String → Option String) (args : List String) (millis : Int)
    (files : FileTree) : Output × FileTree :=
  match plan environment false args with
  | .print text => (⟨0, false, text, ""⟩, files)
  | .refuse => (⟨1, true, "", ""⟩, files)
  | .compare options a b json colored =>
    let (result, files) := compareFiles options a b millis files
    (conclude json colored result, files)

end SheetDiff.Command
