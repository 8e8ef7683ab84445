import SheetDiff.Compare.Files

/-!
# Arguments

`Request.parse` reads the arguments of the command from left to right. The first argument that is
wrong, or that asks for help or for the version, ends the reading with a `Halt`. What the arguments
leave open is taken from the environment and then from the defaults.
-/

namespace SheetDiff.Command

/-- Why no comparison is run. -/
inductive Halt where
  | help
  | version
  | usage
  deriving DecidableEq, Repr, Inhabited

/-- The options that take a value. -/
inductive Setting where
  | strategy
  | maxLines
  | maxDetails
  | reportDirectory
  deriving DecidableEq, Repr

/-- The options that take none. -/
inductive Switch where
  | fullReport
  | json
  | noColor
  deriving DecidableEq, Repr

def Setting.all : List Setting := [.strategy, .maxLines, .maxDetails, .reportDirectory]

def Switch.all : List Switch := [.fullReport, .json, .noColor]

/-- The name of an option after its dashes. -/
def Setting.name : Setting → String
  | strategy => "strategy"
  | maxLines => "max-lines"
  | maxDetails => "max-details"
  | reportDirectory => "report-dir"

def Switch.name : Switch → String
  | fullReport => "full-report"
  | json => "json"
  | noColor => "no-color"

/-- The variable of the environment that stands for an option. -/
def Setting.variable : Setting → String
  | strategy => "STYLEDIFF_STRATEGY"
  | maxLines => "STYLEDIFF_MAX_LINES"
  | maxDetails => "STYLEDIFF_MAX_DETAILS"
  | reportDirectory => "STYLEDIFF_REPORT_DIR"

/-! ## Values -/

/-- A natural number of 64 bits in decimal digits, after a plus sign at most. -/
def natural? (text : String) : Option Nat :=
  let digits := match text.toList with
    | '+' :: cs => cs
    | cs => cs
  if digits.isEmpty || !digits.all Char.isDigit then none
  else
    let n := digits.foldl (fun n d => 10 * n + (d.toNat - '0'.toNat)) 0
    if n < Nat.pow 2 64 then some n else none

/-- What the arguments ask for. -/
structure Request where
  files : List String
  strategy : Option Strategy
  maxLines : Option Nat
  maxDetails : Option Nat
  reportDirectory : Option String
  switches : List Switch
  deriving DecidableEq, Repr

def Request.empty : Request := ⟨[], none, none, none, none, []⟩

namespace Request

/-- Whether an option has its value. -/
def has (r : Request) : Setting → Bool
  | .strategy => r.strategy.isSome
  | .maxLines => r.maxLines.isSome
  | .maxDetails => r.maxDetails.isSome
  | .reportDirectory => r.reportDirectory.isSome

/-- Gives an option its value, which has to be of the right form. -/
def set (r : Request) (setting : Setting) (value : String) : Except Halt Request :=
  match setting with
  | .strategy =>
    match Strategy.ofName? value with
    | .ok strategy => .ok { r with strategy := some strategy }
    | .error _ => .error .usage
  | .maxLines =>
    match natural? value with
    | some n => .ok { r with maxLines := some n }
    | none => .error .usage
  | .maxDetails =>
    match natural? value with
    | some n => .ok { r with maxDetails := some n }
    | none => .error .usage
  | .reportDirectory => .ok { r with reportDirectory := some value }

/-- Gives an option its value by an argument; no option is given twice. -/
def setOnce (r : Request) (setting : Setting) (value : String) : Except Halt Request :=
  if r.has setting then .error .usage else r.set setting value

/-- Turns a switch on; none is given twice. -/
def turnOn (r : Request) (switch : Switch) : Except Halt Request :=
  if r.switches.contains switch then .error .usage
  else .ok { r with switches := switch :: r.switches }

/-- Takes a file; there are two. -/
def addFile (r : Request) (path : String) : Except Halt Request :=
  if r.files.length < 2 then .ok { r with files := r.files ++ [path] } else .error .usage

/-! ## Arguments -/

/-- Reads the letters after a single dash. -/
def readLetters : List Char → Except Halt Unit
  | [] => .ok ()
  | 'v' :: cs => readLetters cs
  | 'h' :: _ => .error .help
  | 'V' :: _ => .error .version
  | _ => .error .usage

/-- The name after two dashes, and the value after its equals sign if it has one. -/
def splitLong (cs : List Char) : String × Option String :=
  let name := cs.takeWhile (· ≠ '=')
  let value := if cs.contains '=' then some (String.ofList (cs.drop (name.length + 1))) else none
  (String.ofList name, value)

/-- Reads an option without a value by its name. -/
def readSwitch (r : Request) (name : String) : Except Halt Request :=
  match Switch.all.find? (·.name = name) with
  | some switch => r.turnOn switch
  | none =>
    if name = "help" then .error .help
    else if name = "version" then .error .version
    else if name = "verbose" then .ok r
    else .error .usage

/-- Whether an argument is a dash with something behind it. -/
def isDashed (arg : String) : Bool := arg.toList.head? = some '-' && arg ≠ "-"

/-- Reads arguments from left to right. -/
def read (r : Request) : List String → Except Halt Request
  | [] => .ok r
  | arg :: args =>
    match arg.toList with
    | ['-', '-'] => args.foldlM addFile r
    | '-' :: '-' :: cs =>
      let (name, value) := splitLong cs
      match Setting.all.find? (·.name = name), value with
      | some setting, some value => do read (← r.setOnce setting value) args
      | some setting, none =>
        match args with
        | [] => .error .usage
        | next :: args =>
          if isDashed next then .error .usage else do read (← r.setOnce setting next) args
      | none, some _ => .error .usage
      | none, none => do read (← r.readSwitch name) args
    | '-' :: c :: cs => do
      readLetters (c :: cs)
      read r args
    | _ => do read (← r.addFile arg) args

/-- Takes the options that are still open from the environment. -/
def complete (environment : String → Option String) (r : Request) : Except Halt Request :=
  Setting.all.foldlM (fun r setting =>
    match r.has setting, environment setting.variable with
    | false, some value => r.set setting value
    | _, _ => .ok r) r

/-- Reads all arguments and what the environment adds to them; there have to be two files. -/
def parse (environment : String → Option String) (args : List String) :
    Except Halt (Request × String × String) := do
  let r ← complete environment (← read empty args)
  match r.files with
  | [a, b] => .ok (r, a, b)
  | _ => .error .usage

/-- The options of the comparison. -/
def options (r : Request) : Options :=
  let default := Options.default
  { strategy := r.strategy.getD default.strategy
    maxLines := r.maxLines.getD default.maxLines
    maxDetails := r.maxDetails.getD default.maxDetails
    fullReport := r.switches.contains .fullReport
    reportDirectory := r.reportDirectory.getD default.reportDirectory }

end Request

end SheetDiff.Command
