import SheetDiff.Css.Quoted
import SheetDiff.Sheet.Basic
import SheetDiff.Text.Words

/-!
# Faults

A part of a stylesheet that does not follow the grammar has a `Fault`. In a block it is skipped
with a warning; in a rule list it ends the reading of the sheet with a `ParseError`. Both quote
the source of the part.
-/

namespace SheetDiff

/-- Why a part of a stylesheet cannot be read. -/
inductive Fault where
  | missingSelector
  | missingBlock (name : String)
  | emptyValue (property : String)
  | blockInValue (property : String)
  | endOfInput
  | unexpected (kind : Css.Kind)
  deriving DecidableEq, Repr

/-- Where rules and declarations stand. -/
inductive Scope where
  | ruleList
  | block
  deriving DecidableEq, Repr

/-- The wording of a fault. -/
def Fault.reason (scope : Scope) : Fault → String
  | missingSelector => "selector missing"
  | missingBlock name => "@" ++ name ++ " requires a block"
  | emptyValue property => "property `" ++ property ++ "` has no value"
  | blockInValue property => "property `" ++ property ++ "` contains a block"
  | endOfInput =>
    match scope with
    | .ruleList => "missing '\x7b'"
    | .block => "missing ':' or value"
  | unexpected kind => "unexpected `" ++ String.ofList kind.text ++ "`"

/-- A sheet that cannot be read, with the line of the failing rule where it is known. -/
structure ParseError where
  message : String
  line : Option Nat
  deriving DecidableEq, Repr, Inhabited

/-- The message with the line behind it. -/
def ParseError.text (e : ParseError) : String :=
  e.message ++ match e.line with
    | some line => " (line " ++ toString line ++ ")"
    | none => ""

/-- The warning for a part of a block that was skipped. -/
def Fault.warning (fault : Fault) (source : List Char) (line : Nat) : Warning :=
  ⟨"skipped `" ++ Text.excerpt source ++ "`: " ++ fault.reason .block, line⟩

/-- The error for a rule that cannot be read. -/
def Fault.error (fault : Fault) (source : List Char) (line : Nat) : ParseError :=
  ⟨fault.reason .ruleList ++ " in `" ++ Text.excerpt source ++ "`", some line⟩

end SheetDiff
