import SheetDiff.Diff.Unified
import SheetDiff.Sheet.Canonical

/-!
# Comparing two stylesheets

The textual strategy compares canonical texts line by line, and the structural one compares the
rules at equal positions (`ruleChanges`). Both give a summary, a text for a report, and the lines
of its body.
-/

namespace SheetDiff

/-- How two stylesheets are compared. -/
inductive Strategy where
  | textual
  | structural
  deriving DecidableEq, Repr, Inhabited

namespace Strategy

def name : Strategy → String
  | textual => "textual"
  | structural => "structural"

/-- The strategy with a name or short name, upper and lower case alike. -/
def ofName? (name : String) : Except String Strategy :=
  match name.toLower with
  | "textual" | "text" => .ok textual
  | "structural" | "rules" => .ok structural
  | other => .error ("unknown strategy `" ++ other ++ "` (expected `textual` or `structural`)")

end Strategy

/-! ## Rule by rule -/

/-- The changes between two lists of rules whose first rules stand at `index`. -/
def ruleChangesFrom (index : Nat) : List Rule → List Rule → List RuleChange
  | [], new => new.zipIdx index |>.map fun (rule, i) => ⟨.added, rule.label, i⟩
  | old, [] => old.zipIdx index |>.map fun (rule, i) => ⟨.removed, rule.label, i⟩
  | o :: old, n :: new =>
    (if o.canonical = n.canonical then [] else [⟨.modified, o.label, index⟩])
      ++ ruleChangesFrom (index + 1) old new

/-- The changes between the rules of two stylesheets, position by position. -/
def ruleChanges (old new : Stylesheet) : List RuleChange := ruleChangesFrom 0 old.rules new.rules

/-! ## Outcomes -/

/-- The result of a comparison, whole. -/
structure Outcome where
  summary : Summary
  /-- The text of a full report. -/
  text : String
  /-- The lines to be shown, without the names of the two sheets. -/
  body : List String
  deriving DecidableEq, Repr, Inhabited

/-- The number of unchanged lines shown around a change. -/
def defaultContext : Nat := 4

/-- A stylesheet with the name it goes by. -/
structure Side where
  label : String
  sheet : Stylesheet

/-- Compares the canonical texts of two stylesheets. -/
def Outcome.textual (old new : Side) (context : Nat) : Outcome :=
  let diff := unifiedDiff old.sheet.canonical new.sheet.canonical old.label new.label context
  ⟨diff.summary, diff.text, diff.body⟩

/-- Compares the rules of two stylesheets. -/
def Outcome.structural (old new : Side) : Outcome :=
  let body := (ruleChanges old.sheet new.sheet).map RuleChange.text
  ⟨.ofDetailLines body, String.join (body.map (· ++ "\n")), body⟩

/-- Compares two stylesheets by a strategy. -/
def Outcome.compare (strategy : Strategy) (old new : Side) (context : Nat) : Outcome :=
  match strategy with
  | .textual => .textual old new context
  | .structural => .structural old new

end SheetDiff
