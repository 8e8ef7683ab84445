/-!
# Stylesheets

A stylesheet is a list of rules: style rules, at-rules and comments. Rules nest. Every part keeps
the line it starts on; `Rule.mapLines` changes the lines of a rule and nothing else.
-/

namespace SheetDiff

/-- A property with its value. -/
structure Declaration where
  property : String
  value : String
  line : Nat
  deriving DecidableEq, Repr, Inhabited

mutual

/-- An entry of a rule list. -/
inductive Rule where
  /-- Selectors with a block: its declarations, then its nested rules. -/
  | style (selectors : List String) (declarations : List Declaration) (rules : List Rule)
      (line : Nat)
  /-- A rule that starts with `@` and a name. -/
  | atRule (name : String) (lead : String) (body : AtBody) (line : Nat)
  /-- A comment between rules. -/
  | comment (text : String) (line : Nat)

/-- What follows the name and the lead of an at-rule. -/
inductive AtBody where
  /-- A semicolon instead of a block. -/
  | none
  | rules (items : List Rule)
  | declarations (items : List Declaration)
  /-- A block that holds declarations and nested rules. -/
  | block (declarations : List Declaration) (rules : List Rule)

end

instance : Inhabited Rule := ⟨.comment "" 0⟩

instance : Inhabited AtBody := ⟨.none⟩

/-- A part of a stylesheet that was skipped. -/
structure Warning where
  message : String
  line : Nat
  deriving DecidableEq, Repr, Inhabited

/-- A stylesheet with the warnings met when it was read. -/
structure Stylesheet where
  rules : List Rule
  warnings : List Warning
  deriving Inhabited

namespace Rule

/-- The name of a rule in a report. -/
def label : Rule → String
  | style selectors _ _ _ => ", ".intercalate selectors
  | atRule name lead _ _ => if lead.isEmpty then "@" ++ name else "@" ++ name ++ " " ++ lead
  | comment .. => "comment"

/-- The line a rule starts on. -/
def line : Rule → Nat
  | style _ _ _ line | atRule _ _ _ line | comment _ line => line

end Rule

/-- Whether nothing was skipped. -/
def Stylesheet.isClean (s : Stylesheet) : Bool := s.warnings.isEmpty

/-! ## Lines -/

def Declaration.mapLine (f : Nat → Nat) (d : Declaration) : Declaration :=
  { d with line := f d.line }

mutual

/-- A rule with its lines changed at every depth. -/
def Rule.mapLines (f : Nat → Nat) : Rule → Rule
  | .style selectors declarations rules line =>
    .style selectors (declarations.map (·.mapLine f)) (Rule.mapAllLines f rules) (f line)
  | .atRule name lead body line => .atRule name lead (body.mapLines f) (f line)
  | .comment text line => .comment text (f line)

def AtBody.mapLines (f : Nat → Nat) : AtBody → AtBody
  | .none => .none
  | .rules items => .rules (Rule.mapAllLines f items)
  | .declarations items => .declarations (items.map (·.mapLine f))
  | .block declarations rules =>
    .block (declarations.map (·.mapLine f)) (Rule.mapAllLines f rules)

def Rule.mapAllLines (f : Nat → Nat) : List Rule → List Rule
  | [] => []
  | rule :: rules => rule.mapLines f :: Rule.mapAllLines f rules

end

end SheetDiff
