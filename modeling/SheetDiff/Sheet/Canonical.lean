import SheetDiff.Sheet.Basic

/-!
# Canonical text

The canonical text of a stylesheet has one declaration on each line and a blank line between
rules, nested parts two columns further in. Lines of the source never show in it
(`canonical_mapLines`), so two sheets that differ only in layout have the same canonical text.
-/

namespace SheetDiff

/-- The blanks before a line of nested depth `depth`. -/
def indent (depth : Nat) : String := String.ofList (List.replicate (2 * depth) ' ')

def Declaration.text (depth : Nat) (d : Declaration) : String :=
  indent depth ++ d.property ++ ": " ++ d.value ++ ";\n"

/-- A block at some depth: declarations, then the texts of the nested rules after a blank line. -/
def blockText (depth : Nat) (declarations : List Declaration) (rules : List String) : String :=
  " \x7b\n" ++ String.join (declarations.map (·.text (depth + 1)))
    ++ (if rules.isEmpty then ""
      else (if declarations.isEmpty then "" else "\n") ++ "\n\n".intercalate rules ++ "\n")
    ++ indent depth ++ "\x7d"

mutual

/-- The text of a rule at some depth, without a line break at its end. -/
def Rule.text (depth : Nat) : Rule → String
  | .style selectors declarations rules _ =>
    indent depth ++ (",\n" ++ indent depth).intercalate selectors
      ++ blockText depth declarations (Rule.texts (depth + 1) rules)
  | .atRule name lead body _ =>
    indent depth ++ "@" ++ name ++ (if lead.isEmpty then "" else " " ++ lead) ++ body.text depth
  | .comment text _ => indent depth ++ "/*" ++ text ++ "*/"

/-- The text of an at-rule after its lead. -/
def AtBody.text (depth : Nat) : AtBody → String
  | .none => ";"
  | .rules items => blockText depth [] (Rule.texts (depth + 1) items)
  | .declarations items => blockText depth items []
  | .block declarations rules => blockText depth declarations (Rule.texts (depth + 1) rules)

def Rule.texts (depth : Nat) : List Rule → List String
  | [] => []
  | rule :: rules => rule.text depth :: Rule.texts depth rules

end

/-- The canonical text of a rule at the top level. -/
def Rule.canonical (rule : Rule) : String := rule.text 0

/-- The canonical text of a stylesheet; unless empty it ends with a line break. -/
def Stylesheet.canonical (sheet : Stylesheet) : String :=
  let text := "\n\n".intercalate (Rule.texts 0 sheet.rules)
  if text.isEmpty then "" else text ++ "\n"

/-! ## Lines do not show -/

private theorem declarationTexts_mapLine (f : Nat → Nat) (depth : Nat) (ds : List Declaration) :
    (ds.map (·.mapLine f)).map (·.text depth) = ds.map (·.text depth) := by
  induction ds with
  | nil => rfl
  | cons d ds ih => simp [Declaration.text, Declaration.mapLine]

private theorem blockText_mapLine (f : Nat → Nat) (depth : Nat) (ds : List Declaration)
    (rules : List String) :
    blockText depth (ds.map (·.mapLine f)) rules = blockText depth ds rules := by
  unfold blockText
  rw [declarationTexts_mapLine]
  simp

mutual

theorem Rule.text_mapLines (f : Nat → Nat) (depth : Nat) (rule : Rule) :
    (rule.mapLines f).text depth = rule.text depth := by
  cases rule with
  | style selectors declarations rules line =>
    simp only [Rule.mapLines, Rule.text, blockText_mapLine, Rule.texts_mapAllLines]
  | atRule name lead body line => simp only [Rule.mapLines, Rule.text, AtBody.text_mapLines]
  | comment text line => rfl

theorem AtBody.text_mapLines (f : Nat → Nat) (depth : Nat) (body : AtBody) :
    (body.mapLines f).text depth = body.text depth := by
  cases body with
  | none => rfl
  | rules items => simp only [AtBody.mapLines, AtBody.text, Rule.texts_mapAllLines]
  | declarations items => simp only [AtBody.mapLines, AtBody.text, blockText_mapLine]
  | block declarations rules =>
    simp only [AtBody.mapLines, AtBody.text, blockText_mapLine, Rule.texts_mapAllLines]

theorem Rule.texts_mapAllLines (f : Nat → Nat) (depth : Nat) (rules : List Rule) :
    Rule.texts depth (Rule.mapAllLines f rules) = Rule.texts depth rules := by
  cases rules with
  | nil => rfl
  | cons rule rules =>
    simp only [Rule.mapAllLines, Rule.texts, Rule.text_mapLines, Rule.texts_mapAllLines]

end

theorem Stylesheet.canonical_mapLines (f : Nat → Nat) (sheet : Stylesheet) :
    canonical { sheet with rules := Rule.mapAllLines f sheet.rules } = canonical sheet := by
  simp only [canonical, Rule.texts_mapAllLines]

end SheetDiff
