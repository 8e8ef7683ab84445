import SheetDiff.Compare.Result
import SheetDiff.Json.Basic

/-!
# Results as JSON

`toJson` and `ofJson?` for diffs, summaries, changes of rules and comparisons. Fields that are not
known are passed over.
-/

namespace SheetDiff

/-- Reads a value that may be left out or be null. -/
def Json.optional {α : Type} (read : Json → Option α) : Option Json → Option (Option α)
  | none | some .null => some none
  | some j => (read j).map some

/-! ## Constants -/

def Strategy.toJson (s : Strategy) : Json := .str s.name

def Strategy.ofJson? (j : Json) : Option Strategy := do
  match ← j.constant? with
  | "textual" => some .textual
  | "structural" => some .structural
  | _ => none

def LineKind.toJson : LineKind → Json
  | context => .str "context"
  | addition => .str "addition"
  | deletion => .str "deletion"

def LineKind.ofJson? (j : Json) : Option LineKind := do
  match ← j.constant? with
  | "context" => some .context
  | "addition" => some .addition
  | "deletion" => some .deletion
  | _ => none

def ChangeKind.toJson : ChangeKind → Json
  | added => .str "added"
  | removed => .str "removed"
  | modified => .str "modified"

def ChangeKind.ofJson? (j : Json) : Option ChangeKind := do
  match ← j.constant? with
  | "added" => some .added
  | "removed" => some .removed
  | "modified" => some .modified
  | _ => none

/-! ## Summaries and changes -/

def Summary.toJson (s : Summary) : Json :=
  .obj [("added", .int s.added), ("removed", .int s.removed),
    ("modified", match s.modified with
      | some n => .int n
      | none => .null)]

def Summary.ofJson? (j : Json) : Option Summary := do
  let names := ["added", "removed", "modified"]
  j.record? names
  let added ← (j.field? names "added").bind Json.nat32?
  let removed ← (j.field? names "removed").bind Json.nat32?
  let modified ← Json.optional Json.nat32? (j.field? names "modified")
  some ⟨added, removed, modified⟩

def RuleChange.toJson (c : RuleChange) : Json :=
  .obj [("kind", c.kind.toJson), ("label", .str c.label), ("index", .int c.index)]

def RuleChange.ofJson? (j : Json) : Option RuleChange := do
  let names := ["kind", "label", "index"]
  j.record? names
  let kind ← (j.field? names "kind").bind ChangeKind.ofJson?
  let label ← (j.field? names "label").bind Json.str?
  let index ← (j.field? names "index").bind Json.nat64?
  some ⟨kind, label, index⟩

/-! ## Unified diffs -/

def HunkRange.toJson (r : HunkRange) : Json :=
  .obj [("old_start", .int r.oldStart), ("old_lines", .int r.oldLines),
    ("new_start", .int r.newStart), ("new_lines", .int r.newLines)]

def HunkRange.ofJson? (j : Json) : Option HunkRange := do
  let names := ["old_start", "old_lines", "new_start", "new_lines"]
  j.record? names
  let oldStart ← (j.field? names "old_start").bind Json.nat32?
  let oldLines ← (j.field? names "old_lines").bind Json.nat32?
  let newStart ← (j.field? names "new_start").bind Json.nat32?
  let newLines ← (j.field? names "new_lines").bind Json.nat32?
  some ⟨oldStart, oldLines, newStart, newLines⟩

def HunkLine.toJson (l : HunkLine) : Json :=
  .obj [("kind", l.kind.toJson), ("text", .str l.content)]

def HunkLine.ofJson? (j : Json) : Option HunkLine := do
  let names := ["kind", "text"]
  j.record? names
  let kind ← (j.field? names "kind").bind LineKind.ofJson?
  let content ← (j.field? names "text").bind Json.str?
  some ⟨kind, content⟩

def Hunk.toJson (h : Hunk) : Json :=
  .obj [("header", h.header.toJson), ("lines", .arr (h.lines.map HunkLine.toJson))]

def Hunk.ofJson? (j : Json) : Option Hunk := do
  let names := ["header", "lines"]
  j.record? names
  let header ← (j.field? names "header").bind HunkRange.ofJson?
  let lines ← Json.listOr HunkLine.ofJson? (j.field? names "lines")
  some ⟨header, lines⟩

def UnifiedDiff.toJson (d : UnifiedDiff) : Json :=
  .obj [("old_label", .str d.oldLabel), ("new_label", .str d.newLabel),
    ("hunks", .arr (d.hunks.map Hunk.toJson))]

def UnifiedDiff.ofJson? (j : Json) : Option UnifiedDiff := do
  let names := ["old_label", "new_label", "hunks"]
  j.record? names
  let oldLabel ← (j.field? names "old_label").bind Json.str?
  let newLabel ← (j.field? names "new_label").bind Json.str?
  let hunks ← Json.listOr Hunk.ofJson? (j.field? names "hunks")
  some ⟨oldLabel, newLabel, hunks⟩

/-! ## Comparisons -/

def FileWarning.toJson (w : FileWarning) : Json :=
  .obj [("path", .str w.path), ("line", .int w.line), ("message", .str w.message)]

def FileWarning.ofJson? (j : Json) : Option FileWarning := do
  let names := ["path", "line", "message"]
  j.record? names
  let path ← (j.field? names "path").bind Json.str?
  let line ← (j.field? names "line").bind Json.nat32?
  let message ← (j.field? names "message").bind Json.str?
  some ⟨path, line, message⟩

def Comparison.toJson (c : Comparison) : Json :=
  .obj [("strategy", c.strategy.toJson), ("summary", c.summary.toJson), ("diff", .str c.diff),
    ("lines", .arr (c.lines.map .str)), ("total_lines", .int c.totalLines),
    ("warnings", .arr (c.warnings.map FileWarning.toJson)),
    ("report_path", match c.reportPath with
      | some path => .str path
      | none => .null)]

def Comparison.ofJson? (j : Json) : Option Comparison := do
  let names :=
    ["strategy", "summary", "diff", "lines", "total_lines", "warnings", "report_path"]
  j.record? names
  let strategy ← (j.field? names "strategy").bind Strategy.ofJson?
  let summary ← (j.field? names "summary").bind Summary.ofJson?
  let diff ← (j.field? names "diff").bind Json.str?
  let lines ← Json.listOr Json.str? (j.field? names "lines")
  let totalLines ← (j.field? names "total_lines").bind Json.nat64?
  let warnings ← Json.listOr FileWarning.ofJson? (j.field? names "warnings")
  let reportPath ← Json.optional Json.str? (j.field? names "report_path")
  some ⟨strategy, summary, diff, lines, totalLines, warnings, reportPath⟩

end SheetDiff
