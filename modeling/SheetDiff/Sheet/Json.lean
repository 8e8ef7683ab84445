import SheetDiff.Json.Basic
import SheetDiff.Sheet.Basic

/-!
# Stylesheets as JSON

`Stylesheet.toJson` and `Stylesheet.ofJson?`, and the same for the parts of a stylesheet. Fields
that are not known are passed over, and lists may be left out where the record of a part says so.
-/

namespace SheetDiff

open Json

def Declaration.toJson (d : Declaration) : Json :=
  .obj [("property", .str d.property), ("value", .str d.value), ("line", .int d.line)]

def Declaration.ofJson? (j : Json) : Option Declaration := do
  let names := ["property", "value", "line"]
  j.record? names
  let property ← (j.field? names "property").bind Json.str?
  let value ← (j.field? names "value").bind Json.str?
  let line ← (j.field? names "line").bind Json.nat32?
  some ⟨property, value, line⟩

def Warning.toJson (w : Warning) : Json := .obj [("message", .str w.message), ("line", .int w.line)]

def Warning.ofJson? (j : Json) : Option Warning := do
  let names := ["message", "line"]
  j.record? names
  let message ← (j.field? names "message").bind Json.str?
  let line ← (j.field? names "line").bind Json.nat32?
  some ⟨message, line⟩

/-! ## Rules -/

mutual

/-- A rule as a record with its kind; nested rules of a style rule are left out if there are none. -/
def Rule.toJson : Rule → Json
  | .style selectors declarations rules line =>
    .obj ([("type", .str "style"), ("selectors", .arr (selectors.map .str)),
        ("declarations", .arr (declarations.map Declaration.toJson))]
      ++ (if rules.isEmpty then [] else [("rules", .arr (Rule.allToJson rules))])
      ++ [("line", .int line)])
  | .atRule name lead body line =>
    .obj [("type", .str "at"), ("name", .str name), ("prelude", .str lead), ("body", body.toJson),
      ("line", .int line)]
  | .comment text line =>
    .obj [("type", .str "comment"), ("text", .str text), ("line", .int line)]

/-- A body as a record with its kind and, unless there is no block, its items. -/
def AtBody.toJson : AtBody → Json
  | .none => .obj [("kind", .str "none")]
  | .rules items => .obj [("kind", .str "rules"), ("items", .arr (Rule.allToJson items))]
  | .declarations items =>
    .obj [("kind", .str "declarations"), ("items", .arr (items.map Declaration.toJson))]
  | .block declarations rules =>
    .obj [("kind", .str "block"),
      ("items", .obj [("declarations", .arr (declarations.map Declaration.toJson)),
        ("rules", .arr (Rule.allToJson rules))])]

def Rule.allToJson : List Rule → List Json
  | [] => []
  | rule :: rules => rule.toJson :: Rule.allToJson rules

end

/-- The fields of each kind of rule, its kind first. -/
def Rule.styleFields : List String := ["type", "selectors", "declarations", "rules", "line"]
def Rule.atFields : List String := ["type", "name", "prelude", "body", "line"]
def Rule.commentFields : List String := ["type", "text", "line"]

/-- The fields of a body, and of the items of a block. -/
def AtBody.fields : List String := ["kind", "items"]
def AtBody.blockFields : List String := ["declarations", "rules"]

mutual

/-- Reads a rule. -/
def Rule.ofJson? (j : Json) : Option Rule := do
  let kind ← (j.field? ["type"] "type").bind Json.str?
  match kind with
  | "style" =>
    let names := Rule.styleFields
    j.record? names
    let selectors ← (← j.field? names "selectors").list? Json.str?
    let declarations ← Json.listOr Declaration.ofJson? (j.field? names "declarations")
    let rules ← match _h : j.field? names "rules" with
      | none => some []
      | some part => Rule.allOfJson? part
    let line ← (j.field? names "line").bind Json.nat32?
    some (.style selectors declarations rules line)
  | "at" =>
    let names := Rule.atFields
    j.record? names
    let name ← (j.field? names "name").bind Json.str?
    let lead ← match j.field? names "prelude" with
      | none => some ""
      | some part => part.str?
    let body ← match _h : j.field? names "body" with
      | none => none
      | some part => AtBody.ofJson? part
    let line ← (j.field? names "line").bind Json.nat32?
    some (.atRule name lead body line)
  | "comment" =>
    let names := Rule.commentFields
    j.record? names
    let text ← (j.field? names "text").bind Json.str?
    let line ← (j.field? names "line").bind Json.nat32?
    some (.comment text line)
  | _ => none
termination_by sizeOf j
decreasing_by all_goals exact Json.sizeOf_field?_lt _h

/-- Reads the body of an at-rule. -/
def AtBody.ofJson? (j : Json) : Option AtBody := do
  let names := AtBody.fields
  j.record? names
  let kind ← (j.field? names "kind").bind Json.constant?
  match kind, _h : j.field? names "items" with
  | "none", none | "none", some .null => some .none
  | "rules", some part => (Rule.allOfJson? part).map .rules
  | "declarations", some part => (part.list? Declaration.ofJson?).map .declarations
  | "block", some part =>
    part.record? AtBody.blockFields
    let declarations ← (← part.field? AtBody.blockFields "declarations").list? Declaration.ofJson?
    let rules ← match _hr : part.field? AtBody.blockFields "rules" with
      | none => none
      | some list => Rule.allOfJson? list
    some (.block declarations rules)
  | _, _ => none
termination_by sizeOf j
decreasing_by
  · exact Json.sizeOf_field?_lt _h
  · exact Nat.lt_trans (Json.sizeOf_field?_lt _hr) (Json.sizeOf_field?_lt _h)

/-- Reads a list of rules. -/
def Rule.allOfJson? : Json → Option (List Rule)
  | .arr items => items.attach.mapM fun item => Rule.ofJson? item.1
  | _ => none
termination_by j => sizeOf j
decreasing_by
  have := List.sizeOf_lt_of_mem item.2
  simp only [Json.arr.sizeOf_spec]
  omega

end

theorem Rule.allOfJson?_arr (items : List Json) :
    Rule.allOfJson? (.arr items) = items.mapM Rule.ofJson? := by
  rw [Rule.allOfJson?]
  conv => rhs; rw [← List.attach_map_subtype_val items]
  rw [List.mapM_map]
  rfl

/-! ## Sheets -/

def Stylesheet.toJson (s : Stylesheet) : Json :=
  .obj [("rules", .arr (Rule.allToJson s.rules)), ("warnings", .arr (s.warnings.map Warning.toJson))]

/-- Reads a stylesheet; either list may be left out. -/
def Stylesheet.ofJson? (j : Json) : Option Stylesheet := do
  let names := ["rules", "warnings"]
  j.record? names
  let rules ← Json.listOr Rule.ofJson? (j.field? names "rules")
  let warnings ← Json.listOr Warning.ofJson? (j.field? names "warnings")
  some ⟨rules, warnings⟩

end SheetDiff
