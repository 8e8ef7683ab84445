import SheetDiff.Proofs.Json.Record
import SheetDiff.Sheet.Json

/-!
# Stylesheets are read again from JSON

A stylesheet is read again from the value it is written as (`Stylesheet.ofJson?_toJson`), and so is a
rule or a body at any depth, as long as its lines are numbers of 32 bits. The proof follows the rules:
each kind of rule and of body is read again if its parts are.
-/

namespace SheetDiff

open Json

variable {declarations : List Declaration} {rules : List Rule} {line : Nat}

/-! ## Lines of 32 bits -/

def Declaration.InRange (d : Declaration) : Prop := d.line < 2 ^ 32

def Warning.InRange (w : Warning) : Prop := w.line < 2 ^ 32

mutual

/-- The lines of a rule are numbers of 32 bits at every depth. -/
def Rule.InRange : Rule → Prop
  | .style _ declarations rules line =>
    line < 2 ^ 32 ∧ (∀ d ∈ declarations, d.InRange) ∧ Rule.AllInRange rules
  | .atRule _ _ body line => line < 2 ^ 32 ∧ body.InRange
  | .comment _ line => line < 2 ^ 32

def AtBody.InRange : AtBody → Prop
  | .none => True
  | .rules items => Rule.AllInRange items
  | .declarations items => ∀ d ∈ items, d.InRange
  | .block declarations rules => (∀ d ∈ declarations, d.InRange) ∧ Rule.AllInRange rules

def Rule.AllInRange : List Rule → Prop
  | [] => True
  | rule :: rules => rule.InRange ∧ Rule.AllInRange rules

end

/-- All lines of a stylesheet are numbers of 32 bits. -/
structure Stylesheet.InRange (s : Stylesheet) : Prop where
  rules : Rule.AllInRange s.rules
  warnings : ∀ w ∈ s.warnings, w.InRange

/-! ## Declarations and warnings -/

theorem Declaration.ofJson?_toJson (d : Declaration) (h : d.InRange) :
    Declaration.ofJson? d.toJson = some d := by
  simp only [Declaration.ofJson?, Option.bind_eq_bind, Option.bind_eq_some_iff]
  exact ⟨(), rfl, d.property, ⟨_, rfl, rfl⟩, d.value, ⟨_, rfl, rfl⟩, d.line, ⟨_, rfl, nat32?_int h⟩, rfl⟩

theorem Warning.ofJson?_toJson (w : Warning) (h : w.InRange) : Warning.ofJson? w.toJson = some w := by
  simp only [Warning.ofJson?, Option.bind_eq_bind, Option.bind_eq_some_iff]
  exact ⟨(), rfl, w.message, ⟨_, rfl, rfl⟩, w.line, ⟨_, rfl, nat32?_int h⟩, rfl⟩

theorem listOr_declarations (h : ∀ d ∈ declarations, d.InRange) :
    listOr Declaration.ofJson? (some (arr (declarations.map Declaration.toJson))) = some declarations :=
  listOr_map fun d hd => d.ofJson?_toJson (h d hd)

/-! ## Rules by their kinds -/

/-- The list of nested rules is left out if it is empty. -/
theorem Rule.ofJson?_style (selectors : List String) (h : line < 2 ^ 32)
    (hdeclarations : ∀ d ∈ declarations, d.InRange)
    (hrules : Rule.allOfJson? (arr (Rule.allToJson rules)) = some rules) :
    Rule.ofJson? (Rule.style selectors declarations rules line).toJson =
      some (.style selectors declarations rules line) := by
  generalize hj : (Rule.style selectors declarations rules line).toJson = j
  obtain ⟨hkind, hselectors, hlist, hline⟩ : (j.field? ["type"] "type").bind str? = some "style" ∧
      j.field? styleFields "selectors" = some (arr (selectors.map str)) ∧
      j.field? styleFields "declarations" = some (arr (declarations.map Declaration.toJson)) ∧
      j.field? styleFields "line" = some (int line) := by
    subst hj
    cases rules <;> exact ⟨rfl, rfl, rfl, rfl⟩
  rw [Rule.ofJson?, Option.bind_eq_bind, Option.bind_eq_some_iff]
  refine ⟨"style", hkind, ?_⟩
  simp only [Option.bind_eq_bind, Option.bind_eq_some_iff]
  refine ⟨(), by subst hj; rfl, _, hselectors, selectors, list?_map fun s _ => str?_str s, declarations,
    by rw [hlist, listOr_declarations hdeclarations], ?_⟩
  subst hj
  cases rules with
  | nil =>
    split
    · simp only [Option.bind_eq_some_iff]
      exact ⟨[], rfl, line, ⟨_, hline, nat32?_int h⟩, rfl⟩
    · contradiction
  | cons rule rules =>
    split
    · contradiction
    · rename_i part hpart
      obtain rfl : arr (Rule.allToJson (rule :: rules)) = part := Option.some.inj hpart
      simp only [Option.bind_eq_some_iff]
      exact ⟨rule :: rules, hrules, line, ⟨_, hline, nat32?_int h⟩, rfl⟩

theorem Rule.ofJson?_atRule (name lead : String) {body : AtBody} (h : line < 2 ^ 32)
    (hbody : AtBody.ofJson? body.toJson = some body) :
    Rule.ofJson? (Rule.atRule name lead body line).toJson = some (.atRule name lead body line) := by
  rw [Rule.ofJson?, Option.bind_eq_bind, Option.bind_eq_some_iff]
  refine ⟨"at", rfl, ?_⟩
  simp only [Option.bind_eq_bind, Option.bind_eq_some_iff]
  refine ⟨(), rfl, name, ⟨_, rfl, rfl⟩, ?_⟩
  split
  · contradiction
  · rename_i part hlead
    obtain rfl : str lead = part := Option.some.inj hlead
    rw [Option.bind_eq_some_iff]
    refine ⟨lead, rfl, ?_⟩
    split
    · contradiction
    · rename_i part hpart
      obtain rfl : body.toJson = part := Option.some.inj hpart
      simp only [Option.bind_eq_some_iff]
      exact ⟨body, hbody, line, ⟨_, rfl, nat32?_int h⟩, rfl⟩

theorem Rule.ofJson?_comment (text : String) (h : line < 2 ^ 32) :
    Rule.ofJson? (Rule.comment text line).toJson = some (.comment text line) := by
  rw [Rule.ofJson?, Option.bind_eq_bind, Option.bind_eq_some_iff]
  refine ⟨"comment", rfl, ?_⟩
  simp only [Option.bind_eq_bind, Option.bind_eq_some_iff]
  exact ⟨(), rfl, text, ⟨_, rfl, rfl⟩, line, ⟨_, rfl, nat32?_int h⟩, rfl⟩

/-! ## Bodies by their kinds -/

/-- A body without a block has no items. -/
theorem AtBody.ofJson?_none : AtBody.ofJson? AtBody.none.toJson = some .none := by
  rw [AtBody.ofJson?]
  simp only [Option.bind_eq_bind, Option.bind_eq_some_iff]
  refine ⟨(), rfl, "none", ⟨_, rfl, rfl⟩, ?_⟩
  split <;> first | rfl | contradiction

theorem AtBody.ofJson?_rules (h : Rule.allOfJson? (arr (Rule.allToJson rules)) = some rules) :
    AtBody.ofJson? (AtBody.rules rules).toJson = some (.rules rules) := by
  rw [AtBody.ofJson?]
  simp only [Option.bind_eq_bind, Option.bind_eq_some_iff]
  refine ⟨(), rfl, "rules", ⟨_, rfl, rfl⟩, ?_⟩
  split <;> try contradiction
  · rename_i part hkind hpart
    obtain rfl : arr (Rule.allToJson rules) = part := Option.some.inj hpart
    rw [h]
    rfl
  · rename_i hrules _ _
    exact (hrules _ rfl rfl).elim

theorem AtBody.ofJson?_declarations (h : ∀ d ∈ declarations, d.InRange) :
    AtBody.ofJson? (AtBody.declarations declarations).toJson = some (.declarations declarations) := by
  rw [AtBody.ofJson?]
  simp only [Option.bind_eq_bind, Option.bind_eq_some_iff]
  refine ⟨(), rfl, "declarations", ⟨_, rfl, rfl⟩, ?_⟩
  split <;> try contradiction
  · rename_i part hkind hpart
    obtain rfl : arr (declarations.map Declaration.toJson) = part := Option.some.inj hpart
    rw [list?_map fun d hd => d.ofJson?_toJson (h d hd)]
    rfl
  · rename_i hlist _
    exact (hlist _ rfl rfl).elim

theorem AtBody.ofJson?_block (hdeclarations : ∀ d ∈ declarations, d.InRange)
    (hrules : Rule.allOfJson? (arr (Rule.allToJson rules)) = some rules) :
    AtBody.ofJson? (AtBody.block declarations rules).toJson = some (.block declarations rules) := by
  rw [AtBody.ofJson?]
  simp only [Option.bind_eq_bind, Option.bind_eq_some_iff]
  refine ⟨(), rfl, "block", ⟨_, rfl, rfl⟩, ?_⟩
  split <;> try contradiction
  · rename_i part hkind hpart
    obtain rfl := Option.some.inj hpart
    simp only [Option.bind_eq_some_iff]
    refine ⟨(), rfl, _, rfl, declarations, list?_map fun d hd => d.ofJson?_toJson (hdeclarations d hd), ?_⟩
    split
    · contradiction
    · rename_i list hlist
      obtain rfl : arr (Rule.allToJson rules) = list := Option.some.inj hlist
      rw [hrules]
      rfl
  · rename_i hblock
    exact (hblock _ rfl rfl).elim

/-! ## Whole rules and sheets -/

mutual

/-- A rule is read again from its value. -/
theorem Rule.ofJson?_toJson (r : Rule) (h : r.InRange) : Rule.ofJson? r.toJson = some r := by
  cases r with
  | style selectors declarations rules line =>
    exact Rule.ofJson?_style selectors h.1 h.2.1 (Rule.allOfJson?_toJson rules h.2.2)
  | atRule name lead body line => exact Rule.ofJson?_atRule name lead h.1 (AtBody.ofJson?_toJson body h.2)
  | comment text line => exact Rule.ofJson?_comment text h

/-- The body of an at-rule is read again from its value. -/
theorem AtBody.ofJson?_toJson (b : AtBody) (h : b.InRange) : AtBody.ofJson? b.toJson = some b := by
  cases b with
  | none => exact AtBody.ofJson?_none
  | rules items => exact AtBody.ofJson?_rules (Rule.allOfJson?_toJson items h)
  | declarations items => exact AtBody.ofJson?_declarations h
  | block declarations rules => exact AtBody.ofJson?_block h.1 (Rule.allOfJson?_toJson rules h.2)

theorem Rule.allOfJson?_toJson (rules : List Rule) (h : Rule.AllInRange rules) :
    Rule.allOfJson? (arr (Rule.allToJson rules)) = some rules := by
  cases rules with
  | nil => rw [Rule.allToJson, Rule.allOfJson?_arr]; rfl
  | cons rule rules =>
    have hrules := Rule.allOfJson?_toJson rules h.2
    rw [Rule.allOfJson?_arr] at hrules ⊢
    rw [Rule.allToJson, List.mapM_cons, Rule.ofJson?_toJson rule h.1, hrules]
    rfl

end

/-- A stylesheet is read again from its value. -/
theorem Stylesheet.ofJson?_toJson (s : Stylesheet) (h : s.InRange) :
    Stylesheet.ofJson? s.toJson = some s := by
  have hrules := Rule.allOfJson?_toJson s.rules h.rules
  rw [Rule.allOfJson?_arr] at hrules
  simp only [Stylesheet.ofJson?, Option.bind_eq_bind, Option.bind_eq_some_iff]
  exact ⟨(), rfl, s.rules, hrules, s.warnings, listOr_map fun w hw => w.ofJson?_toJson (h.warnings w hw),
    rfl⟩

end SheetDiff
