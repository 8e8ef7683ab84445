import Mathlib
import SheetDiff.Proofs.Sheet.Normal

/-!
# The shape of parsed rules

`Occurs` finds the rules of a sheet at every depth, each with the chain of rules around it.
`Rule.Shape` says how a rule looks at its place, in terms of what is stored in it and of its chain
alone. Every rule that occurs in a parsed sheet has that shape (`occurs_shape`); comments, for one,
are only met where all rules around them group other rules.
-/

namespace SheetDiff

/-! ## Rules at every depth -/

/-- The rules right inside a rule. -/
def Rule.nested : Rule → List Rule
  | .style _ _ rules _ => rules
  | .atRule _ _ body _ => body.nested
  | .comment _ _ => []

/-- A rule stands among some rules or at any depth inside of them; the chain holds the rules around
it, the outermost first. -/
inductive Occurs : List Rule → List Rule → Rule → Prop
  | here {rules : List Rule} {r : Rule} (h : r ∈ rules) : Occurs rules [] r
  | inside {rules chain : List Rule} {parent r : Rule} (h : parent ∈ rules)
      (hr : Occurs parent.nested chain r) : Occurs rules (parent :: chain) r

/-! ## Shapes -/

/-- A text whose words are parted by single spaces. -/
structure Text.Tidy (s : String) : Prop where
  collapse : Text.collapse s.toList = s
  space : ∀ c ∈ s.toList, Text.isSpace c = true → c = ' '
  head : ∀ c ∈ s.toList.head?, Text.isSpace c = false
  last : ∀ c ∈ s.toList.getLast?, Text.isSpace c = false
  single : ¬ [' ', ' '] <:+: s.toList

theorem Text.Stored.tidy {s : String} (h : Text.Stored s) : Text.Tidy s :=
  ⟨h, fun _ hc hs => h.eq_space hc hs, fun _ hc => h.head_not_space hc,
    fun _ hc => h.last_not_space hc, h.single_spaces⟩

/-- An at-rule whose block is a list of rules. -/
def Rule.IsGroup : Rule → Prop
  | .atRule name _ (.rules _) _ => AtClass.ofName name ≠ .declarations
  | _ => False

/-- A selector or a value: a text that is not empty. -/
def Text.Given (s : String) : Prop := s ≠ "" ∧ Text.Tidy s

/-- What may follow the name and the lead of an at-rule of a class. -/
structure AtBody.Shape (cls : AtClass) (body : AtBody) : Prop where
  values : ∀ d ∈ body.held, Text.Given d.value
  none : body = .none → cls = .optional
  block : ∀ declarations rules, body = .block declarations rules → declarations ≠ [] ∧ rules ≠ []
  style : cls = .declarations → ∀ r ∈ body.nested, ¬ r.IsStyle
  rules : cls = .declarations → body ≠ .rules []

/-- How a rule looks that has the rules of a chain around it. -/
def Rule.Shape (chain : List Rule) : Rule → Prop
  | .style selectors declarations _ _ =>
    selectors ≠ [] ∧ (∀ s ∈ selectors, Text.Given s) ∧ ∀ d ∈ declarations, Text.Given d.value
  | .atRule name lead body _ => Text.Tidy lead ∧ body.Shape (AtClass.ofName name)
  | .comment text _ => ¬ ['*', '/'] <:+: text.toList ∧ ∀ parent ∈ chain, parent.IsGroup

/-! ## Normal rules have their shape -/

section Normal

variable {scope : Scope} {r : Rule}

private theorem Text.Filled.given {s : String} (h : Text.Filled s) : Text.Given s :=
  ⟨h.ne, h.stored.tidy⟩

theorem AtBody.Normal.shape {cls : AtClass} {body : AtBody} (h : body.Normal scope cls) :
    body.Shape cls := by
  cases body with
  | none =>
    refine ⟨by simp [AtBody.held], fun _ => h, fun _ _ h => ?_, by simp [AtBody.nested], by simp⟩
    cases h
  | declarations items =>
    exact ⟨fun d hd => (h.2 d hd).given, (by intro h; cases h), (by intro _ _ h; cases h),
      by simp [AtBody.nested], by simp⟩
  | rules items =>
    obtain ⟨-, hrest⟩ := h
    have hdecl (hcls : cls = .declarations) : ¬ scope.Groups cls := fun hg => hg.2 hcls
    refine ⟨by simp [AtBody.held], (by intro h; cases h), (by intro _ _ h; cases h), ?_, ?_⟩
    · intro hcls
      exact (hrest (hdecl hcls)).2.2 hcls
    · intro hcls hnil
      exact (hrest (hdecl hcls)).1 (by simpa using hnil)
  | block declarations rules =>
    obtain ⟨-, hd, hr, hvalues, -, hstyle⟩ := h
    refine ⟨fun d hd => (hvalues d hd).given, (by intro h; cases h), ?_, hstyle, by simp⟩
    rintro _ _ ⟨⟩
    exact ⟨hd, hr⟩

/-- The rules right inside a rule are normal, and they form a rule list only in a group. -/
theorem Rule.Normal.nested (h : r.Normal scope) : ∃ inner, Rule.AllNormal inner r.nested ∧
    (inner = .ruleList → scope = .ruleList ∧ r.IsGroup) := by
  have hblock {rules : List Rule} (h : Rule.AllNormal .block rules) :
      ∃ inner, Rule.AllNormal inner rules ∧ (inner = .ruleList → scope = .ruleList ∧ r.IsGroup) :=
    ⟨.block, h, by simp⟩
  cases r with
  | style selectors declarations rules line => exact hblock h.2.2.2
  | comment text line => exact hblock trivial
  | atRule name lead body line =>
    obtain ⟨-, -, hbody⟩ := h
    cases body with
    | none => exact hblock trivial
    | declarations items => exact hblock trivial
    | block declarations rules => exact hblock hbody.2.2.2.2.1
    | rules items =>
      by_cases hg : scope.Groups (AtClass.ofName name)
      · exact ⟨.ruleList, hbody.1 hg, fun _ => hg⟩
      · exact hblock (hbody.2 hg).2.1

/-- A normal rule has its shape, if comments may stand where it does. -/
theorem Rule.Normal.shape {chain : List Rule} (h : r.Normal scope)
    (hc : scope = .ruleList → ∀ parent ∈ chain, parent.IsGroup) : r.Shape chain := by
  cases r with
  | style selectors declarations rules line =>
    obtain ⟨hne, hs, hd, -⟩ := h
    exact ⟨hne, fun s hm => (hs s hm).toFilled.given, fun d hm => (hd d hm).given⟩
  | atRule name lead body line =>
    obtain ⟨-, hlead, hbody⟩ := h
    exact ⟨hlead.tidy, hbody.shape⟩
  | comment text line =>
    obtain ⟨hscope, hclose⟩ := h
    exact ⟨hclose, hc hscope⟩

end Normal

/-- The rules of a normal list have their shape at every depth. -/
theorem occurs_shape_of_normal {scope : Scope} {rules chain : List Rule} {r : Rule}
    (h : Occurs rules chain r) (hn : Rule.AllNormal scope rules) :
    ∃ inner, r.Normal inner ∧
      (inner = .ruleList → scope = .ruleList ∧ ∀ parent ∈ chain, parent.IsGroup) := by
  induction h generalizing scope with
  | here h => exact ⟨scope, allNormal_iff.1 hn _ h, fun hs => ⟨hs, by simp⟩⟩
  | @inside rules chain parent r hp hr ih =>
    obtain ⟨middle, hnested, hgroup⟩ := (allNormal_iff.1 hn parent hp).nested
    obtain ⟨inner, hinner, hchain⟩ := ih hnested
    refine ⟨inner, hinner, fun hs => ?_⟩
    obtain ⟨hmiddle, hchain⟩ := hchain hs
    obtain ⟨hscope, hparent⟩ := hgroup hmiddle
    exact ⟨hscope, by simpa using ⟨hparent, hchain⟩⟩

/-- Every rule of a parsed sheet, at any depth, has the shape of its place. -/
theorem occurs_shape {css : String} {s : Stylesheet} (h : Stylesheet.parse css = .ok s)
    {chain : List Rule} {r : Rule} (hr : Occurs s.rules chain r) : r.Shape chain := by
  obtain ⟨inner, hnormal, hchain⟩ := occurs_shape_of_normal hr (normal_parse h)
  exact hnormal.shape fun hs => (hchain hs).2

/-- A comment between rules that an at-rule groups. -/
theorem occurs_shape_grouped : ∃ s group comment,
    Stylesheet.parse "@media  all\n\x7b/* b */a\x7bb:c\x7d\x7d" = .ok s ∧
      Occurs s.rules [group] comment ∧ comment.Shape [group] := by
  have hs : Stylesheet.parse "@media  all\n\x7b/* b */a\x7bb:c\x7d\x7d" = .ok
      ⟨[.atRule "media" "all" (.rules [.comment " b " 2, .style ["a"] [⟨"b", "c", 2⟩] [] 2]) 1], []⟩ := by
    cbv
  have hoccurs : Occurs
      [.atRule "media" "all" (.rules [.comment " b " 2, .style ["a"] [⟨"b", "c", 2⟩] [] 2]) 1]
      [.atRule "media" "all" (.rules [.comment " b " 2, .style ["a"] [⟨"b", "c", 2⟩] [] 2]) 1]
      (.comment " b " 2) :=
    .inside List.mem_cons_self (.here List.mem_cons_self)
  exact ⟨_, _, _, hs, hoccurs, occurs_shape hs hoccurs⟩

end SheetDiff
