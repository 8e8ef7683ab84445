import Mathlib
import SheetDiff.Proofs.Sheet.Layout
import SheetDiff.Proofs.Sheet.Normal
import SheetDiff.Proofs.Text.Messages

/-!
# Equal canonical texts come from equal sheets

The canonical text of a parsed sheet determines its rules up to their lines
(`rules_eq_of_canonical_eq`), as long as the names in it are plain: the text holds names as they are
read, so a name that is written with escapes may look like more than a name, and a style rule whose
first selector starts with `@` looks like an at-rule. The proof reads two equal texts from left to
right, line by line; what follows a rule is kept as a rest, which is equal too.
-/

namespace SheetDiff

open Css (ClosesComment)

/-! ## Plain names -/

/-- A name without spaces and line feeds. -/
def NamePlain (s : String) : Prop := ' ' ∉ s.toList ∧ '\n' ∉ s.toList

/-- The property of a declaration does not look like its beginning, like several lines or like an
at-rule. -/
structure Declaration.Plain (d : Declaration) : Prop where
  colon : ¬ [':', ' '] <:+: d.property.toList
  newline : '\n' ∉ d.property.toList
  head : d.property.toList.head? ≠ some '@'

/-- A selector does not look like the name of an at-rule. -/
def SelectorPlain (s : String) : Prop := ∀ c u, s.toList = '@' :: c :: u → c = ' '

mutual

/-- The names in a rule are plain at every depth, and its first selectors as well. -/
def Rule.Plain : Rule → Prop
  | .style selectors declarations rules _ =>
    (∀ s ∈ selectors.head?, SelectorPlain s) ∧ (∀ d ∈ declarations, d.Plain) ∧
      Rule.AllPlain rules
  | .atRule name _ body _ => NamePlain name ∧ body.Plain
  | .comment .. => True

def AtBody.Plain : AtBody → Prop
  | .none => True
  | .rules items => Rule.AllPlain items
  | .declarations items => ∀ d ∈ items, d.Plain
  | .block declarations rules => (∀ d ∈ declarations, d.Plain) ∧ Rule.AllPlain rules

def Rule.AllPlain : List Rule → Prop
  | [] => True
  | rule :: rules => rule.Plain ∧ Rule.AllPlain rules

end

def Stylesheet.Plain (s : Stylesheet) : Prop := Rule.AllPlain s.rules

/-! ## Texts with a delimiter -/

section Delimiters

variable {a b x y : List Char}

/-- The first lines of two equal texts. -/
private theorem line_inj (ha : '\n' ∉ a) (hb : '\n' ∉ b) (h : a ++ '\n' :: x = b ++ '\n' :: y) :
    a = b ∧ x = y := by
  have hp (cs : List Char) (hcs : '\n' ∉ cs) : ∀ c ∈ cs, decide (c ≠ '\n') = true := by
    intro c hc
    have hne : c ≠ '\n' := by
      rintro rfl
      exact hcs hc
    simpa using hne
  obtain ⟨hab, hxy⟩ := Text.cut_inj (hp a ha) (hp b hb) (by simp) (by simp) h
  exact ⟨hab, by simpa using hxy⟩

variable {c d : Char}

private theorem eq_nil_of_delimited (hcd : c ≠ d) (hb : ¬ [c, d] <:+: b)
    (h : c :: d :: x = b ++ c :: d :: y) : b = [] := by
  cases b with
  | nil => rfl
  | cons e b =>
    cases b with
    | nil =>
      simp only [List.cons_append, List.nil_append, List.cons.injEq] at h
      exact absurd h.2.1.symm hcd
    | cons f b =>
      simp only [List.cons_append, List.cons.injEq] at h
      obtain ⟨rfl, rfl, -⟩ := h
      exact absurd ⟨[], b, rfl⟩ hb

/-- Texts that end at a delimiter of two characters end where it first stands. -/
private theorem delimited_inj (hcd : c ≠ d) (ha : ¬ [c, d] <:+: a) (hb : ¬ [c, d] <:+: b)
    (h : a ++ c :: d :: x = b ++ c :: d :: y) : a = b ∧ x = y := by
  induction a generalizing b with
  | nil =>
    obtain rfl := eq_nil_of_delimited hcd hb h
    exact ⟨rfl, by simpa using h⟩
  | cons e a ih =>
    cases b with
    | nil => exact absurd (eq_nil_of_delimited hcd ha h.symm) (by simp)
    | cons f b =>
      simp only [List.cons_append, List.cons.injEq] at h
      have ih := ih (fun hc => ha (List.infix_cons hc)) (fun hc => hb (List.infix_cons hc)) h.2
      exact ⟨by rw [h.1, ih.1], ih.2⟩

/-- Comments end at their first closing delimiter. -/
private theorem comment_inj (ha : ¬ ClosesComment a) (hb : ¬ ClosesComment b)
    (h : a ++ '*' :: '/' :: x = b ++ '*' :: '/' :: y) : a = b ∧ x = y :=
  delimited_inj (by decide) ha hb h

private theorem closes_split (h : ClosesComment a) :
    ∃ b x, a = b ++ '*' :: '/' :: x ∧ ¬ ClosesComment b := by
  induction a with
  | nil => simp [ClosesComment] at h
  | cons c a ih =>
    by_cases hp : ['*', '/'] <+: c :: a
    · obtain ⟨x, hx⟩ := hp
      exact ⟨[], x, by simpa using hx.symm, by simp [ClosesComment]⟩
    · obtain ⟨b, x, rfl, hb⟩ := ih ((List.infix_cons_iff.1 h).resolve_left hp)
      refine ⟨c :: b, x, rfl, fun hc => ?_⟩
      rcases List.infix_cons_iff.1 hc with hc | hc
      · exact hp (hc.trans (List.prefix_append (c :: b) ('*' :: '/' :: x)))
      · exact hb hc

end Delimiters

/-! ## Lines -/

private theorem newline_not_mem_stored {s : String} (h : Text.Stored s) : '\n' ∉ s.toList :=
  fun hn => h.ne_newline hn rfl

private theorem newline_not_mem_lead {name lead : String} (hn : NamePlain name)
    (hl : Text.Stored lead) : '\n' ∉ leadChars name lead := by
  rw [leadChars, List.mem_append, not_or]
  refine ⟨hn.2, ?_⟩
  split
  · simp
  · simpa using newline_not_mem_stored hl

/-- The name and the lead of an at-rule are told apart by the first space. -/
private theorem lead_inj {n₁ n₂ l₁ l₂ : String} (h₁ : NamePlain n₁) (h₂ : NamePlain n₂)
    (h : leadChars n₁ l₁ = leadChars n₂ l₂) : n₁ = n₂ ∧ l₁ = l₂ := by
  have hp {s : String} (hs : NamePlain s) : ∀ c ∈ s.toList, decide (c ≠ ' ') = true := by
    intro c hc
    have hne : c ≠ ' ' := by
      rintro rfl
      exact hs.1 hc
    simpa using hne
  have hhead (l : String) :
      ∀ c ∈ (if l = "" then [] else ' ' :: l.toList).head?, decide (c ≠ ' ') = false := by
    split <;> simp
  obtain ⟨hn, hl⟩ := Text.cut_inj (hp h₁) (hp h₂) (hhead l₁) (hhead l₂) h
  refine ⟨String.toList_inj.1 hn, ?_⟩
  by_cases e₁ : l₁ = "" <;> by_cases e₂ : l₂ = "" <;> simp [e₁, e₂] at hl ⊢
  exact String.toList_inj.1 hl

/-- What ends the line of a selector, when `ss` are the selectors after it. -/
private def selectorEnd (ss : List String) : List Char := if ss = [] then [' ', '\x7b'] else [',']

/-- The line of the first selector, and what follows it up to the contents `x` of the block. -/
private theorem selector_line (depth : Nat) (s : String) (ss : List String) (x : List Char) :
    selectorChars depth (s :: ss) ++ ' ' :: '\x7b' :: '\n' :: x =
      (s.toList ++ selectorEnd ss) ++ '\n' :: (if ss = [] then x
        else margin depth ++ (selectorChars depth ss ++ ' ' :: '\x7b' :: '\n' :: x)) := by
  cases ss with
  | nil => simp [selectorChars, selectorEnd]
  | cons t ss => simp [selectorChars, selectorEnd]

private theorem newline_not_mem_selector {s : String} (hs : Text.Stored s) (ss : List String) :
    '\n' ∉ s.toList ++ selectorEnd ss := by
  rw [List.mem_append, not_or]
  refine ⟨newline_not_mem_stored hs, ?_⟩
  unfold selectorEnd
  split <;> simp

/-- Lines of selectors up to the block are told apart. -/
private theorem selector_inj {depth : Nat} {ss₁ ss₂ : List String} {x y : List Char}
    (h₁ : ss₁ ≠ []) (h₂ : ss₂ ≠ []) (hs₁ : ∀ s ∈ ss₁, Text.Stored s)
    (hs₂ : ∀ s ∈ ss₂, Text.Stored s)
    (h : selectorChars depth ss₁ ++ ' ' :: '\x7b' :: '\n' :: x =
      selectorChars depth ss₂ ++ ' ' :: '\x7b' :: '\n' :: y) : ss₁ = ss₂ ∧ x = y := by
  induction ss₁ generalizing ss₂ with
  | nil => exact absurd rfl h₁
  | cons s ss₁ ih =>
    cases ss₂ with
    | nil => exact absurd rfl h₂
    | cons t ss₂ =>
      rw [selector_line, selector_line] at h
      obtain ⟨hline, hrest⟩ := line_inj (newline_not_mem_selector (hs₁ s (by simp)) ss₁)
        (newline_not_mem_selector (hs₂ t (by simp)) ss₂) h
      unfold selectorEnd at hline
      have hlast := congrArg List.getLast? hline
      by_cases e₁ : ss₁ = []
      · by_cases e₂ : ss₂ = []
        · simp only [e₁, e₂, if_true] at hline hrest ⊢
          exact ⟨by rw [String.toList_inj.1 (List.append_cancel_right hline)], hrest⟩
        · simp [e₁, e₂] at hlast
      · by_cases e₂ : ss₂ = []
        · simp [e₁, e₂] at hlast
        · simp only [e₁, e₂, if_false] at hline hrest
          obtain ⟨hss, hxy⟩ := ih e₁ e₂ (fun u hu => hs₁ u (by simp [hu]))
            (fun u hu => hs₂ u (by simp [hu])) (List.append_cancel_left hrest)
          exact ⟨by rw [String.toList_inj.1 (List.append_cancel_right hline), hss], hxy⟩

/-! ## Declarations -/

/-- The line of a declaration without its margin and line break. -/
private theorem declaration_line (depth : Nat) (d : Declaration) (x : List Char) :
    d.chars depth ++ x =
      margin depth ++ ((d.property.toList ++ ':' :: ' ' :: (d.value.toList ++ [';'])) ++ '\n' :: x) := by
  simp [Declaration.chars]

private theorem newline_not_mem_declaration {d : Declaration} (hn : d.Normal) (hp : d.Plain) :
    '\n' ∉ d.property.toList ++ ':' :: ' ' :: (d.value.toList ++ [';']) := by
  have hv := newline_not_mem_stored hn.stored
  simp [hp.newline, hv]

private theorem declaration_inj {depth : Nat} {d₁ d₂ : Declaration} {x y : List Char}
    (hn₁ : d₁.Normal) (hn₂ : d₂.Normal) (hp₁ : d₁.Plain) (hp₂ : d₂.Plain)
    (h : d₁.chars depth ++ x = d₂.chars depth ++ y) :
    d₁.property = d₂.property ∧ d₁.value = d₂.value ∧ x = y := by
  rw [declaration_line, declaration_line] at h
  obtain ⟨hline, hrest⟩ := line_inj (newline_not_mem_declaration hn₁ hp₁)
    (newline_not_mem_declaration hn₂ hp₂) (List.append_cancel_left h)
  obtain ⟨hprop, hval⟩ := delimited_inj (by decide) hp₁.colon hp₂.colon hline
  refine ⟨String.toList_inj.1 hprop, ?_, hrest⟩
  exact String.toList_inj.1 (List.append_cancel_right hval)

/-- A text that does not go on with the line of a declaration. -/
private def NoDeclaration (depth : Nat) (x : List Char) : Prop :=
  ∀ d : Declaration, d.Normal → d.Plain → ∀ y, x ≠ d.chars depth ++ y

private theorem declarations_inj {depth : Nat} {ds₁ ds₂ : List Declaration} {x y : List Char}
    (hn₁ : ∀ d ∈ ds₁, d.Normal) (hn₂ : ∀ d ∈ ds₂, d.Normal) (hp₁ : ∀ d ∈ ds₁, d.Plain)
    (hp₂ : ∀ d ∈ ds₂, d.Plain) (hx : NoDeclaration depth x) (hy : NoDeclaration depth y)
    (h : ds₁.flatMap (·.chars depth) ++ x = ds₂.flatMap (·.chars depth) ++ y) :
    ds₁.map (·.mapLine fun _ => 0) = ds₂.map (·.mapLine fun _ => 0) ∧ x = y := by
  induction ds₁ generalizing ds₂ with
  | nil =>
    cases ds₂ with
    | nil => exact ⟨rfl, h⟩
    | cons d ds₂ =>
      rw [List.flatMap_cons, List.append_assoc] at h
      exact absurd h (hx d (hn₂ d (by simp)) (hp₂ d (by simp)) _)
  | cons d ds₁ ih =>
    cases ds₂ with
    | nil =>
      rw [List.flatMap_cons, List.append_assoc] at h
      exact absurd h.symm (hy d (hn₁ d (by simp)) (hp₁ d (by simp)) _)
    | cons e ds₂ =>
      rw [List.flatMap_cons, List.flatMap_cons, List.append_assoc, List.append_assoc] at h
      obtain ⟨hprop, hval, hrest⟩ := declaration_inj (hn₁ d (by simp)) (hn₂ e (by simp))
        (hp₁ d (by simp)) (hp₂ e (by simp)) h
      obtain ⟨hds, hxy⟩ := ih (fun c hc => hn₁ c (by simp [hc])) (fun c hc => hn₂ c (by simp [hc]))
        (fun c hc => hp₁ c (by simp [hc])) (fun c hc => hp₂ c (by simp [hc])) hrest
      exact ⟨by simp [Declaration.mapLine, hprop, hval] at hds ⊢; exact hds, hxy⟩

/-! ## Contents of blocks -/

/-- Rules of a list with a line break behind them. -/
private theorem ruleChars_cons (depth : Nat) (r : Rule) (rs : List Rule) (z : List Char) :
    ruleChars depth (r :: rs) ++ '\n' :: z = (r.text depth).toList ++
      '\n' :: (if rs = [] then z else '\n' :: (ruleChars depth rs ++ '\n' :: z)) := by
  cases rs <;> simp [ruleChars]

private theorem text_margin (depth : Nat) (r : Rule) :
    ∃ u, (r.text depth).toList = margin depth ++ u := by
  cases r with
  | style selectors ds rs line => exact ⟨_, toList_style ..⟩
  | atRule name lead body line => exact ⟨_, toList_atRule ..⟩
  | comment text line => exact ⟨_, toList_comment ..⟩

/-- A rule in a block does not look like a declaration: another character ends its first line, or it
starts with `@`. -/
private theorem rule_not_declaration {depth : Nat} {r : Rule} (hn : r.Normal .block)
    {z : List Char} : NoDeclaration depth ((r.text depth).toList ++ '\n' :: z) := by
  intro d hdn hdp y h
  rw [declaration_line] at h
  cases r with
  | style selectors ds rs line =>
    obtain ⟨hne, hsel, -⟩ := hn
    cases selectors with
    | nil => exact absurd rfl hne
    | cons s ss =>
      rw [toList_style, List.append_assoc, List.append_assoc, List.append_cancel_left_eq] at h
      simp only [List.cons_append] at h
      rw [selector_line] at h
      have hline := (line_inj (newline_not_mem_selector (hsel s (by simp)).stored ss)
        (newline_not_mem_declaration hdn hdp) h).1
      have hlast := congrArg List.getLast? hline
      have hsemi : (d.property.toList ++ ':' :: ' ' :: (d.value.toList ++ [';'])).getLast? =
          some ';' := by
        simp [List.getLast?_cons]
      rw [hsemi, selectorEnd] at hlast
      split at hlast <;> simp at hlast
  | atRule name lead body line =>
    rw [toList_atRule, List.append_assoc, List.append_cancel_left_eq] at h
    have hhead := hdp.head
    cases hd : d.property.toList with
    | nil => simp [hd] at h
    | cons c cs =>
      simp only [hd, List.cons_append, List.cons.injEq] at h
      simp [hd, ← h.1] at hhead
  | comment text line => exact absurd hn.1 (by simp)

/-- What follows the declarations of a block; `first` if there are none. -/
private def blockRest (depth : Nat) (first : Prop) [Decidable first] (rs : List Rule)
    (k : List Char) : List Char :=
  (if rs = [] then [] else (if first then [] else ['\n']) ++ (ruleChars (depth + 1) rs ++ ['\n'])) ++
    (margin depth ++ '\x7d' :: k)

private theorem blockChars_rest (depth : Nat) (ds : List Declaration) (rs : List Rule)
    (k : List Char) : blockChars depth ds rs ++ (margin depth ++ '\x7d' :: k) =
      ds.flatMap (·.chars (depth + 1)) ++ blockRest depth (ds = []) rs k := by
  simp [blockChars, blockRest]

private theorem noDeclaration_rest {depth : Nat} {first : Prop} [Decidable first] {rs : List Rule}
    (hn : Rule.AllNormal .block rs) (k : List Char) :
    NoDeclaration (depth + 1) (blockRest depth first rs k) := by
  intro d hdn hdp y h
  have h' := h
  rw [declaration_line, margin_succ] at h
  cases rs with
  | nil => simp [blockRest] at h
  | cons r rs =>
    by_cases hf : first
    · simp only [blockRest, reduceCtorEq, if_false, hf, if_true, List.nil_append,
        List.append_assoc, List.cons_append] at h'
      rw [ruleChars_cons] at h'
      exact rule_not_declaration hn.1 d hdn hdp y h'
    · cases depth <;> simp [blockRest, hf, margin, List.replicate_succ, Nat.mul_add] at h

/-- The rules of a list are determined by their text, which is followed by something other than a
blank line. -/
private def RulesInj (scope : Scope) (depth : Nat) (rs₁ : List Rule) : Prop :=
  ∀ rs₂ z₁ z₂, rs₁ ≠ [] → rs₂ ≠ [] → Rule.AllNormal scope rs₂ → Rule.AllPlain rs₂ →
    z₁.head? ≠ some '\n' → z₂.head? ≠ some '\n' →
    ruleChars depth rs₁ ++ '\n' :: z₁ = ruleChars depth rs₂ ++ '\n' :: z₂ →
    Rule.mapAllLines (fun _ => 0) rs₁ = Rule.mapAllLines (fun _ => 0) rs₂ ∧ z₁ = z₂

private theorem rest_head (depth : Nat) (k : List Char) :
    (margin depth ++ '\x7d' :: k).head? ≠ some '\n' := by
  cases depth <;> simp [margin, List.replicate_succ, Nat.mul_add]

/-- Only the rest of a block without rules starts with its closing bracket. -/
private theorem rest_ne_close {depth : Nat} {first : Prop} [Decidable first] (r : Rule)
    (rs : List Rule) (k x : List Char) :
    blockRest depth first (r :: rs) k ≠ margin depth ++ '\x7d' :: x := by
  intro h
  by_cases hf : first
  · obtain ⟨u, hu⟩ := text_margin (depth + 1) r
    simp only [blockRest, reduceCtorEq, if_false, hf, if_true, List.nil_append, List.append_assoc,
      List.cons_append] at h
    rw [ruleChars_cons, hu, margin_succ] at h
    simp at h
  · have hh := rest_head depth x
    rw [← h] at hh
    simp [blockRest, hf] at hh

private theorem rest_inj {scope : Scope} {depth : Nat} {first : Prop} [Decidable first]
    {rs₁ rs₂ : List Rule} {k₁ k₂ : List Char} (ih : RulesInj scope (depth + 1) rs₁)
    (hn : Rule.AllNormal scope rs₂) (hp : Rule.AllPlain rs₂)
    (h : blockRest depth first rs₁ k₁ = blockRest depth first rs₂ k₂) :
    Rule.mapAllLines (fun _ => 0) rs₁ = Rule.mapAllLines (fun _ => 0) rs₂ ∧ k₁ = k₂ := by
  cases rs₁ with
  | nil =>
    cases rs₂ with
    | nil => exact ⟨rfl, by simpa [blockRest] using h⟩
    | cons r rs => exact absurd h.symm (rest_ne_close r rs k₂ k₁)
  | cons r rs₁ =>
    cases rs₂ with
    | nil => exact absurd h (rest_ne_close r rs₁ k₁ k₂)
    | cons s rs₂ =>
      have h' : ruleChars (depth + 1) (r :: rs₁) ++ '\n' :: (margin depth ++ '\x7d' :: k₁) =
          ruleChars (depth + 1) (s :: rs₂) ++ '\n' :: (margin depth ++ '\x7d' :: k₂) := by
        simpa [blockRest] using h
      obtain ⟨hrs, hz⟩ := ih _ _ _ (by simp) (by simp) hn hp (rest_head depth k₁)
        (rest_head depth k₂) h'
      exact ⟨hrs, by simpa using hz⟩

/-- The contents of a block are determined by their text. -/
private theorem contents_inj {depth : Nat} {ds₁ ds₂ : List Declaration} {rs₁ rs₂ : List Rule}
    {k₁ k₂ : List Char} (hdn₁ : ∀ d ∈ ds₁, d.Normal) (hdn₂ : ∀ d ∈ ds₂, d.Normal)
    (hdp₁ : ∀ d ∈ ds₁, d.Plain) (hdp₂ : ∀ d ∈ ds₂, d.Plain) (hn₁ : Rule.AllNormal .block rs₁)
    (hn₂ : Rule.AllNormal .block rs₂) (hp₂ : Rule.AllPlain rs₂)
    (ih : RulesInj .block (depth + 1) rs₁)
    (h : blockChars depth ds₁ rs₁ ++ (margin depth ++ '\x7d' :: k₁) =
      blockChars depth ds₂ rs₂ ++ (margin depth ++ '\x7d' :: k₂)) :
    ds₁.map (·.mapLine fun _ => 0) = ds₂.map (·.mapLine fun _ => 0) ∧
      Rule.mapAllLines (fun _ => 0) rs₁ = Rule.mapAllLines (fun _ => 0) rs₂ ∧ k₁ = k₂ := by
  rw [blockChars_rest, blockChars_rest] at h
  obtain ⟨hds, hrest⟩ := declarations_inj hdn₁ hdn₂ hdp₁ hdp₂ (noDeclaration_rest hn₁ k₁)
    (noDeclaration_rest hn₂ k₂) h
  have hnil : ds₁ = [] ↔ ds₂ = [] := by
    have hl := congrArg List.length hds
    rw [List.length_map, List.length_map] at hl
    rw [← List.length_eq_zero_iff, ← List.length_eq_zero_iff, hl]
  have hrest' : blockRest depth (ds₁ = []) rs₁ k₁ = blockRest depth (ds₁ = []) rs₂ k₂ := by
    rw [hrest]
    simp only [blockRest, hnil]
  exact ⟨hds, rest_inj ih hn₂ hp₂ hrest'⟩

/-! ## Bodies of at-rules -/

/-- What ends the first line of an at-rule. -/
private def bodyEnd : AtBody → List Char
  | .none => [';']
  | _ => [' ', '\x7b']

/-- What follows the first line of an at-rule, when `x` follows the line on which it ends. -/
private def bodyRest (depth : Nat) (b : AtBody) (x : List Char) : List Char :=
  match b with
  | .none => x
  | b => blockChars depth b.held b.nested ++ (margin depth ++ '\x7d' :: '\n' :: x)

private theorem body_line (depth : Nat) (b : AtBody) (x : List Char) :
    (b.text depth).toList ++ '\n' :: x = bodyEnd b ++ '\n' :: bodyRest depth b x := by
  cases b with
  | none => simp [AtBody.text, bodyEnd, bodyRest]
  | rules items =>
    simp [AtBody.text, toList_blockText, bodyEnd, bodyRest, AtBody.held, AtBody.nested]
  | declarations items =>
    rw [AtBody.text, show ([] : List String) = Rule.texts (depth + 1) [] from rfl,
      toList_blockText]
    simp [bodyEnd, bodyRest, AtBody.held, AtBody.nested]
  | block ds rs =>
    simp [AtBody.text, toList_blockText, bodyEnd, bodyRest, AtBody.held, AtBody.nested]

/-- The scope of the rules right inside the block of an at-rule. -/
private def innerScope (scope : Scope) (cls : AtClass) : Scope :=
  if scope = .ruleList ∧ cls ≠ .declarations then .ruleList else .block

private theorem innerScope_eq_block {scope : Scope} {cls : AtClass} (h : ¬ scope.Groups cls) :
    innerScope scope cls = .block := if_neg h

/-- A body that is not read as a rule list is made of its declarations and its rules. -/
private theorem body_mapLines {scope : Scope} {cls : AtClass} {b : AtBody}
    (hg : ¬ scope.Groups cls) (hn : b.Normal scope cls) (hb : b ≠ .none) :
    b.mapLines (fun _ => 0) = Contents.body ⟨b.held.map (·.mapLine fun _ => 0),
      Rule.mapAllLines (fun _ => 0) b.nested, []⟩ := by
  have hne {rs : List Rule} (h : rs ≠ []) :
      (Rule.mapAllLines (fun _ => 0) rs).isEmpty = false := by
    cases rs with
    | nil => exact absurd rfl h
    | cons r rs => rfl
  cases b with
  | none => exact absurd rfl hb
  | rules items =>
    simp [AtBody.mapLines, Contents.body, AtBody.held, AtBody.nested, hne (hn.2 hg).1]
  | declarations items =>
    simp [AtBody.mapLines, Contents.body, AtBody.held, AtBody.nested, Rule.mapAllLines]
  | block ds rs =>
    obtain ⟨-, hds, hrs, -⟩ := hn
    simp [AtBody.mapLines, Contents.body, AtBody.held, AtBody.nested, hne hrs, hds]

private theorem body_parts {scope : Scope} {cls : AtClass} {b : AtBody} (hg : ¬ scope.Groups cls)
    (hn : b.Normal scope cls) (hp : b.Plain) : (∀ d ∈ b.held, d.Normal) ∧
      (∀ d ∈ b.held, d.Plain) ∧ Rule.AllNormal .block b.nested ∧ Rule.AllPlain b.nested := by
  cases b with
  | none => exact ⟨by simp [AtBody.held], by simp [AtBody.held], trivial, trivial⟩
  | rules items =>
    exact ⟨by simp [AtBody.held], by simp [AtBody.held], (hn.2 hg).2.1, hp⟩
  | declarations items => exact ⟨hn.2, hp, trivial, trivial⟩
  | block ds rs => exact ⟨hn.2.2.2.1, hp.1, hn.2.2.2.2.1, hp.2⟩

/-- The body of an at-rule is determined by its text. -/
private theorem body_inj {scope : Scope} {cls : AtClass} {depth : Nat} {b₁ b₂ : AtBody}
    {x₁ x₂ : List Char} (hn₁ : b₁.Normal scope cls) (hn₂ : b₂.Normal scope cls) (hp₁ : b₁.Plain)
    (hp₂ : b₂.Plain) (ih : RulesInj (innerScope scope cls) (depth + 1) b₁.nested)
    (hend : bodyEnd b₁ = bodyEnd b₂) (h : bodyRest depth b₁ x₁ = bodyRest depth b₂ x₂) :
    b₁.mapLines (fun _ => 0) = b₂.mapLines (fun _ => 0) ∧ x₁ = x₂ := by
  by_cases hb₁ : b₁ = .none
  · subst hb₁
    cases b₂ with
    | none => exact ⟨rfl, h⟩
    | _ => simp [bodyEnd] at hend
  · have hb₂ : b₂ ≠ .none := by
      rintro rfl
      cases b₁ with
      | none => exact hb₁ rfl
      | _ => simp [bodyEnd] at hend
    have hrest {b : AtBody} (hb : b ≠ .none) (x : List Char) : bodyRest depth b x =
        blockChars depth b.held b.nested ++ (margin depth ++ '\x7d' :: '\n' :: x) := by
      cases b with
      | none => exact absurd rfl hb
      | _ => rfl
    rw [hrest hb₁, hrest hb₂] at h
    by_cases hg : scope.Groups cls
    · rw [show innerScope scope cls = .ruleList from if_pos hg] at ih
      obtain ⟨rs₁, rfl⟩ : ∃ rs, b₁ = .rules rs := by
        cases b₁ with
        | none => exact absurd rfl hb₁
        | rules rs => exact ⟨rs, rfl⟩
        | declarations ds => exact absurd hg hn₁.1
        | block ds rs => exact absurd hg hn₁.1
      obtain ⟨rs₂, rfl⟩ : ∃ rs, b₂ = .rules rs := by
        cases b₂ with
        | none => exact absurd rfl hb₂
        | rules rs => exact ⟨rs, rfl⟩
        | declarations ds => exact absurd hg hn₂.1
        | block ds rs => exact absurd hg hn₂.1
      simp only [AtBody.held, AtBody.nested] at h ih
      rw [blockChars_rest, blockChars_rest] at h
      obtain ⟨hrs, hx⟩ := rest_inj ih (hn₂.1 hg) hp₂ h
      exact ⟨by rw [AtBody.mapLines, AtBody.mapLines, hrs], (List.cons.inj hx).2⟩
    · rw [innerScope_eq_block hg] at ih
      obtain ⟨hdn₁, hdp₁, hrn₁, -⟩ := body_parts hg hn₁ hp₁
      obtain ⟨hdn₂, hdp₂, hrn₂, hrp₂⟩ := body_parts hg hn₂ hp₂
      obtain ⟨hds, hrs, hx⟩ := contents_inj hdn₁ hdn₂ hdp₁ hdp₂ hrn₁ hrn₂ hrp₂ ih h
      refine ⟨?_, (List.cons.inj hx).2⟩
      rw [body_mapLines hg hn₁ hb₁, body_mapLines hg hn₂ hb₂, hds, hrs]

/-! ## Rules -/

/-- A rule is determined by its text, which ends its line. -/
private def RuleInj (scope : Scope) (depth : Nat) (r₁ : Rule) : Prop :=
  ∀ (r₂ : Rule) (x₁ x₂ : List Char), r₂.Normal scope → r₂.Plain →
    (r₁.text depth).toList ++ '\n' :: x₁ = (r₂.text depth).toList ++ '\n' :: x₂ →
    r₁.mapLines (fun _ => 0) = r₂.mapLines (fun _ => 0) ∧ x₁ = x₂

/-- The line of a selector is not the first line of an at-rule. -/
private theorem selector_ne_atRule {s name lead : String} {ss : List String} {b : AtBody}
    (hs : SelectorNormal s) (hp : SelectorPlain s) (hn : name ≠ "") (hnp : NamePlain name) :
    s.toList ++ selectorEnd ss ≠ '@' :: (leadChars name lead ++ bodyEnd b) := by
  intro h
  obtain ⟨c, cs, hc⟩ : ∃ c cs, name.toList = c :: cs := by
    cases hname : name.toList with
    | nil => exact absurd (String.toList_eq_nil_iff.1 hname) hn
    | cons c cs => exact ⟨c, cs, rfl⟩
  have hspace : c ≠ ' ' := by
    rintro rfl
    exact hnp.1 (by simp [hc])
  have hend : bodyEnd b ≠ [] := by
    cases b <;> simp [bodyEnd]
  rw [leadChars, hc] at h
  cases hl : s.toList with
  | nil => exact hs.ne (String.toList_eq_nil_iff.1 hl)
  | cons d u =>
    simp only [hl, List.cons_append, List.cons.injEq] at h
    obtain ⟨rfl, h⟩ := h
    cases u with
    | nil =>
      unfold selectorEnd at h
      split at h
      · exact hspace (List.cons.inj h).1.symm
      · simp [hend] at h
    | cons e u =>
      have he : e = c := (List.cons.inj h).1
      exact hspace (he ▸ hp e u hl)

/-- The text of a selector is not the text of a comment: if it starts like one, the comment in it
ends before the line does. -/
private theorem selector_ne_comment {s : String} {ss : List String} {text x y : List Char}
    (hs : SelectorNormal s) (ht : ¬ ClosesComment text) :
    (s.toList ++ selectorEnd ss) ++ '\n' :: y ≠ '/' :: '*' :: (text ++ '*' :: '/' :: '\n' :: x) := by
  intro h
  have hend : ∃ e es, selectorEnd ss = e :: es ∧ e ≠ '*' ∧ e ≠ '\n' := by
    unfold selectorEnd
    split
    · exact ⟨' ', _, rfl, by decide, by decide⟩
    · exact ⟨',', _, rfl, by decide, by decide⟩
  obtain ⟨e, es, hes, hstar, hbreak⟩ := hend
  rw [hes] at h
  cases hl : s.toList with
  | nil => exact hs.ne (String.toList_eq_nil_iff.1 hl)
  | cons c u =>
    cases u with
    | nil =>
      simp only [hl, List.cons_append, List.nil_append, List.cons.injEq] at h
      exact hstar h.2.1
    | cons d u =>
      simp only [hl, List.cons_append, List.cons.injEq] at h
      obtain ⟨rfl, rfl, h⟩ := h
      obtain ⟨b, w, rfl, hb⟩ := closes_split (hs.closes u hl)
      have h' : b ++ '*' :: '/' :: (w ++ e :: es ++ '\n' :: y) =
          text ++ '*' :: '/' :: '\n' :: x := by simpa using h
      obtain ⟨-, hw⟩ := comment_inj hb ht h'
      cases w with
      | nil => exact hbreak (List.cons.inj hw).1
      | cons f w =>
        obtain rfl : f = '\n' := (List.cons.inj hw).1
        exact newline_not_mem_stored hs.stored (by simp [hl])

/-- The first line of a style rule, and what follows it. -/
private theorem style_line (depth : Nat) (s : String) (ss : List String) (ds : List Declaration)
    (rs : List Rule) (line : Nat) (x : List Char) :
    ∃ y, ((Rule.style (s :: ss) ds rs line).text depth).toList ++ x =
      margin depth ++ ((s.toList ++ selectorEnd ss) ++ '\n' :: y) := by
  have htext : ((Rule.style (s :: ss) ds rs line).text depth).toList ++ x =
      margin depth ++ (selectorChars depth (s :: ss) ++ ' ' :: '\x7b' :: '\n' ::
        (blockChars depth ds rs ++ (margin depth ++ '\x7d' :: x))) := by
    simp [toList_style]
  exact ⟨_, htext.trans (congrArg _ (selector_line ..))⟩

/-- The first line of an at-rule, and what follows it. -/
private theorem atRule_line (depth : Nat) (name lead : String) (b : AtBody) (line : Nat)
    (x : List Char) : ((Rule.atRule name lead b line).text depth).toList ++ '\n' :: x =
      margin depth ++ ('@' :: (leadChars name lead ++ bodyEnd b) ++ '\n' :: bodyRest depth b x) := by
  rw [toList_atRule, List.append_assoc, List.cons_append, List.append_assoc, body_line]
  simp

private theorem comment_line (depth : Nat) (text : String) (line : Nat) (x : List Char) :
    ((Rule.comment text line).text depth).toList ++ '\n' :: x =
      margin depth ++ '/' :: '*' :: (text.toList ++ '*' :: '/' :: '\n' :: x) := by
  simp [toList_comment]

private theorem newline_not_mem_atRule {name lead : String} (hn : NamePlain name)
    (hl : Text.Stored lead) (b : AtBody) : '\n' ∉ '@' :: (leadChars name lead ++ bodyEnd b) := by
  have hb : '\n' ∉ bodyEnd b := by
    cases b <;> simp [bodyEnd]
  simp [newline_not_mem_lead hn hl, hb]

/-- Whether an at-rule has a block shows at the end of its first line. -/
private theorem bodyEnd_inj {b₁ b₂ : AtBody} {x y : List Char}
    (h : x ++ bodyEnd b₁ = y ++ bodyEnd b₂) : x = y ∧ bodyEnd b₁ = bodyEnd b₂ := by
  have hend (b : AtBody) : bodyEnd b = [';'] ∨ bodyEnd b = [' ', '\x7b'] := by
    cases b <;> simp [bodyEnd]
  have hlast := congrArg List.getLast? h
  rcases hend b₁ with e₁ | e₁ <;> rcases hend b₂ with e₂ | e₂ <;> simp [e₁, e₂] at hlast h ⊢
  · exact h
  · exact h

private theorem atRule_inj {scope : Scope} {depth : Nat} {name lead : String} {body : AtBody}
    {line : Nat} (hn : (Rule.atRule name lead body line).Normal scope)
    (hp : (Rule.atRule name lead body line).Plain)
    (ih : RulesInj (innerScope scope (AtClass.ofName name)) (depth + 1) body.nested) :
    RuleInj scope depth (.atRule name lead body line) := by
  intro r₂ x₁ x₂ hn₂ hp₂ h
  rw [atRule_line] at h
  cases r₂ with
  | style selectors ds rs line₂ =>
    obtain ⟨hne, hsel, -⟩ := hn₂
    cases selectors with
    | nil => exact absurd rfl hne
    | cons s ss =>
      obtain ⟨y, hy⟩ := style_line depth s ss ds rs line₂ ('\n' :: x₂)
      rw [hy] at h
      have hline := (line_inj (newline_not_mem_atRule hp.1 hn.2.1 body)
        (newline_not_mem_selector (hsel s (by simp)).stored ss) (List.append_cancel_left h)).1
      exact absurd hline.symm
        (selector_ne_atRule (hsel s (by simp)) (hp₂.1 s (by simp)) hn.1 hp.1)
  | atRule name₂ lead₂ body₂ line₂ =>
    rw [atRule_line] at h
    obtain ⟨hline, hrest⟩ := line_inj (newline_not_mem_atRule hp.1 hn.2.1 body)
      (newline_not_mem_atRule hp₂.1 hn₂.2.1 body₂) (List.append_cancel_left h)
    obtain ⟨hlead, hend⟩ := bodyEnd_inj (List.cons.inj hline).2
    obtain ⟨rfl, rfl⟩ := lead_inj hp.1 hp₂.1 hlead
    obtain ⟨hbody, hx⟩ := body_inj hn.2.2 hn₂.2.2 hp.2 hp₂.2 ih hend hrest
    exact ⟨by rw [Rule.mapLines, Rule.mapLines, hbody], hx⟩
  | comment text line₂ =>
    rw [comment_line] at h
    simp at h

private theorem comment_rule_inj {scope : Scope} {depth : Nat} {text : String} {line : Nat}
    (hn : (Rule.comment text line).Normal scope) : RuleInj scope depth (.comment text line) := by
  intro r₂ x₁ x₂ hn₂ hp₂ h
  rw [comment_line] at h
  cases r₂ with
  | style selectors ds rs line₂ =>
    obtain ⟨hne, hsel, -⟩ := hn₂
    cases selectors with
    | nil => exact absurd rfl hne
    | cons s ss =>
      obtain ⟨y, hy⟩ := style_line depth s ss ds rs line₂ ('\n' :: x₂)
      rw [hy] at h
      exact absurd (List.append_cancel_left h).symm (selector_ne_comment (hsel s (by simp)) hn.2)
  | atRule name₂ lead₂ body₂ line₂ =>
    rw [atRule_line] at h
    simp at h
  | comment text₂ line₂ =>
    rw [comment_line] at h
    obtain ⟨htext, hx⟩ :=
      comment_inj hn.2 hn₂.2 (List.cons.inj (List.cons.inj (List.append_cancel_left h)).2).2
    exact ⟨by rw [String.toList_inj.1 htext, Rule.mapLines, Rule.mapLines], (List.cons.inj hx).2⟩

private theorem style_inj {scope : Scope} {depth : Nat} {selectors : List String}
    {ds : List Declaration} {rs : List Rule} {line : Nat}
    (hn : (Rule.style selectors ds rs line).Normal scope)
    (hp : (Rule.style selectors ds rs line).Plain) (ih : RulesInj .block (depth + 1) rs) :
    RuleInj scope depth (.style selectors ds rs line) := by
  intro r₂ x₁ x₂ hn₂ hp₂ h
  obtain ⟨hne, hsel, hdn, hrn⟩ := hn
  cases hs : selectors with
  | nil => exact absurd hs hne
  | cons s ss =>
    subst hs
    obtain ⟨y, hy⟩ := style_line depth s ss ds rs line ('\n' :: x₁)
    cases r₂ with
    | style selectors₂ ds₂ rs₂ line₂ =>
      rw [toList_style, toList_style] at h
      obtain ⟨hne₂, hsel₂, hdn₂, hrn₂⟩ := hn₂
      have h' : selectorChars depth (s :: ss) ++
            ' ' :: '\x7b' :: '\n' :: (blockChars depth ds rs ++ (margin depth ++ '\x7d' :: '\n' :: x₁)) =
          selectorChars depth selectors₂ ++ ' ' :: '\x7b' :: '\n' ::
            (blockChars depth ds₂ rs₂ ++ (margin depth ++ '\x7d' :: '\n' :: x₂)) := by
        simpa using h
      obtain ⟨rfl, hrest⟩ := selector_inj hne hne₂ (fun t ht => (hsel t ht).stored)
        (fun t ht => (hsel₂ t ht).stored) h'
      obtain ⟨hds, hrs, hx⟩ :=
        contents_inj hdn hdn₂ hp.2.1 hp₂.2.1 hrn hrn₂ hp₂.2.2 ih hrest
      exact ⟨by rw [Rule.mapLines, Rule.mapLines, hds, hrs], (List.cons.inj hx).2⟩
    | atRule name₂ lead₂ body₂ line₂ =>
      rw [hy, atRule_line] at h
      have hline := (line_inj (newline_not_mem_selector (hsel s (by simp)).stored ss)
        (newline_not_mem_atRule hp₂.1 hn₂.2.1 body₂) (List.append_cancel_left h)).1
      exact absurd hline
        (selector_ne_atRule (hsel s (by simp)) (hp.1 s (by simp)) hn₂.1 hp₂.1)
    | comment text line₂ =>
      rw [hy, comment_line] at h
      exact absurd (List.append_cancel_left h) (selector_ne_comment (hsel s (by simp)) hn₂.2)

/-! ## Lists of rules -/

/-- A text without a blank line behind it is that of the last rule. -/
private theorem rules_inj_cons {scope : Scope} {depth : Nat} {r : Rule} {rs : List Rule}
    (hr : RuleInj scope depth r) (hrs : RulesInj scope depth rs) :
    RulesInj scope depth (r :: rs) := by
  intro rs₂ z₁ z₂ h₁ h₂ hn₂ hp₂ hz₁ hz₂ h
  cases rs₂ with
  | nil => exact absurd rfl h₂
  | cons r₂ rs₂ =>
    rw [ruleChars_cons, ruleChars_cons] at h
    obtain ⟨hrule, hrest⟩ := hr r₂ _ _ hn₂.1 hp₂.1 h
    rw [Rule.mapAllLines, Rule.mapAllLines, hrule]
    by_cases e₁ : rs = []
    · by_cases e₂ : rs₂ = []
      · simp only [e₁, e₂, if_true] at hrest ⊢
        exact ⟨trivial, hrest⟩
      · simp only [e₁, e₂, if_true, if_false] at hrest
        simp [hrest] at hz₁
    · by_cases e₂ : rs₂ = []
      · simp only [e₁, e₂, if_true, if_false] at hrest
        simp [← hrest] at hz₂
      · simp only [e₁, e₂, if_false] at hrest
        obtain ⟨hrules, hz⟩ := hrs rs₂ z₁ z₂ e₁ e₂ hn₂.2 hp₂.2 hz₁ hz₂ (List.cons.inj hrest).2
        exact ⟨by rw [hrules], hz⟩

private theorem rules_inj_nil (scope : Scope) (depth : Nat) : RulesInj scope depth [] :=
  fun _ _ _ h => absurd rfl h

mutual

private theorem rule_inj (scope : Scope) (depth : Nat) (r : Rule) (hn : r.Normal scope)
    (hp : r.Plain) : RuleInj scope depth r := by
  cases r with
  | style selectors ds rs line =>
    exact style_inj hn hp (rules_inj .block (depth + 1) rs hn.2.2.2 hp.2.2)
  | atRule name lead body line =>
    exact atRule_inj hn hp (nested_inj scope (AtClass.ofName name) (depth + 1) body hn.2.2 hp.2)
  | comment text line => exact comment_rule_inj hn

private theorem nested_inj (scope : Scope) (cls : AtClass) (depth : Nat) (b : AtBody)
    (hn : b.Normal scope cls) (hp : b.Plain) :
    RulesInj (innerScope scope cls) depth b.nested := by
  cases b with
  | none => exact rules_inj_nil _ depth
  | rules rs =>
    by_cases hg : scope.Groups cls
    · rw [show innerScope scope cls = .ruleList from if_pos hg]
      exact rules_inj .ruleList depth rs (hn.1 hg) hp
    · rw [innerScope_eq_block hg]
      exact rules_inj .block depth rs (hn.2 hg).2.1 hp
  | declarations ds => exact rules_inj_nil _ depth
  | block ds rs =>
    rw [innerScope_eq_block hn.1]
    exact rules_inj .block depth rs hn.2.2.2.2.1 hp.2

private theorem rules_inj (scope : Scope) (depth : Nat) (rs : List Rule)
    (hn : Rule.AllNormal scope rs) (hp : Rule.AllPlain rs) : RulesInj scope depth rs := by
  cases rs with
  | nil => exact rules_inj_nil scope depth
  | cons r rs =>
    exact rules_inj_cons (rule_inj scope depth r hn.1 hp.1)
      (rules_inj scope depth rs hn.2 hp.2)

end

/-! ## Sheets -/

/-- Sheets in normal form with plain names and equal canonical texts have the same rules. -/
private theorem rules_eq_of_normal {s₁ s₂ : Stylesheet} (hn₁ : s₁.Normal) (hn₂ : s₂.Normal)
    (hp₁ : s₁.Plain) (hp₂ : s₂.Plain) (h : s₁.canonical = s₂.canonical) :
    Rule.mapAllLines (fun _ => 0) s₁.rules = Rule.mapAllLines (fun _ => 0) s₂.rules := by
  have hc := congrArg String.toList h
  rw [toList_canonical, toList_canonical] at hc
  by_cases e₁ : s₁.rules = []
  · by_cases e₂ : s₂.rules = []
    · rw [e₁, e₂]
    · simp [e₁, e₂] at hc
  · by_cases e₂ : s₂.rules = []
    · simp [e₁, e₂] at hc
    · simp only [e₁, e₂, if_false] at hc
      exact (rules_inj .ruleList 0 s₁.rules hn₁ hp₁ s₂.rules [] [] e₁ e₂ hn₂ hp₂ (by simp)
        (by simp) hc).1

/-- Two parsed sheets with plain names and the same canonical text have the same rules, up to the
lines they start on. -/
theorem rules_eq_of_canonical_eq {css₁ css₂ : String} {s₁ s₂ : Stylesheet}
    (h₁ : Stylesheet.parse css₁ = .ok s₁) (h₂ : Stylesheet.parse css₂ = .ok s₂)
    (hp₁ : s₁.Plain) (hp₂ : s₂.Plain) (h : s₁.canonical = s₂.canonical) :
    Rule.mapAllLines (fun _ => 0) s₁.rules = Rule.mapAllLines (fun _ => 0) s₂.rules :=
  rules_eq_of_normal (normal_parse h₁) (normal_parse h₂) hp₁ hp₂ h

theorem rules_eq_of_spaces : ∃ s₁ s₂,
    Stylesheet.parse "@x y\x7ba,b\x7bc:d\x7d\x7d" = .ok s₁ ∧
      Stylesheet.parse "\n@x  y \x7b\n a ,\n b \x7b c : d ; \x7d \x7d" = .ok s₂ ∧
      s₁.Plain ∧ s₂.Plain ∧ s₁.canonical = s₂.canonical ∧
      Rule.mapAllLines (fun _ => 0) s₁.rules = Rule.mapAllLines (fun _ => 0) s₂.rules := by
  have h₁ : Stylesheet.parse "@x y\x7ba,b\x7bc:d\x7d\x7d" =
      .ok ⟨[.atRule "x" "y" (.rules [.style ["a", "b"] [⟨"c", "d", 1⟩] [] 1]) 1], []⟩ := by cbv
  have h₂ : Stylesheet.parse "\n@x  y \x7b\n a ,\n b \x7b c : d ; \x7d \x7d" =
      .ok ⟨[.atRule "x" "y" (.rules [.style ["a", "b"] [⟨"c", "d", 4⟩] [] 3]) 2], []⟩ := by cbv
  have hplain (l m n : Nat) : Stylesheet.Plain
      ⟨[.atRule "x" "y" (.rules [.style ["a", "b"] [⟨"c", "d", l⟩] [] m]) n], []⟩ := by
    have hd : (⟨"c", "d", l⟩ : Declaration).Plain :=
      ⟨show ¬ [':', ' '] <:+: "c".toList by decide, show '\n' ∉ "c".toList by decide,
        show "c".toList.head? ≠ some '@' by decide⟩
    simp [Stylesheet.Plain, Rule.AllPlain, Rule.Plain, AtBody.Plain, NamePlain, SelectorPlain, hd]
  exact ⟨_, _, h₁, h₂, hplain 1 1 1, hplain 4 3 2, by decide +kernel,
    rules_eq_of_canonical_eq h₁ h₂ (hplain 1 1 1) (hplain 4 3 2) (by decide +kernel)⟩

/-! ## Names that are not plain -/

/-- Two texts that are read without warnings into different rules with the same canonical text. -/
def Collide (css₁ css₂ : String) : Prop :=
  ∃ s₁ s₂, Stylesheet.parse css₁ = .ok s₁ ∧ Stylesheet.parse css₂ = .ok s₂ ∧
    s₁.warnings = [] ∧ s₂.warnings = [] ∧ s₁.canonical = s₂.canonical ∧
    Rule.mapAllLines (fun _ => 0) s₁.rules ≠ Rule.mapAllLines (fun _ => 0) s₂.rules

private theorem collide_colon : Collide "a\x7bb\\3a\\20 c:d\x7d" "a\x7bb:c: d\x7d" := by
  refine ⟨⟨[.style ["a"] [⟨"b: c", "d", 1⟩] [] 1], []⟩,
    ⟨[.style ["a"] [⟨"b", "c: d", 1⟩] [] 1], []⟩, by cbv, by cbv, rfl, rfl, by decide +kernel, ?_⟩
  simp [Rule.mapAllLines, Rule.mapLines, Declaration.mapLine]

private theorem collide_lines :
    Collide "a\x7bb\\20\\\x7b\\a\\20\\20\\\x7d\\a\\a\\20\\20\\@x\\20y:z\x7d"
      "a\x7bb\x7b\x7d@x y: z;\x7d" := by
  refine ⟨⟨[.style ["a"] [⟨"b \x7b\n  \x7d\n\n  @x y", "z", 1⟩] [] 1], []⟩,
    ⟨[.style ["a"] [] [.style ["b"] [] [] 1, .atRule "x" "y: z" .none 1] 1], []⟩,
    by cbv, by cbv, rfl, rfl, by decide +kernel, ?_⟩
  simp [Rule.mapAllLines, Rule.mapLines]

private theorem collide_property : Collide "a\x7b\\@x:y\x7d" "a\x7b@x\\: y;\x7d" := by
  refine ⟨⟨[.style ["a"] [⟨"@x", "y", 1⟩] [] 1], []⟩,
    ⟨[.style ["a"] [] [.atRule "x:" "y" .none 1] 1], []⟩, by cbv, by cbv, rfl, rfl,
    by decide +kernel, ?_⟩
  simp [Rule.mapAllLines, Rule.mapLines]

private theorem collide_name : Collide "@x\\ y z;" "@x y z;" := by
  refine ⟨⟨[.atRule "x y" "z" .none 1], []⟩, ⟨[.atRule "x" "y z" .none 1], []⟩,
    by cbv, by cbv, rfl, rfl, by decide +kernel, ?_⟩
  simp [Rule.mapAllLines, Rule.mapLines]

private theorem collide_names : Collide "@x\\;\\a\\a\\@y;" "@x;@y;" := by
  have hnodes : Css.Node.ofText "@x\\;\\a\\a\\@y;".toList =
      [.leaf ⟨.atKeyword "x;\n\n@y", "@x\\;\\a\\a\\@y".toList, 1⟩,
        .leaf ⟨.semicolon, [';'], 1⟩] := by cbv
  have hparse : Stylesheet.parse "@x\\;\\a\\a\\@y;" =
      .ok ⟨[.atRule "x;\n\n@y" "" .none 1], []⟩ := by
    rw [Stylesheet.parse, hnodes]
    cbv
  refine ⟨_, ⟨[.atRule "x" "" .none 1, .atRule "y" "" .none 1], []⟩, hparse, by cbv, rfl, rfl,
    by decide +kernel, ?_⟩
  simp [Rule.mapAllLines]

private theorem collide_selector : Collide ",@x\x7b\x7d" "@x\x7b\x7d" := by
  refine ⟨⟨[.style ["@x"] [] [] 1], []⟩, ⟨[.atRule "x" "" (.rules []) 1], []⟩,
    by cbv, by cbv, rfl, rfl, by decide +kernel, ?_⟩
  simp [Rule.mapAllLines, Rule.mapLines]

/-- Each of the conditions on names is needed: a colon with a space, a line feed and an `@` in a
property, a space and a line feed in the name of an at-rule, an `@` at the start of a selector. -/
theorem collide_not_plain :
    Collide "a\x7bb\\3a\\20 c:d\x7d" "a\x7bb:c: d\x7d" ∧
    Collide "a\x7bb\\20\\\x7b\\a\\20\\20\\\x7d\\a\\a\\20\\20\\@x\\20y:z\x7d"
      "a\x7bb\x7b\x7d@x y: z;\x7d" ∧
    Collide "a\x7b\\@x:y\x7d" "a\x7b@x\\: y;\x7d" ∧
    Collide "@x\\ y z;" "@x y z;" ∧
    Collide "@x\\;\\a\\a\\@y;" "@x;@y;" ∧
    Collide ",@x\x7b\x7d" "@x\x7b\x7d" :=
  ⟨collide_colon, collide_lines, collide_property, collide_name, collide_names, collide_selector⟩

end SheetDiff
