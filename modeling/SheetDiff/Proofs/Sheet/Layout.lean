import SheetDiff.Sheet.Canonical
import SheetDiff.Sheet.Parse

/-!
# The characters of a canonical text

The texts of rules as lists of characters, laid out from left to right: margins, the lines of
selectors and declarations, and the rules of a list with a blank line between them.
-/

namespace SheetDiff

/-- The blanks before a line of some depth. -/
def margin (depth : Nat) : List Char := List.replicate (2 * depth) ' '

@[simp] theorem toList_indent (depth : Nat) : (indent depth).toList = margin depth := by
  simp [indent, margin]

theorem margin_succ (depth : Nat) : margin (depth + 1) = margin depth ++ [' ', ' '] := by
  rw [margin, Nat.mul_add, ← List.replicate_append_replicate]
  rfl

/-! ## Parts of a rule -/

/-- The line of a declaration with its line break. -/
def Declaration.chars (depth : Nat) (d : Declaration) : List Char :=
  margin depth ++ (d.property.toList ++ ':' :: ' ' :: (d.value.toList ++ [';', '\n']))

/-- Selectors, each on a line of its own. -/
def selectorChars (depth : Nat) : List String → List Char
  | [] => []
  | [s] => s.toList
  | s :: ss => s.toList ++ ',' :: '\n' :: (margin depth ++ selectorChars depth ss)

/-- Rules with a blank line between them. -/
def ruleChars (depth : Nat) : List Rule → List Char
  | [] => []
  | [r] => (r.text depth).toList
  | r :: rs => (r.text depth).toList ++ '\n' :: '\n' :: ruleChars depth rs

/-- What stands between the lines of the brackets of a block. -/
def blockChars (depth : Nat) (declarations : List Declaration) (rules : List Rule) : List Char :=
  declarations.flatMap (·.chars (depth + 1)) ++
    if rules = [] then []
    else (if declarations = [] then [] else ['\n']) ++ (ruleChars (depth + 1) rules ++ ['\n'])

/-- The text of a block from the space before it to the bracket that closes it. -/
def bracedChars (depth : Nat) (ds : List Declaration) (rs : List Rule) : List Char :=
  ' ' :: '\x7b' :: '\n' :: (blockChars depth ds rs ++ (margin depth ++ ['\x7d']))

theorem ruleChars_append (depth : Nat) {rs ss : List Rule} (hr : rs ≠ []) (hs : ss ≠ []) :
    ruleChars depth (rs ++ ss) = ruleChars depth rs ++ '\n' :: '\n' :: ruleChars depth ss := by
  induction rs with
  | nil => exact absurd rfl hr
  | cons r rs ih =>
    cases rs with
    | nil =>
      cases ss with
      | nil => exact absurd rfl hs
      | cons s ss => rfl
    | cons r' rs =>
      have hstep (xs : List Rule) : ruleChars depth (r :: r' :: xs) =
          (r.text depth).toList ++ '\n' :: '\n' :: ruleChars depth (r' :: xs) := rfl
      have ih := ih (by simp)
      rw [List.cons_append] at ih
      rw [List.cons_append, List.cons_append, hstep, ih, hstep]
      simp

/-! ## Texts -/

theorem toList_declaration (depth : Nat) (d : Declaration) :
    (d.text depth).toList = d.chars depth := by
  simp [Declaration.text, Declaration.chars]

theorem texts_eq_map (depth : Nat) (rs : List Rule) :
    Rule.texts depth rs = rs.map (·.text depth) := by
  induction rs with
  | nil => rfl
  | cons r rs ih => rw [Rule.texts, ih, List.map_cons]

private theorem toList_rules (depth : Nat) (rs : List Rule) :
    ("\n\n".intercalate (Rule.texts depth rs)).toList = ruleChars depth rs := by
  rw [texts_eq_map]
  induction rs with
  | nil => simp [ruleChars]
  | cons r rs ih =>
    cases rs with
    | nil => simp [ruleChars]
    | cons s rs =>
      rw [List.map_cons] at ih
      rw [List.map_cons, List.map_cons, String.intercalate_cons_cons, String.toList_append,
        String.toList_append, ih]
      simp [ruleChars]

theorem toList_blockText (depth : Nat) (ds : List Declaration) (rs : List Rule) :
    (blockText depth ds (Rule.texts (depth + 1) rs)).toList =
      ' ' :: '\x7b' :: '\n' :: (blockChars depth ds rs ++ (margin depth ++ ['\x7d'])) := by
  have hd : (String.join (ds.map (·.text (depth + 1)))).toList =
      ds.flatMap (·.chars (depth + 1)) := by
    rw [String.toList_join, List.flatMap_map]
    simp only [toList_declaration]
  have hr : (Rule.texts (depth + 1) rs).isEmpty = decide (rs = []) := by
    cases rs <;> simp [Rule.texts]
  rw [blockText, hr]
  simp only [String.toList_append, hd, blockChars, toList_indent]
  by_cases hrs : rs = []
  · simp [hrs]
  · have hrl := toList_rules (depth + 1) rs
    rw [String.toList_intercalate] at hrl
    by_cases hds : ds = []
    · simp [hrs, hds, ← hrl]
    · simp [hrs, hds, ← hrl]

theorem toList_style (depth : Nat) (selectors : List String) (ds : List Declaration)
    (rs : List Rule) (line : Nat) :
    ((Rule.style selectors ds rs line).text depth).toList =
      margin depth ++ (selectorChars depth selectors ++
        ' ' :: '\x7b' :: '\n' :: (blockChars depth ds rs ++ (margin depth ++ ['\x7d']))) := by
  have hs : ((",\n" ++ indent depth).intercalate selectors).toList =
      selectorChars depth selectors := by
    induction selectors with
    | nil => simp [selectorChars]
    | cons s ss ih =>
      cases ss with
      | nil => simp [selectorChars]
      | cons t ss =>
        rw [String.intercalate_cons_cons, String.toList_append, ih]
        simp [selectorChars]
  simp [Rule.text, hs, toList_blockText]

/-- The text of a body that holds the contents of a block. -/
theorem toList_body (depth : Nat) (c : Contents) :
    (c.body.text depth).toList = bracedChars depth c.declarations c.rules := by
  unfold Contents.body
  split
  · rename_i hr
    rw [List.isEmpty_iff.1 hr]
    exact toList_blockText depth c.declarations []
  · split
    · rename_i hd
      rw [List.isEmpty_iff.1 hd]
      exact toList_blockText depth [] c.rules
    · exact toList_blockText depth c.declarations c.rules

/-- The name of an at-rule and its lead. -/
def leadChars (name lead : String) : List Char :=
  name.toList ++ if lead = "" then [] else ' ' :: lead.toList

theorem toList_atRule (depth : Nat) (name lead : String) (body : AtBody) (line : Nat) :
    ((Rule.atRule name lead body line).text depth).toList =
      margin depth ++ '@' :: (leadChars name lead ++ (body.text depth).toList) := by
  rw [Rule.text, leadChars]
  by_cases h : lead = ""
  · simp [h]
  · simp [h, String.isEmpty_iff]

theorem toList_comment (depth : Nat) (text : String) (line : Nat) :
    ((Rule.comment text line).text depth).toList =
      margin depth ++ '/' :: '*' :: (text.toList ++ ['*', '/']) := by
  simp [Rule.text]

/-! ## Whole sheets -/

private theorem ruleChars_ne_nil (depth : Nat) (r : Rule) (rs : List Rule) :
    ruleChars depth (r :: rs) ≠ [] := by
  have hr : (r.text depth).toList ≠ [] := by
    cases r with
    | style selectors ds rs line => simp [toList_style]
    | atRule name lead body line => simp [toList_atRule]
    | comment text line => simp [toList_comment]
  cases rs <;> simp [ruleChars, hr]

theorem toList_canonical (s : Stylesheet) :
    s.canonical.toList = if s.rules = [] then [] else ruleChars 0 s.rules ++ ['\n'] := by
  rw [Stylesheet.canonical]
  cases hs : s.rules with
  | nil => simp [Rule.texts]
  | cons r rs =>
    have hne : ("\n\n".intercalate (Rule.texts 0 (r :: rs))).isEmpty = false := by
      rw [← Bool.not_eq_true, String.isEmpty_iff]
      intro h
      have := congrArg String.toList h
      rw [toList_rules] at this
      exact ruleChars_ne_nil 0 r rs this
    simp only [hne, Bool.false_eq_true, if_false, String.toList_append, toList_rules]
    simp

end SheetDiff
