import Mathlib.Tactic.Abel
import SheetDiff.Proofs.Css.Tally
import SheetDiff.Proofs.Sheet.Layout
import SheetDiff.Proofs.Sheet.Unlined

/-!
# Tallies of canonical texts

The canonical text of declarations and rules adds the same tally to a text wherever it stands and
however deep (`DeclarationsWeigh`, `RulesWeigh`). It is put together from the tallies of names,
values, selectors and leads (`rulesWeigh_style`, `rulesWeigh_atRule`), so that contents weigh what
their parts weigh (`Contents.Weighs.append`).
-/

namespace SheetDiff

open Css (Blanks Stops Token isBlank tally textTally)

variable {p q : List Char} {M N : Multiset Token} {ds es : List Declaration} {rs ss : List Rule}
variable {c d : Contents}

/-- A text that adds a tally before any text that continues no token. -/
def Weighs (p : List Char) (M : Multiset Token) : Prop :=
  ∀ k, Stops k → textTally (p ++ k) = M + textTally k

/-- Declarations whose lines add a tally. -/
def DeclarationsWeigh (ds : List Declaration) (M : Multiset Token) : Prop :=
  ∀ depth k, textTally (ds.flatMap (·.chars depth) ++ k) = M + textTally k

/-- Rules whose texts add a tally. -/
def RulesWeigh (rs : List Rule) (M : Multiset Token) : Prop :=
  ∀ depth k, textTally (ruleChars depth rs ++ k) = M + textTally k

/-- The contents of a block whose canonical text adds a tally. -/
def Contents.Weighs (c : Contents) (M : Multiset Token) : Prop :=
  ∃ D R, DeclarationsWeigh c.declarations D ∧ RulesWeigh c.rules R ∧ M = D + R

theorem textTally_newline (k : List Char) : textTally ('\n' :: k) = textTally k :=
  Css.textTally_blank (by decide) k

theorem textTally_space (k : List Char) : textTally (' ' :: k) = textTally k :=
  Css.textTally_blank (by decide) k

theorem textTally_margin (depth : Nat) (k : List Char) :
    textTally (margin depth ++ k) = textTally k := by
  apply Css.textTally_blanks
  intro c hc
  obtain rfl := List.eq_of_mem_replicate hc
  rfl

/-! ## Lists of declarations and rules -/

theorem declarationsWeigh_nil : DeclarationsWeigh [] 0 := by
  intro depth k
  simp

theorem rulesWeigh_nil : RulesWeigh [] 0 := by
  intro depth k
  simp [ruleChars]

theorem DeclarationsWeigh.append (hd : DeclarationsWeigh ds M) (he : DeclarationsWeigh es N) :
    DeclarationsWeigh (ds ++ es) (M + N) := by
  intro depth k
  rw [List.flatMap_append, List.append_assoc, hd, he, add_assoc]

theorem DeclarationsWeigh.eq_zero (h : DeclarationsWeigh [] M) : M = 0 := by
  have h₀ := h 0 []
  simpa using h₀.symm

theorem RulesWeigh.eq_zero (h : RulesWeigh [] M) : M = 0 := by
  have h₀ := h 0 []
  simpa [ruleChars] using h₀.symm

/-- A blank line between rules adds nothing. -/
theorem RulesWeigh.append (hr : RulesWeigh rs M) (hs : RulesWeigh ss N) :
    RulesWeigh (rs ++ ss) (M + N) := by
  cases rs with
  | nil =>
    obtain rfl := hr.eq_zero
    rwa [List.nil_append, zero_add]
  | cons r rs =>
    cases ss with
    | nil =>
      obtain rfl := hs.eq_zero
      rwa [List.append_nil, add_zero]
    | cons s ss =>
      intro depth k
      rw [ruleChars_append depth (by simp) (by simp), List.append_assoc, hr, List.cons_append,
        List.cons_append, textTally_newline, textTally_newline, hs, add_assoc]

theorem Contents.weighs_empty : Contents.empty.Weighs 0 :=
  ⟨0, 0, declarationsWeigh_nil, rulesWeigh_nil, rfl⟩

theorem Contents.Weighs.append (hc : c.Weighs M) (hd : d.Weighs N) :
    (c.append d).Weighs (M + N) := by
  obtain ⟨D, R, hD, hR, rfl⟩ := hc
  obtain ⟨D', R', hD', hR', rfl⟩ := hd
  exact ⟨D + D', R + R', hD.append hD', hR.append hR', add_add_add_comm ..⟩

/-! ## Declarations and comments -/

theorem stops_space (k : List Char) : Stops (' ' :: k) := Css.stops_cons (by decide) k
theorem stops_semicolon (k : List Char) : Stops (';' :: k) := Css.stops_cons (by decide) k
theorem stops_colon (k : List Char) : Stops (':' :: k) := Css.stops_cons (by decide) k
theorem stops_comma (k : List Char) : Stops (',' :: k) := Css.stops_cons (by decide) k

/-- The tally of a colon. -/
def colonTally : Multiset Token := tally [⟨.colon, [':'], 0⟩]

theorem declarationsWeigh_single {d : Declaration} (hp : Weighs d.property.toList M)
    (hv : Weighs d.value.toList N) : DeclarationsWeigh [d] (M + (colonTally + N)) := by
  intro depth k
  have hchars : [d].flatMap (·.chars depth) ++ k = margin depth ++ (d.property.toList ++
      ':' :: ' ' :: (d.value.toList ++ ';' :: '\n' :: k)) := by
    simp [Declaration.chars]
  rw [hchars, textTally_margin, hp _ (stops_colon _), Css.textTally_symbol Css.scan_colon,
    textTally_space, hv _ (stops_semicolon _), Css.textTally_semicolon, textTally_newline, colonTally,
    add_assoc, add_assoc]

theorem rulesWeigh_comment {text : String} (line : Nat) (h : ¬ Css.ClosesComment text.toList) :
    RulesWeigh [.comment text line] 0 := by
  intro depth k
  rw [ruleChars, toList_comment, List.append_assoc, textTally_margin, List.cons_append,
    List.cons_append, List.append_assoc, zero_add]
  exact Css.textTally_comment h k

/-! ## Blocks -/

/-- The tally of the brackets of a block in curly brackets. -/
def bracesTally : Multiset Token := tally [Css.openBrace] + tally [Css.closeBrace]

theorem textTally_block (hd : DeclarationsWeigh ds M) (hr : RulesWeigh rs N) (depth : Nat)
    (k : List Char) : textTally (blockChars depth ds rs ++ k) = M + N + textTally k := by
  rw [blockChars, List.append_assoc, hd, add_assoc]
  by_cases hrs : rs = []
  · subst hrs
    obtain rfl := hr.eq_zero
    simp
  · rw [if_neg hrs]
    by_cases hds : ds = []
    · rw [if_pos hds, List.nil_append, List.append_assoc, hr, List.singleton_append,
        textTally_newline]
    · rw [if_neg hds, List.singleton_append, List.cons_append, textTally_newline,
        List.append_assoc, hr, List.singleton_append, textTally_newline]

theorem stops_bracedChars (depth : Nat) (ds : List Declaration) (rs : List Rule) (k : List Char) :
    Stops (bracedChars depth ds rs ++ k) :=
  stops_space _

theorem textTally_braced (hd : DeclarationsWeigh ds M) (hr : RulesWeigh rs N) (depth : Nat)
    (k : List Char) :
    textTally (bracedChars depth ds rs ++ k) = bracesTally + (M + N) + textTally k := by
  have hchars : bracedChars depth ds rs ++ k = ' ' :: '\x7b' :: '\n' :: (blockChars depth ds rs ++
      (margin depth ++ '\x7d' :: k)) := by
    simp [bracedChars]
  rw [hchars, textTally_space, Css.textTally_symbol Css.scan_openBrace, textTally_newline,
    textTally_block hd hr, textTally_margin, Css.textTally_symbol Css.scan_closeBrace, bracesTally,
    Css.openBrace, Css.closeBrace]
  abel

/-! ## Style rules -/

theorem textTally_selectors {selectors : List String} {Ms : List (Multiset Token)}
    (h : List.Forall₂ (fun s M => Weighs s.toList M) selectors Ms) (depth : Nat) {k : List Char}
    (hk : Stops k) : textTally (selectorChars depth selectors ++ k) = Ms.sum + textTally k := by
  induction h with
  | nil => simp [selectorChars]
  | @cons s M selectors Ms hs hrest ih =>
    cases hrest with
    | nil => simpa [selectorChars] using hs k hk
    | @cons t N selectors Ms ht hrest =>
      have hstep : selectorChars depth (s :: t :: selectors) ++ k = s.toList ++ ',' :: '\n' ::
          (margin depth ++ (selectorChars depth (t :: selectors) ++ k)) := by
        simp [selectorChars]
      rw [hstep, hs _ (stops_comma _), Css.textTally_comma, textTally_newline, textTally_margin, ih,
        ← add_assoc, ← List.sum_cons]

theorem rulesWeigh_style {selectors : List String} {Ms : List (Multiset Token)}
    (h : List.Forall₂ (fun s M => Weighs s.toList M) selectors Ms) (hc : c.Weighs M) (line : Nat) :
    RulesWeigh [.style selectors c.declarations c.rules line] (Ms.sum + (bracesTally + M)) := by
  obtain ⟨D, R, hD, hR, rfl⟩ := hc
  intro depth k
  have hchars : ruleChars depth [.style selectors c.declarations c.rules line] ++ k =
      margin depth ++ (selectorChars depth selectors ++
        (bracedChars depth c.declarations c.rules ++ k)) := by
    rw [ruleChars, toList_style]
    simp [bracedChars]
  rw [hchars, textTally_margin, textTally_selectors h depth (stops_bracedChars _ _ _ _),
    textTally_braced hD hR]
  abel

/-! ## At-rules -/

/-- A body whose text adds a tally behind the lead of its rule. -/
structure AtBody.Weighs (b : AtBody) (M : Multiset Token) : Prop where
  stops : ∀ depth k, Stops ((b.text depth).toList ++ k)
  tally : ∀ depth k, textTally ((b.text depth).toList ++ k) = M + textTally k

theorem AtBody.weighs_none : AtBody.none.Weighs 0 := by
  have htext (depth : Nat) : (AtBody.none.text depth).toList = [';'] := by simp [AtBody.text]
  constructor
  · intro depth k
    rw [htext]
    exact stops_semicolon k
  · intro depth k
    rw [htext, zero_add]
    exact Css.textTally_semicolon k

private theorem weighs_of_braced {b : AtBody}
    (hb : ∀ depth, (b.text depth).toList = bracedChars depth ds rs)
    (hd : DeclarationsWeigh ds M) (hr : RulesWeigh rs N) : b.Weighs (bracesTally + (M + N)) := by
  constructor
  · intro depth k
    rw [hb]
    exact stops_bracedChars _ _ _ _
  · intro depth k
    rw [hb]
    exact textTally_braced hd hr depth k

theorem AtBody.weighs_rules (hr : RulesWeigh rs M) : (AtBody.rules rs).Weighs (bracesTally + M) := by
  have h := weighs_of_braced (b := .rules rs) (fun depth => toList_blockText depth [] rs)
    declarationsWeigh_nil hr
  rwa [zero_add] at h

/-- The body of contents without declarations, written as rules. -/
theorem Contents.Weighs.ruleBody (h : c.Weighs M) (hd : c.declarations = []) :
    (AtBody.rules c.rules).Weighs (bracesTally + M) := by
  obtain ⟨D, R, hD, hR, rfl⟩ := h
  rw [hd] at hD
  rw [hD.eq_zero, zero_add]
  exact AtBody.weighs_rules hR

theorem Contents.Weighs.body (h : c.Weighs M) : c.body.Weighs (bracesTally + M) := by
  obtain ⟨D, R, hD, hR, rfl⟩ := h
  exact weighs_of_braced (fun depth => toList_body depth c) hD hR

theorem rulesWeigh_atRule {name lead : String} {body : AtBody} {L B : Multiset Token}
    (hn : Weighs ('@' :: name.toList) M) (hl : Weighs lead.toList L) (hb : body.Weighs B)
    (line : Nat) : RulesWeigh [.atRule name lead body line] (M + (L + B)) := by
  intro depth k
  have hstops := hb.stops depth k
  have hchars : ruleChars depth [.atRule name lead body line] ++ k = margin depth ++
      ('@' :: name.toList ++ ((if lead = "" then [] else ' ' :: lead.toList) ++
        ((body.text depth).toList ++ k))) := by
    rw [ruleChars, toList_atRule, leadChars]
    simp
  rw [hchars, textTally_margin]
  by_cases h : lead = ""
  · subst h
    have hzero : L = 0 := by simpa [textTally] using (hl [] Css.stops_nil).symm
    rw [if_pos rfl, List.nil_append, hn _ hstops, hb.tally, hzero, zero_add, add_assoc]
  · rw [if_neg h, List.cons_append (a := ' '), hn _ (stops_space _), textTally_space, hl _ hstops, hb.tally,
      add_assoc, add_assoc]

/-! ## Whole sheets -/

theorem textTally_canonical {s : Stylesheet} (h : RulesWeigh s.rules M) :
    textTally s.canonical.toList = M := by
  rw [toList_canonical]
  split
  · rename_i hs
    rw [hs] at h
    rw [h.eq_zero, Css.textTally_nil]
  · rw [h, textTally_newline, Css.textTally_nil, add_zero]

end SheetDiff
