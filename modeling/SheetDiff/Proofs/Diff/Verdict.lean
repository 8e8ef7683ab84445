import SheetDiff.Diff.Outcome
import SheetDiff.Proofs.Diff.Patch
import SheetDiff.Proofs.Sheet.Layout

/-!
# Verdicts

A comparison says that nothing changed if and only if its body is empty. The textual comparison says
so exactly of sheets with the same canonical text, and the structural one exactly of sheets with the
same number of rules and equal canonical texts at each position (`isUnchanged_verdicts`). Both rest on
what a body shows: every hunk has a line that is added or deleted (`exists_change_of_mem_hunks`), and
the kind of a change can be read off its text (`ofLine?_text`).
-/

namespace SheetDiff

open Diff

/-! ## Equal texts have no hunks -/

section Unchanged

variable {α : Type} [DecidableEq α]

private theorem commonPrefix_self (xs : List α) : commonPrefix xs xs = xs.length := by
  induction xs with
  | nil => rfl
  | cons x xs ih => rw [commonPrefix, if_pos rfl, ih, List.length_cons]

private theorem kind_of_mem_scriptFrom_self {i j : Nat} {xs : List α} {e : Edit}
    (h : e ∈ scriptFrom i j xs xs) : e.kind = .keep := by
  have hs : commonSuffix ([] : List α) [] = 0 := rfl
  rw [scriptFrom] at h
  simp only [commonPrefix_self, List.drop_length, hs, Nat.sub_self, slice, List.take_zero,
    List.isEmpty_nil, Bool.and_self, if_true, List.append_nil] at h
  split at h
  · simp at h
  · obtain rfl := List.mem_singleton.1 h
    rfl

/-- Edits of another kind are left where they are. -/
private theorem settleFrom_of_forall_ne {old new : List α} {kind : EditKind} (fuel : Nat)
    (before : List Edit) {es : List Edit} (h : ∀ e ∈ es, e.kind ≠ kind) :
    settleFrom old new kind fuel before es = before.reverse ++ es := by
  induction fuel generalizing before es with
  | zero => rfl
  | succ fuel ih =>
    cases es with
    | nil => rfl
    | cons e es =>
      rw [settleFrom, if_neg (h e (by simp)), ih _ fun d hd => h d (by simp [hd])]
      simp

private theorem compact_of_kept {old new : List α} {es : List Edit} (h : ∀ e ∈ es, e.kind = .keep) :
    compact old new es = es := by
  have hs (kind : EditKind) (hk : kind ≠ .keep) : settle old new kind es = es :=
    settleFrom_of_forall_ne _ [] fun e he heq => hk (heq.symm.trans (h e he))
  rw [compact, hs .delete (by decide), hs .insert (by decide)]

private theorem unchanged_sections {es : List Edit} (h : ∀ e ∈ es, e.kind = .keep) :
    ∀ s ∈ sections es, s.changed = false := by
  intro s hs
  obtain ⟨run, hrun, hr⟩ := List.mem_filterMap.1 hs
  cases run with
  | nil => simp [runSection?] at hr
  | cons e run =>
    have he : e ∈ (es.splitBy fun d e => decide ((d.kind = .keep) = (e.kind = .keep))).flatten :=
      List.mem_flatten.2 ⟨_, hrun, List.mem_cons_self⟩
    rw [List.flatten_splitBy] at he
    rw [runSection?, if_pos (h e he)] at hr
    obtain rfl := Option.some.inj hr
    rfl

end Unchanged

/-! ## Hunks show changes -/

section Hunks

variable {old new oldLabel newLabel : String} {context : Nat}

private theorem textLines_inj (h : textLines old = textLines new) : old = new := by
  rw [← join_textLines old, h, join_textLines]

theorem hunks_eq_nil_iff :
    (unifiedDiff old new oldLabel newLabel context).hunks = [] ↔ old = new := by
  constructor
  · intro h
    have ht := (turns_unifiedDiff old new oldLabel newLabel context).1
    rw [h] at ht
    generalize ho : textLines old = os at ht
    generalize hn : textLines new = ns at ht
    cases ht
    exact textLines_inj (ho.trans hn.symm)
  · rintro rfl
    have hkept : ∀ e ∈ script (textLines old) (textLines old), e.kind = .keep :=
      fun e he => kind_of_mem_scriptFrom_self he
    have hsections := unchanged_sections hkept
    simp only [unifiedDiff, lineSections]
    rw [compact_of_kept hkept, groups_of_unchanged hsections]
    rfl

/-- What holds of the hunks of a diff by their places holds of each. -/
private theorem Turns.placed_of_mem {placed : Hunk → HunkRange → Prop} {i j : Nat} {hs : List Hunk}
    {os ns : List String} (h : Turns placed i j hs os ns) {k : Hunk} (hk : k ∈ hs) :
    ∃ r, placed k r := by
  induction h with
  | rest => simp at hk
  | hunk shared ho hn hp ht ih =>
    rcases List.mem_cons.1 hk with rfl | hk
    · exact ⟨_, hp⟩
    · exact ih hk

/-- Every hunk shows a line that is added or deleted. -/
theorem exists_change_of_mem_hunks {k : Hunk}
    (hk : k ∈ (unifiedDiff old new oldLabel newLabel context).hunks) :
    ∃ l ∈ k.lines, l.kind ≠ .context := by
  have ht : Turns (fun k _ => ∃ l ∈ k.lines, l.kind ≠ .context) 0 0
      (unifiedDiff old new oldLabel newLabel context).hunks (textLines old) (textLines new) := by
    refine turns_hunks oldLabel newLabel context fun g a q hg hc _ _ k hk => ?_
    obtain ⟨s, hs, hchanged⟩ := List.any_eq_true.1 hc
    obtain ⟨b, c, hleads⟩ := hg.leads_of_mem hs
    obtain ⟨hne, hkind⟩ := changed_sectionLines hleads hchanged
    obtain ⟨l, ls, hl⟩ := List.exists_cons_of_ne_nil hne
    refine ⟨l, ?_, hkind l (by simp [hl])⟩
    rw [lines_of_ofGroup? hk]
    exact List.mem_flatMap.2 ⟨s, hs, by simp [hl]⟩
  obtain ⟨r, h⟩ := ht.placed_of_mem hk
  exact h

theorem body_eq_nil_iff (d : UnifiedDiff) : d.body = [] ↔ d.hunks = [] := by
  rw [UnifiedDiff.body, List.flatMap_eq_nil_iff, List.eq_nil_iff_forall_not_mem]
  simp [Hunk.texts]

/-- A line that is added or deleted starts with the mark that is counted. -/
theorem head_text (l : HunkLine) : l.text.toList.head? = some l.kind.mark := by
  simp [HunkLine.text, Char.toString]

/-- Hunks that show a change are counted. -/
private theorem isUnchanged_summary_iff {d : UnifiedDiff}
    (h : ∀ k ∈ d.hunks, ∃ l ∈ k.lines, l.kind ≠ .context) :
    d.summary.isUnchanged = true ↔ d.body = [] := by
  constructor
  · intro hu
    simp only [UnifiedDiff.summary, Summary.isUnchanged, Summary.ofPatchLines, Option.getD_none,
      decide_true, Bool.and_true, Bool.and_eq_true, decide_eq_true_eq, List.countP_eq_zero] at hu
    refine (body_eq_nil_iff d).2 (List.eq_nil_iff_forall_not_mem.2 fun k hk => ?_)
    obtain ⟨l, hl, hkind⟩ := h k hk
    have hmem : l.text ∈ d.body :=
      List.mem_flatMap.2 ⟨k, hk, List.mem_cons_of_mem _ (List.mem_map_of_mem hl)⟩
    have hadded := hu.1 _ hmem
    have hremoved := hu.2 _ hmem
    rw [head_text] at hadded hremoved
    cases hlk : l.kind with
    | context => exact hkind hlk
    | addition => exact hadded (by rw [hlk]; rfl)
    | deletion => exact hremoved (by rw [hlk]; rfl)
  · intro hb
    rw [UnifiedDiff.summary, hb]
    rfl

end Hunks

/-! ## Changes of rules -/

/-- The kind of a change is read off its text, whatever its label. -/
theorem ofLine?_text (c : RuleChange) : ChangeKind.ofLine? c.text = some c.kind := by
  have hs (kind : ChangeKind) : kind.starts c.text = decide (kind = c.kind) := by
    have htext : c.text.toList = c.kind.word.toList ++ ':' :: ' ' :: c.label.toList := by
      simp [RuleChange.text]
    rw [ChangeKind.starts, htext]
    cases kind <;> cases c.kind <;> simp [ChangeKind.word, List.isPrefixOf]
  unfold ChangeKind.ofLine?
  cases hk : c.kind <;> simp [hs, hk]

private theorem isUnchanged_ofDetailLines_iff (cs : List RuleChange) :
    (Summary.ofDetailLines (cs.map RuleChange.text)).isUnchanged = true ↔ cs = [] := by
  constructor
  · intro h
    cases cs with
    | nil => rfl
    | cons c cs =>
      simp only [Summary.isUnchanged, Summary.ofDetailLines, Option.getD_some, Bool.and_eq_true,
        decide_eq_true_eq, List.countP_eq_zero] at h
      obtain ⟨⟨hadded, hremoved⟩, hmodified⟩ := h
      have hmem : c.text ∈ (c :: cs).map RuleChange.text := by simp
      have hline := ofLine?_text c
      cases hk : c.kind with
      | added => exact absurd (by simp [hline, hk]) (hadded _ hmem)
      | removed => exact absurd (by simp [hline, hk]) (hremoved _ hmem)
      | modified => exact absurd (by simp [hline, hk]) (hmodified _ hmem)
  · rintro rfl
    rfl

/-- Two lists of rules of the same length with equal canonical texts at each position. -/
def SameRules (old new : List Rule) : Prop :=
  List.Forall₂ (fun o n => o.canonical = n.canonical) old new

theorem ruleChangesFrom_eq_nil_iff (index : Nat) (old new : List Rule) :
    ruleChangesFrom index old new = [] ↔ SameRules old new := by
  fun_induction ruleChangesFrom index old new with
  | case1 index new => cases new <;> simp [SameRules]
  | case2 index old h => cases old <;> simp_all [SameRules]
  | case3 index o old n new ih =>
    rw [SameRules, List.forall₂_cons, List.append_eq_nil_iff, ih]
    split <;> simp_all [SameRules]

/-- Sheets with the same rules have the same canonical text. -/
theorem canonical_eq_of_sameRules {old new : Stylesheet} (h : SameRules old.rules new.rules) :
    old.canonical = new.canonical := by
  have ht : Rule.texts 0 old.rules = Rule.texts 0 new.rules := by
    rw [texts_eq_map, texts_eq_map]
    generalize old.rules = os at h
    generalize new.rules = ns at h
    induction h with
    | nil => rfl
    | cons hr _ ih => exact congrArg₂ List.cons hr ih
  simp only [Stylesheet.canonical, ht]

/-! ## Verdicts -/

section Verdicts

variable (old new : Side) (context : Nat)

theorem isUnchanged_textual_iff : (Outcome.textual old new context).summary.isUnchanged = true ↔
    (Outcome.textual old new context).body = [] :=
  isUnchanged_summary_iff fun _ hk => exists_change_of_mem_hunks hk

theorem body_textual_eq_nil_iff : (Outcome.textual old new context).body = [] ↔
    old.sheet.canonical = new.sheet.canonical :=
  (body_eq_nil_iff _).trans hunks_eq_nil_iff

theorem body_structural_eq_nil_iff : (Outcome.structural old new).body = [] ↔
    SameRules old.sheet.rules new.sheet.rules :=
  List.map_eq_nil_iff.trans (ruleChangesFrom_eq_nil_iff 0 _ _)

theorem isUnchanged_structural_iff : (Outcome.structural old new).summary.isUnchanged = true ↔
    (Outcome.structural old new).body = [] :=
  (isUnchanged_ofDetailLines_iff _).trans List.map_eq_nil_iff.symm

/-- Neither comparison reports a change between sheets with the same rules. -/
theorem isUnchanged_of_sameRules (h : SameRules old.sheet.rules new.sheet.rules) :
    (Outcome.textual old new context).summary.isUnchanged = true ∧
      (Outcome.structural old new).summary.isUnchanged = true := by
  constructor
  · apply (isUnchanged_textual_iff old new context).2
    exact (body_textual_eq_nil_iff old new context).2 (canonical_eq_of_sameRules h)
  · apply (isUnchanged_structural_iff old new).2
    exact (body_structural_eq_nil_iff old new).2 h

end Verdicts

/-- Both comparisons report no change exactly where they show none: the textual one where the
canonical texts are equal, the structural one where the rules are, position by position. A structural
verdict of no change implies the textual one. -/
theorem isUnchanged_verdicts (old new : Side) (context : Nat) :
    ((Outcome.textual old new context).summary.isUnchanged = true ↔
        (Outcome.textual old new context).body = []) ∧
      ((Outcome.textual old new context).body = [] ↔ old.sheet.canonical = new.sheet.canonical) ∧
      ((Outcome.structural old new).summary.isUnchanged = true ↔
        (Outcome.structural old new).body = []) ∧
      ((Outcome.structural old new).body = [] ↔ SameRules old.sheet.rules new.sheet.rules) ∧
      ((Outcome.structural old new).summary.isUnchanged = true →
        (Outcome.textual old new context).summary.isUnchanged = true) := by
  have hbody := body_structural_eq_nil_iff old new
  have hdetail := isUnchanged_structural_iff old new
  refine ⟨isUnchanged_textual_iff .., body_textual_eq_nil_iff .., hdetail, hbody, fun h => ?_⟩
  exact (isUnchanged_of_sameRules old new context (hbody.1 (hdetail.1 h))).1

end SheetDiff
