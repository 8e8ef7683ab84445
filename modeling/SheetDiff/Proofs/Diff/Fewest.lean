import SheetDiff.Proofs.Diff.Shortest
import SheetDiff.Proofs.Diff.Verdict

/-!
# The fewest changed lines

A script keeps a longest common subsequence, and what is left of both lists is deleted and inserted
(`Path.lengths`). On the way from a script to the summary of a unified diff the deleted elements are
counted again and again: compaction moves edits but leaves their lengths (`lengthOf_compact`), and
sections, groups and hunks take each change over as a whole. The summary of a unified diff thus counts
the fewest lines that turn one text into the other (`summary_textual_fewest`).
-/

namespace SheetDiff

open Diff

namespace Diff

variable {α : Type} {old new : List α} {p q : Place} {kind : EditKind} {es : List Edit} {n : Nat}

/-! ## Scripts -/

/-- A path moves by what it keeps and deletes in the old list, and by what it keeps and inserts in the
new one. -/
theorem Path.lengths (h : Path (Edit.Leads old new) p es q) :
    q.old = p.old + lengthOf .keep es + lengthOf .delete es ∧
      q.new = p.new + lengthOf .keep es + lengthOf .insert es := by
  induction es generalizing p with
  | nil =>
    obtain rfl : p = q := h
    exact ⟨rfl, rfl⟩
  | cons e es ih =>
    obtain ⟨a, he, hes⟩ := h
    obtain ⟨ho, hn⟩ := ih hes
    have heo := he.old_end
    have hen := he.new_end
    simp only [lengthOf_cons]
    cases hk : e.kind <;>
      simp only [Edit.oldLength, Edit.newLength, hk, reduceCtorEq, if_true, if_false] at heo hen ⊢ <;>
      omega

/-- What a path keeps is a common subsequence. -/
theorem Path.exists_common (h : Path (Edit.Leads old new) p es q) :
    ∃ s, Common (old.drop p.old) (new.drop p.new) s ∧ s.length = lengthOf .keep es := by
  induction es generalizing p with
  | nil => exact ⟨[], ⟨List.nil_sublist _, List.nil_sublist _⟩, rfl⟩
  | cons e es ih =>
    obtain ⟨a, he, hes⟩ := h
    obtain ⟨s, ⟨hso, hsn⟩, hs⟩ := ih hes
    obtain ⟨_, i, j, m⟩ := e
    rename_i k
    cases k with
    | keep =>
      obtain ⟨-, rfl, rfl, rfl, hol, -, hslice⟩ := leads_keep_iff.1 he
      refine ⟨slice old p.old m ++ s, ⟨?_, ?_⟩, ?_⟩
      · have h := (List.Sublist.refl (slice old p.old m)).append hso
        rwa [← List.drop_drop, slice, List.take_append_drop] at h
      · have h := (List.Sublist.refl (slice new p.new m)).append hsn
        rw [← List.drop_drop, slice, List.take_append_drop] at h
        rwa [hslice]
      · rw [List.length_append, length_slice hol, hs]
        simp
    | delete =>
      obtain ⟨-, rfl, rfl, -⟩ := leads_delete_iff.1 he
      refine ⟨s, ⟨?_, hsn⟩, by simp [hs]⟩
      exact hso.trans (List.drop_sublist_drop_left old (Nat.le_add_right p.old m))
    | insert =>
      obtain ⟨-, rfl, rfl, -⟩ := leads_insert_iff.1 he
      refine ⟨s, ⟨hso, ?_⟩, by simp [hs]⟩
      exact hsn.trans (List.drop_sublist_drop_left new (Nat.le_add_right p.new m))

/-! ## Compaction -/

theorem lengthOf_reverse (kind : EditKind) (es : List Edit) :
    lengthOf kind es.reverse = lengthOf kind es := by
  induction es with
  | nil => rfl
  | cons e es ih => simp [ih, Nat.add_comm]

/-- Kept elements are not counted among the edits of another kind. -/
private theorem lengthOf_keepBefore (hk : kind ≠ .keep) (n i j : Nat) (es : List Edit) :
    lengthOf kind (keepBefore n i j es) = lengthOf kind es := by
  have hne : ¬ EditKind.keep = kind := fun h => hk h.symm
  unfold keepBefore
  split
  · rename_i e es
    split
    · rename_i he
      simp [Edit.resized, Edit.earlier, he, hne]
    · simp [hne]
  · simp [hne]

private theorem lengthOf_keepAfter (hk : kind ≠ .keep) (n i j : Nat) (es : List Edit) :
    lengthOf kind (keepAfter n i j es) = lengthOf kind es := by
  have hne : ¬ EditKind.keep = kind := fun h => hk h.symm
  unfold keepAfter
  split
  · rename_i e es
    split
    · rename_i he
      simp [Edit.resized, he, hne]
    · simp [hne]
  · simp [hne]

/-- What the edits of a cursor delete or insert. -/
private theorem lengthOf_edits (kind : EditKind) (c : Cursor) :
    lengthOf kind c.edits = lengthOf kind c.before +
      (if c.edit.kind = kind then c.edit.length else 0) + lengthOf kind c.after := by
  rw [Cursor.edits, lengthOf_append, lengthOf_reverse, lengthOf_cons, Nat.add_assoc]

variable [DecidableEq α]

theorem lengthOf_up (hk : kind ≠ .keep) (before : List Edit) (edit : Edit) (after : List Edit) :
    lengthOf kind (Cursor.up old new before edit after).edits =
      lengthOf kind (Cursor.edits ⟨before, edit, after⟩) := by
  have hne : ¬ EditKind.keep = kind := fun h => hk h.symm
  fun_induction Cursor.up old new before edit after with
  | case1 edit after => rfl
  | case2 edit after e es he ih =>
    refine ih.trans ?_
    simp only [lengthOf_edits, lengthOf_cons, Edit.resized, he]
    split <;> omega
  | case3 edit after e es hek he n hn after' hle ih =>
    refine ih.trans ?_
    simp only [lengthOf_edits, after', lengthOf_keepBefore hk, lengthOf_cons, Edit.earlier, he,
      if_neg hne, Nat.zero_add]
  | case4 edit after e es hek he n hn after' hle ih =>
    refine ih.trans ?_
    simp only [lengthOf_edits, after', lengthOf_keepBefore hk, lengthOf_cons, Edit.earlier,
      Edit.resized, he, if_neg hne, Nat.zero_add]
  | case5 edit after e es hek he n hn h0 ih =>
    rw [ih, lengthOf_edits, lengthOf_edits, lengthOf_cons, he, if_neg hne, Nat.zero_add]
  | case6 => rfl
  | case7 edit after e es hek he ih =>
    refine ih.trans ?_
    simp only [lengthOf_edits, lengthOf_cons]
    omega

theorem lengthOf_down (hk : kind ≠ .keep) (before : List Edit) (edit : Edit) (after : List Edit) :
    lengthOf kind (Cursor.down old new before edit after).edits =
      lengthOf kind (Cursor.edits ⟨before, edit, after⟩) := by
  have hne : ¬ EditKind.keep = kind := fun h => hk h.symm
  fun_induction Cursor.down old new before edit after with
  | case1 before edit => rfl
  | case2 before edit e es he ih =>
    refine ih.trans ?_
    simp only [lengthOf_edits, lengthOf_cons, Edit.resized, he]
    split <;> omega
  | case3 before edit e es hek he n hn before' hle ih =>
    refine ih.trans ?_
    simp only [lengthOf_edits, before', lengthOf_keepAfter hk, lengthOf_cons, Edit.later, he,
      if_neg hne, Nat.zero_add]
  | case4 before edit e es hek he n hn before' hle ih =>
    refine ih.trans ?_
    simp only [lengthOf_edits, before', lengthOf_keepAfter hk, lengthOf_cons, Edit.later,
      Edit.resized, he, if_neg hne, Nat.zero_add]
  | case5 before edit e es hek he n hn h0 ih =>
    rw [ih, lengthOf_edits, lengthOf_edits, lengthOf_cons, he, if_neg hne, Nat.zero_add]
  | case6 => rfl
  | case7 before edit e es hek he ih =>
    refine ih.trans ?_
    simp only [lengthOf_edits, lengthOf_cons]
    omega

private theorem lengthOf_settleFrom (hk : kind ≠ .keep) (moved : EditKind) (fuel : Nat)
    (before es : List Edit) :
    lengthOf kind (settleFrom old new moved fuel before es) =
      lengthOf kind before + lengthOf kind es := by
  fun_induction settleFrom old new moved fuel before es with
  | case1 fuel before e es he raised settled ih =>
    have hup : lengthOf kind raised.edits = lengthOf kind (Cursor.edits ⟨before, e, es⟩) :=
      lengthOf_up hk before e es
    have hsettled : lengthOf kind settled.edits = lengthOf kind raised.edits :=
      lengthOf_down hk raised.before raised.edit raised.after
    rw [hup, lengthOf_edits, lengthOf_edits] at hsettled
    rw [ih, lengthOf_cons, lengthOf_cons]
    simp only at hsettled
    omega
  | case2 fuel before e es he ih =>
    rw [ih, lengthOf_cons, lengthOf_cons]
    omega
  | case3 => rw [lengthOf_append, lengthOf_reverse]

/-- Compaction changes neither how much is deleted nor how much is inserted. -/
theorem lengthOf_compact (hk : kind ≠ .keep) (es : List Edit) :
    lengthOf kind (compact old new es) = lengthOf kind es := by
  simp only [compact, settle, lengthOf_settleFrom hk, lengthOf_nil, Nat.zero_add]

/-- What a compacted script deletes and what it keeps of the old list, which is a longest common
subsequence. -/
theorem exists_longestCommon_compact (old new : List α) :
    ∃ n, LongestCommon old new n ∧
      lengthOf .delete (compact old new (script old new)) + n = old.length := by
  have hpath := path_script old new
  obtain ⟨s, hs, hlen⟩ := hpath.exists_common
  have hkept : LongestCommon old new (lengthOf .keep (script old new)) :=
    ⟨⟨s, hs, hlen⟩, fun t ht => length_le_kept_script ht⟩
  refine ⟨_, hkept, ?_⟩
  rw [lengthOf_compact (by decide)]
  have htotal := hpath.lengths.1
  simp only [Place.bottom, Place.top] at htotal
  omega

/-! ## Sections and groups -/

/-- The number of elements that a section deletes. -/
def Section.deleted (s : Section) : Nat := if s.changed then s.old.length else 0

/-- The number of elements that several sections delete. -/
def deletedIn (ss : List Section) : Nat := (ss.map Section.deleted).sum

omit [DecidableEq α] in
@[simp] theorem deletedIn_nil : deletedIn [] = 0 := rfl

@[simp] theorem deletedIn_cons (s : Section) (ss : List Section) :
    deletedIn (s :: ss) = s.deleted + deletedIn ss := by
  simp [deletedIn]

@[simp] theorem deletedIn_append (ss ts : List Section) :
    deletedIn (ss ++ ts) = deletedIn ss + deletedIn ts := by
  simp [deletedIn]

/-- A run of edits that all keep or all change elements deletes as much as its section. -/
private theorem deletedIn_runSection {run : List Edit}
    (hc : run.IsChain fun d e : Edit => decide ((d.kind = .keep) = (e.kind = .keep))) :
    deletedIn (runSection? run).toList = lengthOf .delete run := by
  cases run with
  | nil => rfl
  | cons e es =>
    have hk := kinds_of_chain hc
    rw [runSection?]
    split
    · rename_i he
      have hnone : (e :: es).filter (·.kind = .delete) = [] := by
        refine List.filter_eq_nil_iff.2 fun d hd => ?_
        rw [(hk d hd).2 he]
        decide
      rw [lengthOf, hnone]
      rfl
    · unfold changedSection lengthOf
      simp only
      split <;> rename_i hd hi <;> rw [hd] <;> rfl

/-- The sections of a script delete as much as the script. -/
theorem deletedIn_sections (es : List Edit) : deletedIn (sections es) = lengthOf .delete es := by
  have hruns (runs : List (List Edit)) (hc : ∀ run ∈ runs,
      run.IsChain fun d e : Edit => decide ((d.kind = .keep) = (e.kind = .keep))) :
      deletedIn (runs.filterMap runSection?) = lengthOf .delete runs.flatten := by
    induction runs with
    | nil => rfl
    | cons run runs ih =>
      have ih := ih fun r hr => hc r (by simp [hr])
      have hrun := deletedIn_runSection (hc run (by simp))
      rw [List.flatten_cons, lengthOf_append, ← ih, ← hrun, ← deletedIn_append]
      cases hr : runSection? run <;> simp [hr]
  rw [sections, hruns _ fun run hrun => List.isChain_of_mem_splitBy hrun, List.flatten_splitBy]

/-- Only changed sections delete something. -/
private theorem deletedIn_changes (ss : List Section) : deletedIn (changes ss) = deletedIn ss := by
  induction ss with
  | nil => rfl
  | cons s ss ih => cases hs : s.changed <;> simp [Section.change?, Section.deleted, hs, ih]

/-- Groups delete as much as the sections that they are made of. -/
theorem deletedIn_groups (n : Nat) (ss : List Section) :
    deletedIn (groups n ss).flatten = deletedIn ss := by
  rw [← deletedIn_changes, changes_groups, deletedIn_changes]

end Diff

/-! ## Hunks -/

section Hunks

variable {old new : List String}

/-- The deleted lines of a section are all there. -/
private theorem count_sectionLines {s : Section} {a b : Diff.Place} (h : s.Leads old new a b) :
    (sectionLines old new s).countP (·.kind = .deletion) = s.deleted := by
  have hlen : (slice old s.old.start s.old.length).length = s.old.length := by
    rcases Nat.eq_zero_or_pos s.old.length with hzero | hpos
    · rw [hzero, slice_zero]
      rfl
    · have hstart := h.old_start (.inr hpos)
      have hend := h.old_end
      have hle := h.old_le
      exact length_slice (by omega)
  unfold sectionLines Section.deleted
  split
  · simp [List.countP_map, Function.comp_def, hlen]
  · simp [List.countP_map, Function.comp_def]

/-- The deleted lines of several sections are all there. -/
private theorem count_flatMap_sectionLines {ss : List Section}
    (hl : ∀ s ∈ ss, ∃ a b, s.Leads old new a b) :
    (ss.flatMap (sectionLines old new)).countP (·.kind = .deletion) = deletedIn ss := by
  induction ss with
  | nil => rfl
  | cons s ss ih =>
    obtain ⟨a, b, hs⟩ := hl s (by simp)
    rw [List.flatMap_cons, List.countP_append, count_sectionLines hs,
      ih fun t ht => hl t (by simp [ht]), deletedIn_cons]

/-- The hunks of a unified diff delete what the compacted script deletes. -/
theorem count_unifiedDiff (old new oldLabel newLabel : String) (context : Nat) :
    ((unifiedDiff old new oldLabel newLabel context).hunks.map (Hunk.count .deletion)).sum =
      lengthOf .delete (compact (textLines old) (textLines new)
        (script (textLines old) (textLines new))) := by
  obtain ⟨r, hr, -⟩ := path_windows context (path_lineSections (textLines old) (textLines new))
    (kept_top _ _) (isChain_lineSections _ _)
  rw [UnifiedDiff.sum_count, lines_unifiedDiff, count_flatMap_sectionLines, deletedIn_groups,
    lineSections, deletedIn_sections]
  intro s hmem
  obtain ⟨g, hg, hsg⟩ := List.mem_flatten.1 hmem
  obtain ⟨a, b, c, -, -, hwindow⟩ := hr.leads_of_mem hg
  exact hwindow.leads.leads_of_mem hsg

/-! ## Summaries -/

/-- The header of a hunk starts with a mark of its own. -/
theorem head_headerText (r : HunkRange) : r.text.toList.head? = some '@' := by
  simp [HunkRange.text]

theorem head_text_ne_header (l : HunkLine) : l.text.toList.head? ≠ some '@' := by
  rw [head_text]
  cases l.kind <;> decide

/-- The lines of a hunk are counted by their marks, and its header is not counted. -/
private theorem countP_texts (h : Hunk) {kind : LineKind} (hk : kind ≠ .context) :
    h.texts.countP (fun line => line.toList.head? = some kind.mark) = h.count kind := by
  have hmark (l : HunkLine) : (l.text.toList.head? = some kind.mark) = (l.kind = kind) := by
    rw [head_text, Option.some.injEq]
    cases hl : l.kind <;> cases kind <;> simp [LineKind.mark]
  have hat : ¬ '@' = kind.mark := by
    cases kind <;> simp [LineKind.mark]
  simp only [Hunk.texts, List.countP_cons, head_headerText, Option.some.injEq, hat, decide_false,
    Bool.false_eq_true, if_false, Nat.add_zero, List.countP_map, Function.comp_def, hmark, Hunk.count]

/-- The summary of a unified diff counts the lines of its hunks. -/
theorem summary_eq_counts (d : UnifiedDiff) : d.summary =
    ⟨(d.hunks.map (Hunk.count .addition)).sum, (d.hunks.map (Hunk.count .deletion)).sum, none⟩ := by
  have hcount (kind : LineKind) (hk : kind ≠ .context) (hs : List Hunk) :
      (hs.flatMap Hunk.texts).countP (fun line => line.toList.head? = some kind.mark) =
        (hs.map (Hunk.count kind)).sum := by
    induction hs with
    | nil => rfl
    | cons h hs ih =>
      rw [List.flatMap_cons, List.countP_append, countP_texts h hk, ih, List.map_cons, List.sum_cons]
  rw [UnifiedDiff.summary, UnifiedDiff.body, Summary.ofPatchLines]
  exact congrArg₂ (Summary.mk · · none) (hcount .addition (by decide) d.hunks)
    (hcount .deletion (by decide) d.hunks)

end Hunks

/-! ## The fewest lines -/

/-- The lines of the canonical text of a sheet. -/
def Side.lines (side : Side) : List String := textLines side.sheet.canonical

section Fewest

variable (old new : Side) (context : Nat)

/-- The lines that the textual comparison removes and adds are those outside of a longest common
subsequence. -/
theorem exists_longestCommon_summary :
    ∃ n, LongestCommon old.lines new.lines n ∧
      (Outcome.textual old new context).summary.removed + n = old.lines.length ∧
      (Outcome.textual old new context).summary.added + n = new.lines.length := by
  obtain ⟨n, hn, htotal⟩ := exists_longestCommon_compact old.lines new.lines
  have hcount := count_unifiedDiff old.sheet.canonical new.sheet.canonical old.label new.label context
  have hbalance :=
    (turns_unifiedDiff old.sheet.canonical new.sheet.canonical old.label new.label context).2
  refine ⟨n, hn, ?_⟩
  simp only [Outcome.textual, summary_eq_counts]
  unfold Side.lines at htotal ⊢
  constructor
  · omega
  · omega

/-- The summary of the textual comparison of two sheets, where `n` lines can be kept at most. -/
theorem summary_of_longestCommon {n : Nat} (h : LongestCommon old.lines new.lines n) :
    (Outcome.textual old new context).summary.removed + n = old.lines.length ∧
      (Outcome.textual old new context).summary.added + n = new.lines.length := by
  obtain ⟨m, hm, hsummary⟩ := exists_longestCommon_summary old new context
  rwa [hm.unique h] at hsummary

/-- The textual summary is the smallest possible: all lines outside of a longest common subsequence are
removed or added, and no others. If the old lines are a subsequence of the new ones, only the inserted
lines are counted. Exchanging both sheets exchanges what is added and what is removed. -/
theorem summary_textual_fewest :
    (∃ n, LongestCommon old.lines new.lines n ∧
      (Outcome.textual old new context).summary.removed + n = old.lines.length ∧
      (Outcome.textual old new context).summary.added + n = new.lines.length) ∧
    (old.lines.Sublist new.lines →
      (Outcome.textual old new context).summary.removed = 0 ∧
      (Outcome.textual old new context).summary.added + old.lines.length = new.lines.length) ∧
    (Outcome.textual new old context).summary.added =
      (Outcome.textual old new context).summary.removed ∧
    (Outcome.textual new old context).summary.removed =
      (Outcome.textual old new context).summary.added := by
  obtain ⟨n, hn, hremoved, hadded⟩ := exists_longestCommon_summary old new context
  obtain ⟨hremoved', hadded'⟩ := summary_of_longestCommon new old context hn.symm
  refine ⟨⟨n, hn, hremoved, hadded⟩, ?inserted, ?added, ?removed⟩
  case inserted =>
    intro h
    obtain rfl := hn.unique (longestCommon_of_sublist h)
    constructor
    · omega
    · exact hadded
  case added => omega
  case removed => omega

end Fewest

end SheetDiff
