import SheetDiff.Proofs.Diff.Fewest

/-!
# More or fewer unchanged lines

How many unchanged lines are asked for decides only how kept sections are cut. The changed lines of a
unified diff are those of the changed sections, whichever group they are in, and a section shows all
lines that it shows with fewer unchanged lines around each change, in the same order. So the size of the
context narrows what is shown and changes nothing of what is reported (`textual_narrowed`).
-/

namespace SheetDiff

open Diff

/-! ## Lines that are shown -/

section Shown

variable {old new : List String} {p q : Diff.Place} {s : Section} {ss : List Section} {n m : Nat}

/-- The lines of a section that a diff shows. -/
def shownLines (old new : List String) (n : Nat) (s : Section) : List HunkLine :=
  (s.parts n).flatMap (sectionLines old new)

theorem shownLines_of_whole (h : s.changed = true ∨ s.old.length ≤ 2 * n) :
    shownLines old new n s = sectionLines old new s := by
  have hwhole : s.parts n = [s] := by
    rw [Section.parts, if_neg]
    simp only [Bool.and_eq_true, Bool.not_eq_true', decide_eq_true_eq, not_and, not_lt]
    intro hk
    exact h.resolve_left (by simp [hk])
  rw [shownLines, hwhole, List.flatMap_singleton]

theorem sectionLines_firstPart (n : Nat) (h : s.changed = false) :
    sectionLines old new (s.firstPart n) = (sectionLines old new s).take n := by
  simp [sectionLines, Section.firstPart, h, slice, List.take_take]

theorem sectionLines_lastPart (n : Nat) (h : s.changed = false) :
    sectionLines old new (s.lastPart n) =
      (sectionLines old new s).drop (s.old.length - n) := by
  have hskip : s.old.length - min n s.old.length = s.old.length - n := by omega
  have htake : s.old.length - (s.old.length - n) = min n s.old.length := by omega
  simp [sectionLines, Section.lastPart, h, slice, ← List.map_drop, List.drop_take, hskip, htake]

theorem shownLines_of_cut (hk : s.changed = false) (h : 2 * n < s.old.length) :
    shownLines old new n s = (sectionLines old new s).take n ++
      (sectionLines old new s).drop (s.old.length - n) := by
  rw [shownLines, Section.parts, if_pos (by simp [hk, h])]
  simp [sectionLines_firstPart n hk, sectionLines_lastPart n hk]

/-- With more unchanged lines a section shows more of its lines. -/
theorem shownLines_sublist (hnm : n ≤ m) (s : Section) :
    (shownLines old new n s).Sublist (shownLines old new m s) := by
  by_cases hn : s.changed = true ∨ s.old.length ≤ 2 * n
  · rw [shownLines_of_whole hn, shownLines_of_whole (hn.imp_right (by omega))]
  · obtain ⟨hk, hcut⟩ : s.changed = false ∧ 2 * n < s.old.length := by simpa using hn
    rw [shownLines_of_cut hk hcut]
    by_cases hm : s.old.length ≤ 2 * m
    · rw [shownLines_of_whole (.inr hm)]
      have hsub := (List.take_sublist_take_left (l := sectionLines old new s)
        (show n ≤ s.old.length - n by omega)).append_right
          ((sectionLines old new s).drop (s.old.length - n))
      rwa [List.take_append_drop] at hsub
    · rw [shownLines_of_cut hk (by omega)]
      exact (List.take_sublist_take_left hnm).append (List.drop_sublist_drop_left _ (by omega))

theorem shownLines_lastPart (n : Nat) (hk : s.changed = false) :
    shownLines old new n (s.lastPart n) =
      (sectionLines old new s).drop (s.old.length - n) := by
  rw [shownLines_of_whole, sectionLines_lastPart n hk]
  simp only [Section.lastPart]
  omega

theorem shownLines_firstPart (n : Nat) (hk : s.changed = false) :
    shownLines old new n (s.firstPart n) = (sectionLines old new s).take n := by
  rw [shownLines_of_whole, sectionLines_firstPart n hk]
  simp only [Section.firstPart]
  omega

/-- What the first section shows. -/
private theorem first_sublist (hnm : n ≤ m) (s : Section) :
    (shownLines old new n (s.onKept (·.lastPart n))).Sublist
      (shownLines old new m (s.onKept (·.lastPart m))) := by
  cases hk : s.changed with
  | true =>
    rw [onKept_of_changed _ hk, onKept_of_changed _ hk]
    exact shownLines_sublist hnm s
  | false =>
    rw [onKept_of_kept _ hk, onKept_of_kept _ hk, shownLines_lastPart n hk, shownLines_lastPart m hk]
    exact List.drop_sublist_drop_left _ (by omega)

/-- What the last section shows. -/
private theorem last_sublist (hnm : n ≤ m) (s : Section) :
    (shownLines old new n (s.onKept (·.firstPart n))).Sublist
      (shownLines old new m (s.onKept (·.firstPart m))) := by
  cases hk : s.changed with
  | true =>
    rw [onKept_of_changed _ hk, onKept_of_changed _ hk]
    exact shownLines_sublist hnm s
  | false =>
    rw [onKept_of_kept _ hk, onKept_of_kept _ hk, shownLines_firstPart n hk,
      shownLines_firstPart m hk]
    exact List.take_sublist_take_left hnm

/-- Sections that each show more lines show more lines together. -/
private theorem flatMap_shown_sublist (hnm : n ≤ m) (ss : List Section) :
    (ss.flatMap (shownLines old new n)).Sublist (ss.flatMap (shownLines old new m)) := by
  induction ss with
  | nil => exact .slnil
  | cons s ss ih =>
    rw [List.flatMap_cons, List.flatMap_cons]
    exact (shownLines_sublist hnm s).append ih

/-- Trimmed sections with a change show more lines if more are left at their ends. -/
theorem trimEnds_sublist (hnm : n ≤ m) (hany : ss.any (·.changed) = true) :
    ((trimEnds n ss).flatMap (shownLines old new n)).Sublist
      ((trimEnds m ss).flatMap (shownLines old new m)) := by
  cases ss with
  | nil => exact .slnil
  | cons s ss =>
    rcases List.eq_nil_or_concat' ss with rfl | ⟨ss, t, rfl⟩
    · have hs : s.changed = true := by simpa using hany
      have htrim (k : Nat) : trimEnds k [s] = [s] := by simp [trimEnds, onKept_of_changed _ hs]
      rw [htrim, htrim]
      exact flatMap_shown_sublist hnm [s]
    · -- more is left at both ends, and more of what is cut in between
      simp only [trimEnds_ends, List.flatMap_cons, List.flatMap_append, List.flatMap_nil,
        List.append_nil]
      exact (first_sublist hnm s).append ((flatMap_shown_sublist hnm ss).append (last_sublist hnm t))

/-- With more unchanged lines the groups show more lines. -/
theorem groups_sublist (h : Diff.Path (Section.Leads old new) p ss q) (hp : Kept old new p p)
    (hc : ss.IsChain Section.Alternates) (hnm : n ≤ m) :
    ((groups n ss).flatten.flatMap (sectionLines old new)).Sublist
      ((groups m ss).flatten.flatMap (sectionLines old new)) := by
  by_cases hany : ss.any (·.changed) = true
  · have hshown (k : Nat) : (groups k ss).flatten.flatMap (sectionLines old new) =
        (trimEnds k ss).flatMap (shownLines old new k) := by
      rw [groups_of_changed k h hp hc hany, flatten_cutGroups, List.flatMap_assoc]
      rfl
    rw [hshown, hshown]
    exact trimEnds_sublist hnm hany
  · rw [groups_of_unchanged (by simpa using hany)]
    exact List.nil_sublist _

/-- The changed lines of some sections are the lines of the changed ones. -/
theorem filter_sectionLines (old new : List String) (ss : List Section) :
    (ss.flatMap (sectionLines old new)).filter (·.kind ≠ .context) =
      (changes ss).flatMap (sectionLines old new) := by
  have hsection (s : Section) : (sectionLines old new s).filter (·.kind ≠ .context) =
      s.change?.toList.flatMap (sectionLines old new) := by
    cases hk : s.changed with
    | true => simp [Section.change?, sectionLines, hk, List.filter_map, Function.comp_def]
    | false => simp [Section.change?, sectionLines, hk, List.filter_map, Function.comp_def]
  induction ss with
  | nil => rfl
  | cons s ss ih =>
    rw [List.flatMap_cons, List.filter_append, hsection, ih, changes_cons, List.flatMap_append]

end Shown

/-! ## Diffs -/

/-- The changed lines of a unified diff are those of the changed sections. -/
theorem changed_unifiedDiff (old new oldLabel newLabel : String) (context : Nat) :
    (unifiedDiff old new oldLabel newLabel context).lines.filter (·.kind ≠ .context) =
      (changes (lineSections (textLines old) (textLines new))).flatMap
        (sectionLines (textLines old) (textLines new)) := by
  rw [lines_unifiedDiff, filter_sectionLines, changes_groups]

/-- With more unchanged lines a unified diff shows more lines. -/
theorem unifiedDiff_sublist (old new oldLabel newLabel : String) {n m : Nat} (hnm : n ≤ m) :
    (unifiedDiff old new oldLabel newLabel n).lines.Sublist
      (unifiedDiff old new oldLabel newLabel m).lines := by
  rw [lines_unifiedDiff, lines_unifiedDiff]
  exact groups_sublist (path_lineSections _ _) (kept_top _ _) (isChain_lineSections _ _) hnm

/-- The lines of a body that are no headers of hunks. -/
def unheaded (body : List String) : List String := body.filter (·.toList.head? ≠ some '@')

theorem unheaded_body (d : UnifiedDiff) : unheaded d.body = d.lines.map HunkLine.text := by
  rw [unheaded, UnifiedDiff.body, UnifiedDiff.lines, List.filter_flatMap, List.map_flatMap]
  congr 1
  funext h
  rw [Hunk.texts, List.filter_cons_of_neg (by simp [head_headerText]), List.filter_eq_self]
  intro line hmem
  obtain ⟨l, -, rfl⟩ := List.mem_map.1 hmem
  simpa using head_text_ne_header l

/-- The summary of a unified diff counts its changed lines. -/
theorem summary_eq_changed (d : UnifiedDiff) : d.summary =
    ⟨(d.lines.filter (·.kind ≠ .context)).countP (·.kind = .addition),
      (d.lines.filter (·.kind ≠ .context)).countP (·.kind = .deletion), none⟩ := by
  have hcount (kind : LineKind) (hk : kind ≠ .context) :
      (d.lines.filter (·.kind ≠ .context)).countP (·.kind = kind) =
        (d.hunks.map (Hunk.count kind)).sum := by
    rw [List.countP_filter, UnifiedDiff.sum_count]
    congr 1
    funext l
    rcases eq_or_ne l.kind kind with rfl | hne
    · simp [hk]
    · simp [hne]
  rw [summary_eq_counts, hcount .addition (by decide), hcount .deletion (by decide)]

/-- The diff behind the textual comparison of two sheets. -/
def Side.diff (old new : Side) (context : Nat) : UnifiedDiff :=
  unifiedDiff old.sheet.canonical new.sheet.canonical old.label new.label context

/-- The size of the context changes neither the changed lines, in order over all hunks, nor the summary,
and with a larger one all lines that are no headers are still there in the same order. -/
theorem textual_narrowed (old new : Side) (n m : Nat) :
    (old.diff new n).lines.filter (·.kind ≠ .context) =
        (old.diff new m).lines.filter (·.kind ≠ .context) ∧
      (Outcome.textual old new n).summary = (Outcome.textual old new m).summary ∧
      (n ≤ m → (unheaded (Outcome.textual old new n).body).Sublist
        (unheaded (Outcome.textual old new m).body)) := by
  have hchanged : (old.diff new n).lines.filter (·.kind ≠ .context) =
      (old.diff new m).lines.filter (·.kind ≠ .context) :=
    (changed_unifiedDiff ..).trans (changed_unifiedDiff ..).symm
  refine ⟨hchanged, ?summary, fun hnm => ?lines⟩
  case summary =>
    change (old.diff new n).summary = (old.diff new m).summary
    rw [summary_eq_changed, summary_eq_changed, hchanged]
  case lines =>
    change (unheaded (old.diff new n).body).Sublist (unheaded (old.diff new m).body)
    rw [unheaded_body, unheaded_body]
    exact (unifiedDiff_sublist _ _ _ _ hnm).map HunkLine.text

end SheetDiff
