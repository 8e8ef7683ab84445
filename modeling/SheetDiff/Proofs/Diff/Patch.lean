import Mathlib
import SheetDiff.Diff.Unified
import SheetDiff.Proofs.Diff.Windows
import SheetDiff.Proofs.Text.Lines

/-!
# Unified diffs as patches

The hunks of a unified diff turn the lines of the old text into those of the new one
(`turns_unifiedDiff`): lines outside of the hunks are shared, and each hunk shows its part of both
texts. The headers place all hunks exactly, so that the diff can be applied as a patch, if and only
if the first hunk leaves out as many lines above it in both texts and the last one as many lines
below it (`patches_iff_aligned`). A change at the very start or end may fail this, as the swap of an
insertion with a deletion keeps the place that each records in the other list.
-/

namespace SheetDiff

open Diff

/-! ## Hunks between lists of lines -/

/-- The contents that some lines of a hunk show of the old text. -/
def oldContents (ls : List HunkLine) : List String :=
  (ls.filter (·.kind ≠ .addition)).map (·.content)

/-- The contents that some lines of a hunk show of the new text. -/
def newContents (ls : List HunkLine) : List String :=
  (ls.filter (·.kind ≠ .deletion)).map (·.content)

@[simp] theorem oldContents_append (ls ms : List HunkLine) :
    oldContents (ls ++ ms) = oldContents ls ++ oldContents ms := by
  simp [oldContents]

@[simp] theorem newContents_append (ls ms : List HunkLine) :
    newContents (ls ++ ms) = newContents ls ++ newContents ms := by
  simp [newContents]

/-- Hunks turn the lines `old`, which stand behind `i` others, into the lines `new`, which stand
behind `j` others. Each hunk takes a part of both lists that has exactly the contents it shows, and
`placed` says how its header fits the place of these parts; what lies outside is shared. -/
inductive Turns (placed : Hunk → HunkRange → Prop) :
    Nat → Nat → List Hunk → List String → List String → Prop
  | rest (i j : Nat) (shared : List String) : Turns placed i j [] shared shared
  | hunk {i j : Nat} {h : Hunk} {hs : List Hunk} (shared : List String)
      {o n old new : List String} (ho : List.Forall₂ IsBare o (oldContents h.lines))
      (hn : List.Forall₂ IsBare n (newContents h.lines))
      (hp : placed h ⟨i + shared.length, o.length, j + shared.length, n.length⟩)
      (ht : Turns placed (i + shared.length + o.length) (j + shared.length + n.length) hs old new) :
      Turns placed i j (h :: hs) (shared ++ o ++ old) (shared ++ n ++ new)

/-- The number of lines of one kind in a hunk. -/
def Hunk.count (kind : LineKind) (h : Hunk) : Nat := h.lines.countP (·.kind = kind)

/-- The lines of all hunks. -/
def UnifiedDiff.lines (d : UnifiedDiff) : List HunkLine := d.hunks.flatMap Hunk.lines

/-- Hunks count their lines of one kind together. -/
theorem UnifiedDiff.sum_count (d : UnifiedDiff) (kind : LineKind) :
    (d.hunks.map (Hunk.count kind)).sum = d.lines.countP (·.kind = kind) := by
  rw [UnifiedDiff.lines, List.countP_flatMap]
  rfl

private theorem length_contents (ls : List HunkLine) :
    (newContents ls).length + ls.countP (·.kind = .deletion) =
      (oldContents ls).length + ls.countP (·.kind = .addition) := by
  induction ls with
  | nil => rfl
  | cons l ls ih =>
    obtain ⟨kind, content⟩ := l
    cases kind <;> simp [oldContents, newContents] at ih ⊢ <;> omega

/-- Hunks add as many more lines than they delete as the new list is longer. -/
theorem Turns.count {placed : Hunk → HunkRange → Prop} {i j : Nat} {hs : List Hunk}
    {old new : List String} (h : Turns placed i j hs old new) :
    new.length + (hs.map (Hunk.count .deletion)).sum =
      old.length + (hs.map (Hunk.count .addition)).sum := by
  induction h with
  | rest => rfl
  | @hunk i j h hs shared o n old new ho hn hp ht ih =>
    have hl := length_contents h.lines
    rw [← ho.length_eq, ← hn.length_eq] at hl
    simp only [List.map_cons, List.sum_cons, List.length_append, Hunk.count] at ih ⊢
    omega

/-! ## Groups show their part of both lists -/

section Groups

variable {old new : List String} {p q a : Diff.Place} {s : Section} {group : List Section}

/-- What a section shows of both lists. -/
private theorem contents_sectionLines (h : s.Leads old new p q) :
    oldContents (sectionLines old new s) = (slice old p.old s.old.length).map Text.bareLine ∧
      newContents (sectionLines old new s) = (slice new p.new s.new.length).map Text.bareLine := by
  have ho : slice old s.old.start s.old.length = slice old p.old s.old.length := by
    rcases Nat.eq_zero_or_pos s.old.length with hz | hpos
    · rw [hz, slice_zero, slice_zero]
    · rw [h.old_start (.inr hpos)]
  have hw : slice new s.new.start s.new.length = slice new p.new s.new.length := by
    rcases Nat.eq_zero_or_pos s.new.length with hz | hpos
    · rw [hz, slice_zero, slice_zero]
    · rw [h.new_start (.inr hpos)]
  cases hk : s.changed with
  | false =>
    have hs := (h.same hk).2
    simp [sectionLines, hk, oldContents, newContents, List.filter_map, Function.comp_def, ho, ← hs]
  | true =>
    simp [sectionLines, hk, oldContents, newContents, List.filter_map, Function.comp_def, ho, hw]

/-- A path of sections does not go back. -/
theorem le_of_sections (h : Diff.Path (Section.Leads old new) p group q) :
    p.old ≤ q.old ∧ p.new ≤ q.new := by
  induction group generalizing p with
  | nil =>
    obtain rfl : p = q := h
    exact ⟨le_rfl, le_rfl⟩
  | cons s ss ih =>
    obtain ⟨b, hs, hss⟩ := h
    have ho := hs.old_end
    have hw := hs.new_end
    have := ih hss
    omega

/-- A path of sections that changes something moves on. -/
theorem lt_of_sections (h : Diff.Path (Section.Leads old new) p group q)
    (hc : group.any (·.changed)) : p.old + p.new < q.old + q.new := by
  obtain ⟨s, hs, hk⟩ := List.any_eq_true.1 hc
  obtain ⟨ss, ts, rfl⟩ := List.append_of_mem hs
  obtain ⟨b, hb, c, hc, hts⟩ := path_append.1 h
  have h1 := le_of_sections hb
  have h2 := le_of_sections hts
  have ho := hc.old_end
  have hw := hc.new_end
  have hsolid := hc.solid hk
  omega

/-- What a group shows of both lists. -/
private theorem contents_group (h : Diff.Path (Section.Leads old new) p group q) :
    oldContents (group.flatMap (sectionLines old new)) =
        (slice old p.old (q.old - p.old)).map Text.bareLine ∧
      newContents (group.flatMap (sectionLines old new)) =
        (slice new p.new (q.new - p.new)).map Text.bareLine := by
  induction group generalizing p with
  | nil =>
    obtain rfl : p = q := h
    simp [oldContents, newContents, slice_zero]
  | cons s ss ih =>
    obtain ⟨b, hs, hss⟩ := h
    obtain ⟨ho, hw⟩ := ih hss
    obtain ⟨hso, hsw⟩ := contents_sectionLines hs
    have hle := le_of_sections hss
    have hbo := hs.old_end
    have hbw := hs.new_end
    rw [List.flatMap_cons, oldContents_append, newContents_append, ho, hw, hso, hsw,
      ← List.map_append, ← List.map_append, hbo, hbw, ← slice_add, ← slice_add]
    rw [show s.old.length + (q.old - (p.old + s.old.length)) = q.old - p.old by omega,
      show s.new.length + (q.new - (p.new + s.new.length)) = q.new - p.new by omega]
    exact ⟨rfl, rfl⟩

/-- The place of the lines between two places. -/
def HunkRange.between (p q : Diff.Place) : HunkRange :=
  ⟨p.old, q.old - p.old, p.new, q.new - p.new⟩

theorem mem_of_mem_slice {α : Type} {xs : List α} {i n : Nat} {x : α}
    (h : x ∈ slice xs i n) : x ∈ xs :=
  List.mem_of_mem_drop (List.mem_of_mem_take h)

private theorem forall₂_isBare {ls : List String}
    (h : ∀ l ∈ ls, IsBare l (Text.bareLine l)) :
    List.Forall₂ IsBare ls (ls.map Text.bareLine) :=
  List.forall₂_map_right_iff.2 (List.forall₂_same.2 h)

private theorem drop_eq_slices {α : Type} (xs : List α) (i n m : Nat) :
    xs.drop i = slice xs i n ++ slice xs (i + n) m ++ xs.drop (i + n + m) := by
  rw [← slice_add, slice, Nat.add_assoc, ← List.drop_drop, List.take_append_drop]

/-- The hunk of a group that is not empty. -/
theorem exists_ofGroup? (old new : List String) (h : group ≠ []) : ∃ r,
    Hunk.ofGroup? old new group = some ⟨r, group.flatMap (sectionLines old new)⟩ := by
  refine ⟨.ofSections (group.head h) (group.getLast h), ?_⟩
  simp [Hunk.ofGroup?, List.head?_eq_some_head h, List.getLast?_eq_some_getLast h]

/-- A hunk shows the lines of its group. -/
theorem lines_of_ofGroup? {k : Hunk} (h : k ∈ Hunk.ofGroup? old new group) :
    k.lines = group.flatMap (sectionLines old new) := by
  simp only [Hunk.ofGroup?, Option.mem_def, bind, Option.bind_eq_some_iff] at h
  obtain ⟨f, -, l, -, hk⟩ := h
  obtain rfl := Option.some.inj hk
  rfl

/-- The hunks of some groups show the lines of their sections. -/
theorem flatMap_lines_groups (old new : List String) (gs : List (List Section)) :
    (gs.filterMap (Hunk.ofGroup? old new)).flatMap Hunk.lines =
      gs.flatten.flatMap (sectionLines old new) := by
  induction gs with
  | nil => rfl
  | cons g gs ih =>
    rw [List.flatten_cons, List.flatMap_append, ← ih]
    by_cases hg : g = []
    · subst hg
      rfl
    · obtain ⟨header, hk⟩ := exists_ofGroup? old new hg
      rw [List.filterMap_cons_some hk, List.flatMap_cons]

/-- What is left behind the last hunk is shared. -/
theorem turns_nil {placed : Hunk → HunkRange → Prop}
    (h : Kept old new p ⟨old.length, new.length⟩) :
    Turns placed p.old p.new [] (old.drop p.old) (new.drop p.new) := by
  obtain ⟨n, hq, -, -, hs⟩ := h
  rw [Diff.Place.mk.injEq] at hq
  have hdo : old.drop p.old = slice old p.old n :=
    (List.take_of_length_le (by rw [List.length_drop]; omega)).symm
  have hdn : new.drop p.new = slice new p.new n :=
    (List.take_of_length_le (by rw [List.length_drop]; omega)).symm
  rw [hdo, hdn, hs]
  exact .rest _ _ _

/-- A hunk that shows a group turns the parts of both lists that the group covers, and what lies before
them is shared. -/
theorem turns_cons {placed : Hunk → HunkRange → Prop} {k : Hunk} {ks : List Hunk}
    (ho : ∀ l ∈ old, IsBare l (Text.bareLine l)) (hn : ∀ l ∈ new, IsBare l (Text.bareLine l))
    (hpa : Kept old new p a) (hg : Diff.Path (Section.Leads old new) a group q)
    (hk : k.lines = group.flatMap (sectionLines old new)) (hp : placed k (.between a q))
    (ht : Turns placed q.old q.new ks (old.drop q.old) (new.drop q.new)) :
    Turns placed p.old p.new (k :: ks) (old.drop p.old) (new.drop p.new) := by
  obtain ⟨n, rfl, hao, han, hs⟩ := hpa
  obtain ⟨-, -, hqo, hqn, -⟩ := kept_of_path (.refl hao han) hg
  obtain ⟨hle, hle'⟩ := le_of_sections hg
  obtain ⟨hco, hcn⟩ := contents_group hg
  simp only at hle hle' hco hcn hao han hqo hqn
  -- the group takes `x` lines of one list and `y` lines of the other
  obtain ⟨x, hx⟩ := Nat.exists_eq_add_of_le hle
  obtain ⟨y, hy⟩ := Nat.exists_eq_add_of_le hle'
  rw [hx, Nat.add_sub_cancel_left, ← hk] at hco
  rw [hy, Nat.add_sub_cancel_left, ← hk] at hcn
  rw [HunkRange.between, hx, hy, Nat.add_sub_cancel_left, Nat.add_sub_cancel_left] at hp
  rw [hx, hy] at ht
  rw [drop_eq_slices old p.old n x, drop_eq_slices new p.new n y, ← hs]
  have hlen : (slice old p.old n).length = n := length_slice hao
  have hlo : (slice old (p.old + n) x).length = x := length_slice (by omega)
  have hln : (slice new (p.new + n) y).length = y := length_slice (by omega)
  refine .hunk _ ?_ ?_ (by rw [hlen, hlo, hln]; exact hp) (by rw [hlen, hlo, hln]; exact ht)
  · rw [hco]
    exact forall₂_isBare fun l hl => ho l (mem_of_mem_slice hl)
  · rw [hcn]
    exact forall₂_isBare fun l hl => hn l (mem_of_mem_slice hl)

/-- Groups that lead from place to place turn what is left of one list into what is left of the
other. -/
theorem turns_of_path {placed : Hunk → HunkRange → Prop} {top bottom r : Diff.Place}
    {gs : List (List Section)} (ho : ∀ l ∈ old, IsBare l (Text.bareLine l))
    (hn : ∀ l ∈ new, IsBare l (Text.bareLine l)) (hc : ∀ g ∈ gs, g.any (·.changed))
    (h : Diff.Path (GroupLeads old new top bottom) p gs r)
    (hr : Kept old new r ⟨old.length, new.length⟩)
    (hplaced : ∀ g a q, Diff.Path (Section.Leads old new) a g q → g.any (·.changed) →
      (StartsAt g a ∨ a = top) → (StopsAt g q ∨ q = bottom) →
      ∀ k ∈ Hunk.ofGroup? old new g, placed k (.between a q)) :
    Turns placed p.old p.new (gs.filterMap (Hunk.ofGroup? old new)) (old.drop p.old)
      (new.drop p.new) := by
  induction gs generalizing p with
  | nil =>
    obtain rfl : p = r := h
    exact turns_nil hr
  | cons g gs ih =>
    obtain ⟨q, ⟨⟨a, hpa, hg, hstart⟩, hstop⟩, hgs⟩ := h
    have hcg := hc g List.mem_cons_self
    have ht := ih (fun g' hg' => hc g' (List.mem_cons_of_mem _ hg')) hgs
    have hne : g ≠ [] := by
      rintro rfl
      simp at hcg
    obtain ⟨header, hk⟩ := exists_ofGroup? old new hne
    rw [List.filterMap_cons_some hk]
    exact turns_cons ho hn hpa hg rfl (hplaced g a q hg hcg hstart hstop _ hk) ht

end Groups

/-! ## Unified diffs -/

/-- The sections between two lists of lines lead from the start of both to their end. -/
theorem path_lineSections (old new : List String) :
    Diff.Path (Section.Leads old new) .top (lineSections old new) (.bottom old new) :=
  (path_sections (path_compact old new)).mono fun _ _ _ h => h.1

/-- Kept and changed sections between two lists of lines take turns. -/
theorem isChain_lineSections (old new : List String) :
    (lineSections old new).IsChain Section.Alternates :=
  isChain_sections (path_compact old new)

/-- The lines of a unified diff are those of its groups. -/
theorem lines_unifiedDiff (old new oldLabel newLabel : String) (context : Nat) :
    (unifiedDiff old new oldLabel newLabel context).lines =
      (groups context (lineSections (textLines old) (textLines new))).flatten.flatMap
        (sectionLines (textLines old) (textLines new)) :=
  flatMap_lines_groups ..

/-- What holds of every group of a unified diff holds of its hunks. -/
theorem turns_hunks {placed : Hunk → HunkRange → Prop} {old new : String}
    (oldLabel newLabel : String) (context : Nat)
    (hplaced : ∀ g a q, Diff.Path (Section.Leads (textLines old) (textLines new)) a g q →
      g.any (·.changed) → (StartsAt g a ∨ a = .top) →
      (StopsAt g q ∨ q = .bottom (textLines old) (textLines new)) →
      ∀ k ∈ Hunk.ofGroup? (textLines old) (textLines new) g, placed k (.between a q)) :
    Turns placed 0 0 (unifiedDiff old new oldLabel newLabel context).hunks (textLines old)
      (textLines new) := by
  obtain ⟨r, hr, hk⟩ := path_groups context (path_lineSections (textLines old) (textLines new))
    (kept_top _ _) (isChain_lineSections _ _)
  exact turns_of_path (fun _ h => isBare_bareLine h) (fun _ h => isBare_bareLine h)
    (fun g hg => (List.mem_filter.1 hg).2) hr hk hplaced

/-- The hunks of a unified diff turn the lines of one text into those of the other, and they add as
many more lines than they delete as the new text has more. -/
theorem turns_unifiedDiff (old new oldLabel newLabel : String) (context : Nat) :
    Turns (fun _ _ => True) 0 0 (unifiedDiff old new oldLabel newLabel context).hunks
      (textLines old) (textLines new) ∧
    (((unifiedDiff old new oldLabel newLabel context).hunks.map (Hunk.count .addition)).sum : Int) -
        ((unifiedDiff old new oldLabel newLabel context).hunks.map (Hunk.count .deletion)).sum =
      (textLines new).length - (textLines old).length := by
  have h : Turns (fun _ _ => True) 0 0 (unifiedDiff old new oldLabel newLabel context).hunks
      (textLines old) (textLines new) :=
    turns_hunks oldLabel newLabel context fun _ _ _ _ _ _ _ _ _ => trivial
  have hc := h.count
  exact ⟨h, by omega⟩

/-! ## Exact headers -/

/-- The number of old lines up to the end of a hunk. -/
def HunkRange.oldStop (r : HunkRange) : Nat := r.oldStart + r.oldLines

/-- The number of new lines up to the end of a hunk. -/
def HunkRange.newStop (r : HunkRange) : Nat := r.newStart + r.newLines

/-- Each hunk replaces the lines that its header names; `done` lines are already behind. -/
def applyHunks : Nat → List Hunk → List String → List String
  | _, [], old => old
  | done, h :: hs, old =>
    old.take (h.header.oldStart - done) ++ newContents h.lines ++
      applyHunks h.header.oldStop hs (old.drop (h.header.oldStop - done))

/-- The headers of hunks place them exactly, in order and apart from each other, so that replacing
the named lines gives the new text. -/
structure Patches (hunks : List Hunk) (old new : List String) : Prop where
  turns : Turns (fun h r => h.header = r) 0 0 hunks old new
  ordered : hunks.Pairwise fun h k =>
    h.header.oldStop ≤ k.header.oldStart ∧ h.header.newStop ≤ k.header.newStart
  applied : applyHunks 0 hunks (old.map Text.bareLine) = new.map Text.bareLine

/-- The first hunk leaves out as many lines above it in both texts, and the last hunk as many lines
below it. -/
def Aligned (hunks : List Hunk) (old new : List String) : Prop :=
  (∀ h ∈ hunks.head?, h.header.oldStart = h.header.newStart) ∧
    ∀ h ∈ hunks.getLast?, old.length + h.header.newStop = new.length + h.header.oldStop

/-- What can be said of the header of a hunk that takes the lines at `r` of two texts of `m` and `n`
lines. -/
def Placed (m n : Nat) (h : Hunk) (r : HunkRange) : Prop :=
  0 < r.oldLines + r.newLines ∧
    ((r.oldStart = 0 → r.newStart = 0 → h.header.oldStart = h.header.newStart) →
      (r.oldStop = m → r.newStop = n → m + h.header.newStop = n + h.header.oldStop) →
      h.header = r)

section Turns

variable {i j : Nat} {hs : List Hunk} {old new : List String}

private theorem forall₂_bareLine {ls cs : List String} (h : List.Forall₂ IsBare ls cs) :
    ls.map Text.bareLine = cs := by
  induction h with
  | nil => rfl
  | cons h _ ih => rw [List.map_cons, ih, h.bareLine_eq]

private theorem applied_of_turns (h : Turns (fun h r => h.header = r) i j hs old new) :
    applyHunks i hs (old.map Text.bareLine) = new.map Text.bareLine := by
  induction h with
  | rest => rfl
  | @hunk i j h hs shared o n old new ho hn hp ht ih =>
    have hstop : h.header.oldStop = i + shared.length + o.length := by rw [hp]; rfl
    have hstart : h.header.oldStart = i + shared.length := by rw [hp]
    have htake : ((shared ++ o ++ old).map Text.bareLine).take (i + shared.length - i) =
        shared.map Text.bareLine := by
      rw [← List.map_take, Nat.add_sub_cancel_left, List.append_assoc, List.take_left]
    have hdrop : ((shared ++ o ++ old).map Text.bareLine).drop (i + shared.length + o.length - i) =
        old.map Text.bareLine := by
      rw [← List.map_drop, Nat.add_assoc, Nat.add_sub_cancel_left, ← List.length_append,
        List.drop_left]
    rw [applyHunks, hstop, hstart, htake, hdrop, ih, ← forall₂_bareLine hn, ← List.map_append,
      ← List.map_append]

private theorem start_of_turns (h : Turns (fun h r => h.header = r) i j hs old new) :
    ∀ k ∈ hs, i ≤ k.header.oldStart ∧ j ≤ k.header.newStart := by
  induction h with
  | rest => simp
  | hunk shared ho hn hp ht ih =>
    intro k hk
    rcases List.mem_cons.1 hk with rfl | hk
    · rw [hp]
      exact ⟨Nat.le_add_right _ _, Nat.le_add_right _ _⟩
    · have := ih k hk
      omega

private theorem ordered_of_turns (h : Turns (fun h r => h.header = r) i j hs old new) :
    hs.Pairwise fun h k =>
      h.header.oldStop ≤ k.header.oldStart ∧ h.header.newStop ≤ k.header.newStart := by
  induction h with
  | rest => exact .nil
  | hunk shared ho hn hp ht ih =>
    refine .cons (fun k hk => ?_) ih
    rw [hp]
    exact start_of_turns ht k hk

theorem patches_of_turns (h : Turns (fun h r => h.header = r) 0 0 hs old new) :
    Patches hs old new :=
  ⟨h, ordered_of_turns h, applied_of_turns h⟩

/-- Exact headers are aligned. -/
private theorem aligned_of_turns (h : Turns (fun h r => h.header = r) i j hs old new) :
    (∀ k ∈ hs.head?, k.header.oldStart + j = k.header.newStart + i) ∧
      ∀ k ∈ hs.getLast?, i + old.length + k.header.newStop = j + new.length + k.header.oldStop := by
  induction h with
  | rest => simp
  | @hunk i j h hs shared o n old new ho hn hp ht ih =>
    refine ⟨?_, ?_⟩
    · rintro _ ⟨⟩
      rw [hp]
      simp only
      omega
    · intro k hk
      cases hs with
      | nil =>
        obtain rfl : h = k := by simpa using hk
        cases ht
        rw [hp]
        simp only [HunkRange.newStop, HunkRange.oldStop, List.length_append]
        omega
      | cons h' hs =>
        have hlast := ih.2 k (by simpa using hk)
        simp only [List.length_append]
        omega

/-- Headers that are aligned are exact if they are placed. -/
private theorem exact_of_placed {m n : Nat} (h : Turns (Placed m n) i j hs old new)
    (hm : i + old.length = m) (hn : j + new.length = n)
    (hstart : i = 0 → j = 0 → ∀ k ∈ hs.head?, k.header.oldStart = k.header.newStart)
    (hstop : ∀ k ∈ hs.getLast?, m + k.header.newStop = n + k.header.oldStop) :
    Turns (fun h r => h.header = r) i j hs old new := by
  induction h with
  | rest => exact .rest _ _ _
  | @hunk i j h hs shared o x old new ho hx hp ht ih =>
    simp only [List.length_append] at hm hn
    obtain ⟨hpos, hp⟩ := hp
    simp only [HunkRange.oldStop, HunkRange.newStop] at hpos hp
    have hh := hp (fun hi hj => hstart (by omega) (by omega) h rfl) fun hi hj => ?_
    · refine .hunk shared ho hx hh (ih (by omega) (by omega) (fun hi hj => by omega) ?_)
      intro k hk
      cases hs with
      | nil => simp at hk
      | cons h' hs => exact hstop k (by simpa using hk)
    · cases ht with
      | rest => exact hstop h rfl
      | hunk shared' ho' hx' hp' ht' =>
        -- a hunk behind this one would have no lines left
        have hpos' := hp'.1
        simp only [List.length_append] at hm hn hpos'
        omega

end Turns

section Headers

variable {old new : List String} {p q a : Diff.Place} {s : Section} {g : List Section}

/-- A section records where it starts in at least one list. -/
private theorem start_of_leads (h : s.Leads old new p q) :
    s.old.start = p.old ∨ s.new.start = p.new := by
  cases hk : s.changed with
  | false => exact .inl (h.old_start (.inl hk))
  | true =>
    have hsolid := h.solid hk
    rcases Nat.eq_zero_or_pos s.old.length with hz | hpos
    · exact .inr (h.new_start (.inr (by omega)))
    · exact .inl (h.old_start (.inr hpos))

/-- A section records where it stops in at least one list. -/
private theorem stop_of_leads (h : s.Leads old new p q) :
    s.old.stop = q.old ∨ s.new.stop = q.new := by
  have ho := h.old_end
  have hw := h.new_end
  cases hk : s.changed with
  | false =>
    have := h.old_start (.inl hk)
    exact .inl (by rw [Span.stop]; omega)
  | true =>
    have hsolid := h.solid hk
    rcases Nat.eq_zero_or_pos s.old.length with hz | hpos
    · have := h.new_start (.inr (by omega))
      exact .inr (by rw [Span.stop]; omega)
    · have := h.old_start (.inr hpos)
      exact .inl (by rw [Span.stop]; omega)

/-- The hunk of a group, and the first and the last section, which its header is made of. -/
private theorem ends_of_group (h : Diff.Path (Section.Leads old new) a g q) {k : Hunk}
    (hk : k ∈ Hunk.ofGroup? old new g) :
    ∃ f l, k = ⟨.ofSections f l, g.flatMap (sectionLines old new)⟩ ∧ f ∈ g.head? ∧
      l ∈ g.getLast? ∧ (∃ b, f.Leads old new a b) ∧ ∃ c, l.Leads old new c q := by
  cases hf : g.head? with
  | none => simp [Hunk.ofGroup?, hf] at hk
  | some f =>
    cases hl : g.getLast? with
    | none => simp [Hunk.ofGroup?, hl] at hk
    | some l =>
      refine ⟨f, l, by simpa [Hunk.ofGroup?, hf, hl, eq_comm] using hk, rfl, rfl, ?_, ?_⟩
      · obtain ⟨gs, rfl⟩ := List.head?_eq_some_iff.1 hf
        obtain ⟨b, hb, -⟩ := h
        exact ⟨b, hb⟩
      · obtain ⟨gs, rfl⟩ := List.getLast?_eq_some_iff.1 hl
        obtain ⟨c, -, hc⟩ := path_append.1 h
        exact ⟨c, path_singleton.1 hc⟩

/-- The header of a group is exact if the group records where it starts and how long it is. -/
private theorem header_of_ends {f l : Section} (ho : old.length < HunkRange.limit)
    (hn : new.length < HunkRange.limit) (ha : a.old ≤ q.old ∧ a.new ≤ q.new)
    (hq : q.old ≤ old.length ∧ q.new ≤ new.length)
    (hf : f.old.start = a.old ∧ f.new.start = a.new)
    (hl : l.old.stop - a.old = q.old - a.old ∧ l.new.stop - a.new = q.new - a.new) :
    HunkRange.ofSections f l = .between a q := by
  simp only [HunkRange.ofSections, HunkRange.between, HunkRange.mk.injEq]
  omega

private theorem placed_of_group (ho : old.length < HunkRange.limit)
    (hn : new.length < HunkRange.limit) (h : Diff.Path (Section.Leads old new) a g q)
    (hc : g.any (·.changed)) (hstart : StartsAt g a ∨ a = .top)
    (hstop : StopsAt g q ∨ q = .bottom old new) :
    ∀ k ∈ Hunk.ofGroup? old new g, Placed old.length new.length k (.between a q) := by
  intro k hk
  obtain ⟨f, l, rfl, hf, hl, ⟨b, hfl⟩, c, hll⟩ := ends_of_group h hk
  have hle := le_of_sections h
  have hlt := lt_of_sections h hc
  have hq : q.old ≤ old.length ∧ q.new ≤ new.length := ⟨hll.old_le, hll.new_le⟩
  refine ⟨by simp only [HunkRange.between]; omega, fun hs ht => ?_⟩
  simp only [HunkRange.between, HunkRange.ofSections, HunkRange.oldStop, HunkRange.newStop] at hs ht
  have hfs : f.old.start = a.old ∧ f.new.start = a.new := by
    rcases hstart with hstart | rfl
    · exact hstart f hf
    · have := hs rfl rfl
      have := start_of_leads hfl
      simp only [Diff.Place.top] at this ⊢
      omega
  have hls : l.old.stop - a.old = q.old - a.old ∧ l.new.stop - a.new = q.new - a.new := by
    rcases hstop with hstop | rfl
    · have := hstop l hl
      omega
    · have hls := stop_of_leads hll
      simp only [Diff.Place.bottom] at hls hle ht ⊢
      have := ht (by omega) (by omega)
      omega
  exact header_of_ends ho hn hle hq hfs hls

/-- The headers of a unified diff are exact if and only if they are aligned, which may fail only at
the very start or end of the texts. -/
theorem patches_iff_aligned (old new oldLabel newLabel : String) (context : Nat)
    (ho : (textLines old).length < 2 ^ 32 - 1) (hn : (textLines new).length < 2 ^ 32 - 1) :
    Patches (unifiedDiff old new oldLabel newLabel context).hunks (textLines old) (textLines new) ↔
      Aligned (unifiedDiff old new oldLabel newLabel context).hunks (textLines old)
        (textLines new) := by
  constructor
  · intro h
    obtain ⟨hs, ht⟩ := aligned_of_turns h.turns
    exact ⟨hs, by simpa using ht⟩
  · rintro ⟨hs, ht⟩
    have hp := turns_hunks oldLabel newLabel context fun _ _ _ h hc hstart hstop =>
      placed_of_group ho hn h hc hstart hstop
    refine patches_of_turns (exact_of_placed hp (Nat.zero_add _) (Nat.zero_add _) ?_ ht)
    exact fun _ _ => hs

/-- A text from which a line is deleted. -/
theorem patches_deleted_line :
    (textLines "a\nb\n").length < 2 ^ 32 - 1 ∧ (textLines "a\n").length < 2 ^ 32 - 1 ∧
      Patches (unifiedDiff "a\nb\n" "a\n" "a" "b" 4).hunks (textLines "a\nb\n")
        (textLines "a\n") := by
  have ho : (textLines "a\nb\n").length < 2 ^ 32 - 1 := by decide
  have hn : (textLines "a\n").length < 2 ^ 32 - 1 := by decide
  refine ⟨ho, hn, (patches_iff_aligned _ _ _ _ _ ho hn).2 ?_⟩
  have hl : textLines "a\nb\n" = ["a\n", "b\n"] ∧ textLines "a\n" = ["a\n"] := by decide
  have hd : unifiedDiff "a\nb\n" "a\n" "a" "b" 4 =
      ⟨"a", "b", [⟨⟨0, 2, 0, 1⟩, [⟨.context, "a"⟩, ⟨.deletion, "b"⟩]⟩]⟩ := by
    rw [unifiedDiff, hl.1, hl.2]
    cbv
  rw [hd, hl.1, hl.2]
  refine ⟨?_, ?_⟩
  · rintro _ ⟨⟩
    rfl
  · rintro _ ⟨⟩
    rfl

/-- The deletion of `a` and the insertion of `b` change places when the insertion moves down over
the kept line `b`, and the deletion keeps the place in the new text that it had behind the
insertion. So the hunk claims one line of each text, though it shows two. -/
theorem not_patches_swapped :
    ¬ Patches (unifiedDiff "a\nb\n" "b\nb\n" "a" "b" 4).hunks (textLines "a\nb\n")
      (textLines "b\nb\n") := by
  have hl : textLines "a\nb\n" = ["a\n", "b\n"] ∧ textLines "b\nb\n" = ["b\n", "b\n"] := by decide
  have hm : middle? ["a\n"] ["b\n"] = some (0, 1) := by cbv
  have hs : script ["a\n", "b\n"] ["b\n", "b\n"] = _ :=
    scriptFrom_middle (o := ["a\n"]) (n := ["b\n"]) (p := 0) (s := 1) 0 0 (by decide) (by decide)
      (by decide) (by decide) (by decide) hm
  have hd : unifiedDiff "a\nb\n" "b\nb\n" "a" "b" 4 = ⟨"a", "b",
      [⟨⟨0, 1, 1, 1⟩, [⟨.deletion, "a"⟩, ⟨.context, "b"⟩, ⟨.addition, "b"⟩]⟩]⟩ := by
    rw [unifiedDiff, hl.1, hl.2, lineSections, hs]
    cbv
  rw [hd, hl.1, hl.2]
  rintro ⟨-, -, h⟩
  exact absurd h (by decide)

/-- Hunks with unchanged lines at both ends. -/
def Hunk.Framed (h : Hunk) : Prop :=
  (∀ l ∈ h.lines.head?, l.kind = .context) ∧ ∀ l ∈ h.lines.getLast?, l.kind = .context

/-- A changed section shows lines, and none of them is unchanged. -/
theorem changed_sectionLines (h : s.Leads old new p q) (hk : s.changed = true) :
    sectionLines old new s ≠ [] ∧ ∀ l ∈ sectionLines old new s, l.kind ≠ .context := by
  refine ⟨fun hnil => ?_, fun l hl => ?_⟩
  · obtain ⟨ho, hw⟩ := contents_sectionLines h
    have hoe := h.old_end
    have hwe := h.new_end
    have hol := h.old_le
    have hwl := h.new_le
    have hsolid := h.solid hk
    rw [hnil] at ho hw
    have ho := congrArg List.length ho
    have hw := congrArg List.length hw
    rw [List.length_map, length_slice (by omega)] at ho hw
    simp only [oldContents, newContents, List.filter_nil, List.map_nil, List.length_nil] at ho hw
    omega
  · rw [sectionLines, hk, if_pos rfl] at hl
    rcases List.mem_append.1 hl with hl | hl
    · obtain ⟨-, -, rfl⟩ := List.mem_map.1 hl
      simp
    · obtain ⟨-, -, rfl⟩ := List.mem_map.1 hl
      simp

private theorem header_of_framed (ho : old.length < HunkRange.limit)
    (hn : new.length < HunkRange.limit) (h : Diff.Path (Section.Leads old new) a g q) :
    ∀ k ∈ Hunk.ofGroup? old new g, k.Framed → k.header = .between a q := by
  rintro k hk ⟨hhead, hlast⟩
  obtain ⟨f, l, rfl, hf, hl, ⟨b, hfl⟩, c, hll⟩ := ends_of_group h hk
  have hfk : f.changed = false := by
    by_contra hc
    obtain ⟨hne, hkind⟩ := changed_sectionLines hfl (by simpa using hc)
    obtain ⟨gs, rfl⟩ := List.head?_eq_some_iff.1 hf
    obtain ⟨x, xs, hx⟩ := List.exists_cons_of_ne_nil hne
    exact hkind x (by simp [hx]) (hhead x (by simp [hx]))
  have hlk : l.changed = false := by
    by_contra hc
    obtain ⟨hne, hkind⟩ := changed_sectionLines hll (by simpa using hc)
    obtain ⟨gs, rfl⟩ := List.getLast?_eq_some_iff.1 hl
    obtain ⟨xs, x, hx⟩ := List.eq_nil_or_concat _ |>.resolve_left hne
    exact hkind x (by simp [hx]) (hlast x (by simp [hx]))
  have hle := le_of_sections h
  have hstop := stopsAt_of_kept hll hlk l rfl
  exact header_of_ends ho hn hle ⟨hll.old_le, hll.new_le⟩
    ⟨hfl.old_start (.inl hfk), hfl.new_start (.inl hfk)⟩ (by omega)

/-- A hunk with unchanged lines at both ends has an exact header. -/
theorem turns_framed (old new oldLabel newLabel : String) (context : Nat)
    (ho : (textLines old).length < HunkRange.limit)
    (hn : (textLines new).length < HunkRange.limit) :
    Turns (fun h r => h.Framed → h.header = r) 0 0
      (unifiedDiff old new oldLabel newLabel context).hunks (textLines old) (textLines new) :=
  turns_hunks oldLabel newLabel context fun _ _ _ h _ _ _ => header_of_framed ho hn h

end Headers

end SheetDiff
