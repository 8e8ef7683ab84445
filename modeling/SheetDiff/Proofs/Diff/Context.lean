import SheetDiff.Proofs.Diff.Patch

/-!
# Unchanged lines around changes

A hunk shows `n` unchanged lines before its first change and behind its last one, or all that there are
at the ends of both texts, and changes that are more than `2 * n` lines apart stand in different hunks,
between which something is left out (`hunks_shaped`). A hunk stands where its lines do, which is where
its header says unless a change at the very start or end records another place (`patches_iff_aligned`).

What is said of the lines of a hunk comes from the sections of its window: kept and changed sections take
turns, so that each run of unchanged lines is one kept section.
-/

namespace SheetDiff

open Diff

/-- The number of unchanged lines before the first change. -/
def leading (ls : List HunkLine) : Nat := (ls.takeWhile (·.kind = .context)).length

/-- The number of unchanged lines behind the last change. -/
def trailing (ls : List HunkLine) : Nat := leading ls.reverse

/-! ## Lines of sections that take turns -/

/-- Lines that show a section: as many unchanged lines as it keeps, or some changed lines. -/
structure ShowsSection (s : Section) (ls : List HunkLine) : Prop where
  kept : s.changed = false → ls.length = s.old.length ∧ ∀ l ∈ ls, l.kind = .context
  changed : s.changed = true → ls ≠ [] ∧ ∀ l ∈ ls, l.kind ≠ .context

section Turns

variable {s : Section} {group : List Section} {lines : Section → List HunkLine} {n : Nat}
  {ls rest : List HunkLine}

theorem ShowsSection.reverse (h : ShowsSection s ls) : ShowsSection s ls.reverse := by
  constructor
  · intro hk
    simpa using h.kept hk
  · intro hc
    simpa using h.changed hc

/-- No unchanged line stands before the lines of a changed section. -/
private theorem takeWhile_of_changed (h : ShowsSection s ls) (hc : s.changed = true) :
    (ls ++ rest).takeWhile (·.kind = .context) = [] := by
  obtain ⟨hne, hkind⟩ := h.changed hc
  obtain ⟨l, ls, rfl⟩ := List.exists_cons_of_ne_nil hne
  simp [hkind l (by simp)]

/-- The unchanged lines before the first change are those of the first section. -/
theorem leading_flatMap (hs : ∀ t ∈ s :: group, ShowsSection t (lines t))
    (hc : (s :: group).IsChain Section.Alternates) :
    leading ((s :: group).flatMap lines) = s.keptLength := by
  have hshows := hs s List.mem_cons_self
  rw [leading, List.flatMap_cons]
  cases hk : s.changed with
  | true => rw [takeWhile_of_changed hshows hk, keptLength_of_changed hk, List.length_nil]
  | false =>
    obtain ⟨hlength, hkind⟩ := hshows.kept hk
    have hrest : (group.flatMap lines).takeWhile (·.kind = .context) = [] := by
      cases group with
      | nil => rfl
      | cons t ts =>
        have ht : t.changed = true := by
          have hst := (List.isChain_cons_cons.1 hc).1
          simpa [Section.Alternates, hk] using hst
        rw [List.flatMap_cons, takeWhile_of_changed (hs t (by simp)) ht]
    rw [List.takeWhile_append_of_pos fun l hl => by simpa using hkind l hl, hrest, List.append_nil,
      hlength, keptLength_of_kept hk]

/-- The unchanged lines behind the last change are those of the last section. -/
theorem trailing_flatMap (hs : ∀ t ∈ group ++ [s], ShowsSection t (lines t))
    (hc : (group ++ [s]).IsChain Section.Alternates) :
    trailing ((group ++ [s]).flatMap lines) = s.keptLength := by
  have hreverse : (group ++ [s]).reverse = s :: group.reverse := by simp
  have hflip : (fun t u : Section => u.Alternates t) = Section.Alternates := by
    funext t u
    exact propext ne_comm
  rw [trailing, List.reverse_flatMap, hreverse]
  refine leading_flatMap (fun t ht => ?_) ?_
  · rw [← hreverse, List.mem_reverse] at ht
    exact (hs t ht).reverse
  · rw [← hreverse, List.isChain_reverse, hflip]
    exact hc

/-- Unchanged lines up to a change. -/
private theorem leading_append {run : List HunkLine} {d : HunkLine} (rest : List HunkLine)
    (hrun : ∀ l ∈ run, l.kind = .context) (hd : d.kind ≠ .context) :
    leading (run ++ d :: rest) = run.length := by
  rw [leading, List.takeWhile_append_of_pos fun l hl => by simpa using hrun l hl,
    List.takeWhile_cons_of_neg (by simpa using hd), List.append_nil]

/-- Unchanged lines between two changes are those of one section. -/
theorem length_between_le (hs : ∀ t ∈ group, ShowsSection t (lines t))
    (hc : group.IsChain Section.Alternates) (hn : ∀ t ∈ group, t.keptLength ≤ n)
    {before run after : List HunkLine} {c d : HunkLine}
    (h : group.flatMap lines = before ++ c :: (run ++ d :: after)) (hchange : c.kind ≠ .context)
    (hd : d.kind ≠ .context) (hrun : ∀ l ∈ run, l.kind = .context) : run.length ≤ n := by
  induction group generalizing before with
  | nil => simp at h
  | cons s group ih =>
    have hrest := fun t ht => hs t (List.mem_cons_of_mem s ht)
    have ih (before : List HunkLine)
        (hb : group.flatMap lines = before ++ c :: (run ++ d :: after)) : run.length ≤ n :=
      ih hrest hc.tail (fun t ht => hn t (List.mem_cons_of_mem s ht)) hb
    rw [List.flatMap_cons] at h
    rcases List.append_eq_append_iff.1 h with ⟨bs, -, hbs⟩ | ⟨cs, hcs, hbs⟩
    · exact ih bs hbs
    · cases cs with
      | nil => exact ih [] hbs.symm
      | cons c' cs =>
        -- the first of the two changes is a line of this section
        obtain ⟨rfl, hrun'⟩ := List.cons.inj hbs
        have hmem : c ∈ lines s := by simp [hcs]
        have hk : s.changed = true := by
          by_contra hk
          exact hchange (((hs s List.mem_cons_self).kept (by simpa using hk)).2 c hmem)
        have hleading := leading_append after hrun hd
        rw [hrun'] at hleading
        rw [← hleading]
        cases cs with
        | cons x xs =>
          have hx : x.kind ≠ .context :=
            ((hs s List.mem_cons_self).changed hk).2 x (by simp [hcs])
          simp [leading, hx]
        | nil =>
          cases group with
          | nil => simp at hrun'
          | cons t ts =>
            exact (leading_flatMap hrest hc.tail).trans_le (hn t (by simp))

end Turns

/-! ## Shapes of hunks -/

/-- The shape of a hunk that stands where its header says in texts of `oldEnd` and `newEnd` lines, and
shows `n` unchanged lines around changes. -/
structure Hunk.Shaped (n oldEnd newEnd : Nat) (h : Hunk) : Prop where
  change : ∃ l ∈ h.lines, l.kind ≠ .context
  leading_le : leading h.lines ≤ n
  trailing_le : trailing h.lines ≤ n
  between_le : ∀ {before run behind : List HunkLine} {c d : HunkLine},
    h.lines = before ++ c :: (run ++ d :: behind) → c.kind ≠ .context → d.kind ≠ .context →
    (∀ l ∈ run, l.kind = .context) → run.length ≤ 2 * n
  top : leading h.lines < n → h.header.oldStart = 0 ∧ h.header.newStart = 0
  bottom : trailing h.lines < n → h.header.oldStop = oldEnd ∧ h.header.newStop = newEnd

/-- Lines of both texts are left out between two hunks. -/
def Hunk.Before (h k : Hunk) : Prop :=
  h.header.oldStop < k.header.oldStart ∧ h.header.newStop < k.header.newStart

section Windows

variable {old new : List String} {p q r a : Diff.Place} {s : Section} {g : List Section} {n : Nat}

theorem showsSection_sectionLines (h : s.Leads old new p q) :
    ShowsSection s (sectionLines old new s) := by
  constructor
  · intro hk
    have hstart := h.old_start (.inl hk)
    have hend := h.old_end
    have hle := h.old_le
    rw [sectionLines, if_neg (by simp [hk])]
    constructor
    · rw [List.length_map, length_slice (by omega)]
    · intro l hl
      obtain ⟨-, -, rfl⟩ := List.mem_map.1 hl
      rfl
  · exact changed_sectionLines h

/-- A window is shown by a hunk of the right shape. -/
theorem shaped_of_window {k : Hunk} (h : Window old new n .top (.bottom old new) g a q)
    (hlines : k.lines = g.flatMap (sectionLines old new)) (hplace : k.header = .between a q) :
    k.Shaped n old.length new.length := by
  have hshows : ∀ s ∈ g, ShowsSection s (sectionLines old new s) := by
    intro s hs
    obtain ⟨b, c, hbc⟩ := h.leads.leads_of_mem hs
    exact showsSection_sectionLines hbc
  obtain ⟨s, hs, hk⟩ := List.any_eq_true.1 h.changed
  obtain ⟨ss, f, hlast⟩ := List.eq_nil_or_concat' g |>.resolve_left (List.ne_nil_of_mem hs)
  obtain ⟨t, ts, hhead⟩ := List.exists_cons_of_ne_nil (List.ne_nil_of_mem hs)
  have hleading : leading k.lines = t.keptLength := by
    rw [hlines]
    subst hhead
    exact leading_flatMap hshows h.alternates
  have htrailing : trailing k.lines = f.keptLength := by
    rw [hlines]
    subst hlast
    exact trailing_flatMap hshows h.alternates
  obtain ⟨hfirst, htop⟩ := h.full t (by simp [hhead])
  obtain ⟨hfinal, hbottom⟩ := h.stops.full f (by simp [hlast])
  refine ⟨?change, hleading ▸ hfirst, htrailing ▸ hfinal, ?between, ?top, ?bottom⟩
  case change =>
    obtain ⟨hne, hkind⟩ := (hshows s hs).changed hk
    obtain ⟨l, hl⟩ := List.exists_mem_of_ne_nil _ hne
    exact ⟨l, hlines ▸ List.mem_flatMap.2 ⟨s, hs, hl⟩, hkind l hl⟩
  case between =>
    intro before run behind c d hk
    exact length_between_le hshows h.alternates h.between (hlines ▸ hk)
  case top =>
    intro hlt
    obtain rfl := htop (hleading ▸ hlt)
    rw [hplace]
    exact ⟨rfl, rfl⟩
  case bottom =>
    intro hlt
    obtain ⟨ho, hw⟩ := le_of_sections h.leads
    obtain rfl := hbottom (htrailing ▸ hlt)
    rw [hplace]
    exact ⟨Nat.add_sub_of_le ho, Nat.add_sub_of_le hw⟩

/-- Kept elements between two places stand in both lists. -/
private theorem before_of_kept (h : Kept old new p a) (hne : p ≠ a) :
    p.old < a.old ∧ p.new < a.new := by
  obtain ⟨m, rfl, -⟩ := h
  have hm : m ≠ 0 := by
    rintro rfl
    exact hne rfl
  simp only
  omega

/-- Windows that follow each other are shown by hunks of the right shape, one behind the other. -/
private theorem shaped_of_path {gs : List (List Section)}
    (ho : ∀ l ∈ old, IsBare l (Text.bareLine l)) (hn : ∀ l ∈ new, IsBare l (Text.bareLine l))
    (h : Diff.Path (WindowBehind old new n .top (.bottom old new)) p gs r)
    (hr : Kept old new r (.bottom old new)) :
    ∃ hunks : List Hunk,
      hunks.map Hunk.lines = (gs.filterMap (Hunk.ofGroup? old new)).map Hunk.lines ∧
      Turns (fun h r => h.header = r) p.old p.new hunks (old.drop p.old) (new.drop p.new) ∧
      (∀ h ∈ hunks, h.Shaped n old.length new.length) ∧ hunks.IsChain Hunk.Before ∧
      ∀ h ∈ hunks.head?, p = .top ∨ p.old < h.header.oldStart ∧ p.new < h.header.newStart := by
  induction gs generalizing p with
  | nil =>
    obtain rfl : p = r := h
    exact ⟨[], rfl, turns_nil hr, by simp, .nil, by simp⟩
  | cons g gs ih =>
    obtain ⟨q, ⟨a, hpa, hne, hwindow⟩, hgs⟩ := h
    obtain ⟨hunks, hlines, hturns, hshaped, hchain, hhead⟩ := ih hgs
    have hlt := lt_of_sections hwindow.leads hwindow.changed
    obtain ⟨hle, hle'⟩ := le_of_sections hwindow.leads
    have hg : g ≠ [] := by
      rintro rfl
      simpa using hwindow.changed
    obtain ⟨header, hk⟩ := exists_ofGroup? old new hg
    set k : Hunk := ⟨.between a q, g.flatMap (sectionLines old new)⟩
    refine ⟨k :: hunks, ?lines, turns_cons ho hn hpa hwindow.leads rfl rfl hturns,
      List.forall_mem_cons.2 ⟨shaped_of_window hwindow rfl rfl, hshaped⟩,
      List.isChain_cons.2 ⟨fun k' hk' => ?before, hchain⟩, ?head⟩
    case lines =>
      rw [List.filterMap_cons_some hk, List.map_cons, List.map_cons, hlines]
    case before =>
      -- a window changes something, so the next one is not at the top
      rcases hhead k' hk' with rfl | ⟨hold, hnew⟩
      · simp only [Diff.Place.top] at hlt
        omega
      · have hstop : k.header.oldStop = q.old ∧ k.header.newStop = q.new :=
          ⟨Nat.add_sub_of_le hle, Nat.add_sub_of_le hle'⟩
        rw [Hunk.Before, hstop.1, hstop.2]
        exact ⟨hold, hnew⟩
    case head =>
      rintro _ ⟨⟩
      by_cases hpa' : p = a
      · exact .inl (hne hpa')
      · exact .inr (before_of_kept hpa hpa')

end Windows

/-- The hunks of a unified diff, put where their lines stand in both texts, turn one text into the
other, and each shows a change with at most `context` unchanged lines around it, at most twice as many
between two changes, and fewer at an end only where both texts start or end. Between two hunks lines
that both texts share are left out. -/
theorem hunks_shaped (old new oldLabel newLabel : String) (context : Nat) :
    ∃ hunks : List Hunk,
      hunks.map Hunk.lines = (unifiedDiff old new oldLabel newLabel context).hunks.map Hunk.lines ∧
      Turns (fun h r => h.header = r) 0 0 hunks (textLines old) (textLines new) ∧
      (∀ h ∈ hunks, h.Shaped context (textLines old).length (textLines new).length) ∧
      hunks.IsChain Hunk.Before := by
  obtain ⟨r, hr, hk⟩ := path_windows context (path_lineSections (textLines old) (textLines new))
    (kept_top _ _) (isChain_lineSections _ _)
  obtain ⟨hunks, hlines, hturns, hshaped, hchain, -⟩ := shaped_of_path
    (fun _ h => isBare_bareLine h) (fun _ h => isBare_bareLine h) hr hk
  exact ⟨hunks, hlines, hturns, hshaped, hchain⟩

end SheetDiff
