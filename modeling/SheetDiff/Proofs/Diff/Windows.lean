import SheetDiff.Proofs.Diff.Groups

/-!
# Groups as windows

Kept and changed sections take turns, and a group is a window on them. It shows a change, at most `n`
kept elements at each end and at most `2 * n` between two changes. It shows fewer than `n` only where
both lists start or end, and between two windows both lists keep at least one element that is not shown
(`path_windows`). A window records the places where it starts and stops; only a change at the very start
or end of both lists may record other places than its own.
-/

namespace SheetDiff.Diff

variable {α : Type} {old new : List α} {p q r top bottom : Place} {s : Section} {ss : List Section}
  {n : Nat}

/-! ## Windows -/

/-- How a window stops. -/
structure Stops (n : Nat) (bottom : Place) (ss : List Section) (q : Place) : Prop where
  recorded : StopsAt ss q ∨ q = bottom
  full : StopsFull n bottom ss q

theorem stops_nil : Stops n bottom [] q := ⟨.inl (by simp [StopsAt]), by simp [StopsFull]⟩

theorem stops_cons (hne : ss ≠ []) : Stops n bottom (s :: ss) q ↔ Stops n bottom ss q := by
  have hlast : (s :: ss).getLast? = ss.getLast? := by
    obtain ⟨t, ts, rfl⟩ := List.exists_cons_of_ne_nil hne
    simp
  constructor
  · rintro ⟨hrecorded, hfull⟩
    exact ⟨by rwa [StopsAt, hlast] at hrecorded, by rwa [StopsFull, hlast] at hfull⟩
  · rintro ⟨hrecorded, hfull⟩
    exact ⟨by rwa [StopsAt, hlast], by rwa [StopsFull, hlast]⟩

theorem Stops.tail (h : Stops n bottom (s :: ss) q) : Stops n bottom ss q := by
  by_cases hne : ss = []
  · subst hne
    exact stops_nil
  · exact (stops_cons hne).1 h

/-- Sections that take turns and keep at most `2 * n` elements each, up to the end of a window. -/
structure Shown (n : Nat) (bottom : Place) (group : List Section) (q : Place) : Prop where
  alternates : group.IsChain Section.Alternates
  between : ∀ s ∈ group, s.keptLength ≤ 2 * n
  stops : Stops n bottom group q

theorem Shown.cons (h : Shown n bottom ss q) (hs : s.keptLength ≤ 2 * n)
    (hhead : ∀ t ∈ ss.head?, s.Alternates t) (hstops : Stops n bottom (s :: ss) q) :
    Shown n bottom (s :: ss) q :=
  ⟨List.isChain_cons.2 ⟨hhead, h.alternates⟩, List.forall_mem_cons.2 ⟨hs, h.between⟩, hstops⟩

/-- A group that shows changes with at most `n` kept elements around each, from one place to another. -/
structure Window (old new : List α) (n : Nat) (top bottom : Place) (group : List Section)
    (p q : Place) : Prop extends Shown n bottom group q where
  leads : Path (Section.Leads old new) p group q
  changed : group.any (·.changed) = true
  recorded : StartsAt group p ∨ p = top
  full : StartsFull n top group p

/-- A window behind a place. Both lists keep what lies between them, which is at least one element
unless the place is the top. -/
def WindowBehind (old new : List α) (n : Nat) (top bottom : Place) (group : List Section)
    (p q : Place) : Prop :=
  ∃ a, Kept old new p a ∧ (p = a → p = top) ∧ Window old new n top bottom group a q

/-! ## Cutting -/

/-- What a group has of a section that it ends with or goes on behind. -/
def Section.opening (n : Nat) (s : Section) : Section :=
  if !s.changed && 2 * n < s.old.length then s.firstPart n else s

@[simp] theorem changed_opening (n : Nat) (s : Section) : (s.opening n).changed = s.changed := by
  unfold Section.opening
  split <;> rfl

theorem opening_of_le (h : s.keptLength ≤ 2 * n) : s.opening n = s := by
  unfold Section.opening
  split
  · rename_i hs
    simp only [Bool.and_eq_true, Bool.not_eq_true', decide_eq_true_eq] at hs
    rw [keptLength_of_kept hs.1] at h
    omega
  · rfl

/-- Only an empty list of sections has an empty first group. -/
private theorem eq_nil_of_cutGroups {gs : List (List Section)} (h : cutGroups n ss = [] :: gs) :
    ss = [] ∧ gs = [] := by
  cases ss with
  | nil => simpa [cutGroups, eq_comm] using h
  | cons s ss =>
    unfold cutGroups at h
    split at h
    · simp at h
    · cases hc : cutGroups n ss with
      | nil => simp [hc] at h
      | cons g gs => simp [hc] at h

/-- A section that keeps too much is not the last one, and a changed section follows. -/
private theorem exists_changed_next (hc : (s :: ss).IsChain Section.Alternates)
    (hstop : StopsFull n bottom (s :: ss) q) (hk : s.changed = false) (hn : 2 * n < s.old.length) :
    ∃ t ts, ss = t :: ts ∧ t.changed = true := by
  cases ss with
  | nil =>
    have hle := (hstop s rfl).1
    rw [keptLength_of_kept hk] at hle
    omega
  | cons t ts =>
    have hst := (List.isChain_cons_cons.1 hc).1
    exact ⟨t, ts, rfl, by simpa [Section.Alternates, hk] using hst⟩

/-- A section that is cut ends one window, and with the group behind it makes another. -/
private theorem windows_of_cut {g : List Section} {t : Section} {b : Place}
    (hs : s.Leads old new p b) (hk : s.changed = false) (hlong : 2 * n < s.old.length)
    (ht : t.changed = true) (hg : Path (Section.Leads old new) b (t :: g) r)
    (hshown : Shown n bottom (t :: g) r) :
    ∃ c, (s.firstPart n).Leads old new p c ∧ Shown n bottom [s.firstPart n] c ∧
      WindowBehind old new n top bottom (s.lastPart n :: t :: g) c r := by
  obtain ⟨c, d, hfirst, -, -, hlast, -, hgap⟩ := hs.cut hk n
  obtain ⟨hcd, hne⟩ := hgap hlong
  have hfirstKept : (s.firstPart n).keptLength = n := by
    rw [keptLength_firstPart hk]
    omega
  have hlastKept : (s.lastPart n).keptLength = n := by
    rw [keptLength_lastPart hk]
    omega
  refine ⟨c, hfirst, ⟨List.isChain_singleton _, ?between, .inl (stopsAt_of_kept hfirst hk), ?stop⟩,
    d, hcd, fun h => absurd h hne, ⟨?shown, ⟨b, hlast, hg⟩, by simp [ht],
      .inl (startsAt_of_kept hlast hk), ?start⟩⟩
  case between =>
    rw [List.forall_mem_singleton]
    omega
  case stop =>
    intro u hu
    obtain rfl : s.firstPart n = u := by simpa using hu
    exact ⟨hfirstKept.le, fun h => absurd hfirstKept h.ne⟩
  case start =>
    rintro _ ⟨⟩
    exact ⟨hlastKept.le, fun h => absurd hlastKept h.ne⟩
  case shown =>
    refine hshown.cons (by omega) ?_ ((stops_cons (by simp)).2 hshown.stops)
    rintro _ ⟨⟩
    have hkept : (s.lastPart n).changed = false := hk
    simp [Section.Alternates, hkept, ht]

/-- The first group leads from the start of the sections, and windows follow it. -/
private theorem windows_cutGroups (top : Place) (h : Path (Section.Leads old new) p ss q)
    (hc : ss.IsChain Section.Alternates) (hstops : Stops n bottom ss q) :
    ∃ g gs r, cutGroups n ss = g :: gs ∧ Path (Section.Leads old new) p g r ∧
      Path (WindowBehind old new n top bottom) r gs q ∧ Shown n bottom g r ∧
      g.head? = ss.head?.map (·.opening n) ∧
      (ss.any (·.changed) → (∀ s ∈ ss.head?, s.keptLength ≤ 2 * n) → g.any (·.changed)) := by
  induction ss generalizing p with
  | nil =>
    obtain rfl : p = q := h
    exact ⟨[], [], p, rfl, rfl, rfl, ⟨.nil, by simp, stops_nil⟩, rfl, by simp⟩
  | cons s ss ih =>
    obtain ⟨b, hs, hss⟩ := h
    obtain ⟨g, gs, r, hg, hpath, hgs, hshown, hhead, -⟩ := ih hss hc.tail hstops.tail
    unfold cutGroups
    rw [hg, List.modifyHead_cons, List.modifyHead_cons]
    split
    · rename_i hcut
      have hopening : s.opening n = s.firstPart n := if_pos hcut
      simp only [Bool.and_eq_true, Bool.not_eq_true', decide_eq_true_eq] at hcut
      obtain ⟨hk, hlong⟩ := hcut
      obtain ⟨t, ts, rfl, ht⟩ := exists_changed_next hc hstops.full hk hlong
      rw [List.head?_cons, Option.map_some, opening_of_le (by simp [keptLength_of_changed ht])]
        at hhead
      obtain ⟨us, rfl⟩ := List.head?_eq_some_iff.1 hhead
      obtain ⟨c, hfirst, hfirstShown, hwindow⟩ := windows_of_cut hs hk hlong ht hpath hshown
      refine ⟨[s.firstPart n], (s.lastPart n :: t :: us) :: gs, c, rfl, path_singleton.2 hfirst,
        ⟨r, hwindow, hgs⟩, hfirstShown, by simp [hopening], fun _ hle => ?_⟩
      have hle := hle s rfl
      rw [keptLength_of_kept hk] at hle
      omega
    · rename_i hcut
      have hshort : s.keptLength ≤ 2 * n := by
        unfold Section.keptLength
        split
        · omega
        · simp_all
      refine ⟨s :: g, gs, r, rfl, ⟨b, hs, hpath⟩, hgs, hshown.cons hshort ?alternates ?stops,
        by simp [opening_of_le hshort], fun hany _ => ?changed⟩
      case alternates =>
        intro u hu
        obtain ⟨t, ht, rfl⟩ := Option.map_eq_some_iff.1 (hhead.symm.trans hu)
        have hst := (List.isChain_cons.1 hc).1 t ht
        rwa [Section.Alternates, changed_opening]
      case stops =>
        by_cases hnil : g = []
        · subst hnil
          obtain ⟨rfl, rfl⟩ := eq_nil_of_cutGroups hg
          obtain rfl : r = q := hgs
          exact hstops
        · exact (stops_cons hnil).2 hshown.stops
      case changed =>
        -- behind a kept section the group goes on with a changed one
        cases hk : s.changed with
        | true => simp [hk]
        | false =>
          cases ss with
          | nil => simp [hk] at hany
          | cons t ts =>
            have ht : t.changed = true := by
              have hst := (List.isChain_cons_cons.1 hc).1
              simpa [Section.Alternates, hk] using hst
            obtain ⟨us, rfl⟩ := List.head?_eq_some_iff.1 hhead
            simp [ht]

/-! ## All groups -/

/-- Sections without a change cover what both lists keep. -/
private theorem kept_of_unchanged (hp : Kept old new p p) (h : Path (Section.Leads old new) p ss q)
    (hk : ∀ s ∈ ss, s.changed = false) : Kept old new p q := by
  induction ss generalizing p with
  | nil =>
    obtain rfl : p = q := h
    exact hp
  | cons s ss ih =>
    obtain ⟨a, hs, hss⟩ := h
    obtain ⟨hks, hkss⟩ := List.forall_mem_cons.1 hk
    exact (hs.kept hks).trans (ih (hs.kept hks).stop hss hkss)

/-- Trimmed sections with a change are cut into windows, and both lists keep what lies around them. -/
private theorem windows_of_changed (n : Nat) (h : Path (Section.Leads old new) p ss q)
    (hp : Kept old new p p) (hc : ss.IsChain Section.Alternates) (hany : ss.any (·.changed) = true) :
    ∃ r, Path (WindowBehind old new n p q) p (cutGroups n (trimEnds n ss)) r ∧ Kept old new r q := by
  obtain ⟨a, b, hpa, hbq, ht, hrecorded, hstop, hfull, hstopFull⟩ :=
    path_trimEnds n h hp (kept_of_path hp h) hany
  obtain ⟨g, gs, r, hcut, hg, hgs, hshown, hhead, hchanged⟩ :=
    windows_cutGroups p ht (isChain_trimEnds n hc) ⟨hstop, hstopFull⟩
  have hshort : ∀ s ∈ (trimEnds n ss).head?, s.keptLength ≤ 2 * n := by
    intro s hs
    have := (hfull s hs).1
    omega
  have hsame : g.head? = (trimEnds n ss).head? := by
    rw [hhead]
    cases hs : (trimEnds n ss).head? with
    | none => rfl
    | some s => rw [Option.map_some, opening_of_le (hshort s hs)]
  have hfirst : g.any (·.changed) = true := by
    refine hchanged ?_ hshort
    rw [any_changed_of_map (map_change?_trimEnds n ss), hany]
  rw [hcut]
  exact ⟨b, ⟨r, ⟨a, hpa, fun _ => rfl, hshown, hg, hfirst, by rwa [StartsAt, hsame],
    by rwa [StartsFull, hsame]⟩, hgs⟩, hbq⟩

/-- Where something changed no group is left out. -/
theorem groups_of_changed (n : Nat) (h : Path (Section.Leads old new) p ss q)
    (hp : Kept old new p p) (hc : ss.IsChain Section.Alternates) (hany : ss.any (·.changed) = true) :
    groups n ss = cutGroups n (trimEnds n ss) := by
  obtain ⟨r, hr, -⟩ := windows_of_changed n h hp hc hany
  refine List.filter_eq_self.2 fun g hg => ?_
  obtain ⟨a, b, c, -, -, hwindow⟩ := hr.leads_of_mem hg
  exact hwindow.changed

/-- The groups of sections that take turns are windows, and both lists keep what lies around them. -/
theorem path_windows (n : Nat) (h : Path (Section.Leads old new) p ss q) (hp : Kept old new p p)
    (hc : ss.IsChain Section.Alternates) :
    ∃ r, Path (WindowBehind old new n p q) p (groups n ss) r ∧ Kept old new r q := by
  by_cases hany : ss.any (·.changed) = true
  · rw [groups_of_changed n h hp hc hany]
    exact windows_of_changed n h hp hc hany
  · have hk : ∀ s ∈ ss, s.changed = false := by simpa using hany
    rw [groups_of_unchanged hk]
    exact ⟨p, rfl, kept_of_unchanged hp h hk⟩

/-- A group that leads from one place of two lists to another, over kept elements first, and
records where it starts and stops unless that is at the top or at the bottom. -/
structure GroupLeads (old new : List α) (top bottom : Place) (group : List Section)
    (p q : Place) : Prop where
  start : ∃ a, Kept old new p a ∧ Path (Section.Leads old new) a group q ∧
    (StartsAt group a ∨ a = top)
  stop : StopsAt group q ∨ q = bottom

theorem path_groups (n : Nat) (h : Path (Section.Leads old new) p ss q) (hp : Kept old new p p)
    (hc : ss.IsChain Section.Alternates) :
    ∃ r, Path (GroupLeads old new p q) p (groups n ss) r ∧ Kept old new r q := by
  obtain ⟨r, hr, hrq⟩ := path_windows n h hp hc
  refine ⟨r, hr.mono ?_, hrq⟩
  rintro g a b ⟨c, hac, -, hwindow⟩
  exact ⟨⟨c, hac, hwindow.leads, hwindow.recorded⟩, hwindow.stops.recorded⟩

end SheetDiff.Diff
