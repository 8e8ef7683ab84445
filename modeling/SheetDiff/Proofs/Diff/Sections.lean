import SheetDiff.Diff.Section
import SheetDiff.Proofs.Diff.Compaction

/-!
# Sections lead on

The sections of a script lead where its edits lead (`path_sections`). A changed section that takes
nothing from one of the lists may record any place in it; all other places are exact. Kept and changed
sections take turns (`isChain_sections`).
-/

namespace SheetDiff.Diff

variable {α : Type} {old new : List α} {p q r : Place}

/-! ## Lists of lists -/

section Lists

variable {β γ : Type} {leads : β → Place → Place → Prop} {leads' : γ → Place → Place → Prop}

theorem path_flatten {xss : List (List β)} :
    Path leads p xss.flatten q ↔ Path (fun xs a b => Path leads a xs b) p xss q := by
  induction xss generalizing p with
  | nil => simp [Path]
  | cons xs xss ih => simp only [List.flatten_cons, path_append, Path, ih]

theorem path_filterMap {f : β → Option γ} {xs : List β} (h : Path leads p xs q)
    (hf : ∀ x ∈ xs, ∀ a b, leads x a b → ∃ y, f x = some y ∧ leads' y a b) :
    Path leads' p (xs.filterMap f) q := by
  induction xs generalizing p with
  | nil => exact h
  | cons x xs ih =>
    obtain ⟨a, hx, hxs⟩ := h
    obtain ⟨y, hy, hl⟩ := hf x (by simp) p a hx
    rw [List.filterMap_cons_some hy]
    exact ⟨a, hl, ih hxs fun z hz => hf z (by simp [hz])⟩

end Lists

/-! ## Sections of a script -/

/-- A section that leads from one place of two lists to another. -/
structure Section.Leads (old new : List α) (s : Section) (p q : Place) : Prop where
  old_end : q.old = p.old + s.old.length
  new_end : q.new = p.new + s.new.length
  old_le : q.old ≤ old.length
  new_le : q.new ≤ new.length
  old_start : s.changed = false ∨ 0 < s.old.length → s.old.start = p.old
  new_start : s.changed = false ∨ 0 < s.new.length → s.new.start = p.new
  same : s.changed = false → s.old.length = s.new.length ∧
    slice old p.old s.old.length = slice new p.new s.new.length
  solid : s.changed = true → 0 < s.old.length + s.new.length

/-- Edits that all keep elements lead where one of their total length leads. -/
private theorem leads_of_kept {e : Edit} {es : List Edit} (h : Path (Edit.Leads old new) p (e :: es) q)
    (hk : ∀ d ∈ e :: es, d.kind = .keep) :
    (e.resized (totalLength (e :: es))).Leads old new p q := by
  induction es generalizing e p with
  | nil => simpa [totalLength, Edit.resized] using path_singleton.1 h
  | cons d es ih =>
    obtain ⟨a, he, hes⟩ := h
    have hd := ih hes fun x hx => hk x (by simp [hx])
    have hj := path_join (path_pair.2 ⟨a, he, hd⟩) ((hk e (by simp)).trans (hk d (by simp)).symm)
    simpa [totalLength, Edit.resized] using path_singleton.1 hj

/-- Where edits lead that all change something, and where the first of each kind stands. -/
private theorem leads_of_changed {es : List Edit} (h : Path (Edit.Leads old new) p es q)
    (hk : ∀ e ∈ es, e.kind ≠ .keep) :
    q.old = p.old + totalLength (es.filter (·.kind = .delete)) ∧
      q.new = p.new + totalLength (es.filter (·.kind = .insert)) ∧
      (∀ d ∈ (es.filter (·.kind = .delete)).head?, d.old = p.old) ∧
      (∀ d ∈ (es.filter (·.kind = .insert)).head?, d.new = p.new) := by
  induction es generalizing p with
  | nil =>
    obtain rfl : p = q := h
    simp [totalLength]
  | cons e es ih =>
    obtain ⟨a, he, hes⟩ := h
    obtain ⟨ho, hw, hd, hi⟩ := ih hes fun d hd => hk d (by simp [hd])
    obtain ⟨kind, i, j, m⟩ := e
    cases kind with
    | keep => exact absurd rfl (hk _ List.mem_cons_self)
    | delete =>
      obtain ⟨-, rfl, rfl, -⟩ := leads_delete_iff.1 he
      refine ⟨?_, by simpa using hw, by simp, by simpa using hi⟩
      rw [ho]
      simp [totalLength, Nat.add_assoc]
    | insert =>
      obtain ⟨-, rfl, rfl, -⟩ := leads_insert_iff.1 he
      refine ⟨by simpa using ho, ?_, by simpa using hd, by simp⟩
      rw [hw]
      simp [totalLength, Nat.add_assoc]

/-- A path of edits ends inside both lists. -/
private theorem le_of_path {es : List Edit} (h : Path (Edit.Leads old new) p es q) (hne : es ≠ []) :
    q.old ≤ old.length ∧ q.new ≤ new.length := by
  obtain ⟨init, e, rfl⟩ := List.eq_nil_or_concat es |>.resolve_left hne
  obtain ⟨a, -, he⟩ := path_append.1 (List.concat_eq_append ▸ h)
  have he := path_singleton.1 he
  exact ⟨he.old_le, he.new_le⟩

/-- A path of edits moves on. -/
private theorem lt_of_path {es : List Edit} (h : Path (Edit.Leads old new) p es q) (hne : es ≠ []) :
    p.old + p.new < q.old + q.new := by
  induction es generalizing p with
  | nil => exact absurd rfl hne
  | cons e es ih =>
    obtain ⟨a, he, hes⟩ := h
    have ho := he.old_end
    have hw := he.new_end
    have hpos := he.pos
    have hstep : p.old + p.new < a.old + a.new := by
      cases hk : e.kind <;> simp [Edit.oldLength, Edit.newLength, hk] at ho hw <;> omega
    cases es with
    | nil =>
      obtain rfl : a = q := hes
      exact hstep
    | cons f es => exact Nat.lt_trans hstep (ih hes (by simp))

/-- The section of edits that all change something leads where they lead. -/
private theorem changedSection_leads {e : Edit} {es : List Edit}
    (h : Path (Edit.Leads old new) p (e :: es) q) (hk : ∀ d ∈ e :: es, d.kind ≠ .keep) :
    ∃ s, changedSection (e :: es) = some s ∧ s.changed = true ∧ s.Leads old new p q := by
  obtain ⟨ho, hw, hd, hi⟩ := leads_of_changed h hk
  obtain ⟨hol, hwl⟩ := le_of_path h (by simp)
  have hlt := lt_of_path h (by simp)
  have hnil : totalLength [] = 0 := rfl
  cases hd0 : (e :: es).filter (·.kind = .delete) with
  | nil =>
    rw [hd0] at ho
    cases hi0 : (e :: es).filter (·.kind = .insert) with
    | nil =>
      have hd1 := List.filter_eq_nil_iff.1 hd0 e (by simp)
      have hi1 := List.filter_eq_nil_iff.1 hi0 e (by simp)
      have hk1 := hk e (by simp)
      cases hek : e.kind <;> simp_all
    | cons i is =>
      rw [hi0] at hw hi
      simp only [changedSection, hd0, hi0]
      exact ⟨_, rfl, rfl, ho, hw, hol, hwl, fun h => by simp at h, fun _ => hi i rfl,
        (fun h => nomatch h), fun _ => by simp only; omega⟩
  | cons d ds =>
    rw [hd0] at ho hd
    cases hi0 : (e :: es).filter (·.kind = .insert) with
    | nil =>
      rw [hi0] at hw
      simp only [changedSection, hd0, hi0]
      exact ⟨_, rfl, rfl, ho, hw, hol, hwl, fun _ => hd d rfl, fun h => by simp at h,
        (fun h => nomatch h), fun _ => by simp only; omega⟩
    | cons i is =>
      rw [hi0] at hw hi
      simp only [changedSection, hd0, hi0]
      exact ⟨_, rfl, rfl, ho, hw, hol, hwl, fun _ => hd d rfl, fun _ => hi i rfl,
        (fun h => nomatch h), fun _ => by simp only; omega⟩

/-- The section of edits that all keep elements leads where they lead. -/
private theorem keptSection_leads {e : Edit} {es : List Edit}
    (h : Path (Edit.Leads old new) p (e :: es) q) (hk : ∀ d ∈ e :: es, d.kind = .keep) :
    Section.Leads old new
      ⟨false, ⟨e.old, totalLength (e :: es)⟩, ⟨e.new, totalLength (e :: es)⟩⟩ p q := by
  have hl := leads_of_kept h hk
  obtain ⟨_, i, j, m⟩ := e
  obtain rfl := hk _ List.mem_cons_self
  obtain ⟨hpos, rfl, rfl, rfl, hol, hwl, hs⟩ := leads_keep_iff.1 hl
  exact ⟨rfl, rfl, hol, hwl, fun _ => rfl, fun _ => rfl, fun _ => ⟨rfl, hs⟩, fun h => nomatch h⟩

/-- Kept or changed as its neighbours are. -/
theorem kinds_of_chain {e : Edit} {es : List Edit}
    (h : List.IsChain (fun d e : Edit => decide ((d.kind = .keep) = (e.kind = .keep))) (e :: es)) :
    ∀ d ∈ e :: es, d.kind = .keep ↔ e.kind = .keep := by
  induction es generalizing e with
  | nil => simp
  | cons d es ih =>
    rw [List.isChain_cons_cons, decide_eq_true_eq, eq_iff_iff] at h
    intro x hx
    rcases List.mem_cons.1 hx with rfl | hx
    · rfl
    · exact (ih h.2 x hx).trans h.1.symm

private theorem runSection_leads {run : List Edit} (h : Path (Edit.Leads old new) p run q)
    (hne : run ≠ [])
    (hc : run.IsChain fun d e : Edit => decide ((d.kind = .keep) = (e.kind = .keep))) :
    ∃ s, runSection? run = some s ∧ (∀ e ∈ run, s.changed = true ↔ e.kind ≠ .keep) ∧
      s.Leads old new p q := by
  obtain ⟨e, es, rfl⟩ := List.exists_cons_of_ne_nil hne
  have hk := kinds_of_chain hc
  simp only [runSection?]
  split
  · rename_i he
    have hl := keptSection_leads h fun d hd => (hk d hd).2 he
    exact ⟨_, rfl, fun d hd => by simp [(hk d hd).2 he], hl⟩
  · rename_i he
    obtain ⟨s, hs, hch, hl⟩ := changedSection_leads h fun d hd hkeep => he ((hk d hd).1 hkeep)
    exact ⟨s, hs, fun d hd => by simp [hch, mt (hk d hd).1 he], hl⟩

/-- A section that covers something. -/
def Section.Solid (s : Section) : Prop := 0 < s.old.length + s.new.length

/-- The sections of a script lead where the script leads, and each covers something. -/
theorem path_sections {es : List Edit} (h : Path (Edit.Leads old new) p es q) :
    Path (fun s a b => Section.Leads old new s a b ∧ s.Solid) p (sections es) q := by
  rw [← List.flatten_splitBy (fun d e : Edit => decide ((d.kind = .keep) = (e.kind = .keep))) es,
    path_flatten] at h
  refine path_filterMap h fun run hrun a b hp => ?_
  have hne := List.ne_nil_of_mem_splitBy hrun
  obtain ⟨s, hs, -, hl⟩ := runSection_leads hp hne (List.isChain_of_mem_splitBy hrun)
  have hlt := lt_of_path hp hne
  have ho := hl.old_end
  have hw := hl.new_end
  exact ⟨s, hs, hl, by rw [Section.Solid]; omega⟩

/-- Neighbouring sections, of which exactly one is kept. -/
def Section.Alternates (s t : Section) : Prop := s.changed ≠ t.changed

private theorem isChain_filterMap {β γ : Type} {R : β → β → Prop} {R' : γ → γ → Prop}
    {f : β → Option γ} {xs : List β} (h : xs.IsChain R) (hf : ∀ x ∈ xs, ∃ y, f x = some y)
    (hR : ∀ x ∈ xs, ∀ x' ∈ xs, ∀ y y', R x x' → f x = some y → f x' = some y' → R' y y') :
    (xs.filterMap f).IsChain R' := by
  induction xs with
  | nil => exact .nil
  | cons x xs ih =>
    obtain ⟨y, hy⟩ := hf x (by simp)
    have ht := ih h.tail (fun z hz => hf z (by simp [hz]))
      (fun z hz z' hz' => hR z (by simp [hz]) z' (by simp [hz']))
    rw [List.filterMap_cons_some hy]
    cases xs with
    | nil => exact List.isChain_singleton y
    | cons x' xs =>
      obtain ⟨y', hy'⟩ := hf x' (by simp)
      rw [List.filterMap_cons_some hy'] at ht ⊢
      rw [List.isChain_cons_cons] at h ⊢
      exact ⟨hR x (by simp) x' (by simp) y y' h.1 hy hy', ht⟩

theorem isChain_sections {es : List Edit} (h : Path (Edit.Leads old new) p es q) :
    (sections es).IsChain Section.Alternates := by
  have hp := h
  rw [← List.flatten_splitBy (fun d e : Edit => decide ((d.kind = .keep) = (e.kind = .keep))) es,
    path_flatten] at hp
  have key : ∀ run ∈ es.splitBy (fun d e : Edit => decide ((d.kind = .keep) = (e.kind = .keep))),
      ∃ s, runSection? run = some s ∧ ∀ e ∈ run, s.changed = true ↔ e.kind ≠ .keep := by
    intro run hrun
    obtain ⟨a, b, hab⟩ := hp.leads_of_mem hrun
    obtain ⟨s, hs, hk, -⟩ := runSection_leads hab (List.ne_nil_of_mem_splitBy hrun)
      (List.isChain_of_mem_splitBy hrun)
    exact ⟨s, hs, hk⟩
  refine isChain_filterMap (List.isChain_getLast_head_splitBy _ es)
    (fun run hrun => (key run hrun).imp fun s hs => hs.1) ?_
  rintro run hrun run' hrun' s s' ⟨hne, hne', hR⟩ hs hs'
  obtain ⟨t, ht, hk⟩ := key run hrun
  obtain ⟨t', ht', hk'⟩ := key run' hrun'
  obtain rfl : s = t := by simpa [hs] using ht
  obtain rfl : s' = t' := by simpa [hs'] using ht'
  rw [decide_eq_false_iff_not, eq_iff_iff] at hR
  have h1 := hk _ (List.getLast_mem hne)
  have h2 := hk' _ (List.head_mem hne')
  intro hsame
  rw [hsame] at h1
  exact hR (not_iff_not.1 (h1.symm.trans h2))

end SheetDiff.Diff
