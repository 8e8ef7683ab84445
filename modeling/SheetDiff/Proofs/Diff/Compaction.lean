import SheetDiff.Diff.Compaction
import SheetDiff.Proofs.Diff.Script

/-!
# Compaction keeps the path

Compaction rewrites a script in three ways: it joins two edits of one kind, it swaps a deletion
with an insertion, and it slides an insertion over kept elements that the insertion shares. Each of
these leaves a path from the same place to the same place (`path_join`, `path_swap`,
`path_slideUp`, `path_slideDown`), so the compacted script leads from top to bottom again
(`path_compact`). What a swapped edit records for the other list is out of date afterwards.
-/

namespace SheetDiff.Diff

variable {α : Type} {old new : List α} {p q : Place} {e f : Edit} {es : List Edit} {n : Nat}

/-- The edits of a cursor in order. -/
def Cursor.edits (c : Cursor) : List Edit := c.before.reverse ++ c.edit :: c.after

/-! ## Joining and swapping -/

theorem path_join (h : Path (Edit.Leads old new) p [e, f] q) (hk : e.kind = f.kind) :
    Path (Edit.Leads old new) p [e.resized (e.length + f.length)] q := by
  obtain ⟨r, he, hf⟩ := path_pair.1 h
  obtain ⟨kind, i, j, m⟩ := e
  obtain ⟨_, i', j', m'⟩ := f
  obtain rfl : kind = _ := hk
  rw [path_singleton, Edit.resized]
  cases kind with
  | keep =>
    obtain ⟨hm, rfl, rfl, rfl, -, -, hs⟩ := leads_keep_iff.1 he
    obtain ⟨hm', rfl, rfl, rfl, hol, hwl, hs'⟩ := leads_keep_iff.1 hf
    simp only [Nat.add_assoc] at hol hwl ⊢
    exact leads_keep_iff.2 ⟨by omega, rfl, rfl, rfl, hol, hwl, by rw [slice_add, slice_add, hs, hs']⟩
  | delete =>
    obtain ⟨hm, rfl, rfl, -, -⟩ := leads_delete_iff.1 he
    obtain ⟨hm', rfl, rfl, hol, hwl⟩ := leads_delete_iff.1 hf
    simp only [Nat.add_assoc] at hol ⊢
    exact leads_delete_iff.2 ⟨by omega, rfl, rfl, hol, hwl⟩
  | insert =>
    obtain ⟨hm, rfl, rfl, -, -⟩ := leads_insert_iff.1 he
    obtain ⟨hm', rfl, rfl, hol, hwl⟩ := leads_insert_iff.1 hf
    simp only [Nat.add_assoc] at hwl ⊢
    exact leads_insert_iff.2 ⟨by omega, rfl, rfl, hol, hwl⟩

theorem path_swap (h : Path (Edit.Leads old new) p [e, f] q) (hk : e.kind ≠ f.kind)
    (he : e.kind ≠ .keep) (hf : f.kind ≠ .keep) : Path (Edit.Leads old new) p [f, e] q := by
  obtain ⟨r, h1, h2⟩ := path_pair.1 h
  obtain ⟨kind, i, j, m⟩ := e
  obtain ⟨kind', i', j', m'⟩ := f
  cases kind with
  | keep => exact absurd rfl he
  | delete =>
    obtain rfl : kind' = .insert := by cases kind' <;> simp_all
    obtain ⟨hm, rfl, rfl, hol, -⟩ := leads_delete_iff.1 h1
    obtain ⟨hm', rfl, rfl, hol', hwl⟩ := leads_insert_iff.1 h2
    exact path_pair.2 ⟨⟨p.old, p.new + m'⟩,
      leads_insert_iff.2 ⟨hm', rfl, rfl, by omega, hwl⟩, leads_delete_iff.2 ⟨hm, rfl, rfl, hol, hwl⟩⟩
  | insert =>
    obtain rfl : kind' = .delete := by cases kind' <;> simp_all
    obtain ⟨hm, rfl, rfl, -, hwl⟩ := leads_insert_iff.1 h1
    obtain ⟨hm', rfl, rfl, hol, -⟩ := leads_delete_iff.1 h2
    exact path_pair.2 ⟨⟨p.old + m', p.new⟩, leads_delete_iff.2 ⟨hm', rfl, rfl, hol, by omega⟩,
      leads_insert_iff.2 ⟨hm, rfl, rfl, hol, hwl⟩⟩

/-! ## Sliding an insertion -/

/-- Only an insertion shares elements with kept ones. -/
private theorem kind_of_shared (hf : f.kind ≠ .keep) (hn : n ≤ (f.newPart new).length)
    (hpos : 0 < n) : f.kind = .insert := by
  cases hk : f.kind with
  | keep => exact absurd hk hf
  | delete =>
    simp only [Edit.newPart, Edit.newLength, hk, if_true, slice_zero, List.length_nil] at hn
    omega
  | insert => rfl

variable [DecidableEq α]

theorem path_slideUp (h : Path (Edit.Leads old new) p [e, f] q) (he : e.kind = .keep)
    (hf : f.kind ≠ .keep) (hn : n = commonSuffix (e.oldPart old) (f.newPart new)) (hpos : 0 < n) :
    Path (Edit.Leads old new) p
      ((if e.length - n = 0 then [] else [e.resized (e.length - n)]) ++
        [f.earlier n, ⟨.keep, e.old + e.length - n, f.new + f.length - n, n⟩]) q := by
  have hnl : n ≤ (e.oldPart old).length := hn ▸ commonSuffix_le_left ..
  have hnr : n ≤ (f.newPart new).length := hn ▸ commonSuffix_le_right ..
  obtain ⟨r, h1, h2⟩ := path_pair.1 h
  have hfi := kind_of_shared hf hnr hpos
  obtain ⟨_, i, j, m⟩ := e
  obtain ⟨_, i', j', m'⟩ := f
  subst he hfi
  obtain ⟨-, rfl, rfl, rfl, hol, -, hs⟩ := leads_keep_iff.1 h1
  obtain ⟨hm', rfl, rfl, -, hwl⟩ := leads_insert_iff.1 h2
  have he := slice_commonSuffix hn
  simp only [Edit.oldPart, Edit.newPart, Edit.oldLength, Edit.newLength, reduceCtorEq, if_false,
    Edit.resized, Edit.earlier] at hnl hnr he hol hwl ⊢
  rw [length_slice hol] at hnl
  rw [length_slice hwl] at hnr
  rw [length_slice hol, length_slice hwl, slice_slice _ _ (by omega), slice_slice _ _ (by omega)] at he
  refine path_append.2 ⟨⟨p.old + (m - n), p.new + (m - n)⟩,
    path_keeps (by omega) (by omega) (slice_eq_slice hs 0 (by omega)), path_pair.2
      ⟨⟨p.old + (m - n), p.new + (m - n) + m'⟩, ?inserted, ?kept⟩⟩
  case inserted =>
    exact leads_insert_iff.2 ⟨hm', by simp only; omega, rfl, by simp only; omega, by
      simp only; omega⟩
  case kept =>
    refine leads_keep_iff.2 ⟨hpos, by simp only; omega, by simp only; omega, ?_, by simp only; omega,
      by simp only; omega, ?_⟩
    · rw [Place.mk.injEq]
      simp only
      omega
    · simpa only [show p.new + m + (m' - n) = p.new + (m - n) + m' by omega] using he

theorem path_slideDown (h : Path (Edit.Leads old new) p [f, e] q) (he : e.kind = .keep)
    (hf : f.kind ≠ .keep) (hn : n = commonPrefix (e.oldPart old) (f.newPart new)) (hpos : 0 < n) :
    Path (Edit.Leads old new) p
      ([⟨.keep, e.old, f.new, n⟩, f.later n] ++
        if e.length - n = 0 then [] else [(e.later n).resized (e.length - n)]) q := by
  have hnl : n ≤ (e.oldPart old).length := hn ▸ commonPrefix_le_left ..
  have hnr : n ≤ (f.newPart new).length := hn ▸ commonPrefix_le_right ..
  obtain ⟨r, h1, h2⟩ := path_pair.1 h
  have hfi := kind_of_shared hf hnr hpos
  obtain ⟨_, i, j, m⟩ := e
  obtain ⟨_, i', j', m'⟩ := f
  subst he hfi
  obtain ⟨hm', rfl, rfl, -, -⟩ := leads_insert_iff.1 h1
  obtain ⟨-, rfl, rfl, rfl, hol, hwl, hs⟩ := leads_keep_iff.1 h2
  have he := slice_commonPrefix hn
  simp only [Edit.oldPart, Edit.newPart, Edit.oldLength, Edit.newLength, reduceCtorEq, if_false,
    Edit.resized, Edit.later] at hnl hnr he hol hwl ⊢
  rw [length_slice hol] at hnl
  rw [length_slice (by omega)] at hnr
  rw [slice_slice _ _ (by omega), slice_slice _ _ (by omega)] at he
  refine path_append.2 ⟨⟨p.old + n, p.new + n + m'⟩, path_pair.2 ⟨⟨p.old + n, p.new + n⟩,
    leads_keep_iff.2 ⟨hpos, rfl, rfl, rfl, by omega, by omega, he⟩,
    leads_insert_iff.2 ⟨hm', rfl, rfl, by simp only; omega, by simp only; omega⟩⟩, ?_⟩
  have hk : Path (Edit.Leads old new) ⟨p.old + n, p.new + m' + n⟩ _ _ :=
    path_keeps (n := m - n) (by simp only; omega) (by simp only; omega)
      (slice_eq_slice hs n (by omega))
  simpa only [show p.new + m' + n = p.new + n + m' by omega,
    show p.old + n + (m - n) = p.old + m by omega,
    show p.new + n + m' + (m - n) = p.new + m' + m by omega] using hk

/-! ## Kept elements beside an insertion -/

omit [DecidableEq α] in
theorem path_keepBefore {i j : Nat}
    (h : Path (Edit.Leads old new) p (⟨.keep, i - n, j - n, n⟩ :: es) q) :
    Path (Edit.Leads old new) p (keepBefore n i j es) q := by
  unfold keepBefore
  split
  · rename_i e es
    split
    · rename_i he
      obtain ⟨r, h1, s, h2, h3⟩ := h
      have hj := path_join (path_pair.2 ⟨r, h1, h2⟩) he.symm
      obtain ⟨_, i', j', m⟩ := e
      subst he
      obtain ⟨hn, ho, hw, rfl, -⟩ := leads_keep_iff.1 h1
      obtain ⟨-, rfl, rfl, -⟩ := leads_keep_iff.1 h2
      refine ⟨s, ?_, h3⟩
      simpa only [Edit.resized, Edit.earlier, Nat.add_sub_cancel, Nat.add_comm m n, ho, hw]
        using path_singleton.1 hj
    · exact h
  · exact h

omit [DecidableEq α] in
theorem path_keepAfter {i j : Nat}
    (h : Path (Edit.Leads old new) p (es.reverse ++ [⟨.keep, i, j, n⟩]) q) :
    Path (Edit.Leads old new) p (keepAfter n i j es).reverse q := by
  unfold keepAfter
  split
  · rename_i e es
    split
    · rename_i he
      rw [List.reverse_cons, List.append_assoc] at h
      rw [List.reverse_cons]
      obtain ⟨r, h1, h2⟩ := path_append.1 h
      exact path_append.2 ⟨r, h1, path_join h2 he⟩
    · simpa using h
  · simpa using h

/-! ## Cursors -/

omit [DecidableEq α] in
/-- The edit of a cursor and the one before it may be replaced. -/
private theorem path_replace_before {before after ys : List Edit}
    (h : Path (Edit.Leads old new) p (Cursor.edits ⟨e :: before, f, after⟩) q)
    (hr : ∀ a b, Path (Edit.Leads old new) a [e, f] b → Path (Edit.Leads old new) a ys b) :
    Path (Edit.Leads old new) p (before.reverse ++ (ys ++ after)) q := by
  have h' : Path (Edit.Leads old new) p (before.reverse ++ ([e, f] ++ after)) q := by
    simpa [Cursor.edits] using h
  exact h'.replace hr

omit [DecidableEq α] in
/-- The edit of a cursor and the one after it may be replaced. -/
private theorem path_replace_after {before after ys : List Edit}
    (h : Path (Edit.Leads old new) p (Cursor.edits ⟨before, f, e :: after⟩) q)
    (hr : ∀ a b, Path (Edit.Leads old new) a [f, e] b → Path (Edit.Leads old new) a ys b) :
    Path (Edit.Leads old new) p (before.reverse ++ (ys ++ after)) q := by
  have h' : Path (Edit.Leads old new) p (before.reverse ++ ([f, e] ++ after)) q := h
  exact h'.replace hr

omit [DecidableEq α] in
private theorem path_raised {before after ks : List Edit} {i j : Nat}
    (h : Path (Edit.Leads old new) p
      (before.reverse ++ (ks ++ [f, ⟨.keep, i - n, j - n, n⟩] ++ after)) q) :
    Path (Edit.Leads old new) p (Cursor.edits ⟨ks.reverse ++ before, f, keepBefore n i j after⟩) q := by
  rw [List.append_assoc, ← List.append_assoc] at h
  obtain ⟨a, h1, h2⟩ := path_append.1 h
  obtain ⟨b, hf, h3⟩ := h2
  simp only [Cursor.edits, List.reverse_append, List.reverse_reverse]
  exact path_append.2 ⟨a, h1, b, hf, path_keepBefore h3⟩

omit [DecidableEq α] in
private theorem path_lowered {before after ks : List Edit} {i j : Nat}
    (h : Path (Edit.Leads old new) p
      (before.reverse ++ ([⟨.keep, i, j, n⟩, f] ++ ks ++ after)) q) :
    Path (Edit.Leads old new) p (Cursor.edits ⟨keepAfter n i j before, f, ks ++ after⟩) q := by
  rw [List.append_assoc, show [(⟨.keep, i, j, n⟩ : Edit), f] = [⟨.keep, i, j, n⟩] ++ [f] from rfl,
    List.append_assoc, ← List.append_assoc] at h
  obtain ⟨a, h1, h2⟩ := path_append.1 h
  exact path_append.2 ⟨a, path_keepAfter h1, h2⟩

theorem path_up (before : List Edit) (edit : Edit) (after : List Edit) (hk : edit.kind ≠ .keep)
    (h : Path (Edit.Leads old new) p (Cursor.edits ⟨before, edit, after⟩) q) :
    Path (Edit.Leads old new) p (Cursor.up old new before edit after).edits q := by
  fun_induction Cursor.up old new before edit after with
  | case1 edit after => exact h
  | case2 edit after e es he ih =>
    exact ih (he ▸ hk) (path_replace_before h fun a b hab => path_join hab he)
  | case3 edit after e es hne he n hn after' hle ih =>
    have hs := path_replace_before h fun a b hab => path_slideUp hab he hk (n := n) rfl hn
    rw [if_pos (by omega)] at hs
    exact ih hk (path_raised hs)
  | case4 edit after e es hne he n hn after' hle ih =>
    have hs := path_replace_before h fun a b hab => path_slideUp hab he hk (n := n) rfl hn
    rw [if_neg (by omega)] at hs
    exact ih hk (path_raised hs)
  | case5 edit after e es hne he n hn h0 ih =>
    -- an edit on a path is not empty
    have hs : Path (Edit.Leads old new) p (es.reverse ++ ([edit] ++ after)) q := by
      refine path_replace_before h fun a b hab => ?_
      obtain ⟨c, hc, -⟩ := hab
      exact absurd hc.pos (by omega)
    exact ih hk hs
  | case6 edit after e es hne he n hn h0 => exact h
  | case7 edit after e es hne he ih =>
    exact ih hk (path_replace_before h fun a b hab => path_swap hab hne he hk)

theorem path_down (before : List Edit) (edit : Edit) (after : List Edit) (hk : edit.kind ≠ .keep)
    (h : Path (Edit.Leads old new) p (Cursor.edits ⟨before, edit, after⟩) q) :
    Path (Edit.Leads old new) p (Cursor.down old new before edit after).edits q := by
  fun_induction Cursor.down old new before edit after with
  | case1 before edit => exact h
  | case2 before edit e es he ih =>
    exact ih hk (path_replace_after h fun a b hab => path_join hab he.symm)
  | case3 before edit e es hne he n hn before' hle ih =>
    have hs := path_replace_after h fun a b hab => path_slideDown hab he hk (n := n) rfl hn
    rw [if_pos (by omega)] at hs
    exact ih hk (path_lowered hs)
  | case4 before edit e es hne he n hn before' hle ih =>
    have hs := path_replace_after h fun a b hab => path_slideDown hab he hk (n := n) rfl hn
    rw [if_neg (by omega)] at hs
    exact ih hk (path_lowered hs)
  | case5 before edit e es hne he n hn h0 ih =>
    have hs : Path (Edit.Leads old new) p (before.reverse ++ ([edit] ++ es)) q := by
      refine path_replace_after h fun a b hab => ?_
      obtain ⟨c, -, hc⟩ := path_pair.1 hab
      exact absurd hc.pos (by omega)
    exact ih hk hs
  | case6 before edit e es hne he n hn h0 => exact h
  | case7 before edit e es hne he ih =>
    have hs := path_replace_after h fun a b hab => path_swap hab (Ne.symm hne) hk he
    exact ih hk (by simpa [Cursor.edits] using hs)

/-! ## Settling -/

/-- An edit keeps its kind on the way up. -/
private theorem kind_up (before : List Edit) (edit : Edit) (after : List Edit) :
    (Cursor.up old new before edit after).edit.kind = edit.kind := by
  fun_induction Cursor.up old new before edit after with
  | case1 => rfl
  | case2 edit after e es he ih => exact ih.trans he
  | case3 _ _ _ _ _ _ _ _ _ _ ih => exact ih
  | case4 _ _ _ _ _ _ _ _ _ _ ih => exact ih
  | case5 _ _ _ _ _ _ _ _ _ ih => exact ih
  | case6 => rfl
  | case7 _ _ _ _ _ _ ih => exact ih

theorem path_settleFrom {kind : EditKind} (hk : kind ≠ .keep) (fuel : Nat) (before es : List Edit)
    (h : Path (Edit.Leads old new) p (before.reverse ++ es) q) :
    Path (Edit.Leads old new) p (settleFrom old new kind fuel before es) q := by
  fun_induction settleFrom old new kind fuel before es with
  | case1 fuel before e es he raised settled ih =>
    have hu := path_up before e es (he ▸ hk) h
    have hd := path_down raised.before raised.edit raised.after
      (by rw [kind_up]; exact he ▸ hk) hu
    exact ih (by simpa [Cursor.edits] using hd)
  | case2 fuel before e es he ih => exact ih (by simpa using h)
  | case3 => exact h

theorem path_settle {kind : EditKind} (hk : kind ≠ .keep)
    (h : Path (Edit.Leads old new) p es q) : Path (Edit.Leads old new) p (settle old new kind es) q :=
  path_settleFrom hk _ [] es h

/-- The compacted script of two lists leads from their start to their end. -/
theorem path_compact (old new : List α) :
    Path (Edit.Leads old new) .top (compact old new (script old new)) (.bottom old new) :=
  path_settle (by simp) (path_settle (by simp) (path_script old new))

end SheetDiff.Diff
