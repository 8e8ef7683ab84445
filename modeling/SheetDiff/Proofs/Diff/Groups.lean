import SheetDiff.Proofs.Diff.Sections

/-!
# Kept elements around changes

Between two places both lists may keep what lies there (`Kept`). A kept section may be cut in two
(`Section.Leads.cut`). Groups show the parts of all sections in order (`flatten_cutGroups`), and the
changed sections whole (`changes_groups`). Trimmed sections record where they start and stop, unless that
is at the top or at the bottom, and show as many kept elements as asked for at both ends, or all that are
there (`path_trimEnds`).
-/

namespace SheetDiff.Diff

variable {α : Type} {old new : List α} {p q r : Place} {s : Section} {ss : List Section} {n : Nat}

/-! ## Kept elements -/

/-- Both lists keep what lies between two places. -/
def Kept (old new : List α) (p q : Place) : Prop :=
  ∃ n, q = ⟨p.old + n, p.new + n⟩ ∧ q.old ≤ old.length ∧ q.new ≤ new.length ∧
    slice old p.old n = slice new p.new n

theorem Kept.refl (ho : p.old ≤ old.length) (hw : p.new ≤ new.length) : Kept old new p p :=
  ⟨0, rfl, ho, hw, by rw [slice_zero, slice_zero]⟩

theorem kept_top (old new : List α) : Kept old new .top .top :=
  .refl (Nat.zero_le _) (Nat.zero_le _)

theorem Kept.trans (h : Kept old new p q) (h' : Kept old new q r) : Kept old new p r := by
  obtain ⟨m, rfl, -, -, hs⟩ := h
  obtain ⟨m', rfl, hol, hwl, hs'⟩ := h'
  refine ⟨m + m', by simp only [Nat.add_assoc], hol, hwl, ?_⟩
  rw [slice_add, slice_add, hs, hs']

theorem Kept.stop (h : Kept old new p q) : Kept old new q q := by
  obtain ⟨-, -, ho, hw, -⟩ := h
  exact .refl ho hw

/-- Sections that start inside both lists end there. -/
theorem kept_of_path (hp : Kept old new p p) (h : Path (Section.Leads old new) p ss q) :
    Kept old new q q := by
  induction ss generalizing p with
  | nil =>
    obtain rfl : p = q := h
    exact hp
  | cons s ss ih =>
    obtain ⟨a, hs, hss⟩ := h
    exact ih (.refl hs.old_le hs.new_le) hss

theorem Section.Leads.kept (h : s.Leads old new p q) (hk : s.changed = false) :
    Kept old new p q := by
  obtain ⟨hl, hs⟩ := h.same hk
  refine ⟨s.old.length, ?_, h.old_le, h.new_le, by rw [hs, hl]⟩
  have ho := h.old_end
  have hw := h.new_end
  cases q
  simp_all

/-- A kept section may be cut in two; both parts record their places. They are the whole section if it
is short enough, and leave something out between them if it is longer than both. -/
theorem Section.Leads.cut (h : s.Leads old new p q) (hk : s.changed = false) (n : Nat) :
    ∃ a b, (s.firstPart n).Leads old new p a ∧ Kept old new a q ∧
      Kept old new p b ∧ (s.lastPart n).Leads old new b q ∧
      (s.old.length ≤ n → a = q ∧ b = p) ∧ (2 * n < s.old.length → Kept old new a b ∧ a ≠ b) := by
  obtain ⟨hl, hs⟩ := h.same hk
  have ho := h.old_start (.inl hk)
  have hw := h.new_start (.inl hk)
  have hoe := h.old_end
  have hwe := h.new_end
  have hol := h.old_le
  have hwl := h.new_le
  rw [← hl] at hs hwe
  set m := s.old.length with hm
  set k := min n m with hkdef
  have hparts (b c : Nat) (hb : b + c ≤ m) :
      slice old (p.old + b) c = slice new (p.new + b) c := slice_eq_slice hs b hb
  refine ⟨⟨p.old + k, p.new + k⟩, ⟨p.old + (m - k), p.new + (m - k)⟩, ?_, ?_, ?_, ?_, ?_, ?_⟩
  · exact ⟨rfl, rfl, by simp only; omega, by simp only; omega, fun _ => ho, fun _ => hw,
      fun _ => ⟨rfl, hparts 0 k (by omega)⟩, fun h => absurd (hk.symm.trans h) (by simp)⟩
  · refine ⟨m - k, ?_, hol, hwl, hparts k (m - k) (by omega)⟩
    have hold : p.old + k + (m - k) = q.old := by omega
    have hnew : p.new + k + (m - k) = q.new := by omega
    simp only [hold, hnew]
  · exact ⟨m - k, rfl, by simp only; omega, by simp only; omega, hparts 0 (m - k) (by omega)⟩
  · refine ⟨by simp only [Section.lastPart]; omega, by simp only [Section.lastPart]; omega, hol, hwl,
      fun _ => ?_, fun _ => ?_, fun _ => ⟨rfl, ?_⟩, fun h => absurd (hk.symm.trans h) (by simp)⟩
    · simp only [Section.lastPart]
      omega
    · simp only [Section.lastPart]
      omega
    · exact hparts (m - k) k (by omega)
  · intro hn
    cases p
    cases q
    simp only [Place.mk.injEq] at hoe hwe ⊢
    omega
  · intro hn
    refine ⟨⟨m - k - k, ?_, by simp only; omega, by simp only; omega, ?_⟩, ?_⟩
    · rw [Place.mk.injEq]
      simp only
      omega
    · exact hparts k (m - k - k) (by omega)
    · rw [ne_eq, Place.mk.injEq]
      omega

/-! ## Changed sections -/

/-- The section itself if it is changed. -/
def Section.change? (s : Section) : Option Section := if s.changed then some s else none

/-- The changed sections in order. -/
def changes (ss : List Section) : List Section := ss.filterMap Section.change?

theorem change?_of_kept (h : s.changed = false) : s.change? = none := if_neg (by simp [h])

@[simp] theorem isSome_change? (s : Section) : s.change?.isSome = s.changed := by
  cases h : s.changed <;> simp [Section.change?, h]

@[simp] theorem changes_nil : changes [] = [] := rfl

@[simp] theorem changes_cons (s : Section) (ss : List Section) :
    changes (s :: ss) = s.change?.toList ++ changes ss := by
  rw [changes, List.filterMap_cons]
  cases s.change? <;> rfl

@[simp] theorem changes_append (ss ts : List Section) :
    changes (ss ++ ts) = changes ss ++ changes ts :=
  List.filterMap_append

theorem changes_eq_nil_iff : changes ss = [] ↔ ∀ s ∈ ss, s.changed = false := by
  simp [changes, List.filterMap_eq_nil_iff, ← Option.isNone_iff_eq_none, ← Option.not_isSome]

theorem onKept_of_kept (f : Section → Section) (h : s.changed = false) : s.onKept f = f s :=
  if_neg (by simp [h])

theorem onKept_of_changed (f : Section → Section) (h : s.changed = true) : s.onKept f = s := if_pos h

theorem change?_onKept {f : Section → Section} (hf : ∀ s, (f s).changed = s.changed) (s : Section) :
    (s.onKept f).change? = s.change? := by
  cases hk : s.changed with
  | true => rw [onKept_of_changed f hk]
  | false => rw [onKept_of_kept f hk, change?_of_kept hk, change?_of_kept ((hf s).trans hk)]

private theorem map_change?_modify {f : Section → Section} (hf : ∀ s, (f s).changed = s.changed)
    (i : Nat) (ss : List Section) :
    (ss.modify i (·.onKept f)).map Section.change? = ss.map Section.change? := by
  induction ss generalizing i with
  | nil => simp
  | cons s ss ih => cases i <;> simp [change?_onKept hf, ih]

private theorem modifyHead_eq_modify {β : Type} (f : β → β) (xs : List β) :
    xs.modifyHead f = xs.modify 0 f := by
  cases xs <;> rfl

/-- Trimming leaves the changed sections where they are. -/
theorem map_change?_trimEnds (n : Nat) (ss : List Section) :
    (trimEnds n ss).map Section.change? = ss.map Section.change? := by
  have hfirst (s : Section) : (s.firstPart n).changed = s.changed := rfl
  have hlast (s : Section) : (s.lastPart n).changed = s.changed := rfl
  rw [trimEnds, modifyHead_eq_modify, map_change?_modify hfirst, map_change?_modify hlast]

private theorem changes_eq_of_map {ts : List Section}
    (h : ts.map Section.change? = ss.map Section.change?) : changes ts = changes ss := by
  have hid := congrArg (List.filterMap id) h
  rwa [List.filterMap_map, List.filterMap_map] at hid

theorem any_changed_of_map {ts : List Section}
    (h : ts.map Section.change? = ss.map Section.change?) :
    ts.any (·.changed) = ss.any (·.changed) := by
  have hany := congrArg (List.any · Option.isSome) h
  simpa only [List.any_map, Function.comp_def, isSome_change?] using hany

theorem isChain_trimEnds (n : Nat) (h : ss.IsChain Section.Alternates) :
    (trimEnds n ss).IsChain Section.Alternates := by
  have hmap (ts : List Section) : ts.IsChain Section.Alternates ↔
      (ts.map Section.change?).IsChain fun x y => x.isSome ≠ y.isSome := by
    simp only [List.isChain_map, isSome_change?]
    rfl
  rwa [hmap, map_change?_trimEnds, ← hmap]

theorem cutGroups_ne_nil (n : Nat) (ss : List Section) : cutGroups n ss ≠ [] := by
  induction ss with
  | nil => simp [cutGroups]
  | cons s ss ih =>
    unfold cutGroups
    split <;> simp [ih]

/-- The parts of a section that groups show. -/
def Section.parts (n : Nat) (s : Section) : List Section :=
  if !s.changed && 2 * n < s.old.length then [s.firstPart n, s.lastPart n] else [s]

/-- Groups show the parts of all sections in order. -/
theorem flatten_cutGroups (n : Nat) (ss : List Section) :
    (cutGroups n ss).flatten = ss.flatMap (Section.parts n) := by
  induction ss with
  | nil => rfl
  | cons s ss ih =>
    obtain ⟨g, gs, hg⟩ := List.exists_cons_of_ne_nil (cutGroups_ne_nil n ss)
    rw [hg] at ih
    rw [List.flatMap_cons, ← ih]
    unfold cutGroups Section.parts
    rw [hg]
    split <;> rfl

/-- Only kept sections are cut. -/
private theorem changes_parts (n : Nat) (s : Section) : changes (s.parts n) = s.change?.toList := by
  unfold Section.parts
  split
  · rename_i hs
    have hk : s.changed = false := by simp_all
    have hfirst : (s.firstPart n).change? = none := change?_of_kept hk
    have hlast : (s.lastPart n).change? = none := change?_of_kept hk
    simp [hfirst, hlast, change?_of_kept hk]
  · simp

private theorem changes_cutGroups (n : Nat) (ss : List Section) :
    changes (cutGroups n ss).flatten = changes ss := by
  rw [flatten_cutGroups]
  induction ss with
  | nil => rfl
  | cons s ss ih => rw [List.flatMap_cons, changes_append, changes_parts, ih, changes_cons]

/-- Groups hold all changed sections in order. -/
theorem changes_groups (n : Nat) (ss : List Section) : changes (groups n ss).flatten = changes ss := by
  have hfilter (gs : List (List Section)) :
      changes (gs.filter (·.any (·.changed))).flatten = changes gs.flatten := by
    induction gs with
    | nil => rfl
    | cons g gs ih =>
      rw [List.filter_cons]
      split
      · simp [ih]
      · rename_i hg
        have hnil : changes g = [] := changes_eq_nil_iff.2 (by simpa using hg)
        simp [ih, hnil]
  rw [groups, hfilter, changes_cutGroups, changes_eq_of_map (map_change?_trimEnds n ss)]

/-- Where nothing changed there is no group. -/
theorem groups_of_unchanged (h : ∀ s ∈ ss, s.changed = false) : groups n ss = [] := by
  have hnil := changes_eq_nil_iff.1 ((changes_groups n ss).trans (changes_eq_nil_iff.2 h))
  refine List.eq_nil_iff_forall_not_mem.2 fun g hg => ?_
  obtain ⟨s, hs, hc⟩ := List.any_eq_true.1 (List.mem_filter.1 hg).2
  exact Bool.false_ne_true ((hnil s (List.mem_flatten.2 ⟨g, hg, hs⟩)).symm.trans hc)

/-! ## Ends of a list of sections -/

/-- The first section, if there is one, records the place it starts at. -/
def StartsAt (ss : List Section) (p : Place) : Prop :=
  ∀ s ∈ ss.head?, s.old.start = p.old ∧ s.new.start = p.new

/-- The last section, if there is one, records the place it stops at. -/
def StopsAt (ss : List Section) (q : Place) : Prop :=
  ∀ s ∈ ss.getLast?, s.old.stop = q.old ∧ s.new.stop = q.new

theorem startsAt_of_kept (h : s.Leads old new p q) (hk : s.changed = false) :
    StartsAt (s :: ss) p := by
  rintro _ ⟨⟩
  exact ⟨h.old_start (.inl hk), h.new_start (.inl hk)⟩

theorem stopsAt_of_kept (h : s.Leads old new p q) (hk : s.changed = false) :
    StopsAt [s] q := by
  intro t ht
  obtain rfl : s = t := by simpa using ht
  rw [Span.stop, Span.stop, h.old_start (.inl hk), h.new_start (.inl hk), h.old_end, h.new_end]
  exact ⟨rfl, rfl⟩

theorem stopsAt_append (h : StopsAt [s] q) : StopsAt (ss ++ [s]) q := by
  simpa [StopsAt] using h

/-- The number of elements that a section keeps. -/
def Section.keptLength (s : Section) : Nat := if s.changed then 0 else s.old.length

theorem keptLength_of_changed (h : s.changed = true) : s.keptLength = 0 := by
  rw [Section.keptLength, if_pos h]

theorem keptLength_of_kept (h : s.changed = false) : s.keptLength = s.old.length := by
  rw [Section.keptLength, if_neg (by simp [h])]

theorem keptLength_firstPart (h : s.changed = false) :
    (s.firstPart n).keptLength = min n s.old.length :=
  keptLength_of_kept (s := s.firstPart n) h

theorem keptLength_lastPart (h : s.changed = false) :
    (s.lastPart n).keptLength = min n s.old.length :=
  keptLength_of_kept (s := s.lastPart n) h

/-- The first section keeps at most `n` elements, and fewer only if it starts at the top. -/
def StartsFull (n : Nat) (top : Place) (ss : List Section) (p : Place) : Prop :=
  ∀ s ∈ ss.head?, s.keptLength ≤ n ∧ (s.keptLength < n → p = top)

/-- The last section keeps at most `n` elements, and fewer only if it stops at the bottom. -/
def StopsFull (n : Nat) (bottom : Place) (ss : List Section) (q : Place) : Prop :=
  ∀ s ∈ ss.getLast?, s.keptLength ≤ n ∧ (s.keptLength < n → q = bottom)

theorem startsFull_of_top (h : s.keptLength ≤ n) : StartsFull n p (s :: ss) p := by
  rintro _ ⟨⟩
  exact ⟨h, fun _ => rfl⟩

theorem stopsFull_of_bottom (h : s.keptLength ≤ n) : StopsFull n q (ss ++ [s]) q := by
  intro t ht
  obtain rfl : s = t := by simpa using ht
  exact ⟨h, fun _ => rfl⟩

/-! ## Trimmed ends -/

private theorem modify_concat {β : Type} (f : β → β) (xs : List β) (x : β) :
    (xs ++ [x]).modify ((xs ++ [x]).length - 1) f = xs ++ [f x] := by
  induction xs with
  | nil => rfl
  | cons y ys ih => simpa using ih

/-- The first and the last section are trimmed. -/
theorem trimEnds_ends (n : Nat) (s t : Section) (ss : List Section) :
    trimEnds n (s :: (ss ++ [t])) =
      s.onKept (·.lastPart n) :: (ss ++ [t.onKept (·.firstPart n)]) := by
  have h := modify_concat (·.onKept (·.firstPart n)) (s.onKept (·.lastPart n) :: ss) t
  simpa only [trimEnds, List.modifyHead_cons, List.cons_append] using h

/-- What `trimEnds` does at the start. -/
private theorem path_trimStart (h : Path (Section.Leads old new) p ss q) (hp : Kept old new p p) :
    ∃ a, Kept old new p a ∧
      Path (Section.Leads old new) a (ss.modifyHead (·.onKept (·.lastPart n))) q ∧
      (StartsAt (ss.modifyHead (·.onKept (·.lastPart n))) a ∨ a = p) ∧
      StartsFull n p (ss.modifyHead (·.onKept (·.lastPart n))) a := by
  cases ss with
  | nil => exact ⟨p, hp, h, .inr rfl, by simp [StartsFull]⟩
  | cons s ss =>
    obtain ⟨b, hs, hss⟩ := h
    rw [List.modifyHead_cons]
    cases hk : s.changed with
    | true =>
      rw [onKept_of_changed _ hk]
      refine ⟨p, hp, ⟨b, hs, hss⟩, .inr rfl, startsFull_of_top ?_⟩
      simp [keptLength_of_changed hk]
    | false =>
      obtain ⟨_, a, -, -, hpa, ha, hshort, -⟩ := hs.cut hk n
      rw [onKept_of_kept _ hk]
      refine ⟨a, hpa, ⟨b, ha, hss⟩, .inl (startsAt_of_kept ha hk), ?_⟩
      rintro _ ⟨⟩
      rw [keptLength_lastPart hk]
      exact ⟨min_le_left .., fun hlt => (hshort (by omega)).2⟩

/-- What `trimEnds` does at the end. -/
private theorem path_trimEnd (h : Path (Section.Leads old new) p ss q) (hq : Kept old new q q) :
    ∃ b, Kept old new b q ∧
      Path (Section.Leads old new) p (ss.modify (ss.length - 1) (·.onKept (·.firstPart n))) b ∧
      (StopsAt (ss.modify (ss.length - 1) (·.onKept (·.firstPart n))) b ∨ b = q) ∧
      StopsFull n q (ss.modify (ss.length - 1) (·.onKept (·.firstPart n))) b := by
  rcases List.eq_nil_or_concat ss with rfl | ⟨init, s, rfl⟩
  · exact ⟨q, hq, h, .inr rfl, by simp [StopsFull]⟩
  · rw [List.concat_eq_append] at h ⊢
    rw [modify_concat]
    obtain ⟨m, hinit, hs⟩ := path_append.1 h
    have hs := path_singleton.1 hs
    cases hk : s.changed with
    | true =>
      rw [onKept_of_changed _ hk]
      refine ⟨q, hq, h, .inr rfl, stopsFull_of_bottom ?_⟩
      simp [keptLength_of_changed hk]
    | false =>
      obtain ⟨b, _, hb, hbq, -, -, hshort, -⟩ := hs.cut hk n
      rw [onKept_of_kept _ hk]
      refine ⟨b, hbq, path_append.2 ⟨m, hinit, path_singleton.2 hb⟩,
        .inl (stopsAt_append (stopsAt_of_kept hb hk)), ?_⟩
      intro t ht
      obtain rfl : s.firstPart n = t := by simpa using ht
      rw [keptLength_firstPart hk]
      exact ⟨min_le_left .., fun hlt => (hshort (by omega)).1⟩

/-- The end of a list of sections with a change is trimmed behind its first section. -/
private theorem head?_trimEnd (hc : ss.any (·.changed) = true) :
    (ss.modify (ss.length - 1) (·.onKept (·.firstPart n))).head? = ss.head? := by
  match ss with
  | [] => rfl
  | [s] =>
    have hs : s.changed = true := by simpa using hc
    simp [onKept_of_changed _ hs]
  | s :: t :: ts => simp

/-- Sections with a change that are trimmed at both ends leave out elements that both lists keep. -/
theorem path_trimEnds (n : Nat) (h : Path (Section.Leads old new) p ss q) (hp : Kept old new p p)
    (hq : Kept old new q q) (hc : ss.any (·.changed) = true) :
    ∃ a b, Kept old new p a ∧ Kept old new b q ∧
      Path (Section.Leads old new) a (trimEnds n ss) b ∧
      (StartsAt (trimEnds n ss) a ∨ a = p) ∧ (StopsAt (trimEnds n ss) b ∨ b = q) ∧
      StartsFull n p (trimEnds n ss) a ∧ StopsFull n q (trimEnds n ss) b := by
  have hlast (s : Section) : (s.lastPart n).changed = s.changed := rfl
  have hhead : (ss.modifyHead (·.onKept (·.lastPart n))).any (·.changed) = true := by
    rw [modifyHead_eq_modify, any_changed_of_map (map_change?_modify hlast 0 ss), hc]
  obtain ⟨a, hpa, h1, hs1, hf1⟩ := path_trimStart (n := n) h hp
  obtain ⟨b, hbq, h2, ht2, hf2⟩ := path_trimEnd (n := n) h1 hq
  have hsame := head?_trimEnd (n := n) hhead
  refine ⟨a, b, hpa, hbq, h2, ?_, ht2, ?_, hf2⟩
  · rwa [StartsAt, trimEnds, hsame]
  · rwa [StartsFull, trimEnds, hsame]

end SheetDiff.Diff
