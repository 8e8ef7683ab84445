import Mathlib.Data.List.Basic
import SheetDiff.Text.Words

/-!
# Collapsed texts

The words of a text are its maximal runs without white space (`isWord_of_mem_words`,
`words_append`), so a collapsed text has the same words and collapses to itself
(`collapse_collapse`). A text is `Stored` if it is collapsed already; such a text holds no line
break and does not start with a space.
-/

namespace SheetDiff.Text

variable {c : Char} {cs ds w : List Char} {ws : List (List Char)}

/-- A run of characters without white space. -/
def IsWord (w : List Char) : Prop := w ≠ [] ∧ ∀ c ∈ w, isSpace c = false

/-- A text that starts with white space, or is at its end. -/
def StartsSpace (cs : List Char) : Prop := ∀ c ∈ cs.head?, isSpace c = true

theorem words_cons_of_startsSpace (hc : isSpace c = false) (h : StartsSpace cs) :
    words (c :: cs) = [c] :: words cs := by
  have h' : cs.head?.all isSpace = true := by
    cases hd : cs.head? with
    | none => rfl
    | some d => exact h d hd
  simp [words, hc, h']

theorem words_cons_of_not_startsSpace (hc : isSpace c = false) {d : Char} (hd : isSpace d = false) :
    words (c :: d :: cs) = (words (d :: cs)).modifyHead (c :: ·) := by
  conv_lhs => rw [words]
  simp [hc, hd]

theorem words_ne_nil (hc : isSpace c = false) : words (c :: cs) ≠ [] := by
  induction cs generalizing c with
  | nil => simp [words, hc]
  | cons d cs ih =>
    by_cases hd : isSpace d = true
    · rw [words_cons_of_startsSpace hc (by simpa [StartsSpace] using hd)]
      simp
    · have hd : isSpace d = false := by simpa using hd
      rw [words_cons_of_not_startsSpace hc hd]
      obtain ⟨v, vs, hv⟩ := List.exists_cons_of_ne_nil (ih hd)
      simp [hv]

theorem isWord_of_mem_words (h : w ∈ words cs) : IsWord w := by
  induction cs generalizing w with
  | nil => simp [words] at h
  | cons c cs ih =>
    unfold words at h
    split at h
    · exact ih h
    · rename_i hc
      have hc : isSpace c = false := by simpa using hc
      split at h
      · rcases List.mem_cons.1 h with rfl | h
        · exact ⟨by simp, by simpa using hc⟩
        · exact ih h
      · cases hv : words cs with
        | nil => simp [hv] at h
        | cons v vs =>
          rw [hv, List.modifyHead_cons] at h
          rcases List.mem_cons.1 h with rfl | h
          · obtain ⟨-, hv'⟩ := ih (w := v) (by simp [hv])
            exact ⟨by simp, by simpa using ⟨hc, hv'⟩⟩
          · exact ih (by simp [hv, h])

theorem words_eq_nil (h : ∀ c ∈ cs, isSpace c = true) : words cs = [] := by
  induction cs with
  | nil => rfl
  | cons c cs ih =>
    rw [words_cons_of_isSpace (h c (by simp)), ih fun d hd => h d (by simp [hd])]

theorem words_eq_nil_iff (cs : List Char) :
    words cs = [] ↔ ∀ c ∈ cs, isSpace c = true := by
  refine ⟨fun h => ?_, words_eq_nil⟩
  induction cs with
  | nil => simp
  | cons c cs ih =>
    by_cases hc : isSpace c = true
    · rw [words_cons_of_isSpace hc] at h
      simpa using ⟨hc, ih h⟩
    · exact absurd h (words_ne_nil (by simpa using hc))

/-- Two texts whose words do not run into each other. -/
theorem words_append (h : StartsSpace ds ∨ StartsSpace cs.reverse) :
    words (cs ++ ds) = words cs ++ words ds := by
  induction cs with
  | nil => rfl
  | cons c cs ih =>
    have ih : words (cs ++ ds) = words cs ++ words ds := by
      refine ih (h.imp_right fun h d hd => h d ?_)
      rw [List.reverse_cons, List.head?_append, hd]
      rfl
    by_cases hc : isSpace c = true
    · rw [List.cons_append, words_cons_of_isSpace hc, words_cons_of_isSpace hc, ih]
    · have hc : isSpace c = false := by simpa using hc
      cases cs with
      | nil =>
        have hd : StartsSpace ds := h.resolve_right fun h => by simp [StartsSpace, hc] at h
        rw [List.cons_append, List.nil_append, words_cons_of_startsSpace hc hd]
        simp [words, hc]
      | cons d cs =>
        rw [List.cons_append, List.cons_append]
        by_cases hd : isSpace d = true
        · have hs (xs : List Char) : StartsSpace (d :: xs) := by simpa [StartsSpace] using hd
          rw [words_cons_of_startsSpace hc (hs _), words_cons_of_startsSpace hc (hs _),
            ← List.cons_append, ih, List.cons_append]
        · have hd : isSpace d = false := by simpa using hd
          rw [words_cons_of_not_startsSpace hc hd, words_cons_of_not_startsSpace hc hd,
            ← List.cons_append, ih]
          have hne : words (d :: cs) ≠ [] := words_ne_nil hd
          obtain ⟨v, vs, hv⟩ := List.exists_cons_of_ne_nil hne
          simp [hv]

theorem words_of_isWord (h : IsWord w) : words w = [w] := by
  obtain ⟨hne, hw⟩ := h
  induction w with
  | nil => exact absurd rfl hne
  | cons c w ih =>
    have hc := hw c (by simp)
    cases w with
    | nil => simp [words, hc]
    | cons d w =>
      rw [words_cons_of_not_startsSpace hc (hw d (by simp)),
        ih (by simp) fun x hx => hw x (by simp [hx])]
      rfl

theorem words_intercalate (h : ∀ w ∈ ws, IsWord w) : words ([' '].intercalate ws) = ws := by
  induction ws with
  | nil => rfl
  | cons w ws ih =>
    have hw := words_of_isWord (h w (by simp))
    cases ws with
    | nil => simpa [List.intercalate] using hw
    | cons v ws =>
      have ih := ih fun x hx => h x (by simp [hx])
      rw [List.intercalate_cons_cons, words_append (.inr ?_), words_append (.inl ?_), hw, ih]
      · rfl
      · simp [StartsSpace, isSpace, whiteSpace]
      · simp [StartsSpace, isSpace, whiteSpace]

/-! ## Stored texts -/

theorem words_collapse (cs : List Char) : words (collapse cs).toList = words cs := by
  rw [collapse, String.toList_ofList, words_intercalate fun w hw => isWord_of_mem_words hw]

theorem collapse_ne_empty (hc : c ∈ cs) (hs : isSpace c = false) : collapse cs ≠ "" := by
  intro h
  have hw := words_collapse cs
  rw [h] at hw
  have hall := (words_eq_nil_iff cs).1 hw.symm
  simp [hall c hc] at hs

theorem collapse_collapse (cs : List Char) : collapse (collapse cs).toList = collapse cs := by
  rw [collapse, words_collapse]
  rfl

theorem collapse_cons_of_isSpace (h : isSpace c = true) (cs : List Char) :
    collapse (c :: cs) = collapse cs := by
  rw [collapse, words_cons_of_isSpace h, collapse]

theorem collapse_append_of_isSpace (h : ∀ c ∈ cs, isSpace c = true) :
    collapse (cs ++ ds) = collapse ds := by
  induction cs with
  | nil => rfl
  | cons c cs ih =>
    rw [List.cons_append, collapse_cons_of_isSpace (h c (by simp)),
      ih fun d hd => h d (by simp [hd])]

/-- White space at the end of a text is dropped. -/
theorem collapse_append_isSpace (h : ∀ c ∈ ds, isSpace c = true) :
    collapse (cs ++ ds) = collapse cs := by
  have hs : StartsSpace ds := fun c hc => h c (List.mem_of_mem_head? hc)
  rw [collapse, words_append (.inl hs), words_eq_nil h, List.append_nil]
  rfl

/-- A character in front of white space stays apart from what follows it. -/
theorem collapse_cons_of_startsSpace (hc : isSpace c = false) (h : StartsSpace cs) :
    (collapse (c :: cs)).toList =
      c :: (if words cs = [] then [] else ' ' :: (collapse cs).toList) := by
  rw [collapse, words_cons_of_startsSpace hc h, collapse]
  cases hw : words cs with
  | nil => simp
  | cons w ws => simp [List.intercalate_cons_cons]

theorem collapse_cons_of_not_isSpace (hc : isSpace c = false) {d : Char} (hd : isSpace d = false) :
    (collapse (c :: d :: cs)).toList = c :: (collapse (d :: cs)).toList := by
  have hne : words (d :: cs) ≠ [] := words_ne_nil hd
  rw [collapse, words_cons_of_not_startsSpace hc hd, collapse]
  obtain ⟨w, ws, hw⟩ := List.exists_cons_of_ne_nil hne
  cases ws with
  | nil => simp [hw]
  | cons v ws => simp [hw, List.intercalate_cons_cons]

/-- A collapsed text starts with the first character that is not white space. -/
theorem collapse_cons (hc : isSpace c = false) (cs : List Char) :
    ∃ u, (collapse (c :: cs)).toList = c :: u ∧ (collapse cs).toList <:+ u := by
  by_cases h : StartsSpace cs
  · refine ⟨_, collapse_cons_of_startsSpace hc h, ?_⟩
    split
    · rename_i hw
      simp [collapse, hw]
    · exact List.suffix_cons _ _
  · cases cs with
    | nil => simp [StartsSpace] at h
    | cons d cs =>
      exact ⟨_, collapse_cons_of_not_isSpace hc (by simpa [StartsSpace] using h),
        List.suffix_refl _⟩

/-- Neighbours other than white space stay neighbours. -/
theorem infix_collapse {x y : Char} (hx : isSpace x = false) (hy : isSpace y = false)
    (h : [x, y] <:+: cs) : [x, y] <:+: (collapse cs).toList := by
  induction cs with
  | nil => simp at h
  | cons c cs ih =>
    rcases List.infix_cons_iff.1 h with ⟨ds, hp⟩ | hi
    · simp only [List.cons_append, List.nil_append, List.cons.injEq] at hp
      obtain ⟨rfl, rfl⟩ := hp
      obtain ⟨u, hu, -⟩ := collapse_cons hy ds
      rw [collapse_cons_of_not_isSpace hx hy, hu]
      exact ⟨[], u, rfl⟩
    · by_cases hc : isSpace c = true
      · rw [collapse_cons_of_isSpace hc]
        exact ih hi
      · obtain ⟨u, hu, hsuf⟩ := collapse_cons (by simpa using hc) cs
        rw [hu]
        exact ((ih hi).trans hsuf.isInfix).trans (List.suffix_cons _ _).isInfix

/-- A text is white space only, or has a first character that is not. -/
theorem isSpace_or_exists (cs : List Char) : (∀ c ∈ cs, isSpace c = true) ∨
    ∃ s c ds, cs = s ++ c :: ds ∧ (∀ d ∈ s, isSpace d = true) ∧ isSpace c = false := by
  induction cs with
  | nil => simp
  | cons c cs ih =>
    by_cases hc : isSpace c = true
    · rcases ih with h | ⟨s, d, ds, rfl, hs, hd⟩
      · exact .inl (by simpa using ⟨hc, h⟩)
      · exact .inr ⟨c :: s, d, ds, rfl, by simpa using ⟨hc, hs⟩, hd⟩
    · exact .inr ⟨[], c, cs, rfl, by simp, by simpa using hc⟩

/-- A text that is collapsed already. -/
def Stored (s : String) : Prop := collapse s.toList = s

theorem stored_collapse (cs : List Char) : Stored (collapse cs) := collapse_collapse cs

private theorem eq_space_of_mem_intercalate (h : ∀ w ∈ ws, IsWord w)
    (hc : c ∈ [' '].intercalate ws) (hs : isSpace c = true) : c = ' ' := by
  induction ws with
  | nil => simp at hc
  | cons w ws ih =>
    have hw : c ∉ w := fun hm => by simp [(h w (by simp)).2 c hm] at hs
    cases ws with
    | nil => simp [hw] at hc
    | cons v ws =>
      rw [List.intercalate_cons_cons, List.append_assoc, List.mem_append, List.mem_append] at hc
      rcases hc with hc | hc | hc
      · exact absurd hc hw
      · simpa using hc
      · exact ih (fun x hx => h x (by simp [hx])) hc

/-- The only white space in a stored text are spaces. -/
theorem Stored.eq_space {s : String} (h : Stored s) (hc : c ∈ s.toList) (hs : isSpace c = true) :
    c = ' ' := by
  rw [← h, collapse, String.toList_ofList] at hc
  exact eq_space_of_mem_intercalate (fun w hw => isWord_of_mem_words hw) hc hs

theorem Stored.ne_newline {s : String} (h : Stored s) (hc : c ∈ s.toList) : c ≠ '\n' := by
  rintro rfl
  exact absurd (h.eq_space hc (by decide)) (by decide)

/-- A stored text does not start with white space. -/
theorem Stored.head_not_space {s : String} (h : Stored s) (hc : c ∈ s.toList.head?) :
    isSpace c = false := by
  rw [← h, collapse, String.toList_ofList] at hc
  cases hw : words s.toList with
  | nil => simp [hw] at hc
  | cons w ws =>
    obtain ⟨hne, hword⟩ := isWord_of_mem_words (w := w) (by rw [hw]; exact List.mem_cons_self)
    obtain ⟨d, w, rfl⟩ := List.exists_cons_of_ne_nil hne
    have hd : c = d := by
      cases ws with
      | nil => simpa [hw, eq_comm] using hc
      | cons v ws => simpa [hw, List.intercalate_cons_cons, eq_comm] using hc
    exact hword c (by simp [hd])

/-! ## The ends of stored texts -/

/-- Collapsing makes no text longer. -/
theorem length_collapse_le : ∀ cs : List Char, (collapse cs).toList.length ≤ cs.length
  | [] => Nat.le_refl 0
  | [c] => by
    by_cases hc : isSpace c = true
    · simp [collapse, words, hc]
    · simp [collapse, words, hc]
  | c :: d :: ds => by
    have ih := length_collapse_le (d :: ds)
    by_cases hc : isSpace c = true
    · rw [collapse_cons_of_isSpace hc]
      exact Nat.le_succ_of_le ih
    · have hc : isSpace c = false := by simpa using hc
      by_cases hd : isSpace d = true
      · -- the space in front of the next word takes the place of `d`
        have hds := length_collapse_le ds
        rw [collapse_cons_of_startsSpace hc (by simpa [StartsSpace] using hd),
          collapse_cons_of_isSpace hd]
        split
        · simp
        · simpa using hds
      · rw [collapse_cons_of_not_isSpace hc (by simpa using hd)]
        simpa using ih

/-- A text that collapses like a shorter one is not stored. -/
private theorem not_stored {s : String} (ds : List Char) (h : collapse s.toList = collapse ds)
    (hlt : ds.length < s.toList.length) : ¬ Stored s := by
  intro hs
  have hle := length_collapse_le ds
  rw [← h, hs] at hle
  omega

/-- A stored text does not end with white space. -/
theorem Stored.last_not_space {s : String} (h : Stored s) (hc : c ∈ s.toList.getLast?) :
    isSpace c = false := by
  by_contra hspace
  obtain ⟨ds, hds⟩ := List.getLast?_eq_some_iff.1 hc
  refine not_stored ds ?_ ?_ h
  · rw [hds]
    exact collapse_append_isSpace (by simpa using hspace)
  · rw [hds]
    simp

/-- No two spaces stand next to each other in a stored text. -/
theorem Stored.single_spaces {s : String} (h : Stored s) : ¬ [' ', ' '] <:+: s.toList := by
  rintro ⟨before, after, heq⟩
  have hstarts (cs : List Char) : StartsSpace (' ' :: cs) := by
    simp [StartsSpace, isSpace, whiteSpace]
  have hspace : isSpace ' ' = true := by decide
  refine not_stored (before ++ ' ' :: after) ?_ ?_ h
  · rw [← heq, List.append_assoc, List.cons_append, List.cons_append, List.nil_append]
    simp only [collapse, words_append (.inl (hstarts _)), words_cons_of_isSpace hspace]
  · rw [← heq]
    simp only [List.length_append, List.length_cons]
    omega

end SheetDiff.Text
