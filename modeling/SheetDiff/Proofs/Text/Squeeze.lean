import SheetDiff.Proofs.Text.Words

/-!
# Squeezed texts

`squeeze` puts one space for every run of white space. A text that neither starts nor ends with
white space collapses to its squeezed form (`toList_collapse`), and squeezing works on the parts of a
text where no run of white space is cut (`squeeze_append`).
-/

namespace SheetDiff.Text

variable {c : Char} {cs ds : List Char}

/-- A text with a single space for every run of white space. -/
def squeeze : List Char → List Char
  | [] => []
  | c :: cs =>
    if isSpace c then (if cs.head?.any isSpace then squeeze cs else ' ' :: squeeze cs)
    else c :: squeeze cs

/-- A text that is empty or ends with something other than white space. -/
def EndsSolid (cs : List Char) : Prop := ∀ c ∈ cs.getLast?, isSpace c = false

/-- A text that is empty or starts with something other than white space. -/
def StartsSolid (cs : List Char) : Prop := ∀ c ∈ cs.head?, isSpace c = false

theorem StartsSolid.append (h : StartsSolid cs) (hne : cs ≠ []) (ds : List Char) :
    StartsSolid (cs ++ ds) := by
  rwa [StartsSolid, List.head?_append_of_ne_nil _ hne]

theorem isSpace_space : isSpace ' ' = true := by decide

theorem squeeze_cons_of_not_isSpace (h : isSpace c = false) (cs : List Char) :
    squeeze (c :: cs) = c :: squeeze cs := by
  simp [squeeze, h]

theorem squeeze_append_left (h : ∀ c ∈ cs, isSpace c = false) (ds : List Char) :
    squeeze (cs ++ ds) = cs ++ squeeze ds := by
  induction cs with
  | nil => rfl
  | cons c cs ih =>
    rw [List.cons_append, squeeze_cons_of_not_isSpace (h c (by simp)),
      ih fun d hd => h d (by simp [hd]), List.cons_append]

theorem squeeze_of_solid (h : ∀ c ∈ cs, isSpace c = false) : squeeze cs = cs := by
  simpa [squeeze] using squeeze_append_left h []

theorem squeeze_of_isSpace (h : ∀ c ∈ cs, isSpace c = true) (hne : cs ≠ []) : squeeze cs = [' '] := by
  induction cs with
  | nil => exact absurd rfl hne
  | cons c cs ih =>
    cases cs with
    | nil => simp [squeeze, h c (by simp)]
    | cons d cs =>
      have ih := ih (fun e he => h e (by simp [he])) (by simp)
      rw [squeeze, if_pos (h c (by simp)), if_pos (by simp [h d (by simp)]), ih]

/-- Squeezing works on both parts of a text, where no run of white space is cut. -/
theorem squeeze_append (h : EndsSolid cs ∨ StartsSolid ds) :
    squeeze (cs ++ ds) = squeeze cs ++ squeeze ds := by
  induction cs with
  | nil => rfl
  | cons c cs ih =>
    by_cases hc : isSpace c = true
    · cases cs with
      | nil =>
        have hd : ds.head?.any isSpace = false := by
          have hs : StartsSolid ds := h.resolve_left fun h => by simp [EndsSolid, hc] at h
          cases ds with
          | nil => rfl
          | cons d ds => simpa [StartsSolid] using hs
        simp [squeeze, hc, hd]
      | cons d cs =>
        have ih := ih (h.imp_left fun h e he => h e (by simpa [List.getLast?_cons_cons] using he))
        rw [List.cons_append, squeeze, if_pos hc, squeeze, if_pos hc, ih]
        simp only [List.cons_append, List.head?_cons]
        by_cases hd : isSpace d = true
        · simp [hd]
        · simp [hd]
    · have hc : isSpace c = false := by simpa using hc
      have ih : squeeze (cs ++ ds) = squeeze cs ++ squeeze ds := by
        refine ih (h.imp_left fun h e he => h e ?_)
        cases cs with
        | nil => simp at he
        | cons d cs => simpa [List.getLast?_cons_cons] using he
      rw [List.cons_append, squeeze_cons_of_not_isSpace hc, squeeze_cons_of_not_isSpace hc, ih,
        List.cons_append]

/-! ## Characters of squeezed texts -/

theorem mem_squeeze (h : c ∈ squeeze cs) : c = ' ' ∨ c ∈ cs := by
  induction cs with
  | nil => simp [squeeze] at h
  | cons d cs ih =>
    unfold squeeze at h
    split at h
    · split at h
      · exact (ih h).imp_right (List.mem_cons_of_mem _)
      · rcases List.mem_cons.1 h with rfl | h
        · exact .inl rfl
        · exact (ih h).imp_right (List.mem_cons_of_mem _)
    · rcases List.mem_cons.1 h with rfl | h
      · exact .inr (by simp)
      · exact (ih h).imp_right (List.mem_cons_of_mem _)

/-- A squeezed text goes like the text itself up to the first white space. -/
theorem squeeze_split (cs : List Char) : ∃ p r r', cs = p ++ r ∧ squeeze cs = p ++ r' ∧
    (∀ c ∈ p, isSpace c = false) ∧ ((r = [] ∧ r' = []) ∨ ∃ s, r' = ' ' :: s) := by
  induction cs with
  | nil => exact ⟨[], [], [], rfl, rfl, by simp, .inl ⟨rfl, rfl⟩⟩
  | cons c cs ih =>
    by_cases hc : isSpace c = true
    · refine ⟨[], c :: cs, squeeze (c :: cs), rfl, rfl, by simp, .inr ?_⟩
      clear ih
      induction cs generalizing c with
      | nil => exact ⟨[], by simp [squeeze, hc]⟩
      | cons d cs ih =>
        by_cases hd : isSpace d = true
        · obtain ⟨s, hs⟩ := ih d hd
          exact ⟨s, by rw [squeeze, if_pos hc, if_pos (by simpa using hd), hs]⟩
        · exact ⟨_, by rw [squeeze, if_pos hc, if_neg (by simpa using hd)]⟩
    · obtain ⟨p, r, r', rfl, hs, hp, hr⟩ := ih
      have hc : isSpace c = false := by simpa using hc
      refine ⟨c :: p, r, r', rfl, ?_, ?_, hr⟩
      · rw [squeeze_cons_of_not_isSpace hc, hs, List.cons_append]
      · simpa using ⟨hc, hp⟩

/-- Squeezing brings no two characters together that stood apart. -/
theorem infix_of_squeeze {x y : Char} (hx : isSpace x = false) (hy : isSpace y = false)
    (h : [x, y] <:+: squeeze cs) : [x, y] <:+: cs := by
  have hne : x ≠ ' ' := by
    rintro rfl
    simp [isSpace_space] at hx
  induction cs with
  | nil => simp [squeeze] at h
  | cons c cs ih =>
    unfold squeeze at h
    split at h
    · split at h
      · exact (ih h).trans (List.suffix_cons _ _).isInfix
      · rcases List.infix_cons_iff.1 h with ⟨z, hz⟩ | h
        · exact absurd (List.cons.inj hz).1 hne
        · exact (ih h).trans (List.suffix_cons _ _).isInfix
    · rcases List.infix_cons_iff.1 h with ⟨z, hz⟩ | h
      · obtain ⟨rfl, hyz⟩ : x = c ∧ y :: z = squeeze cs := by simpa using hz
        obtain ⟨p, r, r', rfl, hs, -, hr⟩ := squeeze_split cs
        rw [hs] at hyz
        cases p with
        | nil =>
          rcases hr with ⟨-, rfl⟩ | ⟨s, rfl⟩
          · simp at hyz
          · obtain ⟨rfl, -⟩ := List.cons.inj hyz
            simp [isSpace_space] at hy
        | cons d p =>
          obtain ⟨rfl, -⟩ := List.cons.inj hyz
          exact ⟨[], p ++ r, by simp⟩
      · exact (ih h).trans (List.suffix_cons _ _).isInfix

/-! ## Collapsed texts -/

/-- A text that ends solid is its squeezed form but for a space at its start. -/
private theorem squeeze_eq (h : EndsSolid cs) :
    squeeze cs = (if cs.head?.any isSpace then [' '] else []) ++ (collapse cs).toList := by
  induction cs with
  | nil => simp [squeeze, collapse, words]
  | cons c cs ih =>
    have hcs : EndsSolid cs := by
      intro d hd
      cases cs with
      | nil => simp at hd
      | cons e cs => exact h d (by simpa [List.getLast?_cons_cons] using hd)
    have ih := ih hcs
    by_cases hc : isSpace c = true
    · rw [collapse_cons_of_isSpace hc, squeeze, if_pos hc, ih]
      simp only [List.head?_cons, Option.any_some, hc, if_true]
      split <;> rfl
    · have hc : isSpace c = false := by simpa using hc
      rw [squeeze_cons_of_not_isSpace hc, ih]
      simp only [List.head?_cons, Option.any_some, hc, Bool.false_eq_true, if_false,
        List.nil_append]
      cases cs with
      | nil => simp [collapse, words, hc]
      | cons d cs =>
        by_cases hd : isSpace d = true
        · have hw : words (d :: cs) ≠ [] := by
            rw [Ne, words_eq_nil_iff]
            intro hall
            have hl := List.getLast_mem (List.cons_ne_nil d cs)
            have := hcs _ (List.getLast?_eq_some_getLast (List.cons_ne_nil d cs))
            simp [hall _ hl] at this
          rw [collapse_cons_of_startsSpace hc (by simpa [StartsSpace] using hd), if_neg hw]
          simp [hd]
        · have hd : isSpace d = false := by simpa using hd
          rw [collapse_cons_of_not_isSpace hc hd]
          simp [hd]

/-- A text without white space at its ends collapses to its squeezed form. -/
theorem toList_collapse (hs : StartsSolid cs) (he : EndsSolid cs) :
    (collapse cs).toList = squeeze cs := by
  rw [squeeze_eq he]
  cases cs with
  | nil => rfl
  | cons c cs => simp [hs c (by simp)]

/-! ## Texts without white space at their end -/

/-- A text with a single space for every run of white space but the one at its end. -/
def settle : List Char → List Char
  | [] => []
  | c :: cs =>
    if isSpace c then (if cs.head?.any (!isSpace ·) then ' ' :: settle cs else settle cs)
    else c :: settle cs

theorem settle_cons_of_not_isSpace (h : isSpace c = false) (cs : List Char) :
    settle (c :: cs) = c :: settle cs := by
  simp [settle, h]

theorem settle_of_isSpace (h : ∀ c ∈ cs, isSpace c = true) : settle cs = [] := by
  induction cs with
  | nil => rfl
  | cons c cs ih =>
    have hcs : ∀ d ∈ cs, isSpace d = true := fun d hd => h d (by simp [hd])
    have hno : cs.head?.any (!isSpace ·) = false := by
      cases cs with
      | nil => rfl
      | cons d cs => simp [hcs d]
    rw [settle, if_pos (h c (by simp)), hno, ih hcs]
    rfl

/-- White space at the start becomes a space, if something else follows. -/
theorem settle_of_startsSpace (h : isSpace c = true) (cs : List Char) :
    settle (c :: cs) = [] ∨ ∃ s, settle (c :: cs) = ' ' :: s := by
  induction cs generalizing c with
  | nil => exact .inl (settle_of_isSpace (by simpa using h))
  | cons d cs ih =>
    by_cases hd : isSpace d = true
    · have hno : (d :: cs).head?.any (!isSpace ·) = false := by simp [hd]
      rw [settle, if_pos h, hno]
      exact ih hd
    · exact .inr ⟨_, by rw [settle, if_pos h, if_pos (by simpa using hd)]⟩

theorem settle_append_left (h : ∀ c ∈ cs, isSpace c = false) (ds : List Char) :
    settle (cs ++ ds) = cs ++ settle ds := by
  induction cs with
  | nil => rfl
  | cons c cs ih =>
    rw [List.cons_append, settle_cons_of_not_isSpace (h c (by simp)),
      ih fun d hd => h d (by simp [hd]), List.cons_append]

/-- White space at the end is left out. -/
theorem settle_append_isSpace (h : ∀ c ∈ ds, isSpace c = true) (cs : List Char) :
    settle (cs ++ ds) = settle cs := by
  induction cs with
  | nil => exact settle_of_isSpace h
  | cons c cs ih =>
    have hhead : (cs ++ ds).head?.any (!isSpace ·) = cs.head?.any (!isSpace ·) := by
      cases cs with
      | nil => cases ds <;> simp_all
      | cons d cs => rfl
    rw [List.cons_append, settle, settle, hhead, ih]

/-- A text settles to one that goes alike up to the first white space. -/
theorem settle_split (cs : List Char) : ∃ p r r', cs = p ++ r ∧ settle cs = p ++ r' ∧
    (∀ c ∈ p, isSpace c = false) ∧ ((r = [] ∧ r' = []) ∨
      (∃ c k, r = c :: k ∧ isSpace c = true) ∧ (r' = [] ∨ ∃ k, r' = ' ' :: k)) := by
  induction cs with
  | nil => exact ⟨[], [], [], rfl, rfl, by simp, .inl ⟨rfl, rfl⟩⟩
  | cons c cs ih =>
    by_cases hc : isSpace c = true
    · exact ⟨[], c :: cs, settle (c :: cs), rfl, rfl, by simp,
        .inr ⟨⟨c, cs, rfl, hc⟩, settle_of_startsSpace hc cs⟩⟩
    · obtain ⟨p, r, r', rfl, hs, hp, hr⟩ := ih
      have hc : isSpace c = false := by simpa using hc
      refine ⟨c :: p, r, r', rfl, ?_, ?_, hr⟩
      · rw [settle_cons_of_not_isSpace hc, hs, List.cons_append]
      · simpa using ⟨hc, hp⟩

/-- A text is squeezed as it settles, up to the space at its end. -/
theorem squeeze_eq_settle (cs : List Char) :
    squeeze cs = settle cs ∨ squeeze cs = settle cs ++ [' '] := by
  induction cs with
  | nil => exact .inl rfl
  | cons c cs ih =>
    by_cases hc : isSpace c = true
    · cases cs with
      | nil => exact .inr (by simp [squeeze, settle, hc])
      | cons d cs =>
        by_cases hd : isSpace d = true
        · rw [squeeze, if_pos hc, if_pos (by simpa using hd), settle, if_pos hc,
            if_neg (by simp [hd])]
          exact ih
        · rw [squeeze, if_pos hc, if_neg (by simpa using hd), settle, if_pos hc,
            if_pos (by simpa using hd)]
          exact ih.imp (congrArg _) (congrArg _)
    · have hc : isSpace c = false := by simpa using hc
      rw [squeeze_cons_of_not_isSpace hc, settle_cons_of_not_isSpace hc]
      exact ih.imp (congrArg _) (congrArg _)

/-- Where no run of white space is cut and something follows it, the front part is squeezed. -/
theorem settle_append (h : EndsSolid cs ∨ ∃ d ∈ ds.head?, isSpace d = false) :
    settle (cs ++ ds) = squeeze cs ++ settle ds := by
  induction cs with
  | nil => rfl
  | cons c cs ih =>
    by_cases hc : isSpace c = true
    · cases cs with
      | nil =>
        have hd : ds.head?.any (!isSpace ·) = true := by
          have hs := h.resolve_left fun h => by simp [EndsSolid, hc] at h
          obtain ⟨d, hd, hds⟩ := hs
          simpa [Option.any_eq_true] using ⟨d, hd, hds⟩
        rw [List.singleton_append, settle, if_pos hc, hd]
        simp [squeeze, hc]
      | cons d cs =>
        have ih := ih (h.imp_left fun h e he => h e (by simpa [List.getLast?_cons_cons] using he))
        rw [List.cons_append, settle, if_pos hc, squeeze, if_pos hc, ih]
        simp only [List.cons_append, List.head?_cons]
        by_cases hd : isSpace d = true
        · simp [hd]
        · simp [hd]
    · have hc : isSpace c = false := by simpa using hc
      have ih : settle (cs ++ ds) = squeeze cs ++ settle ds := by
        refine ih (h.imp_left fun h e he => h e ?_)
        cases cs with
        | nil => simp at he
        | cons d cs => simpa [List.getLast?_cons_cons] using he
      rw [List.cons_append, settle_cons_of_not_isSpace hc, squeeze_cons_of_not_isSpace hc, ih,
        List.cons_append]

private theorem toList_collapse_cons (h : isSpace c = false) (cs : List Char) :
    (collapse (c :: cs)).toList = c :: settle cs := by
  induction hl : cs.length using Nat.strongRecOn generalizing c cs with
  | ind l ih =>
  rcases isSpace_or_exists cs with hall | ⟨s, d, w, rfl, hs, hd⟩
  · have hword : IsWord [c] := ⟨by simp, by simpa using h⟩
    rw [← List.singleton_append, collapse_append_isSpace hall, collapse, words_of_isWord hword,
      settle_of_isSpace hall]
    simp
  · simp only [List.length_append, List.length_cons] at hl
    have ih := ih w.length (by omega) hd w rfl
    cases s with
    | nil =>
      rw [List.nil_append, collapse_cons_of_not_isSpace h hd, ih, settle_cons_of_not_isSpace hd]
    | cons e s =>
      have hstart : StartsSpace (e :: s ++ d :: w) := by simpa [StartsSpace] using hs e (by simp)
      have hwords : words (e :: s ++ d :: w) ≠ [] := by
        rw [Ne, words_eq_nil_iff]
        intro hall
        simp [hall d (by simp)] at hd
      rw [collapse_cons_of_startsSpace h hstart, if_neg hwords, collapse_append_of_isSpace hs, ih,
        settle_append (.inr ⟨d, rfl, hd⟩), squeeze_of_isSpace hs (List.cons_ne_nil e s),
        settle_cons_of_not_isSpace hd]
      rfl

/-- A text without white space at its start collapses to its settled form. -/
theorem toList_collapse_settle (h : StartsSolid cs) : (collapse cs).toList = settle cs := by
  cases cs with
  | nil => rfl
  | cons c cs =>
    have hc : isSpace c = false := h c (by simp)
    rw [toList_collapse_cons hc, settle_cons_of_not_isSpace hc]

/-! ## Texts that differ in white space only -/

/-- Texts that differ only in how their runs of white space are written. -/
def Alike (cs ds : List Char) : Prop := squeeze cs = squeeze ds

private theorem head?_squeeze (cs : List Char) :
    (squeeze cs).head?.map isSpace = cs.head?.map isSpace := by
  induction cs with
  | nil => rfl
  | cons c cs ih =>
    by_cases hc : isSpace c = true
    · cases cs with
      | nil => simp [squeeze, hc, isSpace_space]
      | cons d cs =>
        by_cases hd : isSpace d = true
        · rw [squeeze, if_pos hc, if_pos (by simpa using hd), ih]
          simp [hc, hd]
        · rw [squeeze, if_pos hc, if_neg (by simpa using hd)]
          simp [hc, isSpace_space]
    · rw [squeeze_cons_of_not_isSpace (by simpa using hc)]
      rfl

private theorem any_head?_squeeze (cs : List Char) :
    (squeeze cs).head?.any isSpace = cs.head?.any isSpace := by
  have h := congrArg (·.any id) (head?_squeeze cs)
  simpa [Option.any_map] using h

private theorem squeeze_squeeze_append (cs ds : List Char) :
    squeeze (squeeze cs ++ ds) = squeeze (cs ++ ds) := by
  induction cs with
  | nil => rfl
  | cons c cs ih =>
    by_cases hc : isSpace c = true
    · cases cs with
      | nil => simp [squeeze, hc, isSpace_space]
      | cons d cs =>
        rw [List.cons_append, squeeze, if_pos hc]
        conv_rhs => rw [squeeze, if_pos hc]
        by_cases hd : isSpace d = true
        · rw [if_pos (by simpa using hd), if_pos (by simpa using hd), ih]
        · have hd : isSpace d = false := by simpa using hd
          have hs : squeeze (d :: cs) = d :: squeeze cs := squeeze_cons_of_not_isSpace hd cs
          rw [if_neg (by simp [hd]), if_neg (by simp [hd]), List.cons_append, squeeze,
            if_pos isSpace_space, if_neg (by simp [hs, hd]), ih]
    · have hc : isSpace c = false := by simpa using hc
      rw [squeeze_cons_of_not_isSpace hc, List.cons_append, List.cons_append,
        squeeze_cons_of_not_isSpace hc, squeeze_cons_of_not_isSpace hc, ih]

private theorem squeeze_append_squeeze (cs ds : List Char) :
    squeeze (cs ++ squeeze ds) = squeeze (cs ++ ds) := by
  induction cs with
  | nil => simpa using squeeze_squeeze_append ds []
  | cons c cs ih =>
    have hh : (cs ++ squeeze ds).head?.any isSpace = (cs ++ ds).head?.any isSpace := by
      cases cs with
      | nil => exact any_head?_squeeze ds
      | cons d cs => rfl
    rw [List.cons_append, List.cons_append, squeeze, squeeze, hh, ih]

theorem alike_squeeze (cs : List Char) : Alike (squeeze cs) cs := by
  simpa [Alike] using squeeze_squeeze_append cs []

theorem Alike.append {cs' ds' : List Char} (hc : Alike cs cs') (hd : Alike ds ds') :
    Alike (cs ++ ds) (cs' ++ ds') := by
  rw [Alike, ← squeeze_squeeze_append, ← squeeze_append_squeeze, hc, hd, squeeze_append_squeeze,
    squeeze_squeeze_append]

private theorem words_squeeze (cs : List Char) : words (squeeze cs) = words cs := by
  induction cs with
  | nil => rfl
  | cons c cs ih =>
    by_cases hc : isSpace c = true
    · rw [words_cons_of_isSpace hc, squeeze, if_pos hc]
      split
      · exact ih
      · rw [words_cons_of_isSpace isSpace_space, ih]
    · have hc : isSpace c = false := by simpa using hc
      have hall : (squeeze cs).head?.all isSpace = cs.head?.all isSpace := by
        have h := congrArg (·.all id) (head?_squeeze cs)
        simpa [Option.all_map] using h
      rw [squeeze_cons_of_not_isSpace hc, words, words, hall, ih]

/-- Texts that differ in white space only collapse to the same text. -/
theorem Alike.collapse (h : Alike cs ds) : collapse cs = collapse ds := by
  rw [Text.collapse, Text.collapse, ← words_squeeze, h, words_squeeze]

theorem collapse_squeeze (cs : List Char) : collapse (squeeze cs) = collapse cs :=
  (alike_squeeze cs).collapse

theorem collapse_settle (cs : List Char) : collapse (settle cs) = collapse cs := by
  have hspace : ∀ c ∈ [' '], isSpace c = true := List.forall_mem_singleton.2 isSpace_space
  rcases squeeze_eq_settle cs with h | h
  · rw [← h, collapse_squeeze]
  · rw [← collapse_append_isSpace hspace, ← h, collapse_squeeze]

theorem Alike.excerpt (h : Alike cs ds) : excerpt cs = excerpt ds := by
  rw [Text.excerpt, Text.excerpt, h.collapse]

end SheetDiff.Text
