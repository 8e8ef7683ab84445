import SheetDiff.Css.Node
import SheetDiff.Proofs.Css.Scan
import SheetDiff.Proofs.Text.Words

/-!
# Tokens in their text

`Reads ts k` says that the tokens `ts` are what is read from their sources when the text `k`
follows. It holds of the tokens of a sheet (`reads_tokensFrom`) and of every part of them
(`Reads.of_infix`), so facts about single tokens carry over to the nodes of a sheet.
-/

namespace SheetDiff.Css

variable {t : Token} {ts us : List Token} {k : List Char}

/-- The source of several tokens. -/
def sourceOf (ts : List Token) : List Char := ts.flatMap (·.source)

@[simp] theorem sourceOf_nil : sourceOf [] = [] := rfl

@[simp] theorem sourceOf_cons (t : Token) (ts : List Token) :
    sourceOf (t :: ts) = t.source ++ sourceOf ts := rfl

@[simp] theorem sourceOf_append (ts us : List Token) :
    sourceOf (ts ++ us) = sourceOf ts ++ sourceOf us := by
  simp [sourceOf]

/-- A token that is read from its source when `k` follows. -/
def ReadsOne (t : Token) (k : List Char) : Prop :=
  ∃ c cs, t.source = c :: cs ∧ scan c (cs ++ k) = (t.kind, cs.length)

/-- Tokens that are read from their sources when `k` follows. -/
def Reads : List Token → List Char → Prop
  | [], _ => True
  | t :: ts, k => ReadsOne t (sourceOf ts ++ k) ∧ Reads ts k

theorem reads_append : Reads (ts ++ us) k ↔ Reads ts (sourceOf us ++ k) ∧ Reads us k := by
  induction ts with
  | nil => simp [Reads]
  | cons t ts ih =>
    simp only [List.cons_append, Reads, ih, sourceOf_append, List.append_assoc, and_assoc]

theorem Reads.of_infix (h : Reads us k) (hi : ts <:+: us) : ∃ k', Reads ts k' := by
  obtain ⟨xs, ys, rfl⟩ := hi
  exact ⟨_, (reads_append.1 (reads_append.1 h).1).2⟩

/-- The tokens of a text are read from it. -/
theorem reads_tokensFrom (line : Nat) (cs : List Char) : Reads (tokensFrom line cs) [] := by
  fun_induction tokensFrom line cs with
  | case1 => trivial
  | case2 line c cs kind n h source ih =>
    have hn : n ≤ cs.length := by simpa [h] using scan_le c cs
    refine ⟨⟨c, cs.take n, rfl, ?_⟩, ih⟩
    have hrest : sourceOf (tokensFrom (line + Text.lineBreaks source) (cs.drop n)) = cs.drop n :=
      flatMap_source_tokensFrom _ _
    rw [hrest, List.append_nil, List.take_append_drop, List.length_take_of_le hn, h]

theorem reads_tokens (cs : List Char) : Reads (tokens cs) [] := reads_tokensFrom 1 cs

/-- The tokens of a text are written as it is. -/
theorem sourceOf_tokens (cs : List Char) : sourceOf (tokens cs) = cs := flatMap_source_tokens cs

/-! ## At-keywords and comments -/

/-- A token with a name or contents that can be read. -/
structure Token.Proper (t : Token) : Prop where
  name : ∀ name, t.kind = .atKeyword name → name ≠ ""
  comment : ∀ text, t.kind = .comment text → ¬ ClosesComment text.toList

theorem ReadsOne.proper (h : ReadsOne t k) : t.Proper := by
  obtain ⟨c, cs, -, hs⟩ := h
  have hk : (scan c (cs ++ k)).1 = t.kind := by rw [hs]
  refine ⟨fun name hn => ?_, fun text ht => ?_⟩
  · rw [hn] at hk
    rw [scan_eq_symbol (by rw [hk]; rfl)] at hk
    obtain ⟨rfl, hi⟩ := symbol_atKeyword hk
    obtain rfl : _ = name := by simpa [symbol, hi, named] using hk
    simpa using name_ne_nil hi
  · rw [ht] at hk
    rw [scan_eq_symbol (by rw [hk]; rfl)] at hk
    obtain ⟨rfl, hi⟩ := symbol_comment hk
    obtain rfl : _ = text := by simpa [symbol, hi] using hk
    simpa using (comment_spec ((cs ++ k).drop 1)).1

theorem Reads.proper (h : Reads ts k) (ht : t ∈ ts) : t.Proper := by
  obtain ⟨xs, ys, rfl⟩ := List.append_of_mem ht
  exact (reads_append.1 h).2.1.proper

/-! ## Texts that look like comments -/

private theorem scan_slash (cs : List Char) : scan '/' cs =
    if startsWith (· = '*') cs then
      (.comment (String.ofList (comment (cs.drop 1)).1), (comment (cs.drop 1)).2 + 1)
    else (.delim '/', 0) := by
  simp [scan, symbol, isBlank, isNewline, isNameStart, isNonAscii]

/-- A slash is a token of its own, where no asterisk follows, or starts a comment, which is closed
unless the text ends with it. -/
private theorem ReadsOne.slash {w : List Char} (h : ReadsOne t k) (hs : t.source = '/' :: w) :
    (w = [] ∧ k.head? ≠ some '*') ∨ ∃ v, w = '*' :: v ∧ (k = [] ∨ ClosesComment v) := by
  obtain ⟨c, cs, hc, hr⟩ := h
  rw [hs, List.cons.injEq] at hc
  obtain ⟨rfl, rfl⟩ := hc
  rw [scan_slash] at hr
  split at hr
  · rename_i hst
    right
    have hl : (comment ((w ++ k).drop 1)).2 + 1 = w.length := (Prod.mk.inj hr).2
    cases w with
    | nil => simp at hl
    | cons x v =>
      obtain rfl : x = '*' := by simpa [startsWith] using hst
      refine ⟨v, rfl, ?_⟩
      simp only [List.cons_append, List.drop_succ_cons, List.drop_zero, List.length_cons,
        Nat.add_right_cancel_iff] at hl
      obtain ⟨-, ⟨rest, he, hn⟩ | ⟨he, hn⟩⟩ := comment_spec (v ++ k)
      · right
        generalize (comment (v ++ k)).1 = r at he hn
        have hv : v = r ++ ['*', '/'] := by
          have h1 : v ++ k = (r ++ ['*', '/']) ++ rest := by simpa using he
          exact (List.append_inj h1 (by simp; omega)).1
        exact ⟨r, [], by simp [hv]⟩
      · left
        have := congrArg List.length he
        rw [List.length_append] at this
        exact List.eq_nil_of_length_eq_zero (by omega)
  · rename_i hst
    left
    obtain rfl : w = [] := List.eq_nil_of_length_eq_zero (Prod.mk.inj hr).2.symm
    refine ⟨rfl, fun hk => hst ?_⟩
    rw [List.nil_append, startsWith, hk]
    rfl

private theorem isSpace_cases {c : Char} (h : Text.isSpace c = true) :
    isBlank c = true ∨ isNameStart c = true ∨ c = '\x0b' := by
  simp only [Text.isSpace, Text.whiteSpace, List.contains_eq_mem, List.mem_cons, List.not_mem_nil,
    or_false, decide_eq_true_eq] at h
  rcases h with h | h | h | h | h | h | h | h | h | h | h | h | h | h | h | h | h | h | h | h | h |
    h | h | h | h <;> subst h <;> decide

/-- No token reaches over white space up to a slash. -/
private theorem ReadsOne.slash_first {s w : List Char} (h : ReadsOne t k)
    (hs : ∀ c ∈ s, Text.isSpace c = true) (ht : t.source = s ++ '/' :: w) : s = [] := by
  obtain ⟨c, cs, hc, hr⟩ := h
  cases s with
  | nil => rfl
  | cons d s =>
    exfalso
    rw [ht, List.cons_append, List.cons.injEq] at hc
    obtain ⟨rfl, rfl⟩ := hc
    have hn : (scan d (s ++ '/' :: w ++ k)).2 = s.length + 1 + w.length := by
      rw [hr]
      simp only [List.length_append, List.length_cons]
      omega
    rw [List.append_assoc, List.cons_append] at hn
    have hsp : ∀ c ∈ d :: s, c ≠ '\\' := by
      rintro c hc rfl
      exact absurd (hs _ hc) (by decide)
    rcases isSpace_cases (hs d (by simp)) with hb | hb | rfl
    · have hl : ((s ++ '/' :: (w ++ k)).takeWhile isBlank).length ≤ s.length := by
        rw [List.takeWhile_append]
        split
        · simp [isBlank, isNewline]
        · exact (List.takeWhile_sublist _).length_le
      rw [scan, if_pos hb] at hn
      simp only at hn
      omega
    · have hk : (name (d :: s ++ '/' :: (w ++ k))).2 ≤ (d :: s).length :=
        name_stop hsp (by decide)
      have hop : startsWith (· = '(') ((d :: s ++ '/' :: (w ++ k)).drop
          (name (d :: s ++ '/' :: (w ++ k))).2) = false := by
        rw [List.drop_append_of_le_length hk]
        cases hd : (d :: s).drop (name (d :: s ++ '/' :: (w ++ k))).2 with
        | nil => rfl
        | cons e es =>
          have he := hs e (List.mem_of_mem_drop (hd ▸ List.mem_cons_self))
          have : e ≠ '(' := by
            rintro rfl
            exact absurd he (by decide)
          simpa [startsWith] using this
      rw [scan_of_isNameStart hb, beyond, ← List.cons_append, identLike] at hn
      simp only [hop, Bool.false_eq_true, if_false] at hn
      rw [List.length_cons] at hk
      omega
    · simp only [scan, symbol, isBlank, isNewline, isNameStart, isNonAscii] at hn
      simp at hn
      omega

/-- A collapsed text that starts like a comment closes it, if something follows its tokens. -/
theorem closesComment_of_collapse {u : List Char} (h : Reads ts k) (hk : k ≠ [])
    (hu : (Text.collapse (sourceOf ts)).toList = '/' :: '*' :: u) : ClosesComment u := by
  induction ts with
  | nil => simp [Text.collapse, Text.words] at hu
  | cons t ts ih =>
    obtain ⟨ht, hts⟩ := h
    rw [sourceOf_cons] at hu
    rcases Text.isSpace_or_exists t.source with hall | ⟨s, c, w, hs, hsp, hc⟩
    · rw [Text.collapse_append_of_isSpace hall] at hu
      exact ih hts hu
    · rw [hs, List.append_assoc, Text.collapse_append_of_isSpace hsp, List.cons_append] at hu
      obtain ⟨v, hv, -⟩ := Text.collapse_cons hc (w ++ sourceOf ts)
      obtain rfl : c = '/' := by
        rw [hv, List.cons.injEq] at hu
        exact hu.1
      obtain rfl := ht.slash_first hsp hs
      rcases ht.slash hs with ⟨rfl, hnext⟩ | ⟨v, rfl, hend⟩
      · cases hts : sourceOf ts with
        | nil => simp [hts, Text.collapse, Text.words, Text.isSpace, Text.whiteSpace] at hu
        | cons d ds =>
          rw [hts, List.nil_append] at hu
          have hd : d ≠ '*' := by
            rintro rfl
            exact hnext (by simp [hts])
          by_cases hds : Text.isSpace d = true
          · rw [Text.collapse_cons_of_startsSpace hc (by simpa [Text.StartsSpace] using hds)] at hu
            split at hu <;> simp at hu
          · have hds : Text.isSpace d = false := by simpa using hds
            obtain ⟨v, hv, -⟩ := Text.collapse_cons hds ds
            rw [Text.collapse_cons_of_not_isSpace hc hds, hv] at hu
            simp [hd] at hu
      · have hcl := hend.resolve_left (by simp [hk])
        have hast : Text.isSpace '*' = false := by decide
        obtain ⟨u', hu', hsuf⟩ := Text.collapse_cons hast (v ++ sourceOf ts)
        rw [List.cons_append, Text.collapse_cons_of_not_isSpace hc hast, hu'] at hu
        obtain rfl : u' = u := by simpa using hu
        have hin : ['*', '/'] <:+: v ++ sourceOf ts := hcl.trans (List.prefix_append _ _).isInfix
        exact (Text.infix_collapse hast (by decide) hin).trans hsuf.isInfix

end SheetDiff.Css
