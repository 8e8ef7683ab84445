import SheetDiff.Proofs.Css.Joined

/-!
# The end of a text as an edge

A text whose strings, comments and addresses are closed and that does not end with a backslash is read
in front of a curly bracket or a semicolon as it is read at the end of a sheet (`Reads.extended`): no
scanner that stops where the text ends would have gone on at the edge. Only the last token of a text
can fail to be closed, and a backslash at its end would escape the edge.
-/

namespace SheetDiff.Css

variable {c e quote : Char} {w q x y : List Char} {t : Token} {ts : List Token}

/-! ## Closing delimiters -/

/-- Whether a text ends with a character that no backslash escapes. -/
def closedBy (quote : Char) : List Char → Bool
  | [] => false
  | [c] => c = quote
  | c :: d :: cs => if c = '\\' then closedBy quote cs else closedBy quote (d :: cs)

/-- A kind of token whose closing delimiter, if it has one, stands at the end of its source. What a
broken string holds ends with its line. -/
def Kind.EndsIn (source : List Char) : Kind → Prop
  | .string _ => ∃ quote cs, source = quote :: cs ∧ closedBy quote cs = true
  | .comment _ => 4 ≤ source.length ∧ ['*', '/'] <:+ source
  | .url _ => closedBy ')' source = true
  | .badUrl text => text.toList ++ [')'] <:+ source
  | _ => True

/-- `Kind.EndsIn` as a test. -/
def Kind.endsIn (source : List Char) : Kind → Bool
  | .string _ => source.head?.any (closedBy · source.tail)
  | .comment _ => 4 ≤ source.length && ['*', '/'].isSuffixOf source
  | .url _ => closedBy ')' source
  | .badUrl text => (text.toList ++ [')']).isSuffixOf source
  | _ => true

theorem Kind.endsIn_iff {source : List Char} {kind : Kind} :
    kind.endsIn source = true ↔ kind.EndsIn source := by
  cases kind with
  | string text => cases source <;> simp [endsIn, EndsIn]
  | _ => simp [endsIn, EndsIn]

/-- A token with its closing delimiter, if its kind has one. -/
def Token.HasEnded (t : Token) : Prop := t.kind.EndsIn t.source

instance : DecidablePred Token.HasEnded := fun _ => decidable_of_iff _ Kind.endsIn_iff

/-- A text that does not end with a backslash. -/
def EndsPlain (cs : List Char) : Prop := ∀ c ∈ cs.getLast?, c ≠ '\\'

-- Named here: the instance for conditions on all characters would try every one of them.
instance (cs : List Char) : Decidable (EndsPlain cs) := Option.decidableForallMem cs.getLast?

theorem EndsPlain.of_suffix (h : EndsPlain w) (hx : x <:+ w) : EndsPlain x := by
  obtain ⟨y, rfl⟩ := hx
  intro c hc
  refine h c ?_
  rw [List.getLast?_append, Option.mem_def.1 hc]
  rfl

theorem EndsPlain.drop (h : EndsPlain w) (n : Nat) : EndsPlain (w.drop n) :=
  h.of_suffix (List.drop_suffix n w)

theorem EndsPlain.tail (h : EndsPlain (c :: w)) : EndsPlain w := h.of_suffix (List.suffix_cons c w)

/-- Something follows a backslash. -/
theorem EndsPlain.ne_nil (h : EndsPlain ('\\' :: w)) : w ≠ [] := by
  rintro rfl
  exact h '\\' (by simp) rfl

/-! ## What stands before a delimiter -/

theorem closedBy_cons (hc : c ≠ quote ∧ c ≠ '\\') (cs : List Char) :
    closedBy quote (c :: cs) = closedBy quote cs := by
  cases cs with
  | nil => simp [closedBy, hc.1]
  | cons d cs => rw [closedBy, if_neg hc.2]

theorem closedBy_append (hx : ∀ c ∈ x, c ≠ quote ∧ c ≠ '\\') (y : List Char) :
    closedBy quote (x ++ y) = closedBy quote y := by
  induction x with
  | nil => rfl
  | cons c x ih =>
    rw [List.cons_append, closedBy_cons (hx c (by simp)), ih fun d hd => hx d (by simp [hd])]

private theorem closedBy_pair (c : Char) (hx : ∀ d ∈ x, d ≠ quote ∧ d ≠ '\\') (y : List Char) :
    closedBy quote ('\\' :: c :: x ++ y) = closedBy quote y := by
  rw [List.cons_append, List.cons_append, closedBy, if_pos rfl, closedBy_append hx]

/-- The characters that close a string or an address. -/
def IsCloser (quote : Char) : Prop := quote = '"' ∨ quote = '\'' ∨ quote = ')'

private theorem IsCloser.ne_of_isBlank (h : IsCloser quote) (hc : isBlank c = true) :
    c ≠ quote ∧ c ≠ '\\' := by
  constructor
  · rintro rfl
    rcases h with rfl | rfl | rfl <;> simp [isBlank, isNewline] at hc
  · rintro rfl
    simp [isBlank, isNewline] at hc

private theorem IsCloser.ne_of_hexDigit (h : IsCloser quote)
    (hc : (Text.hexDigit? c).isSome = true) : c ≠ quote ∧ c ≠ '\\' := by
  constructor
  · rintro rfl
    rcases h with rfl | rfl | rfl <;> exact absurd hc (by decide)
  · rintro rfl
    exact absurd hc (by decide)

private theorem IsCloser.ne_of_isNameChar (h : IsCloser quote) (hc : isNameChar c = true) :
    c ≠ quote ∧ c ≠ '\\' := by
  constructor
  · rintro rfl
    rcases h with rfl | rfl | rfl <;> exact absurd hc (by decide)
  · rintro rfl
    exact absurd hc (by decide)

/-- A line break is made up of blanks. -/
private theorem isBlank_of_mem_newline (hc : c ∈ w.take (newlineLength w)) : isBlank c = true := by
  unfold newlineLength at hc
  split at hc
  · have hcr : c = '\r' ∨ c = '\n' := by simpa using hc
    rcases hcr with rfl | rfl <;> decide
  · split at hc
    · rename_i hn
      obtain rfl : c = _ := by simpa using hc
      simp [isBlank, hn]
    · simp at hc
  · simp at hc

private theorem isBlank_of_mem_blank (hc : c ∈ w.take (blankLength w)) : isBlank c = true := by
  unfold blankLength at hc
  split at hc
  · exact isBlank_of_mem_newline hc
  · split at hc
    · rename_i hb
      cases w with
      | nil => simp at hc
      | cons d w =>
        obtain rfl : c = d := by simpa using hc
        simpa [startsWith] using hb
    · simp at hc

/-- The characters of an escape behind its first one are digits and blanks. -/
private theorem exists_take_escape (hw : w ≠ []) : ∃ c x, w.take (escape w).2 = c :: x ∧
    ∀ d ∈ x, isBlank d = true ∨ (Text.hexDigit? d).isSome = true := by
  obtain ⟨c, w, rfl⟩ := List.exists_cons_of_ne_nil hw
  by_cases h : escapeDigits (c :: w) = []
  · exact ⟨c, [], by rw [escape_of_nil h]; rfl, by simp⟩
  · have hall : ∀ d ∈ (c :: w).take (escape (c :: w)).2,
        isBlank d = true ∨ (Text.hexDigit? d).isSome = true := by
      intro d hd
      rw [escape_of_digits h, List.take_add] at hd
      rcases List.mem_append.1 hd with hd | hd
      · have hpre : escapeDigits (c :: w) <+: c :: w :=
          (List.takeWhile_prefix _).trans (List.take_prefix 6 _)
        rw [← List.prefix_iff_eq_take.1 hpre] at hd
        exact .inr (List.all_eq_true.1 List.all_takeWhile d hd)
      · exact .inl (isBlank_of_mem_blank hd)
    obtain ⟨n, hn⟩ := Nat.exists_eq_add_one.2 (escape_pos (List.cons_ne_nil c w))
    rw [hn, List.take_succ_cons] at hall
    exact ⟨c, w.take n, by rw [hn, List.take_succ_cons], fun d hd => hall d (by simp [hd])⟩

private theorem closedBy_escape (hq : IsCloser quote) (hw : w ≠ []) (y : List Char) :
    closedBy quote ('\\' :: (w.take (escape w).2 ++ y)) = closedBy quote y := by
  obtain ⟨c, x, hx, hall⟩ := exists_take_escape hw
  rw [hx, ← List.cons_append]
  exact closedBy_pair c (fun d hd => (hall d hd).elim hq.ne_of_isBlank hq.ne_of_hexDigit) y

private theorem closedBy_newline (hq : IsCloser quote) (hw : startsWith isNewline w = true)
    (y : List Char) : closedBy quote ('\\' :: (w.take (newlineLength w) ++ y)) = closedBy quote y := by
  have hall : ∀ d ∈ w.take (newlineLength w), d ≠ quote ∧ d ≠ '\\' := fun d hd =>
    hq.ne_of_isBlank (isBlank_of_mem_newline hd)
  obtain ⟨n, hn⟩ := Nat.exists_eq_add_one.2 (newlineLength_pos hw)
  cases w with
  | nil => simp [startsWith] at hw
  | cons c w =>
    rw [hn, List.take_succ_cons] at hall ⊢
    exact closedBy_pair c (fun d hd => hall d (by simp [hd])) y

private theorem closedBy_take_escape (hq : IsCloser quote) (hw : w ≠ []) (n : Nat) :
    closedBy quote (('\\' :: w).take (1 + (escape w).2 + n)) =
      closedBy quote ((w.drop (escape w).2).take n) := by
  rw [Nat.add_assoc, Nat.add_comm 1, List.take_succ_cons, List.take_add, closedBy_escape hq hw]

/-- No character of a name closes what the name starts. -/
private theorem closedBy_name (hq : IsCloser quote) (hw : EndsPlain w) (y : List Char) :
    closedBy quote (w.take (name w).2 ++ y) = closedBy quote y := by
  induction hl : w.length using Nat.strongRecOn generalizing w with
  | ind l ih =>
  cases w with
  | nil => simp
  | cons c w =>
    rw [List.length_cons] at hl
    by_cases hc : isNameChar c = true
    · rw [name_cons_of_isNameChar hc, List.take_succ_cons, List.cons_append,
        closedBy_cons (hq.ne_of_isNameChar hc), ih w.length (by omega) hw.tail rfl]
    have hc : isNameChar c = false := by simpa using hc
    by_cases hb : c = '\\' ∧ startsWith isNewline w = false
    · obtain ⟨rfl, hs⟩ := hb
      rw [name_escape hs, Nat.add_assoc, Nat.add_comm 1, List.take_succ_cons, List.take_add,
        List.cons_append, List.append_assoc]
      have hlen := List.length_drop (l := w) (i := (escape w).2)
      rw [closedBy_escape hq hw.ne_nil, ih _ (by omega) (hw.tail.drop _) rfl]
    · have hnl : c = '\\' → startsWith isNewline w = true := by
        intro hbs
        simpa [hbs] using hb
      rw [name_of_not hc hnl]
      rfl

/-! ## Names and numbers -/

theorem name_extended (he : isEdge e = true) (hw : EndsPlain w) (q : List Char) :
    name (w ++ e :: q) = name w := by
  obtain ⟨-, hnl, -, hname, -⟩ := not_of_isEdge he
  induction hl : w.length using Nat.strongRecOn generalizing w with
  | ind l ih =>
  cases w with
  | nil =>
    rw [List.nil_append, name_of_not hname fun hb => absurd hb (ne_of_isEdge he).1, name]
  | cons c w =>
    rw [List.length_cons] at hl
    rw [List.cons_append]
    by_cases hc : isNameChar c = true
    · rw [name_cons_of_isNameChar hc, name_cons_of_isNameChar hc, ih w.length (by omega) hw.tail rfl]
    have hc : isNameChar c = false := by simpa using hc
    by_cases hb : c = '\\' ∧ startsWith isNewline w = false
    · obtain ⟨rfl, hs⟩ := hb
      have hlen := List.length_drop (l := w) (i := (escape w).2)
      rw [name_escape hs, name_escape ((startsWith_barrier hnl w q).trans hs),
        escape_barrier he hw.ne_nil, List.drop_append_of_le_length (escape_le w),
        ih _ (by omega) (hw.tail.drop _) rfl]
    · have hstop : c = '\\' → startsWith isNewline w = true := by
        intro hbs
        simpa [hbs] using hb
      rw [name_of_not hc hstop, name_of_not hc fun hbs => (startsWith_barrier hnl w q).trans (hstop hbs)]

theorem numeric_extended (he : isEdge e = true) (hw : EndsPlain w) (q : List Char) :
    numeric (w ++ e :: q) = numeric w := by
  have hpercent (w : List Char) : startsWith (· = '%') (w ++ e :: q) = startsWith (· = '%') w :=
    startsWith_barrier (by simp [(ne_of_isEdge he).2.2.2.2.1]) w q
  simp only [numeric, numeral_dull (dull_of_isEdge he q), List.drop_append_of_le_length (numeral_le w), hpercent,
    startsIdent_barrier he, name_extended he (hw.drop _)]

/-! ## Strings and comments -/

/-- A string that is broken, or closed, is not read on. -/
theorem quoted_extended (he : isEdge e = true) (hq : quote = '"' ∨ quote = '\'')
    (hw : (quoted quote w).1.2 = true → closedBy quote (w.take (quoted quote w).2) = true)
    (q : List Char) : quoted quote (w ++ e :: q) = quoted quote w := by
  have hnl := (not_of_isEdge he).2.1
  have hcloser : IsCloser quote := hq.imp_right .inl
  have hqb : quote ≠ '\\' := by
    rcases hq with rfl | rfl <;> decide
  induction hl : w.length using Nat.strongRecOn generalizing w with
  | ind l ih =>
  cases w with
  | nil => simp [quoted, closedBy] at hw
  | cons c w =>
    rw [List.length_cons] at hl
    rw [List.cons_append]
    by_cases hcq : c = quote
    · simp [quoted, hcq]
    by_cases hcn : isNewline c = true
    · simp [quoted, hcq, hcn]
    have hcn : isNewline c = false := by simpa using hcn
    by_cases hb : c = '\\'
    · subst hb
      by_cases hs : startsWith isNewline w = true
      · have hlen := List.length_drop (l := w) (i := newlineLength w)
        have hle := newlineLength_le w
        have hpos := newlineLength_pos hs
        rw [quoted_newline hqb hs, Nat.add_assoc, Nat.add_comm 1, List.take_succ_cons,
          List.take_add, closedBy_newline hcloser hs] at hw
        rw [quoted_newline hqb hs, quoted_newline hqb ((startsWith_barrier hnl w q).trans hs),
          newlineLength_barrier he, List.drop_append_of_le_length hle, ih _ (by omega) hw rfl]
      · have hs : startsWith isNewline w = false := by simpa using hs
        cases w with
        | nil => simp [quoted, startsWith, closedBy, hcn, hqb.symm] at hw
        | cons d w =>
          have hne := List.cons_ne_nil d w
          have hlen := List.length_drop (l := d :: w) (i := (escape (d :: w)).2)
          rw [quoted_escape hqb hs hne, closedBy_take_escape hcloser hne] at hw
          rw [quoted_escape hqb hs hne, quoted_escape hqb ((startsWith_barrier hnl _ q).trans hs)
            (by simp), escape_barrier he hne, List.drop_append_of_le_length (escape_le _),
            ih _ (by omega) hw rfl]
    · rw [quoted_plain hcq hcn hb, List.take_succ_cons, closedBy_cons ⟨hcq, hb⟩] at hw
      rw [quoted_plain hcq hcn hb, quoted_plain hcq hcn hb, ih w.length (by omega) hw rfl]

theorem comment_extended (hw : ['*', '/'] <:+ w.take (comment w).2) (q : List Char) :
    comment (w ++ q) = comment w := by
  have hlen : (w.take (comment w).2).length = (comment w).2 := List.length_take_of_le (comment_le w)
  have hread : comment (w.take (comment w).2 ++ w.drop (comment w).2) =
      ((comment w).1, (w.take (comment w).2).length) := by
    rw [List.take_append_drop, hlen]
  obtain ⟨hsrc, hno⟩ := comment_closed hw hread
  calc comment (w ++ q)
      = comment ((comment w).1 ++ '*' :: '/' :: (w.drop (comment w).2 ++ q)) := by
        conv_lhs => rw [← List.take_append_drop (comment w).2 w, hsrc]
        simp
    _ = ((comment w).1, (comment w).1.length + 2) := comment_enclosed hno _
    _ = comment w := by
        rw [hsrc, List.length_append] at hlen
        exact Prod.ext rfl hlen

/-! ## Addresses -/

private theorem addressEnd_extended (he : isEdge e = true)
    (hw : (addressEnd w).1.isSome = true → closedBy ')' (w.take (addressEnd w).2) = true)
    (q : List Char) : addressEnd (w ++ e :: q) = addressEnd w := by
  have hcloser : IsCloser ')' := .inr (.inr rfl)
  have hb : startsWith isBlank (e :: q) = false := (not_of_isEdge he).1
  have hle : (w.takeWhile isBlank).length ≤ w.length := (List.takeWhile_sublist _).length_le
  simp only [addressEnd, takeWhile_append hb, List.drop_append_of_le_length hle] at hw ⊢
  cases hd : w.drop (w.takeWhile isBlank).length with
  | nil =>
    -- blanks do not close an address
    have hblanks : ∀ c ∈ w.take (w.takeWhile isBlank).length, c ≠ ')' ∧ c ≠ '\\' := by
      intro c hc
      rw [← List.prefix_iff_eq_take.1 (List.takeWhile_prefix _)] at hc
      exact hcloser.ne_of_isBlank (List.all_eq_true.1 List.all_takeWhile c hc)
    have hopen := closedBy_append hblanks []
    rw [List.append_nil] at hopen
    simp [hd, hopen, closedBy] at hw
  | cons c v => rfl

/-- An address that is spoilt, or closed, is not read on. -/
theorem address_extended (he : isEdge e = true)
    (hw : (address w).1.isSome = true → closedBy ')' (w.take (address w).2) = true)
    (q : List Char) : address (w ++ e :: q) = address w := by
  have hnl := (not_of_isEdge he).2.1
  have hcloser : IsCloser ')' := .inr (.inr rfl)
  induction hl : w.length using Nat.strongRecOn generalizing w with
  | ind l ih =>
  cases w with
  | nil => simp [address, closedBy] at hw
  | cons c w =>
    rw [List.length_cons] at hl
    by_cases hblank : isBlank c = true
    · have ha (k : List Char) : address (c :: w ++ k) = addressEnd (c :: w ++ k) := by
        rw [List.cons_append, address, if_pos hblank]
      have hend : address (c :: w) = addressEnd (c :: w) := by simpa using ha []
      rw [hend] at hw
      rw [ha, hend, addressEnd_extended he hw]
    rw [List.cons_append]
    by_cases hclose : c = ')'
    · subst hclose
      rw [address, address, if_neg hblank, if_neg hblank, if_pos rfl, if_pos rfl]
    by_cases hspoil : isNonPrintable c ∨ c = '"' ∨ c = '\'' ∨ c = '('
    · simp [address, hblank, hclose, hspoil]
    by_cases hb : c = '\\'
    · subst hb
      by_cases hs : startsWith isNewline w = true
      · rw [address_newline hs, address_newline ((startsWith_barrier hnl w q).trans hs)]
      · have hs : startsWith isNewline w = false := by simpa using hs
        rw [address_escape hs] at hw
        simp only [Option.isSome_map] at hw
        cases w with
        | nil => simp [address, escape, closedBy] at hw
        | cons d w =>
          have hne := List.cons_ne_nil d w
          have hlen := List.length_drop (l := d :: w) (i := (escape (d :: w)).2)
          rw [closedBy_take_escape hcloser hne] at hw
          rw [address_escape hs, address_escape ((startsWith_barrier hnl _ q).trans hs),
            escape_barrier he hne, List.drop_append_of_le_length (escape_le _),
            ih _ (by omega) hw rfl]
    · have hc := And.intro (by simpa using hblank) (And.intro hclose (And.intro hspoil hb))
      rw [address_plain hc, List.take_succ_cons, closedBy_cons ⟨hclose, hb⟩] at hw
      simp only [Option.isSome_map] at hw
      rw [address_plain hc, address_plain hc, ih w.length (by omega) hw rfl]

private theorem spoilt_extended
    (hw : startsWith (· = ')') (w.drop (spoilt w).length) = true) (q : List Char) :
    spoilt (w ++ q) = spoilt w ∧ spoiltLength (w ++ q) = spoiltLength w := by
  have hclose (cs : List Char) : spoilt (')' :: cs) = [] := by
    cases cs <;> simp [spoilt]
  fun_induction spoilt w with
  | case1 => simp [startsWith] at hw
  | case2 => simp [hclose, spoiltLength_close]
  | case3 c hc => simp [startsWith] at hw
  | case4 d cs => simp [hclose, spoiltLength_close]
  | case5 c d cs hc hd ih =>
    obtain ⟨hs, hl⟩ := ih (by simpa using hw)
    rw [List.cons_append, List.cons_append, (spoilt_pair hd _).1, (spoilt_pair hd _).2,
      (spoilt_pair hd _).2, hs, hl]
    exact ⟨rfl, rfl⟩
  | case6 c d cs hc hd ih =>
    obtain ⟨hs, hl⟩ := ih (by simpa using hw)
    rw [List.cons_append] at hs hl
    rw [List.cons_append, List.cons_append, (spoilt_cons hc hd _).1, (spoilt_cons hc hd _).2,
      (spoilt_cons hc hd _).2, hs, hl]
    exact ⟨rfl, rfl⟩

private theorem prefix_of_spoilt (cs : List Char) : spoilt cs <+: cs := by
  fun_induction spoilt cs <;> simp_all

/-- The contents of a spoilt address stand in front of its closing bracket, if it has one. -/
private theorem unblankedUrl?_spoilt {text : String} {n : Nat}
    (h : unblankedUrl? w = some (.badUrl text, n)) : text.toList <+: w ∧
      n = text.toList.length + (startsWith (· = ')') (w.drop text.toList.length)).toNat := by
  unfold unblankedUrl? at h
  split at h
  · simp at h
  have hle := address_le w
  generalize address w = found at h hle
  obtain ⟨_ | chars, m⟩ := found
  · obtain ⟨ht, rfl⟩ := Prod.mk.inj (Option.some.inj h)
    have htext : text.toList = w.take m ++ spoilt (w.drop m) := by
      rw [← Kind.badUrl.inj ht, String.toList_ofList]
    have hlen : text.toList.length = m + (spoilt (w.drop m)).length := by
      rw [htext, List.length_append, List.length_take_of_le hle]
    refine ⟨?_, by rw [hlen, spoiltLength, List.drop_drop, Nat.add_assoc]⟩
    rw [htext]
    conv_rhs => rw [← List.take_append_drop m w]
    exact (List.prefix_append_right_inj _).2 (prefix_of_spoilt _)
  · obtain ⟨ht, -⟩ := Prod.mk.inj (Option.some.inj h)
    simp at ht

private theorem unblankedUrl?_extended (he : isEdge e = true)
    (hurl : ∀ text n, unblankedUrl? w = some (.url text, n) → closedBy ')' (w.take n) = true)
    (hbad : ∀ text n, unblankedUrl? w = some (.badUrl text, n) →
      startsWith (· = ')') (w.drop text.toList.length) = true) (q : List Char) :
    unblankedUrl? (w ++ e :: q) = unblankedUrl? w := by
  have hquote : (decide (e = '"') || decide (e = '\'')) = false := by
    rcases isEdge_cases he with rfl | rfl | rfl <;> decide
  simp only [unblankedUrl?, startsWith_barrier (p := fun c => c = '"' || c = '\'') hquote]
    at hurl hbad ⊢
  split
  · rfl
  · rename_i hs
    simp only [if_neg hs] at hurl hbad
    have hle := address_le w
    have ha : address (w ++ e :: q) = address w := by
      refine address_extended he (fun hsome => ?_) q
      generalize address w = found at hsome hurl ⊢
      obtain ⟨_ | chars, m⟩ := found
      · simp at hsome
      · exact hurl _ _ rfl
    rw [ha]
    generalize address w = found at hle hurl hbad ⊢
    obtain ⟨_ | chars, m⟩ := found
    · have hclosed := hbad _ _ rfl
      rw [String.toList_ofList, List.length_append, List.length_take_of_le hle,
        ← List.drop_drop] at hclosed
      obtain ⟨hspoilt, hlen⟩ := spoilt_extended hclosed (e :: q)
      simp only at hle hspoilt hlen ⊢
      rw [List.take_append_of_le_length hle, List.drop_append_of_le_length hle, hspoilt, hlen]
    · rfl

/-- A text that ends with its own beginning and one more character starts with that character. -/
private theorem eq_of_append_singleton (h : x ++ [c] = e :: x) : c = e := by
  induction x generalizing e with
  | nil => exact (List.cons.inj h).1
  | cons d x ih =>
    obtain ⟨rfl, hx⟩ := List.cons.inj h
    exact ih hx

/-- What stands before the contents of a spoilt address does not close it. -/
private theorem not_suffix_of_open {p : List Char} (hp : ∀ c ∈ p.getLast?, c ≠ ')') :
    ¬ x ++ [')'] <:+ p ++ x := by
  intro h
  rcases p.eq_nil_or_concat with rfl | ⟨p, c, rfl⟩
  · have hlen := h.length_le
    rw [List.nil_append, List.length_append, List.length_singleton] at hlen
    omega
  · rw [List.concat_eq_append] at h hp
    rw [List.append_assoc, List.singleton_append] at h
    have heq : x ++ [')'] = c :: x :=
      (List.suffix_of_suffix_length_le h (List.suffix_append p (c :: x)) (by simp)).eq_of_length
        (by simp)
    exact hp c (by simp) (eq_of_append_singleton heq).symm

/-- An address behind `p` that is closed, well or badly, is not read on. -/
theorem unquotedUrl?_extended {p : List Char} (he : isEdge e = true)
    (hp : ∀ y, closedBy ')' (p ++ y) = closedBy ')' y) (hlast : p.getLast? = some '(')
    (hw : ∀ kind n, unquotedUrl? w = some (kind, n) → kind.EndsIn (p ++ w.take n))
    (q : List Char) : unquotedUrl? (w ++ e :: q) = unquotedUrl? w := by
  obtain ⟨b, v, rfl, hb, hv⟩ := blanks_split w
  have hcut : unquotedUrl? (b ++ v) = (unblankedUrl? v).map fun x => (x.1, b.length + x.2) :=
    unquotedUrl?_append hb hv
  have hcut' : unquotedUrl? (b ++ (v ++ e :: q)) =
      (unblankedUrl? (v ++ e :: q)).map fun x => (x.1, b.length + x.2) := by
    refine unquotedUrl?_append hb ?_
    cases v with
    | nil => simp [(not_of_isEdge he).1]
    | cons c v => simpa using hv
  have hends {kind : Kind} {n : Nat} (h : unblankedUrl? v = some (kind, n)) :
      kind.EndsIn (p ++ b ++ v.take n) := by
    have hfound := hw kind (b.length + n) (by rw [hcut, h]; rfl)
    rwa [List.take_length_add_append, ← List.append_assoc] at hfound
  rw [List.append_assoc, hcut, hcut', unblankedUrl?_extended he ?_ ?_ q]
  · intro text n h
    have hclosed : closedBy ')' (p ++ b ++ v.take n) = true := hends h
    rwa [List.append_assoc, hp, closedBy_append fun c hc =>
      IsCloser.ne_of_isBlank (.inr (.inr rfl)) (hb c hc)] at hclosed
  · intro text n h
    have hclosed : text.toList ++ [')'] <:+ p ++ b ++ v.take n := hends h
    obtain ⟨hpre, hn⟩ := unblankedUrl?_spoilt h
    by_contra hopen
    rw [Bool.not_eq_true] at hopen
    rw [hn, hopen, Bool.toNat_false, Nat.add_zero,
      ← List.prefix_iff_eq_take.1 hpre] at hclosed
    refine not_suffix_of_open (fun c hc => ?_) hclosed
    rcases b.eq_nil_or_concat with rfl | ⟨b, d, rfl⟩
    · rw [List.append_nil, hlast] at hc
      obtain rfl : '(' = c := Option.some.inj hc
      decide
    · obtain rfl : d = c := by simpa using hc
      exact (IsCloser.ne_of_isBlank (.inr (.inr rfl)) (hb d (by simp))).1

/-! ## Names with what follows them -/

theorem identLike_extended (he : isEdge e = true) (hw : EndsPlain w)
    (hk : (identLike w).1.EndsIn (w.take (identLike w).2)) (q : List Char) :
    identLike (w ++ e :: q) = identLike w := by
  have hopen : decide (e = '(') = false := by simp [(ne_of_isEdge he).2.1]
  have hname := name_le w
  rw [identLike_eq] at hk
  rw [identLike_eq, identLike_eq w, name_extended he hw, List.drop_append_of_le_length hname,
    startsWith_barrier hopen]
  split
  · rename_i hs
    rw [if_pos hs] at hk
    have hbracket : ∃ v, w.drop (name w).2 = '(' :: v := by
      cases hd : w.drop (name w).2 with
      | nil => simp [hd, startsWith] at hs
      | cons c v =>
        obtain rfl : c = '(' := by simpa [hd, startsWith] using hs
        exact ⟨v, rfl⟩
    obtain ⟨v, hv⟩ := hbracket
    have htake : w.take ((name w).2 + 1) = w.take (name w).2 ++ ['('] := by
      rw [List.take_add, hv]
      rfl
    have hle : (name w).2 + 1 ≤ w.length := by
      have := congrArg List.length hv
      rw [List.length_drop, List.length_cons] at this
      omega
    split
    · rename_i hu
      rw [if_pos hu] at hk
      rw [List.drop_append_of_le_length hle, unquotedUrl?_extended (p := w.take ((name w).2 + 1)) he]
      · intro y
        rw [htake, List.append_assoc, closedBy_name (.inr (.inr rfl)) hw, List.singleton_append,
          closedBy_cons (by decide)]
      · rw [htake, List.getLast?_concat]
      · intro kind n h
        rw [h] at hk
        rw [← List.take_add]
        exact hk
    · rfl
  · rfl

/-! ## Tokens -/

/-- What was read of `c :: w` ends as a token does. -/
private def EndsBehind (c : Char) (w : List Char) (r : Kind × Nat) : Prop :=
  r.1.EndsIn (c :: w.take r.2)

private theorem beyond_numeric_extended (he : isEdge e = true) (hw : EndsPlain (c :: w))
    (q : List Char) : beyond (numeric (c :: (w ++ e :: q))) = beyond (numeric (c :: w)) :=
  congrArg beyond (numeric_extended (w := c :: w) he hw q)

private theorem beyond_identLike_extended (he : isEdge e = true) (hw : EndsPlain (c :: w))
    (hk : EndsBehind c w (beyond (identLike (c :: w)))) (q : List Char) :
    beyond (identLike (c :: (w ++ e :: q))) = beyond (identLike (c :: w)) := by
  refine congrArg beyond (identLike_extended (w := c :: w) he hw ?_ q)
  have hends : (identLike (c :: w)).1.EndsIn (c :: w.take ((identLike (c :: w)).2 - 1)) := hk
  cases hn : (identLike (c :: w)).2 with
  | succ n =>
    rw [hn, Nat.add_sub_cancel] at hends
    rwa [List.take_succ_cons]
  | zero =>
    -- an address takes a bracket at least
    rw [identLike_eq] at hn ⊢
    split at hn
    · split at hn
      · split at hn <;> simp at hn
      · simp at hn
    · rename_i ho
      rw [if_neg ho]
      trivial

/-- A choice between two readings by a test that the text behind does not change. -/
private theorem choice_extended {P : Kind × Nat → Prop} {b b' : Bool} {r s r' s' : Kind × Nat}
    (hk : P (if b = true then r else s)) (hb : b' = b) (hr : P r → r' = r) (hs : P s → s' = s) :
    (if b' = true then r' else s') = if b = true then r else s := by
  subst hb
  cases b' with
  | true => exact hr hk
  | false => exact hs hk

theorem symbol_extended (he : isEdge e = true) (hw : EndsPlain (c :: w))
    (hk : EndsBehind c w (symbol c w)) (q : List Char) : symbol c (w ++ e :: q) = symbol c w := by
  obtain ⟨-, hnl, -, -, hd, -⟩ := not_of_isEdge he
  obtain ⟨-, -, -, -, -, hminus, -, -, -, -, hstar, heq, -⟩ := ne_of_isEdge he
  have hident := startsIdent_barrier he
  have hnumber := startsNumber_dull (dull_of_isEdge he q)
  have hnamed (kind : String → Kind) : named kind (w ++ e :: q) = named kind w := by
    rw [named, named, name_extended he hw.tail]
  have hnumeric := beyond_numeric_extended he hw q
  have hlike := beyond_identLike_extended (q := q) he hw
  have hpattern {p : List Char} (hp : e ∉ p) : p.isPrefixOf (w ++ e :: q) = p.isPrefixOf w :=
    isPrefixOf_append (by simpa using hp) w
  unfold symbol at hk ⊢
  split at hk
  case h_10 =>
    refine choice_extended hk (hident w q) (fun _ => hnamed _) fun hk => ?_
    exact choice_extended hk (startsWith_barrier (by simp [hd, hminus]) w q) (fun _ => hnamed _)
      fun _ => rfl
  case h_11 => exact choice_extended hk (hident w q) (fun _ => hnamed _) fun _ => rfl
  case h_12 => exact choice_extended hk (hnumber w) (fun _ => hnumeric) fun _ => rfl
  case h_13 =>
    refine choice_extended hk (hnumber w) (fun _ => hnumeric) fun hk => ?_
    refine choice_extended hk (hpattern ?_) (fun _ => rfl) fun hk => ?_
    · rcases isEdge_cases he with rfl | rfl | rfl <;> decide
    · exact choice_extended hk (hident ('-' :: w) q) hlike fun _ => rfl
  case h_14 => exact choice_extended hk (hnumber ('.' :: w)) (fun _ => hnumeric) fun _ => rfl
  case h_15 =>
    refine choice_extended hk (startsWith_barrier (by simp [hstar]) w q) (fun hk => ?_) fun _ => rfl
    obtain ⟨hlen, hclosed⟩ := hk
    cases w with
    | nil => simp at hlen
    | cons d w =>
      rw [List.drop_succ_cons, List.drop_zero] at hlen hclosed ⊢
      rw [List.take_succ_cons] at hlen hclosed
      have hinner : ['*', '/'] <:+ w.take (comment w).2 := by
        refine List.suffix_of_suffix_length_le hclosed (List.suffix_append ['/', d] _) ?_
        simpa using hlen
      rw [List.cons_append, List.drop_succ_cons, List.drop_zero, comment_extended hinner]
  case h_16 =>
    refine choice_extended hk (hpattern ?_) (fun _ => rfl) fun _ => rfl
    rcases isEdge_cases he with rfl | rfl | rfl <;> decide
  case h_17 => exact choice_extended hk (startsWith_barrier hnl w q) (fun _ => rfl) hlike
  case h_18 | h_19 | h_20 | h_21 | h_22 =>
    exact choice_extended hk (startsWith_barrier (by simp [heq]) w q) (fun _ => rfl) fun _ => rfl
  all_goals rfl

/-- A token that has ended is not read on at an edge. -/
theorem scan_extended (he : isEdge e = true) (hw : EndsPlain (c :: w))
    (hk : EndsBehind c w (scan c w)) (q : List Char) : scan c (w ++ e :: q) = scan c w := by
  rcases scan_cases c with ⟨-, hs⟩ | ⟨hq, hs⟩ | ⟨-, hs⟩ | hs | hs
  all_goals
    rw [hs] at hk
    rw [hs, hs]
  · have hb : startsWith isBlank (e :: q) = false := (not_of_isEdge he).1
    rw [takeWhile_append hb]
  · rw [quoted_extended he hq fun hwhole => ?_]
    rw [hwhole] at hk
    obtain ⟨quote, cs, hsrc, hclosed⟩ := hk
    obtain ⟨rfl, rfl⟩ := List.cons.inj hsrc
    exact hclosed
  · exact beyond_identLike_extended he hw hk q
  · exact beyond_numeric_extended he hw q
  · exact symbol_extended he hw hk q

/-! ## Tokens of a text -/

theorem ReadsOne.extended (h : ReadsOne t x) (he : isEdge e = true) (ht : t.HasEnded)
    (hx : EndsPlain (t.source ++ x)) (q : List Char) : ReadsOne t (x ++ e :: q) := by
  obtain ⟨c, cs, hsrc, hs⟩ := h
  refine ⟨c, cs, hsrc, ?_⟩
  rw [Token.HasEnded, hsrc] at ht
  rw [hsrc] at hx
  have hends : EndsBehind c (cs ++ x) (scan c (cs ++ x)) := by
    rw [hs, EndsBehind, List.take_left]
    exact ht
  rw [← List.append_assoc, scan_extended (w := cs ++ x) he hx hends, hs]

/-- Tokens at the end of a text are read in front of an edge as well. -/
theorem Reads.extended (h : Reads ts []) (he : isEdge e = true) (ht : ∀ t ∈ ts, t.HasEnded)
    (hplain : EndsPlain (sourceOf ts)) (q : List Char) : Reads ts (e :: q) := by
  induction ts with
  | nil => trivial
  | cons t ts ih =>
    obtain ⟨hone, hts⟩ := h
    rw [List.append_nil] at hone
    exact ⟨hone.extended he (ht t (by simp)) hplain q,
      ih hts (fun u hu => ht u (by simp [hu])) (hplain.of_suffix (List.suffix_append _ _))⟩

/-! ## A text between brackets -/

/-- The bracket behind the tokens of a text. -/
def closerBehind (ts : List Token) : Token := ⟨.closing .curly, ['\x7d'], 1 + breaksIn ts⟩

/-- The tokens of a text between a head that ends with an edge and a closing bracket. -/
theorem tokens_enclosed {p cs : List Char} (hp : EndsEdged (tokens p)) (hline : breaksIn (tokens p) = 0)
    (ht : ∀ t ∈ tokens cs, t.HasEnded) (hcs : EndsPlain cs) : tokens (p ++ (cs ++ ['\x7d'])) =
      tokens p ++ (tokens cs ++ [closerBehind (tokens cs)]) := by
  have hsplit {cs k : List Char} (h : Reads (tokens cs) k) :
      tokensFrom 1 (cs ++ k) = tokens cs ++ tokensFrom (1 + breaksIn (tokens cs)) k := by
    have happend : tokensFrom 1 (sourceOf (tokens cs) ++ k) =
        tokens cs ++ tokensFrom (1 + breaksIn (tokens cs)) k :=
      tokensFrom_append (List.append_nil _).symm h
    rwa [sourceOf_tokens] at happend
  have hhead := hsplit ((reads_tokens p).endsEdged hp (cs ++ ['\x7d']))
  have hplain : EndsPlain (sourceOf (tokens cs)) := by rwa [sourceOf_tokens]
  have hinner := hsplit ((reads_tokens cs).extended (e := '\x7d') rfl ht hplain [])
  have hcloser : tokensFrom (1 + breaksIn (tokens cs)) ['\x7d'] = [closerBehind (tokens cs)] := by
    simp [tokensFrom, scan, symbol, isBlank, isNewline, isNameStart, isNonAscii, closerBehind]
  rw [tokens, hhead, hline, hinner, hcloser]

namespace Node

/-- The nodes of a text between a head that ends with an opening bracket and a closing one. -/
theorem ofText_enclosed {p cs : List Char} {head : List Node} {opener : Token}
    (hp : Css.tokens p = allTokens head ++ [opener]) (ho : opener.kind = .opening .curly)
    (hhead : AllFit none head) (hline : breaksIn (Css.tokens p) = 0)
    (hclosed : AllClosed (ofText cs))
    (hbraces : ∀ n ∈ ofText cs, n.isLeaf (· = .closing .curly) = false)
    (ht : ∀ t ∈ Css.tokens cs, t.HasEnded) (hcs : EndsPlain cs) :
    ofText (p ++ (cs ++ ['\x7d'])) =
      head ++ [block opener (ofText cs) (some (closerBehind (Css.tokens cs)))] := by
  have hedged : EndsEdged (Css.tokens p) := by
    intro t hlast
    obtain rfl : opener = t := by simpa [hp] using hlast
    exact ⟨'\x7b', by rw [ho]; rfl⟩
  have hinner : AllFit (some .curly) (ofText cs) := by
    refine allFit_iff.2 fun n hn => ?_
    have hfits := allFit_iff.1 (allFit_ofTokens hclosed) n hn
    cases n with
    | block opener inner closer => exact hfits
    | leaf t =>
      refine ⟨hfits.1, fun _ hcloses => ?_⟩
      have hleaf := hbraces (.leaf t) hn
      simp [isLeaf, isBlock, kind, first, Kind.eq_closing hcloses] at hleaf
  have hfit : AllFit none
      (head ++ [block opener (ofText cs) (some (closerBehind (Css.tokens cs)))]) := by
    refine allFit_iff.2 fun n hn => ?_
    rcases List.mem_append.1 hn with hn | hn
    · exact allFit_iff.1 hhead n hn
    · obtain rfl := List.mem_singleton.1 hn
      exact ⟨.curly, _, by rw [ho]; rfl, rfl, rfl, hinner⟩
  have htokens : Css.tokens (p ++ (cs ++ ['\x7d'])) = allTokens
      (head ++ [block opener (ofText cs) (some (closerBehind (Css.tokens cs)))]) := by
    rw [tokens_enclosed hedged hline ht hcs, hp, allTokens_append]
    simp [allTokens, Node.tokens, allTokens_ofText]
  rw [ofText, htokens, ofTokens_allTokens hfit]

end Node

end SheetDiff.Css
