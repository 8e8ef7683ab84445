import SheetDiff.Proofs.Css.Edge

/-!
# What stands before white space

A text is `Dull` at its start if it continues no name, number or symbol in front of it: it is at its
end or goes on with white space, a slash, a semicolon or a curly bracket. A token that ends before
such a text `q` is read alike before another one `q'`, if the two are `Joint`: white space may be
written differently, and it may be left out at the end of the text (`scan_joint`). Unlike
`scan_agree` this asks nothing of the second reading. Each scanner keeps to the same rule.
-/

namespace SheetDiff.Css

variable {c : Char} {w q q' : List Char}

/-! ## Texts that continue no token -/

/-- Blanks, the slash and the characters of edges. -/
def dullChars : List Char := [' ', '\t', '\n', '\r', '\x0c', '/', ';', '\x7b', '\x7d']

/-- A text that continues no token in front of it. -/
def Dull (q : List Char) : Prop := ∀ c ∈ q.head?, c ∈ dullChars

theorem dull_nil : Dull [] := by simp [Dull]

theorem dull_cons (h : c ∈ dullChars) (q : List Char) : Dull (c :: q) := by
  simpa [Dull] using h

theorem Dull.startsWith {p : Char → Bool} (h : Dull q) (hp : dullChars.any p = false) :
    startsWith p q = false := by
  cases q with
  | nil => rfl
  | cons c q => simpa [Css.startsWith] using List.any_eq_false.1 hp c (h c (by simp))

theorem startsWith_append {p : Char → Bool} (h : startsWith p q = false) (w : List Char) :
    startsWith p (w ++ q) = startsWith p w := by
  cases w with
  | nil => exact h
  | cons c w => rfl

theorem takeWhile_append {p : Char → Bool} (h : startsWith p q = false) (w : List Char) :
    (w ++ q).takeWhile p = w.takeWhile p := by
  induction w with
  | nil =>
    cases q with
    | nil => rfl
    | cons c q =>
      have hc : p c = false := h
      simp [hc]
  | cons c w ih => simp [List.takeWhile_cons, ih]

/-- A pattern without the first character of a text lies before it. -/
theorem isPrefixOf_append {p : List Char} (h : ∀ c ∈ q.head?, c ∉ p) (w : List Char) :
    p.isPrefixOf (w ++ q) = p.isPrefixOf w := by
  induction p generalizing w with
  | nil => simp
  | cons d p ih =>
    have ih := ih fun c hc hm => h c hc (List.mem_cons_of_mem _ hm)
    cases w with
    | cons c w => simp [List.isPrefixOf, ih]
    | nil =>
      cases q with
      | nil => rfl
      | cons e q =>
        have hne : d ≠ e := by
          rintro rfl
          exact h d rfl List.mem_cons_self
        simp [List.isPrefixOf, hne]

/-- Texts that may stand for each other behind a token: the second one starts with white space or is
at its end only where the first one does or is, and it starts with no line break. -/
structure Joint (q q' : List Char) : Prop where
  left : Dull q
  right : Dull q'
  ends : q = [] → q' = []
  blank : startsWith isBlank q' = true → startsWith isBlank q = true
  newline : startsWith isNewline q' = false

/-! ## Escapes and names -/

theorem newlineLength_joint (j : Joint q q') (hn : newlineLength (w ++ q) ≤ w.length) :
    newlineLength (w ++ q') = newlineLength (w ++ q) := by
  cases w with
  | nil =>
    have h0 : newlineLength q = 0 := Nat.le_zero.1 hn
    have hnew := j.newline
    rw [List.nil_append, List.nil_append, h0]
    cases q' with
    | nil => rfl
    | cons e z =>
      have he : isNewline e = false := by simpa [startsWith] using hnew
      have hne : e ≠ '\r' := by
        rintro rfl
        exact absurd he (by decide)
      simp [newlineLength, he, hne]
  | cons c w =>
    have hrest {d : Char} (hcd : ¬ (c = '\r' ∧ d = '\n')) (k : List Char) :
        newlineLength (c :: d :: k) = if isNewline c then 1 else 0 := by
      rw [newlineLength]
      rintro cs rfl hd
      exact hcd ⟨rfl, (List.cons.inj hd).1⟩
    cases w with
    | cons d w =>
      by_cases hcd : c = '\r' ∧ d = '\n'
      · obtain ⟨rfl, rfl⟩ := hcd
        rfl
      · simp only [List.cons_append, hrest hcd]
    | nil =>
      have hone {k : List Char} (hk : ¬ (c = '\r' ∧ startsWith (· = '\n') k = true)) :
          newlineLength (c :: k) = if isNewline c then 1 else 0 := by
        cases k with
        | nil => simp [newlineLength]
        | cons d k => exact hrest (by simpa [startsWith] using hk) k
      have hq : ¬ (c = '\r' ∧ startsWith (· = '\n') q = true) := by
        rintro ⟨rfl, hs⟩
        cases q with
        | nil => simp [startsWith] at hs
        | cons d q =>
          obtain rfl : d = '\n' := by simpa [startsWith] using hs
          simp [newlineLength] at hn
      have hq' : ¬ (c = '\r' ∧ startsWith (· = '\n') q' = true) := by
        rintro ⟨-, hs⟩
        have hnew := j.newline
        cases q' with
        | nil => simp [startsWith] at hs
        | cons d q' =>
          obtain rfl : d = '\n' := by simpa [startsWith] using hs
          simp [startsWith, isNewline] at hnew
      rw [List.singleton_append, List.singleton_append, hone hq, hone hq']

private theorem blankLength_joint (j : Joint q q') (hn : blankLength (w ++ q) ≤ w.length) :
    blankLength (w ++ q') = blankLength (w ++ q) := by
  cases w with
  | nil =>
    have hblank {k : List Char} (hk : startsWith isBlank k = false) : blankLength k = 0 := by
      have hnew : startsWith isNewline k = false := by
        cases k with
        | nil => rfl
        | cons c k =>
          simp only [startsWith, List.head?_cons, Option.any_some, isBlank, Bool.or_eq_false_iff] at hk
          simpa [startsWith] using hk.2
      rw [blankLength, if_neg (by simp [hnew]), if_neg (by simp [hk])]
    have hq : startsWith isBlank q = false := by
      rw [← Bool.not_eq_true]
      intro hs
      have h0 : blankLength q = 0 := Nat.le_zero.1 hn
      unfold blankLength at h0
      split at h0
      · have := newlineLength_pos ‹_›
        omega
      · simp at h0
    have hq' : startsWith isBlank q' = false := by
      rw [← Bool.not_eq_true]
      intro hs
      simp [j.blank hs] at hq
    rw [List.nil_append, List.nil_append, hblank hq, hblank hq']
  | cons c w =>
    have hb (k : List Char) : blankLength (c :: w ++ k) =
        if isNewline c then newlineLength (c :: w ++ k) else if isBlank c then 1 else 0 := rfl
    rw [hb] at hn ⊢
    rw [hb]
    split
    · rename_i hc
      rw [if_pos hc] at hn
      exact newlineLength_joint j hn
    · rfl

theorem escapeDigits_dull (h : Dull q) (w : List Char) :
    escapeDigits (w ++ q) = escapeDigits w := by
  have hs : startsWith (fun c => (Text.hexDigit? c).isSome) q = false := h.startsWith (by decide)
  rw [escapeDigits, escapeDigits, List.take_append]
  refine takeWhile_append ?_ _
  cases q with
  | nil => simp [startsWith]
  | cons c q =>
    cases 6 - w.length with
    | zero => rfl
    | succ n => exact hs

/-- An escape that ends before a dull text and takes something before it. -/
theorem escape_joint (j : Joint q q') (hw : w ≠ []) (hn : (escape (w ++ q)).2 ≤ w.length) :
    escape (w ++ q') = escape (w ++ q) := by
  have hd := escapeDigits_dull j.left w
  have hd' := escapeDigits_dull j.right w
  by_cases h : escapeDigits w = []
  · rw [escape_of_nil (hd.trans h), escape_of_nil (hd'.trans h)]
    cases w with
    | nil => exact absurd rfl hw
    | cons c w => rfl
  · have hle : (escapeDigits w).length ≤ w.length := by
      have := (List.takeWhile_sublist (l := w.take 6) fun c => (Text.hexDigit? c).isSome).length_le
      rw [List.length_take] at this
      rw [escapeDigits]
      omega
    rw [← hd] at h
    rw [escape_of_digits h, hd, List.drop_append_of_le_length hle] at hn
    rw [escape_of_digits h, escape_of_digits (by rwa [hd', ← hd]), hd, hd',
      List.drop_append_of_le_length hle, List.drop_append_of_le_length hle, blankLength_joint j]
    rw [List.length_drop]
    simp only at hn
    omega

/-- A name that ends before a dull text. A backslash right before a line break starts no escape, but
it does where the line break is gone. -/
theorem name_joint (j : Joint q q') (hn : (name (w ++ q)).2 ≤ w.length)
    (hl : startsWith isNewline q = true → w.drop (name (w ++ q)).2 ≠ ['\\']) :
    name (w ++ q') = name (w ++ q) := by
  induction hlen : w.length using Nat.strongRecOn generalizing w with
  | ind l ih =>
  cases w with
  | nil =>
    have hstop {k : List Char} (hk : Dull k) : name k = ([], 0) := by
      have hname : startsWith isNameChar k = false := hk.startsWith (by decide)
      have hback : startsWith (· = '\\') k = false := hk.startsWith (by decide)
      cases k with
      | nil => simp [name]
      | cons c k => exact name_of_not hname fun hc => by simp [startsWith, hc] at hback
    rw [List.nil_append, List.nil_append, hstop j.left, hstop j.right]
  | cons c w =>
    rw [List.length_cons] at hlen
    simp only [List.cons_append, List.length_cons] at hn hl ⊢
    by_cases hc : isNameChar c = true
    · rw [name_cons_of_isNameChar hc] at hn hl ⊢
      rw [name_cons_of_isNameChar hc,
        ih w.length (by omega) (Nat.le_of_succ_le_succ hn) (by simpa using hl) rfl]
    have hc : isNameChar c = false := by simpa using hc
    by_cases hb : c = '\\'
    · subst hb
      cases w with
      | nil =>
        rw [List.nil_append] at hn hl ⊢
        rw [List.nil_append]
        by_cases hs : startsWith isNewline q = true
        · rw [name_of_not hc fun _ => hs] at hl
          exact absurd rfl (hl hs)
        · have hq := eq_nil_of_name (by simpa using hs) hn
          rw [hq, j.ends hq]
      | cons d w =>
        by_cases hs : isNewline d = true
        · rw [name_of_not hc fun _ => by simpa [startsWith] using hs,
            name_of_not hc fun _ => by simpa [startsWith] using hs]
        · have hs (k : List Char) : startsWith isNewline (d :: w ++ k) = false := by
            simpa [startsWith] using hs
          rw [name_escape (hs q)] at hn hl ⊢
          rw [name_escape (hs q')]
          simp only at hn hl
          rw [List.length_cons] at hn
          have hle : (escape (d :: w ++ q)).2 ≤ (d :: w).length := by
            rw [List.length_cons]
            omega
          have hdrop := List.length_drop (l := d :: w) (i := (escape (d :: w ++ q)).2)
          rw [escape_joint j (List.cons_ne_nil d w) hle, List.drop_append_of_le_length hle,
            List.drop_append_of_le_length hle]
          rw [List.drop_append_of_le_length hle] at hn hl
          rw [List.length_cons] at hlen hdrop hle
          rw [ih _ (by omega) (by omega) (fun hq => ?_) rfl]
          have hl := hl hq
          rwa [show ∀ n, 1 + (escape (d :: w ++ q)).2 + n = (escape (d :: w ++ q)).2 + n + 1 by omega,
            List.drop_succ_cons, ← List.drop_drop] at hl
    · rw [name_of_not hc fun h => absurd h hb, name_of_not hc fun h => absurd h hb]

/-! ## Numbers -/

private theorem fractionDigits_dull (h : Dull q) (w : List Char) :
    fractionDigits (w ++ q) = fractionDigits w := by
  have hd : startsWith Char.isDigit q = false := h.startsWith (by decide)
  cases w with
  | nil =>
    have hp : startsWith (· = '.') q = false := h.startsWith (by decide)
    cases q with
    | nil => rfl
    | cons c q =>
      have hc : c ≠ '.' := by simpa [startsWith] using hp
      simp [fractionDigits, hc]
  | cons c w =>
    by_cases hc : c = '.'
    · subst hc
      exact takeWhile_append hd w
    · simp [fractionDigits, hc]

private theorem exponent?_dull (h : Dull q) (w : List Char) : exponent? (w ++ q) = exponent? w := by
  have hd : startsWith Char.isDigit q = false := h.startsWith (by decide)
  have hminus : startsWith (· = '-') q = false := h.startsWith (by decide)
  cases w with
  | nil =>
    have he : startsWith (fun c => c = 'e' || c = 'E') q = false := h.startsWith (by decide)
    cases q with
    | nil => rfl
    | cons c q =>
      have hc : ¬ (c = 'e' ∨ c = 'E') := by simpa [startsWith] using he
      simp [exponent?, hc]
  | cons c w =>
    by_cases hc : c = 'e' ∨ c = 'E'
    · have hs : signed (w ++ q) = signed w := startsWith_append (h.startsWith (by decide)) w
      have hsl : (signed w).toNat ≤ w.length := by
        cases w with
        | nil => simp [signed, startsWith]
        | cons d w => exact Nat.le_trans (Bool.toNat_le _) (Nat.le_add_left 1 w.length)
      have hdig : exponentDigits (w ++ q) = exponentDigits w := by
        rw [exponentDigits, hs, List.drop_append_of_le_length hsl, takeWhile_append hd,
          exponentDigits]
      rw [List.cons_append, exponent?_letter hc, exponent?_letter hc, hs, hdig,
        startsWith_append hminus]
    · simp [exponent?, hc]

/-- A number before a dull text is read without it. -/
theorem numeral_dull (h : Dull q) (w : List Char) : numeral (w ++ q) = numeral w := by
  have hd : startsWith Char.isDigit q = false := h.startsWith (by decide)
  have hsign : sign (w ++ q) = sign w := by
    cases w with
    | nil =>
      have hs : startsWith (fun c => c = '+' || c = '-') q = false := h.startsWith (by decide)
      cases q with
      | nil => rfl
      | cons c q =>
        have hc : c ≠ '+' ∧ c ≠ '-' := by simpa [startsWith] using hs
        simp [sign, Option.filter, hc.1, hc.2]
    | cons c w => rfl
  have hlen : signLength (w ++ q) = signLength w := by
    rw [signLength, hsign, signLength]
  have hb : baseLength w ≤ w.length := Nat.le_trans (baseLength_le w) (numeral_le w)
  have hw : signLength w + (whole w).length ≤ w.length :=
    Nat.le_trans (Nat.le_add_right ..) hb
  have hs : signLength w ≤ w.length := Nat.le_trans (Nat.le_add_right ..) hw
  have hwhole : whole (w ++ q) = whole w := by
    rw [whole, hlen, List.drop_append_of_le_length hs, takeWhile_append hd, whole]
  have hfrac : fraction (w ++ q) = fraction w := by
    rw [fraction, hlen, hwhole, List.drop_append_of_le_length hw, fractionDigits_dull h, fraction]
  have hbase : baseLength (w ++ q) = baseLength w := by
    rw [baseLength, hlen, hwhole, hfrac, baseLength]
  rw [numeral_eq, numeral_eq, hbase, hsign, hwhole, hfrac, List.drop_append_of_le_length hb,
    exponent?_dull h]

theorem startsNumber_dull (h : Dull q) (w : List Char) : startsNumber (w ++ q) = startsNumber w := by
  have hd : startsWith Char.isDigit q = false := h.startsWith (by decide)
  cases w with
  | nil =>
    have hp : startsWith (fun c => c.isDigit || c = '.') q = false := h.startsWith (by decide)
    cases q with
    | nil => rfl
    | cons c q =>
      have hc : c.isDigit = false ∧ c ≠ '.' := by simpa [startsWith] using hp
      simp [startsNumber, hc.1, hc.2]
  | cons c w => rw [List.cons_append, startsNumber, startsNumber, startsWith_append hd]

theorem startsIdent_joint (j : Joint q q') (hl : startsWith isNewline q = true → w ≠ ['\\']) :
    startsIdent (w ++ q') = startsIdent (w ++ q) := by
  have hhyphen {k : List Char} (hk : Dull k) :
      startsWith (fun d => isNameStart d || d = '-' || d = '\\') k = false :=
    hk.startsWith (by decide)
  cases w with
  | nil =>
    have hstop {k : List Char} (hk : Dull k) : startsIdent k = false := by
      have hs := hhyphen hk
      cases k with
      | nil => rfl
      | cons c k =>
        have hc : (isNameStart c = false ∧ c ≠ '-') ∧ c ≠ '\\' := by simpa [startsWith] using hs
        simp [startsIdent, hc]
    rw [List.nil_append, List.nil_append, hstop j.left, hstop j.right]
  | cons c w =>
    rw [List.cons_append, List.cons_append, startsIdent, startsIdent,
      startsWith_append (hhyphen j.left), startsWith_append (hhyphen j.right)]
    cases w with
    | cons d w => rfl
    | nil =>
      have hnew : c = '\\' → startsWith isNewline q = false := by
        rintro rfl
        rw [← Bool.not_eq_true]
        exact fun hs => hl hs rfl
      by_cases hc : c = '\\'
      · rw [List.nil_append, List.nil_append, hnew hc, j.newline]
      · simp [hc]

theorem numeric_joint (j : Joint q q') (hn : (numeric (w ++ q)).2 ≤ w.length)
    (hl : startsWith isNewline q = true → w.drop (numeric (w ++ q)).2 ≠ ['\\']) :
    numeric (w ++ q') = numeric (w ++ q) := by
  have hpercent {k : List Char} (hk : Dull k) (w : List Char) :
      startsWith (· = '%') (w ++ k) = startsWith (· = '%') w :=
    startsWith_append (hk.startsWith (by decide)) w
  have hk := numeral_le w
  have hlen := List.length_drop (l := w) (i := (numeral w).2)
  simp only [numeric, numeral_dull j.left, numeral_dull j.right, List.drop_append_of_le_length hk,
    hpercent j.left, hpercent j.right] at hn hl ⊢
  split
  · rfl
  · rename_i hp
    rw [if_neg hp] at hn hl
    have hident : startsIdent (w.drop (numeral w).2 ++ q') =
        startsIdent (w.drop (numeral w).2 ++ q) := by
      refine startsIdent_joint j fun hs hback => ?_
      have hno : startsIdent (w.drop (numeral w).2 ++ q) = false := by
        rw [hback]
        simp [startsIdent, hs]
      rw [hno] at hl
      exact hl hs hback
    rw [hident]
    split
    · rename_i hs
      rw [if_pos hs] at hn hl
      simp only at hn hl
      rw [name_joint j (by omega) fun hq => by rw [List.drop_drop]; exact hl hq]
    · rfl

/-! ## Strings and comments -/

theorem comment_joint (j : Joint q q') (hn : (comment (w ++ q)).2 ≤ w.length) :
    comment (w ++ q') = comment (w ++ q) := by
  by_cases hq : q = []
  · rw [hq, j.ends hq]
  obtain ⟨e, z, rfl⟩ := List.exists_cons_of_ne_nil hq
  induction w with
  | nil =>
    have := comment_pos e z
    rw [List.nil_append, List.length_nil] at hn
    omega
  | cons c w ih =>
    simp only [List.cons_append, List.length_cons] at hn ih ⊢
    cases w with
    | nil =>
      rw [List.nil_append] at hn
      by_cases hce : c = '*' ∧ e = '/'
      · obtain ⟨rfl, rfl⟩ := hce
        simp [comment] at hn
      · have := comment_pos e z
        rw [comment_cons hce] at hn
        simp only [List.length_nil] at hn
        omega
    | cons d w =>
      simp only [List.cons_append, List.length_cons] at hn ih ⊢
      by_cases hcd : c = '*' ∧ d = '/'
      · obtain ⟨rfl, rfl⟩ := hcd
        simp [comment]
      · rw [comment_cons hcd] at hn ⊢
        rw [comment_cons hcd, ih (Nat.le_of_succ_le_succ hn)]

/-- A string that is not broken by the line break behind it. -/
theorem quoted_joint {quote : Char} (j : Joint q q') (hq : quote = '"' ∨ quote = '\'')
    (hn : (quoted quote (w ++ q)).2 ≤ w.length)
    (hl : startsWith isNewline q = true → (quoted quote (w ++ q)).1.2 = true) :
    quoted quote (w ++ q') = quoted quote (w ++ q) := by
  have hqb : quote ≠ '\\' := by
    rcases hq with rfl | rfl <;> decide
  by_cases hnil : q = []
  · rw [hnil, j.ends hnil]
  induction hlen : w.length using Nat.strongRecOn generalizing w with
  | ind l ih =>
  cases w with
  | nil =>
    obtain ⟨e, z, rfl⟩ := List.exists_cons_of_ne_nil hnil
    have hne : e ≠ quote ∧ e ≠ '\\' := by
      have hs : startsWith (fun c => c = '"' || c = '\'' || c = '\\') (e :: z) = false :=
        j.left.startsWith (by decide)
      have he : (e ≠ '"' ∧ e ≠ '\'') ∧ e ≠ '\\' := by simpa [startsWith] using hs
      rcases hq with rfl | rfl
      · exact ⟨he.1.1, he.2⟩
      · exact ⟨he.1.2, he.2⟩
    rw [List.nil_append] at hn hl
    by_cases hen : isNewline e = true
    · have hbroken := hl (by simpa [startsWith] using hen)
      simp [quoted, hne.1, hen] at hbroken
    · rw [quoted_plain hne.1 (by simpa using hen) hne.2] at hn
      simp at hn
  | cons c w =>
    rw [List.length_cons] at hlen
    simp only [List.cons_append, List.length_cons] at hn hl ⊢
    by_cases hcq : c = quote
    · simp [quoted, hcq]
    by_cases hcn : isNewline c = true
    · simp [quoted, hcq, hcn]
    have hcn : isNewline c = false := by simpa using hcn
    by_cases hb : c = '\\'
    · subst hb
      cases w with
      | nil => exact absurd (eq_nil_of_quoted hqb hn) hnil
      | cons d w =>
        by_cases hs : isNewline d = true
        · have hs (k : List Char) : startsWith isNewline (d :: w ++ k) = true := by
            simpa [startsWith] using hs
          rw [quoted_newline hqb (hs q)] at hn hl ⊢
          rw [quoted_newline hqb (hs q')]
          simp only at hn hl
          have hle : newlineLength (d :: w ++ q) ≤ (d :: w).length := by omega
          have hdrop := List.length_drop (l := d :: w) (i := newlineLength (d :: w ++ q))
          rw [newlineLength_joint j hle, List.drop_append_of_le_length hle]
          rw [List.drop_append_of_le_length hle] at hn hl ⊢
          rw [ih _ (by omega) (by omega) hl rfl]
        · have hs (k : List Char) : startsWith isNewline (d :: w ++ k) = false := by
            simpa [startsWith] using hs
          have hne (k : List Char) : d :: w ++ k ≠ [] := by simp
          rw [quoted_escape hqb (hs q) (hne q)] at hn hl ⊢
          rw [quoted_escape hqb (hs q') (hne q')]
          simp only at hn hl
          have hle : (escape (d :: w ++ q)).2 ≤ (d :: w).length := by omega
          have hdrop := List.length_drop (l := d :: w) (i := (escape (d :: w ++ q)).2)
          rw [escape_joint j (List.cons_ne_nil d w) hle, List.drop_append_of_le_length hle]
          rw [List.drop_append_of_le_length hle] at hn hl ⊢
          rw [ih _ (by omega) (by omega) hl rfl]
    · rw [quoted_plain hcq hcn hb] at hn hl ⊢
      rw [quoted_plain hcq hcn hb, ih w.length (by omega) (Nat.le_of_succ_le_succ hn) hl rfl]

/-! ## Addresses -/

private theorem addressEnd_joint (hd : Dull q) (hq : q ≠ []) (hn : (addressEnd (w ++ q)).2 ≤ w.length) :
    addressEnd (w ++ q') = addressEnd (w ++ q) := by
  induction w with
  | nil =>
    obtain ⟨e, z, rfl⟩ := List.exists_cons_of_ne_nil hq
    have hclose : startsWith (· = ')') (e :: z) = false := hd.startsWith (by decide)
    have hpos : 0 < (addressEnd (e :: z)).2 := by
      unfold addressEnd
      by_cases hb : isBlank e = true
      · simp only [List.takeWhile_cons, hb, if_true, List.length_cons]
        split
        · simp
        · split <;> simp
      · simp only [List.takeWhile_cons, hb, Bool.false_eq_true, if_false, List.length_nil,
          List.drop_zero]
        split <;> simp
    rw [List.nil_append, List.length_nil] at hn
    omega
  | cons c w ih =>
    by_cases hb : isBlank c = true
    · have hstep (k : List Char) : addressEnd (c :: w ++ k) =
          ((addressEnd (w ++ k)).1, (addressEnd (w ++ k)).2 + 1) := by
        simp only [addressEnd, List.cons_append, List.takeWhile_cons, hb, if_true, List.length_cons,
          List.drop_succ_cons]
        split
        · rfl
        · split <;> rfl
      rw [hstep] at hn ⊢
      rw [hstep, ih (by simpa using hn)]
    · simp [addressEnd, hb]

/-- An address that ends before a dull text. One that is spoilt by a backslash right before a line
break is not. -/
theorem address_joint (j : Joint q q') (hq : q ≠ []) (hn : (address (w ++ q)).2 ≤ w.length)
    (hl : (address (w ++ q)).1 = none → (address (w ++ q)).2 < w.length) :
    address (w ++ q') = address (w ++ q) := by
  induction hlen : w.length using Nat.strongRecOn generalizing w with
  | ind l ih =>
  cases w with
  | nil =>
    obtain ⟨e, z, rfl⟩ := List.exists_cons_of_ne_nil hq
    have := address_pos e z
    rw [List.nil_append, List.length_nil] at hn
    omega
  | cons c w =>
    rw [List.length_cons] at hlen
    by_cases hblank : isBlank c = true
    · have ha (k : List Char) : address (c :: w ++ k) = addressEnd (c :: w ++ k) := by
        rw [List.cons_append, address, if_pos hblank]
      rw [ha] at hn ⊢
      rw [ha, addressEnd_joint j.left hq hn]
    simp only [List.cons_append, List.length_cons] at hn hl ⊢
    by_cases hclose : c = ')'
    · subst hclose
      rw [address, address, if_neg hblank, if_neg hblank, if_pos rfl, if_pos rfl]
    by_cases hspoil : isNonPrintable c ∨ c = '"' ∨ c = '\'' ∨ c = '('
    · simp [address, hblank, hclose, hspoil]
    by_cases hb : c = '\\'
    · subst hb
      cases w with
      | nil =>
        rw [List.nil_append] at hn hl
        by_cases hs : startsWith isNewline q = true
        · rw [address_newline hs] at hl
          simp at hl
        · have := escape_pos hq
          rw [address_escape (by simpa using hs)] at hn
          simp only [List.length_nil] at hn
          omega
      | cons d w =>
        by_cases hs : isNewline d = true
        · have hs (k : List Char) : startsWith isNewline (d :: w ++ k) = true := by
            simpa [startsWith] using hs
          rw [address_newline (hs q), address_newline (hs q')]
        · have hs (k : List Char) : startsWith isNewline (d :: w ++ k) = false := by
            simpa [startsWith] using hs
          rw [address_escape (hs q)] at hn hl ⊢
          rw [address_escape (hs q')]
          simp only [Option.map_eq_none_iff] at hn hl
          have hle : (escape (d :: w ++ q)).2 ≤ (d :: w).length := by omega
          have hdrop := List.length_drop (l := d :: w) (i := (escape (d :: w ++ q)).2)
          rw [escape_joint j (List.cons_ne_nil d w) hle, List.drop_append_of_le_length hle]
          rw [List.drop_append_of_le_length hle] at hn hl ⊢
          rw [ih _ (by omega) (by omega) (fun h => by have := hl h; omega) rfl]
    · have hc := And.intro (by simpa using hblank) (And.intro hclose (And.intro hspoil hb))
      rw [address_plain hc] at hn hl ⊢
      simp only [Option.map_eq_none_iff, Nat.add_lt_add_iff_right] at hn hl
      rw [address_plain hc, ih w.length (by omega) (Nat.le_of_succ_le_succ hn) hl rfl]

/-- A spoilt address that ends before a dull text ends alike whatever follows. -/
private theorem spoilt_joint (hd : Dull q) (hq : q ≠ []) (hn : spoiltLength (w ++ q) ≤ w.length) :
    spoilt (w ++ q') = spoilt (w ++ q) ∧ spoiltLength (w ++ q') = spoiltLength (w ++ q) := by
  obtain ⟨e, z, rfl⟩ := List.exists_cons_of_ne_nil hq
  induction hlen : w.length using Nat.strongRecOn generalizing w with
  | ind l ih =>
  cases w with
  | nil =>
    have := spoiltLength_pos e z
    rw [List.nil_append, List.length_nil] at hn
    omega
  | cons c w =>
    rw [List.length_cons] at hlen
    by_cases hc : c = ')'
    · subst hc
      simp only [List.cons_append, spoiltLength_close, and_true]
      cases h : w ++ e :: z <;> cases h' : w ++ q' <;> simp [spoilt]
    cases w with
    | nil =>
      have hs : startsWith (fun c => c = ')' || c = '\\') (e :: z) = false := hd.startsWith (by decide)
      have hcd : ¬ (c = '\\' ∧ (e = ')' ∨ e = '\\')) := by
        have he : e ≠ ')' ∧ e ≠ '\\' := by simpa [startsWith] using hs
        simp [he]
      have := spoiltLength_pos e z
      rw [List.singleton_append, (spoilt_cons hc hcd z).2, List.length_singleton] at hn
      omega
    | cons d w =>
      simp only [List.cons_append, List.length_cons] at hn hlen ih ⊢
      by_cases hcd : c = '\\' ∧ (d = ')' ∨ d = '\\')
      · rw [(spoilt_pair hcd _).2] at hn
        obtain ⟨hs, hlen⟩ := ih w.length (by omega) (by omega) rfl
        rw [(spoilt_pair hcd _).1, (spoilt_pair hcd _).1, (spoilt_pair hcd _).2,
          (spoilt_pair hcd _).2, hs, hlen]
        exact ⟨rfl, rfl⟩
      · rw [(spoilt_cons hc hcd _).2] at hn
        obtain ⟨hs, hlen⟩ := ih (w.length + 1) (by omega) (w := d :: w)
          (by rw [List.cons_append, List.length_cons]; omega) rfl
        rw [List.cons_append, List.cons_append] at hs hlen
        rw [(spoilt_cons hc hcd _).1, (spoilt_cons hc hcd _).1, (spoilt_cons hc hcd _).2,
          (spoilt_cons hc hcd _).2, hs, hlen]
        exact ⟨rfl, rfl⟩

private theorem unblankedUrl?_joint (j : Joint q q') (hq : q ≠ [])
    (hn : ∀ kind n, unblankedUrl? (w ++ q) = some (kind, n) → n ≤ w.length) :
    unblankedUrl? (w ++ q') = unblankedUrl? (w ++ q) := by
  have hquote {k : List Char} (hk : Dull k) : startsWith (fun c => c = '"' || c = '\'') (w ++ k) =
      startsWith (fun c => c = '"' || c = '\'') w :=
    startsWith_append (hk.startsWith (by decide)) w
  simp only [unblankedUrl?, hquote j.left, hquote j.right] at hn ⊢
  split
  · rfl
  · rename_i hs
    rw [if_neg hs] at hn
    obtain ⟨e, z, rfl⟩ := List.exists_cons_of_ne_nil hq
    have ha : (address (w ++ e :: z)).2 ≤ w.length ∧
        ((address (w ++ e :: z)).1 = none → (address (w ++ e :: z)).2 < w.length) := by
      generalize address (w ++ e :: z) = found at hn ⊢
      obtain ⟨_ | text, m⟩ := found
      · have hrest := hn _ _ rfl
        simp only at hrest ⊢
        have hle : m ≤ w.length := by omega
        rw [List.drop_append_of_le_length hle] at hrest
        refine ⟨hle, fun _ => ?_⟩
        rcases Nat.lt_or_ge m w.length with hlt | hge
        · exact hlt
        · rw [List.drop_eq_nil_of_le hge, List.nil_append] at hrest
          have := spoiltLength_pos e z
          omega
      · exact ⟨hn _ _ rfl, by simp⟩
    rw [address_joint j hq ha.1 ha.2]
    generalize address (w ++ e :: z) = found at ha hn ⊢
    obtain ⟨_ | text, m⟩ := found
    · have hlen := List.length_drop (l := w) (i := m)
      have hrest := hn _ _ rfl
      have ha := ha.1
      simp only at ha hrest ⊢
      rw [List.drop_append_of_le_length ha] at hrest
      have hl : spoiltLength (w.drop m ++ e :: z) ≤ (w.drop m).length := by omega
      obtain ⟨hs, hl⟩ : spoilt (w.drop m ++ q') = spoilt (w.drop m ++ e :: z) ∧
          spoiltLength (w.drop m ++ q') = spoiltLength (w.drop m ++ e :: z) :=
        spoilt_joint j.left hq hl
      rw [List.take_append_of_le_length ha, List.take_append_of_le_length ha,
        List.drop_append_of_le_length ha, List.drop_append_of_le_length ha, hs, hl]
    · rfl

/-- An address takes more than the blanks at its start. -/
private theorem blanks_lt_unquotedUrl? {b : List Char} {kind : Kind} {n : Nat} (hb : Blanks b)
    (hq : q ≠ []) (h : unquotedUrl? (b ++ q) = some (kind, n)) : b.length < n := by
  obtain ⟨b', u, rfl, hb', hu⟩ := blanks_split q
  have hall : ∀ c ∈ b ++ b', isBlank c = true := fun c hc => (List.mem_append.1 hc).elim (hb c) (hb' c)
  rw [← List.append_assoc, unquotedUrl?_append hall hu] at h
  obtain ⟨⟨kind', m⟩, hm, hn⟩ := Option.map_eq_some_iff.1 h
  obtain rfl := (Prod.mk.inj hn).2
  rw [List.length_append]
  by_cases hnil : u = []
  · have := List.length_pos_iff.2 (show b' ≠ [] by simpa [hnil] using hq)
    omega
  · have := unblankedUrl?_pos hm hnil
    omega

/-- An address that ends before a dull text. Where there is none because a quote follows, the quote
has to stay. -/
theorem unquotedUrl?_joint (j : Joint q q')
    (hn : ∀ kind n, unquotedUrl? (w ++ q) = some (kind, n) → n ≤ w.length)
    (hnone : unquotedUrl? (w ++ q) = none → unquotedUrl? (w ++ q') = none) :
    unquotedUrl? (w ++ q') = unquotedUrl? (w ++ q) := by
  by_cases hq : q = []
  · rw [hq, j.ends hq]
  cases hu : unquotedUrl? (w ++ q) with
  | none => exact hnone hu
  | some found =>
    rw [← hu]
    obtain ⟨b, v, rfl, hb, hv⟩ := blanks_split w
    cases v with
    | nil =>
      rw [List.append_nil] at hn hu
      have := blanks_lt_unquotedUrl? hb hq hu
      have := hn found.1 found.2 hu
      omega
    | cons c v =>
      have hsplit (k : List Char) : unquotedUrl? (b ++ (c :: v) ++ k) =
          (unblankedUrl? (c :: v ++ k)).map fun x => (x.1, b.length + x.2) := by
        rw [List.append_assoc]
        exact unquotedUrl?_append hb (by simpa using hv)
      rw [hsplit, hsplit, unblankedUrl?_joint j hq fun kind n h => ?_]
      have := hn kind (b.length + n) (by rw [hsplit, h]; rfl)
      rw [List.length_append] at this
      omega

/-! ## Names with what follows them -/

/-- A reading of `w ++ q` that ends inside of `w`. What it leaves of `w` is no backslash that waits
for the end of a line, and an address that starts with a quote still does before `q'`. -/
structure Clear (w q q' : List Char) (x : Kind × Nat) : Prop where
  le : x.2 ≤ w.length
  backslash : startsWith isNewline q = true → w.drop x.2 ≠ ['\\']
  address : unquotedUrl? (w.drop x.2 ++ q) = none → unquotedUrl? (w.drop x.2 ++ q') = none

theorem identLike_joint (j : Joint q q') (h : Clear w q q' (identLike (w ++ q))) :
    identLike (w ++ q') = identLike (w ++ q) := by
  have hopen {k : List Char} (hk : Dull k) (w : List Char) :
      startsWith (· = '(') (w ++ k) = startsWith (· = '(') w :=
    startsWith_append (hk.startsWith (by decide)) w
  obtain ⟨hn, hl, hu⟩ := h
  have hname := Nat.le_trans (name_le_identLike _) hn
  have hfront : startsWith isNewline q = true → w.drop (name (w ++ q)).2 ≠ ['\\'] := by
    intro hs hback
    refine hl hs ?_
    rw [identLike_eq, List.drop_append_of_le_length hname, hback, if_neg (by simp [startsWith])]
    exact hback
  have heq := name_joint j hname hfront
  rw [identLike_eq] at hn hu
  rw [identLike_eq, identLike_eq (w ++ q), heq]
  rw [List.drop_append_of_le_length hname, hopen j.left] at hn hu
  rw [List.drop_append_of_le_length hname, List.drop_append_of_le_length hname, hopen j.left,
    hopen j.right]
  split
  · rename_i hs
    rw [if_pos hs] at hn hu
    have hk : (name (w ++ q)).2 + 1 ≤ w.length := by
      have := startsWith_length hs
      rw [List.length_drop] at this
      omega
    split
    · rename_i hurl
      have hlen := List.length_drop (l := w) (i := (name (w ++ q)).2 + 1)
      rw [if_pos hurl, List.drop_append_of_le_length hk] at hn hu
      rw [List.drop_append_of_le_length hk, List.drop_append_of_le_length hk,
        unquotedUrl?_joint j (fun kind n hx => ?_) fun hx => ?_]
      · rw [hx] at hn
        simp only at hn
        omega
      · rw [hx] at hu
        exact hu hx
    · rfl
  · rfl

/-! ## Tokens -/

private theorem drop_beyond {x : Kind × Nat} (hp : 0 < x.2) (c : Char) (w : List Char) :
    (c :: w).drop x.2 = w.drop (beyond x).2 := by
  obtain ⟨kind, n⟩ := x
  cases n with
  | zero => simp at hp
  | succ n => rfl

private theorem beyond_identLike_joint (j : Joint q q') (hp : 0 < (identLike (c :: (w ++ q))).2)
    (h : Clear w q q' (beyond (identLike (c :: (w ++ q))))) :
    beyond (identLike (c :: (w ++ q'))) = beyond (identLike (c :: (w ++ q))) := by
  refine congrArg beyond (identLike_joint (w := c :: w) j ⟨beyond_le h.le, ?_, ?_⟩)
  · rw [List.cons_append, drop_beyond hp]
    exact h.backslash
  · rw [List.cons_append, drop_beyond hp]
    exact h.address

private theorem beyond_numeric_joint (j : Joint q q') (hc : c ≠ '\\')
    (h : Clear w q q' (beyond (numeric (c :: (w ++ q))))) :
    beyond (numeric (c :: (w ++ q'))) = beyond (numeric (c :: (w ++ q))) := by
  refine congrArg beyond (numeric_joint (w := c :: w) j (beyond_le h.le) fun hs => ?_)
  rw [List.cons_append]
  rcases Nat.eq_zero_or_pos (numeric (c :: (w ++ q))).2 with h0 | hp
  · simp [h0, hc]
  · rw [drop_beyond hp]
    exact h.backslash hs

private theorem named_joint {kind : String → Kind} (j : Joint q q')
    (h : Clear w q q' (named kind (w ++ q))) : named kind (w ++ q') = named kind (w ++ q) := by
  rw [named, named, name_joint j h.le h.backslash]

/-- A choice between two readings by a test that the text behind does not change. -/
private theorem choice_joint {b b' : Bool} {x y x' y' : Kind × Nat}
    (h : Clear w q q' (if b = true then x else y)) (hb : b' = b)
    (hx : b = true → Clear w q q' x → x' = x) (hy : b = false → Clear w q q' y → y' = y) :
    (if b' = true then x' else y') = if b = true then x else y := by
  subst hb
  cases b' with
  | true => exact hx rfl h
  | false => exact hy rfl h

private theorem identLike_pos (h : startsIdent (c :: w) = true) : 0 < (identLike (c :: w)).2 := by
  refine Nat.lt_of_lt_of_le (Nat.pos_of_ne_zero fun h0 => ?_) (name_le_identLike _)
  exact name_ne_nil h (by rw [name_eq_nil h0])

/-- A symbol that ends before a dull text, unless it is a backslash at the end of a line. -/
theorem symbol_joint (j : Joint q q') (h : Clear w q q' (symbol c (w ++ q)))
    (hb : startsWith isNewline q = true → (symbol c (w ++ q)).1 ≠ .delim '\\') :
    symbol c (w ++ q') = symbol c (w ++ q) := by
  have htest {p : Char → Bool} (hp : dullChars.any p = false) :
      startsWith p (w ++ q') = startsWith p (w ++ q) := by
    rw [startsWith_append (j.left.startsWith hp), startsWith_append (j.right.startsWith hp)]
  have hnumber (w : List Char) : startsNumber (w ++ q') = startsNumber (w ++ q) := by
    rw [startsNumber_dull j.left, startsNumber_dull j.right]
  have hpattern {p : List Char} (hp : dullChars.all (fun c => c ∉ p) = true) :
      p.isPrefixOf (w ++ q') = p.isPrefixOf (w ++ q) := by
    have hdull {k : List Char} (hk : Dull k) : ∀ c ∈ k.head?, c ∉ p := fun c hc =>
      by simpa using List.all_eq_true.1 hp c (hk c hc)
    rw [isPrefixOf_append (hdull j.left), isPrefixOf_append (hdull j.right)]
  unfold symbol at h hb ⊢
  split at h
  case h_10 =>
    refine choice_joint h (startsIdent_joint j ?_) (fun _ => named_joint j) fun _ h => ?_
    · rintro hs rfl
      have hno : startsIdent (['\\'] ++ q) = false := by simp [startsIdent, hs]
      rw [hno] at h
      exact h.backslash hs rfl
    · exact choice_joint h (htest (by decide)) (fun _ => named_joint j) fun _ _ => rfl
  case h_11 =>
    refine choice_joint h (startsIdent_joint j ?_) (fun _ => named_joint j) fun _ _ => rfl
    rintro hs rfl
    have hno : startsIdent (['\\'] ++ q) = false := by simp [startsIdent, hs]
    rw [hno] at h
    exact h.backslash hs rfl
  case h_12 =>
    exact choice_joint h (hnumber w) (fun _ => beyond_numeric_joint j (by decide)) fun _ _ => rfl
  case h_13 =>
    refine choice_joint h (hnumber w) (fun _ => beyond_numeric_joint j (by decide)) fun _ h => ?_
    refine choice_joint h (hpattern (by decide)) (fun _ _ => rfl) fun _ h => ?_
    exact choice_joint h (startsIdent_joint (w := '-' :: w) j (by simp))
      (fun hs => beyond_identLike_joint j (identLike_pos hs)) fun _ _ => rfl
  case h_14 =>
    exact choice_joint h (hnumber ('.' :: w)) (fun _ => beyond_numeric_joint j (by decide))
      fun _ _ => rfl
  case h_15 =>
    refine choice_joint h (htest (by decide)) (fun hs h => ?_) fun _ _ => rfl
    rw [startsWith_append (j.left.startsWith (by decide))] at hs
    have hw : 1 ≤ w.length := startsWith_length hs
    have hlen := List.length_drop (l := w) (i := 1)
    have hle := h.le
    simp only [List.drop_append_of_le_length hw] at hle ⊢
    rw [comment_joint (w := w.drop 1) j (by omega)]
  case h_16 => exact choice_joint h (hpattern (by decide)) (fun _ _ => rfl) fun _ _ => rfl
  case h_17 =>
    have hnew : startsWith isNewline (w ++ q') = startsWith isNewline (w ++ q) := by
      cases w with
      | cons d w => rfl
      | nil =>
        rw [List.nil_append, List.nil_append, j.newline]
        by_cases hs : startsWith isNewline q = true
        · exact absurd (by simp [hs]) (hb hs)
        · simpa using hs
    exact choice_joint h hnew (fun _ _ => rfl) fun hs =>
      beyond_identLike_joint j (identLike_pos (by simp [startsIdent, hs]))
  case h_18 | h_19 | h_20 | h_21 | h_22 =>
    exact choice_joint h (htest (by decide)) (fun _ _ => rfl) fun _ _ => rfl
  all_goals rfl

/-- A run of blanks that ends before a dull text. -/
private theorem blanks_joint (j : Joint q q')
    (hn : ((w ++ q).takeWhile isBlank).length ≤ w.length) :
    (w ++ q').takeWhile isBlank = (w ++ q).takeWhile isBlank := by
  induction w with
  | nil =>
    have hnot {k : List Char} (hk : startsWith isBlank k = false) : k.takeWhile isBlank = [] := by
      simpa using takeWhile_append hk []
    have hq : startsWith isBlank q = false := by
      rw [← Bool.not_eq_true]
      intro hs
      cases q with
      | nil => simp [startsWith] at hs
      | cons e q =>
        have he : isBlank e = true := by simpa [startsWith] using hs
        simp [he] at hn
    have hq' : startsWith isBlank q' = false := by
      rw [← Bool.not_eq_true]
      intro hs
      simp [j.blank hs] at hq
    rw [List.nil_append, List.nil_append, hnot hq, hnot hq']
  | cons c w ih =>
    by_cases hc : isBlank c = true
    · simp only [List.cons_append, List.takeWhile_cons, hc, if_true, List.length_cons,
        Nat.add_le_add_iff_right] at hn ⊢
      rw [ih hn]
    · simp [hc]

/-- A token that ends before a dull text is read alike before another one, unless it is a string that
is broken there or a backslash at the end of a line. -/
theorem scan_joint (j : Joint q q') (h : Clear w q q' (scan c (w ++ q)))
    (hb : startsWith isNewline q = true →
      (scan c (w ++ q)).1 ≠ .delim '\\' ∧ ∀ s, (scan c (w ++ q)).1 ≠ .badString s) :
    scan c (w ++ q') = scan c (w ++ q) := by
  rcases scan_cases c with ⟨hc, hs⟩ | ⟨hq, hs⟩ | ⟨hc, hs⟩ | hs | hs
  all_goals
    rw [hs] at h hb ⊢
    rw [hs]
  · rw [blanks_joint j h.le]
  · rw [quoted_joint j hq h.le fun hnew => ?_]
    rw [← Bool.not_eq_false]
    intro hbroken
    have hbad := (hb hnew).2
    simp [hbroken] at hbad
  · refine beyond_identLike_joint j ?_ h
    have := name_le_identLike (c :: (w ++ q))
    rw [name_cons_of_isNameChar (by simp [isNameChar, hc])] at this
    exact Nat.lt_of_lt_of_le (Nat.succ_pos _) this
  · refine beyond_numeric_joint j ?_ h
    rintro rfl
    have hkind := congrArg Prod.fst (hs ['\n'])
    exact absurd hkind (by decide)
  · exact symbol_joint j h fun hnew => (hb hnew).1

variable {t : Token} {p : List Char}

/-- A token that stands before joint texts, with the same text `p` in between. -/
theorem ReadsOne.joint (h : ReadsOne t (p ++ q)) (j : Joint q q')
    (hb : startsWith isNewline q = true →
      p ≠ ['\\'] ∧ t.kind ≠ .delim '\\' ∧ ∀ s, t.kind ≠ .badString s)
    (hu : unquotedUrl? (p ++ q) = none → unquotedUrl? (p ++ q') = none) : ReadsOne t (p ++ q') := by
  obtain ⟨c, cs, hsrc, hs⟩ := h
  refine ⟨c, cs, hsrc, ?_⟩
  rw [← List.append_assoc] at hs ⊢
  have hdrop : (cs ++ p).drop (scan c (cs ++ p ++ q)).2 = p := by
    rw [hs]
    exact List.drop_left
  have hclear : Clear (cs ++ p) q q' (scan c (cs ++ p ++ q)) := by
    refine ⟨?_, fun hnew => ?_, ?_⟩
    · rw [hs, List.length_append]
      exact Nat.le_add_right ..
    · rw [hdrop]
      exact (hb hnew).1
    · rwa [hdrop]
  rw [scan_joint j hclear fun hnew => by rw [hs]; exact (hb hnew).2, hs]

end SheetDiff.Css
