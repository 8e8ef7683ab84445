import SheetDiff.Proofs.Css.Agree

/-!
# Where a token stops

A token that ends inside `w` does not depend on the text behind `w`, as long as that text goes on with
a character that continues no token (`scan_local`). White space, strings, comments and addresses are
treated on their own (`Proofs.Css.Enclosed`): they may hold white space, or need their closing
delimiter.
-/

namespace SheetDiff.Css

variable {c : Char} {w r r' : List Char}

/-! ## Texts that continue no token -/

/-- A character that continues no name, number or symbol in front of it. -/
def isStop (c : Char) : Bool := isBlank c || [',', ';', ':', '{', '}'].contains c

/-- A text that starts with such a character, or is at its end. -/
def Stops (cs : List Char) : Prop := ∀ c ∈ cs.head?, isStop c = true

theorem stops_nil : Stops [] := by simp [Stops]

theorem stops_cons (h : isStop c = true) (cs : List Char) : Stops (c :: cs) := by
  simpa [Stops] using h

theorem isStop_cases (h : isStop c = true) : c = ' ' ∨ c = '\t' ∨ c = '\n' ∨ c = '\r' ∨ c = '\x0c' ∨
    c = ',' ∨ c = ';' ∨ c = ':' ∨ c = '{' ∨ c = '}' := by
  simp only [isStop, isBlank, isNewline, Bool.or_eq_true, decide_eq_true_eq, List.contains_eq_mem,
    List.mem_cons, List.not_mem_nil, or_false] at h
  simpa only [or_assoc] using h

theorem isNameChar_of_isStop (h : isStop c = true) : isNameChar c = false := by
  rcases isStop_cases h with h | h | h | h | h | h | h | h | h | h <;> subst h <;> decide

theorem isDigit_of_isStop (h : isStop c = true) : c.isDigit = false := by
  rcases isStop_cases h with h | h | h | h | h | h | h | h | h | h <;> subst h <;> decide

/-- The characters that a scanner looks for behind a token. -/
theorem ne_of_isStop (h : isStop c = true) : c ≠ '\\' ∧ c ≠ '(' ∧ c ≠ '.' ∧ c ≠ '%' ∧ c ≠ '-' ∧
    c ≠ '+' ∧ c ≠ '=' ∧ c ≠ '*' ∧ c ≠ '>' ∧ c ≠ '!' ∧ c ≠ 'e' ∧ c ≠ 'E' := by
  rcases isStop_cases h with h | h | h | h | h | h | h | h | h | h <;> subst h <;> decide

theorem Stops.startsWith {p : Char → Bool} (h : Stops r) (hp : ∀ c, isStop c = true → p c = false) :
    startsWith p r = false := by
  cases r with
  | nil => rfl
  | cons c r => simpa [Css.startsWith] using hp c (h c (by simp))

theorem Stops.startsWith_eq {d : Char} (h : Stops r) (hd : isStop d = false) :
    Css.startsWith (· = d) r = false := by
  refine h.startsWith fun c hc => ?_
  have hne : c ≠ d := by
    rintro rfl
    simp [hc] at hd
  simpa using hne

/-! ## Tokens before a stop -/

private theorem digits_stop (hr : Stops r) :
    ((w ++ r).takeWhile Char.isDigit).length ≤ w.length := by
  induction w with
  | nil =>
    cases r with
    | nil => simp
    | cons c r => simp [isDigit_of_isStop (hr c (by simp))]
  | cons c w ih =>
    rw [List.cons_append, List.takeWhile_cons]
    split
    · simpa using ih
    · simp

theorem name_stops (hw : '\\' ∉ w) (hr : Stops r) : (name (w ++ r)).2 ≤ w.length := by
  cases r with
  | nil => simpa using name_le w
  | cons d r =>
    have hd := hr d (by simp)
    refine name_stop (fun c hc => ?_) ⟨isNameChar_of_isStop hd, (ne_of_isStop hd).1⟩
    rintro rfl
    exact hw hc

private theorem exponentDigits_stop (hr : Stops r) (hne : exponentDigits (w ++ r) ≠ []) :
    (signed (w ++ r)).toNat + (exponentDigits (w ++ r)).length ≤ w.length := by
  cases w with
  | nil =>
    have hs : signed r = false := hr.startsWith fun c h => by simp [ne_of_isStop h]
    have hd := digits_stop (w := []) hr
    rw [List.nil_append, exponentDigits, hs] at hne
    exact absurd (List.eq_nil_of_length_eq_zero (Nat.le_zero.1 hd)) hne
  | cons d w =>
    have hle : (signed (d :: w ++ r)).toNat ≤ (d :: w).length := by
      cases signed (d :: w ++ r) <;> simp
    have hd := digits_stop (w := (d :: w).drop (signed (d :: w ++ r)).toNat) hr
    rw [← List.drop_append_of_le_length hle, List.length_drop] at hd
    rw [exponentDigits]
    omega

private theorem exponent?_stop (hr : Stops r) {e : Bool × List Char} {n : Nat}
    (h : exponent? (w ++ r) = some (e, n)) : n ≤ w.length := by
  cases w with
  | nil =>
    cases r with
    | nil => simp [exponent?] at h
    | cons c r => simp [exponent?, ne_of_isStop (hr c (by simp))] at h
  | cons c w =>
    by_cases hc : c = 'e' ∨ c = 'E'
    · rw [List.cons_append, exponent?_letter hc] at h
      split at h
      · simp at h
      · rename_i hne
        have hl := exponentDigits_stop hr hne
        obtain rfl := (Prod.mk.inj (Option.some.inj h)).2
        rw [List.length_cons]
        omega
    · simp [exponent?, hc] at h

private theorem baseLength_stop (hr : Stops r) : baseLength (w ++ r) ≤ w.length := by
  have hs : signLength (w ++ r) ≤ w.length := by
    cases w with
    | nil =>
      cases r with
      | nil => simp [signLength, sign]
      | cons c r => simp [signLength, sign, Option.filter, ne_of_isStop (hr c (by simp))]
    | cons c w =>
      rw [signLength, List.length_cons]
      split <;> omega
  have hw : signLength (w ++ r) + (whole (w ++ r)).length ≤ w.length := by
    have hd := digits_stop (w := w.drop (signLength (w ++ r))) hr
    rw [← List.drop_append_of_le_length hs, List.length_drop] at hd
    rw [whole]
    omega
  rw [baseLength]
  split
  · exact hw
  · rename_i hne
    have hf : 1 + (fraction (w ++ r)).length ≤
        (w.drop (signLength (w ++ r) + (whole (w ++ r)).length)).length := by
      rw [fraction, List.drop_append_of_le_length hw] at hne ⊢
      cases hv : w.drop (signLength (w ++ r) + (whole (w ++ r)).length) with
      | nil =>
        rw [hv] at hne
        cases r with
        | nil => simp [fractionDigits] at hne
        | cons c r => simp [fractionDigits, ne_of_isStop (hr c (by simp))] at hne
      | cons c v =>
        rw [hv] at hne
        by_cases hc : c = '.'
        · subst hc
          have hd := digits_stop (w := v) hr
          simp only [List.cons_append, fractionDigits, List.length_cons]
          omega
        · simp [fractionDigits, hc] at hne
    rw [List.length_drop] at hf
    omega

private theorem numeric_stop (hw : '\\' ∉ w) (hr : Stops r) : (numeric (w ++ r)).2 ≤ w.length := by
  have hk : (numeral (w ++ r)).2 ≤ w.length := by
    have hb := baseLength_stop (w := w) hr
    rw [numeral_eq]
    split
    · rename_i e n he
      rw [List.drop_append_of_le_length hb] at he
      have hn := exponent?_stop hr he
      rw [List.length_drop] at hn
      simp only
      omega
    · exact hb
  have hwd : '\\' ∉ w.drop (numeral (w ++ r)).2 := fun h => hw (List.mem_of_mem_drop h)
  have hlen := List.length_drop (l := w) (i := (numeral (w ++ r)).2)
  simp only [numeric, List.drop_append_of_le_length hk]
  generalize w.drop (numeral (w ++ r)).2 = v at hlen hwd ⊢
  split
  · rename_i hp
    cases v with
    | nil =>
      rw [List.nil_append, hr.startsWith_eq (by decide)] at hp
      simp at hp
    | cons c v =>
      rw [List.length_cons] at hlen
      simp only
      omega
  · split
    · have hn := name_stops hwd hr
      simp only
      omega
    · exact hk

private theorem identLike_stop (hw : '\\' ∉ w) (hr : Stops r)
    (hk : (identLike (w ++ r)).1.isLocal = true) : (identLike (w ++ r)).2 ≤ w.length := by
  have hn := name_stops hw hr
  have hlen := List.length_drop (l := w) (i := (name (w ++ r)).2)
  simp only [identLike, List.drop_append_of_le_length hn] at hk ⊢
  split
  · rename_i hs
    rw [if_pos hs] at hk
    have hlt : (name (w ++ r)).2 + 1 ≤ w.length := by
      cases hv : w.drop (name (w ++ r)).2 with
      | nil =>
        rw [hv, List.nil_append, hr.startsWith_eq (by decide)] at hs
        simp at hs
      | cons c v =>
        rw [hv, List.length_cons] at hlen
        omega
    split
    · rename_i hu
      rw [if_pos hu] at hk
      split at hk
      · rename_i kind n hq
        simp [unquotedUrl?_isLocal hq] at hk
      · simp [Kind.isLocal, hu] at hk
    · exact hlt
  · exact hn

private theorem choice_stop {b : Bool} {x y : Kind × Nat} {n : Nat}
    (h : (if b = true then x else y).1.isLocal = true) (hx : b = true → x.1.isLocal = true → x.2 ≤ n)
    (hy : y.1.isLocal = true → y.2 ≤ n) : (if b = true then x else y).2 ≤ n := by
  cases b with
  | true => exact hx rfl h
  | false => exact hy h

private theorem isPrefixOf_stop {p : List Char} (hr : Stops r) (hp : p.any isStop = false)
    (h : p.isPrefixOf (w ++ r) = true) : p.length ≤ w.length := by
  rw [List.any_eq_false] at hp
  induction p generalizing w with
  | nil => simp
  | cons x p ih =>
    cases w with
    | nil =>
      cases r with
      | nil => simp at h
      | cons y r =>
        obtain ⟨z, hz⟩ := List.isPrefixOf_iff_prefix.1 h
        obtain rfl : x = y := (List.cons.inj hz).1
        simpa [hp x (by simp)] using hr x (by simp)
    | cons y w =>
      have h : p.isPrefixOf (w ++ r) = true := by
        simp only [List.cons_append, List.isPrefixOf, Bool.and_eq_true] at h
        exact h.2
      simpa using ih (fun c hc => hp c (by simp [hc])) h

private theorem startsWith_stop {d : Char} (hr : Stops r) (hd : isStop d = false)
    (h : startsWith (· = d) (w ++ r) = true) : 1 ≤ w.length := by
  cases w with
  | nil =>
    rw [List.nil_append, hr.startsWith_eq hd] at h
    simp at h
  | cons c w => simp

private theorem beyond_numeric_stop (hw : '\\' ∉ c :: w) (hr : Stops r) :
    (beyond (numeric (c :: (w ++ r)))).2 ≤ w.length := by
  have hn := numeric_stop hw hr
  rw [List.cons_append, List.length_cons] at hn
  simp only [beyond]
  omega

private theorem beyond_identLike_stop (hw : '\\' ∉ c :: w) (hr : Stops r)
    (hk : (beyond (identLike (c :: (w ++ r)))).1.isLocal = true) :
    (beyond (identLike (c :: (w ++ r)))).2 ≤ w.length := by
  have hn := identLike_stop hw hr hk
  rw [List.cons_append, List.length_cons] at hn
  simp only [beyond]
  omega

private theorem symbol_stop (hw : '\\' ∉ c :: w) (hr : Stops r)
    (hk : (symbol c (w ++ r)).1.isLocal = true) : (symbol c (w ++ r)).2 ≤ w.length := by
  have hz : 0 ≤ w.length := Nat.zero_le _
  have hw' : '\\' ∉ w := fun hm => hw (List.mem_cons_of_mem _ hm)
  have hname : (name (w ++ r)).2 ≤ w.length := name_stops hw' hr
  have hnum := beyond_numeric_stop hw hr
  unfold symbol at hk ⊢
  split at hk
  case h_10 =>
    exact choice_stop hk (fun _ _ => hname) fun h => choice_stop h (fun _ _ => hname) fun _ => hz
  case h_11 => exact choice_stop hk (fun _ _ => hname) fun _ => hz
  case h_12 => exact choice_stop hk (fun _ _ => hnum) fun _ => hz
  case h_13 =>
    exact choice_stop hk (fun _ _ => hnum) fun h =>
      choice_stop h (fun hp _ => isPrefixOf_stop hr (by decide) hp) fun h =>
        choice_stop h (fun _ => beyond_identLike_stop hw hr) fun _ => hz
  case h_14 => exact choice_stop hk (fun _ _ => hnum) fun _ => hz
  case h_15 =>
    exact choice_stop hk (fun _ h => by simp [Kind.isLocal] at h) fun _ => hz
  case h_16 =>
    exact choice_stop hk (fun hp _ => isPrefixOf_stop hr (by decide) hp) fun _ => hz
  case h_17 => simp at hw
  case h_18 | h_19 | h_20 | h_21 | h_22 =>
    exact choice_stop hk (fun hp _ => startsWith_stop hr (by decide) hp) fun _ => hz
  all_goals exact hz

/-- A local token ends before a character that continues no token. -/
theorem scan_stop (hw : '\\' ∉ c :: w) (hr : Stops r) (hk : (scan c (w ++ r)).1.isLocal = true) :
    (scan c (w ++ r)).2 ≤ w.length := by
  rcases scan_cases c with ⟨-, hs⟩ | ⟨-, hs⟩ | ⟨-, hs⟩ | hs | hs <;> rw [hs] at hk ⊢
  · simp [Kind.isLocal] at hk
  · split at hk <;> simp [Kind.isLocal] at hk
  · exact beyond_identLike_stop hw hr hk
  · exact beyond_numeric_stop hw hr
  · exact symbol_stop hw hr hk

/-! ## Local tokens -/

/-- A name that starts with a hyphen is not that of an address. -/
private theorem isLocal_identLike_hyphen (cs : List Char) :
    (identLike ('-' :: cs)).1.isLocal = true := by
  have hname : (name ('-' :: cs)).1 = '-' :: (name cs).1 := by
    rw [name, if_pos (by decide)]
    rfl
  have hne : ¬ (String.ofList (name ('-' :: cs)).1).toLower = "url" := by
    intro h
    have hl : (String.map Char.toLower (String.ofList (name ('-' :: cs)).1)).toList =
        "url".toList := congrArg String.toList h
    rw [hname, String.toList_map, String.toList_ofList] at hl
    exact absurd (List.cons.inj hl).1 (by decide)
  rw [identLike_eq]
  simp only [hne, if_false]
  split
  · simpa [Kind.isLocal] using hne
  · rfl

/-- Of the symbols only a comment is not local. -/
private theorem isLocal_symbol (hc : c ≠ '\\') (cs : List Char) :
    (symbol c cs).1.isLocal = true ∨ c = '/' ∧ startsWith (· = '*') cs = true := by
  have hn (cs : List Char) : (numeric cs).1.isLocal = true := by
    have h := isNumeric_numeric cs
    cases hk : (numeric cs).1 <;> simp_all [Kind.isNumeric, Kind.isLocal]
  unfold symbol
  split
  case h_17 => exact absurd rfl hc
  case h_13 =>
    left
    split
    · exact hn _
    split
    · rfl
    split
    · exact isLocal_identLike_hyphen _
    · rfl
  all_goals repeat' split
  all_goals simp_all [beyond, named, Kind.isLocal]

private theorem akin_of_stops (hw : '\\' ∉ w) (hr : '\\' ∉ r) (hr' : Stops r') : Akin w r r' := by
  refine ⟨.inl hw, ?_⟩
  have hf : startsWith (· = '\\') r = false := by
    cases r with
    | nil => rfl
    | cons d r =>
      have hd : d ≠ '\\' := by
        rintro rfl
        simp at hr
      simpa [startsWith] using hd
  rw [hf, hr'.startsWith_eq (by decide)]

private theorem isLocal_identLike_of_stops (h : Akin w r r') (hw : '\\' ∉ w) (hr' : Stops r')
    (hk : (identLike (w ++ r)).1.isLocal = true) (hn : (identLike (w ++ r)).2 ≤ w.length) :
    (identLike (w ++ r')).1.isLocal = true := by
  have hname := Nat.le_trans (name_le_identLike _) hn
  have hagree := name_agree h hname (name_stops hw hr')
  rw [identLike_eq, hagree, List.drop_append_of_le_length hname]
  rw [identLike_eq, List.drop_append_of_le_length hname] at hk
  split
  · rename_i hs
    -- the bracket behind the name lies inside of `w`
    have hs' : startsWith (· = '(') (w.drop (name (w ++ r)).2 ++ r) = true := by
      cases hv : w.drop (name (w ++ r)).2 with
      | nil =>
        rw [hv, List.nil_append, hr'.startsWith_eq (by decide)] at hs
        simp at hs
      | cons d v => simpa [hv, startsWith] using hs
    rw [if_pos hs'] at hk
    split at hk
    · rename_i hu
      split at hk
      · rename_i kind n hq
        simp [unquotedUrl?_isLocal hq] at hk
      · simp [Kind.isLocal, hu] at hk
    · rename_i hu
      rw [if_neg hu]
      exact hk
  · rfl

/-- A local token stays local when another text follows that continues no token. -/
private theorem isLocal_of_stops (hw : '\\' ∉ c :: w) (hr : '\\' ∉ r) (hr' : Stops r')
    (hk : (scan c (w ++ r)).1.isLocal = true) (hn : (scan c (w ++ r)).2 ≤ w.length) :
    (scan c (w ++ r')).1.isLocal = true := by
  rcases scan_cases c with ⟨-, hs⟩ | ⟨-, hs⟩ | ⟨-, hs⟩ | hs | hs <;> rw [hs] at hk hn ⊢
  · exact hk
  · split at hk <;> simp [Kind.isLocal] at hk
  · exact isLocal_identLike_of_stops (w := c :: w) (akin_of_stops hw hr hr') hw hr' hk (beyond_le hn)
  · have h := isNumeric_numeric (c :: (w ++ r'))
    simp only [beyond]
    cases hk : (numeric (c :: (w ++ r'))).1 <;> simp_all [Kind.isNumeric, Kind.isLocal]
  · have hc : c ≠ '\\' := by
      rintro rfl
      simp at hw
    refine (isLocal_symbol hc (w ++ r')).resolve_right ?_
    rintro ⟨rfl, hstar⟩
    cases w with
    | nil =>
      rw [List.nil_append, hr'.startsWith_eq (by decide)] at hstar
      simp at hstar
    | cons d w =>
      obtain rfl : d = '*' := by simpa [startsWith] using hstar
      simp [symbol, startsWith, Kind.isLocal] at hk

/-- A local token that ends inside of `w` is read alike when another text follows `w`. -/
theorem scan_local (hw : '\\' ∉ c :: w) (hr : '\\' ∉ r) (hr' : Stops r')
    (hk : (scan c (w ++ r)).1.isLocal = true) (hn : (scan c (w ++ r)).2 ≤ w.length) :
    scan c (w ++ r') = scan c (w ++ r) := by
  have hk' := isLocal_of_stops hw hr hr' hk hn
  exact scan_agree (akin_of_stops hw hr hr') (.inr ⟨hk, hk'⟩) hn (scan_stop hw hr' hk')

end SheetDiff.Css
