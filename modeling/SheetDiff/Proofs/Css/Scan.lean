import SheetDiff.Css.Lexer

/-!
# Scanners stay inside their text

No scanner takes more characters than there are (`scan_le`). A comment ends at its first closing
delimiter (`comment_spec`), and a name that starts is not empty (`name_ne_nil`).
-/

namespace SheetDiff.Css

/-! ## Lengths -/

theorem newlineLength_le (cs : List Char) : newlineLength cs ≤ cs.length := by
  unfold newlineLength
  split
  · simp
  · split <;> simp
  · simp

theorem blankLength_le (cs : List Char) : blankLength cs ≤ cs.length := by
  have h := newlineLength_le cs
  unfold blankLength
  split
  · exact h
  · split
    · rename_i hb
      cases cs with
      | nil => simp [startsWith] at hb
      | cons c cs => simp
    · simp

theorem escape_le (cs : List Char) : (escape cs).2 ≤ cs.length := by
  unfold escape
  simp only
  split
  · cases cs with
    | nil => simp
    | cons c cs => simp
  · have h1 := (List.takeWhile_sublist (l := cs.take 6) fun c => (Text.hexDigit? c).isSome).length_le
    have h2 := blankLength_le
      (cs.drop ((cs.take 6).takeWhile fun c => (Text.hexDigit? c).isSome).length)
    rw [List.length_take] at h1
    rw [List.length_drop] at h2
    simp only
    omega

theorem name_le (cs : List Char) : (name cs).2 ≤ cs.length := by
  fun_induction name cs with
  | case1 => simp
  | case2 c cs h rest n hn ih => simpa [hn] using ih
  | case3 c cs h h' d k hk rest n hn ih =>
    have he := escape_le cs
    simp only [hk, hn, List.length_drop, List.length_cons] at he ih ⊢
    omega
  | case4 => simp

theorem quoted_le (quote : Char) (cs : List Char) : (quoted quote cs).2 ≤ cs.length := by
  fun_induction quoted quote cs with
  | case1 => simp
  | case2 => simp
  | case3 => simp
  | case4 cs h1 rest n hn h2 h3 ih =>
    have := newlineLength_le cs
    simp only [hn, List.length_drop, List.length_cons] at ih ⊢
    omega
  | case5 cs => simp
  | case6 cs h1 h2 d k hk rest whole n hn h3 h4 ih =>
    have he := escape_le cs
    simp only [hk, hn, List.length_drop, List.length_cons] at he ih ⊢
    omega
  | case7 c cs h1 h2 h3 rest whole n hn ih =>
    simp only [hn, List.length_cons] at ih ⊢
    omega

theorem comment_le (cs : List Char) : (comment cs).2 ≤ cs.length := by
  fun_induction comment cs with
  | case1 => simp
  | case2 => simp
  | case3 c cs h rest n hn ih => simpa [hn] using ih

theorem addressEnd_le (cs : List Char) : (addressEnd cs).2 ≤ cs.length := by
  have h := (List.takeWhile_sublist (l := cs) isBlank).length_le
  unfold addressEnd
  simp only
  split
  · exact h
  · rename_i c ds hd
    have hl := congrArg List.length hd
    rw [List.length_drop, List.length_cons] at hl
    split <;> (simp only; omega)

theorem address_le (cs : List Char) : (address cs).2 ≤ cs.length := by
  fun_induction address cs with
  | case1 => simp
  | case2 c cs h => exact addressEnd_le _
  | case3 => simp
  | case4 => simp
  | case5 => simp
  | case6 cs h1 d k hk rest n hn h2 h3 h4 ih =>
    have he := escape_le cs
    simp only [hk, hn, List.length_drop, List.length_cons] at he ih ⊢
    omega
  | case7 c cs h1 h2 h3 h4 rest n hn ih =>
    simp only [hn, List.length_cons] at ih ⊢
    omega

theorem spoilt_le (cs : List Char) : (spoilt cs).length ≤ cs.length := by
  fun_induction spoilt cs <;> simp_all

theorem unquotedUrl?_le {cs : List Char} {kind : Kind} {n : Nat}
    (h : unquotedUrl? cs = some (kind, n)) : n ≤ cs.length := by
  have hk := (List.takeWhile_sublist (l := cs) isBlank).length_le
  have ha := address_le (cs.drop (cs.takeWhile isBlank).length)
  unfold unquotedUrl? at h
  simp only at h
  generalize (cs.takeWhile isBlank).length = k at hk ha h
  split at h
  · simp at h
  · split at h
    · rename_i text m hm
      simp only [Option.some.injEq, Prod.mk.injEq] at h
      rw [hm, List.length_drop] at ha
      simp only at ha
      omega
    · rename_i m hm
      simp only [Option.some.injEq, Prod.mk.injEq] at h
      rw [hm] at ha
      have hs := spoilt_le ((cs.drop k).drop m)
      generalize hcont : (cs.drop k).take m ++ spoilt ((cs.drop k).drop m) = contents at h
      have hc := congrArg List.length hcont
      simp only [List.length_append, List.length_take, List.length_drop] at hc hs ha
      cases hb : startsWith (· = ')') ((cs.drop k).drop contents.length) with
      | false =>
        rw [hb, Bool.toNat_false] at h
        omega
      | true =>
        have hlt : contents.length < (cs.drop k).length := by
          refine Nat.lt_of_not_le fun hge => ?_
          rw [List.drop_eq_nil_of_le hge] at hb
          simp [startsWith] at hb
        rw [List.length_drop] at hlt
        rw [hb, Bool.toNat_true] at h
        omega

theorem startsWith_length {p : Char → Bool} {cs : List Char} (h : startsWith p cs = true) :
    0 < cs.length := by
  cases cs with
  | nil => simp [startsWith] at h
  | cons c cs => simp

theorem fractionDigits_le {cs : List Char} (h : fractionDigits cs ≠ []) :
    1 + (fractionDigits cs).length ≤ cs.length := by
  unfold fractionDigits at h ⊢
  split
  · rename_i cs
    have := (List.takeWhile_sublist (l := cs) Char.isDigit).length_le
    simp only [List.length_cons]
    omega
  · simp_all

theorem exponent?_le {cs : List Char} {e : Bool × List Char} {n : Nat}
    (h : exponent? cs = some (e, n)) : n ≤ cs.length := by
  unfold exponent? at h
  split at h
  · simp at h
  · rename_i c cs
    split at h
    · simp only at h
      generalize hs : startsWith (fun c => c = '+' || c = '-') cs = signed at h
      have hd := (List.takeWhile_sublist (l := cs.drop signed.toNat) Char.isDigit).length_le
      rw [List.length_drop] at hd
      split at h
      · simp at h
      · rename_i hne
        simp only [Option.some.injEq, Prod.mk.injEq] at h
        have hpos : 0 < ((cs.drop signed.toNat).takeWhile Char.isDigit).length := by
          rw [List.length_pos_iff]
          simpa using hne
        rw [List.length_cons]
        omega
    · simp at h

theorem numeral_le (cs : List Char) : (numeral cs).2 ≤ cs.length := by
  unfold numeral
  simp only
  generalize hs : (if (cs.head?.filter fun c => c = '+' || c = '-').isSome then 1 else 0) = s
  have hsl : s ≤ cs.length := by
    cases cs with
    | nil => simp [← hs]
    | cons c cs =>
      rw [List.length_cons]
      split at hs <;> omega
  have hw := (List.takeWhile_sublist (l := cs.drop s) Char.isDigit).length_le
  rw [List.length_drop] at hw
  generalize ((cs.drop s).takeWhile Char.isDigit).length = w at hw ⊢
  generalize hk : (s + w + if (fractionDigits (cs.drop (s + w))).isEmpty then 0
    else 1 + (fractionDigits (cs.drop (s + w))).length) = k
  have hkl : k ≤ cs.length := by
    split at hk
    · omega
    · rename_i hne
      have := fractionDigits_le (by simpa using hne)
      rw [List.length_drop] at this
      omega
  split
  · rename_i e n he
    have := exponent?_le he
    rw [List.length_drop] at this
    simp only
    omega
  · exact hkl

theorem numeric_le (cs : List Char) : (numeric cs).2 ≤ cs.length := by
  have hk := numeral_le cs
  unfold numeric
  simp only
  split
  · rename_i h
    have := startsWith_length h
    rw [List.length_drop] at this
    simp only
    omega
  · split
    · have := name_le (cs.drop (numeral cs).2)
      rw [List.length_drop] at this
      simp only
      omega
    · exact hk

theorem identLike_le (cs : List Char) : (identLike cs).2 ≤ cs.length := by
  have hk := name_le cs
  unfold identLike
  simp only
  split
  · rename_i h
    have hlt := startsWith_length h
    rw [List.length_drop] at hlt
    split
    · split
      · rename_i kind n hu
        have := unquotedUrl?_le hu
        rw [List.length_drop] at this
        simp only
        omega
      · simp only
        omega
    · simp only
      omega
  · exact hk

theorem named_le (kind : String → Kind) (cs : List Char) : (named kind cs).2 ≤ cs.length :=
  name_le cs

private theorem sub_one_le {n : Nat} {c : Char} {cs : List Char} (h : n ≤ (c :: cs).length) :
    n - 1 ≤ cs.length := by
  rw [List.length_cons] at h
  omega

private theorem length_le_of_startsWith {p : List Char} {cs : List Char}
    (h : p.isPrefixOf cs = true) : p.length ≤ cs.length :=
  (List.isPrefixOf_iff_prefix.1 h).length_le

private theorem commentLength_le {p : Char → Bool} {cs : List Char} (h : startsWith p cs = true) :
    (comment (cs.drop 1)).2 + 1 ≤ cs.length := by
  have h1 := startsWith_length h
  have h2 := comment_le (cs.drop 1)
  rw [List.length_drop] at h2
  omega

private theorem ite_snd_le {p : Prop} [Decidable p] {a b : Kind × Nat} {n : Nat}
    (ha : p → a.2 ≤ n) (hb : b.2 ≤ n) : (if p then a else b).2 ≤ n := by
  split
  · exact ha ‹p›
  · exact hb

theorem symbol_le (c : Char) (cs : List Char) : (symbol c cs).2 ≤ cs.length := by
  have hz : 0 ≤ cs.length := Nat.zero_le _
  unfold symbol
  split
  case h_10 => exact ite_snd_le (fun _ => named_le _ _) (ite_snd_le (fun _ => named_le _ _) hz)
  case h_11 => exact ite_snd_le (fun _ => named_le _ _) hz
  case h_12 => exact ite_snd_le (fun _ => sub_one_le (numeric_le _)) hz
  case h_13 =>
    exact ite_snd_le (fun _ => sub_one_le (numeric_le _)) <|
      ite_snd_le length_le_of_startsWith <| ite_snd_le (fun _ => sub_one_le (identLike_le _)) hz
  case h_14 => exact ite_snd_le (fun _ => sub_one_le (numeric_le _)) hz
  case h_15 => exact ite_snd_le commentLength_le hz
  case h_16 => exact ite_snd_le length_le_of_startsWith hz
  case h_17 => exact ite_snd_le (fun _ => hz) (sub_one_le (identLike_le _))
  case h_18 | h_19 | h_20 | h_21 | h_22 => exact ite_snd_le startsWith_length hz
  all_goals exact hz

/-- A token takes no more characters than there are. -/
theorem scan_le (c : Char) (cs : List Char) : (scan c cs).2 ≤ cs.length := by
  unfold scan
  split
  · exact (List.takeWhile_sublist _).length_le
  split
  · exact quoted_le c cs
  split
  · exact sub_one_le (identLike_le _)
  split
  · exact sub_one_le (numeric_le _)
  · exact symbol_le c cs

/-! ## Comments -/

/-- A text that closes a comment somewhere. -/
def ClosesComment (cs : List Char) : Prop := ['*', '/'] <:+: cs

/-- A comment ends behind its first closing delimiter, or at the end of the text. -/
theorem comment_spec (cs : List Char) :
    ¬ ClosesComment (comment cs).1 ∧
      ((∃ rest, cs = (comment cs).1 ++ '*' :: '/' :: rest ∧
        (comment cs).2 = (comment cs).1.length + 2) ∨
        (cs = (comment cs).1 ∧ (comment cs).2 = (comment cs).1.length)) := by
  fun_induction comment cs with
  | case1 => exact ⟨by simp [ClosesComment], .inr ⟨rfl, rfl⟩⟩
  | case2 cs => exact ⟨by simp [ClosesComment], .inl ⟨cs, rfl, rfl⟩⟩
  | case3 c cs h rest n hn ih =>
    rw [hn] at ih
    obtain ⟨hno, hend⟩ := ih
    refine ⟨fun hc => ?_, ?_⟩
    · rcases List.infix_cons_iff.1 hc with hp | hi
      · obtain ⟨rfl, d, hd⟩ : c = '*' ∧ ∃ d, rest = '/' :: d := by
          obtain ⟨d, hd⟩ := hp
          simp only [List.cons_append, List.nil_append, List.cons.injEq] at hd
          exact ⟨hd.1.symm, d, hd.2.symm⟩
        rcases hend with ⟨e, he, -⟩ | ⟨he, -⟩
        · exact h (d ++ '*' :: '/' :: e) rfl (by simpa [hd] using he)
        · exact h d rfl (by simpa [hd] using he)
      · exact hno hi
    · rcases hend with ⟨e, he, hn⟩ | ⟨he, hn⟩
      · exact .inl ⟨e, by simpa using he, by simpa using hn⟩
      · exact .inr ⟨by simpa using he, by simpa using hn⟩

/-! ## Names -/

theorem name_ne_nil {cs : List Char} (h : startsIdent cs = true) : (name cs).1 ≠ [] := by
  cases cs with
  | nil => simp [startsIdent] at h
  | cons c cs =>
    by_cases hc : isNameChar c = true
    · simp [name, hc]
    · have hd : c ≠ '-' := by
        rintro rfl
        exact hc rfl
      have hs : isNameStart c ≠ true := fun hs => hc (by simp [isNameChar, hs])
      by_cases hb : c = '\\' ∧ ¬ startsWith isNewline cs = true
      · rw [name, if_neg hc, if_pos hb]
        simp
      · simp_all [startsIdent]

/-- A name ends where a character can neither continue it nor start an escape. -/
theorem name_stop {cs ds : List Char} {d : Char} (hcs : ∀ c ∈ cs, c ≠ '\\')
    (hd : isNameChar d = false ∧ d ≠ '\\') : (name (cs ++ d :: ds)).2 ≤ cs.length := by
  induction cs with
  | nil => simp [name, hd]
  | cons c cs ih =>
    have ih := ih fun x hx => hcs x (by simp [hx])
    have hc := hcs c (by simp)
    rw [List.cons_append, name]
    split
    · simpa using ih
    · simp [hc]

/-! ## Kinds of tokens -/

section Kinds

variable {c : Char} {cs : List Char}

/-- The kinds of tokens that start with a name. -/
def Kind.isNamed : Kind → Bool
  | .ident _ | .function _ | .url _ | .badUrl _ => true
  | _ => false

/-- The kinds of tokens that start with a number. -/
def Kind.isNumeric : Kind → Bool
  | .number _ | .percentage _ | .dimension _ _ => true
  | _ => false

/-- The kinds of tokens that start with a name or a number, and white space and strings. -/
def Kind.isPlain : Kind → Bool
  | .whitespace | .string _ | .badString _ => true
  | k => k.isNamed || k.isNumeric

theorem isNamed_identLike (cs : List Char) : (identLike cs).1.isNamed = true := by
  unfold identLike
  simp only
  split
  · split
    · split
      · rename_i kind n hu
        unfold unquotedUrl? at hu
        simp only at hu
        split at hu
        · simp at hu
        · split at hu
          · obtain rfl : _ = kind := (Prod.mk.inj (Option.some.inj hu)).1
            rfl
          · obtain rfl : _ = kind := (Prod.mk.inj (Option.some.inj hu)).1
            rfl
      · rfl
    · rfl
  · rfl

theorem isNumeric_numeric (cs : List Char) : (numeric cs).1.isNumeric = true := by
  unfold numeric
  simp only
  split
  · rfl
  · split
    · rfl
    · rfl

theorem isPlain_identLike (cs : List Char) : (identLike cs).1.isPlain = true := by
  have h := isNamed_identLike cs
  cases hk : (identLike cs).1 <;> simp_all [Kind.isNamed, Kind.isPlain]

theorem isPlain_numeric (cs : List Char) : (numeric cs).1.isPlain = true := by
  have h := isNumeric_numeric cs
  cases hk : (numeric cs).1 <;> simp_all [Kind.isNumeric, Kind.isPlain]

/-- A token of another kind starts with a symbol. -/
theorem scan_eq_symbol (h : (scan c cs).1.isPlain = false) : scan c cs = symbol c cs := by
  unfold scan at h ⊢
  split at h
  · simp [Kind.isPlain] at h
  rw [if_neg ‹_›]
  split at h
  · simp only at h
    split at h <;> simp [Kind.isPlain] at h
  rw [if_neg ‹_›]
  split at h
  · simp [beyond, isPlain_identLike] at h
  rw [if_neg ‹_›]
  split at h
  · simp [beyond, isPlain_numeric] at h
  rw [if_neg ‹_›]

theorem scan_of_isNameStart (h : isNameStart c = true) (cs : List Char) :
    scan c cs = beyond (identLike (c :: cs)) := by
  have hb : isBlank c ≠ true := by
    intro hb
    simp only [isBlank, isNewline, Bool.or_eq_true, decide_eq_true_eq] at hb
    rcases hb with (rfl | rfl) | (rfl | rfl) | rfl <;> simp [isNameStart, isNonAscii] at h
  have hq : ¬ (c = '"' ∨ c = '\'') := by
    rintro (rfl | rfl) <;> simp [isNameStart, isNonAscii] at h
  rw [scan, if_neg hb, if_neg hq, if_pos h]

/-- A symbol starts a name only behind a hyphen or a backslash. -/
theorem symbol_isNamed (h : (symbol c cs).1.isNamed = true) :
    symbol c cs = beyond (identLike (c :: cs)) ∧ (c = '-' ∨ c = '\\') := by
  have hn (cs : List Char) : (numeric cs).1.isNamed = false := by
    have h := isNumeric_numeric cs
    cases hk : (numeric cs).1 <;> simp_all [Kind.isNumeric, Kind.isNamed]
  unfold symbol at h ⊢
  split at h
  all_goals repeat' split at h
  all_goals simp_all [named, beyond, Kind.isNamed]

/-- A symbol is neither white space nor a string. -/
theorem symbol_ne (c : Char) (cs : List Char) : (symbol c cs).1 ≠ .whitespace ∧
    ∀ text, (symbol c cs).1 ≠ .string text := by
  have hi := isNamed_identLike (c :: cs)
  have hn := isNumeric_numeric (c :: cs)
  unfold symbol
  split
  all_goals repeat' split
  all_goals constructor <;> intros <;> intro hk <;>
    simp_all [named, beyond, Kind.isNamed, Kind.isNumeric]

theorem symbol_atKeyword {name : String} (h : (symbol c cs).1 = .atKeyword name) :
    c = '@' ∧ startsIdent cs = true := by
  have hi := isPlain_identLike (c :: cs)
  have hn := isPlain_numeric (c :: cs)
  unfold symbol at h
  split at h
  all_goals repeat' split at h
  all_goals simp_all [named, beyond, Kind.isPlain, Kind.isNamed, Kind.isNumeric]

theorem symbol_comment {text : String} (h : (symbol c cs).1 = .comment text) :
    c = '/' ∧ startsWith (· = '*') cs = true := by
  have hi := isPlain_identLike (c :: cs)
  have hn := isPlain_numeric (c :: cs)
  unfold symbol at h
  split at h
  all_goals repeat' split at h
  all_goals simp_all [named, beyond, Kind.isPlain, Kind.isNamed, Kind.isNumeric]
end Kinds

end SheetDiff.Css
