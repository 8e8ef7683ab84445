import SheetDiff.Proofs.Css.Scan

/-!
# Tokens and the text behind them

Two texts `w ++ r` and `w ++ r'` start with the same token if both of their first tokens end inside of
`w` (`scan_agree`): no scanner looks further than it takes, but for the end of the text, which closes
what is still open, and for a backslash, which may start an escape. The same holds of every scanner by
itself.
-/

namespace SheetDiff.Css

variable {c : Char} {w v r r' : List Char}

/-! ## Characters and digits -/

theorem takeWhile_agree {p : Char → Bool} (hn : ((w ++ r).takeWhile p).length ≤ w.length)
    (hn' : ((w ++ r').takeWhile p).length ≤ w.length) :
    (w ++ r').takeWhile p = (w ++ r).takeWhile p := by
  induction w with
  | nil =>
    have hr : r.takeWhile p = [] := List.eq_nil_of_length_eq_zero (by simpa using hn)
    have hr' : r'.takeWhile p = [] := List.eq_nil_of_length_eq_zero (by simpa using hn')
    rw [List.nil_append, List.nil_append, hr, hr']
  | cons c w ih =>
    by_cases hc : p c = true
    · simp only [List.cons_append, List.takeWhile_cons, hc, if_true, List.length_cons,
        Nat.add_le_add_iff_right] at hn hn' ⊢
      rw [ih hn hn']
    · simp [hc]

theorem startsWith_agree {p : Char → Bool} (hn : startsWith p (w ++ r) = true → 1 ≤ w.length)
    (hn' : startsWith p (w ++ r') = true → 1 ≤ w.length) :
    startsWith p (w ++ r') = startsWith p (w ++ r) := by
  cases w with
  | nil =>
    have hr : startsWith p r = false := Bool.eq_false_iff.2 fun h => by simpa using hn h
    have hr' : startsWith p r' = false := Bool.eq_false_iff.2 fun h => by simpa using hn' h
    rw [List.nil_append, List.nil_append, hr, hr']
  | cons c w => rfl

theorem isPrefixOf_agree {p : List Char} (hn : p.isPrefixOf (w ++ r) = true → p.length ≤ w.length)
    (hn' : p.isPrefixOf (w ++ r') = true → p.length ≤ w.length) :
    p.isPrefixOf (w ++ r') = p.isPrefixOf (w ++ r) := by
  have key {k k' : List Char} (hk : p.isPrefixOf (w ++ k) = true → p.length ≤ w.length)
      (h : p.isPrefixOf (w ++ k) = true) : p.isPrefixOf (w ++ k') = true := by
    have hp := List.prefix_of_prefix_length_le (List.isPrefixOf_iff_prefix.1 h)
      (List.prefix_append w k) (hk h)
    exact List.isPrefixOf_iff_prefix.2 (hp.trans (List.prefix_append w k'))
  exact Bool.eq_iff_iff.2 ⟨key hn', key hn⟩

/-! ## Escapes and names -/

/-- Texts behind `w` that differ neither in being empty, where that matters to an escape in `w`, nor
in starting with a backslash. -/
structure Akin (w r r' : List Char) : Prop where
  ends : '\\' ∉ w ∨ (r = [] ↔ r' = [])
  backslash : startsWith (· = '\\') r = startsWith (· = '\\') r'

theorem Akin.mono (h : Akin w r r') (hv : ∀ c ∈ v, c ∈ w) : Akin v r r' :=
  ⟨h.ends.imp_left fun hb hm => hb (hv _ hm), h.backslash⟩

theorem Akin.drop (h : Akin w r r') (k : Nat) : Akin (w.drop k) r r' :=
  h.mono fun _ hc => List.mem_of_mem_drop hc

theorem escape_pos (h : r ≠ []) : 0 < (escape r).2 := by
  unfold escape
  simp only
  split
  · cases r with
    | nil => exact absurd rfl h
    | cons c r => simp
  · rename_i hd
    have hp := List.length_pos_iff.2 fun he => hd (List.isEmpty_iff.2 he)
    simp only
    omega

private theorem newlineLength_agree (hn : newlineLength (w ++ r) ≤ w.length)
    (hn' : newlineLength (w ++ r') ≤ w.length) :
    newlineLength (w ++ r') = newlineLength (w ++ r) := by
  cases w with
  | nil =>
    have h0 : newlineLength r = 0 := by simpa using hn
    have h0' : newlineLength r' = 0 := by simpa using hn'
    rw [List.nil_append, List.nil_append, h0, h0']
  | cons c w =>
    cases w with
    | cons d w =>
      have hnl (k : List Char) : newlineLength (c :: d :: w ++ k) = newlineLength [c, d] := by
        by_cases hc : c = '\r'
        · subst hc
          by_cases hd : d = '\n'
          · subst hd
            simp [newlineLength]
          · simp [newlineLength, hd]
        · simp [newlineLength, hc]
      rw [hnl, hnl]
    | nil =>
      have hnl {k : List Char} (h : newlineLength ([c] ++ k) ≤ [c].length) :
          newlineLength ([c] ++ k) = (isNewline c).toNat := by
        by_cases hc : isNewline c = true
        · cases k with
          | nil => simp [newlineLength, hc]
          | cons d k =>
            by_cases hcd : c = '\r' ∧ d = '\n'
            · obtain ⟨rfl, rfl⟩ := hcd
              simp [newlineLength] at h
            · simp only [not_and] at hcd
              rw [List.cons_append, newlineLength]
              · simp [hc]
              · rintro cs rfl hd
                exact hcd rfl (List.cons.inj hd).1
        · have hne : c ≠ '\r' := by
            rintro rfl
            exact hc rfl
          simp [newlineLength, hc, hne]
      rw [hnl hn, hnl hn']

private theorem blankLength_agree (hn : blankLength (w ++ r) ≤ w.length)
    (hn' : blankLength (w ++ r') ≤ w.length) : blankLength (w ++ r') = blankLength (w ++ r) := by
  cases w with
  | nil =>
    have h0 : blankLength r = 0 := by simpa using hn
    have h0' : blankLength r' = 0 := by simpa using hn'
    rw [List.nil_append, List.nil_append, h0, h0']
  | cons c w =>
    have hb (k : List Char) : blankLength (c :: w ++ k) =
        if isNewline c then newlineLength (c :: w ++ k) else if isBlank c then 1 else 0 := rfl
    rw [hb] at hn hn' ⊢
    rw [hb]
    split
    · rename_i hc
      rw [if_pos hc] at hn hn'
      exact newlineLength_agree hn hn'
    · rfl

/-- The hexadecimal digits of an escape. -/
def escapeDigits (cs : List Char) : List Char :=
  (cs.take 6).takeWhile fun c => (Text.hexDigit? c).isSome

theorem escape_of_digits {cs : List Char} (h : escapeDigits cs ≠ []) : escape cs =
    (charOfCode ((escapeDigits cs).foldl (fun n c => 16 * n + (Text.hexDigit? c).getD 0) 0),
      (escapeDigits cs).length + blankLength (cs.drop (escapeDigits cs).length)) := by
  have hne : (escapeDigits cs).isEmpty = false := by simpa using h
  rw [escapeDigits] at hne
  simp [escape, hne, escapeDigits]

theorem escape_of_nil {cs : List Char} (h : escapeDigits cs = []) : escape cs =
    match cs.head? with
    | none => (replacement, 0)
    | some c => (denoted c, 1) := by
  rw [escapeDigits] at h
  simp only [escape, h, List.isEmpty_nil, if_true]
  cases cs <;> rfl

private theorem escapeDigits_le (cs : List Char) : (escapeDigits cs).length ≤ (escape cs).2 := by
  by_cases h : escapeDigits cs = []
  · simp [h]
  · rw [escape_of_digits h]
    exact Nat.le_add_right ..

private theorem escapeDigits_agree (hn : (escapeDigits (w ++ r)).length ≤ w.length)
    (hn' : (escapeDigits (w ++ r')).length ≤ w.length) :
    escapeDigits (w ++ r') = escapeDigits (w ++ r) := by
  have hle {k : List Char} (h : (escapeDigits (w ++ k)).length ≤ w.length) :
      ((w.take 6 ++ k.take (6 - w.length)).takeWhile fun c => (Text.hexDigit? c).isSome).length ≤
        (w.take 6).length := by
    have ht := (List.takeWhile_sublist (l := (w ++ k).take 6)
      fun c => (Text.hexDigit? c).isSome).length_le
    rw [escapeDigits, List.take_append] at h
    rw [List.take_append, List.length_append, List.length_take, List.length_take] at ht
    rw [List.length_take]
    omega
  rw [escapeDigits, escapeDigits, List.take_append, List.take_append]
  exact takeWhile_agree (hle hn) (hle hn')

private theorem escape_agree (he : r = [] ↔ r' = []) (hn : (escape (w ++ r)).2 ≤ w.length)
    (hn' : (escape (w ++ r')).2 ≤ w.length) : escape (w ++ r') = escape (w ++ r) := by
  have hd := escapeDigits_agree (Nat.le_trans (escapeDigits_le _) hn)
    (Nat.le_trans (escapeDigits_le _) hn')
  by_cases h : escapeDigits (w ++ r) = []
  · rw [escape_of_nil h, escape_of_nil (hd.trans h)]
    cases w with
    | nil =>
      have hr : r = [] := Decidable.byContradiction fun hne => by
        have := escape_pos hne
        simp only [List.nil_append, List.length_nil] at hn
        omega
      rw [hr, he.1 hr]
    | cons c w => rfl
  · rw [escape_of_digits h] at hn
    rw [escape_of_digits (hd ▸ h), hd] at hn'
    rw [escape_of_digits h, escape_of_digits (hd ▸ h), hd]
    simp only at hn hn'
    have hle : (escapeDigits (w ++ r)).length ≤ w.length := by omega
    rw [List.drop_append_of_le_length hle] at hn hn' ⊢
    rw [List.drop_append_of_le_length hle]
    have hb : blankLength (w.drop (escapeDigits (w ++ r)).length ++ r') =
        blankLength (w.drop (escapeDigits (w ++ r)).length ++ r) := by
      refine blankLength_agree ?_ ?_ <;>
      · rw [List.length_drop]
        omega
    rw [hb]

/-- An escape that ends inside of `w`, with what it takes. -/
private theorem escape_split (he : r = [] ↔ r' = []) (hn : (escape (w ++ r)).2 ≤ w.length)
    (hn' : (escape (w ++ r')).2 ≤ w.length) :
    ∃ x k, k ≤ w.length ∧ escape (w ++ r) = (x, k) ∧ escape (w ++ r') = (x, k) :=
  ⟨_, _, hn, rfl, escape_agree he hn hn'⟩

theorem name_eq_nil (h : (name r).2 = 0) : name r = ([], 0) := by
  cases r with
  | nil => simp [name]
  | cons c r =>
    rw [name] at h ⊢
    split
    · simp_all
    · split
      · simp_all
      · rfl

theorem name_cons_of_isNameChar (h : isNameChar c = true) (cs : List Char) :
    name (c :: cs) = (denoted c :: (name cs).1, (name cs).2 + 1) := by
  simp [name, h]

theorem name_escape {cs : List Char} (h : startsWith isNewline cs = false) :
    name ('\\' :: cs) = ((escape cs).1 :: (name (cs.drop (escape cs).2)).1,
      1 + (escape cs).2 + (name (cs.drop (escape cs).2)).2) := by
  have hc : isNameChar '\\' = false := by decide
  rw [name, if_neg (by simp [hc]), if_pos (by simp [h])]

theorem name_of_not (h : isNameChar c = false) {cs : List Char}
    (hc : c = '\\' → startsWith isNewline cs = true) : name (c :: cs) = ([], 0) := by
  rw [name, if_neg (by simp [h])]
  by_cases hb : c = '\\'
  · rw [if_neg (by simp [hc hb])]
  · rw [if_neg (by simp [hb])]

/-- A backslash in front of a text starts an escape that takes something of it. -/
theorem eq_nil_of_name (hs : startsWith isNewline r = false)
    (hn : (name ('\\' :: r)).2 ≤ 1) : r = [] := by
  rw [name_escape hs] at hn
  refine Decidable.byContradiction fun hne => ?_
  have hp := escape_pos hne
  simp only at hn
  omega

theorem name_agree (h : Akin w r r') (hn : (name (w ++ r)).2 ≤ w.length)
    (hn' : (name (w ++ r')).2 ≤ w.length) : name (w ++ r') = name (w ++ r) := by
  induction hl : w.length using Nat.strongRecOn generalizing w with
  | ind l ih =>
  cases w with
  | nil =>
    have hr : (name r).2 = 0 := by simpa using hn
    have hr' : (name r').2 = 0 := by simpa using hn'
    rw [List.nil_append, List.nil_append, name_eq_nil hr, name_eq_nil hr']
  | cons c w =>
    rw [List.length_cons] at hl
    rw [List.cons_append] at hn hn' ⊢
    rw [List.cons_append]
    by_cases hc : isNameChar c = true
    · rw [name_cons_of_isNameChar hc] at hn hn' ⊢
      simp only [List.length_cons, Nat.add_le_add_iff_right] at hn hn'
      rw [name_cons_of_isNameChar hc,
        ih w.length (by omega) (h.mono fun d hd => List.mem_cons_of_mem _ hd) hn hn' rfl]
    have hc : isNameChar c = false := by simpa using hc
    by_cases hb : c = '\\'
    · subst hb
      have he : r = [] ↔ r' = [] := h.ends.resolve_left (by simp)
      cases w with
      | nil =>
        rw [List.nil_append] at hn hn' ⊢
        rw [List.nil_append]
        by_cases hr : r = []
        · rw [hr, he.1 hr]
        · have hs {k : List Char} (hk : k ≠ []) (hn : (name ('\\' :: k)).2 ≤ 1) :
              startsWith isNewline k = true := by
            rw [← Bool.not_eq_false]
            exact fun hs => hk (eq_nil_of_name hs hn)
          rw [name_of_not hc fun _ => hs hr hn,
            name_of_not hc fun _ => hs (fun hr' => hr (he.2 hr')) hn']
      | cons d w =>
        by_cases hs : isNewline d = true
        · rw [name_of_not hc fun _ => by simpa [startsWith] using hs,
            name_of_not hc fun _ => by simpa [startsWith] using hs]
        · have hs (k : List Char) : startsWith isNewline (d :: w ++ k) = false := by
            simpa [startsWith] using hs
          rw [name_escape (hs r)] at hn
          rw [name_escape (hs r')] at hn'
          rw [name_escape (hs r), name_escape (hs r')]
          simp only [List.length_cons] at hn hn' hl
          obtain ⟨x, k, hk, hr, hr'⟩ := escape_split (w := d :: w) he
            (by rw [List.length_cons]; omega) (by rw [List.length_cons]; omega)
          have hd := List.length_drop (l := d :: w) (i := k)
          rw [List.length_cons] at hd
          have hv : Akin ((d :: w).drop k) r r' :=
            (h.mono fun e he => List.mem_cons_of_mem _ he).drop k
          simp only [hr, hr', List.drop_append_of_le_length hk] at hn hn' ⊢
          rw [ih _ (by omega) hv (by omega) (by omega) rfl]
    · rw [name_of_not hc fun h => absurd h hb, name_of_not hc fun h => absurd h hb]

/-! ## Numbers -/

private theorem fractionDigits_agree
    (hn : fractionDigits (w ++ r) ≠ [] → 1 + (fractionDigits (w ++ r)).length ≤ w.length)
    (hn' : fractionDigits (w ++ r') ≠ [] → 1 + (fractionDigits (w ++ r')).length ≤ w.length) :
    fractionDigits (w ++ r') = fractionDigits (w ++ r) := by
  cases w with
  | nil =>
    have hr : fractionDigits r = [] :=
      Decidable.byContradiction fun hne => by simpa using hn hne
    have hr' : fractionDigits r' = [] :=
      Decidable.byContradiction fun hne => by simpa using hn' hne
    rw [List.nil_append, List.nil_append, hr, hr']
  | cons c w =>
    by_cases hc : c = '.'
    · subst hc
      have hle {k : List Char} (hk : fractionDigits ('.' :: w ++ k) ≠ [] →
          1 + (fractionDigits ('.' :: w ++ k)).length ≤ ('.' :: w).length) :
          ((w ++ k).takeWhile Char.isDigit).length ≤ w.length := by
        simp only [List.cons_append, fractionDigits, List.length_cons] at hk
        by_cases he : (w ++ k).takeWhile Char.isDigit = []
        · simp [he]
        · have := hk he
          omega
      exact takeWhile_agree (hle hn) (hle hn')
    · simp [fractionDigits, hc]

/-- Whether the text behind the letter of an exponent starts with a sign. -/
def signed (cs : List Char) : Bool := startsWith (fun c => c = '+' || c = '-') cs

/-- The digits behind the letter of an exponent and its sign. -/
def exponentDigits (cs : List Char) : List Char :=
  (cs.drop (signed cs).toNat).takeWhile Char.isDigit

theorem exponent?_letter (hc : c = 'e' ∨ c = 'E') (cs : List Char) :
    exponent? (c :: cs) = if exponentDigits cs = [] then none
      else some ((startsWith (· = '-') cs, exponentDigits cs),
        1 + (signed cs).toNat + (exponentDigits cs).length) := by
  by_cases hd : exponentDigits cs = []
  · rw [if_pos hd]
    rw [exponentDigits, signed] at hd
    simp [exponent?, hc, hd]
  · rw [if_neg hd]
    rw [exponentDigits, signed] at hd
    simp [exponent?, hc, hd, exponentDigits, signed]

private theorem exponentDigits_agree
    (hn : exponentDigits (w ++ r) ≠ [] →
      (signed (w ++ r)).toNat + (exponentDigits (w ++ r)).length ≤ w.length)
    (hn' : exponentDigits (w ++ r') ≠ [] →
      (signed (w ++ r')).toNat + (exponentDigits (w ++ r')).length ≤ w.length) :
    exponentDigits (w ++ r') = exponentDigits (w ++ r) := by
  cases w with
  | nil =>
    have hnil {k : List Char} (hk : exponentDigits k ≠ [] →
        (signed k).toNat + (exponentDigits k).length ≤ 0) : exponentDigits k = [] :=
      Decidable.byContradiction fun hne => by
        have hl := hk hne
        have hp := List.length_pos_iff.2 hne
        omega
    exact (hnil hn').trans (hnil hn).symm
  | cons d w =>
    have hs (k : List Char) : signed (d :: w ++ k) = (decide (d = '+') || decide (d = '-')) := rfl
    simp only [exponentDigits, hs] at hn hn' ⊢
    generalize (decide (d = '+') || decide (d = '-')) = s at hn hn' ⊢
    have hle : s.toNat ≤ (d :: w).length := by
      cases s <;> simp
    rw [List.drop_append_of_le_length hle] at hn hn' ⊢
    rw [List.drop_append_of_le_length hle]
    have hl {k : List Char} (hk : ((d :: w).drop s.toNat ++ k).takeWhile Char.isDigit ≠ [] →
        s.toNat + (((d :: w).drop s.toNat ++ k).takeWhile Char.isDigit).length ≤ (d :: w).length) :
        (((d :: w).drop s.toNat ++ k).takeWhile Char.isDigit).length ≤
          ((d :: w).drop s.toNat).length := by
      by_cases he : ((d :: w).drop s.toNat ++ k).takeWhile Char.isDigit = []
      · simp [he]
      · have := hk he
        rw [List.length_drop]
        omega
    exact takeWhile_agree (hl hn) (hl hn')

private theorem exponent?_pos {cs : List Char} {e : Bool × List Char} {n : Nat}
    (h : exponent? cs = some (e, n)) : 0 < n := by
  cases cs with
  | nil => simp [exponent?] at h
  | cons c cs =>
    by_cases hc : c = 'e' ∨ c = 'E'
    · rw [exponent?_letter hc] at h
      split at h
      · simp at h
      · obtain rfl := (Prod.mk.inj (Option.some.inj h)).2
        omega
    · simp [exponent?, hc] at h

private theorem exponent?_agree (hn : ∀ e n, exponent? (w ++ r) = some (e, n) → n ≤ w.length)
    (hn' : ∀ e n, exponent? (w ++ r') = some (e, n) → n ≤ w.length) :
    exponent? (w ++ r') = exponent? (w ++ r) := by
  cases w with
  | nil =>
    have hnone {k : List Char} (hk : ∀ e n, exponent? k = some (e, n) → n ≤ 0) :
        exponent? k = none := by
      refine Option.eq_none_iff_forall_ne_some.2 fun en he => ?_
      obtain ⟨e, n⟩ := en
      have h0 := hk e n he
      have hp := exponent?_pos he
      omega
    exact (hnone hn').trans (hnone hn).symm
  | cons c w =>
    by_cases hc : c = 'e' ∨ c = 'E'
    · rw [List.cons_append, exponent?_letter hc] at hn hn' ⊢
      rw [List.cons_append, exponent?_letter hc]
      have hl {k : List Char} (hk : ∀ e n, (if exponentDigits (w ++ k) = [] then none
          else some ((startsWith (· = '-') (w ++ k), exponentDigits (w ++ k)),
            1 + (signed (w ++ k)).toNat + (exponentDigits (w ++ k)).length)) = some (e, n) →
          n ≤ (c :: w).length) (he : exponentDigits (w ++ k) ≠ []) :
          (signed (w ++ k)).toNat + (exponentDigits (w ++ k)).length ≤ w.length := by
        have := hk _ _ (if_neg he)
        rw [List.length_cons] at this
        omega
      have hd := exponentDigits_agree (hl hn) (hl hn')
      rw [hd]
      split
      · rfl
      · rename_i he
        -- the digits lie inside the text, and so does the sign before them
        have hlen := hl hn he
        have hp := List.length_pos_iff.2 he
        cases w with
        | nil =>
          simp only [List.length_nil] at hlen
          omega
        | cons d w => rfl
    · simp [exponent?, hc]

def sign (cs : List Char) : Option Char := cs.head?.filter fun c => c = '+' || c = '-'

def signLength (cs : List Char) : Nat := if (sign cs).isSome then 1 else 0

def whole (cs : List Char) : List Char := (cs.drop (signLength cs)).takeWhile Char.isDigit

def fraction (cs : List Char) : List Char :=
  fractionDigits (cs.drop (signLength cs + (whole cs).length))

/-- The length of a number without its exponent. -/
def baseLength (cs : List Char) : Nat :=
  signLength cs + (whole cs).length + if (fraction cs).isEmpty then 0 else 1 + (fraction cs).length

theorem numeral_eq (cs : List Char) : numeral cs =
    match exponent? (cs.drop (baseLength cs)) with
    | some (e, n) => (⟨sign cs, whole cs, fraction cs, some e⟩, baseLength cs + n)
    | none => (⟨sign cs, whole cs, fraction cs, none⟩, baseLength cs) := rfl

theorem baseLength_le (cs : List Char) : baseLength cs ≤ (numeral cs).2 := by
  rw [numeral_eq]
  split
  · exact Nat.le_add_right ..
  · exact Nat.le_refl _

private theorem sign_agree (hn : signLength (w ++ r) ≤ w.length)
    (hn' : signLength (w ++ r') ≤ w.length) : sign (w ++ r') = sign (w ++ r) := by
  cases w with
  | nil =>
    have hnone {k : List Char} (hk : signLength k ≤ 0) : sign k = none := by
      cases hs : sign k with
      | none => rfl
      | some c => simp [signLength, hs] at hk
    exact (hnone hn').trans (hnone hn).symm
  | cons c w => rfl

private theorem base_agree (hn : baseLength (w ++ r) ≤ w.length)
    (hn' : baseLength (w ++ r') ≤ w.length) :
    sign (w ++ r') = sign (w ++ r) ∧ whole (w ++ r') = whole (w ++ r) ∧
      fraction (w ++ r') = fraction (w ++ r) := by
  have hsl (cs : List Char) : signLength cs ≤ baseLength cs := by
    rw [baseLength]
    omega
  have hwl (cs : List Char) : signLength cs + (whole cs).length ≤ baseLength cs := Nat.le_add_right ..
  have hs : sign (w ++ r') = sign (w ++ r) :=
    sign_agree (Nat.le_trans (hsl _) hn) (Nat.le_trans (hsl _) hn')
  have hse : signLength (w ++ r') = signLength (w ++ r) := by
    rw [signLength, signLength, hs]
  have hw : whole (w ++ r') = whole (w ++ r) := by
    have hle := Nat.le_trans (hsl _) hn
    have hl := Nat.le_trans (hwl _) hn
    have hl' := Nat.le_trans (hwl _) hn'
    rw [whole, List.drop_append_of_le_length hle] at hl
    rw [whole, hse, List.drop_append_of_le_length hle] at hl'
    rw [whole, whole, hse, List.drop_append_of_le_length hle, List.drop_append_of_le_length hle]
    refine takeWhile_agree ?_ ?_ <;>
    · rw [List.length_drop]
      omega
  refine ⟨hs, hw, ?_⟩
  have hle := Nat.le_trans (hwl _) hn
  rw [baseLength, fraction, List.drop_append_of_le_length hle] at hn
  rw [baseLength, fraction, hse, hw, List.drop_append_of_le_length hle] at hn'
  rw [fraction, fraction, hse, hw, List.drop_append_of_le_length hle,
    List.drop_append_of_le_length hle]
  refine fractionDigits_agree (fun hne => ?_) fun hne => ?_
  · rw [if_neg (by simpa using hne)] at hn
    rw [List.length_drop]
    omega
  · rw [if_neg (by simpa using hne)] at hn'
    rw [List.length_drop]
    omega

theorem numeral_agree (hn : (numeral (w ++ r)).2 ≤ w.length)
    (hn' : (numeral (w ++ r')).2 ≤ w.length) : numeral (w ++ r') = numeral (w ++ r) := by
  have hb := Nat.le_trans (baseLength_le _) hn
  obtain ⟨hs, hw, hf⟩ := base_agree hb (Nat.le_trans (baseLength_le _) hn')
  have hbl : baseLength (w ++ r') = baseLength (w ++ r) := by
    rw [baseLength, baseLength, signLength, signLength, hs, hw, hf]
  have he : exponent? ((w ++ r').drop (baseLength (w ++ r))) =
      exponent? ((w ++ r).drop (baseLength (w ++ r))) := by
    rw [List.drop_append_of_le_length hb, List.drop_append_of_le_length hb]
    refine exponent?_agree (fun e n hen => ?_) fun e n hen => ?_
    · rw [← List.drop_append_of_le_length hb] at hen
      rw [numeral_eq, hen] at hn
      simp only at hn
      rw [List.length_drop]
      omega
    · rw [← List.drop_append_of_le_length hb, ← hbl] at hen
      rw [numeral_eq, hen, hbl] at hn'
      simp only at hn'
      rw [List.length_drop]
      omega
  rw [numeral_eq, numeral_eq, hbl, he, hs, hw, hf]

/-! ## Identifiers -/

/-- A hyphen in front of a text starts an identifier that takes something of it, unless a backslash
follows. -/
private theorem startsIdent_hyphen (hn : startsIdent ('-' :: r) = true → (name ('-' :: r)).2 ≤ 1) :
    startsIdent ('-' :: r) = startsWith (· = '\\') r := by
  cases r with
  | nil => rfl
  | cons d r =>
    have hs : startsIdent ('-' :: d :: r) = (isNameStart d || d = '-' || d = '\\') := by
      simp [startsIdent, startsWith]
    by_cases hd : isNameChar d = true
    · have hf : startsIdent ('-' :: d :: r) = false := Bool.eq_false_iff.2 fun h => by
        have hl := hn h
        rw [name_cons_of_isNameChar (by decide), name_cons_of_isNameChar hd] at hl
        simp at hl
      rw [hf]
      have hne : d ≠ '\\' := by
        rintro rfl
        exact absurd hd (by decide)
      simp [startsWith, hne]
    · simp only [isNameChar, Bool.or_eq_true, decide_eq_true_eq, not_or] at hd
      simp [hs, hd, startsWith]

theorem startsIdent_agree (h : Akin w r r')
    (hn : startsIdent (w ++ r) = true → (name (w ++ r)).2 ≤ w.length)
    (hn' : startsIdent (w ++ r') = true → (name (w ++ r')).2 ≤ w.length) :
    startsIdent (w ++ r') = startsIdent (w ++ r) := by
  cases w with
  | nil =>
    have hf {k : List Char} (hk : startsIdent k = true → (name k).2 ≤ 0) :
        startsIdent k = false := Bool.eq_false_iff.2 fun hs => by
      have h0 := Nat.le_zero.1 (hk hs)
      exact name_ne_nil hs (by rw [name_eq_nil h0])
    exact (hf hn').trans (hf hn).symm
  | cons c w =>
    cases w with
    | cons d w => simp [startsIdent, startsWith]
    | nil =>
      by_cases hc : c = '-'
      · subst hc
        exact (startsIdent_hyphen hn').trans (h.backslash.symm.trans (startsIdent_hyphen hn).symm)
      by_cases hb : c = '\\'
      · subst hb
        have he : r = [] ↔ r' = [] := h.ends.resolve_left (by simp)
        have hs {k : List Char} (hk : k ≠ [])
            (hn : startsIdent ('\\' :: k) = true → (name ('\\' :: k)).2 ≤ 1) :
            startsIdent ('\\' :: k) = false := Bool.eq_false_iff.2 fun hs => by
          have hnl : startsWith isNewline k = false := by simpa [startsIdent] using hs
          exact hk (eq_nil_of_name hnl (hn hs))
        by_cases hr : r = []
        · rw [hr, he.1 hr]
        · exact (hs (fun hr' => hr (he.2 hr')) hn').trans (hs hr hn).symm
      · simp [startsIdent, hc, hb]

/-! ## Numbers with what follows them -/

theorem numeral_le_numeric (cs : List Char) : (numeral cs).2 ≤ (numeric cs).2 := by
  simp only [numeric]
  split
  · exact Nat.le_add_right ..
  · split
    · exact Nat.le_add_right ..
    · exact Nat.le_refl _

theorem numeric_agree (h : Akin w r r') (hn : (numeric (w ++ r)).2 ≤ w.length)
    (hn' : (numeric (w ++ r')).2 ≤ w.length) : numeric (w ++ r') = numeric (w ++ r) := by
  have hk := Nat.le_trans (numeral_le_numeric _) hn
  have hnum := numeral_agree hk (Nat.le_trans (numeral_le_numeric _) hn')
  simp only [numeric, hnum, List.drop_append_of_le_length hk] at hn hn' ⊢
  have hlen := List.length_drop (l := w) (i := (numeral (w ++ r)).2)
  have hv := h.drop (numeral (w ++ r)).2
  generalize (numeral (w ++ r)).2 = k at hk hn hn' hlen hv ⊢
  generalize w.drop k = v at hn hn' hlen hv ⊢
  have hpercent : startsWith (· = '%') (v ++ r') = startsWith (· = '%') (v ++ r) := by
    refine startsWith_agree (fun hs => ?_) fun hs => ?_
    · rw [if_pos hs] at hn
      simp only at hn
      omega
    · rw [if_pos hs] at hn'
      simp only at hn'
      omega
  rw [hpercent] at hn' ⊢
  split
  · rfl
  · rename_i hp
    rw [if_neg hp] at hn hn'
    have hident : startsIdent (v ++ r') = startsIdent (v ++ r) := by
      refine startsIdent_agree hv (fun hs => ?_) fun hs => ?_
      · rw [if_pos hs] at hn
        simp only at hn
        omega
      · rw [if_pos hs] at hn'
        simp only at hn'
        omega
    rw [hident] at hn' ⊢
    split
    · rename_i hs
      rw [if_pos hs] at hn hn'
      simp only at hn hn'
      rw [name_agree hv (by omega) (by omega)]
    · rfl

/-- A number with a sign reaches behind its first digit. -/
theorem two_le_numeral {s d : Char} (hs : s = '+' ∨ s = '-') (hd : d.isDigit = true)
    (cs : List Char) : 2 ≤ (numeral (s :: d :: cs)).2 := by
  have hsl : signLength (s :: d :: cs) = 1 := by
    simp [signLength, sign, hs]
  refine Nat.le_trans ?_ (baseLength_le _)
  simp only [baseLength, whole, hsl, List.drop_succ_cons, List.drop_zero, List.takeWhile_cons, hd,
    if_true, List.length_cons]
  omega

/-- A number that starts with a point reaches behind its first digit. -/
theorem point_le_numeral {s d : Char} (hs : s = '+' ∨ s = '-') (hd : d.isDigit = true)
    (cs : List Char) :
    2 ≤ (numeral ('.' :: d :: cs)).2 ∧ 3 ≤ (numeral (s :: '.' :: d :: cs)).2 := by
  have hp : Char.isDigit '.' = false := by decide
  have hsl : signLength ('.' :: d :: cs) = 0 := by
    simp [signLength, sign, Option.filter]
  have hsl' : signLength (s :: '.' :: d :: cs) = 1 := by
    simp [signLength, sign, hs]
  constructor
  · refine Nat.le_trans ?_ (baseLength_le _)
    simp [baseLength, whole, fraction, hsl, hp, hd, fractionDigits]
    omega
  · refine Nat.le_trans ?_ (baseLength_le _)
    simp [baseLength, whole, fraction, hsl', hp, hd, fractionDigits]
    omega

/-- A number that starts behind a sign is longer than what the test for it looks at. -/
private theorem startsNumber_agree {s : Char} (hs : s = '+' ∨ s = '-')
    (hn : startsNumber (w ++ r) = true → (numeric (s :: (w ++ r))).2 ≤ w.length + 1)
    (hn' : startsNumber (w ++ r') = true → (numeric (s :: (w ++ r'))).2 ≤ w.length + 1) :
    startsNumber (w ++ r') = startsNumber (w ++ r) := by
  cases w with
  | nil =>
    have hf {k : List Char} (hk : startsNumber k = true → (numeric (s :: k)).2 ≤ 1) :
        startsNumber k = false := Bool.eq_false_iff.2 fun h => by
      have hl := Nat.le_trans (numeral_le_numeric _) (hk h)
      cases k with
      | nil => simp [startsNumber] at h
      | cons d k =>
        simp only [startsNumber, Bool.or_eq_true, Bool.and_eq_true, decide_eq_true_eq] at h
        rcases h with hd | ⟨rfl, hd⟩
        · have := two_le_numeral hs hd k
          omega
        · cases k with
          | nil => simp [startsWith] at hd
          | cons e k =>
            have := (point_le_numeral hs (by simpa [startsWith] using hd) k).2
            omega
    exact (hf hn').trans (hf hn).symm
  | cons d w =>
    by_cases hd : d = '.'
    · subst hd
      have hle {k : List Char} (hk : startsNumber ('.' :: w ++ k) = true →
          (numeric (s :: ('.' :: w ++ k))).2 ≤ ('.' :: w).length + 1)
          (h : startsWith Char.isDigit (w ++ k) = true) : 1 ≤ w.length := by
        have hl := Nat.le_trans (numeral_le_numeric _) (hk (by simp [startsNumber, h]))
        cases hwk : w ++ k with
        | nil => simp [hwk, startsWith] at h
        | cons e cs =>
          have := (point_le_numeral hs (d := e) (by simpa [hwk, startsWith] using h) cs).2
          rw [List.cons_append, hwk, List.length_cons] at hl
          omega
      simp [startsNumber, startsWith_agree (hle hn) (hle hn')]
    · simp [startsNumber, hd]

/-! ## Strings and comments -/

theorem comment_cons {d : Char} (h : ¬ (c = '*' ∧ d = '/')) (cs : List Char) :
    comment (c :: d :: cs) = (c :: (comment (d :: cs)).1, (comment (d :: cs)).2 + 1) := by
  rw [comment]
  rintro cs rfl hd
  exact h ⟨rfl, (List.cons.inj hd).1⟩

theorem comment_pos (c : Char) (cs : List Char) : 0 < (comment (c :: cs)).2 := by
  unfold comment
  split <;> simp_all

theorem comment_agree (hn : (comment (w ++ r)).2 ≤ w.length)
    (hn' : (comment (w ++ r')).2 ≤ w.length) : comment (w ++ r') = comment (w ++ r) := by
  induction w with
  | nil =>
    have hnil {k : List Char} (hk : (comment k).2 ≤ 0) : k = [] := by
      cases k with
      | nil => rfl
      | cons d k =>
        have := comment_pos d k
        omega
    rw [hnil (k := r) hn, hnil (k := r') hn']
  | cons c w ih =>
    cases w with
    | nil =>
      have hnil {k : List Char} (hk : (comment (c :: k)).2 ≤ 1) : k = [] := by
        cases k with
        | nil => rfl
        | cons d k =>
          by_cases hcd : c = '*' ∧ d = '/'
          · obtain ⟨rfl, rfl⟩ := hcd
            simp [comment] at hk
          · rw [comment_cons hcd] at hk
            have := comment_pos d k
            simp only at hk
            omega
      rw [hnil (k := r) hn, hnil (k := r') hn']
    | cons d w =>
      simp only [List.cons_append] at hn hn' ih ⊢
      by_cases hcd : c = '*' ∧ d = '/'
      · obtain ⟨rfl, rfl⟩ := hcd
        simp [comment]
      · rw [comment_cons hcd] at hn hn' ⊢
        simp only [List.length_cons, Nat.add_le_add_iff_right] at hn hn' ih
        rw [comment_cons hcd, ih hn hn']

theorem quoted_newline {q : Char} {cs : List Char} (hq : q ≠ '\\')
    (h : startsWith isNewline cs = true) : quoted q ('\\' :: cs) =
      (((quoted q (cs.drop (newlineLength cs))).1.1, (quoted q (cs.drop (newlineLength cs))).1.2),
        1 + newlineLength cs + (quoted q (cs.drop (newlineLength cs))).2) := by
  rw [quoted, if_neg (Ne.symm hq), if_neg (by decide), if_pos rfl, if_pos h]

theorem quoted_escape {q : Char} {cs : List Char} (hq : q ≠ '\\')
    (h : startsWith isNewline cs = false) (hne : cs ≠ []) : quoted q ('\\' :: cs) =
      (((escape cs).1 :: (quoted q (cs.drop (escape cs).2)).1.1,
          (quoted q (cs.drop (escape cs).2)).1.2),
        1 + (escape cs).2 + (quoted q (cs.drop (escape cs).2)).2) := by
  rw [quoted, if_neg (Ne.symm hq), if_neg (by decide), if_pos rfl, if_neg (by simp [h]),
    if_neg (by simpa using hne)]

theorem quoted_plain {q : Char} (hq : c ≠ q) (hn : isNewline c = false) (hb : c ≠ '\\')
    (cs : List Char) : quoted q (c :: cs) =
      ((denoted c :: (quoted q cs).1.1, (quoted q cs).1.2), (quoted q cs).2 + 1) := by
  rw [quoted, if_neg hq, if_neg (by simp [hn]), if_neg hb]

theorem newlineLength_pos (h : startsWith isNewline r = true) : 0 < newlineLength r := by
  cases r with
  | nil => simp [startsWith] at h
  | cons c r =>
    have hc : isNewline c = true := by simpa [startsWith] using h
    unfold newlineLength
    split <;> simp_all

/-- A backslash in a string takes something of the text behind it. -/
theorem eq_nil_of_quoted {q : Char} (hq : q ≠ '\\') (h : (quoted q ('\\' :: r)).2 ≤ 1) :
    r = [] := by
  refine Decidable.byContradiction fun hne => ?_
  by_cases hs : startsWith isNewline r = true
  · have hp := newlineLength_pos hs
    rw [quoted_newline hq hs] at h
    simp only at h
    omega
  · have hp := escape_pos hne
    rw [quoted_escape hq (by simpa using hs) hne] at h
    simp only at h
    omega

theorem quoted_backslash_pos {q : Char} (hq : q ≠ '\\') (cs : List Char) :
    0 < (quoted q ('\\' :: cs)).2 := by
  refine Nat.pos_of_ne_zero fun h => ?_
  have hcs := eq_nil_of_quoted hq (by omega : (quoted q ('\\' :: cs)).2 ≤ 1)
  subst hcs
  rw [quoted, if_neg (Ne.symm hq), if_neg (by decide), if_pos rfl, if_neg (by simp [startsWith])] at h
  simp at h

theorem quoted_agree {q : Char} (hq : q ≠ '\\') (he : r = [] ↔ r' = [])
    (hn : (quoted q (w ++ r)).2 ≤ w.length) (hn' : (quoted q (w ++ r')).2 ≤ w.length) :
    quoted q (w ++ r') = quoted q (w ++ r) := by
  induction hl : w.length using Nat.strongRecOn generalizing w with
  | ind l ih =>
  cases w with
  | nil =>
    have hbroken {k : List Char} (hk : k ≠ []) (hn : (quoted q k).2 ≤ 0) :
        quoted q k = (([], false), 0) := by
      obtain ⟨c, k, rfl⟩ := List.exists_cons_of_ne_nil hk
      by_cases hcq : c = q
      · simp [quoted, hcq] at hn
      by_cases hcn : isNewline c = true
      · simp [quoted, hcq, hcn]
      have hcn : isNewline c = false := by simpa using hcn
      by_cases hb : c = '\\'
      · subst hb
        have := quoted_backslash_pos hq k
        omega
      · rw [quoted_plain hcq hcn hb] at hn
        simp at hn
    by_cases hr : r = []
    · rw [hr, he.1 hr]
    · exact (hbroken (fun hr' => hr (he.2 hr')) hn').trans (hbroken hr hn).symm
  | cons c w =>
    rw [List.length_cons] at hl
    simp only [List.cons_append, List.length_cons] at hn hn' ⊢
    by_cases hcq : c = q
    · simp [quoted, hcq]
    by_cases hcn : isNewline c = true
    · simp [quoted, hcq, hcn]
    have hcn : isNewline c = false := by simpa using hcn
    by_cases hb : c = '\\'
    · subst hb
      cases w with
      | nil =>
        rw [eq_nil_of_quoted hq hn, eq_nil_of_quoted hq hn']
      | cons d w =>
        rw [List.length_cons] at hn hn' hl
        by_cases hs : isNewline d = true
        · have hs (k : List Char) : startsWith isNewline (d :: w ++ k) = true := by
            simpa [startsWith] using hs
          rw [quoted_newline hq (hs r)] at hn
          rw [quoted_newline hq (hs r')] at hn'
          rw [quoted_newline hq (hs r), quoted_newline hq (hs r')]
          simp only at hn hn'
          have hlen : newlineLength (d :: w ++ r') = newlineLength (d :: w ++ r) := by
            refine newlineLength_agree ?_ ?_ <;>
            · rw [List.length_cons]
              omega
          rw [hlen] at hn' ⊢
          have hk : newlineLength (d :: w ++ r) ≤ (d :: w).length := by
            rw [List.length_cons]
            omega
          have hp := newlineLength_pos (hs r)
          have hd := List.length_drop (l := d :: w) (i := newlineLength (d :: w ++ r))
          rw [List.length_cons] at hd
          rw [List.drop_append_of_le_length hk] at hn hn' ⊢
          rw [List.drop_append_of_le_length hk, ih _ (by omega) (by omega) (by omega) rfl]
        · have hs (k : List Char) : startsWith isNewline (d :: w ++ k) = false := by
            simpa [startsWith] using hs
          rw [quoted_escape hq (hs r) (by simp)] at hn
          rw [quoted_escape hq (hs r') (by simp)] at hn'
          rw [quoted_escape hq (hs r) (by simp), quoted_escape hq (hs r') (by simp)]
          simp only at hn hn'
          obtain ⟨x, k, hk, hr, hr'⟩ := escape_split (w := d :: w) he
            (by rw [List.length_cons]; omega) (by rw [List.length_cons]; omega)
          have hd := List.length_drop (l := d :: w) (i := k)
          rw [List.length_cons] at hd
          simp only [hr, hr', List.drop_append_of_le_length hk] at hn hn' ⊢
          rw [ih _ (by omega) (by omega) (by omega) rfl]
    · rw [quoted_plain hcq hcn hb] at hn hn' ⊢
      simp only [Nat.add_le_add_iff_right] at hn hn'
      rw [quoted_plain hcq hcn hb, ih w.length (by omega) hn hn' rfl]

/-! ## Addresses -/

private theorem addressEnd_agree
    (hn : (addressEnd (w ++ r)).2 ≤ w.length) (hn' : (addressEnd (w ++ r')).2 ≤ w.length) :
    addressEnd (w ++ r') = addressEnd (w ++ r) := by
  have hle (cs : List Char) : (cs.takeWhile isBlank).length ≤ (addressEnd cs).2 := by
    simp only [addressEnd]
    split
    · exact Nat.le_refl _
    · split <;> exact Nat.le_succ _
  have ht := takeWhile_agree (Nat.le_trans (hle _) hn) (Nat.le_trans (hle _) hn')
  have hk := Nat.le_trans (hle _) hn
  simp only [addressEnd, ht] at hn hn' ⊢
  generalize ((w ++ r).takeWhile isBlank).length = n at hk hn hn' ⊢
  rw [List.drop_append_of_le_length hk] at hn hn' ⊢
  rw [List.drop_append_of_le_length hk]
  cases hv : w.drop n with
  | cons c v => rfl
  | nil =>
    rw [hv, List.nil_append] at hn hn'
    have hge := List.drop_eq_nil_iff.1 hv
    have hr : r = [] := by
      cases r with
      | nil => rfl
      | cons c r =>
        simp only at hn
        split at hn <;> (simp only at hn; omega)
    have hr' : r' = [] := by
      cases r' with
      | nil => rfl
      | cons c r' =>
        simp only at hn'
        split at hn' <;> (simp only at hn'; omega)
    rw [hr, hr']

theorem address_escape {cs : List Char} (h : startsWith isNewline cs = false) :
    address ('\\' :: cs) = ((address (cs.drop (escape cs).2)).1.map ((escape cs).1 :: ·),
      1 + (escape cs).2 + (address (cs.drop (escape cs).2)).2) := by
  rw [address, if_neg (by decide), if_neg (by decide), if_neg (by decide), if_pos rfl,
    if_neg (by simp [h])]

theorem address_newline {cs : List Char} (h : startsWith isNewline cs = true) :
    address ('\\' :: cs) = (none, 1) := by
  rw [address, if_neg (by decide), if_neg (by decide), if_neg (by decide), if_pos rfl, if_pos h]

theorem eq_nil_of_address (hs : startsWith isNewline r = false)
    (hn : (address ('\\' :: r)).2 ≤ 1) : r = [] := by
  refine Decidable.byContradiction fun hne => ?_
  have hp := escape_pos hne
  rw [address_escape hs] at hn
  simp only at hn
  omega

theorem address_plain (hc : isBlank c = false ∧ c ≠ ')' ∧
    ¬ (isNonPrintable c ∨ c = '"' ∨ c = '\'' ∨ c = '(') ∧ c ≠ '\\') (cs : List Char) :
    address (c :: cs) = ((address cs).1.map (denoted c :: ·), (address cs).2 + 1) := by
  rw [address, if_neg (by simp [hc.1]), if_neg hc.2.1, if_neg hc.2.2.1, if_neg hc.2.2.2]

theorem address_pos (c : Char) (cs : List Char) : 0 < (address (c :: cs)).2 := by
  rw [address]
  by_cases hb : isBlank c = true
  · rw [if_pos hb]
    simp only [addressEnd, List.takeWhile_cons, hb, if_true, List.length_cons]
    split
    · exact Nat.succ_pos _
    · split <;> exact Nat.succ_pos _
  · rw [if_neg hb]
    split
    · exact Nat.one_pos
    split
    · exact Nat.one_pos
    split
    · split
      · exact Nat.one_pos
      · simp only
        omega
    · exact Nat.succ_pos _

theorem address_agree (he : r = [] ↔ r' = []) (hn : (address (w ++ r)).2 ≤ w.length)
    (hn' : (address (w ++ r')).2 ≤ w.length) : address (w ++ r') = address (w ++ r) := by
  induction hl : w.length using Nat.strongRecOn generalizing w with
  | ind l ih =>
  cases w with
  | nil =>
    have hnil {k : List Char} (hk : (address k).2 ≤ 0) : k = [] := by
      cases k with
      | nil => rfl
      | cons c k =>
        have := address_pos c k
        omega
    rw [hnil (k := r) hn, hnil (k := r') hn']
  | cons c w =>
    rw [List.length_cons] at hl
    by_cases hblank : isBlank c = true
    · have ha (k : List Char) : address (c :: w ++ k) = addressEnd (c :: w ++ k) := by
        rw [List.cons_append, address, if_pos hblank]
      rw [ha] at hn hn' ⊢
      rw [ha]
      exact addressEnd_agree hn hn'
    simp only [List.cons_append, List.length_cons] at hn hn' ⊢
    by_cases hclose : c = ')'
    · subst hclose
      rw [address, address, if_neg hblank, if_neg hblank, if_pos rfl, if_pos rfl]
    by_cases hspoil : isNonPrintable c ∨ c = '"' ∨ c = '\'' ∨ c = '('
    · simp [address, hblank, hclose, hspoil]
    by_cases hb : c = '\\'
    · subst hb
      cases w with
      | nil =>
        by_cases hr : r = []
        · rw [hr, he.1 hr]
        · have hs {k : List Char} (hk : k ≠ []) (hn : (address ('\\' :: k)).2 ≤ 1) :
              address ('\\' :: k) = (none, 1) := address_newline <| by
            rw [← Bool.not_eq_false]
            exact fun hs => hk (eq_nil_of_address hs hn)
          exact (hs (fun hr' => hr (he.2 hr')) hn').trans (hs hr hn).symm
      | cons d w =>
        rw [List.length_cons] at hn hn' hl
        by_cases hs : isNewline d = true
        · have hs (k : List Char) : startsWith isNewline (d :: w ++ k) = true := by
            simpa [startsWith] using hs
          rw [address_newline (hs r), address_newline (hs r')]
        · have hs (k : List Char) : startsWith isNewline (d :: w ++ k) = false := by
            simpa [startsWith] using hs
          rw [address_escape (hs r)] at hn
          rw [address_escape (hs r')] at hn'
          rw [address_escape (hs r), address_escape (hs r')]
          simp only at hn hn'
          obtain ⟨x, k, hk, hr, hr'⟩ := escape_split (w := d :: w) he
            (by rw [List.length_cons]; omega) (by rw [List.length_cons]; omega)
          have hd := List.length_drop (l := d :: w) (i := k)
          rw [List.length_cons] at hd
          simp only [hr, hr', List.drop_append_of_le_length hk] at hn hn' ⊢
          rw [ih _ (by omega) (by omega) (by omega) rfl]
    · have hc := And.intro (by simpa using hblank) (And.intro hclose (And.intro hspoil hb))
      rw [address_plain hc] at hn hn' ⊢
      simp only [Nat.add_le_add_iff_right] at hn hn'
      rw [address_plain hc, ih w.length (by omega) hn hn' rfl]

/-- The length of what is left of a spoilt address, with its closing bracket. -/
def spoiltLength (cs : List Char) : Nat :=
  (spoilt cs).length + (startsWith (· = ')') (cs.drop (spoilt cs).length)).toNat

theorem spoiltLength_close (cs : List Char) : spoiltLength (')' :: cs) = 1 := by
  cases cs <;> simp [spoiltLength, spoilt, startsWith]

theorem spoiltLength_pos (c : Char) (cs : List Char) : 0 < spoiltLength (c :: cs) := by
  by_cases hc : c = ')'
  · subst hc
    rw [spoiltLength_close]
    exact Nat.one_pos
  · have hs : spoilt (c :: cs) ≠ [] := by
      cases cs with
      | nil => simp [spoilt, hc]
      | cons d cs =>
        rw [spoilt, if_neg hc]
        split <;> simp
    have := List.length_pos_iff.2 hs
    rw [spoiltLength]
    omega

theorem spoilt_pair {d : Char} (h : c = '\\' ∧ (d = ')' ∨ d = '\\')) (cs : List Char) :
    spoilt (c :: d :: cs) = c :: d :: spoilt cs ∧
      spoiltLength (c :: d :: cs) = spoiltLength cs + 2 := by
  have hc : c ≠ ')' := by
    rintro rfl
    exact absurd h.1 (by decide)
  have hs : spoilt (c :: d :: cs) = c :: d :: spoilt cs := by
    rw [spoilt, if_neg hc, if_pos h]
  refine ⟨hs, ?_⟩
  rw [spoiltLength, hs, spoiltLength]
  simp only [List.length_cons, List.drop_succ_cons]
  omega

theorem spoilt_cons {d : Char} (hc : c ≠ ')') (h : ¬ (c = '\\' ∧ (d = ')' ∨ d = '\\')))
    (cs : List Char) : spoilt (c :: d :: cs) = c :: spoilt (d :: cs) ∧
      spoiltLength (c :: d :: cs) = spoiltLength (d :: cs) + 1 := by
  have hs : spoilt (c :: d :: cs) = c :: spoilt (d :: cs) := by
    rw [spoilt, if_neg hc, if_neg h]
  refine ⟨hs, ?_⟩
  rw [spoiltLength, hs, spoiltLength]
  simp only [List.length_cons, List.drop_succ_cons]
  omega

private theorem spoilt_agree (hn : spoiltLength (w ++ r) ≤ w.length)
    (hn' : spoiltLength (w ++ r') ≤ w.length) : spoilt (w ++ r') = spoilt (w ++ r) := by
  have hnil {k : List Char} (hk : spoiltLength k ≤ 0) : k = [] := by
    cases k with
    | nil => rfl
    | cons d k =>
      have := spoiltLength_pos d k
      omega
  induction hl : w.length using Nat.strongRecOn generalizing w with
  | ind l ih =>
  cases w with
  | nil => rw [hnil (k := r) hn, hnil (k := r') hn']
  | cons c w =>
    rw [List.length_cons] at hl
    by_cases hc : c = ')'
    · have hs (k : List Char) : spoilt (c :: w ++ k) = [] := by
        rw [hc]
        cases h : w ++ k <;> simp [spoilt, h]
      rw [hs, hs]
    cases w with
    | nil =>
      have hnil {k : List Char} (hk : spoiltLength (c :: k) ≤ 1) : k = [] := by
        cases k with
        | nil => rfl
        | cons d k =>
          by_cases hcd : c = '\\' ∧ (d = ')' ∨ d = '\\')
          · rw [(spoilt_pair hcd k).2] at hk
            omega
          · rw [(spoilt_cons hc hcd k).2] at hk
            have := spoiltLength_pos d k
            omega
      rw [hnil (k := r) hn, hnil (k := r') hn']
    | cons d w =>
      simp only [List.cons_append, List.length_cons] at hn hn' hl ⊢
      by_cases hcd : c = '\\' ∧ (d = ')' ∨ d = '\\')
      · rw [(spoilt_pair hcd _).2] at hn hn'
        rw [(spoilt_pair hcd _).1, (spoilt_pair hcd _).1,
          ih w.length (by omega) (by omega) (by omega) rfl]
      · rw [(spoilt_cons hc hcd _).2] at hn hn'
        rw [(spoilt_cons hc hcd _).1, (spoilt_cons hc hcd _).1, ← List.cons_append,
          ← List.cons_append, ih (d :: w).length (by rw [List.length_cons]; omega)
            (by rw [List.cons_append, List.length_cons]; omega)
            (by rw [List.cons_append, List.length_cons]; omega) rfl]

private theorem spoiltLength_agree (hn : spoiltLength (w ++ r) ≤ w.length)
    (hn' : spoiltLength (w ++ r') ≤ w.length) : spoiltLength (w ++ r') = spoiltLength (w ++ r) := by
  have hs := spoilt_agree hn hn'
  rw [spoiltLength] at hn hn' ⊢
  rw [spoiltLength]
  rw [hs] at hn' ⊢
  have hle : (spoilt (w ++ r)).length ≤ w.length := by omega
  have hlen := List.length_drop (l := w) (i := (spoilt (w ++ r)).length)
  rw [List.drop_append_of_le_length hle] at hn hn' ⊢
  rw [List.drop_append_of_le_length hle]
  have hclose : startsWith (· = ')') (w.drop (spoilt (w ++ r)).length ++ r') =
      startsWith (· = ')') (w.drop (spoilt (w ++ r)).length ++ r) := by
    refine startsWith_agree (fun h => ?_) fun h => ?_
    · rw [h, Bool.toNat_true] at hn
      omega
    · rw [h, Bool.toNat_true] at hn'
      omega
  rw [hclose]

/-- An address behind the blanks at its start. -/
def unblankedUrl? (body : List Char) : Option (Kind × Nat) :=
  if startsWith (fun c => c = '"' || c = '\'') body then none
  else match address body with
    | (some text, n) => some (.url (String.ofList text), n)
    | (none, n) => some (.badUrl (String.ofList (body.take n ++ spoilt (body.drop n))),
        n + spoiltLength (body.drop n))

theorem unquotedUrl?_append {b body : List Char} (hb : ∀ c ∈ b, isBlank c = true)
    (hbody : ∀ c ∈ body.head?, isBlank c = false) :
    unquotedUrl? (b ++ body) = (unblankedUrl? body).map fun x => (x.1, b.length + x.2) := by
  have ht : (b ++ body).takeWhile isBlank = b := by
    rw [List.takeWhile_append_of_pos hb]
    cases body with
    | nil => simp
    | cons c body => simp [hbody c (by simp)]
  have ha := address_le body
  simp only [unquotedUrl?, ht, List.drop_left, unblankedUrl?]
  split
  · rfl
  · generalize address body = found at ha ⊢
    obtain ⟨_ | text, n⟩ := found
    · have hl : (body.take n).length = n := List.length_take_of_le ha
      simp only [List.length_append, hl, Option.map_some, spoiltLength, List.drop_drop,
        Option.some.injEq, Prod.mk.injEq, true_and]
      omega
    · rfl

theorem unblankedUrl?_pos {body : List Char} {kind : Kind} {n : Nat}
    (h : unblankedUrl? body = some (kind, n)) (hne : body ≠ []) : 0 < n := by
  obtain ⟨c, cs, rfl⟩ := List.exists_cons_of_ne_nil hne
  have hp := address_pos c cs
  simp only [unblankedUrl?] at h
  generalize address (c :: cs) = found at hp h
  obtain ⟨_ | text, m⟩ := found
  · split at h
    · simp at h
    · simp only [Option.some.injEq, Prod.mk.injEq] at h
      simp only at hp
      omega
  · split at h
    · simp at h
    · simp only [Option.some.injEq, Prod.mk.injEq] at h
      simp only at hp
      omega

private theorem unblankedUrl?_agree (he : r = [] ↔ r' = [])
    (hn : ∀ kind n, unblankedUrl? (c :: w ++ r) = some (kind, n) → n ≤ (c :: w).length)
    (hn' : ∀ kind n, unblankedUrl? (c :: w ++ r') = some (kind, n) → n ≤ (c :: w).length) :
    unblankedUrl? (c :: w ++ r') = unblankedUrl? (c :: w ++ r) := by
  have hq (k : List Char) : startsWith (fun c => c = '"' || c = '\'') (c :: w ++ k) =
      (decide (c = '"') || decide (c = '\'')) := rfl
  by_cases hquote : (decide (c = '"') || decide (c = '\'')) = true
  · rw [unblankedUrl?, unblankedUrl?, hq, hq, if_pos hquote, if_pos hquote]
  · have hle {k : List Char}
        (hk : ∀ kind n, unblankedUrl? (c :: w ++ k) = some (kind, n) → n ≤ (c :: w).length) :
        (address (c :: w ++ k)).2 ≤ (c :: w).length ∧ ((address (c :: w ++ k)).1 = none →
          (address (c :: w ++ k)).2 + spoiltLength ((c :: w ++ k).drop (address (c :: w ++ k)).2) ≤
            (c :: w).length) := by
      rw [unblankedUrl?, hq, if_neg hquote] at hk
      generalize address (c :: w ++ k) = found at hk ⊢
      obtain ⟨_ | text, m⟩ := found
      · have := hk _ _ rfl
        exact ⟨by simp only; omega, fun _ => this⟩
      · exact ⟨hk _ _ rfl, by simp⟩
    obtain ⟨ha, hs⟩ := hle hn
    obtain ⟨ha', hs'⟩ := hle hn'
    have hagree := address_agree he ha ha'
    rw [hagree] at hs'
    rw [unblankedUrl?, unblankedUrl?, hq, hq, if_neg hquote, if_neg hquote, hagree]
    generalize address (c :: w ++ r) = found at ha hs hs' ⊢
    obtain ⟨_ | text, m⟩ := found
    · have hs := hs rfl
      have hs' := hs' rfl
      simp only at ha hs hs' ⊢
      rw [List.drop_append_of_le_length ha] at hs hs'
      have hlen := List.length_drop (l := c :: w) (i := m)
      rw [List.take_append_of_le_length ha, List.take_append_of_le_length ha,
        List.drop_append_of_le_length ha, List.drop_append_of_le_length ha,
        spoilt_agree (w := (c :: w).drop m) (r := r) (by omega) (by omega),
        spoiltLength_agree (w := (c :: w).drop m) (r := r) (by omega) (by omega)]
    · rfl

theorem unquotedUrl?_agree (he : r = [] ↔ r' = [])
    (hn : ∀ kind n, unquotedUrl? (w ++ r) = some (kind, n) → n ≤ w.length)
    (hn' : ∀ kind n, unquotedUrl? (w ++ r') = some (kind, n) → n ≤ w.length) :
    unquotedUrl? (w ++ r') = unquotedUrl? (w ++ r) := by
  have hb : ∀ c ∈ w.takeWhile isBlank, isBlank c = true :=
    List.all_eq_true.1 List.all_takeWhile
  have hw := List.takeWhile_append_dropWhile (p := isBlank) (l := w)
  have hd := List.head?_dropWhile_not isBlank w
  generalize w.takeWhile isBlank = b at hb hw
  generalize w.dropWhile isBlank = v at hw hd
  subst hw
  cases v with
  | nil =>
    -- the address would start behind `w`
    rw [List.append_nil] at hn hn' ⊢
    by_cases hr : r = []
    · rw [hr, he.1 hr]
    · have hnone {k : List Char} (hk : k ≠ [])
          (hn : ∀ kind n, unquotedUrl? (b ++ k) = some (kind, n) → n ≤ b.length) :
          unquotedUrl? (b ++ k) = none := by
        refine Option.eq_none_iff_forall_ne_some.2 fun x hx => ?_
        have hk' := List.takeWhile_append_dropWhile (p := isBlank) (l := k)
        have hbk : ∀ c ∈ b ++ k.takeWhile isBlank, isBlank c = true := by
          intro c hc
          rcases List.mem_append.1 hc with hc | hc
          · exact hb c hc
          · exact List.all_eq_true.1 List.all_takeWhile c hc
        have hhead : ∀ c ∈ (k.dropWhile isBlank).head?, isBlank c = false := by
          intro c hc
          have := List.head?_dropWhile_not isBlank k
          simpa [Option.mem_def.1 hc] using this
        have hbound := hn x.1 x.2 hx
        rw [← hk', ← List.append_assoc, unquotedUrl?_append hbk hhead] at hx
        obtain ⟨⟨kind, m⟩, hm, rfl⟩ := Option.map_eq_some_iff.1 hx
        simp only [List.length_append] at hbound
        have htake : k.takeWhile isBlank = [] := List.eq_nil_of_length_eq_zero (by omega)
        have hdrop : k.dropWhile isBlank = [] := Decidable.byContradiction fun hne => by
          have := unblankedUrl?_pos hm hne
          omega
        exact hk (by rw [← hk', htake, hdrop, List.append_nil])
      exact (hnone (fun hr' => hr (he.2 hr')) hn').trans (hnone hr hn).symm
  | cons c v =>
    have hc : isBlank c = false := by simpa using hd
    have hsplit (k : List Char) : unquotedUrl? (b ++ (c :: v ++ k)) =
        (unblankedUrl? (c :: v ++ k)).map fun x => (x.1, b.length + x.2) :=
      unquotedUrl?_append hb (by simpa using hc)
    rw [List.append_assoc, hsplit] at hn hn' ⊢
    rw [List.append_assoc, hsplit]
    have hle {k : List Char} (hk : ∀ kind n, (unblankedUrl? (c :: v ++ k)).map
        (fun x => (x.1, b.length + x.2)) = some (kind, n) → n ≤ (b ++ c :: v).length)
        (kind : Kind) (n : Nat) (h : unblankedUrl? (c :: v ++ k) = some (kind, n)) :
        n ≤ (c :: v).length := by
      have := hk kind (b.length + n) (by rw [h]; rfl)
      rw [List.length_append] at this
      omega
    rw [unblankedUrl?_agree he (hle hn) (hle hn')]

/-! ## Names with what follows them -/

/-- The kinds of tokens that may neither hold white space nor need a text that follows. -/
def Kind.isLocal : Kind → Bool
  | .whitespace | .string _ | .badString _ | .comment _ | .url _ | .badUrl _ => false
  | .function name => name.toLower ≠ "url"
  | _ => true

theorem unquotedUrl?_isLocal {cs : List Char} {kind : Kind} {n : Nat}
    (h : unquotedUrl? cs = some (kind, n)) : kind.isLocal = false := by
  unfold unquotedUrl? at h
  simp only at h
  split at h
  · simp at h
  · split at h
    · obtain rfl : _ = kind := (Prod.mk.inj (Option.some.inj h)).1
      rfl
    · obtain rfl : _ = kind := (Prod.mk.inj (Option.some.inj h)).1
      rfl

theorem name_le_identLike (cs : List Char) : (name cs).2 ≤ (identLike cs).2 := by
  simp only [identLike]
  split
  · split
    · split <;> (simp only; omega)
    · exact Nat.le_add_right ..
  · exact Nat.le_refl _

theorem identLike_eq (cs : List Char) : identLike cs =
    if startsWith (· = '(') (cs.drop (name cs).2) then
      if (String.ofList (name cs).1).toLower = "url" then
        match unquotedUrl? (cs.drop ((name cs).2 + 1)) with
        | some (kind, n) => (kind, (name cs).2 + 1 + n)
        | none => (.function (String.ofList (name cs).1), (name cs).2 + 1)
      else (.function (String.ofList (name cs).1), (name cs).2 + 1)
    else (.ident (String.ofList (name cs).1), (name cs).2) := rfl

/-- A bracket behind a name belongs to the token. -/
theorem open_le {cs : List Char}
    (h : startsWith (· = '(') (cs.drop (name cs).2) = true) : (name cs).2 + 1 ≤ (identLike cs).2 := by
  rw [identLike_eq, if_pos h]
  split
  · split
    · exact Nat.le_add_right ..
    · exact Nat.le_refl _
  · exact Nat.le_refl _

/-- Names with what follows them are read alike, but for an address that needs to know the end. -/
theorem identLike_agree (h : Akin w r r')
    (he : (r = [] ↔ r' = []) ∨
      (identLike (w ++ r)).1.isLocal = true ∧ (identLike (w ++ r')).1.isLocal = true)
    (hn : (identLike (w ++ r)).2 ≤ w.length) (hn' : (identLike (w ++ r')).2 ≤ w.length) :
    identLike (w ++ r') = identLike (w ++ r) := by
  have hname := Nat.le_trans (name_le_identLike _) hn
  have hagree := name_agree h hname (Nat.le_trans (name_le_identLike _) hn')
  have hlen := List.length_drop (l := w) (i := (name (w ++ r)).2)
  have hopen : startsWith (· = '(') ((w ++ r').drop (name (w ++ r)).2) =
      startsWith (· = '(') ((w ++ r).drop (name (w ++ r)).2) := by
    have hle {k : List Char} (hk : (identLike (w ++ k)).2 ≤ w.length)
        (hnk : name (w ++ k) = name (w ++ r))
        (hs : startsWith (· = '(') (w.drop (name (w ++ r)).2 ++ k) = true) :
        1 ≤ (w.drop (name (w ++ r)).2).length := by
      rw [← List.drop_append_of_le_length hname, ← hnk] at hs
      have := Nat.le_trans (open_le hs) hk
      rw [hnk] at this
      omega
    rw [List.drop_append_of_le_length hname, List.drop_append_of_le_length hname]
    exact startsWith_agree (hle hn rfl) (hle hn' hagree)
  rw [identLike_eq, identLike_eq (w ++ r), hagree, hopen]
  rw [identLike_eq, identLike_eq (w ++ r'), hagree, hopen] at he
  rw [identLike_eq] at hn
  rw [identLike_eq, hagree, hopen] at hn'
  split
  · rename_i hs
    rw [if_pos hs] at he hn hn'
    split
    · rename_i hu
      rw [if_pos hu] at he hn hn'
      have he : r = [] ↔ r' = [] := he.resolve_right fun hl => by
        have hl := hl.1
        split at hl
        · rename_i kind n hq
          simp [unquotedUrl?_isLocal hq] at hl
        · simp [Kind.isLocal, hu] at hl
      have hk : (name (w ++ r)).2 + 1 ≤ w.length := by
        split at hn
        · simp only at hn
          omega
        · exact hn
      have hlen := List.length_drop (l := w) (i := (name (w ++ r)).2 + 1)
      rw [List.drop_append_of_le_length hk] at hn hn' ⊢
      rw [List.drop_append_of_le_length hk]
      have hle {k : List Char} (hb : (match unquotedUrl? (w.drop ((name (w ++ r)).2 + 1) ++ k) with
            | some (kind, n) => (kind, (name (w ++ r)).2 + 1 + n)
            | none => (.function (String.ofList (name (w ++ r)).1), (name (w ++ r)).2 + 1)).2 ≤
            w.length) (kind : Kind) (n : Nat)
          (hq : unquotedUrl? (w.drop ((name (w ++ r)).2 + 1) ++ k) = some (kind, n)) :
          n ≤ (w.drop ((name (w ++ r)).2 + 1)).length := by
        rw [hq] at hb
        simp only at hb
        omega
      rw [unquotedUrl?_agree he (hle hn) (hle hn')]
    · rfl
  · rfl

/-! ## Symbols -/

private theorem named_agree {kind : String → Kind} (h : Akin w r r')
    (hn : (named kind (w ++ r)).2 ≤ w.length) (hn' : (named kind (w ++ r')).2 ≤ w.length) :
    named kind (w ++ r') = named kind (w ++ r) := by
  rw [named, named, name_agree h hn hn']

theorem beyond_le {x : Kind × Nat} {n : Nat} (h : (beyond x).2 ≤ n) : x.2 ≤ n + 1 := by
  simp only [beyond] at h
  omega

private theorem beyond_numeric_agree (h : Akin (c :: w) r r')
    (hn : (beyond (numeric (c :: (w ++ r)))).2 ≤ w.length)
    (hn' : (beyond (numeric (c :: (w ++ r')))).2 ≤ w.length) :
    beyond (numeric (c :: (w ++ r'))) = beyond (numeric (c :: (w ++ r))) :=
  congrArg beyond (numeric_agree (w := c :: w) h (beyond_le hn) (beyond_le hn'))

private theorem beyond_identLike_agree (h : Akin (c :: w) r r')
    (he : (r = [] ↔ r' = []) ∨ (beyond (identLike (c :: (w ++ r)))).1.isLocal = true ∧
      (beyond (identLike (c :: (w ++ r')))).1.isLocal = true)
    (hn : (beyond (identLike (c :: (w ++ r)))).2 ≤ w.length)
    (hn' : (beyond (identLike (c :: (w ++ r')))).2 ≤ w.length) :
    beyond (identLike (c :: (w ++ r'))) = beyond (identLike (c :: (w ++ r))) :=
  congrArg beyond (identLike_agree (w := c :: w) h he (beyond_le hn) (beyond_le hn'))

/-- A text that starts with a digit or a hyphen starts with a character of a name. -/
private theorem name_pos {cs : List Char} (h : startsWith (fun d => d.isDigit || d = '-') cs = true) :
    1 ≤ (name cs).2 := by
  cases cs with
  | nil => simp [startsWith] at h
  | cons c cs =>
    have hc : isNameChar c = true := by
      simp only [startsWith, List.head?_cons, Option.any_some, Bool.or_eq_true,
        decide_eq_true_eq] at h
      simp only [isNameChar, Bool.or_eq_true, decide_eq_true_eq]
      exact h.imp_left .inr
    rw [name_cons_of_isNameChar hc]
    exact Nat.succ_pos _

/-- Readings of `w ++ r` and of `w ++ r'` that end inside of `w`, and need not know the end of the text
unless it is the same for both. -/
private structure Within (w r r' : List Char) (x x' : Kind × Nat) : Prop where
  ends : (r = [] ↔ r' = []) ∨ x.1.isLocal = true ∧ x'.1.isLocal = true
  left : x.2 ≤ w.length
  right : x'.2 ≤ w.length

/-- A choice between two readings that depends on a test of the text behind. -/
private theorem choice_agree {b b' : Bool} {x y x' y' : Kind × Nat}
    (h : Within w r r' (if b = true then x else y) (if b' = true then x' else y'))
    (hb : (b = true → x.2 ≤ w.length) → (b' = true → x'.2 ≤ w.length) → b' = b)
    (hx : Within w r r' x x' → x' = x) (hy : Within w r r' y y' → y' = y) :
    (if b' = true then x' else y') = if b = true then x else y := by
  obtain rfl : b' = b := by
    refine hb (fun h1 => ?_) fun h1 => ?_
    · simpa [h1] using h.left
    · simpa [h1] using h.right
  cases b' with
  | true => exact hx h
  | false => exact hy h

/-- A backslash starts a name unless a line ends behind it. -/
private theorem backslash_agree (he : r = [] ↔ r' = []) (h : Akin ('\\' :: w) r r')
    (hn : (symbol '\\' (w ++ r)).2 ≤ w.length) (hn' : (symbol '\\' (w ++ r')).2 ≤ w.length) :
    symbol '\\' (w ++ r') = symbol '\\' (w ++ r) := by
  have hsym (k : List Char) : symbol '\\' k =
      if startsWith isNewline k then (.delim '\\', 0) else beyond (identLike ('\\' :: k)) := rfl
  cases w with
  | nil =>
    have hs {k : List Char} (hk : k ≠ []) (hn : (symbol '\\' k).2 ≤ 0) :
        symbol '\\' k = (.delim '\\', 0) := by
      rw [hsym] at hn ⊢
      split
      · rfl
      · rename_i hnl
        rw [if_neg hnl] at hn
        have hl := Nat.le_trans (name_le_identLike _) (beyond_le hn)
        exact absurd (eq_nil_of_name (by simpa using hnl) hl) hk
    by_cases hr : r = []
    · rw [hr, he.1 hr]
    · exact (hs (fun hr' => hr (he.2 hr')) hn').trans (hs hr hn).symm
  | cons d w =>
    have hd (k : List Char) : startsWith isNewline (d :: w ++ k) = isNewline d := rfl
    rw [hsym, hd] at hn hn' ⊢
    rw [hsym, hd]
    split
    · rfl
    · rename_i hnl
      rw [if_neg hnl] at hn hn'
      exact beyond_identLike_agree h (.inl he) hn hn'

/-- A symbol is read alike if both readings end inside of `w`. -/
theorem symbol_agree (h : Akin (c :: w) r r') (he : (r = [] ↔ r' = []) ∨
      (symbol c (w ++ r)).1.isLocal = true ∧ (symbol c (w ++ r')).1.isLocal = true)
    (hn : (symbol c (w ++ r)).2 ≤ w.length) (hn' : (symbol c (w ++ r')).2 ≤ w.length) :
    symbol c (w ++ r') = symbol c (w ++ r) := by
  have hw : Akin w r r' := h.mono fun _ => List.mem_cons_of_mem _
  have hin : Within w r r' (symbol c (w ++ r)) (symbol c (w ++ r')) := ⟨he, hn, hn'⟩
  clear hn hn' he
  by_cases hc : c = '\\'
  · subst hc
    exact backslash_agree (h.ends.resolve_left (by simp)) h hin.left hin.right
  unfold symbol at hin ⊢
  split at hin
  case h_10 =>
    refine choice_agree hin (startsIdent_agree hw) (fun hx => named_agree hw hx.left hx.right) ?_
    intro hin
    refine choice_agree hin (fun hb hb' => ?_) (fun hx => named_agree hw hx.left hx.right)
      fun _ => rfl
    exact startsWith_agree (fun hs => Nat.le_trans (name_pos hs) (hb hs))
      fun hs => Nat.le_trans (name_pos hs) (hb' hs)
  case h_11 =>
    exact choice_agree hin (startsIdent_agree hw) (fun hx => named_agree hw hx.left hx.right)
      fun _ => rfl
  case h_12 =>
    exact choice_agree hin (fun hb hb' => startsNumber_agree (.inl rfl)
      (fun hs => beyond_le (hb hs)) fun hs => beyond_le (hb' hs))
      (fun hx => beyond_numeric_agree h hx.left hx.right) fun _ => rfl
  case h_13 =>
    refine choice_agree hin (fun hb hb' => startsNumber_agree (.inr rfl)
      (fun hs => beyond_le (hb hs)) fun hs => beyond_le (hb' hs))
      (fun hx => beyond_numeric_agree h hx.left hx.right) fun hin => ?_
    refine choice_agree hin isPrefixOf_agree (fun _ => rfl) fun hin => ?_
    refine choice_agree hin (fun hb hb' => ?_)
      (fun hx => beyond_identLike_agree h hx.ends hx.left hx.right) fun _ => rfl
    exact startsIdent_agree (w := '-' :: w) h
      (fun hs => Nat.le_trans (name_le_identLike _) (beyond_le (hb hs)))
      fun hs => Nat.le_trans (name_le_identLike _) (beyond_le (hb' hs))
  case h_14 =>
    refine choice_agree hin (fun hb hb' => ?_)
      (fun hx => beyond_numeric_agree h hx.left hx.right) fun _ => rfl
    have hpos {k : List Char} (hk : startsNumber ('.' :: k) = true →
        (beyond (numeric ('.' :: k))).2 ≤ w.length) (hs : startsWith Char.isDigit k = true) :
        1 ≤ w.length := by
      have hl := beyond_le (hk (by simp [startsNumber, hs]))
      cases k with
      | nil => simp [startsWith] at hs
      | cons d k =>
        have hp := (point_le_numeral (.inl rfl) (d := d) (by simpa [startsWith] using hs) k).1
        have := numeral_le_numeric ('.' :: d :: k)
        omega
    simp [startsNumber, startsWith_agree (hpos hb) (hpos hb')]
  case h_15 =>
    refine choice_agree hin (fun hb hb' => ?_) (fun hx => ?_) fun _ => rfl
    · exact startsWith_agree (fun hs => Nat.le_trans (Nat.le_add_left ..) (hb hs))
        fun hs => Nat.le_trans (Nat.le_add_left ..) (hb' hs)
    · obtain ⟨-, hl, hl'⟩ := hx
      simp only at hl hl' ⊢
      have hw1 : 1 ≤ w.length := by omega
      have hlen := List.length_drop (l := w) (i := 1)
      rw [List.drop_append_of_le_length hw1] at hl hl' ⊢
      rw [List.drop_append_of_le_length hw1]
      rw [comment_agree (w := w.drop 1) (r := r) (by omega) (by omega)]
  case h_16 => exact choice_agree hin isPrefixOf_agree (fun _ => rfl) fun _ => rfl
  case h_17 => exact absurd rfl hc
  case h_18 | h_19 | h_20 | h_21 | h_22 =>
    exact choice_agree hin startsWith_agree (fun _ => rfl) fun _ => rfl
  all_goals rfl

/-! ## Tokens -/

/-- The first character of a text says which scanner reads it. -/
theorem scan_cases (c : Char) :
    (isBlank c = true ∧ ∀ cs, scan c cs = (.whitespace, (cs.takeWhile isBlank).length)) ∨
      ((c = '"' ∨ c = '\'') ∧ ∀ cs, scan c cs =
        ((if (quoted c cs).1.2 then Kind.string else Kind.badString)
          (String.ofList (quoted c cs).1.1), (quoted c cs).2)) ∨
      (isNameStart c = true ∧ ∀ cs, scan c cs = beyond (identLike (c :: cs))) ∨
      (∀ cs, scan c cs = beyond (numeric (c :: cs))) ∨ ∀ cs, scan c cs = symbol c cs := by
  by_cases hb : isBlank c = true
  · exact .inl ⟨hb, fun cs => by rw [scan, if_pos hb]⟩
  by_cases hq : c = '"' ∨ c = '\''
  · exact .inr (.inl ⟨hq, fun cs => by rw [scan, if_neg hb, if_pos hq]⟩)
  by_cases hs : isNameStart c = true
  · exact .inr (.inr (.inl ⟨hs, scan_of_isNameStart hs⟩))
  by_cases hd : c.isDigit = true
  · exact .inr (.inr (.inr (.inl fun cs => by
      rw [scan, if_neg hb, if_neg hq, if_neg hs, if_pos hd])))
  · exact .inr (.inr (.inr (.inr fun cs => by
      rw [scan, if_neg hb, if_neg hq, if_neg hs, if_neg hd])))

/-- Two texts `w ++ r` and `w ++ r'` start with the same token if their first tokens end inside of
`w`. -/
theorem scan_agree (h : Akin (c :: w) r r') (he : (r = [] ↔ r' = []) ∨
      (scan c (w ++ r)).1.isLocal = true ∧ (scan c (w ++ r')).1.isLocal = true)
    (hn : (scan c (w ++ r)).2 ≤ w.length) (hn' : (scan c (w ++ r')).2 ≤ w.length) :
    scan c (w ++ r') = scan c (w ++ r) := by
  rcases scan_cases c with ⟨-, hs⟩ | ⟨hq, hs⟩ | ⟨-, hs⟩ | hs | hs <;> rw [hs] at hn hn' he ⊢ <;>
    rw [hs]
  · rw [takeWhile_agree hn hn']
  · have he : r = [] ↔ r' = [] := he.resolve_right fun hl => by
      have hl := hl.1
      split at hl <;> simp [Kind.isLocal] at hl
    have hne : c ≠ '\\' := by
      rintro rfl
      simp at hq
    rw [quoted_agree hne he hn hn']
  · rw [hs] at he
    exact beyond_identLike_agree h he hn hn'
  · exact beyond_numeric_agree h hn hn'
  · rw [hs] at he
    exact symbol_agree h he hn hn'

end SheetDiff.Css
