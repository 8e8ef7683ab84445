import SheetDiff.Proofs.Css.Joined

/-!
# Lines of tokens

No token ends between a carriage return and the line feed behind it (`scan_cutsWhole`), so the line
breaks of a text are those of its tokens (`Reads.lineBreaks`), and a token of a text stands on the
line that the text before it gives (`line_of_tokens`).
-/

namespace SheetDiff.Css

variable {c : Char} {cs ds k : List Char} {m n line : Nat} {t : Token} {ts us : List Token}

/-! ## Cuts between line breaks -/

/-- The first `n` characters of a text do not end inside a line break of two characters. -/
def CutsWhole (cs : List Char) (n : Nat) : Prop :=
  (cs.take n).getLast? = some '\r' → (cs.drop n).head? ≠ some '\n'

theorem cutsWhole_zero (cs : List Char) : CutsWhole cs 0 := by simp [CutsWhole]

theorem cutsWhole_of_drop (h : cs.drop n = []) : CutsWhole cs n := by simp [CutsWhole, h]

/-- What is taken in two steps is cut as the second step cuts. -/
theorem CutsWhole.add (hm : CutsWhole cs m) (hn : CutsWhole (cs.drop m) n) :
    CutsWhole cs (m + n) := by
  intro hlast
  rw [List.take_add] at hlast
  rw [← List.drop_drop]
  by_cases hne : (cs.drop m).take n = []
  · rw [hne, List.append_nil] at hlast
    rcases List.take_eq_nil_iff.1 hne with rfl | hnil
    · exact hm hlast
    · simp [hnil]
  · rw [List.getLast?_append_of_ne_nil _ hne] at hlast
    exact hn hlast

theorem cutsWhole_one (h : c ≠ '\r') : CutsWhole (c :: cs) 1 := by simp [CutsWhole, h]

/-- A cut behind another character in front. -/
theorem CutsWhole.cons (h : CutsWhole cs n) (hc : c ≠ '\r') : CutsWhole (c :: cs) (n + 1) := by
  rw [Nat.add_comm]
  exact (cutsWhole_one hc).add h

/-- A cut behind a character other than the carriage return. -/
theorem cutsWhole_succ (hd : cs.drop n = c :: ds) (hc : c ≠ '\r') : CutsWhole cs (n + 1) := by
  have htake : cs.take (n + 1) = cs.take n ++ [c] := by simp [List.take_add, hd]
  intro hlast
  rw [htake, List.getLast?_concat] at hlast
  exact absurd (Option.some.inj hlast) hc

theorem cutsWhole_of_startsWith {p : Char → Bool} (hs : startsWith p (cs.drop n) = true)
    (hp : p '\r' = false) : CutsWhole cs (n + 1) := by
  cases hd : cs.drop n with
  | nil => simp [hd, startsWith] at hs
  | cons c ds =>
    refine cutsWhole_succ hd ?_
    rintro rfl
    simp [hd, startsWith, hp] at hs

/-- A cut behind characters other than the carriage return. -/
theorem cutsWhole_of_starts (h : ds <+: cs) (hr : '\r' ∉ ds) : CutsWhole cs ds.length := by
  intro hlast
  rw [← List.prefix_iff_eq_take.1 h] at hlast
  exact absurd (List.mem_of_getLast? hlast) hr

theorem not_mem_takeWhile {p : Char → Bool} (hp : p c = false) (cs : List Char) :
    c ∉ cs.takeWhile p := by
  intro hc
  have := List.all_eq_true.1 (List.all_takeWhile (p := p) (l := cs)) c hc
  simp [hp] at this

theorem cutsWhole_digits (cs : List Char) : CutsWhole cs (cs.takeWhile Char.isDigit).length :=
  cutsWhole_of_starts (List.takeWhile_prefix _) (not_mem_takeWhile (by decide) cs)

/-- A cut behind blanks. -/
theorem cutsWhole_blanks (cs : List Char) : CutsWhole cs (cs.takeWhile isBlank).length := by
  intro _ hhead
  rw [drop_length_takeWhile] at hhead
  have hblank := List.head?_dropWhile_not isBlank cs
  rw [hhead] at hblank
  exact absurd hblank (by decide)

/-! ## Scanners cut between line breaks -/

theorem newlineLength_cutsWhole (cs : List Char) : CutsWhole cs (newlineLength cs) := by
  unfold newlineLength
  split
  · simp [CutsWhole]
  · rename_i c ds hno
    split
    · intro hlast hhead
      obtain rfl : c = '\r' := by simpa using hlast
      cases ds with
      | nil => simp at hhead
      | cons d ds =>
        obtain rfl : d = '\n' := by simpa using hhead
        exact hno ds rfl rfl
    · exact cutsWhole_zero _
  · exact cutsWhole_zero _

theorem blankLength_cutsWhole (cs : List Char) : CutsWhole cs (blankLength cs) := by
  unfold blankLength
  split
  · exact newlineLength_cutsWhole cs
  · rename_i hn
    split
    · rename_i hb
      obtain ⟨c, ds, rfl⟩ : ∃ c ds, cs = c :: ds := by
        cases cs with
        | nil => simp [startsWith] at hb
        | cons c ds => exact ⟨c, ds, rfl⟩
      refine cutsWhole_one ?_
      rintro rfl
      simp [startsWith, isNewline] at hn
    · exact cutsWhole_zero _

theorem escape_cutsWhole (h : startsWith isNewline cs = false) : CutsWhole cs (escape cs).2 := by
  unfold escape
  simp only
  generalize hdigits : (cs.take 6).takeWhile (fun c => (Text.hexDigit? c).isSome) = digits
  split
  · cases cs with
    | nil => exact cutsWhole_zero _
    | cons c ds =>
      refine cutsWhole_one ?_
      rintro rfl
      simp [startsWith, isNewline] at h
  · have hprefix : digits <+: cs :=
      hdigits ▸ (List.takeWhile_prefix _).trans (List.take_prefix 6 cs)
    have hr : '\r' ∉ digits := hdigits ▸ not_mem_takeWhile (by decide) _
    exact (cutsWhole_of_starts hprefix hr).add (blankLength_cutsWhole _)

theorem name_cutsWhole (cs : List Char) : CutsWhole cs (name cs).2 := by
  fun_induction name cs with
  | case1 => exact cutsWhole_zero _
  | case2 c cs h rest n hn ih =>
    refine CutsWhole.cons (by simpa [hn] using ih) ?_
    rintro rfl
    exact absurd h (by decide)
  | case3 c cs h h' d k hk rest n hn ih =>
    obtain ⟨rfl, hnew⟩ := h'
    have he : CutsWhole cs k := by
      have he : CutsWhole cs (escape cs).2 := escape_cutsWhole (by simpa using hnew)
      rwa [hk] at he
    rw [Nat.add_assoc, Nat.add_comm]
    refine CutsWhole.cons (he.add (by simpa [hn] using ih)) (by decide)
  | case4 => exact cutsWhole_zero _

theorem quoted_cutsWhole {quote : Char} (hq : quote ≠ '\r') (cs : List Char) :
    CutsWhole cs (quoted quote cs).2 := by
  fun_induction quoted quote cs with
  | case1 => exact cutsWhole_zero _
  | case2 => exact cutsWhole_one hq
  | case3 => exact cutsWhole_zero _
  | case4 cs h1 rest n hn h2 h3 ih =>
    rw [Nat.add_assoc, Nat.add_comm]
    exact CutsWhole.cons ((newlineLength_cutsWhole cs).add (by simpa [hn] using ih)) (by decide)
  | case5 cs => exact cutsWhole_one (by decide)
  | case6 cs h1 h2 d k hk rest whole n hn h3 h4 ih =>
    have he : CutsWhole cs k := by
      have he : CutsWhole cs (escape cs).2 := escape_cutsWhole (by simpa using h1)
      rwa [hk] at he
    rw [Nat.add_assoc, Nat.add_comm]
    exact CutsWhole.cons (he.add (by simpa [hn] using ih)) (by decide)
  | case7 c cs h1 h2 h3 rest whole n hn ih =>
    refine CutsWhole.cons (by simpa [hn] using ih) ?_
    rintro rfl
    exact absurd h2 (by decide)

theorem comment_cutsWhole (cs : List Char) : CutsWhole cs (comment cs).2 := by
  obtain ⟨-, ⟨rest, hcs, hn⟩ | ⟨hcs, hn⟩⟩ := comment_spec cs
  · generalize (comment cs).1 = text at hcs hn
    have hslash : cs.drop (text.length + 1) = '/' :: rest := by
      rw [← List.drop_drop, hcs, List.drop_left]
      rfl
    rw [hn]
    exact cutsWhole_succ hslash (by decide)
  · refine cutsWhole_of_drop ?_
    rw [hn, ← hcs, List.drop_length]

theorem addressEnd_cutsWhole (cs : List Char) : CutsWhole cs (addressEnd cs).2 := by
  have hblanks := cutsWhole_blanks cs
  unfold addressEnd
  simp only
  split
  · exact hblanks
  · rename_i c ds hd
    have hc : c ≠ '\r' := by
      rintro rfl
      rw [drop_length_takeWhile] at hd
      have hblank := List.head?_dropWhile_not isBlank cs
      rw [hd] at hblank
      simp [isBlank, isNewline] at hblank
    split <;> exact cutsWhole_succ hd hc

theorem address_cutsWhole (cs : List Char) : CutsWhole cs (address cs).2 := by
  fun_induction address cs with
  | case1 => exact cutsWhole_zero _
  | case2 c cs h => exact addressEnd_cutsWhole _
  | case3 => exact cutsWhole_one (by decide)
  | case4 c cs hb =>
    refine cutsWhole_one ?_
    rintro rfl
    exact absurd hb (by decide)
  | case5 => exact cutsWhole_one (by decide)
  | case6 cs h1 d k hk rest n hn h2 h3 h4 ih =>
    have he : CutsWhole cs k := by
      have he : CutsWhole cs (escape cs).2 := escape_cutsWhole (by simpa using h1)
      rwa [hk] at he
    rw [Nat.add_assoc, Nat.add_comm]
    exact CutsWhole.cons (he.add (by simpa [hn] using ih)) (by decide)
  | case7 c cs h1 h2 h3 h4 rest n hn ih =>
    refine CutsWhole.cons (by simpa [hn] using ih) ?_
    rintro rfl
    exact absurd h1 (by decide)

theorem drop_spoilt (cs : List Char) :
    cs.drop (spoilt cs).length = [] ∨ ∃ ds, cs.drop (spoilt cs).length = ')' :: ds := by
  fun_induction spoilt cs with
  | case1 => simp
  | case2 => simp
  | case3 => simp
  | case4 d ds => exact .inr ⟨d :: ds, rfl⟩
  | case5 c d ds hc hd ih => simpa using ih
  | case6 c d ds hc hd ih => simpa using ih

theorem unquotedUrl?_cutsWhole {kind : Kind} (h : unquotedUrl? cs = some (kind, n)) :
    CutsWhole cs n := by
  unfold unquotedUrl? at h
  simp only at h
  have hblanks := cutsWhole_blanks cs
  generalize (cs.takeWhile isBlank).length = k at h hblanks
  split at h
  · simp at h
  · split at h
    · rename_i text m hm
      obtain ⟨-, rfl⟩ : kind = _ ∧ n = k + m := by simpa [eq_comm] using h
      have := address_cutsWhole (cs.drop k)
      rw [hm] at this
      exact hblanks.add this
    · rename_i m hm
      have hlength : ((cs.drop k).take m ++ spoilt ((cs.drop k).drop m)).length =
          m + (spoilt ((cs.drop k).drop m)).length := by
        have := address_le (cs.drop k)
        rw [hm] at this
        rw [List.length_append, List.length_take_of_le this]
      generalize (cs.drop k).take m ++ spoilt ((cs.drop k).drop m) = contents at h hlength
      have hend := drop_spoilt ((cs.drop k).drop m)
      rw [List.drop_drop, ← hlength, List.drop_drop] at hend
      obtain ⟨-, rfl⟩ : kind = _ ∧
          n = k + contents.length + (startsWith (· = ')') ((cs.drop k).drop contents.length)).toNat := by
        simpa [eq_comm] using h
      rw [List.drop_drop]
      -- the closing bracket, if there is one, is taken as well
      rcases hend with hend | ⟨ds, hend⟩
      · exact cutsWhole_of_drop (by simp [hend, startsWith])
      · rw [hend]
        exact cutsWhole_succ hend (by decide)

theorem exponent?_cutsWhole {e : Bool × List Char} (h : exponent? cs = some (e, n)) :
    CutsWhole cs n := by
  unfold exponent? at h
  split at h
  · simp at h
  · rename_i c ds
    split at h
    · rename_i hc
      simp only at h
      generalize hs : startsWith (fun c => c = '+' || c = '-') ds = signed at h
      have hsigned : CutsWhole ds signed.toNat := by
        cases signed with
        | false => exact cutsWhole_zero _
        | true => exact cutsWhole_of_startsWith (n := 0) hs (by decide)
      split at h
      · simp at h
      · obtain rfl : n = 1 + signed.toNat + ((ds.drop signed.toNat).takeWhile Char.isDigit).length := by
          simpa [eq_comm] using (Prod.mk.inj (Option.some.inj h)).2
        have hcr : c ≠ '\r' := by
          rintro rfl
          simp at hc
        rw [Nat.add_assoc]
        exact (cutsWhole_one hcr).add (hsigned.add (cutsWhole_digits _))
    · simp at h

private theorem sign_cutsWhole (cs : List Char) :
    CutsWhole cs (if (cs.head?.filter fun c => c = '+' || c = '-').isSome then 1 else 0) := by
  cases cs with
  | nil => exact cutsWhole_zero _
  | cons c cs =>
    split
    · rename_i hs
      refine cutsWhole_one ?_
      rintro rfl
      simp at hs
    · exact cutsWhole_zero _

private theorem fraction_cutsWhole (cs : List Char) :
    CutsWhole cs (if (fractionDigits cs).isEmpty then 0 else 1 + (fractionDigits cs).length) := by
  split
  · exact cutsWhole_zero _
  · unfold fractionDigits at *
    split
    · exact (cutsWhole_one (by decide)).add (cutsWhole_digits _)
    · simp_all

theorem numeral_cutsWhole (cs : List Char) : CutsWhole cs (numeral cs).2 := by
  have hs := sign_cutsWhole cs
  unfold numeral
  simp only
  generalize (if (cs.head?.filter fun c => c = '+' || c = '-').isSome then 1 else 0) = s at hs
  have hw := hs.add (cutsWhole_digits (cs.drop s))
  generalize ((cs.drop s).takeWhile Char.isDigit).length = w at hw
  have hk := hw.add (fraction_cutsWhole (cs.drop (s + w)))
  split
  · rename_i e n he
    exact hk.add (exponent?_cutsWhole he)
  · exact hk

theorem numeric_cutsWhole (cs : List Char) : CutsWhole cs (numeric cs).2 := by
  have hk := numeral_cutsWhole cs
  unfold numeric
  simp only
  split
  · rename_i h
    exact cutsWhole_of_startsWith h (by decide)
  · split
    · exact hk.add (name_cutsWhole _)
    · exact hk

theorem identLike_cutsWhole (cs : List Char) : CutsWhole cs (identLike cs).2 := by
  have hk := name_cutsWhole cs
  unfold identLike
  simp only
  split
  · rename_i h
    have hopen : CutsWhole cs ((name cs).2 + 1) := cutsWhole_of_startsWith h (by decide)
    split
    · split
      · rename_i kind n hu
        exact hopen.add (unquotedUrl?_cutsWhole hu)
      · exact hopen
    · exact hopen
  · exact hk

/-- A cut as it is counted from the second character. -/
theorem beyond_cutsWhole {r : Kind × Nat} (h : CutsWhole (c :: cs) r.2) (hc : c ≠ '\r') :
    CutsWhole (c :: cs) ((beyond r).2 + 1) := by
  rcases Nat.eq_zero_or_pos r.2 with hr | hr
  · rw [beyond, hr]
    exact cutsWhole_one hc
  · rwa [beyond, Nat.sub_add_cancel hr]

private theorem ite_cutsWhole {p : Prop} [Decidable p] {a b : Kind × Nat}
    (ha : p → CutsWhole cs (a.2 + 1)) (hb : CutsWhole cs (b.2 + 1)) :
    CutsWhole cs ((if p then a else b).2 + 1) := by
  split
  · exact ha ‹p›
  · exact hb

/-- A cut behind what a text starts with. -/
private theorem isPrefixOf_cutsWhole (h : ds.isPrefixOf cs = true) (hr : '\r' ∉ ds) :
    CutsWhole cs ds.length :=
  cutsWhole_of_starts (List.isPrefixOf_iff_prefix.1 h) hr

theorem symbol_cutsWhole (hc : c ≠ '\r') (cs : List Char) :
    CutsWhole (c :: cs) ((symbol c cs).2 + 1) := by
  have hz : CutsWhole (c :: cs) (0 + 1) := cutsWhole_one hc
  have hnamed (kind : String → Kind) : CutsWhole (c :: cs) ((named kind cs).2 + 1) :=
    (name_cutsWhole cs).cons hc
  have hident : CutsWhole (c :: cs) ((beyond (identLike (c :: cs))).2 + 1) :=
    beyond_cutsWhole (identLike_cutsWhole _) hc
  have hnumber : CutsWhole (c :: cs) ((beyond (numeric (c :: cs))).2 + 1) :=
    beyond_cutsWhole (numeric_cutsWhole _) hc
  unfold symbol
  split
  case h_10 => exact ite_cutsWhole (fun _ => hnamed _) (ite_cutsWhole (fun _ => hnamed _) hz)
  case h_11 => exact ite_cutsWhole (fun _ => hnamed _) hz
  case h_12 => exact ite_cutsWhole (fun _ => hnumber) hz
  case h_13 =>
    exact ite_cutsWhole (fun _ => hnumber) <|
      ite_cutsWhole (fun h => (isPrefixOf_cutsWhole h (by decide)).cons hc) <|
        ite_cutsWhole (fun _ => hident) hz
  case h_14 => exact ite_cutsWhole (fun _ => hnumber) hz
  case h_15 =>
    refine ite_cutsWhole (fun h => ?_) hz
    have hstar : CutsWhole cs 1 := cutsWhole_of_startsWith (n := 0) h (by decide)
    have := (hstar.add (comment_cutsWhole (cs.drop 1))).cons hc
    rwa [Nat.add_comm 1] at this
  case h_16 => exact ite_cutsWhole (fun h => (isPrefixOf_cutsWhole h (by decide)).cons hc) hz
  case h_17 => exact ite_cutsWhole (fun _ => hz) hident
  case h_18 | h_19 | h_20 | h_21 | h_22 =>
    exact ite_cutsWhole (fun h => (cutsWhole_of_startsWith (n := 0) h (by decide)).cons hc) hz
  all_goals exact hz

/-- No token ends inside a line break. -/
theorem scan_cutsWhole (c : Char) (cs : List Char) : CutsWhole (c :: cs) ((scan c cs).2 + 1) := by
  unfold scan
  split
  · rename_i hb
    have h := cutsWhole_blanks (c :: cs)
    rwa [List.takeWhile_cons, if_pos hb] at h
  · rename_i hb
    have hc : c ≠ '\r' := by
      rintro rfl
      exact hb (by decide)
    split
    · rename_i hq
      exact (quoted_cutsWhole hc cs).cons hc
    split
    · exact beyond_cutsWhole (identLike_cutsWhole _) hc
    split
    · exact beyond_cutsWhole (numeric_cutsWhole _) hc
    · exact symbol_cutsWhole hc cs

/-! ## Lines -/

/-- A token and what follows it in its text do not share a line break. -/
theorem ReadsOne.cutsWhole (h : ReadsOne t k) :
    t.source.getLast? = some '\r' → k.head? ≠ some '\n' := by
  obtain ⟨c, cs, hsource, hs⟩ := h
  have hcut := scan_cutsWhole c (cs ++ k)
  rw [hs] at hcut
  simpa [CutsWhole, hsource] using hcut

/-- The line breaks of a text are those of its tokens. -/
theorem Reads.lineBreaks (h : Reads ts k) : Text.lineBreaks (sourceOf ts) = breaksIn ts := by
  induction ts with
  | nil => rfl
  | cons t ts ih =>
    rw [sourceOf_cons, breaksIn_cons, Text.lineBreaks_append, ih h.2]
    by_cases hr : t.source.getLast? = some '\r'
    · right
      have hhead := h.1.cutsWhole hr
      cases hs : sourceOf ts with
      | nil => simp
      | cons c cs => simpa [hs] using hhead
    · exact .inl hr

/-- A token stands below the line breaks of the tokens before it. -/
theorem line_of_tokensFrom (h : tokensFrom line cs = ts ++ t :: us) : t.line = line + breaksIn ts := by
  induction ts generalizing line cs with
  | nil =>
    cases cs with
    | nil => simp [tokensFrom] at h
    | cons c cs =>
      rw [tokensFrom] at h
      exact (congrArg Token.line (List.cons.inj h).1).symm
  | cons u ts ih =>
    cases cs with
    | nil => simp [tokensFrom] at h
    | cons c cs =>
      rw [tokensFrom, List.cons_append] at h
      obtain ⟨rfl, hrest⟩ := List.cons.inj h
      rw [ih hrest, breaksIn_cons, Nat.add_assoc]

/-- A token of a text stands on the line that the text before it gives. -/
theorem line_of_tokens (h : tokens cs = ts ++ t :: us) :
    t.line = 1 + Text.lineBreaks (sourceOf ts) := by
  have hr : Reads ts (sourceOf (t :: us)) := by
    have hreads := reads_tokens cs
    rw [h, reads_append, List.append_nil] at hreads
    exact hreads.1
  rw [hr.lineBreaks]
  exact line_of_tokensFrom h

end SheetDiff.Css
