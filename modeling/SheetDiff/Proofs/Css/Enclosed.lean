import SheetDiff.Proofs.Css.Local

/-!
# Strings, comments and addresses

Tokens that hold white space end with a delimiter. A closed string, comment or address is its
contents between its delimiters (`quoted_closed`, `comment_closed`, `unquotedUrl?_closed`), and any
contents of the same characters are read alike, whatever follows (`quoted_enclosed`,
`comment_enclosed`, `unquotedUrl?_enclosed`).
-/

namespace SheetDiff.Css

variable {q : Char} {v w k body : List Char} {text : List Char}

/-- What a run of characters leaves. -/
theorem drop_length_takeWhile (p : Char → Bool) (cs : List Char) :
    cs.drop (cs.takeWhile p).length = cs.dropWhile p := by
  induction cs with
  | nil => rfl
  | cons c cs ih =>
    by_cases hc : p c = true
    · simp [hc, ih]
    · simp [hc]

/-! ## Strings -/

/-- What a string holds between its quotes. -/
def QuotedChars (q : Char) (body : List Char) : Prop :=
  ∀ c ∈ body, c ≠ q ∧ isNewline c = false ∧ c ≠ '\\'

theorem quoted_enclosed (h : QuotedChars q body) (k : List Char) :
    quoted q (body ++ q :: k) = ((body.map denoted, true), body.length + 1) := by
  induction body with
  | nil => simp [quoted]
  | cons c body ih =>
    obtain ⟨hq, hn, hb⟩ := h c (by simp)
    have ih := ih fun d hd => h d (by simp [hd])
    rw [List.cons_append, quoted, if_neg hq, if_neg (by simp [hn]), if_neg hb, ih]
    rfl

theorem quoted_closed (hb : '\\' ∉ w) (hq : w.getLast? = some q)
    (h : quoted q (w ++ k) = ((text, true), w.length)) :
    ∃ body, w = body ++ [q] ∧ QuotedChars q body ∧ text = body.map denoted := by
  induction w generalizing text with
  | nil => simp at hq
  | cons c w ih =>
    obtain ⟨hc, hb⟩ : c ≠ '\\' ∧ '\\' ∉ w := by simpa [eq_comm] using hb
    rw [List.cons_append, quoted] at h
    by_cases hcq : c = q
    · rw [if_pos hcq] at h
      obtain ⟨ht, hl⟩ := Prod.mk.inj h
      obtain rfl : w = [] := List.eq_nil_of_length_eq_zero (by simpa using hl)
      exact ⟨[], by simp [hcq], by simp [QuotedChars], (Prod.mk.inj ht).1.symm⟩
    · rw [if_neg hcq] at h
      by_cases hn : isNewline c = true
      · simp [hn] at h
      · rw [if_neg hn, if_neg hc] at h
        obtain ⟨ht, hl⟩ := Prod.mk.inj h
        obtain ⟨ht, hw⟩ := Prod.mk.inj ht
        have hlast : w.getLast? = some q := by
          cases w with
          | nil => simp [hcq] at hq
          | cons d w => simpa [List.getLast?_cons_cons] using hq
        have hl : (quoted q (w ++ k)).2 = w.length := by simpa using hl
        have hread : quoted q (w ++ k) = (((quoted q (w ++ k)).1.1, true), w.length) := by
          rw [← hw, ← hl]
        obtain ⟨body, rfl, hbody, hbt⟩ := ih hb hlast hread
        refine ⟨c :: body, rfl, ?_, by rw [← ht, hbt]; rfl⟩
        intro d hd
        rcases List.mem_cons.1 hd with rfl | hd
        · exact ⟨hcq, by simpa using hn, hc⟩
        · exact hbody d hd

/-! ## Comments -/

theorem comment_enclosed (h : ¬ ClosesComment body) (k : List Char) :
    comment (body ++ '*' :: '/' :: k) = (body, body.length + 2) := by
  induction body with
  | nil => simp [comment]
  | cons c body ih =>
    have ih := ih fun hc => h (List.infix_cons hc)
    rw [List.cons_append, comment, ih]
    · rfl
    · rintro cs rfl hcs
      cases body with
      | nil => simp at hcs
      | cons d body =>
        obtain ⟨rfl, -⟩ := List.cons.inj hcs
        exact h ⟨[], body, rfl⟩

theorem comment_closed (hq : ['*', '/'] <:+ w) (h : comment (w ++ k) = (text, w.length)) :
    w = text ++ ['*', '/'] ∧ ¬ ClosesComment text := by
  obtain ⟨hno, hend⟩ := comment_spec (w ++ k)
  rw [h] at hno hend
  refine ⟨?_, hno⟩
  rcases hend with ⟨rest, he, hn⟩ | ⟨he, hn⟩
  · have he : w ++ k = (text ++ ['*', '/']) ++ rest := by simpa using he
    exact (List.append_inj he (by simpa using hn)).1
  · obtain rfl : w = text := (List.append_inj (he.trans (List.append_nil text).symm) hn).1
    exact absurd hq.isInfix hno

/-! ## Addresses -/

/-- What an address holds. -/
def AddressChars (body : List Char) : Prop :=
  ∀ c ∈ body, isBlank c = false ∧ c ≠ ')' ∧ ¬ (isNonPrintable c ∨ c = '"' ∨ c = '\'' ∨ c = '(') ∧
    c ≠ '\\'

def Blanks (b : List Char) : Prop := ∀ c ∈ b, isBlank c = true

private theorem takeWhile_blanks {b : List Char} (h : Blanks b) (k : List Char) :
    (b ++ ')' :: k).takeWhile isBlank = b := by
  rw [List.takeWhile_append_of_pos h]
  simp [isBlank, isNewline]

theorem address_enclosed {b : List Char} (h : AddressChars body) (hb : Blanks b) (k : List Char) :
    address (body ++ (b ++ ')' :: k)) = (some (body.map denoted), body.length + b.length + 1) := by
  induction body with
  | nil =>
    cases b with
    | nil => simp [address, isBlank, isNewline]
    | cons c b =>
      have hc := hb c (by simp)
      have ht : (c :: (b ++ ')' :: k)).takeWhile isBlank = c :: b := takeWhile_blanks hb k
      rw [List.nil_append, List.cons_append, address, if_pos hc, addressEnd, ht]
      simp
  | cons c body ih =>
    obtain ⟨hblank, hclose, hspoil, hback⟩ := h c (by simp)
    have ih := ih fun d hd => h d (by simp [hd])
    rw [List.cons_append, address, if_neg (by simp [hblank]), if_neg hclose, if_neg hspoil,
      if_neg hback, ih]
    simp only [Option.map_some, List.map_cons, List.length_cons]
    congr 1
    omega

/-- Blanks end before a closing bracket, at the latest. -/
private theorem blanks_le (w k : List Char) :
    ((w ++ ')' :: k).takeWhile isBlank).length ≤ w.length ∧
      (((w ++ ')' :: k).takeWhile isBlank).length = w.length → Blanks w) := by
  induction w with
  | nil => simp [isBlank, isNewline, Blanks]
  | cons c w ih =>
    by_cases hc : isBlank c = true
    · rw [List.cons_append, List.takeWhile_cons, if_pos hc, List.length_cons, List.length_cons]
      refine ⟨Nat.add_le_add_right ih.1 1, fun h => ?_⟩
      intro d hd
      rcases List.mem_cons.1 hd with rfl | hd
      · exact hc
      · exact ih.2 (Nat.add_right_cancel h) d hd
    · simp [hc]

private theorem addressEnd_closed (hq : w.getLast? = some ')')
    (h : addressEnd (w ++ k) = (some text, w.length)) :
    ∃ b, w = b ++ [')'] ∧ Blanks b ∧ text = [] := by
  obtain ⟨v, rfl⟩ := List.getLast?_eq_some_iff.1 hq
  rw [List.append_assoc, List.singleton_append] at h
  obtain ⟨hle, hall⟩ := blanks_le v k
  unfold addressEnd at h
  simp only at h
  generalize ((v ++ ')' :: k).takeWhile isBlank).length = n at hle hall h
  rw [List.drop_append_of_le_length hle] at h
  have hn : n = v.length ∧ text = [] := by
    cases hv : v.drop n with
    | nil =>
      rw [hv] at h
      have hge := List.drop_eq_nil_iff.1 hv
      simp only [List.nil_append, if_true, Prod.mk.injEq, Option.some.injEq] at h
      exact ⟨by omega, h.1.symm⟩
    | cons c u =>
      rw [hv, List.cons_append] at h
      simp only at h
      split at h
      · simp only [Prod.mk.injEq, Option.some.injEq, List.length_append, List.length_cons,
          List.length_nil] at h
        exact ⟨by omega, h.1.symm⟩
      · simp at h
  exact ⟨v, rfl, hall hn.1, hn.2⟩

theorem address_closed (hb : '\\' ∉ w) (hq : w.getLast? = some ')')
    (h : address (w ++ k) = (some text, w.length)) :
    ∃ body b, w = body ++ (b ++ [')']) ∧ AddressChars body ∧ Blanks b ∧
      text = body.map denoted := by
  induction w generalizing text with
  | nil => simp at hq
  | cons c w ih =>
    obtain ⟨hc, hb⟩ : c ≠ '\\' ∧ '\\' ∉ w := by simpa [eq_comm] using hb
    rw [List.cons_append, address] at h
    by_cases hblank : isBlank c = true
    · rw [if_pos hblank] at h
      obtain ⟨b, hw, hbl, rfl⟩ := addressEnd_closed hq h
      exact ⟨[], b, hw, by simp [AddressChars], hbl, rfl⟩
    rw [if_neg hblank] at h
    by_cases hclose : c = ')'
    · rw [if_pos hclose] at h
      obtain ⟨ht, hl⟩ := Prod.mk.inj h
      obtain rfl : w = [] := List.eq_nil_of_length_eq_zero (by simpa using hl)
      exact ⟨[], [], by simp [hclose], by simp [AddressChars], by simp [Blanks],
        (Option.some.inj ht).symm⟩
    rw [if_neg hclose] at h
    by_cases hspoil : isNonPrintable c ∨ c = '"' ∨ c = '\'' ∨ c = '('
    · simp [if_pos hspoil] at h
    rw [if_neg hspoil, if_neg hc] at h
    have hlast : w.getLast? = some ')' := by
      cases w with
      | nil => simp [hclose] at hq
      | cons d w => simpa [List.getLast?_cons_cons] using hq
    obtain ⟨ht, hl⟩ := Prod.mk.inj h
    obtain ⟨rest, hr, rfl⟩ := Option.map_eq_some_iff.1 ht
    have hl : (address (w ++ k)).2 = w.length := by simpa using hl
    have hread : address (w ++ k) = (some rest, w.length) := by rw [← hr, ← hl]
    obtain ⟨body, b, rfl, hbody, hbl, rfl⟩ := ih hb hlast hread
    refine ⟨c :: body, b, rfl, ?_, hbl, rfl⟩
    intro d hd
    rcases List.mem_cons.1 hd with rfl | hd
    · exact ⟨by simpa using hblank, hclose, hspoil, hc⟩
    · exact hbody d hd

/-- An address between its blanks, with its closing bracket. -/
structure Address (b₁ body b₂ : List Char) : Prop where
  before : Blanks b₁
  chars : AddressChars body
  behind : Blanks b₂
  nil : body = [] → b₂ = []

theorem unquotedUrl?_enclosed {b₁ b₂ : List Char} (h : Address b₁ body b₂) (k : List Char) :
    unquotedUrl? (b₁ ++ (body ++ (b₂ ++ ')' :: k))) =
      some (.url (String.ofList (body.map denoted)), b₁.length + body.length + b₂.length + 1) := by
  have hk : (b₁ ++ (body ++ (b₂ ++ ')' :: k))).takeWhile isBlank = b₁ := by
    rw [List.takeWhile_append_of_pos h.before]
    cases body with
    | nil => simp [h.nil rfl, isBlank, isNewline]
    | cons c body => simp [(h.chars c (by simp)).1]
  have hq : startsWith (fun c => c = '"' || c = '\'') (body ++ (b₂ ++ ')' :: k)) = false := by
    cases body with
    | nil => simp [h.nil rfl, startsWith]
    | cons c body =>
      have hc := (h.chars c (by simp)).2.2.1
      simp only [not_or] at hc
      simp [startsWith, hc.2.1, hc.2.2.1]
  simp only [unquotedUrl?, hk, List.drop_left, hq, Bool.false_eq_true, if_false,
    address_enclosed h.chars h.behind]
  congr 2
  omega

theorem unquotedUrl?_closed {t : String} (hb : '\\' ∉ v) (hq : v.getLast? = some ')')
    (h : unquotedUrl? (v ++ k) = some (.url t, v.length)) :
    ∃ b₁ body b₂, v = b₁ ++ (body ++ (b₂ ++ [')'])) ∧ Address b₁ body b₂ ∧
      t = String.ofList (body.map denoted) := by
  have hle : ((v ++ k).takeWhile isBlank).length < v.length := by
    obtain ⟨u, rfl⟩ := List.getLast?_eq_some_iff.1 hq
    rw [List.append_assoc, List.singleton_append, List.length_append, List.length_singleton]
    exact Nat.lt_succ_of_le (blanks_le u k).1
  have hbefore : Blanks (v.take ((v ++ k).takeWhile isBlank).length) := by
    intro c hc
    have htake : (v ++ k).takeWhile isBlank = v.take ((v ++ k).takeWhile isBlank).length := by
      rw [← List.take_append_of_le_length (Nat.le_of_lt hle)]
      exact List.prefix_iff_eq_take.1 (List.takeWhile_prefix _)
    rw [← htake] at hc
    exact List.all_eq_true.1 List.all_takeWhile c hc
  have hhead : ∀ c ∈ (v.drop ((v ++ k).takeWhile isBlank).length).head?, isBlank c = false := by
    intro c hc
    have hd : (v ++ k).dropWhile isBlank = v.drop ((v ++ k).takeWhile isBlank).length ++ k := by
      rw [← List.drop_append_of_le_length (Nat.le_of_lt hle), drop_length_takeWhile]
    have hn := List.head?_dropWhile_not isBlank (v ++ k)
    rw [hd, List.head?_append, hc] at hn
    simpa using hn
  unfold unquotedUrl? at h
  simp only at h
  rw [List.drop_append_of_le_length (Nat.le_of_lt hle)] at h
  generalize ((v ++ k).takeWhile isBlank).length = n at hle hbefore hhead h
  split at h
  · simp at h
  split at h
  · rename_i text m hm
    obtain ⟨ht, hl⟩ := Prod.mk.inj (Option.some.inj h)
    have hm : address (v.drop n ++ k) = (some text, (v.drop n).length) := by
      rw [hm, List.length_drop]
      congr 1
      omega
    have hlast : (v.drop n).getLast? = some ')' := by
      rw [List.getLast?_drop, if_neg (by omega), hq]
    obtain ⟨body, b, hw, hbody, hbl, rfl⟩ :=
      address_closed (fun hc => hb (List.mem_of_mem_drop hc)) hlast hm
    refine ⟨v.take n, body, b, by rw [← hw, List.take_append_drop], ⟨hbefore, hbody, hbl, ?_⟩,
      (Kind.url.inj ht).symm⟩
    rintro rfl
    cases b with
    | nil => rfl
    | cons c b => simpa [hbl c (by simp)] using hhead c (by simp [hw])
  · obtain ⟨ht, -⟩ := Prod.mk.inj (Option.some.inj h)
    simp at ht

end SheetDiff.Css
