import SheetDiff.Proofs.Css.Source

/-!
# Tokens before an edge

A curly bracket or a semicolon, with or without blanks before it, continues no token. What stands
before one such edge is read alike before any other (`Reads.edged`), in texts without escapes and
broken strings.
-/

namespace SheetDiff.Css

variable {c : Char} {cs u v k k' p r r' : List Char} {t : Token} {ts : List Token}

/-! ## Unquoted addresses without escapes -/

theorem spoilt_bracket (hb : '\\' ∉ u) (hu : ')' ∉ u) (k : List Char) :
    spoilt (u ++ ')' :: k) = u := by
  induction u with
  | nil => cases k <;> simp [spoilt]
  | cons c u ih =>
    obtain ⟨hc, hu⟩ : c ≠ ')' ∧ ')' ∉ u := by simpa [eq_comm] using hu
    obtain ⟨hcb, hb⟩ : c ≠ '\\' ∧ '\\' ∉ u := by simpa [eq_comm] using hb
    have ih := ih hb hu
    cases u with
    | nil => simp [spoilt, hc, hcb] at ih ⊢; exact ih
    | cons d u =>
      rw [List.cons_append, List.cons_append, spoilt, if_neg hc, if_neg (by simp [hcb])]
      exact congrArg (c :: ·) ih

theorem spoilt_open (h : ')' ∉ cs) : spoilt cs = cs := by
  fun_induction spoilt cs with
  | case1 => rfl
  | case2 => simp at h
  | case3 c hc => rfl
  | case4 d cs => simp at h
  | case5 c d cs hc hd ih => rw [ih (by simp_all)]
  | case6 c d cs hc hd ih => rw [ih fun hm => h (List.mem_cons_of_mem _ hm)]

private theorem addressEnd_eq (cs : List Char) : addressEnd cs =
    match cs.dropWhile isBlank with
    | [] => (some [], (cs.takeWhile isBlank).length)
    | c :: _ => if c = ')' then (some [], (cs.takeWhile isBlank).length + 1)
      else (none, (cs.takeWhile isBlank).length + 1) := by
  rw [← drop_length_takeWhile]
  rfl

private theorem addressEnd_bracket (hu : ')' ∉ u) :
    (∃ text, ∀ k, addressEnd (u ++ ')' :: k) = (some text, u.length + 1)) ∨
      ∃ n, n ≤ u.length ∧ ∀ k, addressEnd (u ++ ')' :: k) = (none, n) := by
  have hs := List.takeWhile_append_dropWhile (p := isBlank) (l := u)
  have hblank : ∀ c ∈ u.takeWhile isBlank, isBlank c = true :=
    List.all_eq_true.1 List.all_takeWhile
  cases hd : u.dropWhile isBlank with
  | nil =>
    rw [hd, List.append_nil] at hs
    rw [hs] at hblank
    refine .inl ⟨[], fun k => ?_⟩
    rw [addressEnd_eq, List.dropWhile_append_of_pos hblank, List.takeWhile_append_of_pos hblank]
    simp [isBlank, isNewline]
  | cons d ds =>
    have hdb : isBlank d = false := by
      have hn := List.head?_dropWhile_not isBlank u
      simpa [hd] using hn
    have hdc : d ≠ ')' := by
      rintro rfl
      exact hu ((List.dropWhile_sublist isBlank).mem (hd ▸ List.mem_cons_self))
    refine .inr ⟨(u.takeWhile isBlank).length + 1, ?_, fun k => ?_⟩
    · have hl := congrArg List.length hs
      rw [hd, List.length_append, List.length_cons] at hl
      omega
    · rw [← hs, hd, List.append_assoc, addressEnd_eq, List.dropWhile_append_of_pos hblank,
        List.takeWhile_append_of_pos hblank, List.takeWhile_append_of_pos hblank]
      simp [hdb, hdc]

private theorem addressEnd_open (h : ')' ∉ cs) :
    (∃ text, addressEnd cs = (some text, cs.length)) ∨ ∃ n, addressEnd cs = (none, n) := by
  rw [addressEnd_eq]
  have hs := List.takeWhile_append_dropWhile (p := isBlank) (l := cs)
  cases hd : cs.dropWhile isBlank with
  | nil =>
    rw [hd, List.append_nil] at hs
    rw [hs]
    exact .inl ⟨[], rfl⟩
  | cons d ds =>
    have hdc : d ≠ ')' := by
      rintro rfl
      exact h ((List.dropWhile_sublist isBlank).mem (hd ▸ List.mem_cons_self))
    simp only [hdc, if_false]
    exact .inr ⟨_, rfl⟩

/-- An address is read up to its closing bracket, or is spoilt before it. -/
theorem address_bracket (hb : '\\' ∉ u) (hu : ')' ∉ u) :
    (∃ text, ∀ k, address (u ++ ')' :: k) = (some text, u.length + 1)) ∨
      ∃ n, n ≤ u.length ∧ ∀ k, address (u ++ ')' :: k) = (none, n) := by
  induction u with
  | nil => exact .inl ⟨[], fun k => by simp [address, isBlank, isNewline]⟩
  | cons c u ih =>
    obtain ⟨hc, hu'⟩ : c ≠ ')' ∧ ')' ∉ u := by simpa [eq_comm] using hu
    obtain ⟨hcb, hb⟩ : c ≠ '\\' ∧ '\\' ∉ u := by simpa [eq_comm] using hb
    by_cases hblank : isBlank c = true
    · have ha (k : List Char) : address (c :: u ++ ')' :: k) = addressEnd (c :: u ++ ')' :: k) := by
        rw [List.cons_append, address, if_pos hblank]
      simp only [ha]
      exact addressEnd_bracket hu
    by_cases hspoil : isNonPrintable c ∨ c = '"' ∨ c = '\'' ∨ c = '('
    · refine .inr ⟨1, by simp, fun k => ?_⟩
      rw [List.cons_append, address, if_neg hblank, if_neg hc, if_pos hspoil]
    have ha (k : List Char) : address (c :: u ++ ')' :: k) =
        ((address (u ++ ')' :: k)).1.map (denoted c :: ·), (address (u ++ ')' :: k)).2 + 1) := by
      rw [List.cons_append, address, if_neg hblank, if_neg hc, if_neg hspoil, if_neg hcb]
    rcases ih hb hu' with ⟨text, h⟩ | ⟨n, hn, h⟩
    · exact .inl ⟨denoted c :: text, fun k => by rw [ha, h]; rfl⟩
    · exact .inr ⟨n + 1, by simpa using hn, fun k => by rw [ha, h]; rfl⟩

/-- An address without a closing bracket is read up to the end, or is spoilt. -/
theorem address_open (hb : '\\' ∉ cs) (h : ')' ∉ cs) :
    (∃ text, address cs = (some text, cs.length)) ∨ ∃ n, address cs = (none, n) := by
  induction cs with
  | nil => exact .inl ⟨[], by simp [address]⟩
  | cons c cs ih =>
    obtain ⟨hc, h'⟩ : c ≠ ')' ∧ ')' ∉ cs := by simpa [eq_comm] using h
    obtain ⟨hcb, hb⟩ : c ≠ '\\' ∧ '\\' ∉ cs := by simpa [eq_comm] using hb
    by_cases hblank : isBlank c = true
    · rw [address, if_pos hblank]
      exact addressEnd_open h
    by_cases hspoil : isNonPrintable c ∨ c = '"' ∨ c = '\'' ∨ c = '('
    · exact .inr ⟨1, by rw [address, if_neg hblank, if_neg hc, if_pos hspoil]⟩
    rw [address, if_neg hblank, if_neg hc, if_neg hspoil, if_neg hcb]
    rcases ih hb h' with ⟨text, he⟩ | ⟨n, he⟩
    · exact .inl ⟨denoted c :: text, by rw [he]; rfl⟩
    · exact .inr ⟨n + 1, by rw [he]; rfl⟩

private theorem unquotedUrl?_eq (cs : List Char) : unquotedUrl? cs =
    if startsWith (fun c => c = '"' || c = '\'') (cs.dropWhile isBlank) then none
    else match address (cs.dropWhile isBlank) with
    | (some text, n) => some (.url (String.ofList text), (cs.takeWhile isBlank).length + n)
    | (none, n) =>
      let contents := (cs.dropWhile isBlank).take n ++ spoilt ((cs.dropWhile isBlank).drop n)
      let closed := startsWith (· = ')') ((cs.dropWhile isBlank).drop contents.length)
      some (.badUrl (String.ofList contents),
        (cs.takeWhile isBlank).length + contents.length + closed.toNat) := by
  rw [← drop_length_takeWhile]
  rfl

/-- What follows the bracket of an address is read up to the closing bracket. -/
theorem unquotedUrl?_bracket (hb : '\\' ∉ u) (hu : ')' ∉ u) :
    (∃ kind, ∀ k, unquotedUrl? (u ++ ')' :: k) = some (kind, u.length + 1)) ∨
      ∀ k, unquotedUrl? (u ++ ')' :: k) = none := by
  obtain ⟨b, w, rfl, hblank, hsolid⟩ := blanks_split u
  have hbw : '\\' ∉ w := fun hm => hb (List.mem_append_right _ hm)
  have huw : ')' ∉ w := fun hm => hu (List.mem_append_right _ hm)
  have hcut (k : List Char) : (b ++ w ++ ')' :: k).takeWhile isBlank = b ∧
      (b ++ w ++ ')' :: k).dropWhile isBlank = w ++ ')' :: k := by
    rw [List.append_assoc, List.takeWhile_append_of_pos hblank, List.dropWhile_append_of_pos hblank]
    cases w with
    | nil => simp [isBlank, isNewline]
    | cons d w => simp [hsolid d (by simp)]
  by_cases hq : startsWith (fun c => c = '"' || c = '\'') w = true
  · have hq' (k : List Char) : startsWith (fun c => c = '"' || c = '\'') (w ++ ')' :: k) = true := by
      cases w with
      | nil => simp [startsWith] at hq
      | cons d w => exact hq
    exact .inr fun k => by rw [unquotedUrl?_eq, (hcut k).2, if_pos (hq' k)]
  · have hq' (k : List Char) : ¬ startsWith (fun c => c = '"' || c = '\'') (w ++ ')' :: k) = true := by
      cases w with
      | nil => simp [startsWith]
      | cons d w => exact hq
    rcases address_bracket hbw huw with ⟨text, ha⟩ | ⟨n, hn, ha⟩
    · refine .inl ⟨.url (String.ofList text), fun k => ?_⟩
      rw [unquotedUrl?_eq, (hcut k).1, (hcut k).2, if_neg (hq' k), ha, List.length_append]
      simp [Nat.add_assoc]
    · refine .inl ⟨.badUrl (String.ofList w), fun k => ?_⟩
      have hcontents : (w ++ ')' :: k).take n ++ spoilt ((w ++ ')' :: k).drop n) = w := by
        rw [List.take_append_of_le_length hn, List.drop_append_of_le_length hn,
          spoilt_bracket (fun hm => hbw (List.mem_of_mem_drop hm))
            (fun hm => huw (List.mem_of_mem_drop hm)), List.take_append_drop]
      rw [unquotedUrl?_eq, (hcut k).1, (hcut k).2, if_neg (hq' k), ha]
      simp only [hcontents, List.drop_left, List.length_append]
      rfl

theorem unquotedUrl?_open (hb : '\\' ∉ cs) (h : ')' ∉ cs) {kind : Kind} {n : Nat}
    (hs : unquotedUrl? cs = some (kind, n)) : n = cs.length := by
  have hlen := congrArg List.length (List.takeWhile_append_dropWhile (p := isBlank) (l := cs))
  rw [List.length_append] at hlen
  have hbw : '\\' ∉ cs.dropWhile isBlank := fun hm => hb ((List.dropWhile_sublist isBlank).mem hm)
  have huw : ')' ∉ cs.dropWhile isBlank := fun hm => h ((List.dropWhile_sublist isBlank).mem hm)
  rw [unquotedUrl?_eq] at hs
  generalize cs.dropWhile isBlank = w at hlen hbw huw hs
  split at hs
  · simp at hs
  rcases address_open hbw huw with ⟨text, ha⟩ | ⟨m, ha⟩
  · simp only [ha, Option.some.injEq, Prod.mk.injEq] at hs
    omega
  · have hcontents : w.take m ++ spoilt (w.drop m) = w := by
      rw [spoilt_open fun hm => huw (List.mem_of_mem_drop hm), List.take_append_drop]
    simp only [ha, hcontents, List.drop_length, Option.some.injEq, Prod.mk.injEq] at hs
    simp [startsWith] at hs
    omega

/-- An address that something follows is closed, and is read alike whatever that is. -/
theorem unquotedUrl?_resume (hb : '\\' ∉ v ++ k) (hk : k ≠ []) {kind : Kind}
    (h : unquotedUrl? (v ++ k) = some (kind, v.length)) (k' : List Char) :
    unquotedUrl? (v ++ k') = some (kind, v.length) := by
  by_cases hm : ')' ∈ v ++ k
  · obtain ⟨u, rest, hsplit, hu⟩ := List.eq_append_cons_of_mem hm
    have hbu : '\\' ∉ u := fun hm => hb (hsplit ▸ List.mem_append_left _ hm)
    rw [hsplit] at h
    rcases unquotedUrl?_bracket hbu hu with ⟨kind', hall⟩ | hnone
    · obtain ⟨rfl, hlen⟩ := Prod.mk.inj (Option.some.inj ((hall rest).symm.trans h))
      have hsplit' : v ++ k = (u ++ [')']) ++ rest := by simpa using hsplit
      obtain rfl := (List.append_inj hsplit' (by simpa using hlen.symm)).1
      rw [List.append_assoc, List.singleton_append, hall k', hlen]
    · simp [hnone] at h
  · have hn := unquotedUrl?_open hb hm h
    rw [List.length_append] at hn
    have := List.length_pos_iff.2 hk
    omega

/-! ## Strings and comments that something follows -/

/-- A string that something follows ends with its quote. -/
theorem quoted_resume {q : Char} (hb : '\\' ∉ v ++ k) (hk : k ≠ []) {text : List Char}
    (h : quoted q (v ++ k) = ((text, true), v.length)) : v.getLast? = some q := by
  induction v generalizing text with
  | nil =>
    cases k with
    | nil => exact absurd rfl hk
    | cons c k =>
      have hc : c ≠ '\\' := by
        rintro rfl
        simp at hb
      rw [List.nil_append, quoted] at h
      split at h
      · simp at h
      · split at h
        · simp at h
        · simp at h
  | cons c v ih =>
    obtain ⟨hc, hb⟩ : c ≠ '\\' ∧ '\\' ∉ v ++ k := by simpa [eq_comm] using hb
    rw [List.cons_append, quoted] at h
    by_cases hq : c = q
    · rw [if_pos hq] at h
      have hv : v = [] := List.eq_nil_of_length_eq_zero (by simpa using (Prod.mk.inj h).2.symm)
      simp [hv, hq]
    · rw [if_neg hq] at h
      by_cases hn : isNewline c = true
      · simp [hn] at h
      · rw [if_neg hn, if_neg hc] at h
        obtain ⟨ht, hl⟩ := Prod.mk.inj h
        obtain ⟨-, hw⟩ := Prod.mk.inj ht
        have hlen : (quoted q (v ++ k)).2 = v.length := by simpa using hl
        have hread : quoted q (v ++ k) = (((quoted q (v ++ k)).1.1, true), v.length) := by
          rw [← hw, ← hlen]
        have hlast := ih hb hread
        cases v with
        | nil => simp at hlast
        | cons d v => simpa [List.getLast?_cons_cons] using hlast

theorem comment_resume (hk : k ≠ []) {text : List Char} (h : comment (v ++ k) = (text, v.length)) :
    v = text ++ ['*', '/'] := by
  obtain ⟨-, ⟨rest, he, hn⟩ | ⟨he, hn⟩⟩ := comment_spec (v ++ k)
  · rw [h] at he hn
    have he' : v ++ k = (text ++ ['*', '/']) ++ rest := by simpa using he
    exact (List.append_inj he' (by simpa using hn)).1
  · rw [h] at he hn
    have hl := congrArg List.length he
    rw [List.length_append] at hl
    have hpos := List.length_pos_iff.2 hk
    simp only at hn hl
    omega

/-- A string or a comment that something follows is closed. -/
theorem ReadsOne.isClosed (h : ReadsOne t k) (hb : '\\' ∉ t.source ++ k) (hk : k ≠ [])
    (ht : (∃ s, t.kind = .string s) ∨ ∃ s, t.kind = .comment s) : t.IsClosed := by
  obtain ⟨c, cs, hsrc, hs⟩ := h
  have hfst := congrArg Prod.fst hs
  rcases ht with ⟨s, ht⟩ | ⟨s, ht⟩
  · obtain ⟨-, hq⟩ := scan_string (hfst.trans ht)
    have hbc : '\\' ∉ cs ++ k := fun hm => hb (by rw [hsrc]; exact List.mem_cons_of_mem _ hm)
    rw [hs] at hq
    have hlast := quoted_resume hbc hk hq
    simp only [Token.IsClosed, ht, hsrc]
    cases cs with
    | nil => simp at hlast
    | cons d ds => simpa [List.getLast?_cons_cons] using hlast
  · obtain ⟨ds, rfl, hds, hcomment, hpos⟩ := scan_comment (hfst.trans ht)
    rw [hs] at hcomment hpos
    simp only [Token.IsClosed, ht, hsrc]
    cases cs with
    | nil => simp at hpos
    | cons d w =>
      obtain ⟨rfl, rfl⟩ := List.cons.inj hds
      rw [show ('*' :: w).length - 1 = w.length from rfl] at hcomment
      rw [comment_resume hk hcomment]
      refine ⟨by simp, ⟨'/' :: '*' :: s.toList, by simp⟩⟩

/-! ## Edges -/

/-- A curly bracket or a semicolon. -/
def isEdge (c : Char) : Bool := ['\x7b', '\x7d', ';'].contains c

/-- A text that starts with such a character, behind blanks if there are any. -/
def Edged (k : List Char) : Prop := ∃ b c cs, Blanks b ∧ isEdge c = true ∧ k = b ++ c :: cs

theorem isEdge_cases (h : isEdge c = true) : c = '\x7b' ∨ c = '\x7d' ∨ c = ';' := by
  simpa [isEdge] using h

theorem Edged.stops (h : Edged k) : Stops k := by
  obtain ⟨b, c, cs, hb, hc, rfl⟩ := h
  cases b with
  | nil =>
    refine stops_cons ?_ cs
    rcases isEdge_cases hc with rfl | rfl | rfl <;> decide
  | cons d b => exact stops_cons (isStop_of_isBlank (hb d (by simp))) _

theorem Edged.ne_nil (h : Edged k) : k ≠ [] := by
  obtain ⟨b, c, cs, -, -, rfl⟩ := h
  simp

/-- Before an edge a string follows neither way. -/
theorem unquotedUrl?_edged (hr : Edged r)
    (h : unquotedUrl? (p ++ r) = none) : unquotedUrl? (p ++ r') = none := by
  obtain ⟨b, w, rfl, hb, hw⟩ := blanks_split p
  cases w with
  | nil =>
    obtain ⟨b', c, cs, hb', hc, rfl⟩ := hr
    have hcb : isBlank c = false ∧ c ≠ '"' ∧ c ≠ '\'' := by
      rcases isEdge_cases hc with rfl | rfl | rfl <;> decide
    have hbb : Blanks (b ++ b') := fun d hd => (List.mem_append.1 hd).elim (hb d) (hb' d)
    rw [List.append_nil, ← List.append_assoc, unquotedUrl?_eq_none hbb hcb.1] at h
    exact absurd h (by simp [hcb.2])
  | cons c w =>
    have hc := hw c (by simp)
    rw [List.append_assoc, List.cons_append, unquotedUrl?_eq_none hb hc] at h
    rwa [List.append_assoc, List.cons_append, unquotedUrl?_eq_none hb hc]

/-- A token is read alike before any edge behind the same text. -/
theorem ReadsOne.edged (h : ReadsOne t (p ++ r)) (hr : Edged r) (hr' : Edged r')
    (hb : '\\' ∉ t.source ++ (p ++ r)) (hbad : ∀ s, t.kind ≠ .badString s)
    (hw : t.kind = .whitespace → ∀ c ∈ (p ++ r').head?, isBlank c = false) :
    ReadsOne t (p ++ r') := by
  have hne : p ++ r ≠ [] := by simp [hr.ne_nil]
  have hbs : '\\' ∉ t.source := fun hm => hb (List.mem_append_left _ hm)
  have hbk : '\\' ∉ p ++ r := fun hm => hb (List.mem_append_right _ hm)
  rcases Kind.cases hbad with hl | hs | ⟨s, hs⟩ | ⟨s, hs⟩ | hu
  · obtain ⟨c, cs, hsrc, hs⟩ := h
    have hw : '\\' ∉ c :: (cs ++ p) := by
      rw [hsrc] at hbs
      simp only [List.mem_cons, List.mem_append, not_or] at hbs hbk ⊢
      exact ⟨hbs.1, hbs.2, hbk.1⟩
    have hbr : '\\' ∉ r := fun hm => hbk (List.mem_append_right _ hm)
    rw [← List.append_assoc] at hs
    refine ⟨c, cs, hsrc, ?_⟩
    rw [← List.append_assoc, scan_local hw hbr hr'.stops (by rw [hs]; exact hl) (by rw [hs]; simp),
      hs]
  · obtain ⟨hblank, -⟩ := h.whitespace hs
    obtain ⟨c, cs, hsrc, hscan⟩ := h
    rw [hsrc] at hblank
    have ht : (cs ++ (p ++ r')).takeWhile isBlank = cs := by
      rw [List.takeWhile_append_of_pos fun d hd => hblank d (List.mem_cons_of_mem _ hd)]
      cases hk : p ++ r' with
      | nil => simp
      | cons d ds => simp [hw hs d (by simp [hk])]
    refine ⟨c, cs, hsrc, ?_⟩
    rw [scan, if_pos (hblank c List.mem_cons_self), ht, hs]
  · obtain ⟨q, body, hq, hsrc, hbody, rfl⟩ := h.string hs (h.isClosed hb hne (.inl ⟨s, hs⟩)) hbs
    have hread := readsOne_string hq hbody t.line (p ++ r')
    rw [← hsrc, ← hs] at hread
    exact hread
  · obtain ⟨hsrc, hno⟩ := h.comment hs (h.isClosed hb hne (.inr ⟨s, hs⟩))
    have hread := readsOne_comment hno t.line (p ++ r')
    rw [String.ofList_toList, ← hsrc, ← hs] at hread
    exact hread
  · obtain ⟨c, m, v, hsrc, hm, hv⟩ := h.urlName hu hbs
    refine ⟨c, m ++ '(' :: v, hsrc, ?_⟩
    rw [List.append_assoc, List.cons_append, scan_urlName hm]
    have hbv : '\\' ∉ v ++ (p ++ r) := by
      rw [hsrc] at hb
      simp only [List.mem_cons, List.mem_append, not_or] at hb ⊢
      exact ⟨hb.1.2.2.2, hb.2⟩
    cases hq : unquotedUrl? (v ++ (p ++ r)) with
    | none =>
      simp only [hq] at hv
      obtain ⟨hkind, rfl⟩ := hv
      rw [List.nil_append] at hq ⊢
      rw [unquotedUrl?_edged hr hq, hkind]
      simp
    | some found =>
      obtain ⟨kind, n⟩ := found
      simp only [hq] at hv
      obtain ⟨rfl, rfl⟩ := hv
      rw [unquotedUrl?_resume hbv hne hq (p ++ r')]
      simp only [List.length_append, List.length_cons, Prod.mk.injEq, true_and]
      omega

theorem ReadsOne.head_not_blank (h : ReadsOne t k) (hk : t.kind ≠ .whitespace) (k' : List Char) :
    ∀ c ∈ (t.source ++ k').head?, isBlank c = false := by
  obtain ⟨c, cs, hsrc, hs⟩ := h
  intro d hd
  obtain rfl : c = d := by simpa [hsrc] using hd
  rw [← Bool.not_eq_true]
  intro hb
  rw [scan, if_pos hb] at hs
  exact hk (Prod.mk.inj hs).1.symm

/-- Tokens are read alike before any edge. -/
theorem Reads.edged (h : Reads ts r) (hr : Edged r) (hr' : Edged r') (hb : '\\' ∉ sourceOf ts ++ r)
    (hbad : ∀ t ∈ ts, ∀ s, t.kind ≠ .badString s)
    (hw : ∀ t ∈ ts.getLast?, t.kind = .whitespace → ∀ c ∈ r'.head?, isBlank c = false) :
    Reads ts r' := by
  induction ts with
  | nil => trivial
  | cons t ts ih =>
    obtain ⟨ht, hts⟩ := h
    rw [sourceOf_cons, List.append_assoc] at hb
    refine ⟨ht.edged hr hr' hb (hbad t (by simp)) fun hk c hc => ?_, ih hts ?_ ?_ ?_⟩
    · cases ts with
      | nil => exact hw t (by simp) hk c (by simpa using hc)
      | cons u us =>
        have hnext := (ht.whitespace hk).2
        obtain ⟨d, ds, hsrc⟩ := List.exists_cons_of_ne_nil hts.1.source_ne
        obtain rfl : d = c := by simpa [hsrc] using hc
        exact hnext d (by simp [hsrc])
    · exact fun hm => hb (List.mem_append_right _ hm)
    · exact fun u hu => hbad u (by simp [hu])
    · intro u hu
      cases ts with
      | nil => simp at hu
      | cons v vs => exact hw u (by rwa [List.getLast?_cons_cons])

/-! ## Edits of tokens -/

/-- The character of an edge. -/
def Kind.edge? : Kind → Option Char
  | .opening .curly => some '\x7b'
  | .closing .curly => some '\x7d'
  | .semicolon => some ';'
  | _ => none

/-- A bracket or a semicolon is written as such. -/
theorem ReadsOne.edge {d : Char} (h : ReadsOne t k) (hd : t.kind.edge? = some d) :
    t.source = [d] := by
  apply h.symbol
  unfold Kind.edge? at hd
  split at hd
  all_goals simp_all only [Kind.symbol?, reduceCtorEq]

theorem isEdge_of_edge? {d : Char} {kind : Kind} (h : kind.edge? = some d) : isEdge d = true := by
  unfold Kind.edge? at h
  split at h
  · cases h; rfl
  · cases h; rfl
  · cases h; rfl
  · simp at h

/-- A bracket or a semicolon is read whatever follows. -/
theorem ReadsOne.edge_anywhere {d : Char} (h : ReadsOne t k) (hd : t.kind.edge? = some d)
    (k' : List Char) : ReadsOne t k' := by
  refine ⟨d, [], h.edge hd, ?_⟩
  unfold Kind.edge? at hd
  split at hd
  · cases hd
    rename_i hk
    exact hk ▸ scan_openBrace k'
  · cases hd
    rename_i hk
    exact hk ▸ scan_closeBrace k'
  · cases hd
    rename_i hk
    exact hk ▸ scan_semicolon k'
  · simp at hd

/-- A run of white space, or nothing. -/
inductive Fill : List Token → Prop
  | nil : Fill []
  | blank {source : List Char} {line : Nat} (hne : source ≠ []) (hb : Blanks source) :
    Fill [⟨.whitespace, source, line⟩]

variable {g g' : List Token}

theorem Fill.source (h : Fill g) : Blanks (sourceOf g) := by
  cases h with
  | nil => simp [Blanks]
  | blank hne hb => simpa using hb

theorem Fill.reads (h : Fill g) (hk : ∀ c ∈ k.head?, isBlank c = false) : Reads g k := by
  cases h with
  | nil => trivial
  | @blank source line hne hb =>
    obtain ⟨c, cs, rfl⟩ := List.exists_cons_of_ne_nil hne
    have ht : (cs ++ k).takeWhile isBlank = cs := by
      rw [List.takeWhile_append_of_pos fun d hd => hb d (List.mem_cons_of_mem _ hd)]
      cases k with
      | nil => simp
      | cons d k => simp [hk d (by simp)]
    refine ⟨⟨c, cs, rfl, ?_⟩, trivial⟩
    rw [sourceOf_nil, List.nil_append, scan, if_pos (hb c List.mem_cons_self), ht]

/-- One edit of the white space next to an edge, or of a semicolon before a curly bracket. -/
inductive Edit : List Token → List Token → Prop
  | before {us g g' d vs e} (hg : Fill g) (hg' : Fill g') (hd : d.kind.edge? = some e)
    (hu : ∀ t ∈ us.getLast?, t.kind ≠ .whitespace) : Edit (us ++ (g ++ d :: vs)) (us ++ (g' ++ d :: vs))
  | behind {us g g' d vs e} (hg : Fill g) (hg' : Fill g') (hd : d.kind.edge? = some e)
    (hv : ∀ t ∈ vs.head?, t.kind ≠ .whitespace) : Edit (us ++ d :: (g ++ vs)) (us ++ d :: (g' ++ vs))
  | semicolon {us d vs line} (hd : d.kind = .closing .curly) :
    Edit (us ++ d :: vs) (us ++ ⟨.semicolon, [';'], line⟩ :: d :: vs)
  | noSemicolon {us d vs line} (hd : d.kind = .closing .curly) :
    Edit (us ++ ⟨.semicolon, [';'], line⟩ :: d :: vs) (us ++ d :: vs)

/-- An edit puts in white space and semicolons only. -/
theorem Edit.mem {ts ts' : List Token} {t : Token} (h : Edit ts ts') (ht : t ∈ ts') :
    t ∈ ts ∨ (t.kind = .whitespace ∧ Blanks t.source) ∨ (t.kind = .semicolon ∧ t.source = [';']) := by
  have hfill {g : List Token} (hg : Fill g) (hm : t ∈ g) :
      t.kind = .whitespace ∧ Blanks t.source := by
    cases hg with
    | nil => simp at hm
    | blank hne hb =>
      obtain rfl := List.mem_singleton.1 hm
      exact ⟨rfl, hb⟩
  cases h with
  | before hg hg' hd hu =>
    simp only [List.mem_append, List.mem_cons] at ht ⊢
    rcases ht with ht | ht | ht | ht
    · exact .inl (.inl ht)
    · exact .inr (.inl (hfill hg' ht))
    · exact .inl (.inr (.inr (.inl ht)))
    · exact .inl (.inr (.inr (.inr ht)))
  | behind hg hg' hd hv =>
    simp only [List.mem_append, List.mem_cons] at ht ⊢
    rcases ht with ht | ht | ht | ht
    · exact .inl (.inl ht)
    · exact .inl (.inr (.inl ht))
    · exact .inr (.inl (hfill hg' ht))
    · exact .inl (.inr (.inr (.inr ht)))
  | semicolon hd =>
    simp only [List.mem_append, List.mem_cons] at ht ⊢
    rcases ht with ht | rfl | ht
    · exact .inl (.inl ht)
    · exact .inr (.inr ⟨rfl, rfl⟩)
    · exact .inl (.inr ht)
  | noSemicolon hd =>
    simp only [List.mem_append, List.mem_cons] at ht ⊢
    rcases ht with ht | ht
    · exact .inl (.inl ht)
    · exact .inl (.inr (.inr ht))

/-- The text of a token that is an edge starts with it. -/
private theorem edged_source {d : Token} {e : Char} (hs : d.source = [e]) (he : isEdge e = true)
    (hg : Fill g) (vs : List Token) : Edged (sourceOf (g ++ d :: vs)) :=
  ⟨sourceOf g, e, sourceOf vs, hg.source, he, by simp [hs]⟩

private theorem solid_of_isEdge {e : Char} (he : isEdge e = true) (k : List Char) :
    ∀ c ∈ (e :: k).head?, isBlank c = false := by
  rintro c ⟨⟩
  rcases isEdge_cases he with rfl | rfl | rfl <;> decide

/-- What stands right before an edge is read alike right before another one. -/
private theorem Reads.edge {us : List Token} {e e' : Char} (h : Reads us (e :: k))
    (he : isEdge e = true) (he' : isEdge e' = true) (hb : '\\' ∉ sourceOf us ++ e :: k)
    (hbad : ∀ t ∈ us, ∀ s, t.kind ≠ .badString s) (k' : List Char) : Reads us (e' :: k') :=
  h.edged ⟨[], e, k, by simp [Blanks], he, rfl⟩ ⟨[], e', k', by simp [Blanks], he', rfl⟩ hb hbad
    fun _ _ _ => solid_of_isEdge he' k'

/-- The text of tokens starts solid unless they start with white space. -/
private theorem Reads.head_not_blank {vs : List Token} (h : Reads vs [])
    (hv : ∀ t ∈ vs.head?, t.kind ≠ .whitespace) : ∀ c ∈ (sourceOf vs).head?, isBlank c = false := by
  cases vs with
  | nil => simp
  | cons t vs => exact h.1.head_not_blank (hv t (by simp)) _

/-- What is read before an edit is read after it. -/
theorem Reads.edit {ts' : List Token} (h : Reads ts []) (he : Edit ts ts') (hb : '\\' ∉ sourceOf ts)
    (hbad : ∀ t ∈ ts, ∀ s, t.kind ≠ .badString s) : Reads ts' [] := by
  have hsemi : Kind.semicolon.edge? = some ';' := rfl
  have hclose : (Kind.closing .curly).edge? = some '\x7d' := rfl
  cases he with
  | @before us g g' d vs e hg hg' hd hu =>
    obtain ⟨hus, hgr, hdr, hvs⟩ := by simpa only [reads_append] using h
    have hs := hdr.edge hd
    have hedge := isEdge_of_edge? hd
    rw [List.append_nil] at hus
    rw [sourceOf_append] at hb
    have hus' : Reads us (sourceOf (g' ++ d :: vs)) := by
      refine hus.edged (edged_source hs hedge hg vs) (edged_source hs hedge hg' vs) hb ?_ ?_
      · exact fun t ht => hbad t (List.mem_append_left _ ht)
      · exact fun t ht hk => absurd hk (hu t ht)
    have hg'r : Reads g' (sourceOf (d :: vs)) := by
      rw [sourceOf_cons, hs]
      exact hg'.reads (solid_of_isEdge hedge _)
    rw [reads_append, reads_append, List.append_nil, List.append_nil]
    exact ⟨hus', hg'r, hdr, hvs⟩
  | @behind us g g' d vs e hg hg' hd hv =>
    obtain ⟨hus, hdr, hgr, hvs⟩ : Reads us (sourceOf (d :: (g ++ vs)) ++ []) ∧
        ReadsOne d (sourceOf (g ++ vs) ++ []) ∧ Reads g (sourceOf vs ++ []) ∧ Reads vs [] := by
      simpa only [reads_append, Reads] using h
    have hs := hdr.edge hd
    have hedge := isEdge_of_edge? hd
    rw [sourceOf_append, sourceOf_cons, hs] at hb
    rw [List.append_nil, sourceOf_cons, hs] at hus
    have hus' : Reads us (sourceOf (d :: (g' ++ vs))) := by
      rw [sourceOf_cons, hs]
      exact hus.edge hedge hedge hb (fun t ht => hbad t (List.mem_append_left _ ht)) _
    refine reads_append.2 ⟨?_, hdr.edge_anywhere hd _, reads_append.2 ⟨?_, hvs⟩⟩
    · rwa [List.append_nil]
    · rw [List.append_nil]
      exact hg'.reads (hvs.head_not_blank hv)
  | @semicolon us d vs line hd =>
    obtain ⟨hus, hdr, hvs⟩ := reads_append.1 h
    have hs := hdr.edge (hd ▸ hclose)
    rw [sourceOf_append, sourceOf_cons, hs] at hb
    rw [List.append_nil, sourceOf_cons, hs] at hus
    refine reads_append.2 ⟨?_, ⟨';', [], rfl, scan_semicolon _⟩, hdr, hvs⟩
    rw [List.append_nil]
    exact hus.edge (isEdge_of_edge? hclose) (isEdge_of_edge? hsemi) hb
      (fun t ht => hbad t (List.mem_append_left _ ht)) _
  | @noSemicolon us d vs line hd =>
    obtain ⟨hus, -, hdr, hvs⟩ := reads_append.1 h
    have hs := hdr.edge (hd ▸ hclose)
    rw [sourceOf_append] at hb
    rw [List.append_nil] at hus
    refine reads_append.2 ⟨?_, hdr, hvs⟩
    rw [List.append_nil, sourceOf_cons, hs]
    exact Reads.edge hus (isEdge_of_edge? hsemi) (isEdge_of_edge? hclose) hb
      (fun t ht => hbad t (List.mem_append_left _ ht)) _

end SheetDiff.Css
