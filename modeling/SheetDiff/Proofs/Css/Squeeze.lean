import SheetDiff.Proofs.Css.Source
import SheetDiff.Proofs.Text.Squeeze

/-!
# Squeezed tokens

White space may be squeezed without changing how a text is cut into tokens, if the text is `Regular`
and its tokens are closed: each token is read again from its squeezed source
(`ReadsOne.squeeze`), and so are all tokens of a part of a sheet that does not end with white space
(`Reads.squeeze`).
-/

namespace SheetDiff.Css

variable {c : Char} {cs k k' : List Char} {t : Token} {ts : List Token}

/-! ## Regular texts -/

/-- A text without escapes and NUL whose only white space is that between tokens. -/
structure Regular (cs : List Char) : Prop where
  backslash : '\\' ∉ cs
  nul : '\x00' ∉ cs
  space : ∀ c ∈ cs, Text.isSpace c = true → isBlank c = true

instance : Decidable (Regular cs) :=
  decidable_of_iff
    (('\\' ∉ cs ∧ '\x00' ∉ cs) ∧ cs.all (fun c => !Text.isSpace c || isBlank c) = true) (by
      constructor
      · rintro ⟨⟨hb, hn⟩, hs⟩
        refine ⟨hb, hn, fun c hc hsp => ?_⟩
        simpa [hsp] using List.all_eq_true.1 hs c hc
      · rintro ⟨hb, hn, hs⟩
        refine ⟨⟨hb, hn⟩, List.all_eq_true.2 fun c hc => ?_⟩
        cases hsp : Text.isSpace c with
        | false => rfl
        | true => exact hs c hc hsp)

theorem Regular.mono {ds : List Char} (h : Regular cs) (hd : ∀ c ∈ ds, c ∈ cs) : Regular ds :=
  ⟨fun hm => h.backslash (hd _ hm), fun hm => h.nul (hd _ hm), fun c hc => h.space c (hd c hc)⟩

theorem Regular.not_isSpace (h : Regular cs) (hc : c ∈ cs) (hb : isBlank c = false) :
    Text.isSpace c = false := by
  rw [← Bool.not_eq_true]
  intro hs
  simp [h.space c hc hs] at hb

private theorem isBlank_of_isNameChar (h : isNameChar c = true) : isBlank c = false := by
  rw [← Bool.not_eq_true]
  intro hb
  simp [isNameChar_of_isStop (isStop_of_isBlank hb)] at h

/-- Local tokens hold no white space. -/
theorem ReadsOne.solid_of_isLocal (h : ReadsOne t k) (hr : Regular t.source)
    (hk : t.kind.isLocal = true) : ∀ c ∈ t.source, Text.isSpace c = false := by
  intro d hd
  refine hr.not_isSpace hd ?_
  rw [← Bool.not_eq_true]
  intro hb
  obtain ⟨c, cs, hsrc, hs⟩ := h
  rw [hsrc] at hd
  have hk : (scan c (cs ++ k)).1.isLocal = true := by rw [hs]; exact hk
  rcases List.mem_cons.1 hd with rfl | hd
  · rw [scan, if_pos hb] at hk
    simp [Kind.isLocal] at hk
  · obtain ⟨w, v, rfl⟩ := List.append_of_mem hd
    have hw : '\\' ∉ c :: w := fun hm => hr.backslash (by
      rw [hsrc]
      rcases List.mem_cons.1 hm with rfl | hm
      · simp
      · simp [hm])
    rw [List.append_assoc] at hk hs
    have hn := scan_stop hw (stops_cons (isStop_of_isBlank hb) (v ++ k)) hk
    rw [← List.cons_append, hs] at hn
    simp only [List.length_append, List.length_cons] at hn
    omega

/-! ## Squeezing tokens -/

/-- A kind with the contents of strings and comments squeezed. -/
def Kind.squeeze : Kind → Kind
  | .string s => .string (String.ofList (Text.squeeze s.toList))
  | .comment s => .comment (String.ofList (Text.squeeze s.toList))
  | k => k

/-- A token with its white space squeezed. -/
def Token.squeeze (t : Token) : Token := ⟨t.kind.squeeze, Text.squeeze t.source, t.line⟩

theorem Kind.squeeze_of_isLocal {k : Kind} (h : k.isLocal = true) : k.squeeze = k := by
  cases k <;> simp_all [Kind.squeeze, Kind.isLocal]

private theorem Kind.squeeze_of_isUrl {k : Kind} (h : k.isUrl = true) : k.squeeze = k := by
  cases k <;> simp_all [Kind.squeeze, Kind.isUrl]

theorem Blanks.isSpace {b : List Char} (h : Blanks b) : ∀ c ∈ b, Text.isSpace c = true :=
  fun c hc => isSpace_of_isBlank (h c hc)

theorem Blanks.squeeze {b : List Char} (h : Blanks b) : Blanks (Text.squeeze b) := by
  intro c hc
  rcases Text.mem_squeeze hc with rfl | hc
  · rfl
  · exact h c hc

/-- The sources of tokens other than white space start and end solid. -/
theorem ReadsOne.solid (h : ReadsOne t k) (hc : t.IsClosed) (hr : Regular t.source)
    (hk : t.kind ≠ .whitespace) :
    Text.StartsSolid t.source ∧ Text.EndsSolid t.source := by
  rcases Kind.cases hc.ne_badString with hl | hw | ⟨s, hs⟩ | ⟨s, hs⟩ | hu
  · have hsolid := h.solid_of_isLocal hr hl
    exact ⟨fun c hc => hsolid c (List.mem_of_mem_head? hc),
      fun c hc => hsolid c (List.mem_of_mem_getLast? hc)⟩
  · exact absurd hw hk
  · obtain ⟨q, body, hq, hsrc, -⟩ := h.string hs hc hr.backslash
    have hqs : Text.isSpace q = false := by
      rcases hq with rfl | rfl <;> decide
    rw [hsrc]
    refine ⟨by simpa [Text.StartsSolid] using hqs, ?_⟩
    rw [← List.cons_append, Text.EndsSolid, List.getLast?_concat]
    simpa using hqs
  · obtain ⟨hsrc, -⟩ := h.comment hs hc
    rw [hsrc]
    refine ⟨by simp [Text.StartsSolid]; decide, ?_⟩
    have hlast : ('/' :: '*' :: (s.toList ++ ['*', '/'])).getLast? = some '/' := by
      simp [List.getLast?_cons]
    rw [Text.EndsSolid, hlast]
    rintro c ⟨⟩
    decide
  · obtain ⟨c, m, hm, hstart, e, hend, he⟩ : ∃ c m, UrlName (c :: m) ∧ t.source.head? = some c ∧
        ∃ e, t.source.getLast? = some e ∧ Text.isSpace e = false := by
      rcases Kind.isUrl_cases hu with ⟨s, hs⟩ | ⟨s, hs⟩ | ⟨name, hs, -⟩
      · obtain ⟨c, m, b₁, body, b₂, hsrc, hm, -⟩ := h.url hs hc hr.backslash
        exact ⟨c, m, hm, by simp [hsrc], ')', by simp [hsrc, List.getLast?_cons], by decide⟩
      · simp [Token.IsClosed, hs] at hc
      · obtain ⟨c, m, hsrc, hm, -⟩ := h.urlFunction hs (by rw [← hs]; exact hu) hr.backslash
        exact ⟨c, m, hm, by simp [hsrc], '(', by simp [hsrc, List.getLast?_cons], by decide⟩
    refine ⟨?_, fun d hd => ?_⟩
    · rintro d hd
      obtain rfl : c = d := Option.some.inj (hstart.symm.trans hd)
      exact hr.not_isSpace (List.mem_of_mem_head? hstart)
        (isBlank_of_isNameChar (hm.chars c (by simp)))
    · obtain rfl : e = d := Option.some.inj (hend.symm.trans hd)
      exact he

private theorem squeeze_enclosed {q : Char} (hq : Text.isSpace q = false) (body : List Char) :
    Text.squeeze (q :: (body ++ [q])) = q :: (Text.squeeze body ++ [q]) := by
  have hs : Text.StartsSolid [q] := by simpa [Text.StartsSolid] using hq
  rw [Text.squeeze_cons_of_not_isSpace hq, Text.squeeze_append (.inr hs),
    Text.squeeze_cons_of_not_isSpace hq]
  rfl

theorem squeeze_comment (body : List Char) :
    Text.squeeze ('/' :: '*' :: (body ++ ['*', '/'])) =
      '/' :: '*' :: (Text.squeeze body ++ ['*', '/']) := by
  have hst : Text.StartsSolid ['*', '/'] := by simp [Text.StartsSolid]; decide
  rw [Text.squeeze_cons_of_not_isSpace (by decide), Text.squeeze_cons_of_not_isSpace (by decide),
    Text.squeeze_append (.inr hst),
    Text.squeeze_of_solid (List.forall_mem_cons.2 ⟨show Text.isSpace '*' = false by decide,
      List.forall_mem_singleton.2 (show Text.isSpace '/' = false by decide)⟩)]

theorem not_closesComment_squeeze {body : List Char} (h : ¬ ClosesComment body) :
    ¬ ClosesComment (Text.squeeze body) := fun hcl =>
  h (Text.infix_of_squeeze (by decide) (by decide) hcl)

/-- An address keeps its form when it is squeezed. -/
private theorem squeeze_address {c : Char} {m b₁ body b₂ : List Char} (ha : Address b₁ body b₂)
    (hr : Regular (c :: (m ++ '(' :: (b₁ ++ (body ++ (b₂ ++ [')']))))))
    (hm : ∀ d ∈ c :: m, isNameChar d = true) :
    Text.squeeze (c :: (m ++ '(' :: (b₁ ++ (body ++ (b₂ ++ [')']))))) =
      c :: (m ++ '(' :: (Text.squeeze b₁ ++ (body ++ (Text.squeeze b₂ ++ [')'])))) ∧
      Address (Text.squeeze b₁) body (Text.squeeze b₂) := by
  have hname : ∀ d ∈ c :: m, Text.isSpace d = false := by
    intro d hd
    refine hr.not_isSpace ?_ (isBlank_of_isNameChar (hm d hd))
    rcases List.mem_cons.1 hd with rfl | hd <;> simp [*]
  have hbody : ∀ d ∈ body, Text.isSpace d = false := fun d hd =>
    hr.not_isSpace (by simp [hd]) (ha.chars d hd).1
  have hclose : Text.StartsSolid [')'] := by simp [Text.StartsSolid]; decide
  have hrest : Text.StartsSolid (body ++ (b₂ ++ [')'])) := by
    cases hbd : body with
    | nil => simpa [ha.nil hbd] using hclose
    | cons d ds => simpa [Text.StartsSolid] using hbody d (by simp [hbd])
  refine ⟨?_, ha.before.squeeze, ha.chars, ha.behind.squeeze, fun h => by simp [ha.nil h, Text.squeeze]⟩
  rw [← List.cons_append, Text.squeeze_append_left hname,
    Text.squeeze_cons_of_not_isSpace (by decide), Text.squeeze_append (.inr hrest),
    Text.squeeze_append_left hbody, Text.squeeze_append (.inr hclose),
    Text.squeeze_of_solid (List.forall_mem_singleton.2 (show Text.isSpace ')' = false by decide))]
  rfl

/-- A closed address is read again from its squeezed source, whatever follows. -/
theorem ReadsOne.squeeze_url {text : String} (h : ReadsOne t k) (hk : t.kind = .url text)
    (hc : t.IsClosed) (hr : Regular t.source) (k' : List Char) :
    ReadsOne ⟨t.kind, Text.squeeze t.source, t.line⟩ k' := by
  obtain ⟨c, m, b₁, body, b₂, hsrc, hm, ha, rfl⟩ := h.url hk hc hr.backslash
  obtain ⟨hsq, ha'⟩ := squeeze_address ha (hsrc ▸ hr) hm.chars
  rw [hk, hsrc, hsq]
  exact readsOne_url hm ha' t.line k'

/-- Each token is read again from its squeezed source, if it is not followed by anything that
continues it, white space by something else, and the name of an address by a string. -/
theorem ReadsOne.squeeze (h : ReadsOne t k) (hc : t.IsClosed) (hr : Regular t.source)
    (hbk : '\\' ∉ k) (hsplit : ∃ p r r', k = p ++ r ∧ k' = p ++ r' ∧ Stops r')
    (hspace : t.kind = .whitespace → ∀ c ∈ k'.head?, isBlank c = false)
    (hquote : t.kind.opens? ≠ none → unquotedUrl? k = none → unquotedUrl? k' = none) :
    ReadsOne t.squeeze k' := by
  rcases Kind.cases hc.ne_badString with hl | hw | ⟨s, hs⟩ | ⟨s, hs⟩ | hu
  · have hsolid := h.solid_of_isLocal hr hl
    rw [Token.squeeze, Kind.squeeze_of_isLocal hl, Text.squeeze_of_solid hsolid]
    obtain ⟨p, r, r', rfl, rfl, hr'⟩ := hsplit
    obtain ⟨c, cs, hsrc, hs⟩ := h
    have hw : '\\' ∉ c :: (cs ++ p) := by
      have h1 := hr.backslash
      rw [hsrc] at h1
      simp only [List.mem_cons, List.mem_append, not_or] at h1 hbk ⊢
      exact ⟨h1.1, h1.2, hbk.1⟩
    have hbr : '\\' ∉ r := fun hm => hbk (List.mem_append_right _ hm)
    rw [← List.append_assoc] at hs
    refine ⟨c, cs, hsrc, ?_⟩
    rw [← List.append_assoc, scan_local hw hbr hr' (by rw [hs]; exact hl) (by rw [hs]; simp), hs]
  · obtain ⟨hb, -⟩ := h.whitespace hw
    rw [Token.squeeze, Text.squeeze_of_isSpace hb.isSpace h.source_ne, hw]
    refine ⟨' ', [], rfl, ?_⟩
    have hk := hspace hw
    rw [List.nil_append, scan, if_pos (by decide)]
    cases k' with
    | nil => rfl
    | cons d k' => simp [hk d (by simp), Kind.squeeze]
  · obtain ⟨q, body, hq, hsrc, hbody, rfl⟩ := h.string hs hc hr.backslash
    have hqs : Text.isSpace q = false := by
      rcases hq with rfl | rfl <;> decide
    have hn : '\x00' ∉ body := fun hm => hr.nul (by simp [hsrc, hm])
    have hns : '\x00' ∉ Text.squeeze body := fun hm => by
      rcases Text.mem_squeeze hm with h0 | h0
      · exact absurd h0 (by decide)
      · exact hn h0
    have hbs : QuotedChars q (Text.squeeze body) := by
      intro c hc
      rcases Text.mem_squeeze hc with rfl | hc
      · refine ⟨?_, by decide, by decide⟩
        rintro rfl
        exact absurd hqs (by decide)
      · exact hbody c hc
    have hread := readsOne_string hq hbs t.line k'
    rw [map_denoted hns] at hread
    rw [Token.squeeze, hs, Kind.squeeze, map_denoted hn, String.toList_ofList, hsrc,
      squeeze_enclosed hqs]
    exact hread
  · obtain ⟨hsrc, hno⟩ := h.comment hs hc
    rw [Token.squeeze, hs, Kind.squeeze, hsrc, squeeze_comment]
    exact readsOne_comment (not_closesComment_squeeze hno) t.line k'
  · rcases Kind.isUrl_cases hu with ⟨s, hs⟩ | ⟨s, hs⟩ | ⟨name, hs, -⟩
    · rw [Token.squeeze, Kind.squeeze_of_isUrl hu]
      exact h.squeeze_url hs hc hr k'
    · simp [Token.IsClosed, hs] at hc
    · obtain ⟨c, m, hsrc, hm, rfl, hn⟩ :=
        h.urlFunction hs (by rw [← hs]; exact hu) hr.backslash
      have hsolid : ∀ d ∈ t.source, Text.isSpace d = false := by
        intro d hd
        refine hr.not_isSpace hd ?_
        rw [hsrc, ← List.cons_append, List.mem_append, List.mem_singleton] at hd
        rcases hd with hd | rfl
        · exact isBlank_of_isNameChar (hm.chars d hd)
        · decide
      rw [Token.squeeze, Kind.squeeze_of_isUrl hu, hs, Text.squeeze_of_solid hsolid]
      refine ⟨c, m ++ ['('], hsrc, ?_⟩
      rw [List.append_assoc, List.singleton_append, scan_urlName hm, hquote (by simp [hs, Kind.opens?]) hn]
      simp

/-! ## Squeezing several tokens -/

/-- Two texts that start with the same character, which is not blank. -/
def SameStart (k k' : List Char) : Prop := ∃ c u v, k = c :: u ∧ k' = c :: v ∧ isBlank c = false

/-- The first character that is not blank is kept. -/
private theorem unquotedUrl?_squeeze (hr : Regular cs)
    (hs : (∀ c ∈ cs, Text.isSpace c = true) → SameStart k k')
    (h : unquotedUrl? (cs ++ k) = none) : unquotedUrl? (Text.squeeze cs ++ k') = none := by
  rcases Text.isSpace_or_exists cs with hall | ⟨s, c, w, rfl, hsp, hc⟩
  · obtain ⟨c, u, v, rfl, rfl, hc⟩ := hs hall
    have hb : Blanks cs := fun d hd => hr.space d hd (hall d hd)
    rw [unquotedUrl?_eq_none hb hc] at h
    rwa [unquotedUrl?_eq_none hb.squeeze hc]
  · have hcb : isBlank c = false := by
      rw [← Bool.not_eq_true]
      intro hb
      simp [isSpace_of_isBlank hb] at hc
    have hb : Blanks s := fun d hd => hr.space d (by simp [hd]) (hsp d hd)
    have hst : Text.StartsSolid (c :: w) := by simpa [Text.StartsSolid] using hc
    rw [List.append_assoc, List.cons_append, unquotedUrl?_eq_none hb hcb] at h
    rwa [Text.squeeze_append (.inr hst), Text.squeeze_cons_of_not_isSpace hc, List.append_assoc,
      List.cons_append, unquotedUrl?_eq_none hb.squeeze hcb]

/-- Tokens that do not start with white space start solid. -/
theorem Reads.startsSolid (h : Reads ts k) (hc : ∀ t ∈ ts, t.IsClosed) (hr : Regular (sourceOf ts))
    (hs : ∀ t ∈ ts.head?, t.kind ≠ .whitespace) :
    Text.StartsSolid (sourceOf ts) := by
  cases ts with
  | nil => simp [Text.StartsSolid]
  | cons t ts =>
    rw [sourceOf_cons] at hr ⊢
    have hrt : Regular t.source := hr.mono fun c hc => List.mem_append_left _ hc
    exact (h.1.solid (hc t (by simp)) hrt (hs t rfl)).1.append h.1.source_ne _

/-- Tokens that do not end with white space end solid. -/
theorem Reads.endsSolid (h : Reads ts k) (hc : ∀ t ∈ ts, t.IsClosed) (hr : Regular (sourceOf ts))
    (hs : ∀ t ∈ ts.getLast?, t.kind ≠ .whitespace) :
    Text.EndsSolid (sourceOf ts) := by
  rcases ts.eq_nil_or_concat with rfl | ⟨ts, t, rfl⟩
  · simp [Text.EndsSolid]
  · rw [List.concat_eq_append] at *
    have ht : ReadsOne t k := by
      simpa using (reads_append.1 h).2.1
    have hrt : Regular t.source := hr.mono fun c hc => by simp [hc]
    have hsolid := (ht.solid (hc t (by simp)) hrt (hs t (by simp))).2
    intro d hd
    refine hsolid d ?_
    rw [sourceOf_append, sourceOf_cons, sourceOf_nil, List.append_nil,
      List.getLast?_append_of_ne_nil _ ht.source_ne] at hd
    exact hd

/-- Only white space has a blank source. -/
private theorem ReadsOne.whitespace_of_isSpace (h : ReadsOne t k) (hc : t.IsClosed)
    (hr : Regular t.source) (hs : ∀ c ∈ t.source, Text.isSpace c = true) :
    t.kind = .whitespace := by
  refine Decidable.byContradiction fun hk => ?_
  obtain ⟨hst, -⟩ := h.solid hc hr hk
  obtain ⟨c, cs, hsrc⟩ := List.exists_cons_of_ne_nil h.source_ne
  have h1 := hst c (by simp [hsrc])
  simp [hs c (by simp [hsrc])] at h1

/-- Tokens are read again from their squeezed sources, up to a text that goes on like the one behind
them and then stops. White space at their end needs the same character behind it. -/
theorem Reads.squeeze (h : Reads ts k) (hc : ∀ t ∈ ts, t.IsClosed) (hr : Regular (sourceOf ts))
    (hbk : '\\' ∉ k) (hsplit : ∃ p r r', k = p ++ r ∧ k' = p ++ r' ∧ Stops r')
    (hspace : ∀ t ∈ ts.getLast?, t.kind = .whitespace → SameStart k k')
    (hopen : ∀ t ∈ ts.getLast?, t.kind.opens? = none) :
    Reads (ts.map Token.squeeze) k' ∧
      sourceOf (ts.map Token.squeeze) = Text.squeeze (sourceOf ts) := by
  induction ts with
  | nil => exact ⟨trivial, rfl⟩
  | cons t ts ih =>
    obtain ⟨ht, hts⟩ := h
    have hlast : ∀ u ∈ ts.getLast?, u ∈ (t :: ts).getLast? := by
      intro u hu
      cases ts with
      | nil => simp at hu
      | cons v ts => rwa [List.getLast?_cons_cons]
    rw [sourceOf_cons] at hr
    have hrt : Regular t.source := hr.mono fun c hc => List.mem_append_left _ hc
    have hrs : Regular (sourceOf ts) := hr.mono fun c hc => List.mem_append_right _ hc
    have hct := hc t (by simp)
    have hbs : '\\' ∉ sourceOf ts ++ k := by
      rw [List.mem_append, not_or]
      exact ⟨hrs.backslash, hbk⟩
    obtain ⟨ihr, ihs⟩ := ih hts (fun u hu => hc u (by simp [hu])) hrs
      (fun u hu => hspace u (hlast u hu)) (fun u hu => hopen u (hlast u hu))
    -- White space is followed by something else.
    have hnext : t.kind = .whitespace → ∀ c ∈ (sourceOf ts).head?, Text.isSpace c = false := by
      intro hw c hcs
      refine hrs.not_isSpace (List.mem_of_mem_head? hcs) ((ht.whitespace hw).2 c ?_)
      cases hts : sourceOf ts with
      | nil => simp [hts] at hcs
      | cons d ds => simpa [hts] using hcs
    refine ⟨⟨?_, ihr⟩, ?_⟩
    · rw [ihs]
      refine ht.squeeze hct hrt hbs ?_ ?_ ?_
      · obtain ⟨p, r, r', hp, hp', -, hrr⟩ := Text.squeeze_split (sourceOf ts)
        rcases hrr with ⟨rfl, rfl⟩ | ⟨s, rfl⟩
        · obtain ⟨p₀, r₀, r₀', rfl, rfl, hst⟩ := hsplit
          exact ⟨p ++ p₀, r₀, r₀', by simp [hp], by simp [hp'], hst⟩
        · exact ⟨p, r ++ k, ' ' :: s ++ k', by simp [hp], by simp [hp'],
            stops_cons (by decide) _⟩
      · intro hw c hcs
        cases hsrc : sourceOf ts with
        | nil =>
          have hnil : ts = [] := by
            cases ts with
            | nil => rfl
            | cons u us =>
              exact absurd (List.append_eq_nil_iff.1 hsrc).1 hts.1.source_ne
          obtain ⟨d, u, v, -, rfl, hd⟩ := hspace t (by simp [hnil]) hw
          obtain rfl : d = c := by simpa [hsrc, Text.squeeze] using hcs
          exact hd
        | cons d ds =>
          have hd : Text.isSpace d = false := hnext hw d (by simp [hsrc])
          obtain rfl : d = c := by
            simpa [hsrc, Text.squeeze_cons_of_not_isSpace hd] using hcs
          rw [← Bool.not_eq_true]
          intro hb
          simp [isSpace_of_isBlank hb] at hd
      · intro ho
        refine unquotedUrl?_squeeze hrs fun hall => ?_
        have hne : ts ≠ [] := by
          rintro rfl
          exact ho (hopen t (by simp))
        obtain ⟨us, u, rfl⟩ := List.eq_nil_or_concat ts |>.resolve_left hne
        rw [List.concat_eq_append] at *
        have hu := (reads_append.1 hts).2.1
        have hru : Regular u.source := hrs.mono fun c hc => by simp [hc]
        have hcu := hc u (by simp)
        have hw := hu.whitespace_of_isSpace hcu hru fun c hc => hall c (by simp [hc])
        exact hspace u (hlast u (by simp)) hw
    · rw [List.map_cons, sourceOf_cons, ihs, sourceOf_cons]
      refine (Text.squeeze_append ?_).symm
      by_cases hw : t.kind = .whitespace
      · exact .inr (hnext hw)
      · exact .inl (ht.solid hct hrt hw).2

end SheetDiff.Css
