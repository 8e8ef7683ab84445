import SheetDiff.Proofs.Css.Joint
import SheetDiff.Proofs.Css.Spell

/-!
# Tokens of collapsed texts

`kinds` are the kinds of the tokens of a text, white space left out and comments collapsed. Collapsing a
text keeps them if the text is `Steady` (`kinds_collapse`): each of its tokens, white space and comments
aside, is the same by itself when the white space inside of it is collapsed, and white space at its end
is not joined to more of it. The settled text may then stand behind each token instead of the text
itself (`follows_settle`), so that one token after the other is read again (`exists_settled`).
-/

namespace SheetDiff.Css

open Text (settle)

variable {c : Char} {cs k s s' : List Char} {t u : Token} {ts : List Token}

/-! ## Kinds of tokens -/

/-- A kind with the white space of a comment collapsed. -/
def Kind.tidied : Kind → Kind
  | .comment text => .comment (Text.collapse text.toList)
  | k => k

/-- The kinds of tokens other than white space. -/
def kindsOf (ts : List Token) : List Kind :=
  (ts.map (·.kind.tidied)).filter (· ≠ .whitespace)

/-- The kinds of the tokens of a text, white space left out and comments collapsed. -/
def kinds (cs : List Char) : List Kind := kindsOf (tokens cs)

theorem kindsOf_cons (t : Token) (ts : List Token) : kindsOf (t :: ts) =
    if t.kind = .whitespace then kindsOf ts else t.kind.tidied :: kindsOf ts := by
  have htidied : t.kind.tidied = .whitespace ↔ t.kind = .whitespace := by
    cases t.kind <;> simp [Kind.tidied]
  by_cases hw : t.kind = .whitespace
  · simp [kindsOf, hw, Kind.tidied]
  · simp [kindsOf, hw, htidied]

theorem kindsOf_unlined (ts : List Token) : kindsOf (ts.map Token.unlined) = kindsOf ts := by
  simp only [kindsOf, List.map_map]
  rfl

theorem kinds_of_reads (h : Reads ts []) : kinds (sourceOf ts) = kindsOf ts := by
  have hlex := lex_append h
  rw [List.append_nil, lex_nil, List.append_nil] at hlex
  rw [kinds, ← kindsOf_unlined, ← kindsOf_unlined ts, ← hlex]
  rfl

/-! ## Steady texts -/

/-- A token, with the tokens `ts` behind it, that is kept when the text is collapsed. It is neither a
broken string nor a backslash at the end of a line, and its white space is that between tokens. Either
each run of white space in it is one space, or it is the same token with its runs squeezed, whatever
follows, and white space at its end is not joined to more of it; or nothing but white space follows,
and the token collapsed by itself is the same. -/
structure Token.Steady (t : Token) (ts : List Token) : Prop where
  backslash : t.kind ≠ .delim '\\'
  whole : ∀ text, t.kind ≠ .badString text
  blanks : ∀ c ∈ t.source, Text.isSpace c = true → isBlank c = true
  kept : ((Text.squeeze t.source = t.source ∨
        ∀ k, ReadsOne ⟨t.kind, Text.squeeze t.source, t.line⟩ k) ∧
      (Text.EndsSolid t.source ∨ ∃ c ∈ (sourceOf ts).head?, Text.isSpace c = false)) ∨
    ((∀ u ∈ ts, u.kind = .whitespace) ∧ ReadsOne ⟨t.kind, settle t.source, t.line⟩ [])

/-- Tokens each of which is white space, a comment or steady before those behind it. -/
def AllSteady : List Token → Prop
  | [] => True
  | t :: ts => (t.kind.isSpacing = false → t.Steady ts) ∧ AllSteady ts

/-- A text with tokens that are kept when it is collapsed. -/
def Steady (cs : List Char) : Prop := AllSteady (tokens cs)

private theorem kind_of_isBlank (h : ReadsOne t k) (hs : ∃ c ∈ t.source.head?, isBlank c = true) :
    t.kind = .whitespace := by
  obtain ⟨c, cs, hsrc, hscan⟩ := h
  obtain ⟨d, hd, hb⟩ := hs
  obtain rfl : c = d := by simpa [hsrc] using hd
  rw [scan, if_pos hb] at hscan
  exact (Prod.mk.inj hscan).1.symm

/-- A steady token other than white space starts solid. -/
theorem Token.Steady.startsSolid (hs : t.Steady ts) (h : ReadsOne t k)
    (hw : t.kind ≠ .whitespace) : Text.StartsSolid t.source := by
  intro c hc
  rw [← Bool.not_eq_true]
  intro hsp
  exact hw (kind_of_isBlank h ⟨c, hc, hs.blanks c (List.mem_of_mem_head? hc) hsp⟩)

private theorem startsSolid_of_comment {text : String} (h : ReadsOne t k)
    (hk : t.kind = .comment text) : Text.StartsSolid t.source := by
  obtain ⟨c, cs, hsrc, hs⟩ := h
  obtain ⟨ds, rfl, -⟩ := scan_comment ((congrArg Prod.fst hs).trans hk)
  rw [hsrc]
  simp only [Text.StartsSolid, List.head?_cons, Option.mem_some_iff, forall_eq']
  decide

/-- Tokens other than white space start solid where they are kept. -/
private theorem startsSolid_of_steady (h : ReadsOne t k) (hw : t.kind ≠ .whitespace)
    (hs : t.kind.isSpacing = false → t.Steady ts) : Text.StartsSolid t.source := by
  cases hsp : t.kind.isSpacing with
  | false => exact (hs hsp).startsSolid h hw
  | true =>
    obtain ⟨text, hk⟩ : ∃ text, t.kind = .comment text := by
      cases hk : t.kind <;> simp_all [Kind.isSpacing]
    exact startsSolid_of_comment h hk

/-- What stands behind white space starts solid. -/
private theorem startsSolid_behind (hr : Reads (t :: ts) []) (hw : t.kind = .whitespace)
    (hs : AllSteady ts) : Text.StartsSolid (sourceOf ts) := by
  cases ts with
  | nil => simp [Text.StartsSolid]
  | cons u us =>
    obtain ⟨ht, hu, -⟩ := hr
    have hnot : u.kind ≠ .whitespace := by
      intro hwu
      obtain ⟨c, cs, hsrc⟩ := List.exists_cons_of_ne_nil hu.source_ne
      have hb := (hu.whitespace hwu).1 c (by simp [hsrc])
      have hc := (ht.whitespace hw).2 c (by simp [hsrc])
      simp [hb] at hc
    exact (startsSolid_of_steady hu hnot hs.1).append hu.source_ne _

/-! ## What follows a token -/

/-- A text `s'` that may stand for `s` behind a token: both go alike up to places that are joint. -/
structure Follows (s s' : List Char) : Prop where
  split : ∃ p q q', s = p ++ q ∧ s' = p ++ q' ∧ Joint q q' ∧
    (startsWith isNewline q = true → p ≠ ['\\'])
  address : unquotedUrl? s = none → unquotedUrl? s' = none

theorem ReadsOne.follows (h : ReadsOne t s) (hf : Follows s s') (hb : t.kind ≠ .delim '\\')
    (hw : ∀ text, t.kind ≠ .badString text) : ReadsOne t s' := by
  obtain ⟨p, q, q', rfl, rfl, j, hp⟩ := hf.split
  exact h.joint j (fun hq => ⟨hp hq, hb, hw⟩) hf.address

theorem joint_nil : Joint [] [] :=
  ⟨dull_nil, dull_nil, fun _ => rfl, fun h => h, rfl⟩

/-- White space in place of blanks, or nothing. -/
private theorem joint_blanks (hc : isBlank c = true) (h : s' = [] ∨ ∃ k, s' = ' ' :: k) :
    Joint (c :: cs) s' := by
  have hdull : c ∈ dullChars := by
    simp only [isBlank, isNewline, Bool.or_eq_true, decide_eq_true_eq] at hc
    rcases hc with (rfl | rfl) | (rfl | rfl) | rfl <;> decide
  refine ⟨dull_cons hdull cs, ?_, by simp, fun _ => by simpa [startsWith] using hc, ?_⟩
  · rcases h with rfl | ⟨k, rfl⟩
    · exact dull_nil
    · exact dull_cons (by decide) k
  · rcases h with rfl | ⟨k, rfl⟩ <;> rfl

/-- A lone backslash before a line break is a token by itself. -/
private theorem eq_delim_of_backslash (h : ReadsOne t k) {v : List Char} (hsrc : t.source = '\\' :: v)
    (hn : startsWith isNewline (v ++ k) = true) : t.kind = .delim '\\' ∧ v = [] := by
  obtain ⟨c, cs, hcs, hs⟩ := h
  obtain ⟨rfl, rfl⟩ := List.cons.inj (hsrc.symm.trans hcs)
  have hscan : scan '\\' (v ++ k) = (.delim '\\', 0) := by
    have hsym : scan '\\' (v ++ k) = symbol '\\' (v ++ k) := by
      simp [scan, isBlank, isNewline, isNameStart, isNonAscii]
    rw [hsym, symbol, if_pos hn]
  rw [hscan] at hs
  obtain ⟨hkind, hlen⟩ := Prod.mk.inj hs
  exact ⟨hkind.symm, List.eq_nil_of_length_eq_zero hlen.symm⟩

/-- A steady token in front of a text that may be replaced, or the end of the text that is replaced if
there is white space in the token. -/
private theorem Token.Steady.split (hs : t.Steady ts) (h : ReadsOne t k) {p q q' : List Char}
    (hk : k = p ++ q) (hk' : settle k = p ++ q') (j : Joint q q') :
    ∃ p q q', t.source ++ k = p ++ q ∧ settle (t.source ++ k) = p ++ q' ∧ Joint q q' ∧
      (startsWith isNewline q = true → p ≠ ['\\']) := by
  obtain ⟨w, r, r', hsrc, -, hw, hr⟩ := Text.settle_split t.source
  rcases hr with ⟨rfl, -⟩ | ⟨⟨c, v, rfl, hc⟩, -⟩
  · rw [List.append_nil] at hsrc
    refine ⟨t.source ++ p, q, q', ?_, ?_, j, ?_⟩
    · rw [hk, List.append_assoc]
    · rw [Text.settle_append_left (hsrc ▸ hw), hk', List.append_assoc]
    · intro hn hback
      rcases List.append_eq_singleton_iff.1 hback with ⟨hnil, -⟩ | ⟨hlone, rfl⟩
      · exact h.source_ne hnil
      · refine hs.backslash (eq_delim_of_backslash h hlone ?_).1
        rwa [hk]
  · have hblank : isBlank c = true := hs.blanks c (by simp [hsrc]) hc
    refine ⟨w, c :: (v ++ k), settle (c :: (v ++ k)), ?_, ?_,
      joint_blanks hblank (Text.settle_of_startsSpace hc _), ?_⟩
    · rw [hsrc, List.append_assoc, List.cons_append]
    · rw [hsrc, List.append_assoc, Text.settle_append_left hw, List.cons_append]
    · rintro hn rfl
      have hnil := (eq_delim_of_backslash h (v := c :: v) (by rw [hsrc]; rfl) hn).2
      simp at hnil

/-- A text that starts with a comment. -/
private theorem joint_slash (cs ds : List Char) : Joint ('/' :: cs) ('/' :: ds) :=
  ⟨dull_cons (by decide) cs, dull_cons (by decide) ds, by simp,
    by simp [startsWith, isBlank, isNewline], rfl⟩

private theorem joint_spacing (h : ReadsOne t k) (hsp : t.kind.isSpacing = true) (cs : List Char) :
    Joint (t.source ++ cs) (settle (t.source ++ cs)) := by
  obtain ⟨c, v, hsrc⟩ := List.exists_cons_of_ne_nil h.source_ne
  rw [hsrc, List.cons_append]
  cases hk : t.kind with
  | whitespace =>
    have hb : isBlank c = true := (h.whitespace hk).1 c (by simp [hsrc])
    exact joint_blanks hb (Text.settle_of_startsSpace (isSpace_of_isBlank hb) _)
  | comment text =>
    obtain ⟨c', cs', hsrc', hs⟩ := h
    obtain ⟨ds, rfl, -⟩ := scan_comment ((congrArg Prod.fst hs).trans hk)
    obtain rfl := (List.cons.inj (hsrc.symm.trans hsrc')).1
    rw [Text.settle_cons_of_not_isSpace (by decide)]
    exact joint_slash _ _
  | _ => simp [hk, Kind.isSpacing] at hsp

/-- A quote behind blanks is still there when the text is settled. -/
private theorem unquotedUrl?_settle (h : unquotedUrl? cs = none) : unquotedUrl? (settle cs) = none := by
  obtain ⟨b, w, rfl, hb, hw⟩ := blanks_split cs
  cases w with
  | nil =>
    rw [unquotedUrl?_append hb hw] at h
    simp [unblankedUrl?, startsWith, address] at h
  | cons c w =>
    have hc := hw c (by simp)
    rw [unquotedUrl?_eq_none hb hc] at h
    have hsolid : Text.isSpace c = false := by
      rcases h with rfl | rfl <;> decide
    rwa [Text.settle_append (.inr ⟨c, rfl, hsolid⟩), Text.settle_cons_of_not_isSpace hsolid,
      unquotedUrl?_eq_none hb.squeeze hc]

/-- Where the tokens of a text are kept, the text may be replaced by the settled one. -/
theorem follows_settle (hr : Reads ts []) (hs : AllSteady ts) :
    Follows (sourceOf ts) (settle (sourceOf ts)) := by
  refine ⟨?_, unquotedUrl?_settle⟩
  induction ts with
  | nil => exact ⟨[], [], [], rfl, rfl, joint_nil, by simp [startsWith]⟩
  | cons t ts ih =>
    obtain ⟨ht, hts⟩ := hr
    obtain ⟨hst, hsts⟩ := hs
    rw [List.append_nil] at ht
    cases hsp : t.kind.isSpacing with
    | false =>
      obtain ⟨p, q, q', hk, hk', j, -⟩ := ih hts hsts
      exact (hst hsp).split ht hk hk' j
    | true => exact ⟨[], _, _, rfl, rfl, joint_spacing ht hsp _, by simp⟩

/-! ## Reading the tokens again -/

/-- A comment is closed, or it holds all that is left of the text. -/
private theorem ReadsOne.comment_cases {text : String} (h : ReadsOne t k)
    (hk : t.kind = .comment text) : ¬ ClosesComment text.toList ∧
      (t.source = '/' :: '*' :: (text.toList ++ ['*', '/']) ∨
        t.source = '/' :: '*' :: text.toList ∧ k = []) := by
  obtain ⟨c, cs, hsrc, hs⟩ := h
  obtain ⟨ds, rfl, hds, hcomment, hpos⟩ := scan_comment ((congrArg Prod.fst hs).trans hk)
  rw [hs] at hcomment hpos
  obtain ⟨d, w, rfl⟩ := List.exists_cons_of_length_pos hpos
  obtain ⟨rfl, rfl⟩ : d = '*' ∧ w ++ k = ds := List.cons.inj hds
  rw [List.length_cons, Nat.add_sub_cancel] at hcomment
  obtain ⟨hno, hend⟩ := comment_spec (w ++ k)
  rw [hcomment] at hno hend
  refine ⟨hno, ?_⟩
  rw [hsrc]
  rcases hend with ⟨rest, he, hn⟩ | ⟨he, hn⟩
  · have he : w ++ k = text.toList ++ ['*', '/'] ++ rest := by simpa using he
    exact .inl (by rw [(List.append_inj he (by simpa using hn)).1])
  · obtain ⟨hw, hk⟩ := List.append_inj (he.trans (List.append_nil text.toList).symm) hn
    exact .inr ⟨by rw [hw], hk⟩

private theorem readsOne_openComment {body : List Char} (h : ¬ ClosesComment body) (line : Nat) :
    ReadsOne ⟨.comment (String.ofList body), '/' :: '*' :: body, line⟩ [] := by
  have hcomment : comment body = (body, body.length) := by
    obtain ⟨-, ⟨rest, he, -⟩ | ⟨he, hn⟩⟩ := comment_spec body
    · exact absurd ⟨_, rest, by rw [List.append_assoc]; exact he.symm⟩ h
    · rw [← he] at hn
      exact Prod.ext he.symm hn
  refine ⟨'/', '*' :: body, rfl, ?_⟩
  simp [scan, symbol, isBlank, isNewline, isNameStart, isNonAscii, startsWith, hcomment]

/-- A comment is read again from its settled source. -/
private theorem ReadsOne.settle_comment {text : String} (h : ReadsOne t k)
    (hk : t.kind = .comment text) : ∃ u, ReadsOne u (settle k) ∧
      settle (t.source ++ k) = u.source ++ settle k ∧ u.kind.tidied = t.kind.tidied := by
  obtain ⟨hno, hsrc | ⟨hsrc, rfl⟩⟩ := h.comment_cases hk
  · refine ⟨_, readsOne_comment (not_closesComment_squeeze hno) 0 (settle k), ?_, ?_⟩
    · have hend : Text.EndsSolid t.source := by
        rw [hsrc, Text.EndsSolid]
        simp [List.getLast?_cons]
        decide
      rw [Text.settle_append (.inl hend), hsrc, squeeze_comment]
    · rw [hk]
      simp [Kind.tidied, Text.collapse_squeeze]
  · have hopen : ¬ ClosesComment (settle text.toList) := by
      intro hcl
      refine not_closesComment_squeeze hno ?_
      rcases Text.squeeze_eq_settle text.toList with he | he
      · rwa [he]
      · rw [he]
        exact hcl.trans (List.prefix_append _ _).isInfix
    refine ⟨_, readsOne_openComment hopen 0, ?_, ?_⟩
    · rw [hsrc, List.append_nil, Text.settle_cons_of_not_isSpace (by decide),
        Text.settle_cons_of_not_isSpace (by decide)]
      simp [settle]
    · rw [hk]
      simp [Kind.tidied, Text.collapse_settle]

/-- White space before other tokens becomes a space. -/
private theorem settle_whitespace (h : ReadsOne t (sourceOf ts)) (hk : t.kind = .whitespace)
    (hs : Text.StartsSolid (sourceOf ts)) (hne : sourceOf ts ≠ []) :
    ReadsOne ⟨.whitespace, [' '], 0⟩ (settle (sourceOf ts)) ∧
      settle (t.source ++ sourceOf ts) = ' ' :: settle (sourceOf ts) := by
  obtain ⟨c, cs, hsrc⟩ := List.exists_cons_of_ne_nil hne
  have hc : Text.isSpace c = false := hs c (by simp [hsrc])
  rw [hsrc, Text.settle_cons_of_not_isSpace hc]
  constructor
  · refine ⟨' ', [], rfl, ?_⟩
    have hb : isBlank c = false := by
      rw [← Bool.not_eq_true]
      intro hb
      simp [isSpace_of_isBlank hb] at hc
    simp [scan, show isBlank ' ' = true by decide, hb]
  · rw [Text.settle_append (.inr ⟨c, rfl, hc⟩), Text.squeeze_of_isSpace (h.whitespace hk).1.isSpace
      h.source_ne, Text.settle_cons_of_not_isSpace hc]
    rfl

/-- White space holds blanks only. -/
private theorem isSpace_of_whitespace (hr : Reads ts []) (hw : ∀ u ∈ ts, u.kind = .whitespace) :
    ∀ c ∈ sourceOf ts, Text.isSpace c = true := by
  intro c hc
  obtain ⟨u, hu, hcu⟩ := List.mem_flatMap.1 hc
  obtain ⟨us, vs, rfl⟩ := List.append_of_mem hu
  exact isSpace_of_isBlank (((reads_append.1 hr).2.1.whitespace (hw u hu)).1 c hcu)

/-- A steady token is read again before the settled text. -/
private theorem Token.Steady.exists_settled (h : t.Steady ts) (ht : ReadsOne t (sourceOf ts))
    (hr : Reads ts []) (hf : Follows (sourceOf ts) (settle (sourceOf ts))) :
    ∃ u, ReadsOne u (settle (sourceOf ts)) ∧
      settle (t.source ++ sourceOf ts) = u.source ++ settle (sourceOf ts) ∧ u.kind = t.kind := by
  rcases h.kept with ⟨hsame, hparted⟩ | ⟨hw, hlast⟩
  · refine ⟨⟨t.kind, Text.squeeze t.source, t.line⟩, ?_, Text.settle_append hparted, rfl⟩
    rcases hsame with hsame | hsame
    · rw [hsame]
      exact ht.follows hf h.backslash h.whole
    · exact hsame _
  · have hall := isSpace_of_whitespace hr hw
    refine ⟨⟨t.kind, settle t.source, t.line⟩, ?_, ?_, rfl⟩
    · rwa [Text.settle_of_isSpace hall]
    · rw [Text.settle_append_isSpace hall, Text.settle_of_isSpace hall, List.append_nil]

/-- The tokens of a text that are kept are read again from the settled text. -/
theorem exists_settled (hr : Reads ts []) (hs : AllSteady ts) : ∃ us, Reads us [] ∧
    sourceOf us = settle (sourceOf ts) ∧ kindsOf us = kindsOf ts := by
  induction ts with
  | nil => exact ⟨[], trivial, rfl, rfl⟩
  | cons t ts ih =>
    have hall := hr
    obtain ⟨ht, hts⟩ := hr
    obtain ⟨hst, hsts⟩ := hs
    rw [List.append_nil] at ht
    obtain ⟨us, hus, hsource, hkinds⟩ := ih hts hsts
    have hcons {u : Token} (hu : ReadsOne u (settle (sourceOf ts)))
        (hsrc : settle (t.source ++ sourceOf ts) = u.source ++ settle (sourceOf ts))
        (hk : kindsOf (u :: us) = kindsOf (t :: ts)) : ∃ us, Reads us [] ∧
          sourceOf us = settle (sourceOf (t :: ts)) ∧ kindsOf us = kindsOf (t :: ts) := by
      refine ⟨u :: us, ⟨?_, hus⟩, ?_, hk⟩
      · rwa [List.append_nil, hsource]
      · rw [sourceOf_cons, sourceOf_cons, hsource, hsrc]
    have hkept {u : Token} (hk : u.kind.tidied = t.kind.tidied) :
        kindsOf (u :: us) = kindsOf (t :: ts) := by
      simp only [kindsOf, List.map_cons, hk] at hkinds ⊢
      rw [List.filter_cons, List.filter_cons, hkinds]
    cases hsp : t.kind.isSpacing with
    | false =>
      obtain ⟨u, hu, hsrc, hkind⟩ := (hst hsp).exists_settled ht hts (follows_settle hts hsts)
      exact hcons hu hsrc (hkept (by rw [hkind]))
    | true =>
      cases hk : t.kind with
      | comment text =>
        obtain ⟨u, hu, hsrc, hkind⟩ := ht.settle_comment hk
        exact hcons hu hsrc (hkept hkind)
      | whitespace =>
        by_cases hne : sourceOf ts = []
        · refine ⟨us, hus, ?_, ?_⟩
          · rw [hsource, sourceOf_cons, hne, Text.settle_append_isSpace (by simp),
              Text.settle_of_isSpace (ht.whitespace hk).1.isSpace]
            rfl
          · rw [hkinds, kindsOf_cons, if_pos hk]
        · obtain ⟨hu, hsrc⟩ := settle_whitespace ht hk (startsSolid_behind hall hk hsts) hne
          refine hcons hu hsrc ?_
          rw [kindsOf_cons, if_pos rfl, kindsOf_cons, if_pos hk, hkinds]
      | _ => simp [hk, Kind.isSpacing] at hsp

private theorem kinds_collapse_of_startsSolid (hr : Reads ts []) (hs : AllSteady ts)
    (hsolid : Text.StartsSolid (sourceOf ts)) :
    kinds (Text.collapse (sourceOf ts)).toList = kindsOf ts := by
  obtain ⟨us, hus, hsource, hkinds⟩ := exists_settled hr hs
  rw [Text.toList_collapse_settle hsolid, ← hsource, kinds_of_reads hus, hkinds]

/-- Collapsing a steady text keeps the kinds of its tokens. -/
theorem kinds_collapse (h : Steady cs) : kinds (Text.collapse cs).toList = kinds cs := by
  have hkept (ts : List Token) (hr : Reads ts []) (hs : AllSteady ts) :
      kinds (Text.collapse (sourceOf ts)).toList = kindsOf ts := by
    cases ts with
    | nil => exact kinds_collapse_of_startsSolid hr hs (by simp [Text.StartsSolid])
    | cons t ts =>
      by_cases hw : t.kind = .whitespace
      · rw [sourceOf_cons, Text.collapse_append_of_isSpace (hr.1.whitespace hw).1.isSpace,
          kindsOf_cons, if_pos hw]
        exact kinds_collapse_of_startsSolid hr.2 hs.2 (startsSolid_behind hr hw hs.2)
      · exact kinds_collapse_of_startsSolid hr hs
          ((startsSolid_of_steady hr.1 hw hs.1).append hr.1.source_ne _)
  have hcs := hkept (tokens cs) (reads_tokens cs) h
  rwa [sourceOf_tokens] at hcs

end SheetDiff.Css
