import Mathlib.Algebra.GroupWithZero.Nat
import SheetDiff.Proofs.Css.Barrier
import SheetDiff.Proofs.Css.Tally

/-!
# Texts one after the other

A text whose last statement has ended, but for gaps, may be put on a line before another one: the
tokens of both are the tokens of the whole, the later ones further down by the line breaks of the
earlier text, and so are their nodes (`ofText_joined`). Only the white space where they meet is one
token of the whole. What makes this so is that the end of the last statement is an edge, behind which
everything is read afresh (`Reads.barrier`), and that gaps are read alike whatever follows
(`Reads.gaps`).
-/

namespace SheetDiff.Css

variable {t : Token} {ts us : List Token} {b cs k : List Char} {line : Nat}

/-! ## Lines of tokens -/

/-- The line breaks in the sources of tokens. -/
def breaksIn (ts : List Token) : Nat := (ts.map fun t => Text.lineBreaks t.source).sum

@[simp] theorem breaksIn_nil : breaksIn [] = 0 := rfl

@[simp] theorem breaksIn_cons (t : Token) (ts : List Token) :
    breaksIn (t :: ts) = Text.lineBreaks t.source + breaksIn ts := rfl

@[simp] theorem breaksIn_append (ts us : List Token) :
    breaksIn (ts ++ us) = breaksIn ts + breaksIn us := by
  simp [breaksIn]

/-- A token further down in a text. -/
def Token.later (n : Nat) (t : Token) : Token := { t with line := t.line + n }

theorem keepsBrackets_later (n : Nat) : Node.KeepsBrackets (Token.later n) :=
  ⟨fun _ => rfl, fun _ => rfl⟩

/-- A text that starts further down has the same tokens further down. -/
theorem tokensFrom_later (line n : Nat) (cs : List Char) :
    tokensFrom (line + n) cs = (tokensFrom line cs).map (Token.later n) := by
  fun_induction tokensFrom line cs with
  | case1 => simp [tokensFrom]
  | case2 line c cs kind m hs source ih =>
    rw [tokensFrom, hs]
    simp only [List.map_cons, ← ih]
    rw [Nat.add_right_comm]
    rfl

theorem tokensFrom_cons (h : ReadsOne t k) (line : Nat) : tokensFrom line (t.source ++ k) =
    ⟨t.kind, t.source, line⟩ :: tokensFrom (line + Text.lineBreaks t.source) k := by
  obtain ⟨c, cs, hc, hs⟩ := h
  rw [hc, List.cons_append, tokensFrom, hs]
  simp

/-- Tokens at the start of a text are the first ones of every text in which they are read. -/
theorem tokensFrom_append (h : tokensFrom line cs = ts ++ us) (hr : Reads ts k) :
    tokensFrom line (sourceOf ts ++ k) = ts ++ tokensFrom (line + breaksIn ts) k := by
  induction ts generalizing line cs with
  | nil => rfl
  | cons t ts ih =>
    cases cs with
    | nil => simp [tokensFrom] at h
    | cons c cs =>
      cases hs : scan c cs with
      | mk kind n =>
      rw [tokensFrom, hs, List.cons_append] at h
      obtain ⟨rfl, hts⟩ := List.cons.inj h
      rw [sourceOf_cons, List.append_assoc, tokensFrom_cons hr.1, ih hts hr.2, breaksIn_cons,
        Nat.add_assoc]
      rfl

/-- Blanks at the start of a text are a token of their own. -/
theorem tokensFrom_blanks (hb : Blanks b) (hne : b ≠ []) (hk : ∀ c ∈ k.head?, isBlank c = false)
    (line : Nat) : tokensFrom line (b ++ k) =
      ⟨.whitespace, b, line⟩ :: tokensFrom (line + Text.lineBreaks b) k := by
  have hone : Reads [⟨.whitespace, b, line⟩] k := (Fill.blank hne hb).reads hk
  exact tokensFrom_cons (t := ⟨.whitespace, b, line⟩) hone.1 line

/-! ## Gaps -/

/-- The delimiters of a markup comment, with what they are written as. -/
private theorem symbol_markup {c : Char} (h : (symbol c cs).1 = .cdo ∨ (symbol c cs).1 = .cdc) :
    (c = '<' ∧ ['!', '-', '-'].isPrefixOf cs = true ∧ symbol c cs = (.cdo, 3)) ∨
      (c = '-' ∧ ['-', '>'].isPrefixOf cs = true ∧ symbol c cs = (.cdc, 2)) := by
  have hno {k : Kind} (hk : k.isPlain = true) : ¬(k = .cdo ∨ k = .cdc) := by
    rintro (rfl | rfl) <;> simp [Kind.isPlain, Kind.isNamed, Kind.isNumeric] at hk
  have hi := hno (isPlain_identLike (c :: cs))
  have hn := hno (isPlain_numeric (c :: cs))
  unfold symbol at h ⊢
  split at h
  all_goals repeat' split at h
  all_goals simp_all [named, beyond]

/-- What a text starts with, as a whole. -/
private theorem eq_of_isPrefixOf {p ds : List Char} (h : p.isPrefixOf (ds ++ k) = true)
    (hl : p.length = ds.length) : ds = p :=
  ((List.prefix_of_prefix_length_le (List.isPrefixOf_iff_prefix.1 h) (List.prefix_append ds k)
    hl.le).eq_of_length hl).symm

/-- The delimiters of a markup comment are read whatever follows. -/
private theorem ReadsOne.markup (h : ReadsOne t k) (hk : t.kind = .cdo ∨ t.kind = .cdc)
    (k' : List Char) : ReadsOne t k' := by
  obtain ⟨c, cs, hsrc, hs⟩ := h
  have hplain : (scan c (cs ++ k)).1.isPlain = false := by
    rw [hs]
    rcases hk with hk | hk <;> rw [hk] <;> rfl
  rw [scan_eq_symbol hplain] at hs
  have hfst : (Css.symbol c (cs ++ k)).1 = t.kind := congrArg Prod.fst hs
  rcases symbol_markup (hfst ▸ hk) with ⟨rfl, hp, hsym⟩ | ⟨rfl, hp, hsym⟩
  all_goals
    rw [hsym] at hs
    obtain ⟨hkind, hlen⟩ := Prod.mk.inj hs
    obtain rfl := eq_of_isPrefixOf hp hlen
    refine ⟨_, _, hsrc, ?_⟩
    rw [← hkind, scan_eq_symbol (by rfl)]
    rfl

/-- A gap that is not white space is read whatever follows. -/
private theorem ReadsOne.gap (h : ReadsOne t k) (hg : t.kind.isRuleGap = true)
    (hw : t.kind ≠ .whitespace) (hc : ∀ text, t.kind = .comment text → t.IsClosed) (k' : List Char) :
    ReadsOne t k' := by
  cases hk : t.kind with
  | cdo => exact h.markup (.inl hk) k'
  | cdc => exact h.markup (.inr hk) k'
  | comment text =>
    obtain ⟨hsrc, hno⟩ := h.comment hk (hc text hk)
    have hread := readsOne_comment hno t.line k'
    rw [String.ofList_toList, ← hsrc, ← hk] at hread
    exact hread
  | whitespace => exact absurd hk hw
  | _ => simp [hk, Kind.isRuleGap, Kind.isSpacing] at hg

/-- Gaps that do not end with white space are read whatever follows. -/
theorem Reads.gaps (h : Reads ts k) (hg : ∀ t ∈ ts, t.kind.isRuleGap = true)
    (hc : ∀ t ∈ ts, ∀ text, t.kind = .comment text → t.IsClosed)
    (hl : ∀ t ∈ ts.getLast?, t.kind ≠ .whitespace) (k' : List Char) : Reads ts k' := by
  induction ts with
  | nil => trivial
  | cons t ts ih =>
    obtain ⟨ht, hts⟩ := h
    have hrest : Reads ts k' := by
      refine ih hts (fun u hu => hg u (by simp [hu])) (fun u hu => hc u (by simp [hu])) ?_
      intro u hu
      cases ts with
      | nil => simp at hu
      | cons v vs => exact hl u (by rwa [List.getLast?_cons_cons])
    refine ⟨?_, hrest⟩
    by_cases hw : t.kind = .whitespace
    · -- white space goes on up to the next gap, and there is one
      cases ts with
      | nil => exact absurd hw (hl t (by simp))
      | cons u us =>
        obtain ⟨hblank, hnext⟩ := ht.whitespace hw
        obtain ⟨d, ds, hsrc⟩ := List.exists_cons_of_ne_nil hts.1.source_ne
        obtain ⟨kind, source, line⟩ := t
        obtain rfl : kind = .whitespace := hw
        have hfill : Fill [⟨.whitespace, source, line⟩] := .blank ht.source_ne hblank
        refine (hfill.reads fun c hcd => hnext c ?_).1
        simpa [hsrc] using hcd
    · exact ht.gap (hg t (by simp)) hw (hc t (by simp)) _

/-! ## Behind the end of a statement -/

/-- Tokens that end with an edge, if there are any. -/
def EndsEdged (ts : List Token) : Prop := ∀ d ∈ ts.getLast?, ∃ e, d.kind.edge? = some e

/-- What stands before an edge, and the edge, are read whatever follows. -/
theorem Reads.endsEdged (h : Reads ts k) (he : EndsEdged ts) (k' : List Char) : Reads ts k' := by
  rcases ts.eq_nil_or_concat with rfl | ⟨ts, d, rfl⟩
  · trivial
  · rw [List.concat_eq_append] at h he ⊢
    obtain ⟨e, hd⟩ := he d (by simp)
    obtain ⟨hts, hdr, -⟩ := reads_append.1 h
    rw [sourceOf_cons, hdr.edge hd] at hts
    refine reads_append.2 ⟨?_, hdr.edge_anywhere hd _, trivial⟩
    rw [sourceOf_cons, hdr.edge hd]
    exact hts.barrier (p := []) (isEdge_of_edge? hd) _

/-- White space at the start of a text, as a token of its own if there is any. -/
private theorem exists_fill (hb : Blanks b) (hk : ∀ c ∈ k.head?, isBlank c = false) (line : Nat) :
    ∃ g, Fill g ∧ tokensFrom line (b ++ k) = g ++ tokensFrom (line + Text.lineBreaks b) k := by
  by_cases hne : b = []
  · subst hne
    exact ⟨[], .nil, rfl⟩
  · exact ⟨_, .blank hne hb, tokensFrom_blanks hb hne hk line⟩

private theorem lineBreaks_newline (b cs : List Char) : Text.lineBreaks (b ++ '\n' :: cs) =
    Text.lineBreaks (b ++ ['\n']) + Text.lineBreaks cs := by
  rw [← Text.lineBreaks_append (.inl (by simp)), List.append_assoc, List.singleton_append]

/-- The tokens of a text and of another one behind it on a new line: the white space between them is
one token, and what follows is further down. -/
theorem tokens_joined {c₁ : List Char} (c₂ : List Char) {ws : List Token}
    (h : tokens c₁ = ts ++ ws) (hr : ∀ k, Reads ts k) (hw : Blanks (sourceOf ws)) :
    ∃ w g us, w.kind = .whitespace ∧ Fill g ∧ tokens c₂ = g ++ us ∧
      tokens (c₁ ++ '\n' :: c₂) =
        ts ++ w :: us.map (Token.later (breaksIn (tokens (c₁ ++ ['\n'])))) := by
  have hsrc : c₁ = sourceOf ts ++ sourceOf ws := by
    rw [← sourceOf_append, ← h, sourceOf_tokens]
  have hblanks {b : List Char} (hb : Blanks b) : Blanks (sourceOf ws ++ '\n' :: b) := by
    intro c hc
    rcases List.mem_append.1 hc with hc | hc
    · exact hw c hc
    · rcases List.mem_cons.1 hc with rfl | hc
      · rfl
      · exact hb c hc
  have hjoined {b k : List Char} (hb : Blanks b) (hk : ∀ c ∈ k.head?, isBlank c = false) :
      tokens (c₁ ++ '\n' :: (b ++ k)) = ts ++ ⟨.whitespace, sourceOf ws ++ '\n' :: b, 1 + breaksIn ts⟩ ::
        tokensFrom (1 + breaksIn ts + Text.lineBreaks (sourceOf ws ++ '\n' :: b)) k := by
    have ht := tokensFrom_append h (hr (sourceOf ws ++ '\n' :: b ++ k))
    rw [tokensFrom_blanks (hblanks hb) (by simp) hk] at ht
    rw [tokens, ← ht, hsrc]
    simp
  have hbreaks : breaksIn (tokens (c₁ ++ ['\n'])) =
      breaksIn ts + Text.lineBreaks (sourceOf ws ++ ['\n']) := by
    have hend := hjoined (b := []) (k := []) (by simp [Blanks]) (by simp)
    rw [List.append_nil] at hend
    simp [hend, tokensFrom]
  obtain ⟨b, k, rfl, hb, hk⟩ := blanks_split c₂
  obtain ⟨g, hg, htokens⟩ := exists_fill hb hk 1
  refine ⟨⟨.whitespace, sourceOf ws ++ '\n' :: b, 1 + breaksIn ts⟩, g, _, rfl, hg, htokens, ?_⟩
  have hline : 1 + Text.lineBreaks b + (breaksIn ts + Text.lineBreaks (sourceOf ws ++ ['\n'])) =
      1 + breaksIn ts + Text.lineBreaks (sourceOf ws ++ '\n' :: b) := by
    rw [lineBreaks_newline _ b]
    omega
  rw [hjoined hb hk, hbreaks, ← tokensFrom_later, hline]

/-! ## Nodes -/

namespace Node

private theorem ofTokens_append {ns : List Node} (h : AllFit none ns) (us : List Token) :
    ofTokens (allTokens ns ++ us) = ns ++ ofTokens us := by
  rw [ofTokens, group_append [] ns h]
  rfl

private theorem ofTokens_whitespace {w : Token} (h : w.kind = .whitespace) (us : List Token) :
    ofTokens (w :: us) = leaf w :: ofTokens us := by
  rw [ofTokens, group_leaf (by rw [h]; rfl) (by rw [h]; simp [Kind.closes?])]
  rfl

/-- The last token of gaps that do not end with white space. -/
private theorem end_not_whitespace {g : List Node} (hg : ∀ n ∈ g, n.isLeaf Kind.isRuleGap = true)
    (hlast : ∀ n ∈ g.getLast?, n.isBlank = false) :
    ∀ t ∈ (allTokens g).getLast?, t.kind ≠ .whitespace := by
  rcases g.eq_nil_or_concat with rfl | ⟨g, n, rfl⟩
  · simp [allTokens]
  · rw [List.concat_eq_append] at hg hlast ⊢
    have hn := hg n (by simp)
    have hnb := hlast n (by simp)
    cases n with
    | leaf u =>
      rw [allTokens_append]
      intro t ht hk
      obtain rfl : u = t := by simpa [allTokens, Node.tokens] using ht
      rw [isBlank, isLeaf, kind, first, hk] at hnb
      simp [isBlock] at hnb
    | block opener inner closer => simp [isLeaf, isBlock] at hn

/-- The nodes of a text whose last statement has ended, but for gaps, and of another text behind it on
a new line. -/
theorem ofText_joined {c₁ : List Char} (c₂ : List Char) {ns gs : List Node}
    (hn : ofText c₁ = ns ++ gs) (hclosed : AllClosed (ofText c₁)) (hend : EndsEdged (allTokens ns))
    (hgaps : ∀ n ∈ gs, n.isLeaf Kind.isRuleGap = true)
    (hcomments : ∀ t ∈ Css.tokens c₁, ∀ text, t.kind = .comment text → t.IsClosed) :
    ∃ g ws w bs vs, gs = g ++ ws ∧ (∀ n ∈ ws, n.isBlank = true) ∧ w.isBlank = true ∧
      (∀ n ∈ bs, n.isBlank = true) ∧ ofText c₂ = bs ++ vs ∧ ofText (c₁ ++ '\n' :: c₂) =
        ns ++ (g ++ w :: vs.map (Node.mapTokens (.later (breaksIn (Css.tokens (c₁ ++ ['\n'])))))) := by
  have htokens : allTokens (ns ++ gs) = Css.tokens c₁ := by rw [← hn, allTokens_ofText]
  obtain ⟨ws, hsplit, hws, hlast⟩ := exists_blank_end gs
  generalize gs.rdropWhile isBlank = g at hsplit hlast
  subst hsplit
  have hgap : ∀ n ∈ g, n.isLeaf Kind.isRuleGap = true := fun n hn =>
    hgaps n (List.mem_append_left _ hn)
  rw [← List.append_assoc, allTokens_append] at htokens
  have hread : Reads (allTokens (ns ++ g) ++ allTokens ws) [] := by
    rw [htokens]
    exact reads_tokens c₁
  obtain ⟨hfirst, hlastws⟩ := reads_append.1 hread
  have hreads (k : List Char) : Reads (allTokens (ns ++ g)) k := by
    rw [allTokens_append] at hfirst ⊢
    obtain ⟨hns, hg⟩ := reads_append.1 hfirst
    refine reads_append.2 ⟨hns.endsEdged hend _, hg.gaps ?_ ?_ (end_not_whitespace hgap hlast) k⟩
    · exact fun t ht => (exists_leaf hgap ht).2
    · intro t ht
      refine hcomments t ?_
      rw [← htokens, allTokens_append]
      exact List.mem_append_left _ (List.mem_append_right _ ht)
  have hfit : AllFit none (ns ++ g) := by
    have hall := allFit_ofTokens hclosed
    rw [← ofText, hn] at hall
    refine allFit_iff.2 fun n hm => allFit_iff.1 hall n ?_
    rw [← List.append_assoc]
    exact List.mem_append_left _ hm
  obtain ⟨w, f, us, hwk, hf, htwo, hjoin⟩ :=
    tokens_joined c₂ htokens.symm hreads (blanks_of_isBlank hws hlastws)
  have hwb : (leaf w).isBlank = true := by
    simp [isBlank, isLeaf, isBlock, kind, first, hwk]
  refine ⟨g, ws, leaf w, f.map leaf, ofTokens us, rfl, hws, hwb, ?_, ?_, ?_⟩
  · cases hf with
    | nil => simp
    | blank hne hb => simp [isBlank, isLeaf, isBlock, kind, first]
  · rw [ofText, htwo]
    cases hf with
    | nil => rfl
    | blank hne hb => exact ofTokens_whitespace rfl us
  · rw [ofText, hjoin, ofTokens_append hfit, ofTokens_whitespace hwk,
      ofTokens_map (keepsBrackets_later _), List.append_assoc]

end Node

end SheetDiff.Css
