import SheetDiff.Proofs.Css.Edge
import SheetDiff.Proofs.Css.Unclosed
import SheetDiff.Proofs.Sheet.Relayout

/-!
# Edits in the text of a sheet

An edit of the layout of nodes is an edit of their tokens next to a bracket or a semicolon
(`Relayout.edit`), and nodes that fit where they stand fit there after it (`Relayout.allFitEnd`). So
the text of the edited nodes is read as these nodes again (`Relayout.lex_source`).
-/

namespace SheetDiff

open Css (Bracket Kind Node Token)
open Css.Node (AllFitEnd allFitEnd_append allFitEnd_append_cons allTokens)

variable {role : Role} {opened closed : Bool} {b : Option Bracket}
variable {n : Node} {g ns ns' ms : List Node} {us vs : List Token}

/-! ## Nodes fit after an edit -/

theorem IsFill.allFitEnd (h : IsFill g) (b : Option Bracket) (closed : Bool) :
    AllFitEnd b closed g := by
  cases h with
  | nil => trivial
  | blank hne hb => exact ⟨⟨rfl, by simp [Kind.closes?]⟩, trivial⟩

/-- A node that is closed fits whatever follows it. -/
theorem ClosesStatement.fitsEnd (h : ClosesStatement n) {flag flag' : Bool}
    (hf : n.FitsEnd b flag) : n.FitsEnd b flag' := by
  cases n with
  | leaf t => exact hf
  | block opener inner closer =>
    obtain ⟨t, rfl⟩ := Option.isSome_iff_exists.1 h.2
    exact hf

/-- Nodes that fit where they stand fit there after an edit. -/
theorem Relayout.allFitEnd (h : Relayout role opened closed ns ns') (hb : AllFitEnd b closed ns) :
    AllFitEnd b closed ns' := by
  induction h generalizing b with
  | start hg hg' hs =>
    obtain ⟨-, hns⟩ := allFitEnd_append.1 hb
    exact allFitEnd_append.2 ⟨hg'.allFitEnd .., hns⟩
  | stop hg hg' hs =>
    obtain ⟨hns, -⟩ := allFitEnd_append.1 hb
    exact allFitEnd_append.2 ⟨hns, hg'.allFitEnd ..⟩
  | before hg hg' hn hs =>
    rw [← List.append_assoc] at hb ⊢
    obtain ⟨hns, hrest⟩ := allFitEnd_append_cons.1 hb
    obtain ⟨hns, -⟩ := allFitEnd_append.1 hns
    exact allFitEnd_append_cons.2 ⟨allFitEnd_append.2 ⟨hns, hg'.allFitEnd ..⟩, hrest⟩
  | behind hg hg' hn hs =>
    obtain ⟨hns, hf, hrest⟩ := allFitEnd_append_cons.1 hb
    obtain ⟨-, hrest⟩ := allFitEnd_append.1 hrest
    refine allFitEnd_append_cons.2 ⟨hns, hn.fitsEnd hf, ?_⟩
    exact allFitEnd_append.2 ⟨hg'.allFitEnd .., hrest⟩
  | semicolon => exact allFitEnd_append.2 ⟨hb, ⟨rfl, by simp [Kind.closes?]⟩, trivial⟩
  | noSemicolon => exact (allFitEnd_append.1 hb).1
  | @inside role opened closed opener closer inner inner' ns rest ho hi ih =>
    obtain ⟨hns, hf, hrest⟩ := allFitEnd_append_cons.1 hb
    refine allFitEnd_append_cons.2 ⟨hns, ?_, hrest⟩
    cases closer with
    | some t =>
      obtain ⟨c, hc, ht, hin⟩ := hf
      exact ⟨c, hc, ht, ih hin⟩
    | none =>
      obtain ⟨c, hc, hflag, hin⟩ := hf
      exact ⟨c, hc, hflag, ih hin⟩

/-! ## Edits of tokens -/

theorem IsFill.fill (h : IsFill g) : Css.Fill (allTokens g) := by
  cases h with
  | nil => exact .nil
  | blank hne hb => exact .blank hne hb

/-- A list of tokens that does not start with white space. -/
def StartsSolid (ts : List Token) : Prop := ∀ t ∈ ts.head?, t.kind ≠ .whitespace

/-- A list of tokens that does not end with white space. -/
def EndsSolid (ts : List Token) : Prop := ∀ t ∈ ts.getLast?, t.kind ≠ .whitespace

theorem endsSolid_append_singleton {t : Token} (h : t.kind ≠ .whitespace) (ts : List Token) :
    EndsSolid (ts ++ [t]) := by
  intro u hu
  rw [List.getLast?_append, List.getLast?_singleton] at hu
  cases hu
  exact h

private theorem kind_leaf {t : Token} (h : (Node.leaf t).isLeaf (· = .whitespace) = false) :
    t.kind ≠ .whitespace :=
  of_decide_eq_false h

theorem StartsDark.solid (h : StartsDark ns) (hf : AllFitEnd b closed ns) (hv : StartsSolid vs) :
    StartsSolid (allTokens ns ++ vs) := by
  cases ns with
  | nil => exact hv
  | cons n ns =>
    have hn := h n rfl
    obtain ⟨hfn, -⟩ := hf
    cases n with
    | leaf t =>
      rintro u ⟨⟩
      exact kind_leaf hn
    | block opener inner closer =>
      have ho : ∃ c, opener.kind.opens? = some c := by
        cases closer with
        | none => exact ⟨_, hfn.choose_spec.1⟩
        | some t => exact ⟨_, hfn.choose_spec.1⟩
      obtain ⟨c, ho⟩ := ho
      rintro u ⟨⟩
      exact Kind.not_whitespace_of_opens ho

theorem EndsDark.solid (h : EndsDark ns) (hf : AllFitEnd b true ns) (hu : EndsSolid us) :
    EndsSolid (us ++ allTokens ns) := by
  rcases ns.eq_nil_or_concat with rfl | ⟨ns, n, rfl⟩
  · rwa [allTokens, List.append_nil]
  · rw [List.concat_eq_append] at h hf ⊢
    have hn := h n (by simp)
    obtain ⟨-, hfn, -⟩ := allFitEnd_append.1 hf
    rw [Node.allTokens_append, ← List.append_assoc]
    cases n with
    | leaf t => exact endsSolid_append_singleton (kind_leaf hn) _
    | block opener inner closer =>
      cases closer with
      | none =>
        obtain ⟨c, -, hc, -⟩ := hfn
        simp at hc
      | some t =>
        obtain ⟨c, -, hc, -⟩ := hfn
        have ht : t.kind ≠ .whitespace := by simp [Kind.eq_closing hc]
        have hts := endsSolid_append_singleton ht
          (us ++ allTokens ns ++ opener :: allTokens inner)
        simpa [allTokens, Node.tokens] using hts

/-- The bracket in curly brackets that stands before nodes, if there is one. -/
def Opened (opened : Bool) (us : List Token) : Prop :=
  if opened then ∃ xs d, us = xs ++ [d] ∧ d.kind = .opening .curly else us = []

/-- The bracket in curly brackets that stands behind nodes, if there is one. -/
def Closed (closed : Bool) (vs : List Token) : Prop :=
  if closed then ∃ d ys, vs = d :: ys ∧ d.kind = .closing .curly else vs = []

theorem Opened.solid (h : Opened opened us) : EndsSolid us := by
  cases opened with
  | false =>
    obtain rfl : us = [] := h
    simp [EndsSolid]
  | true =>
    obtain ⟨xs, d, rfl, hd⟩ := h
    exact endsSolid_append_singleton (by simp [hd]) xs

theorem Closed.solid (h : Closed closed vs) : StartsSolid vs := by
  cases closed with
  | false =>
    obtain rfl : vs = [] := h
    simp [StartsSolid]
  | true =>
    obtain ⟨d, ys, rfl, hd⟩ := h
    rintro u ⟨⟩
    simp [hd]

/-- The end of a statement starts with a semicolon or with an opening bracket. -/
theorem exists_edge_of_endsStatement (h : endsStatement n = true) :
    ∃ d ts e, n.tokens = d :: ts ∧ d.kind.edge? = some e := by
  cases n with
  | leaf t =>
    have ht : t.kind = .semicolon := kind_of_endsStatement h
    exact ⟨t, [], ';', rfl, by rw [ht]; rfl⟩
  | block opener inner closer =>
    have hk : opener.kind = .opening .curly :=
      kind_of_isBraces (isBraces_of_endsStatement h rfl)
    exact ⟨opener, _, '\x7b', rfl, by rw [hk]; rfl⟩

/-- What closes a statement ends with a semicolon or with a closing bracket. -/
theorem ClosesStatement.exists_edge (h : ClosesStatement n) (hf : n.FitsEnd b closed) :
    ∃ ts d e, n.tokens = ts ++ [d] ∧ d.kind.edge? = some e := by
  cases n with
  | leaf t =>
    have ht : t.kind = .semicolon := h
    exact ⟨[], t, ';', rfl, by rw [ht]; rfl⟩
  | block opener inner closer =>
    obtain ⟨ho, hc⟩ := h
    obtain ⟨t, rfl⟩ := Option.isSome_iff_exists.1 hc
    obtain ⟨c, hoc, hc, -⟩ := hf
    rw [ho] at hoc
    obtain rfl : Bracket.curly = c := Option.some.inj hoc
    refine ⟨opener :: allTokens inner, t, '\x7d', rfl, ?_⟩
    rw [Kind.eq_closing hc]
    rfl

/-- An edit of the layout of nodes is an edit of the tokens of a text. -/
theorem Relayout.edit (h : Relayout role opened closed ns ns') (hb : AllFitEnd b closed ns)
    (hu : Opened opened us) (hv : Closed closed vs) :
    Css.Edit (us ++ (allTokens ns ++ vs)) (us ++ (allTokens ns' ++ vs)) := by
  induction h generalizing b us vs with
  | @start role closed g g' ns hg hg' hs =>
    obtain ⟨xs, d, rfl, hd⟩ := hu
    obtain ⟨-, hns⟩ := allFitEnd_append.1 hb
    have he : Css.Edit (xs ++ d :: (allTokens g ++ (allTokens ns ++ vs)))
        (xs ++ d :: (allTokens g' ++ (allTokens ns ++ vs))) :=
      .behind hg.fill hg'.fill (by rw [hd]; rfl) (hs.solid hns hv.solid)
    simpa [Node.allTokens_append] using he
  | @stop role opened g g' ns hg hg' hs =>
    obtain ⟨d, ys, rfl, hd⟩ := hv
    obtain ⟨hns, -⟩ := allFitEnd_append.1 hb
    have he : Css.Edit (us ++ allTokens ns ++ (allTokens g ++ d :: ys))
        (us ++ allTokens ns ++ (allTokens g' ++ d :: ys)) :=
      .before hg.fill hg'.fill (by rw [hd]; rfl) (hs.solid hns hu.solid)
    simpa [Node.allTokens_append] using he
  | @before role opened closed g g' ns n rest hg hg' hn hs =>
    obtain ⟨d, ts, e, ht, hd⟩ := exists_edge_of_endsStatement hn
    rw [← List.append_assoc] at hb
    obtain ⟨hns, -⟩ := allFitEnd_append_cons.1 hb
    obtain ⟨hns, -⟩ := allFitEnd_append.1 hns
    have he : Css.Edit (us ++ allTokens ns ++ (allTokens g ++ d :: (ts ++ (allTokens rest ++ vs))))
        (us ++ allTokens ns ++ (allTokens g' ++ d :: (ts ++ (allTokens rest ++ vs)))) :=
      .before hg.fill hg'.fill hd (hs.solid hns hu.solid)
    simpa [Node.allTokens_append, allTokens, ht] using he
  | @behind role opened closed g g' ns n rest hg hg' hn hs =>
    obtain ⟨-, hf, hrest⟩ := allFitEnd_append_cons.1 hb
    obtain ⟨-, hrest⟩ := allFitEnd_append.1 hrest
    obtain ⟨ts, d, e, ht, hd⟩ := hn.exists_edge hf
    have he : Css.Edit (us ++ allTokens ns ++ ts ++ d :: (allTokens g ++ (allTokens rest ++ vs)))
        (us ++ allTokens ns ++ ts ++ d :: (allTokens g' ++ (allTokens rest ++ vs))) :=
      .behind hg.fill hg'.fill hd (hs.solid hrest hv.solid)
    simpa [Node.allTokens_append, allTokens, ht] using he
  | @semicolon nested opened ns line =>
    obtain ⟨d, ys, rfl, hd⟩ := hv
    have he : Css.Edit (us ++ allTokens ns ++ d :: ys)
        (us ++ allTokens ns ++ ⟨.semicolon, [';'], line⟩ :: d :: ys) := .semicolon hd
    simpa [Node.allTokens_append, allTokens, Node.tokens] using he
  | @noSemicolon nested opened ns line =>
    obtain ⟨d, ys, rfl, hd⟩ := hv
    have he : Css.Edit (us ++ allTokens ns ++ ⟨.semicolon, [';'], line⟩ :: d :: ys)
        (us ++ allTokens ns ++ d :: ys) := .noSemicolon hd
    simpa [Node.allTokens_append, allTokens, Node.tokens] using he
  | @inside role opened closed opener closer inner inner' ns rest ho hi ih =>
    obtain ⟨-, hf, -⟩ := allFitEnd_append_cons.1 hb
    have hopened : Opened true (us ++ allTokens ns ++ [opener]) := ⟨_, opener, rfl, ho⟩
    cases closer with
    | some t =>
      obtain ⟨c, hoc, hc, hin⟩ := hf
      rw [ho] at hoc
      obtain rfl : Bracket.curly = c := Option.some.inj hoc
      have hclosed : Closed true (t :: (allTokens rest ++ vs)) := ⟨t, _, rfl, Kind.eq_closing hc⟩
      have he := ih hin hopened hclosed
      simpa [Node.allTokens_append, allTokens, Node.tokens] using he
    | none =>
      obtain ⟨c, hoc, hflag, hin⟩ := hf
      obtain ⟨rfl, hempty⟩ : closed = false ∧ rest = [] := by simpa using hflag
      obtain rfl : vs = [] := hv
      have he := ih hin hopened (show Closed false [] from rfl)
      simpa [Node.allTokens_append, allTokens, Node.tokens, hempty] using he

end SheetDiff
