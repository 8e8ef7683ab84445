import Mathlib
import SheetDiff.Diff.Outcome
import SheetDiff.Proofs.Diff.Verdict
import SheetDiff.Proofs.Sheet.Respaced

/-!
# White space between tokens

Two texts whose tokens have the same sources, one by one, but for how white space between them is
written, are read alike (`parse_alike`): as sheets with the same rules and warnings but for lines, or
with the same error message. The kind of a token need not be given, as its source determines it
wherever the tokens around it are alike (`kind_of_alike`).
-/

namespace SheetDiff

open Css (Kind Node Token)

variable {t u : Token} {ts us : List Token}

/-- Tokens with the same source, or two runs of white space. -/
def Css.Token.Alike (t u : Token) : Prop :=
  t.source = u.source ∨ t.kind = .whitespace ∧ u.kind = .whitespace

/-! ## Kinds of tokens that are alike -/

private theorem sourceOf_eq_nil_iff {k : List Char} (h : Css.Reads ts k) :
    Css.sourceOf ts = [] ↔ ts = [] := by
  cases ts with
  | nil => simp
  | cons t ts => simp [h.1.source_ne]

private theorem startsWith_backslash {k : List Char} (h : Css.ReadsOne t k)
    (hw : t.kind = .whitespace) (cs : List Char) :
    Css.startsWith (· = '\\') (t.source ++ cs) = false := by
  obtain ⟨c, s, hs⟩ := List.exists_cons_of_ne_nil h.source_ne
  have hc : Css.isBlank c = true := (h.whitespace hw).1 c (by simp [hs])
  have hne : c ≠ '\\' := by
    rintro rfl
    exact absurd hc (by decide)
  simpa [hs, Css.startsWith] using hne

private theorem ends_of_alike (h : List.Forall₂ Token.Alike ts us) (ht : Css.Reads ts [])
    (hu : Css.Reads us []) : Css.sourceOf ts = [] ↔ Css.sourceOf us = [] := by
  rw [sourceOf_eq_nil_iff ht, sourceOf_eq_nil_iff hu]
  cases h with
  | nil => simp
  | cons => simp

private theorem akin_of_alike (h : List.Forall₂ Token.Alike ts us) (ht : Css.Reads ts [])
    (hu : Css.Reads us []) (w : List Char) : Css.Akin w (Css.sourceOf ts) (Css.sourceOf us) := by
  refine ⟨.inr (ends_of_alike h ht hu), ?_⟩
  cases h with
  | nil => rfl
  | @cons t u ts us hab _ =>
    rw [Css.sourceOf_cons, Css.sourceOf_cons]
    rcases hab with hab | ⟨hwt, hwu⟩
    · obtain ⟨c, s, hs⟩ := List.exists_cons_of_ne_nil ht.1.source_ne
      rw [← hab, hs]
      rfl
    · rw [startsWith_backslash ht.1 hwt, startsWith_backslash hu.1 hwu]

/-- The source of a token determines its kind, if the tokens behind it are alike. -/
theorem kind_of_alike (h : List.Forall₂ Token.Alike (t :: ts) (u :: us)) (ht : Css.Reads (t :: ts) [])
    (hu : Css.Reads (u :: us) []) : t.kind = u.kind := by
  obtain ⟨hab, hrest⟩ := List.forall₂_cons.1 h
  rcases hab with hab | ⟨hwt, hwu⟩
  · obtain ⟨⟨c, cs, hsrc, hscan⟩, hts⟩ := ht
    obtain ⟨⟨d, ds, hsrc', hscan'⟩, hus⟩ := hu
    rw [hsrc, hsrc'] at hab
    obtain ⟨rfl, rfl⟩ := List.cons.inj hab
    rw [List.append_nil] at hscan hscan'
    have hagree := Css.scan_agree (akin_of_alike hrest hts hus (c :: cs))
      (.inl (ends_of_alike hrest hts hus)) (by rw [hscan]) (by rw [hscan'])
    rw [hscan, hscan'] at hagree
    exact (Prod.mk.inj hagree).1.symm
  · rw [hwt, hwu]

/-! ## Tokens with single spaces between them -/

/-- A token without its line; a run of white space is one space. -/
def Css.Token.spaced (t : Token) : Token :=
  ⟨t.kind, if t.kind = .whitespace then Text.squeeze t.source else t.source, 0⟩

theorem Css.respaces_spaced : Css.Respaces Token.spaced := by
  refine ⟨fun _ => rfl, fun t => ?_⟩
  unfold Token.spaced
  simp only
  split
  · exact Text.alike_squeeze t.source
  · rfl

private theorem squeeze_whitespace {k : List Char} (h : Css.ReadsOne t k)
    (hw : t.kind = .whitespace) : Text.squeeze t.source = [' '] :=
  Text.squeeze_of_isSpace (fun c hc => Css.isSpace_of_isBlank ((h.whitespace hw).1 c hc)) h.source_ne

theorem map_spaced_of_alike (h : List.Forall₂ Token.Alike ts us) (ht : Css.Reads ts [])
    (hu : Css.Reads us []) : ts.map Token.spaced = us.map Token.spaced := by
  induction h with
  | nil => rfl
  | @cons t u ts us hab hrest ih =>
    have hk := kind_of_alike (.cons hab hrest) ht hu
    have hone : t.spaced = u.spaced := by
      rw [Token.spaced, Token.spaced, hk]
      by_cases hw : u.kind = .whitespace
      · rw [if_pos hw, if_pos hw, squeeze_whitespace ht.1 (hk.trans hw), squeeze_whitespace hu.1 hw]
      · rw [if_neg hw, if_neg hw, hab.resolve_right fun h => hw h.2]
    rw [List.map_cons, List.map_cons, hone, ih ht.2 hu.2]

/-! ## Sheets -/

/-- Rules that are equal but for lines look the same in both comparisons. -/
theorem sameRules_of_unlined {rs₁ rs₂ : List Rule}
    (h : Rule.allUnlined rs₁ = Rule.allUnlined rs₂) : SameRules rs₁ rs₂ := by
  induction rs₁ generalizing rs₂ with
  | nil =>
    cases rs₂ with
    | nil => exact .nil
    | cons r₂ rs₂ => simp [Rule.allUnlined, Rule.mapAllLines] at h
  | cons r₁ rs₁ ih =>
    cases rs₂ with
    | nil => simp [Rule.allUnlined, Rule.mapAllLines] at h
    | cons r₂ rs₂ =>
      obtain ⟨hr, hrs⟩ := List.cons.inj h
      refine .cons ?_ (ih hrs)
      rw [Rule.canonical, Rule.canonical, ← Rule.text_mapLines (fun _ => 0) 0 r₁, hr,
        Rule.text_mapLines]

private theorem bare_parse_alike {css₁ css₂ : String}
    (h : List.Forall₂ Token.Alike (Css.tokens css₁.toList) (Css.tokens css₂.toList)) :
    Stylesheet.bare (Stylesheet.parse css₁) = Stylesheet.bare (Stylesheet.parse css₂) := by
  have hspaced (css : String) : Stylesheet.bare (Stylesheet.parse css) =
      Stylesheet.bare (Stylesheet.ofNodes
        (Node.ofTokens ((Css.tokens css.toList).map Token.spaced))) := by
    rw [Node.ofTokens_map Css.respaces_spaced.keepsBrackets, bare_ofNodes_map Css.respaces_spaced]
    rfl
  have hr (css : String) : Css.Reads (Css.tokens css.toList) [] := Css.reads_tokensFrom 1 css.toList
  rw [hspaced, hspaced, map_spaced_of_alike h (hr css₁) (hr css₂)]

/-- Texts whose tokens have the same sources, one by one, but for how white space is written, are read
alike: as sheets with the same rules and the same warnings in the same order, all lines ignored, so
that neither comparison finds a change, or with the same error message. -/
theorem parse_alike {css₁ css₂ : String}
    (h : List.Forall₂ Token.Alike (Css.tokens css₁.toList) (Css.tokens css₂.toList)) :
    (∃ s₁ s₂, Stylesheet.parse css₁ = .ok s₁ ∧ Stylesheet.parse css₂ = .ok s₂ ∧
        Rule.mapAllLines (fun _ => 0) s₁.rules = Rule.mapAllLines (fun _ => 0) s₂.rules ∧
        s₁.warnings.map (·.message) = s₂.warnings.map (·.message) ∧
        s₁.canonical = s₂.canonical ∧ ruleChanges s₁ s₂ = []) ∨
      ∃ e₁ e₂, Stylesheet.parse css₁ = .error e₁ ∧ Stylesheet.parse css₂ = .error e₂ ∧
        e₁.message = e₂.message := by
  have hb := bare_parse_alike h
  cases h₁ : Stylesheet.parse css₁ with
  | error e₁ =>
    cases h₂ : Stylesheet.parse css₂ with
    | error e₂ =>
      rw [h₁, h₂] at hb
      exact .inr ⟨e₁, e₂, rfl, rfl, Except.error.inj hb⟩
    | ok s₂ =>
      rw [h₁, h₂] at hb
      simp [Stylesheet.bare] at hb
  | ok s₁ =>
    cases h₂ : Stylesheet.parse css₂ with
    | error e₂ =>
      rw [h₁, h₂] at hb
      simp [Stylesheet.bare] at hb
    | ok s₂ =>
      rw [h₁, h₂] at hb
      have hs : s₁.unlined = s₂.unlined := Except.ok.inj hb
      have hrules : Rule.allUnlined s₁.rules = Rule.allUnlined s₂.rules :=
        congrArg Stylesheet.rules hs
      have hwarnings := congrArg (fun s => s.warnings.map (·.message)) hs
      simp only [Stylesheet.unlined, List.map_map] at hwarnings
      have hsame := sameRules_of_unlined hrules
      exact .inl ⟨s₁, s₂, rfl, rfl, hrules, hwarnings, canonical_eq_of_sameRules hsame,
        (ruleChangesFrom_eq_nil_iff 0 _ _).2 hsame⟩

/-- Blanks written as line feeds and tabs, in a sheet with a faulty declaration. -/
theorem parse_alike_blanks :
    List.Forall₂ Token.Alike (Css.tokens "a \x7bb: c;d e\x7d".toList)
        (Css.tokens "a\n\x7bb:\t c;d\r\ne\x7d".toList) ∧
      ∃ s₁ s₂, Stylesheet.parse "a \x7bb: c;d e\x7d" = .ok s₁ ∧
        Stylesheet.parse "a\n\x7bb:\t c;d\r\ne\x7d" = .ok s₂ ∧
        Rule.mapAllLines (fun _ => 0) s₁.rules = Rule.mapAllLines (fun _ => 0) s₂.rules ∧
        s₁.warnings.map (·.message) = s₂.warnings.map (·.message) ∧
        s₁.canonical = s₂.canonical ∧ ruleChanges s₁ s₂ = [] := by
  have h₁ : Css.tokens "a \x7bb: c;d e\x7d".toList =
      [⟨.ident "a", ['a'], 1⟩, ⟨.whitespace, [' '], 1⟩, ⟨.opening .curly, ['\x7b'], 1⟩,
        ⟨.ident "b", ['b'], 1⟩, ⟨.colon, [':'], 1⟩, ⟨.whitespace, [' '], 1⟩, ⟨.ident "c", ['c'], 1⟩,
        ⟨.semicolon, [';'], 1⟩, ⟨.ident "d", ['d'], 1⟩, ⟨.whitespace, [' '], 1⟩,
        ⟨.ident "e", ['e'], 1⟩, ⟨.closing .curly, ['\x7d'], 1⟩] := by cbv
  have h₂ : Css.tokens "a\n\x7bb:\t c;d\r\ne\x7d".toList =
      [⟨.ident "a", ['a'], 1⟩, ⟨.whitespace, ['\n'], 1⟩, ⟨.opening .curly, ['\x7b'], 2⟩,
        ⟨.ident "b", ['b'], 2⟩, ⟨.colon, [':'], 2⟩, ⟨.whitespace, ['\t', ' '], 2⟩,
        ⟨.ident "c", ['c'], 2⟩, ⟨.semicolon, [';'], 2⟩, ⟨.ident "d", ['d'], 2⟩,
        ⟨.whitespace, ['\r', '\n'], 2⟩, ⟨.ident "e", ['e'], 3⟩,
        ⟨.closing .curly, ['\x7d'], 3⟩] := by cbv
  have h : List.Forall₂ Token.Alike (Css.tokens "a \x7bb: c;d e\x7d".toList)
      (Css.tokens "a\n\x7bb:\t c;d\r\ne\x7d".toList) := by
    rw [h₁, h₂]
    simp [Token.Alike]
  refine ⟨h, (parse_alike h).resolve_right ?_⟩
  rintro ⟨e₁, e₂, he, -⟩
  have hok : (Stylesheet.parse "a \x7bb: c;d e\x7d").toBool = true := by decide +kernel
  rw [he] at hok
  simp [Except.toBool] at hok

end SheetDiff
