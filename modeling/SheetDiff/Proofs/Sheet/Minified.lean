import Mathlib
import SheetDiff.Proofs.Sheet.Faultless
import SheetDiff.Proofs.Sheet.Rewritten
import SheetDiff.Proofs.Sheet.Spacing

/-!
# Minified sheets

`Relaid` is one edit of the layout of a text: white space next to a semicolon or next to a bracket of a
block in curly brackets, or the semicolon at the end of a block of declarations, is put in or taken
out. A tidy text that is read without warnings stays so under any number of edits, and neither
comparison reports a difference (`isUnchanged_of_relaid`).
-/

namespace SheetDiff

open Css (Kind Node Token)
open Css.Node (allTokens)

variable {css css' : String} {ns : List Node} {rules : List Rule}

/-- One edit of the layout of a text. -/
def Relaid (css css' : String) : Prop :=
  ∃ ns, Relayout .rules false false (Node.ofText css.toList) ns ∧ css'.toList = Node.source ns

/-- A text without backslashes, without strings that end at a line break and without character set
statements, in which no declaration holds a block in curly brackets. -/
structure Tidy (css : String) : Prop where
  backslash : '\\' ∉ css.toList
  string : ∀ t ∈ Css.tokens css.toList, ∀ s, t.kind ≠ .badString s
  charset : ∀ t ∈ Css.tokens css.toList, ∀ name, t.kind = .atKeyword name →
    name.toLower ≠ "charset"
  values : Role.rules.NoBraced (Node.ofText css.toList)

instance (kind : Kind) : Decidable (∀ s, kind ≠ .badString s) :=
  decidable_of_iff (¬ kind matches .badString _) (by cases kind <;> simp)

theorem tidy_iff : Tidy css ↔
    ('\\' ∉ css.toList ∧ ∀ t ∈ Css.tokens css.toList, ∀ s, t.kind ≠ .badString s) ∧
      (∀ t ∈ Css.tokens css.toList, ∀ name, t.kind = .atKeyword name → name.toLower ≠ "charset") ∧
      Role.rules.NoBraced (Node.ofText css.toList) :=
  ⟨fun ⟨hb, hs, hc, hv⟩ => ⟨⟨hb, hs⟩, hc, hv⟩, fun ⟨⟨hb, hs⟩, hc, hv⟩ => ⟨hb, hs, hc, hv⟩⟩

instance : Decidable (Tidy css) := decidable_of_iff _ tidy_iff.symm

/-! ## One edit -/

/-- An edited text: its nodes, read from their text, are those of the edit but for lines. -/
structure Rewritten (css css' : String) (ns : List Node) : Prop where
  edit : Css.Edit (Css.tokens css.toList) (allTokens ns)
  reads : Css.Reads (allTokens ns) []
  tokens : (Css.tokens css'.toList).map Token.unlined = (allTokens ns).map Token.unlined
  nodes : (Node.ofText css'.toList).map Node.unlined = ns.map Node.unlined

private theorem rewritten (ht : Tidy css)
    (h : Relayout .rules false false (Node.ofText css.toList) ns) (hs : css'.toList = Node.source ns) :
    Rewritten css css' ns := by
  have hfit := Node.allFitEnd_ofTokens (Css.tokens css.toList)
  have hedit : Css.Edit ([] ++ (allTokens (Node.ofText css.toList) ++ []))
      ([] ++ (allTokens ns ++ [])) := h.edit hfit rfl rfl
  rw [List.nil_append, List.nil_append, List.append_nil, List.append_nil,
    Node.allTokens_ofText] at hedit
  have hback : '\\' ∉ Css.sourceOf (Css.tokens css.toList) := by
    rw [Css.sourceOf_tokens]
    exact ht.backslash
  have hreads : Css.Reads (allTokens ns) [] :=
    (Css.reads_tokens css.toList).edit hedit hback ht.string
  have hlex : Css.lex css'.toList = (allTokens ns).map Token.unlined := by
    have happ := Css.lex_append hreads
    rwa [Css.lex_nil, List.append_nil, List.append_nil, ← Node.source_eq, ← hs] at happ
  refine ⟨hedit, hreads, hlex, ?_⟩
  rw [Css.map_unlined_ofText, hlex, Node.ofTokens_map Css.keepsBrackets_unlined,
    Node.ofTokens_allTokens_end (h.allFitEnd hfit)]
  rfl

/-- A token of an edited text is one of the text before, white space or a semicolon. -/
private theorem Rewritten.mem (h : Rewritten css css' ns) {t : Token}
    (ht : t ∈ Css.tokens css'.toList) :
    (∃ u ∈ Css.tokens css.toList, t.kind = u.kind ∧ t.source = u.source) ∨
      (t.kind = .whitespace ∧ Css.Blanks t.source) ∨ (t.kind = .semicolon ∧ t.source = [';']) := by
  have hm : t.unlined ∈ (allTokens ns).map Token.unlined := by
    rw [← h.tokens]
    exact List.mem_map_of_mem ht
  obtain ⟨u, hu, he⟩ := List.mem_map.1 hm
  have hk : t.kind = u.kind := (congrArg Token.kind he).symm
  have hs : t.source = u.source := (congrArg Token.source he).symm
  rw [hk, hs]
  rcases h.edit.mem hu with hu | hu | hu
  · exact .inl ⟨u, hu, rfl, rfl⟩
  · exact .inr (.inl hu)
  · exact .inr (.inr hu)

private theorem Rewritten.charset (h : Rewritten css css' ns) (ht : Tidy css) {t : Token}
    (hm : t ∈ Css.tokens css'.toList) {name : String} (hk : t.kind = .atKeyword name) :
    name.toLower ≠ "charset" := by
  rcases h.mem hm with ⟨u, hu, hku, -⟩ | ⟨hw, -⟩ | ⟨hw, -⟩
  · exact ht.charset u hu name (hku ▸ hk)
  · simp [hk] at hw
  · simp [hk] at hw

private theorem Rewritten.backslash (h : Rewritten css css' ns) (ht : Tidy css) :
    '\\' ∉ css'.toList := by
  intro hm
  rw [← Css.flatMap_source_tokens css'.toList] at hm
  obtain ⟨t, htok, hm⟩ := List.mem_flatMap.1 hm
  rcases h.mem htok with ⟨u, hu, -, hs⟩ | ⟨-, hb⟩ | ⟨-, hs⟩
  · apply ht.backslash
    rw [← Css.flatMap_source_tokens css.toList]
    exact List.mem_flatMap.2 ⟨u, hu, hs ▸ hm⟩
  · exact absurd (hb _ hm) (by decide)
  · rw [hs] at hm
    exact absurd hm (by decide)

/-- An edited text is tidy again and read alike. -/
theorem Tidy.relaid (ht : Tidy css) (hr : ReadAs css rules) (h : Relaid css css') :
    Tidy css' ∧ ReadAs css' rules := by
  obtain ⟨ns, hns, hsource⟩ := h
  have hw := rewritten ht hns hsource
  have ho := ordinary_ofText ht.charset
  have hcharset : ∀ t ∈ Css.tokens css'.toList, ∀ name, t.kind = .atKeyword name →
      name.toLower ≠ "charset" := fun t hm name hk => hw.charset ht hm hk
  have ho' : Ordinary (Node.ofText css'.toList) := ordinary_ofText hcharset
  have hons : Ordinary ns := by
    refine ordinary_of_reads hw.reads fun t hm name hk => ?_
    rcases hw.edit.mem hm with hm | ⟨hb, -⟩ | ⟨hb, -⟩
    · exact ht.charset t hm name hk
    · simp [hk] at hb
    · simp [hk] at hb
  have hclean : clean .rules (Node.ofText css.toList) = some ⟨[], rules, []⟩ :=
    (clean_eq_some_iff .rules _ ho _).2 ⟨(readAs_iff (ho.usual .rules rfl)).1 hr, ht.values⟩
  rw [hns.clean_eq] at hclean
  obtain ⟨hresult, hvalues⟩ := (clean_eq_some_iff .rules _ hons _).1 hclean
  refine ⟨⟨hw.backslash ht, ?_, hcharset, ?_⟩, ?_⟩
  · intro t hm s hk
    rcases hw.mem hm with ⟨u, hu, hku, -⟩ | ⟨hb, -⟩ | ⟨hb, -⟩
    · exact ht.string u hu s (hku ▸ hk)
    · simp [hk] at hb
    · simp [hk] at hb
  · have hmap : Role.rules.NoBraced (ns.map Node.unlined) :=
      (Role.noBraced_map Css.respaces_unlined .rules ns).2 hvalues
    rw [← hw.nodes] at hmap
    exact (Role.noBraced_map Css.respaces_unlined .rules _).1 hmap
  · apply (readAs_iff (ho'.usual .rules rfl)).2
    rw [result_eq_of_unlined hw.nodes, hresult]

/-! ## Any number of edits -/

/-- Tidy texts are read alike after any number of edits. -/
theorem Tidy.relaid_all (ht : Tidy css) (hr : ReadAs css rules)
    (h : Relation.ReflTransGen Relaid css css') : Tidy css' ∧ ReadAs css' rules := by
  induction h with
  | refl => exact ⟨ht, hr⟩
  | tail _ hstep ih => exact ih.1.relaid ih.2 hstep

/-- A tidy text that is read without warnings is read as the same rules but for lines, without
warnings, after any number of edits of its layout, and neither comparison reports a change. -/
theorem isUnchanged_of_relaid {s : Stylesheet} (ht : Tidy css) (hs : Stylesheet.parse css = .ok s)
    (hw : s.warnings = []) (h : Relation.ReflTransGen Relaid css css') :
    ∃ s', Stylesheet.parse css' = .ok s' ∧ s'.warnings = [] ∧
      Rule.mapAllLines (fun _ => 0) s'.rules = Rule.mapAllLines (fun _ => 0) s.rules ∧
      ∀ oldLabel newLabel context,
        (Outcome.textual ⟨oldLabel, s⟩ ⟨newLabel, s'⟩ context).summary.isUnchanged = true ∧
          (Outcome.structural ⟨oldLabel, s⟩ ⟨newLabel, s'⟩).summary.isUnchanged = true := by
  obtain ⟨-, s', hs', hw', hrules⟩ := ht.relaid_all ⟨s, hs, hw, rfl⟩ h
  refine ⟨s', hs', hw', hrules, fun oldLabel newLabel context => ?_⟩
  exact isUnchanged_of_sameRules _ _ _ (sameRules_of_unlined hrules.symm)

/-- The blank before a block is taken out, and then a semicolon is put in at its end. -/
theorem isUnchanged_of_relaid_rule :
    Tidy "a \x7bb:c\x7d" ∧ Relation.ReflTransGen Relaid "a \x7bb:c\x7d" "a\x7bb:c;\x7d" ∧
      ∃ s s', Stylesheet.parse "a \x7bb:c\x7d" = .ok s ∧ s.warnings = [] ∧
        Stylesheet.parse "a\x7bb:c;\x7d" = .ok s' ∧ s'.warnings = [] ∧
        Rule.mapAllLines (fun _ => 0) s'.rules = Rule.mapAllLines (fun _ => 0) s.rules ∧
        ∀ oldLabel newLabel context,
          (Outcome.textual ⟨oldLabel, s⟩ ⟨newLabel, s'⟩ context).summary.isUnchanged = true ∧
            (Outcome.structural ⟨oldLabel, s⟩ ⟨newLabel, s'⟩).summary.isUnchanged = true := by
  have hn₁ : Node.ofText "a \x7bb:c\x7d".toList =
      [.leaf ⟨.ident "a", ['a'], 1⟩, .leaf ⟨.whitespace, [' '], 1⟩,
        .block ⟨.opening .curly, ['\x7b'], 1⟩ [.leaf ⟨.ident "b", ['b'], 1⟩,
          .leaf ⟨.colon, [':'], 1⟩, .leaf ⟨.ident "c", ['c'], 1⟩]
          (some ⟨.closing .curly, ['\x7d'], 1⟩)] := by cbv
  have hn₂ : Node.ofText "a\x7bb:c\x7d".toList =
      [.leaf ⟨.ident "a", ['a'], 1⟩,
        .block ⟨.opening .curly, ['\x7b'], 1⟩ [.leaf ⟨.ident "b", ['b'], 1⟩,
          .leaf ⟨.colon, [':'], 1⟩, .leaf ⟨.ident "c", ['c'], 1⟩]
          (some ⟨.closing .curly, ['\x7d'], 1⟩)] := by cbv
  have htidy : Tidy "a \x7bb:c\x7d" := by decide +kernel
  have hblank : IsFill [.leaf ⟨.whitespace, [' '], 1⟩] :=
    .blank (by simp) (by simp [Css.Blanks, Css.isBlank])
  have hbefore (m n : Node) (hm : m.isLeaf (· = .whitespace) = false) (hn : endsStatement n = true) :
      Relayout .rules false false ([m] ++ ([.leaf ⟨.whitespace, [' '], 1⟩] ++ n :: []))
        ([m] ++ ([] ++ n :: [])) :=
    .before hblank .nil hn (by simpa [EndsDark] using hm)
  have h₁ : Relaid "a \x7bb:c\x7d" "a\x7bb:c\x7d" := by
    refine ⟨Node.ofText "a\x7bb:c\x7d".toList, ?_, (Node.source_ofText _).symm⟩
    rw [hn₁, hn₂]
    exact hbefore _ _ rfl rfl
  have hinside (inner : List Node) : Relayout .rules false false
      ([.leaf ⟨.ident "a", ['a'], 1⟩] ++ .block ⟨.opening .curly, ['\x7b'], 1⟩ inner
        (some ⟨.closing .curly, ['\x7d'], 1⟩) :: [])
      ([.leaf ⟨.ident "a", ['a'], 1⟩] ++ .block ⟨.opening .curly, ['\x7b'], 1⟩
        (inner ++ [.leaf ⟨.semicolon, [';'], 1⟩]) (some ⟨.closing .curly, ['\x7d'], 1⟩) :: []) :=
    .inside rfl .semicolon
  have h₂ : Relaid "a\x7bb:c\x7d" "a\x7bb:c;\x7d" := by
    unfold Relaid
    rw [hn₂]
    exact ⟨_, hinside _, by decide⟩
  have h := (Relation.ReflTransGen.single h₁).tail h₂
  have hs : Stylesheet.parse "a \x7bb:c\x7d" =
      .ok ⟨[.style ["a"] [⟨"b", "c", 1⟩] [] 1], []⟩ := by cbv
  obtain ⟨s', hs', hw', hrest⟩ := isUnchanged_of_relaid htidy hs rfl h
  exact ⟨htidy, h, _, s', hs, rfl, hs', hw', hrest⟩

end SheetDiff
