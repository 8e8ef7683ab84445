import SheetDiff.Proofs.Sheet.Joined

/-!
# Sheets that start with a character set statement

A rule list skips the character set statement that it starts with, up to the first semicolon or block
in curly brackets, and goes on behind it. A sheet keeps the statement as a rule. Where the statement
does not end with a block, and no other one of its kind comes next, the sheet holds the statement and
then exactly the rules and warnings that the rule list goes on with, or has its error
(`Stylesheet.parse_charset`). Neither condition can be left out (`not_parse_charset`): behind a block
everything up to the next semicolon is taken as part of the statement, and a second statement is skipped.
-/

namespace SheetDiff

open Css (Kind Node Token)

variable {skipped xs ns rest : List Node} {n : Node}

/-! ## What a rule list goes on with -/

/-- The statement that nodes start with. -/
def statementOf (ns : List Node) : Cut := cutAt endsStatement ns

/-- The nodes of a statement, with the one that ends it. -/
def Cut.taken (c : Cut) : List Node := c.nodes ++ c.stop.toList

/-- The items of a rule list without the first `k` nodes that are skipped before them. -/
def RuleItems.dropSkipped (k : Nat) (r : RuleItems) : RuleItems :=
  match r.items with
  | [] => ⟨[], r.tail.drop k⟩
  | item :: items => ⟨{ item with skipped := item.skipped.drop k } :: items, r.tail⟩

/-- What a rule list that starts with a character set statement holds behind it. -/
def rulesBehindCharset (ns : List Node) : Except ParseError Listing :=
  ((ruleItems true [] ns).dropSkipped (statementOf ns).taken.length).listing

/-- A sheet of a character set statement and of what stands behind it. -/
def Stylesheet.withCharset (name lead : String) (l : Listing) : Stylesheet :=
  ⟨.atRule name lead .none 1 :: l.rules, l.warnings⟩

theorem dropSkipped_ruleItems (xs skipped ns : List Node) :
    (ruleItems false (xs ++ skipped) ns).dropSkipped xs.length = ruleItems false skipped ns := by
  cases hd : ns.dropWhile isRuleGap with
  | nil =>
    rw [ruleItems_nil hd, ruleItems_nil hd, List.append_assoc]
    simp [RuleItems.dropSkipped]
  | cons n rest =>
    rw [ruleItems_cons hd (by simp), ruleItems_cons hd (by simp), List.append_assoc]
    simp [RuleItems.dropSkipped]

/-! ## The statement -/

/-- The keyword of the statement does not end it. -/
private theorem endsStatement_of_isCharset (h : isCharset n = true) : endsStatement n = false := by
  obtain ⟨t, name, rfl, hk, -⟩ := exists_leaf_of_isCharset h
  simp [endsStatement, Node.isSemicolon, Node.isLeaf, Node.isBraces, Node.isBlock, Node.kind,
    Node.first, hk]

/-- A rule list skips the character set statement it starts with. -/
theorem ruleItems_charset_cons (h : isCharset n = true) (rest : List Node) :
    ruleItems true [] (n :: rest) =
      ruleItems false (statementOf (n :: rest)).taken (statementOf (n :: rest)).rest := by
  have hgap := isRuleGap_of_isCharset h
  have hend := endsStatement_of_isCharset h
  have hd : (n :: rest).dropWhile isRuleGap = n :: rest := by simp [hgap]
  rw [ruleItems_charset hd (by simp [h]), statementOf, cutAt_cons_of_not hend]
  simp [hgap, Cut.taken, Cut.cons]

theorem rulesBehindCharset_cons (h : isCharset n = true) (rest : List Node) :
    rulesBehindCharset (n :: rest) = (ruleItems false [] (statementOf (n :: rest)).rest).listing := by
  have hdrop := dropSkipped_ruleItems (statementOf (n :: rest)).taken [] (statementOf (n :: rest)).rest
  rw [List.append_nil] at hdrop
  rw [rulesBehindCharset, ruleItems_charset_cons h, hdrop]

/-- A rule list that does not start with a character set statement goes on as any other. -/
theorem readRules_eq_listing_of_head
    (h : ∀ n ∈ (ns.dropWhile isRuleGap).head?, isCharset n = false) :
    readRules ns = (ruleItems false [] ns).listing := by
  have hitems : ruleItems true [] ns = ruleItems false [] ns := by
    cases hd : ns.dropWhile isRuleGap with
    | nil => rw [ruleItems_nil hd, ruleItems_nil hd]
    | cons n rest =>
      have hn : isCharset n = false := h n (by simp [hd])
      rw [ruleItems_cons hd (by simp [hn]), ruleItems_cons hd (by simp)]
  rw [readRules_eq, hitems]
  rfl

/-- A sheet that starts with a character set statement keeps it, up to the first semicolon. -/
private theorem ofNodes_charset {t : Token} {name : String} (hk : t.kind = .atKeyword name)
    (hn : name.toLower = "charset") (rest : List Node) : Stylesheet.ofNodes (.leaf t :: rest) =
      (readRules (cutAt Node.isSemicolon rest).rest).map
        (.withCharset name (Text.collapse (charsetSource (cutAt Node.isSemicolon rest).nodes))) := by
  obtain ⟨kind, source, line⟩ := t
  obtain rfl : kind = .atKeyword name := hk
  simp only [Stylesheet.ofNodes, if_pos hn]
  cases readRules (cutAt Node.isSemicolon rest).rest <;> rfl

private theorem ofText_cons {cs : List Char} {t : Token} {ts : List Token}
    (h : Css.tokens cs = t :: ts) (ho : t.kind.opens? = none) (hc : t.kind.closes? = none) :
    Node.ofText cs = .leaf t :: Node.ofTokens ts := by
  rw [Node.ofText, h, Node.ofTokens, Node.group_leaf ho (by simp [hc])]
  rfl

/-- A sheet that starts with a character set statement, where that does not end with a block and no other
one comes next. The rule list that the whole text is skips the statement, and what it goes on with is
what the sheet holds behind the statement, which takes nothing from behind its end. -/
theorem Stylesheet.parse_charset {css name : String} {t : Token} {ts : List Token}
    (ht : Css.tokens css.toList = t :: ts) (hk : t.kind = .atKeyword name)
    (hname : name.toLower = "charset")
    (hstop : ∀ b ∈ (statementOf (Node.ofText css.toList)).stop, b.isSemicolon = true)
    (hnext : ∀ n ∈ ((statementOf (Node.ofText css.toList)).rest.dropWhile isRuleGap).head?,
      isCharset n = false) :
    ruleItems true [] (Node.ofText css.toList) =
        ruleItems false (statementOf (Node.ofText css.toList)).taken
          (statementOf (Node.ofText css.toList)).rest ∧
      Stylesheet.parse css = (rulesBehindCharset (Node.ofText css.toList)).map (.withCharset name
        (Text.collapse (charsetSource (statementOf (Node.ofText css.toList)).nodes.tail))) := by
  have hnodes := ofText_cons ht (by rw [hk]; rfl) (by rw [hk]; rfl)
  rw [hnodes] at hstop hnext
  rw [Stylesheet.parse, hnodes]
  generalize Node.ofTokens ts = rest at hstop hnext
  have hn : isCharset (.leaf t) = true := isCharset_leaf.2 ⟨name, hk, hname⟩
  refine ⟨ruleItems_charset_cons hn rest, ?_⟩
  have hcut : statementOf (.leaf t :: rest) = (cutAt endsStatement rest).cons (.leaf t) :=
    cutAt_cons_of_not (endsStatement_of_isCharset hn) rest
  rw [hcut] at hstop hnext
  have hnarrow : cutAt Node.isSemicolon rest = cutAt endsStatement rest :=
    cutAt_narrow (fun m hm => endsStatement_of_isSemicolon hm) hstop
  have hrest : readRules (cutAt endsStatement rest).rest =
      (ruleItems false [] (cutAt endsStatement rest).rest).listing :=
    readRules_eq_listing_of_head hnext
  rw [rulesBehindCharset_cons hn, ofNodes_charset hk hname, hnarrow, hcut, hrest]
  rfl

/-- A comment and a rule behind the statement, and another statement of its kind behind them. -/
theorem Stylesheet.parse_charset_comment :
    Stylesheet.parse "@charset \"a\";/*b*/c\x7b\x7d@charset d;" =
      .ok ⟨[.atRule "charset" "\"a\"" .none 1, .comment "b" 1, .style ["c"] [] [] 1,
        .atRule "charset" "d" .none 1], []⟩ := by
  have ht : Css.tokens "@charset \"a\";/*b*/c\x7b\x7d@charset d;".toList =
      ⟨.atKeyword "charset", "@charset".toList, 1⟩ ::
        [⟨.whitespace, [' '], 1⟩, ⟨.string "a", "\"a\"".toList, 1⟩, ⟨.semicolon, [';'], 1⟩,
          ⟨.comment "b", "/*b*/".toList, 1⟩, ⟨.ident "c", ['c'], 1⟩,
          ⟨.opening .curly, ['\x7b'], 1⟩, ⟨.closing .curly, ['\x7d'], 1⟩,
          ⟨.atKeyword "charset", "@charset".toList, 1⟩, ⟨.whitespace, [' '], 1⟩,
          ⟨.ident "d", ['d'], 1⟩, ⟨.semicolon, [';'], 1⟩] := by cbv
  have hs : statementOf (Node.ofText "@charset \"a\";/*b*/c\x7b\x7d@charset d;".toList) =
      ⟨[.leaf ⟨.atKeyword "charset", "@charset".toList, 1⟩, .leaf ⟨.whitespace, [' '], 1⟩,
          .leaf ⟨.string "a", "\"a\"".toList, 1⟩], some (.leaf ⟨.semicolon, [';'], 1⟩),
        [.leaf ⟨.comment "b", "/*b*/".toList, 1⟩, .leaf ⟨.ident "c", ['c'], 1⟩,
          .block ⟨.opening .curly, ['\x7b'], 1⟩ [] (some ⟨.closing .curly, ['\x7d'], 1⟩),
          .leaf ⟨.atKeyword "charset", "@charset".toList, 1⟩, .leaf ⟨.whitespace, [' '], 1⟩,
          .leaf ⟨.ident "d", ['d'], 1⟩, .leaf ⟨.semicolon, [';'], 1⟩]⟩ := by cbv
  have hl : rulesBehindCharset (Node.ofText "@charset \"a\";/*b*/c\x7b\x7d@charset d;".toList) =
      .ok ⟨[.comment "b" 1, .style ["c"] [] [] 1, .atRule "charset" "d" .none 1], []⟩ := by cbv
  have hname : "charset".toLower = "charset" := by cbv
  have hparse := (Stylesheet.parse_charset ht rfl hname (by rw [hs]; decide) (by rw [hs]; decide)).2
  rw [hparse, hl, hs]
  cbv

/-- A second statement of its kind is lost, and so is a rule behind a statement that ends with a block. -/
theorem not_parse_charset :
    (∀ lead, Stylesheet.parse "@charset \"a\";@charset \"b\";c\x7b\x7d" ≠
        (rulesBehindCharset (Node.ofText "@charset \"a\";@charset \"b\";c\x7b\x7d".toList)).map
          (.withCharset "charset" lead)) ∧
      ∀ lead, Stylesheet.parse "@charset \"a\"\x7b\x7dc\x7b\x7d" ≠
        (rulesBehindCharset (Node.ofText "@charset \"a\"\x7b\x7dc\x7b\x7d".toList)).map
          (.withCharset "charset" lead) := by
  have hsecond : Stylesheet.parse "@charset \"a\";@charset \"b\";c\x7b\x7d" =
      .ok ⟨[.atRule "charset" "\"a\"" .none 1, .style ["c"] [] [] 1], []⟩ := by cbv
  have hblock : Stylesheet.parse "@charset \"a\"\x7b\x7dc\x7b\x7d" =
      .ok ⟨[.atRule "charset" "\"a\"\x7b\x7dc\x7b" .none 1], []⟩ := by cbv
  have hsecondRules : rulesBehindCharset
      (Node.ofText "@charset \"a\";@charset \"b\";c\x7b\x7d".toList) =
        .ok ⟨[.atRule "charset" "\"b\"" .none 1, .style ["c"] [] [] 1], []⟩ := by cbv
  have hblockRules : rulesBehindCharset
      (Node.ofText "@charset \"a\"\x7b\x7dc\x7b\x7d".toList) =
        .ok ⟨[.style ["c"] [] [] 1], []⟩ := by cbv
  constructor <;> intro lead h
  · rw [hsecond, hsecondRules] at h
    simpa [Stylesheet.withCharset] using
      congrArg List.length (congrArg Stylesheet.rules (Except.ok.inj h))
  · rw [hblock, hblockRules] at h
    simpa [Stylesheet.withCharset] using
      congrArg List.length (congrArg Stylesheet.rules (Except.ok.inj h))

end SheetDiff
