import Mathlib.Logic.Function.Iterate
import SheetDiff.Proofs.Css.Ended
import SheetDiff.Proofs.Sheet.Joined

/-!
# Sheets inside a media rule

A text that is closed may be put between the curly brackets of a media rule: what is read is that one
rule, which holds the rules of the text on their own lines, with the warnings of the text, or else the
error of the text (`Stylesheet.parse_grouped`). A rule list is thus read alike in a block and as a whole
sheet. The text of such a rule is closed again, so this holds at every depth
(`Stylesheet.parse_nested`).
-/

namespace SheetDiff

open Css (Kind Node Token)
open Css.Node (allTokens)

variable {css : String} {ns : List Node} {closer : Token}

/-! ## Texts that can be put in a block -/

/-- A text without character set statements that stays as it is in front of a closing bracket: its
blocks, strings, addresses and comments are closed, none of its brackets closes a block around it, and
no backslash ends it. -/
structure Enclosable (css : String) : Prop where
  charset : WithoutCharset css
  blocks : Node.AllClosed (Node.ofText css.toList)
  tokens : ∀ t ∈ Css.tokens css.toList, t.HasEnded
  brackets : ∀ n ∈ Node.ofText css.toList, n.isLeaf (· = .closing .curly) = false
  plain : Css.EndsPlain css.toList

theorem enclosable_iff {css : String} : Enclosable css ↔
    (WithoutCharset css ∧ Node.AllClosed (Node.ofText css.toList)) ∧
      (∀ t ∈ Css.tokens css.toList, t.HasEnded) ∧
      (∀ n ∈ Node.ofText css.toList, n.isLeaf (· = .closing .curly) = false) ∧
      Css.EndsPlain css.toList :=
  ⟨fun ⟨hc, hb, ht, hl, hp⟩ => ⟨⟨hc, hb⟩, ht, hl, hp⟩,
    fun ⟨⟨hc, hb⟩, ht, hl, hp⟩ => ⟨hc, hb, ht, hl, hp⟩⟩

instance (css : String) : Decidable (Enclosable css) := decidable_of_iff _ enclosable_iff.symm

/-- A text in the block of a media rule. -/
def mediaText (css : String) : String := "@media x\x7b" ++ css ++ "\x7d"

/-- A sheet that consists of a media rule with the rules of another one. -/
def Stylesheet.grouped (s : Stylesheet) : Stylesheet :=
  ⟨[.atRule "media" "x" (.rules s.rules) 1], s.warnings⟩

/-! ## The nodes of a media rule -/

def mediaKeyword : Node := .leaf ⟨.atKeyword "media", "@media".toList, 1⟩

/-- The nodes of a media rule in front of its block. -/
def mediaHead : List Node :=
  [mediaKeyword, .leaf ⟨.whitespace, [' '], 1⟩, .leaf ⟨.ident "x", ['x'], 1⟩]

/-- The bracket that opens the block of a media rule. -/
def mediaOpener : Token := ⟨.opening .curly, ['\x7b'], 1⟩

/-- A media rule around nodes. -/
def mediaNodes (ns : List Node) (closer : Token) : List Node :=
  mediaHead ++ [.block mediaOpener ns (some closer)]

private theorem tokens_media :
    Css.tokens "@media x\x7b".toList = allTokens mediaHead ++ [mediaOpener] := by
  cbv

private theorem toList_mediaText (css : String) :
    (mediaText css).toList = "@media x\x7b".toList ++ (css.toList ++ ['\x7d']) := by
  simp [mediaText]

theorem ofText_mediaText (h : Enclosable css) : Node.ofText (mediaText css).toList =
    mediaNodes (Node.ofText css.toList) (Css.closerBehind (Css.tokens css.toList)) := by
  rw [toList_mediaText]
  refine Node.ofText_enclosed tokens_media rfl ?_ ?_ h.blocks h.brackets h.tokens h.plain
  · simp [mediaHead, mediaKeyword, Node.AllFit, Node.Fits, Kind.opens?, Kind.closes?]
  · rw [tokens_media]
    rfl

/-! ## Reading a media rule -/

private theorem media_ne_charset : "media".toLower ≠ "charset" := by cbv

private theorem noCharset_mediaNodes : NoCharset (mediaNodes ns closer) := by
  intro n hn
  simp only [mediaNodes, mediaHead, List.cons_append, List.nil_append, List.mem_cons,
    List.not_mem_nil, or_false] at hn
  rcases hn with rfl | rfl | rfl | rfl
  · simpa [mediaKeyword, isCharset, Node.isLeaf, Node.isBlock, Node.kind, Node.first]
      using media_ne_charset
  · rfl
  · rfl
  · rfl

/-- The item of a media rule. -/
def mediaItem (ns : List Node) (closer : Token) : Item :=
  ⟨[], 1, mediaHead, some (.block mediaOpener ns (some closer)), .atRule "media"⟩

private theorem ruleItems_mediaNodes :
    ruleItems false [] (mediaNodes ns closer) = ⟨[mediaItem ns closer], []⟩ := by
  have hcut : cutAt endsStatement (mediaNodes ns closer) =
      ⟨mediaHead, some (.block mediaOpener ns (some closer)), []⟩ :=
    cutAt_append (by simp [mediaHead, mediaKeyword, endsStatement, Node.isSemicolon, Node.isBraces,
      Node.isLeaf, Node.isBlock, Node.kind, Node.first]) rfl []
  have hread : readRuleItem mediaKeyword (mediaNodes ns closer).tail =
      (atReading "media" (cutAt endsStatement (mediaNodes ns closer)).stop,
        cutAt endsStatement (mediaNodes ns closer)) := rfl
  have hfirst : (mediaNodes ns closer).dropWhile isRuleGap =
      mediaKeyword :: (mediaNodes ns closer).tail := rfl
  rw [ruleItems_cons hfirst (by simp), hread, hcut, ruleItems_nil rfl]
  rfl

/-- The block of a media rule is read as a rule list. -/
private theorem listing_mediaItem : (mediaItem ns closer).listing (mediaItem ns closer).innerListing =
    (readRules ns).map fun l => ⟨[.atRule "media" "x" (.rules l.rules) 1], l.warnings⟩ := by
  have hclass : AtClass.ofName "media" = .rules := by cbv
  have hgroups : (mediaItem ns closer).groups = true := by
    simp [Item.groups, mediaItem, hclass, Item.hasBlock, Node.isBraces, Node.isBlock, mediaOpener,
      Node.kind, Node.first]
  have hlead : (mediaItem ns closer).lead = "x" := by cbv
  have hinner : (mediaItem ns closer).innerListing = readRules ns := by
    rw [Item.innerListing, if_pos hgroups]
    rfl
  have hreading : (mediaItem ns closer).reading = .atRule "media" := rfl
  have hskipped : (mediaItem ns closer).skipped = [] := rfl
  have hline : (mediaItem ns closer).line = 1 := rfl
  rw [hinner, Item.listing, Item.rule, hreading, hskipped]
  simp only [hgroups, if_true, hlead, hline]
  cases readRules ns <;> rfl

/-- A media rule is read as the rule list in its block, with the lines of its own nodes. -/
theorem readRules_mediaNodes : readRules (mediaNodes ns closer) =
    (readRules ns).map fun l => ⟨[.atRule "media" "x" (.rules l.rules) 1], l.warnings⟩ := by
  rw [readRules_eq_listing noCharset_mediaNodes, ruleItems_mediaNodes, RuleItems.listing,
    List.map_singleton, listing_mediaItem]
  cases readRules ns with
  | error e => rfl
  | ok l => simp [Listing.concat, bind, Except.bind, Except.map, commentsOf]

/-! ## Texts in a media rule -/

private theorem parse_of_enclosable (h : Enclosable css) :
    Stylesheet.parse (mediaText css) = (Stylesheet.parse css).map Stylesheet.grouped := by
  rw [Stylesheet.parse, Stylesheet.parse, ofText_mediaText h, ofNodes_eq noCharset_mediaNodes,
    ofNodes_eq h.charset.noCharset, readRules_mediaNodes]
  cases readRules (Node.ofText css.toList) <;> rfl

/-- A text in a media rule is read as the text alone, but for that rule. -/
theorem Stylesheet.parse_grouped (h : Enclosable css) :
    Stylesheet.parse ("@media x\x7b" ++ css ++ "\x7d") = match Stylesheet.parse css with
      | .ok s => .ok ⟨[.atRule "media" "x" (.rules s.rules) 1], s.warnings⟩
      | .error e => .error e := by
  have hparsed := parse_of_enclosable h
  rw [mediaText] at hparsed
  rw [hparsed]
  cases Stylesheet.parse css <;> rfl

/-- A comment, a string on the next line and a faulty declaration in a media rule. -/
theorem Stylesheet.parse_grouped_string : Enclosable "/* c */\na\x7bb:'d';e\x7d" ∧
    Stylesheet.parse ("@media x\x7b" ++ "/* c */\na\x7bb:'d';e\x7d" ++ "\x7d") =
      .ok ⟨[.atRule "media" "x" (.rules [.comment " c " 1, .style ["a"] [⟨"b", "'d'", 2⟩] [] 2]) 1],
        [⟨"skipped `e`: missing ':' or value", 2⟩]⟩ := by
  have hparsed : Stylesheet.parse "/* c */\na\x7bb:'d';e\x7d" =
      .ok ⟨[.comment " c " 1, .style ["a"] [⟨"b", "'d'", 2⟩] [] 2],
        [⟨"skipped `e`: missing ':' or value", 2⟩]⟩ := by cbv
  have henclosable : Enclosable "/* c */\na\x7bb:'d';e\x7d" := by decide +kernel
  refine ⟨henclosable, ?_⟩
  rw [Stylesheet.parse_grouped henclosable, hparsed]

/-! ## Every depth -/

theorem tokens_mediaText (h : Enclosable css) : Css.tokens (mediaText css).toList =
    allTokens mediaHead ++ mediaOpener :: (Css.tokens css.toList ++
      [Css.closerBehind (Css.tokens css.toList)]) := by
  have hnodes := congrArg allTokens (ofText_mediaText h)
  rw [Node.allTokens_ofText] at hnodes
  rw [hnodes, mediaNodes, Node.allTokens_append]
  simp [allTokens, Node.tokens, Node.allTokens_ofText]

/-- The text of a media rule around a text that is closed is closed. -/
theorem Enclosable.mediaText (h : Enclosable css) : Enclosable (SheetDiff.mediaText css) := by
  have htokens {P : Token → Prop} (hhead : ∀ t ∈ allTokens mediaHead, P t) (hopener : P mediaOpener)
      (hinner : ∀ t ∈ Css.tokens css.toList, P t)
      (hcloser : P (Css.closerBehind (Css.tokens css.toList))) :
      ∀ t ∈ Css.tokens (SheetDiff.mediaText css).toList, P t := by
    rw [tokens_mediaText h]
    intro t ht
    rcases List.mem_append.1 ht with ht | ht
    · exact hhead t ht
    rcases List.mem_cons.1 ht with rfl | ht
    · exact hopener
    rcases List.mem_append.1 ht with ht | ht
    · exact hinner t ht
    · rw [List.mem_singleton.1 ht]
      exact hcloser
  have hhead : allTokens mediaHead = [⟨.atKeyword "media", "@media".toList, 1⟩,
      ⟨.whitespace, [' '], 1⟩, ⟨.ident "x", ['x'], 1⟩] := rfl
  constructor
  · exact htokens (by simpa [hhead] using media_ne_charset) (by simp [mediaOpener]) h.charset
      (by simp [Css.closerBehind])
  · rw [ofText_mediaText h]
    simp [mediaNodes, mediaHead, mediaKeyword, Node.AllClosed, Node.IsClosed, h.blocks]
  · exact htokens (by simp [hhead, Css.Token.HasEnded, Kind.EndsIn]) trivial h.tokens trivial
  · rw [ofText_mediaText h]
    simp [mediaNodes, mediaHead, mediaKeyword, Node.isLeaf, Node.isBlock, Node.kind, Node.first]
  · intro c hc
    rw [toList_mediaText, ← List.append_assoc, List.getLast?_concat] at hc
    obtain rfl : '\x7d' = c := Option.some.inj hc
    decide

/-- A text at any depth of media rules is read as the text alone, but for those rules. -/
theorem Stylesheet.parse_nested (h : Enclosable css) (depth : ℕ) :
    Stylesheet.parse (mediaText^[depth] css) = (Stylesheet.parse css).map grouped^[depth] := by
  induction depth generalizing css with
  | zero => cases hparsed : Stylesheet.parse css <;> simp [hparsed, Except.map]
  | succ depth ih =>
    rw [Function.iterate_succ_apply, ih h.mediaText, parse_of_enclosable h]
    cases Stylesheet.parse css <;> rfl

end SheetDiff
