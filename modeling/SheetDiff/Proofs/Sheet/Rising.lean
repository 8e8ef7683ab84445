import SheetDiff.Proofs.Css.Spans
import SheetDiff.Proofs.Sheet.Places
import SheetDiff.Proofs.Sheet.Shape

/-!
# Lines of parsed sheets

The lines of a parsed sheet rise: those of the rules in a list, of the declarations in a block and of
the warnings do not fall, no part of a rule stands above the rule, and no line lies outside the text
(`lines_parse`). The items of a list take the tokens of that list in turn (`tokens_items`), so what one
item adds stands between the lines that its tokens span (`rising_contents`, `rising_listing`), and the
parts of a list are joined in the order of these spans.
-/

namespace SheetDiff

open Css (Kind Node Token Spans spans_append spans_tokens)
open Css.Node (allTokens allTokens_append)

/-! ## Rising lines -/

section Rises

variable {low low' middle high high' : Nat} {xs ys : List Nat}

/-- Lines that do not fall, from one bound up to another. -/
def Rises (low high : Nat) : List Nat → Prop
  | [] => low ≤ high
  | n :: ns => low ≤ n ∧ Rises n high ns

theorem Rises.le (h : Rises low high xs) : low ≤ high := by
  induction xs generalizing low with
  | nil => exact h
  | cons n xs ih => exact h.1.trans (ih h.2)

theorem Rises.lower (h : Rises low high xs) (hl : low' ≤ low) : Rises low' high xs := by
  cases xs with
  | nil => exact hl.trans h
  | cons n xs => exact ⟨hl.trans h.1, h.2⟩

theorem Rises.upper (h : Rises low high xs) (hh : high ≤ high') : Rises low high' xs := by
  induction xs generalizing low with
  | nil => exact Nat.le_trans h hh
  | cons n xs ih => exact ⟨h.1, ih h.2⟩

theorem Rises.append (hx : Rises low middle xs) (hy : Rises middle high ys) :
    Rises low high (xs ++ ys) := by
  induction xs generalizing low with
  | nil => exact hy.lower hx
  | cons n xs ih => exact ⟨hx.1, ih hx.2⟩

theorem rises_singleton {n : Nat} (hl : low ≤ n) (hh : n ≤ high) : Rises low high [n] := ⟨hl, hh⟩

theorem Rises.bounds (h : Rises low high xs) : ∀ n ∈ xs, low ≤ n ∧ n ≤ high := by
  induction xs generalizing low with
  | nil => simp
  | cons m xs ih =>
    intro n hn
    rcases List.mem_cons.1 hn with rfl | hn
    · exact ⟨h.1, h.2.le⟩
    · exact ⟨h.1.trans (ih h.2 n hn).1, (ih h.2 n hn).2⟩

theorem Rises.pairwise (h : Rises low high xs) : xs.Pairwise (· ≤ ·) := by
  induction xs generalizing low with
  | nil => exact .nil
  | cons m xs ih => exact .cons (fun n hn => (h.2.bounds n hn).1) (ih h.2)

end Rises

/-! ## Parts of rules -/

/-- The declarations right inside a rule. -/
def Rule.held : Rule → List Declaration
  | .style _ declarations _ _ => declarations
  | .atRule _ _ body _ => body.held
  | .comment _ _ => []

theorem Contents.held_body (c : Contents) : c.body.held = c.declarations := by
  obtain ⟨declarations, rules, warnings⟩ := c
  cases rules <;> cases declarations <;> rfl

theorem Contents.nested_body (c : Contents) : c.body.nested = c.rules := by
  obtain ⟨declarations, rules, warnings⟩ := c
  cases rules <;> cases declarations <;> rfl

theorem occurs_append {rules rules' chain : List Rule} {r : Rule}
    (h : Occurs (rules ++ rules') chain r) : Occurs rules chain r ∨ Occurs rules' chain r := by
  cases h with
  | here h => exact (List.mem_append.1 h).imp .here .here
  | inside h hr => exact (List.mem_append.1 h).imp (.inside · hr) (.inside · hr)

/-- What stands right inside a rule rises from the line of the rule. -/
structure Rule.Rising (high : Nat) (r : Rule) : Prop where
  declarations : Rises r.line high (r.held.map (·.line))
  rules : Rises r.line high (r.nested.map Rule.line)

/-- The parts of some contents rise between two lines, at every depth. -/
structure Contents.Rising (low high : Nat) (c : Contents) : Prop where
  declarations : Rises low high (c.declarations.map (·.line))
  rules : Rises low high (c.rules.map Rule.line)
  warnings : Rises low high (c.warnings.map (·.line))
  inside : ∀ chain r, Occurs c.rules chain r → r.Rising high

/-- What a rule list holds, as the contents of a block. -/
def Listing.contents (l : Listing) : Contents := ⟨[], l.rules, l.warnings⟩

namespace Contents

variable {low low' middle high high' : Nat} {c d : Contents} {r : Rule}

theorem Rising.lower (h : c.Rising low high) (hl : low' ≤ low) : c.Rising low' high :=
  ⟨h.declarations.lower hl, h.rules.lower hl, h.warnings.lower hl, h.inside⟩

theorem Rising.append (hc : c.Rising low middle) (hd : d.Rising middle high) :
    (c.append d).Rising low high where
  declarations := by
    rw [Contents.append, List.map_append]
    exact hc.declarations.append hd.declarations
  rules := by
    rw [Contents.append, List.map_append]
    exact hc.rules.append hd.rules
  warnings := by
    rw [Contents.append, List.map_append]
    exact hc.warnings.append hd.warnings
  inside := by
    intro chain r hr
    rcases occurs_append hr with hr | hr
    · have hrising := hc.inside chain r hr
      exact ⟨hrising.declarations.upper hd.rules.le, hrising.rules.upper hd.rules.le⟩
    · exact hd.inside chain r hr

theorem rising_empty (h : low ≤ high) : Contents.empty.Rising low high where
  declarations := h
  rules := h
  warnings := h
  inside := by
    intro chain r hr
    cases hr with
    | here hr => exact absurd hr List.not_mem_nil
    | inside hr _ => exact absurd hr List.not_mem_nil

/-- A rule that holds contents which rise from its line. -/
theorem Rising.around {line : Nat} (h : c.Rising line high) (hat : r.line = line)
    (hheld : r.held = c.declarations) (hnested : r.nested = c.rules) (hl : low ≤ line) :
    Contents.Rising low high ⟨[], [r], c.warnings⟩ := by
  subst hat
  refine ⟨hl.trans h.rules.le, rises_singleton hl h.rules.le, h.warnings.lower hl, ?_⟩
  intro chain inner hr
  cases hr with
  | here hr =>
    obtain rfl := List.mem_singleton.1 hr
    exact ⟨hheld ▸ h.declarations, hnested ▸ h.rules⟩
  | inside hr hi =>
    obtain rfl := List.mem_singleton.1 hr
    exact h.inside _ inner (hnested ▸ hi)

/-- A rule that holds nothing. -/
theorem rising_leaf (hheld : r.held = []) (hnested : r.nested = []) (hl : low ≤ r.line)
    (hh : r.line ≤ high) : Contents.Rising low high ⟨[], [r], []⟩ :=
  (rising_empty hh).around rfl hheld hnested hl

end Contents

/-! ## Tokens of items -/

variable {role : Role} {nested : Bool} {item : Item} {items : List Item} {ns : List Node}
variable {low high : Nat}

/-- The tokens that are skipped and taken for an item. -/
def Role.spent (role : Role) (item : Item) : List Token := allTokens item.skipped ++ role.taken item

private theorem tokens_blockItems (nested : Bool) (skipped ns : List Node) :
    ∃ rest, allTokens skipped ++ allTokens ns =
      (blockItems nested skipped ns).flatMap (Role.block nested).spent ++ rest := by
  fun_induction blockItems nested skipped ns with
  | case1 skipped ns h => exact ⟨_, rfl⟩
  | case2 skipped ns n rest hd found item ih =>
    obtain ⟨behind, hb⟩ := ih
    have hsplit : allTokens skipped ++ allTokens ns =
        allTokens item.skipped ++ (item.tokens ++ allTokens found.2.rest) :=
      tokens_split hd (nodes_of_readBlockItem nested n rest)
    refine ⟨behind, ?_⟩
    rw [List.flatMap_cons, Role.spent, List.append_assoc, List.append_assoc, ← hb, hsplit,
      ← taken_leftover nested item, List.append_assoc]

private theorem tokens_ruleItems (first : Bool) (skipped ns : List Node) :
    allTokens skipped ++ allTokens ns = (ruleItems first skipped ns).items.flatMap Role.rules.spent ++
      allTokens (ruleItems first skipped ns).tail := by
  fun_induction ruleItems first skipped ns with
  | case1 first skipped ns gap hd =>
    have hns := List.takeWhile_append_dropWhile (p := isRuleGap) (l := ns)
    rw [hd, List.append_nil] at hns
    simp [gap, hns, allTokens_append]
  | case2 first skipped ns gap n rest hd hf c ih =>
    have hns := List.takeWhile_append_dropWhile (p := isRuleGap) (l := ns)
    rw [← ih, ← hns, hd]
    nth_rewrite 1 [← cutAt_nodes endsStatement rest]
    simp [gap, c, allTokens_append, allTokens]
  | case3 first skipped ns gap n rest hd hf found more ih =>
    have hsplit : allTokens skipped ++ allTokens ns = allTokens gap ++
        (allTokens (found.2.nodes ++ found.2.stop.toList) ++ allTokens found.2.rest) :=
      tokens_split hd (nodes_of_readItem .rules n rest)
    rw [List.flatMap_cons, List.append_assoc, ← ih, hsplit]
    simp [Role.spent, Role.taken, Item.tokens, allTokens]

/-- The items of a list take its tokens in turn. -/
theorem tokens_items (role : Role) (ns : List Node) :
    ∃ rest, allTokens ns = (role.items ns).flatMap role.spent ++ rest := by
  cases role with
  | rules => exact ⟨_, tokens_ruleItems true [] ns⟩
  | block nested => exact tokens_blockItems nested [] ns

/-- An item starts on the line of its first token. -/
theorem exists_failed_cons (hm : item ∈ role.items ns) :
    ∃ t ts, item.failed = t :: ts ∧ item.line = t.line := by
  obtain ⟨n, rest, -, -, hread⟩ := mem_items role hm
  have hnodes := nodes_of_readItem role n rest
  rw [← hread.nodes, ← hread.stop] at hnodes
  have hne : item.failed ≠ [] := by
    cases role with
    | rules => exact failed_of_mem_ruleItems hm
    | block nested => exact failed_of_mem_blockItems hm
  obtain ⟨ts, hts⟩ := List.head?_eq_some_iff.1 (head?_failed hne hnodes)
  exact ⟨n.first, ts, hts, hread.line⟩

/-- The block of an item spans lines that are not above the item. -/
theorem spans_inner (hm : item ∈ role.items ns) (hs : Spans low high item.tokens) :
    low ≤ item.line ∧ Spans item.line high (allTokens item.inner) := by
  obtain ⟨t, ts, hfailed, hline⟩ := exists_failed_cons hm
  obtain ⟨after, htokens⟩ := tokens_eq_inner item
  rw [htokens] at hs
  obtain ⟨m, hspan, hrest⟩ := spans_append.1 hs
  obtain ⟨m', hinner, hafter⟩ := spans_append.1 hrest
  have hbounds := hspan.bounds (t := t) (by simp [hfailed])
  rw [hline]
  exact ⟨hbounds.1, (hinner.lower (t.line_le_stop.trans hbounds.2)).upper hafter.le⟩

private theorem first_mem_allTokens {n : Node} (h : n ∈ ns) : n.first ∈ allTokens ns := by
  obtain ⟨xs, ys, rfl⟩ := List.append_of_mem h
  have hn : n.first ∈ n.tokens := by cases n <;> simp [Node.first, Node.tokens]
  simp [allTokens_append, allTokens, hn]

/-- A declaration stands among the lines of its item. -/
theorem bounds_declaration {d : Declaration} (hm : item ∈ role.items ns)
    (hr : item.reading = .declaration d) (hs : Spans low high item.tokens) :
    low ≤ d.line ∧ d.line ≤ high := by
  obtain ⟨n, rest, -, -, hread⟩ := mem_items role hm
  obtain ⟨_, _, _, _, body, -, -, hnodes, -, hd⟩ := hread.declaration hr
  obtain ⟨m, ms, hvalue, hline⟩ := line_declarationReading hd
  have hmem : m ∈ body :=
    (List.dropWhile_suffix Node.isSpacing).subset (hvalue ▸ List.mem_cons_self)
  have hm : m ∈ item.nodes ++ item.stop.toList := by simp [hnodes, hmem]
  obtain ⟨hlow, hhigh⟩ := hs.bounds (first_mem_allTokens hm)
  rw [hline]
  exact ⟨hlow, m.first.line_le_stop.trans hhigh⟩

/-- The line of a fault is one that the tokens reach. -/
theorem bounds_lineAfter (skip : Kind → Bool) {ts : List Token} (hs : Spans low high ts)
    (hne : ts ≠ []) : low ≤ lineAfter skip ts ∧ lineAfter skip ts ≤ high := by
  unfold lineAfter
  split
  · rename_i t ht
    obtain ⟨hlow, hhigh⟩ := hs.bounds (List.mem_of_find?_eq_some ht)
    exact ⟨hlow, t.line_le_stop.trans hhigh⟩
  · have hlast := List.getLast?_eq_some_getLast hne
    rw [hlast]
    obtain ⟨hlow, hhigh⟩ := hs.bounds (List.getLast_mem hne)
    exact ⟨hlow.trans (Token.line_le_stop _), hhigh⟩

/-! ## Blocks -/

/-- What an item without a fault adds to a block rises between the lines of its tokens. -/
theorem rising_rule {inner : Contents} (hm : item ∈ role.items ns)
    (hf : ∀ f, item.reading ≠ .fault f) (hs : Spans low high item.tokens)
    (hi : inner.Rising item.line high) : (item.contents inner).Rising low high := by
  obtain ⟨hline, -⟩ := spans_inner hm hs
  unfold Item.contents
  cases hr : item.reading with
  | fault f => exact absurd hr (hf f)
  | declaration d =>
    obtain ⟨hlow, hhigh⟩ := bounds_declaration hm hr hs
    have hempty := Contents.rising_empty (hlow.trans hhigh)
    exact ⟨rises_singleton hlow hhigh, hempty.rules, hempty.warnings, hempty.inside⟩
  | style found => exact hi.around rfl rfl rfl hline
  | atRule name =>
    cases hb : item.hasBlock with
    | true =>
      have hbody : item.atBody inner.body = inner.body := by simp [Item.atBody, hb]
      rw [hbody]
      exact hi.around rfl inner.held_body inner.nested_body hline
    | false =>
      have hbody : item.atBody inner.body = .none := by simp [Item.atBody, hb]
      have hempty := Contents.rising_empty hi.rules.le
      have hbare : Contents.Rising item.line high ⟨[], [], inner.warnings⟩ :=
        ⟨hempty.declarations, hempty.rules, hi.warnings, hempty.inside⟩
      rw [hbody]
      exact hbare.around rfl rfl rfl hline

/-- What an item adds to a block rises between the lines of the tokens that are spent on it. -/
theorem rising_contents {inner : Contents} (hm : item ∈ (Role.block nested).items ns)
    (hs : Spans low high ((Role.block nested).spent item))
    (hi : ∀ low high, Spans low high (allTokens item.inner) → inner.Rising low high) :
    (item.contents inner).Rising low high := by
  by_cases hf : ∃ f, item.reading = .fault f
  · obtain ⟨f, hr⟩ := hf
    have hspent : (Role.block nested).spent item = allTokens item.skipped ++ item.failed := by
      simp [Role.spent, Role.taken, hr]
    rw [hspent] at hs
    obtain ⟨t, ts, hfailed, -⟩ := exists_failed_cons hm
    obtain ⟨hlow, hhigh⟩ := bounds_lineAfter passedInBlock hs (by simp [hfailed])
    have hempty := Contents.rising_empty (hlow.trans hhigh)
    simp only [Item.contents, hr]
    exact ⟨hempty.declarations, hempty.rules, rises_singleton hlow hhigh, hempty.inside⟩
  · have hf : ∀ f, item.reading ≠ .fault f := fun f hr => hf ⟨f, hr⟩
    have htaken : (Role.block nested).taken item = item.tokens := by
      unfold Role.taken
      cases hr : item.reading with
      | fault f => exact absurd hr (hf f)
      | _ => rfl
    obtain ⟨m, hskipped, htokens⟩ := spans_append.1 hs
    rw [htaken] at htokens
    have hrule := rising_rule hm hf htokens (hi _ _ (spans_inner hm htokens).2)
    exact hrule.lower hskipped.le

/-- The contents of items rise in the order of the items. -/
private theorem rising_concat {part : Item → Contents} (hp : ∀ item ∈ items, ∀ low high,
    Spans low high (role.spent item) → (part item).Rising low high)
    (hs : Spans low high (items.flatMap role.spent)) :
    (Contents.concat (items.map part)).Rising low high := by
  induction items generalizing low with
  | nil => exact Contents.rising_empty hs
  | cons item items ih =>
    rw [List.flatMap_cons] at hs
    obtain ⟨m, hitem, hitems⟩ := spans_append.1 hs
    rw [List.map_cons, Contents.concat_cons]
    exact (hp item List.mem_cons_self _ _ hitem).append
      (ih (fun i hi => hp i (List.mem_cons_of_mem _ hi)) hitems)

/-- What a block holds rises between the lines of its tokens. -/
theorem rising_readBlock (nested : Bool) (ns : List Node) (low high : Nat)
    (hs : Spans low high (allTokens ns)) : (readBlock nested ns).Rising low high := by
  induction nested, ns using readBlock.induct generalizing low high with
  | case1 nested ns ih =>
    obtain ⟨rest, htokens⟩ := tokens_items (.block nested) ns
    rw [htokens] at hs
    obtain ⟨m, hitems, hrest⟩ := spans_append.1 hs
    rw [readBlock_eq]
    refine rising_concat (fun item hm low high hspent => ?_) (hitems.upper hrest.le)
    exact rising_contents hm hspent fun low high hinner => ih ⟨item, hm⟩ low high hinner

/-! ## Rule lists -/

/-- The line that a comment gets behind a node, if it stands on `line` itself. -/
def lineUnder (previous : Option Node) (line : Nat) : Nat :=
  ((previous.filter Node.isBlock).map lineBehind).getD line

/-- Comments rise, though one behind a block gets the line where the block opens. -/
theorem rising_commentsOf (previous : Option Node) (ns : List Node)
    (hp : lineUnder previous low ≤ low) (hs : Spans low high (allTokens ns)) :
    Contents.Rising (lineUnder previous low) high ⟨[], commentsOf previous ns, []⟩ := by
  induction ns generalizing previous low with
  | nil => exact Contents.rising_empty (hp.trans hs)
  | cons n ns ih =>
    obtain ⟨m, hn, hns⟩ := spans_append.1 hs
    cases n with
    | block opener inner closer =>
      obtain ⟨hlow, hm⟩ := hn.bounds (t := opener) (by simp [Node.tokens])
      have hrest := ih (some (.block opener inner closer)) hm hns
      exact hrest.lower (hp.trans (hlow.trans opener.line_le_stop))
    | leaf t =>
      obtain ⟨hlow, hm⟩ := hn.bounds (t := t) (by simp [Node.tokens])
      have hline : t.line ≤ m := t.line_le_stop.trans hm
      have hrest := ih (some (.leaf t)) (Nat.le_refl m) hns
      obtain ⟨kind, source, line⟩ := t
      cases kind with
      | comment text =>
        have hunder : lineUnder previous low ≤ lineUnder previous line ∧
            lineUnder previous line ≤ line := by
          unfold lineUnder at hp ⊢
          cases hb : previous.filter Node.isBlock with
          | none => exact ⟨hlow, Nat.le_refl line⟩
          | some b =>
            rw [hb] at hp
            exact ⟨Nat.le_refl _, Nat.le_trans hp hlow⟩
        have hcomment : Contents.Rising (lineUnder previous low) m
            ⟨[], [.comment text (lineUnder previous line)], []⟩ :=
          Contents.rising_leaf rfl rfl hunder.1 (hunder.2.trans hline)
        exact hcomment.append hrest
      | _ => exact hrest.lower (hp.trans (hlow.trans hline))

/-- What an item adds to a rule list rises between the lines of the tokens that are spent on it. -/
theorem rising_listing {inner : Except ParseError Listing} {l : Listing}
    (hm : item ∈ Role.rules.items ns) (hs : Spans low high (Role.rules.spent item))
    (hi : ∀ l low high, inner = .ok l → Spans low high (allTokens item.inner) →
      l.contents.Rising low high) (h : item.listing inner = .ok l) :
    l.contents.Rising low high := by
  obtain ⟨rule, hrule, rfl⟩ := Item.listing_ok h
  obtain ⟨m, hskipped, htokens⟩ := spans_append.1 hs
  have hcomments := rising_commentsOf none item.skipped (Nat.le_refl low) hskipped
  have htokens : Spans m high item.tokens := htokens
  obtain ⟨hline, hinner⟩ := spans_inner hm htokens
  suffices hrule : rule.contents.Rising m high from hcomments.append hrule
  rcases Item.rule_ok hrule with ⟨name, listing, -, -, hok, rfl⟩ | ⟨-, hf, rfl⟩
  · exact (hi listing _ _ hok hinner).around rfl rfl rfl hline
  · have hrising := rising_rule hm hf htokens (rising_readBlock item.nests item.inner _ _ hinner)
    exact ⟨hrising.rules.le, hrising.rules, hrising.warnings, hrising.inside⟩

/-- The listings of items rise in the order of the items. -/
private theorem rising_listings {part : Item → Except ParseError Listing} {tail l : Listing} {m : Nat}
    (hp : ∀ item ∈ items, ∀ l low high, part item = .ok l → Spans low high (role.spent item) →
      l.contents.Rising low high)
    (hs : Spans low m (items.flatMap role.spent)) (ht : tail.contents.Rising m high)
    (h : Listing.concat (items.map part ++ [.ok tail]) = .ok l) : l.contents.Rising low high := by
  induction items generalizing low l with
  | nil =>
    obtain ⟨_, _, hpart, hrest, rfl⟩ := Listing.concat_cons_ok h
    obtain rfl := Except.ok.inj hpart
    obtain rfl := Except.ok.inj hrest
    exact (ht.lower hs).append (Contents.rising_empty (Nat.le_refl high))
  | cons item items ih =>
    rw [List.flatMap_cons] at hs
    obtain ⟨m', hitem, hitems⟩ := spans_append.1 hs
    obtain ⟨first, others, hpart, hrest, rfl⟩ := Listing.concat_cons_ok h
    have hfirst := hp item List.mem_cons_self first _ _ hpart hitem
    exact hfirst.append (ih (fun i hi => hp i (List.mem_cons_of_mem _ hi)) hitems hrest)

/-- What a rule list holds rises between the lines of its tokens. -/
theorem rising_readRules (ns : List Node) (l : Listing) (low high : Nat) (h : readRules ns = .ok l)
    (hs : Spans low high (allTokens ns)) : l.contents.Rising low high := by
  induction ns using readRules.induct generalizing l low high with
  | case1 ns found =>
    rename_i ih
    have htokens := tokens_ruleItems true [] ns
    rw [allTokens, List.nil_append] at htokens
    rw [htokens] at hs
    obtain ⟨m, hitems, htail⟩ := spans_append.1 hs
    rw [readRules_eq] at h
    let tail : Listing := ⟨commentsOf none (ruleItems true [] ns).tail, []⟩
    have htail : tail.contents.Rising m high := rising_commentsOf none _ (Nat.le_refl m) htail
    refine rising_listings (fun item hm l low high hl hspent => ?_) hitems htail h
    refine rising_listing hm hspent (fun l low high hl hinner => ?_) hl
    by_cases hg : item.groups = true
    · rw [if_pos hg] at hl
      exact ih ⟨item, hm⟩ l low high hl hinner
    · rw [if_neg hg] at hl
      obtain rfl := Except.ok.inj hl
      exact Contents.rising_empty hinner.le

/-! ## Sheets -/

/-- The statement at the start of a sheet is on the first line and holds nothing. -/
private theorem rising_front (ns : List Node) (h : 1 ≤ high) :
    Contents.Rising 1 high ⟨[], Stylesheet.front ns, []⟩ := by
  unfold Stylesheet.front
  split
  · split
    · exact Contents.rising_leaf rfl rfl (Nat.le_refl 1) h
    · exact Contents.rising_empty h
  · exact Contents.rising_empty h

/-- The number of lines of a stylesheet. -/
def Text.lineCount (text : String) : Nat := 1 + Text.lineBreaks text.toList

/-- The parts of a sheet rise from the first line of its text to the last. -/
theorem rising_parse {css : String} {s : Stylesheet} (h : Stylesheet.parse css = .ok s) :
    Contents.Rising 1 (Text.lineCount css) ⟨[], s.rules, s.warnings⟩ := by
  obtain ⟨l, hl, rfl⟩ := parse_ok h
  have hs : Spans 1 (Text.lineCount css) (allTokens (Node.ofText css.toList)) := by
    rw [Node.allTokens_ofText]
    exact spans_tokens css.toList
  rw [← cut_append (Node.ofText css.toList), allTokens_append] at hs
  obtain ⟨m, hfront, hrest⟩ := spans_append.1 hs
  exact (rising_front _ hfront.le).append (rising_readRules _ l _ _ hl hrest)

/-- The lines of a rule in a text of `count` lines, and of what stands right inside of it. -/
structure Rule.InOrder (count : Nat) (r : Rule) : Prop where
  line : 1 ≤ r.line ∧ r.line ≤ count
  declarations : (r.held.map (·.line)).Pairwise (· ≤ ·)
  rules : (r.nested.map Rule.line).Pairwise (· ≤ ·)
  held : ∀ d ∈ r.held, r.line ≤ d.line ∧ d.line ≤ count
  nested : ∀ inner ∈ r.nested, r.line ≤ inner.line ∧ inner.line ≤ count

theorem Rule.Rising.inOrder {high : Nat} {r : Rule} (h : r.Rising high) (hl : 1 ≤ r.line) :
    r.InOrder high where
  line := ⟨hl, h.rules.le⟩
  declarations := h.declarations.pairwise
  rules := h.rules.pairwise
  held := fun _ hd => h.declarations.bounds _ (List.mem_map_of_mem hd)
  nested := fun _ hr => h.rules.bounds _ (List.mem_map_of_mem hr)

/-- No rule stands above the list that it is found in, at any depth. -/
private theorem Occurs.le_line {rules chain : List Rule} {r : Rule} {low : Nat}
    (h : Occurs rules chain r) (hl : ∀ r ∈ rules, low ≤ r.line)
    (hin : ∀ chain r, Occurs rules chain r → ∃ high, r.Rising high) : low ≤ r.line := by
  induction h with
  | here h => exact hl _ h
  | @inside rules chain parent r hp hr ih =>
    obtain ⟨high, hrising⟩ := hin [] parent (.here hp)
    refine ih (fun inner hi => ?_) fun chain inner hi => hin (parent :: chain) inner (.inside hp hi)
    exact (hl parent hp).trans (hrising.rules.bounds _ (List.mem_map_of_mem hi)).1

/-- The lines of a parsed sheet are those of its text, and they do not fall: from rule to rule in the
sheet and in every rule, from declaration to declaration, from warning to warning, and from a rule to
what it holds. -/
theorem lines_parse {css : String} {s : Stylesheet} (h : Stylesheet.parse css = .ok s) :
    (s.rules.map Rule.line).Pairwise (· ≤ ·) ∧
    (∀ chain r, Occurs s.rules chain r → r.InOrder (Text.lineCount css)) ∧
    (s.warnings.map (·.line)).Pairwise (· ≤ ·) ∧
    ∀ w ∈ s.warnings, 1 ≤ w.line ∧ w.line ≤ Text.lineCount css := by
  have hrising := rising_parse h
  have hinside := hrising.inside
  refine ⟨hrising.rules.pairwise, fun chain r hr => ?_, hrising.warnings.pairwise, fun w hw =>
    hrising.warnings.bounds _ (List.mem_map_of_mem hw)⟩
  have hfirst : ∀ r ∈ s.rules, 1 ≤ r.line := fun r hm =>
    (hrising.rules.bounds _ (List.mem_map_of_mem hm)).1
  exact (hinside chain r hr).inOrder
    (hr.le_line hfirst fun chain r hr => ⟨_, hinside chain r hr⟩)

/-- A comment, a group on the second line, and a rule in it with a declaration, a part that is skipped
and a rule inside. -/
theorem lines_parse_group : ∃ s,
    Stylesheet.parse "/*a*/\n@media b\x7b\nc\x7bd:\ne;f;g\x7bh:i\x7d\x7d\x7d" = .ok s ∧
      s.rules.map Rule.line = [1, 2] ∧ s.warnings.map (·.line) = [4] ∧
      Text.lineCount "/*a*/\n@media b\x7b\nc\x7bd:\ne;f;g\x7bh:i\x7d\x7d\x7d" = 4 ∧
      (s.rules.map Rule.line).Pairwise (· ≤ ·) ∧
      (∀ chain r, Occurs s.rules chain r → r.InOrder 4) ∧
      (s.warnings.map (·.line)).Pairwise (· ≤ ·) ∧ ∀ w ∈ s.warnings, 1 ≤ w.line ∧ w.line ≤ 4 := by
  have hs : Stylesheet.parse "/*a*/\n@media b\x7b\nc\x7bd:\ne;f;g\x7bh:i\x7d\x7d\x7d" = .ok
      ⟨[.comment "a" 1, .atRule "media" "b" (.rules [.style ["c"] [⟨"d", "e", 3⟩]
        [.style ["g"] [⟨"h", "i", 4⟩] [] 4] 3]) 2], [⟨"skipped `f;`: missing ':' or value", 4⟩]⟩ := by
    cbv
  have hcount : Text.lineCount "/*a*/\n@media b\x7b\nc\x7bd:\ne;f;g\x7bh:i\x7d\x7d\x7d" = 4 := by
    cbv
  have hlines := lines_parse hs
  rw [hcount] at hlines
  exact ⟨_, hs, rfl, rfl, hcount, hlines⟩

end SheetDiff
