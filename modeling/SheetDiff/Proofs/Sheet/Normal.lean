import SheetDiff.Proofs.Css.Reads
import SheetDiff.Proofs.Sheet.Items
import SheetDiff.Sheet.Parse

/-!
# Parsed sheets are in normal form

`Rule.Normal` says how a rule may look in a rule list or in a block: stored texts are collapsed,
comments stand in rule lists only, and the name of an at-rule and the place it stands at decide how
its block is read. Every rule that `Stylesheet.parse` reads is in normal form (`normal_parse`).
-/

namespace SheetDiff

open Css (Kind Node Token Reads sourceOf ClosesComment)

/-! ## What a body holds -/

/-- The rules in a body. -/
def AtBody.nested : AtBody → List Rule
  | .none | .declarations _ => []
  | .rules items | .block _ items => items

/-- The declarations in a body. -/
def AtBody.held : AtBody → List Declaration
  | .none | .rules _ => []
  | .declarations items | .block items _ => items

/-! ## Normal rules -/

/-- A text that is stored where something has to stand. -/
structure Text.Filled (s : String) : Prop where
  ne : s ≠ ""
  stored : Text.Stored s

/-- A selector; if it starts like a comment it also closes one. -/
structure SelectorNormal (s : String) : Prop extends Text.Filled s where
  closes : ∀ u, s.toList = '/' :: '*' :: u → ClosesComment u

def Declaration.Normal (d : Declaration) : Prop := Text.Filled d.value

def Rule.IsStyle : Rule → Prop
  | .style .. => True
  | _ => False

/-- Whether the block of an at-rule of a class is read as a rule list. -/
def Scope.Groups (scope : Scope) (cls : AtClass) : Prop := scope = .ruleList ∧ cls ≠ .declarations

mutual

/-- A rule as it may stand in a rule list or in a block. -/
def Rule.Normal (scope : Scope) : Rule → Prop
  | .style selectors declarations rules _ =>
    selectors ≠ [] ∧ (∀ s ∈ selectors, SelectorNormal s) ∧ (∀ d ∈ declarations, d.Normal) ∧
      Rule.AllNormal .block rules
  | .atRule name lead body _ =>
    name ≠ "" ∧ Text.Stored lead ∧ body.Normal scope (AtClass.ofName name)
  | .comment text _ => scope = .ruleList ∧ ¬ ClosesComment text.toList

/-- What may follow the lead of an at-rule of a class. -/
def AtBody.Normal (scope : Scope) (cls : AtClass) : AtBody → Prop
  | .none => cls = .optional
  | .rules items =>
    (scope.Groups cls → Rule.AllNormal .ruleList items) ∧
      (¬ scope.Groups cls → items ≠ [] ∧ Rule.AllNormal .block items ∧
        (cls = .declarations → ∀ r ∈ items, ¬ r.IsStyle))
  | .declarations items => ¬ scope.Groups cls ∧ ∀ d ∈ items, d.Normal
  | .block declarations rules =>
    ¬ scope.Groups cls ∧ declarations ≠ [] ∧ rules ≠ [] ∧ (∀ d ∈ declarations, d.Normal) ∧
      Rule.AllNormal .block rules ∧ (cls = .declarations → ∀ r ∈ rules, ¬ r.IsStyle)

def Rule.AllNormal (scope : Scope) : List Rule → Prop
  | [] => True
  | rule :: rules => rule.Normal scope ∧ Rule.AllNormal scope rules

end

theorem allNormal_iff {scope : Scope} {rules : List Rule} :
    Rule.AllNormal scope rules ↔ ∀ r ∈ rules, r.Normal scope := by
  induction rules with
  | nil => simp [Rule.AllNormal]
  | cons r rs ih => simp [Rule.AllNormal, ih]

/-- The rules of a sheet are in normal form. -/
def Stylesheet.Normal (s : Stylesheet) : Prop := Rule.AllNormal .ruleList s.rules

/-- The contents of a block, in which style rules may nest. -/
structure Contents.Normal (nested : Bool) (c : Contents) : Prop where
  declarations : ∀ d ∈ c.declarations, d.Normal
  rules : Rule.AllNormal .block c.rules
  style : nested = false → ∀ r ∈ c.rules, ¬ r.IsStyle

theorem Contents.Normal.body {nested : Bool} {c : Contents} (h : c.Normal nested) {scope : Scope}
    {cls : AtClass} (hs : ¬ scope.Groups cls) (hn : nested = decide (cls ≠ .declarations)) :
    c.body.Normal scope cls := by
  have hstyle : cls = .declarations → ∀ r ∈ c.rules, ¬ r.IsStyle := by
    rintro rfl
    exact h.style (by simpa using hn)
  unfold Contents.body
  split
  · exact ⟨hs, h.declarations⟩
  · rename_i hr
    have hr : c.rules ≠ [] := by simpa using hr
    split
    · exact ⟨fun hg => absurd hg hs, fun _ => ⟨hr, h.rules, hstyle⟩⟩
    · rename_i hd
      exact ⟨hs, by simpa using hd, hr, h.declarations, h.rules, hstyle⟩

/-! ## Selectors -/

/-- The parts between commas are sources of tokens that stand together. -/
private theorem commaParts_eq (ns : List Node) : ∃ part parts, commaParts ns = part :: parts ∧
    (∃ ts, ts <+: Node.allTokens ns ∧ part = sourceOf ts) ∧
    ∀ p ∈ parts, ∃ ts, ts <:+: Node.allTokens ns ∧ p = sourceOf ts := by
  induction ns with
  | nil => exact ⟨[], [], rfl, ⟨[], List.nil_prefix, rfl⟩, by simp⟩
  | cons n ns ih =>
    obtain ⟨part, parts, hc, ⟨ts, hts, rfl⟩, hparts⟩ := ih
    have hsuf : Node.allTokens ns <:+ Node.allTokens (n :: ns) := List.suffix_append _ _
    have hparts' : ∀ p ∈ parts, ∃ ts, ts <:+: Node.allTokens (n :: ns) ∧ p = sourceOf ts :=
      fun p hp => (hparts p hp).imp fun us hus => ⟨hus.1.trans hsuf.isInfix, hus.2⟩
    unfold commaParts
    rw [hc]
    split
    · refine ⟨[], _, rfl, ⟨[], List.nil_prefix, rfl⟩, fun p hp => ?_⟩
      rcases List.mem_cons.1 hp with rfl | hp
      · exact ⟨ts, hts.isInfix.trans hsuf.isInfix, rfl⟩
      · exact hparts' p hp
    · refine ⟨_, parts, rfl, ?_, hparts'⟩
      simp only
      split
      · rename_i hcut
        -- the next node is a comma, so that nothing follows the opening token
        obtain ⟨m, ms, rfl, hm⟩ : ∃ m ms, ns = m :: ms ∧ m.isLeaf (· = .comma) = true := by
          cases ns with
          | nil => simp at hcut
          | cons m ms => exact ⟨m, ms, rfl, by simpa using (Bool.and_eq_true_iff.1 hcut).2⟩
        have hnil : sourceOf ts = [] := by
          unfold commaParts at hc
          rw [if_pos hm, List.cons.injEq] at hc
          exact hc.1.symm
        refine ⟨[n.first], ?_, by simp [hnil]⟩
        cases n <;> simp [Node.allTokens, Node.tokens, Node.first]
      · exact ⟨n.tokens ++ ts, (List.prefix_append_right_inj _).2 hts, by
          simp [Node.source, Node.allTokens, sourceOf]⟩

/-- The selectors of a rule, before whose block its nodes stand. -/
theorem normal_selectors {ns : List Node} {k : List Char} {found : List String}
    (h : Reads (Node.allTokens ns) k) (hk : k ≠ []) (hf : selectors ns = .ok found) :
    found ≠ [] ∧ ∀ s ∈ found, SelectorNormal s := by
  unfold selectors at hf
  split at hf
  · simp at hf
  · simp only at hf
    split at hf
    · simp at hf
    · rename_i hne
      obtain rfl := Except.ok.inj hf
      refine ⟨by simpa using hne, fun s hs => ?_⟩
      obtain ⟨hs, hsne⟩ := List.mem_filter.1 hs
      obtain ⟨part, hpart, rfl⟩ := List.mem_map.1 hs
      refine ⟨⟨by simpa using hsne, Text.stored_collapse part⟩, fun u hu => ?_⟩
      obtain ⟨ts, ⟨xs, ys, hts⟩, rfl⟩ : ∃ ts, ts <:+: Node.allTokens ns ∧ part = sourceOf ts := by
        obtain ⟨p, ps, hc, ⟨ts, hts, hp⟩, hps⟩ := commaParts_eq ns
        rw [hc] at hpart
        rcases List.mem_cons.1 hpart with rfl | hpart
        · exact ⟨ts, hts.isInfix, hp⟩
        · exact hps part hpart
      rw [← hts] at h
      have hr := (Css.reads_append.1 (Css.reads_append.1 h).1).2
      exact Css.closesComment_of_collapse hr (by simp [hk]) hu

/-! ## Blocks -/

theorem normal_declaration {nested : Bool} {property : String} {ns : List Node} {d : Declaration}
    (h : declarationReading nested property ns = .ok d) : d.Normal := by
  unfold declarationReading at h
  split at h
  · simp at h
  · split at h
    · simp only at h
      split at h
      · simp at h
      · split at h
        · simp at h
        · rename_i hv
          obtain rfl := Except.ok.inj h
          exact ⟨by simpa using hv, Text.stored_collapse _⟩
    · simp at h

private theorem infix_allTokens {ms ns : List Node} (h : ms <:+: ns) :
    Node.allTokens ms <:+: Node.allTokens ns := by
  obtain ⟨xs, ys, rfl⟩ := h
  rw [Node.allTokens_append, Node.allTokens_append]
  exact ⟨_, _, rfl⟩

private theorem infix_tokens {n : Node} {ns : List Node} (h : n ∈ ns) :
    n.tokens <:+: Node.allTokens ns := by
  obtain ⟨xs, ys, rfl⟩ := List.append_of_mem h
  exact ⟨Node.allTokens xs, Node.allTokens ys, by
    simp [Node.allTokens_append, Node.allTokens]⟩

private theorem infix_inner (n : Node) : Node.allTokens n.inner <:+: n.tokens := by
  cases n with
  | leaf t => exact List.nil_infix
  | block opener inner closer => exact ⟨[opener], closer.toList, by simp [Node.tokens, Node.inner]⟩

/-- The tokens inside the block of an item stand together in the list of the item. -/
private theorem infix_item_inner {item : Item} {ns : List Node}
    (h : item.nodes ++ item.stop.toList <:+: ns) :
    Node.allTokens item.inner <:+: Node.allTokens ns := by
  have hstop (stop : Node) (hs : item.stop = some stop) : stop ∈ ns :=
    h.mem (by simp [hs])
  unfold Item.inner
  split
  · rename_i hs
    exact (infix_inner _).trans (infix_tokens (hstop _ hs))
  · rename_i hs
    exact (infix_inner _).trans (infix_tokens (hstop _ hs))
  · exact List.nil_infix

/-- The selectors of an item that ends at a block. -/
private theorem normal_item_selectors {item : Item} {ns : List Node} {k : List Char}
    {found : List String} (hr : Reads (Node.allTokens ns) k)
    (hi : item.nodes ++ item.stop.toList <:+: ns) {stop : Node} (hs : item.stop = some stop)
    (hf : selectors item.nodes = .ok found) : found ≠ [] ∧ ∀ s ∈ found, SelectorNormal s := by
  obtain ⟨k', hk'⟩ := hr.of_infix (infix_allTokens hi)
  rw [hs, Node.allTokens_append, Css.reads_append] at hk'
  obtain ⟨ts, hts⟩ : ∃ ts, Node.allTokens (some stop).toList = stop.first :: ts := by
    cases stop with
    | leaf t => exact ⟨[], rfl⟩
    | block opener inner closer => exact ⟨_, rfl⟩
  rw [hts] at hk'
  obtain ⟨c, cs, hc, -⟩ := hk'.2.1
  exact normal_selectors hk'.1 (by simp [hc]) hf

private theorem name_ne_empty {name : String} {source : List Char} {line : Nat} {ns : List Node}
    {k : List Char} (hr : Reads (Node.allTokens ns) k)
    (hn : Node.leaf ⟨.atKeyword name, source, line⟩ ∈ ns) : name ≠ "" :=
  (hr.proper ((infix_tokens hn).mem List.mem_cons_self)).name name rfl

/-- The body of an at-rule that is read from an item. -/
private theorem normal_atBody {item : Item} {name : String} {scope : Scope} {inner : Contents}
    (ha : item.reading = .atRule name) (hb : item.hasBlock = true ∨ AtClass.ofName name = .optional)
    (hi : inner.Normal item.nests) (hs : ¬ scope.Groups (AtClass.ofName name)) :
    (item.atBody inner.body).Normal scope (AtClass.ofName name) := by
  unfold Item.atBody
  split
  · exact hi.body hs (by simp [Item.nests, ha])
  · rename_i hno
    exact hb.resolve_left hno

private theorem normal_contents {nested : Bool} {item : Item} {ns : List Node} {k : List Char}
    (hr : Reads (Node.allTokens ns) k) (hm : item ∈ blockItems nested [] ns) {inner : Contents}
    (hi : inner.Normal item.nests) : (item.contents inner).Normal nested := by
  have hin := infix_of_mem_blockItems hm
  obtain ⟨n, rest, hsuf, -, hread⟩ := mem_blockItems hm
  obtain ⟨c, hrb, hnodes, hstop⟩ := hread.ofBlock
  unfold Item.contents
  cases hre : item.reading with
  | declaration d =>
    rw [hre] at hrb
    cases hrb with
    | declaration hn hd =>
      exact ⟨by simpa using normal_declaration hd, trivial, by simp⟩
  | style found =>
    rw [hre] at hrb
    cases hrb with
    | style hnested hat hd hs =>
      obtain ⟨⟨stop, hst, hb⟩, hf⟩ := styleReading_ok hs
      obtain ⟨hne, hsel⟩ := normal_item_selectors hr hin (hstop.trans hst) (hnodes ▸ hf)
      exact ⟨by simp, ⟨⟨hne, hsel, hi.declarations, hi.rules⟩, trivial⟩, by simp [hnested]⟩
  | atRule name =>
    rw [hre] at hrb
    cases hrb with
    | atRule hn hb =>
      subst hn
      have hname := name_ne_empty hr (hsuf.mem List.mem_cons_self)
      have hbody : (item.atBody inner.body).Normal .block (AtClass.ofName name) :=
        normal_atBody hre (by rwa [Item.hasBlock, hstop]) hi (by simp [Scope.Groups])
      exact ⟨by simp, ⟨⟨hname, Text.stored_collapse _, hbody⟩, trivial⟩, by simp [Rule.IsStyle]⟩
  | fault f => exact ⟨by simp, trivial, by simp⟩

/-- What a block holds is in normal form. -/
theorem normal_readBlock (nested : Bool) (ns : List Node) {k : List Char}
    (hr : Reads (Node.allTokens ns) k) : (readBlock nested ns).Normal nested := by
  induction nested, ns using readBlock.induct generalizing k with
  | case1 nested ns ih =>
    rw [readBlock_eq]
    have hall : ∀ c ∈ (blockItems nested [] ns).map fun item =>
        item.contents (readBlock item.nests item.inner), c.Normal nested := by
      intro c hc
      obtain ⟨item, hm, rfl⟩ := List.mem_map.1 hc
      obtain ⟨k', hk'⟩ := hr.of_infix (infix_item_inner (infix_of_mem_blockItems hm))
      exact normal_contents hr hm (ih ⟨item, hm⟩ hk')
    generalize (blockItems nested [] ns).map _ = parts at hall
    refine ⟨fun d hd => ?_, allNormal_iff.2 fun r hrule => ?_, fun hn r hrule => ?_⟩
    · obtain ⟨c, hc, hd⟩ := List.mem_flatMap.1 hd
      exact (hall c hc).declarations d hd
    · obtain ⟨c, hc, hrule⟩ := List.mem_flatMap.1 hrule
      exact allNormal_iff.1 (hall c hc).rules r hrule
    · obtain ⟨c, hc, hrule⟩ := List.mem_flatMap.1 hrule
      exact (hall c hc).style hn r hrule

/-! ## Rule lists -/

private theorem normal_commentsOf (previous : Option Node) {ns ms : List Node} {k : List Char}
    (hr : Reads (Node.allTokens ms) k) (hs : ∀ n ∈ ns, n ∈ ms) :
    ∀ r ∈ commentsOf previous ns, r.Normal .ruleList := by
  induction ns generalizing previous with
  | nil => simp [commentsOf]
  | cons n ns ih =>
    have ih (previous : Option Node) := ih previous fun m hm => hs m (by simp [hm])
    unfold commentsOf
    split
    · rename_i text source line
      intro r hrule
      rcases List.mem_cons.1 hrule with rfl | hrule
      · have ht := (infix_tokens (hs _ List.mem_cons_self)).mem List.mem_cons_self
        exact ⟨rfl, (hr.proper ht).comment text rfl⟩
      · exact ih _ r hrule
    · exact ih _

/-- A listing of several parts is that of the first part and that of the others. -/
theorem Listing.concat_cons_ok {part : Except ParseError Listing}
    {parts : List (Except ParseError Listing)} {l : Listing}
    (h : Listing.concat (part :: parts) = .ok l) : ∃ first others, part = .ok first ∧
      Listing.concat parts = .ok others ∧
      l = ⟨first.rules ++ others.rules, first.warnings ++ others.warnings⟩ := by
  cases part with
  | error e => simp [Listing.concat, bind, Except.bind] at h
  | ok first =>
    cases ho : Listing.concat parts with
    | error e => simp [Listing.concat, ho, bind, Except.bind] at h
    | ok others =>
      simp only [Listing.concat, ho, bind, Except.bind] at h
      exact ⟨first, others, rfl, rfl, (Except.ok.inj h).symm⟩

/-- An item adds the comments before it and its rule. -/
theorem Item.listing_ok {item : Item} {inner : Except ParseError Listing} {l : Listing}
    (h : item.listing inner = .ok l) : ∃ rule, item.rule inner = .ok rule ∧
      l = ⟨commentsOf none item.skipped ++ rule.rules, rule.warnings⟩ := by
  unfold Item.listing at h
  cases hr : item.rule inner with
  | error e => simp [hr, bind, Except.bind] at h
  | ok rule =>
    simp only [hr, bind, Except.bind] at h
    exact ⟨rule, rfl, (Except.ok.inj h).symm⟩

/-- A listing of several parts holds what these parts hold. -/
theorem Listing.concat_ok {parts : List (Except ParseError Listing)} {l : Listing}
    (h : Listing.concat parts = .ok l) : ∃ ls : List Listing, (∀ l' ∈ ls, .ok l' ∈ parts) ∧
      l = ⟨ls.flatMap (·.rules), ls.flatMap (·.warnings)⟩ := by
  induction parts generalizing l with
  | nil =>
    obtain rfl := Except.ok.inj h
    exact ⟨[], by simp, rfl⟩
  | cons part parts ih =>
    obtain ⟨first, others, rfl, ho, rfl⟩ := Listing.concat_cons_ok h
    obtain ⟨ls, hls, rfl⟩ := ih ho
    refine ⟨first :: ls, fun l' hl' => ?_, rfl⟩
    rcases List.mem_cons.1 hl' with rfl | hl'
    · exact List.mem_cons_self
    · exact List.mem_cons_of_mem _ (hls l' hl')

/-- The rule of an item groups other rules, or it is what the item adds to a block. -/
theorem Item.rule_ok {item : Item} {inner : Except ParseError Listing} {l : Listing}
    (h : item.rule inner = .ok l) :
    (∃ name listing, item.reading = .atRule name ∧ item.groups = true ∧ inner = .ok listing ∧
      l = ⟨[.atRule name item.lead (.rules listing.rules) item.line], listing.warnings⟩) ∨
    (item.groups = false ∧ (∀ f, item.reading ≠ .fault f) ∧
      l = ⟨(item.contents (readBlock item.nests item.inner)).rules,
        (item.contents (readBlock item.nests item.inner)).warnings⟩) := by
  unfold Item.rule at h
  cases hr : item.reading with
  | fault f => simp [hr] at h
  | atRule name =>
    simp only [hr] at h
    split at h
    · rename_i hg
      cases inner with
      | error e => simp [bind, Except.bind] at h
      | ok listing => exact .inl ⟨name, listing, rfl, hg, rfl, (Except.ok.inj h).symm⟩
    · rename_i hg
      exact .inr ⟨by simpa using hg, by simp, (Except.ok.inj h).symm⟩
  | _ =>
    simp only [hr] at h
    exact .inr ⟨by simp [Item.groups, hr], by simp, (Except.ok.inj h).symm⟩

private theorem normal_rule {item : Item} {ns : List Node} {k : List Char}
    (hr : Reads (Node.allTokens ns) k) (hm : item ∈ (ruleItems true [] ns).items)
    {inner : Except ParseError Listing}
    (hi : ∀ l, inner = .ok l → Rule.AllNormal .ruleList l.rules) {l : Listing}
    (h : item.rule inner = .ok l) : ∀ r ∈ l.rules, r.Normal .ruleList := by
  have hin := infix_of_mem_ruleItems hm
  obtain ⟨n, rest, hsuf, -, hread, -⟩ := mem_ruleItems hm
  obtain ⟨c, hrr, hnodes, hstop⟩ := hread.ofRuleList
  obtain ⟨k', hk'⟩ := hr.of_infix (infix_item_inner hin)
  have hblock := normal_readBlock item.nests item.inner hk'
  unfold Item.rule at h
  cases hre : item.reading with
  | declaration d =>
    rw [hre] at hrr
    cases hrr
  | style found =>
    rw [hre] at hrr
    cases hrr with
    | style hat hs =>
      obtain ⟨⟨stop, hst, hb⟩, hf⟩ := styleReading_ok hs
      obtain ⟨hne, hsel⟩ := normal_item_selectors hr hin (hstop.trans hst) (hnodes ▸ hf)
      simp only [hre, Item.contents] at h
      obtain rfl := Except.ok.inj h
      intro r hrule
      obtain rfl := List.mem_singleton.1 hrule
      exact ⟨hne, hsel, hblock.declarations, hblock.rules⟩
  | atRule name =>
    rw [hre] at hrr
    cases hrr with
    | atRule hn hb =>
      subst hn
      have hname := name_ne_empty hr (hsuf.mem List.mem_cons_self)
      have hb : item.hasBlock = true ∨ AtClass.ofName name = .optional := by
        rwa [Item.hasBlock, hstop]
      simp only [hre] at h
      split at h
      · rename_i hg
        have hcls : AtClass.ofName name ≠ .declarations := by
          simp only [Item.groups, hre, Bool.and_eq_true, decide_eq_true_eq] at hg
          exact hg.2
        cases hinner : inner with
        | error e => simp [hinner, bind, Except.bind] at h
        | ok listing =>
          simp only [hinner, bind, Except.bind] at h
          obtain rfl := Except.ok.inj h
          intro r hrule
          obtain rfl := List.mem_singleton.1 hrule
          exact ⟨hname, Text.stored_collapse _, fun _ => hi _ hinner, fun hno => absurd ⟨rfl, hcls⟩ hno⟩
      · rename_i hg
        simp only [Item.contents, hre] at h
        obtain rfl := Except.ok.inj h
        intro r hrule
        obtain rfl := List.mem_singleton.1 hrule
        refine ⟨hname, Text.stored_collapse _, ?_⟩
        cases hbl : item.hasBlock with
        | false =>
          rw [Item.atBody, hbl]
          exact hb.resolve_left (by simp [hbl])
        | true =>
          refine normal_atBody hre hb hblock fun hgr => hg ?_
          simp only [Item.groups, hre, hbl, Bool.true_and, decide_eq_true_eq]
          exact hgr.2
  | fault f => simp [hre] at h

/-- The rules of a rule list are in normal form. -/
theorem normal_readRules (ns : List Node) {k : List Char} (hr : Reads (Node.allTokens ns) k)
    {l : Listing} (h : readRules ns = .ok l) : Rule.AllNormal .ruleList l.rules := by
  induction ns using readRules.induct generalizing k l with
  | case1 ns found =>
    rename_i ih
    rw [readRules_eq] at h
    refine allNormal_iff.2 fun r hrule => ?_
    obtain ⟨ls, hls, rfl⟩ := Listing.concat_ok h
    obtain ⟨l', hl', hrule⟩ := List.mem_flatMap.1 hrule
    rcases List.mem_append.1 (hls l' hl') with hl' | hl'
    · obtain ⟨item, hm, hitem⟩ := List.mem_map.1 hl'
      obtain ⟨rule, hir, rfl⟩ := Item.listing_ok hitem
      rcases List.mem_append.1 hrule with hrule | hrule
      · obtain ⟨n, rest, -, -, -, hsk⟩ := mem_ruleItems hm
        exact normal_commentsOf none hr (by simpa using hsk) r hrule
      · refine normal_rule hr hm (fun l hl => ?_) hir r hrule
        split at hl
        · obtain ⟨k', hk'⟩ := hr.of_infix (infix_item_inner (infix_of_mem_ruleItems hm))
          exact ih ⟨item, hm⟩ hk' hl
        · obtain rfl := Except.ok.inj hl
          trivial
    · obtain rfl := Except.ok.inj (List.mem_singleton.1 hl')
      refine normal_commentsOf none hr (fun n hn => ?_) r hrule
      simpa using mem_of_mem_tail hn

/-! ## Whole sheets -/

private theorem ofName_charset {name : String} (h : name.toLower = "charset") :
    AtClass.ofName name = .optional := by
  rw [AtClass.ofName, h]
  decide

private theorem normal_listing {ns : List Node} {k : List Char} {s : Stylesheet}
    (hr : Reads (Node.allTokens ns) k) (h : (do
      let listing ← readRules ns
      .ok ⟨listing.rules, listing.warnings⟩) = Except.ok s) : s.Normal := by
  cases hl : readRules ns with
  | error e => simp [hl, bind, Except.bind] at h
  | ok listing =>
    simp only [hl, bind, Except.bind] at h
    obtain rfl := Except.ok.inj h
    exact normal_readRules ns hr hl

private theorem normal_ofNodes {ns : List Node} {k : List Char} (hr : Reads (Node.allTokens ns) k)
    {s : Stylesheet} (h : Stylesheet.ofNodes ns = .ok s) : s.Normal := by
  unfold Stylesheet.ofNodes at h
  split at h
  · rename_i name source line rest
    split at h
    · rename_i hname
      have hsuf := (suffix_of_cutAt Node.isSemicolon rest).trans
        (List.suffix_cons (.leaf ⟨.atKeyword name, source, line⟩) rest)
      obtain ⟨k', hk'⟩ := hr.of_infix (infix_allTokens hsuf.isInfix)
      cases hl : readRules (cutAt Node.isSemicolon rest).rest with
      | error e => simp [hl, bind, Except.bind] at h
      | ok listing =>
        simp only [hl, bind, Except.bind] at h
        obtain rfl := Except.ok.inj h
        exact ⟨⟨name_ne_empty hr List.mem_cons_self, Text.stored_collapse _, ofName_charset hname⟩,
          normal_readRules _ hk' hl⟩
    · exact normal_listing hr h
  · exact normal_listing hr h

/-- Every parsed sheet is in normal form. -/
theorem normal_parse {text : String} {s : Stylesheet} (h : Stylesheet.parse text = .ok s) :
    s.Normal := by
  refine normal_ofNodes (k := []) ?_ h
  rw [Node.allTokens_ofText]
  exact Css.reads_tokens text.toList

end SheetDiff
