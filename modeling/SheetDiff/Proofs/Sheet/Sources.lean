import SheetDiff.Proofs.Css.Steady
import SheetDiff.Proofs.Sheet.Conserved
import SheetDiff.Proofs.Sheet.Reported
import SheetDiff.Proofs.Sheet.Shape

/-!
# What stored texts are read from

Every value, selector and lead of a parsed sheet is the collapsed source of nodes that stand at a place
of its text (`storesIn_readRules`). Where these nodes are `Css.Steady`, it has the same tokens as they
have (`kinds_stored`). Of a selector or a character set whose last node is a block, right before a
comma or the end of the statement, the contents of the block are cut.
-/

namespace SheetDiff

open Css (Kind Node Token kinds)

variable {role : Role} {nested : Bool} {item : Item} {ns part : List Node} {before : List Token}
variable {r : Rule} {rules chain : List Rule} {css : String}

/-! ## Parts between commas -/

/-- Whether nodes end with a block. -/
def endsWithBlock (ns : List Node) : Bool := ns.getLast?.any Node.isBlock

theorem charsetSource_concat (ns : List Node) (n : Node) : charsetSource (ns ++ [n]) =
    Node.source ns ++ if n.isBlock then n.first.source else Node.source [n] := by
  simp [charsetSource]

theorem charsetSource_cons (n : Node) (hne : ns ≠ []) :
    charsetSource (n :: ns) = Node.source [n] ++ charsetSource ns := by
  obtain ⟨ms, m, rfl⟩ := List.eq_nil_or_concat ns |>.resolve_left hne
  rw [List.concat_eq_append, ← List.cons_append, charsetSource_concat, charsetSource_concat]
  simp [Css.Node.source_cons]

/-- Nodes that do not end with a block are not cut. -/
theorem charsetSource_of_not (h : endsWithBlock ns = false) : charsetSource ns = Node.source ns := by
  rcases ns.eq_nil_or_concat with rfl | ⟨ns, n, rfl⟩
  · rfl
  · rw [List.concat_eq_append] at h ⊢
    have hn : n.isBlock = false := by simpa [endsWithBlock] using h
    rw [charsetSource_concat, hn, Css.Node.source_append]
    rfl

/-- The sources of the parts between commas; all but the last of them are cut. -/
def partSources : List (List Node) → List (List Char)
  | [] => []
  | [part] => [Node.source part]
  | part :: parts => charsetSource part :: partSources parts

/-- A list starts with a comma if its first part is empty and not the only one. -/
private theorem head?_splitCommas {first : List Node} {parts : List (List Node)}
    (h : splitCommas ns = first :: parts) :
    ns.head?.any (·.isLeaf (· = .comma)) = (first.isEmpty && !parts.isEmpty) := by
  cases ns with
  | nil =>
    obtain ⟨rfl, rfl⟩ := List.cons.inj h
    rfl
  | cons n ns =>
    obtain ⟨part, more, hs, -⟩ := exists_splitCommas ns
    rw [splitCommas, hs] at h
    split at h
    · rename_i hn
      obtain ⟨rfl, rfl⟩ := List.cons.inj h
      simpa using hn
    · rename_i hn
      obtain ⟨rfl, rfl⟩ := List.cons.inj h
      simpa using hn

theorem commaParts_eq_partSources (ns : List Node) : commaParts ns = partSources (splitCommas ns) := by
  induction ns with
  | nil => rfl
  | cons n ns ih =>
    obtain ⟨first, parts, hs, -⟩ := exists_splitCommas ns
    rw [commaParts, splitCommas, ih, head?_splitCommas hs, hs]
    split
    · rfl
    · cases parts with
      | nil => simp [partSources, Css.Node.source_cons]
      | cons part parts =>
        cases first with
        | nil => simp [partSources, charsetSource]
        | cons m first => simp [partSources, charsetSource_cons n (List.cons_ne_nil m first)]

/-- The source of a part of selectors. -/
theorem of_mem_partSources {parts : List (List Node)} {source : List Char}
    (h : source ∈ partSources parts) : ∃ front part back, parts = front ++ part :: back ∧
      source = if back.isEmpty then Node.source part else charsetSource part := by
  induction parts with
  | nil => simp [partSources] at h
  | cons part parts ih =>
    cases parts with
    | nil => exact ⟨[], part, [], rfl, List.mem_singleton.1 h⟩
    | cons next parts =>
      rcases List.mem_cons.1 h with rfl | h
      · exact ⟨[], part, next :: parts, rfl, rfl⟩
      · obtain ⟨front, found, back, hparts, hsource⟩ := ih h
        exact ⟨part :: front, found, back, by rw [hparts, List.cons_append], hsource⟩

/-! ## Pieces of a sheet -/

/-- A text that is stored in a sheet: a value, a selector, or what follows the name of an at-rule. -/
inductive Piece where
  | value (declaration : Declaration)
  | selector (text : String)
  | lead (name : String) (text : String)

def Piece.text : Piece → String
  | value d => d.value
  | selector text | lead _ text => text

/-- The texts that are stored right in a rule. -/
def Rule.pieces : Rule → List Piece
  | .style selectors declarations _ _ => selectors.map .selector ++ declarations.map .value
  | .atRule name lead body _ => .lead name lead :: body.held.map .value
  | .comment _ _ => []

/-- The texts that an item stores. -/
def Item.pieces (item : Item) : List Piece :=
  match item.reading with
  | .declaration d => [.value d]
  | .style found => found.map .selector
  | .atRule name => [.lead name item.lead]
  | .fault _ => []

/-- The nodes that a text is read from, and whether they are cut: a value stands behind a colon, a
selector between commas, and a lead behind the name of its rule. -/
inductive Item.Stores (item : Item) : Bool → Piece → List Node → Prop
  | value {d : Declaration} {name : Node} {colon : Token} {gap value : List Node}
      (hr : item.reading = .declaration d)
      (hn : item.nodes = name :: (gap ++ .leaf colon :: value))
      (hg : ∀ n ∈ gap, n.isSpacing = true) (hc : colon.kind = .colon) :
      Stores item false (.value d) value
  | selector {found : List String} {text : String} {part : List Node}
      {front back : List (List Node)} (hr : item.reading = .style found) (hf : text ∈ found)
      (hp : splitCommas item.nodes = front ++ part :: back)
      (ht : text = Text.collapse (if back.isEmpty then Node.source part else charsetSource part)) :
      Stores item (!back.isEmpty && endsWithBlock part) (.selector text) part
  | lead {name : String} (hr : item.reading = .atRule name) :
      Stores item false (.lead name item.lead) item.nodes.tail

/-- The nodes of an item that is read as a declaration. -/
private theorem declaration_nodes {d : Declaration} (hm : item ∈ role.items ns)
    (hr : item.reading = .declaration d) : ∃ name gap colon value,
      item.nodes = name :: (gap ++ .leaf colon :: value) ∧ (∀ n ∈ gap, n.isSpacing = true) ∧
        colon.kind = .colon ∧ d.value = Text.collapse (Node.source value) := by
  obtain ⟨n, rest, -, -, hread⟩ := mem_items role hm
  obtain ⟨_, _, _, _, body, -, -, hnodes, -, hd⟩ := hread.declaration hr
  obtain ⟨gap, colon, value, hrest, hg, hc, -, hv, -⟩ := declarationReading_ok hd
  exact ⟨n, gap, colon, value, by rw [hnodes, hrest], hg, hc, hv⟩

/-- Every text of an item is read from nodes of the item. -/
theorem Item.exists_stores {p : Piece} (hm : item ∈ role.items ns) (hp : p ∈ item.pieces) :
    ∃ cut part, item.Stores cut p part := by
  unfold Item.pieces at hp
  split at hp
  · rename_i d hr
    obtain rfl := List.mem_singleton.1 hp
    obtain ⟨name, gap, colon, value, hn, hg, hc, -⟩ := declaration_nodes hm hr
    exact ⟨_, _, .value hr hn hg hc⟩
  · rename_i found hr
    obtain ⟨text, hf, rfl⟩ := List.mem_map.1 hp
    obtain ⟨n, rest, -, -, hread⟩ := mem_items role hm
    have hs := hread.ok_selectors hr
    have htext : text ∈ (commaParts item.nodes).map Text.collapse := by
      unfold selectors at hs
      simp only at hs
      split at hs
      · simp at hs
      · split at hs
        · simp at hs
        · rw [← Except.ok.inj hs] at hf
          exact List.mem_of_mem_filter hf
    obtain ⟨source, hsource, rfl⟩ := List.mem_map.1 htext
    rw [commaParts_eq_partSources] at hsource
    obtain ⟨front, part, back, hparts, rfl⟩ := of_mem_partSources hsource
    exact ⟨_, _, .selector hr hf hparts rfl⟩
  · rename_i name hr
    obtain rfl := List.mem_singleton.1 hp
    exact ⟨_, _, .lead hr⟩
  · simp at hp

/-- A text that is not cut is the collapsed source of the nodes that it is read from. -/
theorem Item.Stores.text_eq {p : Piece} (hm : item ∈ role.items ns)
    (h : item.Stores false p part) : p.text = Text.collapse (Node.source part) := by
  generalize hcut : false = cut at h
  cases h with
  | @value d name colon gap _ hr hn hg hc =>
    obtain ⟨name', gap', colon', value, hn', hg', hc', hv⟩ := declaration_nodes hm hr
    have hbehind {colon : Token} {gap value : List Node} (hg : ∀ n ∈ gap, n.isSpacing = true)
        (hc : colon.kind = .colon) :
        (gap ++ .leaf colon :: value).dropWhile Node.isSpacing = .leaf colon :: value := by
      rw [List.dropWhile_append_of_pos hg, List.dropWhile_cons_of_neg]
      simp [Node.isSpacing, Node.isLeaf, Node.isBlock, Node.kind, Node.first, hc, Kind.isSpacing]
    have hsplit := congrArg (List.dropWhile Node.isSpacing) (List.cons.inj (hn.symm.trans hn')).2
    rw [hbehind hg hc, hbehind hg' hc'] at hsplit
    rw [Piece.text, hv, (List.cons.inj hsplit).2]
  | selector hr hf hp ht =>
    rename_i front back
    rw [Piece.text, ht]
    cases hb : back.isEmpty with
    | true => rfl
    | false =>
      rw [hb] at hcut
      rw [if_neg Bool.false_ne_true, charsetSource_of_not (by simpa using hcut.symm)]
  | lead hr => rfl

/-! ## Pieces at every depth -/

/-- A piece of a rule or of the rules inside of it, at any depth. -/
def Rule.Keeps (r : Rule) (p : Piece) : Prop :=
  p ∈ r.pieces ∨ ∃ chain inner, Occurs r.nested chain inner ∧ p ∈ inner.pieces

/-- A piece of what a block holds, at any depth. -/
def Contents.Keeps (c : Contents) (p : Piece) : Prop :=
  (∃ d ∈ c.declarations, p = .value d) ∨ ∃ r ∈ c.rules, r.Keeps p

variable {p : Piece} {c inner : Contents}

theorem Occurs.keeps (h : Occurs rules chain r) (hp : p ∈ r.pieces) : ∃ r ∈ rules, r.Keeps p := by
  cases h with
  | here h => exact ⟨_, h, .inl hp⟩
  | inside h hr => exact ⟨_, h, .inr ⟨_, _, hr, hp⟩⟩

/-- A piece of the body of an at-rule is one of its block. -/
private theorem keeps_body {name lead : String} {line : Nat}
    (h : Rule.Keeps (.atRule name lead (item.atBody inner.body) line) p) :
    p = .lead name lead ∨ inner.Keeps p := by
  have hheld : ∀ d ∈ (item.atBody inner.body).held, d ∈ inner.declarations := by
    unfold Item.atBody Contents.body
    intro d hd
    split at hd
    · split at hd
      · exact hd
      · split at hd
        · simp [AtBody.held] at hd
        · exact hd
    · simp [AtBody.held] at hd
  have hnested : ∀ r ∈ (item.atBody inner.body).nested, r ∈ inner.rules := by
    unfold Item.atBody Contents.body
    intro r hr
    split at hr
    · split at hr
      · simp [AtBody.nested] at hr
      · split at hr <;> exact hr
    · simp [AtBody.nested] at hr
  rcases h with h | ⟨chain, r, hr, hp⟩
  · rcases List.mem_cons.1 h with rfl | h
    · exact .inl rfl
    · obtain ⟨d, hd, rfl⟩ := List.mem_map.1 h
      exact .inr (.inl ⟨d, hheld d hd, rfl⟩)
  · obtain ⟨top, htop, hk⟩ := hr.keeps hp
    exact .inr (.inr ⟨top, hnested top htop, hk⟩)

/-- A piece of what an item adds to its block is its own or comes from its own block. -/
theorem keeps_contents (h : (item.contents inner).Keeps p) : p ∈ item.pieces ∨ inner.Keeps p := by
  unfold Item.contents at h
  unfold Item.pieces
  cases hr : item.reading with
  | declaration d =>
    rw [hr] at h
    rcases h with ⟨d', hd, rfl⟩ | ⟨r, hm, -⟩
    · obtain rfl := List.mem_singleton.1 hd
      exact .inl List.mem_cons_self
    · simp at hm
  | style found =>
    rw [hr] at h
    rcases h with ⟨d, hd, -⟩ | ⟨r, hm, hk⟩
    · simp at hd
    · obtain rfl := List.mem_singleton.1 hm
      rcases hk with hp | ⟨chain, r, ho, hp⟩
      · rcases List.mem_append.1 hp with hp | hp
        · exact .inl hp
        · obtain ⟨d, hd, rfl⟩ := List.mem_map.1 hp
          exact .inr (.inl ⟨d, hd, rfl⟩)
      · exact .inr (.inr (ho.keeps hp))
  | atRule name =>
    rw [hr] at h
    rcases h with ⟨d, hd, -⟩ | ⟨r, hm, hk⟩
    · simp at hd
    · obtain rfl := List.mem_singleton.1 hm
      rcases keeps_body hk with rfl | hk
      · exact .inl List.mem_cons_self
      · exact .inr hk
  | fault f =>
    rw [hr] at h
    rcases h with ⟨d, hd, -⟩ | ⟨r, hm, -⟩
    · simp at hd
    · simp at hm

theorem keeps_concat {parts : List Contents} (h : (Contents.concat parts).Keeps p) :
    ∃ c ∈ parts, c.Keeps p := by
  rcases h with ⟨d, hd, rfl⟩ | ⟨r, hr, hk⟩
  · obtain ⟨c, hc, hd⟩ := List.mem_flatMap.1 hd
    exact ⟨c, hc, .inl ⟨d, hd, rfl⟩⟩
  · obtain ⟨c, hc, hr⟩ := List.mem_flatMap.1 hr
    exact ⟨c, hc, .inr ⟨r, hr, hk⟩⟩

/-! ## Where pieces come from -/

/-- A piece that an item stores, at some depth of the nodes. -/
def StoresIn (role : Role) (before : List Token) (ns : List Node) (p : Piece) : Prop :=
  ∃ role' start item, role.Place before ns role' start item ∧ ∃ cut part, item.Stores cut p part

theorem storesIn_of_mem (h : item ∈ role.items ns) (hp : p ∈ item.pieces) (before : List Token) :
    StoresIn role before ns p := by
  obtain ⟨start, hs⟩ := exists_place_of_mem role before h
  exact ⟨role, start, item, .here hs, item.exists_stores h hp⟩

/-- Every piece of a block is stored by an item. -/
theorem storesIn_readBlock (nested : Bool) (ns : List Node) (before : List Token)
    (h : (readBlock nested ns).Keeps p) : StoresIn (.block nested) before ns p := by
  induction nested, ns using readBlock.induct generalizing before with
  | case1 nested ns ih =>
    rw [readBlock_eq] at h
    obtain ⟨c, hc, hk⟩ := keeps_concat h
    obtain ⟨item, hm, rfl⟩ := List.mem_map.1 hc
    have hitem : item ∈ (Role.block nested).items ns := hm
    rcases keeps_contents hk with hp | hk
    · exact storesIn_of_mem hitem hp before
    · refine exists_place_inside hitem (fun before => ?_) before
      rw [inside_block]
      exact ih ⟨item, hm⟩ before hk

/-- Comments hold no pieces. -/
private theorem not_keeps_commentsOf (previous : Option Node) (ns : List Node) :
    ∀ r ∈ commentsOf previous ns, ¬ r.Keeps p := by
  induction ns generalizing previous with
  | nil => simp [commentsOf]
  | cons n ns ih =>
    unfold commentsOf
    split
    · rename_i text source line
      intro r hr
      rcases List.mem_cons.1 hr with rfl | hr
      · rintro (hp | ⟨chain, inner, ho, -⟩)
        · simp [Rule.pieces] at hp
        · cases ho <;> simp_all [Rule.nested]
      · exact ih _ r hr
    · exact ih _

/-- Every piece of a rule list is stored by an item. -/
theorem storesIn_readRules (ns : List Node) (before : List Token) {l : Listing}
    (hl : readRules ns = .ok l) {r : Rule} (hr : r ∈ l.rules) (hk : r.Keeps p) :
    StoresIn .rules before ns p := by
  induction ns using readRules.induct generalizing before l r with
  | case1 ns found =>
    rename_i ih
    rw [readRules_eq] at hl
    obtain ⟨ls, hls, rfl⟩ := Listing.concat_ok hl
    obtain ⟨part, hpart, hr⟩ := List.mem_flatMap.1 hr
    rcases List.mem_append.1 (hls part hpart) with hpart | hpart
    · obtain ⟨item, hm, hlisting⟩ := List.mem_map.1 hpart
      obtain ⟨rule, hrule, rfl⟩ := Item.listing_ok hlisting
      have hitem : item ∈ Role.rules.items ns := hm
      rcases List.mem_append.1 hr with hr | hr
      · exact absurd hk (not_keeps_commentsOf _ _ r hr)
      rcases Item.rule_ok hrule with ⟨name, listing, hread, hg, hinner, rfl⟩ | ⟨hg, -, rfl⟩
      · obtain rfl := List.mem_singleton.1 hr
        rcases hk with hp | ⟨chain, inner, ho, hp⟩
        · have hp : p ∈ item.pieces := by
            simpa [Item.pieces, hread, Rule.pieces, AtBody.held] using hp
          exact storesIn_of_mem hitem hp before
        · obtain ⟨top, htop, hk⟩ := ho.keeps hp
          obtain ⟨-, -, hin⟩ := groups_cases hg
          rw [if_pos hg] at hinner
          refine exists_place_inside hitem (fun before => ?_) before
          rw [hin]
          exact ih ⟨item, hm⟩ before hinner htop hk
      · rcases keeps_contents (.inr ⟨r, hr, hk⟩) with hp | hk
        · exact storesIn_of_mem hitem hp before
        · rcases not_groups_cases hitem hg with hnil | hin
          · rw [hnil, readBlock_nil] at hk
            simp [Contents.Keeps] at hk
          · refine exists_place_inside hitem (fun before => ?_) before
            rw [hin]
            exact storesIn_readBlock item.nests item.inner before hk
    · obtain rfl := Except.ok.inj (List.mem_singleton.1 hpart)
      exact absurd hk (not_keeps_commentsOf _ _ r hr)

/-! ## Whole sheets -/

/-- The nodes of a text that a piece of its sheet is read from, and whether they are cut. -/
inductive Stylesheet.Stores (css : String) : Bool → Piece → List Node → Prop
  | item {role : Role} {before : List Token} {item : Item} {cut : Bool} {p : Piece} {part : List Node}
      (hp : Stylesheet.Place css role before item) (hs : item.Stores cut p part) : Stores css cut p part
  | charset {name : String} {source : List Char} {line : Nat} {rest : List Node}
      (hn : Node.ofText css.toList = .leaf ⟨.atKeyword name, source, line⟩ :: rest)
      (hc : name.toLower = "charset") :
      Stores css (endsWithBlock (cutAt Node.isSemicolon rest).nodes)
        (.lead name (Text.collapse (charsetSource (cutAt Node.isSemicolon rest).nodes)))
        (cutAt Node.isSemicolon rest).nodes

theorem Stylesheet.Stores.text_eq (h : Stylesheet.Stores css false p part) :
    p.text = Text.collapse (Node.source part) := by
  generalize hcut : false = cut at h
  cases h with
  | item hp hs =>
    subst hcut
    obtain ⟨ms, hm⟩ := Role.Place.mem hp
    exact hs.text_eq hm
  | charset hn hc => rw [Piece.text, charsetSource_of_not hcut.symm]

/-- Every piece of a parsed sheet, at any depth, is read from nodes of its text. -/
theorem exists_stores {s : Stylesheet} (h : Stylesheet.parse css = .ok s)
    (hr : Occurs s.rules chain r) (hp : p ∈ r.pieces) :
    ∃ cut part, Stylesheet.Stores css cut p part := by
  obtain ⟨l, hl, rfl⟩ := parse_ok h
  obtain ⟨top, htop, hk⟩ := hr.keeps hp
  rcases List.mem_append.1 htop with htop | htop
  · unfold Stylesheet.front at htop
    split at htop
    · rename_i name source line rest hn
      split at htop
      · rename_i hc
        obtain rfl := List.mem_singleton.1 htop
        rcases hk with hp | ⟨chain, inner, ho, -⟩
        · obtain rfl : p = _ := by simpa [Rule.pieces, AtBody.held] using hp
          exact ⟨_, _, .charset hn hc⟩
        · cases ho <;> simp_all [Rule.nested, AtBody.nested]
      · simp at htop
    · simp at htop
  · obtain ⟨role, start, item, hplace, cut, part, hs⟩ := storesIn_readRules _
      (Css.Node.allTokens (Stylesheet.cut (Node.ofText css.toList)).1) hl htop hk
    exact ⟨cut, part, .item hplace hs⟩

/-- The nodes that a piece is read from stand together in the text. -/
theorem Stylesheet.Stores.stands {cut : Bool} (h : Stylesheet.Stores css cut p part) :
    Node.source part <:+: css.toList := by
  have hsource {ms ns : List Node} (h : ms <:+: ns) : Node.source ms <:+: Node.source ns := by
    obtain ⟨xs, ys, rfl⟩ := h
    exact ⟨Node.source xs, Node.source ys, by simp only [Css.Node.source_append]⟩
  cases h with
  | item hp hs =>
    rename_i role before item
    have hpart : part <:+: item.nodes := by
      cases hs with
      | @value d name colon gap _ hr hn hg hc =>
        rw [hn]
        exact ⟨name :: (gap ++ [.leaf colon]), [], by simp⟩
      | selector hr hf hp ht => exact infix_of_mem_splitCommas (by simp [hp])
      | lead hr => exact (List.tail_suffix _).isInfix
    obtain ⟨after, ha⟩ := hp.source
    have hquoted : Node.source item.nodes <+: item.quoted := by
      rw [Item.quoted, Item.failed, List.flatMap_append]
      exact List.prefix_append _ _
    rw [ha]
    refine (hsource hpart).trans (hquoted.isInfix.trans ⟨Css.sourceOf before, after, ?_⟩)
    rw [List.append_assoc]
  | charset hn hc =>
    rename_i name source line rest
    have hnodes : Node.source (Node.ofText css.toList) = css.toList := by
      rw [Css.Node.source_eq, Css.Node.allTokens_ofText, Css.sourceOf_tokens]
    rw [← hnodes, hn]
    refine hsource (List.IsInfix.trans ?_ (List.suffix_cons _ rest).isInfix)
    exact ((List.prefix_append _ _).trans (prefix_of_cutAt Node.isSemicolon rest)).isInfix

/-! ### A rule with one declaration -/

/-- The nodes of a declaration, and of a rule that holds nothing else. -/
private def declarationNodes (value : List Node) : List Node :=
  .leaf ⟨.ident "b", ['b'], 1⟩ :: .leaf ⟨.colon, [':'], 1⟩ :: value

private def ruleNodes (value : List Node) : List Node :=
  [.leaf ⟨.ident "a", ['a'], 1⟩, .block ⟨.opening .curly, ['\x7b'], 1⟩ (declarationNodes value)
    (some ⟨.closing .curly, ['\x7d'], 1⟩)]

private theorem items_ruleNodes (value : List Node) : ∃ outer,
    Role.rules.items (ruleNodes value) = [outer] ∧ Role.rules.inside outer.reading = .block true ∧
      outer.inner = declarationNodes value := by
  refine ⟨⟨[], 1, [.leaf ⟨.ident "a", ['a'], 1⟩], (ruleNodes value).getLast?, .style ["a"]⟩,
    ?_, rfl, rfl⟩
  cbv

private theorem stores_ruleNodes {value : List Node} {d : Declaration}
    (hcut : Stylesheet.cut (Node.ofText css.toList) = ([], ruleNodes value))
    (hitems : blockItems true [] (declarationNodes value) =
      [⟨[], 1, declarationNodes value, none, .declaration d⟩]) :
    Stylesheet.Stores css false (.value d) value := by
  obtain ⟨outer, houter, hin, hinner⟩ := items_ruleNodes value
  have houter : outer ∈ Role.rules.items (Stylesheet.cut (Node.ofText css.toList)).2 := by
    rw [hcut, houter]
    exact List.mem_cons_self
  have hstands (before : List Token) : ∃ role start item,
      (Role.rules.inside outer.reading).Place before outer.inner role start item ∧
        item.Stores false (.value d) value := by
    have hm : ⟨[], 1, declarationNodes value, none, .declaration d⟩ ∈
        (Role.block true).items outer.inner := by
      rw [hinner, Role.items, hitems]
      exact List.mem_cons_self
    obtain ⟨start, hs⟩ := exists_place_of_mem (.block true) before hm
    have hn : declarationNodes value =
        .leaf ⟨.ident "b", ['b'], 1⟩ :: ([] ++ .leaf ⟨.colon, [':'], 1⟩ :: value) := rfl
    rw [hin]
    exact ⟨_, start, _, .here hs, .value rfl hn (by simp) rfl⟩
  obtain ⟨role, start, item, hplace, hs⟩ := exists_place_inside houter hstands
    (Css.Node.allTokens (Stylesheet.cut (Node.ofText css.toList)).1)
  exact .item hplace hs

/-- A value with an address that has more blanks around it than one, and a string. -/
private theorem steady_address : Css.Steady "url(  x  )  \"f g\"".toList := by
  have htokens : Css.tokens "url(  x  )  \"f g\"".toList =
      [⟨.url "x", ['u', 'r', 'l', '(', ' ', ' ', 'x', ' ', ' ', ')'], 1⟩,
        ⟨.whitespace, [' ', ' '], 1⟩, ⟨.string "f g", ['"', 'f', ' ', 'g', '"'], 1⟩] := by cbv
  have hreads := Css.reads_tokens "url(  x  )  \"f g\"".toList
  rw [htokens] at hreads
  rw [Css.Steady, htokens]
  refine ⟨fun _ => ?_, fun h => ?_, fun _ => ?_, trivial⟩
  · have hregular : Css.Regular ['u', 'r', 'l', '(', ' ', ' ', 'x', ' ', ' ', ')'] := by decide
    refine ⟨by simp, by simp, hregular.space, .inl ⟨.inr fun k => ?_, .inl ?_⟩⟩
    · exact hreads.1.squeeze_url rfl rfl hregular k
    · simp [Text.EndsSolid]
      decide
  · simp [Kind.isSpacing] at h
  · have hregular : Css.Regular ['"', 'f', ' ', 'g', '"'] := by decide
    refine ⟨by simp, by simp, hregular.space, .inl ⟨.inl (by decide), .inl ?_⟩⟩
    simp [Text.EndsSolid]
    decide

/-! ### Tokens of stored texts -/

/-- Every text that a parsed sheet stores, at any depth, is read from a part of the text of the sheet.
It has the same tokens as any such part, white space left out and comments collapsed, if the part is
steady and was not cut. No steady text with other tokens is stored as the same text. -/
theorem kinds_stored {s : Stylesheet} (h : Stylesheet.parse css = .ok s)
    (hr : Occurs s.rules chain r) (hp : p ∈ r.pieces) :
    (∃ cut part, Stylesheet.Stores css cut p part ∧ Node.source part <:+: css.toList) ∧
      ∀ part, Stylesheet.Stores css false p part → Css.Steady (Node.source part) →
        kinds p.text.toList = kinds (Node.source part) ∧
        ∀ other, Css.Steady other → kinds other ≠ kinds (Node.source part) →
          Text.collapse other ≠ p.text := by
  constructor
  · obtain ⟨cut, part, hs⟩ := exists_stores h hr hp
    exact ⟨cut, part, hs, hs.stands⟩
  · intro part hs hsteady
    have hkept : kinds p.text.toList = kinds (Node.source part) := by
      rw [hs.text_eq]
      exact Css.kinds_collapse hsteady
    refine ⟨hkept, fun other hother hne hsame => hne ?_⟩
    rw [← hkept, ← hsame]
    exact (Css.kinds_collapse hother).symm

/-- A value whose address is stored with one blank on either side. -/
theorem kinds_stored_address : ∃ s r p part,
    Stylesheet.parse "a\x7bb:url(  x  )  \"f g\"\x7d" = .ok s ∧ Occurs s.rules [] r ∧ p ∈ r.pieces ∧
      Stylesheet.Stores "a\x7bb:url(  x  )  \"f g\"\x7d" false p part ∧
      Css.Steady (Node.source part) ∧ p.text = "url( x ) \"f g\"" ∧
      kinds p.text.toList = kinds (Node.source part) := by
  have hparse : Stylesheet.parse "a\x7bb:url(  x  )  \"f g\"\x7d" =
      .ok ⟨[.style ["a"] [⟨"b", "url( x ) \"f g\"", 1⟩] [] 1], []⟩ := by cbv
  have hstores : Stylesheet.Stores "a\x7bb:url(  x  )  \"f g\"\x7d" false
      (.value ⟨"b", "url( x ) \"f g\"", 1⟩)
      [.leaf ⟨.url "x", ['u', 'r', 'l', '(', ' ', ' ', 'x', ' ', ' ', ')'], 1⟩,
        .leaf ⟨.whitespace, [' ', ' '], 1⟩, .leaf ⟨.string "f g", ['"', 'f', ' ', 'g', '"'], 1⟩] :=
    stores_ruleNodes (by cbv) (by cbv)
  have hsteady := steady_address
  exact ⟨_, _, _, _, hparse, .here List.mem_cons_self, by simp [Rule.pieces], hstores, hsteady, rfl,
    ((kinds_stored hparse (.here List.mem_cons_self) (by simp [Rule.pieces])).2 _ hstores hsteady).1⟩

/-- Two spaces in a string become one, so that it is stored like a string with one. Other tokens change
as well where they are not steady: a hexadecimal escape with a blank before another one, a name with a
no-break space, a string that is broken by the end of its line, and backslashes before the end of a line
and before a blank at the end of the value. -/
theorem not_kinds_stored :
    (∃ s r p part, Stylesheet.parse "a\x7bb:\"c  d\"\x7d" = .ok s ∧ s.warnings = [] ∧
      Occurs s.rules [] r ∧ p ∈ r.pieces ∧
      Stylesheet.Stores "a\x7bb:\"c  d\"\x7d" false p part ∧
      kinds p.text.toList ≠ kinds (Node.source part) ∧
      Stylesheet.parse "a\x7bb:\"c d\"\x7d" = .ok s) ∧
    ∀ value ∈ ["\\63  d", "c\u00a0d", "\"c\nd", "c\\\nd", "c\\ "],
      kinds (Text.collapse value.toList).toList ≠ kinds value.toList := by
  have hparse : Stylesheet.parse "a\x7bb:\"c  d\"\x7d" =
      .ok ⟨[.style ["a"] [⟨"b", "\"c d\"", 1⟩] [] 1], []⟩ := by cbv
  have hstores : Stylesheet.Stores "a\x7bb:\"c  d\"\x7d" false (.value ⟨"b", "\"c d\"", 1⟩)
      [.leaf ⟨.string "c  d", ['"', 'c', ' ', ' ', 'd', '"'], 1⟩] :=
    stores_ruleNodes (by cbv) (by cbv)
  have hkinds : kinds "\"c d\"".toList = [.string "c d"] ∧
      kinds (Node.source [.leaf ⟨.string "c  d", ['"', 'c', ' ', ' ', 'd', '"'], 1⟩]) =
        [.string "c  d"] := by
    constructor <;> cbv
  constructor
  · refine ⟨_, _, _, _, hparse, rfl, .here List.mem_cons_self, by simp [Rule.pieces], hstores,
      ?_, by cbv⟩
    rw [hkinds.2, Piece.text, hkinds.1]
    decide
  · simp only [List.forall_mem_cons]
    refine ⟨?_, ?_, ?_, ?_, ?_, by simp⟩ <;> cbv <;> decide

end SheetDiff
