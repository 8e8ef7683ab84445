import SheetDiff.Proofs.Css.Spell
import SheetDiff.Proofs.Sheet.Unlined

/-!
# Reading after a change of white space

A change of tokens `Respaces` a sheet if it keeps the kinds of tokens and changes their sources in
white space only; taking lines off is one. Nodes are cut into the same items before and after
(`blockItems_map`, `ruleItems_map`), so a block and a rule list hold the same but for lines
(`blockOf_map`, `listingOf_map`), and a sheet is read as the same sheet or fails with the same message
(`bare_ofNodes_map`).
-/

namespace SheetDiff

open Css (Kind Node Token)

/-- A change of tokens that keeps their kinds and changes nothing but white space in their sources. -/
structure Css.Respaces (f : Token → Token) : Prop where
  kind : ∀ t, (f t).kind = t.kind
  source : ∀ t, Text.Alike (f t).source t.source

open Css (Respaces)

theorem Css.respaces_unlined : Respaces Token.unlined := ⟨fun _ => rfl, fun _ => rfl⟩

theorem Css.Respaces.keepsBrackets {f : Token → Token} (hf : Respaces f) : Node.KeepsBrackets f :=
  ⟨fun t => by rw [hf.kind], fun t => by rw [hf.kind]⟩

section Respaced

variable {f : Token → Token} (hf : Respaces f)
variable {p : Node → Bool} {nested first : Bool} {n : Node} {ns rest skipped : List Node}

include hf

/-! ## Nodes and cuts -/

theorem Css.Respaces.kind_node (n : Node) : (n.mapTokens f).kind = n.kind := by
  cases n <;> exact hf.kind _

theorem Css.Respaces.isLeaf (q : Kind → Bool) (n : Node) : (n.mapTokens f).isLeaf q = n.isLeaf q := by
  simp [Node.isLeaf, hf.kind_node]

theorem Css.Respaces.isBraces (n : Node) : (n.mapTokens f).isBraces = n.isBraces := by
  simp [Node.isBraces, hf.kind_node]

theorem Css.Respaces.isSemicolon (n : Node) : (n.mapTokens f).isSemicolon = n.isSemicolon :=
  hf.isLeaf _ n

theorem Css.Respaces.isSpacing (n : Node) : (n.mapTokens f).isSpacing = n.isSpacing :=
  hf.isLeaf _ n

theorem Css.Respaces.endsStatement (n : Node) :
    endsStatement (n.mapTokens f) = endsStatement n := by
  simp [SheetDiff.endsStatement, hf.isSemicolon, hf.isBraces]

theorem Css.Respaces.isBlockGap (n : Node) : isBlockGap (n.mapTokens f) = isBlockGap n := by
  simp [SheetDiff.isBlockGap, hf.isSpacing, hf.isSemicolon, hf.isLeaf]

theorem Css.Respaces.isRuleGap (n : Node) : isRuleGap (n.mapTokens f) = isRuleGap n :=
  hf.isLeaf _ n

theorem Css.Respaces.isCharset (n : Node) : isCharset (n.mapTokens f) = isCharset n :=
  hf.isLeaf _ n

theorem Css.Respaces.sourceOf (ts : List Token) :
    Text.Alike (Css.sourceOf (ts.map f)) (Css.sourceOf ts) := by
  induction ts with
  | nil => rfl
  | cons t ts ih => exact (hf.source t).append ih

theorem Css.Respaces.nodeSource (ns : List Node) :
    Text.Alike (Node.source (ns.map (Node.mapTokens f))) (Node.source ns) := by
  rw [Node.source_eq, Node.allTokens_map, Node.source_eq]
  exact hf.sourceOf _

omit hf

/-- Lists of nodes are split alike. -/
theorem takeWhile_map (hp : ∀ n, p (n.mapTokens f) = p n) (ns : List Node) :
    (ns.map (Node.mapTokens f)).takeWhile p = (ns.takeWhile p).map (Node.mapTokens f) := by
  rw [List.takeWhile_map, show p ∘ Node.mapTokens f = p from funext hp]

theorem dropWhile_map (hp : ∀ n, p (n.mapTokens f) = p n) (ns : List Node) :
    (ns.map (Node.mapTokens f)).dropWhile p = (ns.dropWhile p).map (Node.mapTokens f) := by
  rw [List.dropWhile_map, show p ∘ Node.mapTokens f = p from funext hp]

theorem any_map (hp : ∀ n, p (n.mapTokens f) = p n) (ns : List Node) :
    (ns.map (Node.mapTokens f)).any p = ns.any p := by
  rw [List.any_map, show p ∘ Node.mapTokens f = p from funext hp]

/-- A cut with all of its tokens changed. -/
def Cut.mapTokens (f : Token → Token) (c : Cut) : Cut :=
  ⟨c.nodes.map (Node.mapTokens f), c.stop.map (Node.mapTokens f), c.rest.map (Node.mapTokens f)⟩

theorem cutAt_map (hp : ∀ n, p (n.mapTokens f) = p n) (ns : List Node) :
    cutAt p (ns.map (Node.mapTokens f)) = (cutAt p ns).mapTokens f := by
  have hq : ∀ n : Node, (!p (n.mapTokens f)) = !p n := fun n => by rw [hp]
  simp [cutAt, Cut.mapTokens, takeWhile_map (p := (!p ·)) hq, dropWhile_map (p := (!p ·)) hq]

include hf

/-! ## Readings -/

theorem commaParts_map (ns : List Node) :
    List.Forall₂ Text.Alike (commaParts (ns.map (Node.mapTokens f))) (commaParts ns) := by
  induction ns with
  | nil => exact List.Forall₂.cons rfl .nil
  | cons n ns ih =>
    have hh : (ns.map (Node.mapTokens f)).head?.any (·.isLeaf (· = .comma)) =
        ns.head?.any (·.isLeaf (· = .comma)) := by
      cases ns <;> simp [hf.isLeaf]
    have hone : Text.Alike (Node.source [n.mapTokens f]) (Node.source [n]) := hf.nodeSource [n]
    have hpiece : Text.Alike
        (if (n.isBlock && ns.head?.any (·.isLeaf (· = .comma))) = true
          then (n.mapTokens f).first.source else Node.source [n.mapTokens f])
        (if (n.isBlock && ns.head?.any (·.isLeaf (· = .comma))) = true
          then n.first.source else Node.source [n]) := by
      split
      · rw [Node.first_mapTokens]
        exact hf.source n.first
      · exact hone
    rw [List.map_cons, commaParts, commaParts, hf.isLeaf]
    split
    · exact .cons rfl ih
    · simp only [hh, Node.isBlock_mapTokens]
      generalize commaParts (ns.map (Node.mapTokens f)) = xs at ih ⊢
      generalize commaParts ns = ys at ih ⊢
      cases ih with
      | nil => exact .nil
      | cons hx hxs => exact .cons (hpiece.append hx) hxs

theorem selectors_map (ns : List Node) : selectors (ns.map (Node.mapTokens f)) = selectors ns := by
  have hparts : (commaParts (ns.map (Node.mapTokens f))).map Text.collapse =
      (commaParts ns).map Text.collapse := by
    have h := commaParts_map hf ns
    generalize commaParts (ns.map (Node.mapTokens f)) = xs at h
    generalize commaParts ns = ys at h
    induction h with
    | nil => rfl
    | cons hx _ ih => rw [List.map_cons, List.map_cons, hx.collapse, ih]
  unfold selectors
  rw [hparts, any_map hf.isSemicolon]

theorem styleReading_map (c : Cut) : styleReading (c.mapTokens f) = styleReading c := by
  unfold styleReading
  cases hs : c.stop <;> simp [Cut.mapTokens, hs, selectors_map hf, hf.isBraces, hf.kind_node]

theorem declarationReading_map (nested : Bool) (property : String) (ns : List Node) :
    (declarationReading nested property (ns.map (Node.mapTokens f))).map Declaration.unlined =
      (declarationReading nested property ns).map Declaration.unlined := by
  unfold declarationReading
  rw [dropWhile_map hf.isSpacing]
  cases ns.dropWhile Node.isSpacing with
  | nil => rfl
  | cons n rest =>
    simp only [List.map_cons, hf.isLeaf, hf.kind_node, (hf.nodeSource rest).collapse,
      any_map hf.isBraces]
    split
    · split
      · rfl
      · split <;> rfl
    · rfl

/-- A reading and the cut it ends at, after a change of tokens. -/
structure ReadAlike (f : Token → Token) (a b : Reading × Cut) : Prop where
  reading : a.1.unlined = b.1.unlined
  cut : a.2 = b.2.mapTokens f

theorem readNamed_map (nested : Bool) (property : String) (statement line : Cut) :
    ReadAlike f (readNamed nested property (statement.mapTokens f) (line.mapTokens f))
      (readNamed nested property statement line) := by
  have ht : (line.mapTokens f).nodes.tail = line.nodes.tail.map (Node.mapTokens f) := by
    simp [Cut.mapTokens]
  have hd := declarationReading_map hf nested property line.nodes.tail
  unfold readNamed
  rw [ht, styleReading_map hf]
  generalize declarationReading nested property (line.nodes.tail.map (Node.mapTokens f)) = d' at hd
  cases hdn : declarationReading nested property line.nodes.tail with
  | ok d =>
    rw [hdn] at hd
    cases d' with
    | ok d' => exact ⟨congrArg Reading.declaration (Except.ok.inj hd), rfl⟩
    | error f' => simp [Except.map] at hd
  | error e =>
    rw [hdn] at hd
    cases d' with
    | ok d' => simp [Except.map] at hd
    | error e' =>
      obtain rfl : e' = e := by simpa [Except.map] using hd
      cases nested with
      | false => exact ⟨rfl, rfl⟩
      | true => cases styleReading statement <;> exact ⟨rfl, rfl⟩

theorem atReading_map (name : String) (stop : Option Node) :
    atReading name (stop.map (Node.mapTokens f)) = atReading name stop := by
  unfold atReading
  cases stop <;> simp [hf.isBraces]

theorem readBlockItem_map (nested : Bool) (n : Node) (rest : List Node) :
    ReadAlike f (readBlockItem nested (n.mapTokens f) (rest.map (Node.mapTokens f)))
      (readBlockItem nested n rest) := by
  have hs : cutAt endsStatement (n.mapTokens f :: rest.map (Node.mapTokens f)) =
      (cutAt endsStatement (n :: rest)).mapTokens f :=
    cutAt_map hf.endsStatement (n :: rest)
  have hl : (cutAt Node.isSemicolon (rest.map (Node.mapTokens f))).cons (n.mapTokens f) =
      ((cutAt Node.isSemicolon rest).cons n).mapTokens f := by
    rw [cutAt_map hf.isSemicolon]
    rfl
  have hstyle : ReadAlike f
      (if nested = true then (.ofStyle (styleReading (cutAt endsStatement (n :: rest))),
          (cutAt endsStatement (n :: rest)).mapTokens f)
        else (.fault (.unexpected n.kind), ((cutAt Node.isSemicolon rest).cons n).mapTokens f))
      (if nested = true then (.ofStyle (styleReading (cutAt endsStatement (n :: rest))),
          cutAt endsStatement (n :: rest))
        else (.fault (.unexpected n.kind), (cutAt Node.isSemicolon rest).cons n)) := by
    split <;> exact ⟨rfl, rfl⟩
  unfold readBlockItem
  simp only [hs, hl]
  cases n with
  | leaf t =>
    have hk := hf.kind t
    obtain ⟨kind, source, line⟩ := t
    rw [Node.mapTokens]
    generalize f ⟨kind, source, line⟩ = t' at hk
    obtain ⟨kind', source', line'⟩ := t'
    obtain rfl : kind' = kind := hk
    cases kind' with
    | atKeyword name => exact ⟨congrArg Reading.unlined (atReading_map hf name _), rfl⟩
    | ident property => exact readNamed_map hf ..
    | _ =>
      simp only [styleReading_map hf]
      exact hstyle
  | block opener inner closer =>
    have hk : (Node.block (f opener) (Node.mapAllTokens f inner) (closer.map f)).kind =
        (Node.block opener inner closer).kind := hf.kind opener
    simp only [Node.mapTokens, styleReading_map hf, hk]
    exact hstyle

theorem readRuleItem_map (n : Node) (rest : List Node) :
    ReadAlike f (readRuleItem (n.mapTokens f) (rest.map (Node.mapTokens f))) (readRuleItem n rest) := by
  have hs : cutAt endsStatement (n.mapTokens f :: rest.map (Node.mapTokens f)) =
      (cutAt endsStatement (n :: rest)).mapTokens f :=
    cutAt_map hf.endsStatement (n :: rest)
  have hb : cutAt Node.isBraces (n.mapTokens f :: rest.map (Node.mapTokens f)) =
      (cutAt Node.isBraces (n :: rest)).mapTokens f :=
    cutAt_map hf.isBraces (n :: rest)
  unfold readRuleItem
  simp only [hs, hb]
  cases n with
  | leaf t =>
    have hk := hf.kind t
    obtain ⟨kind, source, line⟩ := t
    rw [Node.mapTokens]
    generalize f ⟨kind, source, line⟩ = t' at hk
    obtain ⟨kind', source', line'⟩ := t'
    obtain rfl : kind' = kind := hk
    cases kind' with
    | atKeyword name => exact ⟨congrArg Reading.unlined (atReading_map hf name _), rfl⟩
    | _ =>
      simp only [styleReading_map hf]
      exact ⟨rfl, rfl⟩
  | block opener inner closer =>
    simp only [Node.mapTokens, styleReading_map hf]
    exact ⟨rfl, rfl⟩

/-! ## Items -/

omit hf

/-- Items that differ by a change of tokens and in lines only; what was skipped before them is left
aside. -/
structure Item.Mapped (f : Token → Token) (item' item : Item) : Prop where
  nodes : item'.nodes = item.nodes.map (Node.mapTokens f)
  stop : item'.stop = item.stop.map (Node.mapTokens f)
  reading : item'.reading.unlined = item.reading.unlined

variable {item item' : Item}

/-- Readings that differ in lines only are readings of one kind. -/
theorem Reading.cases_unlined {r' r : Reading} (h : r'.unlined = r.unlined) :
    (∃ d' d, r' = .declaration d' ∧ r = .declaration d ∧ d'.unlined = d.unlined) ∨ r' = r := by
  cases r' <;> cases r <;> simp_all [Reading.unlined]

theorem Item.Mapped.nests (h : item'.Mapped f item) : item'.nests = item.nests := by
  unfold Item.nests
  rcases Reading.cases_unlined h.reading with ⟨d', d, h', h, -⟩ | hr
  · rw [h', h]
  · rw [hr]

theorem Item.Mapped.inner (h : item'.Mapped f item) :
    item'.inner = item.inner.map (Node.mapTokens f) := by
  unfold Item.inner
  rw [h.stop]
  rcases Reading.cases_unlined h.reading with ⟨d', d, h', h, -⟩ | hr
  · rw [h', h]
    rfl
  · rw [hr]
    cases item.reading <;> cases item.stop <;> simp [Node.inner_mapTokens]

include hf

theorem Item.Mapped.hasBlock (h : item'.Mapped f item) : item'.hasBlock = item.hasBlock := by
  rw [Item.hasBlock, Item.hasBlock, h.stop]
  cases item.stop <;> simp [hf.isBraces]

theorem Item.Mapped.groups (h : item'.Mapped f item) : item'.groups = item.groups := by
  unfold Item.groups
  rw [h.hasBlock hf]
  rcases Reading.cases_unlined h.reading with ⟨d', d, h', h, -⟩ | hr
  · rw [h', h]
  · rw [hr]

theorem Item.Mapped.lead (h : item'.Mapped f item) : item'.lead = item.lead := by
  rw [Item.lead, Item.lead, h.nodes, ← List.map_tail, (hf.nodeSource _).collapse]

theorem Item.Mapped.quoted (h : item'.Mapped f item) :
    Text.Alike item'.quoted item.quoted := by
  have hfailed : item'.failed = item.failed.map f := by
    rw [Item.failed, Item.failed, h.nodes, h.stop, Node.allTokens_map]
    cases item.stop <;> simp
  have hs := hf.sourceOf item.failed
  rwa [← hfailed] at hs

theorem Item.Mapped.contents (h : item'.Mapped f item) {inner' inner : Contents}
    (hi : inner'.unlined = inner.unlined) :
    (item'.contents inner').unlined = (item.contents inner).unlined := by
  have hd : inner'.declarations.map Declaration.unlined = inner.declarations.map Declaration.unlined :=
    congrArg Contents.declarations hi
  have hr : Rule.allUnlined inner'.rules = Rule.allUnlined inner.rules :=
    congrArg Contents.rules hi
  have hw : inner'.warnings.map Warning.unlined = inner.warnings.map Warning.unlined :=
    congrArg Contents.warnings hi
  have hbody : (item'.atBody inner'.body).unlined = (item.atBody inner.body).unlined := by
    rw [Item.atBody, Item.atBody, h.hasBlock hf]
    split
    · rw [← Contents.body_unlined, ← Contents.body_unlined, hi]
    · rfl
  have hl := h.lead hf
  have hq := (h.quoted hf).excerpt
  unfold Item.contents
  rcases Reading.cases_unlined h.reading with ⟨d', d, h', h, hd⟩ | hread
  · rw [h', h]
    exact congrArg (Contents.mk [·] [] []) hd
  · rw [hread]
    cases item.reading with
    | declaration d => rfl
    | style found =>
      have key (l : Nat) (c : Contents) : Contents.unlined
          ⟨[], [.style found c.declarations c.rules l], c.warnings⟩ =
          ⟨[], [.style found (c.declarations.map Declaration.unlined) (Rule.allUnlined c.rules) 0],
            c.warnings.map Warning.unlined⟩ := rfl
      rw [key, key, hd, hr, hw]
    | atRule name =>
      have key (l : Nat) (lead : String) (body : AtBody) (ws : List Warning) : Contents.unlined
          ⟨[], [.atRule name lead body l], ws⟩ =
          ⟨[], [.atRule name lead body.unlined 0], ws.map Warning.unlined⟩ := rfl
      simp only [key, hbody, hl, hw]
    | fault e =>
      have key (l : Nat) (source : List Char) : Contents.unlined ⟨[], [], [e.warning source l]⟩ =
          ⟨[], [], [⟨"skipped `" ++ Text.excerpt source ++ "`: " ++ e.reason .block, 0⟩]⟩ := rfl
      simp only [key, hq]

/-! ## Blocks -/

omit hf

theorem blockItems_nil (h : ns.dropWhile isBlockGap = []) : blockItems nested skipped ns = [] := by
  rw [blockItems]
  split
  · rfl
  · rename_i hd
    simp [h] at hd

theorem readBlock_nil (nested : Bool) : readBlock nested [] = ⟨[], [], []⟩ := by
  rw [readBlock_eq, blockItems_nil rfl]
  rfl

theorem blockItems_cons (h : ns.dropWhile isBlockGap = n :: rest) :
    let found := readBlockItem nested n rest
    let item : Item :=
      ⟨skipped ++ ns.takeWhile isBlockGap, n.first.line, found.2.nodes, found.2.stop, found.1⟩
    blockItems nested skipped ns = item :: blockItems nested item.leftover found.2.rest := by
  rw [blockItems]
  split
  · rename_i hd
    simp [h] at hd
  · rename_i m ms hd
    obtain ⟨rfl, rfl⟩ : n = m ∧ rest = ms := by simpa [h] using hd
    rfl

include hf

/-- A block is cut into the same items, whatever was skipped before it. -/
theorem blockItems_map (nested : Bool) (skipped' skipped ns : List Node) :
    List.Forall₂ (Item.Mapped f) (blockItems nested skipped' (ns.map (Node.mapTokens f)))
      (blockItems nested skipped ns) := by
  fun_induction blockItems nested skipped ns generalizing skipped' with
  | case1 skipped ns h =>
    rw [blockItems_nil]
    · exact .nil
    · rw [dropWhile_map hf.isBlockGap, h]
      rfl
  | case2 skipped ns n rest h found item ih =>
    have hd : (ns.map (Node.mapTokens f)).dropWhile isBlockGap =
        n.mapTokens f :: rest.map (Node.mapTokens f) := by
      rw [dropWhile_map hf.isBlockGap, h]
      rfl
    obtain ⟨hread, hcut⟩ := readBlockItem_map hf nested n rest
    rw [blockItems_cons hd]
    refine .cons ⟨by rw [hcut]; rfl, by rw [hcut]; rfl, hread⟩ ?_
    rw [hcut]
    exact ih _

omit hf

/-- What an item adds to its block, without lines. -/
def Item.bareContents (item : Item) : Contents :=
  (item.contents (readBlock item.nests item.inner)).unlined

/-- The contents of a block without lines. -/
def blockOf (nested : Bool) (ns : List Node) : Contents := (readBlock nested ns).unlined

/-- A block holds what its items add to it. -/
theorem blockOf_eq_concat (nested : Bool) (ns : List Node) :
    blockOf nested ns = .concat ((blockItems nested [] ns).map Item.bareContents) := by
  rw [blockOf, readBlock_eq, Contents.unlined_concat, List.map_map]
  rfl

/-- Two functions that agree on related elements of two lists give the same list. -/
theorem map_eq_of_forall₂ {α β γ : Type} {R : α → β → Prop} {g : α → γ} {h : β → γ} {as : List α}
    {bs : List β} (hr : List.Forall₂ R as bs) (he : ∀ a, ∀ b ∈ bs, R a b → g a = h b) :
    as.map g = bs.map h := by
  induction hr with
  | nil => rfl
  | cons hab _ ih =>
    rw [List.map_cons, List.map_cons, he _ _ List.mem_cons_self hab,
      ih fun a b hb => he a b (List.mem_cons_of_mem _ hb)]

include hf

/-- A block holds the same after a change of tokens, but for lines. -/
theorem blockOf_map (nested : Bool) (ns : List Node) :
    blockOf nested (ns.map (Node.mapTokens f)) = blockOf nested ns := by
  induction nested, ns using readBlock.induct with
  | case1 nested ns ih =>
    rw [blockOf_eq_concat, blockOf_eq_concat]
    refine congrArg Contents.concat (map_eq_of_forall₂ (blockItems_map hf nested [] [] ns) ?_)
    intro item' item hm h
    refine h.contents hf ?_
    rw [h.nests, h.inner]
    exact ih ⟨item, hm⟩

theorem Item.Mapped.bareContents (h : item'.Mapped f item) :
    item'.bareContents = item.bareContents := by
  refine h.contents hf ?_
  rw [h.nests, h.inner]
  exact blockOf_map hf ..

/-! ## Rule lists -/

omit hf

theorem ruleItems_nil (h : ns.dropWhile isRuleGap = []) :
    ruleItems first skipped ns = ⟨[], skipped ++ ns.takeWhile isRuleGap⟩ := by
  rw [ruleItems]
  split
  · rfl
  · rename_i hd
    simp [h] at hd

theorem ruleItems_charset (h : ns.dropWhile isRuleGap = n :: rest)
    (hc : (first && isCharset n) = true) :
    let c := cutAt endsStatement rest
    ruleItems first skipped ns = ruleItems false
      (skipped ++ ns.takeWhile isRuleGap ++ n :: (c.nodes ++ c.stop.toList)) c.rest := by
  rw [ruleItems]
  split
  · rename_i hd
    simp [h] at hd
  · rename_i m ms hd
    obtain ⟨rfl, rfl⟩ : n = m ∧ rest = ms := by simpa [h] using hd
    rw [if_pos hc]

theorem ruleItems_cons (h : ns.dropWhile isRuleGap = n :: rest)
    (hc : (first && isCharset n) = false) :
    let found := readRuleItem n rest
    let more := ruleItems false [] found.2.rest
    ruleItems first skipped ns = ⟨⟨skipped ++ ns.takeWhile isRuleGap, n.first.line, found.2.nodes,
      found.2.stop, found.1⟩ :: more.items, more.tail⟩ := by
  rw [ruleItems]
  split
  · rename_i hd
    simp [h] at hd
  · rename_i m ms hd
    obtain ⟨rfl, rfl⟩ : n = m ∧ rest = ms := by simpa [h] using hd
    rw [if_neg (by simp [hc])]

/-- Items that differ by a change of tokens and in lines only. -/
structure Item.MappedAll (f : Token → Token) (item' item : Item) : Prop extends Item.Mapped f item' item
    where
  skipped : item'.skipped = item.skipped.map (Node.mapTokens f)

include hf

/-- A rule list is cut into the same items, with the same nodes between them. -/
theorem ruleItems_map (first : Bool) (skipped ns : List Node) :
    List.Forall₂ (Item.MappedAll f)
        (ruleItems first (skipped.map (Node.mapTokens f)) (ns.map (Node.mapTokens f))).items
        (ruleItems first skipped ns).items ∧
      (ruleItems first (skipped.map (Node.mapTokens f)) (ns.map (Node.mapTokens f))).tail =
        (ruleItems first skipped ns).tail.map (Node.mapTokens f) := by
  fun_induction ruleItems first skipped ns with
  | case1 first skipped ns gap h =>
    rw [ruleItems_nil (by rw [dropWhile_map hf.isRuleGap, h]; rfl), takeWhile_map hf.isRuleGap]
    exact ⟨.nil, by rw [← List.map_append]⟩
  | case2 first skipped ns gap n rest h hc c ih =>
    have hd : (ns.map (Node.mapTokens f)).dropWhile isRuleGap =
        n.mapTokens f :: rest.map (Node.mapTokens f) := by
      rw [dropWhile_map hf.isRuleGap, h]
      rfl
    have hstop : (c.stop.map (Node.mapTokens f)).toList = c.stop.toList.map (Node.mapTokens f) := by
      cases c.stop <;> rfl
    rw [ruleItems_charset hd (by rwa [hf.isCharset]), cutAt_map hf.endsStatement,
      takeWhile_map hf.isRuleGap]
    simp only [Cut.mapTokens]
    simp only [gap, List.map_append, List.map_cons, ← hstop] at ih
    exact ih
  | case3 first skipped ns gap n rest h hc found more ih =>
    have hd : (ns.map (Node.mapTokens f)).dropWhile isRuleGap =
        n.mapTokens f :: rest.map (Node.mapTokens f) := by
      rw [dropWhile_map hf.isRuleGap, h]
      rfl
    obtain ⟨hread, hcut⟩ := readRuleItem_map hf n rest
    rw [ruleItems_cons hd (by rw [hf.isCharset]; simpa using hc), takeWhile_map hf.isRuleGap]
    simp only [hcut]
    refine ⟨.cons ⟨⟨rfl, rfl, hread⟩, ?_⟩ ih.1, ih.2⟩
    simp [gap]

theorem commentsOf_map (previous' previous : Option Node) (ns : List Node) :
    Rule.allUnlined (commentsOf previous' (ns.map (Node.mapTokens f))) =
      Rule.allUnlined (commentsOf previous ns) := by
  induction ns generalizing previous' previous with
  | nil => rfl
  | cons n ns ih =>
    cases n with
    | block opener inner closer => exact ih _ _
    | leaf t =>
      have hk := hf.kind t
      obtain ⟨kind, source, line⟩ := t
      rw [List.map_cons, Node.mapTokens]
      generalize f ⟨kind, source, line⟩ = t' at hk
      obtain ⟨kind', source', line'⟩ := t'
      obtain rfl : kind' = kind := hk
      cases kind' with
      | comment text => exact congrArg (Rule.comment text 0 :: ·) (ih _ _)
      | _ => exact ih _ _

omit hf

/-- What the items of a rule list hold, as far as they are rule lists themselves. -/
def Item.innerListing (item : Item) : Except ParseError Listing :=
  if item.groups then readRules item.inner else .ok ⟨[], []⟩

/-- The listing of a rule list without lines, or the message of its error. -/
def listingOf (ns : List Node) : Except String Listing := Listing.bare (readRules ns)

/-- What an item adds to its rule list, without lines. -/
def Item.bareListing (item : Item) : Except String Listing :=
  Listing.bare (item.listing item.innerListing)

/-- What an item adds to its rule list is given by its kind. -/
theorem Item.bare_rule (item : Item) (inner : Except ParseError Listing) :
    Listing.bare (item.rule inner) = match item.reading with
      | .fault e => .error (e.reason .ruleList ++ " in `" ++ Text.excerpt item.quoted ++ "`")
      | .atRule name =>
        if item.groups then (Listing.bare inner).map fun l =>
          ⟨[.atRule name item.lead (.rules l.rules) 0], l.warnings⟩
        else .ok ⟨item.bareContents.rules, item.bareContents.warnings⟩
      | _ => .ok ⟨item.bareContents.rules, item.bareContents.warnings⟩ := by
  unfold Item.rule
  cases item.reading with
  | fault e => rfl
  | atRule name =>
    simp only
    split
    · cases inner <;> rfl
    · rfl
  | style found => rfl
  | declaration d => rfl

/-- The comments among nodes, as rules without lines. -/
def commentRules (ns : List Node) : List Rule := Rule.allUnlined (commentsOf none ns)

theorem Item.bare_listing (item : Item) (inner : Except ParseError Listing) :
    Listing.bare (item.listing inner) =
      Listing.behind (commentRules item.skipped) (Listing.bare (item.rule inner)) := by
  unfold Item.listing
  cases item.rule inner with
  | error e => rfl
  | ok l =>
    have key : Rule.allUnlined (commentsOf none item.skipped ++ l.rules) =
        commentRules item.skipped ++ Rule.allUnlined l.rules := Rule.mapAllLines_append ..
    exact congrArg (fun rules => Except.ok (Listing.mk rules (l.warnings.map Warning.unlined))) key

include hf

theorem Item.Mapped.rule (h : item'.Mapped f item) {inner' inner : Except ParseError Listing}
    (hi : Listing.bare inner' = Listing.bare inner) :
    Listing.bare (item'.rule inner') = Listing.bare (item.rule inner) := by
  rw [Item.bare_rule, Item.bare_rule, h.groups hf, h.lead hf, (h.quoted hf).excerpt,
    h.bareContents hf, hi]
  rcases Reading.cases_unlined h.reading with ⟨d', d, h', h, -⟩ | hr
  · rw [h', h]
  · rw [hr]

theorem Item.MappedAll.listing (h : item'.MappedAll f item)
    (hi : Listing.bare item'.innerListing = Listing.bare item.innerListing) :
    item'.bareListing = item.bareListing := by
  have hcomments : commentRules item'.skipped = commentRules item.skipped := by
    rw [h.skipped]
    exact commentsOf_map hf none none _
  rw [Item.bareListing, Item.bareListing, Item.bare_listing, Item.bare_listing,
    h.toMapped.rule hf hi, hcomments]

omit hf

theorem listingOf_eq (ns : List Node) : listingOf ns = Listing.bare (Listing.concat
    ((ruleItems true [] ns).items.map (fun item => item.listing item.innerListing) ++
      [.ok ⟨commentsOf none (ruleItems true [] ns).tail, []⟩])) := by
  rw [listingOf, readRules_eq]
  rfl

include hf

/-- A rule list holds the same after a change of tokens, but for lines. -/
theorem listingOf_map (ns : List Node) :
    listingOf (ns.map (Node.mapTokens f)) = listingOf ns := by
  induction ns using readRules.induct with
  | case1 ns found ih =>
    obtain ⟨hitems, htail⟩ := ruleItems_map hf true [] ns
    rw [List.map_nil] at hitems htail
    rw [listingOf_eq, listingOf_eq]
    refine Listing.bare_concat_congr ?_
    rw [List.map_append, List.map_append, List.map_map, List.map_map]
    congr 1
    · refine map_eq_of_forall₂ hitems fun item' item hm h => h.listing hf ?_
      have hin := h.toMapped.inner
      rw [Item.innerListing, Item.innerListing, h.toMapped.groups hf]
      split
      · rw [hin]
        exact ih ⟨item, hm⟩
      · rfl
    · rw [htail]
      have hc := commentsOf_map hf none none (ruleItems true [] ns).tail
      exact congrArg (fun rules => [Except.ok (Listing.mk rules [])]) hc

/-! ## Whole sheets -/

theorem charsetSource_map (ns : List Node) :
    Text.Alike (charsetSource (ns.map (Node.mapTokens f))) (charsetSource ns) := by
  unfold charsetSource
  rw [List.getLast?_map]
  cases ns.getLast? with
  | none => rfl
  | some n =>
    have hone : Text.Alike (Node.source [n.mapTokens f]) (Node.source [n]) := hf.nodeSource [n]
    simp only [Option.map_some, ← List.map_dropLast, Node.isBlock_mapTokens, Node.first_mapTokens]
    refine (hf.nodeSource _).append ?_
    split
    · exact hf.source _
    · exact hone

omit hf

theorem Stylesheet.bare_listing (before : List Rule) (ns : List Node) :
    Stylesheet.bare (do
      let listing ← readRules ns
      .ok ⟨before ++ listing.rules, listing.warnings⟩) =
    (listingOf ns).map fun l => ⟨Rule.allUnlined before ++ l.rules, l.warnings⟩ := by
  unfold listingOf
  cases readRules ns with
  | error e => rfl
  | ok l =>
    have key : Rule.allUnlined (before ++ l.rules) =
        Rule.allUnlined before ++ Rule.allUnlined l.rules := Rule.mapAllLines_append ..
    exact congrArg (fun rules => Except.ok (Stylesheet.mk rules (l.warnings.map Warning.unlined))) key

include hf

/-- A sheet is read as the same sheet after a change of tokens, but for lines, or fails with the same
message. -/
theorem bare_ofNodes_map (ns : List Node) :
    Stylesheet.bare (Stylesheet.ofNodes (ns.map (Node.mapTokens f))) =
      Stylesheet.bare (Stylesheet.ofNodes ns) := by
  have hplain (ms : List Node) : Stylesheet.bare (do
      let listing ← readRules ms
      .ok ⟨listing.rules, listing.warnings⟩) = (listingOf ms).map fun l => ⟨l.rules, l.warnings⟩ :=
    Stylesheet.bare_listing [] ms
  have hlisting := listingOf_map hf ns
  cases ns with
  | nil => rfl
  | cons n rest =>
    cases n with
    | block opener inner closer =>
      refine (hplain _).trans (.trans ?_ (hplain _).symm)
      rw [hlisting]
    | leaf t =>
      have hk := hf.kind t
      obtain ⟨kind, source, line⟩ := t
      rw [List.map_cons, Node.mapTokens] at hlisting ⊢
      generalize f ⟨kind, source, line⟩ = t' at hk hlisting
      obtain ⟨kind', source', line'⟩ := t'
      obtain rfl : kind' = kind := hk
      cases kind' with
      | atKeyword name =>
        simp only [Stylesheet.ofNodes]
        split
        · rw [cutAt_map hf.isSemicolon]
          have hc : Text.collapse (charsetSource
              ((cutAt Node.isSemicolon rest).mapTokens f).nodes) =
              Text.collapse (charsetSource (cutAt Node.isSemicolon rest).nodes) :=
            (charsetSource_map hf _).collapse
          rw [hc]
          refine (Stylesheet.bare_listing [_] _).trans (.trans ?_ (Stylesheet.bare_listing [_] _).symm)
          rw [show ((cutAt Node.isSemicolon rest).mapTokens f).rest =
            (cutAt Node.isSemicolon rest).rest.map (Node.mapTokens f) from rfl, listingOf_map hf]
        · refine (hplain _).trans (.trans ?_ (hplain _).symm)
          rw [hlisting]
      | _ =>
        refine (hplain _).trans (.trans ?_ (hplain _).symm)
        rw [hlisting]

end Respaced

end SheetDiff
