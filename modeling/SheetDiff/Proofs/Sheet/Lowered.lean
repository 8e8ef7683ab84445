import SheetDiff.Proofs.Css.Joined
import SheetDiff.Proofs.Sheet.Items
import SheetDiff.Proofs.Sheet.Respaced

/-!
# Sheets further down

A sheet that starts further down is read as the same sheet with all of its lines moved, or fails with
the same error further down (`readRules_lowered`). A change of tokens `Lowers` them by a number of
lines if it changes nothing else; then nodes are cut into the same items, with their lines moved
(`blockItems_lowered`, `ruleItems_lowered`), and blocks and rule lists hold the same with their lines
moved.
-/

namespace SheetDiff

open Css (Kind Node Token)
open Css.Node (allTokens)

/-! ## What is further down -/

def Declaration.later (k : Nat) (d : Declaration) : Declaration := d.mapLine (· + k)
def AtBody.later (k : Nat) (b : AtBody) : AtBody := b.mapLines (· + k)
def Warning.later (k : Nat) (w : Warning) : Warning := { w with line := w.line + k }

/-- Rules further down, at every depth. -/
def Rule.allLater (k : Nat) (rs : List Rule) : List Rule := Rule.mapAllLines (· + k) rs

def ParseError.later (k : Nat) (e : ParseError) : ParseError := { e with line := e.line.map (· + k) }

def Contents.later (k : Nat) (c : Contents) : Contents :=
  ⟨c.declarations.map (.later k), Rule.allLater k c.rules, c.warnings.map (.later k)⟩

def Listing.later (k : Nat) (l : Listing) : Listing :=
  ⟨Rule.allLater k l.rules, l.warnings.map (.later k)⟩

/-- A listing further down, or the error further down. -/
def Listing.lowered (k : Nat) : Except ParseError Listing → Except ParseError Listing
  | .ok l => .ok (l.later k)
  | .error e => .error (e.later k)

def Reading.later (k : Nat) : Reading → Reading
  | .declaration d => .declaration (d.later k)
  | r => r

/-- A reading further down differs in lines only, which are those of declarations. -/
theorem Reading.eq_later {k : Nat} {r' r : Reading} (h : r'.unlined = r.unlined)
    (hl : ∀ d' d, r' = .declaration d' → r = .declaration d → d'.line = d.line + k) :
    r' = r.later k := by
  cases r' with
  | declaration d' =>
    cases r with
    | declaration d =>
      have hline := hl d' d rfl rfl
      obtain ⟨property', value', line'⟩ := d'
      obtain ⟨property, value, line⟩ := d
      obtain rfl : line' = line + k := hline
      obtain ⟨rfl, rfl⟩ : property' = property ∧ value' = value := by
        simpa [Reading.unlined, Declaration.unlined, Declaration.mapLine] using h
      rfl
    | _ => simp [Reading.unlined] at h
  | _ => cases r <;> simp_all [Reading.unlined, Reading.later]

theorem Contents.later_concat (k : Nat) (cs : List Contents) :
    (Contents.concat cs).later k = .concat (cs.map (.later k)) :=
  mapLines_concat (· + k) cs

theorem Contents.body_later (k : Nat) (c : Contents) : (c.later k).body = c.body.later k :=
  c.body_mapLines (· + k)

theorem Listing.lowered_concat (k : Nat) (ls : List (Except ParseError Listing)) :
    lowered k (Listing.concat ls) = Listing.concat (ls.map (lowered k)) := by
  induction ls with
  | nil => rfl
  | cons l ls ih =>
    rw [List.map_cons, Listing.concat, Listing.concat, ← ih]
    cases l with
    | error e => rfl
    | ok a =>
      cases Listing.concat ls with
      | error e => rfl
      | ok b =>
        simp [lowered, later, bind, Except.bind, Rule.allLater, Rule.mapAllLines_append]

/-! ## First tokens of items -/

variable {p : Node → Bool} {nested first : Bool} {n : Node} {ns rest skipped : List Node}
variable {item : Item}

private theorem tokens_ne_nil (n : Node) : n.tokens ≠ [] := by
  cases n <;> simp [Node.tokens]

private theorem failed_ne_nil (h : item.nodes ≠ [] ∨ item.stop ≠ none) : item.failed ≠ [] := by
  rw [Item.failed]
  rcases h with h | h
  · obtain ⟨n, ns, hn⟩ := List.exists_cons_of_ne_nil h
    simp [hn, allTokens, tokens_ne_nil]
  · obtain ⟨n, hn⟩ := Option.ne_none_iff_exists'.1 h
    simp [hn]

private theorem cutAt_taken (p : Node → Bool) (n : Node) (rest : List Node) :
    (cutAt p (n :: rest)).nodes ≠ [] ∨ (cutAt p (n :: rest)).stop ≠ none := by
  by_cases hn : p n = true
  · simp [cutAt, hn]
  · simp [cutAt, hn]

/-- Every item takes a token. -/
theorem failed_of_mem_blockItems (h : item ∈ blockItems nested skipped ns) : item.failed ≠ [] := by
  obtain ⟨n, rest, -, -, hr⟩ := mem_blockItems h
  refine failed_ne_nil ?_
  rw [hr.nodes, hr.stop]
  rcases readBlockItem_cut nested n rest with hc | hc
  · rw [hc]
    exact cutAt_taken _ n rest
  · rw [hc]
    exact .inl (by simp [Cut.cons])

theorem failed_of_mem_ruleItems (h : item ∈ (ruleItems first skipped ns).items) :
    item.failed ≠ [] := by
  obtain ⟨n, rest, -, -, hr, -⟩ := mem_ruleItems h
  refine failed_ne_nil ?_
  obtain ⟨p, hc⟩ := readRuleItem_cut n rest
  rw [hr.nodes, hr.stop, hc]
  exact cutAt_taken p n rest

/-! ## Changes of lines -/

/-- A change of tokens that puts them further down and does nothing else. -/
structure Css.Lowers (k : Nat) (f : Token → Token) : Prop where
  kind : ∀ t, (f t).kind = t.kind
  source : ∀ t, (f t).source = t.source
  line : ∀ t, (f t).line = t.line + k

theorem Css.lowers_later (k : Nat) : Css.Lowers k (.later k) :=
  ⟨fun _ => rfl, fun _ => rfl, fun _ => rfl⟩

theorem Css.Lowers.respaces {k : Nat} {f : Token → Token} (hf : Css.Lowers k f) :
    Css.Respaces f :=
  ⟨hf.kind, fun t => by rw [hf.source]; rfl⟩

/-- What is read further down, with the cut it ends at. -/
def lowerFound (k : Nat) (f : Token → Token) (found : Reading × Cut) : Reading × Cut :=
  (found.1.later k, found.2.mapTokens f)

section Lowered

variable {k : Nat} {f : Token → Token} (hf : Css.Lowers k f)

include hf

theorem Css.Lowers.sourceOf (ts : List Token) : Css.sourceOf (ts.map f) = Css.sourceOf ts := by
  induction ts with
  | nil => rfl
  | cons t ts ih => rw [List.map_cons, Css.sourceOf_cons, hf.source, ih, Css.sourceOf_cons]

theorem Css.Lowers.nodeSource (ns : List Node) :
    Node.source (ns.map (Node.mapTokens f)) = Node.source ns := by
  rw [Node.source_eq, Node.allTokens_map, hf.sourceOf, Node.source_eq]

/-! ## Readings -/

theorem readBlockItem_lowered (nested : Bool) (n : Node) (rest : List Node) :
    readBlockItem nested (n.mapTokens f) (rest.map (Node.mapTokens f)) =
      lowerFound k f (readBlockItem nested n rest) := by
  obtain ⟨hread, hcut⟩ := readBlockItem_map hf.respaces nested n rest
  refine Prod.ext (Reading.eq_later hread fun d' d hd' hd => ?_) hcut
  obtain ⟨m', ms', hm', hl'⟩ := line_of_readBlockItem hd'
  obtain ⟨m, ms, hm, hl⟩ := line_of_readBlockItem hd
  have hmap : (Cut.mapTokens f (readBlockItem nested n rest).2).nodes.tail =
      (readBlockItem nested n rest).2.nodes.tail.map (Node.mapTokens f) := by
    simp [Cut.mapTokens]
  rw [hcut, hmap, dropWhile_map hf.respaces.isSpacing, hm] at hm'
  obtain ⟨rfl, -⟩ : m.mapTokens f = m' ∧ _ := List.cons.inj hm'
  rw [hl', hl, Node.first_mapTokens, hf.line]

theorem readRuleItem_lowered (n : Node) (rest : List Node) :
    readRuleItem (n.mapTokens f) (rest.map (Node.mapTokens f)) =
      lowerFound k f (readRuleItem n rest) := by
  obtain ⟨hread, hcut⟩ := readRuleItem_map hf.respaces n rest
  refine Prod.ext (Reading.eq_later hread fun d' d hd' hd => ?_) hcut
  have hr := readsRuleItem n rest
  rw [hd] at hr
  nomatch hr

/-! ## Items -/

omit hf

/-- An item further down. -/
def Item.lowered (k : Nat) (f : Token → Token) (item : Item) : Item :=
  ⟨item.skipped.map (Node.mapTokens f), item.line + k, item.nodes.map (Node.mapTokens f),
    item.stop.map (Node.mapTokens f), item.reading.later k⟩

theorem Item.leftover_lowered (item : Item) :
    (item.lowered k f).leftover = item.leftover.map (Node.mapTokens f) := by
  have hremainder (n : Node) : (n.mapTokens f).remainder = n.remainder.map (Node.mapTokens f) := by
    cases n with
    | leaf t => rfl
    | block opener inner closer =>
      rw [Node.mapTokens, Node.remainder, Node.mapAllTokens_eq_map, Node.remainder, List.map_append]
      cases closer <;> rfl
  obtain ⟨skipped, line, nodes, stop, reading⟩ := item
  cases reading with
  | fault e =>
    cases stop with
    | none => rfl
    | some stop => exact hremainder stop
  | _ => rfl

include hf

theorem blockItems_lowered (nested : Bool) (skipped ns : List Node) :
    blockItems nested (skipped.map (Node.mapTokens f)) (ns.map (Node.mapTokens f)) =
      (blockItems nested skipped ns).map (.lowered k f) := by
  have hr := hf.respaces
  fun_induction blockItems nested skipped ns with
  | case1 skipped ns h =>
    rw [blockItems_nil]
    · rfl
    · rw [dropWhile_map hr.isBlockGap, h]
      rfl
  | case2 skipped ns n rest h found item ih =>
    have hd : (ns.map (Node.mapTokens f)).dropWhile isBlockGap =
        n.mapTokens f :: rest.map (Node.mapTokens f) := by
      rw [dropWhile_map hr.isBlockGap, h]
      rfl
    have hitem : (⟨skipped.map (Node.mapTokens f) ++ (ns.map (Node.mapTokens f)).takeWhile isBlockGap,
        (n.mapTokens f).first.line, found.2.nodes.map (Node.mapTokens f),
        found.2.stop.map (Node.mapTokens f), found.1.later k⟩ : Item) = item.lowered k f := by
      rw [takeWhile_map hr.isBlockGap, ← List.map_append, Node.first_mapTokens, hf.line]
      rfl
    rw [blockItems_cons hd, readBlockItem_lowered hf, List.map_cons, ← ih,
      ← Item.leftover_lowered (k := k), ← hitem]
    rfl

theorem ruleItems_lowered (first : Bool) (skipped ns : List Node) :
    ruleItems first (skipped.map (Node.mapTokens f)) (ns.map (Node.mapTokens f)) =
      ⟨(ruleItems first skipped ns).items.map (.lowered k f),
        (ruleItems first skipped ns).tail.map (Node.mapTokens f)⟩ := by
  have hr := hf.respaces
  fun_induction ruleItems first skipped ns with
  | case1 first skipped ns gap h =>
    rw [ruleItems_nil (by rw [dropWhile_map hr.isRuleGap, h]; rfl), takeWhile_map hr.isRuleGap,
      ← List.map_append]
    rfl
  | case2 first skipped ns gap n rest h hc c ih =>
    have hd : (ns.map (Node.mapTokens f)).dropWhile isRuleGap =
        n.mapTokens f :: rest.map (Node.mapTokens f) := by
      rw [dropWhile_map hr.isRuleGap, h]
      rfl
    have hstop : (c.stop.map (Node.mapTokens f)).toList = c.stop.toList.map (Node.mapTokens f) := by
      cases c.stop <;> rfl
    rw [ruleItems_charset hd (by rwa [hr.isCharset]), cutAt_map hr.endsStatement,
      takeWhile_map hr.isRuleGap]
    simp only [Cut.mapTokens]
    simp only [gap, List.map_append, List.map_cons, ← hstop] at ih
    exact ih
  | case3 first skipped ns gap n rest h hc found more ih =>
    have hd : (ns.map (Node.mapTokens f)).dropWhile isRuleGap =
        n.mapTokens f :: rest.map (Node.mapTokens f) := by
      rw [dropWhile_map hr.isRuleGap, h]
      rfl
    rw [ruleItems_cons hd (by rw [hr.isCharset]; simpa using hc), takeWhile_map hr.isRuleGap,
      readRuleItem_lowered hf, ← List.map_append, Node.first_mapTokens, hf.line]
    rw [List.map_nil] at ih
    have hmore : ruleItems false [] ((readRuleItem n rest).2.rest.map (Node.mapTokens f)) = _ := ih
    simp only [lowerFound, Cut.mapTokens]
    rw [hmore]
    rfl

/-! ## Parts of items -/

omit hf

theorem Item.nests_lowered (item : Item) : (item.lowered k f).nests = item.nests := by
  obtain ⟨skipped, line, nodes, stop, reading⟩ := item
  cases reading <;> rfl

theorem Item.inner_lowered (item : Item) :
    (item.lowered k f).inner = item.inner.map (Node.mapTokens f) := by
  obtain ⟨skipped, line, nodes, stop, reading⟩ := item
  cases reading with
  | style found => cases stop <;> simp [Item.inner, Item.lowered, Reading.later, Node.inner_mapTokens]
  | atRule name => cases stop <;> simp [Item.inner, Item.lowered, Reading.later, Node.inner_mapTokens]
  | _ => rfl

include hf

theorem Item.hasBlock_lowered (item : Item) : (item.lowered k f).hasBlock = item.hasBlock := by
  obtain ⟨skipped, line, nodes, stop, reading⟩ := item
  cases stop with
  | none => rfl
  | some stop => exact hf.respaces.isBraces stop

theorem Item.groups_lowered (item : Item) : (item.lowered k f).groups = item.groups := by
  unfold Item.groups
  rw [item.hasBlock_lowered hf]
  obtain ⟨skipped, line, nodes, stop, reading⟩ := item
  cases reading <;> rfl

theorem Item.lead_lowered (item : Item) : (item.lowered k f).lead = item.lead := by
  have hn : (item.lowered k f).nodes.tail = item.nodes.tail.map (Node.mapTokens f) :=
    (List.map_tail ..).symm
  rw [Item.lead, hn, hf.nodeSource, Item.lead]

omit hf in
theorem Item.failed_lowered (item : Item) : (item.lowered k f).failed = item.failed.map f := by
  obtain ⟨skipped, line, nodes, stop, reading⟩ := item
  rw [Item.failed, Item.failed, List.map_append, ← Node.allTokens_map]
  cases stop <;> simp [Item.lowered]

theorem Item.quoted_lowered (item : Item) : (item.lowered k f).quoted = item.quoted := by
  rw [Item.quoted, item.failed_lowered]
  exact hf.sourceOf item.failed

/-- The line behind some tokens is moved with them. -/
theorem lineAfter_lowered (skip : Kind → Bool) {ts : List Token} (hne : ts ≠ []) :
    lineAfter skip (ts.map f) = lineAfter skip ts + k := by
  have hskip : (fun t : Token => !skip t.kind) ∘ f = fun t => !skip t.kind :=
    funext fun t => by simp [hf.kind]
  rw [lineAfter, List.find?_map, hskip, lineAfter]
  cases ts.find? (!skip ·.kind) with
  | some t => exact hf.line t
  | none =>
    obtain ⟨t, ht⟩ := Option.isSome_iff_exists.1 (List.getLast?_isSome.2 hne)
    simp only [Option.map_none, List.getLast?_map, ht, Option.map_some, Option.getD_some, hf.line,
      hf.source]
    omega

theorem Item.faultLine_lowered (skip : Kind → Bool) {item : Item} (hne : item.failed ≠ []) :
    (item.lowered k f).faultLine skip = item.faultLine skip + k := by
  rw [Item.faultLine, Item.failed_lowered]
  have hs : allTokens (item.lowered k f).skipped = (allTokens item.skipped).map f :=
    Node.allTokens_map ..
  rw [hs, ← List.map_append, lineAfter_lowered hf _ (by simp [hne]), Item.faultLine]

/-! ## Blocks -/

theorem Item.contents_lowered {item : Item} (hne : item.failed ≠ []) (inner : Contents) :
    (item.lowered k f).contents (inner.later k) = (item.contents inner).later k := by
  have hbody : (item.lowered k f).atBody (inner.later k).body = (item.atBody inner.body).later k := by
    rw [Item.atBody, item.hasBlock_lowered hf, Contents.body_later, Item.atBody]
    split <;> rfl
  have hlead := item.lead_lowered hf
  have hquoted := item.quoted_lowered hf
  have hline := Item.faultLine_lowered hf passedInBlock hne
  have hread : (item.lowered k f).reading = item.reading.later k := rfl
  unfold Item.contents
  rw [hread]
  cases item.reading with
  | declaration d => rfl
  | style found => rfl
  | atRule name =>
    simp only [Reading.later, hbody, hlead]
    rfl
  | fault e =>
    simp only [Reading.later, hquoted, hline]
    rfl

/-- A block holds the same further down. -/
theorem readBlock_lowered (nested : Bool) (ns : List Node) :
    readBlock nested (ns.map (Node.mapTokens f)) = (readBlock nested ns).later k := by
  induction nested, ns using readBlock.induct with
  | case1 nested ns ih =>
    have hitems := blockItems_lowered hf nested [] ns
    rw [List.map_nil] at hitems
    rw [readBlock_eq, hitems, readBlock_eq, Contents.later_concat, List.map_map, List.map_map]
    refine congrArg Contents.concat (List.map_congr_left fun item hi => ?_)
    have hinner := ih ⟨item, hi⟩
    simp only [Function.comp_apply, item.nests_lowered, item.inner_lowered, hinner]
    exact Item.contents_lowered hf (failed_of_mem_blockItems hi) _

/-! ## Rule lists -/

/-- The line of a comment behind a node. -/
private theorem commentLine_lowered (previous : Option Node) (line : Nat) :
    (((previous.map (Node.mapTokens f)).filter Node.isBlock).map lineBehind).getD (line + k) =
      ((previous.filter Node.isBlock).map lineBehind).getD line + k := by
  cases previous with
  | none => rfl
  | some n =>
    have hbehind : lineBehind (n.mapTokens f) = lineBehind n + k := by
      rw [lineBehind, Node.first_mapTokens, hf.line, hf.source, lineBehind, Nat.add_right_comm]
    by_cases hn : n.isBlock = true
    · simp [Option.filter, hn, hbehind]
    · simp [Option.filter, hn]

theorem commentsOf_lowered (previous : Option Node) (ns : List Node) :
    commentsOf (previous.map (Node.mapTokens f)) (ns.map (Node.mapTokens f)) =
      Rule.allLater k (commentsOf previous ns) := by
  induction ns generalizing previous with
  | nil => rfl
  | cons n ns ih =>
    have hrest := ih (some n)
    cases n with
    | block opener inner closer => exact hrest
    | leaf t =>
      have hk := hf.kind t
      have hl := hf.line t
      obtain ⟨kind, source, line⟩ := t
      rw [List.map_cons]
      rw [Option.map_some, Node.mapTokens] at hrest
      rw [Node.mapTokens]
      generalize f ⟨kind, source, line⟩ = t' at hk hl hrest
      obtain ⟨kind', source', line'⟩ := t'
      obtain rfl : kind' = kind := hk
      obtain rfl : line' = line + k := hl
      cases kind' with
      | comment text =>
        have hone := commentLine_lowered hf previous line
        simp only [commentsOf, hone]
        exact congrArg _ hrest
      | _ => exact hrest

theorem Item.rule_lowered {item : Item} (hne : item.failed ≠ [])
    (inner : Except ParseError Listing) :
    (item.lowered k f).rule (Listing.lowered k inner) = Listing.lowered k (item.rule inner) := by
  have hblock : readBlock (item.lowered k f).nests (item.lowered k f).inner =
      (readBlock item.nests item.inner).later k := by
    rw [item.nests_lowered, item.inner_lowered, readBlock_lowered hf]
  have hcontents := Item.contents_lowered hf hne (readBlock item.nests item.inner)
  have hread : (item.lowered k f).reading = item.reading.later k := rfl
  have hother (c : Contents) : (Except.ok ⟨(c.later k).rules, (c.later k).warnings⟩ :
      Except ParseError Listing) = Listing.lowered k (.ok ⟨c.rules, c.warnings⟩) := rfl
  unfold Item.rule
  rw [hread, hblock, hcontents, item.groups_lowered hf, item.lead_lowered hf]
  cases item.reading with
  | declaration d => exact hother _
  | style found => exact hother _
  | atRule name =>
    simp only [Reading.later]
    split
    · cases inner <;> rfl
    · exact hother _
  | fault e =>
    simp only [Reading.later, item.quoted_lowered hf, Item.faultLine_lowered hf Kind.isRuleGap hne]
    rfl

theorem Item.listing_lowered {item : Item} (hne : item.failed ≠ [])
    (inner : Except ParseError Listing) :
    (item.lowered k f).listing (Listing.lowered k inner) = Listing.lowered k (item.listing inner) := by
  have hcomments := commentsOf_lowered hf none item.skipped
  have hskipped : (item.lowered k f).skipped = item.skipped.map (Node.mapTokens f) := rfl
  rw [Option.map_none, ← hskipped] at hcomments
  unfold Item.listing
  rw [Item.rule_lowered hf hne, hcomments]
  cases item.rule inner with
  | error e => rfl
  | ok l => simp [Listing.lowered, Listing.later, bind, Except.bind, Rule.allLater, Rule.mapAllLines_append]

/-- A rule list is read as the same rules further down, or fails with the same error further down. -/
theorem readRules_lowered (ns : List Node) :
    readRules (ns.map (Node.mapTokens f)) = Listing.lowered k (readRules ns) := by
  induction ns using readRules.induct with
  | case1 ns found ih =>
    have hitems := ruleItems_lowered hf true [] ns
    have htail := commentsOf_lowered hf none (ruleItems true [] ns).tail
    rw [List.map_nil] at hitems
    rw [Option.map_none] at htail
    rw [readRules_eq, hitems, readRules_eq, Listing.lowered_concat, List.map_append, List.map_map,
      List.map_map, htail]
    refine congrArg (fun parts => Listing.concat (parts ++ _)) (List.map_congr_left fun item hi => ?_)
    have hinner : (if (item.lowered k f).groups = true then readRules (item.lowered k f).inner
        else .ok ⟨[], []⟩) =
        Listing.lowered k (if item.groups = true then readRules item.inner else .ok ⟨[], []⟩) := by
      rw [item.groups_lowered hf, item.inner_lowered]
      split
      · exact ih ⟨item, hi⟩
      · rfl
    simp only [Function.comp_apply, hinner]
    exact Item.listing_lowered hf (failed_of_mem_ruleItems hi) _

end Lowered

end SheetDiff
