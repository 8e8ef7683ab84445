import Mathlib
import SheetDiff.Proofs.Sheet.Faultless
import SheetDiff.Proofs.Sheet.Lowered
import SheetDiff.Proofs.Sheet.Rewritten

/-!
# Sheets one after the other

A sheet whose last statement has ended may be put on a line before another text: what is read from
the whole is the rules and warnings of the sheet, then those of the other text further down, or the
error of the other text further down (`Stylesheet.parse_joined`). So nothing that is kept while a rule
list is read outlives a statement. The items of nodes that end with a statement are the same whatever
follows (`exists_items`), and gaps add their comments only (`readRules_gaps`).
-/

namespace SheetDiff

open Css (Kind Node Token)
open Css.Node (allTokens)

variable {p : Node → Bool} {n b : Node} {ns ms gs rest skipped : List Node} {item : Item}

/-! ## Cuts with something behind -/

theorem cutAt_append_of_stop (h : (cutAt p ns).stop = some b) (ms : List Node) :
    cutAt p (ns ++ ms) = ⟨(cutAt p ns).nodes, some b, (cutAt p ns).rest ++ ms⟩ := by
  obtain ⟨xs, hxs, rfl | ⟨m, ys, hm, rfl⟩⟩ := exists_cut p ns
  · rw [cutAt_of_not hxs] at h
    simp at h
  · rw [cutAt_append hxs hm] at h ⊢
    obtain rfl : m = b := Option.some.inj h
    rw [List.append_assoc, List.cons_append, cutAt_append hxs hm]

/-- A list that holds a node of the class is cut. -/
theorem exists_stop (h : n ∈ ns) (hn : p n = true) : ∃ b, (cutAt p ns).stop = some b := by
  obtain ⟨xs, hxs, rfl | ⟨m, ys, hm, rfl⟩⟩ := exists_cut p ns
  · exact absurd hn (by simp [hxs n h])
  · exact ⟨m, by rw [cutAt_append hxs hm]⟩

/-- The first node says how a rule is read: as an at-rule or as a style rule. -/
theorem readRuleItem_cases (n : Node) :
    (∃ name, ∀ rest, readRuleItem n rest =
        (atReading name (cutAt endsStatement (n :: rest)).stop, cutAt endsStatement (n :: rest))) ∨
      ∀ rest, readRuleItem n rest = (.ofStyle (styleReading (cutAt Node.isBraces (n :: rest))),
        cutAt Node.isBraces (n :: rest)) := by
  cases n with
  | block opener inner closer => exact .inr fun _ => rfl
  | leaf t =>
    obtain ⟨kind, source, line⟩ := t
    cases kind with
    | atKeyword name => exact .inl ⟨name, fun _ => rfl⟩
    | _ => exact .inr fun _ => rfl

/-- A rule that has ended is read alike whatever follows. -/
theorem readRuleItem_append (h : (readRuleItem n rest).2.stop = some b) (ms : List Node) :
    readRuleItem n (rest ++ ms) = ((readRuleItem n rest).1,
      ⟨(readRuleItem n rest).2.nodes, some b, (readRuleItem n rest).2.rest ++ ms⟩) := by
  rcases readRuleItem_cases n with ⟨name, hread⟩ | hread
  · rw [hread] at h
    rw [hread, hread, ← List.cons_append, cutAt_append_of_stop h, h]
  · have hstop : (cutAt Node.isBraces (n :: rest)).stop = some b := by rwa [hread] at h
    rw [hread, hread, ← List.cons_append, cutAt_append_of_stop hstop, styleReading, styleReading,
      hstop]

private theorem not_isRuleGap (h : endsStatement n = true) : isRuleGap n = false := by
  cases n with
  | leaf t =>
    have hk : t.kind = .semicolon := kind_of_endsStatement h
    simp [isRuleGap, Node.isLeaf, Node.kind, Node.first, hk, Kind.isRuleGap, Kind.isSpacing]
  | block opener inner closer => rfl

private theorem getLast?_of_suffix (h : ms <:+ ns) (hn : n ∈ ms.getLast?) : n ∈ ns.getLast? := by
  obtain ⟨xs, rfl⟩ := h
  rw [List.getLast?_append]
  simp [Option.mem_def.1 hn]

/-- A rule that is read without a fault ends before the last end of a statement, where nothing but gaps
follows. -/
theorem exists_stop_readRuleItem (hl : ∀ m ∈ (n :: rest).getLast?, endsStatement m = true)
    (hg : ∀ m ∈ gs, isRuleGap m = true) (hf : ∀ e, (readRuleItem n (rest ++ gs)).1 ≠ .fault e) :
    ∃ b, (readRuleItem n rest).2.stop = some b := by
  rcases readRuleItem_cases n with ⟨name, hread⟩ | hread
  · rw [hread]
    have hne : n :: rest ≠ [] := List.cons_ne_nil n rest
    exact exists_stop (List.getLast_mem hne) (hl _ (List.getLast?_eq_some_getLast hne))
  · rw [hread] at hf ⊢
    generalize hs : styleReading (cutAt Node.isBraces (n :: (rest ++ gs))) = found at hf
    cases found with
    | error e => exact absurd rfl (hf e)
    | ok found =>
      -- the block of the rule is no gap, so it stands before them
      obtain ⟨⟨stop, hstop, hbraces⟩, -⟩ := styleReading_ok hs
      have hmem : stop ∈ (n :: rest) ++ gs := stop_mem_cutAt hstop
      rcases List.mem_append.1 hmem with hm | hm
      · exact exists_stop hm hbraces
      · have hgap := hg stop hm
        rw [isRuleGap, isLeaf_of_isBraces hbraces] at hgap
        exact absurd hgap Bool.false_ne_true

/-- The items of nodes that end with a statement, if they are read without faults, are the same whatever
follows. -/
theorem exists_items (hl : ∀ m ∈ ns.getLast?, endsStatement m = true)
    (hg : ∀ m ∈ gs, isRuleGap m = true)
    (hf : ∀ item ∈ (ruleItems false [] (ns ++ gs)).items, ∀ e, item.reading ≠ .fault e) :
    ∃ items, ∀ ms, ruleItems false [] (ns ++ ms) =
      ⟨items ++ (ruleItems false [] ms).items, (ruleItems false [] ms).tail⟩ := by
  induction h : ns.length using Nat.strongRecOn generalizing ns with
  | ind l ih =>
  subst h
  have hns := List.takeWhile_append_dropWhile (p := isRuleGap) (l := ns)
  have hgaps : ∀ m ∈ ns.takeWhile isRuleGap, isRuleGap m = true :=
    List.all_eq_true.1 List.all_takeWhile
  cases hd : ns.dropWhile isRuleGap with
  | nil =>
    -- the last node is no gap, so there is none
    have hnil : ns = [] := by
      rw [hd, List.append_nil] at hns
      rw [hns] at hgaps
      refine Decidable.byContradiction fun hne => ?_
      have hlast := not_isRuleGap (hl _ (List.getLast?_eq_some_getLast hne))
      rw [hgaps _ (List.getLast_mem hne)] at hlast
      exact Bool.false_ne_true hlast.symm
    subst hnil
    exact ⟨[], fun ms => rfl⟩
  | cons n rest =>
    have hsuffix : n :: rest <:+ ns := hd ▸ List.dropWhile_suffix isRuleGap
    have hn : isRuleGap n = false := by
      have hnot := List.head?_dropWhile_not isRuleGap ns
      simpa [hd] using hnot
    have hsplit (ms : List Node) : ns ++ ms = ns.takeWhile isRuleGap ++ n :: (rest ++ ms) := by
      rw [← List.cons_append, ← List.append_assoc, ← hd, hns]
    have hdrop (ms : List Node) : (ns ++ ms).dropWhile isRuleGap = n :: (rest ++ ms) := by
      rw [hsplit, List.dropWhile_append_of_pos hgaps, List.dropWhile_cons_of_neg (by simp [hn])]
    have htake (ms : List Node) : (ns ++ ms).takeWhile isRuleGap = ns.takeWhile isRuleGap := by
      rw [hsplit, List.takeWhile_append_of_pos hgaps, List.takeWhile_cons_of_neg (by simp [hn]),
        List.append_nil]
    have hfirst : ∀ e, (readRuleItem n (rest ++ gs)).1 ≠ .fault e := by
      rw [ruleItems_cons (hdrop gs) (by simp)] at hf
      exact hf _ List.mem_cons_self
    obtain ⟨b, hb⟩ :=
      exists_stop_readRuleItem (fun m hm => hl m (getLast?_of_suffix hsuffix hm)) hg hfirst
    obtain ⟨item, hstep⟩ : ∃ item : Item, ∀ ms, ruleItems false [] (ns ++ ms) =
        ⟨item :: (ruleItems false [] ((readRuleItem n rest).2.rest ++ ms)).items,
          (ruleItems false [] ((readRuleItem n rest).2.rest ++ ms)).tail⟩ := by
      refine ⟨⟨ns.takeWhile isRuleGap, n.first.line, (readRuleItem n rest).2.nodes, some b,
        (readRuleItem n rest).1⟩, fun ms => ?_⟩
      rw [ruleItems_cons (hdrop ms) (by simp), readRuleItem_append hb, htake]
      rfl
    obtain ⟨p, hp⟩ := readRuleItem_cut n rest
    have hrest : (readRuleItem n rest).2.rest <:+ rest := hp ▸ suffix_tail_of_cutAt p n rest
    have hshorter : (readRuleItem n rest).2.rest.length < ns.length :=
      Nat.lt_of_le_of_lt hrest.length_le hsuffix.length_le
    obtain ⟨items, hitems⟩ := ih _ hshorter
      (fun m hm => hl m (getLast?_of_suffix ((hrest.trans (List.suffix_cons n rest)).trans hsuffix) hm))
      (fun item hi => hf item (by rw [hstep gs]; exact List.mem_cons_of_mem _ hi)) rfl
    refine ⟨item :: items, fun ms => ?_⟩
    rw [hstep ms, hitems ms]
    rfl

/-! ## Listings one after the other -/

theorem Listing.concat_append (ls ms : List (Except ParseError Listing)) :
    Listing.concat (ls ++ ms) =
      (Listing.concat ls).bind fun l => (Listing.concat ms).map l.append := by
  induction ls with
  | nil =>
    rw [List.nil_append]
    cases Listing.concat ms <;> rfl
  | cons l ls ih =>
    rw [List.cons_append, Listing.concat, ih, Listing.concat]
    cases l with
    | error e => rfl
    | ok l =>
      cases Listing.concat ls with
      | error e => rfl
      | ok a =>
        cases Listing.concat ms with
        | error e => rfl
        | ok b => simp [bind, Except.bind, Except.map, Listing.append]

/-- Several parts can be read only if each of them can be. -/
theorem Listing.ok_of_concat {ls : List (Except ParseError Listing)} {m : Listing}
    (h : Listing.concat ls = .ok m) : ∀ l ∈ ls, ∃ a, l = .ok a := by
  induction ls generalizing m with
  | nil => simp
  | cons l ls ih =>
    rw [Listing.concat] at h
    cases l with
    | error e => cases h
    | ok a =>
      cases hls : Listing.concat ls with
      | error e =>
        rw [hls] at h
        cases h
      | ok b =>
        intro part hp
        rcases List.mem_cons.1 hp with rfl | hp
        · exact ⟨a, rfl⟩
        · exact ih hls part hp

/-- An item at fault is an error. -/
theorem Item.listing_of_fault {e : Fault} (h : item.reading = .fault e)
    (inner : Except ParseError Listing) :
    item.listing inner = .error (e.error item.quoted (item.faultLine Kind.isRuleGap)) := by
  rw [Item.listing, Item.rule, h]
  rfl

/-! ## Gaps -/

/-- Where no block stands before, comments keep their own lines. -/
theorem commentsOf_previous {previous : Option Node} (h : previous.filter Node.isBlock = none)
    (ns : List Node) : commentsOf previous ns = commentsOf none ns := by
  cases ns with
  | nil => rfl
  | cons n ns =>
    cases n with
    | block opener inner closer => rfl
    | leaf t =>
      obtain ⟨kind, source, line⟩ := t
      cases kind with
      | comment text => simp [commentsOf, h]
      | _ => rfl

private theorem filter_of_isRuleGap (h : isRuleGap n = true) :
    (some n).filter Node.isBlock = none := by
  cases n with
  | leaf t => rfl
  | block opener inner closer => simp [isRuleGap, Node.isLeaf, Node.isBlock] at h

theorem commentsOf_gap (h : isRuleGap n = true) (ns : List Node) :
    commentsOf none (n :: ns) = commentsOf none [n] ++ commentsOf none ns := by
  have hrest := commentsOf_previous (filter_of_isRuleGap h) ns
  cases n with
  | block opener inner closer => exact hrest
  | leaf t =>
    obtain ⟨kind, source, line⟩ := t
    cases kind with
    | comment text => exact congrArg (Rule.comment text line :: ·) hrest
    | _ => exact hrest

theorem commentsOf_gaps (hg : ∀ m ∈ gs, isRuleGap m = true) (ns : List Node) :
    commentsOf none (gs ++ ns) = commentsOf none gs ++ commentsOf none ns := by
  induction gs with
  | nil => rfl
  | cons g gs ih =>
    have hgap := hg g List.mem_cons_self
    rw [List.cons_append, commentsOf_gap hgap, ih fun m hm => hg m (List.mem_cons_of_mem _ hm),
      commentsOf_gap hgap gs, List.append_assoc]

/-- A line is sought behind gaps. -/
theorem lineAfter_gaps {skip : Kind → Bool} {ts us : List Token} (hg : ∀ t ∈ ts, skip t.kind = true)
    (hne : us ≠ []) : lineAfter skip (ts ++ us) = lineAfter skip us := by
  have hnone : ts.find? (!skip ·.kind) = none := by
    rw [List.find?_eq_none]
    intro t ht
    simp [hg t ht]
  rw [lineAfter, List.find?_append, hnone, Option.none_or, List.getLast?_append_of_ne_nil ts hne,
    lineAfter]

private theorem isRuleGap_allTokens (hg : ∀ m ∈ gs, isRuleGap m = true) :
    ∀ t ∈ allTokens gs, t.kind.isRuleGap = true := by
  intro t ht
  rw [Node.allTokens_eq_flatMap, List.mem_flatMap] at ht
  obtain ⟨n, hn, ht⟩ := ht
  have hgap := hg n hn
  cases n with
  | leaf u =>
    obtain rfl := List.mem_singleton.1 ht
    exact hgap
  | block opener inner closer => simp [isRuleGap, Node.isLeaf, Node.isBlock] at hgap

/-- A listing behind some rules. -/
def Listing.after (rules : List Rule) (l : Except ParseError Listing) : Except ParseError Listing :=
  l.map fun l => ⟨rules ++ l.rules, l.warnings⟩

/-- Gaps before an item add their comments. -/
theorem Item.listing_gaps (hg : ∀ m ∈ gs, isRuleGap m = true) (hne : item.failed ≠ [])
    (inner : Except ParseError Listing) :
    Item.listing { item with skipped := gs ++ item.skipped } inner =
      Listing.after (commentsOf none gs) (item.listing inner) := by
  have hrule : Item.rule { item with skipped := gs ++ item.skipped } inner = item.rule inner := by
    have hline : Item.faultLine Kind.isRuleGap { item with skipped := gs ++ item.skipped } =
        item.faultLine Kind.isRuleGap := by
      have hfailed : Item.failed { item with skipped := gs ++ item.skipped } = item.failed := rfl
      rw [Item.faultLine, hfailed, Item.faultLine, Node.allTokens_append, List.append_assoc,
        lineAfter_gaps (isRuleGap_allTokens hg) (by simp [hne])]
    obtain ⟨skipped, line, nodes, stop, reading⟩ := item
    cases reading with
    | fault e =>
      exact congrArg (fun line => Except.error (e.error _ line)) hline
    | _ => rfl
  rw [Item.listing, hrule, Item.listing, commentsOf_gaps hg]
  cases item.rule inner with
  | error e => rfl
  | ok l => simp [Listing.after, bind, Except.bind, Except.map]

/-- What the items of a rule list and the nodes behind them hold. -/
def RuleItems.listing (r : RuleItems) : Except ParseError Listing :=
  Listing.concat (r.items.map (fun item => item.listing item.innerListing) ++
    [.ok ⟨commentsOf none r.tail, []⟩])

theorem readRules_eq_listing (h : NoCharset ns) :
    readRules ns = (ruleItems false [] ns).listing := by
  rw [readRules_eq, ruleItems_first h]
  rfl

theorem Listing.after_concat (rules : List Rule) (l : Except ParseError Listing)
    (ls : List (Except ParseError Listing)) :
    Listing.concat (Listing.after rules l :: ls) = Listing.after rules (Listing.concat (l :: ls)) := by
  rw [Listing.concat, Listing.concat]
  cases l with
  | error e => rfl
  | ok a =>
    cases Listing.concat ls with
    | error e => rfl
    | ok b => simp [Listing.after, bind, Except.bind, Except.map]

private theorem listing_gaps (hg : ∀ m ∈ gs, isRuleGap m = true) (ns : List Node) :
    (ruleItems false gs ns).listing =
      Listing.after (commentsOf none gs) (ruleItems false [] ns).listing := by
  cases hd : ns.dropWhile isRuleGap with
  | nil =>
    rw [ruleItems_nil hd, ruleItems_nil hd, RuleItems.listing, RuleItems.listing]
    simp only [List.map_nil, List.nil_append, commentsOf_gaps hg]
    simp [Listing.concat, bind, Except.bind, Listing.after, Except.map]
  | cons n rest =>
    obtain ⟨item, items, tail, hbare, hbehind⟩ : ∃ (item : Item) (items : List Item) (tail : List Node),
        ruleItems false [] ns = ⟨item :: items, tail⟩ ∧
          ruleItems false gs ns = ⟨{ item with skipped := gs ++ item.skipped } :: items, tail⟩ := by
      refine ⟨⟨ns.takeWhile isRuleGap, n.first.line, (readRuleItem n rest).2.nodes,
        (readRuleItem n rest).2.stop, (readRuleItem n rest).1⟩,
        (ruleItems false [] (readRuleItem n rest).2.rest).items,
        (ruleItems false [] (readRuleItem n rest).2.rest).tail, ?_, ?_⟩
      · exact ruleItems_cons hd (by simp)
      · exact ruleItems_cons hd (by simp)
    have hne : item.failed ≠ [] := by
      have hmem : item ∈ (ruleItems false [] ns).items := by simp [hbare]
      exact failed_of_mem_ruleItems hmem
    have hfirst := Item.listing_gaps hg hne item.innerListing
    rw [hbare, hbehind, RuleItems.listing, RuleItems.listing, List.map_cons, List.map_cons,
      List.cons_append, List.cons_append, ← Listing.after_concat, ← hfirst]
    rfl

private theorem ruleItems_gaps (hg : ∀ m ∈ gs, isRuleGap m = true) (skipped ns : List Node) :
    ruleItems false skipped (gs ++ ns) = ruleItems false (skipped ++ gs) ns := by
  induction gs generalizing skipped with
  | nil => simp
  | cons g gs ih =>
    rw [List.cons_append, ruleItems_gap (hg g List.mem_cons_self),
      ih fun m hm => hg m (List.mem_cons_of_mem _ hm)]
    simp

private theorem isCharset_of_isRuleGap (h : isRuleGap n = true) : isCharset n = false :=
  Bool.eq_false_iff.2 fun hc => by simp [isRuleGap_of_isCharset hc] at h

theorem noCharset_append : NoCharset (ns ++ ms) ↔ NoCharset ns ∧ NoCharset ms := by
  simp [NoCharset, or_imp, forall_and]

private theorem noCharset_gaps (hg : ∀ m ∈ gs, isRuleGap m = true) : NoCharset gs :=
  fun m hm => isCharset_of_isRuleGap (hg m hm)

/-- Gaps add their comments to a rule list. -/
theorem readRules_gaps (hg : ∀ m ∈ gs, isRuleGap m = true) (hc : NoCharset ns) :
    readRules (gs ++ ns) = Listing.after (commentsOf none gs) (readRules ns) := by
  have hall : NoCharset (gs ++ ns) := noCharset_append.2 ⟨noCharset_gaps hg, hc⟩
  rw [readRules_eq_listing hall, readRules_eq_listing hc, ruleItems_gaps hg, List.nil_append,
    listing_gaps hg]

/-! ## Rule lists one after the other -/

/-- A rule list that ends with a statement and can be read, but for gaps behind it, is read before
anything else as it is read alone. -/
theorem readRules_append (hl : ∀ m ∈ ns.getLast?, endsStatement m = true)
    (hg : ∀ m ∈ gs, isRuleGap m = true) (hc : NoCharset ns) {l : Listing}
    (hr : readRules (ns ++ gs) = .ok l) :
    ∃ a : Listing, l = a.append ⟨commentsOf none gs, []⟩ ∧
      ∀ ms, NoCharset ms → readRules (ns ++ ms) = (readRules ms).map a.append := by
  have hall {ms : List Node} (hm : NoCharset ms) : NoCharset (ns ++ ms) :=
    noCharset_append.2 ⟨hc, hm⟩
  have hgaps : NoCharset gs := noCharset_gaps hg
  have hfaultless : ∀ item ∈ (ruleItems false [] (ns ++ gs)).items, ∀ e, item.reading ≠ .fault e := by
    intro item hi e he
    rw [readRules_eq_listing (hall hgaps), RuleItems.listing] at hr
    obtain ⟨a, ha⟩ := Listing.ok_of_concat hr (item.listing item.innerListing)
      (List.mem_append_left _ (List.mem_map_of_mem hi))
    rw [Item.listing_of_fault he] at ha
    cases ha
  obtain ⟨items, hitems⟩ := exists_items hl hg hfaultless
  have hsplit {ms : List Node} (hm : NoCharset ms) : readRules (ns ++ ms) =
      (Listing.concat (items.map fun item => item.listing item.innerListing)).bind fun a =>
        (readRules ms).map a.append := by
    rw [readRules_eq_listing (hall hm), hitems, RuleItems.listing, List.map_append, List.append_assoc,
      Listing.concat_append, readRules_eq_listing hm, RuleItems.listing]
  have hrest : readRules gs = .ok ⟨commentsOf none gs, []⟩ := by
    rw [← List.append_nil gs, readRules_gaps hg (by simp [NoCharset]),
      readRules_eq_listing (by simp [NoCharset]), ruleItems_nil rfl]
    simp [RuleItems.listing, Listing.concat, bind, Except.bind, Listing.after, Except.map, commentsOf]
  rw [hsplit hgaps, hrest] at hr
  cases ha : Listing.concat (items.map fun item => item.listing item.innerListing) with
  | error e =>
    rw [ha] at hr
    cases hr
  | ok a =>
    rw [ha] at hr
    refine ⟨a, (Except.ok.inj hr).symm, fun ms hm => ?_⟩
    rw [hsplit hm, ha]
    rfl

theorem commentsOf_blanks (h : ∀ m ∈ ns, m.isBlank = true) : commentsOf none ns = [] := by
  induction ns with
  | nil => rfl
  | cons n ns ih =>
    have hn := h n List.mem_cons_self
    have hrest := ih fun m hm => h m (List.mem_cons_of_mem _ hm)
    have hgap : isRuleGap n = true := isGap_of_isBlank hn .rules
    rw [commentsOf_gap hgap, hrest, List.append_nil]
    cases n with
    | block opener inner closer => rfl
    | leaf t =>
      obtain ⟨kind, source, line⟩ := t
      obtain rfl : kind = .whitespace := of_decide_eq_true hn
      rfl

private theorem noCharset_joined {k : Nat} {g ws bs vs : List Node} {w : Node}
    (hone : NoCharset (ns ++ (g ++ ws))) (htwo : NoCharset (bs ++ vs)) (hw : w.isBlank = true) :
    NoCharset (ns ++ (g ++ w :: vs.map (Node.mapTokens (.later k)))) := by
  obtain ⟨hns, hg⟩ := noCharset_append.1 hone
  have hlater : NoCharset (vs.map (Node.mapTokens (.later k))) := by
    intro n hn
    obtain ⟨m, hm, rfl⟩ := List.mem_map.1 hn
    rw [(Css.lowers_later k).respaces.isCharset]
    exact (noCharset_append.1 htwo).2 m hm
  refine noCharset_append.2 ⟨hns, noCharset_append.2 ⟨(noCharset_append.1 hg).1, ?_⟩⟩
  intro n hn
  rcases List.mem_cons.1 hn with rfl | hn
  · exact isCharset_of_isRuleGap (isGap_of_isBlank hw .rules)
  · exact hlater n hn

/-- Two rule lists with white space between them, the later one further down; `g` are the gaps behind
the last statement of the earlier one. -/
theorem readRules_joined {k : Nat} {g ws bs vs : List Node} {w : Node} {l : Listing}
    (hl : ∀ m ∈ ns.getLast?, endsStatement m = true) (hg : ∀ m ∈ g ++ ws, isRuleGap m = true)
    (hone : NoCharset (ns ++ (g ++ ws))) (htwo : NoCharset (bs ++ vs))
    (hws : ∀ m ∈ ws, m.isBlank = true) (hw : w.isBlank = true) (hbs : ∀ m ∈ bs, m.isBlank = true)
    (hr : readRules (ns ++ (g ++ ws)) = .ok l) :
    readRules (ns ++ (g ++ w :: vs.map (Node.mapTokens (.later k)))) =
      (Listing.lowered k (readRules (bs ++ vs))).map l.append := by
  have hmiddle := (noCharset_append.1 (noCharset_joined (k := k) hone htwo hw)).2
  have hlater : NoCharset (vs.map (Node.mapTokens (.later k))) := by
    rw [List.append_cons] at hmiddle
    exact (noCharset_append.1 hmiddle).2
  have hgg : ∀ m ∈ g, isRuleGap m = true := fun m hm => hg m (List.mem_append_left _ hm)
  have hgw : ∀ m ∈ g ++ [w], isRuleGap m = true := by
    intro m hm
    rcases List.mem_append.1 hm with hm | hm
    · exact hgg m hm
    · rw [List.mem_singleton.1 hm]
      exact isGap_of_isBlank hw .rules
  -- white space adds no comment
  have hcomments {xs : List Node} (hx : ∀ m ∈ xs, m.isBlank = true) :
      commentsOf none (g ++ xs) = commentsOf none g := by
    rw [commentsOf_gaps hgg, commentsOf_blanks hx, List.append_nil]
  have hblanks : readRules (bs ++ vs) = readRules vs := by
    rw [readRules_gaps (fun m hm => isGap_of_isBlank (hbs m hm) .rules) (noCharset_append.1 htwo).2,
      commentsOf_blanks hbs]
    cases readRules vs <;> rfl
  obtain ⟨a, rfl, happend⟩ := readRules_append hl hg (noCharset_append.1 hone).1 hr
  rw [happend _ hmiddle, List.append_cons, readRules_gaps hgw hlater,
    readRules_lowered (Css.lowers_later k), hblanks, hcomments (by simpa using hw), hcomments hws]
  cases readRules vs with
  | error e => rfl
  | ok m => simp [Listing.lowered, Listing.after, Listing.append, Except.map]

/-! ## Texts one after the other -/

/-- A text in which no character set statement starts. -/
def WithoutCharset (css : String) : Prop :=
  ∀ t ∈ Css.tokens css.toList, ∀ name, t.kind = .atKeyword name → name.toLower ≠ "charset"

instance (css : String) : Decidable (WithoutCharset css) :=
  inferInstanceAs (Decidable (∀ t ∈ Css.tokens css.toList, ∀ name, t.kind = .atKeyword name →
    name.toLower ≠ "charset"))

/-- A text that another one may follow: its blocks and comments are closed, and its last statement, if
there is one, has ended. A string or an address that is open would be the last token of the text, so
there is none either. -/
structure Concluded (css : String) : Prop where
  charset : WithoutCharset css
  blocks : Node.AllClosed (Node.ofText css.toList)
  comments : ∀ t ∈ Css.tokens css.toList, ∀ text, t.kind = .comment text → t.IsClosed
  last : ∀ n ∈ ((Node.ofText css.toList).rdropWhile isRuleGap).getLast?, endsStatement n = true

instance (t : Token) : Decidable (∀ text, t.kind = .comment text → t.IsClosed) :=
  decidable_of_iff (t.kind matches .comment _ → t.IsClosed) (by cases t.kind <;> simp)

theorem concluded_iff {css : String} : Concluded css ↔
    (WithoutCharset css ∧ Node.AllClosed (Node.ofText css.toList)) ∧
      (∀ t ∈ Css.tokens css.toList, ∀ text, t.kind = .comment text → t.IsClosed) ∧
      ∀ n ∈ ((Node.ofText css.toList).rdropWhile isRuleGap).getLast?, endsStatement n = true :=
  ⟨fun ⟨hc, hb, hk, hl⟩ => ⟨⟨hc, hb⟩, hk, hl⟩, fun ⟨⟨hc, hb⟩, hk, hl⟩ => ⟨hc, hb, hk, hl⟩⟩

instance (css : String) : Decidable (Concluded css) := decidable_of_iff _ concluded_iff.symm

/-- The line breaks that the tokens of a text and of a line feed behind it hold. -/
def breaksBehind (css : String) : Nat := Css.breaksIn (Css.tokens (css ++ "\n").toList)

theorem WithoutCharset.noCharset {css : String} (h : WithoutCharset css) :
    NoCharset (Node.ofText css.toList) :=
  (ordinary_ofText h).usual .rules rfl

/-- The last statement of a text whose blocks are closed ends with an edge. -/
private theorem endsEdged_of_last {cs : List Char} (h : Node.ofText cs = ns ++ gs)
    (hc : Node.AllClosed (Node.ofText cs)) (hl : ∀ m ∈ ns.getLast?, endsStatement m = true) :
    Css.EndsEdged (allTokens ns) := by
  rcases ns.eq_nil_or_concat with rfl | ⟨ns, m, rfl⟩
  · simp [Css.EndsEdged, allTokens]
  · rw [List.concat_eq_append] at h hl ⊢
    have hm := hl m (by simp)
    have hcloses : ClosesStatement m := by
      have hclosed : m.IsClosed := Node.allClosed_iff.1 hc m (by simp [h])
      cases m with
      | leaf t => exact kind_of_endsStatement hm
      | block opener inner closer =>
        exact ⟨kind_of_isBraces (isBraces_of_endsStatement hm rfl), hclosed.1⟩
    have hfits := Node.allFitEnd_ofTokens (Css.tokens cs)
    rw [← Node.ofText, h, List.append_assoc, List.singleton_append,
      Node.allFitEnd_append_cons] at hfits
    obtain ⟨ts, d, e, htokens, hd⟩ := hcloses.exists_edge hfits.2.1
    intro t ht
    rw [Node.allTokens_append, allTokens, htokens] at ht
    obtain rfl : d = t := by simpa [allTokens] using ht
    exact ⟨e, hd⟩

/-- A sheet that has ended is read before another text on a new line as it is read alone, and so is the
other text, but for its lines. -/
theorem Stylesheet.parse_joined {css₁ css₂ : String} {s : Stylesheet} (h₁ : Concluded css₁)
    (h₂ : WithoutCharset css₂) (hs : Stylesheet.parse css₁ = .ok s) :
    Stylesheet.parse (css₁ ++ "\n" ++ css₂) = match Stylesheet.parse css₂ with
      | .ok t => .ok ⟨s.rules ++ Rule.allLater (breaksBehind css₁) t.rules,
          s.warnings ++ t.warnings.map (.later (breaksBehind css₁))⟩
      | .error e => .error (e.later (breaksBehind css₁)) := by
  -- the nodes of the first text, cut behind its last statement
  have hsplit : Node.ofText css₁.toList = (Node.ofText css₁.toList).rdropWhile isRuleGap ++
      (Node.ofText css₁.toList).rtakeWhile isRuleGap := List.rdropWhile_append_rtakeWhile.symm
  have hgaps : ∀ n ∈ (Node.ofText css₁.toList).rtakeWhile isRuleGap, isRuleGap n = true :=
    fun n hn => List.mem_rtakeWhile_imp hn
  have hlast := h₁.last
  generalize (Node.ofText css₁.toList).rdropWhile isRuleGap = ns at hsplit hlast
  generalize (Node.ofText css₁.toList).rtakeWhile isRuleGap = gs at hsplit hgaps
  obtain ⟨g, ws, w, bs, vs, rfl, hws, hw, hbs, htwo, hjoined⟩ :=
    Node.ofText_joined css₂.toList hsplit h₁.blocks (endsEdged_of_last hsplit h₁.blocks hlast)
      hgaps h₁.comments
  have hfeed : (css₁ ++ "\n").toList = css₁.toList ++ ['\n'] := by simp
  have hwhole : (css₁ ++ "\n" ++ css₂).toList = css₁.toList ++ '\n' :: css₂.toList := by simp
  rw [← hfeed, ← hwhole, ← breaksBehind] at hjoined
  -- no character set statement starts in either text
  have hone : NoCharset (ns ++ (g ++ ws)) := hsplit ▸ h₁.charset.noCharset
  have htwos : NoCharset (bs ++ vs) := htwo ▸ h₂.noCharset
  rw [Stylesheet.parse, hsplit, ofNodes_eq hone] at hs
  cases hr : readRules (ns ++ (g ++ ws)) with
  | error e =>
    rw [hr] at hs
    cases hs
  | ok l =>
    rw [hr] at hs
    obtain rfl : (⟨l.rules, l.warnings⟩ : Stylesheet) = s := Except.ok.inj hs
    have hthree := noCharset_joined (k := breaksBehind css₁) hone htwos hw
    rw [Stylesheet.parse, Stylesheet.parse, hjoined, ofNodes_eq hthree, htwo, ofNodes_eq htwos,
      readRules_joined hlast hgaps hone htwos hws hw hbs hr]
    cases readRules (bs ++ vs) with
    | error e => rfl
    | ok m => rfl

/-- A sheet that ends with a comment, before a sheet with a faulty declaration. -/
theorem Stylesheet.parse_joined_comment :
    Concluded "a\x7bb:c\x7d\n/* d */" ∧ WithoutCharset "e\x7bf\x7d" ∧
      Stylesheet.parse ("a\x7bb:c\x7d\n/* d */" ++ "\n" ++ "e\x7bf\x7d") =
        .ok ⟨[.style ["a"] [⟨"b", "c", 1⟩] [] 1, .comment " d " 2, .style ["e"] [] [] 3],
          [⟨"skipped `f`: missing ':' or value", 3⟩]⟩ := by
  have hfirst : Stylesheet.parse "a\x7bb:c\x7d\n/* d */" =
      .ok ⟨[.style ["a"] [⟨"b", "c", 1⟩] [] 1, .comment " d " 2], []⟩ := by cbv
  have hsecond : Stylesheet.parse "e\x7bf\x7d" =
      .ok ⟨[.style ["e"] [] [] 1], [⟨"skipped `f`: missing ':' or value", 1⟩]⟩ := by cbv
  have hbreaks : breaksBehind "a\x7bb:c\x7d\n/* d */" = 2 := by cbv
  have hconcluded : Concluded "a\x7bb:c\x7d\n/* d */" := by decide +kernel
  have hwithout : WithoutCharset "e\x7bf\x7d" := by decide +kernel
  refine ⟨hconcluded, hwithout, ?_⟩
  rw [Stylesheet.parse_joined hconcluded hwithout hfirst, hsecond, hbreaks]
  rfl

end SheetDiff
