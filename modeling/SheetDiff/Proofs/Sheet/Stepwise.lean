import SheetDiff.Proofs.Sheet.Respaced

/-!
# Reading item by item

Blocks and rule lists are read from left to right: a gap adds nothing but its comments (`blockOf_gap`,
`listingOf_gap`), and an item adds its contents to those of the nodes behind it (`blockOf_item`,
`listingOf_item`). Rule lists are read so as long as they hold no character set statement.
-/

namespace SheetDiff

open Css (Kind Node Token)

variable {nested first : Bool} {n : Node} {ns ms rest skipped : List Node}

theorem Css.respaces_id : Css.Respaces id := ⟨fun _ => rfl, fun _ => rfl⟩

/-- Items of a block do not depend on what was skipped before it. -/
theorem blockItems_skipped (nested : Bool) (skipped' skipped ns : List Node) :
    List.Forall₂ (Item.Mapped id) (blockItems nested skipped' ns) (blockItems nested skipped ns) := by
  have h := blockItems_map Css.respaces_id nested skipped' skipped ns
  rwa [Node.map_mapTokens_id] at h

/-! ## Blocks -/

/-- A block holds what its items add to it, whatever was skipped before. -/
private theorem blockOf_eq (nested : Bool) (skipped ns : List Node) :
    blockOf nested ns = .concat ((blockItems nested skipped ns).map Item.bareContents) := by
  rw [blockOf_eq_concat]
  exact congrArg Contents.concat (map_eq_of_forall₂ (blockItems_skipped nested [] skipped ns)
    fun _ _ _ h => h.bareContents Css.respaces_id)

@[simp] theorem blockOf_nil (nested : Bool) : blockOf nested [] = .empty := by
  rw [blockOf_eq nested [], blockItems_nil]
  · rfl
  · rfl

theorem blockItems_gap (h : isBlockGap n = true) (ns : List Node) :
    blockItems nested skipped (n :: ns) = blockItems nested (skipped ++ [n]) ns := by
  cases hd : ns.dropWhile isBlockGap with
  | nil => rw [blockItems_nil hd, blockItems_nil (by simpa [h] using hd)]
  | cons m ms =>
    have hd' : (n :: ns).dropWhile isBlockGap = m :: ms := by simpa [h] using hd
    rw [blockItems_cons hd, blockItems_cons hd']
    simp [h]

/-- A gap adds nothing to a block. -/
theorem blockOf_gap (h : isBlockGap n = true) (ns : List Node) :
    blockOf nested (n :: ns) = blockOf nested ns := by
  rw [blockOf_eq nested [], blockItems_gap h, ← blockOf_eq]

/-- An item adds its contents to a block. -/
theorem blockOf_item {r : Reading} {c : Cut} (h : isBlockGap n = false)
    (hf : readBlockItem nested n rest = (r, c)) : blockOf nested (n :: rest) =
      (Item.bareContents ⟨[], n.first.line, c.nodes, c.stop, r⟩).append (blockOf nested c.rest) := by
  have hd : (n :: rest).dropWhile isBlockGap = n :: rest := by simp [h]
  rw [blockOf_eq nested [], blockItems_cons hd, List.map_cons, Contents.concat_cons, hf]
  rw [← blockOf_eq nested _ c.rest]
  simp [h]

/-! ## Rule lists -/

private theorem allUnlined_commentsOf (previous previous' : Option Node) (ns : List Node) :
    Rule.allUnlined (commentsOf previous ns) = Rule.allUnlined (commentsOf previous' ns) := by
  have h := commentsOf_map Css.respaces_id previous previous' ns
  rwa [Node.map_mapTokens_id] at h

theorem commentRules_cons (n : Node) (ns : List Node) :
    commentRules (n :: ns) = commentRules [n] ++ commentRules ns := by
  have hns := allUnlined_commentsOf (some n) none ns
  cases n with
  | block opener inner closer => exact hns
  | leaf t =>
    obtain ⟨kind, source, line⟩ := t
    cases kind with
    | comment text => exact congrArg (Rule.comment text 0 :: ·) hns
    | _ => exact hns

theorem commentRules_append (ns ms : List Node) :
    commentRules (ns ++ ms) = commentRules ns ++ commentRules ms := by
  induction ns with
  | nil => rfl
  | cons n ns ih =>
    rw [List.cons_append, commentRules_cons, ih, commentRules_cons n ns, List.append_assoc]

/-- Nodes among which no character set statement starts. -/
def NoCharset (ns : List Node) : Prop := ∀ n ∈ ns, isCharset n = false

theorem ruleItems_first (h : NoCharset ns) :
    ruleItems true skipped ns = ruleItems false skipped ns := by
  cases hd : ns.dropWhile isRuleGap with
  | nil => rw [ruleItems_nil hd, ruleItems_nil hd]
  | cons n rest =>
    have hn : isCharset n = false :=
      h n ((List.dropWhile_sublist isRuleGap).mem (hd ▸ List.mem_cons_self))
    rw [ruleItems_cons hd (by simp [hn]), ruleItems_cons hd (by simp)]

theorem ruleItems_gap (h : isRuleGap n = true) (ns : List Node) :
    ruleItems false skipped (n :: ns) = ruleItems false (skipped ++ [n]) ns := by
  cases hd : ns.dropWhile isRuleGap with
  | nil =>
    rw [ruleItems_nil hd, ruleItems_nil (by simpa [h] using hd)]
    simp [h]
  | cons m ms =>
    have hd' : (n :: ns).dropWhile isRuleGap = m :: ms := by simpa [h] using hd
    rw [ruleItems_cons hd (by simp), ruleItems_cons hd' (by simp)]
    simp [h]

/-- What the items of a rule list and the nodes behind them hold, when nodes were skipped before. -/
private def RuleItems.bareListing (r : RuleItems) : Except String Listing :=
  Listing.bare (Listing.concat (r.items.map (fun item => item.listing item.innerListing) ++
    [.ok ⟨commentsOf none r.tail, []⟩]))

private theorem RuleItems.bareListing_nil (tail : List Node) :
    RuleItems.bareListing ⟨[], tail⟩ = .ok ⟨commentRules tail, []⟩ := by
  simp [RuleItems.bareListing, Listing.concat, bind, Except.bind, Listing.bare, Listing.unlined,
    commentRules]

private theorem RuleItems.bareListing_cons (item : Item) (items : List Item) (tail : List Node) :
    RuleItems.bareListing ⟨item :: items, tail⟩ =
      Listing.join item.bareListing (RuleItems.bareListing ⟨items, tail⟩) := by
  rw [RuleItems.bareListing, List.map_cons, List.cons_append, Listing.bare_concat_cons]
  rfl

/-- What was skipped before an item adds its comments. -/
private theorem Item.bareListing_skipped (item : Item) : item.bareListing =
    Listing.behind (commentRules item.skipped) (Item.bareListing { item with skipped := [] }) := by
  have hm : Item.Mapped id item { item with skipped := [] } :=
    ⟨(Node.map_mapTokens_id _).symm, by simp [Node.mapTokens_id], rfl⟩
  have hr : Listing.bare (item.rule item.innerListing) =
      Listing.bare (Item.rule { item with skipped := [] } item.innerListing) :=
    hm.rule Css.respaces_id rfl
  have hb : Item.bareListing { item with skipped := [] } =
      Listing.bare (Item.rule { item with skipped := [] } item.innerListing) :=
    (Item.bare_listing _ _).trans (Listing.behind_nil _)
  rw [hb, ← hr]
  exact Item.bare_listing _ _

/-- What was skipped before a rule list adds its comments. -/
private theorem bareListing_skipped (skipped ns : List Node) :
    (ruleItems false skipped ns).bareListing =
      Listing.behind (commentRules skipped) (ruleItems false [] ns).bareListing := by
  cases hd : ns.dropWhile isRuleGap with
  | nil =>
    rw [ruleItems_nil hd, ruleItems_nil hd, RuleItems.bareListing_nil, RuleItems.bareListing_nil,
      commentRules_append]
    rfl
  | cons n rest =>
    rw [ruleItems_cons hd (by simp), ruleItems_cons hd (by simp)]
    rw [RuleItems.bareListing_cons, RuleItems.bareListing_cons, Listing.behind_join,
      Item.bareListing_skipped, Item.bareListing_skipped ⟨[] ++ _, _, _, _, _⟩,
      Listing.behind_behind, List.nil_append, commentRules_append]

theorem listingOf_eq_items (h : NoCharset ns) :
    listingOf ns = (ruleItems false [] ns).bareListing := by
  rw [listingOf_eq, ruleItems_first h]
  rfl

@[simp] theorem listingOf_nil : listingOf [] = .ok .empty := by
  rw [listingOf_eq_items (by simp [NoCharset]), ruleItems_nil rfl, RuleItems.bareListing_nil]
  rfl

/-- A gap adds its comments to a rule list. -/
theorem listingOf_gap (h : isRuleGap n = true) (hc : NoCharset (n :: ns)) :
    listingOf (n :: ns) = Listing.behind (commentRules [n]) (listingOf ns) := by
  have hns : NoCharset ns := fun m hm => hc m (List.mem_cons_of_mem _ hm)
  rw [listingOf_eq_items hc, listingOf_eq_items hns, ruleItems_gap h, bareListing_skipped]
  rfl

/-- An item adds its rule to a rule list. -/
theorem listingOf_item {r : Reading} {c : Cut} (h : isRuleGap n = false) (hc : NoCharset (n :: rest))
    (hrest : NoCharset c.rest) (hf : readRuleItem n rest = (r, c)) : listingOf (n :: rest) =
      Listing.join (Item.bareListing ⟨[], n.first.line, c.nodes, c.stop, r⟩) (listingOf c.rest) := by
  have hd : (n :: rest).dropWhile isRuleGap = n :: rest := by simp [h]
  rw [listingOf_eq_items hc, listingOf_eq_items hrest, ruleItems_cons hd (by simp), hf]
  simp only
  rw [RuleItems.bareListing_cons]
  simp [h]

end SheetDiff
