import SheetDiff.Proofs.Css.Lines
import SheetDiff.Proofs.Css.Unclosed
import SheetDiff.Proofs.Sheet.Faults
import SheetDiff.Proofs.Sheet.Lowered

/-!
# Places of items

Every item of a sheet, at any depth, has a place: the tokens of the text before it (`Role.Place`). An
item is read from the text that starts there, and its first token is no gap (`Role.Place.found`). A
faulty item of a block ends behind the opening token of the block it ended at, and what this block
holds is skipped before the next item.
-/

namespace SheetDiff

open Css (Bracket Kind Node Token sourceOf)
open Css.Node (AllFitEnd FitsEnd allTokens allTokens_append allFitEnd_append allFitEnd_append_cons)

variable {role role' : Role} {nested first : Bool} {b : Option Bracket} {closed : Bool}
variable {item outer : Item} {items : List Item} {n : Node} {ns rest skipped : List Node}
variable {before start after : List Token}

/-! ## Items in a row -/

/-- The tokens of an item, with those of the node that ends it. -/
def Item.tokens (item : Item) : List Token := allTokens (item.nodes ++ item.stop.toList)

/-- The tokens that reading an item takes. -/
def Role.taken (role : Role) (item : Item) : List Token :=
  match role, item.reading with
  | .block _, .fault _ => item.failed
  | _, _ => item.tokens

/-- Items with the tokens before each of them, when `before` stands before the first. -/
def Role.placesFrom (role : Role) (before : List Token) : List Item → List (List Token × Item)
  | [] => []
  | item :: items =>
    let start := before ++ allTokens item.skipped
    (start, item) :: role.placesFrom (start ++ role.taken item) items

theorem tokens_eq_failed (item : Item) : item.tokens =
    item.failed ++ allTokens ((item.stop.map Node.remainder).getD []) := by
  have hnode (n : Node) : n.tokens = n.first :: allTokens n.remainder := by
    cases n with
    | leaf t => rfl
    | block opener inner closer =>
      cases closer <;> simp [Node.tokens, Node.first, Node.remainder, allTokens_append, allTokens]
  cases hs : item.stop with
  | none => simp [Item.tokens, Item.failed, hs, allTokens]
  | some stop => simp [Item.tokens, Item.failed, hs, allTokens_append, allTokens, hnode]

/-- What an item of a block takes and leaves are its tokens. -/
theorem taken_leftover (nested : Bool) (item : Item) :
    (Role.block nested).taken item ++ allTokens item.leftover = item.tokens := by
  unfold Role.taken Item.leftover
  cases hr : item.reading with
  | fault f =>
    rw [tokens_eq_failed]
    cases item.stop <;> simp
  | _ => simp [allTokens]

theorem mem_of_mem_placesFrom (h : (start, item) ∈ role.placesFrom before items) : item ∈ items := by
  induction items generalizing before with
  | nil => simp [Role.placesFrom] at h
  | cons i items ih =>
    rcases List.mem_cons.1 h with h | h
    · obtain ⟨-, rfl⟩ := Prod.mk.inj h
      exact List.mem_cons_self
    · exact List.mem_cons_of_mem _ (ih h)

theorem prefix_of_mem_placesFrom (h : (start, item) ∈ role.placesFrom before items) :
    before <+: start := by
  induction items generalizing before with
  | nil => simp [Role.placesFrom] at h
  | cons i items ih =>
    rcases List.mem_cons.1 h with h | h
    · obtain ⟨rfl, -⟩ := Prod.mk.inj h
      exact List.prefix_append _ _
    · rw [List.append_assoc] at h
      exact (List.prefix_append _ _).trans (ih h)

/-- The tokens of a list, cut behind its gap and behind its first item. -/
theorem tokens_split {p : Node → Bool} {nodes tail : List Node} {stop : Option Node}
    (hd : ns.dropWhile p = n :: rest) (hnodes : nodes ++ (stop.toList ++ tail) = n :: rest) :
    allTokens skipped ++ allTokens ns = allTokens (skipped ++ ns.takeWhile p) ++
      (allTokens (nodes ++ stop.toList) ++ allTokens tail) := by
  have hns := List.takeWhile_append_dropWhile (p := p) (l := ns)
  nth_rewrite 1 [← hns]
  rw [hd, ← hnodes]
  simp [allTokens_append]

private theorem placed_blockItems
    (h : (start, item) ∈ (Role.block nested).placesFrom before (blockItems nested skipped ns)) :
    ∃ after, before ++ (allTokens skipped ++ allTokens ns) = start ++ (item.tokens ++ after) := by
  fun_induction blockItems nested skipped ns generalizing before with
  | case1 => simp [Role.placesFrom] at h
  | case2 skipped ns n rest hd found it =>
    rename_i ih
    have hsplit : allTokens skipped ++ allTokens ns =
        allTokens it.skipped ++ (it.tokens ++ allTokens found.2.rest) :=
      tokens_split hd (nodes_of_readBlockItem nested n rest)
    rcases List.mem_cons.1 h with h | h
    · obtain ⟨rfl, rfl⟩ := Prod.mk.inj h
      exact ⟨allTokens found.2.rest, by rw [hsplit, List.append_assoc]⟩
    · obtain ⟨after, ha⟩ := ih h
      refine ⟨after, ?_⟩
      rw [← ha, hsplit, ← taken_leftover nested it]
      simp only [List.append_assoc]

private theorem placed_ruleItems
    (h : (start, item) ∈ Role.rules.placesFrom before (ruleItems first skipped ns).items) :
    ∃ after, before ++ (allTokens skipped ++ allTokens ns) = start ++ (item.tokens ++ after) := by
  fun_induction ruleItems first skipped ns generalizing before with
  | case1 => simp [Role.placesFrom] at h
  | case2 first skipped ns gap n rest hd hf c =>
    rename_i ih
    obtain ⟨after, ha⟩ := ih h
    have hns := List.takeWhile_append_dropWhile (p := isRuleGap) (l := ns)
    refine ⟨after, ?_⟩
    rw [← ha, ← hns, hd]
    nth_rewrite 1 [← cutAt_nodes endsStatement rest]
    simp [gap, c, allTokens_append, allTokens]
  | case3 first skipped ns gap n rest hd hf found more =>
    rename_i ih
    have hsplit : allTokens skipped ++ allTokens ns = allTokens gap ++
        (allTokens (found.2.nodes ++ found.2.stop.toList) ++ allTokens found.2.rest) :=
      tokens_split hd (nodes_of_readItem .rules n rest)
    rcases List.mem_cons.1 h with h | h
    · obtain ⟨rfl, rfl⟩ := Prod.mk.inj h
      exact ⟨allTokens found.2.rest, by rw [hsplit, List.append_assoc]; rfl⟩
    · obtain ⟨after, ha⟩ := ih h
      refine ⟨after, ?_⟩
      rw [← ha, hsplit]
      simp [allTokens, Role.taken, Item.tokens]

/-- An item of a list is read from its place in the list. -/
private theorem placed (h : (start, item) ∈ role.placesFrom before (role.items ns)) :
    ∃ after, before ++ allTokens ns = start ++ (item.tokens ++ after) := by
  cases role with
  | rules => simpa [allTokens] using placed_ruleItems h
  | block nested => simpa [allTokens] using placed_blockItems h

theorem exists_place_of_mem (role : Role) (before : List Token) (h : item ∈ items) :
    ∃ start, (start, item) ∈ role.placesFrom before items := by
  induction items generalizing before with
  | nil => simp at h
  | cons i items ih =>
    rcases List.mem_cons.1 h with rfl | h
    · exact ⟨_, List.mem_cons_self⟩
    · obtain ⟨start, hs⟩ := ih (before ++ allTokens i.skipped ++ role.taken i) h
      exact ⟨start, List.mem_cons_of_mem _ hs⟩

/-! ## Items at every depth -/

/-- The item stands in a list that is read as `role'`, at some depth of the nodes `ns`, and `start` are
the tokens before it when `before` stands before these nodes. -/
inductive Role.Place : Role → List Token → List Node → Role → List Token → Item → Prop
  | here {role : Role} {before start : List Token} {ns : List Node} {item : Item}
    (h : (start, item) ∈ role.placesFrom before (role.items ns)) :
    Place role before ns role start item
  | inside {role role' : Role} {before start start' : List Token} {ns : List Node}
    {outer item : Item} (h : (start, outer) ∈ role.placesFrom before (role.items ns))
    (hi : Place (role.inside outer.reading) (start ++ outer.failed) outer.inner role' start' item) :
    Place role before ns role' start' item

/-- The tokens in the block of an item stand behind those that would be taken if it failed. -/
theorem tokens_eq_inner (item : Item) :
    ∃ after, item.tokens = item.failed ++ (allTokens item.inner ++ after) := by
  have hnode (n : Node) : ∃ after, allTokens n.remainder = allTokens n.inner ++ after := by
    cases n with
    | leaf t => exact ⟨[], rfl⟩
    | block opener inner closer => exact ⟨_, allTokens_append _ _⟩
  rw [tokens_eq_failed]
  unfold Item.inner
  split
  · rename_i stop _ hs
    obtain ⟨after, ha⟩ := hnode stop
    exact ⟨after, by simp [hs, ha]⟩
  · rename_i stop _ hs
    obtain ⟨after, ha⟩ := hnode stop
    exact ⟨after, by simp [hs, ha]⟩
  · exact ⟨_, rfl⟩

/-- An item at any depth is read from its place. -/
theorem Role.Place.split (h : role.Place before ns role' start item) :
    ∃ after, before ++ allTokens ns = start ++ (item.tokens ++ after) := by
  induction h with
  | here h => exact placed h
  | @inside role role' before start start' ns outer item h _ ih =>
    obtain ⟨behind, hb⟩ := placed h
    obtain ⟨more, hm⟩ := tokens_eq_inner outer
    obtain ⟨after, ha⟩ := ih
    refine ⟨after ++ (more ++ behind), ?_⟩
    calc before ++ allTokens ns
        = start ++ outer.failed ++ allTokens outer.inner ++ (more ++ behind) := by
          rw [hb, hm]
          simp only [List.append_assoc]
      _ = start' ++ (item.tokens ++ (after ++ (more ++ behind))) := by
          rw [ha]
          simp only [List.append_assoc]

theorem Role.Place.prefix (h : role.Place before ns role' start item) : before <+: start := by
  induction h with
  | here h => exact prefix_of_mem_placesFrom h
  | inside h _ ih =>
    exact (prefix_of_mem_placesFrom h).trans ((List.prefix_append _ _).trans ih)

/-- Inside of a block there are no rule lists. -/
theorem Role.Place.block (h : (Role.block nested).Place before ns role' start item) :
    ∃ nested', role' = .block nested' := by
  generalize hr : Role.block nested = role at h
  induction h generalizing nested with
  | here h => exact ⟨nested, hr.symm⟩
  | @inside role role' before start start' ns outer item h _ ih =>
    subst hr
    exact ih (inside_block nested outer).symm

/-- What stands at a place in the block of an item stands at a place of the list around it. -/
theorem exists_place_inside {P : Role → Item → Prop} (h : outer ∈ role.items ns)
    (hi : ∀ before, ∃ role' start item,
      (role.inside outer.reading).Place before outer.inner role' start item ∧ P role' item)
    (before : List Token) :
    ∃ role' start item, role.Place before ns role' start item ∧ P role' item := by
  obtain ⟨start, hs⟩ := exists_place_of_mem role before h
  obtain ⟨role', start', item, hp, hP⟩ := hi (start ++ outer.failed)
  exact ⟨role', start', item, .inside hs hp, hP⟩

/-! ## First tokens -/

/-- The block of an item fits where it stands. -/
private theorem inner_fits (hf : AllFitEnd b closed ns)
    (h : item.nodes ++ item.stop.toList <:+: ns) : ∃ b closed, AllFitEnd b closed item.inner := by
  refine Item.inner_cases (motive := fun inner => ∃ b closed, AllFitEnd b closed inner)
    ⟨none, true, trivial⟩ fun m hm => ?_
  obtain ⟨xs, ys, rfl⟩ := List.append_of_mem (h.mem (a := m) (by simp [Option.mem_def.1 hm]))
  have hm := (allFitEnd_append_cons.1 hf).2.1
  cases m with
  | leaf t => exact ⟨none, true, trivial⟩
  | block opener inner closer =>
    cases closer with
    | none =>
      obtain ⟨c, -, -, hi⟩ := hm
      exact ⟨_, _, hi⟩
    | some t =>
      obtain ⟨c, -, -, hi⟩ := hm
      exact ⟨_, _, hi⟩

/-- A failed item starts with the first token of the node it is read from. -/
theorem head?_failed (hne : item.failed ≠ [])
    (h : item.nodes ++ (item.stop.toList ++ rest) = n :: skipped) :
    item.failed.head? = some n.first := by
  have hfirst (n : Node) (ts : List Token) : (n.tokens ++ ts).head? = some n.first := by
    cases n <;> simp [Node.tokens, Node.first]
  cases hn : item.nodes with
  | nil =>
    cases hs : item.stop with
    | none => exact absurd (by simp [Item.failed, hn, hs, allTokens]) hne
    | some stop =>
      obtain rfl : stop = n := by simpa [hn, hs] using (List.cons.inj (by simpa [hn, hs] using h)).1
      simp [Item.failed, hn, hs, allTokens]
  | cons m ms =>
    obtain rfl : m = n := (List.cons.inj (by simpa [hn] using h)).1
    rw [Item.failed, hn, allTokens, List.append_assoc]
    exact hfirst m _

/-- An item starts with the first token of a node that fits where it stands and is no gap. -/
theorem Role.Place.head (h : role.Place before ns role' start item)
    (hf : AllFitEnd b closed ns) : ∃ n b closed, FitsEnd b closed n ∧ role'.isGap n = false ∧
      item.failed.head? = some n.first := by
  induction h generalizing b closed with
  | @here role before start ns item h =>
    have hm := mem_of_mem_placesFrom h
    obtain ⟨n, rest, ⟨xs, rfl⟩, hgap, hread⟩ := mem_items role hm
    have hnodes := nodes_of_readItem role n rest
    rw [← hread.nodes, ← hread.stop] at hnodes
    refine ⟨n, _, _, (allFitEnd_append_cons.1 hf).2.1, hgap, head?_failed ?_ hnodes⟩
    cases role with
    | rules => exact failed_of_mem_ruleItems hm
    | block nested => exact failed_of_mem_blockItems hm
  | inside h _ ih =>
    obtain ⟨b, closed, hi⟩ := inner_fits hf (infix_of_mem_items (mem_of_mem_placesFrom h))
    exact ih hi

/-! ## Sheets -/

/-- The nodes of a character set statement at the start of a sheet, and the rule list behind it. -/
def Stylesheet.cut : List Node → List Node × List Node
  | [] => ([], [])
  | n :: rest =>
    if isCharset n then
      let c := cutAt Node.isSemicolon rest
      (n :: (c.nodes ++ c.stop.toList), c.rest)
    else ([], n :: rest)

theorem cut_append (ns : List Node) : (Stylesheet.cut ns).1 ++ (Stylesheet.cut ns).2 = ns := by
  cases ns with
  | nil => rfl
  | cons n rest =>
    have hrest := cutAt_nodes Node.isSemicolon rest
    by_cases hn : isCharset n = true
    · simp only [Stylesheet.cut, if_pos hn, List.cons_append, List.append_assoc, hrest]
    · simp only [Stylesheet.cut, if_neg hn, List.nil_append]

/-- The rule of a character set statement at the start of a sheet. -/
def Stylesheet.front : List Node → List Rule
  | .leaf ⟨.atKeyword name, _, _⟩ :: rest =>
    if name.toLower = "charset" then
      [.atRule name (Text.collapse (charsetSource (cutAt Node.isSemicolon rest).nodes)) .none 1]
    else []
  | _ => []

/-- A sheet is read as its rule list, behind the statement at its start. -/
theorem ofNodes_eq_front (ns : List Node) : Stylesheet.ofNodes ns =
    (readRules (Stylesheet.cut ns).2).map fun l => ⟨Stylesheet.front ns ++ l.rules, l.warnings⟩ := by
  have hmap (front : List Rule) (l : Except ParseError Listing) : (do
      let listing ← l
      .ok ⟨front ++ listing.rules, listing.warnings⟩ : Except ParseError Stylesheet) =
        l.map fun l => ⟨front ++ l.rules, l.warnings⟩ := by
    cases l <;> rfl
  unfold Stylesheet.ofNodes
  split
  · rename_i name source line rest
    have hcharset : isCharset (.leaf ⟨.atKeyword name, source, line⟩) =
        decide (name.toLower = "charset") := rfl
    by_cases hn : name.toLower = "charset"
    · rw [if_pos hn, Stylesheet.cut, hcharset, decide_eq_true hn, Stylesheet.front, if_pos hn]
      exact hmap [_] _
    · rw [if_neg hn, Stylesheet.cut, hcharset, decide_eq_false hn, Stylesheet.front, if_neg hn]
      exact hmap [] _
  · rename_i hno
    have hcut : Stylesheet.cut ns = ([], ns) := by
      cases ns with
      | nil => rfl
      | cons n rest =>
        have hn : isCharset n = false := by
          cases n with
          | block opener inner closer => rfl
          | leaf t =>
            obtain ⟨kind, source, line⟩ := t
            cases kind with
            | atKeyword name => exact absurd rfl (hno name source line rest)
            | _ => rfl
        rw [Stylesheet.cut, hn]
        rfl
    have hfront : Stylesheet.front ns = [] := by
      unfold Stylesheet.front
      split
      · rename_i name source line rest
        exact absurd rfl (hno name source line rest)
      · rfl
    rw [hcut, hfront]
    exact hmap [] _

theorem exists_ofNodes (ns : List Node) : ∃ front, Stylesheet.ofNodes ns =
    (readRules (Stylesheet.cut ns).2).map fun l => ⟨front ++ l.rules, l.warnings⟩ :=
  ⟨_, ofNodes_eq_front ns⟩

theorem parse_ok {css : String} {s : Stylesheet} (h : Stylesheet.parse css = .ok s) :
    ∃ l, readRules (Stylesheet.cut (Node.ofText css.toList)).2 = .ok l ∧
      s = ⟨Stylesheet.front (Node.ofText css.toList) ++ l.rules, l.warnings⟩ := by
  rw [Stylesheet.parse, ofNodes_eq_front] at h
  cases hl : readRules (Stylesheet.cut (Node.ofText css.toList)).2 with
  | error e =>
    rw [hl] at h
    cases h
  | ok l =>
    rw [hl] at h
    exact ⟨l, rfl, (Except.ok.inj h).symm⟩

/-- The item stands in a list of a text that is read as `role`, and `before` are the tokens of the
text before it. -/
def Stylesheet.Place (css : String) (role : Role) (before : List Token) (item : Item) : Prop :=
  let nodes := Stylesheet.cut (Node.ofText css.toList)
  Role.rules.Place (allTokens nodes.1) nodes.2 role before item

variable {css : String}

/-- An item at its place in the text. -/
theorem Stylesheet.Place.tokens (h : Stylesheet.Place css role before item) :
    ∃ after, Css.tokens css.toList = before ++ (item.tokens ++ after) := by
  obtain ⟨after, ha⟩ := Role.Place.split h
  refine ⟨after, ?_⟩
  rw [← ha, ← allTokens_append, cut_append, Node.allTokens_ofText]

/-- What would be quoted of an item stands behind its place. -/
theorem Stylesheet.Place.source (h : Stylesheet.Place css role before item) :
    ∃ after, css.toList = sourceOf before ++ (item.quoted ++ after) := by
  obtain ⟨after, ha⟩ := h.tokens
  refine ⟨sourceOf (allTokens ((item.stop.map Node.remainder).getD []) ++ after), ?_⟩
  have hsource := Css.flatMap_source_tokens css.toList
  rw [← hsource, ha, tokens_eq_failed]
  simp [sourceOf, Item.quoted]

/-- The first token of an item fits where it stands, is no gap, and stands on the line that the text
before it gives. -/
theorem Stylesheet.Place.head (h : Stylesheet.Place css role before item) :
    ∃ n b closed, FitsEnd b closed n ∧ role.isGap n = false ∧ item.failed.head? = some n.first ∧
      n.first.line = 1 + Text.lineBreaks (sourceOf before) := by
  have hf : AllFitEnd none false (Stylesheet.cut (Node.ofText css.toList)).2 := by
    have hall := Css.Node.allFitEnd_ofTokens (Css.tokens css.toList)
    have hcut : Node.ofTokens (Css.tokens css.toList) = _ := (cut_append _).symm
    rw [hcut, allFitEnd_append] at hall
    exact hall.2
  obtain ⟨n, b, closed, hn, hgap, hhead⟩ := Role.Place.head h hf
  obtain ⟨after, ha⟩ := h.tokens
  obtain ⟨ts, hts⟩ := List.head?_eq_some_iff.1 hhead
  rw [tokens_eq_failed, hts] at ha
  exact ⟨n, b, closed, hn, hgap, hhead, Css.line_of_tokens ha⟩

end SheetDiff
