import SheetDiff.Sheet.Item

/-!
# What the items of a list are read from

Every item is read from a suffix of its list of nodes that starts behind a gap (`mem_blockItems`,
`mem_ruleItems`); the nodes it takes and the node that ends it stand at the start of that suffix.
-/

namespace SheetDiff

open Css (Kind Node)

variable {p : Node → Bool} {nested first : Bool} {n : Node} {ns rest skipped : List Node} {item : Item}

/-! ## Cuts -/

theorem cutAt_nodes (p : Node → Bool) (ns : List Node) :
    (cutAt p ns).nodes ++ ((cutAt p ns).stop.toList ++ (cutAt p ns).rest) = ns := by
  have h := List.takeWhile_append_dropWhile (p := (!p ·)) (l := ns)
  unfold cutAt
  cases hd : ns.dropWhile (!p ·) with
  | nil => simpa [hd] using h
  | cons m ms => simpa [hd] using h

theorem of_mem_cutAt (h : n ∈ (cutAt p ns).nodes) : p n = false := by
  simpa using List.all_eq_true.1 (List.all_takeWhile (p := (!p ·)) (l := ns)) n h

theorem of_mem_stop (h : n ∈ (cutAt p ns).stop) : p n = true := by
  have hd := List.head?_dropWhile_not (!p ·) ns
  have hn : (ns.dropWhile (!p ·)).head? = some n := h
  simpa [hn] using hd

/-- The nodes of a cut with the node that ends it start the list. -/
theorem prefix_of_cutAt (p : Node → Bool) (ns : List Node) :
    (cutAt p ns).nodes ++ (cutAt p ns).stop.toList <+: ns :=
  ⟨(cutAt p ns).rest, by rw [List.append_assoc, cutAt_nodes]⟩

theorem suffix_of_cutAt (p : Node → Bool) (ns : List Node) : (cutAt p ns).rest <:+ ns :=
  ⟨(cutAt p ns).nodes ++ (cutAt p ns).stop.toList, by rw [List.append_assoc, cutAt_nodes]⟩

theorem suffix_tail_of_cutAt (p : Node → Bool) (n : Node) (rest : List Node) :
    (cutAt p (n :: rest)).rest <:+ rest := by
  have htail : (cutAt p (n :: rest)).rest = ((n :: rest).dropWhile (!p ·)).tail := rfl
  rw [htail, List.dropWhile_cons]
  split
  · exact (List.tail_suffix _).trans (List.dropWhile_suffix _)
  · exact List.suffix_rfl

theorem nodes_of_readBlockItem (nested : Bool) (n : Node) (rest : List Node) :
    (readBlockItem nested n rest).2.nodes ++ ((readBlockItem nested n rest).2.stop.toList ++
      (readBlockItem nested n rest).2.rest) = n :: rest := by
  rcases readBlockItem_cut nested n rest with h | h
  · rw [h]
    exact cutAt_nodes _ _
  · rw [h]
    exact congrArg (n :: ·) (cutAt_nodes _ _)

private theorem prefix_of_readBlockItem (nested : Bool) (n : Node) (rest : List Node) :
    (readBlockItem nested n rest).2.nodes ++ (readBlockItem nested n rest).2.stop.toList <+:
      n :: rest :=
  ⟨(readBlockItem nested n rest).2.rest, by rw [List.append_assoc, nodes_of_readBlockItem]⟩

theorem suffix_of_readBlockItem (nested : Bool) (n : Node) (rest : List Node) :
    (readBlockItem nested n rest).2.rest <:+ n :: rest :=
  ⟨(readBlockItem nested n rest).2.nodes ++ (readBlockItem nested n rest).2.stop.toList, by
    rw [List.append_assoc, nodes_of_readBlockItem]⟩

theorem readRuleItem_cut (n : Node) (rest : List Node) :
    ∃ p, (readRuleItem n rest).2 = cutAt p (n :: rest) := by
  unfold readRuleItem
  split
  · exact ⟨_, rfl⟩
  · exact ⟨_, rfl⟩

/-! ## Keywords of character set statements -/

theorem isCharset_leaf {t : Css.Token} :
    isCharset (.leaf t) = true ↔ ∃ name, t.kind = .atKeyword name ∧ name.toLower = "charset" := by
  obtain ⟨kind, source, line⟩ := t
  cases kind <;> simp [isCharset, Node.isLeaf, Node.isBlock, Node.kind, Node.first]

theorem isCharset_leaf_eq_false {t : Css.Token} :
    isCharset (.leaf t) = false ↔ ∀ name, t.kind = .atKeyword name → name.toLower ≠ "charset" := by
  rw [← Bool.not_eq_true, isCharset_leaf]
  simp

instance (t : Css.Token) :
    Decidable (∀ name, t.kind = .atKeyword name → name.toLower ≠ "charset") :=
  decidable_of_iff _ isCharset_leaf_eq_false

/-- The keyword of a character set statement is a token by itself. -/
theorem exists_leaf_of_isCharset (h : isCharset n = true) :
    ∃ t name, n = .leaf t ∧ t.kind = .atKeyword name ∧ name.toLower = "charset" := by
  cases n with
  | block opener inner closer => simp [isCharset, Node.isLeaf, Node.isBlock] at h
  | leaf t =>
    obtain ⟨name, hk, hn⟩ := isCharset_leaf.1 h
    exact ⟨t, name, rfl, hk, hn⟩

/-- The keyword of a character set statement does not stand between rules. -/
theorem isRuleGap_of_isCharset (h : isCharset n = true) : isRuleGap n = false := by
  obtain ⟨t, name, rfl, hk, -⟩ := exists_leaf_of_isCharset h
  simp [isRuleGap, Node.isLeaf, Node.kind, Node.first, hk, Kind.isRuleGap, Kind.isSpacing]

/-! ## Readings -/

/-- A style rule ends at a block in curly brackets and has selectors. -/
theorem styleReading_ok {c : Cut} {found : List String} (h : styleReading c = .ok found) :
    (∃ stop, c.stop = some stop ∧ stop.isBraces = true) ∧ selectors c.nodes = .ok found := by
  unfold styleReading at h
  split at h
  · simp at h
  · rename_i stop hstop
    split at h
    · rename_i hb
      exact ⟨⟨stop, hstop, hb⟩, h⟩
    · simp at h

/-- All that `readBlockItem` may read from a list that starts with `n`. -/
inductive ReadsBlockItem (nested : Bool) (n : Node) (rest : List Node) : Reading → Cut → Prop
  | declaration {property : String} {source : List Char} {line : Nat} {d : Declaration}
      (hn : n = .leaf ⟨.ident property, source, line⟩)
      (hd : declarationReading nested property (cutAt Node.isSemicolon rest).nodes = .ok d) :
      ReadsBlockItem nested n rest (.declaration d) ((cutAt Node.isSemicolon rest).cons n)
  | style {found : List String} (hnested : nested = true)
      (hat : ∀ name source line, n ≠ .leaf ⟨.atKeyword name, source, line⟩)
      (hd : ∀ property source line, n = .leaf ⟨.ident property, source, line⟩ →
        ∀ d, declarationReading nested property (cutAt Node.isSemicolon rest).nodes ≠ .ok d)
      (hs : styleReading (cutAt endsStatement (n :: rest)) = .ok found) :
      ReadsBlockItem nested n rest (.style found) (cutAt endsStatement (n :: rest))
  | atRule {name : String} {source : List Char} {line : Nat}
      (hn : n = .leaf ⟨.atKeyword name, source, line⟩)
      (hb : (cutAt endsStatement (n :: rest)).stop.any Node.isBraces = true ∨
        AtClass.ofName name = .optional) :
      ReadsBlockItem nested n rest (.atRule name) (cutAt endsStatement (n :: rest))
  | fault (f : Fault) {c : Cut} : ReadsBlockItem nested n rest (.fault f) c

theorem readsBlockItem (nested : Bool) (n : Node) (rest : List Node) :
    ReadsBlockItem nested n rest (readBlockItem nested n rest).1
      (readBlockItem nested n rest).2 := by
  unfold readBlockItem
  simp only
  split
  · rename_i name source line
    simp only [atReading]
    split
    · rename_i hb
      exact .atRule rfl (by simpa using hb)
    · exact .fault _
  · rename_i property source line
    simp only [readNamed, Cut.cons, List.tail_cons]
    split
    · rename_i d hd
      exact .declaration rfl hd
    · rename_i f hf
      cases nested with
      | false => exact .fault _
      | true =>
        simp only [if_true]
        split
        · rename_i found hs
          refine .style rfl (by simp) (fun p s l hn d hd => ?_) hs
          obtain ⟨rfl, -, -⟩ : property = p ∧ source = s ∧ line = l := by simpa using hn
          simp [hf] at hd
        · exact .fault _
  · rename_i hat hid
    cases nested with
    | false => exact .fault _
    | true =>
      simp only [if_true]
      unfold Reading.ofStyle
      split
      · rename_i found hs
        exact .style rfl hat (fun p s l hn => absurd hn (hid p s l)) hs
      · exact .fault _

/-- A declaration has the line of the colon behind its name. -/
theorem line_declarationReading {property : String} {d : Declaration}
    (h : declarationReading nested property ns = .ok d) :
    ∃ colon value, ns.dropWhile Node.isSpacing = colon :: value ∧ d.line = colon.first.line := by
  unfold declarationReading at h
  split at h
  · simp at h
  · rename_i colon value hd
    split at h
    · simp only at h
      split at h
      · simp at h
      · split at h
        · simp at h
        · obtain rfl := Except.ok.inj h
          exact ⟨colon, value, hd, rfl⟩
    · simp at h

theorem line_of_readBlockItem {d : Declaration}
    (h : (readBlockItem nested n rest).1 = .declaration d) :
    ∃ colon value, (readBlockItem nested n rest).2.nodes.tail.dropWhile Node.isSpacing =
      colon :: value ∧ d.line = colon.first.line := by
  have hr := readsBlockItem nested n rest
  rw [h] at hr
  generalize (readBlockItem nested n rest).2 = c at hr
  cases hr with
  | declaration hn hd => exact line_declarationReading hd

/-- All that `readRuleItem` may read from a list that starts with `n`. -/
inductive ReadsRuleItem (n : Node) (rest : List Node) : Reading → Cut → Prop
  | style {found : List String}
      (hat : ∀ name source line, n ≠ .leaf ⟨.atKeyword name, source, line⟩)
      (hs : styleReading (cutAt Node.isBraces (n :: rest)) = .ok found) :
      ReadsRuleItem n rest (.style found) (cutAt Node.isBraces (n :: rest))
  | atRule {name : String} {source : List Char} {line : Nat}
      (hn : n = .leaf ⟨.atKeyword name, source, line⟩)
      (hb : (cutAt endsStatement (n :: rest)).stop.any Node.isBraces = true ∨
        AtClass.ofName name = .optional) :
      ReadsRuleItem n rest (.atRule name) (cutAt endsStatement (n :: rest))
  | fault (f : Fault) {c : Cut} : ReadsRuleItem n rest (.fault f) c

theorem readsRuleItem (n : Node) (rest : List Node) :
    ReadsRuleItem n rest (readRuleItem n rest).1 (readRuleItem n rest).2 := by
  unfold readRuleItem
  split
  · simp only [atReading]
    split
    · rename_i hb
      exact .atRule rfl (by simpa using hb)
    · exact .fault _
  · rename_i hat
    simp only
    unfold Reading.ofStyle
    split
    · rename_i found hs
      exact .style hat hs
    · exact .fault _

/-! ## Items -/

/-- An item that is read in this way from a list that starts with `n`. -/
structure Item.IsRead (item : Item) (found : Reading × Cut) (n : Node) : Prop where
  reading : item.reading = found.1
  nodes : item.nodes = found.2.nodes
  stop : item.stop = found.2.stop
  line : item.line = n.first.line

theorem Item.IsRead.ofBlock (h : item.IsRead (readBlockItem nested n rest) n) :
    ∃ c, ReadsBlockItem nested n rest item.reading c ∧ item.nodes = c.nodes ∧ item.stop = c.stop :=
  ⟨(readBlockItem nested n rest).2, h.reading ▸ readsBlockItem nested n rest, h.nodes, h.stop⟩

theorem Item.IsRead.ofRuleList (h : item.IsRead (readRuleItem n rest) n) :
    ∃ c, ReadsRuleItem n rest item.reading c ∧ item.nodes = c.nodes ∧ item.stop = c.stop :=
  ⟨(readRuleItem n rest).2, h.reading ▸ readsRuleItem n rest, h.nodes, h.stop⟩

private theorem of_dropWhile {q : Node → Bool} (h : ns.dropWhile q = n :: rest) : q n = false := by
  have hd := List.head?_dropWhile_not q ns
  simpa [h] using hd

theorem mem_blockItems (h : item ∈ blockItems nested skipped ns) :
    ∃ n rest, n :: rest <:+ ns ∧ isBlockGap n = false ∧
      item.IsRead (readBlockItem nested n rest) n := by
  fun_induction blockItems nested skipped ns with
  | case1 => simp at h
  | case2 skipped ns n rest hd found it ih =>
    have hsuf : n :: rest <:+ ns := hd ▸ List.dropWhile_suffix isBlockGap
    rcases List.mem_cons.1 h with rfl | h
    · exact ⟨n, rest, hsuf, of_dropWhile hd, rfl, rfl, rfl, rfl⟩
    · obtain ⟨m, ms, hm, hr⟩ := ih h
      exact ⟨m, ms, (hm.trans (suffix_of_readBlockItem nested n rest)).trans hsuf, hr⟩

/-- The nodes before an item of a rule list. -/
private theorem mem_of_mem_gap {q : Node → Bool} {m : Node} (h : m ∈ skipped ++ ns.takeWhile q) :
    m ∈ skipped ++ ns :=
  List.append_subset.2 ⟨List.subset_append_left _ _,
    List.Subset.trans (List.takeWhile_sublist q).subset (List.subset_append_right _ _)⟩ h

/-- The nodes of a character set statement that is passed over. -/
private theorem mem_of_mem_charset {m : Node} (hd : ns.dropWhile isRuleGap = n :: rest)
    (h : m ∈ skipped ++ ns.takeWhile isRuleGap ++ n :: ((cutAt endsStatement rest).nodes ++
      (cutAt endsStatement rest).stop.toList) ++ (cutAt endsStatement rest).rest) :
    m ∈ skipped ++ ns := by
  have hns := List.takeWhile_append_dropWhile (p := isRuleGap) (l := ns)
  have hrest := cutAt_nodes endsStatement rest
  rw [hd] at hns
  rw [← hns, ← hrest]
  simpa only [List.append_assoc, List.cons_append] using h

theorem mem_ruleItems (h : item ∈ (ruleItems first skipped ns).items) :
    ∃ n rest, n :: rest <:+ ns ∧ isRuleGap n = false ∧ item.IsRead (readRuleItem n rest) n ∧
      ∀ m ∈ item.skipped, m ∈ skipped ++ ns := by
  fun_induction ruleItems first skipped ns with
  | case1 => simp at h
  | case2 first skipped ns gap n rest hd hf c ih =>
    have hsuf : n :: rest <:+ ns := hd ▸ List.dropWhile_suffix isRuleGap
    have hrest := (suffix_of_cutAt endsStatement rest).trans (List.suffix_cons n rest)
    obtain ⟨m, ms, hm, hgap, hr, hsk⟩ := ih h
    exact ⟨m, ms, (hm.trans hrest).trans hsuf, hgap, hr, fun x hx => mem_of_mem_charset hd (hsk x hx)⟩
  | case3 first skipped ns gap n rest hd hf found more ih =>
    have hsuf : n :: rest <:+ ns := hd ▸ List.dropWhile_suffix isRuleGap
    rcases List.mem_cons.1 h with rfl | h
    · exact ⟨n, rest, hsuf, of_dropWhile hd, ⟨rfl, rfl, rfl, rfl⟩, fun x hx => mem_of_mem_gap hx⟩
    · obtain ⟨m, ms, hm, hgap, hr, hsk⟩ := ih h
      obtain ⟨p, hp⟩ := readRuleItem_cut n rest
      have hrest : found.2.rest <:+ ns := (hp ▸ suffix_of_cutAt p (n :: rest)).trans hsuf
      exact ⟨m, ms, hm.trans hrest, hgap, hr, fun x hx =>
        List.mem_append_right _ (hrest.mem (by simpa using hsk x hx))⟩

theorem mem_of_mem_tail (h : n ∈ (ruleItems first skipped ns).tail) : n ∈ skipped ++ ns := by
  fun_induction ruleItems first skipped ns with
  | case1 => exact mem_of_mem_gap h
  | case2 first skipped ns gap m rest hd hf c ih => exact mem_of_mem_charset hd (ih h)
  | case3 first skipped ns gap m rest hd hf found more ih =>
    have hsuf : m :: rest <:+ ns := hd ▸ List.dropWhile_suffix isRuleGap
    obtain ⟨p, hp⟩ := readRuleItem_cut m rest
    have hrest : found.2.rest <:+ ns := (hp ▸ suffix_of_cutAt p (m :: rest)).trans hsuf
    exact List.mem_append_right _ (hrest.mem (by simpa using ih h))

/-- The nodes of an item of a block, with the node that ends it, stand together in the block. -/
theorem infix_of_mem_blockItems (h : item ∈ blockItems nested skipped ns) :
    item.nodes ++ item.stop.toList <:+: ns := by
  obtain ⟨n, rest, hs, -, hr⟩ := mem_blockItems h
  rw [hr.nodes, hr.stop]
  exact (prefix_of_readBlockItem nested n rest).isInfix.trans hs.isInfix

theorem infix_of_mem_ruleItems (h : item ∈ (ruleItems first skipped ns).items) :
    item.nodes ++ item.stop.toList <:+: ns := by
  obtain ⟨n, rest, hs, -, hr, -⟩ := mem_ruleItems h
  obtain ⟨p, hp⟩ := readRuleItem_cut n rest
  rw [hr.nodes, hr.stop, hp]
  exact (prefix_of_cutAt p _).isInfix.trans hs.isInfix

end SheetDiff
