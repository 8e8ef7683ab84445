import Mathlib
import SheetDiff.Proofs.Sheet.Stored

/-!
# Canonical texts are read again

The canonical text of a well-formed sheet is read as the rules it was written for, without a warning and
but for lines (`reread_canonical`), unless a selector is cut, there or here (`Whole`). Each item of a list
holds in its canonical text (`declarationsHold_item`, `rulesHold_item_style`, `rulesHold_item_atRule`), and
so do blocks and rule lists, from the inside out (`hold_readBlock`, `rulesHold_readRules`).
-/

namespace SheetDiff

open Css (Bracket Kind Node Spells Token)
open Css.Node (Written allTokens)

variable {role : Role} {nested : Bool} {b : Option Bracket} {n m : Node} {c : Contents} {item : Item}
variable {ns ms body rest : List Node} {found : List String} {name : String} {l : Listing}

/-! ## What an item is read from -/

theorem isSemicolon_of_selectors (h : selectors ns = .ok found) : ∀ n ∈ ns, n.isSemicolon = false := by
  unfold selectors at h
  split at h
  · simp at h
  · rename_i hno
    simpa using hno

/-- The nodes of a style rule start with the node it is read from. -/
private theorem style_cut {p : Node → Bool} (hs : styleReading (cutAt p (n :: rest)) = .ok found) :
    (cutAt p (n :: rest)).nodes = n :: (cutAt p rest).nodes ∧
      (cutAt p (n :: rest)).stop = (cutAt p rest).stop := by
  cases hp : p n with
  | false =>
    rw [cutAt_cons_of_not hp]
    exact ⟨rfl, rfl⟩
  | true =>
    have hcut : cutAt p (n :: rest) = ⟨[], some n, rest⟩ := by
      rw [← List.nil_append (n :: rest), cutAt_append (by simp) hp]
    have hsel := (styleReading_ok hs).2
    have hnone : selectors [] = .error .missingSelector := rfl
    simp [hcut, hnone] at hsel

/-- A style rule starts with its first node, and ends with the first block in curly brackets. -/
private theorem style_nodes {p : Node → Bool} (hp : ∀ m, m.isBraces = true → p m = true)
    (hs : styleReading (cutAt p (n :: rest)) = .ok found) :
    (cutAt p (n :: rest)).nodes = n :: (cutAt p rest).nodes ∧
      (cutAt p rest).stop.any Node.isBraces = true ∧
      ∀ m ∈ n :: (cutAt p rest).nodes, endsStatement m = false := by
  obtain ⟨hnodes, hstop⟩ := style_cut hs
  obtain ⟨⟨stop, hst, hb⟩, hsel⟩ := styleReading_ok hs
  refine ⟨hnodes, ?_, fun m hm => ?_⟩
  · rw [← hstop, hst]
    exact hb
  · rw [← hnodes] at hm
    have hnot := of_mem_cutAt hm
    have hbraces : m.isBraces = false := by
      rw [← Bool.not_eq_true] at hnot ⊢
      exact fun hbr => hnot (hp m hbr)
    simp [endsStatement, isSemicolon_of_selectors hsel m hm, hbraces]

/-- Where a style rule is read, no declaration of a custom property starts. -/
private theorem startsCustom_of_style {property : String} (ho : Ordinary rest)
    (hb : (cutAt endsStatement rest).stop.any Node.isBraces = true)
    (hd : ∀ d, declarationReading true property (cutAt Node.isSemicolon rest).nodes ≠ .ok d) :
    startsCustom property (cutAt endsStatement rest).nodes = false := by
  rw [← Bool.not_eq_true]
  intro hs
  obtain ⟨m, more, hline, hbr⟩ := nodes_of_braces hb
  have hordinary : Ordinary ((cutAt endsStatement rest).nodes ++ m :: more) :=
    hline ▸ ho.sublist (List.takeWhile_sublist _)
  obtain ⟨d, hok⟩ := declarationReading_custom true hs hbr hordinary
  exact hd d (hline ▸ hok)

/-- An item that is read as a style rule. -/
theorem Item.IsRead.style (h : item.IsRead (role.readItem n rest) n) (ho : Ordinary rest)
    (hr : item.reading = .style found) : ∃ body, item.nodes = n :: body ∧ item.hasBlock = true ∧
      selectors (n :: body) = .ok found ∧ (∀ m ∈ n :: body, endsStatement m = false) ∧
      role.StartsStyle n body := by
  cases role with
  | rules =>
    obtain ⟨c, hread, hnodes, hstop⟩ := h.ofRuleList
    rw [hr] at hread
    rw [hnodes, Item.hasBlock, hstop]
    cases hread with
    | style hat hs =>
      obtain ⟨hcut, hb, hends⟩ := style_nodes (fun _ hm => hm) hs
      have hsel := (styleReading_ok hs).2
      rw [hcut] at hsel
      refine ⟨_, hcut, ?_, hsel, hends, ⟨by simp, hat, by simp⟩⟩
      rw [(style_cut hs).2]
      exact hb
  | block nested =>
    obtain ⟨c, hread, hnodes, hstop⟩ := h.ofBlock
    rw [hr] at hread
    rw [hnodes, Item.hasBlock, hstop]
    cases hread with
    | style hnested hat hd hs =>
      subst hnested
      obtain ⟨hcut, hb, hends⟩ := style_nodes (fun _ => endsStatement_of_isBraces) hs
      have hsel := (styleReading_ok hs).2
      rw [hcut] at hsel
      refine ⟨_, hcut, ?_, hsel, hends, ⟨by simp, hat, fun property source line _ hn => ?_⟩⟩
      · rw [(style_cut hs).2]
        exact hb
      · exact startsCustom_of_style ho hb (hd property source line hn)

/-- An item that is read as an at-rule. -/
theorem Item.IsRead.atRule (h : item.IsRead (role.readItem n rest) n)
    (hr : item.reading = .atRule name) : ∃ source line body, n = .leaf ⟨.atKeyword name, source, line⟩ ∧
      item.nodes = n :: body ∧ (∀ m ∈ body, endsStatement m = false) ∧
      (item.hasBlock = true ∨ AtClass.ofName name = .optional) := by
  have hcut {source : List Char} {line : Nat} (hn : n = .leaf ⟨.atKeyword name, source, line⟩) :
      (cutAt endsStatement (n :: rest)).nodes = n :: (cutAt endsStatement rest).nodes := by
    subst hn
    rw [cutAt_cons_of_not rfl]
    rfl
  cases role with
  | rules =>
    obtain ⟨c, hread, hnodes, hstop⟩ := h.ofRuleList
    rw [hr] at hread
    rw [hnodes, Item.hasBlock, hstop]
    cases hread with
    | atRule hn hb => exact ⟨_, _, _, hn, hcut hn, fun _ => of_mem_cutAt, hb⟩
  | block nested =>
    obtain ⟨c, hread, hnodes, hstop⟩ := h.ofBlock
    rw [hr] at hread
    rw [hnodes, Item.hasBlock, hstop]
    cases hread with
    | atRule hn hb => exact ⟨_, _, _, hn, hcut hn, fun _ => of_mem_cutAt, hb⟩

/-! ## Items in their canonical texts -/

theorem declarationsHold_item {d : Declaration}
    (h : item.IsRead ((Role.block nested).readItem n rest) n) (hw : Written (some .curly) item.nodes)
    (hr : item.reading = .declaration d) : DeclarationsHold (.block nested) (some .curly) [d] := by
  obtain ⟨_, property, source, line, body, hrole, rfl, hnodes, hbody, hd⟩ := h.declaration hr
  obtain rfl := Role.block.inj hrole
  rw [hnodes] at hw
  obtain ⟨value, hspelled⟩ := spelled_declaration hw rfl hbody hd
  exact declarationsHold_single hspelled

/-- The nodes of an item are no keywords of character set statements. -/
private theorem isCharset_of_isRead (h : item.IsRead (role.readItem n rest) n)
    (ho : Ordinary (n :: rest)) : ∀ m ∈ item.nodes, isCharset m = false := by
  intro m hm
  rw [h.nodes] at hm
  have hsplit := nodes_of_readItem role n rest
  have hmem : m ∈ n :: rest := by
    rw [← hsplit]
    exact List.mem_append_left _ hm
  exact ho.usual .rules rfl m hmem

/-- A style rule that does not start with a comma, or no style rule. -/
def HeadedStyle (reading : Reading) (nodes : List Node) : Prop :=
  ∀ found, reading = .style found → ∀ n ∈ nodes.head?, n.isLeaf (· = .comma) = false

instance (reading : Reading) (nodes : List Node) : Decidable (HeadedStyle reading nodes) :=
  inferInstanceAs (Decidable
    (∀ found, reading = .style found → ∀ n ∈ nodes.head?, n.isLeaf (· = .comma) = false))

/-- A style rule with whole selectors, or no style rule. -/
def WholeStyle (reading : Reading) (nodes : List Node) : Prop :=
  ∀ found, reading = .style found → Whole nodes

instance (reading : Reading) (nodes : List Node) : Decidable (WholeStyle reading nodes) :=
  inferInstanceAs (Decidable (∀ found, reading = .style found → Whole nodes))

/-- A style rule that is read again from its canonical text, or no style rule. -/
structure Repeatable (reading : Reading) (nodes : List Node) : Prop where
  headed : HeadedStyle reading nodes
  whole : WholeStyle reading nodes

theorem rulesHold_item_style (h : item.IsRead (role.readItem n rest) n) (hg : role.isGap n = false)
    (ho : Ordinary (n :: rest)) (hw : Written b item.nodes) (hr : item.reading = .style found)
    (hrep : Repeatable item.reading item.nodes) (hc : c.Hold (.block true) (some .curly)) :
    RulesHold role b [.style found c.declarations c.rules item.line] := by
  have hcharset := isCharset_of_isRead h ho
  have hheaded := hrep.headed found hr
  have hwhole := hrep.whole found hr
  obtain ⟨body, hnodes, -, hsel, hends, hstart⟩ :=
    h.style (ho.sublist (List.sublist_cons_self n rest)) hr
  rw [hnodes] at hw hheaded hwhole hcharset
  exact rulesHold_selectors hw (fun m hm => ⟨hends m hm, hcharset m hm⟩) (hheaded n rfl) hwhole hg hstart
    hsel hc item.line

theorem rulesHold_item_atRule (h : item.IsRead (role.readItem n rest) n) (ho : Ordinary (n :: rest))
    (hw : Written b item.nodes) (hr : item.reading = .atRule name)
    (hc : item.hasBlock = true → c.Hold (role.inside (.atRule name)) (some .curly))
    (hd : role = .rules → AtClass.ofName name ≠ .declarations → c.declarations = []) :
    RulesHold role b [.atRule name item.lead (item.atBody (role.bodyOf name c)) item.line] := by
  have hcharset := isCharset_of_isRead h ho
  obtain ⟨source, line, body, rfl, hnodes, hends, hblock⟩ := h.atRule hr
  rw [hnodes] at hw hcharset
  have hname : name.toLower ≠ "charset" :=
    isCharset_leaf_eq_false.1 (hcharset _ List.mem_cons_self) name rfl
  have hlead := spellsLead hw rfl hname fun m hm =>
    ⟨hends m hm, hcharset m (List.mem_cons_of_mem _ hm)⟩
  rw [Item.lead, hnodes, List.tail_cons, Item.atBody]
  cases hb : item.hasBlock with
  | true => exact rulesHold_atRule hlead (hc hb) hd item.line
  | false => exact rulesHold_atRule_none hlead (hblock.resolve_left (by simp [hb])) item.line

/-! ## Blocks -/

/-- What an item adds to a block holds in its canonical text, if what its own block holds does. -/
theorem hold_contents (hm : item ∈ blockItems nested [] ns) (hw : Written (some .curly) ns)
    (ho : Ordinary ns) (hrep : Repeatable item.reading item.nodes)
    (hc : item.hasBlock = true → c.Hold (.block item.nests) (some .curly)) :
    (item.contents c).Hold (.block nested) (some .curly) := by
  have hnodes : Written (some .curly) item.nodes :=
    (hw.of_infix (infix_of_mem_blockItems hm)).left
  obtain ⟨n, rest, hs, hg, hread⟩ := mem_items (.block nested) hm
  have hon : Ordinary (n :: rest) := ho.sublist hs.sublist
  unfold Item.contents
  cases hr : item.reading with
  | declaration d =>
    exact ⟨declarationsHold_item hread hnodes hr, rulesHold_nil _ _⟩
  | style found =>
    have hn : item.nests = true := by simp [Item.nests, hr]
    obtain ⟨body, -, hblock, -⟩ := hread.style (hon.sublist (List.sublist_cons_self n rest)) hr
    exact ⟨declarationsHold_nil _ _, rulesHold_item_style hread hg hon hnodes hr hrep
      (hn ▸ hc hblock)⟩
  | atRule name =>
    have hinside := inside_block nested item
    rw [hr] at hinside
    have hbody : (Role.block nested).bodyOf name c = c.body := by simp [Role.bodyOf]
    refine ⟨declarationsHold_nil _ _, ?_⟩
    rw [← hbody]
    exact rulesHold_item_atRule hread hon hnodes hr (fun hb => hinside ▸ hc hb) (by simp)
  | fault f => exact ⟨declarationsHold_nil _ _, rulesHold_nil _ _⟩

/-- What an item reads in its block is written and ordinary. -/
private theorem inner_of_item (role : Role) (hm : item ∈ role.items ns) (hw : Written b ns) (ho : Ordinary ns)
    (hb : item.hasBlock = true) : Written (some .curly) item.inner ∧ Ordinary item.inner := by
  have htaken := infix_of_mem_items hm
  refine ⟨written_inner (hw.of_infix htaken).right hb, ?_⟩
  apply Item.inner_cases
  · exact ho.sublist (List.nil_sublist _)
  · intro m hm
    exact ho.inner (htaken.mem (List.mem_append_right _ (Option.mem_toList.2 hm)))

/-- What a block holds holds in its canonical text. -/
theorem hold_readBlock (nested : Bool) (ns : List Node) (hw : Written (some .curly) ns)
    (ho : Ordinary ns) (hr : (Role.block nested).Every Repeatable ns) :
    (readBlock nested ns).Hold (.block nested) (some .curly) := by
  induction nested, ns using readBlock.induct with
  | case1 nested ns ih =>
    rw [Role.every_iff] at hr
    rw [readBlock_eq]
    apply Contents.hold_concat
    intro c hc
    obtain ⟨item, hm, rfl⟩ := List.mem_map.1 hc
    obtain ⟨hrep, hinside⟩ := hr item hm
    rw [inside_block] at hinside
    refine hold_contents hm hw ho hrep fun hb => ?_
    obtain ⟨hwi, hoi⟩ := inner_of_item (.block nested) hm hw ho hb
    exact ih ⟨item, hm⟩ hwi hoi hinside

/-! ## Rule lists -/

theorem rulesHold_commentsOf (previous : Option Node) (hw : Written b ms) (hs : ∀ n ∈ ns, n ∈ ms) :
    RulesHold .rules b (commentsOf previous ns) := by
  induction ns generalizing previous with
  | nil => exact rulesHold_nil _ _
  | cons n ns ih =>
    have hrest (previous : Option Node) := ih previous fun m hm => hs m (by simp [hm])
    unfold commentsOf
    split
    · rename_i text source line
      obtain ⟨k, hone⟩ := hw.readsOne (t := ⟨.comment text, source, line⟩) (by
        rw [Node.allTokens_eq_flatMap, List.mem_flatMap]
        exact ⟨_, hs _ List.mem_cons_self, List.mem_singleton.2 rfl⟩)
      exact (rulesHold_comment (hone.proper.comment text rfl) _).append (hrest _)
    · exact hrest _

theorem rulesHold_concat {parts : List (Except ParseError Listing)}
    (h : ∀ l, .ok l ∈ parts → RulesHold role b l.rules) (hl : Listing.concat parts = .ok l) :
    RulesHold role b l.rules := by
  induction parts generalizing l with
  | nil =>
    obtain rfl := Except.ok.inj hl
    exact rulesHold_nil role b
  | cons part parts ih =>
    obtain ⟨first, others, rfl, ho, rfl⟩ := Listing.concat_cons_ok hl
    exact (h first List.mem_cons_self).append (ih (fun l hm => h l (List.mem_cons_of_mem _ hm)) ho)

/-- An at-rule whose block is read as a rule list. -/
private theorem rulesHold_group (hm : item ∈ (ruleItems true [] ns).items) (hw : Written b ns)
    (ho : Ordinary ns) (hr : item.reading = .atRule name) (hg : item.groups = true)
    (hl : RulesHold .rules (some .curly) l.rules) :
    RulesHold .rules b [.atRule name item.lead (.rules l.rules) item.line] := by
  obtain ⟨n, rest, hs, -, hread⟩ := mem_items .rules hm
  obtain ⟨hb, hcls⟩ : item.hasBlock = true ∧ AtClass.ofName name ≠ .declarations := by
    simpa [Item.groups, hr] using hg
  have hbody : item.atBody (Role.rules.bodyOf name ⟨[], l.rules, []⟩) = .rules l.rules := by
    simp [Item.atBody, hb, Role.bodyOf, hcls]
  have hinside : Role.rules.inside (.atRule name) = .rules := by simp [Role.inside, hcls]
  rw [← hbody]
  refine rulesHold_item_atRule hread (ho.sublist hs.sublist)
    (hw.of_infix (infix_of_mem_ruleItems hm)).left hr (fun _ => ?_) fun _ _ => rfl
  rw [hinside]
  exact ⟨declarationsHold_nil _ _, hl⟩

/-- A rule whose block is not read as a rule list. -/
private theorem rulesHold_plain (hm : item ∈ (ruleItems true [] ns).items) (hw : Written b ns)
    (ho : Ordinary ns) (hr : item.Every Repeatable .rules) (hg : item.groups = false) :
    RulesHold .rules b (item.contents (readBlock item.nests item.inner)).rules := by
  obtain ⟨n, rest, hs, hgap, hread⟩ := mem_items .rules hm
  have hon : Ordinary (n :: rest) := ho.sublist hs.sublist
  have hnodes : Written b item.nodes := (hw.of_infix (infix_of_mem_ruleItems hm)).left
  obtain ⟨hrep, hevery⟩ := hr
  have hblock (hb : item.hasBlock = true)
      (hinside : Role.rules.inside item.reading = .block item.nests) :
      (readBlock item.nests item.inner).Hold (.block item.nests) (some .curly) := by
    obtain ⟨hwi, hoi⟩ := inner_of_item .rules hm hw ho hb
    exact hold_readBlock _ _ hwi hoi (hinside ▸ hevery)
  unfold Item.contents
  cases hr : item.reading with
  | declaration d => exact rulesHold_nil _ _
  | fault f => exact rulesHold_nil _ _
  | style found =>
    have hn : item.nests = true := by simp [Item.nests, hr]
    obtain ⟨body, -, hb, -⟩ := hread.style (hon.sublist (List.sublist_cons_self n rest)) hr
    have hinside : Role.rules.inside item.reading = .block item.nests := by rw [hr, hn]; rfl
    exact rulesHold_item_style hread hgap hon hnodes hr hrep (hn ▸ hblock hb hinside)
  | atRule name =>
    cases hb : item.hasBlock with
    | false =>
      have hbody (body : AtBody) : item.atBody body = .none := by simp [Item.atBody, hb]
      have hnone := rulesHold_item_atRule (c := .empty) hread hon hnodes hr (by simp [hb])
        fun _ _ => rfl
      rw [hbody] at hnone ⊢
      exact hnone
    | true =>
      have hcls : AtClass.ofName name = .declarations := by simpa [Item.groups, hr, hb] using hg
      have hn : item.nests = false := by simp [Item.nests, hr, hcls]
      have hinside : Role.rules.inside item.reading = .block item.nests := by
        simp [hr, hn, Role.inside, hcls]
      have hbody : Role.rules.bodyOf name (readBlock item.nests item.inner) =
          (readBlock item.nests item.inner).body := by simp [Role.bodyOf, hcls]
      rw [← hbody]
      refine rulesHold_item_atRule hread hon hnodes hr (fun hb => ?_) fun _ hno => absurd hcls hno
      have hhold := hblock hb hinside
      rwa [← hinside, hr] at hhold

/-- The rule of an item holds in its canonical text, if what its block holds does. -/
theorem rulesHold_rule {inner : Except ParseError Listing}
    (hm : item ∈ (ruleItems true [] ns).items) (hw : Written b ns) (ho : Ordinary ns)
    (hr : item.Every Repeatable .rules)
    (hi : ∀ l, item.groups = true → inner = .ok l → RulesHold .rules (some .curly) l.rules)
    (h : item.rule inner = .ok l) : RulesHold .rules b l.rules := by
  have hplain := rulesHold_plain hm hw ho hr
  unfold Item.rule at h
  split at h
  · simp at h
  · rename_i name hreading
    split at h
    · rename_i hg
      cases hinner : inner with
      | error e => simp [hinner, bind, Except.bind] at h
      | ok listing =>
        simp only [hinner, bind, Except.bind] at h
        obtain rfl := Except.ok.inj h
        exact rulesHold_group hm hw ho hreading hg (hi listing hg hinner)
    · rename_i hg
      obtain rfl := Except.ok.inj h
      exact hplain (by simpa using hg)
  · rename_i hno
    obtain rfl := Except.ok.inj h
    refine hplain ?_
    cases hreading : item.reading with
    | atRule name => exact absurd hreading (hno name)
    | _ => simp [Item.groups, hreading]

/-- The rules of a rule list hold in their canonical text. -/
theorem rulesHold_readRules (ns : List Node) (hw : Written b ns) (ho : Ordinary ns)
    (hr : Role.rules.Every Repeatable ns) (h : readRules ns = .ok l) :
    RulesHold .rules b l.rules := by
  induction ns using readRules.induct generalizing b l with
  | case1 ns found =>
    rename_i ih
    rw [Role.every_iff] at hr
    rw [readRules_eq] at h
    refine rulesHold_concat (fun part hpart => ?_) h
    rcases List.mem_append.1 hpart with hpart | hpart
    · obtain ⟨item, hm, hitem⟩ := List.mem_map.1 hpart
      obtain ⟨rule, hrule, rfl⟩ := Item.listing_ok hitem
      obtain ⟨n, rest, -, -, -, hsk⟩ := mem_ruleItems hm
      have hcomments : RulesHold .rules b (commentsOf none item.skipped) :=
        rulesHold_commentsOf none hw (by simpa using hsk)
      refine hcomments.append (rulesHold_rule hm hw ho (hr item hm) (fun l hg hl => ?_) hrule)
      rw [if_pos hg] at hl
      have hb : item.hasBlock = true := by
        cases hreading : item.reading <;> simp_all [Item.groups]
      obtain ⟨hwi, hoi⟩ := inner_of_item .rules hm hw ho hb
      have hinside : Role.rules.inside item.reading = .rules := by
        cases hreading : item.reading <;> simp_all [Item.groups, Role.inside]
      exact ih ⟨item, hm⟩ hwi hoi (hinside ▸ (hr item hm).2) hl
    · obtain rfl := Except.ok.inj (List.mem_singleton.1 hpart)
      refine rulesHold_commentsOf none hw fun n hn => ?_
      simpa using mem_of_mem_tail hn

/-! ## Sheets -/

/-- Rules that hold in their canonical text are read again from it. -/
theorem RulesHold.readAs {s : Stylesheet} (h : RulesHold .rules none s.rules) :
    ReadAs s.canonical (Rule.allUnlined s.rules) := by
  have hend : Holds .rules none (· = []) [] .empty := by
    refine holds_nil .rules none fun k hk => ?_
    subst hk
    simp [Css.Solid]
  have hholds : Holds .rules none (· = []) s.canonical.toList (Contents.kept ⟨[], s.rules, []⟩) := by
    rw [toList_canonical]
    by_cases hr : s.rules = []
    · rw [if_pos hr, hr]
      exact hend
    · rw [if_neg hr]
      have hall := h _ 0 _ _ (hend.blanks blanks_newline)
      rwa [Contents.append_empty] at hall
  obtain ⟨ns, hspells, hadds⟩ := hholds.exists_nodes
  have hnodes : (Node.ofText s.canonical.toList).map Node.unlined = ns := by
    have hgroup := hspells.group [] [] rfl rfl
    rw [List.append_nil] at hgroup
    rw [Css.map_unlined_ofText, Node.ofTokens, hgroup]
    simp [Css.Node.Remainders.prepend, Node.group]
  have hcharset : NoCharset (Node.ofText s.canonical.toList) := by
    intro n hn
    rw [← Css.respaces_unlined.isCharset]
    refine hadds.usual rfl _ ?_
    rw [← hnodes]
    exact List.mem_map_of_mem hn
  have hsame : Role.rules.result (Node.ofText s.canonical.toList) = Role.rules.result ns := by
    apply result_eq_of_unlined
    rw [← hnodes, List.map_map]
    exact List.map_congr_left fun n _ => (Css.Node.unlined_unlined n).symm
  rw [readAs_iff hcharset, hsame, hadds.result_self]
  rfl

/-- The canonical text of a well-formed sheet is read without a warning as the rules of the sheet, at
every depth and but for lines, and is its own canonical text, if no style rule starts with a comma and
the selectors of each are whole. -/
theorem reread_canonical {css : String} {s : Stylesheet} (h : WellFormed css)
    (hs : Stylesheet.parse css = .ok s)
    (hh : Role.rules.Every HeadedStyle (Node.ofText css.toList))
    (hw : Role.rules.Every WholeStyle (Node.ofText css.toList)) :
    ∃ s', Stylesheet.parse s.canonical = .ok s' ∧ s'.warnings = [] ∧
      Rule.allUnlined s'.rules = Rule.allUnlined s.rules ∧ s'.canonical = s.canonical := by
  have ho := ordinary_ofText h.charset
  have hlist : ∃ l, readRules (Node.ofText css.toList) = .ok l ∧ s.rules = l.rules := by
    have hparse : Stylesheet.ofNodes (Node.ofText css.toList) = .ok s := hs
    rw [ofNodes_eq (ho.usual .rules rfl)] at hparse
    cases hl : readRules (Node.ofText css.toList) with
    | error e => simp [hl, Except.map] at hparse
    | ok l =>
      rw [hl] at hparse
      exact ⟨l, rfl, congrArg Stylesheet.rules (Except.ok.inj hparse).symm⟩
  obtain ⟨l, hl, hrules⟩ := hlist
  have hhold := rulesHold_readRules _ h.written ho (fun item hi => ⟨hh item hi, hw item hi⟩) hl
  rw [← hrules] at hhold
  obtain ⟨s', hs', hclean, hall⟩ := hhold.readAs
  refine ⟨s', hs', hclean, hall, ?_⟩
  rw [← Stylesheet.canonical_mapLines (fun _ => 0) s', ← Stylesheet.canonical_mapLines (fun _ => 0) s,
    ← Rule.allUnlined, ← Rule.allUnlined, hall]
  rfl

/-- Two selectors within a rule list of its own. -/
theorem reread_canonical_media :
    ∃ s, Stylesheet.parse "@media x\x7ba,b\x7bc:d\x7d\x7d" = .ok s ∧
      WellFormed "@media x\x7ba,b\x7bc:d\x7d\x7d" ∧
      Role.rules.Every HeadedStyle (Node.ofText "@media x\x7ba,b\x7bc:d\x7d\x7d".toList) ∧
      Role.rules.Every WholeStyle (Node.ofText "@media x\x7ba,b\x7bc:d\x7d\x7d".toList) ∧
      ∃ s', Stylesheet.parse s.canonical = .ok s' ∧ s'.warnings = [] ∧
        Rule.allUnlined s'.rules = Rule.allUnlined s.rules ∧ s'.canonical = s.canonical := by
  have hs : Stylesheet.parse "@media x\x7ba,b\x7bc:d\x7d\x7d" = .ok
      ⟨[.atRule "media" "x" (.rules [.style ["a", "b"] [⟨"c", "d", 1⟩] [] 1]) 1], []⟩ := by cbv
  have hwell : WellFormed "@media x\x7ba,b\x7bc:d\x7d\x7d" := by decide +kernel
  have hheaded : Role.rules.Every HeadedStyle
      (Node.ofText "@media x\x7ba,b\x7bc:d\x7d\x7d".toList) := by decide +kernel
  have hwhole : Role.rules.Every WholeStyle
      (Node.ofText "@media x\x7ba,b\x7bc:d\x7d\x7d".toList) := by decide +kernel
  exact ⟨_, hs, hwell, hheaded, hwhole, reread_canonical hwell hs hheaded hwhole⟩

/-- A block at the end of a selector, which is cut when it is read again right before a comma. -/
theorem not_reread_canonical_block :
    ∃ s s', Stylesheet.parse ":not(a) ,b\x7bx:y\x7d" = .ok s ∧
      WellFormed ":not(a) ,b\x7bx:y\x7d" ∧
      Role.rules.Every HeadedStyle (Node.ofText ":not(a) ,b\x7bx:y\x7d".toList) ∧
      Stylesheet.parse s.canonical = .ok s' ∧ s'.warnings = [] ∧
      Rule.allUnlined s'.rules ≠ Rule.allUnlined s.rules ∧ s'.canonical ≠ s.canonical := by
  have hs : Stylesheet.parse ":not(a) ,b\x7bx:y\x7d" =
      .ok ⟨[.style [":not(a)", "b"] [⟨"x", "y", 1⟩] [] 1], []⟩ := by cbv
  have hcanonical : Stylesheet.canonical ⟨[.style [":not(a)", "b"] [⟨"x", "y", 1⟩] [] 1], []⟩ =
      ":not(a),\nb \x7b\n  x: y;\n\x7d\n" := by decide
  have hs' : Stylesheet.parse
      (Stylesheet.canonical ⟨[.style [":not(a)", "b"] [⟨"x", "y", 1⟩] [] 1], []⟩) =
        .ok ⟨[.style [":not(", "b"] [⟨"x", "y", 3⟩] [] 1], []⟩ := by
    rw [hcanonical]
    cbv
  refine ⟨_, _, hs, by decide +kernel, by decide +kernel, hs', rfl, ?_, by decide⟩
  simp [Rule.allUnlined, Rule.mapAllLines, Rule.mapLines]

end SheetDiff
