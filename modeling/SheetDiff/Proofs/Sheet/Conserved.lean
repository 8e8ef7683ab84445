import Mathlib
import SheetDiff.Proofs.Sheet.Clean
import SheetDiff.Proofs.Sheet.Faultless
import SheetDiff.Proofs.Sheet.Weights

/-!
# Reading conserves tokens

What nodes without faults are read as weighs what their tokens weigh: no token is lost or read twice
(`weighs_result`). The exception are selectors that are cut: of a block right before a comma only the
opening token is kept, so style rules have to be `Uncut`.
-/

namespace SheetDiff

open Css (Bracket Kind Node Token tally textTally)
open Css.Node (Written allTokens)

variable {role : Role} {nested : Bool} {b : Option Bracket} {n : Node} {ns ms rest : List Node}
variable {M N : Multiset Token}

theorem weighs_collapse (h : Written b ns) :
    Weighs (Text.collapse (Node.source ns)).toList (tally (allTokens ns)) :=
  fun _ hk => Css.textTally_collapse h hk

theorem tally_eq_zero_of_collapse (h : Written b ns) (he : Text.collapse (Node.source ns) = "") :
    tally (allTokens ns) = 0 := by
  have hw := weighs_collapse h [] Css.stops_nil
  rw [he] at hw
  simpa using hw.symm

/-! ## Selectors -/

/-- No block stands right before a comma. -/
def Uncut (ns : List Node) : Prop :=
  ns.IsChain fun n m => n.isBlock = true → m.isLeaf (· = .comma) = false

instance (ns : List Node) : Decidable (Uncut ns) :=
  inferInstanceAs (Decidable (ns.IsChain fun n m => n.isBlock = true → m.isLeaf (· = .comma) = false))

/-- The parts of a list between commas. -/
def splitCommas : List Node → List (List Node)
  | [] => [[]]
  | n :: ns =>
    if n.isLeaf (· = .comma) then [] :: splitCommas ns else (splitCommas ns).modifyHead (n :: ·)

/-- The first part starts the list, and the others stand together in it. -/
theorem exists_splitCommas (ns : List Node) : ∃ part parts, splitCommas ns = part :: parts ∧
    part <+: ns ∧ ∀ p ∈ parts, p <:+: ns := by
  induction ns with
  | nil => exact ⟨[], [], rfl, List.nil_prefix, by simp⟩
  | cons n ns ih =>
    obtain ⟨part, parts, hs, hf, hp⟩ := ih
    have hp' : ∀ p ∈ parts, p <:+: n :: ns := fun p hm =>
      (hp p hm).trans (List.suffix_cons n ns).isInfix
    rw [splitCommas, hs]
    split
    · refine ⟨[], _, rfl, List.nil_prefix, fun p hm => ?_⟩
      rcases List.mem_cons.1 hm with rfl | hm
      · exact hf.isInfix.trans (List.suffix_cons n ns).isInfix
      · exact hp' p hm
    · exact ⟨n :: part, parts, rfl, List.cons_prefix_cons.2 ⟨rfl, hf⟩, hp'⟩

theorem commaParts_eq_map (h : Uncut ns) : commaParts ns = (splitCommas ns).map Node.source := by
  induction ns with
  | nil => rfl
  | cons n ns ih =>
    have hcut : (n.isBlock && ns.head?.any (·.isLeaf (· = .comma))) = false := by
      cases ns with
      | nil => simp
      | cons m ns =>
        obtain ⟨hnm, -⟩ := List.isChain_cons_cons.1 h
        cases hn : n.isBlock with
        | false => rfl
        | true => simpa using hnm hn
    rw [commaParts, splitCommas, ih h.of_cons, hcut]
    split
    · rfl
    · obtain ⟨part, parts, hs, -⟩ := exists_splitCommas ns
      simp [hs, Node.source_cons]

theorem infix_of_mem_splitCommas {part : List Node} (h : part ∈ splitCommas ns) : part <:+: ns := by
  obtain ⟨first, parts, hs, hf, hp⟩ := exists_splitCommas ns
  rw [hs] at h
  rcases List.mem_cons.1 h with rfl | h
  · exact hf.isInfix
  · exact hp part h

theorem sum_tally_splitCommas (ns : List Node) :
    ((splitCommas ns).map fun part => tally (allTokens part)).sum = tally (allTokens ns) := by
  induction ns with
  | nil => simp [splitCommas, allTokens]
  | cons n ns ih =>
    rw [splitCommas]
    split
    · rename_i hn
      have hk : tally n.tokens = 0 := by
        cases n with
        | leaf t =>
          have ht : t.kind = .comma := of_decide_eq_true hn
          exact Css.tally_eq_zero (by simp [Node.tokens, ht, Kind.isCounted])
        | block opener inner closer => simp [Node.isLeaf, Node.isBlock] at hn
      simp [allTokens, ih, hk]
    · obtain ⟨part, parts, hs, -⟩ := exists_splitCommas ns
      rw [hs] at ih ⊢
      simp [allTokens, ← ih, add_assoc]

/-- The parts between commas that hold more than white space. -/
def selectorParts (ns : List Node) : List (List Node) :=
  (splitCommas ns).filter fun part => !(Text.collapse (Node.source part)).isEmpty

/-- Selectors that are not cut are the collapsed sources of the parts between commas. -/
theorem selectors_eq_map {found : List String} (hu : Uncut ns) (hf : selectors ns = .ok found) :
    found = (selectorParts ns).map fun part => Text.collapse (Node.source part) := by
  unfold selectors at hf
  rw [commaParts_eq_map hu] at hf
  split at hf
  · simp at hf
  · simp only at hf
    split at hf
    · simp at hf
    · rw [← Except.ok.inj hf, selectorParts]
      simp [List.filter_map, Function.comp_def]

theorem exists_weights_selectors {found : List String} (h : Written b ns) (hu : Uncut ns)
    (hf : selectors ns = .ok found) : ∃ Ms, List.Forall₂ (fun s M => Weighs s.toList M) found Ms ∧
      Ms.sum = tally (allTokens ns) := by
  have hpart (part : List Node) (hm : part ∈ splitCommas ns) : Written b part :=
    h.of_infix (infix_of_mem_splitCommas hm)
  refine ⟨(selectorParts ns).map fun part => tally (allTokens part), ?_, ?_⟩
  · rw [selectors_eq_map hu hf, List.forall₂_map_left_iff, List.forall₂_map_right_iff,
      List.forall₂_same]
    intro part hm
    exact weighs_collapse (hpart part (List.mem_of_mem_filter hm))
  · rw [← sum_tally_splitCommas, selectorParts]
    generalize splitCommas ns = parts at hpart
    induction parts with
    | nil => rfl
    | cons part parts ih =>
      have ih := ih fun p hm => hpart p (List.mem_cons_of_mem _ hm)
      rw [List.filter_cons]
      split
      · rw [List.map_cons, List.map_cons, List.sum_cons, List.sum_cons, ih]
      · rename_i he
        have he : Text.collapse (Node.source part) = "" := by simpa using he
        have hz := tally_eq_zero_of_collapse (hpart part List.mem_cons_self) he
        rw [ih, List.map_cons, List.sum_cons, hz, zero_add]

/-! ## Names, declarations and blocks -/

theorem tally_cons_nodes (n : Node) (ns : List Node) :
    tally (allTokens (n :: ns)) = tally n.tokens + tally (allTokens ns) := by
  rw [allTokens, Css.tally_append]

theorem tally_append_nodes (ns ms : List Node) :
    tally (allTokens (ns ++ ms)) = tally (allTokens ns) + tally (allTokens ms) := by
  rw [Node.allTokens_append, Css.tally_append]

/-- A single token is read from its source. -/
theorem readsOne_of_written {t : Token} (h : Written b [.leaf t]) :
    ∃ k, Css.ReadsOne t k ∧ '\\' ∉ t.source ++ k ∧ '\x00' ∉ t.source := by
  obtain ⟨k, hbk, hr, -⟩ := h.reads
  have hreg : Css.Regular t.source := by simpa [Node.source_cons, Node.tokens] using h.regular
  refine ⟨k, hr, ?_, hreg.nul⟩
  rw [List.mem_append, not_or]
  exact ⟨hreg.backslash, hbk⟩

theorem weighs_property {property : String} {t : Token} (h : Written b [.leaf t])
    (hk : t.kind = .ident property) : Weighs property.toList (tally [t]) := by
  obtain ⟨k, hr, hb, hn⟩ := readsOne_of_written h
  rw [← hr.ident hk hb hn]
  intro k' hk'
  exact Css.textTally_token h (by rw [hk]; rfl) hk'

theorem weighs_atKeyword {name : String} {t : Token} (h : Written b [.leaf t])
    (hk : t.kind = .atKeyword name) : Weighs ('@' :: name.toList) (tally [t]) := by
  obtain ⟨k, hr, hb, hn⟩ := readsOne_of_written h
  rw [← hr.atKeyword hk hb hn]
  intro k' hk'
  exact Css.textTally_token h (by rw [hk]; rfl) hk'

/-- Symbols of one kind have the same tally. -/
private theorem tally_symbol {t : Token} {d : Char} {k : List Char} (h : Css.ReadsOne t k)
    (hd : t.kind.symbol? = some d) : tally [t] = tally [⟨t.kind, [d], 0⟩] := by
  have hs := h.symbol hd
  obtain ⟨kind, source, line⟩ := t
  obtain rfl : source = [d] := hs
  exact (Css.tally_map_unlined [⟨kind, [d], line⟩]).symm

private theorem isCounted_of_isSpacing {k : Kind} (h : k.isSpacing = true) : k.isCounted = false := by
  cases k <;> simp_all [Kind.isSpacing, Kind.isCounted]

private theorem isCounted_of_isRuleGap {k : Kind} (h : k.isRuleGap = true) : k.isCounted = false := by
  cases k <;> simp_all [Kind.isRuleGap, Kind.isSpacing, Kind.isCounted]

private theorem tally_spacing (h : ∀ m ∈ ms, m.isSpacing = true) : tally (allTokens ms) = 0 := by
  apply Css.tally_eq_zero
  intro t ht
  rw [Node.allTokens_eq_flatMap, List.mem_flatMap] at ht
  obtain ⟨m, hm, ht⟩ := ht
  have hs := h m hm
  cases m with
  | leaf u =>
    obtain rfl := List.mem_singleton.1 ht
    exact isCounted_of_isSpacing hs
  | block opener inner closer => simp [Node.isSpacing, Node.isLeaf, Node.isBlock] at hs

/-- A declaration is read from a colon and a value. -/
theorem declarationReading_ok {property : String} {d : Declaration}
    (h : declarationReading nested property rest = .ok d) : ∃ gap t value,
      rest = gap ++ .leaf t :: value ∧ (∀ m ∈ gap, m.isSpacing = true) ∧ t.kind = .colon ∧
        d.property = property ∧ d.value = Text.collapse (Node.source value) ∧
        (nested && !(['-', '-'].isPrefixOf property.toList) && value.any Node.isBraces) = false := by
  have hsplit := List.takeWhile_append_dropWhile (p := Node.isSpacing) (l := rest)
  unfold declarationReading at h
  split at h
  · simp at h
  · rename_i n value hn
    rw [hn] at hsplit
    split at h
    · rename_i hcolon
      simp only at h
      split at h
      · simp at h
      · rename_i hbraces
        split at h
        · simp at h
        · obtain rfl := Except.ok.inj h
          cases n with
          | block opener inner closer => simp [Node.isLeaf, Node.isBlock] at hcolon
          | leaf t =>
            exact ⟨_, t, value, hsplit.symm, List.all_eq_true.1 List.all_takeWhile,
              of_decide_eq_true hcolon, rfl, rfl, eq_false_of_ne_true hbraces⟩
    · simp at h

/-- A declaration weighs what its tokens weigh. -/
theorem weighs_declaration {property : String} {t : Token} {d : Declaration}
    (h : Written b (.leaf t :: rest)) (ht : t.kind = .ident property)
    (hd : declarationReading nested property rest = .ok d) :
    DeclarationsWeigh [d] (tally (allTokens (.leaf t :: rest))) := by
  obtain ⟨gap, u, value, rfl, hgap, hu, hproperty, hvalue, -⟩ := declarationReading_ok hd
  have hw := h.tail.right
  obtain ⟨k, hr, -⟩ := readsOne_of_written hw.head
  have hcolon : tally [u] = colonTally := by
    rw [tally_symbol hr (by rw [hu]; rfl), hu, colonTally]
  have htally : tally (allTokens (.leaf t :: (gap ++ .leaf u :: value))) =
      tally [t] + (colonTally + tally (allTokens value)) := by
    rw [tally_cons_nodes, tally_append_nodes, tally_cons_nodes, tally_spacing hgap, zero_add,
      ← hcolon]
    rfl
  rw [htally]
  apply declarationsWeigh_single
  · rw [hproperty]
    exact weighs_property h.head ht
  · rw [hvalue]
    exact weighs_collapse hw.tail

/-- A block in curly brackets weighs its brackets besides what it holds. -/
theorem tally_braces (h : Written b [n]) (hn : n.isBraces = true) :
    Written (some .curly) n.inner ∧ tally n.tokens = bracesTally + tally (allTokens n.inner) := by
  cases n with
  | leaf t => simp [Node.isBraces, Node.isBlock] at hn
  | block opener inner closer =>
    have ho := kind_of_isBraces hn
    obtain ⟨c, t, hoc, rfl, hc, hin⟩ := h.inner
    rw [ho] at hoc
    obtain rfl : Bracket.curly = c := Option.some.inj hoc
    have hcl : t.kind = .closing .curly := Kind.eq_closing hc
    obtain ⟨k, hro⟩ := h.readsOne (t := opener) (by simp [allTokens, Node.tokens])
    obtain ⟨k', hrc⟩ := h.readsOne (t := t) (by simp [allTokens, Node.tokens])
    refine ⟨hin, ?_⟩
    have hopener : tally [opener] = tally [Css.openBrace] := by
      rw [tally_symbol hro (by rw [ho]; rfl), ho, Css.openBrace]
    have hcloser : tally [t] = tally [Css.closeBrace] := by
      rw [tally_symbol hrc (by rw [hcl]; rfl), hcl, Css.closeBrace]
    rw [Node.tokens, Option.toList_some, Css.tally_cons, Css.tally_append, hopener, hcloser,
      bracesTally, Node.inner]
    abel

/-! ## Gaps -/

private theorem tally_leaf {t : Token} (h : t.kind.isCounted = false) :
    tally (Node.leaf t).tokens = 0 :=
  Css.tally_of_not_counted h []

/-- What is skipped weighs nothing, as the comments that are kept of it do. -/
theorem weighs_gap (h : Written b (n :: ns)) (hb : ∀ nested, role = .block nested → b = some .curly)
    (hg : role.isGap n = true) : (role.comments [n]).Weighs (tally n.tokens) := by
  cases n with
  | block opener inner closer => cases role <;> simp [Role.isGap, isRuleGap, isBlockGap,
      Node.isLeaf, Node.isSpacing, Node.isSemicolon, Node.isBlock] at hg
  | leaf t =>
    cases role with
    | rules =>
      have hk : t.kind.isCounted = false := isCounted_of_isRuleGap hg
      rw [tally_leaf hk]
      refine ⟨0, 0, declarationsWeigh_nil, ?_, rfl⟩
      obtain ⟨k, hr, -⟩ := readsOne_of_written h.head
      have hcomment := hr.proper.comment
      obtain ⟨kind, source, line⟩ := t
      cases kind with
      | comment text => exact rulesWeigh_comment 0 (hcomment text rfl)
      | _ => exact rulesWeigh_nil
    | block nested =>
      obtain rfl := hb nested rfl
      have hf : t.kind ≠ .closing .curly := by
        intro hk
        have hfit := h.fit.1.2
        simp [hk, Kind.closes?] at hfit
      have hk : t.kind.isCounted = false := by
        have hg : (t.kind.isSpacing || decide (t.kind = .semicolon) ||
          decide (t.kind = .closing .curly)) = true := hg
        cases ht : t.kind <;> simp_all [Kind.isSpacing, Kind.isCounted]
      rw [tally_leaf hk]
      exact Contents.weighs_empty

/-! ## Items -/

/-- The nodes that an item takes and the node that ends it. -/
inductive Takes (role : Role) : Reading → List Node → Option Node → Prop
  | declaration {nested : Bool} {t : Token} {property : String} {d : Declaration}
      {body : List Node} {stop : Option Node} (hrole : role = .block nested)
      (ht : t.kind = .ident property) (hd : declarationReading nested property body = .ok d)
      (hstop : ∀ b ∈ stop, b.isSemicolon = true) :
      Takes role (.declaration d) (.leaf t :: body) stop
  | style {found : List String} {nodes : List Node} {b : Node} (hs : selectors nodes = .ok found)
      (hb : b.isBraces = true) : Takes role (.style found) nodes (some b)
  | atRule {name : String} {t : Token} {body : List Node} {stop : Option Node}
      (ht : t.kind = .atKeyword name) (hstop : ∀ b ∈ stop, endsStatement b = true) :
      Takes role (.atRule name) (.leaf t :: body) stop
  | fault (f : Fault) {nodes : List Node} {stop : Option Node} : Takes role (.fault f) nodes stop

private theorem takes_style {p : Node → Bool} {found : List String}
    (h : styleReading (cutAt p ns) = .ok found) :
    Takes role (.style found) (cutAt p ns).nodes (cutAt p ns).stop := by
  obtain ⟨⟨b, hstop, hb⟩, hs⟩ := styleReading_ok h
  rw [hstop]
  exact .style hs hb

private theorem takes_atRule {name : String} {source : List Char} {line : Nat} (rest : List Node) :
    Takes role (.atRule name)
      (cutAt endsStatement (.leaf ⟨.atKeyword name, source, line⟩ :: rest)).nodes
      (cutAt endsStatement (.leaf ⟨.atKeyword name, source, line⟩ :: rest)).stop := by
  rw [cutAt_cons_of_not rfl]
  exact .atRule rfl fun b hb => of_mem_stop hb

theorem takes_readItem (role : Role) (n : Node) (rest : List Node) :
    Takes role (role.readItem n rest).1 (role.readItem n rest).2.nodes
      (role.readItem n rest).2.stop := by
  cases role with
  | rules =>
    have h := readsRuleItem n rest
    rw [Role.readItem]
    generalize (readRuleItem n rest).1 = r at h
    generalize (readRuleItem n rest).2 = c at h
    cases h with
    | style hat hs => exact takes_style hs
    | atRule hn hb =>
      subst hn
      exact takes_atRule rest
    | fault f => exact .fault f
  | block nested =>
    have h := readsBlockItem nested n rest
    rw [Role.readItem]
    generalize (readBlockItem nested n rest).1 = r at h
    generalize (readBlockItem nested n rest).2 = c at h
    cases h with
    | declaration hn hd =>
      subst hn
      exact .declaration rfl rfl hd fun b hb => of_mem_stop hb
    | style hnested hat hd hs => exact takes_style hs
    | atRule hn hb =>
      subst hn
      exact takes_atRule rest
    | fault f => exact .fault f

/-- A style rule whose selectors are not cut, or no style rule. -/
def UncutStyle (reading : Reading) (nodes : List Node) : Prop :=
  ∀ found, reading = .style found → Uncut nodes

instance (reading : Reading) (nodes : List Node) : Decidable (UncutStyle reading nodes) :=
  inferInstanceAs (Decidable (∀ found, reading = .style found → Uncut nodes))

theorem lineless_uncutStyle : Lineless UncutStyle := by
  intro r' r ns h
  rcases Reading.cases_unlined h with ⟨d', d, rfl, rfl, -⟩ | rfl
  · simp [UncutStyle]
  · exact Iff.rfl

theorem declarations_of_result {c : Contents} (h : Role.rules.result ns = some c) :
    c.declarations = [] := by
  have hs : Listing.sound (listingOf ns) = some c := h
  cases hl : listingOf ns with
  | error e =>
    rw [hl] at hs
    simp [Listing.sound] at hs
  | ok l =>
    rw [hl, Listing.sound, Contents.sound] at hs
    split at hs
    · obtain rfl := Option.some.inj hs
      rfl
    · simp at hs

private theorem weighs_rule {r : Rule} (h : RulesWeigh [r] M) :
    (⟨[], [r], []⟩ : Contents).Weighs M :=
  ⟨0, M, declarationsWeigh_nil, h, (zero_add M).symm⟩

/-- A semicolon weighs nothing. -/
private theorem tally_stop {stop : Option Node} (h : ∀ m ∈ stop, m.isSemicolon = true) :
    tally (allTokens stop.toList) = 0 := by
  cases stop with
  | none => rfl
  | some m =>
    have hm := h m rfl
    cases m with
    | leaf u =>
      have hk : u.kind = .semicolon := of_decide_eq_true hm
      exact Css.tally_of_not_counted (by rw [hk]; rfl) []
    | block opener inner closer => simp [Node.isSemicolon, Node.isLeaf, Node.isBlock] at hm

/-- A block that ends an item weighs its brackets besides what it holds. -/
private theorem tally_stop_braces (h : Written b [n]) (hn : n.isBraces = true) :
    tally (allTokens (some n).toList) = bracesTally + tally (allTokens n.inner) := by
  rw [← (tally_braces h hn).2, Option.toList_some, tally_cons_nodes, allTokens, Css.tally_nil,
    add_zero]

/-- What an item is read as weighs what its nodes weigh, if what its block holds does. -/
theorem weighs_item {item : Item} (ht : Takes role item.reading item.nodes item.stop)
    (h : Written b (item.nodes ++ item.stop.toList)) (hs : item.skipped = [])
    (hu : UncutStyle item.reading item.nodes)
    (ih : item.hasBlock = true → ∀ c, (role.inside item.reading).result item.inner = some c →
      c.Weighs (tally (allTokens item.inner)))
    {c : Contents} (hc : item.result role = some c) :
    c.Weighs (tally (allTokens (item.nodes ++ item.stop.toList))) := by
  obtain ⟨skipped, line, nodes, stop, reading⟩ := item
  obtain rfl : skipped = [] := hs
  simp only at ht h hu ih ⊢
  rw [tally_append_nodes]
  cases ht with
  | fault f =>
    rw [Item.result_fault rfl] at hc
    simp at hc
  | @declaration nested t property d body stop hrole hk hd hstop =>
    subst hrole
    rw [Item.result_eq rfl (by simp) (by simp) (fun _ => rfl)] at hc
    obtain ⟨inner, -, rfl⟩ := Option.map_eq_some_iff.1 hc
    have hw : DeclarationsWeigh [d] _ := weighs_declaration h.left hk hd
    rw [tally_stop hstop]
    exact ⟨_, 0, hw, rulesWeigh_nil, rfl⟩
  | @style found nodes m hsel hm =>
    rw [Item.result_eq rfl (by simp) (by simp) (fun hb => by simp [Item.hasBlock, hm] at hb)] at hc
    obtain ⟨inner, hin, rfl⟩ := Option.map_eq_some_iff.1 hc
    obtain ⟨Ms, hMs, hsum⟩ := exists_weights_selectors h.left (hu found rfl) hsel
    rw [← hsum, tally_stop_braces h.right hm]
    exact weighs_rule (rulesWeigh_style hMs (ih hm inner hin) 0)
  | @atRule name t body stop hk hstop =>
    have hopen : Item.hasBlock ⟨[], line, .leaf t :: body, stop, .atRule name⟩ = false →
        Item.inner ⟨[], line, .leaf t :: body, stop, .atRule name⟩ = [] := by
      intro hb
      cases stop with
      | none => rfl
      | some m => exact inner_of_endsStatement (hstop m rfl) hb
    rw [Item.result_eq rfl (by simp) (by simp) hopen] at hc
    obtain ⟨inner, hin, rfl⟩ := Option.map_eq_some_iff.1 hc
    have hname := weighs_atKeyword h.left.head hk
    have hlead := weighs_collapse h.left.tail
    rw [tally_cons_nodes, add_assoc]
    refine weighs_rule (rulesWeigh_atRule hname hlead ?_ 0)
    cases hb : stop.any Node.isBraces with
    | false =>
      have hsemicolon : ∀ m ∈ stop, m.isSemicolon = true := by
        intro m hm
        have he := hstop m hm
        rw [Option.mem_def.1 hm] at hb
        simpa [endsStatement, show m.isBraces = false from hb] using he
      rw [tally_stop hsemicolon]
      simpa [Item.hasBlock, hb] using AtBody.weighs_none
    | true =>
      cases stop with
      | none => simp at hb
      | some m =>
        have hm : m.isBraces = true := hb
        have hw : inner.Weighs (tally (allTokens m.inner)) := ih hm inner hin
        rw [tally_stop_braces h.right hm]
        by_cases hrules : role = .rules ∧ AtClass.ofName name ≠ .declarations
        · have hinner : Role.rules.result m.inner = some inner := by
            rw [← hin]
            simp [Role.inside, hrules.1, hrules.2, Item.inner]
          have hnone := declarations_of_result hinner
          simpa [Item.hasBlock, hb, hrules] using hw.ruleBody hnone
        · simpa [Item.hasBlock, hb, hrules] using hw.body

/-! ## Lists -/

theorem written_inner {item : Item} (h : Written b item.stop.toList)
    (hb : item.hasBlock = true) : Written (some .curly) item.inner := by
  cases hs : item.stop with
  | none => simp [Item.hasBlock, hs] at hb
  | some m =>
    rw [Item.hasBlock, hs] at hb
    rw [hs] at h
    have hw := (tally_braces h hb).1
    apply Item.inner_cases
    · exact hw.of_infix List.nil_infix
    · intro m' hm'
      obtain rfl : m = m' := by simpa [hs] using hm'
      exact hw

/-- What nodes are read as without a fault weighs what their tokens weigh. -/
theorem weighs_result (role : Role) (b : Option Bracket) (ns : List Node) (h : Written b ns)
    (hb : ∀ nested, role = .block nested → b = some .curly) (ho : Ordinary ns)
    (hu : role.Every UncutStyle ns) {c : Contents} (hc : role.result ns = some c) :
    c.Weighs (tally (allTokens ns)) := by
  cases ns with
  | nil =>
    rw [result_nil] at hc
    obtain rfl := Option.some.inj hc
    exact Contents.weighs_empty
  | cons n rest =>
    cases hg : role.isGap n with
    | true =>
      rw [result_gap hg (ho.usual role), plus_eq_some] at hc
      obtain ⟨x, y, hx, hy, rfl⟩ := hc
      obtain rfl := Option.some.inj hx
      rw [every_gap lineless_uncutStyle hg (ho.usual role)] at hu
      rw [tally_cons_nodes]
      apply Contents.Weighs.append
      · exact weighs_gap h hb hg
      · exact weighs_result role b rest h.tail hb
          (ho.sublist (List.sublist_cons_self n rest)) hu hy
    | false =>
      have hsplit := nodes_of_readItem role n rest
      have hsuffix := suffix_of_readItem role n rest
      have htail : Ordinary (role.readItem n rest).2.rest :=
        ho.sublist (hsuffix.trans (List.suffix_cons n rest)).sublist
      have hmem : ∀ m ∈ (role.item n rest).stop, m ∈ n :: rest := by
        intro m hm
        rw [← hsplit]
        have hm : m ∈ (role.readItem n rest).2.stop.toList := Option.mem_toList.2 hm
        simp [hm]
      have hinner : Ordinary (role.item n rest).inner :=
        Item.inner_cases (ho.sublist (List.nil_sublist _)) fun m hm => ho.inner (hmem m hm)
      have hle := sizeOf_suffix_le hsuffix
      have hlt : sizeOf (role.item n rest).inner < sizeOf (n :: rest) :=
        Item.inner_cases (motive := fun ms => sizeOf ms < sizeOf (n :: rest))
          (sizeOf_nil_lt (by simp)) fun m hm => sizeOf_inner_lt_of_mem (hmem m hm)
      rw [result_item hg (ho.usual role) (htail.usual role), plus_eq_some] at hc
      obtain ⟨x, y, hx, hy, rfl⟩ := hc
      rw [every_item lineless_uncutStyle hg (ho.usual role) (htail.usual role)] at hu
      obtain ⟨⟨hstyle, hinside⟩, hrest⟩ := hu
      rw [← hsplit, ← List.append_assoc] at h ⊢
      rw [tally_append_nodes]
      apply Contents.Weighs.append
      · refine weighs_item (takes_readItem role n rest) h.left rfl hstyle (fun hblock c hc => ?_) hx
        exact weighs_result _ (some .curly) _ (written_inner h.left.right hblock)
          (fun _ _ => rfl) hinner hinside hc
      · exact weighs_result role b _ h.right hb htail hrest hy
termination_by sizeOf ns
decreasing_by
  all_goals
    subst_vars
    first
      | exact hlt
      | simp only [List.cons.sizeOf_spec]
        omega

/-! ## Sheets -/

/-- A text without escapes, NUL, white space that is not blank or character set statements, in which
every token and every block is closed. -/
structure WellFormed (css : String) : Prop where
  regular : Css.Regular css.toList
  tokens : ∀ t ∈ Css.tokens css.toList, t.IsClosed
  blocks : Node.AllClosed (Node.ofText css.toList)
  charset : ∀ t ∈ Css.tokens css.toList, ∀ name, t.kind = .atKeyword name →
    name.toLower ≠ "charset"

theorem wellFormed_iff {css : String} : WellFormed css ↔
    (Css.Regular css.toList ∧ ∀ t ∈ Css.tokens css.toList, t.IsClosed) ∧
      Node.AllClosed (Node.ofText css.toList) ∧
      ∀ t ∈ Css.tokens css.toList, ∀ name, t.kind = .atKeyword name → name.toLower ≠ "charset" :=
  ⟨fun ⟨hr, ht, hb, hc⟩ => ⟨⟨hr, ht⟩, hb, hc⟩, fun ⟨⟨hr, ht⟩, hb, hc⟩ => ⟨hr, ht, hb, hc⟩⟩

instance (css : String) : Decidable (WellFormed css) := decidable_of_iff _ wellFormed_iff.symm

theorem WellFormed.written {css : String} (h : WellFormed css) :
    Written none (Node.ofText css.toList) := by
  have htokens := Node.allTokens_ofText css.toList
  refine ⟨Node.allFit_ofTokens h.blocks, ⟨[], by simp, ?_⟩, ?_, ?_⟩
  · rw [htokens]
    exact Css.reads_tokens css.toList
  · rw [htokens]
    exact h.tokens
  · rw [Node.source_ofText]
    exact h.regular

/-- No token is lost or doubled: what counts in the canonical text of a well-formed text that is read
without warnings is what counts in the text, if no selector is cut. -/
theorem tally_canonical {css : String} {s : Stylesheet} (h : WellFormed css)
    (hs : Stylesheet.parse css = .ok s) (hw : s.warnings = [])
    (hu : Role.rules.Every UncutStyle (Node.ofText css.toList)) :
    tally (Css.tokens s.canonical.toList) = tally (Css.tokens css.toList) := by
  have ho := ordinary_ofText h.charset
  have htokens : allTokens (Node.ofText css.toList) = Css.tokens css.toList :=
    Node.allTokens_ofTokens _
  have hresult := (readAs_iff (ho.usual .rules rfl)).1 ⟨s, hs, hw, rfl⟩
  obtain ⟨D, R, hD, hR, hsum⟩ := weighs_result .rules none _ h.written (by simp) ho hu hresult
  have hcanonical : s.canonical = Stylesheet.canonical ⟨Rule.allUnlined s.rules, []⟩ :=
    (Stylesheet.canonical_mapLines (fun _ => 0) s).symm
  rw [← htokens, hsum, hD.eq_zero, zero_add, Css.tally_tokens, hcanonical]
  exact textTally_canonical hR

/-- A block in a selector that goes on behind it. -/
theorem tally_canonical_block :
    ∃ s, Stylesheet.parse ":is(a) b,c\x7bd:e\x7d" = .ok s ∧ s.warnings = [] ∧
      WellFormed ":is(a) b,c\x7bd:e\x7d" ∧
      Role.rules.Every UncutStyle (Node.ofText ":is(a) b,c\x7bd:e\x7d".toList) ∧
      tally (Css.tokens s.canonical.toList) = tally (Css.tokens ":is(a) b,c\x7bd:e\x7d".toList) := by
  have hs : Stylesheet.parse ":is(a) b,c\x7bd:e\x7d" =
      .ok ⟨[.style [":is(a) b", "c"] [⟨"d", "e", 1⟩] [] 1], []⟩ := by cbv
  have hwell : WellFormed ":is(a) b,c\x7bd:e\x7d" := by decide +kernel
  have huncut : Role.rules.Every UncutStyle (Node.ofText ":is(a) b,c\x7bd:e\x7d".toList) := by
    decide +kernel
  exact ⟨_, hs, rfl, hwell, huncut, tally_canonical hwell hs rfl huncut⟩

/-- A block right before a comma, which is cut. -/
theorem not_tally_canonical_cut :
    ∃ s, Stylesheet.parse ":not(a),b\x7bx:y\x7d" = .ok s ∧ s.warnings = [] ∧
      WellFormed ":not(a),b\x7bx:y\x7d" ∧
      tally (Css.tokens s.canonical.toList) ≠ tally (Css.tokens ":not(a),b\x7bx:y\x7d".toList) := by
  have hs : Stylesheet.parse ":not(a),b\x7bx:y\x7d" =
      .ok ⟨[.style [":not(", "b"] [⟨"x", "y", 1⟩] [] 1], []⟩ := by cbv
  exact ⟨_, hs, rfl, by decide +kernel, by decide +kernel⟩

end SheetDiff
