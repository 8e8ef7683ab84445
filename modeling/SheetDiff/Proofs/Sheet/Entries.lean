import SheetDiff.Proofs.Css.Spell
import SheetDiff.Proofs.Sheet.Agreement
import SheetDiff.Proofs.Sheet.Faults

/-!
# Entries of a list

An entry is a text that is read as a declaration, a rule or a comment wherever it stands in a list, and
whatever follows it. Read from right to left, a text of entries with blanks between them holds what its
entries add (`Holds.entry`, `Holds.blanks`). On the side of nodes, `Adds` says what nodes add to a list
that goes on behind them: items of each kind are read from their nodes alone (`readItem_style`,
`readItem_atRule`, `readItem_declaration`).
-/

namespace SheetDiff

open Css (Blanks Bracket Kind Node Solid Spells isBlank)

variable {role : Role} {nested : Bool} {b : Option Bracket} {n m : Node} {c d : Contents}
variable {ns ms body rest : List Node} {K : List Char → Prop} {p q : List Char}

/-! ## Nodes that start a list -/

/-- Nodes that add contents to any list that goes on behind them. -/
structure Adds (role : Role) (ns : List Node) (c : Contents) : Prop where
  usual : role.Usual ns
  result : ∀ rest, role.Usual rest → role.result (ns ++ rest) = plus (some c) (role.result rest)

theorem Role.Usual.append (hn : role.Usual ns) (hm : role.Usual ms) : role.Usual (ns ++ ms) := by
  intro hr k hk
  rcases List.mem_append.1 hk with hk | hk
  · exact hn hr k hk
  · exact hm hr k hk

theorem adds_nil (role : Role) : Adds role [] .empty := by
  constructor
  · intro _ n hn
    simp at hn
  · intro rest _
    exact (empty_plus _).symm

theorem Adds.append (hn : Adds role ns c) (hm : Adds role ms d) : Adds role (ns ++ ms) (c.append d) := by
  constructor
  · exact hn.usual.append hm.usual
  · intro rest hr
    rw [List.append_assoc, hn.result _ (hm.usual.append hr), hm.result rest hr, ← plus_assoc]
    rfl

/-- Nodes that make up a list by themselves. -/
theorem Adds.result_self (h : Adds role ns c) : role.result ns = some c := by
  have hnil := h.result [] (adds_nil role).usual
  rwa [List.append_nil, result_nil, plus_empty] at hnil

theorem adds_gap (hg : role.isGap n = true) (hu : role.Usual [n]) :
    Adds role [n] (role.comments [n]) := by
  constructor
  · exact hu
  · intro rest hr
    exact result_gap hg (hu.append hr)

/-- An item adds what it is read as, if it is read alike whatever stands behind it. -/
theorem adds_item {r : Reading} {inner : Contents} (hg : role.isGap n = false)
    (hu : role.Usual (n :: (body ++ [m])))
    (hr : ∀ rest, role.readItem n (body ++ m :: rest) = (r, ⟨n :: body, some m, rest⟩))
    (hf : ∀ e, r ≠ .fault e) (hd : role = .rules → ∀ d, r ≠ .declaration d)
    (hb : m.isBraces = false → Item.inner ⟨[], n.first.line, n :: body, some m, r⟩ = [])
    (hi : (role.inside r).result (Item.inner ⟨[], n.first.line, n :: body, some m, r⟩) = some inner) :
    Adds role (n :: (body ++ [m]))
      (role.contents (Text.collapse (Node.source body)) m.isBraces r inner) := by
  constructor
  · exact hu
  · intro rest hrest
    have hsplit : n :: (body ++ [m]) ++ rest = n :: (body ++ m :: rest) := by simp
    have hitem : role.item n (body ++ m :: rest) = ⟨[], n.first.line, n :: body, some m, r⟩ := by
      rw [Role.item, hr]
    rw [hsplit, result_item hg (hsplit ▸ hu.append hrest) (by rw [hr]; exact hrest), hitem,
      Item.result_eq rfl hf hd (by simpa [Item.hasBlock] using hb), hi, hr]
    rfl

/-! ## Items by their nodes -/

/-- A statement that starts with a node and ends with a block is read as a style rule. -/
structure Role.StartsStyle (role : Role) (n : Node) (body : List Node) : Prop where
  nests : role ≠ .block false
  keyword : ∀ name source line, n ≠ .leaf ⟨.atKeyword name, source, line⟩
  custom : ∀ property source line, role ≠ .rules → n = .leaf ⟨.ident property, source, line⟩ →
    startsCustom property body = false

private theorem styleReading_eq {found : List String} (hm : m.isBraces = true)
    (hs : selectors (n :: body) = .ok found) :
    styleReading ⟨n :: body, some m, rest⟩ = .ok found := by
  simp [styleReading, hm, hs]

theorem readItem_style {found : List String} (h : role.StartsStyle n body)
    (hbody : ∀ k ∈ n :: body, endsStatement k = false) (hm : m.isBraces = true)
    (hs : selectors (n :: body) = .ok found) (rest : List Node) :
    role.readItem n (body ++ m :: rest) = (.style found, ⟨n :: body, some m, rest⟩) := by
  have hstatement : cutAt endsStatement (n :: (body ++ m :: rest)) = ⟨n :: body, some m, rest⟩ :=
    cutAt_append hbody (endsStatement_of_isBraces hm) rest
  have hstyle : styleReading ⟨n :: body, some m, rest⟩ = .ok found := styleReading_eq hm hs
  cases role with
  | rules =>
    have hc : cutAt Node.isBraces (n :: (body ++ m :: rest)) = ⟨n :: body, some m, rest⟩ :=
      cutAt_append (fun k hk => not_narrow (fun _ => endsStatement_of_isBraces) (hbody k hk)) hm rest
    rw [Role.readItem]
    unfold readRuleItem
    split
    · exact absurd rfl (h.keyword _ _ _)
    · simp only [hc, hstyle, Reading.ofStyle]
  | block nested =>
    obtain rfl : nested = true := by
      cases nested with
      | true => rfl
      | false => exact absurd rfl h.nests
    rw [Role.readItem]
    unfold readBlockItem
    simp only
    split
    · exact absurd rfl (h.keyword _ _ _)
    · -- a name starts a declaration, which may not have a block in its value
      rename_i property source line
      have hline : (cutAt Node.isSemicolon (body ++ m :: rest)).nodes =
          body ++ m :: rest.takeWhile (!·.isSemicolon) := by
        have hnot : ∀ k ∈ body ++ [m], (!k.isSemicolon) = true := by
          intro k hk
          rcases List.mem_append.1 hk with hk | hk
          · simp [not_narrow (fun _ => endsStatement_of_isSemicolon) (hbody k (by simp [hk]))]
          · simp [List.mem_singleton.1 hk, isSemicolon_of_isBraces hm]
        simp only [cutAt]
        rw [List.append_cons, List.takeWhile_append_of_pos hnot, List.append_assoc]
        rfl
      obtain ⟨e, he⟩ : ∃ e, declarationReading true property
          (body ++ m :: rest.takeWhile (!·.isSemicolon)) = .error e :=
        declarationReading_braces (h.custom _ _ _ (by simp) rfl) hm
      unfold readNamed
      simp only [Cut.cons, List.tail_cons, hline, he, if_true, hstatement, hstyle]
    · rw [hstatement, hstyle]
      rfl

theorem readItem_atRule (role : Role) (name : String) (source : List Char) (line : Nat)
    (hbody : ∀ k ∈ body, endsStatement k = false) (hm : endsStatement m = true)
    (hc : m.isBraces = true ∨ AtClass.ofName name = .optional) (rest : List Node) :
    role.readItem (.leaf ⟨.atKeyword name, source, line⟩) (body ++ m :: rest) =
      (.atRule name, ⟨.leaf ⟨.atKeyword name, source, line⟩ :: body, some m, rest⟩) := by
  have hstatement : cutAt endsStatement (.leaf ⟨.atKeyword name, source, line⟩ :: (body ++ m :: rest)) =
      ⟨.leaf ⟨.atKeyword name, source, line⟩ :: body, some m, rest⟩ := by
    rw [cutAt_cons_of_not rfl, cutAt_append hbody hm]
    rfl
  have hread : atReading name (some m) = .atRule name := by
    rcases hc with hc | hc
    · simp [atReading, hc]
    · simp [atReading, hc]
  cases role with
  | rules => simp only [Role.readItem, readRuleItem, hstatement, hread]
  | block nested => simp only [Role.readItem, readBlockItem, hstatement, hread]

theorem readItem_declaration {property : String} {d : Declaration} (source : List Char) (line : Nat)
    (hbody : ∀ k ∈ body, k.isSemicolon = false) (hm : m.isSemicolon = true)
    (hd : declarationReading nested property body = .ok d) (rest : List Node) :
    (Role.block nested).readItem (.leaf ⟨.ident property, source, line⟩) (body ++ m :: rest) =
      (.declaration d, ⟨.leaf ⟨.ident property, source, line⟩ :: body, some m, rest⟩) := by
  simp only [Role.readItem, readBlockItem, readNamed, cutAt_append hbody hm rest, Cut.cons,
    List.tail_cons, hd]

/-! ## Texts of entries -/

/-- A text that adds contents to any list that goes on behind it, and does not start with a blank. -/
structure IsEntry (role : Role) (b : Option Bracket) (q : List Char) (c : Contents) : Prop where
  solid : ∃ a u, q = a :: u ∧ isBlank a = false
  nodes : ∃ ns, Spells b (fun _ => True) q ns ∧ Adds role ns c

/-- A text that holds contents up to the end of its list, where a text of the class `K` follows. -/
structure Holds (role : Role) (b : Option Bracket) (K : List Char → Prop) (p : List Char)
    (c : Contents) : Prop where
  exists_split : ∃ g q ns, p = g ++ q ∧ Blanks g ∧ (∀ k, K k → Solid (q ++ k)) ∧ Spells b K q ns ∧
    Adds role ns c

theorem holds_nil (role : Role) (b : Option Bracket) (hK : ∀ k, K k → Solid k) :
    Holds role b K [] .empty :=
  ⟨[], [], [], rfl, by simp [Blanks], hK, .nil, adds_nil role⟩

theorem Holds.blanks (h : Holds role b K p c) {g : List Char} (hg : Blanks g) :
    Holds role b K (g ++ p) c := by
  obtain ⟨g', q, ns, rfl, hg', hs, hsp, ha⟩ := h.exists_split
  refine ⟨g ++ g', q, ns, (List.append_assoc ..).symm, ?_, hs, hsp, ha⟩
  intro a hm
  rcases List.mem_append.1 hm with hm | hm
  · exact hg a hm
  · exact hg' a hm

/-- White space is a gap in any list. -/
private theorem adds_gapNodes (role : Role) (g : List Char) : Adds role (Css.gapNodes g) .empty := by
  unfold Css.gapNodes
  split
  · exact adds_nil role
  · have hgap : role.isGap (.leaf ⟨.whitespace, g, 0⟩) = true := by cases role <;> rfl
    have hcomments : role.comments [.leaf ⟨.whitespace, g, 0⟩] = .empty := by cases role <;> rfl
    rw [← hcomments]
    refine adds_gap hgap ?_
    intro _ k hk
    obtain rfl := List.mem_singleton.1 hk
    rfl

/-- The nodes of the whole text. -/
theorem Holds.exists_nodes (h : Holds role b K p c) : ∃ ns, Spells b K p ns ∧ Adds role ns c := by
  obtain ⟨g, q, ns, rfl, hg, hs, hsp, ha⟩ := h.exists_split
  refine ⟨Css.gapNodes g ++ ns, (Css.spells_gap hg).append hsp hs, ?_⟩
  exact (adds_gapNodes role g).append ha

theorem Holds.entry (h : Holds role b K p d) (he : IsEntry role b q c) :
    Holds role b K (q ++ p) (c.append d) := by
  obtain ⟨a, u, rfl, ha⟩ := he.solid
  obtain ⟨ns, hsp, hadds⟩ := he.nodes
  obtain ⟨ms, hsp', hadds'⟩ := h.exists_nodes
  refine ⟨[], a :: u ++ p, ns ++ ms, rfl, by simp [Blanks], ?_, hsp.append hsp' (fun _ _ => trivial),
    hadds.append hadds'⟩
  intro k _ e he
  obtain rfl : a = e := by simpa using he
  exact ha

end SheetDiff
