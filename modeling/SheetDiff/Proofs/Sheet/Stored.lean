import SheetDiff.Proofs.Sheet.Conserved
import SheetDiff.Proofs.Sheet.Spelled

/-!
# Stored texts spell what they were read from

Names, values, leads and selectors of a well-formed sheet spell the nodes they were read from, without
the white space around them and with the white space inside of them squeezed. Selectors are read again
from lines of their own if they are `Whole`.
-/

namespace SheetDiff

open Css (Bracket Kind Node Spells Stops Token)
open Css.Node (Written)

variable {role : Role} {nested : Bool} {b : Option Bracket} {n : Node} {c : Contents}
variable {ns ms body rest part : List Node} {found : List String} {t : Token}

/-! ## Squeezed nodes -/

@[simp] theorem isBlock_squeezed (n : Node) : n.squeezed.isBlock = n.isBlock := by
  simp [Node.squeezed, Node.unlined]

@[simp] theorem kind_squeezed (n : Node) : n.squeezed.kind = n.kind.squeeze := by
  simp [Node.squeezed, Node.unlined, Node.kind, Css.Token.unlined, Css.Token.squeeze]

theorem isLeaf_squeezed {q : Kind → Bool} (hq : ∀ k, q k.squeeze = q k) (n : Node) :
    n.squeezed.isLeaf q = n.isLeaf q := by
  rw [Node.isLeaf, Node.isLeaf, isBlock_squeezed, kind_squeezed, hq]

@[simp] theorem isComma_squeezed (n : Node) :
    n.squeezed.isLeaf (· = .comma) = n.isLeaf (· = .comma) :=
  isLeaf_squeezed (fun k => by cases k <;> rfl) n

@[simp] theorem isColon_squeezed (n : Node) :
    n.squeezed.isLeaf (· = .colon) = n.isLeaf (· = .colon) :=
  isLeaf_squeezed (fun k => by cases k <;> rfl) n

@[simp] theorem isSemicolon_squeezed (n : Node) : n.squeezed.isSemicolon = n.isSemicolon :=
  isLeaf_squeezed (fun k => by cases k <;> rfl) n

@[simp] theorem isSpacing_squeezed (n : Node) : n.squeezed.isSpacing = n.isSpacing :=
  isLeaf_squeezed (fun k => by cases k <;> rfl) n

@[simp] theorem isCharset_squeezed (n : Node) : isCharset n.squeezed = isCharset n :=
  isLeaf_squeezed (fun k => by cases k <;> rfl) n

@[simp] theorem isBraces_squeezed (n : Node) : n.squeezed.isBraces = n.isBraces := by
  rw [Node.isBraces, Node.isBraces, isBlock_squeezed, kind_squeezed]
  cases n.kind <;> rfl

@[simp] theorem endsStatement_squeezed (n : Node) : endsStatement n.squeezed = endsStatement n := by
  simp [endsStatement]

@[simp] theorem isGap_squeezed (role : Role) (n : Node) : role.isGap n.squeezed = role.isGap n := by
  cases role with
  | rules => exact isLeaf_squeezed (fun k => by cases k <;> rfl) n
  | block nested =>
    have hclosing : n.squeezed.isLeaf (· = .closing .curly) = n.isLeaf (· = .closing .curly) :=
      isLeaf_squeezed (fun k => by cases k <;> rfl) n
    simp [Role.isGap, isBlockGap, hclosing]

/-- A token that holds no white space keeps its kind. -/
theorem exists_of_squeezed {kind : Kind} {source : List Char} {line : Nat}
    (h : n.squeezed = .leaf ⟨kind, source, line⟩) (hl : kind.isLocal = true) :
    ∃ source line, n = .leaf ⟨kind, source, line⟩ := by
  cases n with
  | block opener inner closer => simp [Node.squeezed, Node.unlined, Node.mapTokens] at h
  | leaf t =>
    obtain ⟨k, s, l⟩ := t
    have hk : k.squeeze = kind := by
      have hleaf : Node.leaf ⟨k.squeeze, Text.squeeze s, 0⟩ = .leaf ⟨kind, source, line⟩ := h
      simp only [Node.leaf.injEq, Token.mk.injEq] at hleaf
      exact hleaf.1
    have hlocal : k.isLocal = true := by
      rw [← hl, ← hk]
      cases k <;> rfl
    refine ⟨s, l, ?_⟩
    rw [← hk, Css.Kind.squeeze_of_isLocal hlocal]

theorem startsCustom_squeezed (property : String) (ms : List Node) :
    startsCustom property (ms.map Node.squeezed) = startsCustom property ms := by
  have hspacing : Node.isSpacing ∘ Node.squeezed = Node.isSpacing := funext isSpacing_squeezed
  rw [startsCustom, startsCustom, List.dropWhile_map, hspacing, List.head?_map, Option.any_map]
  congr 2
  exact funext isColon_squeezed

theorem startsCustom_append {property : String} (h : startsCustom property ms = true)
    (more : List Node) : startsCustom property (ms ++ more) = true := by
  unfold startsCustom at h ⊢
  rw [List.dropWhile_append]
  split
  · rename_i he
    simp [List.isEmpty_iff.1 he] at h
  · cases hd : ms.dropWhile Node.isSpacing with
    | nil => simp_all
    | cons m rest => simpa [hd] using h

theorem Role.StartsStyle.squeezed (h : role.StartsStyle n body) (hp : ms <+: body) :
    role.StartsStyle n.squeezed (ms.map Node.squeezed) := by
  refine ⟨h.nests, ?_, ?_⟩
  · intro name source line hn
    obtain ⟨s, l, rfl⟩ := exists_of_squeezed hn rfl
    exact h.keyword name s l rfl
  · intro property source line hr hn
    obtain ⟨s, l, rfl⟩ := exists_of_squeezed hn rfl
    have hbody := h.custom property s l hr rfl
    obtain ⟨more, rfl⟩ := hp
    rw [startsCustom_squeezed]
    rw [← Bool.not_eq_true] at hbody ⊢
    exact fun hm => hbody (startsCustom_append hm more)

private theorem forall_squeezed {P : Node → Prop} (h : ∀ n ∈ ns, P n.squeezed) :
    ∀ n ∈ (Node.trim ns).map Node.squeezed, P n := by
  intro n hn
  obtain ⟨m, hm, rfl⟩ := List.mem_map.1 hn
  exact h m (Node.mem_of_mem_trim hm)

/-! ## Names, values and leads -/

theorem spelled_declaration {property : String} {d : Declaration}
    (h : Written (some .curly) (.leaf t :: rest)) (ht : t.kind = .ident property)
    (hs : ∀ m ∈ rest, m.isSemicolon = false)
    (hd : declarationReading nested property rest = .ok d) : ∃ value, d.Spelled nested value := by
  have hlocal : t.kind.isLocal = true := by rw [ht]; rfl
  have hname : t.source = property.toList := by
    obtain ⟨k, hr, hb, hn⟩ := readsOne_of_written h.head
    exact hr.ident ht hb hn
  have hfilled := normal_declaration hd
  obtain ⟨gap, u, value, rfl, -, -, rfl, hvalue, hbraces⟩ := declarationReading_ok hd
  refine ⟨(Node.trim value).map Node.squeezed, ?_, ?_, hfilled, ?_, ?_, ?_⟩
  · rw [← hname]
    exact Css.solid_token h.head hlocal
  · have hspells := Css.spells_token h.head hlocal
    rwa [Css.Token.unlined, ht, hname] at hspells
  · rw [hvalue]
    exact Css.spells_collapse h.tail.right.tail
  · apply forall_squeezed
    intro m hm
    rw [isSemicolon_squeezed]
    exact hs m (by simp [hm])
  · cases hv : ((Node.trim value).map Node.squeezed).any Node.isBraces with
    | false => simp
    | true =>
      obtain ⟨m, hm, hbr⟩ := List.any_eq_true.1 hv
      obtain ⟨k, hk, rfl⟩ := List.mem_map.1 hm
      have hvalue : value.any Node.isBraces = true :=
        List.any_eq_true.2 ⟨k, Node.mem_of_mem_trim hk, by simpa using hbr⟩
      rwa [hvalue] at hbraces

theorem spellsLead {name : String} (h : Written b (.leaf t :: body)) (ht : t.kind = .atKeyword name)
    (hc : name.toLower ≠ "charset")
    (hb : ∀ n ∈ body, endsStatement n = false ∧ isCharset n = false) :
    SpellsLead b name (Text.collapse (Node.source body)) ((Node.trim body).map Node.squeezed) := by
  have hlocal : t.kind.isLocal = true := by rw [ht]; rfl
  have hname : t.source = '@' :: name.toList := by
    obtain ⟨k, hr, hb, hn⟩ := readsOne_of_written h.head
    exact hr.atKeyword ht hb hn
  refine ⟨hc, ?_, Text.stored_collapse _, Css.spells_collapse h.tail, ?_⟩
  · have hspells := Css.spells_token h.head hlocal
    rwa [Css.Token.unlined, ht, hname] at hspells
  · apply forall_squeezed
    intro m hm
    simpa using hb m hm

/-! ## Selectors -/

/-- Selectors that are not cut, neither where they stand nor on lines of their own, where a comma is
right behind each but the last of them. -/
structure Whole (ns : List Node) : Prop where
  uncut : Uncut ns
  last : ∀ part ∈ (selectorParts ns).dropLast, ∀ n ∈ (Node.trim part).getLast?, n.isBlock = false

theorem whole_iff : Whole ns ↔ Uncut ns ∧
    ∀ part ∈ (selectorParts ns).dropLast, ∀ n ∈ (Node.trim part).getLast?, n.isBlock = false :=
  ⟨fun ⟨hu, hl⟩ => ⟨hu, hl⟩, fun ⟨hu, hl⟩ => ⟨hu, hl⟩⟩

instance (ns : List Node) : Decidable (Whole ns) := decidable_of_iff _ whole_iff.symm

theorem of_mem_splitCommas (h : part ∈ splitCommas ns) :
    ∀ n ∈ part, n.isLeaf (· = .comma) = false := by
  induction ns generalizing part with
  | nil =>
    obtain rfl := List.mem_singleton.1 h
    simp
  | cons n ns ih =>
    obtain ⟨first, parts, hs, -⟩ := exists_splitCommas ns
    rw [splitCommas] at h
    rw [hs] at h ih
    split at h
    · rcases List.mem_cons.1 h with rfl | h
      · simp
      · exact ih h
    · rename_i hn
      rcases List.mem_cons.1 h with rfl | h
      · intro m hm
        rcases List.mem_cons.1 hm with rfl | hm
        · simpa using hn
        · exact ih List.mem_cons_self m hm
      · exact ih (List.mem_cons_of_mem _ h)

/-- The first part starts with the first node, if that is neither white space nor a comma. -/
theorem selectorParts_cons (h : Written b (n :: body)) (hn : n.isBlank = false)
    (hc : n.isLeaf (· = .comma) = false) :
    ∃ more parts, selectorParts (n :: body) = (n :: more) :: parts ∧ more <+: body := by
  obtain ⟨more, parts, hs, hp, -⟩ := exists_splitCommas body
  have hpart : Written b (n :: more) := h.of_infix (List.cons_prefix_cons.2 ⟨rfl, hp⟩).isInfix
  have hne := Css.collapse_ne hpart (by simp [Node.trim_cons hn])
  refine ⟨more, parts.filter fun part => !(Text.collapse (Node.source part)).isEmpty, ?_, hp⟩
  rw [selectorParts, splitCommas, hs]
  simp [hc, hne]

theorem spellsSelectors (h : Written b ns)
    (he : ∀ n ∈ ns, endsStatement n = false ∧ isCharset n = false) (hu : Uncut ns)
    (hf : selectors ns = .ok found) : List.Forall₂ (SpellsSelector b) found
      ((selectorParts ns).map fun part => (Node.trim part).map Node.squeezed) := by
  rw [selectors_eq_map hu hf, List.forall₂_map_left_iff, List.forall₂_map_right_iff,
    List.forall₂_same]
  intro part hm
  obtain ⟨hpart, hne⟩ := List.mem_filter.1 hm
  have htaken := infix_of_mem_splitCommas hpart
  have hends := fun n hn => he n (htaken.mem hn)
  refine ⟨⟨by simpa using hne, Text.stored_collapse _⟩, Css.spells_collapse (h.of_infix htaken), ?_, ?_, ?_⟩
  · apply forall_squeezed
    intro n hn
    rw [isComma_squeezed]
    exact of_mem_splitCommas hpart n hn
  · apply forall_squeezed
    intro n hn
    rw [endsStatement_squeezed]
    exact (hends n hn).1
  · apply forall_squeezed
    intro n hn
    rw [isCharset_squeezed]
    exact (hends n hn).2

/-- A style rule holds in its canonical text if its block does. -/
theorem rulesHold_selectors (h : Written b (n :: body))
    (he : ∀ m ∈ n :: body, endsStatement m = false ∧ isCharset m = false)
    (hcomma : n.isLeaf (· = .comma) = false) (hw : Whole (n :: body)) (hg : role.isGap n = false)
    (hs : role.StartsStyle n body) (hf : selectors (n :: body) = .ok found)
    (hc : c.Hold (.block true) (some .curly)) (line : Nat) :
    RulesHold role b [.style found c.declarations c.rules line] := by
  have hblank : n.isBlank = false := by
    rw [← Bool.not_eq_true] at hg ⊢
    exact fun hb => hg (isGap_of_isBlank hb role)
  obtain ⟨more, parts, hparts, hp⟩ := selectorParts_cons h hblank hcomma
  have hspells := spellsSelectors h he hw.uncut hf
  have hlast : ∀ part ∈ ((selectorParts (n :: body)).map fun part =>
      (Node.trim part).map Node.squeezed).dropLast, ∀ m ∈ part.getLast?, m.isBlock = false := by
    intro part hpart m hm
    rw [← List.map_dropLast] at hpart
    obtain ⟨nodes, hnodes, rfl⟩ := List.mem_map.1 hpart
    rw [List.getLast?_map] at hm
    obtain ⟨k, hk, rfl⟩ := Option.mem_map.1 hm
    rw [isBlock_squeezed]
    exact hw.last nodes hnodes k hk
  rw [hparts, List.map_cons, Node.trim_cons hblank more, List.map_cons] at hspells hlast
  exact rulesHold_style hspells hlast (by simpa using hg)
    (hs.squeezed ((List.rdropWhile_prefix _ _).trans hp)) hc line

end SheetDiff
