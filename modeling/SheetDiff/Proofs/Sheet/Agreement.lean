import SheetDiff.Proofs.Sheet.Faults

/-!
# Statements and items

An item of the parser that is at fault or holds a block in a declaration is spoilt. Where the item
that starts with a node is not, it is the statement that starts there, read alike (`agrees_read`).
-/

namespace SheetDiff

open Css (Kind Node Token)

variable {role : Role} {nested : Bool} {n m b : Node}
variable {ns ms rest rest' body : List Node} {stop : Option Node}

/-! ## Statements and items -/

/-- An item that is at fault, or a declaration with a block in curly brackets. -/
def Spoilt (found : Reading × Cut) : Prop :=
  (∃ e, found.1 = .fault e) ∨ ∃ d, found.1 = .declaration d ∧ found.2.nodes.any Node.isBraces = true

theorem endsStatement_of_isSemicolon (h : n.isSemicolon = true) : endsStatement n = true := by
  simp [endsStatement, h]

theorem endsStatement_of_isBraces (h : n.isBraces = true) : endsStatement n = true := by
  simp [endsStatement, h]

theorem isBraces_of_endsStatement (h : endsStatement n = true) (hs : n.isSemicolon = false) :
    n.isBraces = true := by
  simpa [endsStatement, hs] using h

theorem isSemicolon_of_isBraces (h : n.isBraces = true) : n.isSemicolon = false := by
  cases n with
  | leaf t => simp [Node.isBraces, Node.isBlock] at h
  | block opener inner closer => simp [Node.isSemicolon, Node.isLeaf, Node.isBlock]

theorem kind_of_endsStatement {t : Token} (h : endsStatement (.leaf t) = true) :
    t.kind = .semicolon := by
  have hd : (decide (t.kind = .semicolon) || false) = true := h
  rw [Bool.or_false] at hd
  exact of_decide_eq_true hd

theorem cutAt_cons_of_not {p : Node → Bool} (h : p n = false) (ns : List Node) :
    cutAt p (n :: ns) = (cutAt p ns).cons n := by
  simp [cutAt, Cut.cons, h]

theorem not_narrow {p : Node → Bool} (hp : ∀ m, p m = true → endsStatement m = true)
    (h : endsStatement m = false) : p m = false := by
  cases hm : p m with
  | false => rfl
  | true => simp [hp m hm] at h

/-- Where the end of a statement is in a narrower class, the narrower class cuts there as well. -/
theorem cutAt_narrow {p : Node → Bool} (hp : ∀ m, p m = true → endsStatement m = true)
    (h : ∀ b ∈ (cutAt endsStatement ns).stop, p b = true) :
    cutAt p ns = cutAt endsStatement ns := by
  obtain ⟨ms, hms, rfl | ⟨b, rest, hb, rfl⟩⟩ := exists_cut endsStatement ns
  · rw [cutAt_of_not hms, cutAt_of_not fun m hm => not_narrow hp (hms m hm)]
  · rw [cutAt_append hms hb] at h ⊢
    exact cutAt_append (fun m hm => not_narrow hp (hms m hm)) (h b rfl) rest

theorem styleOf_eq_some {r : Reading} (h : styleOf n body stop = some r) :
    ∃ found, r = .style found ∧ styleReading ⟨n :: body, stop, []⟩ = .ok found := by
  unfold styleOf at h
  split at h
  · rename_i found hf
    exact ⟨found, (Option.some.inj h).symm, hf⟩
  · simp at h

theorem selectors_ne_ok (h : ns.any Node.isSemicolon = true) (found : List String) :
    selectors (n :: ns) ≠ .ok found := by
  simp [selectors, h]

/-- A statement that ends with a semicolon is no part of what stands before a block. -/
private theorem any_isSemicolon_cutAt (hs : ¬(cutAt endsStatement ns).stop.any Node.isBraces = true)
    (hb : (cutAt Node.isBraces ns).stop = some b) :
    (cutAt Node.isBraces ns).nodes.any Node.isSemicolon = true := by
  obtain ⟨ms, hms, rfl | ⟨k, rest, hk, rfl⟩⟩ := exists_cut endsStatement ns
  · rw [cutAt_of_not fun m hm => not_narrow (fun _ => endsStatement_of_isBraces) (hms m hm)] at hb
    simp at hb
  · rw [cutAt_append hms hk] at hs
    have hkb : k.isBraces = false := by simpa using hs
    have hks : k.isSemicolon = true := by simpa [endsStatement, hkb] using hk
    have hnot : ∀ m ∈ ms ++ [k], (!m.isBraces) = true := by
      intro m hm
      rcases List.mem_append.1 hm with hm | hm
      · simp [not_narrow (fun _ => endsStatement_of_isBraces) (hms m hm)]
      · simp [List.mem_singleton.1 hm, hkb]
    have hmem : k ∈ (cutAt Node.isBraces (ms ++ k :: rest)).nodes := by
      simp only [cutAt]
      rw [List.append_cons, List.takeWhile_append_of_pos hnot]
      simp
    exact List.any_eq_true.2 ⟨k, hmem, hks⟩

/-- Nodes of a sheet in which brackets are written as such and no character set statement starts. -/
structure Ordinary (ns : List Node) : Prop where
  brace : ∀ t ∈ Node.allTokens ns, t.kind = .opening .curly → t.source = ['\x7b']
  charset : ∀ t ∈ Node.allTokens ns, ∀ name, t.kind = .atKeyword name → name.toLower ≠ "charset"

theorem kind_of_isBraces {opener : Token} {inner : List Node} {closer : Option Token}
    (h : (Node.block opener inner closer).isBraces = true) : opener.kind = .opening .curly :=
  of_decide_eq_true h

theorem Ordinary.subset (h : Ordinary ns) (hs : Node.allTokens ms ⊆ Node.allTokens ns) :
    Ordinary ms :=
  ⟨fun t ht => h.brace t (hs ht), fun t ht => h.charset t (hs ht)⟩

theorem Ordinary.sublist (h : Ordinary ns) (hs : ms.Sublist ns) : Ordinary ms :=
  h.subset fun t ht => by
    rw [Node.allTokens_eq_flatMap, List.mem_flatMap] at ht ⊢
    obtain ⟨m, hm, ht⟩ := ht
    exact ⟨m, hs.mem hm, ht⟩

theorem Ordinary.collapse_ne (h : Ordinary ns) (hb : ns.any Node.isBraces = true) :
    Text.collapse (Node.source ns) ≠ "" := by
  obtain ⟨b, hm, hbr⟩ := List.any_eq_true.1 hb
  obtain ⟨xs, ys, rfl⟩ := List.append_of_mem hm
  cases b with
  | leaf t => simp [Node.isBraces, Node.isBlock] at hbr
  | block opener inner closer =>
    have ho : opener.source = ['\x7b'] := by
      refine h.brace opener ?_ (kind_of_isBraces hbr)
      simp [Node.allTokens_append, Node.allTokens, Node.tokens]
    refine Text.collapse_ne_empty (c := '\x7b') ?_ (by decide)
    simp [Node.source_append, Node.source_cons, Node.tokens, ho]

/-- A statement that is not at fault is read as an item; any other one is a spoilt item. -/
def Agrees (found : Option Reading) (c : Cut) (item : Reading × Cut) : Prop :=
  match found with
  | some r => item = (r, c)
  | none => Spoilt item

private theorem agrees_styleOf (h : styleReading ⟨n :: body, stop, []⟩ = styleReading c) :
    Agrees (styleOf n body stop) c (.ofStyle (styleReading c), c) := by
  unfold styleOf
  rw [h]
  cases hs : styleReading c with
  | ok found => rfl
  | error e => exact .inl ⟨e, rfl⟩

/-- The line of a statement that ends with a block goes on behind that block. -/
theorem nodes_of_braces (hb : (cutAt endsStatement ns).stop.any Node.isBraces = true) :
    ∃ b more, (cutAt Node.isSemicolon ns).nodes = (cutAt endsStatement ns).nodes ++ b :: more ∧
      b.isBraces = true := by
  obtain ⟨ms, hms, rfl | ⟨b, rest, hbe, rfl⟩⟩ := exists_cut endsStatement ns
  · rw [cutAt_of_not hms] at hb
    simp at hb
  · rw [cutAt_append hms hbe] at hb ⊢
    have hbr : b.isBraces = true := hb
    have hnot : ∀ m ∈ ms ++ [b], (!m.isSemicolon) = true := by
      intro m hm
      rcases List.mem_append.1 hm with hm | hm
      · simp [not_narrow (fun _ => endsStatement_of_isSemicolon) (hms m hm)]
      · simp [List.mem_singleton.1 hm, isSemicolon_of_isBraces hbr]
    refine ⟨b, rest.takeWhile (!·.isSemicolon), ?_, hbr⟩
    simp only [cutAt]
    rw [List.append_cons, List.takeWhile_append_of_pos hnot, List.append_assoc]
    rfl

theorem dropWhile_append_cons {p : Node → Bool} (hb : p b = false) (ms more : List Node) :
    (ms ++ b :: more).dropWhile p = ms.dropWhile p ++ b :: more := by
  rw [List.dropWhile_append]
  split
  · rename_i h
    rw [List.isEmpty_iff.1 h]
    simp [hb]
  · rfl

theorem isLeaf_of_isBraces (h : b.isBraces = true) (q : Kind → Bool) : b.isLeaf q = false := by
  cases b with
  | leaf t => simp [Node.isBraces, Node.isBlock] at h
  | block opener inner closer => rfl

/-- A custom property may have a block in its value. -/
theorem declarationReading_custom (nested : Bool) {property : String} {more : List Node}
    (hs : startsCustom property ms = true) (hb : b.isBraces = true) (ho : Ordinary (ms ++ b :: more)) :
    ∃ d, declarationReading nested property (ms ++ b :: more) = .ok d := by
  have hsp : b.isSpacing = false := isLeaf_of_isBraces hb _
  simp only [startsCustom, Bool.and_eq_true] at hs
  unfold declarationReading
  rw [dropWhile_append_cons hsp]
  cases hd : ms.dropWhile Node.isSpacing with
  | nil => simp [hd] at hs
  | cons m rest =>
    have hm : m.isLeaf (· = .colon) = true := by simpa [hd] using hs.2
    have hrest : Ordinary (rest ++ b :: more) := by
      refine ho.sublist (List.Sublist.append_right ?_ _)
      exact ((List.sublist_cons_self m rest).trans (hd ▸ List.dropWhile_sublist _))
    have hne := hrest.collapse_ne (by simp [hb])
    simp [hm, hs.1, hne]

/-- What is no custom property may not have a block in its value where rules nest. -/
theorem declarationReading_braces {property : String} {more : List Node}
    (hs : startsCustom property ms = false) (hb : b.isBraces = true) :
    ∃ e, declarationReading true property (ms ++ b :: more) = .error e := by
  have hsp : b.isSpacing = false := isLeaf_of_isBraces hb _
  unfold declarationReading
  rw [dropWhile_append_cons hsp]
  cases hd : ms.dropWhile Node.isSpacing with
  | nil => simp [isLeaf_of_isBraces hb]
  | cons m rest =>
    rw [List.cons_append]
    cases hm : m.isLeaf (· = .colon) with
    | false => simp [hm]
    | true =>
      have hcustom : ['-', '-'].isPrefixOf property.toList = false := by
        simpa [startsCustom, hd, hm] using hs
      simp [hm, hcustom, hb]

section Reads

variable (hn : endsStatement n = false)

include hn

/-- A style rule of a rule list starts with the statement that starts there. -/
private theorem agrees_ruleItem (hat : ∀ name source line, n ≠ .leaf ⟨.atKeyword name, source, line⟩) :
    Agrees (styleOf n (cutAt endsStatement rest).nodes (cutAt endsStatement rest).stop)
      ((cutAt endsStatement rest).cons n) (readRuleItem n rest) := by
  have hread : readRuleItem n rest = (.ofStyle (styleReading (cutAt Node.isBraces (n :: rest))),
      cutAt Node.isBraces (n :: rest)) := by
    unfold readRuleItem
    split
    · rename_i name source line
      exact absurd rfl (hat name source line)
    · rfl
  have hnb : n.isBraces = false := not_narrow (fun _ => endsStatement_of_isBraces) hn
  rw [hread, cutAt_cons_of_not hnb]
  cases hb : (cutAt endsStatement rest).stop.any Node.isBraces with
  | true =>
    have hc : cutAt Node.isBraces rest = cutAt endsStatement rest := by
      refine cutAt_narrow (fun _ => endsStatement_of_isBraces) fun b hs => ?_
      rwa [Option.mem_def.1 hs] at hb
    rw [hc]
    exact agrees_styleOf rfl
  | false =>
    have hnone : styleOf n (cutAt endsStatement rest).nodes (cutAt endsStatement rest).stop = none := by
      unfold styleOf
      cases hs : styleReading ⟨n :: (cutAt endsStatement rest).nodes,
          (cutAt endsStatement rest).stop, []⟩ with
      | error e => rfl
      | ok found =>
        obtain ⟨⟨b, hbs, hbr⟩, -⟩ := styleReading_ok hs
        simp only at hbs
        simp [hbs, hbr] at hb
    rw [hnone]
    cases hs : styleReading ((cutAt Node.isBraces rest).cons n) with
    | error e => exact .inl ⟨e, rfl⟩
    | ok found =>
      obtain ⟨⟨b, hbs, -⟩, hsel⟩ := styleReading_ok hs
      exact absurd hsel (selectors_ne_ok (any_isSemicolon_cutAt (by simp [hb]) hbs) found)

/-- What starts with a name in a block, when its statement does not end with a block. -/
private theorem agrees_named_open (nested : Bool) (property : String)
    (hb : (cutAt endsStatement rest).stop.any Node.isBraces = false) :
    Agrees ((declarationReading nested property (cutAt endsStatement rest).nodes).toOption.map
        Reading.declaration) ((cutAt endsStatement rest).cons n)
      (readNamed nested property (cutAt endsStatement (n :: rest))
        ((cutAt Node.isSemicolon rest).cons n)) := by
  have hc : cutAt Node.isSemicolon rest = cutAt endsStatement rest := by
    refine cutAt_narrow (fun _ => endsStatement_of_isSemicolon) fun b hs => ?_
    have hbb : b.isBraces = false := by simpa [Option.mem_def.1 hs] using hb
    simpa [endsStatement, hbb] using of_mem_stop hs
  have hstyle : ∃ e, styleReading ((cutAt endsStatement rest).cons n) = .error e := by
    cases hs : styleReading ((cutAt endsStatement rest).cons n) with
    | error e => exact ⟨e, rfl⟩
    | ok found =>
      obtain ⟨⟨b, hbs, hbr⟩, -⟩ := styleReading_ok hs
      have hbs' : (cutAt endsStatement rest).stop = some b := hbs
      simp [hbs', hbr] at hb
  obtain ⟨e, he⟩ := hstyle
  rw [hc, cutAt_cons_of_not hn]
  unfold readNamed
  simp only [Cut.cons, List.tail_cons] at he ⊢
  cases declarationReading nested property (cutAt endsStatement rest).nodes with
  | ok d => rfl
  | error f =>
    simp only [he]
    split
    · exact .inl ⟨f, rfl⟩
    · exact .inl ⟨f, rfl⟩

/-- What starts with a name in a block, when its statement ends with a block. -/
private theorem agrees_named_braces {property : String} (ho : Ordinary rest)
    (hb : (cutAt endsStatement rest).stop.any Node.isBraces = true) :
    Agrees (if nested && !startsCustom property (cutAt endsStatement rest).nodes then
        styleOf n (cutAt endsStatement rest).nodes (cutAt endsStatement rest).stop else none)
      ((cutAt endsStatement rest).cons n)
      (readNamed nested property (cutAt endsStatement (n :: rest))
        ((cutAt Node.isSemicolon rest).cons n)) := by
  obtain ⟨b, more, hline, hbr⟩ := nodes_of_braces hb
  have hany : ((cutAt Node.isSemicolon rest).cons n).nodes.any Node.isBraces = true := by
    simp [Cut.cons, hline, hbr]
  have hol : Ordinary ((cutAt endsStatement rest).nodes ++ b :: more) :=
    hline ▸ ho.sublist (List.takeWhile_sublist _)
  rw [cutAt_cons_of_not hn]
  unfold readNamed
  rw [show ((cutAt Node.isSemicolon rest).cons n).nodes.tail =
    (cutAt endsStatement rest).nodes ++ b :: more from hline]
  cases nested with
  | false =>
    cases declarationReading false property ((cutAt endsStatement rest).nodes ++ b :: more) with
    | ok d => exact .inr ⟨d, rfl, hany⟩
    | error f => exact .inl ⟨f, rfl⟩
  | true =>
    cases hs : startsCustom property (cutAt endsStatement rest).nodes with
    | true =>
      obtain ⟨d, hd⟩ := declarationReading_custom true hs hbr hol
      rw [hd]
      exact .inr ⟨d, rfl, hany⟩
    | false =>
      obtain ⟨e, he⟩ := declarationReading_braces hs hbr
      have hst : styleReading ((cutAt endsStatement rest).cons n) =
          styleReading ⟨n :: (cutAt endsStatement rest).nodes, (cutAt endsStatement rest).stop, []⟩ :=
        rfl
      rw [he]
      simp only [Bool.not_false, Bool.and_true, if_true]
      unfold styleOf
      rw [← hst]
      cases styleReading ((cutAt endsStatement rest).cons n) with
      | ok found => rfl
      | error f => exact .inl ⟨e, rfl⟩

/-- The statement that starts at a node is read as the item that starts there, or else that item is
spoilt. -/
theorem agrees_read (hg : role.isGap n = false) (ho : Ordinary rest) :
    Agrees (role.read n (cutAt endsStatement rest).nodes (cutAt endsStatement rest).stop)
      ((cutAt endsStatement rest).cons n) (role.readItem n rest) := by
  have hat (name : String) (stop : Option Node) (c : Cut) : Agrees
      (if (stop.any Node.isBraces || AtClass.ofName name = .optional) = true then
        some (.atRule name) else none) c (atReading name stop, c) := by
    unfold atReading
    split
    · rfl
    · exact .inl ⟨_, rfl⟩
  have hc : cutAt endsStatement (n :: rest) = (cutAt endsStatement rest).cons n :=
    cutAt_cons_of_not hn rest
  cases role with
  | rules =>
    cases n with
    | leaf t =>
      obtain ⟨kind, source, line⟩ := t
      cases kind with
      | atKeyword name =>
        simp only [Role.readItem, readRuleItem, hc]
        exact hat name _ _
      | _ => exact agrees_ruleItem hn (by simp)
    | block opener inner closer => exact agrees_ruleItem hn (by simp)
  | block nested =>
    have hstyle : Agrees (styleOf n (cutAt endsStatement rest).nodes (cutAt endsStatement rest).stop)
        ((cutAt endsStatement rest).cons n)
        (.ofStyle (styleReading ((cutAt endsStatement rest).cons n)),
          (cutAt endsStatement rest).cons n) := agrees_styleOf rfl
    have hother (k : Kind) : Agrees (if nested then
          styleOf n (cutAt endsStatement rest).nodes (cutAt endsStatement rest).stop else none)
        ((cutAt endsStatement rest).cons n)
        (if nested then (.ofStyle (styleReading ((cutAt endsStatement rest).cons n)),
          (cutAt endsStatement rest).cons n)
        else (.fault (.unexpected k), (cutAt Node.isSemicolon rest).cons n)) := by
      cases nested with
      | true => exact hstyle
      | false => exact .inl ⟨_, rfl⟩
    cases n with
    | leaf t =>
      obtain ⟨kind, source, line⟩ := t
      cases kind with
      | atKeyword name =>
        simp only [Role.readItem, readBlockItem, hc]
        exact hat name _ _
      | ident property =>
        simp only [Role.readItem, readBlockItem, Role.read]
        cases hb : (cutAt endsStatement rest).stop.any Node.isBraces with
        | true => exact agrees_named_braces hn ho hb
        | false =>
          have h := agrees_named_open hn nested property hb
          cases hd : declarationReading nested property (cutAt endsStatement rest).nodes with
          | ok d =>
            rw [hd] at h
            exact h
          | error e =>
            rw [hd] at h
            exact h
      | _ =>
        simp only [Role.readItem, readBlockItem, hc]
        cases nested with
        | true => exact hother _
        | false => exact hother _
    | block opener inner closer =>
      simp only [Role.readItem, readBlockItem, hc]
      cases nested with
      | true => exact hother opener.kind
      | false => exact hother opener.kind

end Reads

/-- A semicolon or a block where a statement should start is at fault. -/
theorem fault_of_endsStatement (hn : endsStatement n = true) (hg : role.isGap n = false)
    (rest : List Node) : ∃ e, (role.readItem n rest).1 = .fault e := by
  have hempty {p : Node → Bool} (h : p n = true) :
      ∀ found, styleReading (cutAt p (n :: rest)) ≠ .ok found := by
    intro found hs
    obtain ⟨-, hsel⟩ := styleReading_ok hs
    simp [cutAt, h, selectors, commaParts, Text.collapse, Text.words] at hsel
  have hfail (c : Cut) (h : ∀ found, styleReading c ≠ .ok found) :
      ∃ e, Reading.ofStyle (styleReading c) = .fault e := by
    cases hs : styleReading c with
    | ok found => exact absurd hs (h found)
    | error e => exact ⟨e, rfl⟩
  cases n with
  | leaf t =>
    obtain ⟨kind, source, line⟩ := t
    obtain rfl : kind = .semicolon := kind_of_endsStatement hn
    cases role with
    | rules =>
      refine hfail _ fun found hs => ?_
      obtain ⟨-, hsel⟩ := styleReading_ok hs
      have hb : Node.isBraces (.leaf ⟨.semicolon, source, line⟩) = false := rfl
      have hsm : Node.isSemicolon (.leaf ⟨.semicolon, source, line⟩) = true := rfl
      rw [cutAt_cons_of_not hb] at hsel
      simp [selectors, Cut.cons, hsm] at hsel
    | block nested =>
      simp [Role.isGap, isBlockGap, Node.isSemicolon, Node.isLeaf, Node.isBlock, Node.kind,
        Node.first] at hg
  | block opener inner closer =>
    cases role with
    | rules =>
      have hb : Node.isBraces (.block opener inner closer) = true :=
        isBraces_of_endsStatement hn rfl
      exact hfail _ (hempty hb)
    | block nested =>
      cases nested with
      | true => exact hfail _ (hempty hn)
      | false => exact ⟨_, rfl⟩

/-- A reading of a statement is no fault, and a declaration has no block. -/
theorem of_read {r : Reading} (h : role.read n body stop = some r) :
    (∀ e, r ≠ .fault e) ∧
      ∀ d, r = .declaration d → role ≠ .rules ∧ stop.any Node.isBraces = false := by
  have hstyle (h : styleOf n body stop = some r) : (∀ e, r ≠ .fault e) ∧
      ∀ d, r = .declaration d → role ≠ .rules ∧ stop.any Node.isBraces = false := by
    obtain ⟨found, rfl, -⟩ := styleOf_eq_some h
    simp
  unfold Role.read at h
  split at h
  · split at h
    · cases h
      simp
    · simp at h
  · split at h
    · split at h
      · exact hstyle h
      · simp at h
    · rename_i hb
      split at h
      · cases h
        simpa using hb
      · simp at h
  · simp at h
  · exact hstyle h

end SheetDiff
