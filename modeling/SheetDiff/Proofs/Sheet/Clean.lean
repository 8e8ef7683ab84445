import SheetDiff.Proofs.Sheet.Agreement

/-!
# Sheets read statement by statement

Where no declaration holds a block in curly brackets, what the parser reads without a fault is what
`clean` reads statement by statement (`clean_eq_some_iff`).
-/

namespace SheetDiff

open Css (Kind Node Token)

variable {role : Role} {nested : Bool} {n m b : Node}
variable {ns ms rest rest' body : List Node} {stop : Option Node}

/-! ## Statements of a list -/

/-- Comments of a gap. -/
theorem Role.comments_cons (role : Role) (n : Node) (ns : List Node) :
    role.comments (n :: ns) = (role.comments [n]).append (role.comments ns) := by
  cases role with
  | rules => simp [Role.comments, Contents.append, commentRules_cons n ns]
  | block nested => rfl

@[simp] theorem Role.comments_nil (role : Role) : role.comments [] = .empty := by
  cases role <;> rfl

/-- A gap before a statement adds its comments. -/
theorem Statement.clean_gap (hg : role.isGap n = true) (s : Statement)
    (inner : Role → Option Contents) : Statement.clean role ⟨n :: s.nodes, s.stop⟩ inner =
      plus (some (role.comments [n])) (s.clean role inner) := by
  unfold Statement.clean
  rw [List.takeWhile_cons_of_pos hg, List.dropWhile_cons_of_pos hg, Role.comments_cons, ← plus_assoc]
  rfl

theorem clean_gap (hg : role.isGap n = true) (ns : List Node) :
    clean role (n :: ns) = plus (some (role.comments [n])) (clean role ns) := by
  cases hn : endsStatement n with
  | true =>
    have hcomments : role.comments [n] = .empty := by
      cases n with
      | block opener inner closer => cases role <;> rfl
      | leaf t =>
        obtain ⟨kind, source, line⟩ := t
        obtain rfl : kind = .semicolon := kind_of_endsStatement hn
        cases role <;> rfl
    rw [clean_cons_of_endsStatement hn, hcomments]
    simp [Statement.clean, hg]
  | false =>
    obtain ⟨ms, hms, rfl | ⟨b, rest, hb, rfl⟩⟩ := exists_cut endsStatement ns
    · have hall : ∀ m ∈ n :: ns, endsStatement m = false := by simpa [hn] using hms
      rw [clean_open hall, clean_open hms]
      exact Statement.clean_gap hg ⟨ns, none⟩ _
    · have hall : ∀ m ∈ n :: ms, endsStatement m = false := by simpa [hn] using hms
      rw [← List.cons_append, clean_statement hall hb, clean_statement hms hb, ← plus_assoc]
      exact congrArg (plus · _) (Statement.clean_gap hg ⟨ms, some b⟩ _)

/-- A list is the statement it starts with and the list behind that. -/
theorem clean_cut (hn : endsStatement n = false) (rest : List Node) :
    clean role (n :: rest) = plus
      (Statement.clean role ⟨n :: (cutAt endsStatement rest).nodes, (cutAt endsStatement rest).stop⟩
        fun inside => clean inside (((cutAt endsStatement rest).stop.map Node.inner).getD []))
      (clean role (cutAt endsStatement rest).rest) := by
  obtain ⟨ms, hms, rfl | ⟨b, rest, hb, rfl⟩⟩ := exists_cut endsStatement rest
  · have hall : ∀ m ∈ n :: rest, endsStatement m = false := by simpa [hn] using hms
    rw [cutAt_of_not hms, clean_open hall]
    simp
  · have hall : ∀ m ∈ n :: ms, endsStatement m = false := by simpa [hn] using hms
    rw [cutAt_append hms hb, ← List.cons_append, clean_statement hall hb]
    rfl

theorem Ordinary.usual (h : Ordinary ns) (role : Role) : role.Usual ns := by
  intro _ n hn
  cases n with
  | block opener inner closer => rfl
  | leaf t =>
    refine isCharset_leaf_eq_false.2 (h.charset t ?_)
    rw [Node.allTokens_eq_flatMap, List.mem_flatMap]
    exact ⟨_, hn, List.mem_singleton.2 rfl⟩

theorem Ordinary.inner (h : Ordinary ns) (hn : n ∈ ns) : Ordinary n.inner :=
  h.subset fun t ht => by
    rw [Node.allTokens_eq_flatMap ns, List.mem_flatMap]
    refine ⟨n, hn, ?_⟩
    cases n with
    | leaf t => simp [Node.inner, Node.allTokens] at ht
    | block opener inner closer => simp [Node.tokens, (show t ∈ Node.allTokens inner from ht)]

theorem stop_mem_cutAt {p : Node → Bool} (h : (cutAt p ns).stop = some b) : b ∈ ns := by
  refine (prefix_of_cutAt p ns).subset ?_
  rw [h]
  simp

private theorem sizeOf_stop_inner_lt (ns : List Node) :
    sizeOf (((cutAt endsStatement ns).stop.map Node.inner).getD []) < 1 + sizeOf ns := by
  cases hs : (cutAt endsStatement ns).stop with
  | none =>
    have h := sizeOf_suffix_le (List.nil_suffix (l := ns))
    simp only [Option.map_none, Option.getD_none]
    omega
  | some b =>
    have h := sizeOf_inner_lt_of_mem (stop_mem_cutAt hs)
    simp only [Option.map_some, Option.getD_some]
    omega

/-- A list that starts with a spoilt item is at fault or has a declaration with a block. -/
private theorem spoilt_list (hg : role.isGap n = false) (ho : Ordinary (n :: rest))
    (hs : Spoilt (role.readItem n rest)) :
    role.result (n :: rest) = none ∨ ¬ role.NoBraced (n :: rest) := by
  have hu := ho.usual role
  have hur : role.Usual (role.readItem n rest).2.rest :=
    hu.sublist ((suffix_of_readItem role n rest).trans (List.suffix_cons n rest)).sublist
  rcases hs with ⟨e, he⟩ | ⟨d, hd, hb⟩
  · left
    have hitem : (role.item n rest).result role = none := Item.result_fault he
    rw [result_item hg hu hur, hitem]
    rfl
  · right
    rw [noBraced_item hg hu hur]
    intro h
    have hnodes : (role.item n rest).nodes.any Node.isBraces = false := h.1.1 d hd
    have hb' : (role.item n rest).nodes.any Node.isBraces = true := hb
    simp [hb'] at hnodes

private theorem clean_endsStatement (hn : endsStatement n = true) (hg : role.isGap n = false)
    (rest : List Node) : clean role (n :: rest) = none := by
  rw [clean_cons_of_endsStatement hn]
  simp [Statement.clean, hg, plus]

theorem inner_of_endsStatement (h : endsStatement b = true) (hb : b.isBraces = false) :
    b.inner = [] := by
  cases b with
  | leaf t => rfl
  | block opener inner closer =>
    have hs : (Node.block opener inner closer).isSemicolon = true := by simpa [endsStatement, hb] using h
    simp [Node.isSemicolon, Node.isLeaf, Node.isBlock] at hs

theorem Statement.clean_cons (hg : role.isGap n = false) (body : List Node) (stop : Option Node)
    (inner : Role → Option Contents) : Statement.clean role ⟨n :: body, stop⟩ inner =
      (role.read n body stop).bind fun reading => (inner (role.inside reading)).map
        (role.contents (Text.collapse (Node.source body)) (stop.any Node.isBraces) reading) := by
  simp [Statement.clean, hg]

/-- The nodes of the block that ends a statement. -/
private theorem item_inner {r : Reading} (hr : role.read n body stop = some r)
    (hs : ∀ b ∈ stop, endsStatement b = true) (line : Nat) (ms : List Node) :
    Item.inner ⟨[], line, ms, stop, r⟩ = (stop.map Node.inner).getD [] := by
  obtain ⟨hfault, hdeclaration⟩ := of_read hr
  cases r with
  | fault e => exact absurd rfl (hfault e)
  | declaration d =>
    have hb := (hdeclaration d rfl).2
    cases stop with
    | none => rfl
    | some b => exact (inner_of_endsStatement (hs b rfl) (by simpa using hb)).symm
  | style found => cases stop <;> rfl
  | atRule name => cases stop <;> rfl

/-- The item that a statement is read as holds what the statement holds. -/
private theorem item_result {r : Reading} (hr : role.read n body stop = some r)
    (hs : ∀ b ∈ stop, endsStatement b = true) (line : Nat) :
    Item.result role ⟨[], line, n :: body, stop, r⟩ =
      ((role.inside r).result ((stop.map Node.inner).getD [])).map
        (role.contents (Text.collapse (Node.source body)) (stop.any Node.isBraces) r) := by
  obtain ⟨hfault, hdeclaration⟩ := of_read hr
  have hin := item_inner hr hs line (n :: body)
  have hopen : Item.hasBlock ⟨[], line, n :: body, stop, r⟩ = false →
      Item.inner ⟨[], line, n :: body, stop, r⟩ = [] := by
    intro hb
    rw [hin]
    cases stop with
    | none => rfl
    | some b => exact inner_of_endsStatement (hs b rfl) hb
  rw [Item.result_eq rfl hfault (fun h d hd => (hdeclaration d hd).1 h) hopen, hin]
  rfl

private theorem item_noBraced {r : Reading} (hr : role.read n body stop = some r)
    (hs : ∀ b ∈ stop, endsStatement b = true) (hbody : ∀ m ∈ n :: body, endsStatement m = false)
    (line : Nat) : Item.Every Unbraced role ⟨[], line, n :: body, stop, r⟩ ↔
      (role.inside r).NoBraced ((stop.map Node.inner).getD []) := by
  have hnodes : (n :: body).any Node.isBraces = false := by
    refine List.any_eq_false.2 fun m hm => ?_
    simp [not_narrow (fun _ => endsStatement_of_isBraces) (hbody m hm)]
  rw [Item.Every, item_inner hr hs line (n :: body)]
  exact ⟨fun h => h.2, fun h => ⟨fun _ _ => hnodes, h⟩⟩

/-- Nodes are read statement by statement as they are read item by item, where nothing is at fault and
no declaration holds a block. -/
theorem clean_eq_some_iff (role : Role) (ns : List Node) (ho : Ordinary ns) (c : Contents) :
    clean role ns = some c ↔ role.result ns = some c ∧ role.NoBraced ns := by
  cases ns with
  | nil => simp
  | cons n rest =>
    have hrest : Ordinary rest := ho.sublist (List.sublist_cons_self n rest)
    cases hg : role.isGap n with
    | true =>
      have ih := clean_eq_some_iff role rest hrest
      rw [clean_gap hg, result_gap hg (ho.usual role), noBraced_gap hg (ho.usual role), plus_eq_some,
        plus_eq_some]
      simp only [ih]
      constructor
      · rintro ⟨x, y, hx, ⟨hy, hb⟩, rfl⟩
        exact ⟨⟨x, y, hx, hy, rfl⟩, hb⟩
      · rintro ⟨⟨x, y, hx, hy, rfl⟩, hb⟩
        exact ⟨x, y, hx, ⟨hy, hb⟩, rfl⟩
    | false =>
      cases hn : endsStatement n with
      | true =>
        rw [clean_endsStatement hn hg]
        rcases spoilt_list hg ho (.inl (fault_of_endsStatement hn hg rest)) with h | h
        · simp [h]
        · simp [h]
      | false =>
        have hread := agrees_read hn hg hrest
        rw [clean_cut hn, Statement.clean_cons hg]
        cases hr : role.read n (cutAt endsStatement rest).nodes (cutAt endsStatement rest).stop with
        | none =>
          rw [hr] at hread
          rw [Option.bind_none, none_plus]
          rcases spoilt_list hg ho hread with h | h
          · simp [h]
          · simp [h]
        | some r =>
          have hitem : role.readItem n rest = (r, (cutAt endsStatement rest).cons n) := by
            rw [hr] at hread
            exact hread
          have hstop : ∀ b ∈ (cutAt endsStatement rest).stop, endsStatement b = true :=
            fun b hb => of_mem_stop hb
          have hbody : ∀ m ∈ n :: (cutAt endsStatement rest).nodes, endsStatement m = false := by
            simpa [hn] using fun m hm => of_mem_cutAt (p := endsStatement) hm
          have hin : role.item n rest = ⟨[], n.first.line, n :: (cutAt endsStatement rest).nodes,
              (cutAt endsStatement rest).stop, r⟩ := by
            rw [Role.item, hitem]
            rfl
          have hsuffix : (cutAt endsStatement rest).rest <:+ rest := suffix_of_cutAt _ rest
          have htail : Ordinary (cutAt endsStatement rest).rest := hrest.sublist hsuffix.sublist
          have hu := ho.usual role
          have hur : role.Usual (role.readItem n rest).2.rest := by
            rw [hitem]
            exact htail.usual role
          have hinner : Ordinary (((cutAt endsStatement rest).stop.map Node.inner).getD []) := by
            cases hs : (cutAt endsStatement rest).stop with
            | none => exact hrest.sublist (List.nil_sublist rest)
            | some b => exact hrest.inner (stop_mem_cutAt hs)
          have ih₁ := clean_eq_some_iff (role.inside r)
            (((cutAt endsStatement rest).stop.map Node.inner).getD []) hinner
          have ih₂ := clean_eq_some_iff role (cutAt endsStatement rest).rest htail
          rw [result_item hg hu hur, noBraced_item hg hu hur, hin, item_result hr hstop,
            item_noBraced hr hstop hbody, hitem, Option.bind_some, plus_eq_some, plus_eq_some]
          simp only [Option.map_eq_some_iff, Cut.cons]
          constructor
          · rintro ⟨_, y, ⟨x, hx, rfl⟩, hy, rfl⟩
            obtain ⟨hx, hbx⟩ := (ih₁ x).1 hx
            obtain ⟨hy, hby⟩ := (ih₂ y).1 hy
            exact ⟨⟨_, y, ⟨x, hx, rfl⟩, hy, rfl⟩, hbx, hby⟩
          · rintro ⟨⟨_, y, ⟨x, hx, rfl⟩, hy, rfl⟩, hbx, hby⟩
            exact ⟨_, y, ⟨x, (ih₁ x).2 ⟨hx, hbx⟩, rfl⟩, (ih₂ y).2 ⟨hy, hby⟩, rfl⟩
termination_by sizeOf ns
decreasing_by
  all_goals
    have hlt := sizeOf_stop_inner_lt rest
    have hle := sizeOf_suffix_le (suffix_of_cutAt endsStatement rest)
    subst_vars
    simp only [List.cons.sizeOf_spec]
    omega

end SheetDiff
