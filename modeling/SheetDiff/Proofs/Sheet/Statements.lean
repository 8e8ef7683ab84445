import SheetDiff.Proofs.Css.Collapsed
import SheetDiff.Proofs.Sheet.Stepwise

/-!
# Statements

A rule list or a block that is read without a fault is a sequence of statements, each up to a
semicolon or a block in curly brackets. `clean` reads nodes statement by statement and knows nothing
of what happens to a statement that is at fault. It gives what the sheet holds wherever nothing is at
fault and no declaration holds such a block (`clean_eq_some_iff`).
-/

namespace SheetDiff

open Css (Kind Node Token)

/-- What nodes are read as: a rule list, or the contents of a block. -/
inductive Role where
  | rules
  | block (nested : Bool)
  deriving DecidableEq

variable {p : Node → Bool} {role : Role} {nested : Bool} {n m : Node}
variable {ns ms rest body xs ys : List Node} {stop : Option Node}

/-! ## Cuts -/

theorem cutAt_of_not (h : ∀ m ∈ ms, p m = false) : cutAt p ms = ⟨ms, none, []⟩ := by
  have hm : ∀ m ∈ ms, (!p m) = true := fun m hm => by simp [h m hm]
  have ht : (ms ++ []).takeWhile (!p ·) = ms ++ [].takeWhile (!p ·) :=
    List.takeWhile_append_of_pos hm
  have hd : (ms ++ []).dropWhile (!p ·) = [].dropWhile (!p ·) := List.dropWhile_append_of_pos hm
  simp only [List.append_nil] at ht hd
  simp [cutAt, ht, hd]

theorem cutAt_append (h : ∀ m ∈ ms, p m = false) (hn : p n = true) (rest : List Node) :
    cutAt p (ms ++ n :: rest) = ⟨ms, some n, rest⟩ := by
  have hm : ∀ m ∈ ms, (!p m) = true := fun m hm => by simp [h m hm]
  have ht : (ms ++ n :: rest).takeWhile (!p ·) = ms := by
    rw [List.takeWhile_append_of_pos hm]
    simp [hn]
  have hd : (ms ++ n :: rest).dropWhile (!p ·) = n :: rest := by
    rw [List.dropWhile_append_of_pos hm]
    simp [hn]
  simp [cutAt, ht, hd]

/-- A list is cut at a node of the class, or holds none. -/
theorem exists_cut (p : Node → Bool) (ns : List Node) : ∃ ms, (∀ m ∈ ms, p m = false) ∧
    (ns = ms ∨ ∃ n rest, p n = true ∧ ns = ms ++ n :: rest) := by
  induction ns with
  | nil => exact ⟨[], by simp, .inl rfl⟩
  | cons n ns ih =>
    by_cases hn : p n = true
    · exact ⟨[], by simp, .inr ⟨n, ns, hn, rfl⟩⟩
    · obtain ⟨ms, hms, h⟩ := ih
      have hms' : ∀ m ∈ n :: ms, p m = false := by
        simpa [hn] using hms
      rcases h with rfl | ⟨k, rest, hk, rfl⟩
      · exact ⟨n :: ns, hms', .inl rfl⟩
      · exact ⟨n :: ms, hms', .inr ⟨k, rest, hk, rfl⟩⟩

/-! ## Statements -/

/-- Nodes with the semicolon or the block that ends them, if anything does. -/
structure Statement where
  nodes : List Node
  stop : Option Node

/-- The nodes of the block that ends a statement. -/
def Statement.inner (s : Statement) : List Node := (s.stop.map Node.inner).getD []

/-- The statements of a list of nodes. -/
def statements : List Node → List Statement
  | [] => []
  | n :: ns =>
    if endsStatement n then ⟨[], some n⟩ :: statements ns
    else match statements ns with
      | [] => [⟨[n], none⟩]
      | s :: ss => ⟨n :: s.nodes, s.stop⟩ :: ss

theorem statements_append (h : ∀ m ∈ ms, endsStatement m = false) (hn : endsStatement n = true)
    (rest : List Node) : statements (ms ++ n :: rest) = ⟨ms, some n⟩ :: statements rest := by
  induction ms with
  | nil => simp [statements, hn]
  | cons m ms ih =>
    have hm := h m (by simp)
    rw [List.cons_append, statements, ih fun k hk => h k (by simp [hk])]
    simp [hm]

theorem statements_of_not (h : ∀ m ∈ n :: ms, endsStatement m = false) :
    statements (n :: ms) = [⟨n :: ms, none⟩] := by
  induction ms generalizing n with
  | nil => simp [statements, h n (by simp)]
  | cons m ms ih =>
    rw [statements, ih fun k hk => h k (List.mem_cons_of_mem _ hk)]
    simp [h n (by simp)]

private theorem stop_mem_of_mem_statements {s : Statement} (hs : s ∈ statements ns)
    (hb : s.stop = some n) : n ∈ ns := by
  induction ns generalizing s with
  | nil => simp [statements] at hs
  | cons m ms ih =>
    unfold statements at hs
    split at hs
    · rcases List.mem_cons.1 hs with rfl | hs
      · simp [Option.some.inj hb]
      · exact List.mem_cons_of_mem _ (ih hs hb)
    · split at hs
      · obtain rfl := List.mem_singleton.1 hs
        simp at hb
      · rename_i s' ss heq
        rcases List.mem_cons.1 hs with rfl | hs
        · exact List.mem_cons_of_mem _ (ih (s := s') (by simp [heq]) hb)
        · exact List.mem_cons_of_mem _ (ih (by simp [heq, hs]) hb)

/-! ## Reading a statement -/

/-- What is skipped between the statements of a list. -/
def Role.isGap : Role → Node → Bool
  | .rules => isRuleGap
  | .block _ => isBlockGap

theorem isGap_of_isBlank (h : n.isBlank = true) (role : Role) : role.isGap n = true := by
  cases n with
  | block opener inner closer => simp [Node.isBlank, Node.isLeaf, Node.isBlock] at h
  | leaf t =>
    have hk : t.kind = .whitespace := of_decide_eq_true h
    cases role <;> simp [Role.isGap, isRuleGap, isBlockGap, Node.isSpacing, Node.isLeaf, Node.isBlock,
      Node.kind, Node.first, hk, Kind.isRuleGap, Kind.isSpacing]

/-- Reads a style rule. -/
def styleOf (n : Node) (body : List Node) (stop : Option Node) : Option Reading :=
  match styleReading ⟨n :: body, stop, []⟩ with
  | .ok found => some (.style found)
  | .error _ => none

/-- Whether a name and the nodes behind it start the declaration of a custom property. -/
def startsCustom (property : String) (body : List Node) : Bool :=
  ['-', '-'].isPrefixOf property.toList &&
    (body.dropWhile Node.isSpacing).head?.any (·.isLeaf (· = .colon))

/-- Reads the statement that starts with `n`, unless it is at fault or a declaration with a block. -/
def Role.read (role : Role) (n : Node) (body : List Node) (stop : Option Node) : Option Reading :=
  match n, role with
  | .leaf ⟨.atKeyword name, _, _⟩, _ =>
    if stop.any Node.isBraces || AtClass.ofName name = .optional then some (.atRule name) else none
  | .leaf ⟨.ident property, _, _⟩, .block nested =>
    if stop.any Node.isBraces then
      if nested && !startsCustom property body then styleOf n body stop else none
    else match declarationReading nested property body with
      | .ok d => some (.declaration d)
      | .error _ => none
  | _, .block false => none
  | _, _ => styleOf n body stop

/-- What the block behind a reading is read as. -/
def Role.inside (role : Role) : Reading → Role
  | .atRule name =>
    if AtClass.ofName name = .declarations then .block false
    else if role = .rules then .rules else .block true
  | _ => .block true

/-- The block of an item of a block is read as its reading says. -/
theorem inside_block (nested : Bool) (item : Item) :
    (Role.block nested).inside item.reading = .block item.nests := by
  unfold Item.nests
  cases item.reading with
  | atRule name => by_cases hc : AtClass.ofName name = .declarations <;> simp [Role.inside, hc]
  | _ => rfl

/-- What a statement holds besides the comments before it, when its block holds `inner`. -/
def Role.contents (role : Role) (lead : String) (hasBlock : Bool) (reading : Reading)
    (inner : Contents) : Contents :=
  match reading with
  | .declaration d => ⟨[d.unlined], [], []⟩
  | .style found => ⟨[], [.style found inner.declarations inner.rules 0], []⟩
  | .atRule name =>
    let body :=
      if !hasBlock then .none
      else if role = .rules ∧ AtClass.ofName name ≠ .declarations then .rules inner.rules
      else inner.body
    ⟨[], [.atRule name lead body 0], []⟩
  | .fault _ => .empty

/-- The comments among nodes that are skipped; a block does not keep them. -/
def Role.comments (role : Role) (gap : List Node) : Contents :=
  match role with
  | .rules => ⟨[], commentRules gap, []⟩
  | .block _ => .empty

/-- Two contents in order, if there are both. -/
def plus (c d : Option Contents) : Option Contents := c.bind fun a => d.map a.append

/-- What a statement holds, when `inner` reads its block. -/
def Statement.clean (role : Role) (s : Statement) (inner : Role → Option Contents) :
    Option Contents :=
  plus (some (role.comments (s.nodes.takeWhile role.isGap)))
    (match s.nodes.dropWhile role.isGap with
    | [] => if s.stop.all role.isGap then some .empty else none
    | n :: body =>
      (role.read n body s.stop).bind fun reading => (inner (role.inside reading)).map
        (role.contents (Text.collapse (Node.source body)) (s.stop.any Node.isBraces) reading))

theorem sizeOf_nil_lt (h : ns ≠ []) : sizeOf ([] : List Node) < sizeOf ns := by
  obtain ⟨n, rest, rfl⟩ := List.exists_cons_of_ne_nil h
  have hn : 0 < sizeOf n := by cases n <;> simp +arith
  simp only [List.nil.sizeOf_spec, List.cons.sizeOf_spec]
  omega

theorem sizeOf_suffix_le (h : ms <:+ ns) : sizeOf ms ≤ sizeOf ns := by
  obtain ⟨xs, rfl⟩ := h
  induction xs with
  | nil => exact Nat.le_refl _
  | cons x xs ih =>
    rw [List.cons_append, List.cons.sizeOf_spec]
    omega

/-- What stands in a block of a list is smaller than the list. -/
theorem sizeOf_inner_lt_of_mem (h : n ∈ ns) : sizeOf n.inner < sizeOf ns := by
  have hm := List.sizeOf_lt_of_mem h
  cases n with
  | leaf t => exact sizeOf_nil_lt (List.ne_nil_of_mem h)
  | block opener inner closer =>
    simp only [Node.block.sizeOf_spec, Node.inner] at hm ⊢
    omega

private theorem sizeOf_statement_lt {s : Statement} (h : s ∈ statements ns) :
    sizeOf s.inner < sizeOf ns := by
  have hne : ns ≠ [] := by
    rintro rfl
    simp [statements] at h
  unfold Statement.inner
  cases hs : s.stop with
  | none => exact sizeOf_nil_lt hne
  | some b => exact sizeOf_inner_lt_of_mem (stop_mem_of_mem_statements h hs)

/-- What the statements of a list hold, unless one of them is at fault or a declaration with a block. -/
def clean (role : Role) (ns : List Node) : Option Contents :=
  ((statements ns).attach.map fun s =>
    s.1.clean role fun inside => clean inside s.1.inner).foldr plus (some .empty)
termination_by sizeOf ns
decreasing_by exact sizeOf_statement_lt s.2

/-! ## Statement by statement -/

theorem clean_eq (role : Role) (ns : List Node) : clean role ns = ((statements ns).map fun s =>
    s.clean role fun inside => clean inside s.inner).foldr plus (some .empty) := by
  rw [clean, List.attach_map_val (f := fun s : Statement =>
    s.clean role fun inside => clean inside s.inner)]

@[simp] theorem clean_nil (role : Role) : clean role [] = some .empty := by
  rw [clean_eq]
  rfl

@[simp] theorem Contents.append_empty (c : Contents) : c.append .empty = c := by
  simp [Contents.append, Contents.empty]

@[simp] theorem Contents.empty_append (c : Contents) : Contents.empty.append c = c := rfl

theorem Contents.append_assoc (a b c : Contents) :
    (a.append b).append c = a.append (b.append c) := by
  simp [Contents.append]

@[simp] theorem plus_empty (c : Option Contents) : plus c (some .empty) = c := by
  cases c <;> simp [plus]

@[simp] theorem empty_plus (c : Option Contents) : plus (some .empty) c = c := by
  cases c <;> simp [plus]

@[simp] theorem none_plus (c : Option Contents) : plus none c = none := rfl

theorem plus_eq_some {a b : Option Contents} {c : Contents} :
    plus a b = some c ↔ ∃ x y, a = some x ∧ b = some y ∧ x.append y = c := by
  cases a <;> cases b <;> simp [plus]

theorem plus_assoc (a b c : Option Contents) : plus (plus a b) c = plus a (plus b c) := by
  cases a <;> cases b <;> cases c <;> simp [plus, Contents.append_assoc]

private theorem foldr_plus_append (as bs : List (Option Contents)) :
    (as ++ bs).foldr plus (some .empty) =
      plus (as.foldr plus (some .empty)) (bs.foldr plus (some .empty)) := by
  induction as with
  | nil => simp
  | cons a as ih => rw [List.cons_append, List.foldr_cons, List.foldr_cons, ih, plus_assoc]

private theorem statements_append_cons (hn : endsStatement n = true) (xs ys : List Node) :
    statements (xs ++ n :: ys) = statements (xs ++ [n]) ++ statements ys := by
  induction xs with
  | nil => simp [statements, hn]
  | cons m xs ih =>
    have hne : statements (xs ++ [n]) ≠ [] := by
      cases xs with
      | nil => simp [statements, hn]
      | cons k xs =>
        rw [List.cons_append, statements]
        split
        · simp
        · split <;> simp
    obtain ⟨s, ss, hs⟩ := List.exists_cons_of_ne_nil hne
    rw [List.cons_append, List.cons_append, statements, statements, ih, hs]
    simp only [List.cons_append]
    split <;> rfl

/-- What stands behind a statement does not change what the statements before it hold. -/
theorem clean_append_cons (hn : endsStatement n = true) (xs ys : List Node) :
    clean role (xs ++ n :: ys) = plus (clean role (xs ++ [n])) (clean role ys) := by
  rw [clean_eq, statements_append_cons hn, List.map_append, foldr_plus_append, ← clean_eq, ← clean_eq]

/-- A list that starts with a statement. -/
theorem clean_statement (h : ∀ m ∈ ms, endsStatement m = false) (hn : endsStatement n = true)
    (rest : List Node) : clean role (ms ++ n :: rest) =
      plus (Statement.clean role ⟨ms, some n⟩ fun inside => clean inside n.inner)
        (clean role rest) := by
  rw [clean_eq, statements_append h hn, List.map_cons, List.foldr_cons, ← clean_eq]
  rfl

/-- A list that starts with the end of a statement. -/
theorem clean_cons_of_endsStatement (hn : endsStatement n = true) (rest : List Node) :
    clean role (n :: rest) =
      plus (Statement.clean role ⟨[], some n⟩ fun inside => clean inside n.inner)
        (clean role rest) := by
  have h : clean role ([] ++ n :: rest) = _ := clean_statement (by simp) hn rest
  exact h

/-- A list that is a statement by itself. -/
theorem clean_open (h : ∀ m ∈ ms, endsStatement m = false) :
    clean role ms = Statement.clean role ⟨ms, none⟩ fun _ => some .empty := by
  cases ms with
  | nil => cases role <;> simp [Statement.clean, Role.comments, commentRules, commentsOf,
      Rule.allUnlined, Rule.mapAllLines, plus, Contents.append, Contents.empty]
  | cons n ms =>
    rw [clean_eq, statements_of_not h, List.map_cons, List.foldr_cons, List.map_nil, List.foldr_nil,
      plus_empty]
    simp [Statement.inner]

end SheetDiff
