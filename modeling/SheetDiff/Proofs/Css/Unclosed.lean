import SheetDiff.Proofs.Css.Group

/-!
# Blocks open at the end of a sheet

The nodes of a sheet fit where they stand, but for blocks that are still open where the sheet ends:
such a block is the last node of its list, and so are the blocks around it (`allFitEnd_ofTokens`).
Nodes like these are the nodes of their tokens (`ofTokens_allTokens_end`).
-/

namespace SheetDiff.Css.Node

variable {b : Option Bracket} {closed : Bool} {stack : List Bracket} {n : Node} {ns ms : List Node}

mutual

/-- A node that fits into a bracket; it may be a block that is open at the end of the text unless
`closed`. -/
def FitsEnd (b : Option Bracket) (closed : Bool) : Node → Prop
  | leaf t => t.kind.opens? = none ∧ (t.kind.closes?.isSome → t.kind.closes? ≠ b)
  | block opener inner (some closer) => ∃ c, opener.kind.opens? = some c ∧
      closer.kind.closes? = some c ∧ AllFitEnd (some c) true inner
  | block opener inner none => ∃ c, opener.kind.opens? = some c ∧ closed = false ∧
      AllFitEnd (some c) false inner

/-- Nodes that fit into a bracket, but for the last one unless `closed`. -/
def AllFitEnd (b : Option Bracket) (closed : Bool) : List Node → Prop
  | [] => True
  | n :: ns => n.FitsEnd b (closed || !ns.isEmpty) ∧ AllFitEnd b closed ns

end

mutual

/-- Where no block is open, nodes fit altogether. -/
theorem FitsEnd.fits (n : Node) {b : Option Bracket} (h : n.FitsEnd b true) : n.Fits b := by
  cases n with
  | leaf t => exact h
  | block opener inner closer =>
    cases closer with
    | none =>
      obtain ⟨c, -, hf, -⟩ := h
      simp at hf
    | some t =>
      obtain ⟨c, ho, hc, hi⟩ := h
      exact ⟨c, t, ho, rfl, hc, AllFitEnd.allFit inner hi⟩

theorem AllFitEnd.allFit (ns : List Node) {b : Option Bracket} (h : AllFitEnd b true ns) :
    AllFit b ns := by
  cases ns with
  | nil => trivial
  | cons n ns => exact ⟨FitsEnd.fits n h.1, AllFitEnd.allFit ns h.2⟩

end

theorem allFitEnd_append : AllFitEnd b closed (ns ++ ms) ↔
    AllFitEnd b (closed || !ms.isEmpty) ns ∧ AllFitEnd b closed ms := by
  induction ns with
  | nil => simp [AllFitEnd]
  | cons n ns ih =>
    have hflag : (closed || !(ns ++ ms).isEmpty) = ((closed || !ms.isEmpty) || !ns.isEmpty) := by
      cases ns <;> cases ms <;> simp
    rw [List.cons_append, AllFitEnd, ih, AllFitEnd, hflag, and_assoc]

/-- Only the last of the nodes may be open. -/
theorem allFitEnd_append_cons : AllFitEnd b closed (ns ++ n :: ms) ↔
    AllFitEnd b true ns ∧ n.FitsEnd b (closed || !ms.isEmpty) ∧ AllFitEnd b closed ms := by
  rw [allFitEnd_append, List.isEmpty_cons, Bool.not_false, Bool.or_true]
  exact Iff.rfl

/-! ## Grouping -/

/-- What remains of the open blocks where the text ends. -/
def Remainders.ofEnd (stack : List Bracket) (ns : List Node) : Remainders :=
  ⟨⟨ns, none⟩, stack.map fun _ => ⟨[], none⟩⟩

private theorem prepend_ofEnd (stack : List Bracket) (n : Node) (ns : List Node) :
    (Remainders.ofEnd stack ns).prepend [n] = .ofEnd stack (n :: ns) := rfl

/-- Nodes at the end of a text are grouped again as they are. -/
theorem group_end (stack : List Bracket) (ns : List Node) (h : AllFitEnd stack.head? false ns) :
    group stack (allTokens ns) = .ofEnd stack ns := by
  match ns, h with
  | [], _ => simp [allTokens, group, Remainders.ofEnd]
  | .leaf t :: ns, ⟨hn, hns⟩ =>
    rw [allTokens, group_fits stack (.leaf t) hn, group_end stack ns hns, prepend_ofEnd]
  | .block opener inner (some t) :: ns, ⟨hn, hns⟩ =>
    obtain ⟨c, ho, hc, hi⟩ := hn
    have hf : Fits stack.head? (.block opener inner (some t)) := ⟨c, t, ho, rfl, hc, hi.allFit⟩
    rw [allTokens, group_fits stack _ hf, group_end stack ns hns, prepend_ofEnd]
  | .block opener inner none :: ns, ⟨hn, hns⟩ =>
    obtain ⟨c, ho, hf, hi⟩ := hn
    obtain rfl : ns = [] := by simpa using hf
    have hg := group_end (c :: stack) inner hi
    simp only [allTokens, Node.tokens, Option.toList_none, List.append_nil]
    rw [group, ho]
    simp only [hg]
    rfl
termination_by sizeOf ns

/-- Nodes at the end of a text are the nodes of their tokens. -/
theorem ofTokens_allTokens_end (h : AllFitEnd none false ns) : ofTokens (allTokens ns) = ns := by
  rw [ofTokens, group_end [] ns h]
  rfl

/-! ## The nodes of a sheet -/

/-- A part of a block that fits into its bracket and ends with the bracket that closes it, or where the
text ends. -/
structure Remainder.FitsEnd (b : Option Bracket) (r : Remainder) : Prop where
  nodes : AllFitEnd b r.closer.isSome r.nodes
  closer : ∀ t ∈ r.closer, t.kind.closes?.isSome ∧ t.kind.closes? = b

/-- The remainders of open blocks, innermost first: behind the first one that is not closed there is
nothing. -/
def AllFitRemainders : List Bracket → List Remainder → Prop
  | [], [r] => r.FitsEnd none
  | b :: stack, r :: rs => r.FitsEnd (some b) ∧ (r.closer = none → ∀ s ∈ rs, s = ⟨[], none⟩) ∧
      AllFitRemainders stack rs
  | _, _ => False

private theorem fitsEnd_nil (b : Option Bracket) : Remainder.FitsEnd b ⟨[], none⟩ :=
  ⟨trivial, by simp⟩

private theorem allFitRemainders_nil (stack : List Bracket) :
    AllFitRemainders stack (⟨[], none⟩ :: stack.map fun _ => ⟨[], none⟩) := by
  induction stack with
  | nil => exact fitsEnd_nil none
  | cons b stack ih =>
    refine ⟨fitsEnd_nil _, fun _ s hs => ?_, ih⟩
    obtain ⟨-, -, rfl⟩ := List.mem_map.1 hs
    rfl

private theorem AllFitRemainders.head {r : Remainder} {rs : List Remainder}
    (h : AllFitRemainders stack (r :: rs)) : r.FitsEnd stack.head? := by
  cases stack with
  | nil =>
    cases rs with
    | nil => exact h
    | cons s rs => exact h.elim
  | cons b stack => exact h.1

private theorem AllFitRemainders.cons {r : Remainder} {rs : List Remainder}
    (h : AllFitRemainders stack (r :: rs))
    (hn : n.FitsEnd stack.head? (r.closer.isSome || !r.nodes.isEmpty)) :
    AllFitRemainders stack (r.cons n :: rs) := by
  have hr := h.head
  have hcons : (r.cons n).FitsEnd stack.head? := ⟨⟨hn, hr.nodes⟩, hr.closer⟩
  cases stack with
  | nil =>
    cases rs with
    | nil => exact hcons
    | cons s rs => exact h.elim
  | cons b stack => exact ⟨hcons, h.2⟩

private theorem allFitRemainders_group (stack : List Bracket) (ts : List Token) :
    AllFitRemainders stack ((group stack ts).innermost :: (group stack ts).around) := by
  fun_induction group stack ts with
  | case1 stack => exact allFitRemainders_nil stack
  | case2 stack t ts b hb rest outer ih =>
    obtain ⟨hin, hlast, har⟩ := ih
    cases ho : rest.around with
    | nil =>
      rw [ho] at har
      cases stack <;> exact har.elim
    | cons o os =>
      rw [ho] at har hlast
      simp only [outer, ho, List.headD_cons, List.tail_cons]
      refine har.cons ?_
      have hnodes : AllFitEnd (some b) rest.innermost.closer.isSome rest.innermost.nodes := hin.nodes
      cases hc : rest.innermost.closer with
      | some u =>
        rw [hc] at hnodes
        exact ⟨b, hb, (hin.closer u hc).2, hnodes⟩
      | none =>
        -- nothing follows a block that is open at the end
        have hnone : o = ⟨[], none⟩ := hlast hc o List.mem_cons_self
        rw [hc] at hnodes
        exact ⟨b, hb, by simp [hnone], hnodes⟩
  | case3 stack t ts hb hc rest ih =>
    simp only [Bool.and_eq_true, decide_eq_true_eq] at hc
    cases stack with
    | nil =>
      rw [List.head?_nil] at hc
      simp [hc.2] at hc
    | cons b stack =>
      refine ⟨⟨trivial, ?_⟩, by simp, ih⟩
      rintro u ⟨⟩
      exact hc
  | case4 stack t ts hb hc rest ih =>
    refine ih.cons ⟨hb, fun hs he => hc ?_⟩
    simp only [Bool.and_eq_true, decide_eq_true_eq]
    exact ⟨hs, he⟩

/-- The nodes of a sheet fit where they stand, but for blocks that are open at its end. -/
theorem allFitEnd_ofTokens (ts : List Token) : AllFitEnd none false (ofTokens ts) := by
  have h := (allFitRemainders_group [] ts).head
  have hc : (group [] ts).innermost.closer = none := by
    cases hc : (group [] ts).innermost.closer with
    | none => rfl
    | some t =>
      obtain ⟨hs, hn⟩ := h.closer t hc
      rw [List.head?_nil] at hn
      simp [hn] at hs
  have hns := h.nodes
  rwa [hc] at hns

end SheetDiff.Css.Node
