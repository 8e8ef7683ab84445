import SheetDiff.Css.Node

/-!
# Nodes that stand by themselves

A list of nodes fits into an open bracket if no token of it ends that bracket or leaves another one
open. The tokens of such nodes are grouped into the same nodes again, whatever follows
(`group_append`). Conversely the nodes of a sheet fit where they stand if every block among them is
closed (`allFit_ofTokens`).
-/

namespace SheetDiff.Css

theorem Kind.not_whitespace_of_opens {k : Kind} {c : Bracket} (h : k.opens? = some c) :
    k ≠ .whitespace := by
  rintro rfl
  simp [opens?] at h

theorem Kind.eq_closing {k : Kind} {c : Bracket} (h : k.closes? = some c) : k = .closing c := by
  cases k <;> simp_all [closes?]

namespace Node

variable {b : Option Bracket} {stack : List Bracket} {f : Token → Token} {ns ms : List Node}

theorem allTokens_eq_flatMap (ns : List Node) : allTokens ns = ns.flatMap tokens := by
  induction ns with
  | nil => rfl
  | cons n ns ih => rw [allTokens, ih, List.flatMap_cons]

/-! ## Nodes that fit -/

mutual

/-- Nodes that neither end the bracket they stand in nor leave another one open. -/
def Fits (b : Option Bracket) : Node → Prop
  | leaf t => t.kind.opens? = none ∧ (t.kind.closes?.isSome → t.kind.closes? ≠ b)
  | block opener inner closer => ∃ c t, opener.kind.opens? = some c ∧ closer = some t ∧
      t.kind.closes? = some c ∧ AllFit (some c) inner

def AllFit (b : Option Bracket) : List Node → Prop
  | [] => True
  | n :: ns => n.Fits b ∧ AllFit b ns

end

theorem allFit_iff : AllFit b ns ↔ ∀ n ∈ ns, n.Fits b := by
  induction ns with
  | nil => simp [AllFit]
  | cons n ns ih => simp [AllFit, ih]

/-! ## Grouping nodes that fit -/

/-- Further nodes at the start of the innermost open block. -/
def Remainders.prepend (ns : List Node) (r : Remainders) : Remainders :=
  { r with innermost := { r.innermost with nodes := ns ++ r.innermost.nodes } }

theorem Remainders.prepend_append (ns ms : List Node) (r : Remainders) :
    r.prepend (ns ++ ms) = (r.prepend ms).prepend ns := by
  simp [prepend]

theorem group_leaf {t : Token} (ho : t.kind.opens? = none)
    (hc : t.kind.closes?.isSome → t.kind.closes? ≠ stack.head?) (ts : List Token) :
    group stack (t :: ts) = (group stack ts).prepend [leaf t] := by
  have hno : (t.kind.closes?.isSome && decide (t.kind.closes? = stack.head?)) = false := by
    cases hs : t.kind.closes?.isSome with
    | false => rfl
    | true => simpa using hc hs
  rw [group, ho]
  simp only [hno, Bool.false_eq_true, if_false]
  rfl

theorem group_close {c : Bracket} {t : Token} (hc : t.kind.closes? = some c) (ts : List Token) :
    group (c :: stack) (t :: ts) =
      ⟨⟨[], some t⟩, (group stack ts).innermost :: (group stack ts).around⟩ := by
  have ho : t.kind.opens? = none := by
    cases hk : t.kind <;> simp_all [Kind.opens?, Kind.closes?]
  rw [group, ho]
  simp [hc]

theorem group_block {c : Bracket} {opener closer : Token} (ho : opener.kind.opens? = some c)
    (hc : closer.kind.closes? = some c) {inner : List Node} {ts us : List Token}
    (hi : group (c :: stack) ts = (group (c :: stack) (closer :: us)).prepend inner) :
    group stack (opener :: ts) = (group stack us).prepend [block opener inner (some closer)] := by
  rw [group_close hc] at hi
  rw [group, ho]
  simp only [hi, Remainders.prepend, List.append_nil, List.headD_cons, List.tail_cons]
  rfl

mutual

theorem group_fits (stack : List Bracket) (n : Node) (h : n.Fits stack.head?) (ts : List Token) :
    group stack (n.tokens ++ ts) = (group stack ts).prepend [n] := by
  cases n with
  | leaf t => exact group_leaf h.1 h.2 ts
  | block opener inner closer =>
    obtain ⟨c, t, ho, rfl, hc, hi⟩ := h
    have hin := group_append (c :: stack) inner hi (t :: ts)
    rw [Node.tokens, Option.toList, List.cons_append, List.append_assoc, List.singleton_append]
    exact group_block ho hc hin

/-- Nodes that fit are grouped again as they are, whatever follows. -/
theorem group_append (stack : List Bracket) (ns : List Node) (h : AllFit stack.head? ns)
    (ts : List Token) : group stack (allTokens ns ++ ts) = (group stack ts).prepend ns := by
  cases ns with
  | nil => rfl
  | cons n ns =>
    rw [allTokens, List.append_assoc, group_fits stack n h.1, group_append stack ns h.2,
      ← Remainders.prepend_append]
    rfl

end

/-- Nodes that fit are the nodes of their tokens. -/
theorem ofTokens_allTokens (h : AllFit none ns) : ofTokens (allTokens ns) = ns := by
  have hg := group_append [] ns h []
  rw [List.append_nil] at hg
  simp [ofTokens, hg, group, Remainders.prepend]

/-! ## Closed blocks -/

mutual

/-- Nodes all of whose blocks are closed. -/
def IsClosed : Node → Prop
  | leaf _ => True
  | block _ inner closer => closer.isSome ∧ AllClosed inner

def AllClosed : List Node → Prop
  | [] => True
  | n :: ns => n.IsClosed ∧ AllClosed ns

end

theorem allClosed_iff : AllClosed ns ↔ ∀ n ∈ ns, n.IsClosed := by
  induction ns with
  | nil => simp [AllClosed]
  | cons n ns ih => simp [AllClosed, ih]

mutual

def isClosedDecidable : (n : Node) → Decidable n.IsClosed
  | leaf _ => .isTrue trivial
  | block _ inner closer =>
    have := allClosedDecidable inner
    inferInstanceAs (Decidable (closer.isSome ∧ AllClosed inner))

def allClosedDecidable : (ns : List Node) → Decidable (AllClosed ns)
  | [] => .isTrue trivial
  | n :: ns =>
    have := isClosedDecidable n
    have := allClosedDecidable ns
    inferInstanceAs (Decidable (n.IsClosed ∧ AllClosed ns))

end

instance (ns : List Node) : Decidable (AllClosed ns) := allClosedDecidable ns

/-- The part of a block that follows the current place fits into its bracket, if its blocks are
closed, and ends with the bracket that closes it. -/
structure Remainder.Fits (b : Option Bracket) (r : Remainder) : Prop where
  nodes : AllClosed r.nodes → AllFit b r.nodes
  closer : ∀ t ∈ r.closer, t.kind.closes?.isSome ∧ t.kind.closes? = b

/-- The remainders of the blocks around the innermost one, as they stand in a stack. -/
def AroundFit : List Bracket → List Remainder → Prop
  | [], [] => True
  | _ :: stack, r :: rs => r.Fits stack.head? ∧ AroundFit stack rs
  | _, _ => False

private theorem remainder_fits_nil (b : Option Bracket) : Remainder.Fits b ⟨[], none⟩ :=
  ⟨fun _ => trivial, by simp⟩

private theorem aroundFit_nil (stack : List Bracket) :
    AroundFit stack (stack.map fun _ => ⟨[], none⟩) := by
  induction stack with
  | nil => trivial
  | cons b stack ih => exact ⟨remainder_fits_nil _, ih⟩

private theorem Remainder.Fits.cons {r : Remainder} {n : Node} (h : r.Fits b)
    (hn : n.IsClosed → n.Fits b) : (r.cons n).Fits b :=
  ⟨fun hc => ⟨hn hc.1, h.nodes hc.2⟩, h.closer⟩

private theorem remainders_fit (stack : List Bracket) (ts : List Token) :
    (group stack ts).innermost.Fits stack.head? ∧ AroundFit stack (group stack ts).around := by
  fun_induction group stack ts with
  | case1 stack => exact ⟨remainder_fits_nil _, aroundFit_nil stack⟩
  | case2 stack t ts b hb rest outer ih =>
    obtain ⟨hin, har⟩ := ih
    cases ho : rest.around with
    | nil =>
      rw [ho] at har
      exact absurd har (by simp [AroundFit])
    | cons o os =>
      rw [ho] at har
      simp only [outer, ho, List.headD_cons, List.tail_cons]
      refine ⟨har.1.cons fun hc => ?_, har.2⟩
      obtain ⟨u, hu⟩ := Option.isSome_iff_exists.1 hc.1
      exact ⟨b, u, hb, hu, (hin.closer u hu).2, hin.nodes hc.2⟩
  | case3 stack t ts hb hc rest ih =>
    obtain ⟨hin, har⟩ := ih
    simp only [Bool.and_eq_true, decide_eq_true_eq] at hc
    cases stack with
    | nil =>
      rw [List.head?_nil] at hc
      simp [hc.2] at hc
    | cons b stack =>
      refine ⟨⟨fun _ => trivial, ?_⟩, hin, har⟩
      rintro u ⟨⟩
      exact hc
  | case4 stack t ts hb hc rest ih =>
    obtain ⟨hin, har⟩ := ih
    refine ⟨hin.cons fun _ => ⟨hb, fun hs he => hc ?_⟩, har⟩
    simp only [Bool.and_eq_true, decide_eq_true_eq]
    exact ⟨hs, he⟩

/-- The nodes of a sheet fit where they stand, if every block is closed. -/
theorem allFit_ofTokens {ts : List Token} (h : AllClosed (ofTokens ts)) :
    AllFit none (ofTokens ts) :=
  (remainders_fit [] ts).1.nodes h

/-! ## Changing tokens -/

mutual

/-- A node with all of its tokens changed. -/
def mapTokens (f : Token → Token) : Node → Node
  | leaf t => leaf (f t)
  | block opener inner closer => block (f opener) (mapAllTokens f inner) (closer.map f)

def mapAllTokens (f : Token → Token) : List Node → List Node
  | [] => []
  | n :: ns => n.mapTokens f :: mapAllTokens f ns

end

theorem mapAllTokens_eq_map (f : Token → Token) (ns : List Node) :
    mapAllTokens f ns = ns.map (mapTokens f) := by
  induction ns with
  | nil => rfl
  | cons n ns ih => rw [mapAllTokens, ih, List.map_cons]

mutual

theorem mapTokens_id_node (n : Node) : n.mapTokens id = n := by
  cases n with
  | leaf t => rfl
  | block opener inner closer =>
    rw [mapTokens, mapAllTokens_id inner, Option.map_id]
    rfl

theorem mapAllTokens_id (ns : List Node) : mapAllTokens id ns = ns := by
  cases ns with
  | nil => rfl
  | cons n ns => rw [mapAllTokens, mapTokens_id_node n, mapAllTokens_id ns]

end

theorem mapTokens_id : mapTokens id = id := funext mapTokens_id_node

theorem map_mapTokens_id (ns : List Node) : ns.map (mapTokens id) = ns := by
  rw [mapTokens_id, List.map_id]

@[simp] theorem first_mapTokens (f : Token → Token) (n : Node) :
    (n.mapTokens f).first = f n.first := by
  cases n <;> rfl

@[simp] theorem isBlock_mapTokens (f : Token → Token) (n : Node) :
    (n.mapTokens f).isBlock = n.isBlock := by
  cases n <;> rfl

theorem inner_mapTokens (f : Token → Token) (n : Node) :
    (n.mapTokens f).inner = n.inner.map (mapTokens f) := by
  cases n with
  | leaf t => rfl
  | block opener inner closer => exact mapAllTokens_eq_map f inner

mutual

theorem mapTokens_mapTokens (f g : Token → Token) (n : Node) :
    (n.mapTokens f).mapTokens g = n.mapTokens (g ∘ f) := by
  cases n with
  | leaf t => rfl
  | block opener inner closer =>
    rw [mapTokens, mapTokens, mapAllTokens_mapAllTokens f g inner, Option.map_map]
    rfl

theorem mapAllTokens_mapAllTokens (f g : Token → Token) (ns : List Node) :
    mapAllTokens g (mapAllTokens f ns) = mapAllTokens (g ∘ f) ns := by
  cases ns with
  | nil => rfl
  | cons n ns =>
    rw [mapAllTokens, mapAllTokens, mapTokens_mapTokens f g n, mapAllTokens_mapAllTokens f g ns]
    rfl

end

mutual

theorem tokens_mapTokens (f : Token → Token) (n : Node) :
    (n.mapTokens f).tokens = n.tokens.map f := by
  cases n with
  | leaf t => rfl
  | block opener inner closer =>
    rw [mapTokens, Node.tokens, allTokens_mapAllTokens f inner, Node.tokens]
    cases closer <;> simp

theorem allTokens_mapAllTokens (f : Token → Token) (ns : List Node) :
    allTokens (mapAllTokens f ns) = (allTokens ns).map f := by
  cases ns with
  | nil => rfl
  | cons n ns =>
    rw [mapAllTokens, allTokens, tokens_mapTokens f n, allTokens_mapAllTokens f ns, allTokens,
      List.map_append]

end

theorem allTokens_map (f : Token → Token) (ns : List Node) :
    allTokens (ns.map (mapTokens f)) = (allTokens ns).map f := by
  rw [← mapAllTokens_eq_map, allTokens_mapAllTokens]

/-- A change of tokens that keeps their brackets. -/
structure KeepsBrackets (f : Token → Token) : Prop where
  opens : ∀ t, (f t).kind.opens? = t.kind.opens?
  closes : ∀ t, (f t).kind.closes? = t.kind.closes?

mutual

theorem Fits.mapTokens (hf : KeepsBrackets f) (n : Node) {b : Option Bracket} (h : n.Fits b) :
    (n.mapTokens f).Fits b := by
  cases n with
  | leaf t =>
    obtain ⟨ho, hc⟩ := h
    refine ⟨by rw [hf.opens, ho], ?_⟩
    rw [hf.closes]
    exact hc
  | block opener inner closer =>
    obtain ⟨c, t, ho, rfl, hc, hi⟩ := h
    exact ⟨c, f t, by rw [hf.opens, ho], rfl, by rw [hf.closes, hc],
      AllFit.mapAllTokens hf inner hi⟩

theorem AllFit.mapAllTokens (hf : KeepsBrackets f) (ns : List Node) {b : Option Bracket}
    (h : AllFit b ns) : AllFit b (mapAllTokens f ns) := by
  cases ns with
  | nil => trivial
  | cons n ns => exact ⟨Fits.mapTokens hf n h.1, AllFit.mapAllTokens hf ns h.2⟩

end

theorem AllFit.map (hf : KeepsBrackets f) (h : AllFit b ns) :
    AllFit b (ns.map (Node.mapTokens f)) := by
  rw [← mapAllTokens_eq_map]
  exact AllFit.mapAllTokens hf ns h

def Remainder.mapTokens (f : Token → Token) (r : Remainder) : Remainder :=
  ⟨r.nodes.map (Node.mapTokens f), r.closer.map f⟩

def Remainders.mapTokens (f : Token → Token) (r : Remainders) : Remainders :=
  ⟨r.innermost.mapTokens f, r.around.map (Remainder.mapTokens f)⟩

/-- Grouping looks at the brackets of tokens only. -/
theorem group_map (hf : KeepsBrackets f) (stack : List Bracket) (ts : List Token) :
    group stack (ts.map f) = (group stack ts).mapTokens f := by
  fun_induction group stack ts with
  | case1 stack => simp [group, Remainders.mapTokens, Remainder.mapTokens]
  | case2 stack t ts b hb rest outer ih =>
    rw [List.map_cons, group, hf.opens, hb]
    simp only [ih]
    cases ho : rest.around with
    | nil =>
      simp [rest, outer, ho, Remainders.mapTokens, Remainder.mapTokens, Remainder.cons,
        Node.mapTokens, mapAllTokens_eq_map]
    | cons o os =>
      simp [rest, outer, ho, Remainders.mapTokens, Remainder.mapTokens, Remainder.cons,
        Node.mapTokens, mapAllTokens_eq_map]
  | case3 stack t ts hb hc rest ih =>
    rw [List.map_cons, group, hf.opens, hb]
    simp only [hf.closes, hc, if_true, ih]
    rfl
  | case4 stack t ts hb hc rest ih =>
    rw [List.map_cons, group, hf.opens, hb]
    simp only [hf.closes, hc, ih]
    rfl

theorem ofTokens_map (hf : KeepsBrackets f) (ts : List Token) :
    ofTokens (ts.map f) = (ofTokens ts).map (Node.mapTokens f) := by
  rw [ofTokens, group_map hf]
  rfl

end Node

end SheetDiff.Css
