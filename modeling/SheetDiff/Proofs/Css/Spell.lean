import SheetDiff.Proofs.Css.Group
import SheetDiff.Proofs.Css.Squeeze

/-!
# Texts that spell nodes

A text spells nodes if it is read as these nodes wherever it stands, as long as the text behind it is
of some class, such as texts that continue no token. Spelled texts may be put together
(`Spells.append`) and into brackets (`Spells.braces`). Tokens are read here without their lines.
-/

namespace SheetDiff.Css

variable {b : Option Bracket} {K K' : List Char → Prop} {p q k : List Char} {ts : List Token}
variable {ns ms : List Node}

/-! ## Tokens without lines -/

def Token.unlined (t : Token) : Token := { t with line := 0 }

/-- The tokens of a text without their lines. -/
def lex (cs : List Char) : List Token := (tokensFrom 1 cs).map Token.unlined

@[simp] theorem lex_nil : lex [] = [] := by
  simp [lex, tokensFrom]

theorem map_unlined_tokensFrom (line : Nat) (cs : List Char) :
    (tokensFrom line cs).map Token.unlined = lex cs := by
  have h (line line' : Nat) :
      (tokensFrom line cs).map Token.unlined = (tokensFrom line' cs).map Token.unlined := by
    fun_induction tokensFrom line cs generalizing line' with
    | case1 => simp [tokensFrom]
    | case2 line c cs kind n hs source ih =>
      rw [tokensFrom, hs]
      simp only [List.map_cons]
      rw [ih (line' + Text.lineBreaks (c :: cs.take n))]
      rfl
  exact h line 1

theorem lex_of_readsOne {t : Token} (h : ReadsOne t k) : lex (t.source ++ k) = t.unlined :: lex k := by
  obtain ⟨c, cs, hc, hs⟩ := h
  rw [lex, hc, List.cons_append, tokensFrom, hs]
  simp only [List.map_cons, List.take_left, List.drop_left, map_unlined_tokensFrom]
  rw [← hc]
  rfl

theorem lex_append (h : Reads ts k) :
    lex (sourceOf ts ++ k) = ts.map Token.unlined ++ lex k := by
  induction ts with
  | nil => rfl
  | cons t ts ih =>
    rw [sourceOf_cons, List.append_assoc, lex_of_readsOne h.1, ih h.2]
    rfl

theorem keepsBrackets_unlined : Node.KeepsBrackets Token.unlined := ⟨fun _ => rfl, fun _ => rfl⟩

/-- A node without lines. -/
def Node.unlined (n : Node) : Node := n.mapTokens Token.unlined

@[simp] theorem Node.unlined_unlined (n : Node) : n.unlined.unlined = n.unlined :=
  Node.mapTokens_mapTokens ..

theorem map_unlined_ofText (cs : List Char) :
    (Node.ofText cs).map Node.unlined = Node.ofTokens (lex cs) :=
  (Node.ofTokens_map keepsBrackets_unlined _).symm

@[simp] theorem Node.unlined_leaf (t : Token) : (Node.leaf t).unlined = .leaf t.unlined := rfl

@[simp] theorem sourceOf_map_unlined (ts : List Token) :
    sourceOf (ts.map Token.unlined) = sourceOf ts := by
  simp only [sourceOf, List.flatMap_map]
  rfl

theorem Node.source_eq (ns : List Node) : Node.source ns = sourceOf (allTokens ns) := rfl

@[simp] theorem Node.source_nil : Node.source [] = [] := rfl

theorem Node.source_cons (n : Node) (ns : List Node) :
    Node.source (n :: ns) = sourceOf n.tokens ++ Node.source ns := by
  rw [source_eq, allTokens, sourceOf_append, source_eq]

theorem Node.source_append (ns ms : List Node) :
    Node.source (ns ++ ms) = Node.source ns ++ Node.source ms := by
  rw [source_eq, allTokens_append, sourceOf_append, source_eq, source_eq]

@[simp] theorem Node.source_unlined (ns : List Node) :
    Node.source (ns.map Node.unlined) = Node.source ns := by
  rw [source_eq, show ns.map Node.unlined = ns.map (mapTokens Token.unlined) from rfl,
    allTokens_map, sourceOf_map_unlined, source_eq]

/-! ## Spelled nodes -/

/-- A text that is read as the nodes `ns` within an open bracket, if a text of the class `K` is
behind it. -/
structure Spells (b : Option Bracket) (K : List Char → Prop) (p : List Char) (ns : List Node) :
    Prop where
  source : Node.source ns = p
  group : ∀ stack k, stack.head? = b → K k →
    Node.group stack (lex (p ++ k)) = (Node.group stack (lex k)).prepend ns

theorem Spells.of_reads (hr : ∀ k, K k → Reads (Node.allTokens ns) k) (hf : Node.AllFit b ns) :
    Spells b K (Node.source ns) (ns.map Node.unlined) := by
  refine ⟨Node.source_unlined ns, fun stack k hs hk => ?_⟩
  rw [Node.source_eq, lex_append (hr k hk), ← Node.allTokens_map]
  exact Node.group_append stack _ (hs ▸ hf.map keepsBrackets_unlined) _

theorem Spells.nil : Spells b K [] [] := ⟨rfl, fun _ _ _ _ => rfl⟩

theorem Spells.append (hp : Spells b K p ns) (hq : Spells b K' q ms)
    (h : ∀ k, K' k → K (q ++ k)) : Spells b K' (p ++ q) (ns ++ ms) := by
  refine ⟨by rw [Node.source_append, hp.source, hq.source], fun stack k hs hk => ?_⟩
  rw [List.append_assoc, hp.group stack (q ++ k) hs (h k hk), hq.group stack k hs hk,
    ← Node.Remainders.prepend_append]

/-- A text that does not start with a blank. -/
def Solid (k : List Char) : Prop := ∀ c ∈ k.head?, isBlank c = false

/-! ## Gaps and symbols -/

/-- The nodes of a run of blanks. -/
def gapNodes (g : List Char) : List Node := if g = [] then [] else [.leaf ⟨.whitespace, g, 0⟩]

theorem spells_gap {g : List Char} (hg : Blanks g) : Spells b Solid g (gapNodes g) := by
  unfold gapNodes
  split
  · rename_i h
    subst h
    exact Spells.nil
  · rename_i h
    obtain ⟨c, cs, rfl⟩ := List.exists_cons_of_ne_nil h
    have hr (k : List Char) (hk : Solid k) :
        Reads (Node.allTokens [.leaf ⟨.whitespace, c :: cs, 0⟩]) k := by
      refine ⟨⟨c, cs, rfl, ?_⟩, trivial⟩
      have hs : ∀ d ∈ cs, isBlank d = true := fun d hd => hg d (by simp [hd])
      have ht : (cs ++ k).takeWhile isBlank = cs := by
        rw [List.takeWhile_append_of_pos hs]
        cases k with
        | nil => simp
        | cons d k => simp [hk d (by simp)]
      rw [scan, if_pos (hg c (by simp))]
      exact congrArg (Kind.whitespace, ·.length) ht
    have hsrc : Node.source [.leaf ⟨.whitespace, c :: cs, 0⟩] = c :: cs := List.append_nil _
    have hsp := Spells.of_reads hr (b := b) ⟨⟨rfl, by simp [Kind.closes?]⟩, trivial⟩
    rw [hsrc] at hsp
    exact hsp

/-- A character that is a token of its own, and neither opens nor closes anything. -/
theorem spells_symbol {c : Char} {kind : Kind} (hs : ∀ k, scan c k = (kind, 0))
    (ho : kind.opens? = none) (hc : kind.closes? = none) (K : List Char → Prop) :
    Spells b K [c] [.leaf ⟨kind, [c], 0⟩] := by
  have hr (k : List Char) (_ : K k) : Reads (Node.allTokens [.leaf ⟨kind, [c], 0⟩]) k :=
    ⟨⟨c, [], rfl, hs _⟩, trivial⟩
  exact Spells.of_reads hr ⟨⟨ho, by simp [hc]⟩, trivial⟩

def commaLeaf : Node := .leaf ⟨.comma, [','], 0⟩
def colonLeaf : Node := .leaf ⟨.colon, [':'], 0⟩
def semicolonLeaf : Node := .leaf ⟨.semicolon, [';'], 0⟩

theorem spells_comma (K : List Char → Prop) : Spells b K [','] [commaLeaf] :=
  spells_symbol scan_comma rfl rfl K

theorem spells_colon (K : List Char → Prop) : Spells b K [':'] [colonLeaf] :=
  spells_symbol scan_colon rfl rfl K

theorem spells_semicolon (K : List Char → Prop) : Spells b K [';'] [semicolonLeaf] :=
  spells_symbol scan_semicolon rfl rfl K

/-! ## Blocks in curly brackets -/

def openBrace : Token := ⟨.opening .curly, ['{'], 0⟩
def closeBrace : Token := ⟨.closing .curly, ['}'], 0⟩

/-- A block in curly brackets. -/
def bracesOf (inner : List Node) : Node := .block openBrace inner (some closeBrace)

theorem lex_openBrace (k : List Char) : lex ('{' :: k) = openBrace :: lex k :=
  lex_of_readsOne (t := openBrace) ⟨'{', [], rfl, scan_openBrace k⟩

theorem lex_closeBrace (k : List Char) : lex ('}' :: k) = closeBrace :: lex k :=
  lex_of_readsOne (t := closeBrace) ⟨'}', [], rfl, scan_closeBrace k⟩

theorem solid_closeBrace (k : List Char) : Solid ('}' :: k) := by
  intro c hc
  obtain rfl : '}' = c := by simpa using hc
  decide

theorem Spells.braces (h : Spells (some .curly) K' p ns) (hk : ∀ k, K' ('}' :: k))
    (K : List Char → Prop) : Spells b K ('{' :: (p ++ ['}'])) [bracesOf ns] := by
  refine ⟨?_, fun stack k _ _ => ?_⟩
  · have hs := h.source
    rw [Node.source_eq] at hs
    rw [Node.source_cons, bracesOf, Node.tokens, Option.toList, sourceOf_cons, sourceOf_append, hs]
    simp [openBrace, closeBrace]
  · have hi := h.group (.curly :: stack) ('}' :: k) rfl (hk k)
    rw [lex_closeBrace] at hi
    rw [List.cons_append, List.append_assoc, List.singleton_append, lex_openBrace]
    exact Node.group_block rfl rfl hi

/-! ## Squeezed sources -/

theorem keepsBrackets_squeeze : Node.KeepsBrackets Token.squeeze := by
  refine ⟨fun t => ?_, fun t => ?_⟩
  · simp only [Token.squeeze]
    cases t.kind <;> rfl
  · simp only [Token.squeeze]
    cases t.kind <;> rfl

/-- A node without lines and with its white space squeezed. -/
def Node.squeezed (n : Node) : Node := (n.mapTokens Token.squeeze).unlined

end SheetDiff.Css
