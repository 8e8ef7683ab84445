import SheetDiff.Css.Lexer

/-!
# Token trees

Brackets group the tokens of a stylesheet: a block holds what stands between an opening token and
the bracket that closes it. A closing bracket that does not match the innermost open block is a
token like any other, and blocks still open at the end of the sheet end there.

`Node.ofTokens` builds the nodes of a sheet, and `Node.tokens` lists their tokens again: grouping
neither drops nor moves a token (`allTokens_ofTokens`).
-/

namespace SheetDiff.Css

/-- A token, or a block with its opening token, its contents and its closing token if it has one. -/
inductive Node where
  | leaf (token : Token)
  | block (opener : Token) (inner : List Node) (closer : Option Token)
  deriving Inhabited

namespace Node

mutual
/-- The tokens of a node in order. -/
def tokens : Node → List Token
  | leaf t => [t]
  | block opener inner closer => opener :: (allTokens inner ++ closer.toList)

/-- The tokens of a list of nodes in order. -/
def allTokens : List Node → List Token
  | [] => []
  | n :: ns => n.tokens ++ allTokens ns
end

/-- The first token of a node. -/
def first : Node → Token
  | leaf t => t
  | block opener _ _ => opener

/-- The kind of a node's first token. -/
def kind (n : Node) : Kind := n.first.kind

/-- The contents of a block. -/
def inner : Node → List Node
  | leaf _ => []
  | block _ inner _ => inner

/-- What follows the first token of a node. -/
def remainder : Node → List Node
  | leaf _ => []
  | block _ inner closer => inner ++ (closer.map leaf).toList

def isBlock : Node → Bool
  | leaf _ => false
  | block .. => true

/-- A block in curly brackets. -/
def isBraces (n : Node) : Bool := n.isBlock && n.kind = .opening .curly

/-- A token of a class, outside blocks. -/
def isLeaf (p : Kind → Bool) (n : Node) : Bool := !n.isBlock && p n.kind

def isSemicolon (n : Node) : Bool := n.isLeaf (· = .semicolon)

def isSpacing (n : Node) : Bool := n.isLeaf Kind.isSpacing

/-- The source of a list of nodes. -/
def source (ns : List Node) : List Char := (allTokens ns).flatMap (·.source)

/-! ## Grouping -/

/-- What remains of an open block: its further nodes and the token that closes it. -/
structure Remainder where
  nodes : List Node
  closer : Option Token
  deriving Inhabited

def Remainder.cons (n : Node) (r : Remainder) : Remainder := { r with nodes := n :: r.nodes }

/-- What remains of the innermost open block, and of the blocks around it from the inside out. -/
structure Remainders where
  innermost : Remainder
  around : List Remainder
  deriving Inhabited

/-- Groups the tokens that follow when the brackets in `stack`, innermost first, are open. -/
def group : List Bracket → List Token → Remainders
  | stack, [] => ⟨⟨[], none⟩, stack.map fun _ => ⟨[], none⟩⟩
  | stack, t :: ts =>
    match t.kind.opens? with
    | some b =>
      let rest := group (b :: stack) ts
      let outer := rest.around.headD ⟨[], none⟩
      ⟨outer.cons (block t rest.innermost.nodes rest.innermost.closer), rest.around.tail⟩
    | none =>
      if t.kind.closes?.isSome && t.kind.closes? = stack.head? then
        let rest := group stack.tail ts
        ⟨⟨[], some t⟩, rest.innermost :: rest.around⟩
      else
        let rest := group stack ts
        { rest with innermost := rest.innermost.cons (leaf t) }

/-- The nodes of a list of tokens. -/
def ofTokens (ts : List Token) : List Node := (group [] ts).innermost.nodes

/-- The nodes of a stylesheet. -/
def ofText (cs : List Char) : List Node := ofTokens (Css.tokens cs)

/-! ## No token is lost -/

theorem allTokens_append (xs ys : List Node) :
    allTokens (xs ++ ys) = allTokens xs ++ allTokens ys := by
  induction xs with
  | nil => simp [allTokens]
  | cons x xs ih => simp [allTokens, ih]

/-- The tokens of a remainder, its closing token included. -/
def Remainder.tokens (r : Remainder) : List Token := allTokens r.nodes ++ r.closer.toList

private theorem length_around_group (stack : List Bracket) (ts : List Token) :
    (group stack ts).around.length = stack.length := by
  fun_induction group stack ts with
  | case1 => simp
  | case2 stack t ts b hb rest outer ih => simp [rest, ih]
  | case3 stack t ts hb hc rest ih =>
    cases stack with
    | nil => cases ht : t.kind.closes? <;> simp_all
    | cons b stack => simpa [rest] using ih
  | case4 stack t ts hb hc rest ih => simpa [rest] using ih

private theorem tokens_group (stack : List Bracket) (ts : List Token) :
    (group stack ts).innermost.tokens ++ (group stack ts).around.flatMap Remainder.tokens = ts := by
  fun_induction group stack ts with
  | case1 stack =>
    induction stack with
    | nil => rfl
    | cons b stack ih => simp [Remainder.tokens, allTokens]
  | case2 stack t ts b hb rest outer ih =>
    obtain ⟨o, os, ho⟩ := List.exists_cons_of_length_eq_add_one (length_around_group (b :: stack) ts)
    simp only [ho, List.flatMap_cons] at ih
    simpa [rest, outer, ho, Remainder.cons, Remainder.tokens, allTokens, Node.tokens] using ih
  | case3 stack t ts hb hc rest ih => simpa [rest, Remainder.tokens, allTokens] using ih
  | case4 stack t ts hb hc rest ih =>
    simpa [rest, Remainder.cons, Remainder.tokens, allTokens, Node.tokens] using ih

/-- The outermost level has nothing that could close it. -/
private theorem closer_group (stack : List Bracket) (ts : List Token) :
    ((group stack ts).innermost :: (group stack ts).around).getLast?.bind (·.closer) = none := by
  fun_induction group stack ts with
  | case1 stack =>
    induction stack with
    | nil => rfl
    | cons b stack ih => simpa [List.getLast?_cons_cons] using ih
  | case2 stack t ts b hb rest outer ih =>
    obtain ⟨o, os, ho⟩ := List.exists_cons_of_length_eq_add_one (length_around_group (b :: stack) ts)
    simp only [ho, List.getLast?_cons_cons] at ih
    simp only [rest, outer, ho]
    cases os with
    | nil => simpa [Remainder.cons] using ih
    | cons p ps => simpa [List.getLast?_cons_cons] using ih
  | case3 stack t ts hb hc rest ih => simpa [rest, List.getLast?_cons_cons] using ih
  | case4 stack t ts hb hc rest ih =>
    cases ha : rest.around with
    | nil => simpa [rest, ha, Remainder.cons] using ih
    | cons p ps => simpa [rest, ha, List.getLast?_cons_cons] using ih

theorem allTokens_ofTokens (ts : List Token) : allTokens (ofTokens ts) = ts := by
  have hl : (group [] ts).around = [] := List.eq_nil_of_length_eq_zero (length_around_group [] ts)
  have ht := tokens_group [] ts
  have hc := closer_group [] ts
  rw [hl] at ht hc
  simp only [List.getLast?_singleton, Option.bind_some] at hc
  simpa [ofTokens, Remainder.tokens, hc] using ht

/-- The tokens of a stylesheet are those of its nodes. -/
theorem allTokens_ofText (cs : List Char) : allTokens (ofText cs) = Css.tokens cs :=
  allTokens_ofTokens (Css.tokens cs)

theorem source_ofText (cs : List Char) : source (ofText cs) = cs := by
  rw [source, allTokens_ofText, flatMap_source_tokens]

end Node

end SheetDiff.Css
