import SheetDiff.Css.Node
import SheetDiff.Sheet.AtClass
import SheetDiff.Sheet.Fault

/-!
# Items

A rule list and a block are cut into items before anything inside their nested blocks is read.
`ruleItems` cuts a rule list and `blockItems` a block. Each item says what it will be read as and
which node ended it; a block that ends an item is a node of the list that was cut
(`stop_mem_of_mem_blockItems`, `stop_mem_of_mem_ruleItems`).
-/

namespace SheetDiff

open Css (Kind Node)

/-! ## Cutting a list of nodes -/

/-- A list of nodes cut at a node: what stands before it, the node, and what stands after it. -/
structure Cut where
  nodes : List Node
  stop : Option Node
  rest : List Node

/-- Cuts at the first node of a class, or else at the end. -/
def cutAt (p : Node → Bool) (ns : List Node) : Cut :=
  let tail := ns.dropWhile (!p ·)
  ⟨ns.takeWhile (!p ·), tail.head?, tail.tail⟩

def Cut.cons (n : Node) (c : Cut) : Cut := { c with nodes := n :: c.nodes }

/-- A semicolon or a block in curly brackets. -/
def endsStatement (n : Node) : Bool := n.isSemicolon || n.isBraces

/-! ## Parts of an item -/

/-- What a list of nodes is read as. -/
inductive Reading where
  | declaration (declaration : Declaration)
  | style (selectors : List String)
  | atRule (name : String)
  | fault (fault : Fault)

/-- The sources of the parts between commas; a block right before a comma is cut after its opening
token. -/
def commaParts : List Node → List (List Char)
  | [] => [[]]
  | n :: ns =>
    if n.isLeaf (· = .comma) then [] :: commaParts ns
    else
      let cut := n.isBlock && ns.head?.any (·.isLeaf (· = .comma))
      let piece := if cut then n.first.source else Node.source [n]
      (commaParts ns).modifyHead (piece ++ ·)

/-- The selectors of a style rule, white space collapsed. -/
def selectors (ns : List Node) : Except Fault (List String) :=
  if ns.any Node.isSemicolon then .error (.unexpected .semicolon)
  else
    let found := ((commaParts ns).map Text.collapse).filter (!·.isEmpty)
    if found.isEmpty then .error .missingSelector else .ok found

/-- Reads a style rule from the nodes before its block. -/
def styleReading (c : Cut) : Except Fault (List String) :=
  match c.stop with
  | none => .error .endOfInput
  | some stop => if stop.isBraces then selectors c.nodes else .error (.unexpected stop.kind)

/-- Reads a declaration from the nodes after its name; a value in a block that admits nested rules
holds no block itself, unless the property is a custom one. -/
def declarationReading (nested : Bool) (property : String) (ns : List Node) :
    Except Fault Declaration :=
  match ns.dropWhile Node.isSpacing with
  | [] => .error .endOfInput
  | n :: rest =>
    if n.isLeaf (· = .colon) then
      let custom := ['-', '-'].isPrefixOf property.toList
      let value := Text.collapse (Node.source rest)
      if nested && !custom && rest.any Node.isBraces then .error (.blockInValue property)
      else if value.isEmpty then .error (.emptyValue property)
      else .ok ⟨property, value, n.first.line⟩
    else .error (.unexpected n.kind)

/-- Reads an at-rule; without a block it has to be of the class that needs none. -/
def atReading (name : String) (stop : Option Node) : Reading :=
  if stop.any Node.isBraces || AtClass.ofName name = .optional then .atRule name
  else .fault (.missingBlock name)

def Reading.ofStyle : Except Fault (List String) → Reading
  | .ok found => .style found
  | .error f => .fault f

/-! ## Items -/

/-- An item with the nodes skipped before it and the line it starts on. -/
structure Item where
  skipped : List Node
  line : Nat
  nodes : List Node
  stop : Option Node
  reading : Reading

/-- The text between the name of an at-rule and its block or semicolon. -/
def Item.lead (item : Item) : String := Text.collapse (Node.source item.nodes.tail)

/-- The tokens taken when an item fails: of a block only the opening one. -/
def Item.failed (item : Item) : List Css.Token :=
  Node.allTokens item.nodes ++ (item.stop.map (·.first)).toList

/-- The source quoted when an item fails. -/
def Item.quoted (item : Item) : List Char := item.failed.flatMap (·.source)

/-- The line of the first token outside a class, or else the line after the last token. -/
def lineAfter (skip : Kind → Bool) (ts : List Css.Token) : Nat :=
  match ts.find? (!skip ·.kind) with
  | some t => t.line
  | none => (ts.getLast?.map fun t => t.line + Text.lineBreaks t.source).getD 1

/-- The line reported when an item fails, which counts what was skipped before it. -/
def Item.faultLine (skip : Kind → Bool) (item : Item) : Nat :=
  lineAfter skip (Node.allTokens item.skipped ++ item.failed)

/-! ## Items of a block -/

/-- What is skipped between the items of a block. -/
def isBlockGap (n : Node) : Bool :=
  n.isSpacing || n.isSemicolon || n.isLeaf (· = .closing .curly)

/-- Reads what follows a name in a block: a declaration up to `line`'s end, or else, where nested
rules are admitted, a rule up to `statement`'s end. If it is neither, it is a faulty declaration. -/
def readNamed (nested : Bool) (property : String) (statement line : Cut) : Reading × Cut :=
  match declarationReading nested property line.nodes.tail with
  | .ok d => (.declaration d, line)
  | .error f =>
    if nested then
      match styleReading statement with
      | .ok found => (.style found, statement)
      | .error _ => (.fault f, statement)
    else (.fault f, line)

/-- Reads the item of a block that starts with `n`. -/
def readBlockItem (nested : Bool) (n : Node) (rest : List Node) : Reading × Cut :=
  let statement := cutAt endsStatement (n :: rest)
  let line := (cutAt Node.isSemicolon rest).cons n
  match n with
  | .leaf ⟨.atKeyword name, _, _⟩ => (atReading name statement.stop, statement)
  | .leaf ⟨.ident property, _, _⟩ => readNamed nested property statement line
  | _ =>
    if nested then (.ofStyle (styleReading statement), statement)
    else (.fault (.unexpected n.kind), line)

/-- What a failed item leaves to be skipped: the contents of the block it ended at. -/
def Item.leftover (item : Item) : List Node :=
  match item.reading, item.stop with
  | .fault _, some stop => stop.remainder
  | _, _ => []

private theorem length_rest_cutAt_le (p : Node → Bool) (ns : List Node) :
    (cutAt p ns).rest.length ≤ ns.length - 1 := by
  have h := (List.dropWhile_suffix (l := ns) (!p ·)).length_le
  simp only [cutAt, List.length_tail]
  omega

private theorem length_rest_cutAt_cons_le (p : Node → Bool) (n : Node) (rest : List Node) :
    (cutAt p (n :: rest)).rest.length ≤ rest.length :=
  length_rest_cutAt_le p (n :: rest)

private theorem readNamed_cut (nested : Bool) (property : String) (statement line : Cut) :
    (readNamed nested property statement line).2 = statement ∨
      (readNamed nested property statement line).2 = line := by
  unfold readNamed
  repeat' split
  all_goals simp

/-- An item ends with its statement or with its line. -/
theorem readBlockItem_cut (nested : Bool) (n : Node) (rest : List Node) :
    (readBlockItem nested n rest).2 = cutAt endsStatement (n :: rest) ∨
      (readBlockItem nested n rest).2 = (cutAt Node.isSemicolon rest).cons n := by
  unfold readBlockItem
  split
  · exact .inl rfl
  · exact readNamed_cut ..
  · split
    · exact .inl rfl
    · exact .inr rfl

private theorem length_rest_readBlockItem (nested : Bool) (n : Node) (rest : List Node) :
    (readBlockItem nested n rest).2.rest.length ≤ rest.length := by
  rcases readBlockItem_cut nested n rest with h | h <;> rw [h]
  · exact length_rest_cutAt_cons_le endsStatement n rest
  · exact Nat.le_trans (length_rest_cutAt_le Node.isSemicolon rest) (Nat.sub_le ..)

private theorem length_lt_of_dropWhile {p : Node → Bool} {ns : List Node} {n : Node}
    {rest : List Node} (h : ns.dropWhile p = n :: rest) : rest.length < ns.length := by
  have hd := (List.dropWhile_suffix (l := ns) p).length_le
  rw [h, List.length_cons] at hd
  exact hd

/-- The items of a block, when `skipped` stands before it. -/
def blockItems (nested : Bool) (skipped : List Node) (ns : List Node) : List Item :=
  match _h : ns.dropWhile isBlockGap with
  | [] => []
  | n :: rest =>
    let found := readBlockItem nested n rest
    let item : Item :=
      ⟨skipped ++ ns.takeWhile isBlockGap, n.first.line, found.2.nodes, found.2.stop, found.1⟩
    item :: blockItems nested item.leftover found.2.rest
termination_by ns.length
decreasing_by
  exact Nat.lt_of_le_of_lt (length_rest_readBlockItem _ n rest) (length_lt_of_dropWhile _h)

/-! ## Items of a rule list -/

/-- What is skipped between the items of a rule list. -/
def isRuleGap (n : Node) : Bool := n.isLeaf Kind.isRuleGap

/-- The keyword of a character set statement. -/
def isCharset (n : Node) : Bool :=
  n.isLeaf fun
    | .atKeyword name => name.toLower = "charset"
    | _ => false

/-- Reads the item of a rule list that starts with `n`. -/
def readRuleItem (n : Node) (rest : List Node) : Reading × Cut :=
  match n with
  | .leaf ⟨.atKeyword name, _, _⟩ =>
    let c := cutAt endsStatement (n :: rest)
    (atReading name c.stop, c)
  | _ =>
    let c := cutAt Node.isBraces (n :: rest)
    (.ofStyle (styleReading c), c)

/-- The items of a rule list and what is skipped after the last one. -/
structure RuleItems where
  items : List Item
  tail : List Node

private theorem length_rest_readRuleItem (n : Node) (rest : List Node) :
    (readRuleItem n rest).2.rest.length ≤ rest.length := by
  unfold readRuleItem
  split <;> exact length_rest_cutAt_cons_le ..

/-- The items of a rule list, when `skipped` stands before it. A character set statement that comes
first is skipped like a comment. -/
def ruleItems (first : Bool) (skipped : List Node) (ns : List Node) : RuleItems :=
  let gap := skipped ++ ns.takeWhile isRuleGap
  match _h : ns.dropWhile isRuleGap with
  | [] => ⟨[], gap⟩
  | n :: rest =>
    if first && isCharset n then
      let c := cutAt endsStatement rest
      ruleItems false (gap ++ n :: (c.nodes ++ c.stop.toList)) c.rest
    else
      let found := readRuleItem n rest
      let more := ruleItems false [] found.2.rest
      ⟨⟨gap, n.first.line, found.2.nodes, found.2.stop, found.1⟩ :: more.items, more.tail⟩
termination_by ns.length
decreasing_by
  · have hc := length_rest_cutAt_le endsStatement rest
    have hd := length_lt_of_dropWhile _h
    omega
  · exact Nat.lt_of_le_of_lt (length_rest_readRuleItem n rest) (length_lt_of_dropWhile _h)

/-! ## Items lie in their list -/

private theorem stop_mem_of_cutAt {p : Node → Bool} {ns : List Node} {b : Node}
    (h : (cutAt p ns).stop = some b) : b ∈ ns :=
  (List.dropWhile_sublist (!p ·)).mem (List.mem_of_head? h)

private theorem mem_of_mem_rest_cutAt {p : Node → Bool} {ns : List Node} {b : Node}
    (h : b ∈ (cutAt p ns).rest) : b ∈ ns :=
  (List.dropWhile_sublist (!p ·)).mem (List.mem_of_mem_tail h)

private theorem mem_of_dropWhile {p : Node → Bool} {ns : List Node} {n : Node}
    {rest : List Node} (h : ns.dropWhile p = n :: rest) {b : Node} (hb : b ∈ n :: rest) :
    b ∈ ns :=
  (List.dropWhile_sublist p).mem (h ▸ hb)

private theorem mem_of_readBlockItem (nested : Bool) (n : Node) (rest : List Node) {b : Node}
    (h : (readBlockItem nested n rest).2.stop = some b ∨
      b ∈ (readBlockItem nested n rest).2.rest) : b ∈ n :: rest := by
  rcases readBlockItem_cut nested n rest with hc | hc <;> rw [hc] at h
  · exact h.elim stop_mem_of_cutAt mem_of_mem_rest_cutAt
  · exact List.mem_cons_of_mem _ (h.elim stop_mem_of_cutAt mem_of_mem_rest_cutAt)

private theorem mem_of_readRuleItem (n : Node) (rest : List Node) {b : Node}
    (h : (readRuleItem n rest).2.stop = some b ∨ b ∈ (readRuleItem n rest).2.rest) :
    b ∈ n :: rest := by
  unfold readRuleItem at h
  split at h <;> exact h.elim stop_mem_of_cutAt mem_of_mem_rest_cutAt

/-- A block that ends an item of a block is one of the nodes of that block. -/
theorem stop_mem_of_mem_blockItems {nested : Bool} {skipped ns : List Node} {item : Item}
    (hi : item ∈ blockItems nested skipped ns) {b : Node} (hb : item.stop = some b) : b ∈ ns := by
  fun_induction blockItems nested skipped ns with
  | case1 => simp at hi
  | case2 skipped ns n rest h found it ih =>
    refine mem_of_dropWhile h ?_
    rcases List.mem_cons.1 hi with rfl | hi
    · exact mem_of_readBlockItem nested n rest (.inl hb)
    · exact mem_of_readBlockItem nested n rest (.inr (ih hi))

/-- A block that ends an item of a rule list is one of the nodes of that list. -/
theorem stop_mem_of_mem_ruleItems {first : Bool} {skipped ns : List Node} {item : Item}
    (hi : item ∈ (ruleItems first skipped ns).items) {b : Node} (hb : item.stop = some b) :
    b ∈ ns := by
  fun_induction ruleItems first skipped ns with
  | case1 => simp at hi
  | case2 first skipped ns gap n rest h hf c ih =>
    exact mem_of_dropWhile h (List.mem_cons_of_mem _ (mem_of_mem_rest_cutAt (ih hi)))
  | case3 first skipped ns gap n rest h hf found more ih =>
    refine mem_of_dropWhile h ?_
    rcases List.mem_cons.1 hi with rfl | hi
    · exact mem_of_readRuleItem n rest (.inl hb)
    · exact mem_of_readRuleItem n rest (.inr (ih hi))

end SheetDiff
