import SheetDiff.Sheet.Item

/-!
# Reading a stylesheet

`readBlock` reads the contents of a block and `readRules` a rule list, item by item and from the
outside in. A faulty item of a block is skipped with a warning; a faulty rule of a rule list is an
error of the sheet. `Stylesheet.parse` reads a whole text, where a character set statement may
stand first.

`readBlock_eq` and `readRules_eq` give both readings as equations over the items.
-/

namespace SheetDiff

open Css (Kind Node Token)

/-! ## Blocks of items -/

/-- The contents of the block of an item that is read as a rule. -/
def Item.inner (item : Item) : List Node :=
  match item.reading, item.stop with
  | .style _, some stop | .atRule _, some stop => stop.inner
  | _, _ => []

/-- Whether an item ends with a block. -/
def Item.hasBlock (item : Item) : Bool := item.stop.any Node.isBraces

private theorem sizeOf_inner_lt {ns : List Node} {item : Item} (hne : ns ≠ [])
    (h : ∀ b, item.stop = some b → b ∈ ns) : sizeOf item.inner < sizeOf ns := by
  have hnil : sizeOf ([] : List Node) < sizeOf ns := by
    obtain ⟨n, rest, rfl⟩ := List.exists_cons_of_ne_nil hne
    have hn : 0 < sizeOf n := by cases n <;> simp +arith
    simp only [List.nil.sizeOf_spec, List.cons.sizeOf_spec]
    omega
  have hblock (b : Node) (hb : item.stop = some b) : sizeOf b.inner < sizeOf ns := by
    have hm := List.sizeOf_lt_of_mem (h b hb)
    cases b with
    | leaf t => exact hnil
    | block opener inner closer =>
      simp only [Node.block.sizeOf_spec, Node.inner] at hm ⊢
      omega
  unfold Item.inner
  split
  · exact hblock _ (by assumption)
  · exact hblock _ (by assumption)
  · exact hnil

private theorem ne_nil_of_mem_blockItems {nested : Bool} {ns : List Node} {item : Item}
    (h : item ∈ blockItems nested [] ns) : ns ≠ [] := by
  rintro rfl
  simp [blockItems] at h

private theorem ne_nil_of_mem_ruleItems {ns : List Node} {item : Item}
    (h : item ∈ (ruleItems true [] ns).items) : ns ≠ [] := by
  rintro rfl
  simp [ruleItems] at h

private theorem sizeOf_inner_lt_of_mem_blockItems {nested : Bool} {ns : List Node} {item : Item}
    (h : item ∈ blockItems nested [] ns) : sizeOf item.inner < sizeOf ns :=
  sizeOf_inner_lt (ne_nil_of_mem_blockItems h) fun _ hb => stop_mem_of_mem_blockItems h hb

private theorem sizeOf_inner_lt_of_mem_ruleItems {ns : List Node} {item : Item}
    (h : item ∈ (ruleItems true [] ns).items) : sizeOf item.inner < sizeOf ns :=
  sizeOf_inner_lt (ne_nil_of_mem_ruleItems h) fun _ hb => stop_mem_of_mem_ruleItems h hb

/-! ## Contents of a block -/

/-- What a block holds. -/
structure Contents where
  declarations : List Declaration
  rules : List Rule
  warnings : List Warning
  deriving Inhabited

/-- The contents of several parts in order. -/
def Contents.concat (parts : List Contents) : Contents :=
  ⟨parts.flatMap (·.declarations), parts.flatMap (·.rules), parts.flatMap (·.warnings)⟩

/-- The body of an at-rule whose block holds these contents. -/
def Contents.body (c : Contents) : AtBody :=
  if c.rules.isEmpty then .declarations c.declarations
  else if c.declarations.isEmpty then .rules c.rules
  else .block c.declarations c.rules

/-- Whether style rules may nest in the block of an item. -/
def Item.nests (item : Item) : Bool :=
  match item.reading with
  | .atRule name => AtClass.ofName name ≠ .declarations
  | _ => true

/-- The body of an at-rule whose block, if it has one, holds `inner`. -/
def Item.atBody (item : Item) (inner : AtBody) : AtBody := if item.hasBlock then inner else .none

/-- The tokens that a warning passes over to find its line. -/
def passedInBlock (k : Kind) : Bool := k.isRuleGap || k = .semicolon

/-- What an item adds to its block, when its own block holds `inner`. -/
def Item.contents (item : Item) (inner : Contents) : Contents :=
  match item.reading with
  | .declaration d => ⟨[d], [], []⟩
  | .style selectors =>
    ⟨[], [.style selectors inner.declarations inner.rules item.line], inner.warnings⟩
  | .atRule name => ⟨[], [.atRule name item.lead (item.atBody inner.body) item.line], inner.warnings⟩
  | .fault f => ⟨[], [], [f.warning item.quoted (item.faultLine passedInBlock)]⟩

/-- The contents of a block; style rules nest in it only if `nested` says so. -/
def readBlock (nested : Bool) (ns : List Node) : Contents :=
  .concat ((blockItems nested [] ns).attach.map fun item =>
    item.1.contents (readBlock item.1.nests item.1.inner))
termination_by sizeOf ns
decreasing_by exact sizeOf_inner_lt_of_mem_blockItems item.2

theorem readBlock_eq (nested : Bool) (ns : List Node) :
    readBlock nested ns = .concat ((blockItems nested [] ns).map fun item =>
      item.contents (readBlock item.nests item.inner)) := by
  rw [readBlock, List.attach_map_val (f := fun item : Item =>
    item.contents (readBlock item.nests item.inner))]

/-! ## Rule lists -/

/-- What a rule list holds. -/
structure Listing where
  rules : List Rule
  warnings : List Warning
  deriving Inhabited

/-- The listings of several parts in order, or the first error among them. -/
def Listing.concat : List (Except ParseError Listing) → Except ParseError Listing
  | [] => .ok ⟨[], []⟩
  | part :: parts => do
    let first ← part
    let others ← concat parts
    .ok ⟨first.rules ++ others.rules, first.warnings ++ others.warnings⟩

/-- The line reached after the first token of a node. -/
def lineBehind (n : Node) : Nat := n.first.line + Text.lineBreaks n.first.source

/-- The comments among nodes that stand between rules. A comment right behind a block is put on the
line reached when that block opens. -/
def commentsOf (previous : Option Node) : List Node → List Rule
  | [] => []
  | n :: ns =>
    match n with
    | .leaf ⟨.comment text, _, line⟩ =>
      .comment text (((previous.filter Node.isBlock).map lineBehind).getD line)
        :: commentsOf (some n) ns
    | _ => commentsOf (some n) ns

/-- Whether an item is an at-rule with a block that is read as a rule list. -/
def Item.groups (item : Item) : Bool :=
  match item.reading with
  | .atRule name => item.hasBlock && AtClass.ofName name ≠ .declarations
  | _ => false

/-- The rule of an item of a rule list; `inner` is what its block holds if it is a rule list. -/
def Item.rule (item : Item) (inner : Except ParseError Listing) : Except ParseError Listing :=
  match item.reading with
  | .fault f => .error (f.error item.quoted (item.faultLine Kind.isRuleGap))
  | .atRule name =>
    if item.groups then do
      let listing ← inner
      .ok ⟨[.atRule name item.lead (.rules listing.rules) item.line], listing.warnings⟩
    else
      let c := item.contents (readBlock item.nests item.inner)
      .ok ⟨c.rules, c.warnings⟩
  | _ =>
    let c := item.contents (readBlock item.nests item.inner)
    .ok ⟨c.rules, c.warnings⟩

/-- What an item adds to its rule list: the comments before it, and its rule. -/
def Item.listing (item : Item) (inner : Except ParseError Listing) : Except ParseError Listing := do
  let rule ← item.rule inner
  .ok ⟨commentsOf none item.skipped ++ rule.rules, rule.warnings⟩

/-- The rules of a rule list with the warnings of their blocks. -/
def readRules (ns : List Node) : Except ParseError Listing :=
  let found := ruleItems true [] ns
  let parts := found.items.attach.map fun item =>
    item.1.listing (if item.1.groups then readRules item.1.inner else .ok ⟨[], []⟩)
  Listing.concat (parts ++ [.ok ⟨commentsOf none found.tail, []⟩])
termination_by sizeOf ns
decreasing_by exact sizeOf_inner_lt_of_mem_ruleItems item.2

theorem readRules_eq (ns : List Node) :
    readRules ns = Listing.concat (((ruleItems true [] ns).items.map fun item =>
      item.listing (if item.groups then readRules item.inner else .ok ⟨[], []⟩))
        ++ [.ok ⟨commentsOf none (ruleItems true [] ns).tail, []⟩]) := by
  rw [readRules, List.attach_map_val (f := fun item : Item =>
    item.listing (if item.groups then readRules item.inner else .ok ⟨[], []⟩))]

/-! ## Whole sheets -/

/-- The source of a character set statement after its keyword; a block right before its end is cut
after its opening token. -/
def charsetSource (ns : List Node) : List Char :=
  match ns.getLast? with
  | none => []
  | some n => Node.source ns.dropLast ++ if n.isBlock then n.first.source else Node.source [n]

/-- Reads the nodes of a sheet, which may start with a character set statement. -/
def Stylesheet.ofNodes (ns : List Node) : Except ParseError Stylesheet :=
  match ns with
  | .leaf ⟨.atKeyword name, _, _⟩ :: rest =>
    if name.toLower = "charset" then do
      let c := cutAt Node.isSemicolon rest
      let listing ← readRules c.rest
      let charset := .atRule name (Text.collapse (charsetSource c.nodes)) .none 1
      .ok ⟨charset :: listing.rules, listing.warnings⟩
    else do
      let listing ← readRules ns
      .ok ⟨listing.rules, listing.warnings⟩
  | _ => do
    let listing ← readRules ns
    .ok ⟨listing.rules, listing.warnings⟩

/-- Reads a stylesheet. -/
def Stylesheet.parse (text : String) : Except ParseError Stylesheet :=
  ofNodes (Node.ofText text.toList)

end SheetDiff
