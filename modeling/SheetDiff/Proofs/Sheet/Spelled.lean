import SheetDiff.Proofs.Sheet.Entries
import SheetDiff.Proofs.Sheet.Layout
import SheetDiff.Proofs.Sheet.Normal

/-!
# Canonical texts hold what they are texts of

The canonical text of declarations and rules, at any depth and in any list, holds these declarations and
rules (`DeclarationsHold`, `RulesHold`), if each of their parts spells nodes that are read as this part:
values (`declarationsHold_single`), selectors (`rulesHold_style`), names and leads (`rulesHold_atRule`).
-/

namespace SheetDiff

open Css (Blanks Bracket Kind Node Solid Spells Stops isBlank)

variable {role : Role} {nested : Bool} {b : Option Bracket} {n m : Node} {c d : Contents}
variable {ns ms body rest part : List Node} {parts : List (List Node)} {K : List Char → Prop}
variable {p q : List Char} {ds es : List Declaration} {rs ss : List Rule} {found : List String}

/-! ## What is kept of contents -/

/-- Contents without lines and warnings, which their canonical text does not show. -/
def Contents.kept (c : Contents) : Contents :=
  ⟨c.declarations.map Declaration.unlined, Rule.allUnlined c.rules, []⟩

theorem Contents.kept_append (c d : Contents) : (c.append d).kept = c.kept.append d.kept := by
  simp [Contents.kept, Contents.append, Rule.allUnlined, Rule.mapAllLines_append]

/-- Declarations whose lines hold them wherever they stand. -/
def DeclarationsHold (role : Role) (b : Option Bracket) (ds : List Declaration) : Prop :=
  ∀ K depth p c, Holds role b K p c →
    Holds role b K (ds.flatMap (·.chars depth) ++ p) ((Contents.kept ⟨ds, [], []⟩).append c)

/-- Rules whose texts hold them wherever they stand. -/
def RulesHold (role : Role) (b : Option Bracket) (rs : List Rule) : Prop :=
  ∀ K depth p c, Holds role b K p c →
    Holds role b K (ruleChars depth rs ++ p) ((Contents.kept ⟨[], rs, []⟩).append c)

/-- Contents whose canonical text holds them. -/
structure Contents.Hold (role : Role) (b : Option Bracket) (c : Contents) : Prop where
  declarations : DeclarationsHold role b c.declarations
  rules : RulesHold role b c.rules

theorem declarationsHold_nil (role : Role) (b : Option Bracket) : DeclarationsHold role b [] := by
  intro K depth p c h
  exact h

theorem rulesHold_nil (role : Role) (b : Option Bracket) : RulesHold role b [] := by
  intro K depth p c h
  exact h

theorem DeclarationsHold.append (hd : DeclarationsHold role b ds) (he : DeclarationsHold role b es) :
    DeclarationsHold role b (ds ++ es) := by
  intro K depth p c h
  have hall := hd K depth _ _ (he K depth _ _ h)
  rw [← List.append_assoc, ← List.flatMap_append, ← Contents.append_assoc,
    ← Contents.kept_append] at hall
  exact hall

theorem blanks_newline : Blanks ['\n'] := by
  intro a ha
  obtain rfl := List.mem_singleton.1 ha
  rfl

theorem blanks_margin (depth : Nat) : Blanks (margin depth) := by
  intro a ha
  obtain rfl := List.eq_of_mem_replicate ha
  rfl

/-- A blank line between rules adds nothing. -/
theorem RulesHold.append (hr : RulesHold role b rs) (hs : RulesHold role b ss) :
    RulesHold role b (rs ++ ss) := by
  cases rs with
  | nil => exact hs
  | cons r rs =>
    cases ss with
    | nil =>
      rw [List.append_nil]
      exact hr
    | cons s ss =>
      intro K depth p c h
      have hlines := ((hs K depth _ _ h).blanks blanks_newline).blanks blanks_newline
      have hall := hr K depth _ _ hlines
      rw [← Contents.append_assoc, ← Contents.kept_append] at hall
      rw [ruleChars_append depth (by simp) (by simp)]
      simpa [Contents.append] using hall

theorem Contents.hold_empty (role : Role) (b : Option Bracket) : Contents.empty.Hold role b :=
  ⟨declarationsHold_nil role b, rulesHold_nil role b⟩

/-- The contents of several parts hold if each part does. -/
theorem Contents.hold_concat {parts : List Contents} (h : ∀ c ∈ parts, c.Hold role b) :
    (Contents.concat parts).Hold role b := by
  induction parts with
  | nil => exact Contents.hold_empty role b
  | cons c parts ih =>
    obtain ⟨hd, hr⟩ := ih fun d hd => h d (List.mem_cons_of_mem _ hd)
    have hc := h c List.mem_cons_self
    exact ⟨hc.declarations.append hd, hc.rules.append hr⟩

/-! ## Blocks -/

/-- A text that starts with a curly bracket that closes. -/
def StartsClosed (k : List Char) : Prop := ∃ u, k = '\x7d' :: u

/-- What stands between the brackets of a block. -/
private theorem Contents.Hold.block (h : c.Hold role (some .curly)) (depth : Nat) :
    ∃ ns, Spells (some .curly) StartsClosed
        ('\n' :: (blockChars depth c.declarations c.rules ++ margin depth)) ns ∧
      role.result ns = some c.kept := by
  have hsolid (k : List Char) (hk : StartsClosed k) : Solid k := by
    obtain ⟨u, rfl⟩ := hk
    exact Css.solid_closeBrace u
  have hend : Holds role (some .curly) StartsClosed (margin depth) .empty := by
    have hnil := (holds_nil role (some .curly) hsolid).blanks (blanks_margin depth)
    rwa [List.append_nil] at hnil
  have hrules : Holds role (some .curly) StartsClosed
      ((if c.rules = [] then [] else (if c.declarations = [] then [] else ['\n']) ++
        (ruleChars (depth + 1) c.rules ++ ['\n'])) ++ margin depth)
      (Contents.kept ⟨[], c.rules, []⟩) := by
    have hall := h.rules StartsClosed (depth + 1) _ _ (hend.blanks blanks_newline)
    rw [Contents.append_empty] at hall
    by_cases hr : c.rules = []
    · rw [if_pos hr, hr]
      exact hend
    · rw [if_neg hr]
      by_cases hd : c.declarations = []
      · rw [if_pos hd]
        simpa using hall
      · rw [if_neg hd]
        simpa using hall.blanks blanks_newline
  have hall := (h.declarations StartsClosed (depth + 1) _ _ hrules).blanks blanks_newline
  obtain ⟨ns, hsp, ha⟩ := hall.exists_nodes
  refine ⟨ns, ?_, ?_⟩
  · simpa [blockChars] using hsp
  · rw [ha.result_self, ← Contents.kept_append]
    simp [Contents.append, Contents.kept]

/-- A space. -/
def spaceLeaf : Node := .leaf ⟨.whitespace, [' '], 0⟩

private theorem blanks_space : Blanks [' '] := by
  intro a ha
  obtain rfl := List.mem_singleton.1 ha
  rfl

private theorem spells_space : Spells b Solid [' '] [spaceLeaf] := Css.spells_gap blanks_space

/-- The text of a block, with the space before it, spells a block that is read as what it is the text
of. -/
theorem Contents.Hold.spells (h : c.Hold role (some .curly)) (depth : Nat) (b : Option Bracket)
    (K : List Char → Prop) : ∃ inner,
      Spells b K (bracedChars depth c.declarations c.rules) [spaceLeaf, Css.bracesOf inner] ∧
        role.result inner = some c.kept := by
  obtain ⟨inner, hsp, hr⟩ := h.block depth
  refine ⟨inner, ?_, hr⟩
  have hbraces := hsp.braces (b := b) (fun k => ⟨k, rfl⟩) K
  have hopen (k : List Char) (_ : K k) : Solid ('{' ::
      ('\n' :: (blockChars depth c.declarations c.rules ++ margin depth) ++ ['}']) ++ k) := by
    intro a ha
    obtain rfl : '{' = a := by simpa using ha
    decide
  have hall := spells_space.append hbraces hopen
  simpa [bracedChars] using hall

/-! ## Declarations and comments -/

theorem Text.Filled.exists_cons {s : String} (h : Text.Filled s) :
    ∃ a u, s.toList = a :: u ∧ isBlank a = false := by
  cases hs : s.toList with
  | nil => exact absurd (String.toList_eq_nil_iff.1 hs) h.ne
  | cons a u =>
    refine ⟨a, u, rfl, ?_⟩
    have ha := h.stored.head_not_space (c := a) (by rw [hs]; rfl)
    rw [← Bool.not_eq_true]
    intro hb
    simp [Css.isSpace_of_isBlank hb] at ha

theorem Text.Filled.solid {s : String} (h : Text.Filled s) (k : List Char) :
    Solid (s.toList ++ k) := by
  obtain ⟨a, u, hs, ha⟩ := h.exists_cons
  intro e he
  obtain rfl : a = e := by simpa [hs] using he
  exact ha

/-- A declaration whose name and value spell nodes from which it is read. -/
structure Declaration.Spelled (nested : Bool) (d : Declaration) (body : List Node) : Prop where
  solid : ∃ a u, d.property.toList = a :: u ∧ isBlank a = false
  property : Spells (some .curly) Stops d.property.toList
    [.leaf ⟨.ident d.property, d.property.toList, 0⟩]
  filled : Text.Filled d.value
  value : Spells (some .curly) Stops d.value.toList body
  semicolon : ∀ n ∈ body, n.isSemicolon = false
  braces : (nested && !(['-', '-'].isPrefixOf d.property.toList) && body.any Node.isBraces) = false

/-- A value with a space before it is read as the declaration. -/
private theorem Declaration.Spelled.reading {d : Declaration} {value : List Node}
    (h : d.Spelled nested value) :
    declarationReading nested d.property (Css.colonLeaf :: spaceLeaf :: value) = .ok d.unlined := by
  have hvalue : Text.collapse (Node.source (spaceLeaf :: value)) = d.value := by
    rw [Node.source_cons, h.value.source]
    exact (Text.collapse_cons_of_isSpace (by decide) _).trans h.filled.stored
  have hany : (spaceLeaf :: value).any Node.isBraces = value.any Node.isBraces := rfl
  have hcolon : Node.isSpacing Css.colonLeaf = false := rfl
  have hne : d.value.isEmpty = false := by simpa using h.filled.ne
  unfold declarationReading
  rw [List.dropWhile_cons_of_neg (by simp [hcolon])]
  simp only [hvalue, hany, h.braces, hne]
  rfl

theorem declarationsHold_single {d : Declaration} {value : List Node} (h : d.Spelled nested value) :
    DeclarationsHold (.block nested) (some .curly) [d] := by
  have hspells : Spells (some .curly) (fun _ => True)
      (d.property.toList ++ ([':'] ++ ([' '] ++ (d.value.toList ++ [';']))))
      ([.leaf ⟨.ident d.property, d.property.toList, 0⟩] ++ ([Css.colonLeaf] ++ ([spaceLeaf] ++
        (value ++ [Css.semicolonLeaf])))) := by
    refine h.property.append ((Css.spells_colon fun _ => True).append (spells_space.append
      (h.value.append (Css.spells_semicolon fun _ => True) ?_) ?_) ?_) ?_
    · intro k _
      exact Css.stops_cons (by decide) k
    · intro k _
      rw [List.append_assoc]
      exact h.filled.solid _
    · intro k _
      trivial
    · intro k _
      exact Css.stops_cons (by decide) _
  have hbody : ∀ n ∈ Css.colonLeaf :: spaceLeaf :: value, n.isSemicolon = false := by
    intro n hn
    rcases List.mem_cons.1 hn with rfl | hn
    · rfl
    · rcases List.mem_cons.1 hn with rfl | hn
      · rfl
      · exact h.semicolon n hn
  have hadds : Adds (.block nested) _ _ :=
    adds_item (m := Css.semicolonLeaf) rfl (by intro hr; cases hr)
      (readItem_declaration d.property.toList 0 hbody rfl h.reading) (by simp) (by simp)
      (fun _ => rfl) (result_nil _)
  have hentry : IsEntry (.block nested) (some .curly)
      (d.property.toList ++ ([':'] ++ ([' '] ++ (d.value.toList ++ [';']))))
      (Contents.kept ⟨[d], [], []⟩) := by
    obtain ⟨a, u, hs, ha⟩ := h.solid
    exact ⟨⟨a, _, by rw [hs]; rfl, ha⟩, _, hspells, hadds⟩
  intro K depth p c hp
  have hall := ((hp.blanks blanks_newline).entry hentry).blanks (blanks_margin depth)
  simpa [Declaration.chars] using hall

theorem rulesHold_of_entry {r : Rule}
    (h : ∀ depth, ∃ q, (r.text depth).toList = margin depth ++ q ∧
      IsEntry role b q (Contents.kept ⟨[], [r], []⟩)) : RulesHold role b [r] := by
  intro K depth p c hp
  obtain ⟨q, hq, he⟩ := h depth
  rw [ruleChars, hq, List.append_assoc]
  exact (hp.entry he).blanks (blanks_margin depth)

theorem rulesHold_comment {text : String} (h : ¬ Css.ClosesComment text.toList) (line : Nat) :
    RulesHold .rules b [.comment text line] := by
  apply rulesHold_of_entry
  intro depth
  refine ⟨_, toList_comment depth text line, ⟨'/', _, rfl, by decide⟩,
    [.leaf ⟨.comment text, '/' :: '*' :: (text.toList ++ ['*', '/']), 0⟩], ?_, ?_⟩
  · have hreads (k : List Char) (_ : True) : Css.Reads (Node.allTokens
        [.leaf ⟨.comment text, '/' :: '*' :: (text.toList ++ ['*', '/']), 0⟩]) k := by
      have hone := Css.readsOne_comment h 0 k
      rw [String.ofList_toList] at hone
      exact ⟨hone, trivial⟩
    have hsp := Css.Spells.of_reads (b := b) hreads ⟨⟨rfl, by simp [Kind.closes?]⟩, trivial⟩
    simpa [Node.source_cons, Node.tokens, Css.Token.unlined] using hsp
  · refine adds_gap rfl ?_
    intro _ n hn
    obtain rfl := List.mem_singleton.1 hn
    rfl

/-! ## Selectors -/

/-- A selector that spells nodes without commas, blocks in curly brackets and semicolons. -/
structure SpellsSelector (b : Option Bracket) (s : String) (part : List Node) : Prop where
  filled : Text.Filled s
  spells : Spells b Stops s.toList part
  comma : ∀ n ∈ part, n.isLeaf (· = .comma) = false
  statement : ∀ n ∈ part, endsStatement n = false
  charset : ∀ n ∈ part, isCharset n = false

/-- The nodes of selectors on lines of their own. -/
def joinedNodes (depth : Nat) : List (List Node) → List Node
  | [] => []
  | [part] => part
  | part :: parts =>
    part ++ Css.commaLeaf :: (Css.gapNodes ('\n' :: margin depth) ++ joinedNodes depth parts)

private theorem blanks_line (depth : Nat) : Blanks ('\n' :: margin depth) := by
  intro a ha
  rcases List.mem_cons.1 ha with rfl | ha
  · rfl
  · exact blanks_margin depth a ha

theorem spells_selectors (h : List.Forall₂ (SpellsSelector b) found parts) (depth : Nat) :
    Spells b Stops (selectorChars depth found) (joinedNodes depth parts) := by
  induction h with
  | nil => exact .nil
  | @cons s part found parts hs hrest ih =>
    cases hrest with
    | nil => exact hs.spells
    | @cons t _ found _ ht _ =>
      have hsolid (k : List Char) : Solid (selectorChars depth (t :: found) ++ k) := by
        cases found with
        | nil => exact ht.filled.solid k
        | cons u found =>
          simp only [selectorChars, List.append_assoc]
          exact ht.filled.solid _
      have hgap := (Css.spells_gap (b := b) (blanks_line depth)).append ih fun k _ => hsolid k
      have hcomma := (Css.spells_comma (b := b) fun _ => True).append hgap fun _ _ => trivial
      have hall := hs.spells.append hcomma fun k _ => Css.stops_cons (by decide) _
      simpa [selectorChars, joinedNodes] using hall

/-- A part without commas is one part. -/
private theorem commaParts_plain (h : ∀ n ∈ part, n.isLeaf (· = .comma) = false) :
    commaParts part = [Node.source part] := by
  induction part with
  | nil => rfl
  | cons n part ih =>
    have hhead : part.head?.any (·.isLeaf (· = .comma)) = false := by
      cases part with
      | nil => rfl
      | cons m part => exact h m (by simp)
    rw [commaParts, ih fun m hm => h m (List.mem_cons_of_mem _ hm), h n List.mem_cons_self, hhead]
    simp [← Node.source_append]

/-- A part ends at a comma, if no block stands right before it. -/
private theorem commaParts_plain_append (h : ∀ n ∈ part, n.isLeaf (· = .comma) = false)
    (hlast : ∀ n ∈ part.getLast?, n.isBlock = false) (hm : m.isLeaf (· = .comma) = true)
    (rest : List Node) : commaParts (part ++ m :: rest) = Node.source part :: commaParts rest := by
  induction part with
  | nil => rw [List.nil_append, commaParts, if_pos hm]; rfl
  | cons n part ih =>
    have hcut : (n.isBlock && (part ++ m :: rest).head?.any (·.isLeaf (· = .comma))) = false := by
      cases part with
      | nil => simp [hlast n (by simp)]
      | cons k part => simp [h k (by simp)]
    have ih := ih (fun k hk => h k (List.mem_cons_of_mem _ hk)) fun k hk => hlast k (by
      cases part with
      | nil => simp at hk
      | cons k' part => rwa [List.getLast?_cons_cons])
    rw [List.cons_append, commaParts, ih, h n List.mem_cons_self, hcut]
    simp [← Node.source_append]

/-- A property of all nodes of selectors. -/
private theorem forall_joinedNodes {P : Node → Prop} (h : ∀ part ∈ parts, ∀ n ∈ part, P n)
    (hcomma : P Css.commaLeaf) (hgap : ∀ g, P (.leaf ⟨.whitespace, g, 0⟩)) (depth : Nat) :
    ∀ n ∈ joinedNodes depth parts, P n := by
  induction parts with
  | nil => simp [joinedNodes]
  | cons part parts ih =>
    have ih := ih fun p hp => h p (List.mem_cons_of_mem _ hp)
    have hpart := h part List.mem_cons_self
    cases parts with
    | nil => exact hpart
    | cons part' parts =>
      intro n hn
      simp only [joinedNodes, List.mem_append, List.mem_cons] at hn
      rcases hn with hn | rfl | hn | hn
      · exact hpart n hn
      · exact hcomma
      · obtain rfl : n = .leaf ⟨.whitespace, '\n' :: margin depth, 0⟩ := by
          simpa [Css.gapNodes] using hn
        exact hgap _
      · exact ih n hn

/-- The selectors of a list that may start with white space are the texts that its parts spell. -/
private theorem commaParts_joinedNodes (h : List.Forall₂ (SpellsSelector b) found parts)
    (hne : found ≠ []) (hlast : ∀ part ∈ parts.dropLast, ∀ n ∈ part.getLast?, n.isBlock = false)
    (depth : Nat) {g : List Char} (hg : Blanks g) :
    ((commaParts (Css.gapNodes g ++ (joinedNodes depth parts ++ [spaceLeaf]))).map
      Text.collapse).filter (!·.isEmpty) = found := by
  have hgap {g : List Char} (hg : Blanks g) : Node.source (Css.gapNodes g) = g ∧
      ∀ n ∈ Css.gapNodes g, n.isLeaf (· = .comma) = false ∧ n.isBlock = false := by
    refine ⟨(Css.spells_gap (b := none) hg).source, ?_⟩
    intro n hn
    unfold Css.gapNodes at hn
    split at hn
    · simp at hn
    · obtain rfl := List.mem_singleton.1 hn
      exact ⟨rfl, rfl⟩
  induction h generalizing g with
  | nil => exact absurd rfl hne
  | @cons s part found parts hs hrest ih =>
    have hempty : s.isEmpty = false := by simpa using hs.filled.ne
    have hsource (g : List Char) (hg : Blanks g) (u : List Char) (hu : Blanks u) :
        Text.collapse (g ++ (Node.source part ++ u)) = s := by
      rw [hs.spells.source, Text.collapse_append_of_isSpace hg.isSpace,
        Text.collapse_append_isSpace hu.isSpace]
      exact hs.filled.stored
    cases hrest with
    | nil =>
      have hplain : ∀ n ∈ Css.gapNodes g ++ (part ++ [spaceLeaf]), n.isLeaf (· = .comma) = false := by
        intro n hn
        simp only [List.mem_append, List.mem_singleton] at hn
        rcases hn with hn | hn | rfl
        · exact ((hgap hg).2 n hn).1
        · exact hs.comma n hn
        · rfl
      rw [joinedNodes, commaParts_plain hplain, Node.source_append, (hgap hg).1, Node.source_append,
        List.map_singleton]
      have hspace : Node.source [spaceLeaf] = [' '] := rfl
      rw [hspace, hsource g hg [' '] blanks_space]
      simp [hempty]
    | @cons t part' found parts ht hrest =>
      have hplain : ∀ n ∈ Css.gapNodes g ++ part, n.isLeaf (· = .comma) = false := by
        intro n hn
        rcases List.mem_append.1 hn with hn | hn
        · exact ((hgap hg).2 n hn).1
        · exact hs.comma n hn
      have hblock : ∀ n ∈ (Css.gapNodes g ++ part).getLast?, n.isBlock = false := by
        intro n hn
        cases part with
        | nil =>
          rw [List.append_nil] at hn
          exact ((hgap hg).2 n (List.mem_of_mem_getLast? hn)).2
        | cons k part =>
          rw [List.getLast?_append_of_ne_nil _ (by simp)] at hn
          exact hlast _ (by simp) n hn
      have hsplit : Css.gapNodes g ++ (joinedNodes depth (part :: part' :: parts) ++ [spaceLeaf]) =
          (Css.gapNodes g ++ part) ++ Css.commaLeaf :: (Css.gapNodes ('\n' :: margin depth) ++
            (joinedNodes depth (part' :: parts) ++ [spaceLeaf])) := by
        simp [joinedNodes]
      have hfirst : Text.collapse (Node.source (Css.gapNodes g ++ part)) = s := by
        have hnil := hsource g hg [] (by simp [Blanks])
        rwa [List.append_nil, ← (hgap hg).1, ← Node.source_append] at hnil
      rw [hsplit, commaParts_plain_append hplain hblock rfl, List.map_cons, hfirst, List.filter_cons,
        ih (by simp) (fun p hp => hlast p (by simp [hp])) (blanks_line depth)]
      simp [hempty]

/-- Nothing in the nodes of selectors ends a statement. -/
private theorem statement_joinedNodes (h : List.Forall₂ (SpellsSelector b) found parts)
    (depth : Nat) : ∀ n ∈ joinedNodes depth parts ++ [spaceLeaf],
      endsStatement n = false ∧ isCharset n = false := by
  have hparts : ∀ part ∈ parts, ∀ n ∈ part, endsStatement n = false ∧ isCharset n = false := by
    intro part hp n hn
    obtain ⟨s, -, hs⟩ := exists_mem_of_forall₂ h.flip hp
    exact ⟨hs.statement n hn, hs.charset n hn⟩
  intro n hn
  rcases List.mem_append.1 hn with hn | hn
  · exact forall_joinedNodes hparts ⟨rfl, rfl⟩ (fun _ => ⟨rfl, rfl⟩) depth n hn
  · obtain rfl := List.mem_singleton.1 hn
    exact ⟨rfl, rfl⟩

private theorem selectors_joinedNodes (h : List.Forall₂ (SpellsSelector b) found parts)
    (hne : found ≠ []) (hlast : ∀ part ∈ parts.dropLast, ∀ n ∈ part.getLast?, n.isBlock = false)
    (depth : Nat) : selectors (joinedNodes depth parts ++ [spaceLeaf]) = .ok found := by
  have hparts := commaParts_joinedNodes h hne hlast depth (g := []) (by simp [Blanks])
  rw [show Css.gapNodes [] = [] from rfl, List.nil_append] at hparts
  have hno : (joinedNodes depth parts ++ [spaceLeaf]).any Node.isSemicolon = false := by
    refine List.any_eq_false.2 fun n hn => ?_
    have hn := (statement_joinedNodes h depth n hn).1
    simp [not_narrow (fun _ => endsStatement_of_isSemicolon) hn]
  unfold selectors
  rw [hno, hparts]
  cases found with
  | nil => exact absurd rfl hne
  | cons s found => rfl

/-- Only the first selector decides whether a declaration of a custom property starts. -/
private theorem joinedNodes_cons (n : Node) (body : List Node) (parts : List (List Node))
    (depth : Nat) : ∃ more, joinedNodes depth ((n :: body) :: parts) ++ [spaceLeaf] =
      n :: (body ++ more) ∧
        ∀ property, startsCustom property (body ++ more) = true → startsCustom property body = true := by
  have hmore (more : List Node) (hm : ∀ k ∈ (more.dropWhile Node.isSpacing).head?,
      k.isLeaf (· = .colon) = false) (property : String)
      (hs : startsCustom property (body ++ more) = true) : startsCustom property body = true := by
    unfold startsCustom at hs ⊢
    rw [List.dropWhile_append] at hs
    split at hs
    · rw [Bool.and_eq_true] at hs
      cases hd : (more.dropWhile Node.isSpacing).head? with
      | none => simp [hd] at hs
      | some k =>
        rw [hd] at hs
        simp [hm k hd] at hs
    · rename_i hne
      cases hd : body.dropWhile Node.isSpacing with
      | nil => simp [hd] at hne
      | cons k rest => simpa [hd] using hs
  cases parts with
  | nil =>
    refine ⟨[spaceLeaf], rfl, hmore _ ?_⟩
    intro k hk
    simp [spaceLeaf, Node.isSpacing, Node.isLeaf, Node.isBlock, Node.kind, Node.first,
      Kind.isSpacing] at hk
  | cons part parts =>
    refine ⟨Css.commaLeaf :: (Css.gapNodes ('\n' :: margin depth) ++
      (joinedNodes depth (part :: parts) ++ [spaceLeaf])), by simp [joinedNodes], hmore _ ?_⟩
    intro k hk
    rw [List.dropWhile_cons_of_neg (by decide)] at hk
    obtain rfl : Css.commaLeaf = k := by simpa using hk
    rfl

private theorem selectorChars_cons (depth : Nat) (s : String) (ss : List String) :
    ∃ u, selectorChars depth (s :: ss) = s.toList ++ u := by
  cases ss with
  | nil => exact ⟨[], (List.append_nil _).symm⟩
  | cons t ss => exact ⟨_, rfl⟩

/-- A style rule whose selectors spell nodes from which they are read. -/
theorem rulesHold_style (h : List.Forall₂ (SpellsSelector b) found ((n :: body) :: parts))
    (hlast : ∀ part ∈ ((n :: body) :: parts).dropLast, ∀ n ∈ part.getLast?, n.isBlock = false)
    (hg : role.isGap n = false) (hs : role.StartsStyle n body)
    (hc : c.Hold (.block true) (some .curly)) (line : Nat) :
    RulesHold role b [.style found c.declarations c.rules line] := by
  apply rulesHold_of_entry
  intro depth
  have hne : found ≠ [] := by
    rintro rfl
    cases h
  obtain ⟨inner, hblock, hinner⟩ := hc.spells depth b fun _ => True
  obtain ⟨more, hnodes, hcustom⟩ := joinedNodes_cons n body parts depth
  have hselectors := selectors_joinedNodes h hne hlast depth
  have hstatement := statement_joinedNodes h depth
  rw [hnodes] at hselectors hstatement
  have hstart : role.StartsStyle n (body ++ more) := by
    refine ⟨hs.nests, hs.keyword, ?_⟩
    intro property source line hr hn
    have hbody := hs.custom property source line hr hn
    rw [← Bool.not_eq_true] at hbody ⊢
    exact fun hm => hbody (hcustom property hm)
  have hadds : Adds role (n :: (body ++ more ++ [Css.bracesOf inner]))
      (Contents.kept ⟨[], [.style found c.declarations c.rules line], []⟩) := by
    have hread := readItem_style (m := Css.bracesOf inner) hstart
      (fun k hk => (hstatement k hk).1) rfl hselectors
    refine adds_item hg ?_ hread (by simp) (by simp) (fun hb => by cases hb) hinner
    intro _ k hk
    rw [← List.cons_append] at hk
    rcases List.mem_append.1 hk with hk | hk
    · exact (hstatement k hk).2
    · obtain rfl := List.mem_singleton.1 hk
      rfl
  have hspells := (spells_selectors h depth).append hblock fun k _ => Css.stops_cons (by decide) _
  refine ⟨_, ?_, ?_, _, hspells, ?_⟩
  · rw [toList_style]
    rfl
  · obtain ⟨s, found, hs, -, rfl⟩ := List.forall₂_cons_right_iff.1 h
    obtain ⟨a, u, ha, hb⟩ := hs.filled.exists_cons
    obtain ⟨v, hv⟩ := selectorChars_cons depth s found
    exact ⟨a, _, by rw [hv, ha]; rfl, hb⟩
  · have hsplit : joinedNodes depth ((n :: body) :: parts) ++ [spaceLeaf, Css.bracesOf inner] =
        n :: (body ++ more ++ [Css.bracesOf inner]) := by
      rw [List.append_cons, hnodes, List.cons_append]
    rw [hsplit]
    exact hadds

/-! ## At-rules -/

/-- The name and the lead of an at-rule that spell its keyword and nodes from which the lead is read. -/
structure SpellsLead (b : Option Bracket) (name lead : String) (body : List Node) : Prop where
  charset : name.toLower ≠ "charset"
  keyword : Spells b Stops ('@' :: name.toList) [.leaf ⟨.atKeyword name, '@' :: name.toList, 0⟩]
  stored : Text.Stored lead
  spells : Spells b Stops lead.toList body
  plain : ∀ n ∈ body, endsStatement n = false ∧ isCharset n = false

/-- The keyword of an at-rule. -/
def keywordLeaf (name : String) : Node := .leaf ⟨.atKeyword name, '@' :: name.toList, 0⟩

private theorem SpellsLead.exists_nodes {name lead : String} (h : SpellsLead b name lead body) :
    ∃ ns, Spells b Stops ('@' :: leadChars name lead) (keywordLeaf name :: ns) ∧
      (∀ n ∈ ns, endsStatement n = false ∧ isCharset n = false) ∧
      ∀ g, Blanks (Node.source g) → Text.collapse (Node.source (ns ++ g)) = lead := by
  have hcollapse {u v : List Char} (hu : Blanks u) (hv : Blanks v) :
      Text.collapse (u ++ (lead.toList ++ v)) = lead := by
    rw [Text.collapse_append_of_isSpace hu.isSpace, Text.collapse_append_isSpace hv.isSpace]
    exact h.stored
  by_cases hl : lead = ""
  · refine ⟨[], ?_, by simp, ?_⟩
    · simpa [leadChars, hl, keywordLeaf] using h.keyword
    · intro g hg
      have hnil := hcollapse (u := []) (by simp [Blanks]) hg
      rw [hl] at hnil ⊢
      simpa using hnil
  · have hfilled : Text.Filled lead := ⟨hl, h.stored⟩
    refine ⟨spaceLeaf :: body, ?_, ?_, ?_⟩
    · have hlead := spells_space.append h.spells fun k _ => hfilled.solid k
      have hall := h.keyword.append hlead fun k _ => Css.stops_cons (by decide) _
      simpa [leadChars, hl, keywordLeaf] using hall
    · intro n hn
      rcases List.mem_cons.1 hn with rfl | hn
      · exact ⟨rfl, rfl⟩
      · exact h.plain n hn
    · intro g hg
      rw [List.cons_append, Node.source_cons, Node.source_append, h.spells.source]
      exact hcollapse blanks_space hg

private theorem usual_keyword {name : String} {ns : List Node} (hc : name.toLower ≠ "charset")
    (hn : ∀ n ∈ ns, endsStatement n = false ∧ isCharset n = false) (hm : isCharset m = false) :
    role.Usual (keywordLeaf name :: (ns ++ [m])) := by
  intro _ k hk
  rcases List.mem_cons.1 hk with rfl | hk
  · exact isCharset_leaf_eq_false.2 fun _ hk => Kind.atKeyword.inj hk ▸ hc
  · rcases List.mem_append.1 hk with hk | hk
    · exact (hn k hk).2
    · obtain rfl := List.mem_singleton.1 hk
      exact hm

private theorem isGap_keyword (role : Role) (name : String) : role.isGap (keywordLeaf name) = false := by
  cases role <;> rfl

/-- An at-rule without a block. -/
theorem rulesHold_atRule_none {name lead : String} (h : SpellsLead b name lead body)
    (hc : AtClass.ofName name = .optional) (line : Nat) :
    RulesHold role b [.atRule name lead .none line] := by
  apply rulesHold_of_entry
  intro depth
  obtain ⟨ns, hspells, hplain, hlead⟩ := h.exists_nodes
  have hall := hspells.append (Css.spells_semicolon fun _ => True) fun k _ =>
    Css.stops_cons (by decide) k
  refine ⟨_, toList_atRule depth name lead .none line, ⟨'@', _, rfl, by decide⟩,
    keywordLeaf name :: (ns ++ [Css.semicolonLeaf]), ?_, ?_⟩
  · simpa [AtBody.text] using hall
  · have hread := readItem_atRule (m := Css.semicolonLeaf) role name ('@' :: name.toList) 0
      (fun k hk => (hplain k hk).1) rfl (.inr hc)
    have hadds := adds_item (isGap_keyword role name) (usual_keyword h.charset hplain rfl) hread
      (by simp) (by simp) (fun _ => rfl) (result_nil _)
    have hnil := hlead [] (by simp [Blanks])
    rw [List.append_nil] at hnil
    rw [hnil] at hadds
    exact hadds

/-- The body of an at-rule of a list whose block holds contents. -/
def Role.bodyOf (role : Role) (name : String) (c : Contents) : AtBody :=
  if role = .rules ∧ AtClass.ofName name ≠ .declarations then .rules c.rules else c.body

/-- An at-rule with a block; a block that is read as a rule list holds no declarations. -/
theorem rulesHold_atRule {name lead : String} (h : SpellsLead b name lead body)
    (hc : c.Hold (role.inside (.atRule name)) (some .curly))
    (hd : role = .rules → AtClass.ofName name ≠ .declarations → c.declarations = []) (line : Nat) :
    RulesHold role b [.atRule name lead (role.bodyOf name c) line] := by
  apply rulesHold_of_entry
  intro depth
  obtain ⟨ns, hspells, hplain, hlead⟩ := h.exists_nodes
  obtain ⟨inner, hblock, hinner⟩ := hc.spells depth b fun _ => True
  have hall := hspells.append hblock fun k _ => Css.stops_cons (by decide) _
  have htext : ((role.bodyOf name c).text depth).toList =
      bracedChars depth c.declarations c.rules := by
    unfold Role.bodyOf
    split
    · rename_i hr
      rw [hd hr.1 hr.2]
      exact toList_blockText depth [] c.rules
    · exact toList_body depth c
  refine ⟨_, toList_atRule depth name lead _ line, ⟨'@', _, rfl, by decide⟩,
    keywordLeaf name :: (ns ++ [spaceLeaf] ++ [Css.bracesOf inner]), ?_, ?_⟩
  · rw [htext]
    simpa using hall
  · have hplain' : ∀ n ∈ ns ++ [spaceLeaf], endsStatement n = false ∧ isCharset n = false := by
      intro n hn
      rcases List.mem_append.1 hn with hn | hn
      · exact hplain n hn
      · obtain rfl := List.mem_singleton.1 hn
        exact ⟨rfl, rfl⟩
    have hread := readItem_atRule (m := Css.bracesOf inner) role name ('@' :: name.toList) 0
      (fun k hk => (hplain' k hk).1) rfl (.inl rfl)
    have hadds := adds_item (isGap_keyword role name) (usual_keyword h.charset hplain' rfl) hread
      (by simp) (by simp) (fun hb => by cases hb) hinner
    have hbody : role.contents lead (Css.bracesOf inner).isBraces (.atRule name) c.kept =
        Contents.kept ⟨[], [.atRule name lead (role.bodyOf name c) line], []⟩ := by
      have hunlined : c.kept.body = c.body.unlined := c.body_unlined
      have hkept : Contents.kept ⟨[], [.atRule name lead (role.bodyOf name c) line], []⟩ =
          ⟨[], [.atRule name lead (role.bodyOf name c).unlined 0], []⟩ := rfl
      rw [hkept, Role.bodyOf]
      by_cases hr : role = .rules ∧ AtClass.ofName name ≠ .declarations
      · simp only [Role.contents, if_pos hr]
        rfl
      · simp only [Role.contents, if_neg hr, hunlined]
        rfl
    rw [hlead [spaceLeaf] blanks_space, hbody] at hadds
    simpa using hadds

end SheetDiff
