import Mathlib.Data.List.DropRight
import SheetDiff.Proofs.Sheet.Clean

/-!
# Layout edits

`Relayout` is one edit of the layout of a sheet: white space next to a semicolon or to a bracket of a
block in curly brackets is put in, taken out or replaced, or a semicolon at the end of a block is put
in or taken out. Statements are read alike before and after it (`Relayout.clean_eq`).
-/

namespace SheetDiff

open Css (Kind Node Token)

variable {role : Role} {nested : Bool} {n b : Node} {p : Node → Bool}
variable {g g' ns ms rest body : List Node} {stop stop' : Option Node}

/-! ## White space behind nodes -/

/-- A run of white space, or nothing. -/
inductive IsFill : List Node → Prop
  | nil : IsFill []
  | blank {source : List Char} {line : Nat} (hne : source ≠ []) (hb : Css.Blanks source) :
    IsFill [.leaf ⟨.whitespace, source, line⟩]

theorem IsFill.source (h : IsFill g) : Css.Blanks (Node.source g) := by
  cases h with
  | nil => simp [Css.Blanks]
  | blank hne hb => simpa [Node.source_cons, Node.tokens] using hb

theorem IsFill.all (h : IsFill g) (hp : ∀ source line, p (.leaf ⟨.whitespace, source, line⟩) = true) :
    ∀ m ∈ g, p m = true := by
  cases h with
  | nil => simp
  | blank => simpa using hp _ _

theorem Text.collapse_append_blanks {xs ys : List Char} (h : Css.Blanks ys) :
    Text.collapse (xs ++ ys) = Text.collapse xs :=
  Text.collapse_append_isSpace fun c hc => Css.isSpace_of_isBlank (h c hc)

theorem IsFill.collapse (h : IsFill g) (ns : List Node) :
    Text.collapse (Node.source (ns ++ g)) = Text.collapse (Node.source ns) := by
  rw [Node.source_append, Text.collapse_append_blanks h.source]

/-- White space at the end of a list adds to the last of its parts between commas. -/
private theorem commaParts_append (h : IsFill g) (ns : List Node) :
    List.Forall₂ (fun xs ys => ∃ b, Css.Blanks b ∧ ys = xs ++ b) (commaParts ns)
      (commaParts (ns ++ g)) := by
  have hnil : Css.Blanks [] := by simp [Css.Blanks]
  induction ns with
  | nil =>
    cases h with
    | nil => exact .cons ⟨[], hnil, rfl⟩ .nil
    | blank hne hb =>
      refine .cons ⟨_, hb, ?_⟩ .nil
      simp [Node.isBlock, Node.source_cons, Node.tokens]
  | cons n ns ih =>
    have hh : (ns ++ g).head?.any (·.isLeaf (· = .comma)) = ns.head?.any (·.isLeaf (· = .comma)) := by
      cases ns with
      | cons m ns => rfl
      | nil =>
        cases h with
        | nil => rfl
        | blank => rfl
    rw [List.cons_append, commaParts, commaParts, hh]
    split
    · exact .cons ⟨[], hnil, rfl⟩ ih
    · cases hx : commaParts ns with
      | nil =>
        rw [hx] at ih
        cases hy : commaParts (ns ++ g) with
        | nil => exact .nil
        | cons y ys =>
          rw [hy] at ih
          cases ih
      | cons x xs =>
        rw [hx] at ih
        cases hy : commaParts (ns ++ g) with
        | nil =>
          rw [hy] at ih
          cases ih
        | cons y ys =>
          rw [hy] at ih
          obtain ⟨⟨b, hb, rfl⟩, hrest⟩ := List.forall₂_cons.1 ih
          exact .cons ⟨b, hb, (List.append_assoc ..).symm⟩ hrest

theorem IsFill.selectors (h : IsFill g) (ns : List Node) : selectors (ns ++ g) = selectors ns := by
  have hparts : (commaParts (ns ++ g)).map Text.collapse = (commaParts ns).map Text.collapse := by
    refine (map_eq_of_forall₂ (commaParts_append h ns) ?_).symm
    rintro xs _ - ⟨b, hb, rfl⟩
    exact (Text.collapse_append_blanks hb).symm
  have hany : (ns ++ g).any Node.isSemicolon = ns.any Node.isSemicolon := by
    rw [List.any_append]
    cases h with
    | nil => simp
    | blank => simp [Node.isSemicolon, Node.isLeaf, Node.kind, Node.first]
  unfold SheetDiff.selectors
  rw [hparts, hany]

/-! ## Reading a statement with white space behind it -/

theorem styleOf_eq (n : Node) (body : List Node) (stop : Option Node) :
    styleOf n body stop = if stop.any Node.isBraces then
      (selectors (n :: body)).toOption.map Reading.style else none := by
  unfold styleOf styleReading
  cases stop with
  | none => rfl
  | some b =>
    by_cases hb : b.isBraces = true
    · simp only [Option.any_some, hb, if_true]
      cases selectors (n :: body) <;> rfl
    · simp [hb]

/-- Of what ends a statement only counts whether it is a block. -/
theorem read_stop (h : stop.any Node.isBraces = stop'.any Node.isBraces) (n : Node)
    (body : List Node) : role.read n body stop = role.read n body stop' := by
  unfold Role.read
  simp only [styleOf_eq, h]

theorem IsFill.styleOf (h : IsFill g) (n : Node) (body : List Node) (stop : Option Node) :
    styleOf n (body ++ g) stop = styleOf n body stop := by
  rw [styleOf_eq, styleOf_eq, ← List.cons_append, h.selectors]

theorem IsFill.dropWhile_isSpacing (h : IsFill g) (ns : List Node) :
    (ns ++ g).dropWhile Node.isSpacing = ns.dropWhile Node.isSpacing ∨
      ∃ m ms, ns.dropWhile Node.isSpacing = m :: ms ∧
        (ns ++ g).dropWhile Node.isSpacing = m :: (ms ++ g) := by
  have hg : g.dropWhile Node.isSpacing = [] := by
    cases h with
    | nil => rfl
    | blank => rfl
  rw [List.dropWhile_append]
  cases hd : ns.dropWhile Node.isSpacing with
  | nil => exact .inl hg
  | cons m ms => exact .inr ⟨m, ms, rfl, rfl⟩

theorem IsFill.startsCustom (h : IsFill g) (property : String) (body : List Node) :
    startsCustom property (body ++ g) = startsCustom property body := by
  unfold SheetDiff.startsCustom
  rcases h.dropWhile_isSpacing body with hd | ⟨m, ms, hd, hd'⟩
  · rw [hd]
  · rw [hd, hd']
    rfl

theorem IsFill.declarationReading (h : IsFill g) (property : String) (body : List Node) :
    declarationReading nested property (body ++ g) = declarationReading nested property body := by
  unfold SheetDiff.declarationReading
  rcases h.dropWhile_isSpacing body with hd | ⟨m, ms, hd, hd'⟩
  · rw [hd]
  · have hany : (ms ++ g).any Node.isBraces = ms.any Node.isBraces := by
      rw [List.any_append]
      cases h with
      | nil => simp
      | blank => simp [Node.isBraces, Node.isBlock]
    rw [hd, hd']
    simp only [h.collapse, hany]

theorem IsFill.read (h : IsFill g) (n : Node) (body : List Node) (stop : Option Node) :
    role.read n (body ++ g) stop = role.read n body stop := by
  unfold Role.read
  simp only [h.styleOf, h.startsCustom, h.declarationReading]

/-! ## Statements with white space around them -/

theorem IsFill.isGap (h : IsFill g) (role : Role) : ∀ m ∈ g, role.isGap m = true :=
  h.all fun _ _ => by cases role <;> rfl

theorem IsFill.comments (h : IsFill g) (role : Role) : role.comments g = .empty := by
  cases h with
  | nil => exact role.comments_nil
  | blank => cases role <;> rfl

/-- White space before a list adds nothing. -/
theorem clean_fill (h : IsFill g) (ns : List Node) : clean role (g ++ ns) = clean role ns := by
  have hc := h.comments role
  cases h with
  | nil => rfl
  | blank hne hb =>
    rw [List.cons_append, List.nil_append, clean_gap (by cases role <;> rfl), hc, empty_plus]

/-- White space behind a statement adds nothing. -/
theorem Statement.clean_fill (h : IsFill g) (ns : List Node) (stop : Option Node)
    (inner : Role → Option Contents) :
    Statement.clean role ⟨ns ++ g, stop⟩ inner = Statement.clean role ⟨ns, stop⟩ inner := by
  induction ns with
  | nil =>
    have hc := h.comments role
    have hgap : ∀ m ∈ g, role.isGap m = true := h.isGap role
    cases h with
    | nil => rfl
    | blank hne hb =>
      have hskip := Statement.clean_gap (hgap _ List.mem_cons_self) ⟨[], stop⟩ inner
      rw [hc, empty_plus] at hskip
      exact hskip
  | cons n ns ih =>
    cases hg : role.isGap n with
    | true =>
      have h₁ := Statement.clean_gap hg ⟨ns ++ g, stop⟩ inner
      have h₂ := Statement.clean_gap hg ⟨ns, stop⟩ inner
      rw [List.cons_append, h₁, h₂, ih]
    | false =>
      rw [List.cons_append, Statement.clean_cons hg, Statement.clean_cons hg, h.read, h.collapse]

/-- Of what ends a statement only counts whether it is a block or a gap, and what it holds. -/
theorem Statement.clean_stop (hb : stop.any Node.isBraces = stop'.any Node.isBraces)
    (hg : stop.all role.isGap = stop'.all role.isGap) {inner inner' : Role → Option Contents}
    (ns : List Node) (hi : ∀ n body r, ns.dropWhile role.isGap = n :: body →
      role.read n body stop = some r → inner (role.inside r) = inner' (role.inside r)) :
    Statement.clean role ⟨ns, stop⟩ inner = Statement.clean role ⟨ns, stop'⟩ inner' := by
  unfold Statement.clean
  cases hd : ns.dropWhile role.isGap with
  | nil => simp only [hg]
  | cons n body =>
    simp only [← read_stop hb, ← hb]
    cases hr : role.read n body stop with
    | none => rfl
    | some r => simp only [Option.bind_some, hi n body r hd hr]

/-! ## The statement at the end of a list -/

/-- The nodes of the statement that is open at the end of a list. -/
def openStatement (ns : List Node) : List Node := ns.rtakeWhile (!endsStatement ·)

theorem of_mem_openStatement (h : n ∈ openStatement ns) : endsStatement n = false := by
  simpa using List.mem_rtakeWhile_imp h

/-- What stands before the open statement of a list ends with the end of a statement. -/
theorem openStatement_split (ns : List Node) : ns = openStatement ns ∨
    ∃ xs n, endsStatement n = true ∧ ns = xs ++ n :: openStatement ns := by
  have hs : ns.rdropWhile (!endsStatement ·) ++ openStatement ns = ns :=
    List.rdropWhile_append_rtakeWhile
  by_cases hd : ns.rdropWhile (!endsStatement ·) = []
  · rw [hd, List.nil_append] at hs
    exact .inl hs.symm
  · have hlast := List.rdropWhile_last_not _ ns hd
    have hsplit := List.dropLast_append_getLast hd
    refine .inr ⟨(ns.rdropWhile (!endsStatement ·)).dropLast,
      (ns.rdropWhile (!endsStatement ·)).getLast hd, by simpa using hlast, ?_⟩
    rw [List.append_cons, hsplit, hs]

/-- What stands behind a list changes nothing but what its open statement holds. -/
theorem clean_append_congr {ts ts' : List Node}
    (h : clean role (openStatement ns ++ ts) = clean role (openStatement ns ++ ts')) :
    clean role (ns ++ ts) = clean role (ns ++ ts') := by
  rcases openStatement_split ns with hn | ⟨xs, n, hn, hs⟩
  · rw [hn]
    exact h
  · generalize openStatement ns = os at hs h
    subst hs
    rw [List.append_assoc, List.append_assoc, List.cons_append, List.cons_append,
      clean_append_cons hn, h, ← clean_append_cons hn]

private theorem openStatement_fill (hg : IsFill g) (ns : List Node) :
    ∀ m ∈ openStatement ns ++ g, endsStatement m = false := by
  intro m hm
  rcases List.mem_append.1 hm with hm | hm
  · exact of_mem_openStatement hm
  · simpa using hg.all (p := (!endsStatement ·)) (fun _ _ => rfl) m hm

/-- White space before the end of a statement adds nothing. -/
theorem clean_before (hg : IsFill g) (hn : endsStatement n = true) (ns rest : List Node) :
    clean role (ns ++ (g ++ n :: rest)) = clean role (ns ++ n :: rest) := by
  refine clean_append_congr ?_
  rw [← List.append_assoc, clean_statement (openStatement_fill hg ns) hn,
    clean_statement (fun _ => of_mem_openStatement) hn, Statement.clean_fill hg]

/-- White space at the end of a list adds nothing. -/
theorem clean_end (hg : IsFill g) (ns : List Node) : clean role (ns ++ g) = clean role ns := by
  have h : clean role (ns ++ g) = clean role (ns ++ []) := by
    refine clean_append_congr ?_
    rw [clean_open (openStatement_fill hg ns), List.append_nil,
      clean_open fun _ => of_mem_openStatement, Statement.clean_fill hg]
  rwa [List.append_nil] at h

/-- White space behind the end of a statement adds nothing. -/
theorem clean_behind (hg : IsFill g) (hn : endsStatement n = true) (ns rest : List Node) :
    clean role (ns ++ n :: (g ++ rest)) = clean role (ns ++ n :: rest) := by
  rw [clean_append_cons hn, clean_fill hg, ← clean_append_cons hn]

/-- A semicolon at the end of a block adds nothing. -/
theorem clean_semicolon (h : n.isSemicolon = true) (ns : List Node) :
    clean (.block nested) (ns ++ [n]) = clean (.block nested) ns := by
  have hb : n.isBraces = false := by
    cases n with
    | leaf t => rfl
    | block opener inner closer => simp [Node.isSemicolon, Node.isLeaf, Node.isBlock] at h
  have hi : n.inner = [] := inner_of_endsStatement (endsStatement_of_isSemicolon h) hb
  have h : clean (.block nested) (ns ++ [n]) = clean (.block nested) (ns ++ []) := by
    refine clean_append_congr ?_
    rw [clean_statement (fun _ => of_mem_openStatement) (endsStatement_of_isSemicolon h),
      List.append_nil, clean_open fun _ => of_mem_openStatement, clean_nil, plus_empty]
    refine Statement.clean_stop (by simp [hb]) (by simp [Role.isGap, isBlockGap, h]) _ ?_
    intro m body r _ _
    rw [hi, clean_nil]
  rwa [List.append_nil] at h

/-! ## Edits -/

/-- What the block behind nodes is read as. -/
def Role.opens (role : Role) (ns : List Node) : Role :=
  match (openStatement ns).dropWhile role.isGap with
  | .leaf ⟨.atKeyword name, _, _⟩ :: _ => role.inside (.atRule name)
  | _ => .block true

theorem read_inside {r : Reading} (h : role.read n body stop = some r)
    (hd : (openStatement ns).dropWhile role.isGap = n :: body) : role.inside r = role.opens ns := by
  have hstyle (h : styleOf n body stop = some r) : role.inside r = .block true := by
    obtain ⟨found, rfl, -⟩ := styleOf_eq_some h
    rfl
  unfold Role.opens
  rw [hd]
  unfold Role.read at h
  split at h
  · split at h
    · cases h
      rfl
    · simp at h
  · split at h
    · split at h
      · exact hstyle h
      · simp at h
    · split at h
      · cases h
        rfl
      · simp at h
  · simp at h
  · rename_i hn _ _
    rw [hstyle h]
    split
    · rename_i heq
      obtain ⟨rfl, -⟩ := List.cons.inj heq
      exact absurd rfl (hn _ _ _)
    · rfl

/-- A block is read alike if what it holds is. -/
theorem clean_inside {opener : Token} {closer : Option Token} {inner inner' : List Node}
    (ho : opener.kind = .opening .curly) (ns rest : List Node)
    (h : clean (role.opens ns) inner = clean (role.opens ns) inner') :
    clean role (ns ++ .block opener inner closer :: rest) =
      clean role (ns ++ .block opener inner' closer :: rest) := by
  have hb (inner : List Node) : (Node.block opener inner closer).isBraces = true := decide_eq_true ho
  have he (inner : List Node) : endsStatement (Node.block opener inner closer) = true :=
    endsStatement_of_isBraces (hb inner)
  refine clean_append_congr ?_
  rw [clean_statement (fun _ => of_mem_openStatement) (he inner),
    clean_statement (fun _ => of_mem_openStatement) (he inner')]
  refine congrArg (plus · _) (Statement.clean_stop ?_ ?_ _ ?_)
  · simp [hb]
  · cases role <;> rfl
  · intro n body r hd hr
    rw [read_inside hr hd]
    exact h

/-- The first node of a list, if there is one, is no white space. -/
def StartsDark (ns : List Node) : Prop := ∀ n ∈ ns.head?, n.isLeaf (· = .whitespace) = false

/-- The last node of a list, if there is one, is no white space. -/
def EndsDark (ns : List Node) : Prop := ∀ n ∈ ns.getLast?, n.isLeaf (· = .whitespace) = false

/-- A semicolon or a block in curly brackets that is closed. -/
def ClosesStatement : Node → Prop
  | .leaf t => t.kind = .semicolon
  | .block opener _ closer => opener.kind = .opening .curly ∧ closer.isSome

/-- One edit of the layout of nodes that are read as `role`. The bracket that opens their block stands
before them if `opened`, and the one that closes it behind them if `closed`. -/
inductive Relayout : Role → Bool → Bool → List Node → List Node → Prop
  /-- White space behind the bracket that opens a block. -/
  | start {role closed g g' ns} (hg : IsFill g) (hg' : IsFill g') (hs : StartsDark ns) :
    Relayout role true closed (g ++ ns) (g' ++ ns)
  /-- White space before the bracket that closes a block. -/
  | stop {role opened g g' ns} (hg : IsFill g) (hg' : IsFill g') (hs : EndsDark ns) :
    Relayout role opened true (ns ++ g) (ns ++ g')
  /-- White space before a semicolon or before the bracket that opens a block. -/
  | before {role opened closed g g' ns n rest} (hg : IsFill g) (hg' : IsFill g')
    (hn : endsStatement n = true) (hs : EndsDark ns) :
    Relayout role opened closed (ns ++ (g ++ n :: rest)) (ns ++ (g' ++ n :: rest))
  /-- White space behind a semicolon or behind the bracket that closes a block. -/
  | behind {role opened closed g g' ns n rest} (hg : IsFill g) (hg' : IsFill g')
    (hn : ClosesStatement n) (hs : StartsDark rest) :
    Relayout role opened closed (ns ++ n :: (g ++ rest)) (ns ++ n :: (g' ++ rest))
  /-- A semicolon put in before the bracket that closes a block of declarations. -/
  | semicolon {nested opened ns line} :
    Relayout (.block nested) opened true ns (ns ++ [.leaf ⟨.semicolon, [';'], line⟩])
  /-- A semicolon taken out there. -/
  | noSemicolon {nested opened ns line} :
    Relayout (.block nested) opened true (ns ++ [.leaf ⟨.semicolon, [';'], line⟩]) ns
  /-- An edit in a block in curly brackets. -/
  | inside {role opened closed opener closer inner inner' ns rest}
    (ho : opener.kind = .opening .curly)
    (hi : Relayout (role.opens ns) true closer.isSome inner inner') :
    Relayout role opened closed (ns ++ .block opener inner closer :: rest)
      (ns ++ .block opener inner' closer :: rest)

theorem ClosesStatement.endsStatement (h : ClosesStatement n) : endsStatement n = true := by
  cases n with
  | leaf t => exact endsStatement_of_isSemicolon (decide_eq_true h)
  | block opener inner closer => exact endsStatement_of_isBraces (decide_eq_true h.1)

/-- Statements are read alike before and after an edit. -/
theorem Relayout.clean_eq {opened closed : Bool} {ns' : List Node}
    (h : Relayout role opened closed ns ns') : clean role ns = clean role ns' := by
  induction h with
  | start hg hg' _ => rw [clean_fill hg, clean_fill hg']
  | stop hg hg' _ => rw [clean_end hg, clean_end hg']
  | before hg hg' hn _ => rw [clean_before hg hn, clean_before hg' hn]
  | behind hg hg' hn _ => rw [clean_behind hg hn.endsStatement, clean_behind hg' hn.endsStatement]
  | semicolon => exact (clean_semicolon rfl _).symm
  | noSemicolon => exact clean_semicolon rfl _
  | inside ho _ ih => exact clean_inside ho _ _ ih

end SheetDiff
