import Mathlib.Data.List.Forall2
import SheetDiff.Proofs.Sheet.Items
import SheetDiff.Proofs.Sheet.Statements

/-!
# Sheets without faults

`Role.result` is what the parser reads nodes as, unless it reports a fault. It is put together item by
item (`result_gap`, `result_item`), and so is a condition on the items at every depth (`every_gap`,
`every_item`), such as that no declaration holds a block in curly brackets (`Role.NoBraced`).
-/

namespace SheetDiff

open Css (Kind Node Token)

variable {role : Role} {nested : Bool} {n m b : Node}
variable {ns ms rest rest' body : List Node} {stop : Option Node}

/-! ## Items at every depth -/

/-- The items that nodes are cut into. -/
def Role.items : Role → List Node → List Item
  | .rules, ns => (ruleItems true [] ns).items
  | .block nested, ns => blockItems nested [] ns

/-- The items of nodes and of the blocks of these items, at every depth. -/
inductive Role.HasItem : Role → List Node → Item → Prop
  | here {role : Role} {ns : List Node} {item : Item} (h : item ∈ role.items ns) :
    HasItem role ns item
  | inside {role : Role} {ns : List Node} {outer item : Item} (h : outer ∈ role.items ns)
    (hi : HasItem (role.inside outer.reading) outer.inner item) : HasItem role ns item

/-- Every item, at any depth, is read from its nodes in a way that satisfies `P`. -/
def Role.Every (P : Reading → List Node → Prop) (role : Role) (ns : List Node) : Prop :=
  ∀ item, role.HasItem ns item → P item.reading item.nodes

/-- A declaration without a block in curly brackets, or no declaration. -/
def Unbraced (reading : Reading) (nodes : List Node) : Prop :=
  ∀ d, reading = .declaration d → nodes.any Node.isBraces = false

/-- No declaration, at any depth, holds a block in curly brackets. -/
def Role.NoBraced (role : Role) (ns : List Node) : Prop := role.Every Unbraced ns

/-- A condition on readings that does not look at lines. -/
def Lineless (P : Reading → List Node → Prop) : Prop :=
  ∀ r' r ns, r'.unlined = r.unlined → (P r' ns ↔ P r ns)

theorem lineless_unbraced : Lineless Unbraced := by
  intro r' r ns h
  rcases Reading.cases_unlined h with ⟨d', d, rfl, rfl, -⟩ | rfl
  · simp [Unbraced]
  · exact Iff.rfl

theorem Role.inside_unlined (role : Role) {r' r : Reading} (h : r'.unlined = r.unlined) :
    role.inside r' = role.inside r := by
  rcases Reading.cases_unlined h with ⟨d', d, rfl, rfl, -⟩ | rfl <;> rfl

/-- A member of a list is related to one of any list that is related to it. -/
theorem exists_mem_of_forall₂ {α β : Type} {R : α → β → Prop} {as : List α} {bs : List β}
    (h : List.Forall₂ R as bs) {a : α} (ha : a ∈ as) : ∃ b ∈ bs, R a b := by
  induction h with
  | nil => simp at ha
  | cons hab _ ih =>
    rcases List.mem_cons.1 ha with rfl | ha
    · exact ⟨_, List.mem_cons_self, hab⟩
    · obtain ⟨b, hb, hr⟩ := ih ha
      exact ⟨b, List.mem_cons_of_mem _ hb, hr⟩

section Respaced

variable {f : Token → Token} (hf : Css.Respaces f)

include hf

theorem Role.items_map (role : Role) (ns : List Node) :
    List.Forall₂ (Item.Mapped f) (role.items (ns.map (Node.mapTokens f))) (role.items ns) := by
  cases role with
  | rules => exact (ruleItems_map hf true [] ns).1.imp fun _ _ h => h.toMapped
  | block nested => exact blockItems_map hf nested [] [] ns

/-- The items after a change of tokens are those before it, changed. -/
theorem Role.HasItem.of_map {role : Role} {ns : List Node} {item' : Item}
    (h : role.HasItem (ns.map (Node.mapTokens f)) item') :
    ∃ item, role.HasItem ns item ∧ item'.Mapped f item := by
  generalize hns : ns.map (Node.mapTokens f) = ns' at h
  induction h generalizing ns with
  | here hm =>
    subst hns
    obtain ⟨item, hi, hr⟩ := exists_mem_of_forall₂ (Role.items_map hf _ ns) hm
    exact ⟨item, .here hi, hr⟩
  | @inside role _ outer' item' hm _ ih =>
    subst hns
    obtain ⟨outer, ho, hr⟩ := exists_mem_of_forall₂ (Role.items_map hf role ns) hm
    obtain ⟨item, hi, hr'⟩ := ih hr.inner.symm
    rw [role.inside_unlined hr.reading] at hi
    exact ⟨item, .inside ho hi, hr'⟩

theorem Role.HasItem.map {role : Role} {ns : List Node} {item : Item} (h : role.HasItem ns item) :
    ∃ item', role.HasItem (ns.map (Node.mapTokens f)) item' ∧ item'.Mapped f item := by
  induction h with
  | @here role ns item hm =>
    obtain ⟨item', hi, hr⟩ := exists_mem_of_forall₂ (Role.items_map hf role ns).flip hm
    exact ⟨item', .here hi, hr⟩
  | @inside role ns outer item hm _ ih =>
    obtain ⟨outer', ho, hr⟩ := exists_mem_of_forall₂ (Role.items_map hf role ns).flip hm
    obtain ⟨item', hi, hr'⟩ := ih
    rw [← hr.inner, ← role.inside_unlined hr.reading] at hi
    exact ⟨item', .inside ho hi, hr'⟩

/-- A declaration holds a block after a change of tokens if it does before it. -/
private theorem Item.Mapped.unbraced {item' item : Item} (h : item'.Mapped f item) :
    Unbraced item'.reading item'.nodes ↔ Unbraced item.reading item.nodes := by
  have hnodes : item'.nodes.any Node.isBraces = item.nodes.any Node.isBraces := by
    rw [h.nodes, List.any_map, show Node.isBraces ∘ Node.mapTokens f = Node.isBraces from
      funext hf.isBraces]
  rw [lineless_unbraced _ _ _ h.reading, Unbraced, Unbraced, hnodes]

theorem Role.noBraced_map (role : Role) (ns : List Node) :
    role.NoBraced (ns.map (Node.mapTokens f)) ↔ role.NoBraced ns := by
  constructor
  · intro h item hi
    obtain ⟨item', hi', hr⟩ := hi.map hf
    exact (hr.unbraced hf).1 (h item' hi')
  · intro h item' hi'
    obtain ⟨item, hi, hr⟩ := hi'.of_map hf
    exact (hr.unbraced hf).2 (h item hi)

end Respaced

section Every

variable (P : Reading → List Node → Prop)

/-- An item and every item in its block satisfy `P`. -/
def Item.Every (role : Role) (item : Item) : Prop :=
  P item.reading item.nodes ∧ (role.inside item.reading).Every P item.inner

theorem Role.every_iff (role : Role) (ns : List Node) :
    role.Every P ns ↔ ∀ item ∈ role.items ns, item.Every P role := by
  constructor
  · intro h item hm
    exact ⟨h item (.here hm), fun inner hi => h inner (.inside hm hi)⟩
  · intro h item hi
    cases hi with
    | here hm => exact (h item hm).1
    | inside hm hi => exact (h _ hm).2 item hi

end Every

/-! ## Item by item -/

/-- Reads the item that starts with `n`. -/
def Role.readItem : Role → Node → List Node → Reading × Cut
  | .rules => readRuleItem
  | .block nested => readBlockItem nested

/-- The item that starts with `n`, when nothing is skipped before it. -/
def Role.item (role : Role) (n : Node) (rest : List Node) : Item :=
  ⟨[], n.first.line, (role.readItem n rest).2.nodes, (role.readItem n rest).2.stop,
    (role.readItem n rest).1⟩

theorem nodes_of_readItem (role : Role) (n : Node) (rest : List Node) :
    (role.readItem n rest).2.nodes ++ ((role.readItem n rest).2.stop.toList ++
      (role.readItem n rest).2.rest) = n :: rest := by
  cases role with
  | rules =>
    obtain ⟨p, hp⟩ := readRuleItem_cut n rest
    rw [Role.readItem, hp]
    exact cutAt_nodes p _
  | block nested => exact nodes_of_readBlockItem nested n rest

theorem suffix_of_readItem (role : Role) (n : Node) (rest : List Node) :
    (role.readItem n rest).2.rest <:+ rest := by
  cases role with
  | rules =>
    obtain ⟨p, hp⟩ := readRuleItem_cut n rest
    rw [Role.readItem, hp]
    exact suffix_tail_of_cutAt p n rest
  | block nested =>
    rw [Role.readItem]
    rcases readBlockItem_cut nested n rest with h | h
    · rw [h]
      exact suffix_tail_of_cutAt endsStatement n rest
    · rw [h]
      exact suffix_of_cutAt Node.isSemicolon rest

/-- Every item of a list is read from a suffix of it that starts behind a gap. -/
theorem mem_items (role : Role) {item : Item} (h : item ∈ role.items ns) : ∃ n rest,
    n :: rest <:+ ns ∧ role.isGap n = false ∧ item.IsRead (role.readItem n rest) n := by
  cases role with
  | rules =>
    obtain ⟨n, rest, hs, hg, hr, -⟩ := mem_ruleItems h
    exact ⟨n, rest, hs, hg, hr⟩
  | block nested => exact mem_blockItems h

/-- An item that is read as a declaration. -/
theorem Item.IsRead.declaration {item : Item} {n : Node} {rest : List Node} {d : Declaration}
    (h : item.IsRead (role.readItem n rest) n) (hr : item.reading = .declaration d) :
    ∃ nested property source line body, role = .block nested ∧
      n = .leaf ⟨.ident property, source, line⟩ ∧ item.nodes = n :: body ∧
      (∀ m ∈ body, m.isSemicolon = false) ∧ declarationReading nested property body = .ok d := by
  cases role with
  | rules =>
    obtain ⟨c, hread, -⟩ := h.ofRuleList
    rw [hr] at hread
    cases hread
  | block nested =>
    obtain ⟨c, hread, hnodes, -⟩ := h.ofBlock
    rw [hr] at hread
    cases hread with
    | declaration hn hd => exact ⟨_, _, _, _, _, rfl, hn, hnodes, fun _ => of_mem_cutAt, hd⟩

/-- The selectors of an item that is read as a style rule. -/
theorem Item.IsRead.ok_selectors {item : Item} {n : Node} {rest : List Node} {found : List String}
    (h : item.IsRead (role.readItem n rest) n) (hr : item.reading = .style found) :
    selectors item.nodes = .ok found := by
  cases role with
  | rules =>
    obtain ⟨c, hread, hnodes, -⟩ := h.ofRuleList
    rw [hr] at hread
    cases hread with
    | style hat hs => exact hnodes ▸ (styleReading_ok hs).2
  | block nested =>
    obtain ⟨c, hread, hnodes, -⟩ := h.ofBlock
    rw [hr] at hread
    cases hread with
    | style hnested hat hd hs => exact hnodes ▸ (styleReading_ok hs).2

theorem infix_of_mem_items {item : Item} (h : item ∈ role.items ns) :
    item.nodes ++ item.stop.toList <:+: ns := by
  cases role with
  | rules => exact infix_of_mem_ruleItems h
  | block nested => exact infix_of_mem_blockItems h

/-- The block of an item is empty or that of the node that ends it. -/
theorem Item.inner_cases {motive : List Node → Prop} {item : Item} (nil : motive [])
    (block : ∀ m ∈ item.stop, motive m.inner) : motive item.inner := by
  unfold Item.inner
  split
  · exact block _ ‹_›
  · exact block _ ‹_›
  · exact nil

/-! ## Conditions as tests -/

theorem sizeOf_inner_lt_of_mem_items {item : Item} (h : item ∈ role.items ns) :
    sizeOf item.inner < sizeOf ns := by
  obtain ⟨n, tail, hs, -⟩ := mem_items role h
  refine Item.inner_cases (motive := fun ms => sizeOf ms < sizeOf ns) (sizeOf_nil_lt ?_) fun m hm => ?_
  · rintro rfl
    simp at hs
  · exact sizeOf_inner_lt_of_mem ((infix_of_mem_items h).mem (by simp [Option.mem_def.1 hm]))

/-- `Role.Every` as a test. -/
def Role.every (p : Reading → List Node → Bool) (role : Role) (ns : List Node) : Bool :=
  (role.items ns).attach.all fun item =>
    p item.1.reading item.1.nodes && (role.inside item.1.reading).every p item.1.inner
termination_by sizeOf ns
decreasing_by exact sizeOf_inner_lt_of_mem_items item.2

theorem Role.every_eq_true {P : Reading → List Node → Prop} [∀ r ns, Decidable (P r ns)] :
    role.every (fun r ns => decide (P r ns)) ns = true ↔ role.Every P ns := by
  induction role, ns using Role.every.induct with
  | case1 role ns ih =>
    rw [Role.every, Role.every_iff, List.all_eq_true]
    constructor
    · intro h item hm
      have hi := h ⟨item, hm⟩ (List.mem_attach ..)
      rwa [Bool.and_eq_true, ih ⟨item, hm⟩, decide_eq_true_iff] at hi
    · rintro h ⟨item, hm⟩ -
      rw [Bool.and_eq_true, ih ⟨item, hm⟩, decide_eq_true_iff]
      exact h item hm

instance {P : Reading → List Node → Prop} [∀ r ns, Decidable (P r ns)] (role : Role)
    (ns : List Node) : Decidable (role.Every P ns) :=
  decidable_of_iff _ Role.every_eq_true

/-- A condition on style rules holds of all other readings. -/
instance {P : Prop} [Decidable P] :
    (reading : Reading) → Decidable (∀ found, reading = .style found → P)
  | .style found => decidable_of_iff P ⟨fun h _ _ => h, fun h => h found rfl⟩
  | .declaration _ | .atRule _ | .fault _ => .isTrue nofun

/-- A condition on declarations holds of all other readings. -/
instance {P : Prop} [Decidable P] :
    (reading : Reading) → Decidable (∀ d, reading = .declaration d → P)
  | .declaration d => decidable_of_iff P ⟨fun h _ _ => h, fun h => h d rfl⟩
  | .style _ | .atRule _ | .fault _ => .isTrue nofun

instance (reading : Reading) (nodes : List Node) : Decidable (Unbraced reading nodes) :=
  inferInstanceAs (Decidable (∀ d, reading = .declaration d → nodes.any Node.isBraces = false))

instance (role : Role) (ns : List Node) : Decidable (role.NoBraced ns) :=
  inferInstanceAs (Decidable (role.Every Unbraced ns))

/-! ## Conditions item by item -/

section Every

variable {P : Reading → List Node → Prop} (hP : Lineless P)

include hP

private theorem every_mapped {item' item : Item} (h : item'.Mapped id item) :
    item'.Every P role ↔ item.Every P role := by
  have hnodes : item'.nodes = item.nodes := h.nodes.trans (Node.map_mapTokens_id _)
  have hinner : item'.inner = item.inner := h.inner.trans (Node.map_mapTokens_id _)
  unfold Item.Every
  rw [hnodes, hinner, role.inside_unlined h.reading, hP _ _ _ h.reading]

private theorem forall_every {items' items : List Item}
    (h : List.Forall₂ (Item.Mapped id) items' items) :
    (∀ item ∈ items', item.Every P role) ↔ ∀ item ∈ items, item.Every P role := by
  induction h with
  | nil => rfl
  | cons hi _ ih => rw [List.forall_mem_cons, List.forall_mem_cons, every_mapped hP hi, ih]

omit hP

/-- Items do not depend on what was skipped before them. -/
private theorem ruleItems_skipped (skipped ns : List Node) :
    List.Forall₂ (Item.Mapped id) (ruleItems false skipped ns).items
      (ruleItems false [] ns).items := by
  have hid (items : List Item) : List.Forall₂ (Item.Mapped id) items items := by
    refine List.forall₂_same.2 fun item _ => ⟨(Node.map_mapTokens_id _).symm, ?_, rfl⟩
    rw [Node.mapTokens_id, Option.map_id]
    rfl
  cases hd : ns.dropWhile isRuleGap with
  | nil =>
    rw [ruleItems_nil hd, ruleItems_nil hd]
    exact .nil
  | cons n rest =>
    rw [ruleItems_cons hd (by simp), ruleItems_cons hd (by simp)]
    refine .cons ⟨(Node.map_mapTokens_id _).symm, ?_, rfl⟩ (hid _)
    rw [Node.mapTokens_id, Option.map_id]
    rfl

/-- A list in which no character set statement starts, if it is a rule list. -/
def Role.Usual (role : Role) (ns : List Node) : Prop := role = .rules → NoCharset ns

theorem Role.Usual.sublist (h : role.Usual ns) (hs : ms.Sublist ns) : role.Usual ms :=
  fun hr n hn => h hr n (hs.mem hn)

theorem every_nil (P : Reading → List Node → Prop) (role : Role) : role.Every P [] := by
  rw [Role.every_iff]
  cases role with
  | rules =>
    have hi : (ruleItems true [] []).items = [] := by rw [ruleItems_nil rfl]
    simp [Role.items, hi]
  | block nested =>
    have hi : blockItems nested [] [] = [] := blockItems_nil rfl
    simp [Role.items, hi]

include hP

theorem every_gap (h : role.isGap n = true) (hu : role.Usual (n :: ns)) :
    role.Every P (n :: ns) ↔ role.Every P ns := by
  rw [Role.every_iff, Role.every_iff]
  cases role with
  | rules =>
    have hc := hu rfl
    have hns : NoCharset ns := fun m hm => hc m (List.mem_cons_of_mem _ hm)
    simp only [Role.items]
    rw [ruleItems_first hc, ruleItems_first hns, ruleItems_gap h]
    exact forall_every hP (ruleItems_skipped _ ns)
  | block nested =>
    simp only [Role.items]
    rw [blockItems_gap h]
    exact forall_every hP (blockItems_skipped nested _ [] ns)

theorem every_item (h : role.isGap n = false) (hu : role.Usual (n :: rest))
    (hur : role.Usual (role.readItem n rest).2.rest) : role.Every P (n :: rest) ↔
      (role.item n rest).Every P role ∧ role.Every P (role.readItem n rest).2.rest := by
  rw [Role.every_iff, Role.every_iff]
  cases role with
  | rules =>
    have hg : isRuleGap n = false := h
    have hd : (n :: rest).dropWhile isRuleGap = n :: rest := by simp [hg]
    simp only [Role.items, Role.item]
    rw [ruleItems_first (hu rfl), ruleItems_first (hur rfl), ruleItems_cons hd (by simp),
      List.forall_mem_cons]
    rfl
  | block nested =>
    have hg : isBlockGap n = false := h
    have hd : (n :: rest).dropWhile isBlockGap = n :: rest := by simp [hg]
    simp only [Role.items, Role.item]
    rw [blockItems_cons hd, List.forall_mem_cons,
      forall_every hP (blockItems_skipped nested _ [] _)]
    rfl

end Every

@[simp] theorem noBraced_nil (role : Role) : role.NoBraced [] := every_nil Unbraced role

theorem noBraced_gap (h : role.isGap n = true) (hu : role.Usual (n :: ns)) :
    role.NoBraced (n :: ns) ↔ role.NoBraced ns :=
  every_gap lineless_unbraced h hu

theorem noBraced_item (h : role.isGap n = false) (hu : role.Usual (n :: rest))
    (hur : role.Usual (role.readItem n rest).2.rest) : role.NoBraced (n :: rest) ↔
      (role.item n rest).Every Unbraced role ∧ role.NoBraced (role.readItem n rest).2.rest :=
  every_item lineless_unbraced h hu hur

/-! ## What is read without a fault -/

/-- Contents without a warning. -/
def Contents.sound (c : Contents) : Option Contents := if c.warnings.isEmpty then some c else none

theorem Contents.sound_append (c d : Contents) : (c.append d).sound = plus c.sound d.sound := by
  cases hc : c.warnings.isEmpty <;> cases hd : d.warnings.isEmpty <;>
    simp_all [Contents.sound, Contents.append, plus]

/-- What a listing without an error or a warning holds. -/
def Listing.sound : Except String Listing → Option Contents
  | .ok l => Contents.sound ⟨[], l.rules, l.warnings⟩
  | .error _ => none

theorem Listing.sound_join (l m : Except String Listing) :
    Listing.sound (Listing.join l m) = plus (Listing.sound l) (Listing.sound m) := by
  cases l with
  | error e => rfl
  | ok a =>
    cases m with
    | error e => simp [Listing.join, Listing.sound, plus]
    | ok b => exact Contents.sound_append ⟨[], a.rules, a.warnings⟩ ⟨[], b.rules, b.warnings⟩

theorem Listing.sound_behind (rules : List Rule) (l : Except String Listing) :
    Listing.sound (Listing.behind rules l) = plus (some ⟨[], rules, []⟩) (Listing.sound l) := by
  cases l with
  | error e => rfl
  | ok a =>
    exact Contents.sound_append ⟨[], rules, []⟩ ⟨[], a.rules, a.warnings⟩

/-- What nodes hold, unless there is a fault among them. -/
def Role.result : Role → List Node → Option Contents
  | .rules, ns => Listing.sound (listingOf ns)
  | .block nested, ns => (blockOf nested ns).sound

/-- What an item adds to the list it stands in, unless there is a fault in it. -/
def Item.result (role : Role) (item : Item) : Option Contents :=
  match role with
  | .rules => Listing.sound item.bareListing
  | .block _ => item.bareContents.sound

@[simp] theorem result_nil (role : Role) : role.result [] = some .empty := by
  cases role with
  | rules => simp [Role.result, Listing.sound, Listing.empty, Contents.sound, Contents.empty]
  | block nested => simp [Role.result, Contents.sound, Contents.empty]

theorem result_gap (h : role.isGap n = true) (hu : role.Usual (n :: ns)) :
    role.result (n :: ns) = plus (some (role.comments [n])) (role.result ns) := by
  cases role with
  | rules =>
    rw [Role.result, listingOf_gap h (hu rfl), Listing.sound_behind]
    rfl
  | block nested =>
    rw [Role.result, blockOf_gap h]
    exact (empty_plus _).symm

theorem result_item (h : role.isGap n = false) (hu : role.Usual (n :: rest))
    (hur : role.Usual (role.readItem n rest).2.rest) : role.result (n :: rest) =
      plus ((role.item n rest).result role) (role.result (role.readItem n rest).2.rest) := by
  cases role with
  | rules =>
    rw [Role.result, listingOf_item h (hu rfl) (hur rfl) rfl, Listing.sound_join]
    rfl
  | block nested =>
    rw [Role.result, blockOf_item h rfl, Contents.sound_append]
    rfl

/-- An item that is at fault has no result. -/
theorem Item.result_fault {item : Item} {e : Fault} (h : item.reading = .fault e) :
    item.result role = none := by
  cases role with
  | rules =>
    rw [Item.result, Item.bareListing, Item.bare_listing, Item.bare_rule, h]
    rfl
  | block nested => simp [Item.result, Item.bareContents, Item.contents, h, Contents.sound,
      Contents.unlined]

private theorem sound_of {b c : Contents} {g : Contents → Contents}
    (hw : c.warnings = b.warnings) (hc : b.warnings = [] → c = g b) : c.sound = b.sound.map g := by
  unfold Contents.sound
  rw [hw]
  cases h : b.warnings with
  | nil => simp [hc h]
  | cons w ws => rfl

/-- What an item adds to a block is given by its reading and by what its own block holds. -/
private theorem sound_bareContents {item : Item} (hf : ∀ e, item.reading ≠ .fault e) :
    item.bareContents.sound = (blockOf item.nests item.inner).sound.map
      ((Role.block nested).contents item.lead item.hasBlock item.reading) := by
  cases hr : item.reading with
  | fault e => exact absurd hr (hf e)
  | declaration d =>
    have hin : item.inner = [] := by simp [Item.inner, hr]
    simp [Item.bareContents, Item.contents, hr, hin, Contents.sound, Contents.unlined,
      Role.contents, Rule.allUnlined, Rule.mapAllLines, Contents.empty]
  | style found =>
    have hb : item.bareContents = ⟨[], [.style found (blockOf item.nests item.inner).declarations
        (blockOf item.nests item.inner).rules 0], (blockOf item.nests item.inner).warnings⟩ := by
      simp only [Item.bareContents, Item.contents, hr]
      rfl
    rw [hb]
    exact sound_of rfl fun hw => by simp [Role.contents, hw]
  | atRule name =>
    have key (l : Nat) (lead : String) (body : AtBody) (ws : List Warning) : Contents.unlined
        ⟨[], [.atRule name lead body l], ws⟩ =
        ⟨[], [.atRule name lead body.unlined 0], ws.map Warning.unlined⟩ := rfl
    have hbody (c : Contents) : (item.atBody c.body).unlined = item.atBody c.unlined.body := by
      rw [Item.atBody, Item.atBody, Contents.body_unlined]
      split <;> rfl
    have hb : item.bareContents = ⟨[], [.atRule name item.lead
        (item.atBody (blockOf item.nests item.inner).body) 0],
        (blockOf item.nests item.inner).warnings⟩ := by
      simp only [Item.bareContents, Item.contents, hr, key, hbody]
      rfl
    rw [hb]
    refine sound_of rfl fun hw => ?_
    cases hh : item.hasBlock <;> simp [Role.contents, hw, hh, Item.atBody]

/-- What an item adds to a rule list is given by its rule. -/
private theorem sound_bareListing {item : Item} (hs : item.skipped = []) :
    Listing.sound item.bareListing = Listing.sound (Listing.bare (item.rule item.innerListing)) := by
  rw [Item.bareListing, Item.bare_listing, hs]
  exact congrArg Listing.sound (Listing.behind_nil _)

/-- A rule that is not read as a rule list adds to a rule list what it adds to a block. -/
private theorem sound_of_not_groups {item : Item} (hs : item.skipped = [])
    (hf : ∀ e, item.reading ≠ .fault e) (hd : ∀ d, item.reading ≠ .declaration d)
    (hg : item.groups = false) : Listing.sound item.bareListing = item.bareContents.sound := by
  have hc : (⟨[], item.bareContents.rules, item.bareContents.warnings⟩ : Contents) =
      item.bareContents := by
    cases hr : item.reading with
    | declaration d => exact absurd hr (hd d)
    | _ => simp only [Item.bareContents, Item.contents, hr]; rfl
  rw [sound_bareListing hs, Item.bare_rule]
  cases hr : item.reading with
  | fault e => exact absurd hr (hf e)
  | atRule name =>
    simp only [hg, Bool.false_eq_true, if_false]
    exact congrArg Contents.sound hc
  | _ => exact congrArg Contents.sound hc

/-- A rule that is read as a rule list. -/
private theorem sound_of_groups {item : Item} (hs : item.skipped = []) (hg : item.groups = true) :
    Listing.sound item.bareListing = (Role.rules.result item.inner).map
      (Role.rules.contents item.lead item.hasBlock item.reading) := by
  rw [sound_bareListing hs, Item.bare_rule]
  cases hr : item.reading with
  | atRule name =>
    obtain ⟨hb, hc⟩ : item.hasBlock = true ∧ AtClass.ofName name ≠ .declarations := by
      simpa [Item.groups, hr] using hg
    have hin : item.innerListing = readRules item.inner := by rw [Item.innerListing, if_pos hg]
    simp only [hg, if_true, hin, Role.result, listingOf]
    cases Listing.bare (readRules item.inner) with
    | error e => rfl
    | ok l =>
      refine sound_of rfl fun hw => ?_
      have hw' : l.warnings = [] := hw
      simp [Role.contents, hw', hb, hc]
  | _ => simp [Item.groups, hr] at hg

/-- What an item holds is given by its reading and by what its block holds. -/
theorem Item.result_eq {item : Item} (hs : item.skipped = [])
    (hf : ∀ e, item.reading ≠ .fault e) (hd : role = .rules → ∀ d, item.reading ≠ .declaration d)
    (hi : item.hasBlock = false → item.inner = []) : item.result role =
      ((role.inside item.reading).result item.inner).map
        (role.contents item.lead item.hasBlock item.reading) := by
  cases role with
  | block nested =>
    have hin : (Role.block nested).inside item.reading = .block item.nests := by
      cases hr : item.reading with
      | atRule name =>
        by_cases hc : AtClass.ofName name = .declarations <;>
          simp [Role.inside, Item.nests, hr, hc]
      | _ => simp [Role.inside, Item.nests, hr]
    rw [hin]
    exact sound_bareContents hf
  | rules =>
    cases hg : item.groups with
    | true =>
      have hin : Role.rules.inside item.reading = .rules := by
        cases hr : item.reading with
        | atRule name =>
          have hc : AtClass.ofName name ≠ .declarations := by
            simp only [Item.groups, hr, Bool.and_eq_true, decide_eq_true_eq] at hg
            exact hg.2
          simp [Role.inside, hc]
        | _ => simp [Item.groups, hr] at hg
      rw [hin]
      exact sound_of_groups hs hg
    | false =>
      rw [Item.result, sound_of_not_groups hs hf (hd rfl) hg, sound_bareContents hf]
      cases hr : item.reading with
      | fault e => exact absurd hr (hf e)
      | declaration d => exact absurd hr (hd rfl d)
      | style found =>
        have hn : item.nests = true := by simp [Item.nests, hr]
        rw [hn]
        rfl
      | atRule name =>
        by_cases hc : AtClass.ofName name = .declarations
        · have hn : item.nests = false := by simp [Item.nests, hr, hc]
          have hsame : (Role.block true).contents item.lead item.hasBlock (.atRule name) =
              Role.rules.contents item.lead item.hasBlock (.atRule name) := by
            funext c
            simp [Role.contents, hc]
          rw [hn, hsame]
          simp [Role.inside, hc, Role.result]
        · have hb : item.hasBlock = false := by simpa [Item.groups, hr, hc] using hg
          rw [hi hb]
          simp [Role.contents, hb, Contents.sound, Contents.empty]

end SheetDiff
