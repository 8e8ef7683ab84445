import SheetDiff.Proofs.Sheet.Joined
import SheetDiff.Proofs.Sheet.Normal
import SheetDiff.Proofs.Sheet.Places

/-!
# Where errors and warnings point

An error comes from the first item of a rule list, at any depth, that is at fault, and it quotes the
text from the place of this item on (`parse_error_place`). A warning comes from an item of a block that
is at fault, and quotes the text from there (`place_of_warning`). The line of an error is that of its
place unless a character set statement on an earlier line was skipped before the item. The line of a
warning is that of its place if nothing but white space, comments and semicolons was skipped before the
item and the item does not start with a delimiter of a markup comment.
-/

namespace SheetDiff

open Css (Bracket Kind Node Token sourceOf)
open Css.Node (FitsEnd allTokens allTokens_append)

variable {role role' : Role} {nested first : Bool} {item : Item} {items : List Item} {n : Node}
variable {ns rest skipped : List Node} {before start : List Token} {css : String}

/-! ## Excerpts -/

/-- A text collapses to the start of what any longer one collapses to. -/
theorem Text.collapse_prefix (cs ds : List Char) :
    (Text.collapse cs).toList <+: (Text.collapse (cs ++ ds)).toList := by
  induction cs with
  | nil => exact List.nil_prefix
  | cons c cs ih =>
    by_cases hc : Text.isSpace c = true
    · rwa [List.cons_append, Text.collapse_cons_of_isSpace hc, Text.collapse_cons_of_isSpace hc]
    · have hc : Text.isSpace c = false := by simpa using hc
      cases cs with
      | nil =>
        obtain ⟨u, hu, -⟩ := Text.collapse_cons hc ds
        rw [Text.collapse_cons_of_startsSpace hc (by simp [Text.StartsSpace]), List.cons_append,
          List.nil_append, hu]
        exact ⟨u, rfl⟩
      | cons d cs =>
        by_cases hd : Text.isSpace d = true
        · have hstart (es : List Char) : Text.StartsSpace (d :: es) := by
            simpa [Text.StartsSpace] using hd
          rw [Text.collapse_cons_of_startsSpace hc (hstart cs), List.cons_append, List.cons_append,
            Text.collapse_cons_of_startsSpace hc (hstart _)]
          refine (List.prefix_cons_inj c).2 ?_
          split
          · exact List.nil_prefix
          · rename_i hw
            rw [if_neg fun hnil => hw ?_]
            · exact (List.prefix_cons_inj ' ').2 ih
            · rw [Text.words_eq_nil_iff] at hnil ⊢
              exact fun x hx => hnil x (List.mem_append_left ds hx)
        · have hd : Text.isSpace d = false := by simpa using hd
          rw [Text.collapse_cons_of_not_isSpace hc hd, List.cons_append, List.cons_append,
            Text.collapse_cons_of_not_isSpace hc hd]
          exact (List.prefix_cons_inj c).2 ih

/-- What an excerpt shows of a text, without the dots where it is cut short. -/
def Text.shown (cs : List Char) : String :=
  String.ofList ((Text.collapse cs).toList.take Text.excerptLength)

theorem Text.excerpt_eq_shown (cs : List Char) : Text.excerpt cs = Text.shown cs ∨
    Text.excerpt cs = Text.shown cs ++ "..." := by
  unfold Text.excerpt
  simp only
  split
  · rename_i h
    left
    rw [Text.shown, List.take_of_length_le (by rwa [String.length_toList]), String.ofList_toList]
  · exact .inr rfl

/-- An excerpt shows the start of the text that it is taken from. -/
theorem Text.shown_prefix (cs ds : List Char) :
    (Text.shown cs).toList <+: (Text.collapse (cs ++ ds)).toList := by
  rw [Text.shown, String.toList_ofList]
  exact (List.take_prefix _ _).trans (Text.collapse_prefix cs ds)

/-! ## Failing rules -/

/-- An item of a rule list, at some depth of the nodes of a rule list, that is at fault. -/
def FailsIn (before : List Token) (ns : List Node) (start : List Token) (item : Item) (f : Fault) :
    Prop :=
  Role.rules.Place before ns .rules start item ∧ item.reading = .fault f

/-- The item `outer` at the place `start`, or one of the rule lists inside of it, is at fault. -/
def Item.FailsAt (outer : Item) (start start' : List Token) (item : Item) (f : Fault) : Prop :=
  (start' = start ∧ item = outer ∨
    (Role.rules.inside outer.reading).Place (start ++ outer.failed) outer.inner .rules start' item) ∧
      item.reading = .fault f

theorem failsIn_iff {f : Fault} : FailsIn before ns start item f ↔ ∃ place outer,
    (place, outer) ∈ Role.rules.placesFrom before (Role.rules.items ns) ∧
      outer.FailsAt place start item f := by
  constructor
  · rintro ⟨hp, hf⟩
    cases hp with
    | here h => exact ⟨start, item, h, .inl ⟨rfl, rfl⟩, hf⟩
    | inside h hi => exact ⟨_, _, h, .inr hi, hf⟩
  · rintro ⟨place, outer, h, ⟨rfl, rfl⟩ | hi, hf⟩
    · exact ⟨.here h, hf⟩
    · exact ⟨.inside h hi, hf⟩

theorem Item.FailsAt.prefix {outer : Item} {place : List Token} {f : Fault}
    (h : outer.FailsAt place start item f) : place <+: start := by
  rcases h.1 with ⟨rfl, -⟩ | hi
  · exact List.prefix_rfl
  · exact (List.prefix_append _ _).trans hi.prefix

/-- A failing item lies in the tokens that the item around it takes. -/
theorem Item.FailsAt.inside {outer : Item} {place : List Token} {f : Fault}
    (h : outer.FailsAt place start item f) : start <+: place ++ outer.tokens := by
  rcases h.1 with ⟨rfl, -⟩ | hi
  · exact List.prefix_append _ _
  · obtain ⟨after, ha⟩ := hi.split
    obtain ⟨more, hm⟩ := tokens_eq_inner outer
    have hinner : start <+: place ++ outer.failed ++ allTokens outer.inner := ha ▸ List.prefix_append _ _
    refine hinner.trans ⟨more, ?_⟩
    rw [hm]
    simp only [List.append_assoc]

/-- A reading with an error tells of the first item at fault, and one without tells that there is
none. -/
def Reports (fails : List Token → Item → Fault → Prop) : Except ParseError Listing → Prop
  | .ok _ => ∀ start item f, ¬ fails start item f
  | .error e => ∃ start item f, fails start item f ∧
      e = f.error item.quoted (item.faultLine Kind.isRuleGap) ∧
      ∀ start' item' f', fails start' item' f' → start <+: start'

/-- The first error of a list of items is that of its first failing item. -/
private theorem reports_concat {part : Item → Except ParseError Listing} (tail : Listing)
    (h : ∀ item ∈ items, ∀ start, Reports (item.FailsAt start) (part item)) (before : List Token) :
    Reports (fun start item f => ∃ place outer,
      (place, outer) ∈ Role.rules.placesFrom before items ∧ outer.FailsAt place start item f)
        (Listing.concat (items.map part ++ [.ok tail])) := by
  induction items generalizing before with
  | nil =>
    rintro start item f ⟨place, outer, hm, -⟩
    simp [Role.placesFrom] at hm
  | cons i items ih =>
    have hi := h i List.mem_cons_self (before ++ allTokens i.skipped)
    have hrest := ih (fun j hj => h j (List.mem_cons_of_mem _ hj))
      (before ++ allTokens i.skipped ++ Role.rules.taken i)
    have htaken : Role.rules.taken i = i.tokens := rfl
    cases hp : part i with
    | error e =>
      have hconcat : Listing.concat ((i :: items).map part ++ [.ok tail]) = .error e := by
        simp [Listing.concat, hp, bind, Except.bind]
      rw [hp] at hi
      obtain ⟨start, item, f, hfail, he, hfirst⟩ := hi
      rw [hconcat]
      refine ⟨start, item, f, ⟨_, i, List.mem_cons_self, hfail⟩, he, ?_⟩
      rintro start' item' f' ⟨place, outer, hm, hfail'⟩
      rcases List.mem_cons.1 hm with hm | hm
      · obtain ⟨rfl, rfl⟩ := Prod.mk.inj hm
        exact hfirst _ _ _ hfail'
      · -- a later item starts behind all that the first one takes
        have hplace := prefix_of_mem_placesFrom hm
        rw [htaken] at hplace
        exact (hfail.inside.trans hplace).trans hfail'.prefix
    | ok l =>
      rw [hp] at hi
      have hsplit {start : List Token} {item : Item} {f : Fault} : (∃ place outer,
          (place, outer) ∈ Role.rules.placesFrom before (i :: items) ∧
            outer.FailsAt place start item f) → ∃ place outer, (place, outer) ∈
              Role.rules.placesFrom (before ++ allTokens i.skipped ++ Role.rules.taken i) items ∧
                outer.FailsAt place start item f := by
        rintro ⟨place, outer, hm, hfail⟩
        rcases List.mem_cons.1 hm with hm | hm
        · obtain ⟨rfl, rfl⟩ := Prod.mk.inj hm
          exact absurd hfail (hi _ _ _)
        · exact ⟨place, outer, hm, hfail⟩
      cases hl : Listing.concat (items.map part ++ [.ok tail]) with
      | ok m =>
        have hconcat : Listing.concat ((i :: items).map part ++ [.ok tail]) =
            .ok ⟨l.rules ++ m.rules, l.warnings ++ m.warnings⟩ := by
          simp [Listing.concat, hp, hl, bind, Except.bind]
        rw [hl] at hrest
        rw [hconcat]
        exact fun start item f hfail => hrest start item f (hsplit hfail)
      | error e =>
        have hconcat : Listing.concat ((i :: items).map part ++ [.ok tail]) = .error e := by
          simp [Listing.concat, hp, hl, bind, Except.bind]
        rw [hl] at hrest
        obtain ⟨start, item, f, ⟨place, outer, hm, hfail⟩, he, hfirst⟩ := hrest
        rw [hconcat]
        exact ⟨start, item, f, ⟨place, outer, List.mem_cons_of_mem _ hm, hfail⟩, he,
          fun start' item' f' hfail' => hfirst _ _ _ (hsplit hfail')⟩

theorem not_place_nil : ¬ role.Place before [] role' start item := by
  intro h
  have hno (i : Item) : i ∉ role.items [] := by
    intro hm
    obtain ⟨n, rest, hs, -⟩ := mem_items role hm
    exact absurd (List.suffix_nil.1 hs) (by simp)
  cases h with
  | here h => exact hno _ (mem_of_mem_placesFrom h)
  | inside h _ => exact hno _ (mem_of_mem_placesFrom h)

/-- An at-rule without a block holds nothing. -/
private theorem inner_of_statement {name : String} (h : item ∈ Role.rules.items ns)
    (hr : item.reading = .atRule name) (hb : item.hasBlock = false) : item.inner = [] := by
  obtain ⟨n, rest, -, -, hread⟩ := mem_items .rules h
  obtain ⟨c, hrule, -, hstop⟩ := hread.ofRuleList
  rw [hr] at hrule
  cases hrule with
  | atRule hn _ =>
    cases hs : item.stop with
    | none => simp [Item.inner, hr, hs]
    | some stop =>
      have hends : endsStatement stop = true := of_mem_stop (hstop ▸ hs)
      have hbraces : stop.isBraces = false := by simpa [Item.hasBlock, hs] using hb
      have hsemicolon : stop.isSemicolon = true := by simpa [endsStatement, hbraces] using hends
      have hinner : stop.inner = [] := by
        cases stop with
        | leaf t => rfl
        | block opener inner closer => simp [Node.isSemicolon, Node.isLeaf, Node.isBlock] at hsemicolon
      simp [Item.inner, hr, hs, hinner]

/-- A rule whose block is no rule list has no failing rule. -/
private theorem not_failsAt (hr : ∀ f, item.reading ≠ .fault f)
    (hi : item.inner = [] ∨ Role.rules.inside item.reading = .block nested) (start : List Token) :
    ∀ start' item' f, ¬ item.FailsAt start start' item' f := by
  rintro start' item' f ⟨⟨-, rfl⟩ | hp, hf⟩
  · exact hr f hf
  · rcases hi with hi | hi
    · rw [hi] at hp
      exact not_place_nil hp
    · rw [hi] at hp
      obtain ⟨nested', h⟩ := hp.block
      cases h

/-- An item whose block is read as a rule list. -/
theorem groups_cases (hg : item.groups = true) : ∃ name, item.reading = .atRule name ∧
    Role.rules.inside item.reading = .rules := by
  unfold Item.groups at hg
  split at hg
  · rename_i name hr
    have hc : AtClass.ofName name ≠ .declarations := by simpa using (Bool.and_eq_true_iff.1 hg).2
    exact ⟨name, hr, by simp [hr, Role.inside, hc]⟩
  · simp at hg

/-- An item whose block is no rule list holds nothing, or a block. -/
theorem not_groups_cases (h : item ∈ Role.rules.items ns) (hg : item.groups = false) :
    item.inner = [] ∨ Role.rules.inside item.reading = .block item.nests := by
  unfold Item.nests
  cases hr : item.reading with
  | atRule name =>
    by_cases hc : AtClass.ofName name = .declarations
    · exact .inr (by simp [Role.inside, hc])
    · refine .inl (inner_of_statement h hr ?_)
      simpa [Item.groups, hr, hc] using hg
  | _ => exact .inr rfl

/-- The listing of an item reports the first fault in it. -/
private theorem reports_listing (h : item ∈ Role.rules.items ns)
    (ih : ∀ before, Reports (FailsIn before item.inner) (readRules item.inner)) (start : List Token) :
    Reports (item.FailsAt start)
      (item.listing (if item.groups then readRules item.inner else .ok ⟨[], []⟩)) := by
  by_cases hf : ∃ f, item.reading = .fault f
  · obtain ⟨f, hr⟩ := hf
    rw [Item.listing_of_fault hr]
    exact ⟨start, item, f, ⟨.inl ⟨rfl, rfl⟩, hr⟩, rfl, fun start' item' f' hfail => hfail.prefix⟩
  · have hno : ∀ f, item.reading ≠ .fault f := fun f hr => hf ⟨f, hr⟩
    by_cases hg : item.groups = true
    · obtain ⟨name, hr, hin⟩ := groups_cases hg
      have hiff (start' : List Token) (item' : Item) (f : Fault) :
          item.FailsAt start start' item' f ↔
            FailsIn (start ++ item.failed) item.inner start' item' f := by
        unfold Item.FailsAt FailsIn
        rw [hin]
        refine and_congr_left fun hfault => or_iff_right ?_
        rintro ⟨-, rfl⟩
        exact hno f hfault
      have hreports := ih (start ++ item.failed)
      rw [if_pos hg]
      cases hl : readRules item.inner with
      | error e =>
        rw [hl] at hreports
        obtain ⟨start', item', f, hfail, he, hfirst⟩ := hreports
        have hlisting : item.listing (.error e) = .error e := by
          simp [Item.listing, Item.rule, hr, hg, bind, Except.bind]
        rw [hlisting]
        exact ⟨start', item', f, (hiff _ _ _).2 hfail, he,
          fun start' item' f' hfail' => hfirst _ _ _ ((hiff _ _ _).1 hfail')⟩
      | ok l =>
        rw [hl] at hreports
        have hlisting : ∃ l', item.listing (.ok l) = .ok l' := by
          simp [Item.listing, Item.rule, hr, hg, bind, Except.bind]
        obtain ⟨l', hl'⟩ := hlisting
        rw [hl']
        exact fun start' item' f hfail => hreports _ _ _ ((hiff _ _ _).1 hfail)
    · have hg : item.groups = false := by simpa using hg
      obtain ⟨l, hl⟩ : ∃ l, item.listing (.ok ⟨[], []⟩) = .ok l := by
        cases hr : item.reading with
        | fault f => exact absurd hr (hno f)
        | atRule name => exact ⟨_, by simp [Item.listing, Item.rule, hr, hg, bind, Except.bind]; rfl⟩
        | _ => exact ⟨_, by simp [Item.listing, Item.rule, hr, bind, Except.bind]; rfl⟩
      rw [hg, if_neg Bool.false_ne_true, hl]
      exact not_failsAt hno (not_groups_cases h hg) start

/-- A rule list reports its first fault. -/
theorem reports_readRules (ns : List Node) (before : List Token) :
    Reports (FailsIn before ns) (readRules ns) := by
  induction ns using readRules.induct generalizing before with
  | case1 ns found =>
    rename_i ih
    have hiff : FailsIn before ns = fun start item f => ∃ place outer,
        (place, outer) ∈ Role.rules.placesFrom before (Role.rules.items ns) ∧
          outer.FailsAt place start item f := by
      funext start item f
      exact propext failsIn_iff
    rw [hiff, readRules_eq]
    exact reports_concat _ (fun item hm start => reports_listing hm (ih ⟨item, hm⟩) start) before

/-! ## Lines of errors -/

/-- The keyword of a character set statement that was skipped before an item of a rule list. -/
def Item.passed? (item : Item) : Option Node := item.skipped.find? (!isRuleGap ·)

private theorem find?_takeWhile {p : Node → Bool} (ns : List Node) :
    (ns.takeWhile p).find? (!p ·) = none := by
  rw [List.find?_eq_none]
  intro n hn
  simpa using List.all_eq_true.1 (List.all_takeWhile (p := p) (l := ns)) n hn

/-- Nothing but gaps and a character set statement is skipped before an item of a rule list. -/
private theorem passed_ruleItems (h : item ∈ (ruleItems first skipped ns).items)
    (hs : ∀ n ∈ skipped.find? (!isRuleGap ·), isCharset n = true) :
    ∀ n ∈ item.passed?, isCharset n = true := by
  fun_induction ruleItems first skipped ns with
  | case1 => simp at h
  | case2 first skipped ns gap n rest hd hf c ih =>
    have hn : isCharset n = true := (Bool.and_eq_true_iff.1 hf).2
    have hgap : (!isRuleGap n) = true := by simp [isRuleGap_of_isCharset hn]
    refine ih h fun m hm => ?_
    rw [List.find?_append, List.find?_append, find?_takeWhile, Option.or_none,
      List.find?_cons_of_pos (p := (!isRuleGap ·)) hgap] at hm
    cases hfound : skipped.find? (!isRuleGap ·) with
    | none =>
      obtain rfl : n = m := by simpa [hfound] using hm
      exact hn
    | some k =>
      obtain rfl : k = m := by simpa [hfound] using hm
      exact hs k hfound
  | case3 first skipped ns gap n rest hd hf found more ih =>
    rcases List.mem_cons.1 h with rfl | h
    · intro m hm
      refine hs m ?_
      rwa [Item.passed?, List.find?_append, find?_takeWhile, Option.or_none] at hm
    · exact ih h (by simp)

/-- The first token behind gaps. -/
private theorem find?_allTokens (h : ∀ n ∈ ns.find? (!isRuleGap ·), isCharset n = true) :
    (allTokens ns).find? (!·.kind.isRuleGap) = (ns.find? (!isRuleGap ·)).map (·.first) := by
  induction ns with
  | nil => rfl
  | cons n ns ih =>
    by_cases hg : isRuleGap n = true
    · obtain ⟨t, rfl, ht⟩ : ∃ t, n = .leaf t ∧ t.kind.isRuleGap = true := by
        cases n with
        | leaf t => exact ⟨t, rfl, hg⟩
        | block opener inner closer => simp [isRuleGap, Node.isLeaf, Node.isBlock] at hg
      rw [List.find?_cons_of_neg (by simpa using hg)] at h ⊢
      rw [allTokens, Node.tokens, List.singleton_append, List.find?_cons_of_neg (by simpa using ht)]
      exact ih h
    · have hg : (!isRuleGap n) = true := by simpa using hg
      rw [List.find?_cons_of_pos (p := (!isRuleGap ·)) hg] at h ⊢
      obtain ⟨t, -, rfl, -⟩ := exists_leaf_of_isCharset (h n rfl)
      rw [allTokens, Node.tokens, List.singleton_append,
        List.find?_cons_of_pos (p := fun t : Token => !t.kind.isRuleGap) (a := t) hg]
      rfl

/-- The line of an error is that of the statement that was skipped, or that of the first token. -/
private theorem faultLine_rules {t : Token} (h : ∀ n ∈ item.passed?, isCharset n = true)
    (ht : item.failed.head? = some t) (hgap : t.kind.isRuleGap = false) :
    item.faultLine Kind.isRuleGap = ((item.passed?.map (·.first.line)).getD t.line) := by
  obtain ⟨ts, hts⟩ := List.head?_eq_some_iff.1 ht
  have hpos : (!t.kind.isRuleGap) = true := by simpa using hgap
  rw [Item.faultLine, lineAfter, List.find?_append, find?_allTokens h, hts,
    List.find?_cons_of_pos (p := fun t : Token => !t.kind.isRuleGap) hpos, ← Item.passed?]
  cases item.passed? <;> rfl

/-! ## Errors -/

theorem Role.Place.mem (h : role.Place before ns role' start item) :
    ∃ ms, item ∈ role'.items ms := by
  induction h with
  | here h => exact ⟨_, mem_of_mem_placesFrom h⟩
  | inside _ _ ih => exact ih

/-- A block starts with its bracket. -/
private theorem opens_of_fitsEnd {b : Option Bracket} {closed : Bool} {opener : Token}
    {inner : List Node} {closer : Option Token}
    (hf : FitsEnd b closed (.block opener inner closer)) : ∃ c, opener.kind.opens? = some c := by
  cases closer with
  | none => exact hf.imp fun c h => h.1
  | some t => exact hf.imp fun c h => h.1

/-- A token that opens a block is no gap. -/
private theorem isRuleGap_first {b : Option Bracket} {closed : Bool} (hf : FitsEnd b closed n)
    (hgap : isRuleGap n = false) : n.first.kind.isRuleGap = false := by
  cases n with
  | leaf t => exact hgap
  | block opener inner closer =>
    obtain ⟨c, ho⟩ := opens_of_fitsEnd hf
    rw [Node.first]
    cases hk : opener.kind <;> simp_all [Kind.opens?, Kind.isRuleGap, Kind.isSpacing]

/-- An error comes from the first item at fault in a rule list, at any depth, and quotes the text from
there. Its line is that of this place unless a character set statement that starts on another line was
skipped directly before the item. -/
theorem parse_error_place {e : ParseError} (h : Stylesheet.parse css = .error e) :
    ∃ before item fault after, Stylesheet.Place css .rules before item ∧
      item.reading = .fault fault ∧ css.toList = sourceOf before ++ (item.quoted ++ after) ∧
      e.message = fault.reason .ruleList ++ " in `" ++ Text.excerpt item.quoted ++ "`" ∧
      (∀ before' item' fault', Stylesheet.Place css .rules before' item' →
        item'.reading = .fault fault' → before <+: before') ∧
      (∀ n ∈ item.passed?, isCharset n = true) ∧
      (e.line = some (1 + Text.lineBreaks (sourceOf before)) ↔
        ∀ n ∈ item.passed?, n.first.line = 1 + Text.lineBreaks (sourceOf before)) := by
  obtain ⟨front, hparse⟩ := exists_ofNodes (Node.ofText css.toList)
  have hreports := reports_readRules (Stylesheet.cut (Node.ofText css.toList)).2
    (allTokens (Stylesheet.cut (Node.ofText css.toList)).1)
  have herror : readRules (Stylesheet.cut (Node.ofText css.toList)).2 = .error e := by
    rw [Stylesheet.parse, hparse] at h
    cases hl : readRules (Stylesheet.cut (Node.ofText css.toList)).2 with
    | error e' =>
      rw [hl] at h
      exact congrArg _ (Except.error.inj h)
    | ok l =>
      rw [hl] at h
      cases h
  rw [herror] at hreports
  obtain ⟨before, item, fault, ⟨hplace, hfault⟩, rfl, hfirst⟩ := hreports
  have hplace : Stylesheet.Place css .rules before item := hplace
  obtain ⟨after, hsource⟩ := hplace.source
  obtain ⟨n, b, closed, hfits, hgap, hhead, hline⟩ := hplace.head
  have hpassed : ∀ n ∈ item.passed?, isCharset n = true := by
    obtain ⟨ms, hms⟩ := Role.Place.mem hplace
    exact passed_ruleItems hms (by simp)
  refine ⟨before, item, fault, after, hplace, hfault, hsource, rfl,
    fun before' item' fault' hp hf => hfirst before' item' fault' ⟨hp, hf⟩, hpassed, ?_⟩
  have hlines : (fault.error item.quoted (item.faultLine Kind.isRuleGap)).line =
      some ((item.passed?.map (·.first.line)).getD (1 + Text.lineBreaks (sourceOf before))) := by
    rw [← hline]
    exact congrArg some (faultLine_rules hpassed hhead (isRuleGap_first hfits hgap))
  rw [hlines]
  cases item.passed? <;> simp

/-- The rule of a nested list is at fault, behind a rule on the line above. -/
theorem parse_error_place_nested :
    Stylesheet.parse "a\x7b\x7d\n@media x\x7b\nb\x7d" = .error ⟨"missing '\x7b' in `b`", some 3⟩ ∧
      ∃ before item fault after,
        Stylesheet.Place "a\x7b\x7d\n@media x\x7b\nb\x7d" .rules before item ∧
          item.reading = .fault fault ∧
          "a\x7b\x7d\n@media x\x7b\nb\x7d".toList = sourceOf before ++ (item.quoted ++ after) ∧
          (some 3 = some (1 + Text.lineBreaks (sourceOf before)) ↔
            ∀ n ∈ item.passed?, n.first.line = 1 + Text.lineBreaks (sourceOf before)) := by
  have herror : Stylesheet.parse "a\x7b\x7d\n@media x\x7b\nb\x7d" =
      .error ⟨"missing '\x7b' in `b`", some 3⟩ := by cbv
  obtain ⟨before, item, fault, after, hplace, hfault, hsource, -, -, -, hline⟩ :=
    parse_error_place herror
  exact ⟨herror, before, item, fault, after, hplace, hfault, hsource, hline⟩

/-- A second character set statement is skipped, and the error behind it gets its line. -/
theorem not_parse_error_place : ∃ before item,
    Stylesheet.Place "@charset \"a\";\n@charset \"b\";\nc" .rules before item ∧
      item.reading = .fault .endOfInput ∧ item.quoted = ['c'] ∧
      1 + Text.lineBreaks (sourceOf before) = 3 ∧
      Stylesheet.parse "@charset \"a\";\n@charset \"b\";\nc" =
        .error ⟨"missing '\x7b' in `c`", some 2⟩ := by
  have hcut : Stylesheet.cut (Node.ofText "@charset \"a\";\n@charset \"b\";\nc".toList) =
      ([.leaf ⟨.atKeyword "charset", "@charset".toList, 1⟩, .leaf ⟨.whitespace, [' '], 1⟩,
          .leaf ⟨.string "a", "\"a\"".toList, 1⟩, .leaf ⟨.semicolon, [';'], 1⟩],
        [.leaf ⟨.whitespace, ['\n'], 1⟩, .leaf ⟨.atKeyword "charset", "@charset".toList, 2⟩,
          .leaf ⟨.whitespace, [' '], 2⟩, .leaf ⟨.string "b", "\"b\"".toList, 2⟩,
          .leaf ⟨.semicolon, [';'], 2⟩, .leaf ⟨.whitespace, ['\n'], 2⟩,
          .leaf ⟨.ident "c", ['c'], 3⟩]) := by cbv
  have hitems : Role.rules.items
      [.leaf ⟨.whitespace, ['\n'], 1⟩, .leaf ⟨.atKeyword "charset", "@charset".toList, 2⟩,
        .leaf ⟨.whitespace, [' '], 2⟩, .leaf ⟨.string "b", "\"b\"".toList, 2⟩,
        .leaf ⟨.semicolon, [';'], 2⟩, .leaf ⟨.whitespace, ['\n'], 2⟩,
        .leaf ⟨.ident "c", ['c'], 3⟩] =
      [⟨[.leaf ⟨.whitespace, ['\n'], 1⟩, .leaf ⟨.atKeyword "charset", "@charset".toList, 2⟩,
          .leaf ⟨.whitespace, [' '], 2⟩, .leaf ⟨.string "b", "\"b\"".toList, 2⟩,
          .leaf ⟨.semicolon, [';'], 2⟩, .leaf ⟨.whitespace, ['\n'], 2⟩], 3,
        [.leaf ⟨.ident "c", ['c'], 3⟩], none, .fault .endOfInput⟩] := by cbv
  apply Exists.intro
  apply Exists.intro
  constructor
  · unfold Stylesheet.Place
    simp only [hcut]
    apply Role.Place.here
    rw [hitems]
    exact List.mem_singleton.2 rfl
  · exact ⟨rfl, by cbv, by decide, by cbv⟩

/-! ## Warnings -/

/-- A warning of an item of a block, at some depth of the nodes, that is at fault. -/
def WarnsIn (role : Role) (before : List Token) (ns : List Node) (w : Warning) : Prop :=
  ∃ nested start item f, role.Place before ns (.block nested) start item ∧
    item.reading = .fault f ∧ w = f.warning item.quoted (item.faultLine passedInBlock)

/-- Warnings from inside of an item. -/
private theorem WarnsIn.inside {w : Warning} (h : item ∈ role.items ns)
    (hi : ∀ before, WarnsIn (role.inside item.reading) before item.inner w) (before : List Token) :
    WarnsIn role before ns w := by
  have hplace (before : List Token) : ∃ role' start item',
      (role.inside item.reading).Place before item.inner role' start item' ∧ ∃ nested f,
        role' = .block nested ∧ item'.reading = .fault f ∧
          w = f.warning item'.quoted (item'.faultLine passedInBlock) := by
    obtain ⟨nested, start, item', f, hp, hf, hw⟩ := hi before
    exact ⟨_, start, item', hp, nested, f, rfl, hf, hw⟩
  obtain ⟨_, start, item', hp, nested, f, rfl, hf, hw⟩ := exists_place_inside h hplace before
  exact ⟨nested, start, item', f, hp, hf, hw⟩

/-- A warning of an item is its own or comes from its block. -/
private theorem mem_contents_warnings {inner : Contents} {w : Warning}
    (h : w ∈ (item.contents inner).warnings) :
    (∃ f, item.reading = .fault f ∧ w = f.warning item.quoted (item.faultLine passedInBlock)) ∨
      w ∈ inner.warnings := by
  unfold Item.contents at h
  cases hr : item.reading with
  | fault f =>
    rw [hr] at h
    exact .inl ⟨f, rfl, List.mem_singleton.1 h⟩
  | declaration d => simp [hr] at h
  | style found =>
    rw [hr] at h
    exact .inr h
  | atRule name =>
    rw [hr] at h
    exact .inr h

/-- Every warning of a block comes from an item at fault. -/
theorem warnsIn_readBlock (nested : Bool) (ns : List Node) (before : List Token) {w : Warning}
    (h : w ∈ (readBlock nested ns).warnings) : WarnsIn (.block nested) before ns w := by
  induction nested, ns using readBlock.induct generalizing before with
  | case1 nested ns ih =>
    rw [readBlock_eq] at h
    obtain ⟨c, hc, hw⟩ := List.mem_flatMap.1 h
    obtain ⟨item, hm, rfl⟩ := List.mem_map.1 hc
    rcases mem_contents_warnings hw with ⟨f, hf, hw⟩ | hw
    · obtain ⟨start, hs⟩ := exists_place_of_mem (.block nested) before hm
      exact ⟨nested, start, item, f, .here hs, hf, hw⟩
    · have hinner (before : List Token) :
          WarnsIn ((Role.block nested).inside item.reading) before item.inner w := by
        rw [inside_block]
        exact ih ⟨item, hm⟩ before hw
      exact WarnsIn.inside hm hinner before

/-- Every warning of a rule list comes from an item of a block that is at fault. -/
theorem warnsIn_readRules (ns : List Node) (before : List Token) {l : Listing}
    (hl : readRules ns = .ok l) {w : Warning} (h : w ∈ l.warnings) :
    WarnsIn .rules before ns w := by
  induction ns using readRules.induct generalizing before l with
  | case1 ns found =>
    rename_i ih
    rw [readRules_eq] at hl
    obtain ⟨ls, hls, rfl⟩ := Listing.concat_ok hl
    obtain ⟨part, hpart, hw⟩ := List.mem_flatMap.1 h
    rcases List.mem_append.1 (hls part hpart) with hpart | hpart
    · obtain ⟨item, hm, hitem⟩ := List.mem_map.1 hpart
      obtain ⟨rule, hrule, rfl⟩ := Item.listing_ok hitem
      have hm : item ∈ Role.rules.items ns := hm
      refine WarnsIn.inside hm (fun before => ?_) before
      rcases Item.rule_ok hrule with ⟨name, listing, -, hg, hinner, rfl⟩ | ⟨hg, hno, rfl⟩
      · obtain ⟨-, -, hin⟩ := groups_cases hg
        rw [if_pos hg] at hinner
        rw [hin]
        exact ih ⟨item, hm⟩ before hinner hw
      · rcases mem_contents_warnings hw with ⟨f, hf, -⟩ | hw
        · exact absurd hf (hno f)
        · rcases not_groups_cases hm hg with hnil | hin
          · rw [hnil, readBlock_nil] at hw
            simp at hw
          · rw [hin]
            exact warnsIn_readBlock item.nests item.inner before hw
    · obtain rfl := Except.ok.inj (List.mem_singleton.1 hpart)
      simp at hw

/-! ## Lines of warnings -/

/-- The first token of an item of a block is not passed over, unless it is a delimiter of a markup
comment. -/
private theorem passedInBlock_first {b : Option Bracket} {closed : Bool} (hf : FitsEnd b closed n)
    (hgap : isBlockGap n = false) (hm : n.first.kind ≠ .cdo ∧ n.first.kind ≠ .cdc) :
    passedInBlock n.first.kind = false := by
  cases n with
  | leaf t =>
    rw [Node.first] at hm ⊢
    cases hk : t.kind <;> simp_all [isBlockGap, Node.isSpacing, Node.isSemicolon, Node.isLeaf,
      Node.isBlock, Node.kind, Node.first, passedInBlock, Kind.isRuleGap, Kind.isSpacing]
  | block opener inner closer =>
    obtain ⟨c, ho⟩ := opens_of_fitsEnd hf
    rw [Node.first]
    cases hk : opener.kind <;> simp_all [Kind.opens?, passedInBlock, Kind.isRuleGap, Kind.isSpacing]

/-- The first token skipped before an item of a block that is not passed over. -/
def Item.mistaken? (item : Item) : Option Token :=
  (allTokens item.skipped).find? (!passedInBlock ·.kind)

/-- The line of a warning is that of a token skipped before the item, or that of its first token. -/
private theorem faultLine_block {t : Token} (ht : item.failed.head? = some t)
    (hp : passedInBlock t.kind = false) :
    item.faultLine passedInBlock = (item.mistaken?.map (·.line)).getD t.line := by
  obtain ⟨ts, hts⟩ := List.head?_eq_some_iff.1 ht
  have hpos : (!passedInBlock t.kind) = true := by simpa using hp
  rw [Item.faultLine, lineAfter, List.find?_append, hts,
    List.find?_cons_of_pos (p := fun t : Token => !passedInBlock t.kind) hpos, ← Item.mistaken?]
  cases item.mistaken? <;> rfl

/-- A warning comes from an item of a block that is at fault, and what it shows of the text starts at
the place of this item. If the item does not start with a delimiter of a markup comment, its line is
that of this place unless a token on another line was skipped before the item that is neither white
space nor a comment, a semicolon or such a delimiter. -/
theorem warning_place {s : Stylesheet} (h : Stylesheet.parse css = .ok s) {w : Warning}
    (hw : w ∈ s.warnings) :
    ∃ nested before item fault after, Stylesheet.Place css (.block nested) before item ∧
      item.reading = .fault fault ∧ css.toList = sourceOf before ++ (item.quoted ++ after) ∧
      (∃ dots ∈ ["", "..."], w.message =
        "skipped `" ++ (Text.shown item.quoted ++ dots) ++ "`: " ++ fault.reason .block) ∧
      (Text.shown item.quoted).toList <+: (Text.collapse (item.quoted ++ after)).toList ∧
      ((∀ t ∈ item.failed.head?, t.kind ≠ .cdo ∧ t.kind ≠ .cdc) →
        (w.line = 1 + Text.lineBreaks (sourceOf before) ↔
          ∀ t ∈ item.mistaken?, t.line = 1 + Text.lineBreaks (sourceOf before))) := by
  obtain ⟨front, hparse⟩ := exists_ofNodes (Node.ofText css.toList)
  obtain ⟨l, hl, rfl⟩ : ∃ l, readRules (Stylesheet.cut (Node.ofText css.toList)).2 = .ok l ∧
      s = ⟨front ++ l.rules, l.warnings⟩ := by
    rw [Stylesheet.parse, hparse] at h
    cases hl : readRules (Stylesheet.cut (Node.ofText css.toList)).2 with
    | error e =>
      rw [hl] at h
      cases h
    | ok l =>
      rw [hl] at h
      exact ⟨l, rfl, (Except.ok.inj h).symm⟩
  obtain ⟨nested, before, item, fault, hplace, hfault, rfl⟩ := warnsIn_readRules _
    (allTokens (Stylesheet.cut (Node.ofText css.toList)).1) hl hw
  have hplace : Stylesheet.Place css (.block nested) before item := hplace
  obtain ⟨after, hsource⟩ := hplace.source
  obtain ⟨n, b, closed, hfits, hgap, hhead, hline⟩ := hplace.head
  refine ⟨nested, before, item, fault, after, hplace, hfault, hsource, ?_,
    Text.shown_prefix item.quoted after, fun hmarkup => ?_⟩
  · rcases Text.excerpt_eq_shown item.quoted with he | he
    · exact ⟨"", by simp, by simp [Fault.warning, he]⟩
    · exact ⟨"...", by simp, by simp [Fault.warning, he]⟩
  · have hlines : (fault.warning item.quoted (item.faultLine passedInBlock)).line =
        (item.mistaken?.map (·.line)).getD (1 + Text.lineBreaks (sourceOf before)) := by
      rw [← hline]
      exact faultLine_block hhead (passedInBlock_first hfits hgap (hmarkup _ hhead))
    rw [hlines]
    cases item.mistaken? <;> simp

/-- A declaration without a value on the second line. -/
theorem warning_place_second_line :
    Stylesheet.parse "a\x7b\nb;\x7d" =
        .ok ⟨[.style ["a"] [] [] 1], [⟨"skipped `b;`: missing ':' or value", 2⟩]⟩ ∧
      ∃ nested before item fault after,
        Stylesheet.Place "a\x7b\nb;\x7d" (.block nested) before item ∧
          item.reading = .fault fault ∧
          "a\x7b\nb;\x7d".toList = sourceOf before ++ (item.quoted ++ after) ∧
          (Text.shown item.quoted).toList <+: (Text.collapse (item.quoted ++ after)).toList ∧
          ((∀ t ∈ item.failed.head?, t.kind ≠ .cdo ∧ t.kind ≠ .cdc) →
            (2 = 1 + Text.lineBreaks (sourceOf before) ↔
              ∀ t ∈ item.mistaken?, t.line = 1 + Text.lineBreaks (sourceOf before))) := by
  have hok : Stylesheet.parse "a\x7b\nb;\x7d" =
      .ok ⟨[.style ["a"] [] [] 1], [⟨"skipped `b;`: missing ':' or value", 2⟩]⟩ := by cbv
  obtain ⟨nested, before, item, fault, after, hplace, hfault, hsource, -, hshown, hline⟩ :=
    warning_place hok (w := ⟨"skipped `b;`: missing ':' or value", 2⟩) (by simp)
  exact ⟨hok, nested, before, item, fault, after, hplace, hfault, hsource, hshown, hline⟩

/-- A warning behind a faulty item that ended at a block gets the line of what this block holds, and
one that quotes a delimiter of a markup comment gets the line behind it. Nowhere on these lines does
the text start with what is quoted. -/
theorem not_warning_place :
    (Stylesheet.parse "a\x7b\x7bb\n\x7dc;\x7d" = .ok ⟨[.style ["a"] [] [] 1],
        [⟨"skipped `\x7b`: selector missing", 1⟩, ⟨"skipped `c;`: missing ':' or value", 1⟩]⟩ ∧
      ∀ k < 9, 1 + Text.lineBreaks ("a\x7b\x7bb\n\x7dc;\x7d".toList.take k) = 1 →
        ¬ "c;".toList <+: (Text.collapse ("a\x7b\x7bb\n\x7dc;\x7d".toList.drop k)).toList) ∧
    (Stylesheet.parse "a\x7b<!--\nb;\x7d" = .ok ⟨[.style ["a"] [] [] 1],
        [⟨"skipped `<!-- b;`: unexpected `;`", 2⟩]⟩ ∧
      ∀ k < 10, 1 + Text.lineBreaks ("a\x7b<!--\nb;\x7d".toList.take k) = 2 →
        ¬ "<!-- b;".toList <+: (Text.collapse ("a\x7b<!--\nb;\x7d".toList.drop k)).toList) := by
  refine ⟨⟨by cbv, by decide⟩, by cbv, by decide⟩

end SheetDiff
