import SheetDiff.Proofs.Diff.Verdict
import SheetDiff.Proofs.Sheet.Normal
import SheetDiff.Proofs.Sheet.Respaced
import SheetDiff.Proofs.Text.Messages

/-!
# Reports of changed rules

The text of a structural comparison is its body, one line for each changed rule, and its summary
counts the changes. Whether the text splits into the body again depends on the labels only. Selectors
and leads are stored without line breaks, so that the label of a rule can fail to be a line only by
the decoded name of an at-rule (`isLine_label_iff`). Hence the report and its summary agree exactly
where every changed rule has a name on one line (`structural_report_iff`).
-/

namespace SheetDiff

open Text
open Css (Kind Node)

/-! ## Labels -/

/-- Stored texts are lines. -/
theorem Text.Stored.isLine {s : String} (h : Stored s) : IsLine s :=
  ⟨fun hc => h.ne_newline hc rfl, fun hc => absurd (h.last_not_space hc) (by decide)⟩

/-- Whether the name of a rule in a report is written on one line. Only the name of an at-rule, in
which escapes are decoded, may hold line breaks; at its end a carriage return counts as one. -/
def Rule.NamedInLine : Rule → Prop
  | .atRule name lead _ _ =>
    '\n' ∉ name.toList ∧ (lead = "" → name.toList.getLast? ≠ some '\r')
  | .style .. | .comment .. => True

private theorem isLine_intercalate {ss : List String} (h : ∀ s ∈ ss, Text.Filled s) :
    IsLine (", ".intercalate ss) := by
  induction ss with
  | nil => exact ⟨by simp, by simp⟩
  | cons s ss ih =>
    have hs := (h s List.mem_cons_self).stored.isLine
    have ih := ih fun t ht => h t (List.mem_cons_of_mem _ ht)
    cases ss with
    | nil => simpa using hs
    | cons t ts =>
      have hne : ", ".intercalate (t :: ts) ≠ "" := by
        have ht := (h t (by simp)).ne
        cases ts <;> simp [ht]
      have hsep : IsLine (s ++ ", ") := by
        refine ⟨?_, by simp⟩
        rw [String.toList_append, List.mem_append]
        simp [hs.1]
      rw [String.intercalate_cons_cons]
      exact (isLine_append_iff hsep hne).2 ih

/-- The label of a rule is a line exactly where its name is written on one. -/
theorem isLine_label_iff {r : Rule} {scope : Scope} (hr : r.Normal scope) :
    IsLine r.label ↔ r.NamedInLine := by
  cases r with
  | style selectors declarations rules line =>
    obtain ⟨-, hsel, -⟩ := hr
    simpa [Rule.NamedInLine, Rule.label] using
      isLine_intercalate fun s hs => (hsel s hs).toFilled
  | comment text line =>
    simp only [Rule.NamedInLine, Rule.label, iff_true]
    exact ⟨by decide, by decide⟩
  | atRule name lead body line =>
    obtain ⟨hname, hlead, -⟩ := hr
    have hat : '\n' ∉ ("@" : String).toList := by decide
    by_cases hl : lead = ""
    · subst hl
      have hline : IsLine "@" := ⟨hat, by decide⟩
      have hlabel : (Rule.atRule name "" body line).label = "@" ++ name := rfl
      rw [hlabel, isLine_append_iff hline hname]
      simp [IsLine, Rule.NamedInLine]
    · have hlabel : (Rule.atRule name lead body line).label = "@" ++ name ++ " " ++ lead := by
        simp [Rule.label, hl]
      have hend : (Rule.atRule name lead body line).label.toList.getLast? ≠ some '\r' := by
        rw [hlabel, String.toList_append, List.getLast?_append_of_ne_nil _ (by simpa using hl)]
        exact hlead.isLine.2
      have hmem : '\n' ∈ (Rule.atRule name lead body line).label.toList ↔ '\n' ∈ name.toList := by
        simp [hlabel, hlead.isLine.1]
      simp only [IsLine, hmem, Rule.NamedInLine]
      exact ⟨fun h => ⟨h.1, fun h => absurd h hl⟩, fun h => ⟨h.1, hend⟩⟩

/-! ## Changed rules -/

/-- The rule that a change is about: a rule of the new list where one was added, and of the old list
otherwise. -/
def RuleChange.rule? (old new : List Rule) (c : RuleChange) : Option Rule :=
  match c.kind with
  | .added => new[c.index]?
  | .removed | .modified => old[c.index]?

/-- A change as it stands in lists whose first rules are number `index`. -/
private theorem exists_rule_from {index : Nat} {old new : List Rule} {c : RuleChange}
    (h : c ∈ ruleChangesFrom index old new) : ∃ i, c.index = index + i ∧
      ∃ r, RuleChange.rule? old new { c with index := i } = some r ∧ c.label = r.label := by
  fun_induction ruleChangesFrom index old new with
  | case1 index new =>
    obtain ⟨⟨r, i⟩, hr, rfl⟩ := List.mem_map.1 h
    obtain ⟨hle, hget⟩ := List.mk_mem_zipIdx_iff_le_and_getElem?_sub.1 hr
    exact ⟨i - index, by simp only; omega, r, hget, rfl⟩
  | case2 index old =>
    obtain ⟨⟨r, i⟩, hr, rfl⟩ := List.mem_map.1 h
    obtain ⟨hle, hget⟩ := List.mk_mem_zipIdx_iff_le_and_getElem?_sub.1 hr
    exact ⟨i - index, by simp only; omega, r, hget, rfl⟩
  | case3 index o old n new ih =>
    rcases List.mem_append.1 h with h | h
    · split at h
      · simp at h
      · obtain rfl := List.mem_singleton.1 h
        exact ⟨0, rfl, o, rfl, rfl⟩
    · obtain ⟨i, hi, r, hr, hlabel⟩ := ih h
      refine ⟨i + 1, by omega, r, ?_, hlabel⟩
      cases hk : c.kind <;> simpa [RuleChange.rule?, hk] using hr

/-- A change has the label of the rule it is about. -/
theorem exists_rule_of_mem_ruleChanges {old new : Stylesheet} {c : RuleChange}
    (h : c ∈ ruleChanges old new) :
    ∃ r, c.rule? old.rules new.rules = some r ∧ c.label = r.label := by
  obtain ⟨i, hi, hr⟩ := exists_rule_from h
  obtain rfl : c.index = i := by omega
  exact hr

/-- A parsed sheet has rules in normal form only. -/
private theorem normal_rule? {old new : Stylesheet} (ho : old.Normal) (hn : new.Normal)
    {c : RuleChange} {r : Rule} (h : c.rule? old.rules new.rules = some r) :
    r.Normal .ruleList := by
  unfold RuleChange.rule? at h
  split at h
  · exact allNormal_iff.1 hn r (List.mem_of_getElem? h)
  · exact allNormal_iff.1 ho r (List.mem_of_getElem? h)
  · exact allNormal_iff.1 ho r (List.mem_of_getElem? h)

/-- The text of a change is a line exactly where its label is one. -/
private theorem isLine_text_iff (c : RuleChange) : IsLine c.text ↔ IsLine c.label := by
  have hword : IsLine (c.kind.word ++ ": ") := by
    cases c.kind <;> exact ⟨by decide, by decide⟩
  by_cases hc : c.label = ""
  · have hempty : IsLine "" := ⟨by decide, by decide⟩
    rw [RuleChange.text, hc]
    simpa using iff_of_true hword hempty
  · exact isLine_append_iff hword hc

/-! ## Reports -/

/-- The numbers of changes of each kind. -/
def RuleChange.tally (cs : List RuleChange) : Summary :=
  let count (kind : ChangeKind) := cs.countP (·.kind = kind)
  ⟨count .added, count .removed, some (count .modified)⟩

/-- The texts of changes tell their kinds, whatever the labels are. -/
theorem ofDetailLines_texts (cs : List RuleChange) :
    Summary.ofDetailLines (cs.map RuleChange.text) = RuleChange.tally cs := by
  simp only [Summary.ofDetailLines, RuleChange.tally, List.countP_map, Function.comp_def,
    ofLine?_text, Option.some.injEq]

/-- A structural comparison of two parsed sheets has one text in its body for each changed rule, and
its summary has the numbers of them by kind. Its report splits into the body again, and the lines of
the report sum up to the summary, exactly where each changed rule has a name on one line. -/
theorem structural_report_iff {oldText newText : String} (old new : Side)
    (ho : Stylesheet.parse oldText = .ok old.sheet) (hn : Stylesheet.parse newText = .ok new.sheet) :
    let changes := ruleChanges old.sheet new.sheet
    let outcome := Outcome.structural old new
    outcome.body = changes.map RuleChange.text ∧ outcome.summary = RuleChange.tally changes ∧
      ((lines outcome.text = outcome.body ∧
          Summary.ofDetailLines (lines outcome.text) = outcome.summary) ↔
        ∀ c ∈ changes, ∃ r, c.rule? old.sheet.rules new.sheet.rules = some r ∧
          c.label = r.label ∧ r.NamedInLine) := by
  intro changes outcome
  have hbody : outcome.body = changes.map RuleChange.text := rfl
  have hlines : lines outcome.text = outcome.body ↔ ∀ c ∈ changes, IsLine c.label := by
    have htext : outcome.text = message outcome.body := rfl
    rw [htext, lines_message_eq_iff, hbody, List.forall_mem_map]
    exact forall₂_congr fun c _ => isLine_text_iff c
  refine ⟨hbody, ofDetailLines_texts changes, ?_⟩
  constructor
  · rintro ⟨hsplit, -⟩ c hc
    obtain ⟨r, hr, hlabel⟩ := exists_rule_of_mem_ruleChanges hc
    have hnormal := normal_rule? (normal_parse ho) (normal_parse hn) hr
    exact ⟨r, hr, hlabel, (isLine_label_iff hnormal).1 (hlabel ▸ hlines.1 hsplit c hc)⟩
  · intro h
    have hsplit : lines outcome.text = outcome.body := by
      refine hlines.2 fun c hc => ?_
      obtain ⟨r, hr, hlabel, hname⟩ := h c hc
      have hnormal := normal_rule? (normal_parse ho) (normal_parse hn) hr
      exact hlabel ▸ (isLine_label_iff hnormal).2 hname
    exact ⟨hsplit, congrArg Summary.ofDetailLines hsplit⟩

/-- A rule with another value, and an at-rule at the end of the new sheet. -/
theorem structural_report_added :
    let changes := [⟨.modified, "a", 0⟩, ⟨.added, "@x", 1⟩]
    Stylesheet.parse "a\x7bb:c\x7d" = .ok ⟨[.style ["a"] [⟨"b", "c", 1⟩] [] 1], []⟩ ∧
      Stylesheet.parse "a\x7bb:d\x7d@x;" =
        .ok ⟨[.style ["a"] [⟨"b", "d", 1⟩] [] 1, .atRule "x" "" .none 1], []⟩ ∧
      ruleChanges ⟨[.style ["a"] [⟨"b", "c", 1⟩] [] 1], []⟩
        ⟨[.style ["a"] [⟨"b", "d", 1⟩] [] 1, .atRule "x" "" .none 1], []⟩ = changes ∧
      lines (Outcome.structural ⟨"old", ⟨[.style ["a"] [⟨"b", "c", 1⟩] [] 1], []⟩⟩
        ⟨"new", ⟨[.style ["a"] [⟨"b", "d", 1⟩] [] 1, .atRule "x" "" .none 1], []⟩⟩).text =
          changes.map RuleChange.text := by
  intro changes
  have ho : Stylesheet.parse "a\x7bb:c\x7d" =
      .ok ⟨[.style ["a"] [⟨"b", "c", 1⟩] [] 1], []⟩ := by cbv
  have hn : Stylesheet.parse "a\x7bb:d\x7d@x;" =
      .ok ⟨[.style ["a"] [⟨"b", "d", 1⟩] [] 1, .atRule "x" "" .none 1], []⟩ := by cbv
  have hc : ruleChanges ⟨[.style ["a"] [⟨"b", "c", 1⟩] [] 1], []⟩
      ⟨[.style ["a"] [⟨"b", "d", 1⟩] [] 1, .atRule "x" "" .none 1], []⟩ = changes := by cbv
  obtain ⟨hbody, -, hiff⟩ := structural_report_iff ⟨"old", _⟩ ⟨"new", _⟩ ho hn
  rw [hc] at hbody hiff
  refine ⟨ho, hn, hc, (hiff.2 fun c hmem => ?_).1.trans hbody⟩
  rcases List.mem_cons.1 hmem with rfl | hmem
  · exact ⟨_, rfl, rfl, trivial⟩
  · obtain rfl := List.mem_singleton.1 hmem
    exact ⟨_, rfl, rfl, by decide, fun _ => by decide⟩

/-- An at-rule that is the whole sheet. -/
private theorem ofNodes_statement {name : String} {source : List Char}
    (hn : name.toLower ≠ "charset") (hc : AtClass.ofName name = .optional) :
    Stylesheet.ofNodes [.leaf ⟨.atKeyword name, source, 1⟩, .leaf ⟨.semicolon, [';'], 1⟩] =
      .ok ⟨[.atRule name "" .none 1], []⟩ := by
  have hread : readRuleItem (.leaf ⟨.atKeyword name, source, 1⟩) [.leaf ⟨.semicolon, [';'], 1⟩] =
      (.atRule name,
        ⟨[.leaf ⟨.atKeyword name, source, 1⟩], some (.leaf ⟨.semicolon, [';'], 1⟩), []⟩) := by
    have hreading (stop : Option Node) : atReading name stop = .atRule name := by
      simp [atReading, hc]
    simp only [readRuleItem, hreading]
    rfl
  have hcharset : isCharset (.leaf ⟨.atKeyword name, source, 1⟩) = false :=
    isCharset_leaf_eq_false.2 fun _ hk => Kind.atKeyword.inj hk ▸ hn
  have hitems : ruleItems true []
      [.leaf ⟨.atKeyword name, source, 1⟩, .leaf ⟨.semicolon, [';'], 1⟩] =
      ⟨[⟨[], 1, [.leaf ⟨.atKeyword name, source, 1⟩], some (.leaf ⟨.semicolon, [';'], 1⟩),
        .atRule name⟩], []⟩ := by
    refine (ruleItems_cons rfl (by simp [hcharset])).trans ?_
    rw [hread, ruleItems_nil rfl]
    rfl
  have hlead : Text.collapse [] = "" := rfl
  simp only [Stylesheet.ofNodes, if_neg hn]
  rw [readRules_eq, hitems]
  simp [Item.listing, Item.rule, Item.groups, Item.hasBlock, Item.contents, Item.inner, Item.lead,
    Item.atBody, Listing.concat, readBlock_nil, Node.isBraces, Node.isBlock, Node.inner, Node.source,
    Node.allTokens, hlead, bind, Except.bind, commentsOf, Node.kind, Node.first]

/-- A line feed in the decoded name of an at-rule makes two lines of one change, and each of them
counts as an added rule. -/
theorem not_structural_report :
    ∃ new, Stylesheet.parse "@x\\a Added\\:;" = .ok new ∧ Stylesheet.parse "" = .ok ⟨[], []⟩ ∧
      let outcome := Outcome.structural ⟨"old", ⟨[], []⟩⟩ ⟨"new", new⟩
      lines outcome.text ≠ outcome.body ∧
        Summary.ofDetailLines (lines outcome.text) ≠ outcome.summary := by
  have hnodes : Node.ofText "@x\\a Added\\:;".toList =
      [.leaf ⟨.atKeyword "x\nAdded:", "@x\\a Added\\:".toList, 1⟩,
        .leaf ⟨.semicolon, [';'], 1⟩] := by cbv
  have hlower : "x\nAdded:".toLower = "x\nadded:" := by cbv
  have hclass : AtClass.ofName "x\nAdded:" = .optional := by
    have hsame : AtClass.ofName "x\nAdded:" = AtClass.ofName "x\nadded:" := by
      have h : "x\nadded:".toLower = "x\nadded:" := by cbv
      rw [AtClass.ofName, AtClass.ofName, hlower, h]
    rw [hsame]
    cbv
  have hn : Stylesheet.parse "@x\\a Added\\:;" =
      .ok ⟨[.atRule "x\nAdded:" "" .none 1], []⟩ := by
    rw [Stylesheet.parse, hnodes]
    exact ofNodes_statement (by rw [hlower]; decide) hclass
  refine ⟨_, hn, by cbv, ?_, ?_⟩ <;> decide

end SheetDiff
