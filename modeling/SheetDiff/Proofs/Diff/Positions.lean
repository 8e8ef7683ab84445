import SheetDiff.Proofs.Diff.Report
import SheetDiff.Proofs.Sheet.Spacing

/-!
# Rules compared by position

A comparison rule by rule looks at one position after the other: `changeAt` says what the rules at a
position have to do with it, and the changes of two sheets are what it finds on the way through both
lists (`ruleChanges_eq_filterMap`). Hence the changes stand in order, a change is found exactly where
the canonical texts of two rules differ or only one list has a rule, and the comparison of the sheets
in the opposite order finds the opposite changes at the same positions (`ruleChanges_positional`).
-/

namespace SheetDiff

/-! ## One position -/

/-- The change at a position, by the rules that stand there in the old and in the new list. -/
def changeAt (index : Nat) : Option Rule → Option Rule → Option RuleChange
  | some o, some n => if o.canonical = n.canonical then none else some ⟨.modified, o.label, index⟩
  | some o, none => some ⟨.removed, o.label, index⟩
  | none, some n => some ⟨.added, n.label, index⟩
  | none, none => none

/-- The kind of a change when the old and the new list change places. -/
def ChangeKind.opposite : ChangeKind → ChangeKind
  | added => removed
  | removed => added
  | modified => modified

variable {index : Nat} {o n : Option Rule} {c : RuleChange}

/-- A change is modified, removed or added by which of the two lists have a rule at its position. -/
theorem changeAt_eq_some_iff : changeAt index o n = some c ↔ c.index = index ∧
    ((∃ r s, o = some r ∧ n = some s ∧ r.canonical ≠ s.canonical ∧
        c.kind = .modified ∧ c.label = r.label) ∨
      (∃ r, o = some r ∧ n = none ∧ c.kind = .removed ∧ c.label = r.label) ∨
      (∃ s, o = none ∧ n = some s ∧ c.kind = .added ∧ c.label = s.label)) := by
  obtain ⟨kind, label, i⟩ := c
  cases o with
  | none =>
    cases n with
    | none => simp [changeAt]
    | some s => simp [changeAt, eq_comm, and_comm, and_left_comm]
  | some r =>
    cases n with
    | none => simp [changeAt, eq_comm, and_comm, and_left_comm]
    | some s =>
      by_cases hs : r.canonical = s.canonical
      · simp [changeAt, hs]
      · simp [changeAt, hs, eq_comm, and_comm, and_left_comm]

theorem changeAt_opposite (index : Nat) (o n : Option Rule) :
    (changeAt index n o).map (fun c => (c.kind, c.index)) =
      (changeAt index o n).map fun c => (c.kind.opposite, c.index) := by
  cases o with
  | none => cases n <;> rfl
  | some r =>
    cases n with
    | none => rfl
    | some s =>
      by_cases hs : r.canonical = s.canonical
      · simp [changeAt, hs]
      · simp [changeAt, hs, Ne.symm hs, ChangeKind.opposite]

/-! ## All positions -/

/-- A comparison looks at the first position of both lists and then at the others. -/
private theorem ruleChangesFrom_step (index : Nat) {old new : List Rule}
    (h : 0 < max old.length new.length) :
    ruleChangesFrom index old new = (changeAt index old[0]? new[0]?).toList ++
      ruleChangesFrom (index + 1) old.tail new.tail := by
  cases old with
  | nil =>
    cases new with
    | nil => simp at h
    | cons n new => simp [ruleChangesFrom, changeAt]
  | cons o old =>
    cases new with
    | nil => cases old <;> simp [ruleChangesFrom, changeAt]
    | cons n new =>
      rw [ruleChangesFrom]
      by_cases hc : o.canonical = n.canonical
      · simp [changeAt, hc]
      · simp [changeAt, hc]

/-- The changes between two lists of rules are those at each position of the longer one. -/
private theorem ruleChangesFrom_eq_filterMap (index : Nat) {old new : List Rule} {k : Nat}
    (hk : max old.length new.length = k) :
    ruleChangesFrom index old new =
      (List.range k).filterMap fun i => changeAt (index + i) old[i]? new[i]? := by
  induction k generalizing index old new with
  | zero =>
    obtain ⟨rfl, rfl⟩ : old = [] ∧ new = [] := by simpa using hk
    rfl
  | succ k ih =>
    have htail : max old.tail.length new.tail.length = k := by
      simp only [List.length_tail]
      omega
    have hshift : (fun i => changeAt (index + 1 + i) old.tail[i]? new.tail[i]?) =
        fun i => changeAt (index + (i + 1)) old[i + 1]? new[i + 1]? := by
      funext i
      rw [List.getElem?_tail, List.getElem?_tail, Nat.add_assoc, Nat.add_comm 1 i]
    rw [ruleChangesFrom_step index (by omega), ih (index + 1) htail, hshift, List.range_succ_eq_map,
      List.filterMap_cons, List.filterMap_map]
    cases changeAt index old[0]? new[0]? <;> rfl

variable {old new : Stylesheet}

theorem ruleChanges_eq_filterMap (old new : Stylesheet) :
    ruleChanges old new = (List.range (max old.rules.length new.rules.length)).filterMap fun i =>
      changeAt i old.rules[i]? new.rules[i]? := by
  rw [ruleChanges, ruleChangesFrom_eq_filterMap 0 rfl]
  simp only [Nat.zero_add]

/-- Exactly the changes at some position are found. -/
theorem mem_ruleChanges_iff :
    c ∈ ruleChanges old new ↔ changeAt c.index old.rules[c.index]? new.rules[c.index]? = some c := by
  rw [ruleChanges_eq_filterMap, List.mem_filterMap]
  constructor
  · rintro ⟨i, -, hc⟩
    obtain ⟨rfl, -⟩ := changeAt_eq_some_iff.1 hc
    exact hc
  · intro hc
    refine ⟨c.index, ?_, hc⟩
    rw [List.mem_range]
    by_contra hout
    have ho : old.rules[c.index]? = none := List.getElem?_eq_none (by omega)
    have hn : new.rules[c.index]? = none := List.getElem?_eq_none (by omega)
    rw [ho, hn] at hc
    exact nomatch hc

/-- Changes stand in the order of their positions. -/
theorem pairwise_ruleChanges (old new : Stylesheet) :
    (ruleChanges old new).Pairwise fun c d => c.index < d.index := by
  rw [ruleChanges_eq_filterMap, List.pairwise_filterMap]
  refine List.pairwise_lt_range.imp fun hij c hc d hd => ?_
  obtain ⟨rfl, -⟩ := changeAt_eq_some_iff.1 hc
  obtain ⟨rfl, -⟩ := changeAt_eq_some_iff.1 hd
  exact hij

/-- The comparison in the opposite order finds the opposite changes at the same positions. -/
theorem ruleChanges_opposite (old new : Stylesheet) :
    (ruleChanges new old).map (fun c => (c.kind, c.index)) =
      (ruleChanges old new).map fun c => (c.kind.opposite, c.index) := by
  rw [ruleChanges_eq_filterMap, ruleChanges_eq_filterMap, List.map_filterMap, List.map_filterMap,
    Nat.max_comm]
  exact List.filterMap_congr fun i _ => changeAt_opposite i _ _

private theorem countP_added (index : Nat) (old new : List Rule) :
    (ruleChangesFrom index old new).countP (·.kind = .added) = new.length - old.length := by
  fun_induction ruleChangesFrom index old new with
  | case1 index new => simp [List.countP_map, Function.comp_def]
  | case2 index old h => simp [List.countP_map, Function.comp_def]
  | case3 index o old n new ih =>
    rw [List.countP_append, ih]
    split <;> simp

/-- As many rules are added as the new list is longer, and as many removed as the old one is. -/
theorem tally_ruleChanges (old new : Stylesheet) :
    (RuleChange.tally (ruleChanges old new)).added = new.rules.length - old.rules.length ∧
      (RuleChange.tally (ruleChanges old new)).removed = old.rules.length - new.rules.length := by
  refine ⟨countP_added 0 old.rules new.rules, ?_⟩
  have hadded := countP_added 0 new.rules old.rules
  have hopposite := congrArg (List.countP fun p => p.1 = ChangeKind.added)
    (ruleChanges_opposite old new)
  rw [List.countP_map, List.countP_map] at hopposite
  rw [← hadded]
  refine Eq.trans ?_ hopposite.symm
  refine List.countP_congr fun c _ => ?_
  cases hk : c.kind <;> simp [hk, ChangeKind.opposite]

/-- The changes of two sheets stand in order. A modified rule is one whose canonical text differs from
that of the rule at the same position, and a rule is removed or added where only one of the sheets
reaches its position. So the numbers of removed and added rules are the differences in length, the
opposite comparison finds the opposite changes at the same positions, and sheets that are the same but
for lines and warnings have no changes. -/
theorem ruleChanges_positional (old new : Stylesheet) :
    (ruleChanges old new).Pairwise (fun c d => c.index < d.index) ∧
      (∀ c, c ∈ ruleChanges old new ↔
        (∃ r s, old.rules[c.index]? = some r ∧ new.rules[c.index]? = some s ∧
          r.canonical ≠ s.canonical ∧ c.kind = .modified ∧ c.label = r.label) ∨
        (∃ r, old.rules[c.index]? = some r ∧ new.rules.length ≤ c.index ∧
          c.kind = .removed ∧ c.label = r.label) ∨
        (∃ s, old.rules.length ≤ c.index ∧ new.rules[c.index]? = some s ∧
          c.kind = .added ∧ c.label = s.label)) ∧
      (RuleChange.tally (ruleChanges old new)).added = new.rules.length - old.rules.length ∧
      (RuleChange.tally (ruleChanges old new)).removed = old.rules.length - new.rules.length ∧
      (ruleChanges new old).map (fun c => (c.kind, c.index)) =
        (ruleChanges old new).map (fun c => (c.kind.opposite, c.index)) ∧
      (Rule.allUnlined old.rules = Rule.allUnlined new.rules → ruleChanges old new = []) := by
  obtain ⟨hadded, hremoved⟩ := tally_ruleChanges old new
  refine ⟨pairwise_ruleChanges old new, ?members, hadded, hremoved, ruleChanges_opposite old new,
    ?unlined⟩
  case members =>
    intro c
    simpa only [List.getElem?_eq_none_iff, true_and] using
      mem_ruleChanges_iff.trans changeAt_eq_some_iff
  case unlined =>
    intro h
    exact (ruleChangesFrom_eq_nil_iff 0 old.rules new.rules).2 (sameRules_of_unlined h)

end SheetDiff
