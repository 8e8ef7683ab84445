import SheetDiff.Command.Run
import SheetDiff.Proofs.Json.Record
import SheetDiff.Proofs.Json.Text
import SheetDiff.Proofs.Sheet.Json

/-!
# Results are read again from JSON

Every value that is written as JSON is read again (`ofJson?_toJson`), as long as its numbers fit the
types they are written for: 64 bits for the position of a rule and the number of all lines, 32 bits for
every other one. The text that the command prints for a comparison is the text of such a value, so the
comparison is read again from that text as well (`Comparison.ofJson?_printed`).
-/

namespace SheetDiff

open Json

/-! ## Numbers that fit -/

/-- The counts of a summary are numbers of 32 bits. -/
structure Summary.InRange (s : Summary) : Prop where
  added : s.added < 2 ^ 32
  removed : s.removed < 2 ^ 32
  modified : ∀ n ∈ s.modified, n < 2 ^ 32

def RuleChange.InRange (c : RuleChange) : Prop := c.index < 2 ^ 64

structure HunkRange.InRange (r : HunkRange) : Prop where
  oldStart : r.oldStart < 2 ^ 32
  oldLines : r.oldLines < 2 ^ 32
  newStart : r.newStart < 2 ^ 32
  newLines : r.newLines < 2 ^ 32

def UnifiedDiff.InRange (d : UnifiedDiff) : Prop := ∀ h ∈ d.hunks, h.header.InRange

def FileWarning.InRange (w : FileWarning) : Prop := w.line < 2 ^ 32

/-- The number of lines has 64 bits, the counts and the lines of warnings have 32 bits. -/
structure Comparison.InRange (c : Comparison) : Prop where
  summary : c.summary.InRange
  totalLines : c.totalLines < 2 ^ 64
  warnings : ∀ w ∈ c.warnings, w.InRange

/-! ## Constants -/

theorem Strategy.ofJson?_toJson (s : Strategy) : Strategy.ofJson? s.toJson = some s := by
  cases s <;> rfl

theorem LineKind.ofJson?_toJson (k : LineKind) : LineKind.ofJson? k.toJson = some k := by
  cases k <;> rfl

theorem ChangeKind.ofJson?_toJson (k : ChangeKind) : ChangeKind.ofJson? k.toJson = some k := by
  cases k <;> rfl

/-! ## Records -/

/-- A count that is absent is told apart from one that is present. -/
theorem Summary.ofJson?_toJson (s : Summary) (h : s.InRange) : Summary.ofJson? s.toJson = some s := by
  have hmodified : optional nat32? ((s.toJson).field? ["added", "removed", "modified"] "modified") =
      some s.modified := by
    obtain ⟨added, removed, modified⟩ := s
    cases modified with
    | none => rfl
    | some n =>
      change (nat32? (int n)).map some = _
      rw [nat32?_int (h.modified n rfl)]
      rfl
  simp only [Summary.ofJson?, Option.bind_eq_bind, Option.bind_eq_some_iff]
  exact ⟨(), rfl, s.added, ⟨_, rfl, nat32?_int h.added⟩, s.removed, ⟨_, rfl, nat32?_int h.removed⟩,
    s.modified, hmodified, rfl⟩

theorem RuleChange.ofJson?_toJson (c : RuleChange) (h : c.InRange) :
    RuleChange.ofJson? c.toJson = some c := by
  simp only [RuleChange.ofJson?, Option.bind_eq_bind, Option.bind_eq_some_iff]
  exact ⟨(), rfl, c.kind, ⟨_, rfl, c.kind.ofJson?_toJson⟩, c.label, ⟨_, rfl, rfl⟩, c.index,
    ⟨_, rfl, nat64?_int h⟩, rfl⟩

theorem HunkRange.ofJson?_toJson (r : HunkRange) (h : r.InRange) :
    HunkRange.ofJson? r.toJson = some r := by
  simp only [HunkRange.ofJson?, Option.bind_eq_bind, Option.bind_eq_some_iff]
  exact ⟨(), rfl, r.oldStart, ⟨_, rfl, nat32?_int h.oldStart⟩, r.oldLines,
    ⟨_, rfl, nat32?_int h.oldLines⟩, r.newStart, ⟨_, rfl, nat32?_int h.newStart⟩, r.newLines,
    ⟨_, rfl, nat32?_int h.newLines⟩, rfl⟩

theorem HunkLine.ofJson?_toJson (l : HunkLine) : HunkLine.ofJson? l.toJson = some l := by
  simp only [HunkLine.ofJson?, Option.bind_eq_bind, Option.bind_eq_some_iff]
  exact ⟨(), rfl, l.kind, ⟨_, rfl, l.kind.ofJson?_toJson⟩, l.content, ⟨_, rfl, rfl⟩, rfl⟩

theorem Hunk.ofJson?_toJson (k : Hunk) (h : k.header.InRange) : Hunk.ofJson? k.toJson = some k := by
  simp only [Hunk.ofJson?, Option.bind_eq_bind, Option.bind_eq_some_iff]
  exact ⟨(), rfl, k.header, ⟨_, rfl, k.header.ofJson?_toJson h⟩, k.lines,
    listOr_map fun l _ => l.ofJson?_toJson, rfl⟩

theorem UnifiedDiff.ofJson?_toJson (d : UnifiedDiff) (h : d.InRange) :
    UnifiedDiff.ofJson? d.toJson = some d := by
  simp only [UnifiedDiff.ofJson?, Option.bind_eq_bind, Option.bind_eq_some_iff]
  exact ⟨(), rfl, d.oldLabel, ⟨_, rfl, rfl⟩, d.newLabel, ⟨_, rfl, rfl⟩, d.hunks,
    listOr_map fun k hk => k.ofJson?_toJson (h k hk), rfl⟩

theorem FileWarning.ofJson?_toJson (w : FileWarning) (h : w.InRange) :
    FileWarning.ofJson? w.toJson = some w := by
  simp only [FileWarning.ofJson?, Option.bind_eq_bind, Option.bind_eq_some_iff]
  exact ⟨(), rfl, w.path, ⟨_, rfl, rfl⟩, w.line, ⟨_, rfl, nat32?_int h⟩, w.message, ⟨_, rfl, rfl⟩, rfl⟩

/-- A comparison without a report is told apart from one with a report. -/
theorem Comparison.ofJson?_toJson (c : Comparison) (h : c.InRange) :
    Comparison.ofJson? c.toJson = some c := by
  have hpath : optional str? (c.toJson.field? ["strategy", "summary", "diff", "lines", "total_lines",
      "warnings", "report_path"] "report_path") = some c.reportPath := by
    obtain ⟨_, _, _, _, _, _, reportPath⟩ := c
    cases reportPath <;> rfl
  simp only [Comparison.ofJson?, Option.bind_eq_bind, Option.bind_eq_some_iff]
  exact ⟨(), rfl, c.strategy, ⟨_, rfl, c.strategy.ofJson?_toJson⟩, c.summary,
    ⟨_, rfl, c.summary.ofJson?_toJson h.summary⟩, c.diff, ⟨_, rfl, rfl⟩, c.lines,
    listOr_map fun s _ => str?_str s, c.totalLines, ⟨_, rfl, nat64?_int h.totalLines⟩, c.warnings,
    listOr_map fun w hw => w.ofJson?_toJson (h.warnings w hw), c.reportPath, hpath, rfl⟩

/-! ## Printed comparisons -/

theorem fits64_of_lt {n : Nat} (h : n < 2 ^ 64) : Fits64 n := by
  constructor <;> omega

theorem allExact_map {α : Type} {write : α → Json} {xs : List α} (h : ∀ x ∈ xs, (write x).Exact) :
    AllExact (xs.map write) := by
  induction xs with
  | nil => trivial
  | cons x xs ih => exact ⟨h x (by simp), ih fun y hy => h y (by simp [hy])⟩

theorem Summary.exact_toJson (s : Summary) (h : s.InRange) : s.toJson.Exact := by
  have hfits {n : Nat} (hn : n < 2 ^ 32) : Fits64 n := fits64_of_lt (by omega)
  refine ⟨hfits h.added, hfits h.removed, ?_, trivial⟩
  cases hm : s.modified with
  | none => trivial
  | some n => exact hfits (h.modified n hm)

theorem FileWarning.exact_toJson (w : FileWarning) (h : w.InRange) : w.toJson.Exact :=
  ⟨trivial, fits64_of_lt (Nat.lt_trans h (by omega)), trivial, trivial⟩

/-- All numbers of a comparison are integers of 64 bits. -/
theorem Comparison.exact_toJson (c : Comparison) (h : c.InRange) : c.toJson.Exact := by
  refine ⟨trivial, c.summary.exact_toJson h.summary, trivial, allExact_map fun _ _ => trivial,
    fits64_of_lt h.totalLines, allExact_map fun w hw => w.exact_toJson (h.warnings w hw), ?_, trivial⟩
  cases c.reportPath <;> trivial

/-- A comparison is read again from the text that is printed for it. -/
theorem Comparison.ofJson?_printed (c : Comparison) (h : c.InRange) (colored : Bool) :
    (parse? (Command.conclude true colored (.ok c)).out).bind Comparison.ofJson? = some c := by
  have hparsed : parse? (c.toJson.pretty ++ "\n") = some c.toJson :=
    parse?_pretty (c.exact_toJson h) (by simp [isBlank])
  have hout : (Command.conclude true colored (.ok c)).out = c.toJson.pretty ++ "\n" := rfl
  rw [hout, hparsed, Option.bind_some, c.ofJson?_toJson h]

/-- Stylesheets and their parts, diffs and comparisons are read again from the values they are written
as, and a comparison also from the text that is printed for it. -/
theorem json_recovers :
    (∀ s : Stylesheet, s.InRange → Stylesheet.ofJson? s.toJson = some s) ∧
    (∀ r : Rule, r.InRange → Rule.ofJson? r.toJson = some r) ∧
    (∀ b : AtBody, b.InRange → AtBody.ofJson? b.toJson = some b) ∧
    (∀ d : UnifiedDiff, d.InRange → UnifiedDiff.ofJson? d.toJson = some d) ∧
    (∀ c : RuleChange, c.InRange → RuleChange.ofJson? c.toJson = some c) ∧
    (∀ s : Summary, s.InRange → Summary.ofJson? s.toJson = some s) ∧
    (∀ w : FileWarning, w.InRange → FileWarning.ofJson? w.toJson = some w) ∧
    (∀ c : Comparison, c.InRange → Comparison.ofJson? c.toJson = some c) ∧
    ∀ c : Comparison, c.InRange → ∀ colored,
      (parse? (Command.conclude true colored (.ok c)).out).bind Comparison.ofJson? = some c :=
  ⟨Stylesheet.ofJson?_toJson, Rule.ofJson?_toJson, AtBody.ofJson?_toJson, UnifiedDiff.ofJson?_toJson,
    RuleChange.ofJson?_toJson, Summary.ofJson?_toJson, FileWarning.ofJson?_toJson,
    Comparison.ofJson?_toJson, Comparison.ofJson?_printed⟩

/-- An at-rule with an empty block around a style rule without rules, and a comparison whose text holds
a quote, a backslash and a control character. -/
theorem json_recovers_nested :
    let sheet : Stylesheet := ⟨[.atRule "media" "x" (.block [] [.style ["a"] [⟨"b", "c", 2⟩] [] 2]) 1,
      .atRule "import" "y" .none 4], [⟨"skipped", 3⟩]⟩
    let result : Comparison := ⟨.structural, ⟨1, 0, none⟩, "\"\\\x01é", ["Added: a"], 2 ^ 64 - 1,
      [⟨"a.css", 2 ^ 32 - 1, ""⟩], some "out"⟩
    Stylesheet.ofJson? sheet.toJson = some sheet ∧
      (parse? (Command.conclude true false (.ok result)).out).bind Comparison.ofJson? = some result := by
  intro sheet result
  obtain ⟨hsheet, -, -, -, -, -, -, -, hresult⟩ := json_recovers
  refine ⟨hsheet sheet ⟨?rules, ?lines⟩, hresult result ⟨⟨?added, ?removed, ?modified⟩, ?total, ?paths⟩ false⟩
  case rules =>
    simp [sheet, Rule.AllInRange, Rule.InRange, AtBody.InRange, Declaration.InRange]
  case lines => simp [sheet, Warning.InRange]
  case added => simp [result]
  case removed => simp [result]
  case modified => simp [result]
  case total => simp [result]
  case paths => simp [result, FileWarning.InRange]

end SheetDiff
