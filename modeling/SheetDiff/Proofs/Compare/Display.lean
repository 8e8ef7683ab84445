import SheetDiff.Proofs.Compare.Failures
import SheetDiff.Proofs.Diff.Verdict
import SheetDiff.Proofs.Files.Written

/-!
# What options change

The options of a comparison, its strategy apart, choose how much of the result is shown and whether
and where a report is written. What was compared, and what was found, is the same under all of them
(`compareFiles_agree`). What one result holds is said by `Presents`: the lines shown are the first ones
of the body, the counts are those of the whole body, and a report holds the whole text however few
lines are shown (`presents_of_ok`).
-/

namespace SheetDiff

variable {options : Options} {a b : String} {millis : Int} {files after : FileTree}
variable {old new : Stylesheet} {result : Comparison}

/-! ## Results of stylesheets -/

/-- What is found by the strategy of some options. -/
def Options.outcome (options : Options) (old new : Side) : Outcome :=
  Outcome.compare options.strategy old new defaultContext

/-- Nothing is found if and only if the body is empty. -/
theorem Options.isUnchanged_outcome_iff (options : Options) (old new : Side) :
    (options.outcome old new).summary.isUnchanged = true ↔ (options.outcome old new).body = [] := by
  rw [Options.outcome]
  cases options.strategy with
  | textual => exact isUnchanged_textual_iff old new defaultContext
  | structural => exact isUnchanged_structural_iff old new

/-- What a result shows of two stylesheets under some options, and what it leaves in the files. -/
structure Presents (options : Options) (old new : Side) (result : Comparison) (after : FileTree) :
    Prop where
  strategy : result.strategy = options.strategy
  summary : result.summary = (options.outcome old new).summary
  /-- The whole text, however few lines are shown. -/
  diff : result.diff = (options.outcome old new).text
  total : result.totalLines = (options.outcome old new).body.length
  textual : options.strategy = .textual →
    result.lines = (options.outcome old new).body.take (min options.maxLines result.totalLines)
  structural : options.strategy = .structural →
    result.lines = (options.outcome old new).body.take (min options.maxDetails result.totalLines)
  hidden : result.lines.length + result.hiddenLines = result.totalLines
  unchanged : result.totalLines = 0 ↔ result.summary.isUnchanged = true
  warnings : result.warnings = old.sheet.warnings.map (fun w => ⟨old.label, w.line, w.message⟩) ++
    new.sheet.warnings.map fun w => ⟨new.label, w.line, w.message⟩
  reported : result.reportPath.isSome = true ↔ options.fullReport = true
  report : ∀ path, result.reportPath = some path → after.Holds path result.diff

/-- The result of two stylesheets is presented once the path of the report is what was asked for. -/
theorem presents_ofSheets (options : Options) (old new : Side) {reportPath : Option String}
    (hpath : reportPath.isSome = true ↔ options.fullReport = true)
    (hreport : ∀ path, reportPath = some path → after.Holds path (options.outcome old new).text) :
    Presents options old new { Comparison.ofSheets options old new with reportPath } after where
  strategy := rfl
  summary := rfl
  diff := rfl
  total := rfl
  textual := by
    intro h
    have hlimit : options.displayLimit = options.maxLines := by rw [Options.displayLimit, h]
    rw [← hlimit]
    exact List.take_eq_take_min
  structural := by
    intro h
    have hlimit : options.displayLimit = options.maxDetails := by rw [Options.displayLimit, h]
    rw [← hlimit]
    exact List.take_eq_take_min
  hidden := by
    simp only [Comparison.hiddenLines, Comparison.ofSheets, List.length_take]
    omega
  unchanged := by
    exact List.length_eq_zero_iff.trans (options.isUnchanged_outcome_iff old new).symm
  warnings := rfl
  reported := hpath
  report := hreport

/-! ## Results of files -/

/-- A comparison that succeeds presents the stylesheets in its files. -/
theorem presents_of_ok (ha : Loads files a old) (hb : Loads files b new)
    (h : compareFiles options a b millis files = (.ok result, after)) :
    Presents options ⟨a, old⟩ ⟨b, new⟩ result after := by
  simp only [compareFiles, ha.comparison hb] at h
  split at h
  · rename_i hfull
    split at h
    · rename_i path files' hw
      obtain ⟨hresult, rfl⟩ := Prod.mk.inj h
      obtain rfl := Except.ok.inj hresult
      have hheld := (Report.holds_write hw).2
      refine presents_ofSheets options _ _ (by simp [hfull]) ?_
      intro p hp
      obtain rfl := Option.some.inj hp
      exact hheld
    · simp at h
  · rename_i hfull
    obtain ⟨hresult, rfl⟩ := Prod.mk.inj h
    obtain rfl := Except.ok.inj hresult
    exact presents_ofSheets options _ _ (by simp [hfull]) (by simp)

/-- Two comparisons of files with the same stylesheets, by the same strategy, differ in what they show
and report only: what is found, its text, its size and the warnings are the same, and each result shows
as much of the body as its own options allow. -/
theorem compareFiles_agree {options₁ options₂ : Options} {a b : String} {millis₁ millis₂ : Int}
    {files₁ files₂ after₁ after₂ : FileTree} {old new : Stylesheet} {result₁ result₂ : Comparison}
    (ha₁ : Loads files₁ a old) (hb₁ : Loads files₁ b new)
    (ha₂ : Loads files₂ a old) (hb₂ : Loads files₂ b new)
    (hs : options₁.strategy = options₂.strategy)
    (h₁ : compareFiles options₁ a b millis₁ files₁ = (.ok result₁, after₁))
    (h₂ : compareFiles options₂ a b millis₂ files₂ = (.ok result₂, after₂)) :
    (result₁.strategy = result₂.strategy ∧ result₁.summary = result₂.summary ∧
      result₁.diff = result₂.diff ∧ result₁.totalLines = result₂.totalLines ∧
      result₁.warnings = result₂.warnings) ∧
    Presents options₁ ⟨a, old⟩ ⟨b, new⟩ result₁ after₁ ∧
    Presents options₂ ⟨a, old⟩ ⟨b, new⟩ result₂ after₂ := by
  have hp₁ := presents_of_ok ha₁ hb₁ h₁
  have hp₂ := presents_of_ok ha₂ hb₂ h₂
  have hout : options₁.outcome ⟨a, old⟩ ⟨b, new⟩ = options₂.outcome ⟨a, old⟩ ⟨b, new⟩ := by
    rw [Options.outcome, Options.outcome, hs]
  refine ⟨⟨?strategy, ?summary, ?diff, ?total, ?warnings⟩, hp₁, hp₂⟩
  case strategy => rw [hp₁.strategy, hp₂.strategy, hs]
  case summary => rw [hp₁.summary, hp₂.summary, hout]
  case diff => rw [hp₁.diff, hp₂.diff, hout]
  case total => rw [hp₁.total, hp₂.total, hout]
  case warnings => rw [hp₁.warnings, hp₂.warnings]

/-! ## A report somewhere else -/

/-- Two files that differ in a value and in a rule; a part of the first one is skipped. -/
private def sample : FileTree :=
  { FileTree.empty with
    entries := [(["home"], .directory), (["home", "a.css"], .file "a\x7bb:c;e\x7d\nd\x7b\x7d".toUTF8),
      (["b.css"], .file "a\x7bb:d\x7d".toUTF8)]
    workingDirectory := ["home"] }

private def sampleOld : Side where
  label := "/home/a.css"
  sheet := ⟨[.style ["a"] [⟨"b", "c", 1⟩] [] 1, .style ["d"] [] [] 2],
    [⟨"skipped \x60e\x60: missing ':' or value", 1⟩]⟩

private def sampleNew : Side where
  label := "../b.css"
  sheet := ⟨[.style ["a"] [⟨"b", "d", 1⟩] [] 1], []⟩

private theorem loads_sampleOld : Loads sample "/home/a.css" sampleOld.sheet :=
  .of_text "a\x7bb:c;e\x7d\nd\x7b\x7d" rfl (by cbv)

private theorem loads_sampleNew : Loads sample "../b.css" sampleNew.sheet :=
  .of_text "a\x7bb:d\x7d" rfl (by cbv)

private theorem compareFiles_sample :
    compareFiles ⟨.structural, 9, 0, false, ""⟩ "/home/a.css" "../b.css" 4 sample =
      (.ok (.ofSheets ⟨.structural, 9, 0, false, ""⟩ sampleOld sampleNew), sample) := by
  simp only [compareFiles, loads_sampleOld.comparison loads_sampleNew]
  rfl

private theorem compareFiles_sample_reported : ∃ result after,
    compareFiles ⟨.structural, 9, 1, true, "/srv/out"⟩ "/home/a.css" "../b.css" 5 sample =
      (.ok result, after) ∧
    result.reportPath = some "/srv/out/css_comparison_report_5.txt" := by
  simp only [compareFiles, loads_sampleOld.comparison loads_sampleNew, if_true]
  have hwrite : (Report.write "/srv/out" (.ofSheets ⟨.structural, 9, 1, true, "/srv/out"⟩
      ⟨"/home/a.css", sampleOld.sheet⟩ ⟨"../b.css", sampleNew.sheet⟩) 5 sample).1 =
      .ok "/srv/out/css_comparison_report_5.txt" := by
    decide +kernel
  split
  · rename_i hw
    rw [hw] at hwrite
    exact ⟨_, _, rfl, congrArg some (Except.ok.inj hwrite)⟩
  · rename_i hw
    simp [hw] at hwrite

/-- Nothing is shown at first, and then one of two changes, which both stand in the report. -/
theorem compareFiles_agree_structural : ∃ result₁ result₂ after,
    compareFiles ⟨.structural, 9, 0, false, ""⟩ "/home/a.css" "../b.css" 4 sample =
      (.ok result₁, sample) ∧
    compareFiles ⟨.structural, 9, 1, true, "/srv/out"⟩ "/home/a.css" "../b.css" 5 sample =
      (.ok result₂, after) ∧
    result₁.diff = result₂.diff ∧ result₁.lines = [] ∧ result₂.lines = ["Modified: a"] ∧
    result₂.warnings.length = 1 ∧ result₂.hiddenLines = 1 ∧
    result₂.reportPath = some "/srv/out/css_comparison_report_5.txt" ∧
    after.Holds "/srv/out/css_comparison_report_5.txt" "Modified: a\nRemoved: d\n" := by
  obtain ⟨result₂, after, h₂, hpath⟩ := compareFiles_sample_reported
  obtain ⟨⟨-, -, hdiff, -, -⟩, hp₁, hp₂⟩ := compareFiles_agree loads_sampleOld loads_sampleNew
    loads_sampleOld loads_sampleNew (by rfl) compareFiles_sample h₂
  change Presents _ sampleOld sampleNew result₂ after at hp₂
  have hfound : Options.outcome ⟨.structural, 9, 1, true, "/srv/out"⟩ sampleOld sampleNew =
      ⟨⟨0, 1, some 1⟩, "Modified: a\nRemoved: d\n", ["Modified: a", "Removed: d"]⟩ := by
    cbv
  have htotal : result₂.totalLines = 2 := by rw [hp₂.total, hfound]; rfl
  have hlines : result₂.lines = ["Modified: a"] := by rw [hp₂.structural rfl, hfound, htotal]; rfl
  have hreport := hp₂.report _ hpath
  rw [hp₂.diff, hfound] at hreport
  refine ⟨_, _, _, compareFiles_sample, h₂, hdiff, hp₁.structural rfl, hlines, ?_, ?_, hpath, hreport⟩
  · rw [hp₂.warnings]
    rfl
  · have hhidden := hp₂.hidden
    rw [hlines, htotal, List.length_singleton] at hhidden
    omega

end SheetDiff
