import SheetDiff.Compare.Render
import SheetDiff.Proofs.Compare.Display
import SheetDiff.Proofs.Text.Sequences

/-!
# Colors of the output

Colors are added to a text as escape sequences, and never change what it says. A piece of text reads
the same in every style (`uncolored_apply`), and since no sequence goes on across the end of a line, so
does every output (`uncolored_render`). In a comparison of two files each line of the body is colored by
what it is, a `BodyLine`: its style is found again by how its text starts, whatever follows
(`ofLine_text`).
-/

namespace SheetDiff

open Text

variable {options : Options} {a b : String} {millis : Int} {files after : FileTree}
variable {old new : Stylesheet} {result : Comparison}

/-! ## Styles -/

@[simp]
theorem Style.apply_false (s : Style) (text : String) : s.apply false text = text := by
  simp [Style.apply]

private theorem isSequence_color (color : Color) :
    IsSequence ("\x1b[3" ++ color.digit ++ "m").toList := by
  refine ⟨'3' :: color.digit.toList, by simp, ?_, by simp⟩
  cases color <;> simp [Color.digit]

private theorem isSequence_bold : IsSequence "\x1b[1m".toList :=
  ⟨['1'], by simp, by simp, by simp⟩

private theorem isSequence_reset : IsSequence "\x1b[0m".toList :=
  ⟨['0'], by simp, by simp, by simp⟩

private theorem dropSequences_start (s : Style) (cs : List Char) :
    dropSequences (s.start.toList ++ cs) = dropSequences cs := by
  have hbold : dropSequences ((if s.bold then "\x1b[1m" else "").toList ++ cs) =
      dropSequences cs := by
    split
    · exact dropSequences_sequence isSequence_bold cs
    · rfl
  rw [Style.start, String.toList_append, List.append_assoc]
  cases s.color with
  | none => exact hbold
  | some color => rw [dropSequences_sequence (isSequence_color color), hbold]

/-- A piece of text reads the same in every style. -/
theorem uncolored_apply (s : Style) (colored : Bool) (text : String) :
    uncolored (s.apply colored text) = uncolored text := by
  rw [Style.apply]
  split
  · have hreset : dropSequences "\x1b[0m".toList = [] := by
      have h := dropSequences_sequence isSequence_reset []
      rwa [List.append_nil, dropSequences] at h
    have hdetached : Detached "\x1b[0m".toList := by
      intro c hc
      obtain rfl : '\x1b' = c := by simpa using hc
      decide
    rw [uncolored, uncolored, String.toList_append, String.toList_append, List.append_assoc,
      dropSequences_start, dropSequences_append hdetached, hreset, List.append_nil]
  · rfl

/-! ## Lines -/

theorem unlines_cons (line : String) (lines : List String) :
    unlines (line :: lines) = line ++ "\n" ++ unlines lines :=
  message_cons line lines

theorem uncolored_unlines (lines : List String) :
    uncolored (unlines lines) = unlines (lines.map uncolored) := by
  induction lines with
  | nil => simp [unlines, uncolored, dropSequences]
  | cons line lines ih =>
    have hdetached : Detached ('\n' :: (unlines lines).toList) := by
      intro c hc
      obtain rfl : '\n' = c := by simpa using hc
      decide
    have hline : (unlines (line :: lines)).toList = line.toList ++ '\n' :: (unlines lines).toList := by
      simp [unlines_cons]
    rw [List.map_cons, unlines_cons (uncolored line), ← ih, ← String.toList_inj]
    simp only [uncolored, hline, dropSequences_append hdetached, String.toList_ofList,
      dropSequences_of_none (afterSequence?_cons_of_ne (by decide : '\n' ≠ '\x1b') _),
      String.toList_append]
    simp

theorem unescaped_unlines {lines : List String} (h : ∀ line ∈ lines, Unescaped line) :
    Unescaped (unlines lines) := by
  induction lines with
  | nil => simp [unlines, Unescaped]
  | cons line lines ih =>
    obtain ⟨hline, hlines⟩ := List.forall_mem_cons.1 h
    simpa [unlines_cons, Unescaped] using ⟨hline, ih hlines⟩

/-! ## Outputs -/

namespace Comparison

variable (c : Comparison) (colored : Bool)

private theorem uncolored_warningLines :
    (c.warningLines colored).map uncolored = (c.warningLines false).map uncolored := by
  simp only [warningLines, List.map_map, Function.comp_def, uncolored_apply]

private theorem uncolored_summaryLines :
    (c.summaryLines colored).map uncolored = (c.summaryLines false).map uncolored := by
  simp only [summaryLines, List.map_cons, uncolored_apply]

private theorem uncolored_windowLines :
    (c.windowLines colored).map uncolored = (c.windowLines false).map uncolored := by
  simp only [windowLines, List.map_append, List.map_cons, List.map_map, Function.comp_def,
    uncolored_apply]

/-- What a comparison says does not depend on the colors. -/
theorem uncolored_render : uncolored (c.render colored) = uncolored (c.render false) := by
  simp only [render, uncolored_unlines, outputLines, List.map_append, uncolored_warningLines c colored,
    uncolored_summaryLines c colored]
  split
  · rfl
  · rw [uncolored_windowLines c colored]

/-- The strings that are shown of a comparison. -/
def strings : List String :=
  c.lines ++ c.warnings.flatMap (fun w => [w.path, w.message]) ++ c.reportPath.toList

private theorem unescaped_summaryLines : ∀ line ∈ c.summaryLines false, Unescaped line := by
  unfold summaryLines
  cases c.strategy with
  | textual => simp [Unescaped]
  | structural => simp [Unescaped]

variable {c}

private theorem unescaped_warningLines (h : ∀ s ∈ c.strings, Unescaped s) :
    ∀ line ∈ c.warningLines false, Unescaped line := by
  intro line hline
  obtain ⟨w, hw, rfl⟩ := List.mem_map.1 hline
  have hstring {s : String} (hs : s ∈ [w.path, w.message]) : '\x1b' ∉ s.toList :=
    h s (List.mem_append_left _ (List.mem_append_right _ (List.mem_flatMap.2 ⟨w, hw, hs⟩)))
  have hpath := hstring (s := w.path) (by simp)
  have hmessage := hstring (s := w.message) (by simp)
  simp [FileWarning.text, Unescaped, hpath, hmessage]

private theorem unescaped_windowLines (h : ∀ s ∈ c.strings, Unescaped s) :
    ∀ line ∈ c.windowLines false, Unescaped line := by
  have hbody : ∀ line ∈ c.lines.map fun line => (Style.ofLine line).apply false line,
      Unescaped line := by
    simp only [Style.apply_false, List.map_id']
    exact fun line hline => h line (by simp [strings, hline])
  have hnote : ∀ line ∈ c.hiddenNote, Unescaped line := by
    intro line hline
    obtain rfl := List.mem_singleton.1 (List.mem_ite_nil_right.1 hline).2
    cases c.strategy <;> simp [Unescaped]
  have hheading : Unescaped c.heading := by
    unfold heading
    cases c.strategy <;> simp [Unescaped]
  refine List.forall_mem_append.2 ⟨List.forall_mem_append.2 ⟨?_, hbody⟩, hnote⟩
  simp only [Style.apply_false, List.forall_mem_cons]
  exact ⟨by simp [Unescaped], hheading, by simp⟩

/-- Without colors nothing is written that is not in a string. -/
private theorem unescaped_outputLines (h : ∀ s ∈ c.strings, Unescaped s) :
    ∀ line ∈ c.outputLines false, Unescaped line := by
  have hbody : ∀ line ∈ if c.totalLines = 0 then ["", "No differences found."]
      else c.windowLines false, Unescaped line := by
    split
    · simp [Unescaped]
    · exact unescaped_windowLines h
  have hfront := List.forall_mem_append.2 ⟨List.forall_mem_append.2
    ⟨unescaped_warningLines h, unescaped_summaryLines c⟩, hbody⟩
  refine List.forall_mem_append.2 ⟨hfront, ?_⟩
  unfold reportNote
  cases hpath : c.reportPath with
  | none => simp
  | some path =>
    have hp : '\x1b' ∉ path.toList := h path (by simp [strings, hpath])
    simp [Unescaped, hp]

/-- Of strings without escape characters the output with colors holds the output without. -/
theorem uncolored_render_of_unescaped (h : ∀ s ∈ c.strings, Unescaped s) :
    uncolored (c.render true) = c.render false := by
  rw [uncolored_render]
  exact uncolored_of_unescaped (unescaped_unlines (unescaped_outputLines h))

end Comparison

namespace Failure

/-- What a failure says does not depend on the colors. -/
theorem uncolored_render (f : Failure) (colored : Bool) :
    uncolored (f.render colored) = uncolored (f.render false) := by
  simp only [render, uncolored_unlines, List.map_map, Function.comp_def, uncolored_apply]

/-- The strings of a failure, and of all it is made of. -/
def strings : Failure → List String
  | unreadable path cause | unwritable path cause => [path, cause]
  | unparsable path error => [path, error.message]
  | both first second => first.strings ++ second.strings

private theorem unescaped_message {f : Failure} (h : ∀ s ∈ f.strings, Unescaped s) :
    Unescaped f.message := by
  induction f with
  | unreadable path cause =>
    have hpath := h path (by simp [strings])
    have hcause := h cause (by simp [strings])
    simpa [message_unreadable, Unescaped] using ⟨hpath, hcause⟩
  | unparsable path error =>
    have hpath := h path (by simp [strings])
    have hmessage := h error.message (by simp [strings])
    rw [message_unparsable, ParseError.text]
    cases error.line with
    | none => simpa [Unescaped] using ⟨hpath, hmessage⟩
    | some line => simpa [Unescaped] using ⟨hpath, hmessage⟩
  | both first second ihFirst ihSecond =>
    obtain ⟨hfirst, hsecond⟩ := List.forall_mem_append.1 h
    simpa [message_both, Unescaped] using ⟨ihFirst hfirst, ihSecond hsecond⟩
  | unwritable path cause =>
    have hpath := h path (by simp [strings])
    have hcause := h cause (by simp [strings])
    simpa [message_unwritable, Unescaped] using ⟨hpath, hcause⟩

/-- Of strings without escape characters the output with colors holds the output without. -/
theorem uncolored_render_of_unescaped {f : Failure} (h : ∀ s ∈ f.strings, Unescaped s) :
    uncolored (f.render true) = f.render false := by
  have hmessage := unescaped_message h
  rw [uncolored_render]
  refine uncolored_of_unescaped (unescaped_unlines fun line hline => ?_)
  obtain ⟨part, hpart, rfl⟩ := List.mem_map.1 hline
  have hesc : '\x1b' ∉ part.toList := fun hc => hmessage (mem_of_mem_lines hpart hc)
  simp [Unescaped, hesc]

end Failure

/-! ## Lines of a body -/

/-- A line of the body of a comparison. -/
inductive BodyLine where
  | header (range : HunkRange)
  | line (line : HunkLine)
  | change (change : RuleChange)
  deriving DecidableEq, Repr

namespace BodyLine

def text : BodyLine → String
  | header r => r.text
  | line l => l.text
  | change c => c.text

/-- The color of a line, by what it is. -/
def color? : BodyLine → Option Color
  | header _ => some .cyan
  | line l =>
    match l.kind with
    | .context => none
    | .addition => some .green
    | .deletion => some .red
  | change c =>
    match c.kind with
    | .added => some .green
    | .removed => some .red
    | .modified => some .yellow

/-- The text of a line between the sequences that start its color and end it. -/
def colored (l : BodyLine) : String :=
  match l.color? with
  | none => l.text
  | some color => "\x1b[3" ++ color.digit ++ "m" ++ l.text ++ "\x1b[0m"

end BodyLine

/-- The lines of the body of a comparison, in order. -/
def bodyLines (strategy : Strategy) (old new : Side) : List BodyLine :=
  match strategy with
  | .textual =>
    (unifiedDiff old.sheet.canonical new.sheet.canonical old.label new.label
      defaultContext).hunks.flatMap fun h => .header h.header :: h.lines.map .line
  | .structural => (ruleChanges old.sheet new.sheet).map .change

theorem map_text_bodyLines (strategy : Strategy) (old new : Side) :
    (bodyLines strategy old new).map BodyLine.text =
      (Outcome.compare strategy old new defaultContext).body := by
  cases strategy with
  | textual =>
    simp only [bodyLines, List.map_flatMap, List.map_cons, List.map_map]
    rfl
  | structural =>
    simp only [bodyLines, List.map_map]
    rfl

namespace BodyLine

/-- The style of a line is found by how its text starts, whatever follows. -/
theorem ofLine_text (l : BodyLine) : Style.ofLine l.text = ⟨l.color?, false⟩ := by
  cases l with
  | header r =>
    obtain ⟨cs, htext⟩ : ∃ cs, r.text.toList = '@' :: '@' :: cs := by simp [HunkRange.text]
    simp [text, Style.ofLine, htext, color?, Style.hunk]
  | line l =>
    have htext : l.text.toList = l.kind.mark :: l.content.toList := by
      simp [HunkLine.text, Char.toString]
    simp only [text, Style.ofLine, htext, color?]
    cases l.kind <;> simp [LineKind.mark, Style.plain, Style.addition, Style.deletion]
  | change c =>
    have htext : c.text.toList = c.kind.word.toList ++ ':' :: ' ' :: c.label.toList := by
      simp [RuleChange.text]
    simp only [text, Style.ofLine, htext, color?]
    cases c.kind <;> simp [ChangeKind.word, Style.addition, Style.deletion, Style.modified]

/-- Every line of a body is colored by what it is. -/
theorem apply_ofLine_text (l : BodyLine) : (Style.ofLine l.text).apply true l.text = l.colored := by
  rw [ofLine_text, colored]
  cases hcolor : l.color? with
  | none => rfl
  | some color => simp [Style.apply, Style.start, Style.plain]

example : colored (.line ⟨.addition, "@@ Added:"⟩) = "\x1b[32m+@@ Added:\x1b[0m" := by rfl

end BodyLine

/-! ## The window -/

namespace Comparison

variable (c : Comparison)

/-- The lines that are written above those of the body. -/
def linesAbove (colored : Bool) : List String :=
  c.warningLines colored ++ c.summaryLines colored ++
    if c.totalLines = 0 then ["", "No differences found."]
    else ["", Style.heading.apply colored c.heading]

/-- The lines that are written below those of the body. -/
def linesBelow : List String := c.hiddenNote ++ c.reportNote

/-- An output is made of the lines above the body, the shown lines and the lines below. -/
theorem render_eq (h : c.totalLines = 0 → c.lines = []) (colored : Bool) : c.render colored =
    unlines (c.linesAbove colored ++ c.lines.map (fun line => (Style.ofLine line).apply colored line) ++
      c.linesBelow) := by
  rw [render, outputLines, linesAbove, linesBelow]
  by_cases htotal : c.totalLines = 0
  · have hnote : c.hiddenNote = [] := by simp [hiddenNote, hiddenLines, htotal]
    simp only [htotal, if_true, h htotal, hnote, List.map_nil, List.append_nil, List.nil_append,
      List.append_assoc]
  · simp only [if_neg htotal, windowLines, List.append_assoc]

/-- The shown lines of a body are written each in its color. -/
theorem render_of_lines (h : c.totalLines = 0 → c.lines = []) {shown : List BodyLine}
    (hshown : c.lines = shown.map BodyLine.text) : c.render true =
      unlines (c.linesAbove true ++ shown.map BodyLine.colored ++ c.linesBelow) := by
  have hbody : c.lines.map (fun line => (Style.ofLine line).apply true line) =
      shown.map BodyLine.colored := by
    rw [hshown, List.map_map]
    exact List.map_congr_left fun l _ => l.apply_ofLine_text
  rw [c.render_eq h, hbody]

end Comparison

/-- The lines shown of two stylesheets are the first ones of their body. -/
theorem Presents.lines_eq (h : Presents options ⟨a, old⟩ ⟨b, new⟩ result after) :
    result.lines =
      ((bodyLines options.strategy ⟨a, old⟩ ⟨b, new⟩).take options.displayLimit).map BodyLine.text := by
  have hlines : result.lines =
      (options.outcome ⟨a, old⟩ ⟨b, new⟩).body.take options.displayLimit := by
    rw [List.take_eq_take_min, ← h.total, Options.displayLimit]
    cases hs : options.strategy with
    | textual => exact h.textual hs
    | structural => exact h.structural hs
  rw [hlines, List.map_take, map_text_bodyLines, Options.outcome]

/-- Nothing is shown where nothing is found. -/
theorem Presents.lines_eq_nil (h : Presents options ⟨a, old⟩ ⟨b, new⟩ result after)
    (htotal : result.totalLines = 0) : result.lines = [] := by
  have hhidden := h.hidden
  exact List.eq_nil_of_length_eq_zero (by omega)

/-- Colors never change what is shown. Without the escape sequences that set styles, an output with
colors is the output without them, for every comparison and for every failure, however nested, whose
strings hold no escape character. Where two files are compared, each line of the body that is written
is colored by what it is: headers of hunks cyan, what is added green, what is removed red, what is
modified yellow, and the lines around it not at all. -/
theorem render_colored :
    (∀ c : Comparison, (∀ s ∈ c.strings, Unescaped s) → uncolored (c.render true) = c.render false) ∧
    (∀ f : Failure, (∀ s ∈ f.strings, Unescaped s) → uncolored (f.render true) = f.render false) ∧
    ∀ (options : Options) (a b : String) (millis : Int) (files after : FileTree)
      (result : Comparison), compareFiles options a b millis files = (.ok result, after) →
      ∃ old new, Loads files a old ∧ Loads files b new ∧
        let shown := (bodyLines options.strategy ⟨a, old⟩ ⟨b, new⟩).take options.displayLimit
        result.lines = shown.map BodyLine.text ∧
        result.render true =
          unlines (result.linesAbove true ++ shown.map BodyLine.colored ++ result.linesBelow) := by
  refine ⟨fun c => Comparison.uncolored_render_of_unescaped,
    fun f => Failure.uncolored_render_of_unescaped, ?_⟩
  intro options a b millis files after result h
  obtain ⟨⟨old, ha⟩, new, hb⟩ := loads_of_ok (congrArg Prod.fst h)
  have hp := presents_of_ok ha hb h
  exact ⟨old, new, ha, hb, hp.lines_eq, result.render_of_lines hp.lines_eq_nil hp.lines_eq⟩

/-! ## Two files that differ in a value -/

private def page : FileTree :=
  { FileTree.empty with
    entries := [(["a.css"], .file "a\x7bb:c\x7d".toUTF8), (["b.css"], .file "a\x7bb:d\x7d".toUTF8)] }

private def pageSide (label value : String) : Side where
  label := label
  sheet := ⟨[.style ["a"] [⟨"b", value, 1⟩] [] 1], []⟩

private theorem loads_pageOld : Loads page "/a.css" (pageSide "/a.css" "c").sheet :=
  .of_text "a\x7bb:c\x7d" rfl (by cbv)

private theorem loads_pageNew : Loads page "b.css" (pageSide "b.css" "d").sheet :=
  .of_text "a\x7bb:d\x7d" rfl (by cbv)

private def pageResult : Comparison :=
  .ofSheets ⟨.textual, 4, 9, false, ""⟩ (pageSide "/a.css" "c") (pageSide "b.css" "d")

private theorem compareFiles_page :
    compareFiles ⟨.textual, 4, 9, false, ""⟩ "/a.css" "b.css" 0 page = (.ok pageResult, page) := by
  simp only [compareFiles, loads_pageOld.comparison loads_pageNew]
  rfl

private def pageFailure : Failure :=
  .both (.unparsable "/a.css" ⟨"missing '\x7b' in \x60a\x60", some 1⟩)
    (.both (.unreadable "b.css" IoError.notFound.text) (.unwritable "out" IoError.fileExists.text))

/-- The first lines of a hunk in their colors, which say the same without, like a nested failure. -/
theorem render_colored_hunk :
    compareFiles ⟨.textual, 4, 9, false, ""⟩ "/a.css" "b.css" 0 page = (.ok pageResult, page) ∧
    pageResult.render true = unlines (pageResult.linesAbove true ++
      ["\x1b[36m@@ -1,3 +1,3 @@\x1b[0m", " a \x7b", "\x1b[31m-  b: c;\x1b[0m",
        "\x1b[32m+  b: d;\x1b[0m"] ++ pageResult.linesBelow) ∧
    uncolored (pageResult.render true) = pageResult.render false ∧
    uncolored (pageFailure.render true) = pageFailure.render false := by
  obtain ⟨hresult, hfailure, hcompared⟩ := render_colored
  obtain ⟨old, new, hold, hnew, -, hrender⟩ := hcompared _ _ _ _ _ _ _ compareFiles_page
  obtain rfl := hold.unique loads_pageOld
  obtain rfl := hnew.unique loads_pageNew
  have hshown : (bodyLines .textual (pageSide "/a.css" "c") (pageSide "b.css" "d")).take 4 =
      [.header ⟨0, 3, 0, 3⟩, .line ⟨.context, "a \x7b"⟩, .line ⟨.deletion, "  b: c;"⟩,
        .line ⟨.addition, "  b: d;"⟩] := by
    decide +kernel
  have hplain : ∀ s ∈ pageResult.strings, '\x1b' ∉ s.toList := by decide +kernel
  have hplainFailure : ∀ s ∈ pageFailure.strings, '\x1b' ∉ s.toList := by decide +kernel
  refine ⟨compareFiles_page, hrender.trans ?_, hresult _ hplain, hfailure _ hplainFailure⟩
  change unlines (_ ++ ((bodyLines .textual (pageSide "/a.css" "c")
    (pageSide "b.css" "d")).take 4).map BodyLine.colored ++ _) = _
  rw [hshown]
  rfl

end SheetDiff
