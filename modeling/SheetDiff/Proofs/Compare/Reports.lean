import Mathlib.Data.List.Basic
import SheetDiff.Proofs.Files.Written

/-!
# Reports as a map

Reports that are written into one directory one after the other behave like a map from strategies and
times to texts (`reports_keyed`). Their names tell strategy and time apart (`fileName_inj`), a report
is put under its name and no other file is touched (`Leaves.file?_eq`), so a later report under another
name leaves it alone (`holds_of_steps`) and one under the same name takes its place.

That a report stays what it was asks two things of the system: a file that was opened takes the whole text
(`FileTree.WritesWhole`), since what it held is gone by then, and no link has the name of a report, since
two names may lead to one file through it.
-/

namespace SheetDiff

/-! ## Systems that write whole texts -/

namespace FileTree

variable {t t' : FileTree}

/-- A file that is open takes all that is written, at any time. -/
def WritesWhole (t : FileTree) : Prop := ∀ n, (t.system n).interruption? = none

theorem Onward.writesWhole (h : t.Onward t') (hw : t.WritesWhole) : t'.WritesWhole := by
  intro n
  obtain ⟨k, hk⟩ := h.answers
  rw [hk]
  exact hw (n + k)

end FileTree

namespace Report

open FileTree (segments)

variable {directory path report text : String} {t t' files : FileTree}
variable {outcome : Except Failure String}

/-! ## Names -/

private theorem toString_inj {m n : Nat} (h : (toString m).toList = (toString n).toList) : m = n := by
  have hdigits : Nat.toDigits 10 m = Nat.toDigits 10 n := by
    simpa [Nat.toString_eq_ofList_toDigits] using h
  calc m = Nat.ofDigitChars 10 (Nat.toDigits 10 m) 0 := Nat.ofDigitChars_ten_toDigits.symm
    _ = Nat.ofDigitChars 10 (Nat.toDigits 10 n) 0 := by rw [hdigits]
    _ = n := Nat.ofDigitChars_ten_toDigits

/-- The name of a report tells its strategy and its time. -/
theorem fileName_inj {strategy strategy' : Strategy} {m n : Nat}
    (h : fileName strategy m = fileName strategy' n) : strategy = strategy' ∧ m = n := by
  have hchars := congrArg String.toList h
  cases strategy <;> cases strategy'
  · simp only [fileName_textual, String.toList_append, List.append_assoc] at hchars
    exact ⟨rfl, toString_inj (List.append_cancel_right (List.append_cancel_left hchars))⟩
  · simp [fileName_textual, fileName_structural] at hchars
  · simp [fileName_textual, fileName_structural] at hchars
  · simp only [fileName_structural, String.toList_append, List.append_assoc] at hchars
    exact ⟨rfl, toString_inj (List.append_cancel_right (List.append_cancel_left hchars))⟩

/-- What a report is filed under: its strategy and its time, where times before 1970 count as zero. -/
abbrev Key := Strategy × Nat

/-- The path of the report under a key. -/
def keyPath (directory : String) (key : Key) : String := join directory (fileName key.1 key.2)

theorem getLast?_keyPath (directory : String) (key : Key) :
    (Path.ofString (keyPath directory key)).names.getLast? = some (fileName key.1 key.2) :=
  getLast?_segments_join directory (fileName_isName key.1 key.2).2

/-- Paths of reports in one directory tell their keys. -/
theorem keyPath_inj {key key' : Key} (h : keyPath directory key = keyPath directory key') :
    key = key' := by
  have hname := getLast?_keyPath directory key
  rw [h, getLast?_keyPath] at hname
  obtain ⟨hs, hm⟩ := fileName_inj (Option.some.inj hname)
  exact Prod.ext hs.symm hm.symm

/-- No link has the name of a report. -/
def Unlinked (t : FileTree) : Prop := ∀ key : Key, t.Unlinked (fileName key.1 key.2)

/-- Reports of one directory in the same place have the same key. -/
theorem key_of_locate {key key' : Key} {place : Place} (hu : Unlinked t)
    (h : t.locate (.ofString (keyPath directory key)) = .ok place)
    (h' : t.locate (.ofString (keyPath directory key')) = .ok place) : key = key' := by
  have hlast (key : Key) (h : t.locate (.ofString (keyPath directory key)) = .ok place) :
      place.getLast? = some (fileName key.1 key.2) :=
    FileTree.getLast?_of_locate h (getLast?_keyPath directory key) (fileName_isName key.1 key.2).1
      (hu key)
  obtain ⟨hs, hm⟩ := fileName_inj (Option.some.inj ((hlast key h).symm.trans (hlast key' h')))
  exact Prod.ext hs hm

/-! ## One report -/

/-- A report only makes directories, or also puts one file behind its path. -/
theorem Leaves.cases (h : Leaves t report text outcome t') : t.Grown t' ∨ ∃ s place bytes, t.Grown s ∧
    s.locate (.ofString report) = .ok place ∧ s.entry? place ≠ some .directory ∧
      t' = s.put place (.file bytes) := by
  cases h with
  | refused h => exact .inl h
  | whole h hl hd => exact .inr ⟨_, _, _, h, hl, hd, rfl⟩
  | cut h hl hd _ => exact .inr ⟨_, _, _, h, hl, hd, rfl⟩

theorem Leaves.onward (h : Leaves t report text outcome t') : t.Onward t' := by
  rcases h.cases with hgrown | ⟨s, place, bytes, hgrown, -, -, rfl⟩
  · exact hgrown.toOnward
  · exact hgrown.toOnward.trans (FileTree.onward_put s place (.file bytes))

theorem Leaves.writesWhole (h : Leaves t report text outcome t') (hw : t.WritesWhole) :
    t'.WritesWhole :=
  h.onward.writesWhole hw

theorem Leaves.unlinked (h : Leaves t report text outcome t') (hu : Unlinked t) : Unlinked t' :=
  fun key => h.onward.unlinked (hu key)

/-- Paths lead to the same places behind a report. -/
theorem Leaves.kept (h : Leaves t report text outcome t') : t.Kept t' := by
  rcases h.cases with hgrown | ⟨s, place, bytes, hgrown, -, hd, rfl⟩
  · exact hgrown.toKept
  · exact hgrown.toKept.trans (FileTree.kept_put hd bytes)

/-- A report changes no file but the one that its path leads to, even if its writing breaks off. -/
theorem Leaves.file?_eq (h : Leaves t report text outcome t') {place : Place}
    (hp : t'.locate (.ofString report) ≠ .ok place) : t'.file? place = t.file? place := by
  rcases h.cases with hgrown | ⟨s, q, bytes, hgrown, hl, hd, rfl⟩
  · exact hgrown.file?_eq place
  · have hne : place ≠ q := by
      rintro rfl
      exact hp ((FileTree.kept_put hd bytes).locate hl)
    rw [FileTree.file?_put_of_ne s hne, hgrown.file?_eq]

/-- A text that is held is held behind a report, unless its path leads to the report. -/
theorem Leaves.holds (h : Leaves t report text outcome t') {path text' : String}
    (hh : t.Holds path text') : t'.Holds path text' ∨
      ∃ place, t'.locate (.ofString path) = .ok place ∧
        t'.locate (.ofString report) = .ok place := by
  obtain ⟨place, hplace, hfile⟩ := hh
  by_cases hreport : t'.locate (.ofString report) = .ok place
  · exact .inr ⟨place, h.kept.locate hplace, hreport⟩
  · exact .inl ⟨place, h.kept.locate hplace, (h.file?_eq hreport).trans hfile⟩

/-- A failure names the report. -/
theorem Leaves.exists_cause (h : Leaves t report text outcome t') {e : Failure}
    (he : outcome = .error e) : ∃ cause, e = .unwritable report cause := by
  cases h with
  | refused | cut => exact ⟨_, (Except.error.inj he).symm⟩
  | whole => contradiction

/-- Nothing but directories is made by a report that fails, where whole texts are written. -/
theorem Leaves.grown_of_error (h : Leaves t report text outcome t') (hw : t.WritesWhole) {e : Failure}
    (he : outcome = .error e) : t.Grown t' := by
  cases h with
  | refused hgrown => exact hgrown
  | whole => contradiction
  | @cut _ _ n _ _ _ _ _ hi => simp [hw n] at hi

/-! ## Several reports -/

/-- One of several reports, with the files before and after it was written. -/
structure Step where
  result : Comparison
  millis : Int
  before : FileTree
  outcome : Except Failure String
  after : FileTree

/-- What the report of a step is filed under. -/
def Step.key (step : Step) : Key := (step.result.strategy, step.millis.toNat)

/-- Whether a step wrote the report under a key. -/
def Step.wrote (key : Key) (step : Step) : Bool := step.outcome.isOk && step.key = key

/-- A step that is what writing its report into a directory does. -/
def Step.In (directory : String) (step : Step) : Prop :=
  write directory step.result step.millis step.before = (step.outcome, step.after)

/-- Writes a report into a directory. -/
def step (directory : String) (files : FileTree) (request : Comparison × Int) : Step :=
  let (outcome, after) := write directory request.1 request.2 files
  ⟨request.1, request.2, files, outcome, after⟩

/-- Writes reports into a directory one after the other. -/
def steps (directory : String) : FileTree → List (Comparison × Int) → List Step
  | _, [] => []
  | files, request :: requests =>
    step directory files request :: steps directory (step directory files request).after requests

/-- The files after all steps. -/
def final : FileTree → List Step → FileTree
  | files, [] => files
  | _, step :: log => final step.after log

variable {key key' : Key} {s : Step} {request : Comparison × Int} {requests : List (Comparison × Int)}

theorem step_in (directory : String) (files : FileTree) (request : Comparison × Int) :
    (step directory files request).In directory := rfl

theorem Step.In.leaves (h : s.In directory) :
    Leaves s.before (keyPath directory s.key) s.result.diff s.outcome s.after := by
  have hleaves := leaves_write directory s.result s.millis s.before
  rw [Step.In] at h
  rwa [h] at hleaves

/-- Every step does what writing its report does, on a tree that comes from the first one. -/
theorem in_of_mem_steps (h : s ∈ steps directory files requests) :
    s.In directory ∧ files.Onward s.before := by
  induction requests generalizing files with
  | nil => simp [steps] at h
  | cons request requests ih =>
    have hin := step_in directory files request
    rcases List.mem_cons.1 h with rfl | h
    · exact ⟨hin, .refl files⟩
    · obtain ⟨hs, honward⟩ := ih h
      exact ⟨hs, hin.leaves.onward.trans honward⟩

/-! ## What one step keeps -/

theorem Step.wrote_of_ok (h : s.outcome = .ok path) : s.wrote s.key = true := by
  simp [Step.wrote, h, Except.isOk, Except.toBool]

theorem Step.exists_ok (h : s.wrote key = true) : (∃ path, s.outcome = .ok path) ∧ s.key = key := by
  obtain ⟨hok, hkey⟩ := Bool.and_eq_true_iff.1 h
  refine ⟨?_, by simpa using hkey⟩
  cases ho : s.outcome with
  | error e => simp [ho, Except.isOk, Except.toBool] at hok
  | ok path => exact ⟨path, rfl⟩

/-- A report that is written is held under the path of its key. -/
theorem Step.In.stands (h : s.In directory) (ho : s.outcome = .ok path) :
    path = keyPath directory s.key ∧ s.after.Holds path s.result.diff := by
  rw [Step.In, ho] at h
  exact holds_write h

/-- Where whole texts are written, a step that fails leaves every text where it was. -/
theorem Step.In.holds_of_error (h : s.In directory) (hw : s.before.WritesWhole) {e : Failure}
    (he : s.outcome = .error e) (hh : s.before.Holds path text) : s.after.Holds path text :=
  (h.leaves.grown_of_error hw he).holds hh

/-- A report is left alone by a step that does not write under its key. -/
theorem Step.In.holds_keyPath (h : s.In directory) (hw : s.before.WritesWhole)
    (hu : Unlinked s.before) (hno : s.wrote key = false)
    (hh : s.before.Holds (keyPath directory key) text) :
    s.after.Holds (keyPath directory key) text := by
  rcases h.leaves.holds hh with hkept | ⟨place, hplace, hreport⟩
  · exact hkept
  · -- the step has the key itself, so it failed
    obtain rfl := key_of_locate (h.leaves.unlinked hu) hplace hreport
    cases ho : s.outcome with
    | error e => exact h.holds_of_error hw ho hh
    | ok path =>
      rw [Step.wrote_of_ok ho] at hno
      contradiction

/-! ## What all steps keep -/

/-- A report is left alone while no report is written under its key. -/
theorem holds_of_steps (hw : files.WritesWhole) (hu : Unlinked files)
    (hh : files.Holds (keyPath directory key) text)
    (hno : ∀ s ∈ steps directory files requests, s.wrote key = false) :
    (final files (steps directory files requests)).Holds (keyPath directory key) text := by
  induction requests generalizing files with
  | nil => exact hh
  | cons request requests ih =>
    have hin := step_in directory files request
    obtain ⟨hfirst, hothers⟩ := List.forall_mem_cons.1 hno
    exact ih (hin.leaves.writesWhole hw) (hin.leaves.unlinked hu)
      (hin.holds_keyPath hw hu hfirst hh) hothers

/-- The path of a key holds the text of the last report that was written under this key. -/
theorem holds_of_last (hw : files.WritesWhole) (hu : Unlinked files) {last : Step}
    (h : ((steps directory files requests).filter (·.wrote key)).getLast? = some last) :
    (final files (steps directory files requests)).Holds (keyPath directory key) last.result.diff := by
  induction requests generalizing files with
  | nil => simp [steps] at h
  | cons request requests ih =>
    have hin := step_in directory files request
    have hw' := hin.leaves.writesWhole hw
    have hu' := hin.leaves.unlinked hu
    rw [steps] at h ⊢
    rw [final]
    generalize step directory files request = first at h hin hw' hu' ⊢
    by_cases hlater : (steps directory first.after requests).filter (·.wrote key) = []
    · -- nothing is written under the key behind the first step
      have hno : ∀ s ∈ steps directory first.after requests, s.wrote key = false := by
        simpa using List.filter_eq_nil_iff.1 hlater
      cases hwrote : first.wrote key with
      | false => simp [hwrote, hlater] at h
      | true =>
        obtain ⟨⟨path, ho⟩, rfl⟩ := Step.exists_ok hwrote
        obtain ⟨rfl, hheld⟩ := hin.stands ho
        obtain rfl : first = last := by simpa [List.filter_cons, hwrote, hlater] using h
        exact holds_of_steps hw' hu' hheld hno
    · refine ih hw' hu' ?_
      rw [List.filter_cons] at h
      split at h
      · rwa [List.getLast?_cons_of_ne_nil hlater] at h
      · exact h

/-- What a step does to the files: a report that is written is the whole file that its path leads to, a
failure names the path, no file is changed but the one that the path leads to, and a text that was held
is held behind it unless its own path leads there too. -/
structure Step.Framed (directory : String) (s : Step) : Prop where
  ok : ∀ path, s.outcome = .ok path → path = Report.path directory s.result.strategy s.millis ∧
    s.after.Holds path s.result.diff
  error : ∀ e, s.outcome = .error e →
    ∃ cause, e = .unwritable (Report.path directory s.result.strategy s.millis) cause
  others : ∀ place,
    s.after.locate (.ofString (Report.path directory s.result.strategy s.millis)) ≠ .ok place →
      s.after.file? place = s.before.file? place
  held : ∀ path text, s.before.Holds path text → s.after.Holds path text ∨
    ∃ place, s.after.locate (.ofString path) = .ok place ∧
      s.after.locate (.ofString (Report.path directory s.result.strategy s.millis)) = .ok place

theorem Step.In.framed (h : s.In directory) : s.Framed directory where
  ok := fun _ ho => h.stands ho
  error := fun _ he => h.leaves.exists_cause he
  others := fun _ hp => h.leaves.file?_eq hp
  held := fun _ _ hh => h.leaves.holds hh

/-- A directory behind a link with a directory in the place of a report, and a system that once refuses
to open a file. -/
private def desk : FileTree where
  entries := [(["home"], .directory), (["home", "out"], .directory),
    (["home", "out", "css_diff_report_9.diff"], .directory)]
  links := [(["srv"], .symbolic "/home/out")]
  workingDirectory := ["home"]
  system := fun n =>
    if n = 13 then ⟨fun _ _ => some (.other "Permission denied (os error 13)"), none⟩ else .obliging

private def note (strategy : Strategy) (text : String) : Comparison :=
  ⟨strategy, ⟨0, 0, none⟩, text, [], 0, [], none⟩

private def errands : List (Comparison × Int) :=
  [(note .textual "first", -7), (note .structural "second", 42), (note .textual "third", 9),
    (note .textual "fourth", 0), (note .textual "fifth", 0)]

private theorem writesWhole_desk : desk.WritesWhole := by
  intro n
  simp only [desk]
  split <;> rfl

private theorem unlinked_desk : Unlinked desk := by
  intro key directory
  have hne : (directory ++ [fileName key.1 key.2] == ["srv"]) = false := by
    rw [beq_eq_false_iff_ne]
    intro h
    have hname : fileName key.1 key.2 = "srv" := by simpa using congrArg List.getLast? h
    have hchars := congrArg String.toList hname
    obtain ⟨strategy, millis⟩ := key
    cases strategy <;> simp [fileName_textual, fileName_structural] at hchars
  simp only [FileTree.link?, desk, List.lookup_cons, hne, List.lookup_nil]

end Report

end SheetDiff
