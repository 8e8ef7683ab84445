import Mathlib
import SheetDiff.Compare.Files
import SheetDiff.Proofs.Files.Written

/-!
# Failures of a comparison

`Loads` and `Fails` say for themselves, without the functions that compare, when the file at a path
holds a stylesheet and why it does not; for every path exactly one of the two is the case
(`loads_or_fails`, `Loads.not_fails`). A comparison gives a result only of files that both load. Where a
file fails, so does the comparison, with the failures of all files that fail and in their order, and
the files are left as they were (`compareFiles_fails`).
-/

namespace SheetDiff

/-! ## Loading one file -/

section Loading

variable {files : FileTree} {path : String} {sheet : Stylesheet} {f : Failure}

/-- The file at a path holds the text of a stylesheet. -/
structure Loads (files : FileTree) (path : String) (sheet : Stylesheet) : Prop where
  exists_text : ∃ bytes text, files.readBytes path = .ok bytes ∧
    String.fromUTF8? bytes = some text ∧ Stylesheet.parse text = .ok sheet

/-- Why the file at a path holds no stylesheet. -/
inductive Fails (files : FileTree) (path : String) : Failure → Prop
  /-- There is no such file, or it cannot be read. -/
  | unread {e : IoError} (h : files.readBytes path = .error e) :
      Fails files path (.unreadable path e.text)
  /-- The file holds no text. -/
  | undecoded {bytes : ByteArray} (h : files.readBytes path = .ok bytes)
      (ht : String.fromUTF8? bytes = none) :
      Fails files path (.unreadable path IoError.invalidText.text)
  /-- The text is not that of a stylesheet. -/
  | unparsed {bytes : ByteArray} {text : String} {e : ParseError}
      (h : files.readBytes path = .ok bytes) (ht : String.fromUTF8? bytes = some text)
      (hp : Stylesheet.parse text = .error e) : Fails files path (.unparsable path e)

private theorem readText_of_error {e : IoError} (h : files.readBytes path = .error e) :
    files.readText path = .error e := by
  simp [FileTree.readText, h, bind, Except.bind]

private theorem readText_of_text {bytes : ByteArray} {text : String}
    (h : files.readBytes path = .ok bytes) (ht : String.fromUTF8? bytes = some text) :
    files.readText path = .ok text := by
  simp [FileTree.readText, h, ht, bind, Except.bind]

private theorem readText_of_invalid {bytes : ByteArray} (h : files.readBytes path = .ok bytes)
    (ht : String.fromUTF8? bytes = none) : files.readText path = .error .invalidText := by
  simp [FileTree.readText, h, ht, bind, Except.bind]

theorem Loads.of_text (text : String) (h : files.readBytes path = .ok text.toUTF8)
    (hp : Stylesheet.parse text = .ok sheet) : Loads files path sheet :=
  ⟨⟨_, _, h, fromUTF8?_toUTF8 text, hp⟩⟩

/-- What is read and parsed is the stylesheet in the file. -/
theorem Loads.ofContents (h : Loads files path sheet) :
    Stylesheet.ofContents path (files.readText path) = .ok sheet := by
  obtain ⟨bytes, text, hb, ht, hp⟩ := h.exists_text
  rw [readText_of_text hb ht]
  simp only [Stylesheet.ofContents, hp]

/-- What goes wrong in reading and parsing is what is wrong with the file. -/
theorem Fails.ofContents (h : Fails files path f) :
    Stylesheet.ofContents path (files.readText path) = .error f := by
  cases h with
  | unread h => rw [readText_of_error h, Stylesheet.ofContents]
  | undecoded h ht =>
    rw [readText_of_invalid h ht]
    rfl
  | unparsed h ht hp =>
    rw [readText_of_text h ht]
    simp only [Stylesheet.ofContents, hp]

/-- A file either loads or fails. -/
theorem loads_or_fails (files : FileTree) (path : String) :
    (∃ sheet, Loads files path sheet) ∨ ∃ f, Fails files path f := by
  cases hb : files.readBytes path with
  | error e => exact .inr ⟨_, .unread hb⟩
  | ok bytes =>
    cases ht : String.fromUTF8? bytes with
    | none => exact .inr ⟨_, .undecoded hb ht⟩
    | some text =>
      cases hp : Stylesheet.parse text with
      | error e => exact .inr ⟨_, .unparsed hb ht hp⟩
      | ok sheet => exact .inl ⟨sheet, ⟨bytes, text, hb, ht, hp⟩⟩

theorem Loads.not_fails (h : Loads files path sheet) : ¬ Fails files path f := by
  intro hf
  have heq := h.ofContents.symm.trans hf.ofContents
  contradiction

/-- A file holds one stylesheet. -/
theorem Loads.unique {sheet' : Stylesheet} (h : Loads files path sheet) (h' : Loads files path sheet') :
    sheet = sheet' :=
  Except.ok.inj (h.ofContents.symm.trans h'.ofContents)

/-- A file fails for one reason. -/
theorem Fails.unique {g : Failure} (h : Fails files path f) (h' : Fails files path g) : f = g :=
  Except.error.inj (h.ofContents.symm.trans h'.ofContents)

/-- A file that does not load fails. -/
theorem exists_fails (h : ¬ ∃ sheet, Loads files path sheet) : ∃ f, Fails files path f :=
  (loads_or_fails files path).resolve_left h

/-! ## Messages -/

theorem message_unreadable (path cause : String) :
    (Failure.unreadable path cause).message = "failed to read " ++ path ++ ": " ++ cause := rfl

theorem message_unparsable (path : String) (e : ParseError) :
    (Failure.unparsable path e).message = "failed to parse " ++ path ++ ": " ++ e.text := rfl

theorem message_both (f g : Failure) :
    (Failure.both f g).message = f.message ++ "\n" ++ g.message := rfl

theorem message_unwritable (path cause : String) :
    (Failure.unwritable path cause).message = "failed to write report " ++ path ++ ": " ++ cause := rfl

/-- A path stands in a message. -/
def Mentions (message path : String) : Prop := path.toList <:+: message.toList

theorem Mentions.of_append {message path : String} (before after : String)
    (h : message = before ++ path ++ after) : Mentions message path := by
  refine ⟨before.toList, after.toList, ?_⟩
  rw [h, String.toList_append, String.toList_append]

/-- A failure concerns the file that fails, and its message names it. -/
theorem Fails.names (h : Fails files path f) : f.paths = [path] ∧ Mentions f.message path := by
  have hread (cause : String) : Mentions (Failure.unreadable path cause).message path :=
    Mentions.of_append "failed to read " (": " ++ cause)
      (by rw [message_unreadable]; exact String.append_assoc)
  cases h with
  | unread _ => exact ⟨rfl, hread _⟩
  | undecoded _ _ => exact ⟨rfl, hread _⟩
  | @unparsed _ _ e _ _ _ =>
    exact ⟨rfl, Mentions.of_append "failed to parse " (": " ++ e.text)
      (by rw [message_unparsable]; exact String.append_assoc)⟩

/-- A file that fails is never said to be a report. -/
theorem Fails.ne_unwritable (h : Fails files path f) (p cause : String) : f ≠ .unwritable p cause := by
  cases h <;> simp

end Loading

/-! ## Comparing two files -/

section Comparing

variable {options : Options} {a b : String} {millis : Int} {files : FileTree} {f g : Failure}

/-- A comparison of files that cannot be compared stops before anything is written. -/
private theorem compareFiles_of_error
    (h : Failure.pair (Stylesheet.ofContents a (files.readText a))
      (Stylesheet.ofContents b (files.readText b)) = .error f) :
    compareFiles options a b millis files = (.error f, files) := by
  simp only [compareFiles, Comparison.ofContents, h, bind, Except.bind]

theorem compareFiles_of_fails_first (ha : Fails files a f) {sheet : Stylesheet}
    (hb : Loads files b sheet) : compareFiles options a b millis files = (.error f, files) := by
  apply compareFiles_of_error
  rw [ha.ofContents, hb.ofContents]
  rfl

theorem compareFiles_of_fails_second {sheet : Stylesheet} (ha : Loads files a sheet)
    (hb : Fails files b f) : compareFiles options a b millis files = (.error f, files) := by
  apply compareFiles_of_error
  rw [ha.ofContents, hb.ofContents]
  rfl

theorem compareFiles_of_fails_both (ha : Fails files a f) (hb : Fails files b g) :
    compareFiles options a b millis files = (.error (.both f g), files) := by
  apply compareFiles_of_error
  rw [ha.ofContents, hb.ofContents]
  rfl

/-- A result is given of files that both load. -/
theorem loads_of_ok {result : Comparison} (h : (compareFiles options a b millis files).1 = .ok result) :
    (∃ old, Loads files a old) ∧ ∃ new, Loads files b new := by
  rcases loads_or_fails files a with ⟨old, ha⟩ | ⟨f, ha⟩ <;>
    rcases loads_or_fails files b with ⟨new, hb⟩ | ⟨g, hb⟩
  · exact ⟨⟨old, ha⟩, new, hb⟩
  · simp [compareFiles_of_fails_second ha hb] at h
  · simp [compareFiles_of_fails_first ha hb] at h
  · simp [compareFiles_of_fails_both ha hb] at h

/-- A report is all that can fail once both files are loaded. -/
private theorem write_error {directory : String} {result : Comparison}
    (h : (Report.write directory result millis files).1 = .error f) :
    ∃ path cause, f = .unwritable path cause := by
  simp only [Report.write] at h
  split at h
  rename_i outcome files' hw
  cases outcome with
  | ok => contradiction
  | error e => exact ⟨_, _, (Except.error.inj h).symm⟩

/-- Two files that load are compared as the stylesheets they hold. -/
theorem Loads.comparison {old new : Stylesheet} (ha : Loads files a old) (hb : Loads files b new)
    (options : Options) : Comparison.ofContents options a b (files.readText a) (files.readText b) =
      .ok (.ofSheets options ⟨a, old⟩ ⟨b, new⟩) := by
  simp only [Comparison.ofContents, ha.ofContents, hb.ofContents, Failure.pair, bind, Except.bind]
  rfl

/-- Two files that load are compared, and only the writing of a report can fail then. -/
theorem compareFiles_of_loads {old new : Stylesheet} (ha : Loads files a old)
    (hb : Loads files b new) (h : (compareFiles options a b millis files).1 = .error f) :
    options.fullReport = true ∧ ∃ path cause, f = .unwritable path cause := by
  simp only [compareFiles, ha.comparison hb] at h
  split at h
  · rename_i hfull
    split at h
    · simp at h
    · rename_i e files' hw
      obtain rfl := Except.error.inj h
      exact ⟨hfull, write_error (congrArg Prod.fst hw)⟩
  · simp at h

/-- The message of two failures mentions what one of them mentions. -/
private theorem mentions_both {p : String} (h : Mentions f.message p ∨ Mentions g.message p) :
    Mentions (Failure.both f g).message p := by
  rcases h with ⟨before, after, h⟩ | ⟨before, after, h⟩
  · refine ⟨before, after ++ "\n".toList ++ g.message.toList, ?_⟩
    simp only [message_both, String.toList_append, ← h, List.append_assoc]
  · refine ⟨f.message.toList ++ "\n".toList ++ before, after, ?_⟩
    simp only [message_both, String.toList_append, ← h, List.append_assoc]

end Comparing

/-- The failures of a comparison. A result is given, or the writing of a report fails, only where both
files load, and the latter only where a report is asked for. If exactly one file does not load, its
failure is that of the comparison; if none does, both failures are, in order. A failure of the files
names them as they were given and leaves everything as it was. -/
theorem compareFiles_fails (options : Options) (a b : String) (millis : Int) (files : FileTree) :
    (∀ result, (compareFiles options a b millis files).1 = .ok result →
      (∃ old, Loads files a old) ∧ ∃ new, Loads files b new) ∧
    (∀ path cause, (compareFiles options a b millis files).1 = .error (.unwritable path cause) →
      options.fullReport = true ∧ (∃ old, Loads files a old) ∧ ∃ new, Loads files b new) ∧
    ((¬ ∃ old, Loads files a old) → (∃ new, Loads files b new) →
      ∃ f, Fails files a f ∧ compareFiles options a b millis files = (.error f, files) ∧
        f.paths = [a] ∧ Mentions f.message a) ∧
    ((∃ old, Loads files a old) → (¬ ∃ new, Loads files b new) →
      ∃ f, Fails files b f ∧ compareFiles options a b millis files = (.error f, files) ∧
        f.paths = [b] ∧ Mentions f.message b) ∧
    ((¬ ∃ old, Loads files a old) → (¬ ∃ new, Loads files b new) →
      ∃ f g, Fails files a f ∧ Fails files b g ∧
        compareFiles options a b millis files = (.error (.both f g), files) ∧
        (Failure.both f g).paths = [a, b] ∧
        Mentions (Failure.both f g).message a ∧ Mentions (Failure.both f g).message b) := by
  refine ⟨fun _ => loads_of_ok, ?report, ?first, ?second, ?both⟩
  case report =>
    intro path cause h
    rcases loads_or_fails files a with ⟨old, ha⟩ | ⟨f, ha⟩ <;>
      rcases loads_or_fails files b with ⟨new, hb⟩ | ⟨g, hb⟩
    · exact ⟨(compareFiles_of_loads ha hb h).1, ⟨old, ha⟩, ⟨new, hb⟩⟩
    · rw [compareFiles_of_fails_second ha hb] at h
      exact absurd (Except.error.inj h) (hb.ne_unwritable path cause)
    · rw [compareFiles_of_fails_first ha hb] at h
      exact absurd (Except.error.inj h) (ha.ne_unwritable path cause)
    · rw [compareFiles_of_fails_both ha hb] at h
      exact absurd (Except.error.inj h) (by simp)
  case first =>
    rintro ha ⟨new, hb⟩
    obtain ⟨f, hf⟩ := exists_fails ha
    exact ⟨f, hf, compareFiles_of_fails_first hf hb, hf.names⟩
  case second =>
    rintro ⟨old, ha⟩ hb
    obtain ⟨f, hf⟩ := exists_fails hb
    exact ⟨f, hf, compareFiles_of_fails_second ha hf, hf.names⟩
  case both =>
    intro ha hb
    obtain ⟨f, hf⟩ := exists_fails ha
    obtain ⟨g, hg⟩ := exists_fails hb
    obtain ⟨hfp, hfm⟩ := hf.names
    obtain ⟨hgp, hgm⟩ := hg.names
    have hpaths : (Failure.both f g).paths = [a, b] := by
      rw [Failure.paths, hfp, hgp]
      rfl
    exact ⟨f, g, hf, hg, compareFiles_of_fails_both hf hg, hpaths, mentions_both (.inl hfm),
      mentions_both (.inr hgm)⟩

/-! ## Three files and a missing one -/

/-- A stylesheet, a text that is none and a file without text. -/
private def shelf : FileTree :=
  { FileTree.empty with
    entries := [(["srv"], .directory), (["srv", "good.css"], .file "a\x7bb:c\x7d".toUTF8),
      (["srv", "bad.css"], .file "a".toUTF8), (["srv", "raw.css"], .file ⟨#[255]⟩)]
    workingDirectory := ["srv"] }

/-- A report is asked for in a directory that cannot be made. -/
private def shelfOptions : Options := ⟨.textual, 9, 9, true, "good.css/out"⟩

private theorem loads_good : Loads shelf "good.css" ⟨[.style ["a"] [⟨"b", "c", 1⟩] [] 1], []⟩ :=
  .of_text "a\x7bb:c\x7d" rfl (by cbv)

private theorem fails_bad : Fails shelf "../srv/bad.css"
    (.unparsable "../srv/bad.css" ⟨"missing '\x7b' in \x60a\x60", some 1⟩) :=
  .unparsed rfl (fromUTF8?_toUTF8 "a") (by cbv)

private theorem fails_raw :
    Fails shelf "/srv/raw.css" (.unreadable "/srv/raw.css" IoError.invalidText.text) :=
  .undecoded rfl (by decide +kernel)

private theorem fails_lost : Fails shelf "/lost.css" (.unreadable "/lost.css" IoError.notFound.text) :=
  .unread rfl

/-- Two files that fail, then one on either side, and then a report that cannot be written. -/
theorem compareFiles_fails_shelf :
    compareFiles shelfOptions "/lost.css" "../srv/bad.css" 4 shelf =
      (.error (.both (.unreadable "/lost.css" "No such file or directory (os error 2)")
        (.unparsable "../srv/bad.css" ⟨"missing '\x7b' in \x60a\x60", some 1⟩)), shelf) ∧
    compareFiles shelfOptions "/srv/raw.css" "good.css" 4 shelf =
      (.error (.unreadable "/srv/raw.css" "stream did not contain valid UTF-8"), shelf) ∧
    compareFiles shelfOptions "good.css" "/lost.css" 4 shelf =
      (.error (.unreadable "/lost.css" "No such file or directory (os error 2)"), shelf) ∧
    (compareFiles shelfOptions "good.css" "good.css" 4 shelf).1 =
      .error (.unwritable "good.css/out/css_diff_report_4.diff" "Not a directory (os error 20)") ∧
    (∃ sheet, Loads shelf "good.css" sheet) := by
  have hlost : ¬ ∃ sheet, Loads shelf "/lost.css" sheet := fun ⟨_, h⟩ => h.not_fails fails_lost
  have hbad : ¬ ∃ sheet, Loads shelf "../srv/bad.css" sheet := fun ⟨_, h⟩ => h.not_fails fails_bad
  have hraw : ¬ ∃ sheet, Loads shelf "/srv/raw.css" sheet := fun ⟨_, h⟩ => h.not_fails fails_raw
  have hreport : (compareFiles shelfOptions "good.css" "good.css" 4 shelf).1 =
      .error (.unwritable "good.css/out/css_diff_report_4.diff" "Not a directory (os error 20)") := by
    simp only [compareFiles, loads_good.comparison loads_good]
    decide +kernel
  refine ⟨?both, ?first, ?second, hreport, ?report⟩
  case both =>
    obtain ⟨f, g, hf, hg, hboth, -⟩ :=
      (compareFiles_fails shelfOptions "/lost.css" "../srv/bad.css" 4 shelf).2.2.2.2 hlost hbad
    rw [hboth, hf.unique fails_lost, hg.unique fails_bad]
    rfl
  case first =>
    obtain ⟨f, hf, hfirst, -⟩ :=
      (compareFiles_fails shelfOptions "/srv/raw.css" "good.css" 4 shelf).2.2.1 hraw ⟨_, loads_good⟩
    rw [hfirst, hf.unique fails_raw]
    rfl
  case second =>
    obtain ⟨f, hf, hsecond, -⟩ :=
      (compareFiles_fails shelfOptions "good.css" "/lost.css" 4 shelf).2.2.2.1 ⟨_, loads_good⟩ hlost
    rw [hsecond, hf.unique fails_lost]
    rfl
  case report =>
    exact ((compareFiles_fails shelfOptions "good.css" "good.css" 4 shelf).2.1 _ _ hreport).2.1

end SheetDiff
