import SheetDiff.Compare.Report
import SheetDiff.Proofs.Files.Grown
import SheetDiff.Proofs.Text.Messages

/-!
# What is written into a file

Writing a text ends in one of three ways (`writes_writeText`): it is refused and nothing changes, the
whole text is in the file that its path leads to, or the system breaks off and only the first part of
the text is. No other file changes. The path still leads to that file afterwards, so a text that was
written is held there (`holds_put`), and is read unless the system refuses it (`Holds.readText`). A report
is written after its directory was made, which leaves all files as they were (`leaves_write`), so one that
was written is held under its path (`Report.holds_write`).
-/

namespace SheetDiff

variable {t t' : FileTree} {place : Place} {path text name : String}

theorem fromUTF8?_toUTF8 (text : String) : String.fromUTF8? text.toUTF8 = some text := by
  rw [String.fromUTF8?, String.toUTF8_eq_toByteArray, dif_pos text.isValidUTF8]
  rfl

namespace FileTree

/-! ## Texts in files -/

/-- A path leads to a file that holds a text, byte for byte. -/
def Holds (t : FileTree) (path text : String) : Prop :=
  ∃ place, t.locate (.ofString path) = .ok place ∧ t.file? place = some text.toUTF8

theorem holds_put (hl : t.locate (.ofString path) = .ok place) (hd : t.entry? place ≠ some .directory) :
    Holds (t.put place (.file text.toUTF8)) path text :=
  ⟨place, (kept_put hd text.toUTF8).locate hl, file?_put_self t (ne_nil_of_entry_ne hd) text.toUTF8⟩

/-- Directories that are made leave every text where it was. -/
theorem Grown.holds (h : t.Grown t') (hh : t.Holds path text) : t'.Holds path text := by
  obtain ⟨place, hplace, hfile⟩ := hh
  exact ⟨place, h.toKept.locate hplace, (h.file?_eq place).trans hfile⟩

/-- A text that is held is read, unless the system refuses it. -/
theorem Holds.readText (h : t.Holds path text) (hn : hasNul path = false)
    (hs : (t.system 0).refusal? .read (.ofString path) = none) : t.readText path = .ok text := by
  obtain ⟨place, hl, hfile⟩ := h
  have hentry : t.entry? place = some (.file text.toUTF8) := by
    unfold file? at hfile
    split at hfile
    · rename_i hentry
      rw [hentry, Option.some.inj hfile]
    · contradiction
  rw [FileTree.readText, readBytes, if_neg (by simp [hn]), hs]
  simp only [hl, hentry, bind, Except.bind, fromUTF8?_toUTF8]

end FileTree

/-! ## Writing -/

namespace FileWork

/-- How writing a text under a path may end, and what it leaves. -/
inductive Writes (t : FileTree) (path text : String) : Except IoError Unit → FileTree → Prop
  /-- The file is not opened, and nothing changes. -/
  | refused (e : IoError) (n : Nat) : Writes t path text (.error e) (t.after n)
  | whole {place : Place} (hl : t.locate (.ofString path) = .ok place)
      (hd : t.entry? place ≠ some .directory) :
      Writes t path text (.ok ()) ((t.after 2).put place (.file text.toUTF8))
  /-- The system breaks off, and the file holds as much as it took. -/
  | cut {place : Place} {taken : Nat} {e : IoError} (hl : t.locate (.ofString path) = .ok place)
      (hd : t.entry? place ≠ some .directory) (hi : (t.system 1).interruption? = some (taken, e)) :
      Writes t path text (.error e)
        ((t.after 2).put place (.file (text.toUTF8.extract 0 taken)))

/-- A file is opened where no directory is, and is empty then, or nothing changes. -/
theorem openFile_cases (path : String) (t : FileTree) :
    (∃ e n, (openFile path).run t = (.error e, t.after n)) ∨
    ∃ place, t.locate (.ofString path) = .ok place ∧ t.entry? place ≠ some .directory ∧
      (openFile path).run t = (.ok place, (t.after 1).put place (.file .empty)) := by
  rw [openFile]
  split
  · exact .inl ⟨.nulInPath, 0, rfl⟩
  · rw [run_bind, run_ask]
    cases (t.system 0).refusal? .openFile (.ofString path) with
    | some e => exact .inl ⟨e, 1, rfl⟩
    | none =>
      dsimp only
      rw [run_get_bind, run_bind, run_ofExcept, FileTree.locate_after]
      cases hl : t.locate (.ofString path) with
      | error e => exact .inl ⟨e, 1, rfl⟩
      | ok place =>
        dsimp only
        split
        · exact .inl ⟨.isADirectory, 1, rfl⟩
        · rename_i hfree
          refine .inr ⟨place, rfl, ?_, rfl⟩
          intro hd
          have hentry : FileTree.entry? (t.after 1) place = some .directory := hd
          simp [hentry, Entry.isDirectory] at hfree

/-- An open file takes all that is written, or the first part of it. -/
theorem run_writeBytes (place : Place) (bytes : ByteArray) (t : FileTree) :
    (writeBytes place bytes).run t = match (t.system 0).interruption?.filter (·.1 < bytes.size) with
      | none => (.ok (), (t.after 1).put place (.file bytes))
      | some (taken, e) => (.error e, (t.after 1).put place (.file (bytes.extract 0 taken))) := by
  rw [writeBytes, run_get_bind]
  cases (t.system 0).interruption?.filter (·.1 < bytes.size) <;> rfl

/-- Writing a text ends in one of these ways. -/
theorem writes_writeText (path text : String) (t : FileTree) :
    Writes t path text ((writeText path text).run t).1 ((writeText path text).run t).2 := by
  rw [writeText, run_bind]
  rcases openFile_cases path t with ⟨e, n, hopen⟩ | ⟨place, hl, hd, hopen⟩
  · rw [hopen]
    exact .refused e n
  · have hput (e : Entry) : FileTree.put (((t.after 1).put place (.file .empty)).after 1) place e =
        (t.after 2).put place e :=
      FileTree.put_put (t.after 2) place (.file .empty) e
    rw [hopen]
    dsimp only
    rw [run_writeBytes]
    split
    · rw [hput]
      exact .whole hl hd
    · rename_i hi
      rw [hput]
      exact .cut hl hd (Option.filter_eq_some_iff.mp hi).1

end FileWork

/-! ## Reports -/

namespace Report

theorem fileName_textual (millis : Nat) :
    fileName .textual millis = "css_diff_report_" ++ toString millis ++ ".diff" := rfl

theorem fileName_structural (millis : Nat) :
    fileName .structural millis = "css_comparison_report_" ++ toString millis ++ ".txt" := rfl

/-- The name of a report stands for a file, and holds no slash. -/
theorem fileName_isName (strategy : Strategy) (millis : Nat) :
    FileTree.IsName (fileName strategy millis) ∧ '/' ∉ (fileName strategy millis).toList := by
  have hslash : '/' ∉ Nat.toDigits 10 millis := by
    intro h
    have hdigit := Nat.isDigit_of_mem_toDigits (by omega) (by omega) h
    contradiction
  have hmem : '_' ∈ (fileName strategy millis).toList := by
    cases strategy
    · simp [fileName_textual]
    · simp [fileName_structural]
  refine ⟨⟨?_, ?_, ?_⟩, ?_⟩
  · intro h
    simp [h] at hmem
  · intro h
    simp [h] at hmem
  · intro h
    simp [h] at hmem
  · cases strategy
    · simp [fileName_textual, hslash]
    · simp [fileName_structural, hslash]

/-- The last segment of the path of a name in a directory is the name. -/
theorem getLast?_segments_join (directory : String) (h : '/' ∉ name.toList) :
    (FileTree.segments (join directory name)).getLast? = some name := by
  have hlast (cs : List Char) : (FileTree.segments (String.ofList (cs ++ '/' :: name.toList))).getLast? =
      some name := by
    rw [FileTree.segments, String.toList_ofList, Text.partsAt_append_cons, Text.partsAt_of_not_mem h]
    simp
  rw [join]
  split
  · rename_i hd
    rcases (Bool.or_eq_true _ _).mp hd with hd | hd
    · obtain rfl : directory = "" := by simpa using hd
      rw [String.empty_append, FileTree.segments, Text.partsAt_of_not_mem h]
      simp
    · obtain ⟨cs, hcs⟩ := List.getLast?_eq_some_iff.mp (by simpa using hd)
      have hpath : directory ++ name = String.ofList (cs ++ '/' :: name.toList) := by
        rw [← String.toList_inj]
        simp [hcs]
      rw [hpath, hlast]
  · have hpath : directory ++ "/" ++ name = String.ofList (directory.toList ++ '/' :: name.toList) := by
      rw [← String.toList_inj]
      simp
    rw [hpath, hlast]

/-- How writing a text as a report may end, and what it leaves. -/
inductive Leaves (t : FileTree) (path text : String) : Except Failure String → FileTree → Prop
  /-- A directory cannot be made or the file not be opened; nothing but directories is made. -/
  | refused {cause : String} {t' : FileTree} (h : t.Grown t') :
      Leaves t path text (.error (.unwritable path cause)) t'
  | whole {s : FileTree} {place : Place} (h : t.Grown s) (hl : s.locate (.ofString path) = .ok place)
      (hd : s.entry? place ≠ some .directory) :
      Leaves t path text (.ok path) (s.put place (.file text.toUTF8))
  /-- The system breaks off, and the file holds as much as it took. -/
  | cut {s : FileTree} {place : Place} {n taken : Nat} {e : IoError} (h : t.Grown s)
      (hl : s.locate (.ofString path) = .ok place) (hd : s.entry? place ≠ some .directory)
      (hi : (t.system n).interruption? = some (taken, e)) :
      Leaves t path text (.error (.unwritable path e.text))
        (s.put place (.file (text.toUTF8.extract 0 taken)))

/-- Writing a report ends in one of these ways. -/
theorem leaves_write (directory : String) (result : Comparison) (millis : Int) (t : FileTree) :
    Leaves t (Report.path directory result.strategy millis) result.diff
      (write directory result millis t).1 (write directory result millis t).2 := by
  have hgrown := FileWork.grows_ensurePath directory t
  rw [write, work, FileWork.run_bind]
  generalize Report.path directory result.strategy millis = path
  generalize (FileWork.ensurePath directory).run t = made at hgrown
  obtain ⟨r, s⟩ := made
  cases r with
  | error e => exact .refused hgrown
  | ok u =>
    have hwrites := FileWork.writes_writeText path result.diff s
    dsimp only
    generalize (FileWork.writeText path result.diff).run s = written at hwrites
    obtain ⟨r, s'⟩ := written
    cases hwrites with
    | refused e n => exact .refused (hgrown.trans (s.grown_after n))
    | whole hl hd =>
      exact .whole (hgrown.trans (s.grown_after 2)) (by rwa [FileTree.locate_after]) hd
    | cut hl hd hi =>
      obtain ⟨n, hn⟩ := hgrown.answers
      refine .cut (n := 1 + n) (hgrown.trans (s.grown_after 2)) (by rwa [FileTree.locate_after]) hd ?_
      rw [← hi, hn]
      rfl

/-- A report that was written is the whole text of the comparison. -/
theorem holds_write {directory : String} {result : Comparison} {millis : Int}
    (h : write directory result millis t = (.ok path, t')) :
    path = Report.path directory result.strategy millis ∧ t'.Holds path result.diff := by
  have hleaves := leaves_write directory result millis t
  rw [h] at hleaves
  cases hleaves with
  | whole _ hl hd => exact ⟨rfl, FileTree.holds_put hl hd⟩

end Report

end SheetDiff
