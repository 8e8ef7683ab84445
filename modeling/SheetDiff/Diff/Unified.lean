import SheetDiff.Diff.Compaction
import SheetDiff.Diff.Script
import SheetDiff.Diff.Section
import SheetDiff.Diff.Summary
import SheetDiff.Text.Lines

/-!
# Unified diffs

A unified diff shows the changed lines of a text in hunks, each with some unchanged lines around
them and a header that says where it stands in both texts.

`unifiedDiff` compares two texts line by line, terminators included. `UnifiedDiff.text` writes a
diff with the names of both texts above its hunks.
-/

namespace SheetDiff

/-! ## Hunks -/

/-- Where a hunk stands in both texts, by the number of lines before it. -/
structure HunkRange where
  oldStart : Nat
  oldLines : Nat
  newStart : Nat
  newLines : Nat
  deriving DecidableEq, Repr, Inhabited

/-- The place of one side of a hunk: the number of its first line, or of the line before it if it
has none, and the number of lines unless that is one. -/
def HunkRange.sideText (start lines : Nat) : String :=
  if lines = 0 then toString start ++ ",0"
  else if lines = 1 then toString (start + 1)
  else toString (start + 1) ++ "," ++ toString lines

def HunkRange.text (r : HunkRange) : String :=
  "@@ -" ++ sideText r.oldStart r.oldLines ++ " +" ++ sideText r.newStart r.newLines ++ " @@"

/-- The part a line plays in a hunk. -/
inductive LineKind where
  | context
  | addition
  | deletion
  deriving DecidableEq, Repr, Inhabited

/-- The mark before a line of a hunk. -/
def LineKind.mark : LineKind → Char
  | context => ' '
  | addition => '+'
  | deletion => '-'

/-- A line of a hunk without its terminator. -/
structure HunkLine where
  kind : LineKind
  content : String
  deriving DecidableEq, Repr, Inhabited

def HunkLine.text (l : HunkLine) : String := l.kind.mark.toString ++ l.content

structure Hunk where
  header : HunkRange
  lines : List HunkLine
  deriving DecidableEq, Repr, Inhabited

/-- The lines of a hunk as they are written. -/
def Hunk.texts (h : Hunk) : List String := h.header.text :: h.lines.map HunkLine.text

/-- The hunks between two named texts. -/
structure UnifiedDiff where
  oldLabel : String
  newLabel : String
  hunks : List Hunk
  deriving DecidableEq, Repr, Inhabited

namespace UnifiedDiff

/-- The written lines of all hunks. -/
def body (d : UnifiedDiff) : List String := d.hunks.flatMap Hunk.texts

def summary (d : UnifiedDiff) : Summary := .ofPatchLines d.body

def isEmpty (d : UnifiedDiff) : Bool := d.hunks.isEmpty

/-- The whole text of a diff. -/
def text (d : UnifiedDiff) : String :=
  String.join ((("--- " ++ d.oldLabel) :: ("+++ " ++ d.newLabel) :: d.body).map (· ++ "\n"))

end UnifiedDiff

/-! ## Comparing two texts -/

/-- The largest number in a hunk header. -/
def HunkRange.limit : Nat := 0xffffffff

/-- The place of a group, from the start of its first section to the end of its last. -/
def HunkRange.ofSections (first last : Diff.Section) : HunkRange :=
  let capped (n : Nat) : Nat := min n limit
  ⟨capped first.old.start, capped (last.old.stop - first.old.start),
    capped first.new.start, capped (last.new.stop - first.new.start)⟩

/-- The lines of a section: kept lines once, changed lines with the deleted ones first. -/
def sectionLines (old new : List String) (s : Diff.Section) : List HunkLine :=
  let part (kind : LineKind) (lines : List String) (span : Diff.Span) : List HunkLine :=
    (Diff.slice lines span.start span.length).map fun line => ⟨kind, Text.bareLine line⟩
  if s.changed then part .deletion old s.old ++ part .addition new s.new
  else part .context old s.old

/-- The hunk of a group of sections. -/
def Hunk.ofGroup? (old new : List String) (group : List Diff.Section) : Option Hunk := do
  let first ← group.head?
  let last ← group.getLast?
  some ⟨.ofSections first last, group.flatMap (sectionLines old new)⟩

/-- The lines of a text with their terminators. They join to the text (`join_textLines`), and each holds
LF, CRLF or a single CR at its end and nowhere else; only the last one may lack it. -/
def textLines (text : String) : List String := (Text.terminatedLines text.toList).map String.ofList

theorem join_textLines (text : String) : String.join (textLines text) = text := by
  rw [← String.toList_inj, String.toList_join, textLines, List.flatMap_map]
  simpa [List.flatMap_id'] using Text.flatten_terminatedLines text.toList

/-- The sections between two lists of lines. -/
def lineSections (old new : List String) : List Diff.Section :=
  Diff.sections (Diff.compact old new (Diff.script old new))

/-- Compares two texts; `context` unchanged lines are shown around each change. -/
def unifiedDiff (old new oldLabel newLabel : String) (context : Nat) : UnifiedDiff :=
  let oldLines := textLines old
  let newLines := textLines new
  let groups := Diff.groups context (lineSections oldLines newLines)
  ⟨oldLabel, newLabel, groups.filterMap (Hunk.ofGroup? oldLines newLines)⟩

end SheetDiff
