import SheetDiff.Diff.Edit

/-!
# Sections

`sections` joins a script into sections that are kept and sections that are changed, in turn.
`groups` gathers the changed sections with at most `n` kept elements around them; where more than
`2 * n` elements are kept between two changes a new group starts.
-/

namespace SheetDiff.Diff

/-- A range of positions in a list. -/
structure Span where
  start : Nat
  length : Nat
  deriving DecidableEq, Repr, Inhabited

def Span.stop (s : Span) : Nat := s.start + s.length

/-- A part of the old list and the part of the new list that stands for it. -/
structure Section where
  changed : Bool
  old : Span
  new : Span
  deriving DecidableEq, Repr, Inhabited

/-! ## From a script -/

/-- The number of elements in several edits. -/
def totalLength (es : List Edit) : Nat := (es.map (·.length)).foldr (· + ·) 0

/-- The section of edits that all change something. Its places are those of the first deletion and
of the first insertion. -/
def changedSection (es : List Edit) : Option Section :=
  let deleted := es.filter (·.kind = .delete)
  let inserted := es.filter (·.kind = .insert)
  match deleted, inserted with
  | [], [] => none
  | d :: _, [] => some ⟨true, ⟨d.old, totalLength deleted⟩, ⟨d.new, 0⟩⟩
  | [], i :: _ => some ⟨true, ⟨i.old, 0⟩, ⟨i.new, totalLength inserted⟩⟩
  | d :: _, i :: _ =>
    some ⟨true, ⟨d.old, totalLength deleted⟩, ⟨i.new, totalLength inserted⟩⟩

/-- The section of a run of edits that all keep or all change elements. -/
def runSection? : List Edit → Option Section
  | [] => none
  | e :: es =>
    if e.kind = .keep then
      some ⟨false, ⟨e.old, totalLength (e :: es)⟩, ⟨e.new, totalLength (e :: es)⟩⟩
    else changedSection (e :: es)

/-- The sections of a script. -/
def sections (es : List Edit) : List Section :=
  (es.splitBy fun d e => (d.kind = .keep) = (e.kind = .keep)).filterMap runSection?

/-! ## Groups -/

namespace Section

/-- The first `n` elements of a kept section. -/
def firstPart (n : Nat) (s : Section) : Section :=
  let k := min n s.old.length
  { s with old := ⟨s.old.start, k⟩, new := ⟨s.new.start, k⟩ }

/-- The last `n` elements of a kept section. -/
def lastPart (n : Nat) (s : Section) : Section :=
  let k := min n s.old.length
  let d := s.old.length - k
  { s with old := ⟨s.old.start + d, k⟩, new := ⟨s.new.start + d, k⟩ }

/-- Applies a function to a section that is kept. -/
def onKept (f : Section → Section) (s : Section) : Section := if s.changed then s else f s

end Section

/-- Cuts the kept sections at both ends of a list of sections to `n` elements. -/
def trimEnds (n : Nat) (ss : List Section) : List Section :=
  let ss := ss.modifyHead (·.onKept (·.lastPart n))
  ss.modify (ss.length - 1) (·.onKept (·.firstPart n))

/-- Cuts sections into groups wherever more than `2 * n` elements are kept. -/
def cutGroups (n : Nat) : List Section → List (List Section)
  | [] => [[]]
  | s :: ss =>
    if !s.changed && 2 * n < s.old.length then
      [s.firstPart n] :: (cutGroups n ss).modifyHead (s.lastPart n :: ·)
    else (cutGroups n ss).modifyHead (s :: ·)

/-- The groups of sections that hold a change. -/
def groups (n : Nat) (ss : List Section) : List (List Section) :=
  (cutGroups n (trimEnds n ss)).filter (·.any (·.changed))

end SheetDiff.Diff
