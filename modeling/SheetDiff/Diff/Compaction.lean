import SheetDiff.Diff.Edit

/-!
# Compaction

A script says nothing about which of several equal elements is the inserted one. Compaction moves
each insertion up as far as the kept elements before it allow and then down again as far as
possible, and on its way joins it with other insertions. Deletions are only swapped with
insertions and joined with each other.

An edit on its way is a `Cursor`: the edits before it in reverse, the edit, and the edits after it.
An edit that is swapped keeps the places it was given in both lists.
-/

namespace SheetDiff.Diff

variable {α : Type} [DecidableEq α]

/-- An edit between the edits before it, nearest first, and the edits after it. -/
structure Cursor where
  before : List Edit
  edit : Edit
  after : List Edit
  deriving Inhabited

/-- Adds `n` kept elements that end at the given places before a list of edits. -/
def keepBefore (n oldEnd newEnd : Nat) : List Edit → List Edit
  | e :: es =>
    if e.kind = .keep then (e.earlier n).resized (e.length + n) :: es
    else ⟨.keep, oldEnd - n, newEnd - n, n⟩ :: e :: es
  | [] => [⟨.keep, oldEnd - n, newEnd - n, n⟩]

/-- Adds `n` kept elements that start at the given places to the edits before, nearest first. -/
def keepAfter (n old new : Nat) : List Edit → List Edit
  | e :: es =>
    if e.kind = .keep then e.resized (e.length + n) :: es
    else ⟨.keep, old, new, n⟩ :: e :: es
  | [] => [⟨.keep, old, new, n⟩]

/-- How much of a list of edits is left to move over. -/
def extent (es : List Edit) : Nat := (es.map fun e => e.length + 1).foldr (· + ·) 0

/-- Moves an edit up: over kept elements that also end it, over edits of the other kind, and into
an edit of its own kind. -/
def Cursor.up (old new : List α) (before : List Edit) (edit : Edit) (after : List Edit) : Cursor :=
  match before with
  | [] => ⟨[], edit, after⟩
  | e :: es =>
    if e.kind = edit.kind then up old new es (e.resized (e.length + edit.length)) after
    else if e.kind = .keep then
      let n := commonSuffix (e.oldPart old) (edit.newPart new)
      if 0 < n then
        let after := keepBefore n (e.old + e.length) (edit.new + edit.length) after
        if e.length ≤ n then up old new es (edit.earlier n) after
        else up old new (e.resized (e.length - n) :: es) (edit.earlier n) after
      else if e.length = 0 then up old new es edit after
      else ⟨e :: es, edit, after⟩
    else up old new es edit (e :: after)
termination_by extent before
decreasing_by all_goals simp [extent, Edit.resized]; try omega

/-- Moves an edit down, in the same way. -/
def Cursor.down (old new : List α) (before : List Edit) (edit : Edit) (after : List Edit) :
    Cursor :=
  match after with
  | [] => ⟨before, edit, []⟩
  | e :: es =>
    if e.kind = edit.kind then down old new before (edit.resized (edit.length + e.length)) es
    else if e.kind = .keep then
      let n := commonPrefix (e.oldPart old) (edit.newPart new)
      if 0 < n then
        let before := keepAfter n e.old edit.new before
        if e.length ≤ n then down old new before (edit.later n) es
        else down old new before (edit.later n) ((e.later n).resized (e.length - n) :: es)
      else if e.length = 0 then down old new before edit es
      else ⟨before, edit, e :: es⟩
    else down old new (e :: before) edit es
termination_by extent after
decreasing_by all_goals simp [extent, Edit.resized]; try omega

/-- Moves the edits of one kind, from the first to the last. The fuel counts edits looked at. -/
def settleFrom (old new : List α) (kind : EditKind) :
    Nat → List Edit → List Edit → List Edit
  | fuel + 1, before, e :: es =>
    if e.kind = kind then
      let raised := Cursor.up old new before e es
      let settled := Cursor.down old new raised.before raised.edit raised.after
      settleFrom old new kind fuel (settled.edit :: settled.before) settled.after
    else settleFrom old new kind fuel (e :: before) es
  | _, before, es => before.reverse ++ es

/-- Moves the edits of one kind. Joining two edits can bring back at most all edits between them,
so the square of their number bounds the edits looked at. -/
def settle (old new : List α) (kind : EditKind) (es : List Edit) : List Edit :=
  settleFrom old new kind ((es.length + 1) * (es.length + 1)) [] es

/-- Moves the deletions of a script and then its insertions. -/
def compact (old new : List α) (es : List Edit) : List Edit :=
  settle old new .insert (settle old new .delete es)

end SheetDiff.Diff
