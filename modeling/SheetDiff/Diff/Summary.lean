/-!
# Summaries

A summary counts what was added, removed and modified. `RuleChange` is an entry of a comparison
rule by rule; its text starts with the word of its kind, from which the kind can be found again.
-/

namespace SheetDiff

/-- Counts of changes. Modified rules are counted by the structural strategy only. -/
structure Summary where
  added : Nat
  removed : Nat
  modified : Option Nat
  deriving DecidableEq, Repr, Inhabited

namespace Summary

/-- Whether nothing was added, removed or modified. -/
def isUnchanged (s : Summary) : Bool := s.added = 0 && s.removed = 0 && s.modified.getD 0 = 0

/-- Counts the lines of a patch that start with `+` and with `-`. -/
def ofPatchLines (lines : List String) : Summary :=
  ⟨lines.countP fun line => line.toList.head? = some '+',
    lines.countP fun line => line.toList.head? = some '-', none⟩

end Summary

/-! ## Changes of rules -/

/-- What happened to a rule. -/
inductive ChangeKind where
  | added
  | removed
  | modified
  deriving DecidableEq, Repr, Inhabited

namespace ChangeKind

/-- The word that starts the text of a change. -/
def word : ChangeKind → String
  | added => "Added"
  | removed => "Removed"
  | modified => "Modified"

/-- Whether a line is the text of a change of this kind. -/
def starts (kind : ChangeKind) (line : String) : Bool :=
  (kind.word ++ ":").toList.isPrefixOf line.toList

/-- The kind of change that a line tells of. -/
def ofLine? (line : String) : Option ChangeKind := [added, removed, modified].find? (·.starts line)

end ChangeKind

/-- A change of the rule at a position, with the label of that rule. -/
structure RuleChange where
  kind : ChangeKind
  label : String
  index : Nat
  deriving DecidableEq, Repr, Inhabited

def RuleChange.text (c : RuleChange) : String := c.kind.word ++ ": " ++ c.label

/-- Counts the texts of changes by their kinds. -/
def Summary.ofDetailLines (lines : List String) : Summary :=
  let count (kind : ChangeKind) := lines.countP (ChangeKind.ofLine? · = some kind)
  ⟨count .added, count .removed, some (count .modified)⟩

end SheetDiff
