/-!
# Edits

A script of edits turns one list into another. Each edit says where it stands in both lists and
how many elements it keeps, deletes or inserts. `Edit.oldPart` and `Edit.newPart` are the parts of
the two lists that an edit covers.
-/

namespace SheetDiff.Diff

/-- What an edit does to its elements. -/
inductive EditKind where
  | keep
  | delete
  | insert
  deriving DecidableEq, Repr, Inhabited

/-- An edit with its place in the old and in the new list. -/
structure Edit where
  kind : EditKind
  old : Nat
  new : Nat
  length : Nat
  deriving DecidableEq, Repr, Inhabited

variable {α : Type}

/-- The elements of a list from a position on. -/
def slice (xs : List α) (start length : Nat) : List α := (xs.drop start).take length

namespace Edit

/-- The number of elements taken from the old list. -/
def oldLength (e : Edit) : Nat := if e.kind = .insert then 0 else e.length

/-- The number of elements put into the new list. -/
def newLength (e : Edit) : Nat := if e.kind = .delete then 0 else e.length

def oldPart (e : Edit) (old : List α) : List α := slice old e.old e.oldLength

def newPart (e : Edit) (new : List α) : List α := slice new e.new e.newLength

/-- An edit that starts `n` elements later in both lists. -/
def later (e : Edit) (n : Nat) : Edit := { e with old := e.old + n, new := e.new + n }

/-- An edit that starts `n` elements earlier in both lists. -/
def earlier (e : Edit) (n : Nat) : Edit := { e with old := e.old - n, new := e.new - n }

/-- An edit of another length. -/
def resized (e : Edit) (length : Nat) : Edit := { e with length := length }

end Edit

/-! ## Common ends -/

variable [DecidableEq α]

/-- The number of elements that two lists share at their start. -/
def commonPrefix : List α → List α → Nat
  | x :: xs, y :: ys => if x = y then commonPrefix xs ys + 1 else 0
  | _, _ => 0

/-- The number of elements that two lists share at their end. -/
def commonSuffix (xs ys : List α) : Nat := commonPrefix xs.reverse ys.reverse

theorem commonPrefix_le_left (xs ys : List α) : commonPrefix xs ys ≤ xs.length := by
  fun_induction commonPrefix xs ys with
  | case1 xs y ys ih => simpa using ih
  | case2 => simp
  | case3 => simp

theorem commonPrefix_le_right (xs ys : List α) : commonPrefix xs ys ≤ ys.length := by
  fun_induction commonPrefix xs ys with
  | case1 xs y ys ih => simpa using ih
  | case2 => simp
  | case3 => simp

theorem take_commonPrefix (xs ys : List α) :
    xs.take (commonPrefix xs ys) = ys.take (commonPrefix xs ys) := by
  fun_induction commonPrefix xs ys with
  | case1 xs y ys ih => simpa using ih
  | case2 => simp
  | case3 => simp

end SheetDiff.Diff
