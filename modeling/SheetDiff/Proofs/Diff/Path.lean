import Mathlib.Data.List.SplitBy
import SheetDiff.Diff.Edit

/-!
# Paths through two lists

A place is a position in the old list with a position in the new one. The pieces of a diff (edits,
sections, groups, hunks) each lead from one place to another, and a list of them is a `Path` if
each starts where the one before it ends. `Edit.Leads` says when an edit leads from a place to
another: it takes its elements where the old list stands and puts its elements where the new list
stands. What an edit records for the list that it leaves alone may be anything.
-/

namespace SheetDiff.Diff

/-- A position in the old list and one in the new list. -/
structure Place where
  old : Nat
  new : Nat
  deriving DecidableEq, Repr

/-- The start of both lists. -/
def Place.top : Place := ⟨0, 0⟩

/-- The end of both lists. -/
def Place.bottom {α : Type} (old new : List α) : Place := ⟨old.length, new.length⟩

/-! ## Paths -/

/-- A list of pieces, each of which starts where the one before it ends. -/
def Path {β : Type} (leads : β → Place → Place → Prop) : Place → List β → Place → Prop
  | p, [], q => p = q
  | p, x :: xs, r => ∃ q, leads x p q ∧ Path leads q xs r

section Path

variable {β : Type} {leads : β → Place → Place → Prop}

theorem path_append {p r : Place} {xs ys : List β} :
    Path leads p (xs ++ ys) r ↔ ∃ q, Path leads p xs q ∧ Path leads q ys r := by
  induction xs generalizing p with
  | nil => simp [Path]
  | cons x xs ih =>
    simp only [List.cons_append, Path, ih]
    constructor
    · rintro ⟨q, hx, s, hxs, hys⟩
      exact ⟨s, ⟨q, hx, hxs⟩, hys⟩
    · rintro ⟨s, ⟨q, hx, hxs⟩, hys⟩
      exact ⟨q, hx, s, hxs, hys⟩

theorem path_singleton {p q : Place} {x : β} : Path leads p [x] q ↔ leads x p q := by
  simp [Path]

theorem path_pair {p r : Place} {x y : β} :
    Path leads p [x, y] r ↔ ∃ q, leads x p q ∧ leads y q r := by
  simp [Path]

theorem Path.leads_of_mem {p q : Place} {xs : List β} (h : Path leads p xs q) {x : β} (hx : x ∈ xs) :
    ∃ a b, leads x a b := by
  induction xs generalizing p with
  | nil => simp at hx
  | cons y ys ih =>
    obtain ⟨a, hy, hys⟩ := h
    rcases List.mem_cons.1 hx with rfl | hx
    · exact ⟨p, a, hy⟩
    · exact ih hys hx

theorem Path.mono {leads' : β → Place → Place → Prop} {p q : Place} {xs : List β}
    (h : Path leads p xs q) (hl : ∀ x a b, leads x a b → leads' x a b) : Path leads' p xs q := by
  induction xs generalizing p with
  | nil => exact h
  | cons x xs ih =>
    obtain ⟨a, hx, hxs⟩ := h
    exact ⟨a, hl x p a hx, ih hxs⟩

/-- A middle part of a path may be replaced by one with the same ends. -/
theorem Path.replace {p r : Place} {xs ys zs ys' : List β} (h : Path leads p (xs ++ (ys ++ zs)) r)
    (hr : ∀ a b, Path leads a ys b → Path leads a ys' b) :
    Path leads p (xs ++ (ys' ++ zs)) r := by
  obtain ⟨a, hxs, h⟩ := path_append.1 h
  obtain ⟨b, hys, hzs⟩ := path_append.1 h
  exact path_append.2 ⟨a, hxs, path_append.2 ⟨b, hr a b hys, hzs⟩⟩

end Path

/-! ## Slices -/

section Slice

variable {α : Type}

theorem length_slice {xs : List α} {a n : Nat} (h : a + n ≤ xs.length) :
    (slice xs a n).length = n := by
  simp only [slice, List.length_take, List.length_drop]
  omega

theorem slice_slice (xs : List α) (a : Nat) {m b n : Nat} (h : b + n ≤ m) :
    slice (slice xs a m) b n = slice xs (a + b) n := by
  simp only [slice, List.drop_take, List.take_take, List.drop_drop]
  rw [Nat.min_eq_left (by omega)]

/-- Equal slices have equal slices. -/
theorem slice_eq_slice {xs ys : List α} {i j m : Nat} (h : slice xs i m = slice ys j m) (b : Nat)
    {n : Nat} (hn : b + n ≤ m) : slice xs (i + b) n = slice ys (j + b) n := by
  rw [← slice_slice xs i hn, ← slice_slice ys j hn, h]

theorem slice_add (xs : List α) (a m n : Nat) :
    slice xs a (m + n) = slice xs a m ++ slice xs (a + m) n := by
  simp only [slice, List.take_add, List.drop_drop]

theorem slice_zero (xs : List α) (a : Nat) : slice xs a 0 = [] := by
  simp [slice]

theorem slice_all (xs : List α) : slice xs 0 xs.length = xs := by
  simp [slice]

/-- `part` is the part of `xs` that starts at `a`. -/
structure IsPart (xs : List α) (a : Nat) (part : List α) : Prop where
  fits : a + part.length ≤ xs.length
  eq : slice xs a part.length = part

theorem IsPart.whole (xs : List α) : IsPart xs 0 xs := ⟨by omega, slice_all xs⟩

/-- A slice of a part lies as far behind the start of the part. -/
theorem IsPart.slice_eq {xs part : List α} {a b n : Nat} (h : IsPart xs a part)
    (hn : b + n ≤ part.length) : slice part b n = slice xs (a + b) n := by
  conv_lhs => rw [← h.eq]
  exact slice_slice xs a hn

theorem IsPart.slice {xs part : List α} {a b n : Nat} (h : IsPart xs a part)
    (hn : b + n ≤ part.length) : IsPart xs (a + b) (slice part b n) := by
  have hl := length_slice hn
  have hf := h.fits
  exact ⟨by omega, by rw [hl, h.slice_eq hn]⟩

theorem IsPart.take {xs part : List α} {a x : Nat} (h : IsPart xs a part) (hx : x ≤ part.length) :
    IsPart xs a (part.take x) := by
  have hs := h.slice (b := 0) (n := x) (by omega)
  simpa [Diff.slice] using hs

theorem IsPart.drop {xs part : List α} {a x : Nat} (h : IsPart xs a part) (hx : x ≤ part.length) :
    IsPart xs (a + x) (part.drop x) := by
  have hs := h.slice (b := x) (n := part.length - x) (by omega)
  rwa [Diff.slice, List.take_of_length_le (by simp)] at hs

end Slice

/-! ## Edits -/

/-- An edit that leads from one place of two lists to another. -/
structure Edit.Leads {α : Type} (old new : List α) (e : Edit) (p q : Place) : Prop where
  pos : 0 < e.length
  old_end : q.old = p.old + e.oldLength
  new_end : q.new = p.new + e.newLength
  old_le : q.old ≤ old.length
  new_le : q.new ≤ new.length
  old_place : e.kind ≠ .insert → e.old = p.old
  new_place : e.kind ≠ .delete → e.new = p.new
  same : e.kind = .keep → slice old p.old e.length = slice new p.new e.length

section Edit

variable {α : Type} {old new : List α} {i j n : Nat} {p q : Place}

theorem leads_keep_iff : Edit.Leads old new ⟨.keep, i, j, n⟩ p q ↔
    0 < n ∧ i = p.old ∧ j = p.new ∧ q = ⟨p.old + n, p.new + n⟩ ∧ p.old + n ≤ old.length ∧
      p.new + n ≤ new.length ∧ slice old p.old n = slice new p.new n := by
  constructor
  · rintro ⟨hn, ho, hw, hol, hwl, hop, hwp, hs⟩
    simp only [Edit.oldLength, Edit.newLength, reduceCtorEq, if_false] at ho hw
    exact ⟨hn, hop (by simp), hwp (by simp), by rw [← ho, ← hw], by omega, by omega, hs rfl⟩
  · rintro ⟨hn, rfl, rfl, rfl, hol, hwl, hs⟩
    exact ⟨hn, rfl, rfl, hol, hwl, fun _ => rfl, fun _ => rfl, fun _ => hs⟩

theorem leads_delete_iff : Edit.Leads old new ⟨.delete, i, j, n⟩ p q ↔
    0 < n ∧ i = p.old ∧ q = ⟨p.old + n, p.new⟩ ∧ p.old + n ≤ old.length ∧
      p.new ≤ new.length := by
  constructor
  · rintro ⟨hn, ho, hw, hol, hwl, hop, -, -⟩
    simp only [Edit.oldLength, Edit.newLength, reduceCtorEq, if_false, if_true] at ho hw
    exact ⟨hn, hop (by simp), by rw [← ho, show p.new = q.new from hw.symm], by omega, by omega⟩
  · rintro ⟨hn, rfl, rfl, hol, hwl⟩
    exact ⟨hn, rfl, rfl, hol, hwl, fun _ => rfl, fun h => absurd rfl h, fun h => nomatch h⟩

theorem leads_insert_iff : Edit.Leads old new ⟨.insert, i, j, n⟩ p q ↔
    0 < n ∧ j = p.new ∧ q = ⟨p.old, p.new + n⟩ ∧ p.old ≤ old.length ∧
      p.new + n ≤ new.length := by
  constructor
  · rintro ⟨hn, ho, hw, hol, hwl, -, hwp, -⟩
    simp only [Edit.oldLength, Edit.newLength, reduceCtorEq, if_false, if_true] at ho hw
    exact ⟨hn, hwp (by simp), by rw [← hw, show p.old = q.old from ho.symm], by omega, by omega⟩
  · rintro ⟨hn, rfl, rfl, hol, hwl⟩
    exact ⟨hn, rfl, rfl, hol, hwl, fun h => absurd rfl h, fun _ => rfl, fun h => nomatch h⟩

/-- Kept elements, if there are any, as a path. -/
theorem path_keeps (ho : p.old + n ≤ old.length) (hw : p.new + n ≤ new.length)
    (hs : slice old p.old n = slice new p.new n) :
    Path (Edit.Leads old new) p (if n = 0 then [] else [⟨.keep, p.old, p.new, n⟩])
      ⟨p.old + n, p.new + n⟩ := by
  split
  · subst n
    rfl
  · exact path_singleton.2 (leads_keep_iff.2 ⟨by omega, rfl, rfl, rfl, ho, hw, hs⟩)

end Edit

end SheetDiff.Diff
