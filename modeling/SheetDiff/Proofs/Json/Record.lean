import Mathlib.Algebra.GroupWithZero.Nat
import SheetDiff.Json.Basic

/-!
# Parts of records

A number within its bound is read again (`natBelow?_int`), and so is a list whose values are, whether
it may be left out or not (`list?_map`, `listOr_map`).
-/

namespace SheetDiff.Json

variable {α : Type} {write : α → Json} {read : Json → Option α} {xs : List α}

/-! ## Numbers -/

theorem natBelow?_int {bound n : Nat} (h : n < bound) : natBelow? bound (int n) = some n := by
  have hn : (0 : Int) ≤ n ∧ (n : Int) < bound := by omega
  rw [natBelow?, if_pos hn, Int.toNat_natCast]

theorem nat32?_int {n : Nat} (h : n < 2 ^ 32) : nat32? (int n) = some n := natBelow?_int h

theorem nat64?_int {n : Nat} (h : n < 2 ^ 64) : nat64? (int n) = some n := natBelow?_int h

@[simp]
theorem str?_str (s : String) : str? (str s) = some s := rfl

/-! ## Lists -/

theorem mapM_map (h : ∀ x ∈ xs, read (write x) = some x) : (xs.map write).mapM read = some xs := by
  induction xs with
  | nil => rfl
  | cons x xs ih =>
    rw [List.map_cons, List.mapM_cons, h x (by simp), ih fun y hy => h y (by simp [hy])]
    rfl

/-- An array of values that are read again. -/
theorem list?_map (h : ∀ x ∈ xs, read (write x) = some x) : (arr (xs.map write)).list? read = some xs :=
  mapM_map h

theorem listOr_map (h : ∀ x ∈ xs, read (write x) = some x) :
    listOr read (some (arr (xs.map write))) = some xs :=
  mapM_map h

end SheetDiff.Json
