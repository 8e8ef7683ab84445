import SheetDiff.Diff.Edit

/-!
# Shortest scripts

`script` finds a shortest script of edits by the divide-and-conquer method of Myers: it takes off
what both lists share at their ends, finds a point in the middle of a shortest path through the
edit graph, and goes on to both sides of it.

The middle point is where two searches meet, one from the start of the lists and one from their
end. After `d` edits a search has a `Reach` on each diagonal `d, d - 2, …, -d` of the edit graph,
and these make up its frontier, highest diagonal first.
-/

namespace SheetDiff.Diff

variable {α : Type} [DecidableEq α]

/-! ## Frontiers -/

/-- The last run of shared elements on a diagonal, by its first and last positions in the old
list. -/
structure Reach where
  start : Nat
  stop : Nat
  deriving DecidableEq, Repr, Inhabited

/-- The furthest positions on the diagonals after a number of edits. -/
abbrev Frontier := Array Reach

/-- The position in the new list on diagonal `k` that belongs to a position in the old list. -/
def onDiagonal (k : Int) (x : Nat) : Nat := (x - k).toNat

/-- The position on diagonal number `i` that the `d`th edit leads to: a deletion from the diagonal
below, or an insertion from the one above where that has come further. -/
def Frontier.step (previous : Frontier) (d i : Nat) : Nat :=
  let above := (previous.getD (i - 1) default).stop
  let below := (previous.getD i default).stop
  if i = d ∨ (i ≠ 0 ∧ below < above) then above else below + 1

/-- The frontier after one more edit. -/
def Frontier.next (old new : List α) (d : Nat) (previous : Frontier) : Frontier :=
  (Array.range (d + 1)).map fun i =>
    let x := previous.step d i
    let y := onDiagonal (d - 2 * i) x
    ⟨x, x + commonPrefix (old.drop x) (new.drop y)⟩

/-- The diagonals of a frontier with their reaches. -/
def Frontier.diagonals (f : Frontier) (d : Nat) : List (Int × Reach) :=
  (f.toList.zipIdx).map fun (r, i) => (d - 2 * i, r)

/-- The reach of a frontier on diagonal `k`. -/
def Frontier.reach (f : Frontier) (d : Nat) (k : Int) : Reach := f.getD ((d - k).toNat / 2) default

/-- The first diagonal, from the highest, on which the frontier after `d` edits meets the frontier
of the opposite search after `e` edits. -/
def Frontier.meeting? (f opposite : Frontier) (d : Nat) (e : Int) (n m : Nat) :
    Option (Int × Reach) :=
  (f.diagonals d).find? fun (k, r) =>
    let k' : Int := n - m - k
    k'.natAbs ≤ e && n ≤ r.stop + (opposite.reach e.toNat k').stop

/-! ## The middle of a path -/

/-- Searches from both ends with `d` edits and more, at most `fuel` more, when the frontiers after
one edit less are known. -/
def middleFrom (old new : List α) : Nat → Nat → Frontier → Frontier → Option (Nat × Nat)
  | 0, _, _, _ => none
  | fuel + 1, d, ahead, back =>
    let n := old.length
    let m := new.length
    let odd := (n + m) % 2 = 1
    let ahead' := ahead.next old new d
    match if odd then ahead'.meeting? back d (d - 1) n m else none with
    | some (k, r) => some (r.start, onDiagonal k r.start)
    | none =>
      let back' := back.next old.reverse new.reverse d
      match if odd then none else back'.meeting? ahead' d d n m with
      | some (k, r) => some (n - r.stop, m - onDiagonal k r.stop)
      | none => middleFrom old new fuel (d + 1) ahead' back'

/-- A point inside the edit graph on a shortest path through it. -/
def middle? (old new : List α) : Option (Nat × Nat) :=
  (middleFrom old new ((old.length + new.length + 1) / 2 + 1) 0 #[] #[]).filter fun (x, y) =>
    x ≤ old.length && y ≤ new.length && 0 < x + y && x + y < old.length + new.length

/-! ## Scripts -/

theorem middle?_bounds {old new : List α} {x y : Nat} (h : middle? old new = some (x, y)) :
    x ≤ old.length ∧ y ≤ new.length ∧ 0 < x + y ∧ x + y < old.length + new.length := by
  have := (Option.filter_eq_some_iff.1 h).2
  simpa [and_assoc] using this

/-- The script between two parts of longer lists, which start at `i` and `j`. -/
def scriptFrom (i j : Nat) (old new : List α) : List Edit :=
  let p := commonPrefix old new
  let s := commonSuffix (old.drop p) (new.drop p)
  let oldMid := slice old p (old.length - p - s)
  let newMid := slice new p (new.length - p - s)
  let inner :=
    if oldMid.isEmpty && newMid.isEmpty then []
    else if newMid.isEmpty then [⟨.delete, i + p, j + p, oldMid.length⟩]
    else if oldMid.isEmpty then [⟨.insert, i + p, j + p, newMid.length⟩]
    else match _h : middle? oldMid newMid with
      | some (x, y) =>
        scriptFrom (i + p) (j + p) (oldMid.take x) (newMid.take y)
          ++ scriptFrom (i + p + x) (j + p + y) (oldMid.drop x) (newMid.drop y)
      | none => [⟨.delete, i + p, j + p, oldMid.length⟩, ⟨.insert, i + p, j + p, newMid.length⟩]
  (if p = 0 then [] else [⟨.keep, i, j, p⟩]) ++ inner
    ++ if s = 0 then [] else [⟨.keep, i + old.length - s, j + new.length - s, s⟩]
termination_by old.length + new.length
decreasing_by
  all_goals
    have hb := middle?_bounds _h
    simp only [oldMid, newMid, slice, List.length_take, List.length_drop] at hb ⊢
    omega

/-- A shortest script that turns `old` into `new`. -/
def script (old new : List α) : List Edit := scriptFrom 0 0 old new

end SheetDiff.Diff
