import SheetDiff.Diff.Script
import SheetDiff.Proofs.Diff.Path

/-!
# Scripts lead from top to bottom

`script` turns the old list into the new one: its edits form a path from the start of both lists
to their end (`path_script`). The induction follows `scriptFrom`, which works on a part of each
list; what it takes off at both ends is kept, and the two halves around a middle point meet there.
-/

namespace SheetDiff.Diff

variable {α : Type} {old new : List α} {i j : Nat} {xs ys : List α}

/-! ## Pieces of a script -/

/-- A deletion of one part and an insertion of the other. -/
private theorem path_replaced (hx : IsPart old i xs) (hy : IsPart new j ys) (hxl : 0 < xs.length)
    (hyl : 0 < ys.length) :
    Path (Edit.Leads old new) ⟨i, j⟩ [⟨.delete, i, j, xs.length⟩, ⟨.insert, i, j, ys.length⟩]
      ⟨i + xs.length, j + ys.length⟩ := by
  have hxf := hx.fits
  have hyf := hy.fits
  exact path_pair.2 ⟨⟨i + xs.length, j⟩,
    leads_delete_iff.2 ⟨hxl, rfl, rfl, hxf, by simp only; omega⟩,
    leads_insert_iff.2 ⟨hyl, rfl, rfl, hxf, hyf⟩⟩

/-- The scripts on both sides of a point lead over it. -/
private theorem path_halves {x y : Nat} (hx : x ≤ xs.length) (hy : y ≤ ys.length) {es fs : List Edit}
    (he : Path (Edit.Leads old new) ⟨i, j⟩ es ⟨i + (xs.take x).length, j + (ys.take y).length⟩)
    (hf : Path (Edit.Leads old new) ⟨i + x, j + y⟩ fs
      ⟨i + x + (xs.drop x).length, j + y + (ys.drop y).length⟩) :
    Path (Edit.Leads old new) ⟨i, j⟩ (es ++ fs) ⟨i + xs.length, j + ys.length⟩ := by
  rw [List.length_take, List.length_take, Nat.min_eq_left hx, Nat.min_eq_left hy] at he
  rw [List.length_drop, List.length_drop,
    show i + x + (xs.length - x) = i + xs.length by omega,
    show j + y + (ys.length - y) = j + ys.length by omega] at hf
  exact path_append.2 ⟨_, he, hf⟩

variable [DecidableEq α]

/-! ## Common ends as slices -/

theorem slice_commonPrefix {old new : List α} {n : Nat} (hn : n = commonPrefix old new) :
    slice old 0 n = slice new 0 n := by
  simp only [slice, List.drop_zero, hn]
  exact take_commonPrefix old new

theorem commonSuffix_le_left (old new : List α) : commonSuffix old new ≤ old.length := by
  simpa [commonSuffix] using commonPrefix_le_left old.reverse new.reverse

theorem commonSuffix_le_right (old new : List α) : commonSuffix old new ≤ new.length := by
  simpa [commonSuffix] using commonPrefix_le_right old.reverse new.reverse

theorem slice_commonSuffix {old new : List α} {n : Nat} (hn : n = commonSuffix old new) :
    slice old (old.length - n) n = slice new (new.length - n) n := by
  have hl : n ≤ old.length := hn ▸ commonSuffix_le_left old new
  have hr : n ≤ new.length := hn ▸ commonSuffix_le_right old new
  have h := take_commonPrefix old.reverse new.reverse
  rw [show commonPrefix old.reverse new.reverse = n from hn.symm, List.take_reverse,
    List.take_reverse, List.reverse_inj] at h
  rw [slice, slice, List.take_of_length_le (by simp; omega), List.take_of_length_le (by simp; omega)]
  exact h

/-! ## The script -/

private theorem path_ahead (hx : IsPart old i xs) (hy : IsPart new j ys) {p : Nat}
    (hp : p = commonPrefix xs ys) :
    Path (Edit.Leads old new) ⟨i, j⟩ (if p = 0 then [] else [⟨.keep, i, j, p⟩]) ⟨i + p, j + p⟩ := by
  have hpx : p ≤ xs.length := hp ▸ commonPrefix_le_left xs ys
  have hpy : p ≤ ys.length := hp ▸ commonPrefix_le_right xs ys
  have hxf := hx.fits
  have hyf := hy.fits
  have hs := slice_commonPrefix hp
  rw [hx.slice_eq (by omega), hy.slice_eq (by omega)] at hs
  exact path_keeps (p := ⟨i, j⟩) (by simp only; omega) (by simp only; omega) hs

private theorem path_behind (hx : IsPart old i xs) (hy : IsPart new j ys) {s : Nat}
    (hs : s = commonSuffix xs ys) :
    Path (Edit.Leads old new) ⟨i + xs.length - s, j + ys.length - s⟩
      (if s = 0 then [] else [⟨.keep, i + xs.length - s, j + ys.length - s, s⟩])
      ⟨i + xs.length, j + ys.length⟩ := by
  have hsx : s ≤ xs.length := hs ▸ commonSuffix_le_left xs ys
  have hsy : s ≤ ys.length := hs ▸ commonSuffix_le_right xs ys
  have hxf := hx.fits
  have hyf := hy.fits
  have he := slice_commonSuffix hs
  rw [hx.slice_eq (by omega), hy.slice_eq (by omega), ← Nat.add_sub_assoc hsx,
    ← Nat.add_sub_assoc hsy] at he
  have h : Path (Edit.Leads old new) ⟨i + xs.length - s, j + ys.length - s⟩ _ _ :=
    path_keeps (n := s) (by simp only; omega) (by simp only; omega) he
  simpa only [show i + xs.length - s + s = i + xs.length by omega,
    show j + ys.length - s + s = j + ys.length by omega] using h

theorem path_scriptFrom (hx : IsPart old i xs) (hy : IsPart new j ys) :
    Path (Edit.Leads old new) ⟨i, j⟩ (scriptFrom i j xs ys) ⟨i + xs.length, j + ys.length⟩ := by
  induction hn : xs.length + ys.length using Nat.strongRecOn generalizing i j xs ys with
  | ind size ih =>
    have hxf := hx.fits
    have hyf := hy.fits
    rw [scriptFrom]
    set p := commonPrefix xs ys with hp
    set s := commonSuffix (xs.drop p) (ys.drop p) with hs
    have hpx : p ≤ xs.length := commonPrefix_le_left xs ys
    have hpy : p ≤ ys.length := commonPrefix_le_right xs ys
    have hsx : s ≤ xs.length - p := by simpa using commonSuffix_le_left (xs.drop p) (ys.drop p)
    have hsy : s ≤ ys.length - p := by simpa using commonSuffix_le_right (xs.drop p) (ys.drop p)
    set xm := slice xs p (xs.length - p - s) with hxm
    set ym := slice ys p (ys.length - p - s) with hym
    have hxl : xm.length = xs.length - p - s := length_slice (by omega)
    have hyl : ym.length = ys.length - p - s := length_slice (by omega)
    have hxp : IsPart old (i + p) xm := hx.slice (by omega)
    have hyp : IsPart new (j + p) ym := hy.slice (by omega)
    refine path_append.2 ⟨⟨i + p + xm.length, j + p + ym.length⟩,
      path_append.2 ⟨⟨i + p, j + p⟩, path_ahead hx hy hp, ?inner⟩, ?behind⟩
    case behind =>
      have h := path_behind (hx.drop hpx) (hy.drop hpy) hs
      rw [List.length_drop, List.length_drop,
        show i + p + (xs.length - p) = i + xs.length by omega,
        show j + p + (ys.length - p) = j + ys.length by omega] at h
      rwa [show i + p + xm.length = i + xs.length - s by omega,
        show j + p + ym.length = j + ys.length - s by omega]
    case inner =>
      have hxe : xm.isEmpty = true ↔ xm.length = 0 := by simp
      have hye : ym.isEmpty = true ↔ ym.length = 0 := by simp
      have hxpf := hxp.fits
      have hypf := hyp.fits
      simp only [Bool.and_eq_true, hxe, hye]
      split
      · rename_i h
        simp [Path, h.1, h.2]
      · split
        · rename_i h hy0
          rw [path_singleton, hy0]
          exact leads_delete_iff.2 ⟨by omega, rfl, rfl, hxpf, by simp only; omega⟩
        · split
          · rename_i h hy0 hx0
            rw [path_singleton, hx0]
            exact leads_insert_iff.2 ⟨by omega, rfl, rfl, by simp only; omega, hypf⟩
          · split
            · rename_i h hy0 hx0 x y hm
              have hb := middle?_bounds hm
              exact path_halves hb.1 hb.2.1
                (ih (x + y) (by omega) (hxp.take hb.1) (hyp.take hb.2.1) (by simp; omega))
                (ih (xm.length - x + (ym.length - y)) (by omega) (hxp.drop hb.1) (hyp.drop hb.2.1)
                  (by simp))
            · exact path_replaced hxp hyp (by omega) (by omega)

theorem path_script (old new : List α) :
    Path (Edit.Leads old new) .top (script old new) (.bottom old new) := by
  have h := path_scriptFrom (.whole old) (.whole new)
  rwa [Nat.zero_add, Nat.zero_add] at h

/-- The script of two lists that differ in `o` and `n` between their shared ends, where a middle
point is found. -/
theorem scriptFrom_middle (i j : Nat) {old new o n : List α} {p s x y : Nat}
    (hp : commonPrefix old new = p) (hs : commonSuffix (old.drop p) (new.drop p) = s)
    (ho : slice old p (old.length - p - s) = o) (hn : slice new p (new.length - p - s) = n)
    (hne : o ≠ [] ∧ n ≠ []) (h : middle? o n = some (x, y)) :
    scriptFrom i j old new = (if p = 0 then [] else [⟨.keep, i, j, p⟩]) ++
      (scriptFrom (i + p) (j + p) (o.take x) (n.take y) ++
        scriptFrom (i + p + x) (j + p + y) (o.drop x) (n.drop y)) ++
      (if s = 0 then [] else [⟨.keep, i + old.length - s, j + new.length - s, s⟩]) := by
  subst hp hs ho hn
  have ho := List.isEmpty_eq_false_iff.2 hne.1
  have hn := List.isEmpty_eq_false_iff.2 hne.2
  rw [scriptFrom]
  simp only [ho, hn, Bool.and_self, Bool.false_eq_true, if_false]
  congr 2
  split
  · rename_i x' y' h'
    obtain ⟨rfl, rfl⟩ : x' = x ∧ y' = y := by simpa using h'.symm.trans h
    rfl
  · rename_i h'
    exact absurd (h'.symm.trans h) (by simp)

end SheetDiff.Diff
