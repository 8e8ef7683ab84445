import SheetDiff.Diff.Script
import SheetDiff.Proofs.Diff.Common

/-!
# Frontiers reach as far as possible

After `d` edits, of which `i` are insertions, a path stands on diagonal number `i`. A frontier holds
the furthest point of each diagonal that `d` edits lead to (`isFrontier_zero`, `isFrontier_next`).
Where the frontiers from both ends of the lists overlap on a diagonal, the two numbers of edits are
enough for a whole path (`IsFrontier.overlap`); if no shorter path exists, the point that the search
returns lies in both lists and on such a path (`Meet.start`, `Meet.stop`). Two frontiers overlap at
the latest when their edits add up to those of a shortest path (`exists_meet`).
-/

namespace SheetDiff.Diff

variable {α : Type} [DecidableEq α] {old new : List α} {d e i j : Nat} {r t : Reach} {f g : Frontier}

/-- Behind their common prefix two lists do not go on with the same element. -/
theorem commonPrefix_maximal (xs ys : List α) {a b : α} (ha : xs[commonPrefix xs ys]? = some a)
    (hb : ys[commonPrefix xs ys]? = some b) : a ≠ b := by
  induction xs generalizing ys with
  | nil => simp at ha
  | cons x xs ih =>
    cases ys with
    | nil => simp at hb
    | cons y ys =>
      unfold commonPrefix at ha hb
      split at ha
      · rename_i hxy
        rw [if_pos hxy] at hb
        exact ih ys (by simpa using ha) (by simpa using hb)
      · rename_i hxy
        rw [if_neg hxy] at hb
        obtain rfl : x = a := by simpa using ha
        obtain rfl : y = b := by simpa using hb
        exact hxy

/-- A run of shared elements may be kept. -/
theorem Within.keeps {x y n : Nat} (h : Within old new d x y)
    (hn : n ≤ commonPrefix (old.drop x) (new.drop y)) : Within old new d (x + n) (y + n) := by
  induction n with
  | zero => exact h
  | succ n ih =>
    have hlt : n < commonPrefix (old.drop x) (new.drop y) := hn
    have hs := take_commonPrefix (old.drop x) (new.drop y)
    have hl := commonPrefix_le_left (old.drop x) (new.drop y)
    have hget := congrArg (·[n]?) hs
    simp only [List.getElem?_take_of_lt hlt, List.getElem?_drop] at hget
    rw [List.length_drop] at hl
    have hx : x + n < old.length := by omega
    have ho : old[x + n]? = some old[x + n] := List.getElem?_eq_getElem hx
    exact (ih (Nat.le_of_lt hlt)).keep ho (hget.symm.trans ho)

/-! ## The furthest point of a diagonal -/

/-- A run of shared elements that starts within `d` edits and ends at the furthest point within `d`
edits on diagonal number `i`, where `x` belongs to `x + 2 * i - d`. -/
structure Furthest (old new : List α) (d i : Nat) (r : Reach) : Prop where
  on : d ≤ r.start + 2 * i
  within : Within old new d r.start (r.start + 2 * i - d)
  stop : r.stop = r.start + commonPrefix (old.drop r.start) (new.drop (r.start + 2 * i - d))
  furthest : ∀ x y, y + d = x + 2 * i → Within old new d x y → x ≤ r.stop

theorem Furthest.le (h : Furthest old new d i r) : r.start ≤ r.stop := by
  rw [h.stop]
  exact Nat.le_add_right _ _

/-- The end of the run is within as many edits. -/
theorem Furthest.within_stop (h : Furthest old new d i r) :
    Within old new d r.stop (r.stop + 2 * i - d) := by
  have hk := h.within.keeps (n := r.stop - r.start) (by have := h.stop; omega)
  have hon := h.on
  have hle := h.le
  rwa [show r.start + (r.stop - r.start) = r.stop by omega,
    show r.start + 2 * i - d + (r.stop - r.start) = r.stop + 2 * i - d by omega] at hk

/-- A point that no edit to its diagonal can lead beyond is the start of the last run on it. -/
private theorem furthest_of_step {x₀ : Nat} (hon : d ≤ x₀ + 2 * i)
    (hw : Within old new d x₀ (x₀ + 2 * i - d))
    (hfar : ∀ x y, y + d = x + 2 * i → Within old new d x y → x ≤ x₀ ∨
      ∃ w z a, x = w + 1 ∧ y = z + 1 ∧ old[w]? = some a ∧ new[z]? = some a ∧
        Within old new d w z) :
    Furthest old new d i
      ⟨x₀, x₀ + commonPrefix (old.drop x₀) (new.drop (x₀ + 2 * i - d))⟩ := by
  refine ⟨hon, hw, rfl, fun x => ?_⟩
  set c := commonPrefix (old.drop x₀) (new.drop (x₀ + 2 * i - d)) with hc
  induction x with
  | zero => exact fun _ _ _ => Nat.zero_le _
  | succ x ih =>
    intro y hy hxy
    rcases hfar (x + 1) y hy hxy with hle | ⟨w, z, a, hx, rfl, ha, hb, hwz⟩
    · exact Nat.le_trans hle (Nat.le_add_right _ _)
    · obtain rfl : x = w := by omega
      have hle := ih z (by omega) hwz
      simp only at hle ⊢
      rcases Nat.lt_or_eq_of_le hle with hlt | rfl
      · exact hlt
      · -- the run ends where the lists differ
        have ha' : (old.drop x₀)[c]? = some a := by rw [List.getElem?_drop]; exact ha
        have hb' : (new.drop (x₀ + 2 * i - d))[c]? = some a := by
          rw [List.getElem?_drop, show x₀ + 2 * i - d + c = z by omega]
          exact hb
        exact absurd rfl (commonPrefix_maximal _ _ ha' hb')

/-! ## The next frontier -/

/-- The furthest points after `d` edits. -/
structure IsFrontier (old new : List α) (d : Nat) (f : Frontier) : Prop where
  size : f.size = d + 1
  furthest : ∀ i ≤ d, Furthest old new d i (f.getD i default)

theorem onDiagonal_eq (d i x : Nat) : onDiagonal (d - 2 * i) x = x + 2 * i - d := by
  unfold onDiagonal
  omega

private theorem size_next (previous : Frontier) : (previous.next old new d).size = d + 1 := by
  simp [Frontier.next]

private theorem getD_next (previous : Frontier) (hi : i ≤ d) :
    (previous.next old new d).getD i default = ⟨previous.step d i, previous.step d i +
      commonPrefix (old.drop (previous.step d i))
        (new.drop (previous.step d i + 2 * i - d))⟩ := by
  have hlt : i < d + 1 := Nat.lt_succ_of_le hi
  simp [Frontier.next, Array.getD_eq_getD_getElem?, hlt, onDiagonal_eq]

/-- A search starts with the elements that both lists start with. -/
theorem isFrontier_zero (old new : List α) : IsFrontier old new 0 (Frontier.next old new 0 #[]) := by
  refine ⟨size_next _, fun i hi => ?_⟩
  obtain rfl : i = 0 := Nat.le_zero.1 hi
  have hstep : Frontier.step #[] 0 0 = 0 := rfl
  rw [getD_next _ (Nat.le_refl 0), hstep]
  refine furthest_of_step (Nat.zero_le _) (within_top old new) fun x y hxy h => ?_
  rcases h.last with ⟨rfl, -⟩ | ⟨c, -, hc, -⟩ | ⟨c, -, hc, -⟩ | hkeep
  · exact .inl (Nat.le_refl 0)
  · omega
  · omega
  · exact .inr hkeep

/-- One more edit leads as far as it can from one of the two diagonals beside. -/
private theorem step_spec (f : Frontier) (hi : i ≤ d + 1) :
    (i ≤ d ∧ f.step (d + 1) i = (f.getD i default).stop + 1 ∧
        (0 < i → (f.getD (i - 1) default).stop ≤ f.step (d + 1) i)) ∨
      (0 < i ∧ f.step (d + 1) i = (f.getD (i - 1) default).stop ∧
        (i ≤ d → (f.getD i default).stop + 1 ≤ f.step (d + 1) i)) := by
  unfold Frontier.step
  simp only
  split
  · rename_i h
    exact .inr ⟨by omega, rfl, fun hid => by omega⟩
  · rename_i h
    exact .inl ⟨by omega, rfl, fun hpos => by omega⟩

/-- One more edit leads to the next frontier. -/
theorem isFrontier_next (h : IsFrontier old new d f) :
    IsFrontier old new (d + 1) (f.next old new (d + 1)) := by
  refine ⟨size_next _, fun i hi => ?_⟩
  rw [getD_next _ hi]
  -- a point one edit further is reached from the diagonal below or from the one above
  have hbelow (hid : i ≤ d) := h.furthest i hid
  have habove (hpos : 0 < i) := h.furthest (i - 1) (by omega)
  have hfar : ∀ x y, y + (d + 1) = x + 2 * i → Within old new (d + 1) x y →
      x ≤ f.step (d + 1) i ∨ ∃ w z a, x = w + 1 ∧ y = z + 1 ∧ old[w]? = some a ∧
        new[z]? = some a ∧ Within old new (d + 1) w z := by
    intro x y hxy hw
    rcases hw.last with ⟨rfl, -⟩ | ⟨c, w, hc, rfl, hw⟩ | ⟨c, z, hc, rfl, hw⟩ | hkeep
    · exact .inl (Nat.zero_le _)
    · obtain rfl : d = c := by omega
      have hle := hw.new_le
      have hx := (hbelow (by omega)).furthest w y (by omega) hw
      rcases step_spec f hi with ⟨-, hs, -⟩ | ⟨-, -, hs⟩
      · left
        omega
      · left
        have := hs (by omega)
        omega
    · obtain rfl : d = c := by omega
      have hle := hw.old_le
      have hx := (habove (by omega)).furthest x z (by omega) hw
      rcases step_spec f hi with ⟨-, -, hs⟩ | ⟨-, hs, -⟩
      · left
        have := hs (by omega)
        omega
      · left
        omega
    · exact .inr hkeep
  rcases step_spec f hi with ⟨hid, hs, -⟩ | ⟨hpos, hs, -⟩
  · have hon := (hbelow hid).on
    have hle := (hbelow hid).le
    refine furthest_of_step (by omega) ?_ hfar
    have hw := (hbelow hid).within_stop.delete
    rwa [hs, show (f.getD i default).stop + 1 + 2 * i - (d + 1) =
      (f.getD i default).stop + 2 * i - d by omega]
  · have hon := (habove hpos).on
    have hle := (habove hpos).le
    refine furthest_of_step (by omega) ?_ hfar
    have hw := (habove hpos).within_stop.insert
    rwa [hs, show (f.getD (i - 1) default).stop + 2 * i - (d + 1) =
      (f.getD (i - 1) default).stop + 2 * (i - 1) - d + 1 by omega]

/-! ## Frontiers from both ends -/

/-- A run from the top within `d` edits and one from the bottom within `e` edits that overlap on a
diagonal. -/
structure Meet (old new : List α) (d e i j : Nat) (r t : Reach) : Prop where
  ahead : Furthest old new d i r
  back : Furthest old.reverse new.reverse e j t
  facing : old.length + 2 * i + 2 * j = new.length + d + e
  overlap : old.length ≤ r.stop + t.stop

theorem Meet.symm (h : Meet old new d e i j r t) :
    Meet old.reverse new.reverse e d j i t r := by
  obtain ⟨ha, hb, hf, ho⟩ := h
  refine ⟨hb, by rwa [List.reverse_reverse, List.reverse_reverse], ?_, ?_⟩
  · rw [List.length_reverse, List.length_reverse]
    omega
  · rw [List.length_reverse]
    omega

/-- The furthest point of a shortest search lies in both lists: a way out of a list and back to the
diagonal of the other end takes edits that a path inside does not need. -/
theorem Meet.inside (h : Meet old new d e i j r t) (hmin : AtLeast old new (d + e)) :
    r.stop ≤ old.length ∧ r.stop + 2 * i - d ≤ new.length := by
  have hon := h.ahead.on
  have hle := h.ahead.le
  have hon' := h.back.on
  have hle' := h.back.le
  have hfacing := h.facing
  have hw := h.ahead.within_stop
  have ho := h.back.within_stop.old_le
  have hn := h.back.within_stop.new_le
  by_contra hout
  rw [not_and_or, Nat.not_le, Nat.not_le] at hout
  by_cases hx : r.stop ≤ old.length
  · -- only the new list has ended
    obtain ⟨c, hc, hwc⟩ := hw.symm.clip (by omega)
    have := hmin.le hwc.symm (beyond_rest hx (Nat.le_refl _))
    omega
  · obtain ⟨c, hc, hwc⟩ := hw.clip (by omega)
    by_cases hy : r.stop + 2 * i - d ≤ new.length
    · have := hmin.le hwc (beyond_rest (Nat.le_refl _) hy)
      omega
    · obtain ⟨c', hc', hwc'⟩ := hwc.symm.clip (by omega)
      have := hmin.le hwc'.symm (beyond_rest (Nat.le_refl _) (Nat.le_refl _))
      omega

/-- Where the search from the top completes a shortest path, the start of its last run lies on that
path. -/
theorem Meet.start (h : Meet old new d e i j r t) (hmin : AtLeast old new (d + e)) :
    Within old new d r.start (r.start + 2 * i - d) ∧
      Beyond old new e r.start (r.start + 2 * i - d) := by
  refine ⟨h.ahead.within, ?_⟩
  have hon := h.ahead.on
  have hle := h.ahead.le
  have hon' := h.back.on
  have hle' := h.back.le
  have hfacing := h.facing
  have hover := h.overlap
  have hstop := h.ahead.stop
  obtain ⟨hx, hy⟩ := h.inside hmin
  obtain ⟨hx', hy'⟩ := h.symm.inside (by rw [Nat.add_comm]; exact hmin.reverse)
  rw [List.length_reverse] at hx' hy'
  by_cases hcase : old.length ≤ r.start + t.stop
  · -- the run from the bottom leads over the start
    have hb : Within old.reverse new.reverse e (old.length - r.start)
        (new.length - (r.start + 2 * i - d)) := by
      apply Within.back (n := r.start + t.stop - old.length)
      have hw := h.back.within_stop
      rwa [show old.length - r.start + (r.start + t.stop - old.length) = t.stop by omega,
        show new.length - (r.start + 2 * i - d) + (r.start + t.stop - old.length) =
          t.stop + 2 * j - e by omega]
    have hb' := hb.beyond (Nat.sub_le ..) (Nat.sub_le ..)
    rwa [Nat.sub_sub_self (by omega), Nat.sub_sub_self (by omega)] at hb'
  · -- the run from the bottom ends on the last run from the top
    have hb := h.back.within_stop.beyond hx' hy'
    have hrun : old.length - t.stop - r.start ≤
        commonPrefix (old.drop r.start) (new.drop (r.start + 2 * i - d)) := by omega
    apply Beyond.keeps (n := old.length - t.stop - r.start)
    · rwa [show r.start + (old.length - t.stop - r.start) = old.length - t.stop by omega,
        show r.start + 2 * i - d + (old.length - t.stop - r.start) =
          new.length - (t.stop + 2 * j - e) by omega]
    · have hs := congrArg (List.take (old.length - t.stop - r.start))
        (take_commonPrefix (old.drop r.start) (new.drop (r.start + 2 * i - d)))
      rwa [List.take_take, List.take_take, Nat.min_eq_left hrun] at hs

/-- Where the search from the bottom completes a shortest path, its furthest point lies on that
path. -/
theorem Meet.stop (h : Meet old new d e i j r t) (hmin : AtLeast old new (d + e)) :
    Within old new d (old.length - t.stop) (new.length - (t.stop + 2 * j - e)) ∧
      Beyond old new e (old.length - t.stop) (new.length - (t.stop + 2 * j - e)) := by
  have hon := h.ahead.on
  have hle := h.ahead.le
  have hon' := h.back.on
  have hle' := h.back.le
  have hfacing := h.facing
  have hover := h.overlap
  obtain ⟨hx, hy⟩ := h.inside hmin
  obtain ⟨hx', hy'⟩ := h.symm.inside (by rw [Nat.add_comm]; exact hmin.reverse)
  rw [List.length_reverse] at hx' hy'
  refine ⟨?_, h.back.within_stop.beyond hx' hy'⟩
  apply Within.back (n := r.stop + t.stop - old.length)
  have hw := h.ahead.within_stop
  rwa [show old.length - t.stop + (r.stop + t.stop - old.length) = r.stop by omega,
    show new.length - (t.stop + 2 * j - e) + (r.stop + t.stop - old.length) =
      r.stop + 2 * i - d by omega]

/-- The frontiers from both ends meet when their edits add up to those of a path. -/
theorem exists_meet (hf : IsFrontier old new d f) (hg : IsFrontier old.reverse new.reverse e g)
    {s : List α} (hs : Common old new s) (hlen : old.length + new.length = d + e + 2 * s.length) :
    ∃ i j, i ≤ d ∧ j ≤ e ∧ Meet old new d e i j (f.getD i default) (g.getD j default) := by
  obtain ⟨x, y, hx, hy, t, u, rfl, ht, hu, hxy⟩ := exists_point hs (d := d) (by omega)
  rw [List.length_append] at hlen
  have htx := length_le_of_take ht.1
  have hty := length_le_of_take ht.2
  have hux := hu.1.length_le
  have huy := hu.2.length_le
  rw [List.length_drop] at hux huy
  have hi : y - t.length ≤ d := by omega
  have hj : new.length - y - u.length ≤ e := by omega
  have hu' : Within old.reverse new.reverse e (old.length - x) (new.length - y) := by
    refine ⟨u.reverse, ?_, by rw [List.length_reverse]; omega⟩
    rw [List.take_reverse, List.take_reverse, Nat.sub_sub_self hx, Nat.sub_sub_self hy]
    exact hu.reverse
  have hfx := (hf.furthest _ hi).furthest x y (by omega) ⟨t, ht, by omega⟩
  have hgx := (hg.furthest _ hj).furthest _ _ (by omega) hu'
  exact ⟨_, _, hi, hj, hf.furthest _ hi, hg.furthest _ hj, by omega, by omega⟩

end SheetDiff.Diff
