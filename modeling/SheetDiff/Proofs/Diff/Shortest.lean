import SheetDiff.Diff.Section
import SheetDiff.Proofs.Diff.Frontier
import SheetDiff.Proofs.Diff.Script

/-!
# Scripts keep a longest common subsequence

`middle?` finds a point of a shortest path between two lists that start and end with different
elements (`exists_middle`): its two searches go on, one edit at a time, until their frontiers meet,
and they meet as soon as their edits add up to a shortest path. A script keeps what lies on both
sides of the point and what both lists share at their ends, so that no common subsequence is longer
than what it keeps (`length_le_kept_script`).
-/

namespace SheetDiff.Diff

variable {α : Type} [DecidableEq α] {old new : List α} {d e n m : Nat} {f g : Frontier} {k : Int}
  {r : Reach}

/-! ## Meetings -/

private theorem mem_diagonals (hf : f.size = d + 1) :
    (k, r) ∈ f.diagonals d ↔ ∃ i ≤ d, k = d - 2 * i ∧ r = f.getD i default := by
  simp only [Frontier.diagonals, List.mem_map, Prod.exists, List.mem_zipIdx_iff_getElem?,
    Prod.mk.injEq, Array.getElem?_toList]
  constructor
  · rintro ⟨r', i, hr, rfl, rfl⟩
    obtain ⟨hi, -⟩ := Array.getElem?_eq_some_iff.1 hr
    refine ⟨i, by omega, rfl, ?_⟩
    rw [Array.getD_eq_getD_getElem?, hr, Option.getD_some]
  · rintro ⟨i, hi, rfl, rfl⟩
    have hlt : i < f.size := by omega
    refine ⟨f.getD i default, i, ?_, rfl, rfl⟩
    rw [Array.getD_eq_getD_getElem?, Array.getElem?_eq_getElem hlt, Option.getD_some]

/-- The diagonal number that a diagonal of the opposite search has. -/
private theorem reach_eq (j : Nat) (hj : k = e - 2 * j) :
    g.reach e k = g.getD j default := by
  rw [Frontier.reach, show ((e : Int) - k).toNat / 2 = j by omega]

/-- A meeting of two frontiers whose edits have the parity of a path. -/
theorem of_meeting (hf : f.size = d + 1) (hpar : (n + m + d + e) % 2 = 0)
    (h : f.meeting? g d e n m = some (k, r)) :
    ∃ i j, i ≤ d ∧ j ≤ e ∧ k = d - 2 * i ∧ r = f.getD i default ∧
      n + 2 * i + 2 * j = m + d + e ∧ n ≤ r.stop + (g.getD j default).stop := by
  have hmem := (mem_diagonals hf).1 (List.mem_of_find?_eq_some h)
  have hp := List.find?_some h
  obtain ⟨i, hi, rfl, rfl⟩ := hmem
  simp only [Bool.and_eq_true, decide_eq_true_eq, Int.toNat_natCast] at hp
  obtain ⟨hk, hn⟩ := hp
  obtain ⟨j, hj⟩ : ∃ j : Nat, (n : Int) - m - (d - 2 * i) = e - 2 * j :=
    ⟨(e + d + m - n - 2 * i) / 2, by omega⟩
  rw [reach_eq j hj] at hn
  exact ⟨i, j, hi, by omega, rfl, rfl, by omega, hn⟩

/-- Where two frontiers do not meet they overlap nowhere. -/
theorem lt_of_not_meeting (hf : f.size = d + 1) (h : f.meeting? g d e n m = none) {i j : Nat}
    (hi : i ≤ d) (hj : j ≤ e) (hfacing : n + 2 * i + 2 * j = m + d + e) :
    (f.getD i default).stop + (g.getD j default).stop < n := by
  have hp := List.find?_eq_none.1 h (d - 2 * i, f.getD i default) ((mem_diagonals hf).2
    ⟨i, hi, rfl, rfl⟩)
  simp only [Bool.and_eq_true, decide_eq_true_eq, Int.toNat_natCast, not_and, Nat.not_le] at hp
  have hlt := hp (by omega)
  rwa [reach_eq j (by omega)] at hlt

/-! ## The search -/

/-- What a search knows of its frontier when it comes to its edit number `d`. -/
def IsKnown (old new : List α) : Nat → Frontier → Prop
  | 0, f => f = #[]
  | d + 1, f => IsFrontier old new d f

theorem IsKnown.next (h : IsKnown old new d f) : IsFrontier old new d (f.next old new d) := by
  cases d with
  | zero =>
    obtain rfl : f = #[] := h
    exact isFrontier_zero old new
  | succ d => exact isFrontier_next h

/-- Before the first edit there is no frontier from the bottom to meet. -/
private theorem meeting?_none (f g : Frontier) : f.meeting? g d (-1) n m = none := by
  refine List.find?_eq_none.2 fun _ _ h => ?_
  simp only [Bool.and_eq_true, decide_eq_true_eq] at h
  omega

section Search

variable {s : List α} {size : Nat}

/-- The search from the top meets the one from the bottom, which is one edit behind, in a middle, or
another edit is needed. -/
private theorem meeting_ahead (hs : Common old new s)
    (hlen : old.length + new.length = size + 2 * s.length) (hmin : AtLeast old new size)
    (htwo : 2 ≤ size) (hd : 2 * d ≤ size + 1) (hodd : (old.length + new.length) % 2 = 1)
    (hf : IsFrontier old new d f) (hg : IsKnown old.reverse new.reverse d g) :
    (∃ k r, f.meeting? g d (d - 1) old.length new.length = some (k, r) ∧
        Middle old new r.start (onDiagonal k r.start)) ∨
      f.meeting? g d (d - 1) old.length new.length = none ∧ 2 * (d + 1) ≤ size + 1 := by
  cases d with
  | zero => exact .inr ⟨meeting?_none f g, by omega⟩
  | succ c =>
    have hg : IsFrontier old.reverse new.reverse c g := hg
    have hcast : ((c + 1 : Nat) : Int) - 1 = c := by omega
    rw [hcast]
    cases hm : f.meeting? g (c + 1) c old.length new.length with
    | some found =>
      obtain ⟨k, r⟩ := found
      obtain ⟨i, j, hi, hj, rfl, rfl, hfacing, hover⟩ := of_meeting hf.size (by omega) hm
      have hmeet : Meet old new (c + 1) c i j (f.getD i default) (g.getD j default) :=
        ⟨hf.furthest i hi, hg.furthest j hj, hfacing, hover⟩
      obtain ⟨hw, hb⟩ := hmeet.start (hmin.mono (by omega))
      have hle := hmin.le hw hb
      refine .inl ⟨_, _, rfl, c + 1, c, hmin.mono (by omega), Nat.succ_pos c, by omega, ?_⟩
      rw [onDiagonal_eq]
      exact ⟨hw, hb⟩
    | none =>
      refine .inr ⟨rfl, ?_⟩
      by_contra hlast
      obtain ⟨i, j, hi, hj, hmeet⟩ := exists_meet hf hg hs (by omega)
      have hlt := lt_of_not_meeting hf.size hm hi hj hmeet.facing
      have hover := hmeet.overlap
      omega

/-- The search from the bottom meets the one from the top in a middle, or another edit is needed. -/
private theorem meeting_back (hs : Common old new s)
    (hlen : old.length + new.length = size + 2 * s.length) (hmin : AtLeast old new size)
    (htwo : 2 ≤ size) (hd : 2 * d ≤ size + 1) (heven : (old.length + new.length) % 2 = 0)
    (hf : IsFrontier old new d f) (hg : IsFrontier old.reverse new.reverse d g) :
    (∃ k r, g.meeting? f d d old.length new.length = some (k, r) ∧
        Middle old new (old.length - r.stop) (new.length - onDiagonal k r.stop)) ∨
      g.meeting? f d d old.length new.length = none ∧ 2 * (d + 1) ≤ size + 1 := by
  cases hm : g.meeting? f d d old.length new.length with
  | some found =>
    obtain ⟨k, r⟩ := found
    obtain ⟨j, i, hj, hi, rfl, rfl, hfacing, hover⟩ := of_meeting hg.size (by omega) hm
    have hmeet : Meet old new d d i j (f.getD i default) (g.getD j default) :=
      ⟨hf.furthest i hi, hg.furthest j hj, by omega, by omega⟩
    obtain ⟨hw, hb⟩ := hmeet.stop (hmin.mono (by omega))
    have hle := hmin.le hw hb
    refine .inl ⟨_, _, rfl, d, d, hmin.mono (by omega), by omega, by omega, ?_⟩
    rw [onDiagonal_eq]
    exact ⟨hw, hb⟩
  | none =>
    refine .inr ⟨rfl, ?_⟩
    by_contra hlast
    obtain ⟨i, j, hi, hj, hmeet⟩ := exists_meet hf hg hs (by omega)
    have hfacing := hmeet.facing
    have hlt := lt_of_not_meeting hg.size hm hj hi (by omega)
    have hover := hmeet.overlap
    omega

/-- The search ends with a middle, as long as there are edits left to reach a shortest path. -/
theorem exists_middleFrom (hs : Common old new s)
    (hlen : old.length + new.length = size + 2 * s.length) (hmin : AtLeast old new size)
    (htwo : 2 ≤ size) (fuel : Nat) {ahead back : Frontier} (hd : 2 * d ≤ size + 1)
    (hfuel : size + 1 < 2 * (d + fuel)) (ha : IsKnown old new d ahead)
    (hb : IsKnown old.reverse new.reverse d back) :
    ∃ x y, middleFrom old new fuel d ahead back = some (x, y) ∧ Middle old new x y := by
  induction fuel generalizing d ahead back with
  | zero => omega
  | succ fuel ih =>
    have hf := ha.next
    have hg := hb.next
    unfold middleFrom
    simp only
    rcases Nat.mod_two_eq_zero_or_one (old.length + new.length) with heven | hodd
    · have hno : ¬ (old.length + new.length) % 2 = 1 := by omega
      simp only [hno, if_false]
      rcases meeting_back hs hlen hmin htwo hd heven hf hg with ⟨k, r, hm, hmid⟩ | ⟨hm, hd⟩
      · rw [hm]
        exact ⟨_, _, rfl, hmid⟩
      · rw [hm]
        exact ih hd (by omega) hf hg
    · simp only [hodd, if_true]
      rcases meeting_ahead hs hlen hmin htwo hd hodd hf hb with ⟨k, r, hm, hmid⟩ | ⟨hm, hd⟩
      · rw [hm]
        exact ⟨_, _, rfl, hmid⟩
      · rw [hm]
        exact ih hd (by omega) hf hg

end Search

/-- Where a path takes two edits or more there is a middle. -/
theorem exists_middle (h : AtLeast old new 2) :
    ∃ x y, middle? old new = some (x, y) ∧ Middle old new x y := by
  obtain ⟨_, ⟨s, hs, rfl⟩, hlongest⟩ := exists_longestCommon old new
  have htwo := h s hs
  have hmin : AtLeast old new (old.length + new.length - 2 * s.length) := by
    intro t ht
    have := hlongest t ht
    omega
  obtain ⟨x, y, hxy, hmid⟩ := exists_middleFrom (d := 0) hs (by omega) hmin (by omega)
    ((old.length + new.length + 1) / 2 + 1) (by omega) (by omega)
    (show IsKnown old new 0 #[] from rfl) (show IsKnown old.reverse new.reverse 0 #[] from rfl)
  refine ⟨x, y, ?_, hmid⟩
  obtain ⟨hx, hy, hpos, hlt⟩ := hmid.inside
  rw [middle?, hxy, Option.filter_some]
  simp [hx, hy, hpos, hlt]

/-! ## Scripts -/

/-- The number of elements in the edits of a kind. -/
def lengthOf (kind : EditKind) (es : List Edit) : Nat := totalLength (es.filter (·.kind = kind))

@[simp] theorem lengthOf_nil (kind : EditKind) : lengthOf kind [] = 0 := rfl

@[simp] theorem lengthOf_cons (kind : EditKind) (e : Edit) (es : List Edit) :
    lengthOf kind (e :: es) = (if e.kind = kind then e.length else 0) + lengthOf kind es := by
  by_cases h : e.kind = kind <;> simp [lengthOf, totalLength, h]

@[simp] theorem lengthOf_append (kind : EditKind) (es fs : List Edit) :
    lengthOf kind (es ++ fs) = lengthOf kind es + lengthOf kind fs := by
  induction es with
  | nil => simp
  | cons e es ih => simp [ih, Nat.add_assoc]

/-- Without what they share at their ends two lists are apart. -/
private theorem apart_middle {p c : Nat} (hp : p = commonPrefix old new)
    (hc : c = commonSuffix (old.drop p) (new.drop p)) :
    Apart (slice old p (old.length - p - c)) (slice new p (new.length - p - c)) := by
  have hhead (xs : List α) (k : Nat) (a : α) (h : a ∈ (slice xs p k).head?) : xs[p]? = some a := by
    rw [slice, List.head?_take, List.head?_drop] at h
    exact (Option.ite_none_left_eq_some.1 h).2
  have hlast (xs : List α) (hle : c ≤ (xs.drop p).length) (a : α)
      (h : a ∈ (slice xs p (xs.length - p - c)).getLast?) : (xs.drop p).reverse[c]? = some a := by
    rw [← List.length_drop, ← List.head?_reverse, slice, List.reverse_take, Nat.sub_sub_self hle,
      List.head?_drop] at h
    exact h
  refine ⟨fun a ho hn => ?_, fun a ho hn => ?_⟩
  · have ho := hhead _ _ a ho
    have hn := hhead _ _ a hn
    subst hp
    exact commonPrefix_maximal old new ho hn rfl
  · have ho := hlast old (hc ▸ commonSuffix_le_left _ _) a ho
    have hn := hlast new (hc ▸ commonSuffix_le_right _ _) a hn
    subst hc
    exact commonPrefix_maximal _ _ ho hn rfl

omit [DecidableEq α] in
/-- A list as its start, its middle and its end. -/
private theorem eq_append_slice (xs : List α) {p c : Nat} (h : p + c ≤ xs.length) :
    xs = xs.take p ++ (slice xs p (xs.length - p - c) ++ slice (xs.drop p) (xs.length - p - c) c) := by
  have hl : (xs.drop p).length = xs.length - p - c + c := by rw [List.length_drop]; omega
  have hs : slice (xs.drop p) 0 (xs.length - p - c + c) = xs.drop p := by
    rw [← hl, slice_all]
  rw [slice_add, Nat.zero_add] at hs
  conv_lhs => rw [← List.take_append_drop p xs, ← hs]
  rfl

/-- A common subsequence may as well keep all that both lists share at their ends. -/
private theorem common_middle {p c : Nat} (hp : p = commonPrefix old new)
    (hc : c = commonSuffix (old.drop p) (new.drop p)) {s : List α} (hs : Common old new s) :
    ∃ u, Common (slice old p (old.length - p - c)) (slice new p (new.length - p - c)) u ∧
      s.length ≤ p + u.length + c := by
  have hpo : p ≤ old.length := hp ▸ commonPrefix_le_left old new
  have hpn : p ≤ new.length := hp ▸ commonPrefix_le_right old new
  have hco := commonSuffix_le_left (old.drop p) (new.drop p)
  have hcn := commonSuffix_le_right (old.drop p) (new.drop p)
  rw [← hc, List.length_drop] at hco hcn
  have hpre : old.take p = new.take p := by
    rw [hp]
    exact take_commonPrefix old new
  have hsuf := slice_commonSuffix hc
  rw [List.length_drop, List.length_drop] at hsuf
  rw [eq_append_slice old (p := p) (c := c) (by omega),
    eq_append_slice new (p := p) (c := c) (by omega), hpre, hsuf] at hs
  obtain ⟨t, ht, htl⟩ := hs.drop_prefix
  obtain ⟨u, hu, hul⟩ := ht.drop_suffix
  refine ⟨u, hu, ?_⟩
  rw [List.length_take_of_le hpn] at htl
  rw [length_slice (by rw [List.length_drop]; omega)] at hul
  omega

private theorem kept_ends (i j n : Nat) :
    lengthOf .keep (if n = 0 then [] else [⟨.keep, i, j, n⟩]) = n := by
  split
  · rename_i hzero
    rw [hzero, lengthOf_nil]
  · simp

/-- No common subsequence is longer than what a script keeps. -/
theorem length_le_kept_scriptFrom (i j : Nat) {s : List α} (hs : Common old new s) :
    s.length ≤ lengthOf .keep (scriptFrom i j old new) := by
  induction hsize : old.length + new.length using Nat.strongRecOn generalizing i j old new s with
  | ind size ih =>
    rw [scriptFrom]
    set p := commonPrefix old new with hp
    set c := commonSuffix (old.drop p) (new.drop p) with hc
    obtain ⟨u, hu, hle⟩ := common_middle hp hc hs
    have hapart := apart_middle hp hc
    have hol : (slice old p (old.length - p - c)).length ≤ old.length := by
      simp only [slice, List.length_take, List.length_drop]
      omega
    have hwl : (slice new p (new.length - p - c)).length ≤ new.length := by
      simp only [slice, List.length_take, List.length_drop]
      omega
    set o := slice old p (old.length - p - c)
    set w := slice new p (new.length - p - c)
    simp only [lengthOf_append, kept_ends]
    refine Nat.le_trans hle (Nat.add_le_add_right (Nat.add_le_add_left ?inner p) c)
    case inner =>
      have ho (h : o.isEmpty = true) : u = [] := by
        rw [List.isEmpty_iff] at h
        exact List.sublist_nil.1 (h ▸ hu.1)
      have hw (h : w.isEmpty = true) : u = [] := by
        rw [List.isEmpty_iff] at h
        exact List.sublist_nil.1 (h ▸ hu.2)
      split
      · rename_i h
        rw [Bool.and_eq_true] at h
        simp [ho h.1]
      · split
        · rename_i h
          simp [hw h]
        · split
          · rename_i h
            simp [ho h]
          · rename_i hwe hoe
            rw [List.isEmpty_iff] at hwe hoe
            obtain ⟨x, y, hxy, hmid⟩ := exists_middle (hapart.atLeast_two hoe hwe)
            have hin := hmid.inside
            split
            · rename_i x' y' hm
              obtain ⟨rfl, rfl⟩ : x' = x ∧ y' = y := by simpa [hxy, eq_comm] using hm
              rw [lengthOf_append]
              refine hmid.length_le hu (fun t ht => ih _ ?_ _ _ ht rfl) fun t ht => ih _ ?_ _ _ ht rfl
              · simp only [List.length_take]
                omega
              · simp only [List.length_drop]
                omega
            · rename_i hm
              simp [hxy] at hm

/-- No common subsequence is longer than what a shortest script keeps. -/
theorem length_le_kept_script {s : List α} (hs : Common old new s) :
    s.length ≤ lengthOf .keep (script old new) :=
  length_le_kept_scriptFrom 0 0 hs

end SheetDiff.Diff
