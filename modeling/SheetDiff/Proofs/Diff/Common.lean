import Mathlib.Data.List.Basic
import Mathlib.Data.Nat.Find
import SheetDiff.Diff.Edit

/-!
# Common subsequences

What a diff keeps is a common subsequence of both lists, and the fewer elements it deletes and
inserts the longer that is. A point of two lists is a position in each. `Within` bounds the number of
edits before a point and `Beyond` the number behind it; the two meet at every point of a shortest
path (`exists_point`). Moving back along a diagonal takes no more edits (`Within.back`), so that it
is enough to know how far each diagonal can be followed with a number of edits.

A point may lie beyond the end of a list, where nothing can be kept any more.
-/

namespace SheetDiff.Diff

variable {α : Type} {old new s : List α} {a : α} {d e x y n : Nat}

/-- A subsequence of both lists. -/
def Common (old new s : List α) : Prop := s.Sublist old ∧ s.Sublist new

/-- The length of a longest common subsequence. -/
structure LongestCommon (old new : List α) (n : Nat) : Prop where
  attained : ∃ s, Common old new s ∧ s.length = n
  longest : ∀ s, Common old new s → s.length ≤ n

theorem Common.symm (h : Common old new s) : Common new old s := ⟨h.2, h.1⟩

theorem Common.length_le (h : Common old new s) : s.length ≤ old.length ∧ s.length ≤ new.length :=
  ⟨h.1.length_le, h.2.length_le⟩

theorem Common.reverse (h : Common old new s) : Common old.reverse new.reverse s.reverse :=
  ⟨h.1.reverse, h.2.reverse⟩

theorem LongestCommon.unique {m : Nat} (hm : LongestCommon old new m)
    (hn : LongestCommon old new n) : m = n := by
  obtain ⟨s, hs, rfl⟩ := hm.attained
  obtain ⟨t, ht, rfl⟩ := hn.attained
  exact Nat.le_antisymm (hn.longest s hs) (hm.longest t ht)

theorem LongestCommon.symm (h : LongestCommon old new n) : LongestCommon new old n := by
  obtain ⟨s, hs, hn⟩ := h.attained
  exact ⟨⟨s, hs.symm, hn⟩, fun t ht => h.longest t ht.symm⟩

/-- A list is a longest common subsequence with every list that it is a subsequence of. -/
theorem longestCommon_of_sublist (h : old.Sublist new) : LongestCommon old new old.length :=
  ⟨⟨old, ⟨List.Sublist.refl old, h⟩, rfl⟩, fun _ hs => hs.1.length_le⟩

theorem exists_longestCommon (old new : List α) : ∃ n, LongestCommon old new n := by
  have hbound : ∃ n, ∀ s, Common old new s → s.length ≤ n :=
    ⟨old.length, fun s hs => hs.1.length_le⟩
  classical
  refine ⟨Nat.find hbound, ?_, Nat.find_spec hbound⟩
  by_contra hno
  cases hm : Nat.find hbound with
  | zero =>
    apply hno
    exact ⟨[], ⟨List.nil_sublist _, List.nil_sublist _⟩, hm.symm⟩
  | succ m =>
    -- otherwise a smaller number would bound the lengths as well
    refine Nat.find_min hbound (m := m) (by omega) fun s hs => ?_
    have hle := Nat.find_spec hbound s hs
    have hne : s.length ≠ Nat.find hbound := fun heq => hno ⟨s, hs, heq⟩
    omega

/-! ## Shared ends -/

/-- What both lists start with can be kept. -/
theorem Common.drop_prefix {p o w : List α} (h : Common (p ++ o) (p ++ w) s) :
    ∃ t, Common o w t ∧ s.length ≤ p.length + t.length := by
  induction p generalizing s with
  | nil => exact ⟨s, h, by simp⟩
  | cons a p ih =>
    -- without its first element, `s` lies behind the first element of both lists
    have htail (l : List α) (hl : s.Sublist (a :: l)) : s.tail.Sublist l := by
      rcases List.sublist_cons_iff.1 hl with hs | ⟨r, rfl, hr⟩
      · exact s.tail_sublist.trans hs
      · exact hr
    obtain ⟨t, ht, hlen⟩ := ih ⟨htail _ h.1, htail _ h.2⟩
    refine ⟨t, ht, ?_⟩
    rw [List.length_tail] at hlen
    rw [List.length_cons]
    omega

/-- What both lists end with can be kept. -/
theorem Common.drop_suffix {q o w : List α} (h : Common (o ++ q) (w ++ q) s) :
    ∃ t, Common o w t ∧ s.length ≤ q.length + t.length := by
  have hr := h.reverse
  rw [List.reverse_append, List.reverse_append] at hr
  obtain ⟨t, ht, hlen⟩ := hr.drop_prefix
  refine ⟨t.reverse, by simpa using ht.reverse, ?_⟩
  simpa using hlen

/-! ## Edits before a point -/

/-- At most `d` elements before a point have to be deleted or inserted. -/
def Within (old new : List α) (d x y : Nat) : Prop :=
  ∃ s, Common (old.take x) (new.take y) s ∧ x + y ≤ d + 2 * s.length

theorem within_top (old new : List α) : Within old new 0 0 0 :=
  ⟨[], ⟨List.nil_sublist _, List.nil_sublist _⟩, Nat.le_refl 0⟩

theorem Within.symm (h : Within old new d x y) : Within new old d y x := by
  obtain ⟨s, hs, hle⟩ := h
  exact ⟨s, hs.symm, by omega⟩

theorem Within.delete (h : Within old new d x y) : Within old new (d + 1) (x + 1) y := by
  obtain ⟨s, hs, hle⟩ := h
  exact ⟨s, ⟨hs.1.trans (List.take_sublist_take_left (Nat.le_succ x)), hs.2⟩, by omega⟩

theorem Within.insert (h : Within old new d x y) : Within old new (d + 1) x (y + 1) :=
  h.symm.delete.symm

theorem Within.keep (h : Within old new d x y) (ho : old[x]? = some a) (hn : new[y]? = some a) :
    Within old new d (x + 1) (y + 1) := by
  obtain ⟨s, hs, hle⟩ := h
  refine ⟨s ++ [a], ⟨?_, ?_⟩, ?_⟩
  · rw [List.take_add_one, ho]
    exact hs.1.append (List.Sublist.refl _)
  · rw [List.take_add_one, hn]
    exact hs.2.append (List.Sublist.refl _)
  · rw [List.length_append, List.length_singleton]
    omega

theorem length_le_of_take {xs : List α} (h : s.Sublist (xs.take n)) : s.length ≤ n :=
  Nat.le_trans h.length_le (List.length_take_le n xs)

/-- A subsequence of one more element is one of the others, or it ends with that element. -/
private theorem sublist_take_succ {xs : List α} (h : s.Sublist (xs.take (n + 1))) :
    s.Sublist (xs.take n) ∨ ∃ t a, s = t ++ [a] ∧ xs[n]? = some a ∧ t.Sublist (xs.take n) := by
  rw [List.take_add_one] at h
  obtain ⟨t, u, rfl, ht, hu⟩ := List.sublist_append_iff.1 h
  cases hn : xs[n]? with
  | none =>
    rw [hn, Option.toList_none, List.sublist_nil] at hu
    left
    rwa [hu, List.append_nil]
  | some a =>
    rw [hn, Option.toList_some] at hu
    rcases List.sublist_singleton.1 hu with rfl | rfl
    · left
      rwa [List.append_nil]
    · right
      exact ⟨t, a, rfl, rfl, ht⟩

/-- Moving back by one element of each list takes no more edits. -/
theorem Within.back_one (h : Within old new d (x + 1) (y + 1)) : Within old new d x y := by
  have hlast (s xs : List α) (n : Nat) (hs : s.Sublist (xs.take (n + 1))) :
      s.dropLast.Sublist (xs.take n) := by
    rcases sublist_take_succ hs with hs | ⟨t, a, rfl, -, ht⟩
    · exact s.dropLast_sublist.trans hs
    · rwa [List.dropLast_concat]
  obtain ⟨s, hs, hle⟩ := h
  refine ⟨s.dropLast, ⟨hlast s old x hs.1, hlast s new y hs.2⟩, ?_⟩
  rw [List.length_dropLast]
  omega

/-- Moving back along a diagonal takes no more edits. -/
theorem Within.back (h : Within old new d (x + n) (y + n)) : Within old new d x y := by
  induction n with
  | zero => exact h
  | succ n ih => exact ih h.back_one

/-- The last step to a point: a deletion, an insertion, or an element that is kept. -/
theorem Within.last (h : Within old new d x y) :
    (x = 0 ∧ y = 0) ∨ (∃ c w, d = c + 1 ∧ x = w + 1 ∧ Within old new c w y) ∨
      (∃ c z, d = c + 1 ∧ y = z + 1 ∧ Within old new c x z) ∨
      ∃ w z a, x = w + 1 ∧ y = z + 1 ∧ old[w]? = some a ∧ new[z]? = some a ∧
        Within old new d w z := by
  obtain ⟨s, hs, hle⟩ := h
  have hsx : s.length ≤ x := length_le_of_take hs.1
  have hsy : s.length ≤ y := length_le_of_take hs.2
  by_cases hx : x = 0
  · subst hx
    by_cases hy : y = 0
    · exact .inl ⟨rfl, hy⟩
    · -- nothing is kept before the first element of the old list
      obtain rfl : s = [] := List.length_eq_zero_iff.1 (by omega)
      refine .inr (.inr (.inl ⟨d - 1, y - 1, by simp at hle; omega, by omega, [], ?_, ?_⟩))
      · exact ⟨List.nil_sublist _, List.nil_sublist _⟩
      · simp at hle ⊢
        omega
  · obtain ⟨w, rfl⟩ := Nat.exists_eq_succ_of_ne_zero hx
    rcases sublist_take_succ hs.1 with hso | ⟨t, a, rfl, ha, hto⟩
    · have := length_le_of_take hso
      refine .inr (.inl ⟨d - 1, w, by omega, rfl, s, ⟨hso, hs.2⟩, by omega⟩)
    · rw [List.length_append, List.length_singleton] at hle hsx hsy
      obtain ⟨z, rfl⟩ := Nat.exists_eq_succ_of_ne_zero (n := y) (by omega)
      rcases sublist_take_succ hs.2 with hsn | ⟨t', b, htb, hb, htn⟩
      · have := length_le_of_take hsn
        rw [List.length_append, List.length_singleton] at this
        refine .inr (.inr (.inl ⟨d - 1, z, by omega, rfl, t ++ [a], ⟨hs.1, hsn⟩, ?_⟩))
        rw [List.length_append, List.length_singleton]
        omega
      · obtain ⟨rfl, rfl⟩ : t = t' ∧ a = b := by simpa using htb
        exact .inr (.inr (.inr ⟨w, z, a, rfl, rfl, ha, hb, t, ⟨hto, htn⟩, by omega⟩))

/-- The two positions of a point differ by no more than the edits before it. -/
theorem Within.old_le (h : Within old new d x y) : x ≤ y + d := by
  obtain ⟨s, hs, hle⟩ := h
  have := length_le_of_take hs.2
  omega

theorem Within.new_le (h : Within old new d x y) : y ≤ x + d := h.symm.old_le

/-- The edits that lead out of a list are not needed to reach the same position of the other one. -/
theorem Within.clip (h : Within old new d x y) (hx : old.length ≤ x) :
    ∃ c, d = c + (x - old.length) ∧ Within old new c old.length y := by
  obtain ⟨s, hs, hle⟩ := h
  rw [List.take_of_length_le hx] at hs
  have ho := hs.1.length_le
  have hn := length_le_of_take hs.2
  refine ⟨d - (x - old.length), by omega, s, ⟨?_, hs.2⟩, by omega⟩
  rw [List.take_length]
  exact hs.1

/-! ## Edits behind a point -/

/-- The point lies in both lists, and at most `e` elements behind it have to be deleted or
inserted. -/
structure Beyond (old new : List α) (e x y : Nat) : Prop where
  old_le : x ≤ old.length
  new_le : y ≤ new.length
  exists_common : ∃ s, Common (old.drop x) (new.drop y) s ∧
    old.length - x + (new.length - y) ≤ e + 2 * s.length

/-- The point as seen from the ends of both lists. -/
theorem Within.beyond (h : Within old.reverse new.reverse e x y) (hx : x ≤ old.length)
    (hy : y ≤ new.length) : Beyond old new e (old.length - x) (new.length - y) := by
  obtain ⟨s, hs, hle⟩ := h
  refine ⟨Nat.sub_le .., Nat.sub_le .., s.reverse, ?_, ?_⟩
  · have hr := hs.reverse
    rwa [List.take_reverse, List.take_reverse, List.reverse_reverse, List.reverse_reverse] at hr
  · rw [List.length_reverse]
    omega

/-- Elements that both lists share in front of a point can be kept. -/
theorem Beyond.keeps (h : Beyond old new e (x + n) (y + n))
    (hs : (old.drop x).take n = (new.drop y).take n) : Beyond old new e x y := by
  obtain ⟨ho, hn, s, hc, hle⟩ := h
  refine ⟨by omega, by omega, (old.drop x).take n ++ s, ⟨?_, ?_⟩, ?_⟩
  · have h := (List.Sublist.refl ((old.drop x).take n)).append hc.1
    rwa [← List.drop_drop, List.take_append_drop] at h
  · have h := (List.Sublist.refl ((new.drop y).take n)).append hc.2
    rw [← List.drop_drop, List.take_append_drop] at h
    rwa [hs]
  · rw [List.length_append, List.length_take, List.length_drop]
    omega

/-- The edits before and behind a point are enough to turn one list into the other. -/
theorem Within.join (h : Within old new d x y) (hb : Beyond old new e x y) :
    ∃ s, Common old new s ∧ old.length + new.length ≤ d + e + 2 * s.length := by
  obtain ⟨s, hs, hle⟩ := h
  obtain ⟨ho, hn, t, ht, hle'⟩ := hb
  refine ⟨s ++ t, ⟨?_, ?_⟩, ?_⟩
  · have h := hs.1.append ht.1
    rwa [List.take_append_drop] at h
  · have h := hs.2.append ht.2
    rwa [List.take_append_drop] at h
  · rw [List.length_append]
    omega

/-- Behind a point at the end of a list the rest of the other one is deleted or inserted. -/
theorem beyond_rest (hx : x ≤ old.length) (hy : y ≤ new.length) :
    Beyond old new (old.length - x + (new.length - y)) x y :=
  ⟨hx, hy, [], ⟨List.nil_sublist _, List.nil_sublist _⟩, Nat.le_refl _⟩

/-! ## Shortest paths -/

/-- No path takes fewer than `d` edits. -/
def AtLeast (old new : List α) (d : Nat) : Prop :=
  ∀ s, Common old new s → d + 2 * s.length ≤ old.length + new.length

theorem AtLeast.reverse (h : AtLeast old new d) : AtLeast old.reverse new.reverse d := by
  intro s hs
  have hr := hs.reverse
  rw [List.reverse_reverse, List.reverse_reverse] at hr
  simpa using h s.reverse hr

/-- A point takes no fewer edits than the shortest path. -/
theorem AtLeast.le (h : AtLeast old new d) {c : Nat} (hw : Within old new c x y)
    (hb : Beyond old new e x y) : d ≤ c + e := by
  obtain ⟨s, hs, hle⟩ := hw.join hb
  have := h s hs
  omega

theorem AtLeast.mono (h : AtLeast old new d) (he : e ≤ d) : AtLeast old new e := by
  intro s hs
  exact Nat.le_trans (Nat.add_le_add_right he _) (h s hs)

/-- A point that cuts a shortest path in two parts, neither of which is the whole path. -/
def Middle (old new : List α) (x y : Nat) : Prop :=
  ∃ d e, AtLeast old new (d + e) ∧ 0 < d ∧ 0 < e ∧ Within old new d x y ∧ Beyond old new e x y

theorem Middle.inside (h : Middle old new x y) :
    x ≤ old.length ∧ y ≤ new.length ∧ 0 < x + y ∧ x + y < old.length + new.length := by
  obtain ⟨d, e, hmin, hd, he, hw, hb⟩ := h
  have ho := hb.old_le
  have hn := hb.new_le
  refine ⟨ho, hn, ?_, ?_⟩
  · by_contra hzero
    obtain ⟨rfl, rfl⟩ : x = 0 ∧ y = 0 := by omega
    have := hmin.le (within_top old new) hb
    omega
  · by_contra hend
    obtain ⟨rfl, rfl⟩ : x = old.length ∧ y = new.length := by omega
    have := hmin.le hw (beyond_rest (Nat.le_refl _) (Nat.le_refl _))
    omega

/-- What is kept before a middle and behind it is as long as any common subsequence. -/
theorem Middle.length_le {k l : Nat} {u : List α} (h : Middle old new x y)
    (hu : Common old new u) (hk : ∀ t, Common (old.take x) (new.take y) t → t.length ≤ k)
    (hl : ∀ t, Common (old.drop x) (new.drop y) t → t.length ≤ l) : u.length ≤ k + l := by
  obtain ⟨d, e, hmin, -, -, ⟨t, ht, htl⟩, hb⟩ := h
  obtain ⟨v, hv, hvl⟩ := hb.exists_common
  have hx := hb.old_le
  have hy := hb.new_le
  have htk := hk t ht
  have hvk := hl v hv
  have hmin := hmin u hu
  omega

/-! ## Lists without shared ends -/

/-- No element starts both lists, and none ends both. -/
structure Apart (old new : List α) : Prop where
  head : ∀ a ∈ old.head?, a ∉ new.head?
  last : ∀ a ∈ old.getLast?, a ∉ new.getLast?

theorem Apart.symm (h : Apart old new) : Apart new old :=
  ⟨fun a hn ho => h.head a ho hn, fun a hn ho => h.last a ho hn⟩

private theorem Apart.not_sublist (h : Apart old new) (ho : old ≠ [])
    (hlen : new.length ≤ old.length + 1) : ¬ old.Sublist new := by
  intro hs
  cases new with
  | nil => exact ho (List.sublist_nil.1 hs)
  | cons b new =>
    rcases List.sublist_cons_iff.1 hs with hs | ⟨r, rfl, -⟩
    · -- the lists differ in the first element only
      obtain rfl := hs.eq_of_length_le (by simpa using hlen)
      obtain ⟨init, c, rfl⟩ := List.eq_nil_or_concat old |>.resolve_left ho
      rw [List.concat_eq_append] at h
      exact h.last c List.getLast?_concat (List.getLast?_concat (l := b :: init))
    · exact h.head b rfl rfl

/-- Lists without shared ends take two edits, unless one of them is empty. -/
theorem Apart.atLeast_two (h : Apart old new) (ho : old ≠ []) (hn : new ≠ []) :
    AtLeast old new 2 := by
  intro s hs
  by_contra hlt
  obtain ⟨hso, hsn⟩ := hs.length_le
  rcases Nat.lt_or_ge s.length old.length with hlo | hlo
  · obtain rfl := hs.2.eq_of_length_le (by omega)
    exact h.symm.not_sublist hn (by omega) hs.1
  · obtain rfl := hs.1.eq_of_length_le hlo
    exact h.not_sublist ho (by omega) hs.2

/-! ## Points of a path -/

/-- A point that cuts a common subsequence `s` in two, `d` edits away from the top. -/
structure Cuts (old new s : List α) (d x y : Nat) : Prop where
  old_le : x ≤ old.length
  new_le : y ≤ new.length
  exists_parts : ∃ t u, s = t ++ u ∧ Common (old.take x) (new.take y) t ∧
    Common (old.drop x) (new.drop y) u ∧ x + y = d + 2 * t.length

theorem Cuts.symm (h : Cuts old new s d x y) : Cuts new old s d y x := by
  obtain ⟨ho, hn, t, u, hs, ht, hu, he⟩ := h
  exact ⟨hn, ho, t, u, hs, ht.symm, hu.symm, by omega⟩

private theorem Cuts.delete (h : Cuts old new s d x y) : Cuts (a :: old) new s (d + 1) (x + 1) y := by
  obtain ⟨ho, hn, t, u, hs, ht, hu, he⟩ := h
  refine ⟨by simpa using ho, hn, t, u, hs, ⟨?_, ht.2⟩, by simpa using hu, by omega⟩
  rw [List.take_succ_cons]
  exact ht.1.cons a

private theorem Cuts.keep (h : Cuts old new s d x y) :
    Cuts (a :: old) (a :: new) (a :: s) d (x + 1) (y + 1) := by
  obtain ⟨ho, hn, t, u, rfl, ht, hu, he⟩ := h
  refine ⟨by simpa using ho, by simpa using hn, a :: t, u, rfl, ⟨?_, ?_⟩, by simpa using hu, ?_⟩
  · rw [List.take_succ_cons]
    exact ht.1.cons_cons a
  · rw [List.take_succ_cons]
    exact ht.2.cons_cons a
  · rw [List.length_cons]
    omega

/-- A path that keeps a common subsequence has a point after every number of edits. -/
theorem exists_point (hs : Common old new s) (hd : d + 2 * s.length ≤ old.length + new.length) :
    ∃ x y, Cuts old new s d x y := by
  induction hsize : old.length + new.length using Nat.strongRecOn generalizing old new s d with
  | ind size ih =>
    cases d with
    | zero =>
      refine ⟨0, 0, Nat.zero_le _, Nat.zero_le _, [], s, rfl, ?_, by simpa using hs, rfl⟩
      exact ⟨List.nil_sublist _, List.nil_sublist _⟩
    | succ d =>
      -- the first step deletes or inserts an element that is not kept, or keeps a shared one
      have hdelete {a : α} {o w : List α} (ho : s.Sublist o) (hw : s.Sublist w)
          (hl : d + 1 + 2 * s.length ≤ o.length + 1 + w.length)
          (hsz : o.length + 1 + w.length = size) : ∃ x y, Cuts (a :: o) w s (d + 1) x y := by
        obtain ⟨x, y, h⟩ := ih (o.length + w.length) (by omega) ⟨ho, hw⟩ (d := d)
          (by omega) rfl
        exact ⟨x + 1, y, h.delete⟩
      cases old with
      | nil =>
        obtain rfl := List.sublist_nil.1 hs.1
        cases new with
        | nil => simp at hd
        | cons b new =>
          obtain ⟨x, y, h⟩ := hdelete (a := b) (o := new) (w := []) (List.nil_sublist _)
            (List.nil_sublist _) (by simpa using hd) (by simpa using hsize)
          exact ⟨y, x, h.symm⟩
      | cons a old =>
        simp only [List.length_cons] at hd hsize
        rcases List.sublist_cons_iff.1 hs.1 with ho | ⟨r, rfl, ho⟩
        · exact hdelete ho hs.2 hd hsize
        · cases new with
          | nil => simpa using hs.2
          | cons b new =>
            simp only [List.length_cons] at hd hsize
            rcases List.sublist_cons_iff.1 hs.2 with hn | ⟨r', hr, hn⟩
            · obtain ⟨x, y, h⟩ := hdelete (a := b) hn hs.1 (by simp; omega) (by simp; omega)
              exact ⟨y, x, h.symm⟩
            · obtain ⟨rfl, rfl⟩ : a = b ∧ r = r' := by simpa using hr
              obtain ⟨x, y, h⟩ := ih (old.length + new.length) (by omega) ⟨ho, hn⟩
                (d := d + 1) (by omega) rfl
              exact ⟨x + 1, y + 1, h.keep⟩

end SheetDiff.Diff
