import Mathlib.Data.List.Basic
import SheetDiff.Text.Lines

/-!
# Messages and their lines

A text is cut at separators into parts, which add up where it is cut (`partsAt_append_cons`), and where
a class of characters ends it can be cut in one way only (`cut_inj`). A text is one line of a message if
it holds no line feed and does not end with a carriage return, and a message splits into its texts again
exactly where each of them is a line (`lines_message_eq_iff`).
-/

namespace SheetDiff.Text

variable {separator : Char} {cs xs : List Char} {s t : String}

theorem partsAt_of_not_mem (h : separator ∉ cs) : partsAt separator cs = [cs] := by
  induction cs with
  | nil => rfl
  | cons c cs ih =>
    obtain ⟨hc, hcs⟩ : separator ≠ c ∧ separator ∉ cs := by simpa using h
    rw [partsAt, if_neg hc.symm, ih hcs]
    rfl

theorem partsAt_ne_nil (separator : Char) (cs : List Char) : partsAt separator cs ≠ [] := by
  induction cs with
  | nil => simp [partsAt]
  | cons c cs ih =>
    rw [partsAt]
    split
    · simp
    · simpa [List.modifyHead_eq_nil_iff] using ih

theorem partsAt_append_cons (xs cs : List Char) :
    partsAt separator (xs ++ separator :: cs) = partsAt separator xs ++ partsAt separator cs := by
  induction xs with
  | nil => simp [partsAt]
  | cons c xs ih =>
    rw [List.cons_append, partsAt, partsAt, ih]
    split
    · rfl
    · obtain ⟨part, parts, hparts⟩ := List.exists_cons_of_ne_nil (partsAt_ne_nil separator xs)
      rw [hparts]
      rfl

/-- Only a text without the separator is a part of itself. -/
theorem not_mem_of_partsAt (h : partsAt separator cs = [xs]) : separator ∉ cs := by
  intro hc
  obtain ⟨as, bs, rfl⟩ := List.append_of_mem hc
  obtain ⟨a, as', ha⟩ := List.exists_cons_of_ne_nil (partsAt_ne_nil separator as)
  obtain ⟨b, bs', hb⟩ := List.exists_cons_of_ne_nil (partsAt_ne_nil separator bs)
  rw [partsAt_append_cons, ha, hb] at h
  simp at h

theorem mem_of_mem_partsAt {c : Char} (h : xs ∈ partsAt separator cs) (hc : c ∈ xs) : c ∈ cs := by
  induction cs generalizing xs with
  | nil =>
    obtain rfl := List.mem_singleton.1 h
    exact hc
  | cons d cs ih =>
    obtain ⟨part, parts, hparts⟩ := List.exists_cons_of_ne_nil (partsAt_ne_nil separator cs)
    rw [partsAt] at h
    split at h
    · rcases List.mem_cons.1 h with rfl | h
      · simp at hc
      · exact List.mem_cons_of_mem _ (ih h hc)
    · rw [hparts, List.modifyHead_cons, List.mem_cons] at h
      rcases h with rfl | h
      · rcases List.mem_cons.1 hc with rfl | hc
        · exact List.mem_cons_self
        · exact List.mem_cons_of_mem _ (ih (hparts ▸ List.mem_cons_self) hc)
      · exact List.mem_cons_of_mem _ (ih (hparts ▸ List.mem_cons_of_mem _ h) hc)

/-- Two equal lists that are cut where a class of members ends are cut alike. -/
theorem cut_inj {α : Type} {p : α → Bool} {a b x y : List α} (ha : ∀ c ∈ a, p c = true)
    (hb : ∀ c ∈ b, p c = true) (hx : ∀ c ∈ x.head?, p c = false)
    (hy : ∀ c ∈ y.head?, p c = false) (h : a ++ x = b ++ y) : a = b ∧ x = y := by
  induction a generalizing b with
  | nil =>
    cases b with
    | nil => exact ⟨rfl, h⟩
    | cons d b =>
      rw [List.nil_append] at h
      have := hx d (by simp [h])
      simp [hb d] at this
  | cons c a ih =>
    cases b with
    | nil =>
      rw [List.nil_append] at h
      have := hy c (by simp [← h])
      simp [ha c] at this
    | cons d b =>
      simp only [List.cons_append, List.cons.injEq] at h
      have ih := ih (fun e he => ha e (by simp [he])) (fun e he => hb e (by simp [he])) h.2
      exact ⟨by rw [h.1, ih.1], ih.2⟩

/-! ## Lines -/

/-- A text that is one line of a message. -/
def IsLine (s : String) : Prop := '\n' ∉ s.toList ∧ s.toList.getLast? ≠ some '\r'

/-- The lines of a message hold nothing but its characters. -/
theorem mem_of_mem_lines {c : Char} (h : s ∈ lines t) (hc : c ∈ s.toList) : c ∈ t.toList := by
  obtain ⟨part, hpart, rfl⟩ := List.mem_map.1 h
  rw [String.toList_ofList] at hc
  rcases List.mem_append.1 hpart with hpart | hpart
  · obtain ⟨whole, hwhole, rfl⟩ := List.mem_map.1 hpart
    have hdrop : c ∈ whole := by
      rw [dropReturn] at hc
      split at hc
      · exact List.dropLast_subset _ hc
      · exact hc
    exact mem_of_mem_partsAt (List.dropLast_subset _ hwhole) hdrop
  · obtain ⟨hlast, -⟩ : (partsAt '\n' t.toList).getLast? = some part ∧ _ := by
      simpa [Option.filter_eq_some_iff] using hpart
    exact mem_of_mem_partsAt (List.mem_of_getLast? hlast) hc

/-- The lines of a text with a line feed behind it. -/
def linesOf (s : String) : List String :=
  (partsAt '\n' s.toList).map fun part => String.ofList (dropReturn part)

theorem linesOf_ne_nil (s : String) : linesOf s ≠ [] := by
  simpa [linesOf] using partsAt_ne_nil '\n' s.toList

theorem linesOf_eq_iff : linesOf s = [s] ↔ IsLine s := by
  constructor
  · intro h
    obtain ⟨part, hpart, hs⟩ := List.map_eq_singleton_iff.1 h
    have hnew := not_mem_of_partsAt hpart
    rw [partsAt_of_not_mem hnew, List.singleton_inj] at hpart
    subst hpart
    refine ⟨hnew, fun hr => ?_⟩
    rw [dropReturn, if_pos hr, ← String.toList_inj, String.toList_ofList] at hs
    have hlen := congrArg List.length hs
    rw [List.length_dropLast] at hlen
    have hne : s.toList ≠ [] := by
      rintro hnil
      simp [hnil] at hr
    have := List.length_pos_iff.2 hne
    omega
  · rintro ⟨hnew, hr⟩
    rw [linesOf, partsAt_of_not_mem hnew, List.map_singleton, dropReturn, if_neg hr,
      String.ofList_toList]

/-- A message with a line feed behind each of its texts. -/
def message (body : List String) : String := String.join (body.map (· ++ "\n"))

private theorem partsAt_message (body : List String) : partsAt '\n' (message body).toList =
    (body.flatMap fun s => partsAt '\n' s.toList) ++ [[]] := by
  induction body with
  | nil => rfl
  | cons s body ih =>
    have hmessage : (message (s :: body)).toList = s.toList ++ '\n' :: (message body).toList := by
      simp [message]
    rw [hmessage, partsAt_append_cons, ih, List.flatMap_cons, List.append_assoc]

theorem lines_message (body : List String) : lines (message body) = body.flatMap linesOf := by
  have hlast : (Option.filter (fun part : List Char => !part.isEmpty) (some [])).toList = [] := rfl
  simp only [lines, partsAt_message, List.dropLast_concat, List.getLast?_concat, hlast,
    List.append_nil, List.map_map, List.map_flatMap]
  rfl

/-- A list with each member replaced by some can only stay the same if each member does. -/
private theorem flatMap_eq_self_iff {α : Type} {f : α → List α} (hf : ∀ x, f x ≠ [])
    (xs : List α) : xs.flatMap f = xs ↔ ∀ x ∈ xs, f x = [x] := by
  have hlength (xs : List α) : xs.length ≤ (xs.flatMap f).length := by
    induction xs with
    | nil => simp
    | cons x xs ih =>
      have hx := List.length_pos_iff.2 (hf x)
      simp only [List.flatMap_cons, List.length_append, List.length_cons]
      omega
  constructor
  · intro h
    induction xs with
    | nil => simp
    | cons x xs ih =>
      obtain ⟨y, ys, hy⟩ := List.exists_cons_of_ne_nil (hf x)
      rw [List.flatMap_cons, hy, List.cons_append, List.cons.injEq] at h
      obtain ⟨rfl, h⟩ := h
      have hys : ys = [] := by
        have hlen := congrArg List.length h
        rw [List.length_append] at hlen
        have := hlength xs
        exact List.length_eq_zero_iff.1 (by omega)
      subst hys
      exact List.forall_mem_cons.2 ⟨hy, ih (by simpa using h)⟩
  · intro h
    induction xs with
    | nil => rfl
    | cons x xs ih =>
      obtain ⟨hx, hxs⟩ := List.forall_mem_cons.1 h
      rw [List.flatMap_cons, hx, ih hxs]
      rfl

/-- A message splits into its texts exactly where each of them is a line. -/
theorem lines_message_eq_iff (body : List String) :
    lines (message body) = body ↔ ∀ s ∈ body, IsLine s := by
  rw [lines_message, flatMap_eq_self_iff linesOf_ne_nil]
  exact forall₂_congr fun s _ => linesOf_eq_iff

/-- Messages of different lines are different. -/
theorem message_inj {body body' : List String} (hb : ∀ s ∈ body, IsLine s)
    (hb' : ∀ s ∈ body', IsLine s) (h : message body = message body') : body = body' := by
  rw [← (lines_message_eq_iff body).2 hb, h, (lines_message_eq_iff body').2 hb']

theorem message_cons (s : String) (body : List String) :
    message (s :: body) = s ++ "\n" ++ message body := by
  rw [message, List.map_cons, String.join_cons]
  rfl

/-- A text without a line feed has one line, whatever it ends with. -/
theorem length_linesOf (h : '\n' ∉ s.toList) : (linesOf s).length = 1 := by
  rw [linesOf, partsAt_of_not_mem h]
  rfl

/-- The end of a text decides whether a line in front of it goes on as a line. -/
theorem isLine_append_iff (hs : IsLine s) (ht : t ≠ "") :
    IsLine (s ++ t) ↔ IsLine t := by
  have hlast : (s ++ t).toList.getLast? = t.toList.getLast? := by
    rw [String.toList_append, List.getLast?_append_of_ne_nil _ (by simpa using ht)]
  rw [IsLine, IsLine, hlast, String.toList_append, List.mem_append]
  simp [hs.1]

end SheetDiff.Text
