import SheetDiff.Diff.Unified

/-!
# Lines and their terminators

A line of a text is its content with at most one terminator behind it (`isBare_bareLine`): the
content holds neither a carriage return nor a line feed, so `bareLine` takes off the terminator and
nothing else.
-/

namespace SheetDiff

/-- What may end a line; the last line of a text may lack a terminator. -/
def terminators : List String := ["", "\n", "\r\n", "\r"]

/-- `content` is `line` without its terminator. -/
def IsBare (line content : String) : Prop :=
  (∀ c ∈ content.toList, c ≠ '\r' ∧ c ≠ '\n') ∧ ∃ t ∈ terminators, line = content ++ t

namespace Text

/-- A content with a terminator behind it. -/
private def Terminated (line : List Char) : Prop :=
  ∃ content, (∀ c ∈ content, c ≠ '\r' ∧ c ≠ '\n') ∧ ∃ t ∈ terminators, line = content ++ t.toList

private theorem head_terminatedLines {cs : List Char} (h : cs.head? = some '\n') :
    (terminatedLines cs).head? = some ['\n'] := by
  cases cs with
  | nil => simp at h
  | cons c cs =>
    obtain rfl : c = '\n' := by simpa using h
    simp [terminatedLines, endsLine]

private theorem terminated_of_mem {cs line : List Char} (h : line ∈ terminatedLines cs) :
    Terminated line := by
  induction cs generalizing line with
  | nil => simp [terminatedLines] at h
  | cons c cs ih =>
    unfold terminatedLines at h
    split at h
    · rename_i he
      rcases List.mem_cons.1 h with rfl | h
      · simp only [endsLine, Bool.or_eq_true, decide_eq_true_eq, Bool.and_eq_true] at he
        rcases he with rfl | ⟨rfl, -⟩
        · exact ⟨[], by simp, "\n", by simp [terminators], rfl⟩
        · exact ⟨[], by simp, "\r", by simp [terminators], rfl⟩
      · exact ih h
    · rename_i he
      simp only [endsLine, Bool.or_eq_true, decide_eq_true_eq, Bool.and_eq_true, not_or, not_and,
        ne_eq, decide_not, Bool.not_eq_true', decide_eq_false_iff_not, Decidable.not_not] at he
      split at h
      · rename_i hn
        obtain rfl : line = [c] := by simpa using h
        have hcs : cs = [] := by simpa [hn] using (flatten_terminatedLines cs).symm
        subst cs
        refine ⟨[c], ?_, "", by simp [terminators], rfl⟩
        simpa using ⟨fun hc => by simpa using he.2 hc, he.1⟩
      · rename_i first rest hn
        rcases List.mem_cons.1 h with rfl | h
        · by_cases hc : c = '\r'
          · have hf := head_terminatedLines (he.2 hc)
            obtain rfl : first = ['\n'] := by simpa [hn] using hf
            subst hc
            exact ⟨[], by simp, "\r\n", by simp [terminators], rfl⟩
          · obtain ⟨content, hcont, t, ht, rfl⟩ := ih (by rw [hn]; exact List.mem_cons_self)
            refine ⟨c :: content, ?_, t, ht, rfl⟩
            rintro d hd
            rcases List.mem_cons.1 hd with rfl | hd
            · exact ⟨hc, he.1⟩
            · exact hcont d hd
        · exact ih (by simp [hn, h])

private theorem bareLine_append {content : List Char} (hc : ∀ c ∈ content, c ≠ '\r' ∧ c ≠ '\n')
    {t : String} (ht : t ∈ terminators) :
    bareLine (String.ofList (content ++ t.toList)) = String.ofList content := by
  have ht' : ∀ c ∈ t.toList.reverse, (c = '\r' || c = '\n') = true := by
    simp only [terminators, List.mem_cons, List.not_mem_nil, or_false] at ht
    rcases ht with rfl | rfl | rfl | rfl <;> simp
  rw [bareLine, String.toList_ofList, List.reverse_append, List.dropWhile_append_of_pos ht']
  cases hr : content.reverse with
  | nil => simp_all
  | cons d ds =>
    have hd := hc d (List.mem_reverse.1 (by simp [hr]))
    rw [List.dropWhile_cons_of_neg (by simpa using hd), ← hr, List.reverse_reverse]

end Text

theorem IsBare.bareLine_eq {line content : String} (h : IsBare line content) :
    Text.bareLine line = content := by
  obtain ⟨hc, t, ht, rfl⟩ := h
  rw [← String.ofList_toList (s := content), ← String.ofList_toList (s := t), ← String.ofList_append]
  exact Text.bareLine_append hc ht

theorem isBare_bareLine {text line : String} (h : line ∈ textLines text) :
    IsBare line (Text.bareLine line) := by
  obtain ⟨cs, hcs, rfl⟩ := List.mem_map.1 h
  obtain ⟨content, hc, t, ht, rfl⟩ := Text.terminated_of_mem hcs
  rw [Text.bareLine_append hc ht]
  exact ⟨by simpa using hc, t, ht, by simp [String.ofList_append]⟩

end SheetDiff
