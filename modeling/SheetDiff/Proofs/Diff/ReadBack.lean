import SheetDiff.Proofs.Diff.Fewest
import SheetDiff.Proofs.Text.Messages

/-!
# Unified diffs are read back

The text of a unified diff splits into its body again, since no line of it holds a line break
(`breakless_of_mem_body`), and the hunks can be told from the body: headers start with a mark that no
line of a hunk starts with, whatever its content (`texts_inj`), and the two places in a header are
written in digits and commas, so that each ends at the first space behind it (`rangeText_inj`). So two
diffs with the same names and the same text have the same hunks (`readsBack_unifiedDiff`).
-/

namespace SheetDiff

open Text

/-! ## Headers -/

section Headers

variable {a b m n : Nat}

/-- The side of a header starts with a number. -/
private def firstNumber (start lines : Nat) : Nat := if lines = 0 then start else start + 1

/-- What follows the first number of a side. -/
private def secondPart (lines : Nat) : List Char :=
  if lines = 1 then [] else ',' :: Nat.toDigits 10 lines

private theorem toList_sideText (start lines : Nat) : (HunkRange.sideText start lines).toList =
    Nat.toDigits 10 (firstNumber start lines) ++ secondPart lines := by
  rcases lines with _ | _ | lines
  · simp [HunkRange.sideText, firstNumber, secondPart]
  · simp [HunkRange.sideText, firstNumber, secondPart]
  · simp [HunkRange.sideText, firstNumber, secondPart]

private theorem isDigit_of_digits {c : Char} (h : c ∈ Nat.toDigits 10 n) : c.isDigit = true :=
  Nat.isDigit_of_mem_toDigits (by omega) (by omega) h

private theorem digits_inj (h : Nat.toDigits 10 m = Nat.toDigits 10 n) : m = n := by
  apply Nat.repr_injective
  rw [← String.toList_inj, Nat.toList_repr, Nat.toList_repr, h]

/-- A side of a header is written in digits and commas. -/
theorem sideText_char {c : Char} (h : c ∈ (HunkRange.sideText a m).toList) :
    c.isDigit = true ∨ c = ',' := by
  rw [toList_sideText, List.mem_append] at h
  rcases h with h | h
  · exact .inl (isDigit_of_digits h)
  · unfold secondPart at h
    split at h
    · simp at h
    · rcases List.mem_cons.1 h with rfl | h
      · exact .inr rfl
      · exact .inl (isDigit_of_digits h)

theorem sideText_inj (h : HunkRange.sideText a m = HunkRange.sideText b n) : a = b ∧ m = n := by
  have hhead (k : Nat) : ∀ c ∈ (secondPart k).head?, c.isDigit = false := by
    intro c hc
    unfold secondPart at hc
    split at hc
    · simp at hc
    · obtain rfl : ',' = c := by simpa using hc
      decide
  rw [← String.toList_inj, toList_sideText, toList_sideText] at h
  obtain ⟨hfirst, hsecond⟩ := cut_inj (fun _ => isDigit_of_digits) (fun _ => isDigit_of_digits)
    (hhead m) (hhead n) h
  have hlines : m = n := by
    unfold secondPart at hsecond
    split at hsecond <;> split at hsecond
    · rename_i hm hn
      rw [hm, hn]
    · simp at hsecond
    · simp at hsecond
    · exact digits_inj (List.cons.inj hsecond).2
  subst hlines
  have hnumber := digits_inj hfirst
  unfold firstNumber at hnumber
  refine ⟨?_, rfl⟩
  split at hnumber
  · exact hnumber
  · omega

/-- Different places are written differently. -/
theorem rangeText_inj {r s : HunkRange} (h : r.text = s.text) : r = s := by
  have hspace {a m : Nat} : ∀ c ∈ (HunkRange.sideText a m).toList, decide (c ≠ ' ') = true := by
    intro c hc
    have hne : c ≠ ' ' := by
      rintro rfl
      simpa using sideText_char hc
    simpa using hne
  simp only [HunkRange.text, ← String.toList_inj, String.toList_append, List.append_assoc,
    List.append_cancel_left_eq] at h
  obtain ⟨hold, h⟩ := cut_inj hspace hspace (by simp) (by simp) h
  rw [List.append_cancel_left_eq, List.append_cancel_right_eq] at h
  obtain ⟨ho, hol⟩ := sideText_inj (String.toList_inj.1 hold)
  obtain ⟨hn, hnl⟩ := sideText_inj (String.toList_inj.1 h)
  cases r
  cases s
  exact HunkRange.mk.injEq .. ▸ ⟨ho, hol, hn, hnl⟩

end Headers

/-! ## Bodies -/

section Bodies

variable {hs ks : List Hunk}

theorem lineText_inj {l k : HunkLine} (h : l.text = k.text) : l = k := by
  have hmark : l.kind.mark = k.kind.mark := by
    have hhead := congrArg (·.toList.head?) h
    simpa [head_text] using hhead
  have hkind : l.kind = k.kind := by
    cases hl : l.kind <;> cases hk : k.kind <;> simp [hl, hk, LineKind.mark] at hmark ⊢
  simp only [HunkLine.text, hkind, String.append_right_inj] at h
  cases l
  cases k
  simp_all

/-- A body goes on with a header or is at its end where the lines of a hunk end. -/
private theorem head_texts (hs : List Hunk) :
    ∀ line ∈ (hs.flatMap Hunk.texts).head?, decide (line.toList.head? ≠ some '@') = false := by
  intro line hline
  cases hs with
  | nil => simp at hline
  | cons h hs =>
    obtain rfl : h.header.text = line := by simpa [Hunk.texts] using hline
    simp [head_headerText]

private theorem no_header (h : Hunk) :
    ∀ line ∈ h.lines.map HunkLine.text, decide (line.toList.head? ≠ some '@') = true := by
  intro line hline
  obtain ⟨l, -, rfl⟩ := List.mem_map.1 hline
  simpa using head_text_ne_header l

/-- The hunks of a body can be told from it. -/
theorem texts_inj (h : hs.flatMap Hunk.texts = ks.flatMap Hunk.texts) : hs = ks := by
  induction hs generalizing ks with
  | nil =>
    cases ks with
    | nil => rfl
    | cons k ks => simp [Hunk.texts] at h
  | cons k hs ih =>
    cases ks with
    | nil => simp [Hunk.texts] at h
    | cons k' ks =>
      simp only [List.flatMap_cons, Hunk.texts, List.cons_append, List.cons.injEq] at h
      obtain ⟨hheader, h⟩ := h
      obtain ⟨hlines, h⟩ := cut_inj (no_header k) (no_header k') (head_texts hs) (head_texts ks) h
      have hlines := (List.map_injective_iff.2 fun _ _ => lineText_inj) hlines
      have hheader := rangeText_inj hheader
      have hkk : k = k' := by
        cases k
        cases k'
        exact Hunk.mk.injEq .. ▸ ⟨hheader, hlines⟩
      rw [hkk, ih h]

end Bodies

/-! ## Line breaks -/

/-- A text without a carriage return and without a line feed. -/
def Breakless (s : String) : Prop := ∀ c ∈ s.toList, c ≠ '\r' ∧ c ≠ '\n'

theorem Breakless.append {s t : String} (hs : Breakless s) (ht : Breakless t) :
    Breakless (s ++ t) := by
  intro c hc
  rw [String.toList_append, List.mem_append] at hc
  exact hc.elim (hs c) (ht c)

theorem Breakless.isLine {s : String} (hs : Breakless s) : IsLine s :=
  ⟨fun hc => (hs _ hc).2 rfl, fun hc => (hs _ (List.mem_of_getLast? hc)).1 rfl⟩

theorem breakless_rangeText (r : HunkRange) : Breakless r.text := by
  have hside (a m : Nat) : Breakless (HunkRange.sideText a m) := by
    intro c hc
    rcases sideText_char hc with hdigit | rfl
    · constructor
      · rintro rfl
        exact absurd hdigit (by decide)
      · rintro rfl
        exact absurd hdigit (by decide)
    · decide
  have hopen : Breakless "@@ -" := by simp [Breakless]
  have hmiddle : Breakless " +" := by simp [Breakless]
  have hclose : Breakless " @@" := by simp [Breakless]
  exact (((hopen.append (hside _ _)).append hmiddle).append (hside _ _)).append hclose

theorem breakless_lineText {l : HunkLine} (h : Breakless l.content) : Breakless l.text := by
  have hmark : Breakless l.kind.mark.toString := by
    cases l.kind <;> simp [Breakless, LineKind.mark, Char.toString]
  exact hmark.append h

/-- The lines of hunks are lines of the texts without their terminators. -/
private theorem exists_line {old new : List String} {s : Diff.Section} {l : HunkLine}
    (h : l ∈ sectionLines old new s) :
    ∃ line, (line ∈ old ∨ line ∈ new) ∧ l.content = bareLine line := by
  unfold sectionLines at h
  split at h
  · rcases List.mem_append.1 h with h | h
    · obtain ⟨line, hline, rfl⟩ := List.mem_map.1 h
      exact ⟨line, .inl (mem_of_mem_slice hline), rfl⟩
    · obtain ⟨line, hline, rfl⟩ := List.mem_map.1 h
      exact ⟨line, .inr (mem_of_mem_slice hline), rfl⟩
  · obtain ⟨line, hline, rfl⟩ := List.mem_map.1 h
    exact ⟨line, .inl (mem_of_mem_slice hline), rfl⟩

section Unified

variable (old new oldLabel newLabel : String) (context : Nat)

/-- No line of the body of a unified diff holds a line break. -/
theorem breakless_of_mem_body {line : String}
    (h : line ∈ (unifiedDiff old new oldLabel newLabel context).body) : Breakless line := by
  obtain ⟨k, hk, hline⟩ := List.mem_flatMap.1 h
  rcases List.mem_cons.1 hline with rfl | hline
  · exact breakless_rangeText k.header
  · obtain ⟨l, hl, rfl⟩ := List.mem_map.1 hline
    have hlines : l ∈ (unifiedDiff old new oldLabel newLabel context).lines :=
      List.mem_flatMap.2 ⟨k, hk, hl⟩
    rw [lines_unifiedDiff] at hlines
    obtain ⟨s, -, hs⟩ := List.mem_flatMap.1 hlines
    obtain ⟨line, hmem, hcontent⟩ := exists_line hs
    apply breakless_lineText
    rw [hcontent]
    rcases hmem with hmem | hmem
    · exact (isBare_bareLine hmem).1
    · exact (isBare_bareLine hmem).1

/-! ## Texts -/

/-- A diff whose text splits into its body again, from which its changed lines are counted. -/
structure UnifiedDiff.ReadsBack (d : UnifiedDiff) : Prop where
  breakless : ∀ line ∈ d.body, Breakless line
  text_eq : d.text =
    "--- " ++ d.oldLabel ++ "\n" ++ "+++ " ++ d.newLabel ++ "\n" ++ message d.body
  lines_text : (Text.lines d.text).drop 2 = d.body
  summary_text : Summary.ofPatchLines ((Text.lines d.text).drop 2) = d.summary
  summary_eq : d.summary =
    ⟨(d.hunks.map (Hunk.count .addition)).sum, (d.hunks.map (Hunk.count .deletion)).sum, none⟩

theorem text_eq_message (d : UnifiedDiff) :
    d.text = message (("--- " ++ d.oldLabel) :: ("+++ " ++ d.newLabel) :: d.body) := rfl

/-- The text of a unified diff is read back. Behind the names of both texts it has the lines of the
body, none of which holds a line break, and the summary that they give counts the added and the deleted
lines of all hunks. Diffs of any texts with the same names and the same text have the same hunks. -/
theorem readsBack_unifiedDiff (ho : '\n' ∉ oldLabel.toList) (hn : '\n' ∉ newLabel.toList) :
    (unifiedDiff old new oldLabel newLabel context).ReadsBack ∧
      ∀ (old' new' : String) (context' : Nat),
        (unifiedDiff old' new' oldLabel newLabel context').text =
          (unifiedDiff old new oldLabel newLabel context).text →
        (unifiedDiff old' new' oldLabel newLabel context').hunks =
          (unifiedDiff old new oldLabel newLabel context).hunks := by
  have hbody (old new : String) (context : Nat) :
      ∀ line ∈ (unifiedDiff old new oldLabel newLabel context).body, IsLine line :=
    fun line hline => (breakless_of_mem_body old new oldLabel newLabel context hline).isLine
  refine ⟨?reads, fun old' new' context' h => ?hunks⟩
  case reads =>
    have hlines : (Text.lines (unifiedDiff old new oldLabel newLabel context).text).drop 2 =
        (unifiedDiff old new oldLabel newLabel context).body := by
      have hold : (linesOf ("--- " ++ oldLabel)).length = 1 := length_linesOf (by simpa using ho)
      have hnew : (linesOf ("+++ " ++ newLabel)).length = 1 := length_linesOf (by simpa using hn)
      have hrest := (lines_message_eq_iff _).2 (hbody old new context)
      rw [lines_message] at hrest
      rw [text_eq_message, lines_message, List.flatMap_cons, List.flatMap_cons, hrest,
        ← List.append_assoc]
      exact List.drop_left' (by simp [unifiedDiff, hold, hnew])
    exact ⟨fun line => breakless_of_mem_body old new oldLabel newLabel context,
      by simp only [text_eq_message, message_cons, String.append_assoc], hlines,
      congrArg Summary.ofPatchLines hlines, summary_eq_counts _⟩
  case hunks =>
    rw [text_eq_message, text_eq_message, message_cons, message_cons, message_cons, message_cons] at h
    have hmessage := (String.append_right_inj _).1 ((String.append_right_inj _).1 h)
    exact texts_inj (message_inj (hbody old' new' context') (hbody old new context) hmessage)

end Unified

/-- An added line that starts with a mark itself. -/
theorem readsBack_marked_line : '\n' ∉ "a".toList ∧ '\n' ∉ "b".toList ∧
    (Text.lines (unifiedDiff "a\n" "a\n-b\n" "a" "b" 4).text).drop 2 =
      ["@@ -1 +1,2 @@", " a", "+-b"] ∧
    (unifiedDiff "a\n" "a\n-b\n" "a" "b" 4).summary = ⟨1, 0, none⟩ := by
  have ho : '\n' ∉ "a".toList := by decide
  have hn : '\n' ∉ "b".toList := by decide
  obtain ⟨hreads, -⟩ := readsBack_unifiedDiff "a\n" "a\n-b\n" "a" "b" 4 ho hn
  have hl : textLines "a\n" = ["a\n"] ∧ textLines "a\n-b\n" = ["a\n", "-b\n"] := by decide
  have hd : (unifiedDiff "a\n" "a\n-b\n" "a" "b" 4).hunks =
      [⟨⟨0, 1, 0, 2⟩, [⟨.context, "a"⟩, ⟨.addition, "-b"⟩]⟩] := by
    rw [unifiedDiff, hl.1, hl.2]
    cbv
  have hbody : (unifiedDiff "a\n" "a\n-b\n" "a" "b" 4).body =
      ["@@ -1 +1,2 @@", " a", "+-b"] := by
    rw [UnifiedDiff.body, hd]
    decide
  refine ⟨ho, hn, hreads.lines_text.trans hbody, ?_⟩
  rw [hreads.summary_eq, hd]
  decide

end SheetDiff
