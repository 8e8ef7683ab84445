import SheetDiff.Proofs.Css.Joint

/-!
# What stands before an edge

A token that ends before a curly bracket or a semicolon is read without a look at what follows that
character (`ReadsOne.barrier`). Unlike `Reads.edged` this holds of texts with escapes and broken
strings as well, since the edge stays where it is. An edge is no part of an escape, and what starts
an identifier before an edge starts one at the end of the text.
-/

namespace SheetDiff.Css

variable {c e : Char} {w q z : List Char}

/-! ## Characters and digits -/

/-- What no edge is part of. -/
theorem not_of_isEdge (he : isEdge e = true) : isBlank e = false ∧ isNewline e = false ∧
    isNameStart e = false ∧ isNameChar e = false ∧ e.isDigit = false ∧
    (Text.hexDigit? e).isSome = false ∧ isNonPrintable e = false := by
  rcases isEdge_cases he with rfl | rfl | rfl <;> decide

theorem ne_of_isEdge (he : isEdge e = true) : e ≠ '\\' ∧ e ≠ '(' ∧ e ≠ ')' ∧ e ≠ '.' ∧ e ≠ '%' ∧
    e ≠ '-' ∧ e ≠ '+' ∧ e ≠ 'e' ∧ e ≠ 'E' ∧ e ≠ '/' ∧ e ≠ '*' ∧ e ≠ '=' ∧ e ≠ '"' ∧ e ≠ '\'' := by
  rcases isEdge_cases he with rfl | rfl | rfl <;> decide

theorem dull_of_isEdge (he : isEdge e = true) (q : List Char) : Dull (e :: q) := by
  refine dull_cons ?_ q
  rcases isEdge_cases he with rfl | rfl | rfl <;> decide

theorem joint_of_isEdge (he : isEdge e = true) (q z : List Char) : Joint (e :: q) (e :: z) :=
  ⟨dull_of_isEdge he q, dull_of_isEdge he z, nofun, id, (not_of_isEdge he).2.1⟩

theorem startsWith_barrier {p : Char → Bool} (hp : p e = false) (w q : List Char) :
    startsWith p (w ++ e :: q) = startsWith p w := by
  have hs : startsWith p (e :: q) = false := hp
  exact startsWith_append hs w

theorem newlineLength_barrier (he : isEdge e = true) (w q : List Char) :
    newlineLength (w ++ e :: q) = newlineLength w := by
  have hn := (not_of_isEdge he).2.1
  have hne : e ≠ '\r' ∧ e ≠ '\n' := by
    rcases isEdge_cases he with rfl | rfl | rfl <;> decide
  cases w with
  | nil => simp [newlineLength, hn, hne.1]
  | cons c w =>
    cases w with
    | nil => simp [newlineLength, hne.2]
    | cons d w =>
      by_cases hc : c = '\r' ∧ d = '\n'
      · obtain ⟨rfl, rfl⟩ := hc
        rfl
      · have hrest (k : List Char) : newlineLength (c :: d :: k) = if isNewline c then 1 else 0 := by
          rw [newlineLength]
          rintro cs rfl hd
          exact hc ⟨rfl, (List.cons.inj hd).1⟩
        rw [List.cons_append, List.cons_append, hrest, hrest]

private theorem blankLength_barrier (he : isEdge e = true) (w q : List Char) :
    blankLength (w ++ e :: q) = blankLength w := by
  obtain ⟨hb, hn, -⟩ := not_of_isEdge he
  rw [blankLength, startsWith_barrier hn, startsWith_barrier hb, newlineLength_barrier he, blankLength]

/-! ## Escapes and names -/

/-- An escape that takes something before an edge ends before it. -/
theorem escape_barrier (he : isEdge e = true) (hw : w ≠ []) (q : List Char) :
    escape (w ++ e :: q) = escape w := by
  have hd := escapeDigits_dull (dull_of_isEdge he q) w
  by_cases h : escapeDigits w = []
  · rw [escape_of_nil h, escape_of_nil (hd.trans h)]
    cases w with
    | nil => exact absurd rfl hw
    | cons c w => rfl
  · have hle : (escapeDigits w).length ≤ w.length := by
      have := (List.takeWhile_sublist (l := w.take 6) fun c => (Text.hexDigit? c).isSome).length_le
      rw [List.length_take] at this
      rw [escapeDigits]
      omega
    rw [escape_of_digits h, escape_of_digits (hd ▸ h), hd, List.drop_append_of_le_length hle,
      blankLength_barrier he]

/-! ## Identifiers -/

theorem startsIdent_barrier (he : isEdge e = true) (w q : List Char) :
    startsIdent (w ++ e :: q) = startsIdent w := by
  obtain ⟨-, hn, hname, -⟩ := not_of_isEdge he
  obtain ⟨hb, -, -, -, -, hminus, -⟩ := ne_of_isEdge he
  cases w with
  | nil => simp [startsIdent, hb, hminus, hname]
  | cons c w =>
    rw [List.cons_append, startsIdent, startsIdent, startsWith_barrier (by simp [hname, hminus, hb]),
      startsWith_barrier hn]

/-! ## Tokens -/

variable {t : Token} {ts : List Token} {p : List Char}

/-- A token that ends before an edge is read alike whatever follows that edge. -/
theorem ReadsOne.barrier (h : ReadsOne t (p ++ e :: q)) (he : isEdge e = true) (z : List Char) :
    ReadsOne t (p ++ e :: z) := by
  refine h.joint (joint_of_isEdge he q z) (fun hnew => ?_) (unquotedUrl?_edged ?_)
  · have hno : startsWith isNewline (e :: q) = false := (not_of_isEdge he).2.1
    simp [hno] at hnew
  · exact ⟨[], e, q, by simp [Blanks], he, rfl⟩

/-- Tokens before an edge are read alike whatever follows that edge. -/
theorem Reads.barrier (h : Reads ts (p ++ e :: q)) (he : isEdge e = true) (z : List Char) :
    Reads ts (p ++ e :: z) := by
  induction ts with
  | nil => trivial
  | cons t ts ih =>
    obtain ⟨ht, hts⟩ := h
    rw [← List.append_assoc] at ht
    refine ⟨?_, ih hts⟩
    rw [← List.append_assoc]
    exact ht.barrier he z

end SheetDiff.Css
