import SheetDiff.Proofs.Css.Lines

/-!
# Spans of lines

The tokens of a text stand one behind the other: each starts no higher than the line reached behind the
token before it. `Spans low high ts` says so of tokens between two lines. It holds of a whole text
between its first and its last line (`spans_tokens`), and it splits where tokens are parted
(`spans_append`).
-/

namespace SheetDiff.Css

variable {low low' high high' line : Nat} {t : Token} {ts us : List Token} {cs : List Char}

/-- The line reached behind a token. -/
def Token.stop (t : Token) : Nat := t.line + Text.lineBreaks t.source

/-- The tokens stand one behind the other between two lines. -/
def Spans (low high : Nat) : List Token → Prop
  | [] => low ≤ high
  | t :: ts => low ≤ t.line ∧ Spans t.stop high ts

theorem Token.line_le_stop (t : Token) : t.line ≤ t.stop := Nat.le_add_right _ _

theorem Spans.le (h : Spans low high ts) : low ≤ high := by
  induction ts generalizing low with
  | nil => exact h
  | cons t ts ih => exact (h.1.trans t.line_le_stop).trans (ih h.2)

theorem Spans.lower (h : Spans low high ts) (hl : low' ≤ low) : Spans low' high ts := by
  cases ts with
  | nil => exact hl.trans h
  | cons t ts => exact ⟨hl.trans h.1, h.2⟩

theorem Spans.upper (h : Spans low high ts) (hh : high ≤ high') : Spans low high' ts := by
  induction ts generalizing low with
  | nil => exact Nat.le_trans h hh
  | cons t ts ih => exact ⟨h.1, ih h.2⟩

theorem spans_append : Spans low high (ts ++ us) ↔ ∃ middle, Spans low middle ts ∧
    Spans middle high us := by
  induction ts generalizing low with
  | nil => exact ⟨fun h => ⟨low, Nat.le_refl low, h⟩, fun ⟨_, hl, h⟩ => h.lower hl⟩
  | cons t ts ih =>
    simp only [List.cons_append, Spans, ih]
    exact ⟨fun ⟨hl, m, h, h'⟩ => ⟨m, ⟨hl, h⟩, h'⟩, fun ⟨m, ⟨hl, h⟩, h'⟩ => ⟨hl, m, h, h'⟩⟩

/-- A token stands between the lines of any tokens that it is among. -/
theorem Spans.bounds (h : Spans low high ts) (ht : t ∈ ts) : low ≤ t.line ∧ t.stop ≤ high := by
  obtain ⟨xs, ys, rfl⟩ := List.append_of_mem ht
  obtain ⟨middle, hxs, hline, hys⟩ := spans_append.1 h
  exact ⟨hxs.le.trans hline, hys.le⟩

theorem spans_tokensFrom (line : Nat) (cs : List Char) :
    Spans line (line + breaksIn (tokensFrom line cs)) (tokensFrom line cs) := by
  fun_induction tokensFrom line cs with
  | case1 => exact Nat.le_refl _
  | case2 line c cs kind n _ source ih =>
    refine ⟨Nat.le_refl _, ?_⟩
    rwa [breaksIn_cons, ← Nat.add_assoc]

/-- The tokens of a text stand between its first line and its last. -/
theorem spans_tokens (cs : List Char) : Spans 1 (1 + Text.lineBreaks cs) (tokens cs) := by
  have hbreaks : Text.lineBreaks cs = breaksIn (tokens cs) := by
    rw [← (reads_tokens cs).lineBreaks, sourceOf_tokens]
  rw [hbreaks]
  exact spans_tokensFrom 1 cs

end SheetDiff.Css
