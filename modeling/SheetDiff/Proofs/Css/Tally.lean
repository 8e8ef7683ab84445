import Mathlib.Algebra.Order.Group.Multiset
import SheetDiff.Proofs.Css.Collapsed

/-!
# Tallies of tokens

The tally of a list of tokens is the multiset of its tokens, white space squeezed, without white space,
comments and separators. The tally of a text is that of its tokens; it adds up where a text is cut at
the end of a token (`textTally_append`), blanks and separators add nothing to it, and the collapsed
source of nodes has their tally (`textTally_collapse`).
-/

namespace SheetDiff.Css

open Node (AllFit allTokens)

variable {b : Option Bracket} {c : Char} {k p q : List Char} {t : Token} {ts us : List Token}
variable {ns ms : List Node}

/-- Whether tokens of a kind are counted. -/
def Kind.isCounted : Kind → Bool
  | .whitespace | .comment _ | .semicolon | .comma | .cdo | .cdc => false
  | _ => true

/-- A token without its line and with its white space squeezed. -/
def Token.plain (t : Token) : Token := t.squeeze.unlined

/-- The tokens that count, white space squeezed, in any order. -/
def tally (ts : List Token) : Multiset Token :=
  ((ts.filter (·.kind.isCounted)).map Token.plain : List Token)

@[simp] theorem tally_nil : tally [] = 0 := rfl

@[simp] theorem tally_append (ts us : List Token) : tally (ts ++ us) = tally ts + tally us := by
  simp [tally]

theorem tally_cons (t : Token) (ts : List Token) : tally (t :: ts) = tally [t] + tally ts :=
  tally_append [t] ts

theorem tally_of_not_counted (h : t.kind.isCounted = false) (ts : List Token) :
    tally (t :: ts) = tally ts := by
  simp [tally, h]

theorem tally_eq_zero (h : ∀ t ∈ ts, t.kind.isCounted = false) : tally ts = 0 := by
  induction ts with
  | nil => rfl
  | cons t ts ih =>
    rw [tally_of_not_counted (h t (by simp)), ih fun u hu => h u (by simp [hu])]

/-- A change of tokens that cannot be seen when they are squeezed. -/
theorem tally_map {f : Token → Token} (hk : ∀ t, (f t).kind.isCounted = t.kind.isCounted)
    (hp : ∀ t, (f t).plain = t.plain) (ts : List Token) : tally (ts.map f) = tally ts := by
  simp only [tally, List.filter_map, List.map_map, Function.comp_def, hk, hp]

theorem tally_map_unlined (ts : List Token) : tally (ts.map Token.unlined) = tally ts :=
  tally_map (f := Token.unlined) (fun _ => rfl) (fun _ => rfl) ts

theorem tally_map_squeeze (ts : List Token) : tally (ts.map Token.squeeze) = tally ts := by
  have hs (cs : List Char) : Text.squeeze (Text.squeeze cs) = Text.squeeze cs :=
    Text.alike_squeeze cs
  apply tally_map
  · intro t
    simp only [Token.squeeze]
    cases t.kind <;> rfl
  · intro t
    have hk : t.kind.squeeze.squeeze = t.kind.squeeze := by
      cases t.kind <;> simp [Kind.squeeze, hs]
    simp [Token.plain, Token.squeeze, Token.unlined, hk, hs]

/-! ## Tallies of texts -/

def textTally (cs : List Char) : Multiset Token := tally (lex cs)

@[simp] theorem textTally_nil : textTally [] = 0 := by simp [textTally]

theorem tally_tokens (cs : List Char) : tally (tokens cs) = textTally cs :=
  (tally_map_unlined _).symm

/-- A text adds up to the tokens at its start and the rest of it. -/
theorem textTally_append (h : Reads ts k) :
    textTally (sourceOf ts ++ k) = tally ts + textTally k := by
  rw [textTally, lex_append h, tally_append, tally_map_unlined, textTally]

theorem textTally_readsOne (h : ReadsOne t k) :
    textTally (t.source ++ k) = tally [t] + textTally k := by
  have happ : textTally (sourceOf [t] ++ k) = tally [t] + textTally k :=
    textTally_append ⟨h, trivial⟩
  simpa using happ

/-- Blanks add nothing, whatever follows. -/
theorem textTally_blank (hc : isBlank c = true) (k : List Char) : textTally (c :: k) = textTally k := by
  have hrun (d : Char) (k : List Char) (hd : isBlank d = true) :
      textTally (d :: k) = textTally (k.dropWhile isBlank) := by
    have hr : ReadsOne ⟨.whitespace, d :: k.takeWhile isBlank, 0⟩ (k.dropWhile isBlank) := by
      refine ⟨d, k.takeWhile isBlank, rfl, ?_⟩
      rw [List.takeWhile_append_dropWhile, scan, if_pos hd]
    have h := textTally_readsOne hr
    rw [List.cons_append, List.takeWhile_append_dropWhile] at h
    rw [h, tally_of_not_counted rfl, tally_nil, zero_add]
  rw [hrun c k hc]
  cases k with
  | nil => rfl
  | cons d k =>
    cases hd : isBlank d with
    | true => rw [hrun d k hd, List.dropWhile_cons, if_pos hd]
    | false => rw [List.dropWhile_cons, if_neg (by simp [hd])]

theorem textTally_blanks (hp : Blanks p) (k : List Char) : textTally (p ++ k) = textTally k := by
  induction p with
  | nil => rfl
  | cons c p ih =>
    rw [List.cons_append, textTally_blank (hp c (by simp)), ih fun d hd => hp d (by simp [hd])]

/-- A character that is a token of its own. -/
theorem textTally_symbol {kind : Kind} (hs : ∀ k, scan c k = (kind, 0)) (k : List Char) :
    textTally (c :: k) = tally [⟨kind, [c], 0⟩] + textTally k :=
  textTally_readsOne (t := ⟨kind, [c], 0⟩) ⟨c, [], rfl, hs k⟩

theorem textTally_comma (k : List Char) : textTally (',' :: k) = textTally k := by
  rw [textTally_symbol scan_comma, tally_of_not_counted rfl, tally_nil, zero_add]

theorem textTally_semicolon (k : List Char) : textTally (';' :: k) = textTally k := by
  rw [textTally_symbol scan_semicolon, tally_of_not_counted rfl, tally_nil, zero_add]

/-- A comment adds nothing. -/
theorem textTally_comment {text : List Char} (h : ¬ ClosesComment text) (k : List Char) :
    textTally ('/' :: '*' :: (text ++ '*' :: '/' :: k)) = textTally k := by
  have hr := textTally_readsOne (readsOne_comment h 0 k)
  rw [tally_of_not_counted rfl, tally_nil, zero_add] at hr
  simpa using hr

/-! ## Tallies of collapsed sources -/

private theorem tally_blanks {xs : List Node} (h : ∀ n ∈ xs, n.isBlank = true) :
    tally (allTokens xs) = 0 := by
  induction xs with
  | nil => rfl
  | cons n xs ih =>
    have hn := h n (by simp)
    rw [allTokens, tally_append, ih fun m hm => h m (by simp [hm]), add_zero]
    cases n with
    | leaf t =>
      have hk : t.kind = .whitespace := of_decide_eq_true hn
      exact tally_of_not_counted (by rw [hk]; rfl) []
    | block opener inner closer => simp [Node.isBlank, Node.isLeaf, Node.isBlock] at hn

/-- The collapsed source of nodes has their tally. -/
theorem textTally_collapse (h : Node.Written b ns) {k : List Char} (hk : Stops k) :
    textTally ((Text.collapse (Node.source ns)).toList ++ k) =
      tally (allTokens ns) + textTally k := by
  obtain ⟨hreads, hsource⟩ := reads_collapse h hk
  obtain ⟨xs, ys, hns, hxs, hys⟩ := Node.exists_trim ns
  have htally : tally (allTokens ns) = tally (allTokens (Node.trim ns)) := by
    have htokens := congrArg allTokens hns
    rw [Node.allTokens_append, Node.allTokens_append] at htokens
    rw [htokens, tally_append, tally_append, tally_blanks hxs, tally_blanks hys, zero_add, add_zero]
  rw [← hsource, textTally_append hreads, tally_map_squeeze, htally]

/-- A token without white space has its own tally before any text that continues no token. -/
theorem textTally_token (h : Node.Written b [.leaf t]) (hl : t.kind.isLocal = true) {k : List Char}
    (hk : Stops k) : textTally (t.source ++ k) = tally [t] + textTally k := by
  have htally := textTally_collapse h hk
  rw [toList_collapse_token h hl] at htally
  exact htally

end SheetDiff.Css
