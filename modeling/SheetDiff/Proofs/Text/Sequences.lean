import Mathlib.Data.List.Basic
import Mathlib.Data.List.TakeWhile

/-!
# Escape sequences

A terminal is told to change its style by a sequence `ESC [ digits m`, and `uncolored` deletes all of
them from a text. Only whole sequences are deleted: a text may be cut wherever the second part does not
start with a character that goes on with one (`dropSequences_append`), and a text without the escape
character stays as it is (`uncolored_of_unescaped`).
-/

namespace SheetDiff.Text

variable {cs k rest w : List Char}

/-- A sequence that changes the style of what follows. -/
def IsSequence (w : List Char) : Prop :=
  ∃ digits : List Char, digits ≠ [] ∧ (∀ d ∈ digits, d.isDigit = true) ∧
    w = '\x1b' :: '[' :: digits ++ ['m']

/-- What follows the sequence at the start of a text. -/
def afterSequence? : List Char → Option (List Char)
  | '\x1b' :: '[' :: cs =>
    match cs.takeWhile Char.isDigit, cs.dropWhile Char.isDigit with
    | _ :: _, 'm' :: rest => some rest
    | _, _ => none
  | _ => none

theorem afterSequence?_append (h : IsSequence w) (rest : List Char) :
    afterSequence? (w ++ rest) = some rest := by
  obtain ⟨digits, hne, hdigits, rfl⟩ := h
  obtain ⟨d, ds, rfl⟩ := List.exists_cons_of_ne_nil hne
  have htake : ((d :: ds) ++ 'm' :: rest).takeWhile Char.isDigit = d :: ds := by
    rw [List.takeWhile_append_of_pos hdigits, List.takeWhile_cons_of_neg (by decide),
      List.append_nil]
  have hdrop : ((d :: ds) ++ 'm' :: rest).dropWhile Char.isDigit = 'm' :: rest := by
    rw [List.dropWhile_append_of_pos hdigits, List.dropWhile_cons_of_neg (by decide)]
  have hcs : '\x1b' :: '[' :: (d :: ds) ++ ['m'] ++ rest =
      '\x1b' :: '[' :: ((d :: ds) ++ 'm' :: rest) := by
    simp
  rw [hcs, afterSequence?, htake, hdrop]
  rfl

/-- A sequence is found exactly where a text starts with one. -/
theorem afterSequence?_eq_some_iff :
    afterSequence? cs = some rest ↔ ∃ w, IsSequence w ∧ cs = w ++ rest := by
  constructor
  · intro h
    unfold afterSequence? at h
    split at h
    · rename_i cs
      split at h
      · rename_i d ds rest' htake hdrop
        obtain rfl := Option.some.inj h
        refine ⟨_, ⟨d :: ds, by simp, ?_, rfl⟩, ?_⟩
        · intro e he
          rw [← htake] at he
          exact List.mem_takeWhile_imp he
        · have hcs := List.takeWhile_append_dropWhile (p := Char.isDigit) (l := cs)
          rw [htake, hdrop] at hcs
          simp [← hcs]
      · contradiction
    · contradiction
  · rintro ⟨w, hw, rfl⟩
    exact afterSequence?_append hw rest

theorem length_of_afterSequence? (h : afterSequence? cs = some rest) :
    rest.length < cs.length := by
  obtain ⟨w, ⟨digits, -, -, rfl⟩, rfl⟩ := afterSequence?_eq_some_iff.1 h
  simp
  omega

/-- A text without its sequences. -/
def dropSequences : List Char → List Char
  | [] => []
  | c :: cs =>
    match _h : afterSequence? (c :: cs) with
    | some rest => dropSequences rest
    | none => c :: dropSequences cs
termination_by cs => cs.length
decreasing_by
  · exact length_of_afterSequence? _h
  · simp

/-- A text as it is seen on a terminal without colors. -/
def uncolored (text : String) : String := String.ofList (dropSequences text.toList)

/-! ## One step -/

theorem dropSequences_of_some (h : afterSequence? cs = some rest) :
    dropSequences cs = dropSequences rest := by
  cases cs with
  | nil => contradiction
  | cons c cs =>
    rw [dropSequences]
    split
    · rename_i rest' h'
      rw [Option.some.inj (h.symm.trans h')]
    · rename_i h'
      rw [h] at h'
      contradiction

theorem dropSequences_of_none {c : Char} (h : afterSequence? (c :: cs) = none) :
    dropSequences (c :: cs) = c :: dropSequences cs := by
  rw [dropSequences]
  split
  · rename_i rest h'
    rw [h] at h'
    contradiction
  · rfl

theorem dropSequences_sequence (h : IsSequence w) (cs : List Char) :
    dropSequences (w ++ cs) = dropSequences cs :=
  dropSequences_of_some (afterSequence?_append h cs)

example : uncolored "\x1b[1mA\x1b[0m\x1b[m" = "A\x1b[m" := by cbv

theorem afterSequence?_cons_of_ne {c : Char} (h : c ≠ '\x1b') (cs : List Char) :
    afterSequence? (c :: cs) = none := by
  unfold afterSequence?
  split
  · rename_i heq
    exact absurd (List.cons.inj heq).1 h
  · rfl

/-! ## Whole texts -/

/-- A text that goes on with no sequence begun in front of it. -/
def Detached (k : List Char) : Prop :=
  ∀ c ∈ k.head?, c ≠ '[' ∧ c.isDigit = false ∧ c ≠ 'm'

theorem Detached.not_mem_sequence (hk : Detached k) {c d : Char} (hc : k.head? = some c)
    (hw : IsSequence (d :: w)) : c ∉ w := by
  obtain ⟨hbracket, hdigit, hm⟩ := hk c hc
  obtain ⟨digits, -, hdigits, heq⟩ := hw
  obtain rfl : w = '[' :: digits ++ ['m'] := (List.cons.inj heq).2
  have hnot : c ∉ digits := by
    intro hmem
    rw [hdigits c hmem] at hdigit
    contradiction
  simp [hbracket, hnot, hm]

/-- A sequence at the start of a text ends in it, if what is behind the text is detached. -/
theorem afterSequence?_append_detached {c : Char} (hk : Detached k)
    (h : afterSequence? (c :: cs) = none) : afterSequence? (c :: (cs ++ k)) = none := by
  rw [Option.eq_none_iff_forall_ne_some, ← List.cons_append]
  intro rest hrest
  obtain ⟨w, hw, heq⟩ := afterSequence?_eq_some_iff.1 hrest
  rcases List.append_eq_append_iff.1 heq with ⟨a, rfl, rfl⟩ | ⟨a, hcs, -⟩
  · -- The sequence reaches beyond the text, unless it ends with it.
    cases a with
    | nil =>
      rw [List.append_nil] at hw
      have hfound := afterSequence?_append hw []
      rw [List.append_nil, h] at hfound
      contradiction
    | cons d a => exact hk.not_mem_sequence (by rfl) hw (by simp)
  · rw [hcs, afterSequence?_append hw a] at h
    contradiction

theorem dropSequences_append (hk : Detached k) (cs : List Char) :
    dropSequences (cs ++ k) = dropSequences cs ++ dropSequences k := by
  induction hn : cs.length using Nat.strongRecOn generalizing cs with
  | ind n ih =>
    cases cs with
    | nil => simp [dropSequences]
    | cons c cs =>
      cases h : afterSequence? (c :: cs) with
      | none =>
        rw [List.cons_append, dropSequences_of_none (afterSequence?_append_detached hk h),
          dropSequences_of_none h, ih cs.length (by simp [← hn]) cs rfl, List.cons_append]
      | some rest =>
        have hlen := length_of_afterSequence? h
        obtain ⟨w, hw, heq⟩ := afterSequence?_eq_some_iff.1 h
        rw [dropSequences_of_some h, heq, List.append_assoc, dropSequences_sequence hw,
          ih rest.length (hn ▸ hlen) rest rfl]

/-- A text without the escape character. -/
def Unescaped (text : String) : Prop := '\x1b' ∉ text.toList

theorem dropSequences_of_not_mem (h : '\x1b' ∉ cs) : dropSequences cs = cs := by
  induction cs with
  | nil => simp [dropSequences]
  | cons c cs ih =>
    obtain ⟨hc, hcs⟩ : '\x1b' ≠ c ∧ '\x1b' ∉ cs := by simpa using h
    rw [dropSequences_of_none (afterSequence?_cons_of_ne hc.symm cs), ih hcs]

theorem uncolored_of_unescaped {text : String} (h : Unescaped text) : uncolored text = text := by
  rw [uncolored, dropSequences_of_not_mem h, String.ofList_toList]

/-- A written number has no escape character. -/
@[simp]
theorem escape_not_mem_toDigits (n : Nat) : '\x1b' ∉ Nat.toDigits 10 n := by
  intro h
  have hdigit : '\x1b'.isDigit = true := Nat.isDigit_of_mem_toDigits (by omega) (by omega) h
  contradiction

end SheetDiff.Text
