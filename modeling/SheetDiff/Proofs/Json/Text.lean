import Mathlib.Algebra.Group.Int.Defs
import Mathlib.Algebra.GroupWithZero.Nat
import Mathlib.Data.List.Basic
import Mathlib.Data.List.TakeWhile
import SheetDiff.Json.Text

/-!
# JSON texts are read again

The text of a value is read as that value (`parse?_pretty`), whatever characters its strings hold, if
its integers fit 64 bits and all its numbers are integers (`Json.Exact`). A number is read up to what
follows it, so every value is read in front of any text that does not go on with a number (`Reads`);
the parts of an array or an object are then read one after another (`readItems?_texts`,
`readFields?_texts`).
-/

namespace SheetDiff.Json

variable {c : Char} {cs rest : List Char} {depth depth' fuel : Nat} {j : Json}

/-! ## Blanks -/

theorem skipBlanks_lineStart (depth : Nat) (cs : List Char) :
    skipBlanks (lineStart depth ++ cs) = skipBlanks cs := by
  apply List.dropWhile_append_of_pos
  intro c hc
  rcases List.mem_cons.1 hc with rfl | hc
  · rfl
  · rw [List.eq_of_mem_replicate hc]
    rfl

theorem skipBlanks_cons (h : isBlank c = false) (cs : List Char) : skipBlanks (c :: cs) = c :: cs := by
  rw [skipBlanks, List.dropWhile_cons_of_neg (by simp [h])]

theorem readValue?_congr {ds : List Char} (h : skipBlanks cs = skipBlanks ds) (fuel : Nat) :
    readValue? fuel cs = readValue? fuel ds := by
  cases fuel with
  | zero => rfl
  | succ fuel => rw [readValue?, readValue?, h]

theorem readItems?_congr {ds : List Char} (h : skipBlanks cs = skipBlanks ds) (fuel : Nat) :
    readItems? fuel cs = readItems? fuel ds := by
  cases fuel with
  | zero => rfl
  | succ fuel => rw [readItems?, readItems?, readValue?_congr h]

theorem readFields?_congr {ds : List Char} (h : skipBlanks cs = skipBlanks ds) (fuel : Nat) :
    readFields? fuel cs = readFields? fuel ds := by
  cases fuel with
  | zero => rfl
  | succ fuel => rw [readFields?, readFields?, h]

/-- A value may be written behind a blank. -/
theorem readValue?_blank (fuel : Nat) (cs : List Char) :
    readValue? fuel (' ' :: cs) = readValue? fuel cs :=
  readValue?_congr (List.dropWhile_cons_of_pos rfl) fuel

/-! ## Strings -/

/-- The codes of control characters are read again. -/
theorem readHexCode?_hexCode {n : Nat} (h : n < 32) (cs : List Char) :
    readHexCode? (hexCode n ++ cs) = some (n, cs) := by
  have hcode : ∀ n < 32, ∃ high low, hexCode n = ['0', '0', high, low] ∧
      readHexCode? ['0', '0', high, low] = some (n, []) := by
    have hall : ∀ n < 32, hexCode n = ['0', '0', (hexCode n)[2]!, (hexCode n)[3]!] ∧
        readHexCode? ['0', '0', (hexCode n)[2]!, (hexCode n)[3]!] = some (n, []) := by
      decide
    exact fun n hn => ⟨_, _, hall n hn⟩
  obtain ⟨high, low, htext, hread⟩ := hcode n h
  simp only [readHexCode?, Option.bind_eq_bind, Option.bind_eq_some_iff] at hread
  obtain ⟨a, ha, b, hb, c, hc, d, hd, hn⟩ := hread
  obtain ⟨hn, -⟩ := Prod.mk.inj (Option.some.inj hn)
  obtain rfl : a = b := Option.some.inj (ha.symm.trans hb)
  rw [htext]
  simp [readHexCode?, ha, hc, hd, hn]

theorem readEscaped?_hexCode (h : c.toNat < 32) (cs : List Char) :
    readEscaped? ('u' :: (hexCode c.toNat ++ cs)) = some (c, cs) := by
  have hchar : charOfCode? c.toNat = some c := by
    rw [charOfCode?, if_pos (by simp [Nat.isValidChar]; omega), Char.ofNat_toNat]
  have hsurrogate : ¬ (0xd800 ≤ c.toNat ∧ c.toNat < 0xdc00) := by omega
  simp only [readEscaped?, readEscapedCode?, readHexCode?_hexCode h, Option.bind_eq_bind,
    Option.bind_some, if_neg hsurrogate, hchar]

/-- A character is read as it was written. -/
theorem readStringRest?_charText (c : Char) (cs : List Char) (fuel : Nat) :
    readStringRest? (fuel + 1) (charText c ++ cs) =
      (readStringRest? fuel cs).map fun (ds, rest) => (c :: ds, rest) := by
  have hescaped {ds : List Char} (h : readEscaped? ds = some (c, cs)) :
      readStringRest? (fuel + 1) ('\\' :: ds) =
        (readStringRest? fuel cs).map fun (ds, rest) => (c :: ds, rest) := by
    cases hrest : readStringRest? fuel cs <;> simp [readStringRest?, h, hrest]
  rw [charText]
  split_ifs with hquote hback hb hf hn hr ht hcontrol
  · exact hescaped (by simp [readEscaped?, hquote])
  · exact hescaped (by simp [readEscaped?, hback])
  · exact hescaped (by simp [readEscaped?, hb])
  · exact hescaped (by simp [readEscaped?, hf])
  · exact hescaped (by simp [readEscaped?, hn])
  · exact hescaped (by simp [readEscaped?, hr])
  · exact hescaped (by simp [readEscaped?, ht])
  · exact hescaped (readEscaped?_hexCode hcontrol cs)
  · cases hrest : readStringRest? fuel cs <;>
      simp [readStringRest?, hquote, hback, hcontrol, hrest]

theorem length_le_charTexts (cs : List Char) : cs.length ≤ (cs.flatMap charText).length := by
  induction cs with
  | nil => simp
  | cons c cs ih =>
    have hpos : 1 ≤ (charText c).length := by
      rw [charText]
      split_ifs <;> simp
    rw [List.flatMap_cons, List.length_append, List.length_cons]
    omega

theorem readStringRest?_charTexts (h : cs.length < fuel) (rest : List Char) :
    readStringRest? fuel (cs.flatMap charText ++ '"' :: rest) = some (cs, rest) := by
  induction cs generalizing fuel with
  | nil =>
    obtain ⟨fuel, rfl⟩ := Nat.exists_eq_add_one_of_ne_zero (Nat.ne_of_gt h)
    simp [readStringRest?]
  | cons c cs ih =>
    obtain ⟨fuel, rfl⟩ := Nat.exists_eq_add_one_of_ne_zero (Nat.ne_of_gt (Nat.zero_lt_of_lt h))
    have hfuel : cs.length < fuel := by
      rw [List.length_cons] at h
      omega
    rw [List.flatMap_cons, List.append_assoc, readStringRest?_charText, ih hfuel]
    rfl

/-- A string is read again after its opening quote. -/
theorem readString?_charTexts (s : String) (rest : List Char) :
    readString? (s.toList.flatMap charText ++ '"' :: rest) = some (s, rest) := by
  have hlength := length_le_charTexts s.toList
  have hfuel : s.toList.length < (s.toList.flatMap charText ++ '"' :: rest).length := by
    rw [List.length_append, List.length_cons]
    omega
  simp only [readString?, readStringRest?_charTexts hfuel, Option.bind_eq_bind, Option.bind_some,
    String.ofList_toList]

/-! ## Numbers -/

/-- A text that does not go on with a number. -/
def NumberEnd (rest : List Char) : Prop :=
  ∀ c ∈ rest.head?, c.isDigit = false ∧ c ≠ '.' ∧ c ≠ 'e' ∧ c ≠ 'E'

/-- An integer that fits 64 bits, with a sign if it is negative. -/
def Fits64 (n : Int) : Prop := -(2 ^ 63) ≤ n ∧ n < 2 ^ 64

/-- The digits of a number start with a zero only if it is zero. -/
theorem head?_toDigits_ne {n : Nat} (h : 0 < n) : (Nat.toDigits 10 n).head? ≠ some '0' := by
  induction n using Nat.strongRecOn with
  | ind n ih =>
    by_cases hn : n < 10
    · rw [Nat.toDigits_of_lt_base hn]
      have hdigit : ∀ d < 10, 0 < d → d.digitChar ≠ '0' := by decide
      simpa using hdigit n hn h
    · rw [Nat.toDigits_of_base_le (by omega) (by omega),
        List.head?_append_of_ne_nil _ Nat.toDigits_ne_nil]
      exact ih (n / 10) (by omega) (by omega)

theorem isDigit_of_mem_toDigits {n : Nat} (h : c ∈ Nat.toDigits 10 n) : c.isDigit = true :=
  Nat.isDigit_of_mem_toDigits (by omega) (by omega) h

theorem readDigits?_toDigits (n : Nat) (h : NumberEnd rest) :
    readDigits? (Nat.toDigits 10 n ++ rest) = some (Nat.toDigits 10 n, rest) := by
  have hnone : rest.takeWhile Char.isDigit = [] := by
    cases rest with
    | nil => rfl
    | cons c rest => simp [(h c rfl).1]
  have hdigits : (Nat.toDigits 10 n ++ rest).takeWhile Char.isDigit = Nat.toDigits 10 n := by
    rw [List.takeWhile_append_of_pos fun c hc => isDigit_of_mem_toDigits hc, hnone, List.append_nil]
  have hempty : (Nat.toDigits 10 n).isEmpty = false := by simp [Nat.toDigits_ne_nil]
  simp [readDigits?, hdigits, hempty]

theorem readWhole?_toDigits (n : Nat) (h : NumberEnd rest) :
    readWhole? (Nat.toDigits 10 n ++ rest) = some (Nat.toDigits 10 n, rest) := by
  by_cases hn : n = 0
  · subst hn
    rfl
  · have hhead := head?_toDigits_ne (Nat.pos_of_ne_zero hn)
    rw [readWhole?.eq_def]
    split
    · rename_i heq
      rw [← List.head?_append_of_ne_nil _ Nat.toDigits_ne_nil, heq] at hhead
      exact absurd rfl hhead
    · exact readDigits?_toDigits n h

/-- Nothing of a number follows its integer part. -/
theorem readFraction?_of_end (h : NumberEnd rest) : readFraction? rest = some ([], rest) := by
  cases rest with
  | nil => rfl
  | cons c rest =>
    rw [readFraction?.eq_def]
    split
    · rename_i heq
      exact absurd (List.cons.inj heq).1 (h c rfl).2.1
    · rfl

theorem readExponent?_of_end (h : NumberEnd rest) : readExponent? rest = some ([], rest) := by
  cases rest with
  | nil => rfl
  | cons c rest => simp [readExponent?, (h c rfl).2.2]

theorem natOfDigits_toDigits (n : Nat) : natOfDigits (Nat.toDigits 10 n) = n :=
  Nat.ofDigitChars_toDigits (by omega) (by omega)

theorem ofInteger_toDigits {n : Int} (h : Fits64 n) (hpos : 0 ≤ n) :
    ofInteger false (Nat.toDigits 10 n.toNat) = int n := by
  have hbound : n.toNat < Nat.pow 2 64 := by
    have := h.2
    simp only [Nat.pow_eq]
    omega
  rw [ofInteger, if_neg (by simp), natOfDigits_toDigits, if_pos hbound, Int.toNat_of_nonneg hpos]

theorem ofInteger_toDigits_neg {n : Int} (h : Fits64 n) (hneg : n < 0) :
    ofInteger true (Nat.toDigits 10 (-n).toNat) = int n := by
  have hbound : 0 < (-n).toNat ∧ (-n).toNat ≤ Nat.pow 2 63 := by
    have := h.1
    simp only [Nat.pow_eq]
    omega
  rw [ofInteger, if_pos rfl, natOfDigits_toDigits, if_pos hbound, Int.toNat_of_nonneg (by omega),
    Int.neg_neg]

/-- An integer is read again in front of what is not part of it. -/
theorem readNumber?_int {n : Int} (hn : Fits64 n) (h : NumberEnd rest) :
    readNumber? ((toString n).toList ++ rest) = some (int n, rest) := by
  rw [Int.toString_eq_repr, Int.repr_eq_if]
  by_cases hpos : 0 ≤ n
  · have hsign : (Nat.toDigits 10 n.toNat).head? ≠ some '-' := by
      intro hminus
      have hdigit := isDigit_of_mem_toDigits (List.mem_of_mem_head? hminus)
      simp at hdigit
    rw [if_pos hpos, Nat.repr_eq_ofList_toDigits, String.toList_ofList]
    simp [readNumber?, hsign, readWhole?_toDigits _ h, readFraction?_of_end h, readExponent?_of_end h,
      ofInteger_toDigits hn hpos]
  · rw [if_neg hpos, Nat.repr_eq_ofList_toDigits, String.toList_append, String.toList_ofList]
    simp [readNumber?, readWhole?_toDigits _ h, readFraction?_of_end h, readExponent?_of_end h,
      ofInteger_toDigits_neg hn (by omega)]

/-! ## Parts of arrays and objects -/

/-- A value whose text is read again, with enough fuel, in front of any text that ends a number. -/
def Reads (depth : Nat) (j : Json) : Prop :=
  ∀ fuel rest, 2 * (prettyAt depth j).length + 1 ≤ fuel → NumberEnd rest →
    readValue? fuel (prettyAt depth j ++ rest) = some (j, rest)

/-- Further parts, each on a line of its own behind a comma. -/
def moreText (depth : Nat) (texts : List (List Char)) : List Char :=
  texts.flatMap fun text => ',' :: (lineStart depth ++ text)

theorem enclosed_cons (opener closer : Char) (depth : Nat) (text : List Char)
    (texts : List (List Char)) : enclosed opener closer depth (text :: texts) =
      opener :: (lineStart (depth + 1) ++ text ++ moreText (depth + 1) texts ++ lineStart depth ++
        [closer]) := by
  have hlines : [','].intercalate ((text :: texts).map (lineStart (depth + 1) ++ ·)) =
      lineStart (depth + 1) ++ text ++ moreText (depth + 1) texts := by
    induction texts generalizing text with
    | nil => simp [moreText, List.intercalate]
    | cons next texts ih =>
      have hnext := ih next
      rw [List.map_cons] at hnext
      rw [List.map_cons, List.map_cons, List.intercalate_cons_cons, hnext]
      simp [moreText]
  rw [enclosed, if_neg (by simp)]
  dsimp only
  rw [hlines]

/-- The text of a field, without the blanks before it. -/
def fieldText (depth : Nat) (field : String × Json) : List Char :=
  stringText field.1 ++ ':' :: ' ' :: prettyAt depth field.2

theorem fieldTexts_eq_map (depth : Nat) (fields : List (String × Json)) :
    fieldTexts depth fields = fields.map (fieldText depth) := by
  induction fields with
  | nil => rfl
  | cons field fields ih =>
    obtain ⟨name, value⟩ := field
    rw [fieldTexts, ih, List.map_cons]
    rfl

theorem numberEnd_cons (h : c = ',' ∨ c = '\n') : NumberEnd (c :: cs) := by
  intro d hd
  obtain rfl : c = d := by simpa using hd
  rcases h with rfl | rfl <;> decide

/-- What follows a part is another one or the line of the closing bracket. -/
theorem numberEnd_moreText (texts : List (List Char)) :
    NumberEnd (moreText depth texts ++ (lineStart depth' ++ cs)) := by
  cases texts with
  | nil => exact numberEnd_cons (.inr rfl)
  | cons text texts => exact numberEnd_cons (.inl rfl)

/-- The items of an array are read one after another. -/
theorem readItems?_texts {item : Json} {items : List Json} (fuel depth' : Nat)
    (hitem : Reads depth item) (hitems : ∀ i ∈ items, Reads depth i) (rest : List Char)
    (hfuel : 2 * ((prettyAt depth item).length +
      (moreText depth (itemTexts depth items)).length) + 2 ≤ fuel) :
    readItems? fuel (prettyAt depth item ++
        (moreText depth (itemTexts depth items) ++ (lineStart depth' ++ ']' :: rest))) =
      some (item :: items, rest) := by
  induction items generalizing item fuel with
  | nil =>
    obtain ⟨fuel, rfl⟩ := Nat.exists_eq_add_one_of_ne_zero (by omega : fuel ≠ 0)
    have hread := hitem fuel (moreText depth (itemTexts depth []) ++ (lineStart depth' ++ ']' :: rest))
      (by omega) (numberEnd_moreText _)
    have hclose : skipBlanks (lineStart depth' ++ ']' :: rest) = ']' :: rest := by
      rw [skipBlanks_lineStart, skipBlanks_cons rfl]
    rw [readItems?, hread]
    simp [itemTexts, moreText, hclose]
  | cons next items ih =>
    obtain ⟨fuel, rfl⟩ := Nat.exists_eq_add_one_of_ne_zero (by omega : fuel ≠ 0)
    have hmore : moreText depth (itemTexts depth (next :: items)) =
        ',' :: (lineStart depth ++ (prettyAt depth next ++ moreText depth (itemTexts depth items))) := by
      simp [itemTexts, moreText]
    have hread := hitem fuel
      (moreText depth (itemTexts depth (next :: items)) ++ (lineStart depth' ++ ']' :: rest))
      (by omega) (numberEnd_moreText _)
    have hrest := ih fuel (hitems next (by simp)) (fun i hi => hitems i (by simp [hi]))
      (by rw [hmore] at hfuel; simp only [List.length_cons, List.length_append] at hfuel; omega)
    rw [readItems?, hread, hmore]
    simp only [Option.bind_eq_bind, Option.bind_some, List.cons_append, List.append_assoc,
      skipBlanks_cons (show isBlank ',' = false from rfl)]
    rw [readItems?_congr (skipBlanks_lineStart depth _), hrest]
    rfl

/-- A field is read, and then further ones behind a comma. -/
theorem readFields?_fieldText {field : String × Json} (hfield : Reads depth field.2)
    (hfuel : 2 * (fieldText depth field).length + 1 ≤ fuel) (hrest : NumberEnd rest) :
    readFields? (fuel + 1) (fieldText depth field ++ rest) =
      match skipBlanks rest with
      | ',' :: rest => (readFields? fuel rest).map fun (fields, rest) => (field :: fields, rest)
      | '\x7d' :: rest => some ([field], rest)
      | _ => none := by
  have hstart : fieldText depth field ++ rest = '"' ::
      (field.1.toList.flatMap charText ++ '"' :: (':' :: ' ' :: (prettyAt depth field.2 ++ rest))) := by
    simp [fieldText, stringText]
  have hlength : (prettyAt depth field.2).length ≤ (fieldText depth field).length := by
    rw [fieldText, List.length_append, List.length_cons, List.length_cons]
    omega
  rw [hstart, readFields?]
  simp only [Option.bind_eq_bind, Option.bind_some, skipBlanks_cons (show isBlank '"' = false from rfl),
    readString?_charTexts, skipBlanks_cons (show isBlank ':' = false from rfl), readValue?_blank,
    hfield fuel rest (by omega) hrest, Option.map_eq_bind]
  rfl

/-- The fields of an object are read one after another. -/
theorem readFields?_texts {field : String × Json} {fields : List (String × Json)} (fuel depth' : Nat)
    (hfield : Reads depth field.2) (hfields : ∀ f ∈ fields, Reads depth f.2) (rest : List Char)
    (hfuel : 2 * ((fieldText depth field).length +
      (moreText depth (fieldTexts depth fields)).length) + 2 ≤ fuel) :
    readFields? fuel (fieldText depth field ++
        (moreText depth (fieldTexts depth fields) ++ (lineStart depth' ++ '\x7d' :: rest))) =
      some (field :: fields, rest) := by
  induction fields generalizing field fuel with
  | nil =>
    obtain ⟨fuel, rfl⟩ := Nat.exists_eq_add_one_of_ne_zero (by omega : fuel ≠ 0)
    have hclose : skipBlanks (lineStart depth' ++ '\x7d' :: rest) = '\x7d' :: rest := by
      rw [skipBlanks_lineStart, skipBlanks_cons rfl]
    rw [readFields?_fieldText hfield (by omega) (numberEnd_moreText _)]
    simp [fieldTexts, moreText, hclose]
  | cons next fields ih =>
    obtain ⟨fuel, rfl⟩ := Nat.exists_eq_add_one_of_ne_zero (by omega : fuel ≠ 0)
    have hmore : moreText depth (fieldTexts depth (next :: fields)) =
        ',' :: (lineStart depth ++ (fieldText depth next ++ moreText depth (fieldTexts depth fields))) := by
      simp [fieldTexts_eq_map, moreText]
    have hrest := ih fuel (hfields next (by simp)) (fun f hf => hfields f (by simp [hf]))
      (by rw [hmore] at hfuel; simp only [List.length_cons, List.length_append] at hfuel; omega)
    rw [readFields?_fieldText hfield (by omega) (numberEnd_moreText _), hmore]
    simp only [List.cons_append, List.append_assoc, skipBlanks_cons (show isBlank ',' = false from rfl)]
    rw [readFields?_congr (skipBlanks_lineStart depth _), hrest]
    rfl

/-! ## Values -/

mutual

/-- All numbers of a value are integers of 64 bits. -/
def Exact : Json → Prop
  | int n => Fits64 n
  | real _ => False
  | arr items => AllExact items
  | obj fields => FieldsExact fields
  | _ => True

def AllExact : List Json → Prop
  | [] => True
  | item :: items => Exact item ∧ AllExact items

def FieldsExact : List (String × Json) → Prop
  | [] => True
  | (_, value) :: fields => Exact value ∧ FieldsExact fields

end

/-- An integer starts with a sign or a digit. -/
theorem exists_int_cons (n : Int) :
    ∃ c cs, (toString n).toList = c :: cs ∧ (c = '-' ∨ c.isDigit = true) := by
  rw [Int.toString_eq_repr, Int.repr_eq_if]
  split
  · obtain ⟨c, cs, hcs⟩ := List.exists_cons_of_ne_nil (Nat.toDigits_ne_nil (n := n.toNat) (b := 10))
    refine ⟨c, cs, ?_, .inr (isDigit_of_mem_toDigits (n := n.toNat) (by simp [hcs]))⟩
    rw [Nat.repr_eq_ofList_toDigits, String.toList_ofList, hcs]
  · exact ⟨'-', _, by rw [String.toList_append]; rfl, .inl rfl⟩

theorem isBlank_of_number (h : c = '-' ∨ c.isDigit = true) : isBlank c = false := by
  rw [isBlank]
  by_contra hblank
  simp only [Bool.not_eq_false, Bool.or_eq_true, decide_eq_true_eq] at hblank
  rcases hblank with ((rfl | rfl) | rfl) | rfl <;> simp at h

/-- What starts like a number is read as one. -/
theorem readValue?_number (h : c = '-' ∨ c.isDigit = true) (cs : List Char) (fuel : Nat) :
    readValue? (fuel + 1) (c :: cs) = readNumber? (c :: cs) := by
  have hne {d : Char} {ds : List Char} (heq : c :: cs = d :: ds) (hd : d ≠ '-')
      (hdigit : d.isDigit = false) : False := by
    obtain rfl := (List.cons.inj heq).1
    rcases h with h | h
    · exact hd h
    · rw [hdigit] at h
      contradiction
  rw [readValue?, skipBlanks_cons (isBlank_of_number h)]
  split
  all_goals first
    | rfl
    | rename_i heq
      exact (hne heq (by decide) (by decide)).elim

theorem reads_null : Reads depth null := by
  intro fuel rest hfuel hrest
  obtain ⟨fuel, rfl⟩ := Nat.exists_eq_add_one_of_ne_zero (by omega : fuel ≠ 0)
  simp [prettyAt, readValue?, skipBlanks_cons (show isBlank 'n' = false from rfl), afterWord?]

theorem reads_bool (b : Bool) : Reads depth (bool b) := by
  intro fuel rest hfuel hrest
  obtain ⟨fuel, rfl⟩ := Nat.exists_eq_add_one_of_ne_zero (by omega : fuel ≠ 0)
  cases b with
  | false =>
    simp [prettyAt, readValue?, skipBlanks_cons (show isBlank 'f' = false from rfl), afterWord?]
  | true =>
    simp [prettyAt, readValue?, skipBlanks_cons (show isBlank 't' = false from rfl), afterWord?]

theorem reads_int {n : Int} (h : Fits64 n) : Reads depth (int n) := by
  intro fuel rest hfuel hrest
  obtain ⟨fuel, rfl⟩ := Nat.exists_eq_add_one_of_ne_zero (by omega : fuel ≠ 0)
  have hread := readNumber?_int h hrest
  obtain ⟨c, cs, hcs, hc⟩ := exists_int_cons n
  rw [prettyAt, hcs, List.cons_append, readValue?_number hc, ← List.cons_append, ← hcs, hread]

theorem reads_str (s : String) : Reads depth (str s) := by
  intro fuel rest hfuel hrest
  obtain ⟨fuel, rfl⟩ := Nat.exists_eq_add_one_of_ne_zero (by omega : fuel ≠ 0)
  have htext : prettyAt depth (str s) ++ rest = '"' :: (s.toList.flatMap charText ++ '"' :: rest) := by
    simp [prettyAt, stringText]
  rw [htext, readValue?, skipBlanks_cons rfl]
  simp [readString?_charTexts]

theorem enclosed_nil (opener closer : Char) (depth : Nat) :
    enclosed opener closer depth [] = [opener, closer] :=
  rfl

/-- The text of a value does not start with a blank or a closing bracket. -/
theorem exists_prettyAt_cons (h : j.Exact) (depth : Nat) :
    ∃ c cs, prettyAt depth j = c :: cs ∧ isBlank c = false ∧ c ≠ ']' := by
  have henclosed (opener closer : Char) (parts : List (List Char)) :
      ∃ cs, enclosed opener closer depth parts = opener :: cs := by
    cases parts with
    | nil => exact ⟨_, enclosed_nil opener closer depth⟩
    | cons part parts => exact ⟨_, enclosed_cons opener closer depth part parts⟩
  cases j with
  | null => exact ⟨'n', _, rfl, rfl, by decide⟩
  | bool b =>
    cases b with
    | false => exact ⟨'f', _, rfl, rfl, by decide⟩
    | true => exact ⟨'t', _, rfl, rfl, by decide⟩
  | int n =>
    obtain ⟨c, cs, hcs, hc⟩ := exists_int_cons n
    refine ⟨c, cs, hcs, isBlank_of_number hc, ?_⟩
    rintro rfl
    simp at hc
  | real text => exact absurd h id
  | str s => exact ⟨'"', _, rfl, rfl, by decide⟩
  | arr items =>
    obtain ⟨cs, hcs⟩ := henclosed '[' ']' (itemTexts (depth + 1) items)
    exact ⟨'[', cs, hcs, rfl, by decide⟩
  | obj fields =>
    obtain ⟨cs, hcs⟩ := henclosed '\x7b' '\x7d' (fieldTexts (depth + 1) fields)
    exact ⟨'\x7b', cs, hcs, rfl, by decide⟩

theorem reads_arr {items : List Json} (hexact : AllExact items)
    (hitems : ∀ i ∈ items, ∀ depth, Reads depth i) : Reads depth (arr items) := by
  intro fuel rest hfuel hrest
  obtain ⟨fuel, rfl⟩ := Nat.exists_eq_add_one_of_ne_zero (by omega : fuel ≠ 0)
  rw [prettyAt] at hfuel ⊢
  cases items with
  | nil =>
    rw [itemTexts, enclosed_nil, List.cons_append, readValue?, skipBlanks_cons rfl]
    rfl
  | cons item items =>
    obtain ⟨c, cs, hcs, hblank, hc⟩ := exists_prettyAt_cons hexact.1 (depth + 1)
    have hmore (i : Json) (hi : i ∈ items) : Reads (depth + 1) i :=
      hitems i (List.mem_cons_of_mem _ hi) (depth + 1)
    have hread := readItems?_texts fuel depth (hitems item (by simp) (depth + 1)) hmore rest (by
        rw [itemTexts, enclosed_cons] at hfuel
        simp only [List.length_cons, List.length_append] at hfuel
        omega)
    rw [hcs, List.cons_append] at hread
    rw [itemTexts, enclosed_cons, hcs, List.cons_append, readValue?, skipBlanks_cons rfl]
    simp only [List.append_assoc, skipBlanks_lineStart, List.cons_append, List.nil_append]
    rw [skipBlanks_cons hblank]
    split
    · rename_i heq
      exact absurd (List.cons.inj heq).1 hc
    · rw [hread]
      rfl

theorem reads_obj {fields : List (String × Json)} (hfields : ∀ f ∈ fields, ∀ depth, Reads depth f.2) :
    Reads depth (obj fields) := by
  intro fuel rest hfuel hrest
  obtain ⟨fuel, rfl⟩ := Nat.exists_eq_add_one_of_ne_zero (by omega : fuel ≠ 0)
  rw [prettyAt] at hfuel ⊢
  cases fields with
  | nil =>
    rw [fieldTexts, enclosed_nil, List.cons_append, readValue?, skipBlanks_cons rfl]
    rfl
  | cons field fields =>
    have hmore (f : String × Json) (hf : f ∈ fields) : Reads (depth + 1) f.2 :=
      hfields f (List.mem_cons_of_mem _ hf) (depth + 1)
    have hread := readFields?_texts fuel depth (hfields field (by simp) (depth + 1)) hmore rest (by
        rw [fieldTexts_eq_map, List.map_cons, enclosed_cons, ← fieldTexts_eq_map] at hfuel
        simp only [List.length_cons, List.length_append] at hfuel
        omega)
    rw [fieldTexts_eq_map, List.map_cons, enclosed_cons, ← fieldTexts_eq_map]
    have hquote : fieldText (depth + 1) field = '"' :: (fieldText (depth + 1) field).tail := rfl
    rw [hquote, List.cons_append] at hread
    rw [hquote, List.cons_append, readValue?, skipBlanks_cons rfl]
    simp only [List.append_assoc, skipBlanks_lineStart, List.cons_append, List.nil_append,
      skipBlanks_cons (show isBlank '"' = false from rfl)]
    split
    · rename_i heq
      exact absurd (List.cons.inj heq).1 (by decide)
    · rw [hread]
      rfl

mutual

/-- Every value of integers of 64 bits is read again. -/
theorem reads_of_exact (j : Json) (h : j.Exact) (depth : Nat) : Reads depth j := by
  cases j with
  | null => exact reads_null
  | bool b => exact reads_bool b
  | int n => exact reads_int h
  | real text => exact absurd h id
  | str s => exact reads_str s
  | arr items => exact reads_arr h (reads_of_allExact items h)
  | obj fields => exact reads_obj (reads_of_fieldsExact fields h)

theorem reads_of_allExact (items : List Json) (h : AllExact items) :
    ∀ i ∈ items, ∀ depth, Reads depth i := by
  cases items with
  | nil => simp
  | cons item items =>
    obtain ⟨hitem, hitems⟩ := h
    intro i hi depth
    rcases List.mem_cons.1 hi with heq | hi
    · rw [heq]
      exact reads_of_exact item hitem depth
    · exact reads_of_allExact items hitems i hi depth

theorem reads_of_fieldsExact (fields : List (String × Json)) (h : FieldsExact fields) :
    ∀ f ∈ fields, ∀ depth, Reads depth f.2 := by
  cases fields with
  | nil => simp
  | cons field fields =>
    obtain ⟨name, value⟩ := field
    obtain ⟨hvalue, hfields⟩ := h
    intro f hf depth
    rcases List.mem_cons.1 hf with heq | hf
    · rw [heq]
      exact reads_of_exact value hvalue depth
    · exact reads_of_fieldsExact fields hfields f hf depth

end

/-- The text of a value is read as that value, also in front of blanks and line breaks. -/
theorem parse?_pretty (h : j.Exact) {tail : String} (ht : ∀ c ∈ tail.toList, isBlank c = true) :
    parse? (j.pretty ++ tail) = some j := by
  have hend : NumberEnd tail.toList := by
    intro c hc
    have hblank := ht c (List.mem_of_mem_head? hc)
    simp only [isBlank, Bool.or_eq_true, decide_eq_true_eq] at hblank
    rcases hblank with ((rfl | rfl) | rfl) | rfl <;> decide
  have htext : (j.pretty ++ tail).toList = prettyAt 0 j ++ tail.toList := by
    rw [String.toList_append, pretty, String.toList_ofList]
  have hread := reads_of_exact j h 0 (2 * (prettyAt 0 j ++ tail.toList).length + 1) tail.toList
    (by rw [List.length_append]; omega) hend
  have hblanks : skipBlanks tail.toList = [] := List.dropWhile_eq_nil_iff.2 ht
  rw [parse?, htext]
  simp only [Option.bind_eq_bind, hread, Option.bind_some, hblanks, List.isEmpty_nil, if_true]

end SheetDiff.Json
