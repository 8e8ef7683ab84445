import SheetDiff.Css.Token
import SheetDiff.Text.Hex
import SheetDiff.Text.Lines

/-!
# Reading tokens

`scan` finds the kind of the first token of a text and the number of characters it takes beyond
the first one. `tokens` cuts a whole text into tokens; their sources join to the text again
(`flatMap_source_tokens`), so no character is lost or read twice.

Scanners return what they read together with the number of characters they took.
-/

namespace SheetDiff.Css

/-! ## Character classes -/

def isNewline (c : Char) : Bool := c = '\n' || c = '\r' || c = '\x0c'

/-- White space between tokens. -/
def isBlank (c : Char) : Bool := c = ' ' || c = '\t' || isNewline c

def isNonAscii (c : Char) : Bool := 0x80 ≤ c.toNat

/-- Characters that start a name. -/
def isNameStart (c : Char) : Bool := c.isAlpha || c = '_' || c = '\x00' || isNonAscii c

/-- Characters that continue a name. -/
def isNameChar (c : Char) : Bool := isNameStart c || c.isDigit || c = '-'

/-- Control characters that an unquoted address may not hold. -/
def isNonPrintable (c : Char) : Bool :=
  let n := c.toNat
  (1 ≤ n && n ≤ 8) || n = 0x0b || (0x0e ≤ n && n ≤ 0x1f) || n = 0x7f

/-- Stands for a character that cannot be represented. -/
def replacement : Char := '\ufffd'

/-- The value of a character in a name or string. -/
def denoted (c : Char) : Char := if c = '\x00' then replacement else c

/-- Whether a text starts with a character of a class. -/
def startsWith (p : Char → Bool) (cs : List Char) : Bool := cs.head?.any p

/-! ## Escapes and names -/

/-- The character with a code, where there is one other than NUL. -/
def charOfCode (n : Nat) : Char := if n = 0 ∨ ¬ n.isValidChar then replacement else Char.ofNat n

/-- The length of the line break at the start of a text. -/
def newlineLength : List Char → Nat
  | '\r' :: '\n' :: _ => 2
  | c :: _ => if isNewline c then 1 else 0
  | [] => 0

/-- The length of the one blank that may end a numeric escape. -/
def blankLength (cs : List Char) : Nat :=
  if startsWith isNewline cs then newlineLength cs else if startsWith isBlank cs then 1 else 0

/-- Reads what follows a backslash: up to six hexadecimal digits and one blank, or any character. -/
def escape (cs : List Char) : Char × Nat :=
  let digits := (cs.take 6).takeWhile fun c => (Text.hexDigit? c).isSome
  if digits.isEmpty then
    match cs with
    | [] => (replacement, 0)
    | c :: _ => (denoted c, 1)
  else
    let code := digits.foldl (fun n c => 16 * n + (Text.hexDigit? c).getD 0) 0
    (charOfCode code, digits.length + blankLength (cs.drop digits.length))

/-- Reads the characters of a name. -/
def name : List Char → List Char × Nat
  | [] => ([], 0)
  | c :: cs =>
    if isNameChar c then
      let (rest, n) := name cs
      (denoted c :: rest, n + 1)
    else if c = '\\' ∧ ¬ startsWith isNewline cs then
      let (d, k) := escape cs
      let (rest, n) := name (cs.drop k)
      (d :: rest, 1 + k + n)
    else ([], 0)
termination_by cs => cs.length
decreasing_by all_goals simp only [List.length_cons, List.length_drop]; omega

/-- Whether a text starts with an identifier. -/
def startsIdent : List Char → Bool
  | [] => false
  | c :: cs =>
    if c = '-' then startsWith (fun d => isNameStart d || d = '-' || d = '\\') cs
    else if c = '\\' then !startsWith isNewline cs
    else isNameStart c

/-! ## Strings -/

/-- Reads a string after its opening quote; it is broken if a line ends before it does. -/
def quoted (quote : Char) : List Char → (List Char × Bool) × Nat
  | [] => (([], true), 0)
  | c :: cs =>
    if c = quote then (([], true), 1)
    else if isNewline c then (([], false), 0)
    else if c = '\\' then
      if startsWith isNewline cs then
        let (rest, n) := quoted quote (cs.drop (newlineLength cs))
        (rest, 1 + newlineLength cs + n)
      else if cs.isEmpty then (([], true), 1)
      else
        let (d, k) := escape cs
        let ((rest, whole), n) := quoted quote (cs.drop k)
        ((d :: rest, whole), 1 + k + n)
    else
      let ((rest, whole), n) := quoted quote cs
      ((denoted c :: rest, whole), n + 1)
termination_by cs => cs.length
decreasing_by all_goals simp only [List.length_cons, List.length_drop]; omega

/-! ## Comments -/

/-- Reads a comment after its opening delimiter. -/
def comment : List Char → List Char × Nat
  | [] => ([], 0)
  | '*' :: '/' :: _ => ([], 2)
  | c :: cs =>
    let (rest, n) := comment cs
    (c :: rest, n + 1)

/-! ## Unquoted addresses -/

/-- Reads blanks up to the end of an address; anything else there spoils it. -/
def addressEnd (cs : List Char) : Option (List Char) × Nat :=
  let n := (cs.takeWhile isBlank).length
  match cs.drop n with
  | [] => (some [], n)
  | c :: _ => if c = ')' then (some [], n + 1) else (none, n + 1)

/-- Reads an address up to its end, or up to the character that spoils it. -/
def address : List Char → Option (List Char) × Nat
  | [] => (some [], 0)
  | c :: cs =>
    if isBlank c then addressEnd (c :: cs)
    else if c = ')' then (some [], 1)
    else if isNonPrintable c ∨ c = '"' ∨ c = '\'' ∨ c = '(' then (none, 1)
    else if c = '\\' then
      if startsWith isNewline cs then (none, 1)
      else
        let (d, k) := escape cs
        let (rest, n) := address (cs.drop k)
        (rest.map (d :: ·), 1 + k + n)
    else
      let (rest, n) := address cs
      (rest.map (denoted c :: ·), n + 1)
termination_by cs => cs.length
decreasing_by all_goals simp only [List.length_cons, List.length_drop]; omega

/-- The rest of a spoilt address up to its closing bracket; `\)` and `\\` do not end it. -/
def spoilt : List Char → List Char
  | [] => []
  | [c] => if c = ')' then [] else [c]
  | c :: d :: cs =>
    if c = ')' then []
    else if c = '\\' ∧ (d = ')' ∨ d = '\\') then c :: d :: spoilt cs
    else c :: spoilt (d :: cs)

/-- Reads an unquoted address after its opening bracket; there is none where a quote follows. -/
def unquotedUrl? (cs : List Char) : Option (Kind × Nat) :=
  let k := (cs.takeWhile isBlank).length
  let body := cs.drop k
  if startsWith (fun c => c = '"' || c = '\'') body then none
  else match address body with
    | (some text, n) => some (.url (String.ofList text), k + n)
    | (none, n) =>
      let contents := body.take n ++ spoilt (body.drop n)
      let closed := startsWith (· = ')') (body.drop contents.length)
      some (.badUrl (String.ofList contents), k + contents.length + closed.toNat)

/-! ## Numbers -/

/-- The digits after a point, where the text starts with a point and a digit. -/
def fractionDigits : List Char → List Char
  | '.' :: cs => cs.takeWhile Char.isDigit
  | _ => []

/-- Reads an exponent: `e`, an optional sign, and at least one digit. -/
def exponent? (cs : List Char) : Option ((Bool × List Char) × Nat) :=
  match cs with
  | [] => none
  | e :: cs =>
    if e = 'e' ∨ e = 'E' then
      let signed := startsWith (fun c => c = '+' || c = '-') cs
      let digits := (cs.drop signed.toNat).takeWhile Char.isDigit
      if digits.isEmpty then none
      else some ((startsWith (· = '-') cs, digits), 1 + signed.toNat + digits.length)
    else none

/-- Reads a number with its sign. -/
def numeral (cs : List Char) : Numeral × Nat :=
  let sign := cs.head?.filter fun c => c = '+' || c = '-'
  let s := if sign.isSome then 1 else 0
  let whole := (cs.drop s).takeWhile Char.isDigit
  let fraction := fractionDigits (cs.drop (s + whole.length))
  let k := s + whole.length + if fraction.isEmpty then 0 else 1 + fraction.length
  match exponent? (cs.drop k) with
  | some (e, n) => (⟨sign, whole, fraction, some e⟩, k + n)
  | none => (⟨sign, whole, fraction, none⟩, k)

/-- Whether a text starts with a number, leaving its sign aside. -/
def startsNumber : List Char → Bool
  | [] => false
  | c :: cs => c.isDigit || (c = '.' && startsWith Char.isDigit cs)

/-! ## Tokens -/

/-- A number with what follows it at once: a percent sign or a unit. -/
def numeric (cs : List Char) : Kind × Nat :=
  let (value, k) := numeral cs
  let rest := cs.drop k
  if startsWith (· = '%') rest then (.percentage value, k + 1)
  else if startsIdent rest then
    let (unit, n) := name rest
    (.dimension value (String.ofList unit), k + n)
  else (.number value, k)

/-- A name, or a function or address if a round bracket follows it. -/
def identLike (cs : List Char) : Kind × Nat :=
  let (chars, k) := name cs
  let text := String.ofList chars
  if startsWith (· = '(') (cs.drop k) then
    if text.toLower = "url" then
      match unquotedUrl? (cs.drop (k + 1)) with
      | some (kind, n) => (kind, k + 1 + n)
      | none => (.function text, k + 1)
    else (.function text, k + 1)
  else (.ident text, k)

/-- A name after `@` or `#`. -/
def named (kind : String → Kind) (cs : List Char) : Kind × Nat :=
  let (chars, n) := name cs
  (kind (String.ofList chars), n)

/-- What was read from a text, counted from its second character. -/
def beyond (r : Kind × Nat) : Kind × Nat := (r.1, r.2 - 1)

/-- The first token of `c :: cs` where `c` is neither blank, quote, letter nor digit. -/
def symbol (c : Char) (cs : List Char) : Kind × Nat :=
  match c with
  | '(' => (.opening .round, 0)
  | ')' => (.closing .round, 0)
  | '[' => (.opening .square, 0)
  | ']' => (.closing .square, 0)
  | '{' => (.opening .curly, 0)
  | '}' => (.closing .curly, 0)
  | ',' => (.comma, 0)
  | ':' => (.colon, 0)
  | ';' => (.semicolon, 0)
  | '#' =>
    if startsIdent cs then named .idHash cs
    else if startsWith (fun d => d.isDigit || d = '-') cs then named .hash cs
    else (.delim c, 0)
  | '@' => if startsIdent cs then named .atKeyword cs else (.delim c, 0)
  | '+' => if startsNumber cs then beyond (numeric (c :: cs)) else (.delim c, 0)
  | '-' =>
    if startsNumber cs then beyond (numeric (c :: cs))
    else if ['-', '>'].isPrefixOf cs then (.cdc, 2)
    else if startsIdent (c :: cs) then beyond (identLike (c :: cs))
    else (.delim c, 0)
  | '.' => if startsNumber (c :: cs) then beyond (numeric (c :: cs)) else (.delim c, 0)
  | '/' =>
    if startsWith (· = '*') cs then
      let (text, n) := comment (cs.drop 1)
      (.comment (String.ofList text), n + 1)
    else (.delim c, 0)
  | '<' => if ['!', '-', '-'].isPrefixOf cs then (.cdo, 3) else (.delim c, 0)
  | '\\' => if startsWith isNewline cs then (.delim c, 0) else beyond (identLike (c :: cs))
  | '$' | '*' | '^' | '|' | '~' =>
    if startsWith (· = '=') cs then (.matcher c, 1) else (.delim c, 0)
  | _ => (.delim c, 0)

/-- The kind of the first token of `c :: cs`, and how many characters of `cs` it takes. -/
def scan (c : Char) (cs : List Char) : Kind × Nat :=
  if isBlank c then (.whitespace, (cs.takeWhile isBlank).length)
  else if c = '"' ∨ c = '\'' then
    let ((text, whole), n) := quoted c cs
    ((if whole then Kind.string else Kind.badString) (String.ofList text), n)
  else if isNameStart c then beyond (identLike (c :: cs))
  else if c.isDigit then beyond (numeric (c :: cs))
  else symbol c cs

/-- The tokens of a text that starts on a given line. -/
def tokensFrom (line : Nat) : List Char → List Token
  | [] => []
  | c :: cs =>
    let (kind, n) := scan c cs
    let source := c :: cs.take n
    ⟨kind, source, line⟩ :: tokensFrom (line + Text.lineBreaks source) (cs.drop n)
termination_by cs => cs.length
decreasing_by simp only [List.length_cons, List.length_drop]; omega

/-- The tokens of a stylesheet. -/
def tokens (cs : List Char) : List Token := tokensFrom 1 cs

theorem flatMap_source_tokensFrom (line : Nat) (cs : List Char) :
    (tokensFrom line cs).flatMap (·.source) = cs := by
  fun_induction tokensFrom line cs with
  | case1 => rfl
  | case2 line c cs kind n _ source ih => simp [source, ih]

theorem flatMap_source_tokens (cs : List Char) : (tokens cs).flatMap (·.source) = cs :=
  flatMap_source_tokensFrom 1 cs

end SheetDiff.Css
