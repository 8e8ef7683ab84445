import SheetDiff.Json.Basic
import SheetDiff.Text.Hex

/-!
# JSON texts

`Json.pretty` writes a value over several lines, nested parts two columns further in. `Json.parse?`
reads any JSON text.
-/

namespace SheetDiff.Json

/-! ## Writing -/

/-- The digits of a code of four hexadecimal digits. -/
def hexCode (n : Nat) : List Char :=
  let digits := Nat.toDigits 16 n
  List.replicate (4 - digits.length) '0' ++ digits

/-- A character inside a string: quotes, backslashes and control characters are escaped. -/
def charText (c : Char) : List Char :=
  if c = '"' then ['\\', '"']
  else if c = '\\' then ['\\', '\\']
  else if c = '\x08' then ['\\', 'b']
  else if c = '\x0c' then ['\\', 'f']
  else if c = '\n' then ['\\', 'n']
  else if c = '\r' then ['\\', 'r']
  else if c = '\t' then ['\\', 't']
  else if c.toNat < 0x20 then '\\' :: 'u' :: hexCode c.toNat
  else [c]

def stringText (s : String) : List Char := '"' :: (s.toList.flatMap charText ++ ['"'])

/-- A line break and the blanks of a line at some depth. -/
def lineStart (depth : Nat) : List Char := '\n' :: List.replicate (2 * depth) ' '

/-- Parts on lines of their own between two brackets. -/
def enclosed (opener closer : Char) (depth : Nat) (parts : List (List Char)) : List Char :=
  if parts.isEmpty then [opener, closer]
  else
    let lines := parts.map (lineStart (depth + 1) ++ ·)
    opener :: ([','].intercalate lines ++ lineStart depth ++ [closer])

mutual

/-- The text of a value at some depth. -/
def prettyAt (depth : Nat) : Json → List Char
  | null => "null".toList
  | bool b => (if b then "true" else "false").toList
  | int n => (toString n).toList
  | real text => text.toList
  | str s => stringText s
  | arr items => enclosed '[' ']' depth (itemTexts (depth + 1) items)
  | obj fields => enclosed '{' '}' depth (fieldTexts (depth + 1) fields)

def itemTexts (depth : Nat) : List Json → List (List Char)
  | [] => []
  | item :: items => prettyAt depth item :: itemTexts depth items

def fieldTexts (depth : Nat) : List (String × Json) → List (List Char)
  | [] => []
  | (name, value) :: fields =>
    (stringText name ++ ':' :: ' ' :: prettyAt depth value) :: fieldTexts depth fields

end

/-- The text of a value. -/
def pretty (j : Json) : String := String.ofList (prettyAt 0 j)

/-! ## Reading -/

def isBlank (c : Char) : Bool := c = ' ' || c = '\t' || c = '\n' || c = '\r'

def skipBlanks (cs : List Char) : List Char := cs.dropWhile isBlank

/-- Takes off a word at the start of a text. -/
def afterWord? (word cs : List Char) : Option (List Char) :=
  if word.isPrefixOf cs then some (cs.drop word.length) else none

/-- Reads a code of four hexadecimal digits. -/
def readHexCode? : List Char → Option (Nat × List Char)
  | a :: b :: c :: d :: cs => do
    some (((← Text.hexDigit? a) * 16 + (← Text.hexDigit? b)) * 256 + (← Text.hexDigit? c) * 16 + (← Text.hexDigit? d), cs)
  | _ => none

/-- The character of a code that is no surrogate. -/
def charOfCode? (n : Nat) : Option Char := if n.isValidChar then some (Char.ofNat n) else none

/-- Reads the code after `\u`; a leading surrogate has to be followed by a trailing one. -/
def readEscapedCode? (cs : List Char) : Option (Char × List Char) := do
  let (n, rest) ← readHexCode? cs
  if 0xd800 ≤ n ∧ n < 0xdc00 then
    let (m, rest) ← readHexCode? (← afterWord? ['\\', 'u'] rest)
    if 0xdc00 ≤ m ∧ m < 0xe000 then
      some (← charOfCode? (0x10000 + (n - 0xd800) * 0x400 + (m - 0xdc00)), rest)
    else none
  else some (← charOfCode? n, rest)

/-- Reads what follows a backslash. -/
def readEscaped? : List Char → Option (Char × List Char)
  | 'b' :: cs => some ('\x08', cs)
  | 'f' :: cs => some ('\x0c', cs)
  | 'n' :: cs => some ('\n', cs)
  | 'r' :: cs => some ('\r', cs)
  | 't' :: cs => some ('\t', cs)
  | 'u' :: cs => readEscapedCode? cs
  | c :: cs => if c = '"' ∨ c = '\\' ∨ c = '/' then some (c, cs) else none
  | [] => none

/-- Reads a string after its opening quote, with at most `fuel` characters. -/
def readStringRest? : Nat → List Char → Option (List Char × List Char)
  | fuel + 1, c :: cs =>
    if c = '"' then some ([], cs)
    else if c.toNat < 0x20 then none
    else do
      let (d, rest) ← if c = '\\' then readEscaped? cs else some (c, cs)
      let (ds, rest) ← readStringRest? fuel rest
      some (d :: ds, rest)
  | _, _ => none

/-- Reads a string after its opening quote. -/
def readString? (cs : List Char) : Option (String × List Char) := do
  let (chars, rest) ← readStringRest? cs.length cs
  some (String.ofList chars, rest)

/-- The digits at the start of a text; there has to be one. -/
def readDigits? (cs : List Char) : Option (List Char × List Char) :=
  let digits := cs.takeWhile Char.isDigit
  if digits.isEmpty then none else some (digits, cs.drop digits.length)

/-- The integer part of a number, which has no leading zero. -/
def readWhole? (cs : List Char) : Option (List Char × List Char) :=
  match cs with
  | '0' :: rest => some (['0'], rest)
  | _ => readDigits? cs

/-- A point with digits behind it, if there is a point. -/
def readFraction? : List Char → Option (List Char × List Char)
  | '.' :: cs => do
    let (digits, rest) ← readDigits? cs
    some ('.' :: digits, rest)
  | cs => some ([], cs)

/-- An exponent with its mark, if there is a mark. -/
def readExponent? : List Char → Option (List Char × List Char)
  | [] => some ([], [])
  | e :: cs =>
    if e = 'e' ∨ e = 'E' then do
      let sign := (cs.head?.filter fun c => c = '+' || c = '-').toList
      let (digits, rest) ← readDigits? (cs.drop sign.length)
      some (e :: (sign ++ digits), rest)
    else some ([], e :: cs)

/-- The number with these digits. -/
def natOfDigits (ds : List Char) : Nat := ds.foldl (fun n d => 10 * n + (d.toNat - '0'.toNat)) 0

/-- An integer as long as it fits 64 bits; a negative zero is none. -/
def ofInteger (negative : Bool) (digits : List Char) : Json :=
  let n := natOfDigits digits
  let text := String.ofList ((if negative then ['-'] else []) ++ digits)
  if negative then if 0 < n ∧ n ≤ Nat.pow 2 63 then int (-n) else real text
  else if n < Nat.pow 2 64 then int n else real text

/-- Reads a number. -/
def readNumber? (cs : List Char) : Option (Json × List Char) := do
  let negative := cs.head? = some '-'
  let (whole, rest) ← readWhole? (if negative then cs.tail else cs)
  let (fraction, rest) ← readFraction? rest
  let (exponent, rest) ← readExponent? rest
  if fraction.isEmpty && exponent.isEmpty then some (ofInteger negative whole, rest)
  else
    let sign := if negative then ['-'] else []
    some (real (String.ofList (sign ++ whole ++ fraction ++ exponent)), rest)

mutual

/-- Reads a value that is nested at most `fuel` deep, counting the parts of an array or object. -/
def readValue? : Nat → List Char → Option (Json × List Char)
  | fuel + 1, cs =>
    match skipBlanks cs with
    | '"' :: rest => do
      let (s, rest) ← readString? rest
      some (str s, rest)
    | '[' :: rest =>
      match skipBlanks rest with
      | ']' :: rest => some (arr [], rest)
      | rest => do
        let (items, rest) ← readItems? fuel rest
        some (arr items, rest)
    | '{' :: rest =>
      match skipBlanks rest with
      | '}' :: rest => some (obj [], rest)
      | rest => do
        let (fields, rest) ← readFields? fuel rest
        some (obj fields, rest)
    | 'n' :: rest => (afterWord? "ull".toList rest).map (null, ·)
    | 't' :: rest => (afterWord? "rue".toList rest).map (bool true, ·)
    | 'f' :: rest => (afterWord? "alse".toList rest).map (bool false, ·)
    | rest => readNumber? rest
  | 0, _ => none

/-- Reads the values of an array up to its closing bracket. -/
def readItems? : Nat → List Char → Option (List Json × List Char)
  | fuel + 1, cs => do
    let (item, rest) ← readValue? fuel cs
    match skipBlanks rest with
    | ',' :: rest =>
      let (items, rest) ← readItems? fuel rest
      some (item :: items, rest)
    | ']' :: rest => some ([item], rest)
    | _ => none
  | 0, _ => none

/-- Reads the fields of an object up to its closing bracket. -/
def readFields? : Nat → List Char → Option (List (String × Json) × List Char)
  | fuel + 1, cs =>
    match skipBlanks cs with
    | '"' :: rest => do
      let (name, rest) ← readString? rest
      match skipBlanks rest with
      | ':' :: rest =>
        let (value, rest) ← readValue? fuel rest
        match skipBlanks rest with
        | ',' :: rest =>
          let (fields, rest) ← readFields? fuel rest
          some ((name, value) :: fields, rest)
        | '}' :: rest => some ([(name, value)], rest)
        | _ => none
      | _ => none
    | _ => none
  | 0, _ => none

end

/-- Reads a JSON text. -/
def parse? (text : String) : Option Json := do
  let cs := text.toList
  let (value, rest) ← readValue? (2 * cs.length + 1) cs
  if (skipBlanks rest).isEmpty then some value else none

end SheetDiff.Json
