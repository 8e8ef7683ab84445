import SheetDiff.Css.Lexer
import SheetDiff.Decimal.Shortest

/-!
# Quoting a token

A diagnostic names a token that stands in a wrong place by `Kind.text`: contents are written
again with as few escapes as needed, and numbers by six significant digits.
-/

namespace SheetDiff.Css

/-! ## Names and strings -/

def isControl (c : Char) : Bool := (1 ≤ c.toNat && c.toNat ≤ 0x1f) || c = '\x7f'

/-- A character by its code. -/
def hexEscaped (c : Char) : List Char := '\\' :: Nat.toDigits 16 c.toNat ++ [' ']

def nameCharText (c : Char) : List Char :=
  if c.isAlphanum || c = '_' || c = '-' || isNonAscii c then [c]
  else if c = '\x00' then [replacement]
  else if isControl c then hexEscaped c
  else ['\\', c]

/-- The text of a name that does not start an identifier. -/
def nameText (cs : List Char) : List Char := cs.flatMap nameCharText

/-- A name whose first character, if a digit, needs an escape. -/
def leadingDigitText : List Char → List Char
  | [] => []
  | c :: cs => if c.isDigit then hexEscaped c ++ nameText cs else nameText (c :: cs)

def identText : List Char → List Char
  | '-' :: '-' :: cs => '-' :: '-' :: nameText cs
  | ['-'] => ['\\', '-']
  | '-' :: cs => '-' :: leadingDigitText cs
  | cs => leadingDigitText cs

def stringCharText (c : Char) : List Char :=
  if c = '"' || c = '\\' then ['\\', c]
  else if c = '\x00' then [replacement]
  else if isControl c then hexEscaped c
  else [c]

def urlCharText (c : Char) : List Char :=
  if c.toNat ≤ 0x20 || c = '\x7f' then hexEscaped c
  else if c = '(' || c = ')' || c = '"' || c = '\'' || c = '\\' then ['\\', c]
  else [c]

/-! ## Numbers -/

/-- How numbers are written: significant digits, and the places of the point that go without an
exponent. -/
structure NumberLayout where
  significant : Nat
  lowestPoint : Int
  highestPoint : Int

/-- Six significant digits; from a millionth to below ten to the twenty-first without exponent. -/
def diagnosticNumber : NumberLayout := ⟨6, -5, 21⟩

/-- A decimal by its layout; the exponent is chosen before digits are dropped. -/
def NumberLayout.text (layout : NumberLayout) (d : Decimal.Scaled) : List Char :=
  let point := d.width + d.exponent
  if layout.lowestPoint ≤ point ∧ point ≤ layout.highestPoint then
    (d.roundTo layout.significant).text
  else
    let coefficient : Decimal.Scaled := ⟨d.digits, d.exponent - (point - 1)⟩
    (coefficient.roundTo layout.significant).text ++ 'e' :: (toString (point - 1)).toList

/-- The value of decimal digits. -/
def digitsValue (ds : List Char) : Float :=
  ds.foldl (fun v d => v * 10 + (d.toNat - '0'.toNat).toFloat) 0

/-- The value of digits after the point, added up from the first. -/
def fractionValue (ds : List Char) : Float :=
  (ds.foldl (fun (v, place) d => (v + (d.toNat - '0'.toNat).toFloat * place, place * 0.1))
    ((0, 0.1) : Float × Float)).1

namespace Numeral

/-- The binary64 value of a number as it is written. -/
def value (n : Numeral) : Float :=
  let sign : Float := if n.sign = some '-' then -1 else 1
  let magnitude := digitsValue n.whole + fractionValue n.fraction
  match n.exponent with
  | none => sign * magnitude
  | some (negative, digits) =>
    sign * magnitude * Float.pow 10 ((if negative then -1 else 1) * digitsValue digits)

/-- The bits of a binary32 number; what is not a number is negative and has one fraction bit. -/
def bitsOf (x : Float32) : Nat := if x.isNaN then 0xffc00000 else x.toBits.toNat

/-- The text of a number given by the bits of its value. -/
def textOfBits (n : Numeral) (bits : Nat) : List Char :=
  let negative := Nat.pow 2 31 ≤ bits
  let magnitude := bits % Nat.pow 2 31
  let digits := if magnitude = 0 then ['0'] else diagnosticNumber.text (Decimal.shortest magnitude)
  let whole := (Decimal.Interval.ofBits magnitude).value % Nat.pow 2 151 = 0
  let bare := digits.all fun c => c ≠ '.' ∧ c ≠ 'e'
  (if negative then ['-'] else if n.sign.isSome then ['+'] else []) ++ digits
    ++ if !n.isInteger && whole && bare then ['.', '0'] else []

/-- The text of a number or of the number of a dimension. -/
def text (n : Numeral) : List Char := n.textOfBits (bitsOf n.value.toFloat32)

/-- The text of a percentage, whose value is kept as a fraction of one. -/
def percentText (n : Numeral) : List Char :=
  n.textOfBits (bitsOf ((n.value / 100).toFloat32 * 100)) ++ ['%']

end Numeral

/-- The text of a unit; one that reads like an exponent has its first letter escaped. -/
def unitText : List Char → List Char
  | c :: cs =>
    if (c = 'e' ∨ c = 'E') ∧ (cs = [] ∨ cs.head? = some '-') then "\\65 ".toList ++ nameText cs
    else identText (c :: cs)
  | [] => []

/-! ## Tokens -/

/-- The text of a token in a diagnostic. -/
def Kind.text : Kind → List Char
  | ident name => identText name.toList
  | function name => identText name.toList ++ ['(']
  | atKeyword name => '@' :: identText name.toList
  | idHash name => '#' :: identText name.toList
  | hash name => '#' :: nameText name.toList
  | string text => '"' :: text.toList.flatMap stringCharText ++ ['"']
  | badString text => '"' :: text.toList.flatMap stringCharText
  | url text => "url(".toList ++ text.toList.flatMap urlCharText ++ [')']
  | badUrl text => "url(".toList ++ text.toList ++ [')']
  | number value => value.text
  | percentage value => value.percentText
  | dimension value unit => value.text ++ unitText unit.toList
  | whitespace => [' ']
  | comment text => "/*".toList ++ text.toList ++ "*/".toList
  | colon => [':']
  | semicolon => [';']
  | comma => [',']
  | matcher sign => [sign, '=']
  | cdo => "<!--".toList
  | cdc => "-->".toList
  | opening bracket => [bracket.opener]
  | closing bracket => [bracket.closer]
  | delim char => [char]

end SheetDiff.Css
