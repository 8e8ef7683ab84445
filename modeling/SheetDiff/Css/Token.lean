/-!
# Tokens

A stylesheet is read as a sequence of tokens. Each token keeps the characters it was written
with and the line it starts on, so that any part of a sheet can be quoted as it stands.
-/

namespace SheetDiff.Css

/-- The kinds of bracket that enclose a part of a stylesheet. -/
inductive Bracket where
  | round
  | square
  | curly
  deriving DecidableEq, Repr, Inhabited

def Bracket.opener : Bracket → Char
  | .round => '('
  | .square => '['
  | .curly => '{'

def Bracket.closer : Bracket → Char
  | .round => ')'
  | .square => ']'
  | .curly => '}'

/-- A decimal number as it is written: sign, digits on either side of the point, exponent. -/
structure Numeral where
  sign : Option Char
  whole : List Char
  fraction : List Char
  /-- Whether the exponent is negative, and its digits. -/
  exponent : Option (Bool × List Char)
  deriving DecidableEq, Repr, Inhabited

/-- Written without point and exponent. -/
def Numeral.isInteger (n : Numeral) : Bool := n.fraction.isEmpty && n.exponent.isNone

/-- The kind of a token with its contents, escapes resolved. -/
inductive Kind where
  | ident (name : String)
  | function (name : String)
  | atKeyword (name : String)
  | hash (name : String)
  | idHash (name : String)
  | string (text : String)
  | badString (text : String)
  | url (text : String)
  | badUrl (text : String)
  | number (value : Numeral)
  | percentage (value : Numeral)
  | dimension (value : Numeral) (unit : String)
  | whitespace
  | comment (text : String)
  | colon
  | semicolon
  | comma
  /-- An attribute matcher such as `~=`, by its first character. -/
  | matcher (sign : Char)
  | cdo
  | cdc
  | opening (bracket : Bracket)
  | closing (bracket : Bracket)
  | delim (char : Char)
  deriving DecidableEq, Repr, Inhabited

/-- A token with its source characters and the line it starts on, counted from one. -/
structure Token where
  kind : Kind
  source : List Char
  line : Nat
  deriving DecidableEq, Repr, Inhabited

namespace Kind

/-- The bracket that a token opens; a function name opens a round one. -/
def opens? : Kind → Option Bracket
  | function _ => some .round
  | opening b => some b
  | _ => none

def closes? : Kind → Option Bracket
  | closing b => some b
  | _ => none

/-- White space and comments, which stand between tokens. -/
def isSpacing : Kind → Bool
  | whitespace | comment _ => true
  | _ => false

/-- What may stand between two rules: spacing and the delimiters of a markup comment. -/
def isRuleGap : Kind → Bool
  | cdo | cdc => true
  | k => k.isSpacing

end Kind

end SheetDiff.Css
