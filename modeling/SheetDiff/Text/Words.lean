/-!
# Words of a text

Text that a stylesheet stores is cut at white space and joined again by single spaces.

* `words` lists the maximal runs of characters that are not white space.
* `collapse` joins the words by one space each.
* `excerpt` is a collapsed text cut after forty characters.
-/

namespace SheetDiff.Text

/-- The characters with the Unicode property White_Space. -/
def whiteSpace : List Char :=
  ['\t', '\n', '\x0b', '\x0c', '\r', ' ', '\u0085', '\u00a0', '\u1680', '\u2000', '\u2001',
    '\u2002', '\u2003', '\u2004', '\u2005', '\u2006', '\u2007', '\u2008', '\u2009', '\u200a',
    '\u2028', '\u2029', '\u202f', '\u205f', '\u3000']

def isSpace (c : Char) : Bool := whiteSpace.contains c

/-- The maximal runs of characters that are not white space. -/
def words : List Char → List (List Char)
  | [] => []
  | c :: cs =>
    if isSpace c then words cs
    else if cs.head?.all isSpace then [c] :: words cs
    else (words cs).modifyHead (c :: ·)

/-- The words of a text, separated by single spaces. -/
def collapse (cs : List Char) : String := String.ofList ([' '].intercalate (words cs))

/-- The longest excerpt, in characters. -/
def excerptLength : Nat := 40

/-- The collapsed text, cut short with three dots where it is long. -/
def excerpt (cs : List Char) : String :=
  let text := collapse cs
  if text.length ≤ excerptLength then text
  else String.ofList (text.toList.take excerptLength) ++ "..."

/-! ## Small facts -/

theorem words_cons_of_isSpace {c : Char} (h : isSpace c = true) (cs : List Char) :
    words (c :: cs) = words cs := by
  simp [words, h]

end SheetDiff.Text
