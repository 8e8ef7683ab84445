/-!
# Lines of a text

Three notions of a line meet in a comparison of stylesheets.

* `lines` cuts a message at line feeds.
* `terminatedLines` cuts a text into lines that keep their terminator: LF, CRLF or a single CR.
* `lineBreaks` counts breaks the way the tokens of a stylesheet see them, where a form feed is
  one too.

The terminated lines of a text join to that text again (`flatten_terminatedLines`), and breaks
add up wherever no CRLF is cut in two (`lineBreaks_append`).
-/

namespace SheetDiff.Text

/-! ## Lines of a message -/

/-- The parts of a text between the separators. -/
def partsAt (separator : Char) : List Char → List (List Char)
  | [] => [[]]
  | c :: cs =>
    if c = separator then [] :: partsAt separator cs
    else (partsAt separator cs).modifyHead (c :: ·)

/-- Takes off one carriage return at the end. -/
def dropReturn (cs : List Char) : List Char :=
  if cs.getLast? = some '\r' then cs.dropLast else cs

/-- The lines of a message: LF or CRLF ends a line, and an empty rest is no line. -/
def lines (text : String) : List String :=
  let parts := partsAt '\n' text.toList
  (parts.dropLast.map dropReturn ++ (parts.getLast?.filter (!·.isEmpty)).toList).map String.ofList

/-! ## Lines with their terminators -/

/-- Whether a line ends after `c` when `cs` follows; CRLF ends it once, after the LF. -/
def endsLine (c : Char) (cs : List Char) : Bool :=
  c = '\n' || (c = '\r' && cs.head? ≠ some '\n')

/-- The lines of a text, each with its terminator. -/
def terminatedLines : List Char → List (List Char)
  | [] => []
  | c :: cs =>
    if endsLine c cs then [c] :: terminatedLines cs
    else match terminatedLines cs with
      | [] => [[c]]
      | line :: rest => (c :: line) :: rest

/-- A line without the carriage returns and line feeds at its end. -/
def bareLine (line : String) : String :=
  String.ofList (line.toList.reverse.dropWhile fun c => c = '\r' || c = '\n').reverse

theorem flatten_terminatedLines (cs : List Char) : (terminatedLines cs).flatten = cs := by
  induction cs with
  | nil => rfl
  | cons c cs ih =>
    unfold terminatedLines
    split
    · simp [ih]
    · split <;> simp_all

/-! ## Breaks inside a stylesheet -/

/-- Whether a line of a stylesheet ends after `c` when `cs` follows. -/
def breaksLine (c : Char) (cs : List Char) : Bool := c = '\x0c' || endsLine c cs

/-- The number of line breaks in a text. -/
def lineBreaks : List Char → Nat
  | [] => 0
  | c :: cs => (breaksLine c cs).toNat + lineBreaks cs

theorem lineBreaks_append {xs ys : List Char}
    (h : xs.getLast? ≠ some '\r' ∨ ys.head? ≠ some '\n') :
    lineBreaks (xs ++ ys) = lineBreaks xs + lineBreaks ys := by
  induction xs with
  | nil => simp [lineBreaks]
  | cons c xs ih =>
    cases xs with
    | nil => by_cases hc : c = '\r' <;> simp_all [lineBreaks, breaksLine, endsLine]
    | cons d xs =>
      have key : breaksLine c (d :: xs ++ ys) = breaksLine c (d :: xs) := by
        simp [breaksLine, endsLine]
      rw [List.cons_append, lineBreaks, key, lineBreaks, ih (by simpa using h), Nat.add_assoc]

end SheetDiff.Text
