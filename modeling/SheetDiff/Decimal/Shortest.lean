/-!
# Shortest decimals of a binary32 number

A binary32 number stands for every real between the midpoints to its neighbours. `shortest` finds
the decimal `digits * 10 ^ exponent` with the fewest digits strictly inside that interval, and of
two such decimals the one nearer to the number. `roundTo` keeps a number of leading digits, a half
going up, and `Scaled.text` writes a decimal without an exponent.
-/

namespace SheetDiff.Decimal

/-- The decimal `digits * 10 ^ exponent`. -/
structure Scaled where
  digits : Nat
  exponent : Int
  deriving DecidableEq, Repr, Inhabited

/-- A number with the ends of its interval, as multiples of `2 ^ (-151)`. -/
structure Interval where
  value : Nat
  below : Nat
  above : Nat
  deriving Repr

/-- The interval of the binary32 number with these bits, its sign left aside; the two largest
exponents are read alike, so infinity is the next power of two. -/
def Interval.ofBits (bits : Nat) : Interval :=
  let exponent := bits / Nat.pow 2 23 % Nat.pow 2 8
  let fraction := bits % Nat.pow 2 23
  let scale := max exponent 1
  let value := (if exponent = 0 then fraction else fraction + Nat.pow 2 23) * Nat.pow 2 (scale + 1)
  let down := if fraction = 0 ∧ 1 < exponent then scale - 1 else scale
  ⟨value, value - Nat.pow 2 down, value + Nat.pow 2 scale⟩

/-- The nearest multiple of `10 ^ k` inside an interval, if one lies there. -/
def Interval.onGrid? (i : Interval) (k : Int) : Option Scaled :=
  let unit := Nat.pow 10 (-k).toNat
  let step := Nat.pow 2 151 * Nat.pow 10 k.toNat
  let inside (n : Nat) : Bool := i.below * unit < n * step && n * step < i.above * unit
  let low := i.value * unit / step
  let rest := i.value * unit % step
  let candidates := if 2 * rest ≤ step then [low, low + 1] else [low + 1, low]
  (candidates.find? inside).map (⟨·, k⟩)

/-- The exponents of ten between which every binary32 number has a decimal, largest first. -/
def gridExponents : List Int := (List.range 86).map fun n : Nat => (39 : Int) - n

/-- The shortest decimal of the binary32 number with these bits, its sign left aside. -/
def shortest (bits : Nat) : Scaled :=
  (gridExponents.findSome? (Interval.ofBits bits).onGrid?).getD ⟨0, 0⟩

/-- The decimal digits of a number, most significant first. -/
def digitChars (n : Nat) : List Char := Nat.toDigits 10 n

namespace Scaled

/-- The number of digits. -/
def width (d : Scaled) : Nat := (digitChars d.digits).length

/-- Keeps the leading digits of a decimal, a half going up. -/
def roundTo (places : Nat) (d : Scaled) : Scaled :=
  let surplus := d.width - places
  let unit := Nat.pow 10 surplus
  ⟨(2 * d.digits + unit) / (2 * unit), d.exponent + surplus⟩

/-- A decimal without exponent and without zeros that end its fraction. -/
def text (d : Scaled) : List Char :=
  if 0 ≤ d.exponent then digitChars (d.digits * Nat.pow 10 d.exponent.toNat)
  else
    let places := (-d.exponent).toNat
    let unit := Nat.pow 10 places
    let fraction := digitChars (d.digits % unit)
    let padded := List.replicate (places - fraction.length) '0' ++ fraction
    let kept := (padded.reverse.dropWhile (· = '0')).reverse
    digitChars (d.digits / unit) ++ if kept.isEmpty then [] else '.' :: kept

end Scaled

end SheetDiff.Decimal
