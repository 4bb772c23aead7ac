/-!
# Shortest decimal text of a double

A finite double is `m * 2 ^ q`. The reals that round to it form an interval, whose ends belong to it
when `m` is even. The text has the fewest digits that lie in the interval and, among those, the
digits nearest to the double. All comparisons are between natural numbers: a double is counted in
quarters of the least positive double, and decimals are scaled to that count.
-/
namespace NameResolution.Decimal

/-- The magnitude `significand * 2 ^ (exponent - 1074)` of a finite double. -/
structure Magnitude where
  significand : Nat
  exponent : Nat
  /-- The double below is only half as far away as the double above. -/
  narrowBelow : Bool

namespace Magnitude

/-- The magnitude that the bits of a finite double denote. -/
def ofBits (bits : Nat) : Magnitude :=
  let fraction := bits % Nat.pow 2 52
  let biased := bits / Nat.pow 2 52 % Nat.pow 2 11
  if biased = 0 then ⟨fraction, 0, false⟩
  else ⟨Nat.pow 2 52 + fraction, biased - 1, fraction = 0 && 1 < biased⟩

/-- Decimals below `10 ^ (-places)` are never looked at. -/
def places : Nat := 342

/-- A count of quarters of the least positive double, times `10 ^ places`. -/
def scaled (m : Magnitude) (quarters : Nat) : Nat := quarters * Nat.pow 2 m.exponent * Nat.pow 10 places

def value (m : Magnitude) : Nat := m.scaled (4 * m.significand)

def low (m : Magnitude) : Nat := m.scaled (4 * m.significand - if m.narrowBelow then 1 else 2)

def high (m : Magnitude) : Nat := m.scaled (4 * m.significand + 2)

/-- The scaled number `x` rounds to the magnitude. -/
def contains (m : Magnitude) (x : Nat) : Bool :=
  if m.significand % 2 = 0 then m.low ≤ x && x ≤ m.high else m.low < x && x < m.high

end Magnitude

/-- A decimal that ends at some place: `digits * 10 ^ (shift - Magnitude.places)`. -/
structure Rounded where
  digits : Nat
  shift : Nat
deriving DecidableEq

/-- The scaled distance between neighbouring decimals with the given shift. -/
def step (shift : Nat) : Nat := Nat.pow 10 shift * Nat.pow 2 1076

/-- The decimal of the given shift that rounds to the magnitude and is nearest to it, if there is one.
Of two equally near ones it is the greater. -/
def nearest? (m : Magnitude) (shift : Nat) : Option Rounded :=
  let below := m.value / step shift
  let lower := m.contains (below * step shift)
  let upper := m.contains ((below + 1) * step shift)
  let lowerIsNearer := m.value - below * step shift < (below + 1) * step shift - m.value
  if lower && (!upper || lowerIsNearer) then some ⟨below, shift⟩
  else if upper then some ⟨below + 1, shift⟩
  else none

/-- The decimal with the largest step, counting down from `shift`, that rounds to the magnitude. -/
def coarsest (m : Magnitude) : Nat → Rounded
  | 0 => ⟨m.value / step 0, 0⟩
  | shift + 1 => (nearest? m (shift + 1)).getD (coarsest m shift)

/-- No decimal with a larger step rounds to a double than one of this shift. -/
def maxShift : Nat := Magnitude.places + 309

def shortest (m : Magnitude) : Rounded := coarsest m maxShift

def dropZeros (cs : List Char) : List Char := (cs.reverse.dropWhile (· == '0')).reverse

/-- The decimal written out without an exponent, with a point only before a fraction. -/
def Rounded.text (d : Rounded) : String :=
  let digits := (toString d.digits).toList
  if Magnitude.places ≤ d.shift then
    String.ofList (digits ++ List.replicate (d.shift - Magnitude.places) '0')
  else
    let places := Magnitude.places - d.shift
    let padded := List.replicate (places + 1 - digits.length) '0' ++ digits
    let whole := padded.take (padded.length - places)
    match dropZeros (padded.drop (padded.length - places)) with
    | [] => String.ofList whole
    | fraction => String.ofList (whole ++ '.' :: fraction)

/-- The shortest text that reads back as the double, never with an exponent. -/
def text (x : Float) : String :=
  let bits := x.toBits.toNat
  if x.isNaN then "NaN"
  else
    let sign := if Nat.pow 2 63 ≤ bits then "-" else ""
    if x.isInf then sign ++ "inf"
    else
      let m := Magnitude.ofBits bits
      sign ++ if m.significand = 0 then "0" else (shortest m).text

/-- The shortest text of a double that cannot be taken for a whole number. -/
def markedText (x : Float) : String :=
  let t := text x
  if t.toList.contains '.' then t else t ++ ".0"

end NameResolution.Decimal
