import NameResolution.Json.Basic

/-!
# Reading numbers

A whole number that fits a 64-bit word is kept as it is. Every other number becomes a double:
the leading digits that fit an unsigned 64-bit word are scaled by a power of ten in floating
arithmetic, and digits beyond them only count as places. The double that results is therefore not
always the one nearest to the text.
-/
namespace NameResolution.Json.Number

/-- The greatest significand, and the greatest whole number that is kept as one. -/
def maxWord : Nat := UInt64.size - 1

def digit? (c : Char) : Option Nat := if c.isDigit then some (c.toNat - '0'.toNat) else none

/-- Continues `significand` with the leading digits that still fit a word, and counts them. -/
def absorb (significand : Nat) : List Nat → Nat × Nat
  | [] => (significand, 0)
  | d :: ds =>
    if significand * 10 + d ≤ maxWord then
      let (s, n) := absorb (significand * 10 + d) ds
      (s, n + 1)
    else (significand, 0)

/-- The greatest exponent of which the power of ten is a finite double. -/
def maxPower : Nat := 308

def powerOfTen (n : Nat) : Float := Float.ofScientific 1 false n

/-- `f` times ten to the `exponent`, none if that is beyond the finite doubles. Powers below the
range are divided off in steps of `maxPower`. -/
def scale (f : Float) (exponent : Int) : Option Float :=
  if exponent.natAbs ≤ maxPower then
    if 0 ≤ exponent then
      let g := f * powerOfTen exponent.natAbs
      if g.isInf then none else some g
    else some (f / powerOfTen exponent.natAbs)
  else if f == 0 then some f
  else if 0 ≤ exponent then none
  else scale (f / powerOfTen maxPower) (exponent + maxPower)
termination_by exponent.natAbs
decreasing_by simp only [maxPower] at *; omega

/-- A number as it is written: sign, digits before the point, digits after it and exponent. -/
structure Numeral where
  negative : Bool
  whole : List Nat
  fraction : Option (List Nat)
  exponent : Option Int

def ofDigits (ds : List Nat) : Nat := ds.foldl (fun n d => n * 10 + d) 0

def Numeral.toFloat (n : Numeral) : Option Float :=
  let (s, kept) := absorb 0 n.whole
  let (s, places) := absorb s (n.fraction.getD [])
  let exponent := (n.whole.length - kept : Int) - places + n.exponent.getD 0
  (scale (UInt64.ofNat s).toFloat exponent).map fun f => if n.negative then -f else f

/-- The value that a numeral denotes, none if it is beyond the finite doubles. Zero with a minus
sign is a double, since no whole number has that sign. -/
def Numeral.value (n : Numeral) : Option Json :=
  let whole := ofDigits n.whole
  match n.fraction, n.exponent, n.negative with
  | none, none, false => if whole ≤ maxWord then some (.int whole) else n.toFloat.map .float
  | none, none, true =>
    if 0 < whole ∧ whole ≤ UInt64.size / 2 then some (.int (-whole)) else n.toFloat.map .float
  | _, _, _ => n.toFloat.map .float

def digits (cs : List Char) : List Nat × List Char :=
  (cs.takeWhile Char.isDigit |>.filterMap digit?, cs.dropWhile Char.isDigit)

/-- The digits before the point: one zero, or digits that do not start with a zero. -/
def whole? (cs : List Char) : Option (List Nat × List Char) :=
  match digits cs with
  | ([], _) => none
  | (0 :: _ :: _, _) => none
  | r => some r

/-- A point and at least one digit, if there is a point. -/
def fraction? : List Char → Option (Option (List Nat) × List Char)
  | '.' :: cs =>
    match digits cs with
    | ([], _) => none
    | (ds, rest) => some (some ds, rest)
  | cs => some (none, cs)

/-- The digits of an exponent, at least one, after an optional sign. -/
def signed? (cs : List Char) : Option (Int × List Char) :=
  let (negative, cs) := match cs with
    | '-' :: cs => (true, cs)
    | '+' :: cs => (false, cs)
    | cs => (false, cs)
  match digits cs with
  | ([], _) => none
  | (ds, rest) => some (if negative then -(ofDigits ds : Int) else ofDigits ds, rest)

/-- The letter `e` and a signed number, if there is such a letter. -/
def exponent? : List Char → Option (Option Int × List Char)
  | 'e' :: cs | 'E' :: cs => (signed? cs).map fun (e, rest) => (some e, rest)
  | cs => some (none, cs)

def Numeral.ofChars? (cs : List Char) : Option Numeral := do
  let (negative, cs) := match cs with
    | '-' :: cs => (true, cs)
    | cs => (false, cs)
  let (whole, cs) ← whole? cs
  let (fraction, cs) ← fraction? cs
  let (exponent, cs) ← exponent? cs
  guard cs.isEmpty
  pure { negative, whole, fraction, exponent }

end NameResolution.Json.Number
