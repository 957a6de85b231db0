import TokenCodec.Numeral.Binary
import TokenCodec.Token

/-!
# The shortest decimal text of a binary number

A finite number is written with the fewest significant digits that read back as
the same number, the nearest such decimal being chosen and the greater one on a
tie.  The digits are written out in full, without an exponent, and a whole
number has no point.
-/

namespace TokenCodec.Numeral

/-- The decimals that read back as one number, as numerators over a common
denominator: the lower end, the number itself and the upper end.  The ends
belong to the interval if `closed`. -/
structure Neighbourhood where
  low : Nat
  value : Nat
  high : Nat
  denominator : Nat
  closed : Bool

namespace Neighbourhood

/-- The interval around `mantissa * 2 ^ exponent`: half way to the next number
on either side, and a quarter of a unit below a least mantissa of full
precision, where the numbers below lie twice as close. -/
def around (format : BinaryFormat) (mantissa : Nat) (exponent : Int) : Neighbourhood :=
  let below := if mantissa = format.leadingBit then 1 else 2
  let unit : Nat × Nat :=
    match exponent - 2 with
    | .ofNat up => (Nat.pow 2 up, 1)
    | .negSucc down => (1, Nat.pow 2 (down + 1))
  ⟨(4 * mantissa - below) * unit.1, 4 * mantissa * unit.1, (4 * mantissa + 2) * unit.1,
    unit.2, mantissa % 2 == 0⟩

/-- Compare two numbers, equality allowed for a closed interval. -/
def within (hood : Neighbourhood) (a b : Nat) : Bool :=
  if hood.closed then a ≤ b else a < b

/-- The number of decimal places left of the leading digit: the value is below
`10 ^ magnitude` and at least a tenth of it. -/
def magnitude (hood : Neighbourhood) : Int :=
  let guess : Int := (Nat.toDigits 10 hood.value).length
    - (Nat.toDigits 10 hood.denominator).length
  let (scaled, unit) := scaleDown 10 guess hood.value hood.denominator
  if scaled < unit then guess else guess + 1

/-- The decimal on the grid `10 ^ place` that reads back: one of the two
neighbours of the value on the grid, the nearer one if both do. -/
def onGrid? (hood : Neighbourhood) (place : Int) : Option Nat :=
  let (value, unit) := scaleDown 10 place hood.value hood.denominator
  let (low, _) := scaleDown 10 place hood.low hood.denominator
  let (high, _) := scaleDown 10 place hood.high hood.denominator
  let down := value / unit
  let downReads := hood.within low (down * unit)
  let upReads := hood.within ((down + 1) * unit) high
  if downReads && (!upReads || 2 * value < (2 * down + 1) * unit) then some down
  else if upReads then some (down + 1)
  else none

/-- Search for the first grid with a decimal that reads back, beginning with
`place` and going to finer ones. -/
def search (hood : Neighbourhood) : Nat → Int → Nat × Int
  | 0, place => (hood.value / hood.denominator, place)
  | fuel + 1, place =>
      match hood.onGrid? place with
      | some decimal => (decimal, place)
      | none => search hood fuel (place - 1)

end Neighbourhood

/-- Drop trailing zeros, raising the place of the last digit. -/
def dropZeros : Nat → Nat → Int → Nat × Int
  | 0, decimal, place => (decimal, place)
  | fuel + 1, decimal, place =>
      if decimal % 10 = 0 then dropZeros fuel (decimal / 10) (place + 1) else (decimal, place)

/-- The shortest decimal `(d, p)`, meaning `d * 10 ^ p`, that reads back as the
positive number `mantissa * 2 ^ exponent`.  As many digits as the mantissa has
bits always suffice. -/
def shortest (format : BinaryFormat) (mantissa : Nat) (exponent : Int) : Nat × Int :=
  let hood := Neighbourhood.around format mantissa exponent
  let (decimal, place) := hood.search format.precision (hood.magnitude - 1)
  dropZeros format.precision decimal place

/-- Write `decimal * 10 ^ place` in full. -/
def positional (decimal : Nat) (place : Int) : List Char :=
  let digits := Nat.toDigits 10 decimal
  match place with
  | .ofNat zeros => digits ++ List.replicate zeros '0'
  | .negSucc below =>
      let fraction := below + 1
      if fraction < digits.length then
        digits.take (digits.length - fraction) ++ '.' :: digits.drop (digits.length - fraction)
      else '0' :: '.' :: (List.replicate (fraction - digits.length) '0' ++ digits)

namespace Binary

variable {format : BinaryFormat}

/-- The text of a number. -/
def text : Binary format → String
  | nan => "NaN"
  | infinite negative => if negative then "-inf" else "inf"
  | finite negative mantissa exponent =>
      let digits :=
        if mantissa = 0 then ['0']
        else
          let (decimal, place) := shortest format mantissa exponent
          positional decimal place
      String.ofList (if negative then '-' :: digits else digits)

instance : Shown (Binary format) := ⟨text⟩

end Binary

end TokenCodec.Numeral
