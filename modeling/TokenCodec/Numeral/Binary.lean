import TokenCodec.Numeral.Integer

/-!
# Binary floating point numbers

A binary format has a precision and a range of exponents.  Its numbers are
kept as mantissa and exponent, so that reading, comparing and writing them is
exact arithmetic on natural numbers.  Reading a decimal text rounds to the
nearest number of the format, a tie going to the even mantissa.
-/

namespace TokenCodec.Numeral

/-- A binary format: the bits of its mantissas, and the least and the greatest
exponent of the last mantissa bit. -/
structure BinaryFormat where
  precision : Nat
  minExponent : Int
  maxExponent : Int
  deriving DecidableEq, Repr

def BinaryFormat.double : BinaryFormat := ⟨53, -1074, 971⟩

def BinaryFormat.single : BinaryFormat := ⟨24, -149, 104⟩

/-- The weight of the leading bit of a full mantissa. -/
def BinaryFormat.leadingBit (format : BinaryFormat) : Nat := Nat.pow 2 (format.precision - 1)

/-- A number of a binary format.  A finite one is `mantissa * 2 ^ exponent` with
a sign; its mantissa is below `2 ^ precision`, and it is at least half of that
unless the exponent is the least one. -/
inductive Binary (format : BinaryFormat) where
  | nan
  | infinite (negative : Bool)
  | finite (negative : Bool) (mantissa : Nat) (exponent : Int)
  deriving DecidableEq, Repr

abbrev Double := Binary .double

abbrev Single := Binary .single

/-- The quotient rounded to the nearest integer, a tie to the even one. -/
def divideToEven (numerator denominator : Nat) : Nat :=
  let quotient := numerator / denominator
  let twice := 2 * (numerator % denominator)
  if denominator < twice || (twice == denominator && quotient % 2 == 1) then quotient + 1
  else quotient

/-- The ratio divided by `base ^ exponent`, as a ratio again. -/
def scaleDown (base : Nat) (exponent : Int) (numerator denominator : Nat) : Nat × Nat :=
  match exponent with
  | .ofNat up => (numerator, denominator * Nat.pow base up)
  | .negSucc down => (numerator * Nat.pow base (down + 1), denominator)

namespace Binary

variable {format : BinaryFormat}

def zero (negative : Bool) : Binary format := .finite negative 0 format.minExponent

/-- The exponent at which a positive ratio has a quotient of full precision, or
the least exponent if that is greater. -/
def exponentOf (format : BinaryFormat) (numerator denominator : Nat) : Int :=
  let guess := max ((numerator.log2 : Int) - denominator.log2 - format.precision)
    format.minExponent
  let (scaled, unit) := scaleDown 2 guess numerator denominator
  if scaled / unit < Nat.pow 2 format.precision then guess else guess + 1

/-- The number nearest to a ratio.  A ratio beyond the greatest number rounds to
infinity. -/
def ofRatio (negative : Bool) (numerator denominator : Nat) : Binary format :=
  if numerator = 0 then zero negative
  else
    let exponent := exponentOf format numerator denominator
    let (scaled, unit) := scaleDown 2 exponent numerator denominator
    let mantissa := divideToEven scaled unit
    let (mantissa, exponent) :=
      if mantissa < Nat.pow 2 format.precision then (mantissa, exponent)
      else (mantissa / 2, exponent + 1)
    if format.maxExponent < exponent then .infinite negative
    else .finite negative mantissa exponent

/-- The number nearest to `coefficient * 10 ^ exponent`.  Where the position of
the leading digit alone shows that the result is infinite or zero, no power is
formed. -/
def ofDecimal (negative : Bool) (coefficient : Nat) (exponent : Int) : Binary format :=
  let leading := exponent + (Nat.toDigits 10 coefficient).length
  if coefficient = 0 then zero negative
  else if format.maxExponent + format.precision < leading then .infinite negative
  else if leading < format.minExponent then zero negative
  else
    match exponent with
    | .ofNat up => ofRatio negative (coefficient * Nat.pow 10 up) 1
    | .negSucc down => ofRatio negative coefficient (Nat.pow 10 (down + 1))

/-- The digits after an exponent mark, with an optional sign. -/
def exponentPart? (chars : List Char) : Option Int :=
  let (negative, digits) := splitSign chars
  (digits? digits).map (signed negative)

/-- Read digits with an optional point among or beside them and an optional
exponent. -/
def ofDigits? (negative : Bool) (chars : List Char) : Option (Binary format) :=
  let (whole, rest) := chars.span Char.isDigit
  let (fraction, rest) :=
    match rest with
    | '.' :: rest => rest.span Char.isDigit
    | rest => ([], rest)
  let coefficient := Nat.ofDigitChars 10 (whole ++ fraction) 0
  let shift : Int := -fraction.length
  if whole.isEmpty && fraction.isEmpty then none
  else
    match rest with
    | [] => some (ofDecimal negative coefficient shift)
    | mark :: exponent =>
        if mark == 'e' || mark == 'E' then
          (exponentPart? exponent).map fun exponent =>
            ofDecimal negative coefficient (shift + exponent)
        else none

/-- Read the name of a value that is not finite, in any case. -/
def ofName? (negative : Bool) (chars : List Char) : Option (Binary format) :=
  let name := chars.map Char.toLower
  if name = ['n', 'a', 'n'] then some nan
  else if name = ['i', 'n', 'f'] || name = ['i', 'n', 'f', 'i', 'n', 'i', 't', 'y'] then
    some (infinite negative)
  else none

/-- Read a number: an optional sign, and then digits or a name. -/
def ofText? (text : String) : Option (Binary format) :=
  let (negative, chars) := splitSign text.toList
  (ofDigits? negative chars).orElse fun _ => ofName? negative chars

/-- Neither infinite nor no number at all. -/
def isFinite : Binary format → Bool
  | finite _ _ _ => true
  | _ => false

/-- Equality of values: a number that is none differs from itself, and the two
zeros are equal. -/
def sameValue : Binary format → Binary format → Bool
  | infinite negative, infinite negative' => negative == negative'
  | finite negative mantissa exponent, finite negative' mantissa' exponent' =>
      (mantissa == 0 && mantissa' == 0) ||
        (negative == negative' && mantissa == mantissa' && exponent == exponent')
  | _, _ => false

instance : BEq (Binary format) := ⟨sameValue⟩

/-- The word that stores a number: the sign, the exponent field and the mantissa
without its leading bit.  `none` stands for the many words that are no
number. -/
def word? : Binary format → Option Nat
  | nan => none
  | infinite negative => some (sign negative + top * format.leadingBit)
  | finite negative mantissa exponent =>
      let field : Nat :=
        if mantissa < format.leadingBit then 0
        else (exponent - format.minExponent + 1).toNat
      some (sign negative + field * format.leadingBit + mantissa % format.leadingBit)
where
  /-- The exponent field with all bits set. -/
  top : Nat := (format.maxExponent - format.minExponent + 2).toNat
  /-- The sign bit. -/
  sign (negative : Bool) : Nat :=
    if negative then (top + 1) * format.leadingBit else 0

end Binary

end TokenCodec.Numeral
