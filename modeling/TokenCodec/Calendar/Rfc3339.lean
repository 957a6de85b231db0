import TokenCodec.Calendar.Timestamp
import TokenCodec.Numeral.Integer
import TokenCodec.Token

/-!
# Timestamps as text

The text of RFC 3339: a date, a separator, a time with an optional fraction of
a second, and an offset.  Reading allows a lower case `t` or a space as the
separator, `z` for `Z`, and the minus sign U+2212 in the offset; digits of the
fraction after the ninth are dropped.  Writing gives `T`, a numeric offset, and
a fraction of three, six or nine digits, the fewest that lose nothing.
-/

namespace TokenCodec.Calendar

open Numeral

/-- The value of exactly `count` digits and the characters after them. -/
def fixedDigits? (count : Nat) (chars : List Char) : Option (Nat × List Char) :=
  let digits := chars.take count
  if digits.length = count && digits.all Char.isDigit then
    some (Nat.ofDigitChars 10 digits 0, chars.drop count)
  else none

/-- The characters after a required one. -/
def after? (c : Char) : List Char → Option (List Char)
  | [] => none
  | first :: rest => if first = c then some rest else none

/-- The nanoseconds of an optional fraction and the characters after it. -/
def fraction? : List Char → Option (Nat × List Char)
  | '.' :: rest =>
      let digits := rest.takeWhile Char.isDigit
      let kept := digits.take 9
      if digits.isEmpty then none
      else
        some (Nat.ofDigitChars 10 kept 0 * Nat.pow 10 (9 - kept.length),
          rest.dropWhile Char.isDigit)
  | rest => some (0, rest)

/-- The minutes of a numeric offset after its sign. -/
def offsetMinutes? (chars : List Char) : Option Int := do
  let (hours, rest) ← fixedDigits? 2 chars
  let rest ← after? ':' rest
  let (minutes, rest) ← fixedDigits? 2 rest
  if rest.isEmpty && minutes ≤ 59 then some (hours * 60 + minutes) else none

/-- The minutes of an offset that ends the text. -/
def offset? : List Char → Option Int
  | ['Z'] => some 0
  | ['z'] => some 0
  | '+' :: rest => offsetMinutes? rest
  | '-' :: rest => (offsetMinutes? rest).map (- ·)
  | '\u2212' :: rest => (offsetMinutes? rest).map (- ·)
  | _ => none

/-- The character between date and time. -/
def isSeparator (c : Char) : Bool := c == 'T' || c == 't' || c == ' '

/-- The characters after the separator. -/
def afterSeparator? : List Char → Option (List Char)
  | [] => none
  | first :: rest => if isSeparator first then some rest else none

namespace Timestamp

/-- Read the characters of a timestamp. -/
def ofChars? (chars : List Char) : Option Timestamp := do
  let (year, rest) ← fixedDigits? 4 chars
  let rest ← after? '-' rest
  let (month, rest) ← fixedDigits? 2 rest
  let rest ← after? '-' rest
  let (day, rest) ← fixedDigits? 2 rest
  let rest ← afterSeparator? rest
  let (hour, rest) ← fixedDigits? 2 rest
  let rest ← after? ':' rest
  let (minute, rest) ← fixedDigits? 2 rest
  let rest ← after? ':' rest
  let (second, rest) ← fixedDigits? 2 rest
  let (nanosecond, rest) ← fraction? rest
  let offset ← offset? rest
  let time : Timestamp := ⟨year, month, day, hour, minute, second, nanosecond, offset⟩
  if time.isValid then some time else none

/-- Read a timestamp. -/
def ofText? (text : String) : Option Timestamp := ofChars? text.toList

/-- A number with leading zeros up to `width` digits. -/
def padded (width n : Nat) : List Char :=
  let digits := Nat.toDigits 10 n
  List.replicate (width - digits.length) '0' ++ digits

/-- The fraction of a second: nothing for zero, and otherwise three, six or nine
digits after a point. -/
def fractionChars (nanosecond : Nat) : List Char :=
  if nanosecond = 0 then []
  else if nanosecond % 1000000 = 0 then '.' :: padded 3 (nanosecond / 1000000)
  else if nanosecond % 1000 = 0 then '.' :: padded 6 (nanosecond / 1000)
  else '.' :: padded 9 nanosecond

/-- The offset as sign, hours and minutes. -/
def offsetChars (offset : Int) : List Char :=
  (if offset < 0 then '-' else '+') :: padded 2 (offset.natAbs / 60) ++
    ':' :: padded 2 (offset.natAbs % 60)

/-- Date and time, with what stands between them and in front of the offset. -/
def chars (time : Timestamp) (separator : Char) (gap : List Char) : List Char :=
  padded 4 time.year ++ '-' :: padded 2 time.month ++ '-' :: padded 2 time.day ++
    separator :: padded 2 time.hour ++ ':' :: padded 2 time.minute ++
    ':' :: padded 2 time.second ++ fractionChars time.nanosecond ++ gap ++
    offsetChars time.offset

/-- The text of RFC 3339. -/
def text (time : Timestamp) : String := String.ofList (time.chars 'T' [])

/-- Messages show a timestamp with spaces in place of the separator and in front
of the offset. -/
instance : Shown Timestamp := ⟨fun time => String.ofList (time.chars ' ' [' '])⟩

end Timestamp

end TokenCodec.Calendar
