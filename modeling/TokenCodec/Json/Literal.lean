import TokenCodec.Json.Token
import TokenCodec.Numeral.Shortest

/-!
# Tokens of literals

The scalar token of a value of each primitive kind, the value being given by its
text.
-/

namespace TokenCodec.Json

open Numeral

inductive LiteralKind where
  /-- An integer of the given number of bits, one of them the sign. -/
  | signed (bits : Nat)
  /-- A natural number of the given number of bits. -/
  | unsigned (bits : Nat)
  /-- A floating point number of a format. -/
  | binary (format : BinaryFormat)
  | boolean
  | text
  deriving DecidableEq, Repr

def Token.ofInt (n : Int) : Token := .number (integerText n)

/-- The token of a floating point number, which may be one that JSON has no
number for. -/
def Token.ofBinary {format : BinaryFormat} (x : Binary format) : Token := .number x.text

/-- The token of the value that a text denotes, if it denotes one of the kind.
Every text other than `true` denotes the truth value false. -/
def LiteralKind.token? (kind : LiteralKind) (text : String) : Option Token :=
  match kind with
  | signed bits =>
      (boundedInteger? (-Nat.pow 2 (bits - 1)) (Nat.pow 2 (bits - 1) - 1) text).map Token.ofInt
  | unsigned bits =>
      ((natural? text).filter (· < Nat.pow 2 bits)).map fun n => Token.ofInt n
  | binary format => (Binary.ofText? text : Option (Binary format)).map Token.ofBinary
  | boolean => some (.bool (text == "true"))
  | .text => some (.string text)

end TokenCodec.Json
