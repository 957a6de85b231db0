import TokenCodec.Text.GraphemeExtend
import TokenCodec.Text.Unprintable

/-!
# Quoted text

Messages show text between double quotes.  The quote, the backslash and the
four control characters with a short name are written with a backslash; a
character that does not print by itself is written by its code point; every
other character, the apostrophe included, stands for itself.
-/

namespace TokenCodec.Text

def hexDigits (point : Nat) : List Char := Nat.toDigits 16 point

/-- One character as quoted text shows it. -/
def quoteChar (c : Char) : List Char :=
  if c == '\x00' then ['\\', '0']
  else if c == '\t' then ['\\', 't']
  else if c == '\r' then ['\\', 'r']
  else if c == '\n' then ['\\', 'n']
  else if c == '"' then ['\\', '"']
  else if c == '\\' then ['\\', '\\']
  else if isGraphemeExtend c || isUnprintable c then
    ['\\', 'u', '\x7b'] ++ hexDigits c.toNat ++ ['\x7d']
  else [c]

def quote (text : String) : String :=
  String.ofList ('"' :: text.toList.flatMap quoteChar ++ ['"'])

end TokenCodec.Text
