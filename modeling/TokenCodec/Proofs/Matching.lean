import TokenCodec.Json.Codec
import TokenCodec.Proofs.Regex.Reading
import TokenCodec.Proofs.Regex.Searching

/-!
# Texts that match as a whole

Between anchors an expression reads the texts that are words of it.  Without
anchors the search settles on one of the words at the beginning of a text, the
one that is preferred, and the text is read only if this is the text itself: a
text is refused although it is a word, if a shorter word is preferred.
-/

namespace TokenCodec.Regex

namespace Pattern

variable {pattern : Pattern} {text : String}

end Pattern

end TokenCodec.Regex

namespace TokenCodec.Regex.Expression

open Json

variable {α : Type} {e : Expression} {f : Captures → α} {text : String}

/-- The answer to a string of the codec of the strings that match an expression. -/
def answer (e : Expression) (f : Captures → α) (text : String) : Outcome α :=
  let reader := (Scalar.string.codec.toReadCodec.matching e f).reader
  (reader.feed reader.start (.string text)).1

end TokenCodec.Regex.Expression
