import TokenCodec.Codec.Basic
import TokenCodec.Regex.Reading

/-!
# Texts that match a regular expression

A codec of texts restricted to those that an expression matches as a whole.
The captured texts are what the value is made of.  A written value is not
checked.
-/

namespace TokenCodec

variable {τ α : Type}

/-- The captured texts of a match: the whole text, and then each group, absent
if it took no part. -/
abbrev Captures := List (Option String)

/-- The captured texts of a text that the expression matches as a whole; other
texts fail. -/
def Regex.Expression.check (expression : Regex.Expression) (text : String) :
    Outcome Captures :=
  match expression.pattern.captures? text with
  | some captures => .produced captures
  | none => .failed (.here (.mismatch expression.source text))

namespace ReadCodec

/-- The texts that match `expression`, made into values by `f`. -/
def matching (codec : ReadCodec τ String) (expression : Regex.Expression)
    (f : Captures → α) : ReadCodec τ α where
  description := codec.description ++ " matching /" ++ expression.source ++ "/"
  reader := codec.reader.refine fun text => (expression.check text).map f

end ReadCodec

namespace WriteCodec

def matching (codec : WriteCodec τ String) (expression : Regex.Expression)
    (g : α → String) : WriteCodec τ α where
  description := codec.description ++ " matching /" ++ expression.source ++ "/"
  writer := codec.writer.contramap g

end WriteCodec

/-- The texts that match `expression`, made into values by `f` and rendered by
`g`. -/
def Codec.matching (codec : Codec τ String) (expression : Regex.Expression)
    (f : Captures → α) (g : α → String) : Codec τ α :=
  ofHalves (codec.toReadCodec.matching expression f)
    (codec.toWriteCodec.matching expression g)

end TokenCodec
