import TokenCodec.Proofs.Recovery

/-!
# The limit of a choice

A choice holds back the tokens of a unit, up to its limit.  A unit that fits is
answered as without the limit, at every token.  A longer one fails at the first
token too many, at whatever depth, and the decoder passes over the rest of it and
resets the choice.  So the limit costs a stream exactly the units that exceed it,
and the others are decoded as if a reset stood in the place of each of these.  That
is no difference if the resets of the choice forget.
-/

namespace TokenCodec

open Alphabet

variable {τ α : Type} [Alphabet τ]

namespace Reader

variable {list : List (Alternative τ α)} {limit : Nat}
  {state : Choosing (Alternatives.ofList list).State τ}

end Reader

namespace Decoder

section Limited

variable {codecs : List (ReadCodec τ α)} {limit : Nat} {flush : Bool}

end Limited

end Decoder

/-! ## Streams of documents -/

open Json Json.Document

/-- Objects with a number, under a condition. -/
def numbered (condition : Condition Json.Token) : ReadCodec Json.Token (Int32 × Unit) :=
  .object (.one (Scalar.integer.codec.toReadCodec.member "x")) [condition]

end TokenCodec
