/-!
# Tokens and nesting

A token of a structured format opens a structure, closes the innermost open
one, or leaves the nesting as it is.  Every format-independent machine of this
library needs no more than that: it follows a depth, skips what it does not
understand and finds where one structural unit ends.
-/

namespace TokenCodec

/-- How one token moves the nesting depth. -/
inductive Nesting where
  /-- The token opens a structure. -/
  | opens
  /-- The token closes the innermost open structure. -/
  | closes
  /-- The token lies inside the current structure. -/
  | flat
  deriving DecidableEq, Repr, Inhabited

namespace Nesting

/-- The depth after one token.  A closing token at depth zero changes nothing,
so a depth is never negative. -/
def track (depth : Nat) : Nesting → Nat
  | opens => depth + 1
  | closes => depth - 1
  | flat => depth

@[simp]
theorem track_opens (depth : Nat) : opens.track depth = depth + 1 := rfl

@[simp]
theorem track_closes (depth : Nat) : closes.track depth = depth - 1 := rfl

@[simp]
theorem track_flat (depth : Nat) : flat.track depth = depth := rfl

end Nesting

/-- The text that messages and descriptions show for a value. -/
class Shown (α : Type) where
  /-- The shown text. -/
  text : α → String

instance : Shown String := ⟨id⟩

instance : Shown Bool := ⟨fun b => if b then "true" else "false"⟩

/-- The tokens of one format: how each of them nests, and how messages show
it. -/
class Alphabet (τ : Type) extends Shown τ where
  /-- The nesting of a token. -/
  nesting : τ → Nesting

/-- The depth after one token. -/
def Alphabet.track {τ : Type} [Alphabet τ] (depth : Nat) (token : τ) : Nat :=
  (nesting token).track depth

/-- The depth after a run of tokens. -/
def Alphabet.trackAll {τ : Type} [Alphabet τ] (depth : Nat) (tokens : List τ) : Nat :=
  tokens.foldl track depth

end TokenCodec
