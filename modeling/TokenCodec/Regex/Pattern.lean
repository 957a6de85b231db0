import TokenCodec.Regex.CharSet

/-!
# Regular expressions

The structure of a regular expression, and the words of an expression without
assertions.  Repetitions have an order of preference: a greedy one prefers one
more round, a lazy one prefers to go on.  Preference decides which match is
found and plays no part in the set of words.
-/

namespace TokenCodec.Regex

/-- A condition on the place between two characters. -/
inductive Assertion where
  /-- The beginning of the text. -/
  | textStart
  /-- The end of the text. -/
  | textEnd
  /-- The beginning of the text, or the place after a line feed. -/
  | lineStart
  /-- The end of the text, or the place before a line feed. -/
  | lineEnd
  /-- A word character on exactly one side. -/
  | wordBoundary
  /-- A word character on both sides or on neither. -/
  | noWordBoundary
  deriving DecidableEq, Repr

/-- Whether an assertion holds between two characters, `none` standing for the
end of the text on that side. -/
def Assertion.holds (assertion : Assertion) (before after : Option Char) : Bool :=
  match assertion with
  | textStart => before.isNone
  | textEnd => after.isNone
  | lineStart => before.all (· == '\n')
  | lineEnd => after.all (· == '\n')
  | wordBoundary => before.any Text.isWordCharacter != after.any Text.isWordCharacter
  | noWordBoundary => before.any Text.isWordCharacter == after.any Text.isWordCharacter

inductive Pattern where
  /-- Matches the empty text. -/
  | empty
  /-- Matches one character of a set. -/
  | one (set : CharSet)
  /-- Matches the empty text where the assertion holds. -/
  | look (assertion : Assertion)
  /-- One expression after the other. -/
  | append (a b : Pattern)
  /-- Either expression, the first one preferred. -/
  | either (a b : Pattern)
  /-- An expression whose match is noted under a number. -/
  | group (index : Nat) (a : Pattern)
  /-- At least `least` and at most `most` rounds; `none` is no limit. -/
  | repeated (least : Nat) (most : Option Nat) (greedy : Bool) (a : Pattern)
  deriving DecidableEq, Repr, Inhabited

namespace Pattern

/-- The expression can match the empty text, every assertion taken to hold. -/
def nullable : Pattern → Bool
  | empty => true
  | one _ => false
  | look _ => true
  | append a b => a.nullable && b.nullable
  | either a b => a.nullable || b.nullable
  | group _ a => a.nullable
  | repeated least most _ a => least == 0 || most == some 0 || a.nullable

/-- The greatest number of a group, 0 if there is none. -/
def groups : Pattern → Nat
  | empty => 0
  | one _ => 0
  | look _ => 0
  | append a b => max a.groups b.groups
  | either a b => max a.groups b.groups
  | group index a => max index a.groups
  | repeated _ _ _ a => a.groups

end Pattern

end TokenCodec.Regex
