import TokenCodec.Text.CaseFold
import TokenCodec.Text.DecimalDigit
import TokenCodec.Text.WordCharacter

/-!
# Sets of characters

The sets that one step of a regular expression can match: ranges, the named
classes, and their combinations.
-/

namespace TokenCodec.Regex

inductive CharSet where
  | empty
  | range (first last : Char)
  | digit
  | space
  | word
  | union (a b : CharSet)
  | intersection (a b : CharSet)
  | complement (a : CharSet)
  /-- The characters that differ from a member in case at most. -/
  | caseless (a : CharSet)
  deriving DecidableEq, Repr, Inhabited

namespace CharSet

def contains : CharSet → Char → Bool
  | empty, _ => false
  | range first last, c => first ≤ c && c ≤ last
  | digit, c => Text.isDecimalDigit c
  | space, c => Text.isWhiteSpace c
  | word, c => Text.isWordCharacter c
  | union a b, c => a.contains c || b.contains c
  | intersection a b, c => a.contains c && b.contains c
  | complement a, c => !a.contains c
  | caseless a, c => (Text.caseVariants c).any fun variant => a.contains variant

def single (c : Char) : CharSet := range c c

def any : CharSet := complement empty

def unions (sets : List CharSet) : CharSet := sets.foldr union empty

def complementIf (negated : Bool) (set : CharSet) : CharSet :=
  if negated then complement set else set

def caselessIf (ignoreCase : Bool) (set : CharSet) : CharSet :=
  if ignoreCase then caseless set else set

/-- The character after `c`.  Surrogates are skipped, and the last character has
none after it. -/
def next? (c : Char) : Option Char :=
  if c.toNat = 0xD7FF then some (Char.ofNat 0xE000)
  else if c.toNat = 0x10FFFF then none
  else some (Char.ofNat (c.toNat + 1))

/-- The characters whose membership can differ from that of the character in
front of them.  What a set gains by ignoring case are single characters, each
one a corner, as is the character after it. -/
def corners : CharSet → List Char
  | empty => []
  | range first last => first :: (next? last).toList
  | digit => Text.decimalDigitRanges.corners
  | space => Text.whiteSpaceRanges.corners
  | word => Text.wordRanges.corners
  | union a b => a.corners ++ b.corners
  | intersection a b => a.corners ++ b.corners
  | complement a => a.corners
  | caseless a =>
      let touched := Text.foldingPairs.filter fun pair => a.contains pair.1 || a.contains pair.2
      a.corners ++ touched.flatMap fun pair =>
        (Text.caseVariants pair.1).flatMap fun c => c :: (next? c).toList

/-- Two sets have the same members.  Between its corners membership in a set
does not change, so it is enough to compare at the corners of both. -/
def same (a b : CharSet) : Bool :=
  a == b || ('\x00' :: (a.corners ++ b.corners)).all fun c => a.contains c == b.contains c

/-- The member of a set that has only one: the only corner that is a member,
and the character after it is not. -/
def only? (a : CharSet) : Option Char :=
  match ('\x00' :: a.corners).filter a.contains with
  | [] => none
  | c :: others =>
      if others.all (· == c) && (next? c).all (fun after => !a.contains after) then some c
      else none

@[simp]
theorem contains_single (a c : Char) : (single a).contains c = (a == c) := by
  rw [Bool.eq_iff_iff, beq_iff_eq]
  simp only [single, contains, Bool.and_eq_true, decide_eq_true_eq]
  exact ⟨fun h => Char.le_antisymm h.1 h.2, fun h => h ▸ ⟨Char.le_refl _, Char.le_refl _⟩⟩

@[simp]
theorem contains_any (c : Char) : any.contains c = true := rfl

end CharSet

end TokenCodec.Regex
