import TokenCodec.Regex.Pattern

/-!
# Putting expressions together

Expressions are put together from their parts in a simple form.  What is empty
vanishes from a sequence, and so does a repetition of no rounds: the groups in
it are no groups of the expression.  Alternatives that begin with the same
pieces take these pieces once, in front of the choice; a preference within the
shared pieces then goes before the preference among the alternatives.  The set
of words is that of the parts as they were given.
-/

namespace TokenCodec.Regex.Pattern

/-- The steps of a sequence; the empty expression has none. -/
def steps : Pattern → List Pattern
  | empty => []
  | append a b => a.steps ++ b.steps
  | a => [a]

def branches : Pattern → List Pattern
  | either a b => a.branches ++ b.branches
  | a => [a]

def ofSteps : List Pattern → Pattern
  | [] => empty
  | [a] => a
  | a :: rest => append a (ofSteps rest)

/-- A choice between expressions, the first one preferred. -/
def ofBranches : List Pattern → Pattern
  | [] => one .empty
  | [a] => a
  | a :: rest => either a (ofBranches rest)

/-- Expressions one after the other; a sequence among them is taken apart. -/
def sequence (patterns : List Pattern) : Pattern := ofSteps (patterns.flatMap steps)

def takesNothing : Pattern → Bool
  | empty => true
  | one _ => false
  | look _ => true
  | append a b => a.takesNothing && b.takesNothing
  | either a b => a.takesNothing && b.takesNothing
  | group _ a => a.takesNothing
  | repeated _ most _ a => most == some 0 || a.takesNothing

/-- A repetition.  An expression that takes no character is repeated once at
most, as further rounds would find it at the same place. -/
def repetition (least : Nat) (most : Option Nat) (greedy : Bool) (a : Pattern) : Pattern :=
  let (least, most) :=
    if a.takesNothing then (min least 1, some (min (most.getD 1) 1)) else (least, most)
  if most = some 0 then empty
  else if least = 1 ∧ most = some 1 then a
  else repeated least most greedy a

/-- Two expressions are the same, up to the way in which their sets of
characters are given. -/
def same : Pattern → Pattern → Bool
  | empty, empty => true
  | one set, one other => set.same other
  | look assertion, look other => assertion == other
  | append a b, append c d => a.same c && b.same d
  | either a b, either c d => a.same c && b.same d
  | group index a, group other b => index == other && a.same b
  | repeated least most greedy a, repeated least' most' greedy' b =>
      least == least' && most == most' && greedy == greedy' && a.same b
  | _, _ => false

def set? : Pattern → Option CharSet
  | one set => some set
  | _ => none

/-- The expression matches just one text of one character. -/
def isLetter (a : Pattern) : Bool := (a.set?.bind CharSet.only?).isSome

/-- The pieces of a sequence: its steps, letters in a row being one piece. -/
def pieces (a : Pattern) : List (List Pattern) :=
  a.steps.splitBy fun before after => before.isLetter && after.isLetter

def samePiece (a b : List Pattern) : Bool :=
  a.length == b.length && (a.zip b).all fun pair => pair.1.same pair.2

/-- The pieces with which two sequences begin alike. -/
def shared : List (List Pattern) → List (List Pattern) → List (List Pattern)
  | a :: as, b :: bs => if samePiece a b then a :: shared as bs else []
  | _, _ => []

/-- A choice as it is given; one between single characters is a set. -/
def union (patterns : List Pattern) : Pattern :=
  let patterns := patterns.flatMap branches
  match patterns with
  | [a] => a
  | _ =>
      match patterns.mapM set? with
      | some sets => one (.unions sets)
      | none => ofBranches patterns

/-- A choice between expressions, the first one preferred.  If all of them are
sequences of several pieces, the pieces that they have in common at their
beginning are in front of the choice. -/
def choice (patterns : List Pattern) : Pattern :=
  let alternatives := (patterns.flatMap branches).map pieces
  let common := match alternatives with
    | first :: second :: others => (second :: others).foldl shared first
    | _ => []
  if !common.isEmpty && alternatives.all (1 < ·.length) then
    let rests := alternatives.map fun alternative =>
      ofSteps (alternative.drop common.length).flatten
    sequence (common.flatten ++ [union rests])
  else union patterns

end TokenCodec.Regex.Pattern
