import TokenCodec.Regex.Pattern

/-!
# Programs for regular expressions

An expression is laid out as instructions with addresses.  A fork prefers its
first address, so that the order of preference of the expression becomes an
order of paths through the program.
-/

namespace TokenCodec.Regex

/-- One instruction.  Addresses are positions in the program. -/
inductive Instruction where
  /-- Take one character of the set and go on at `next`. -/
  | take (set : CharSet) (next : Nat)
  /-- Go on at `next`. -/
  | jump (next : Nat)
  /-- Go on at `first`, or else at `second`. -/
  | fork (first second : Nat)
  /-- Note the position in a slot and go on at `next`. -/
  | save (slot next : Nat)
  /-- Go on at `next` if the assertion holds here. -/
  | check (assertion : Assertion) (next : Nat)
  /-- The match is complete. -/
  | accept
  deriving DecidableEq, Repr

/-- A piece of program that can be laid out anywhere: its size, and its
instructions when it stands at `start` and goes on at `next`. -/
structure Block where
  size : Nat
  layOut : (start next : Nat) → List Instruction

namespace Block

/-- One instruction that goes on. -/
def single (instruction : Nat → Instruction) : Block :=
  ⟨1, fun _ next => [instruction next]⟩

/-- A fork between going on at `inner` and at `next`. -/
def enter (greedy : Bool) (inner next : Nat) : Instruction :=
  if greedy then .fork inner next else .fork next inner

def append (a b : Block) : Block :=
  ⟨a.size + b.size, fun start next =>
    a.layOut start (start + a.size) ++ b.layOut (start + a.size) next⟩

def either (a b : Block) : Block :=
  ⟨1 + a.size + b.size, fun start next =>
    .fork (start + 1) (start + 1 + a.size) ::
      (a.layOut (start + 1) next ++ b.layOut (start + 1 + a.size) next)⟩

def optional (greedy : Bool) (a : Block) : Block :=
  ⟨1 + a.size, fun start next =>
    enter greedy (start + 1) next :: a.layOut (start + 1) next⟩

/-- Any number of rounds of a block that takes a character in every round. -/
def loop (greedy : Bool) (a : Block) : Block :=
  ⟨1 + a.size, fun start next =>
    enter greedy (start + 1) next :: a.layOut (start + 1) start⟩

def plus (greedy : Bool) (a : Block) : Block :=
  ⟨a.size + 1, fun start next =>
    a.layOut start (start + a.size) ++ [enter greedy start next]⟩

def skip : Block := single .jump

def rounds (a : Block) : Nat → Block
  | 0 => skip
  | 1 => a
  | count + 1 => (rounds a count).append a

/-- At most a number of rounds, each one entered from the one before. -/
def upTo (greedy : Bool) (a : Block) : Nat → Block
  | 0 => skip
  | 1 => optional greedy a
  | count + 1 => optional greedy (a.append (upTo greedy a count))

/-- Any number of rounds.  If a round may be empty, an empty round ends the
repetition. -/
def star (greedy nullable : Bool) (a : Block) : Block :=
  if nullable then optional greedy (plus greedy a) else loop greedy a

def repeated (least : Nat) (most : Option Nat) (greedy nullable : Bool) (a : Block) : Block :=
  match most, least with
  | none, 0 => star greedy nullable a
  | none, 1 => plus greedy a
  | none, least + 1 => (rounds a least).append (plus greedy a)
  | some most, least =>
      if most ≤ least then rounds a least
      else if least = 0 then upTo greedy a most
      else (rounds a least).append (upTo greedy a (most - least))

end Block

def Pattern.block : Pattern → Block
  | empty => .skip
  | one set => .single (.take set)
  | look assertion => .single (.check assertion)
  | append a b => a.block.append b.block
  | either a b => a.block.either b.block
  | group index a =>
      ((Block.single (.save (2 * index))).append a.block).append
        (.single (.save (2 * index + 1)))
  | repeated least most greedy a => a.block.repeated least most greedy a.nullable

/-- A program: instructions by address, beginning at 0. -/
abbrev Program := Array Instruction

def Pattern.program (pattern : Pattern) : Program :=
  (pattern.block.layOut 0 pattern.block.size ++ [Instruction.accept]).toArray

end TokenCodec.Regex
