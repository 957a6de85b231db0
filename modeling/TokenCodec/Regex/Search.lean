import TokenCodec.Regex.Program

/-!
# Searching for the preferred match

All paths through a program are followed at once, character by character.  The
paths are kept in their order of preference, and an address that a preferred
path has reached at a position is not reached again there: what follows is the
same, and the preferred path has it first.  The number of paths is thus bounded
by the size of the program, whatever the text.
-/

namespace TokenCodec.Regex

/-- The positions noted so far, by slot. -/
abbrev Saved := List (Option Nat)

/-- A path: the address where it stands, and what it noted. -/
structure Thread where
  address : Nat
  saved : Saved
  deriving Repr

structure Place where
  before : Option Char
  after : Option Char
  position : Nat
  deriving Repr

/-- Follow the paths of a stack, the preferred one on top, as far as they go
without taking a character.  `unreached` lists the addresses that no path has
reached yet at this place. -/
def settle (program : Program) (place : Place) (unreached : List Nat) :
    List Thread → List Thread
  | [] => []
  | thread :: stack =>
      if hmem : thread.address ∈ unreached then
        let left := unreached.erase thread.address
        have hlength : left.length < unreached.length := by
          have hpos := List.length_pos_of_mem hmem
          simp only [left, List.length_erase_of_mem hmem]
          omega
        match program[thread.address]? with
        | some (.take _ _) => thread :: settle program place left stack
        | some .accept => thread :: settle program place left stack
        | some (.jump next) => settle program place left (⟨next, thread.saved⟩ :: stack)
        | some (.fork first second) =>
            settle program place left
              (⟨first, thread.saved⟩ :: ⟨second, thread.saved⟩ :: stack)
        | some (.save slot next) =>
            settle program place left
              (⟨next, thread.saved.set slot (some place.position)⟩ :: stack)
        | some (.check assertion next) =>
            if assertion.holds place.before place.after then
              settle program place left (⟨next, thread.saved⟩ :: stack)
            else settle program place left stack
        | none => settle program place left stack
      else settle program place unreached stack
termination_by stack => (unreached.length, stack.length)

/-- Follow paths at a place where nothing is reached yet. -/
def settleAll (program : Program) (place : Place) (stack : List Thread) : List Thread :=
  settle program place (List.range program.size) stack

/-- A match that begins with the text: where it ends, and what it noted. -/
structure Match where
  stop : Nat
  saved : Saved
  deriving DecidableEq, Repr

def Thread.advance (program : Program) (c : Char) (thread : Thread) : Option Thread :=
  match program[thread.address]? with
  | some (.take set next) => if set.contains c then some ⟨next, thread.saved⟩ else none
  | _ => none

def Thread.accepts (program : Program) (thread : Thread) : Bool :=
  program[thread.address]? == some .accept

/-- Go on with the paths `threads` at `position`.  A path that accepts is
preferred to every match found before and to every path behind it; the paths in
front of it go on. -/
def run (program : Program) : List Char → Nat → List Thread → Option Match → Option Match
  | rest, position, threads, best =>
      let going := threads.takeWhile fun thread => !thread.accepts program
      let best :=
        match threads.find? (·.accepts program) with
        | some thread => some ⟨position, thread.saved⟩
        | none => best
      match rest with
      | [] => best
      | c :: rest =>
          run program rest (position + 1)
            (settleAll program ⟨some c, rest.head?, position + 1⟩
              (going.filterMap (·.advance program c)))
            best
termination_by rest => rest.length

def Pattern.preferred? (pattern : Pattern) (chars : List Char) : Option Match :=
  let program := pattern.program
  let saved := List.replicate (2 * pattern.groups + 2) none
  run program chars 0 (settleAll program ⟨none, chars.head?, 0⟩ [⟨0, saved⟩]) none

/-- The text of a group of a match, if the group took part in it. -/
def Match.group? (found : Match) (chars : List Char) (index : Nat) : Option String :=
  match (found.saved[2 * index]?).join, (found.saved[2 * index + 1]?).join with
  | some first, some last => some (String.ofList ((chars.drop first).take (last - first)))
  | _, _ => none

/-- The captured texts when the preferred match is the whole text: the text
itself, and then one entry for each number up to that of the last group; a
number that no group has stays absent.  A leftmost search finds a match that begins with
the text whenever there is one, so it spans the text only if this one does. -/
def Pattern.captures? (pattern : Pattern) (text : String) : Option (List (Option String)) :=
  let chars := text.toList
  (pattern.preferred? chars).bind fun found =>
    if found.stop = chars.length then
      some (some text ::
        (List.range pattern.groups).map fun index => found.group? chars (index + 1))
    else none

end TokenCodec.Regex
