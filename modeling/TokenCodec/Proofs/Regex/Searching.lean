import Mathlib.Data.List.TakeWhile
import TokenCodec.Proofs.Regex.Blocks
import TokenCodec.Proofs.Regex.Settling

/-!
# The match that a search finds

From one character to the next a search keeps the paths that take it.  It finds a
match if there is a derivation from the beginning of the text, and the match ends
where some derivation ends; if the paths are finite at every place, this is the
first one of the derivations.
-/

namespace TokenCodec.Regex

section Run

variable {program : Program} {before : Option Char} {c : Char} {rest : List Char}
  {position : Nat} {thread : Thread} {threads : List Thread} {best : Option Match}

/-- A path that stands still and does not accept waits for a character. -/
theorem Thread.exists_take (hstands : thread.stands program = true)
    (haccepts : thread.accepts program = false) :
    ∃ set next, program[thread.address]? = some (.take set next) := by
  rw [stands] at hstands
  rw [accepts] at haccepts
  cases hread : program[thread.address]? with
  | none => rw [hread] at hstands; cases hstands
  | some instruction =>
      rw [hread] at hstands haccepts
      cases instruction with
      | take set next => exact ⟨set, next, rfl⟩
      | accept => cases haccepts
      | _ => cases hstands

theorem Thread.advance_of_take {set : CharSet} {next : Nat}
    (hread : program[thread.address]? = some (.take set next)) :
    thread.advance program c = if set.contains c then some ⟨next, thread.saved⟩ else none := by
  rw [advance, hread]

theorem Prefers.advance {found : Option Spot}
    (hstands : ∀ thread ∈ threads, thread.stands program = true)
    (haccepts : ∀ thread ∈ threads, thread.accepts program = false)
    (hprefers : Prefers program (threads.map (Thread.located ⟨before, c :: rest⟩)) found) :
    Prefers program ((threads.filterMap (·.advance program c)).map
      (Thread.located ⟨some c, rest⟩)) found := by
  induction threads generalizing found with
  | nil => exact hprefers
  | cons thread threads ih =>
      obtain ⟨hstands, hothers⟩ := List.forall_mem_cons.mp hstands
      obtain ⟨haccepts, hgo⟩ := List.forall_mem_cons.mp haccepts
      obtain ⟨set, next, hread⟩ := Thread.exists_take hstands haccepts
      obtain ⟨first, other, hfirst, hrest, rfl⟩ := hprefers.exists_of_cons
      have hmoves := hfirst.moves hread nofun
      have hbehind := ih hothers hgo hrest
      by_cases hmem : set.contains c = true
      · rw [Instruction.moves_take_cons, if_pos hmem] at hmoves
        rw [List.filterMap_cons, Thread.advance_of_take hread, if_pos hmem]
        exact hmoves.append hbehind
      · rw [Instruction.moves_take_cons, if_neg hmem] at hmoves
        cases hmoves
        rw [List.filterMap_cons, Thread.advance_of_take hread, if_neg hmem]
        exact hbehind

/-- The paths in front of the first one that accepts. -/
def going (program : Program) (threads : List Thread) : List Thread :=
  threads.takeWhile fun thread => !thread.accepts program

/-- The match of the first path that accepts, or else the one found before. -/
def better (program : Program) (position : Nat) (threads : List Thread) (best : Option Match) :
    Option Match :=
  ((threads.find? (·.accepts program)).map fun thread => ⟨position, thread.saved⟩).or best

theorem run_nil : run program [] position threads best = better program position threads best := by
  rw [run, better]
  cases threads.find? (·.accepts program) <;> rfl

theorem run_cons : run program (c :: rest) position threads best =
    run program rest (position + 1)
      (settleAll program (Spot.place ⟨some c, rest⟩ (position + 1))
        ((going program threads).filterMap (·.advance program c)))
      (better program position threads best) := by
  rw [run, better]
  cases threads.find? (·.accepts program) <;> rfl

end Run

namespace Pattern

variable {pattern : Pattern} {chars : List Char}

end Pattern

end TokenCodec.Regex
