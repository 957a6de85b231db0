import Mathlib.Logic.Relation
import TokenCodec.Proofs.Regex.Derivations
import TokenCodec.Regex.Program

/-!
# Paths through a program

Every instruction moves a path to further addresses, in an order of preference.
An address leads to the spots where the paths from it are accepted.  Where no
path can go on forever, all paths from an address can be tried in their order.
-/

namespace TokenCodec.Regex

/-- Where a path can go on behind an instruction, the preferred address first.
An accepting path does not go on. -/
def Instruction.moves : Instruction → Spot → List (Nat × Spot)
  | take set next, spot =>
      match spot.rest with
      | [] => []
      | c :: rest => if set.contains c then [(next, ⟨some c, rest⟩)] else []
  | jump next, spot => [(next, spot)]
  | fork first second, spot => [(first, spot), (second, spot)]
  | save _ next, spot => [(next, spot)]
  | check assertion next, spot =>
      if assertion.holds spot.before spot.rest.head? then [(next, spot)] else []
  | accept, _ => []

theorem Instruction.moves_take_cons (set : CharSet) (next : Nat) (before : Option Char) (c : Char)
    (rest : List Char) : (take set next).moves ⟨before, c :: rest⟩ =
      if set.contains c then [(next, ⟨some c, rest⟩)] else [] :=
  rfl

/-- A path of `count` moves from an address at a spot is accepted at the spot
`last`. -/
inductive Reaches (program : Program) : Nat → Nat → Spot → Spot → Prop where
  | accept {address : Nat} {spot : Spot} (hread : program[address]? = some .accept) :
      Reaches program 0 address spot spot
  | move {count address next : Nat} {instruction : Instruction} {spot after last : Spot}
      (hread : program[address]? = some instruction)
      (hmove : (next, after) ∈ instruction.moves spot)
      (hrest : Reaches program count next after last) :
      Reaches program (count + 1) address spot last

/-- All paths from a list of addresses with their spots are tried in their order.
There are finitely many of them, and the first one that is accepted ends at the
spot that is found. -/
inductive Prefers (program : Program) : List (Nat × Spot) → Option Spot → Prop where
  | nil : Prefers program [] none
  | accept {address : Nat} {spot : Spot} {others : List (Nat × Spot)} {other : Option Spot}
      (hread : program[address]? = some .accept) (hothers : Prefers program others other) :
      Prefers program ((address, spot) :: others) (some spot)
  | move {address : Nat} {instruction : Instruction} {spot : Spot} {others : List (Nat × Spot)}
      {found other : Option Spot} (hread : program[address]? = some instruction)
      (hgoes : instruction ≠ .accept) (hmoves : Prefers program (instruction.moves spot) found)
      (hothers : Prefers program others other) :
      Prefers program ((address, spot) :: others) (found.or other)

/-- The configuration `next` is one move behind `config`. -/
def Follows (program : Program) (next config : Nat × Spot) : Prop :=
  ∃ instruction, program[config.1]? = some instruction ∧ next ∈ instruction.moves config.2

theorem findSome?_cons_or {σ ρ : Type} (result : σ → Option ρ) (first : σ) (others : List σ) :
    (first :: others).findSome? result = (result first).or (others.findSome? result) := by
  cases hfirst : result first <;> simp [hfirst]

section Paths

variable {program : Program} {address : Nat} {spot last : Spot}

/-- A path goes on behind an instruction that does not accept. -/
theorem Reaches.exists_move {count : Nat} {instruction : Instruction}
    (hread : program[address]? = some instruction) (hgoes : instruction ≠ .accept)
    (hreaches : Reaches program count address spot last) :
    ∃ next after fewer, (next, after) ∈ instruction.moves spot ∧
      Reaches program fewer next after last ∧ count = fewer + 1 := by
  cases hreaches with
  | accept hother =>
      cases hread.symm.trans hother
      exact absurd rfl hgoes
  | move hother hmove hrest =>
      cases hread.symm.trans hother
      exact ⟨_, _, _, hmove, hrest, rfl⟩

theorem Prefers.append {front back : List (Nat × Spot)} {first second : Option Spot}
    (hfront : Prefers program front first) (hback : Prefers program back second) :
    Prefers program (front ++ back) (first.or second) := by
  induction hfront with
  | nil => exact hback
  | accept hread _ ih => exact .accept hread ih
  | move hread hgoes hmoves _ _ ih =>
      rw [Option.or_assoc]
      exact .move hread hgoes hmoves ih

/-- What is found in the paths from each of some spots at one address. -/
theorem Prefers.map {next : Nat} {result : Spot → Option Spot} {spots : List Spot}
    (hspots : ∀ after ∈ spots, Prefers program [(next, after)] (result after)) :
    Prefers program (spots.map fun after => (next, after)) (spots.findSome? result) := by
  induction spots with
  | nil => exact .nil
  | cons after spots ih =>
      obtain ⟨hfirst, hrest⟩ := List.forall_mem_cons.mp hspots
      rw [findSome?_cons_or]
      exact hfirst.append (ih hrest)

/-- There is only one order. -/
theorem Prefers.unique {configurations : List (Nat × Spot)} {first second : Option Spot}
    (hfirst : Prefers program configurations first)
    (hsecond : Prefers program configurations second) : first = second := by
  induction hfirst generalizing second with
  | nil => cases hsecond; rfl
  | accept hread _ ih =>
      cases hsecond with
      | accept _ _ => rfl
      | move hother hgoes _ _ =>
          cases hread.symm.trans hother
          exact absurd rfl hgoes
  | move hread hgoes _ _ ihmoves ihothers =>
      cases hsecond with
      | accept hother _ =>
          cases hread.symm.trans hother
          exact absurd rfl hgoes
      | move hother _ hmoves hothers =>
          cases hread.symm.trans hother
          rw [ihmoves hmoves, ihothers hothers]

theorem Prefers.acc {configurations : List (Nat × Spot)} {found : Option Spot}
    (hprefers : Prefers program configurations found) :
    ∀ config ∈ configurations, Acc (Follows program) config := by
  induction hprefers with
  | nil => nofun
  | accept hread _ ih =>
      refine List.forall_mem_cons.mpr ⟨.intro _ ?_, ih⟩
      rintro next ⟨instruction, hother, hmove⟩
      cases hread.symm.trans hother
      cases hmove
  | move hread _ _ _ ihmoves ihothers =>
      refine List.forall_mem_cons.mpr ⟨.intro _ ?_, ihothers⟩
      rintro next ⟨instruction, hother, hmove⟩
      cases hread.symm.trans hother
      exact ihmoves next hmove

/-- Finite paths do not return. -/
theorem not_transGen_self {config : Nat × Spot} (hacc : Acc (Follows program) config) :
    ¬ Relation.TransGen (Follows program) config config := by
  have hchains := hacc.transGen
  clear hacc
  induction hchains with
  | intro config _ ih => exact fun hself => ih config hself hself

theorem Prefers.exists_of_cons {config : Nat × Spot} {others : List (Nat × Spot)}
    {found : Option Spot} (hprefers : Prefers program (config :: others) found) :
    ∃ first other, Prefers program [config] first ∧ Prefers program others other ∧
      found = first.or other := by
  cases hprefers with
  | @accept _ spot _ other hread hothers =>
      exact ⟨some spot, other, .accept hread .nil, hothers, rfl⟩
  | @move _ _ _ _ found other hread hgoes hmoves hothers =>
      refine ⟨found, other, ?_, hothers, rfl⟩
      rw [← Option.or_none (o := found)]
      exact .move hread hgoes hmoves .nil

theorem Prefers.moves {instruction : Instruction} {address : Nat} {found : Option Spot}
    (hread : program[address]? = some instruction) (hgoes : instruction ≠ .accept)
    (hprefers : Prefers program [(address, spot)] found) :
    Prefers program (instruction.moves spot) found := by
  cases hprefers with
  | accept hother _ =>
      cases hread.symm.trans hother
      exact absurd rfl hgoes
  | move hother _ hmoves hothers =>
      cases hread.symm.trans hother
      cases hothers
      rw [Option.or_none]
      exact hmoves

end Paths

end TokenCodec.Regex
