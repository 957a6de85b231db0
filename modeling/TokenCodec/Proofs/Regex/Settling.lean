import TokenCodec.Proofs.Regex.Paths
import TokenCodec.Regex.Search

/-!
# Following the paths of a stack

Paths that reach an address again are dropped by the search.  No match is lost
with them: what is reached from the address is still to come from the stack, in
fewer moves.  If the paths at a place are finite, no match is moved to another
place in the order either, since a path that is still to come from an address is
in front of a second one at this address.
-/

namespace TokenCodec.Regex

/-! ## Settling -/

def Spot.place (spot : Spot) (position : Nat) : Place :=
  ⟨spot.before, spot.rest.head?, position⟩

/-- A path stands still at an instruction that takes a character or accepts. -/
def Instruction.stands : Instruction → Bool
  | take _ _ => true
  | accept => true
  | _ => false

/-- The paths behind an instruction at which no path stands still. -/
def Instruction.follow (place : Place) (saved : Saved) : Instruction → List Thread
  | jump next => [⟨next, saved⟩]
  | fork first second => [⟨first, saved⟩, ⟨second, saved⟩]
  | save slot next => [⟨next, saved.set slot (some place.position)⟩]
  | check assertion next =>
      if assertion.holds place.before place.after then [⟨next, saved⟩] else []
  | take _ _ => []
  | accept => []

namespace Thread

def stands (program : Program) (thread : Thread) : Bool :=
  program[thread.address]?.any Instruction.stands

def follow (program : Program) (place : Place) (thread : Thread) : List Thread :=
  program[thread.address]?.toList.flatMap (Instruction.follow place thread.saved)

def located (spot : Spot) (thread : Thread) : Nat × Spot := (thread.address, spot)

theorem map_follow {program : Program} {thread : Thread} {instruction : Instruction}
    (hread : program[thread.address]? = some instruction)
    (hstands : thread.stands program = false) (spot : Spot) (position : Nat) :
    (thread.follow program (spot.place position)).map (located spot) = instruction.moves spot := by
  rw [stands, hread] at hstands
  rw [follow, hread, Option.toList_some, List.flatMap_singleton]
  cases instruction with
  | take _ _ => cases hstands
  | accept => cases hstands
  | jump next => rfl
  | fork first second => rfl
  | save slot next => rfl
  | check assertion next =>
      rw [Instruction.follow, Instruction.moves, apply_ite (List.map (located spot))]
      rfl

end Thread

/-- The paths of a stack settle: a path at an address that was reached before is
dropped, one that stands still is kept, and any other one goes on. -/
inductive Settles (program : Program) (place : Place) :
    List Nat → List Thread → List Thread → Prop where
  | nil {unreached : List Nat} : Settles program place unreached [] []
  | reached {unreached : List Nat} {thread : Thread} {stack settled : List Thread}
      (hreached : thread.address ∉ unreached)
      (hrest : Settles program place unreached stack settled) :
      Settles program place unreached (thread :: stack) settled
  | stands {unreached : List Nat} {thread : Thread} {stack settled : List Thread}
      (hstands : thread.stands program = true)
      (hrest : Settles program place (unreached.erase thread.address) stack settled) :
      Settles program place unreached (thread :: stack) (thread :: settled)
  | goes {unreached : List Nat} {thread : Thread} {stack settled : List Thread}
      (hstands : thread.stands program = false)
      (hrest : Settles program place (unreached.erase thread.address)
        (thread.follow program place ++ stack) settled) :
      Settles program place unreached (thread :: stack) settled

section Settles

variable {program : Program} {spot last : Spot} {position : Nat} {thread : Thread}
  {unreached : List Nat} {stack settled : List Thread}

/-- An accepted path goes on behind an address where it does not stand still. -/
theorem Reaches.exists_follow {count : Nat} (hstands : thread.stands program = false)
    (hreaches : Reaches program count thread.address spot last) :
    ∃ branch ∈ thread.follow program (spot.place position),
      ∃ fewer < count, Reaches program fewer branch.address spot last := by
  cases hreaches with
  | accept hread =>
      rw [Thread.stands, hread] at hstands
      cases hstands
  | move hread hmove hrest =>
      rw [← Thread.map_follow hread hstands spot position] at hmove
      obtain ⟨branch, hbranch, ⟨⟩⟩ := List.mem_map.mp hmove
      exact ⟨branch, hbranch, _, Nat.lt_succ_self _, hrest⟩

/-- Something in the stack is accepted at `last` in fewer than `count` moves. -/
def Comes (program : Program) (spot last : Spot) (stack : List Thread) (count : Nat) : Prop :=
  ∃ thread ∈ stack, ∃ fewer < count, Reaches program fewer thread.address spot last

/-- A path that goes on has its branches in its place. -/
theorem Comes.follow (hstands : thread.stands program = false) {count : Nat}
    (hcomes : Comes program spot last (thread :: stack) count) :
    Comes program spot last (thread.follow program (spot.place position) ++ stack) count := by
  obtain ⟨other, hmem, fewer, hfewer, hreaches⟩ := hcomes
  rcases List.mem_cons.mp hmem with rfl | hstack
  · obtain ⟨branch, hbranch, fewest, hfewest, hrest⟩ := hreaches.exists_follow hstands
    exact ⟨branch, List.mem_append_left _ hbranch, fewest, Nat.lt_trans hfewest hfewer, hrest⟩
  · exact ⟨other, List.mem_append_right _ hstack, fewer, hfewer, hreaches⟩

end Settles

/-! ## The order of the paths -/

section Order

variable {program : Program} {spot : Spot} {position : Nat} {thread : Thread}
  {unreached : List Nat} {stack settled : List Thread}

/-- Behind an address where a path does not stand still, its branches are tried. -/
theorem Prefers.follow {found : Option Spot} (position : Nat)
    (hstands : thread.stands program = false)
    (hprefers : Prefers program [thread.located spot] found) :
    Prefers program ((thread.follow program (spot.place position)).map (Thread.located spot))
      found := by
  cases hprefers with
  | accept hread _ =>
      rw [Thread.stands, hread] at hstands
      cases hstands
  | move hread _ hmoves hothers =>
      cases hothers
      rw [Option.or_none, Thread.map_follow hread hstands]
      exact hmoves

theorem follows_of_mem_follow {branch : Thread} (hstands : thread.stands program = false)
    (hbranch : branch ∈ thread.follow program (spot.place position)) :
    Follows program (branch.located spot) (thread.located spot) := by
  cases hread : program[thread.address]? with
  | none =>
      rw [Thread.follow, hread] at hbranch
      cases hbranch
  | some instruction =>
      refine ⟨instruction, hread, ?_⟩
      change branch.located spot ∈ instruction.moves spot
      rw [← Thread.map_follow hread hstands spot position]
      exact List.mem_map_of_mem hbranch

/-- The paths from the address find something. -/
def Finds (program : Program) (config : Nat × Spot) : Prop :=
  ∃ last, Prefers program [config] (some last)

theorem Prefers.exists_finds {threads : List Thread} {last : Spot}
    (hprefers : Prefers program (threads.map (Thread.located spot)) (some last)) :
    ∃ front thread back, threads = front ++ thread :: back ∧
      Finds program (thread.located spot) := by
  induction threads with
  | nil => cases hprefers
  | cons thread threads ih =>
      obtain ⟨first, other, hfirst, hother, hfound⟩ := hprefers.exists_of_cons
      cases first with
      | some found => exact ⟨[], thread, threads, rfl, found, hfirst⟩
      | none =>
          rw [Option.none_or] at hfound
          obtain ⟨front, second, back, rfl, hsecond⟩ := ih (hfound ▸ hother)
          exact ⟨thread :: front, second, back, rfl, hsecond⟩

/-- Where something is found behind an address, a branch finds it. -/
theorem Finds.exists_branch (position : Nat) (hstands : thread.stands program = false)
    (hfinds : Finds program (thread.located spot)) :
    ∃ front branch back, thread.follow program (spot.place position) = front ++ branch :: back ∧
      Finds program (branch.located spot) ∧
      ∀ other ∈ front ++ [branch],
        Follows program (other.located spot) (thread.located spot) := by
  obtain ⟨last, hlast⟩ := hfinds
  obtain ⟨front, branch, back, hfollow, hbranch⟩ :=
    (hlast.follow position hstands).exists_finds
  refine ⟨front, branch, back, hfollow, hbranch, fun other hother => ?_⟩
  have hmem : other ∈ thread.follow program (spot.place position) := by
    rw [hfollow, List.append_cons]
    exact List.mem_append_left back hother
  exact follows_of_mem_follow hstands hmem

/-- If a reached address finds something, the paths on top of the stack come from
it, and one of them finds something. -/
def Awaited (program : Program) (spot : Spot) (unreached : List Nat) (stack : List Thread) : Prop :=
  ∀ address ∉ unreached, Finds program (address, spot) →
    ∃ front thread back, stack = front ++ thread :: back ∧ Finds program (thread.located spot) ∧
      ∀ other ∈ front ++ [thread],
        Relation.TransGen (Follows program) (other.located spot) (address, spot)

/-- A path at a reached address finds nothing: what the address finds is in front
of it. -/
theorem Awaited.not_finds (hawaited : Awaited program spot unreached (thread :: stack))
    (hreached : thread.address ∉ unreached) (hacc : Acc (Follows program) (thread.located spot)) :
    ¬ Finds program (thread.located spot) := by
  intro hfinds
  obtain ⟨front, found, back, hstack, -, hbehind⟩ := hawaited thread.address hreached hfinds
  refine not_transGen_self hacc (hbehind thread ?_)
  cases front with
  | nil =>
      cases hstack
      exact List.mem_singleton_self thread
  | cons first front =>
      cases hstack
      exact List.mem_cons_self

/-- A path that finds nothing can be taken from the stack. -/
theorem Awaited.tail {left : List Nat}
    (hawaited : Awaited program spot unreached (thread :: stack))
    (hnone : ¬ Finds program (thread.located spot))
    (hleft : ∀ address ∉ left, Finds program (address, spot) → address ∉ unreached) :
    Awaited program spot left stack := by
  intro address haddress hfinds
  obtain ⟨front, found, back, hstack, hfound, hbehind⟩ :=
    hawaited address (hleft address haddress hfinds) hfinds
  cases front with
  | nil =>
      cases hstack
      exact absurd hfound hnone
  | cons first front =>
      cases hstack
      exact ⟨front, found, back, rfl, hfound, (List.forall_mem_cons.mp hbehind).2⟩

/-- A path that goes on has its branches in its place. -/
theorem Awaited.follow (hawaited : Awaited program spot unreached (thread :: stack))
    (hstands : thread.stands program = false) :
    Awaited program spot (unreached.erase thread.address)
      (thread.follow program (spot.place position) ++ stack) := by
  intro address haddress hfinds
  by_cases hsame : address = thread.address
  · subst hsame
    obtain ⟨front, branch, back, hfollow, hbranch, hbehind⟩ := hfinds.exists_branch position hstands
    refine ⟨front, branch, back ++ stack, ?_, hbranch, fun other hother => ?_⟩
    · rw [hfollow, List.append_assoc, List.cons_append]
    · exact .single (hbehind other hother)
  · obtain ⟨front, found, back, hstack, hfound, hbehind⟩ :=
      hawaited address (mt (List.mem_erase_of_ne hsame).mpr haddress) hfinds
    cases front with
    | nil =>
        cases hstack
        obtain ⟨front, branch, back, hfollow, hbranch, hnear⟩ :=
          hfound.exists_branch position hstands
        refine ⟨front, branch, back ++ stack, ?_, hbranch, fun other hother => ?_⟩
        · rw [hfollow, List.append_assoc, List.cons_append]
        · exact .head (hnear other hother) (hbehind thread (List.mem_singleton_self thread))
    | cons first front =>
        obtain ⟨rfl, rfl⟩ := List.cons.inj (hstack.trans List.cons_append)
        obtain ⟨hfirst, hothers⟩ := List.forall_mem_cons.mp hbehind
        refine ⟨thread.follow program (spot.place position) ++ front, found, back, ?_, hfound,
          fun other hother => ?_⟩
        · rw [List.append_assoc]
        · rw [List.append_assoc] at hother
          rcases List.mem_append.mp hother with hbranch | hother
          · exact .head (follows_of_mem_follow hstands hbranch) hfirst
          · exact hothers other hother

/-- Where the paths of a stack are finite, so are the settled ones. -/
theorem Settles.exists_prefers {found : Option Spot}
    (hsettles : Settles program (spot.place position) unreached stack settled)
    (hprefers : Prefers program (stack.map (Thread.located spot)) found) :
    ∃ other, Prefers program (settled.map (Thread.located spot)) other := by
  induction hsettles generalizing found with
  | nil => exact ⟨none, .nil⟩
  | reached _ _ ih =>
      obtain ⟨_, _, -, hrest, -⟩ := hprefers.exists_of_cons
      exact ih hrest
  | stands _ _ ih =>
      obtain ⟨_, _, hfirst, hrest, -⟩ := hprefers.exists_of_cons
      obtain ⟨_, hother⟩ := ih hrest
      exact ⟨_, hfirst.append hother⟩
  | goes hstands _ ih =>
      obtain ⟨_, _, hfirst, hrest, -⟩ := hprefers.exists_of_cons
      have hbranches := (hfirst.follow position hstands).append hrest
      rw [← List.map_append] at hbranches
      exact ih hbranches

/-- The first match of the stack is the first one of the settled paths. -/
theorem Settles.prefers {found : Option Spot}
    (hsettles : Settles program (spot.place position) unreached stack settled)
    (hawaited : Awaited program spot unreached stack)
    (hprefers : Prefers program (stack.map (Thread.located spot)) found) :
    Prefers program (settled.map (Thread.located spot)) found := by
  induction hsettles generalizing found with
  | nil => exact hprefers
  | @reached unreached thread stack settled hreached _ ih =>
      obtain ⟨first, other, hfirst, hrest, rfl⟩ := hprefers.exists_of_cons
      have hnone := hawaited.not_finds hreached (hfirst.acc _ (List.mem_singleton_self _))
      cases first with
      | some last => exact absurd ⟨last, hfirst⟩ hnone
      | none => exact ih (hawaited.tail hnone fun _ haddress _ => haddress) hrest
  | @stands unreached thread stack settled _ hsettled ih =>
      obtain ⟨first, other, hfirst, hrest, rfl⟩ := hprefers.exists_of_cons
      cases first with
      | some last =>
          -- the match is found, whatever is behind it
          obtain ⟨behind, hbehind⟩ := hsettled.exists_prefers hrest
          have hfound := hfirst.append hbehind
          rw [Option.some_or] at hfound ⊢
          exact hfound
      | none =>
          have hnone : ¬ Finds program (thread.located spot) := fun ⟨last, hlast⟩ => by
            cases hfirst.unique hlast
          refine hfirst.append (ih (hawaited.tail hnone fun address haddress hfinds => ?_) hrest)
          have hne : address ≠ thread.address := by
            rintro rfl
            exact hnone hfinds
          exact mt (List.mem_erase_of_ne hne).mpr haddress
  | goes hstands _ ih =>
      obtain ⟨first, other, hfirst, hrest, rfl⟩ := hprefers.exists_of_cons
      have hbranches := (hfirst.follow position hstands).append hrest
      rw [← List.map_append] at hbranches
      exact ih (hawaited.follow hstands) hbranches

end Order

end TokenCodec.Regex
