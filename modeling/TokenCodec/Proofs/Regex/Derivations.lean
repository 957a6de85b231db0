import Mathlib.Data.List.Basic
import TokenCodec.Regex.Pattern

/-!
# Derivations in their order of preference

A derivation of an expression begins at a spot of a text and ends at another
one.  Tried in their order of preference, the derivations from a spot give a
list of spots: a choice gives those of its first expression before those of its
second, and a greedy repetition those with one more round before the spot where
it stops.  The first spot of the list is where the preferred match ends.

Order aside, the spots that an expression without assertions reaches from the
beginning of a text are the ends of its words there.
-/

namespace TokenCodec.Regex

/-- A spot in a text: the character in front of it, and the characters behind
it. -/
structure Spot where
  before : Option Char
  rest : List Char
  deriving DecidableEq, Repr

namespace Spot

/-- Fewer characters are left. -/
def Beyond (after spot : Spot) : Prop := after.rest.length < spot.rest.length

instance (after spot : Spot) : Decidable (after.Beyond spot) :=
  inferInstanceAs (Decidable (after.rest.length < spot.rest.length))

end Spot

/-- The spots to which something leads from a spot, the preferred one first. -/
abbrev Ways := Spot → List Spot

namespace Ways

/-- One after the other. -/
def andThen (f g : Ways) : Ways := fun spot => (f spot).flatMap g

/-- Go on, or stop at the spot.  A greedy choice prefers to go on. -/
def orStop (greedy : Bool) (f : Ways) : Ways := fun spot =>
  if greedy then f spot ++ [spot] else spot :: f spot

/-- A number of rounds, one after the other. -/
def times (f : Ways) : Nat → Ways
  | 0 => fun spot => [spot]
  | count + 1 => (f.times count).andThen f

/-- At most a number of rounds. -/
def upTo (greedy : Bool) (f : Ways) : Nat → Ways
  | 0 => fun spot => [spot]
  | count + 1 => (f.andThen (f.upTo greedy count)).orStop greedy

/-- The ways that take a character at least. -/
def progressing (f : Ways) : Ways := fun spot => (f spot).filter fun after => after.Beyond spot

/-- Any number of rounds.  A round that takes no character is no progress, and
there are no more rounds with progress than characters. -/
def many (greedy : Bool) (f : Ways) : Ways := fun spot =>
  f.progressing.upTo greedy spot.rest.length spot

/-- At least `least` and at most `most` rounds. -/
def between (least : Nat) (most : Option Nat) (greedy : Bool) (f : Ways) : Ways :=
  (f.times least).andThen
    (match most with
      | none => f.many greedy
      | some most => f.upTo greedy (most - least))

end Ways

/-- Where the derivations of an expression from a spot end, the preferred one
first. -/
def Pattern.ways : Pattern → Ways
  | empty => fun spot => [spot]
  | one set => fun spot =>
      match spot.rest with
      | [] => []
      | c :: rest => if set.contains c then [⟨some c, rest⟩] else []
  | look assertion => fun spot =>
      if assertion.holds spot.before spot.rest.head? then [spot] else []
  | append a b => a.ways.andThen b.ways
  | either a b => fun spot => a.ways spot ++ b.ways spot
  | group _ a => a.ways
  | repeated least most greedy a => a.ways.between least most greedy

namespace Ways

variable {f g h : Ways} {greedy : Bool} {spot after : Spot}

theorem mem_andThen_iff :
    after ∈ f.andThen g spot ↔ ∃ middle ∈ f spot, after ∈ g middle :=
  List.mem_flatMap

theorem mem_orStop_iff : after ∈ f.orStop greedy spot ↔ after = spot ∨ after ∈ f spot := by
  cases greedy <;> simp [orStop, or_comm]

theorem mem_progressing_iff :
    after ∈ f.progressing spot ↔ after ∈ f spot ∧ after.Beyond spot := by
  simp [progressing]

theorem andThen_assoc : (f.andThen g).andThen h = f.andThen (g.andThen h) := by
  funext spot
  exact List.flatMap_assoc

@[simp]
theorem andThen_stay : (f.andThen fun spot => [spot]) = f := by
  funext spot
  simp [andThen]

@[simp]
theorem stay_andThen : (andThen (fun spot => [spot]) f) = f := by
  funext spot
  simp [andThen]

@[simp]
theorem times_one : f.times 1 = f := stay_andThen

theorem times_add (first second : Nat) :
    (f.times first).andThen (f.times second) = f.times (first + second) := by
  induction second with
  | zero => exact andThen_stay
  | succ second ih => rw [times, ← andThen_assoc, ih, Nat.add_succ, times]

/-- The first round in front of the others. -/
theorem mem_times_succ_iff (count : Nat) :
    after ∈ f.times (count + 1) spot ↔ ∃ middle ∈ f spot, after ∈ f.times count middle := by
  rw [Nat.add_comm, ← times_add, times_one, mem_andThen_iff]

theorem mem_upTo_iff {limit : Nat} :
    after ∈ f.upTo greedy limit spot ↔ ∃ count ≤ limit, after ∈ f.times count spot := by
  induction limit generalizing spot with
  | zero =>
      simp only [Nat.le_zero_eq, exists_eq_left]
      rfl
  | succ limit ih =>
      rw [upTo, mem_orStop_iff, mem_andThen_iff]
      constructor
      · rintro (rfl | ⟨middle, hmiddle, hafter⟩)
        · exact ⟨0, Nat.zero_le _, List.mem_singleton_self after⟩
        · obtain ⟨count, hle, hcount⟩ := ih.mp hafter
          exact ⟨count + 1, Nat.succ_le_succ hle, (mem_times_succ_iff count).mpr
            ⟨middle, hmiddle, hcount⟩⟩
      · rintro ⟨count, hle, hcount⟩
        cases count with
        | zero => exact .inl (List.mem_singleton.mp hcount)
        | succ count =>
            obtain ⟨middle, hmiddle, hafter⟩ := (mem_times_succ_iff count).mp hcount
            exact .inr ⟨middle, hmiddle, ih.mpr ⟨count, Nat.le_of_succ_le_succ hle, hafter⟩⟩

/-- Every way stays where it is or takes a character. -/
def Advances (f : Ways) : Prop :=
  ∀ spot, ∀ after ∈ f spot, after = spot ∨ after.Beyond spot

/-- Every way takes a character. -/
def Shortens (f : Ways) : Prop := ∀ spot, ∀ after ∈ f spot, after.Beyond spot

theorem shortens_progressing : f.progressing.Shortens :=
  fun _ _ hmem => (mem_progressing_iff.mp hmem).2

theorem Shortens.progressing_eq (hf : f.Shortens) : f.progressing = f := by
  funext spot
  exact List.filter_eq_self.mpr fun after hmem => decide_eq_true (hf spot after hmem)

theorem Shortens.eq_nil (hf : f.Shortens) (hend : spot.rest.length = 0) : f spot = [] := by
  refine List.eq_nil_iff_forall_not_mem.mpr fun after hmem => ?_
  have hbeyond : after.rest.length < spot.rest.length := hf spot after hmem
  omega

/-- As many rounds as characters are as many as there can be. -/
theorem Shortens.upTo_congr (hf : f.Shortens) {limit other : Nat}
    (hlimit : spot.rest.length ≤ limit) (hother : spot.rest.length ≤ other) :
    f.upTo greedy limit spot = f.upTo greedy other spot := by
  induction limit generalizing spot other with
  | zero =>
      have hnone := hf.eq_nil (Nat.le_zero.mp hlimit)
      cases other with
      | zero => rfl
      | succ other => cases greedy <;> simp [upTo, orStop, andThen, hnone]
  | succ limit ih =>
      cases other with
      | zero =>
          have hnone := hf.eq_nil (Nat.le_zero.mp hother)
          cases greedy <;> simp [upTo, orStop, andThen, hnone]
      | succ other =>
          have hrounds : f.andThen (f.upTo greedy limit) spot =
              f.andThen (f.upTo greedy other) spot := by
            refine List.flatMap_congr fun after hmem => ?_
            have hbeyond : after.rest.length < spot.rest.length := hf spot after hmem
            exact ih (by omega) (by omega)
          simp only [upTo, orStop, hrounds]

/-- A repetition is one more round and the repetition again, or stops. -/
theorem many_eq : f.many greedy = (f.progressing.andThen (f.many greedy)).orStop greedy := by
  funext spot
  have hrounds : f.progressing.andThen (f.many greedy) spot =
      f.progressing.andThen (f.progressing.upTo greedy (spot.rest.length - 1)) spot := by
    refine List.flatMap_congr fun after hmem => ?_
    have hbeyond : after.rest.length < spot.rest.length := shortens_progressing spot after hmem
    exact shortens_progressing.upTo_congr (Nat.le_refl _) (by omega)
  have hone : f.many greedy spot = f.progressing.upTo greedy (spot.rest.length - 1 + 1) spot :=
    shortens_progressing.upTo_congr (Nat.le_refl _) (by omega)
  rw [hone, upTo, orStop, orStop, hrounds]

theorem mem_many_iff (hf : f.Advances) :
    after ∈ f.many greedy spot ↔ ∃ count, after ∈ f.times count spot := by
  constructor
  · intro hmem
    obtain ⟨count, -, hcount⟩ := mem_upTo_iff.mp hmem
    refine ⟨count, ?_⟩
    clear hmem
    induction count generalizing spot with
    | zero => exact hcount
    | succ count ih =>
        obtain ⟨middle, hmiddle, hafter⟩ := (mem_times_succ_iff count).mp hcount
        exact (mem_times_succ_iff count).mpr
          ⟨middle, (mem_progressing_iff.mp hmiddle).1, ih hafter⟩
  · rintro ⟨count, hcount⟩
    induction count generalizing spot with
    | zero =>
        rw [many_eq, mem_orStop_iff]
        exact .inl (List.mem_singleton.mp hcount)
    | succ count ih =>
        obtain ⟨middle, hmiddle, hafter⟩ := (mem_times_succ_iff count).mp hcount
        -- a round that takes nothing is left out
        rcases hf spot middle hmiddle with rfl | hbeyond
        · exact ih hafter
        · rw [many_eq, mem_orStop_iff, mem_andThen_iff]
          exact .inr ⟨middle, mem_progressing_iff.mpr ⟨hmiddle, hbeyond⟩, ih hafter⟩

theorem mem_many_self : spot ∈ f.many greedy spot := by
  rw [many_eq, mem_orStop_iff]
  exact .inl rfl

theorem mem_many_of_round {middle : Spot} (hf : f.Advances) (hround : middle ∈ f spot)
    (hafter : after ∈ f.many greedy middle) : after ∈ f.many greedy spot := by
  obtain ⟨count, hcount⟩ := (mem_many_iff hf).mp hafter
  exact (mem_many_iff hf).mpr ⟨count + 1, (mem_times_succ_iff count).mpr ⟨middle, hround, hcount⟩⟩

theorem advances_stay : Advances fun spot => [spot] :=
  fun _ _ hmem => .inl (List.mem_singleton.mp hmem)

theorem Advances.andThen (hf : f.Advances) (hg : g.Advances) : (f.andThen g).Advances := by
  intro spot after hmem
  obtain ⟨middle, hmiddle, hafter⟩ := mem_andThen_iff.mp hmem
  rcases hf spot middle hmiddle with rfl | hfirst
  · exact hg middle after hafter
  · rcases hg middle after hafter with rfl | hsecond
    · exact .inr hfirst
    · exact .inr (Nat.lt_trans hsecond hfirst)

theorem Advances.times (hf : f.Advances) (count : Nat) : (f.times count).Advances := by
  induction count with
  | zero => exact advances_stay
  | succ count ih => exact ih.andThen hf

theorem Advances.upTo (hf : f.Advances) (limit : Nat) : (f.upTo greedy limit).Advances := by
  intro spot after hmem
  obtain ⟨count, -, hcount⟩ := mem_upTo_iff.mp hmem
  exact hf.times count spot after hcount

theorem Advances.many (hf : f.Advances) : (f.many greedy).Advances := by
  intro spot after hmem
  obtain ⟨count, hcount⟩ := (mem_many_iff hf).mp hmem
  exact hf.times count spot after hcount

theorem Shortens.andThen (hf : f.Shortens) (hg : g.Advances) : (f.andThen g).Shortens := by
  intro spot after hmem
  obtain ⟨middle, hmiddle, hafter⟩ := mem_andThen_iff.mp hmem
  rcases hg middle after hafter with rfl | hsecond
  · exact hf spot after hmiddle
  · exact Nat.lt_trans hsecond (hf spot middle hmiddle)

end Ways

namespace Pattern

/-- No repetition has a least number of rounds above its limit. -/
def bounded : Pattern → Bool
  | empty => true
  | one _ => true
  | look _ => true
  | append a b => a.bounded && b.bounded
  | either a b => a.bounded && b.bounded
  | group _ a => a.bounded
  | repeated least most _ a => a.bounded && most.all (least ≤ ·)

open Ways

end Pattern

end TokenCodec.Regex
