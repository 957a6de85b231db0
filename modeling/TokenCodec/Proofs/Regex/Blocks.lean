import TokenCodec.Proofs.Regex.Paths

/-!
# Paths through the block of an expression

A path that goes through the block of an expression follows one of its
derivations, and every derivation is followed by a path.  Where every round of a
repetition without a limit takes a character, the paths through a block come out
of it in the order of the derivations.
-/

namespace TokenCodec.Regex

/-! ## Blocks in a program -/

/-- Instructions stand in a program one after the other, the first one at
`start`. -/
def Holds (program : Program) (start : Nat) (instructions : List Instruction) : Prop :=
  ∀ offset instruction, instructions[offset]? = some instruction →
    program[start + offset]? = some instruction

section Holds

variable {program : Program} {start : Nat}

theorem Holds.head {instruction : Instruction} {others : List Instruction}
    (hholds : Holds program start (instruction :: others)) :
    program[start]? = some instruction :=
  hholds 0 instruction rfl

theorem Holds.tail {instruction : Instruction} {others : List Instruction}
    (hholds : Holds program start (instruction :: others)) : Holds program (start + 1) others := by
  intro offset other hother
  rw [Nat.add_assoc, Nat.add_comm 1]
  exact hholds (offset + 1) other hother

theorem Holds.front {front back : List Instruction}
    (hholds : Holds program start (front ++ back)) : Holds program start front := by
  intro offset instruction hread
  obtain ⟨hlt, -⟩ := List.getElem?_eq_some_iff.mp hread
  exact hholds offset instruction (by rw [List.getElem?_append_left hlt, hread])

theorem Holds.back {front back : List Instruction} {size : Nat} (hsize : front.length = size)
    (hholds : Holds program start (front ++ back)) : Holds program (start + size) back := by
  subst hsize
  intro offset instruction hread
  rw [Nat.add_assoc]
  refine hholds (front.length + offset) instruction ?_
  rw [List.getElem?_append_right (Nat.le_add_right _ _), Nat.add_sub_cancel_left, hread]

end Holds

/-- The first result behind two ways is the first one of the results behind the
first way. -/
theorem findSome?_andThen {ρ : Type} (result : Spot → Option ρ) (f g : Ways) (spot : Spot) :
    (f.andThen g spot).findSome? result =
      (f spot).findSome? fun middle => (g middle).findSome? result := by
  rw [Ways.andThen]
  induction f spot with
  | nil => rfl
  | cons middle others ih =>
      rw [List.flatMap_cons, List.findSome?_append, ih, findSome?_cons_or]

/-! ## Forks -/

theorem Reaches.exists_of_fork {program : Program} {address first second count : Nat}
    {spot last : Spot} (hread : program[address]? = some (.fork first second))
    (hreaches : Reaches program count address spot last) :
    ∃ fewer, count = fewer + 1 ∧
      (Reaches program fewer first spot last ∨ Reaches program fewer second spot last) := by
  obtain ⟨next, after, fewer, hmove, hrest, rfl⟩ := hreaches.exists_move hread nofun
  refine ⟨fewer, rfl, ?_⟩
  rcases List.mem_pair.mp hmove with hfirst | hsecond
  · cases hfirst
    exact .inl hrest
  · cases hsecond
    exact .inr hrest

theorem prefers_fork {program : Program} {address first second : Nat} {spot : Spot}
    {found other : Option Spot} (hread : program[address]? = some (.fork first second))
    (hfirst : Prefers program [(first, spot)] found)
    (hsecond : Prefers program [(second, spot)] other) :
    Prefers program [(address, spot)] (found.or other) := by
  rw [← Option.or_none (o := found.or other)]
  exact .move hread nofun (hfirst.append hsecond) .nil

section Enter

variable {program : Program} {address inner next : Nat} {greedy : Bool} {spot last : Spot}

theorem Reaches.exists_of_enter {count : Nat}
    (hread : program[address]? = some (Block.enter greedy inner next))
    (hreaches : Reaches program count address spot last) :
    ∃ fewer, count = fewer + 1 ∧
      (Reaches program fewer inner spot last ∨ Reaches program fewer next spot last) := by
  cases greedy with
  | true => exact Reaches.exists_of_fork hread hreaches
  | false =>
      obtain ⟨fewer, hcount, hbranch⟩ := Reaches.exists_of_fork hread hreaches
      exact ⟨fewer, hcount, hbranch.symm⟩

theorem reaches_enter {count : Nat}
    (hread : program[address]? = some (Block.enter greedy inner next))
    (hbranch : Reaches program count inner spot last ∨ Reaches program count next spot last) :
    Reaches program (count + 1) address spot last := by
  cases greedy <;> rcases hbranch with hrest | hrest <;>
    exact .move hread (by simp [Block.enter, Instruction.moves]) hrest

theorem prefers_enter {f : Ways} {result : Spot → Option Spot}
    (hread : program[address]? = some (Block.enter greedy inner next))
    (hinner : Prefers program [(inner, spot)] ((f spot).findSome? result))
    (hnext : Prefers program [(next, spot)] (result spot)) :
    Prefers program [(address, spot)] ((f.orStop greedy spot).findSome? result) := by
  cases greedy with
  | true =>
      change Prefers program _ ((f spot ++ [spot]).findSome? result)
      rw [List.findSome?_append, List.findSome?_singleton]
      exact prefers_fork hread hinner hnext
  | false =>
      change Prefers program _ ((spot :: f spot).findSome? result)
      rw [findSome?_cons_or]
      exact prefers_fork hread hnext hinner

end Enter

/-! ## Paths through a block -/

/-- Paths lead through a block, wherever it stands, just as the ways lead from
spot to spot. -/
structure Block.Realizes (block : Block) (ways : Ways) : Prop where
  length : ∀ start next, (block.layOut start next).length = block.size
  /-- An accepted path from the beginning of the block leaves it at its end, and
  there are fewer moves to come. -/
  leaves : ∀ {program : Program} {start next : Nat},
    Holds program start (block.layOut start next) → ∀ {count : Nat} {spot last : Spot},
      Reaches program count start spot last →
        ∃ after ∈ ways spot, ∃ fewer < count, Reaches program fewer next after last
  /-- The block can be passed in every way. -/
  enters : ∀ {program : Program} {start next : Nat},
    Holds program start (block.layOut start next) → ∀ {spot after : Spot}, after ∈ ways spot →
      ∀ {count : Nat} {last : Spot}, Reaches program count next after last →
        ∃ more, Reaches program more start spot last

/-- The paths through a block come out at its end in the order of the ways. -/
structure Block.Ranks (block : Block) (ways : Ways) : Prop where
  prefers : ∀ {program : Program} {start next : Nat},
    Holds program start (block.layOut start next) → ∀ {spot : Spot} {result : Spot → Option Spot},
      (∀ after ∈ ways spot, Prefers program [(next, after)] (result after)) →
        Prefers program [(start, spot)] ((ways spot).findSome? result)

namespace Block

variable {a b : Block} {f g : Ways}

/-- The order of the ways plays no part in where paths lead. -/
theorem Realizes.congr (hblock : a.Realizes f)
    (hsame : ∀ spot after, after ∈ f spot ↔ after ∈ g spot) : a.Realizes g where
  length := hblock.length
  leaves {program start next} hholds count spot last hreaches := by
    obtain ⟨after, hmem, hrest⟩ := hblock.leaves hholds hreaches
    exact ⟨after, (hsame spot after).mp hmem, hrest⟩
  enters {program start next} hholds spot after hmem :=
    hblock.enters hholds ((hsame spot after).mpr hmem)

section Single

variable {instruction : Nat → Instruction} (hgoes : ∀ next, instruction next ≠ .accept)
  (hmoves : ∀ next spot, (instruction next).moves spot = (f spot).map fun after => (next, after))
include hgoes hmoves

theorem realizes_single : (single instruction).Realizes f where
  length _ _ := rfl
  leaves {program start next} hholds count spot last hreaches := by
    obtain ⟨other, after, fewer, hmove, hrest, rfl⟩ := hreaches.exists_move hholds.head (hgoes next)
    rw [hmoves] at hmove
    obtain ⟨_, hmem, ⟨⟩⟩ := List.mem_map.mp hmove
    exact ⟨after, hmem, fewer, Nat.lt_succ_self fewer, hrest⟩
  enters {program start next} hholds spot after hmem count last hrest := by
    refine ⟨count + 1, .move hholds.head ?_ hrest⟩
    rw [hmoves]
    exact List.mem_map_of_mem hmem

theorem ranks_single : (single instruction).Ranks f := by
  refine ⟨fun {program start next} hholds spot result hafter => ?_⟩
  have hfound := Prefers.map hafter
  rw [← hmoves] at hfound
  rw [← Option.or_none (o := (f spot).findSome? result)]
  exact .move hholds.head (hgoes next) hfound .nil

end Single

theorem Realizes.append (ha : a.Realizes f) (hb : b.Realizes g) :
    (a.append b).Realizes (f.andThen g) where
  length start next := by
    rw [Block.append, List.length_append, ha.length, hb.length]
  leaves {program start next} hholds count spot last hreaches := by
    obtain ⟨middle, hmiddle, fewer, hfewer, hrest⟩ := ha.leaves hholds.front hreaches
    obtain ⟨after, hafter, fewest, hfewest, hlast⟩ :=
      hb.leaves (hholds.back (ha.length _ _)) hrest
    exact ⟨after, Ways.mem_andThen_iff.mpr ⟨middle, hmiddle, hafter⟩, fewest,
      Nat.lt_trans hfewest hfewer, hlast⟩
  enters {program start next} hholds spot after hmem count last hrest := by
    obtain ⟨middle, hmiddle, hafter⟩ := Ways.mem_andThen_iff.mp hmem
    obtain ⟨more, hmore⟩ := hb.enters (hholds.back (ha.length _ _)) hafter hrest
    exact ha.enters hholds.front hmiddle hmore

theorem Ranks.append (hlength : ∀ start next, (a.layOut start next).length = a.size)
    (ha : a.Ranks f) (hb : b.Ranks g) : (a.append b).Ranks (f.andThen g) := by
  refine ⟨fun {program start next} hholds spot result hafter => ?_⟩
  rw [findSome?_andThen]
  refine ha.prefers hholds.front fun middle hmiddle => ?_
  exact hb.prefers (hholds.back (hlength _ _)) fun after hmem =>
    hafter after (Ways.mem_andThen_iff.mpr ⟨middle, hmiddle, hmem⟩)

/-! ### Choices -/

theorem Realizes.either (ha : a.Realizes f) (hb : b.Realizes g) :
    (a.either b).Realizes fun spot => f spot ++ g spot where
  length start next := by
    change (_ :: (_ ++ _)).length = 1 + a.size + b.size
    rw [List.length_cons, List.length_append, ha.length, hb.length]
    omega
  leaves {program start next} hholds count spot last hreaches := by
    obtain ⟨fewer, rfl, hbranch⟩ := Reaches.exists_of_fork hholds.head hreaches
    rcases hbranch with hfirst | hsecond
    · obtain ⟨after, hmem, fewest, hfewest, hrest⟩ := ha.leaves hholds.tail.front hfirst
      exact ⟨after, List.mem_append_left _ hmem, fewest, by omega, hrest⟩
    · obtain ⟨after, hmem, fewest, hfewest, hrest⟩ :=
        hb.leaves (hholds.tail.back (ha.length _ _)) hsecond
      exact ⟨after, List.mem_append_right _ hmem, fewest, by omega, hrest⟩
  enters {program start next} hholds spot after hmem count last hrest := by
    rcases List.mem_append.mp hmem with hfirst | hsecond
    · obtain ⟨more, hmore⟩ := ha.enters hholds.tail.front hfirst hrest
      exact ⟨more + 1, .move hholds.head List.mem_cons_self hmore⟩
    · obtain ⟨more, hmore⟩ := hb.enters (hholds.tail.back (ha.length _ _)) hsecond hrest
      exact ⟨more + 1, .move hholds.head (List.mem_cons_of_mem _ List.mem_cons_self) hmore⟩

theorem Ranks.either (hlength : ∀ start next, (a.layOut start next).length = a.size)
    (ha : a.Ranks f) (hb : b.Ranks g) : (a.either b).Ranks fun spot => f spot ++ g spot := by
  refine ⟨fun {program start next} hholds spot result hafter => ?_⟩
  rw [List.findSome?_append]
  refine prefers_fork hholds.head (ha.prefers hholds.tail.front ?_)
    (hb.prefers (hholds.tail.back (hlength _ _)) ?_)
  · exact fun after hmem => hafter after (List.mem_append_left _ hmem)
  · exact fun after hmem => hafter after (List.mem_append_right _ hmem)

/-! ### Repetitions -/

theorem Realizes.optional (greedy : Bool) (ha : a.Realizes f) :
    (a.optional greedy).Realizes (f.orStop greedy) where
  length start next := by
    change (_ :: _).length = 1 + a.size
    rw [List.length_cons, ha.length, Nat.add_comm]
  leaves {program start next} hholds count spot last hreaches := by
    obtain ⟨fewer, rfl, hbranch⟩ := Reaches.exists_of_enter hholds.head hreaches
    rcases hbranch with hinner | hnext
    · obtain ⟨after, hmem, fewest, hfewest, hrest⟩ := ha.leaves hholds.tail hinner
      exact ⟨after, Ways.mem_orStop_iff.mpr (.inr hmem), fewest, by omega, hrest⟩
    · exact ⟨spot, Ways.mem_orStop_iff.mpr (.inl rfl), fewer, Nat.lt_succ_self fewer, hnext⟩
  enters {program start next} hholds spot after hmem count last hrest := by
    rcases Ways.mem_orStop_iff.mp hmem with rfl | hinner
    · exact ⟨count + 1, reaches_enter hholds.head (.inr hrest)⟩
    · obtain ⟨more, hmore⟩ := ha.enters hholds.tail hinner hrest
      exact ⟨more + 1, reaches_enter hholds.head (.inl hmore)⟩

theorem Ranks.optional (greedy : Bool) (ha : a.Ranks f) :
    (a.optional greedy).Ranks (f.orStop greedy) := by
  refine ⟨fun {program start next} hholds spot result hafter => ?_⟩
  refine prefers_enter hholds.head (ha.prefers hholds.tail fun after hmem => ?_) ?_
  · exact hafter after (Ways.mem_orStop_iff.mpr (.inr hmem))
  · exact hafter spot (Ways.mem_orStop_iff.mpr (.inl rfl))

/-- The rounds of a loop: from its beginning a path takes some rounds and goes on
behind it. -/
theorem Realizes.loop (greedy : Bool) (hf : f.Advances) (ha : a.Realizes f) :
    (a.loop greedy).Realizes (f.many greedy) where
  length start next := by
    change (_ :: _).length = 1 + a.size
    rw [List.length_cons, ha.length, Nat.add_comm]
  leaves {program start next} hholds count spot last hreaches := by
    induction count using Nat.strongRecOn generalizing spot with
    | ind count ih =>
        obtain ⟨fewer, rfl, hbranch⟩ := Reaches.exists_of_enter hholds.head hreaches
        rcases hbranch with hinner | hnext
        · obtain ⟨middle, hmiddle, fewest, hfewest, hagain⟩ := ha.leaves hholds.tail hinner
          obtain ⟨after, hafter, least, hleast, hrest⟩ := ih fewest (by omega) _ hagain
          exact ⟨after, Ways.mem_many_of_round hf hmiddle hafter, least, by omega, hrest⟩
        · exact ⟨spot, Ways.mem_many_self, fewer, Nat.lt_succ_self fewer, hnext⟩
  enters {program start next} hholds spot after hmem count last hrest := by
    obtain ⟨rounds, hrounds⟩ := (Ways.mem_many_iff hf).mp hmem
    clear hmem
    induction rounds generalizing spot with
    | zero =>
        cases List.mem_singleton.mp hrounds
        exact ⟨count + 1, reaches_enter hholds.head (.inr hrest)⟩
    | succ rounds ih =>
        obtain ⟨middle, hmiddle, hafter⟩ := (Ways.mem_times_succ_iff rounds).mp hrounds
        obtain ⟨more, hmore⟩ := ih _ hafter
        obtain ⟨most, hmost⟩ := ha.enters hholds.tail hmiddle hmore
        exact ⟨most + 1, reaches_enter hholds.head (.inl hmost)⟩

/-- If every round takes a character, the rounds of a loop are tried in order. -/
theorem Ranks.loop (greedy : Bool) (hf : f.Shortens) (ha : a.Ranks f) :
    (a.loop greedy).Ranks (f.many greedy) := by
  refine ⟨fun {program start next} hholds spot result => ?_⟩
  induction hlength : spot.rest.length using Nat.strongRecOn generalizing spot with
  | ind length ih =>
      intro hafter
      rw [Ways.many_eq, hf.progressing_eq] at hafter ⊢
      refine prefers_enter hholds.head ?_ (hafter spot (Ways.mem_orStop_iff.mpr (.inl rfl)))
      rw [findSome?_andThen]
      refine ha.prefers hholds.tail fun middle hmiddle => ?_
      have hbeyond : middle.rest.length < spot.rest.length := hf spot middle hmiddle
      refine ih middle.rest.length (hlength ▸ hbeyond) middle rfl fun after hmem => ?_
      exact hafter after (Ways.mem_orStop_iff.mpr
        (.inr (Ways.mem_andThen_iff.mpr ⟨middle, hmiddle, hmem⟩)))

theorem Realizes.plus (greedy : Bool) (hf : f.Advances) (ha : a.Realizes f) :
    (a.plus greedy).Realizes (f.andThen (f.many greedy)) where
  length start next := by
    change (_ ++ [_] : List Instruction).length = a.size + 1
    rw [List.length_append, ha.length, List.length_singleton]
  leaves {program start next} hholds count spot last hreaches := by
    have hfork := (hholds.back (ha.length _ _)).head
    induction count using Nat.strongRecOn generalizing spot with
    | ind count ih =>
        obtain ⟨middle, hmiddle, fewer, hfewer, hend⟩ := ha.leaves hholds.front hreaches
        obtain ⟨fewest, rfl, hbranch⟩ := Reaches.exists_of_enter hfork hend
        rcases hbranch with hagain | hnext
        · obtain ⟨after, hafter, least, hleast, hrest⟩ := ih fewest (by omega) _ hagain
          obtain ⟨round, hround, hlast⟩ := Ways.mem_andThen_iff.mp hafter
          exact ⟨after, Ways.mem_andThen_iff.mpr
            ⟨middle, hmiddle, Ways.mem_many_of_round hf hround hlast⟩, least, by omega, hrest⟩
        · exact ⟨middle, Ways.mem_andThen_iff.mpr ⟨middle, hmiddle, Ways.mem_many_self⟩, fewest,
            by omega, hnext⟩
  enters {program start next} hholds spot after hmem count last hrest := by
    have hfork := (hholds.back (ha.length _ _)).head
    obtain ⟨middle, hmiddle, hafter⟩ := Ways.mem_andThen_iff.mp hmem
    obtain ⟨rounds, hrounds⟩ := (Ways.mem_many_iff hf).mp hafter
    clear hafter hmem
    induction rounds generalizing spot middle with
    | zero =>
        cases List.mem_singleton.mp hrounds
        exact ha.enters hholds.front hmiddle (reaches_enter hfork (.inr hrest))
    | succ rounds ih =>
        obtain ⟨round, hround, hlast⟩ := (Ways.mem_times_succ_iff rounds).mp hrounds
        obtain ⟨more, hmore⟩ := ih _ _ hround hlast
        exact ha.enters hholds.front hmiddle (reaches_enter hfork (.inl hmore))

/-- One round or more, if every round takes a character. -/
theorem Ranks.plus (greedy : Bool) (hlength : ∀ start next, (a.layOut start next).length = a.size)
    (hf : f.Shortens) (ha : a.Ranks f) : (a.plus greedy).Ranks (f.andThen (f.many greedy)) := by
  refine ⟨fun {program start next} hholds spot result => ?_⟩
  have hfork := (hholds.back (hlength _ _)).head
  induction hrest : spot.rest.length using Nat.strongRecOn generalizing spot with
  | ind length ih =>
      intro hafter
      rw [findSome?_andThen]
      refine ha.prefers hholds.front fun middle hmiddle => ?_
      have hbeyond : middle.rest.length < spot.rest.length := hf spot middle hmiddle
      have hrounds (after : Spot) (hmem : after ∈ f.many greedy middle) :
          Prefers program [(next, after)] (result after) :=
        hafter after (Ways.mem_andThen_iff.mpr ⟨middle, hmiddle, hmem⟩)
      rw [Ways.many_eq, hf.progressing_eq] at hrounds ⊢
      refine prefers_enter hfork
        (ih middle.rest.length (hrest ▸ hbeyond) middle rfl fun after hmem => ?_)
        (hrounds middle (Ways.mem_orStop_iff.mpr (.inl rfl)))
      exact hrounds after (Ways.mem_orStop_iff.mpr (.inr hmem))

theorem realizes_skip : skip.Realizes fun spot => [spot] :=
  realizes_single (fun _ => nofun) fun _ _ => rfl

theorem ranks_skip : skip.Ranks fun spot => [spot] :=
  ranks_single (fun _ => nofun) fun _ _ => rfl

theorem Realizes.rounds (ha : a.Realizes f) : ∀ count, (a.rounds count).Realizes (f.times count)
  | 0 => realizes_skip
  | 1 => by
      rw [Ways.times_one]
      exact ha
  | count + 2 => (ha.rounds (count + 1)).append ha

theorem Ranks.rounds (hrealizes : a.Realizes f) (ha : a.Ranks f) :
    ∀ count, (a.rounds count).Ranks (f.times count)
  | 0 => ranks_skip
  | 1 => by
      rw [Ways.times_one]
      exact ha
  | count + 2 => (ha.rounds hrealizes (count + 1)).append (hrealizes.rounds (count + 1)).length ha

theorem Realizes.upTo (greedy : Bool) (ha : a.Realizes f) :
    ∀ limit, (a.upTo greedy limit).Realizes (f.upTo greedy limit)
  | 0 => realizes_skip
  | 1 => by
      rw [Ways.upTo, Ways.upTo, Ways.andThen_stay]
      exact ha.optional greedy
  | limit + 2 => (ha.append (ha.upTo greedy (limit + 1))).optional greedy

theorem Ranks.upTo (greedy : Bool) (hrealizes : a.Realizes f) (ha : a.Ranks f) :
    ∀ limit, (a.upTo greedy limit).Ranks (f.upTo greedy limit)
  | 0 => ranks_skip
  | 1 => by
      rw [Ways.upTo, Ways.upTo, Ways.andThen_stay]
      exact ha.optional greedy
  | limit + 2 =>
      (ha.append hrealizes.length (ha.upTo greedy hrealizes (limit + 1))).optional greedy

theorem Realizes.star (greedy nullable : Bool) (hf : f.Advances) (ha : a.Realizes f) :
    (a.star greedy nullable).Realizes (f.many greedy) := by
  cases nullable with
  | false => exact ha.loop greedy hf
  | true =>
      refine ((ha.plus greedy hf).optional greedy).congr fun spot after => ?_
      rw [Ways.mem_orStop_iff, Ways.mem_andThen_iff]
      constructor
      · rintro (rfl | ⟨middle, hmiddle, hafter⟩)
        · exact Ways.mem_many_self
        · exact Ways.mem_many_of_round hf hmiddle hafter
      · intro hmem
        rw [Ways.many_eq, Ways.mem_orStop_iff, Ways.mem_andThen_iff] at hmem
        exact hmem.imp_right fun ⟨middle, hmiddle, hafter⟩ =>
          ⟨middle, (Ways.mem_progressing_iff.mp hmiddle).1, hafter⟩

theorem Realizes.repeated (least : Nat) (most : Option Nat) (greedy nullable : Bool)
    (hf : f.Advances) (ha : a.Realizes f) :
    (a.repeated least most greedy nullable).Realizes (f.between least most greedy) := by
  match most, least with
  | none, 0 =>
      rw [Ways.between, Ways.times, Ways.stay_andThen]
      exact ha.star greedy nullable hf
  | none, 1 =>
      rw [Ways.between, Ways.times_one]
      exact ha.plus greedy hf
  | none, least + 2 =>
      rw [Ways.between, Ways.times, Ways.andThen_assoc]
      exact (ha.rounds (least + 1)).append (ha.plus greedy hf)
  | some most, least =>
      rw [Block.repeated, Ways.between]
      split
      case isTrue hle =>
        rw [Nat.sub_eq_zero_of_le hle, Ways.upTo, Ways.andThen_stay]
        exact ha.rounds least
      case isFalse hlt =>
        split
        case isTrue hzero =>
          rw [hzero, Ways.times, Ways.stay_andThen, Nat.sub_zero]
          exact ha.upTo greedy most
        case isFalse => exact (ha.rounds least).append (ha.upTo greedy (most - least))

/-- The rounds of a repetition are tried in order, if every round of one without a
limit takes a character. -/
theorem Ranks.repeated (least : Nat) (most : Option Nat) (greedy : Bool) {nullable : Bool}
    (hnullable : most = none → nullable = false) (hf : nullable = false → f.Shortens)
    (hrealizes : a.Realizes f) (ha : a.Ranks f) :
    (a.repeated least most greedy nullable).Ranks (f.between least most greedy) := by
  match most, least with
  | none, 0 =>
      obtain rfl := hnullable rfl
      rw [Ways.between, Ways.times, Ways.stay_andThen]
      exact ha.loop greedy (hf rfl)
  | none, 1 =>
      rw [Ways.between, Ways.times_one]
      exact ha.plus greedy hrealizes.length (hf (hnullable rfl))
  | none, least + 2 =>
      rw [Ways.between, Ways.times, Ways.andThen_assoc]
      exact (ha.rounds hrealizes (least + 1)).append (hrealizes.rounds (least + 1)).length
        (ha.plus greedy hrealizes.length (hf (hnullable rfl)))
  | some most, least =>
      rw [Block.repeated, Ways.between]
      split
      case isTrue hle =>
        rw [Nat.sub_eq_zero_of_le hle, Ways.upTo, Ways.andThen_stay]
        exact ha.rounds hrealizes least
      case isFalse hlt =>
        split
        case isTrue hzero =>
          rw [hzero, Ways.times, Ways.stay_andThen, Nat.sub_zero]
          exact ha.upTo greedy hrealizes most
        case isFalse =>
          exact (ha.rounds hrealizes least).append (hrealizes.rounds least).length
            (ha.upTo greedy hrealizes (most - least))

end Block

namespace Pattern

end Pattern

end TokenCodec.Regex
