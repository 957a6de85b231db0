import TokenCodec.Json.Codec

/-!
# Resetting brings a reader back to its start

A reader that is reset, whatever it saw before, is at its start again, state
for state.  The law is closed under every combinator of this library with one
proviso: a fixed value must stand on a reader that never gives that value at its
own reset.  A scalar and a member with a scalar value give nothing there, and
`Json.Readable` collects the JSON codecs built that way.
-/

namespace TokenCodec

variable {τ α β κ : Type}

theorem Outcome.isProduced_map (f : α → β) (outcome : Outcome α) :
    (outcome.map f).isProduced = outcome.isProduced := by
  cases outcome <;> rfl

namespace Reader

/-- Every reset leads to the start. -/
def Resets (reader : Reader τ α) : Prop :=
  ∀ state, (reader.reset state).2 = reader.start

/-- No reset gives a value. -/
def Silent (reader : Reader τ α) : Prop :=
  ∀ state, (reader.reset state).1.isProduced = false

theorem Resets.discard_eq {reader : Reader τ α} (hresets : reader.Resets)
    (state : reader.State) : reader.discard state = reader.start :=
  hresets state

theorem Resets.refine {reader : Reader τ α} (hresets : reader.Resets)
    (check : α → Outcome β) : (reader.refine check).Resets :=
  hresets

theorem Resets.map {reader : Reader τ α} (hresets : reader.Resets) (f : α → β) :
    (reader.map f).Resets :=
  hresets

theorem Silent.map {reader : Reader τ α} (hsilent : reader.Silent) (f : α → β) :
    (reader.map f).Silent := by
  intro state
  exact (Outcome.isProduced_map f _).trans (hsilent state)

theorem Resets.gather {reader : Reader τ α} (hresets : reader.Resets) (empty : β)
    (add : β → α → β) : (reader.gather empty add).Resets := by
  intro state
  exact congrArg (·, empty) (hresets.discard_eq state.1)

theorem Resets.collect {reader : Reader τ α} (hresets : reader.Resets) :
    reader.collect.Resets :=
  (hresets.gather _ _).map _

theorem Resets.entries [BEq κ] {reader : Reader τ (κ × α)} (hresets : reader.Resets) :
    reader.entries.Resets :=
  hresets.gather _ _

theorem Resets.fold {reader : Reader τ α} (hresets : reader.Resets) (initial : β)
    (combine : β → α → β) : (reader.fold initial combine).Resets := by
  intro state
  exact congrArg (Folding.mk · initial none) (hresets.discard_eq state.inner)

theorem Resets.optional {reader : Reader τ α} (hresets : reader.Resets) :
    reader.optional.Resets := by
  intro state
  exact congrArg (·, false) (hresets.discard_eq state.1)

/-- A fixed value obeys the law if its inner reader does and never releases that value
at a reset, and in no other case: a match that is made at a reset stays noted. -/
theorem resets_fixed_iff [BEq α] [Shown α] {reader : Reader τ α} {value : α}
    {description : String} :
    (reader.fixed value description).Resets ↔
      reader.Resets ∧
        ∀ state found, (reader.reset state).1 = .produced found → (found == value) = false := by
  constructor
  · intro hfixed
    refine ⟨fun state => ?_, fun state found hreleases => ?_⟩
    · have hmatched := hfixed (state, true)
      simp only [Reader.fixed, if_true] at hmatched
      exact congrArg Prod.fst hmatched
    · cases hagrees : found == value with
      | false => rfl
      | true =>
          have hunmatched := congrArg Prod.snd (hfixed (state, false))
          simp [Reader.fixed, hreleases, compareFixed, hagrees] at hunmatched
  · rintro ⟨hresets, hnever⟩ ⟨inner, matched⟩
    have hinner := hresets inner
    cases matched with
    | true => exact congrArg (·, false) hinner
    | false =>
        rcases hreset : reader.reset inner with ⟨found | _ | failure, next⟩ <;>
          rw [hreset] at hinner <;> simp only [Reader.fixed, hreset, Bool.false_eq_true, if_false]
        · have hdiffers := hnever inner found (congrArg Prod.fst hreset)
          rw [compareFixed, hdiffers]
          exact congrArg (·, false) hinner
        · exact congrArg (·, false) hinner
        · exact congrArg (·, false) hinner

/-- A fixed value keeps no note of a match that its inner reader cannot make at
its reset. -/
theorem Resets.fixed [BEq α] [Shown α] {reader : Reader τ α} (hresets : reader.Resets)
    (hsilent : reader.Silent) (value : α) (description : String) :
    (reader.fixed value description).Resets := by
  refine resets_fixed_iff.mpr ⟨hresets, fun state found hreleases => ?_⟩
  have hnothing := hsilent state
  rw [hreleases] at hnothing
  cases hnothing

/-- The reader is where it starts, or where a reset left it. -/
def Rested (reader : Reader τ α) (state : reader.State) : Prop :=
  state = reader.start ∨ ∃ before, state = reader.discard before

theorem Rested.eq_start {reader : Reader τ α} {state : reader.State}
    (hrested : reader.Rested state) (hresets : reader.Resets) : state = reader.start := by
  rcases hrested with hstart | ⟨before, hreset⟩
  · exact hstart
  · exact hreset.trans (hresets.discard_eq before)

end Reader

/-! ## Compositions -/

/-- Ending or dropping a unit leads every part to its start. -/
structure Slots.Resets (slots : Slots τ β) : Prop where
  finish_eq : ∀ state, (slots.finish state).2 = slots.start
  discard_eq : ∀ state, slots.discard state = slots.start

/-- Every reset leads every condition to its start. -/
def Conditions.Resets (conditions : Conditions τ) : Prop :=
  ∀ state, (conditions.reset state).2 = conditions.start

theorem Slots.Resets.nil : (Slots.nil : Slots τ Unit).Resets :=
  ⟨fun _ => rfl, fun _ => rfl⟩

theorem Slots.Resets.cons {part : PartReader τ α} (hpart : part.reader.Resets)
    {rest : Slots τ β} (hrest : rest.Resets) : (Slots.cons part rest).Resets where
  finish_eq state := by
    have hfirst := hpart state.1.1
    have hothers := hrest.finish_eq state.2
    exact Prod.ext (congrArg (·, none) hfirst) hothers
  discard_eq state :=
    Prod.ext (congrArg (·, none) (hpart.discard_eq state.1.1)) (hrest.discard_eq state.2)

theorem Slots.Resets.ofParts {parts : Parts (PartReader τ) β}
    (hparts : ∀ {γ : Type} {part : PartReader τ γ}, parts.Mem part → part.reader.Resets) :
    (Slots.ofParts parts).Resets := by
  induction parts with
  | nil => exact .nil
  | cons part rest ih =>
      exact .cons (hparts (Parts.mem_head part rest))
        (ih fun hmem => hparts (Parts.mem_tail hmem part))

theorem Conditions.Resets.ofList {readers : List (Reader τ Unit)}
    (hreaders : ∀ reader ∈ readers, reader.Resets) : (Conditions.ofList readers).Resets := by
  induction readers with
  | nil => exact fun _ => rfl
  | cons reader rest ih =>
      intro state
      have hfirst := hreaders reader List.mem_cons_self state.1
      have hothers := ih (fun other hmem => hreaders other (List.mem_cons_of_mem _ hmem)) state.2
      exact Prod.ext hfirst hothers

namespace Assembly

/-- The parts and the conditions go back to their start. -/
structure Resets (assembly : Assembly τ β) : Prop where
  slots : assembly.slots.Resets
  conditions : assembly.conditions.Resets

variable {assembly : Assembly τ β}

theorem Resets.discard_eq (hresets : assembly.Resets) (state : assembly.State) :
    assembly.discard state = assembly.start := by
  rw [discard, hresets.slots.discard_eq, hresets.conditions]
  rfl

/-- The closing token of a unit leads to the start, whether the unit gave its
value before or gives it now. -/
theorem Resets.complete_eq (hresets : assembly.Resets) (state : assembly.State) :
    (assembly.complete state).2 = assembly.start := by
  by_cases hemitted : state.emitted = true
  · rw [complete, if_pos hemitted]
    exact hresets.discard_eq state
  · rw [complete, if_neg hemitted]
    have hslots := hresets.slots.finish_eq state.slots
    have hconditions := hresets.conditions state.conditions
    change State.mk (assembly.slots.finish state.slots).2
      (assembly.conditions.reset state.conditions).2 false = assembly.start
    rw [hslots, hconditions]
    rfl

theorem Resets.ofParts {parts : Parts (PartReader τ) β} {conditions : List (Reader τ Unit)}
    (hparts : ∀ {γ : Type} {part : PartReader τ γ}, parts.Mem part → part.reader.Resets)
    (hconditions : ∀ reader ∈ conditions, reader.Resets) :
    (Assembly.ofParts parts conditions).Resets :=
  ⟨.ofParts hparts, .ofList hconditions⟩

end Assembly

/-- At its closing token an assembly is reset, whether its unit gave a value before or
gives it now. -/
theorem Slots.finish_snd (parts : Parts (PartReader τ) β) (state : (Slots.ofParts parts).State) :
    ((Slots.ofParts parts).finish state).2 = (Slots.ofParts parts).discard state := by
  induction parts with
  | nil => rfl
  | cons part rest ih => exact congrArg (Prod.mk _) (ih state.2)

theorem Assembly.complete_snd (parts : Parts (PartReader τ) β) (readers : List (Reader τ Unit))
    (state : (Assembly.ofParts parts readers).State) :
    ((Assembly.ofParts parts readers).complete state).2 =
      (Assembly.ofParts parts readers).discard state := by
  rw [complete]
  split
  · rfl
  · exact congrArg (State.mk · _ false) (Slots.finish_snd parts state.slots)

/-! ## Alternatives -/

/-- The reader and the discriminator of an alternative go back to their start. -/
structure Alternative.Resets (alternative : Alternative τ α) : Prop where
  reader : alternative.reader.Resets
  discriminator : ∀ discriminator ∈ alternative.discriminator, discriminator.Resets

theorem Alternatives.discard_ofList {list : List (Alternative τ α)}
    (hlist : ∀ alternative ∈ list, alternative.Resets)
    (state : (Alternatives.ofList list).State) :
    (Alternatives.ofList list).discard state = (Alternatives.ofList list).start := by
  induction list with
  | nil => rfl
  | cons alternative rest ih =>
      have hfirst := hlist alternative List.mem_cons_self
      have hrest := ih fun other hmem => hlist other (List.mem_cons_of_mem _ hmem)
      obtain ⟨description, reader, discriminator⟩ := alternative
      cases discriminator with
      | none => exact Prod.ext (hfirst.reader.discard_eq state.1) (hrest state.2)
      | some discriminator =>
          have hdiscriminator := hfirst.discriminator discriminator rfl
          exact Prod.ext (hfirst.reader.discard_eq state.1)
            (Prod.ext (hdiscriminator.discard_eq state.2.1) (hrest state.2.2))

theorem Reader.Resets.choose [Alphabet τ] {list : List (Alternative τ α)}
    (hlist : ∀ alternative ∈ list, alternative.Resets) (limit : Option Nat) :
    (Reader.choose list limit).Resets := by
  intro state
  exact congrArg (Choosing.mk · #[] 0) (Alternatives.discard_ofList hlist state.alternatives)

/-! ## Codecs -/

/-- The reader of a codec, and its discriminator, go back to their start when
they are reset. -/
structure ReadCodec.Resets (codec : ReadCodec τ α) : Prop where
  reader : codec.reader.Resets
  discriminator : ∀ discriminator ∈ codec.discriminator, discriminator.Resets

theorem resets_conditionReaders {conditions : List (Condition τ)}
    (hconditions : ∀ condition ∈ conditions, condition.toReadCodec.Resets) :
    ∀ reader ∈ Condition.readers conditions, reader.Resets := by
  intro reader hmem
  obtain ⟨condition, hcondition, rfl⟩ := List.mem_map.mp hmem
  exact (hconditions condition hcondition).reader

theorem resets_partReaders {parts : Parts (ReadCodec τ) β}
    (hparts : ∀ {γ : Type} {codec : ReadCodec τ γ}, parts.Mem codec → codec.Resets) :
    ∀ {γ : Type} {part : PartReader τ γ},
      (parts.mapParts ReadCodec.part).Mem part → part.reader.Resets := by
  intro γ part hmem
  obtain ⟨codec, hcodec, rfl⟩ := Parts.exists_of_mem_mapParts hmem
  exact (hparts hcodec).reader

namespace ReadCodec

/-- A codec without a discriminator obeys the law if its reader does. -/
theorem Resets.ofReader {codec : ReadCodec τ α} (hreader : codec.reader.Resets)
    (hnone : codec.discriminator = none) : codec.Resets := by
  refine ⟨hreader, fun discriminator hmem => ?_⟩
  rw [hnone] at hmem
  cases hmem

theorem Resets.alternative {codec : ReadCodec τ α} (hcodec : codec.Resets) :
    codec.alternative.Resets :=
  ⟨hcodec.reader, hcodec.discriminator⟩

theorem Resets.oneOf [Alphabet τ] {codecs : List (ReadCodec τ α)}
    (hcodecs : ∀ codec ∈ codecs, codec.Resets) (limit : Option Nat) :
    (ReadCodec.oneOf codecs limit).Resets := by
  refine .ofReader (.choose ?_ limit) rfl
  intro alternative hmem
  obtain ⟨codec, hcodec, rfl⟩ := List.mem_map.mp hmem
  exact (hcodecs codec hcodec).alternative

end ReadCodec

/-! ## JSON readers -/

namespace Json

theorem resets_scalarReader (expected : String) (parse : Token → Option α) :
    (scalarReader expected parse).Resets :=
  fun _ => rfl

theorem resets_memberReader {inner : Reader Token α} (hinner : inner.Resets)
    (name : String) : (memberReader name inner).Resets := by
  intro state
  exact congrArg (MemberState.mk · (.between 0) false) (hinner state.inner)

theorem resets_anyMemberReader {inner : Reader Token α} (hinner : inner.Resets) :
    (anyMemberReader inner).Resets := by
  intro state
  exact congrArg (·, MemberPlace.between 0) (hinner.discard_eq state.1)

theorem resets_arrayReader {inner : Reader Token α} (hinner : inner.Resets) :
    (arrayReader inner).Resets := by
  intro state
  exact congrArg (ArrayState.mk · 0 0) (hinner state.inner)

theorem resets_objectReader {assembly : Assembly Token β} (hassembly : assembly.Resets) :
    (objectReader assembly).Resets := by
  intro state
  exact congrArg (·, 0) (hassembly.discard_eq state.1)

theorem silent_scalarReader (expected : String) (parse : Token → Option α) :
    (scalarReader expected parse).Silent :=
  fun _ => rfl

theorem silent_memberReader {inner : Reader Token α} (hinner : inner.Silent) (name : String) :
    (memberReader name inner).Silent := by
  intro state
  obtain ⟨reading, place, found⟩ := state
  have hreading := hinner reading
  rcases hreset : inner.reset reading with ⟨value | _ | failure, next⟩
  · rw [hreset] at hreading
    cases hreading
  · cases found <;> simp [memberReader, hreset, Outcome.isProduced]
  · cases found <;> simp [memberReader, hreset, Outcome.isProduced]

/-- The condition that no text stands under a name.  A reset decides it. -/
def untagged : Condition Token :=
  ((Scalar.string.codec.member "t").collect.imap List.isEmpty fun _ => []).fixed true

/-- A condition that is met at a reset is out of reach of the law. -/
theorem not_resets_untagged : ¬untagged.reader.Resets := by
  intro hresets
  have hnever := (Reader.resets_fixed_iff.mp hresets).2
  cases hnever (Scalar.string.codec.member "t").collect.reader.start true rfl

end Json

end TokenCodec
