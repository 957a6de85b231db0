import TokenCodec.Proofs.Reset

/-!
# The reading codecs of JSON

Every JSON codec that the combinators of this library build, with the one
restriction that a fixed value stands on a reader that gives nothing at its own
reset.  All of them, and the discriminators of those that have one, obey the
reset law.  What a reader answers after a reset is therefore what a fresh one
answers, whatever came before.
-/

namespace TokenCodec

variable {α β κ : Type}

namespace Json

/-- The reading codecs of JSON. -/
inductive Readable : {α : Type} → ReadCodec Token α → Prop where
  | scalar {α : Type} (scalar : Scalar α) : Readable scalar.codec.toReadCodec
  | member {α : Type} {codec : ReadCodec Token α} (name : String) (hcodec : Readable codec) :
      Readable (codec.member name)
  | anyMember {α : Type} {codec : ReadCodec Token α} (hcodec : Readable codec) :
      Readable codec.anyMember
  | array {α : Type} {codec : ReadCodec Token α} (hcodec : Readable codec) :
      Readable codec.array
  | object {β : Type} {parts : Parts (ReadCodec Token) β} {conditions : List (Condition Token)}
      (hparts : ∀ {γ : Type} {codec : ReadCodec Token γ}, parts.Mem codec → Readable codec)
      (hconditions : ∀ condition ∈ conditions, Readable condition.toReadCodec) :
      Readable (.object parts conditions)
  | collect {α : Type} {codec : ReadCodec Token α} (hcodec : Readable codec) :
      Readable codec.collect
  | entries {α κ : Type} [BEq κ] {codec : ReadCodec Token (κ × α)} (hcodec : Readable codec) :
      Readable codec.entries
  | fold {α β : Type} {codec : ReadCodec Token α} (hcodec : Readable codec) (initial : β)
      (combine : β → α → β) : Readable (codec.fold initial combine)
  | optional {α : Type} {codec : ReadCodec Token α} (hcodec : Readable codec) :
      Readable codec.optional
  | map {α β : Type} {codec : ReadCodec Token α} (hcodec : Readable codec) (f : α → β) :
      Readable (codec.map f)
  | matching {α : Type} {codec : ReadCodec Token String} (hcodec : Readable codec)
      (expression : Regex.Expression) (f : Captures → α) :
      Readable (codec.matching expression f)
  | fixed {α : Type} [BEq α] [Shown α] {codec : ReadCodec Token α} (hcodec : Readable codec)
      (hsilent : codec.reader.Silent) (value : α) : Readable (codec.fixed value)
  | oneOf {α : Type} {codecs : List (ReadCodec Token α)}
      (hcodecs : ∀ codec ∈ codecs, Readable codec) (limit : Option Nat) :
      Readable (.oneOf codecs limit)

/-- A condition that binds a member with a scalar value. -/
theorem readable_condition [BEq α] [Shown α] (name : String) (scalar : Scalar α) (value : α) :
    Readable ((scalar.codec.member name).fixed value).toReadCodec :=
  .fixed (.member name (.scalar scalar)) (silent_memberReader (silent_scalarReader _ _) name) value

end Json

namespace ReadCodec

open Json

theorem Resets.object {parts : Parts (ReadCodec Token) β} {conditions : List (Condition Token)}
    (hparts : ∀ {γ : Type} {codec : ReadCodec Token γ}, parts.Mem codec → codec.Resets)
    (hconditions : ∀ condition ∈ conditions, condition.toReadCodec.Resets) :
    (ReadCodec.object parts conditions).Resets := by
  have hreaders := resets_conditionReaders hconditions
  refine ⟨resets_objectReader (.ofParts (resets_partReaders hparts) hreaders), ?_⟩
  intro discriminator hmem
  simp only [ReadCodec.object] at hmem
  split at hmem
  · cases hmem
  · cases hmem
    exact resets_objectReader ⟨.nil, .ofList hreaders⟩

end ReadCodec

/-- Every reading codec of JSON obeys the reset law. -/
theorem Json.Readable.resets {codec : ReadCodec Json.Token α} (hreadable : Readable codec) :
    codec.Resets := by
  induction hreadable with
  | scalar scalar => exact .ofReader (resets_scalarReader _ _) rfl
  | member name _ ih => exact .ofReader (resets_memberReader ih.reader name) rfl
  | anyMember _ ih => exact .ofReader (resets_anyMemberReader ih.reader) rfl
  | array _ ih => exact .ofReader (resets_arrayReader ih.reader) rfl
  | object _ _ hparts hconditions => exact .object hparts hconditions
  | collect _ ih => exact .ofReader ih.reader.collect rfl
  | entries _ ih => exact .ofReader ih.reader.entries rfl
  | fold _ initial combine ih => exact .ofReader (ih.reader.fold initial combine) rfl
  | optional _ ih => exact .ofReader ih.reader.optional rfl
  | map _ f ih => exact ⟨ih.reader.map f, ih.discriminator⟩
  | matching _ expression f ih => exact .ofReader (ih.reader.refine _) rfl
  | fixed _ hsilent value ih => exact .ofReader (ih.reader.fixed hsilent value _) rfl
  | oneOf _ limit ih => exact .oneOf ih limit

/-- A reader that was reset cannot be told from a fresh one.  Neither a further
reset nor any run of tokens shows what it was fed before, in whatever state that
left it. -/
theorem Json.Readable.fresh_after_reset {codec : ReadCodec Json.Token α}
    (hreadable : Readable codec) (earlier later : List Json.Token) :
    let reached := (codec.reader.run codec.reader.start earlier).2
    let again := codec.reader.discard reached
    (codec.reader.reset again).1 = (codec.reader.reset codec.reader.start).1 ∧
      (codec.reader.run again later).1 = (codec.reader.run codec.reader.start later).1 := by
  intro reached again
  have hstart : again = codec.reader.start := hreadable.resets.reader.discard_eq reached
  rw [hstart]
  exact ⟨rfl, rfl⟩

/-- Objects with a list of numbers, an optional note and a condition. -/
def Json.noteCodec : ReadCodec Json.Token (List Int32 × Option String × Unit) :=
  .object
    (.cons (Scalar.integer.codec.toReadCodec.listMember "ns")
      (.one (Scalar.string.codec.toReadCodec.member "note").optional))
    [(Scalar.boolean.codec.member "ok").fixed true]

theorem Json.readable_noteCodec : Readable noteCodec := by
  apply Readable.object
  · intro γ codec hmem
    rcases hmem with hlist | hnote | hnone
    · cases hlist
      exact .map (.optional (.member "ns" (.array (.collect (.scalar Scalar.integer))))) _
    · cases hnote
      exact .optional (.member "note" (.scalar Scalar.string))
    · exact hnone.elim
  · intro condition hmem
    cases List.mem_singleton.mp hmem
    exact readable_condition "ok" Scalar.boolean true

/-- An object is left in the middle of its list, behind a closing token of the
wrong kind and a met condition.  The next object shows nothing of it. -/
theorem Json.Readable.fresh_after_reset_abandoned :
    let reached := (noteCodec.reader.run noteCodec.reader.start
      [.startObject, .name "ok", .bool true, .name "note", .string "a", .name "ns", .startArray,
        .number "1", .endObject]).2
    let again := noteCodec.reader.discard reached
    (noteCodec.reader.reset again).1 = .pending ∧
      (noteCodec.reader.run again [.startObject, .name "ok", .bool true, .endObject]).1 =
        [.pending, .pending, .pending, .produced ([], none, ())] :=
  have hfresh := readable_noteCodec.fresh_after_reset
    [.startObject, .name "ok", .bool true, .name "note", .string "a", .name "ns", .startArray,
      .number "1", .endObject]
    [.startObject, .name "ok", .bool true, .endObject]
  ⟨hfresh.1.trans rfl, hfresh.2.trans rfl⟩

end TokenCodec
