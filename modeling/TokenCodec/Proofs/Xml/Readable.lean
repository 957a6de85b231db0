import TokenCodec.Proofs.Reset
import TokenCodec.Xml.Codec

/-!
# The reading codecs of XML

The reset law for the readers of attributes, text and elements, and for every
XML codec that the combinators of this library build.  A fixed value must again
stand on a reader that gives nothing at its own reset.  The text of an element
is given at the reset, so a fixed text is not among these codecs.
-/

namespace TokenCodec.Xml

variable {α β : Type}

theorem resets_attributeReader (claim : Attribute → Option α) :
    (attributeReader claim).Resets :=
  fun _ => rfl

theorem resets_textReader : textReader.Resets :=
  fun _ => rfl

theorem resets_elementReader {assembly : Assembly Token β} (hassembly : assembly.Resets)
    (claims : Name → Bool) : (elementReader claims assembly).Resets := by
  intro state
  exact congrArg (·, ElementPlace.outside) (hassembly.discard_eq state.1)

theorem silent_attributeReader (claim : Attribute → Option α) :
    (attributeReader claim).Silent :=
  fun _ => rfl

theorem silent_elementReader (claims : Name → Bool) (assembly : Assembly Token β) :
    (elementReader claims assembly).Silent :=
  fun _ => rfl

theorem resets_readElements {parts : Parts (ReadCodec Token) β}
    {conditions : List (Condition Token)}
    (hparts : ∀ {γ : Type} {codec : ReadCodec Token γ}, parts.Mem codec → codec.Resets)
    (hconditions : ∀ condition ∈ conditions, condition.toReadCodec.Resets)
    (claims : Name → Bool) (shownName : String) :
    (readElements claims shownName parts conditions).Resets := by
  have hreaders := resets_conditionReaders hconditions
  constructor
  · exact resets_elementReader (.ofParts (resets_partReaders hparts) hreaders) claims
  · intro discriminator hmem
    simp only [readElements] at hmem
    split at hmem
    · cases hmem
    · cases hmem
      exact resets_elementReader ⟨.nil, .ofList hreaders⟩ claims

/-- The reading codecs of XML. -/
inductive Readable : {α : Type} → ReadCodec Token α → Prop where
  | ofAttribute (name : Name) : Readable (ofAttribute name).toReadCodec
  | anyAttribute : Readable anyAttribute.toReadCodec
  | text : Readable text.toReadCodec
  | elements {β : Type} {parts : Parts (ReadCodec Token) β}
      {conditions : List (Condition Token)} (claims : Name → Bool) (shownName : String)
      (hparts : ∀ {γ : Type} {codec : ReadCodec Token γ}, parts.Mem codec → Readable codec)
      (hconditions : ∀ condition ∈ conditions, Readable condition.toReadCodec) :
      Readable (readElements claims shownName parts conditions)
  | collect {α : Type} {codec : ReadCodec Token α} (hcodec : Readable codec) :
      Readable codec.collect
  | entries {α κ : Type} [BEq κ] {codec : ReadCodec Token (κ × α)} (hcodec : Readable codec) :
      Readable codec.entries
  | fold {α β : Type} {codec : ReadCodec Token α} (hcodec : Readable codec) (initial : β)
      (combine : β → α → β) : Readable (codec.fold initial combine)
  | optional {α : Type} {codec : ReadCodec Token α} (hcodec : Readable codec) :
      Readable codec.optional
  | map {α β : Type} {codec : ReadCodec Token α} (hcodec : Readable codec) (f : α → β) :
      Readable (codec.map f)
  | matching {α : Type} {codec : ReadCodec Token String} (hcodec : Readable codec)
      (expression : Regex.Expression) (f : Captures → α) :
      Readable (codec.matching expression f)
  | fixed {α : Type} [BEq α] [Shown α] {codec : ReadCodec Token α} (hcodec : Readable codec)
      (hsilent : codec.reader.Silent) (value : α) : Readable (codec.fixed value)
  | oneOf {α : Type} {codecs : List (ReadCodec Token α)}
      (hcodecs : ∀ codec ∈ codecs, Readable codec) (limit : Option Nat) :
      Readable (.oneOf codecs limit)

theorem Readable.resets {codec : ReadCodec Token α} (hreadable : Readable codec) :
    codec.Resets := by
  induction hreadable with
  | ofAttribute name => exact .ofReader (resets_attributeReader _) rfl
  | anyAttribute => exact .ofReader (resets_attributeReader _) rfl
  | text => exact .ofReader resets_textReader rfl
  | elements claims shownName _ _ hparts hconditions =>
      exact resets_readElements hparts hconditions claims shownName
  | collect _ ih => exact .ofReader ih.reader.collect rfl
  | entries _ ih => exact .ofReader ih.reader.entries rfl
  | fold _ initial combine ih => exact .ofReader (ih.reader.fold initial combine) rfl
  | optional _ ih => exact .ofReader ih.reader.optional rfl
  | map _ f ih => exact ⟨ih.reader.map f, ih.discriminator⟩
  | matching _ expression f ih => exact .ofReader (ih.reader.refine _) rfl
  | fixed _ hsilent value ih => exact .ofReader (ih.reader.fixed hsilent value _) rfl
  | oneOf _ limit ih => exact .oneOf ih limit

end TokenCodec.Xml
