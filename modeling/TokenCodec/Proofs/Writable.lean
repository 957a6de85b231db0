import TokenCodec.Json.Codec
import TokenCodec.Proofs.Brackets
import TokenCodec.Xml.Codec

/-!
# The writers of this library

Every writer that the combinators build, in both formats, however they are
nested.  A map of pairs, a fixed value, a text that matches an expression and a
list member are conversions of other writers.  Nothing else can be written:
folds, alternatives and elements of any name have readers only.
-/

namespace TokenCodec

/-- The scalars of JSON. -/
inductive Json.Scalar.Standard : {α : Type} → Scalar α → Prop where
  | string : Standard .string
  | integer : Standard .integer
  | long : Standard .long
  | bigInteger : Standard .bigInteger
  | double : Standard .double
  | boolean : Standard .boolean
  | timestamp : Standard .timestamp

/-- A scalar is written as one token that is a value by itself. -/
theorem Json.Scalar.Standard.isScalar_render {α : Type} {scalar : Scalar α}
    (hstandard : scalar.Standard) (value : α) : (scalar.render value).isScalar = true := by
  cases hstandard with
  | double =>
      -- A number that is not finite is written as null.
      simp only [Scalar.double, Scalar.ofNumber]
      split <;> rfl
  | _ => rfl

/-- The writers of both formats. -/
inductive Writable : {τ : Type} → [Bracketed τ] → {α : Type} → Writer τ α → Prop where
  | scalar {α : Type} {scalar : Json.Scalar α} (hstandard : scalar.Standard) :
      Writable scalar.codec.writer
  | member {α : Type} {writer : Writer Json.Token α} (name : String)
      (hwriter : Writable writer) : Writable (Json.memberWriter name writer)
  | anyMember {α : Type} {writer : Writer Json.Token α} (hwriter : Writable writer) :
      Writable (Json.anyMemberWriter writer)
  | array {α : Type} {writer : Writer Json.Token α} (hwriter : Writable writer) :
      Writable (Json.arrayWriter writer)
  | object {β : Type} {parts : Parts (Writer Json.Token) β}
      {conditions : List (Condition Json.Token)}
      (hparts : ∀ {γ : Type} {writer : Writer Json.Token γ}, parts.Mem writer → Writable writer)
      (hconditions : ∀ condition ∈ conditions, Writable condition.writer) :
      Writable (Json.objectWriter (.parts parts) (Condition.written conditions))
  | ofAttribute (name : Xml.Name) : Writable (Xml.ofAttribute name).writer
  | anyAttribute : Writable Xml.anyAttribute.writer
  | text : Writable Xml.text.writer
  | element {β : Type} {parts : Parts (Writer Xml.Token) β}
      {conditions : List (Condition Xml.Token)} (name : Xml.Name)
      (hparts : ∀ {γ : Type} {writer : Writer Xml.Token γ}, parts.Mem writer → Writable writer)
      (hconditions : ∀ condition ∈ conditions, Writable condition.writer) :
      Writable (Xml.elementWriter name (.parts parts) (Condition.written conditions))
  | contramap {τ : Type} [Bracketed τ] {α β : Type} {writer : Writer τ α}
      (hwriter : Writable writer) (f : β → α) : Writable (writer.contramap f)
  | collect {τ : Type} [Bracketed τ] {α : Type} {writer : Writer τ α}
      (hwriter : Writable writer) : Writable writer.collect
  | optional {τ : Type} [Bracketed τ] {α : Type} {writer : Writer τ α}
      (hwriter : Writable writer) : Writable writer.optional
  | skipEmpty {τ : Type} [Bracketed τ] {α : Type} {writer : Writer τ (List α)}
      (hwriter : Writable writer) : Writable writer.skipEmpty

namespace Writable

variable {β : Type}

/-- Every part that a composition of codecs writes is a part of it. -/
theorem exists_of_mem_writers {τ γ : Type} {parts : Parts (Codec τ) β} {writer : Writer τ γ}
    (hmem : ((parts.mapParts Codec.toWriteCodec).mapParts WriteCodec.writer).Mem writer) :
    ∃ codec : Codec τ γ, parts.Mem codec ∧ codec.writer = writer := by
  obtain ⟨writing, hwriting, rfl⟩ := Parts.exists_of_mem_mapParts hmem
  obtain ⟨codec, hcodec, rfl⟩ := Parts.exists_of_mem_mapParts hwriting
  exact ⟨codec, hcodec, rfl⟩

theorem codecObject {parts : Parts (Codec Json.Token) β} {conditions : List (Condition Json.Token)}
    (hparts : ∀ {γ : Type} {codec : Codec Json.Token γ}, parts.Mem codec → Writable codec.writer)
    (hconditions : ∀ condition ∈ conditions, Writable condition.writer) :
    Writable (Codec.object parts conditions).writer := by
  apply object _ hconditions
  intro γ writer hmem
  obtain ⟨codec, hcodec, rfl⟩ := exists_of_mem_writers hmem
  exact hparts hcodec

theorem codecElement {parts : Parts (Codec Xml.Token) β} {conditions : List (Condition Xml.Token)}
    (name : Xml.Name)
    (hparts : ∀ {γ : Type} {codec : Codec Xml.Token γ}, parts.Mem codec → Writable codec.writer)
    (hconditions : ∀ condition ∈ conditions, Writable condition.writer) :
    Writable (Codec.element name parts conditions).writer := by
  apply element name _ hconditions
  intro γ writer hmem
  obtain ⟨codec, hcodec, rfl⟩ := exists_of_mem_writers hmem
  exact hparts hcodec

end Writable

end TokenCodec
