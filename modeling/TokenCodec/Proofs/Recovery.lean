import TokenCodec.Proofs.Alternation

/-!
# Recovery between documents

A decoder that recovers from failures keeps the documents of a stream apart:
whatever is wrong in one of them, at whatever token, the others give what they
give by themselves.  This holds for every codec that reads a document at a
time: objects, arrays with all their elements in one value, and alternatives of
objects.
-/

namespace TokenCodec

open Json Json.Document

variable {α : Type}

namespace Json

/-- The codecs that read a document at a time. -/
inductive RootCodec : {α : Type} → ReadCodec Token α → Prop where
  | object {α : Type} {codec : ReadCodec Token α} (hcodec : ObjectCodec codec) : RootCodec codec
  | list {α : Type} {codec : ReadCodec Token α} (hcodec : Readable codec) :
      RootCodec codec.collect.array
  | folded {α β : Type} {codec : ReadCodec Token α} (hcodec : Readable codec) (initial : β)
      (combine : β → α → β) : RootCodec (codec.fold initial combine).array
  | oneOf {α : Type} {codecs : List (ReadCodec Token α)}
      (hcodecs : ∀ codec ∈ codecs, ObjectCodec codec) (limit : Option Nat) :
      RootCodec (.oneOf codecs limit)

/-- A collecting reader decides at every reset. -/
theorem reset_collect_decides {τ : Type} (reader : Reader τ α) (state : reader.collect.State) :
    (reader.collect.reset state).1.isPending = false := rfl

/-- A folding reader decides at every reset: it repeats its failure or gives its
result. -/
theorem reset_fold_decides {τ β : Type} (reader : Reader τ α) (initial : β)
    (combine : β → α → β) (state : (reader.fold initial combine).State) :
    ((reader.fold initial combine).reset state).1.isPending = false := by
  obtain ⟨inner, result, failure⟩ := state
  cases failure <;> rfl

theorem RootCodec.unitwise {codec : ReadCodec Token α} (hroot : RootCodec codec) :
    codec.reader.Unitwise := by
  cases hroot with
  | object hcodec => exact hcodec.unitwise
  | list hcodec =>
      apply Reader.Unitwise.array
      · exact hcodec.resets.reader.collect
      · exact reset_collect_decides _
  | folded hcodec initial combine =>
      apply Reader.Unitwise.array
      · exact hcodec.resets.reader.fold initial combine
      · exact reset_fold_decides _ initial combine
  | oneOf hcodecs limit =>
      exact unitwise_oneOf (fun codec hmem => (hcodecs codec hmem).anyObject)
        (fun codec hmem => (hcodecs codec hmem).readable.resets) limit

end Json

/-- A decoder that recovers gives for a stream of documents what fresh decoders
give for the documents one by one, values and failures alike. -/
theorem Decoder.items_recovering {codec : ReadCodec Token α} (hroot : RootCodec codec)
    (flushOnFinish : Bool) (documents : List Document) :
    (Decoder.ofCodec codec ⟨false, flushOnFinish⟩).items (documents.flatMap tokens) =
      documents.flatMap fun document =>
        (Decoder.ofCodec codec ⟨false, flushOnFinish⟩).items document.tokens :=
  items_documents rfl hroot.unitwise documents

/-- An object with a lone truth value. -/
def flagCodec : ReadCodec Token (Bool × Unit) :=
  .object (.one (Scalar.boolean.codec.toReadCodec.member "on"))

/-- A broken document in a stream costs no more than itself. -/
theorem Decoder.items_recovering_flags :
    (Decoder.ofCodec flagCodec ⟨false, true⟩).items
        ([Document.object [("on", .array [.number "1", .object []])],
          Document.array [.bool true], Document.object [("on", .bool true)]].flatMap tokens) =
      [.error (.here (.missing "on: (boolean)")),
        .error (.here (.unexpected "start of object" "[")), .ok (true, ())] := by
  have hflag : ObjectCodec flagCodec :=
    .one (.member "on" (.scalar Scalar.boolean)) nofun
  exact (Decoder.items_recovering (.object hflag) true _).trans rfl

end TokenCodec
