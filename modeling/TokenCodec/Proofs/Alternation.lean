import TokenCodec.Proofs.Routing
import TokenCodec.Proofs.Units

/-!
# Alternation of objects

One reader for several object codecs reads each document with the first codec
whose conditions hold in it.  Which one that is depends on the document alone,
and what the reader of that codec makes of the document depends on the document
and on those that went to the same codec before.  It is a fresh reader if its
resets forget, and so one reader serves a whole stream of documents: codecs that
were rejected or that failed leave nothing behind.
-/

namespace TokenCodec

open Json Json.Document

variable {α β : Type}

namespace Json

/-- The codecs of objects with any members and any conditions, whose values may be
converted. -/
inductive AnyObject : {α : Type} → ReadCodec Token α → Prop where
  | object {β : Type} (parts : Parts (ReadCodec Token) β) (conditions : List (Condition Token)) :
      AnyObject (.object parts conditions)
  | map {α β : Type} {codec : ReadCodec Token α} (hcodec : AnyObject codec) (f : α → β) :
      AnyObject (codec.map f)

namespace AnyObject

/-- The reader of an object answers each document. -/
theorem answers {codec : ReadCodec Token α} (hcodec : AnyObject codec) (document : Document) :
    codec.reader.Answers document.tokens := by
  induction hcodec with
  | object parts conditions =>
      intro state next values hstate hconsume
      exact Reader.Unitwise.rested_objectReader hstate hconsume
  | map _ f ih =>
      intro state next values hstate hconsume
      obtain ⟨given, hreader, rfl⟩ := Reader.exists_of_consume_map hconsume
      obtain ⟨hnext, hgiven⟩ := ih hstate hreader
      exact ⟨hnext, fun hnil => hgiven (List.map_eq_nil_iff.mp hnil)⟩

/-- The reset of an object gives nothing. -/
theorem silent {codec : ReadCodec Token α} (hcodec : AnyObject codec) : codec.reader.Silent := by
  induction hcodec with
  | object parts conditions => exact fun _ => rfl
  | map _ f ih => exact ih.map f

/-- If its resets forget, a reader of objects treats each document by itself. -/
theorem unitwise {codec : ReadCodec Token α} (hcodec : AnyObject codec)
    (hresets : codec.reader.Resets) : codec.reader.Unitwise where
  resets := hresets
  returns document _ _ hconsume :=
    (hcodec.answers document (.inl rfl) hconsume).1.eq_start hresets
  settles := .inl hcodec.silent

end AnyObject

/-- The codecs of objects whose members and conditions forget at every reset. -/
inductive ObjectCodec : {α : Type} → ReadCodec Token α → Prop where
  | object {β : Type} {parts : Parts (ReadCodec Token) β} {conditions : List (Condition Token)}
      (hparts : ∀ {γ : Type} {codec : ReadCodec Token γ}, parts.Mem codec → Readable codec)
      (hconditions : ∀ condition ∈ conditions, Readable condition.toReadCodec) :
      ObjectCodec (.object parts conditions)
  | map {α β : Type} {codec : ReadCodec Token α} (hcodec : ObjectCodec codec) (f : α → β) :
      ObjectCodec (codec.map f)

namespace ObjectCodec

/-- An object with a single part. -/
theorem one {codec : ReadCodec Token α} (hcodec : Readable codec)
    {conditions : List (Condition Token)}
    (hconditions : ∀ condition ∈ conditions, Readable condition.toReadCodec) :
    ObjectCodec (.object (.one codec) conditions) := by
  apply ObjectCodec.object
  · intro γ part hmem
    rcases hmem with hpart | hnone
    · cases hpart
      exact hcodec
    · exact hnone.elim
  · exact hconditions

theorem readable {codec : ReadCodec Token α} (hcodec : ObjectCodec codec) : Readable codec := by
  induction hcodec with
  | object hparts hconditions => exact .object hparts hconditions
  | map _ f ih => exact .map ih f

theorem anyObject {codec : ReadCodec Token α} (hcodec : ObjectCodec codec) : AnyObject codec := by
  induction hcodec with
  | object _ _ => exact .object _ _
  | map _ f ih => exact .map ih f

theorem unitwise {codec : ReadCodec Token α} (hcodec : ObjectCodec codec) :
    codec.reader.Unitwise :=
  hcodec.anyObject.unitwise hcodec.readable.resets.reader

end ObjectCodec

/-- A structure is not a token by itself. -/
theorem isFlatUnit_structure {document : Document} (hstructure : document.isStructure = true) :
    isFlatUnit document.tokens = false := by
  rcases document.tokens_cases with ⟨_, -, -, hscalar⟩ | ⟨_, closing, inner, htokens, -, -, -, -⟩
  · rw [hscalar] at hstructure
    cases hstructure
  · rw [htokens]
    cases inner <;> rfl

end Json

section

variable {codecs : List (ReadCodec Token α)}

section Resets

variable (hobjects : ∀ codec ∈ codecs, AnyObject codec)
  (hresets : ∀ codec ∈ codecs, codec.Resets)

include hresets

theorem resets_alternatives :
    ∀ alternative ∈ codecs.map ReadCodec.alternative, alternative.Resets := by
  intro alternative hmem
  obtain ⟨codec, hcodec, rfl⟩ := List.mem_map.mp hmem
  exact (hresets codec hcodec).alternative

include hobjects

theorem returnsAfter_alternatives (document : Document) :
    ∀ alternative ∈ codecs.map ReadCodec.alternative,
      alternative.reader.ReturnsAfter document.tokens := by
  intro alternative hmem
  obtain ⟨codec, hcodec, rfl⟩ := List.mem_map.mp hmem
  exact ((hobjects codec hcodec).unitwise (hresets codec hcodec).reader).returns document

/-- A choice between objects treats each document by itself, whatever its limit. -/
theorem unitwise_oneOf (limit : Option Nat) : (ReadCodec.oneOf codecs limit).reader.Unitwise where
  resets := .choose (resets_alternatives hresets) limit
  returns document := Reader.returnsAfter_choose (resets_alternatives hresets)
    (returnsAfter_alternatives hobjects hresets document) limit document.endsUnit_tokens
  settles := .inl fun _ => rfl

/-- A document that is answered with a value is consumed as that value. -/
theorem consume_oneOf_document {document : Document} (hstructure : document.isStructure = true)
    {value : α}
    (hanswer : Alternative.answer (codecs.map ReadCodec.alternative) document.tokens =
      .produced value) :
    (ReadCodec.oneOf codecs).reader.consume (ReadCodec.oneOf codecs).reader.start
      document.tokens = .ok ([value], (ReadCodec.oneOf codecs).reader.start) := by
  have hrun : (ReadCodec.oneOf codecs).reader.run (ReadCodec.oneOf codecs).reader.start
      document.tokens = (List.replicate (document.tokens.length - 1) .pending ++
          [Alternative.answer (codecs.map ReadCodec.alternative) document.tokens],
        (ReadCodec.oneOf codecs).reader.start) :=
    Reader.run_choosing (resets_alternatives hresets)
      (returnsAfter_alternatives hobjects hresets document) (isFlatUnit_structure hstructure)
      document.endsUnit_tokens
  have hpasses (count : Nat) :
      (List.replicate count (.pending : Outcome α)).findSome? Outcome.failure? = none := by
    simp [List.findSome?_eq_none_iff, Outcome.failure?]
  have hsilent (count : Nat) :
      (List.replicate count (.pending : Outcome α)).filterMap Outcome.value? = [] :=
    List.filterMap_replicate_of_none rfl
  rw [Reader.consume_eq_run, hrun, hanswer, List.findSome?_append, List.filterMap_append,
    hpasses, hsilent]
  rfl

end Resets

section Behind

variable (hobjects : ∀ codec ∈ codecs, AnyObject codec)

include hobjects

end Behind

end

/-! ## Two kinds of objects -/

end TokenCodec
