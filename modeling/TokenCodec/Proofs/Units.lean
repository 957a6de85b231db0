import TokenCodec.Proofs.Documents
import TokenCodec.Proofs.Readable
import TokenCodec.Proofs.Streams

/-!
# Documents as units of a stream

A reader treats the documents of a stream as units if it stands at its start
behind each of them and holds back nothing that a reset could give.  A decoder
over such a reader gives for a stream what it gives for each document alone.
-/

namespace TokenCodec

open Json Json.Document

variable {α β : Type}

/-- The laws of a reader that treats each document as a unit of its own. -/
structure Reader.Unitwise (reader : Reader Token α) : Prop where
  resets : reader.Resets
  returns : ∀ document : Document, reader.ReturnsAfter document.tokens
  /-- Either a reset never gives a value, or the last token of a document
  leaves nothing to give. -/
  settles : reader.Silent ∨
    ∀ {document : Document} {values : List α} {next : reader.State},
      reader.consume reader.start document.tokens = .ok (values, next) →
        Decoder.holdingAfter true (reader.run reader.start document.tokens).1 = false

namespace Decoder

variable {decoder : Decoder Token α}

/-- Nothing is held between two documents that a reset could give. -/
def Settled (decoder : Decoder Token α) (holding : Bool) : Prop :=
  holding = true → (decoder.reader.reset decoder.reader.start).1.isProduced = false

theorem settled_false : decoder.Settled false := by
  intro hholding
  cases hholding

/-- A document that the reader consumes adds its values. -/
theorem itemsFrom_document_of_ok (hunit : decoder.reader.Unitwise) {document : Document}
    {values : List α} {next : decoder.reader.State}
    (hconsume : decoder.reader.consume decoder.reader.start document.tokens =
      .ok (values, next)) :
    ∃ after, decoder.Settled after ∧ ∀ holding rest,
      decoder.itemsFrom ⟨decoder.reader.start, 0, holding, false⟩ (document.tokens ++ rest) =
        values.map .ok ++ decoder.itemsFrom ⟨decoder.reader.start, 0, after, false⟩ rest := by
  have hreturns := hunit.returns document values next hconsume
  subst hreturns
  refine ⟨holdingAfter true (decoder.reader.run decoder.reader.start document.tokens).1, ?_, ?_⟩
  · intro hafter
    rcases hunit.settles with hsilent | hsettled
    · exact hsilent _
    · rw [hsettled hconsume] at hafter
      cases hafter
  · intro holding rest
    rw [itemsFrom_append_of_ok hconsume, document.nested_tokens.trackAll,
      holdingAfter_run _ _ document.tokens_ne_nil holding true]

/-- What a document adds does not depend on the documents around it. -/
theorem itemsFrom_document (hrecovers : decoder.options.failFast = false)
    (hunit : decoder.reader.Unitwise) (document : Document) :
    ∃ items after, decoder.Settled after ∧ ∀ holding rest,
      decoder.itemsFrom ⟨decoder.reader.start, 0, holding, false⟩ (document.tokens ++ rest) =
        items ++ decoder.itemsFrom ⟨decoder.reader.start, 0, after, false⟩ rest := by
  rcases hconsume : decoder.reader.consume decoder.reader.start document.tokens with
    failure | ⟨values, next⟩
  · obtain ⟨items, hitems⟩ := itemsFrom_append_of_error hrecovers hunit.resets
      document.endsUnit_tokens hconsume
    exact ⟨items, false, settled_false, hitems⟩
  · obtain ⟨after, hsettled, hitems⟩ := itemsFrom_document_of_ok hunit hconsume
    exact ⟨values.map .ok, after, hsettled, hitems⟩

/-- A decoder that recovers gives for a stream of documents what it gives for
each of them alone. -/
theorem items_documents (hrecovers : decoder.options.failFast = false)
    (hunit : decoder.reader.Unitwise) (documents : List Document) :
    decoder.items (documents.flatMap tokens) =
      documents.flatMap fun document => decoder.items document.tokens := by
  have hfrom (holding : Bool) (hholding : decoder.Settled holding) :
      decoder.itemsFrom ⟨decoder.reader.start, 0, holding, false⟩ (documents.flatMap tokens) =
        documents.flatMap fun document => decoder.items document.tokens := by
    induction documents generalizing holding with
    | nil => exact itemsFrom_nil hholding
    | cons document documents ih =>
        obtain ⟨items, after, hafter, hitems⟩ := itemsFrom_document hrecovers hunit document
        have halone : decoder.items document.tokens = items := by
          have hnothing := hitems false []
          rwa [List.append_nil, itemsFrom_nil hafter, List.append_nil] at hnothing
        rw [List.flatMap_cons, List.flatMap_cons, hitems, ih after hafter, halone]
  exact hfrom false settled_false

end Decoder

namespace ReadCodec

variable {codec : ReadCodec Token α}

/-- Reading a stream of documents that the reader consumes gives the values of
all of them. -/
theorem readAll_documents (hunit : codec.reader.Unitwise) {ρ : Type _} (document : ρ → Document)
    (values : ρ → List α) (items : List ρ)
    (hitems : ∀ item ∈ items, codec.reader.consume codec.reader.start (document item).tokens =
      .ok (values item, codec.reader.start)) :
    codec.readAll (items.flatMap fun item => (document item).tokens) =
      .ok (items.flatMap values) := by
  have hfrom (holding : Bool) (hholding : (Decoder.ofCodec codec).Settled holding) :
      (Decoder.ofCodec codec).itemsFrom ⟨codec.reader.start, 0, holding, false⟩
          (items.flatMap fun item => (document item).tokens) =
        (items.flatMap values).map .ok := by
    induction items generalizing holding with
    | nil => exact Decoder.itemsFrom_nil hholding
    | cons item items ih =>
        have hdecoder : (Decoder.ofCodec codec).reader.Unitwise := hunit
        obtain ⟨after, hafter, hfirst⟩ := Decoder.itemsFrom_document_of_ok hdecoder
          (hitems item List.mem_cons_self)
        have hrest := ih (fun other hmem => hitems other (List.mem_cons_of_mem _ hmem))
          after hafter
        rw [List.flatMap_cons, List.flatMap_cons, List.map_append]
        exact (hfirst holding _).trans (congrArg _ hrest)
  rw [readAll, Decoder.decode]
  exact (congrArg Decoder.values (hfrom false Decoder.settled_false)).trans
    (Decoder.values_map_ok _)

theorem readAll_document_of_ok (hunit : codec.reader.Unitwise) {document : Document}
    {values : List α} (hconsume : codec.reader.consume codec.reader.start document.tokens =
      .ok (values, codec.reader.start)) : codec.readAll document.tokens = .ok values := by
  have hall := readAll_documents hunit id (fun _ => values) [document] fun item hmem => by
    rw [List.mem_singleton.mp hmem]
    exact hconsume
  rwa [List.flatMap_singleton, List.flatMap_singleton] at hall

end ReadCodec

/-! ## Readers that treat documents as units -/

namespace Reader.Unitwise

theorem map {reader : Reader Token α} (hunit : reader.Unitwise) (f : α → β) :
    (reader.map f).Unitwise where
  resets := hunit.resets.map f
  returns document values next hconsume := by
    obtain ⟨given, hreader, -⟩ := exists_of_consume_map hconsume
    exact hunit.returns document given next hreader
  settles := by
    rcases hunit.settles with hsilent | hsettled
    · exact .inl (hsilent.map f)
    · right
      intro document values next hconsume
      obtain ⟨given, hreader, -⟩ := exists_of_consume_map hconsume
      have hrun := congrArg Prod.fst (run_map reader f reader.start document.tokens)
      have hholding := (congrArg (Decoder.holdingAfter true) hrun).trans
        (Decoder.holdingAfter_map f true _)
      exact hholding.trans (hsettled hreader)

/-- A scalar passes over a structure and takes one token of anything else. -/
theorem scalar (expected : String) (parse : Token → Option α) :
    (scalarReader expected parse).Unitwise where
  resets := resets_scalarReader expected parse
  returns document values next hconsume := by
    rcases document.tokens_cases with ⟨token, htokens, hscalar, -⟩ | ⟨_, _, _, -, -, -, -, hstructure⟩
    · rw [htokens] at hconsume
      have hstay : ((scalarReader expected parse).feed (0 : Nat) token).2 = (0 : Nat) := by
        have hflat := Token.nesting_of_isScalar hscalar
        by_cases hnull : token = .null
        · subst hnull
          rfl
        · cases hparse : parse token <;> simp [scalarReader, hflat, hnull, hparse]
      rw [← run_of_consume hconsume]
      exact hstay
    · rw [consume_scalarReader_structure expected parse hstructure] at hconsume
      cases hconsume
      rfl
  settles := .inl fun _ => rfl

/-- An object that is read without a failure was concluded by its assembly. -/
theorem conclude_of_object {assembly : Assembly Token β} {state : assembly.State}
    {document : Document} {values : List β} {next : (objectReader assembly).State}
    (hconsume : (objectReader assembly).consume (state, 0) document.tokens =
      .ok (values, next)) :
    ∃ members reached, document = .object members ∧ next = (reached, 0) ∧
      assembly.interior.conclude state (memberTokens members) = .ok (values, reached) := by
  by_cases hobject : ∃ members, document = .object members
  · obtain ⟨members, rfl⟩ := hobject
    rw [consume_objectReader_from] at hconsume
    obtain ⟨read, hconclude, hread⟩ := Except.exists_of_map hconsume
    cases hread
    exact ⟨members, read.2, rfl, rfl, hconclude⟩
  · obtain ⟨failure, hfailed⟩ :=
      consume_objectReader_of_not_object (fun members heq => hobject ⟨members, heq⟩) state
    rw [hfailed] at hconsume
    cases hconsume

/-- An object reader that is at rest gets through a document with a value, and is
at rest behind it, whatever its parts and conditions are. -/
theorem rested_objectReader {parts : Parts (PartReader Token) β}
    {readers : List (Reader Token Unit)} {document : Document} {values : List β}
    {state next : (objectReader (.ofParts parts readers)).State}
    (hrested : (objectReader (.ofParts parts readers)).Rested state)
    (hconsume : (objectReader (.ofParts parts readers)).consume state document.tokens =
      .ok (values, next)) :
    (objectReader (.ofParts parts readers)).Rested next ∧ values ≠ [] := by
  obtain ⟨assembling, depth⟩ := state
  obtain ⟨hfresh, hdepth⟩ : assembling.emitted = false ∧ depth = 0 := by
    rcases hrested with hstart | ⟨before, hreset⟩
    · cases hstart
      exact ⟨rfl, rfl⟩
    · cases hreset
      exact ⟨rfl, rfl⟩
  subst hdepth
  obtain ⟨members, reached, -, rfl, hconclude⟩ := conclude_of_object hconsume
  obtain ⟨_, middle, _, -, hrelease, -⟩ := exists_of_conclude hconclude
  refine ⟨.inr ⟨(middle, 0), ?_⟩, Assembly.ne_nil_of_conclude hfresh hconclude⟩
  -- The closing brace resets the assembly, whatever it says.
  rw [← reset_of_release hrelease]
  exact congrArg (·, 0) (Assembly.complete_snd parts readers middle)

/-- The closing brace leads back to the start. -/
theorem object {assembly : Assembly Token β} (hassembly : assembly.Resets) :
    (objectReader assembly).Unitwise where
  resets := resets_objectReader hassembly
  returns document values next hconsume := by
    obtain ⟨members, reached, -, rfl, hconclude⟩ := conclude_of_object hconsume
    obtain ⟨_, middle, _, -, hrelease, -⟩ := exists_of_conclude hconclude
    rw [← reset_of_release hrelease]
    exact congrArg (·, 0) (hassembly.complete_eq middle)
  settles := .inl fun _ => rfl

/-- An array that is read without a failure was concluded by its inner reader. -/
theorem conclude_of_array {inner : Reader Token α} {document : Document} {values : List α}
    {next : (arrayReader inner).State}
    (hconsume : (arrayReader inner).consume (arrayReader inner).start document.tokens =
      .ok (values, next)) :
    ∃ elements reached, document = .array elements ∧ next = ⟨reached, 0, 0⟩ ∧
      inner.conclude inner.start (elementTokens elements) = .ok (values, reached) := by
  by_cases harray : ∃ elements, document = .array elements
  · obtain ⟨elements, rfl⟩ := harray
    rcases hinner : inner.conclude inner.start (elementTokens elements) with
      failure | ⟨given, reached⟩
    · obtain ⟨failed, hfailed⟩ := consume_arrayReader_of_error hinner
      rw [hfailed] at hconsume
      cases hconsume
    · rw [consume_arrayReader_of_ok hinner] at hconsume
      cases hconsume
      exact ⟨elements, reached, rfl, rfl, hinner⟩
  · obtain ⟨failure, hfailed⟩ : ∃ failure, (arrayReader inner).consume
        (arrayReader inner).start document.tokens = .error failure :=
      consume_arrayReader_of_not_array fun elements heq => harray ⟨elements, heq⟩
    rw [hfailed] at hconsume
    cases hconsume

/-- The closing bracket leads back to the start, if it decides the value of the
array. -/
theorem array {inner : Reader Token α} (hinner : inner.Resets)
    (hdecides : ∀ state, (inner.reset state).1.isPending = false) :
    (arrayReader inner).Unitwise where
  resets := resets_arrayReader hinner
  returns document values next hconsume := by
    obtain ⟨elements, reached, -, rfl, hconclude⟩ := conclude_of_array hconsume
    obtain ⟨_, middle, _, -, hrelease, -⟩ := exists_of_conclude hconclude
    rw [← reset_of_release hrelease, hinner middle]
    rfl
  settles := by
    -- The last token of the document is the bracket that decides.
    right
    intro document values next hconsume
    obtain ⟨elements, reached, rfl, -, hconclude⟩ := conclude_of_array hconsume
    obtain ⟨_, middle, _, helements, -, -⟩ := exists_of_conclude hconclude
    obtain ⟨index, hfront⟩ := consume_arrayReader_elements helements 0
    rw [tokens]
    exact (Decoder.holdingAfter_run_concat hfront true .endArray).trans (hdecides middle)

end Reader.Unitwise

end TokenCodec
