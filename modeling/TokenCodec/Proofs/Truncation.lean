import TokenCodec.Proofs.Xml.Spreading

/-!
# Input that was cut off

A decoder counts the open structures of its stream by itself, at every token and
whatever its reader makes of it: a value, nothing, a failure, or tokens that are
passed over behind a failure.  The count is zero between documents, and above zero
everywhere inside of one.  So the end of the input tells whether it was cut off, for
every codec of either format, and the failure that says so can come from nowhere
else.
-/

namespace TokenCodec

open Alphabet

variable {τ α : Type} [Alphabet τ]

/-- A run that breaks off inside of another one: not before its first token, and not
behind its last. -/
structure CutOff (front whole : List τ) : Prop where
  begins : front <+: whole
  begun : front ≠ []
  unfinished : front ≠ whole

/-- A unit that is cut off leaves the depth above zero. -/
theorem CutOff.trackAll_ne_zero {depth : Nat} {whole front : List τ}
    (hends : EndsUnit depth whole) (hcut : CutOff front whole) : trackAll depth front ≠ 0 := by
  induction hends generalizing front with
  | last _ =>
      rcases List.prefix_cons_iff.mp hcut.begins with hnothing | ⟨rest, hfront, hrest⟩
      · exact absurd hnothing hcut.begun
      · rw [List.prefix_nil.mp hrest] at hfront
        exact absurd hfront hcut.unfinished
  | @step depth token tokens hopen _ ih =>
      rcases List.prefix_cons_iff.mp hcut.begins with hnothing | ⟨rest, rfl, hrest⟩
      · exact absurd hnothing hcut.begun
      · rcases List.eq_nil_or_concat rest with rfl | hmore
        · exact hopen
        · refine ih ⟨hrest, ?_, fun hwhole => hcut.unfinished (congrArg (token :: ·) hwhole)⟩
          obtain ⟨init, last, rfl⟩ := hmore
          simp

theorem trackAll_append (depth : Nat) (front back : List τ) :
    trackAll depth (front ++ back) = trackAll (trackAll depth front) back :=
  List.foldl_append

/-! ## The depth of a decoder -/

namespace Decoder

variable (decoder : Decoder τ α)

/-- A decoder follows the depth of its stream, whatever comes of a token. -/
theorem depth_feed (state : decoder.State) (token : τ) :
    (decoder.feed state token).2.depth = track state.depth token := by
  cases hskipping : state.skipping with
  | true => simp [feed, hskipping]
  | false =>
      rcases houtcome : decoder.reader.feed state.reading token with ⟨value | _ | failure, next⟩
      · simp [feed, hskipping, houtcome]
      · simp [feed, hskipping, houtcome]
      · cases hfast : decoder.options.failFast <;> simp [feed, hskipping, houtcome, hfast]

theorem depth_stateBehind (state : decoder.State) (tokens : List τ) :
    (decoder.stateBehind state tokens).depth = trackAll state.depth tokens := by
  induction tokens generalizing state with
  | nil => rfl
  | cons token tokens ih =>
      rw [stateBehind_cons, ih, depth_feed]
      rfl

omit [Alphabet τ] in
/-- Whoever ends the input inside of a structure is told so. -/
theorem finish_of_open {state : decoder.State} (hopen : state.depth ≠ 0) :
    (decoder.finish state).1 = .error (.incomplete decoder.description) := by
  simp [finish, hopen]

omit [Alphabet τ] in
/-- The end of the input between documents is no failure. -/
theorem exists_released {state : decoder.State} (hclosed : state.depth = 0) :
    ∃ released, (decoder.finish state).1 = .ok released := by
  cases hflush : decoder.options.flushOnFinish && state.holding with
  | true =>
      exact ⟨(decoder.reader.reset state.reading).1.value?, by simp [finish, hclosed, hflush]⟩
  | false => exact ⟨none, by simp [finish, hclosed, hflush]⟩

/-- A decoder that stops at failures comes to no good end with input that is cut off:
it meets a failure before, or it is told at the end. -/
theorem exists_failure_of_open {state : decoder.State} {tokens : List τ}
    (hopen : (decoder.stateBehind state tokens).depth ≠ 0) :
    ∃ failure, values (decoder.itemsFrom state tokens) = .error failure := by
  induction tokens generalizing state with
  | nil =>
      change state.depth ≠ 0 at hopen
      refine ⟨.incomplete decoder.description, ?_⟩
      simp [itemsFrom, decoder.finish_of_open hopen, values]
  | cons token tokens ih =>
      obtain ⟨failure, hfailure⟩ := ih hopen
      rcases hfeed : (decoder.feed state token).1 with early | (_ | value)
      · cases hfast : decoder.options.failFast <;>
          exact ⟨early, by simp [itemsFrom, hfeed, hfast, values]⟩
      · exact ⟨failure, by simpa [itemsFrom, hfeed] using hfailure⟩
      · refine ⟨failure, ?_⟩
        simp only [itemsFrom, hfeed, values, hfailure]
        rfl

end Decoder

/-! ## Complete documents and documents that are cut off -/

namespace ReadCodec

/-- A codec tells whether the input behind complete documents was cut off in another
one. -/
structure TellsCutOff (codec : ReadCodec τ α) (complete unit : List τ) : Prop where
  /-- Input that is cut off does not pass for complete. -/
  fails : ∀ front, CutOff front unit →
    ∃ failure, codec.readAll (complete ++ front) = .error failure
  /-- A decoder that recovers has its say about all of the input, and at last it tells
  that something is missing. -/
  incomplete : ∀ front, CutOff front unit → ∀ flush,
    ((Decoder.ofCodec codec ⟨false, flush⟩).items (complete ++ front)).getLast? =
      some (.error (.incomplete codec.description))
  /-- The end of complete documents adds a value or nothing, whatever failed in them. -/
  complete : ∀ flush, let decoder := Decoder.ofCodec codec ⟨false, flush⟩
    ∃ released : Option α,
      (decoder.finish (decoder.stateBehind decoder.start complete)).1 = .ok released ∧
        decoder.items complete =
          (decoder.answers decoder.start complete).filterMap Decoder.Answer.item? ++
            released.toList.map .ok

theorem tellsCutOff (codec : ReadCodec τ α) {complete unit : List τ} (hcomplete : Nested complete)
    (hunit : EndsUnit 0 unit) : codec.TellsCutOff complete unit := by
  have hopen (options : StreamOptions) {front : List τ} (hcut : CutOff front unit) :
      let decoder := Decoder.ofCodec codec options
      (decoder.stateBehind decoder.start (complete ++ front)).depth ≠ 0 := by
    intro decoder
    rw [decoder.depth_stateBehind, trackAll_append]
    change trackAll (trackAll 0 complete) front ≠ 0
    rw [hcomplete.trackAll]
    exact hcut.trackAll_ne_zero hunit
  refine ⟨fun front hcut => ?_, fun front hcut flush => ?_, fun flush => ?_⟩
  · exact (Decoder.ofCodec codec).exists_failure_of_open (hopen {} hcut)
  · have hfinish := (Decoder.ofCodec codec ⟨false, flush⟩).finish_of_open (hopen _ hcut)
    rw [Decoder.items, Decoder.itemsFrom_of_recovers rfl, hfinish]
    exact List.getLast?_concat
  · intro decoder
    have hclosed : (decoder.stateBehind decoder.start complete).depth = 0 :=
      (decoder.depth_stateBehind _ complete).trans (hcomplete.trackAll 0)
    obtain ⟨released, hfinish⟩ := decoder.exists_released hclosed
    refine ⟨released, hfinish, ?_⟩
    rw [Decoder.items, Decoder.itemsFrom_of_recovers rfl, hfinish]
    cases released <;> rfl

end ReadCodec

/-- A node is one whole unit, with its attributes in either layout. -/
theorem Xml.Node.endsUnit_tokens (node : Xml.Node) :
    EndsUnit 0 node.tokens ∧ EndsUnit 0 node.spreadTokens := by
  cases node with
  | characters text => exact ⟨.last rfl, .last rfl⟩
  | element name attributes content =>
      rw [Xml.Node.tokens_element, Xml.Node.spreadTokens_element]
      constructor
      · exact .step Nat.one_ne_zero
          (Xml.endsUnit_inside (Xml.Node.nested_contentTokens content) name)
      · exact .step Nat.one_ne_zero
          (Xml.endsUnit_inside (Xml.Node.nested_spreadInnerTokens attributes content) name)

/-- Input that was cut off never passes for complete, and complete input never for
cut off.  It holds of every reading codec, over streams of JSON documents and over
streams of XML elements and text with their attributes in either layout. -/
theorem ReadCodec.tellsCutOff_documents :
    (∀ {α : Type} (codec : ReadCodec Json.Token α) (documents : List Json.Document)
      (last : Json.Document),
        codec.TellsCutOff (documents.flatMap Json.Document.tokens) last.tokens) ∧
    ∀ {α : Type} (codec : ReadCodec Xml.Token α) (nodes : List Xml.Node) (last : Xml.Node),
      codec.TellsCutOff (nodes.flatMap Xml.Node.tokens) last.tokens ∧
        codec.TellsCutOff (nodes.flatMap Xml.Node.spreadTokens) last.spreadTokens := by
  constructor
  · intro α codec documents last
    exact codec.tellsCutOff (.flatMap Json.Document.nested_tokens documents) last.endsUnit_tokens
  · intro α codec nodes last
    constructor
    · exact codec.tellsCutOff (.flatMap Xml.Node.nested_tokens nodes) last.endsUnit_tokens.1
    · exact codec.tellsCutOff (.flatMap Xml.Node.nested_spreadTokens nodes)
        last.endsUnit_tokens.2

/-- Input that is cut off inside of a member that nobody reads, behind a member that
failed, and markup that is cut off between the attributes of an element. -/
theorem ReadCodec.tellsCutOff_documents_nested :
    let numbers : ReadCodec Json.Token (Int32 × Unit) :=
      .object (.one (Json.Scalar.integer.codec.toReadCodec.member "n"))
    let complete := [Json.Document.object [("n", .number "1")]].flatMap Json.Document.tokens
    let last := Json.Document.object [("n", .bool true), ("x", .array [.object [("y", .null)]])]
    let front := last.tokens.take 7
    let paragraphs : ReadCodec Xml.Token (String × Unit) :=
      .element (.plain "p") (.one Xml.text.toReadCodec)
    let markup := Xml.Node.element (.plain "d") [] [.element (.plain "p")
      [⟨.plain "a", "1"⟩, ⟨.plain "b", "2"⟩] [.characters "c"]]
    let opened := markup.spreadTokens.take 3
    ((∃ failure, numbers.readAll (complete ++ front) = .error failure) ∧
      ((Decoder.ofCodec numbers ⟨false, true⟩).items (complete ++ front)).getLast? =
        some (.error (.incomplete numbers.description)) ∧
      (Decoder.ofCodec numbers ⟨false, true⟩).items (complete ++ front) =
        [.ok (1, ()), .error (.located ["n"] (.unexpected "(integer)" "true")),
          .error (.incomplete numbers.description)]) ∧
    (∃ failure, paragraphs.readAll opened = .error failure) ∧
      ((Decoder.ofCodec paragraphs ⟨false, true⟩).items opened).getLast? =
        some (.error (.incomplete paragraphs.description)) := by
  intro numbers complete last front paragraphs markup opened
  have hfront : CutOff front last.tokens :=
    ⟨List.take_prefix 7 last.tokens, by decide, by decide⟩
  have hopened : CutOff opened markup.spreadTokens :=
    ⟨List.take_prefix 3 markup.spreadTokens, by decide, by decide⟩
  have hjson := ReadCodec.tellsCutOff_documents.1 numbers [.object [("n", .number "1")]] last
  have hxml := (ReadCodec.tellsCutOff_documents.2 paragraphs [] markup).2
  exact ⟨⟨hjson.fails front hfront, hjson.incomplete front hfront true, rfl⟩,
    hxml.fails opened hopened, hxml.incomplete opened hopened true⟩

end TokenCodec
