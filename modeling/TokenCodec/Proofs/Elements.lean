import TokenCodec.Proofs.Documents
import TokenCodec.Proofs.Readable
import TokenCodec.Proofs.Streams

/-!
# Elements one by one and together

An array codec gives each value of its inner codec as soon as it is complete.
Over a collecting codec it holds them back and gives one list at the closing
bracket.  Both hand the same tokens to the same inner reader, so they meet the
same values and the same failure.  They part at the closing bracket, where the
inner reader is reset: a collecting reader drops what is said there, and an
array passes it on.  Reading one by one and reading together agree over every
inner reader that says nothing when it is reset.
-/

namespace TokenCodec

variable {τ α β : Type}

namespace Outcome

/-- Hold a produced value back. -/
def withhold : Outcome α → Outcome β
  | failed failure => failed failure
  | _ => pending

theorem within_withhold (segment : String) (outcome : Outcome α) :
    (outcome.withhold : Outcome β).within segment = (outcome.within segment).withhold := by
  cases outcome <;> rfl

theorem value?_within (segment : String) (outcome : Outcome α) :
    (outcome.within segment).value? = outcome.value? := by
  cases outcome <;> rfl

/-- Where values are held back only a failure decides. -/
theorem findSome?_withhold (outcomes : List (Outcome α)) :
    (outcomes.map (withhold (β := β))).findSome? toExcept? =
      (outcomes.findSome? failure?).map .error := by
  induction outcomes with
  | nil => rfl
  | cons outcome outcomes ih =>
      rw [List.map_cons, List.findSome?_cons, List.findSome?_cons, ih]
      cases outcome <;> rfl

end Outcome

namespace Reader

/-- No reset says anything. -/
def Mute (reader : Reader τ α) : Prop :=
  ∀ state, (reader.reset state).1 = .pending

theorem Mute.refine {reader : Reader τ α} (hmute : reader.Mute) (check : α → Outcome β) :
    (reader.refine check).Mute := by
  intro state
  exact congrArg (Outcome.refine check) (hmute state)

theorem Mute.map {reader : Reader τ α} (hmute : reader.Mute) (f : α → β) :
    (reader.map f).Mute :=
  hmute.refine _

/-- What a reader says when the array around it ends: at the closing bracket,
or else at the end of the input. -/
def parting (reader : Reader τ α) (state : reader.State) : Except Failure (List α) :=
  match reader.reset state with
  | (.produced value, _) => .ok [value]
  | (.pending, next) => .ok (reader.reset next).1.value?.toList
  | (.failed failure, _) => .error failure

theorem Mute.parting_eq {reader : Reader τ α} (hmute : reader.Mute) (state : reader.State) :
    reader.parting state = .ok [] := by
  have hclosing : reader.reset state = (.pending, (reader.reset state).2) :=
    Prod.ext (hmute state) rfl
  rw [parting, hclosing]
  exact congrArg (fun outcome => Except.ok outcome.value?.toList) (hmute _)

theorem feed_collect (reader : Reader τ α) (state : reader.State) (store : List α)
    (token : τ) :
    reader.collect.feed (state, store) token =
      ((reader.feed state token).1.withhold,
        ((reader.feed state token).2, (reader.feed state token).1.value?.toList ++ store)) := by
  rcases hfeed : reader.feed state token with ⟨value | _ | failure, next⟩ <;>
    simp [collect, map, Reader.refine, gather, hfeed, Outcome.withhold, Outcome.value?]

end Reader

namespace Json

open Alphabet Document

theorem mute_scalarReader (expected : String) (parse : Token → Option α) :
    (scalarReader expected parse).Mute :=
  fun _ => rfl

theorem mute_objectReader (assembly : Assembly Token β) : (objectReader assembly).Mute :=
  fun _ => rfl

/-- An array says what its elements say. -/
theorem mute_arrayReader {inner : Reader Token α} (hinner : inner.Mute) :
    (arrayReader inner).Mute :=
  fun state => hinner state.inner

/-- The codecs that gather nothing: scalars, objects, and arrays of such. -/
inductive Single : {α : Type} → ReadCodec Token α → Prop where
  | scalar {α : Type} (scalar : Scalar α) : Single scalar.codec.toReadCodec
  | object {β : Type} (parts : Parts (ReadCodec Token) β) (conditions : List (Condition Token)) :
      Single (.object parts conditions)
  | array {α : Type} {codec : ReadCodec Token α} (hcodec : Single codec) : Single codec.array
  | map {α β : Type} {codec : ReadCodec Token α} (hcodec : Single codec) (f : α → β) :
      Single (codec.map f)
  | matching {α : Type} {codec : ReadCodec Token String} (hcodec : Single codec)
      (expression : Regex.Expression) (f : Captures → α) :
      Single (codec.matching expression f)

theorem Single.mute {codec : ReadCodec Token α} (hsingle : Single codec) :
    codec.reader.Mute := by
  induction hsingle with
  | scalar scalar => exact mute_scalarReader _ _
  | object parts conditions => exact mute_objectReader _
  | array _ ih => exact mute_arrayReader ih
  | map _ f ih => exact ih.map f
  | matching _ expression f ih => exact ih.refine _

variable (inner : Reader Token α)

/-- Between the brackets an array hands every token to its inner reader. -/
theorem run_arrayReader_inside {depth : Nat} (hdepth : depth ≠ 0) {tokens : List Token}
    (hopen : StaysOpen depth tokens) (state : inner.State) (index : Nat) :
    ∃ reached, ((arrayReader inner).run ⟨state, depth, index⟩ tokens).2 =
      ⟨(inner.run state tokens).2, trackAll depth tokens, reached⟩ := by
  induction tokens generalizing depth state index with
  | nil => exact ⟨index, rfl⟩
  | cons token tokens ih =>
      obtain ⟨hstep, hrest⟩ := hopen
      have hfeed := feed_arrayReader_inside hdepth hstep
        (rfl : inner.feed state token = (_, _)) index
      rw [Reader.run_cons_of_feed _ hfeed]
      exact ih hstep hrest _ _

/-- The state of an array over a collecting reader, with the values that it
holds back. -/
def ArrayState.keeping {σ : Type} (state : ArrayState σ) (store : List α) :
    ArrayState (σ × List α) :=
  ⟨(state.inner, store), state.depth, state.index⟩

/-- Between the brackets an array over a collecting reader takes the step of the
array over the reader itself, and keeps the value. -/
theorem feed_arrayReader_collect {state : (arrayReader inner).State}
    (hdepth : state.depth ≠ 0) {token : Token} (hopen : track state.depth token ≠ 0)
    (store : List α) :
    (arrayReader inner.collect).feed (state.keeping store) token =
      (((arrayReader inner).feed state token).1.withhold,
        ((arrayReader inner).feed state token).2.keeping
          (((arrayReader inner).feed state token).1.value?.toList ++ store)) := by
  have hsingle := feed_arrayReader_inside hdepth hopen
    (rfl : inner.feed state.inner token = (_, _)) state.index
  have htogether := feed_arrayReader_inside hdepth hopen
    (inner.feed_collect state.inner store token) state.index
  rw [Outcome.within_withhold] at htogether
  rw [← Outcome.value?_within (indexSegment state.index)] at htogether
  change (arrayReader inner).feed state token = _ at hsingle
  rw [hsingle]
  exact htogether

theorem run_arrayReader_collect {tokens : List Token} (state : (arrayReader inner).State)
    (hdepth : state.depth ≠ 0) (hopen : StaysOpen state.depth tokens) (store : List α) :
    (arrayReader inner.collect).run (state.keeping store) tokens =
      (((arrayReader inner).run state tokens).1.map Outcome.withhold,
        ((arrayReader inner).run state tokens).2.keeping
          ((((arrayReader inner).run state tokens).1.filterMap Outcome.value?).reverse ++
            store)) := by
  induction tokens generalizing state store with
  | nil => rfl
  | cons token tokens ih =>
      obtain ⟨hstep, hrest⟩ := hopen
      have hfeed := feed_arrayReader_inside hdepth hstep
        (rfl : inner.feed state.inner token = (_, _)) state.index
      have hdepth' : ((arrayReader inner).feed state token).2.depth = track state.depth token :=
        congrArg (fun answer => answer.2.depth) hfeed
      have htogether := feed_arrayReader_collect inner hdepth hstep store
      rw [Reader.run_cons_of_feed _ htogether, Reader.run_cons, ih _ (hdepth' ▸ hstep)
        (hdepth' ▸ hrest), List.filterMap_cons]
      cases ((arrayReader inner).feed state token).1.value? with
      | none => rfl
      | some value =>
          rw [List.reverse_cons, List.append_assoc]
          rfl

end Json

namespace ReadCodec

open Alphabet Json Json.Document

variable (codec : ReadCodec Token α) (elements : List Document)

/-- An array with its elements read up to the closing bracket. -/
theorem run_array_open :
    ∃ index, (codec.array.reader.run codec.array.reader.start
      (.startArray :: elementTokens elements)).2 =
        ⟨(codec.reader.run codec.reader.start (elementTokens elements)).2, 1, index⟩ := by
  have hnested := nested_elementTokens elements
  obtain ⟨index, hinside⟩ := run_arrayReader_inside codec.reader Nat.one_ne_zero
    (hnested.staysOpen 0) codec.reader.start 0
  rw [hnested.trackAll] at hinside
  exact ⟨index, hinside⟩

/-- Reading the elements together gives the values that the array gives before
its closing bracket, or the failure it meets there. -/
theorem readOne_collect_array :
    codec.collect.array.readOne (Document.array elements).tokens =
      (codec.array.reader.consume codec.array.reader.start
        (.startArray :: elementTokens elements)).map Prod.fst := by
  have hopen := (nested_elementTokens elements).staysOpen 0
  have hinside := run_arrayReader_collect codec.reader ⟨codec.reader.start, 1, 0⟩
    Nat.one_ne_zero hopen []
  have hrun : codec.collect.array.reader.run codec.collect.array.reader.start
      (.startArray :: elementTokens elements) =
        ((codec.array.reader.run codec.array.reader.start
            (.startArray :: elementTokens elements)).1.map Outcome.withhold,
          (codec.array.reader.run codec.array.reader.start
              (.startArray :: elementTokens elements)).2.keeping
            ((codec.array.reader.run codec.array.reader.start
              (.startArray :: elementTokens elements)).1.filterMap Outcome.value?).reverse) := by
    rw [← List.append_nil (List.reverse _)]
    exact congrArg (fun read => (Outcome.pending :: read.1, read.2)) hinside
  obtain ⟨index, hreached⟩ := codec.run_array_open elements
  apply readOne_of_decided
  rw [tokens, Reader.run_append, hrun, List.findSome?_append, Outcome.findSome?_withhold,
    Reader.consume_eq_run, hreached]
  cases (codec.array.reader.run codec.array.reader.start
    (.startArray :: elementTokens elements)).1.findSome? Outcome.failure? with
  | some failure => rfl
  | none => exact congrArg (fun values => some (Except.ok values)) (List.reverse_reverse _)

/-- Reading the elements one by one gives the same values, and then what the
inner reader says when the array ends. -/
theorem readAll_array :
    codec.array.readAll (Document.array elements).tokens =
      (codec.collect.array.readOne (Document.array elements).tokens).bind fun values =>
        (codec.reader.parting
          (codec.reader.run codec.reader.start (elementTokens elements)).2).map (values ++ ·) := by
  have hclosed := (Document.array elements).nested_tokens.trackAll 0
  rw [readOne_collect_array, tokens]
  rw [tokens] at hclosed
  obtain ⟨index, hreached⟩ := codec.run_array_open elements
  rcases hopen : codec.array.reader.consume codec.array.reader.start
    (.startArray :: elementTokens elements) with failure | ⟨values, reached⟩
  · exact readAll_of_error (Reader.consume_append_of_error hopen [.endArray])
  have hrun := Reader.run_of_consume hopen
  obtain rfl := hrun.symm.trans hreached
  generalize (codec.reader.run codec.reader.start (elementTokens elements)).2 = state at *
  have hclosing : codec.array.reader.consume ⟨state, 1, index⟩ [.endArray] =
      (codec.reader.release state).map fun read => (read.1, ⟨read.2, 0, 0⟩) :=
    consume_arrayReader_closing state index
  have hlast : Decoder.holdingAfter false (codec.array.reader.run codec.array.reader.start
      (.startArray :: elementTokens elements ++ [.endArray])).1 =
        (codec.reader.reset state).1.isPending :=
    Decoder.holdingAfter_run_concat hopen false .endArray
  change codec.array.readAll _ = (codec.reader.parting state).map (values ++ ·)
  rcases hreset : codec.reader.reset state with ⟨value | _ | failure, next⟩
  · rw [Reader.release_of_produced _ hreset] at hclosing
    rw [readAll_of_consume (Reader.consume_append_ok hopen hclosing) hclosed, hlast, hreset,
      Reader.parting, hreset]
    exact congrArg Except.ok (List.append_nil _)
  · rw [Reader.release_of_pending _ hreset] at hclosing
    rw [readAll_of_consume (Reader.consume_append_ok hopen hclosing) hclosed, hlast, hreset,
      Reader.parting, hreset, List.append_nil]
    rfl
  · rw [Reader.release_of_failed _ hreset] at hclosing
    have hfailed : codec.array.reader.consume codec.array.reader.start
        (.startArray :: elementTokens elements ++ [.endArray]) = .error failure := by
      rw [Reader.consume_append_of_ok hopen, hclosing]
      rfl
    rw [readAll_of_error hfailed, Reader.parting, hreset]
    rfl

/-- Over an inner reader that says nothing when it is reset, reading the
elements one by one and reading them together agree on values and failures.  The
closing bracket adds nothing. -/
theorem readAll_array_eq_readOne (hmute : codec.reader.Mute) :
    codec.array.readAll (Document.array elements).tokens =
        codec.collect.array.readOne (Document.array elements).tokens ∧
      (codec.array.reader.run codec.array.reader.start
        (Document.array elements).tokens).1.getLast? = some .pending := by
  constructor
  · rw [readAll_array, hmute.parting_eq]
    rcases codec.collect.array.readOne (Document.array elements).tokens with failure | values
    · rfl
    · exact congrArg Except.ok (List.append_nil values)
  · obtain ⟨index, hopen⟩ := codec.run_array_open elements
    rw [tokens, Reader.run_append, hopen]
    change (_ ++ [(codec.reader.reset _).1]).getLast? = _
    rw [List.getLast?_concat, hmute]

/-- Arrays of objects, read one by one. -/
theorem readAll_array_eq_readOne_notes :
    let tokens := (Document.array [
      .array [.object [("ns", .array [.number "1", .number "2"]), ("ok", .bool true)]],
      .array [],
      .array [.object [("note", .string "a"), ("ok", .bool true)]]]).tokens
    noteCodec.array.array.readAll tokens = .ok [([1, 2], none, ()), ([], some "a", ())] :=
  have hmute := (Single.array (.object _ _)).mute
  have hagree := noteCodec.array.readAll_array_eq_readOne [
    .array [.object [("ns", .array [.number "1", .number "2"]), ("ok", .bool true)]],
    .array [],
    .array [.object [("note", .string "a"), ("ok", .bool true)]]] hmute
  hagree.1.trans rfl

/-- A list among the elements is reset twice, at its own closing bracket and at
that of the array around it, and the second time it is given as an empty list. -/
theorem readAll_array_ne_readOne :
    let codec := Scalar.integer.codec.toReadCodec.collect.array
    let tokens := (Document.array [.array [.number "1"]]).tokens
    codec.array.readAll tokens = .ok [[1], []] ∧
      codec.collect.array.readOne tokens = .ok [[1]] :=
  ⟨rfl, rfl⟩

end ReadCodec

end TokenCodec
