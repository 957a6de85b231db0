import TokenCodec.Proofs.Truncation
import TokenCodec.Proofs.Units

/-!
# Finishing behind complete documents

At the end of the input a decoder resets its reader, and takes what that releases
for a value, if tokens came after the last value.  Behind complete documents there
should be nothing left to release.  Behind an object there never is.  An array leaves
the last word to the reader of its elements, which is reset at the closing bracket:
either it decides there, and then the bracket gives the last value itself, or it is
silent, and then it is silent at the next reset as well.

Optional elements of the outermost array are the exception.  Behind a value they are
silent at the closing bracket, at the next reset they stand for absence, and the
decoder cannot tell that no array was begun in between.
-/

namespace TokenCodec

open Alphabet Json Json.Document

variable {τ α β κ : Type}

/-! ## Readers without a second word -/

namespace Reader

/-- What a run gives behind a check was read before it. -/
theorem exists_of_consume_refine {reader : Reader τ α} {check : α → Outcome β}
    {state next : reader.State} {tokens : List τ} {values : List β}
    (hconsume : (reader.refine check).consume state tokens = .ok (values, next)) :
    ∃ given, reader.consume state tokens = .ok (given, next) := by
  induction tokens generalizing state values with
  | nil =>
      cases hconsume
      exact ⟨[], rfl⟩
  | cons token tokens ih =>
      rcases hfeed : reader.feed state token with ⟨value | _ | failure, middle⟩
      · have hchecked : (reader.refine check).feed state token = (check value, middle) := by
          simp [refine, hfeed]
        rcases hcheck : check value with passed | _ | failure <;> rw [hcheck] at hchecked
        · rw [consume_cons_of_produced _ hchecked] at hconsume
          obtain ⟨read, hrest, hread⟩ := Except.exists_of_map hconsume
          cases hread
          obtain ⟨given, hgiven⟩ := ih hrest
          exact ⟨value :: given, by rw [consume_cons_of_produced _ hfeed, hgiven]; rfl⟩
        · rw [consume_cons_of_pending _ hchecked] at hconsume
          obtain ⟨given, hgiven⟩ := ih hconsume
          exact ⟨value :: given, by rw [consume_cons_of_produced _ hfeed, hgiven]; rfl⟩
        · cases (consume_cons_of_failed _ hchecked tokens).symm.trans hconsume
      · have hchecked : (reader.refine check).feed state token = (.pending, middle) := by
          simp [refine, hfeed]
        rw [consume_cons_of_pending _ hchecked] at hconsume
        obtain ⟨given, hgiven⟩ := ih hconsume
        exact ⟨given, by rw [consume_cons_of_pending _ hfeed, hgiven]⟩
      · have hchecked : (reader.refine check).feed state token = (.failed failure, middle) := by
          simp [refine, hfeed]
        cases (consume_cons_of_failed _ hchecked tokens).symm.trans hconsume

/-- Between its units, and behind every reset, a reader is in a state where a reset
that is silent leaves nothing for another one to release. -/
structure Drains (reader : Reader τ α) (units : List τ → Prop)
    (between : reader.State → Prop) : Prop where
  start : between reader.start
  reset : ∀ state, between (reader.reset state).2
  unit : ∀ {state next : reader.State} {tokens : List τ} {values : List α}, between state →
    units tokens → reader.consume state tokens = .ok (values, next) → between next
  drained : ∀ {state : reader.State}, between state →
    (reader.reset state).1.isPending = true →
      (reader.reset (reader.reset state).2).1.isProduced = false

namespace Drains

variable {reader : Reader τ α} {units : List τ → Prop} {between : reader.State → Prop}

theorem restrict (hreader : reader.Drains units between) {some : List τ → Prop}
    (hsome : ∀ tokens, some tokens → units tokens) : reader.Drains some between :=
  ⟨hreader.start, hreader.reset, fun hbetween hunit => hreader.unit hbetween (hsome _ hunit),
    hreader.drained⟩

/-- A reader that never releases a value has no second word. -/
theorem of_silent (hsilent : reader.Silent) : reader.Drains units fun _ => True :=
  ⟨trivial, fun _ => trivial, fun _ _ _ => trivial, fun _ _ => hsilent _⟩

/-- A reader that decides at every reset is not silent at the first one. -/
theorem of_decides (hdecides : ∀ state, (reader.reset state).1.isPending = false) :
    reader.Drains units fun _ => True := by
  refine ⟨trivial, fun _ => trivial, fun _ _ _ => trivial, fun {state} _ hpending => ?_⟩
  rw [hdecides state] at hpending
  cases hpending

/-- A check that decides on every value is silent where there is none. -/
theorem refine (hreader : reader.Drains units between) {check : α → Outcome β}
    (hcheck : ∀ value, (check value).isPending = false) :
    (reader.refine check).Drains units between where
  start := hreader.start
  reset := hreader.reset
  unit hbetween hunit hconsume := by
    obtain ⟨given, hgiven⟩ := exists_of_consume_refine hconsume
    exact hreader.unit hbetween hunit hgiven
  drained {state} hbetween hpending := by
    change ((reader.reset state).1.refine check).isPending = true at hpending
    have hsilent : (reader.reset state).1.isPending = true := by
      rcases hreset : (reader.reset state).1 with value | _ | failure
      · rw [hreset, Outcome.refine_produced, hcheck] at hpending
        cases hpending
      · rfl
      · rw [hreset] at hpending
        cases hpending
    have hnothing := hreader.drained hbetween hsilent
    change ((reader.reset (reader.reset state).2).1.refine check).isProduced = false
    rcases hreset : (reader.reset (reader.reset state).2).1 with value | _ | failure
    · rw [hreset] at hnothing
      cases hnothing
    · rfl
    · rfl

/-- Absence is decided at a reset in front of a unit.  Behind a value it is not, so
that optional values have units with a second word. -/
theorem optional (reader : Reader τ α) :
    reader.optional.Drains (fun _ => False) fun state => state.2 = false := by
  refine ⟨rfl, fun _ => rfl, fun _ hunit => hunit.elim, fun {state} hbetween hpending => ?_⟩
  obtain ⟨inner, present⟩ := state
  subst hbetween
  cases hpending

end Drains

theorem isPending_reset_fixed [BEq α] [Shown α] (reader : Reader τ α) (value : α)
    (description : String) (state : (reader.fixed value description).State) :
    ((reader.fixed value description).reset state).1.isPending = false := by
  obtain ⟨inner, matched⟩ := state
  rcases hreset : reader.reset inner with ⟨found | _ | failure, next⟩ <;> cases matched <;>
    simp only [fixed, hreset, Bool.false_eq_true, if_false, if_true]
  · -- The one case that looks at a value: the reset releases it without a match before.
    simp only [compareFixed]
    split <;> rfl
  all_goals rfl

end Reader

theorem Regex.Expression.isPending_check (expression : Regex.Expression) (f : Captures → α)
    (text : String) : ((expression.check text).map f).isPending = false := by
  unfold Regex.Expression.check
  split <;> rfl

namespace Json

/-- The run is a document. -/
def IsDocument (tokens : List Token) : Prop := ∃ document : Document, document.tokens = tokens

/-- Members stand in objects, so the documents of an array hold none at the depth where
a member reader looks for its name, and it never finds one. -/
theorem drains_memberReader (name : String) (inner : Reader Token α) :
    (memberReader name inner).Drains IsDocument
      fun state => state.place = .between 0 ∧ state.found = false := by
  refine ⟨⟨rfl, rfl⟩, fun _ => ⟨rfl, rfl⟩, ?_, ?_⟩
  · rintro ⟨state, _, _⟩ next tokens values ⟨rfl, rfl⟩ ⟨document, rfl⟩ hconsume
    rw [consume_memberReader_between] at hconsume
    cases hconsume
    exact ⟨rfl, rfl⟩
  · rintro ⟨state, _, _⟩ ⟨rfl, rfl⟩ hpending
    rcases hreset : inner.reset state with ⟨value | _ | failure, next⟩ <;>
      simp [memberReader, hreset, Outcome.isPending] at hpending

/-- An array that is read without a failure, from between two units: its elements go to
the inner reader, whose reset answers the closing bracket. -/
theorem exists_of_consume_arrayReader {inner : Reader Token α} {state : inner.State}
    {index : Nat} {document : Document} {values : List α} {next : (arrayReader inner).State}
    (hconsume : (arrayReader inner).consume ⟨state, 0, index⟩ document.tokens =
      .ok (values, next)) :
    ∃ (elements : List Document) (given : List α) (middle : inner.State),
      inner.consume state (elements.flatMap tokens) = .ok (given, middle) ∧
        next = ⟨(inner.reset middle).2, 0, 0⟩ ∧
          Decoder.holdingAfter true
            ((arrayReader inner).run ⟨state, 0, index⟩ document.tokens).1 =
              (inner.reset middle).1.isPending := by
  cases document with
  | array elements =>
      rw [Document.tokens] at hconsume ⊢
      rcases hinner : inner.consume state (elementTokens elements) with
        failure | ⟨given, middle⟩
      · obtain ⟨failed, hfront⟩ := consume_arrayReader_elements_of_error hinner index
        cases (Reader.consume_append_of_error hfront [.endArray]).symm.trans hconsume
      · obtain ⟨reached, hfront⟩ := consume_arrayReader_elements hinner index
        rw [Reader.consume_append_of_ok hfront, consume_arrayReader_closing] at hconsume
        obtain ⟨read, hclosing, hread⟩ := Except.exists_of_map hconsume
        obtain ⟨released, hrelease, rfl⟩ := Except.exists_of_map hclosing
        cases hread
        refine ⟨elements, given, middle, ?_, ?_, ?_⟩
        · rwa [← elementTokens_eq_flatMap]
        · rw [Reader.reset_of_release hrelease]
        · exact Decoder.holdingAfter_run_concat hfront true .endArray
  | object members =>
      rw [Document.tokens] at hconsume
      cases hconsume
  | _ => cases hconsume

theorem between_of_consume_documents {reader : Reader Token α} {between : reader.State → Prop}
    (hreader : reader.Drains IsDocument between) {state next : reader.State}
    {documents : List Document} {values : List α} (hbetween : between state)
    (hconsume : reader.consume state (documents.flatMap tokens) = .ok (values, next)) :
    between next := by
  induction documents generalizing state values with
  | nil =>
      cases hconsume
      exact hbetween
  | cons document documents ih =>
      rw [List.flatMap_cons] at hconsume
      obtain ⟨given, middle, more, hfirst, hrest, -⟩ := Reader.exists_of_consume_append hconsume
      exact ih (hreader.unit hbetween ⟨document, rfl⟩ hfirst) hrest

/-- Behind the closing bracket the inner reader was reset, whatever it read. -/
theorem drains_arrayReader {inner : Reader Token α} {between : inner.State → Prop}
    (hinner : inner.Drains (fun _ => False) between) :
    (arrayReader inner).Drains IsDocument fun state => state.depth = 0 ∧ between state.inner := by
  refine ⟨⟨rfl, hinner.start⟩, fun state => ⟨rfl, hinner.reset state.inner⟩, ?_,
    fun hbetween hpending => hinner.drained hbetween.2 hpending⟩
  rintro ⟨state, depth, index⟩ next tokens values ⟨rfl, hbetween⟩ ⟨document, rfl⟩ hconsume
  obtain ⟨elements, given, middle, -, rfl, -⟩ := exists_of_consume_arrayReader hconsume
  exact ⟨rfl, hinner.reset middle⟩

/-! ## Elements of arrays -/

/-- The codecs of the elements of an array.  They are sparse if their values are made
of optional ones. -/
inductive Element : Bool → {α : Type} → ReadCodec Token α → Prop where
  | scalar {α : Type} (scalar : Scalar α) : Element false scalar.codec.toReadCodec
  | member {α : Type} (name : String) (codec : ReadCodec Token α) :
      Element false (codec.member name)
  | anyMember {α : Type} (codec : ReadCodec Token α) : Element false codec.anyMember
  | array {α : Type} {sparse : Bool} {codec : ReadCodec Token α}
      (hcodec : Element sparse codec) : Element false codec.array
  | object {β : Type} (parts : Parts (ReadCodec Token) β) (conditions : List (Condition Token)) :
      Element false (.object parts conditions)
  | collect {α : Type} (codec : ReadCodec Token α) : Element false codec.collect
  | entries {α κ : Type} [BEq κ] (codec : ReadCodec Token (κ × α)) : Element false codec.entries
  | fold {α β : Type} (codec : ReadCodec Token α) (initial : β) (combine : β → α → β) :
      Element false (codec.fold initial combine)
  | optional {α : Type} (codec : ReadCodec Token α) : Element true codec.optional
  | map {α β : Type} {sparse : Bool} {codec : ReadCodec Token α}
      (hcodec : Element sparse codec) (f : α → β) : Element sparse (codec.map f)
  | matching {α : Type} {sparse : Bool} {codec : ReadCodec Token String}
      (hcodec : Element sparse codec) (expression : Regex.Expression) (f : Captures → α) :
      Element sparse (codec.matching expression f)
  | fixed {α : Type} [BEq α] [Shown α] (codec : ReadCodec Token α) (value : α) :
      Element false (codec.fixed value)
  | oneOf {α : Type} (codecs : List (ReadCodec Token α)) (limit : Option Nat) :
      Element false (.oneOf codecs limit)

/-- The units between which a codec of elements has no second word: all documents, or
none if it is sparse. -/
def Element.units (sparse : Bool) (tokens : List Token) : Prop :=
  sparse = false ∧ IsDocument tokens

theorem Element.drains {sparse : Bool} {codec : ReadCodec Token α}
    (helement : Element sparse codec) :
    ∃ between, codec.reader.Drains (units sparse) between := by
  induction helement with
  | scalar scalar => exact ⟨_, .of_silent (silent_scalarReader _ _)⟩
  | member name codec =>
      exact ⟨_, (drains_memberReader name codec.reader).restrict fun _ => And.right⟩
  | anyMember codec => exact ⟨_, .of_silent fun _ => rfl⟩
  | array _ ih =>
      obtain ⟨between, hinner⟩ := ih
      have hnone : Reader.Drains _ (fun _ => False) between := hinner.restrict fun _ => False.elim
      exact ⟨_, (drains_arrayReader hnone).restrict fun _ => And.right⟩
  | object parts conditions => exact ⟨_, .of_silent fun _ => rfl⟩
  | collect codec => exact ⟨_, .of_decides fun _ => rfl⟩
  | entries codec => exact ⟨_, .of_decides fun _ => rfl⟩
  | fold codec initial combine =>
      refine ⟨_, .of_decides ?_⟩
      rintro ⟨inner, result, _ | failure⟩ <;> rfl
  | optional codec =>
      exact ⟨_, (Reader.Drains.optional codec.reader).restrict fun _ hunit => nomatch hunit.1⟩
  | map _ f ih =>
      obtain ⟨between, hinner⟩ := ih
      exact ⟨between, hinner.refine fun _ => rfl⟩
  | matching _ expression f ih =>
      obtain ⟨between, hinner⟩ := ih
      exact ⟨between, hinner.refine (expression.isPending_check f)⟩
  | fixed codec value =>
      exact ⟨_, .of_decides (Reader.isPending_reset_fixed codec.reader value _)⟩
  | oneOf codecs limit => exact ⟨_, .of_silent fun _ => rfl⟩

end Json

/-! ## Documents at the root -/

/-- Behind a document a reader gave its last value with the last token, or a reset has
no value for it. -/
structure Reader.Surfaces (reader : Reader Token α) (between : reader.State → Prop) : Prop where
  start : between reader.start
  document : ∀ {state next : reader.State} {document : Document} {values : List α},
    between state → reader.consume state document.tokens = .ok (values, next) →
      between next ∧
        (Decoder.holdingAfter true (reader.run state document.tokens).1 = true →
          (reader.reset next).1.isProduced = false)

namespace Reader.Surfaces

theorem of_silent {reader : Reader Token α} (hsilent : reader.Silent) :
    reader.Surfaces fun _ => True :=
  ⟨trivial, fun _ _ => ⟨trivial, fun _ => hsilent _⟩⟩

theorem array {inner : Reader Token α} {between : inner.State → Prop}
    (hinner : inner.Drains IsDocument between) :
    (arrayReader inner).Surfaces fun state => state.depth = 0 ∧ between state.inner := by
  refine ⟨⟨rfl, hinner.start⟩, ?_⟩
  rintro ⟨state, depth, index⟩ next document values ⟨rfl, hbetween⟩ hconsume
  obtain ⟨elements, given, middle, helements, rfl, hholding⟩ :=
    exists_of_consume_arrayReader hconsume
  have hmiddle := between_of_consume_documents hinner hbetween helements
  refine ⟨⟨rfl, hinner.reset middle⟩, fun hheld => hinner.drained hmiddle ?_⟩
  exact hholding.symm.trans hheld

theorem map {reader : Reader Token α} {between : reader.State → Prop}
    (hreader : reader.Surfaces between) (f : α → β) : (reader.map f).Surfaces between := by
  refine ⟨hreader.start, fun {state next document values} hbetween hconsume => ?_⟩
  obtain ⟨given, hgiven, -⟩ := exists_of_consume_map hconsume
  obtain ⟨hnext, hsettled⟩ := hreader.document hbetween hgiven
  refine ⟨hnext, fun hheld => (Outcome.isProduced_map f _).trans (hsettled ?_)⟩
  have hrun := congrArg Prod.fst (run_map reader f state document.tokens)
  exact (Decoder.holdingAfter_map f true _).symm.trans
    ((congrArg (Decoder.holdingAfter true) hrun).symm.trans hheld)

end Reader.Surfaces

/-- The codecs of arrays and objects, with values made of theirs.  An array is sparse
if its elements are. -/
inductive Json.Outermost : Bool → {α : Type} → ReadCodec Token α → Prop where
  | object {β : Type} (parts : Parts (ReadCodec Token) β) (conditions : List (Condition Token)) :
      Outermost false (.object parts conditions)
  | array {α : Type} {sparse : Bool} {codec : ReadCodec Token α}
      (hcodec : Element sparse codec) : Outermost sparse codec.array
  | map {α β : Type} {sparse : Bool} {codec : ReadCodec Token α}
      (hcodec : Outermost sparse codec) (f : α → β) : Outermost sparse (codec.map f)

theorem Json.Outermost.surfaces {sparse : Bool} {codec : ReadCodec Token α}
    (hcodec : Outermost sparse codec) (hdense : sparse = false) :
    ∃ between, codec.reader.Surfaces between := by
  induction hcodec with
  | object parts conditions => exact ⟨_, .of_silent fun _ => rfl⟩
  | array helement =>
      obtain ⟨between, hinner⟩ := helement.drains
      exact ⟨_, .array (hinner.restrict fun _ hdocument => ⟨hdense, hdocument⟩)⟩
  | map _ f ih =>
      obtain ⟨between, hreader⟩ := ih hdense
      exact ⟨between, hreader.map f⟩

namespace Decoder

section Streams

variable [Alphabet τ] (decoder : Decoder τ α)

/-- The answer at the end of the input is that of the state behind its tokens. -/
theorem trace_finish (state : decoder.State) (tokens : List τ) :
    decoder.trace state (tokens.map .feed ++ [.finish]) =
      decoder.answers state tokens ++
        [(decoder.finish (decoder.stateBehind state tokens)).1] := by
  induction tokens generalizing state with
  | nil => rfl
  | cons token tokens ih => exact congrArg ((decoder.feed state token).1 :: ·) (ih _)

variable {decoder}

/-- The decoder holds nothing that its reader would release at the end of the input. -/
def Emptied (decoder : Decoder τ α) (state : decoder.State) : Prop :=
  decoder.options.flushOnFinish = true → state.holding = true →
    (decoder.reader.reset state.reading).1.isProduced = false

/-- What is held was not answered. -/
theorem feed_fst_of_holding {state : decoder.State} {token : τ}
    (hholding : (decoder.feed state token).2.holding = true) :
    (decoder.feed state token).1 = .ok none := by
  cases hskipping : state.skipping with
  | true => simp [feed, hskipping]
  | false =>
      rcases houtcome : decoder.reader.feed state.reading token with ⟨value | _ | failure, next⟩
      · simp [feed, hskipping, houtcome] at hholding
      · simp [feed, hskipping, houtcome]
      · cases hfast : decoder.options.failFast <;>
          simp [feed, hskipping, houtcome, hfast] at hholding

theorem getLast?_answers_of_holding {tokens : List τ}
    (hholding : (decoder.stateBehind decoder.start tokens).holding = true) :
    (decoder.answers decoder.start tokens).getLast? = some (.ok none) := by
  rcases List.eq_nil_or_concat tokens with rfl | ⟨front, last, rfl⟩
  · cases hholding
  · rw [List.concat_eq_append] at hholding ⊢
    rw [stateBehind_append] at hholding
    rw [answers_append]
    change (_ ++ [(decoder.feed _ last).1]).getLast? = _
    rw [List.getLast?_concat, feed_fst_of_holding hholding]

/-- A decoder that has met no failure is where its reader is. -/
theorem exists_of_passed {reading : decoder.reader.State} {depth : Nat} {holding : Bool}
    {tokens : List τ}
    (hpassed : ∀ failure,
      .error failure ∉ decoder.answers ⟨reading, depth, holding, false⟩ tokens) :
    ∃ values next, decoder.reader.consume reading tokens = .ok (values, next) ∧
      decoder.stateBehind ⟨reading, depth, holding, false⟩ tokens =
        ⟨next, trackAll depth tokens,
          holdingAfter holding (decoder.reader.run reading tokens).1, false⟩ := by
  induction tokens generalizing reading depth holding with
  | nil => exact ⟨[], reading, rfl, rfl⟩
  | cons token tokens ih =>
      let state : decoder.State := ⟨reading, depth, holding, false⟩
      rw [answers_cons] at hpassed
      rw [stateBehind_cons]
      rcases houtcome : decoder.reader.feed reading token with ⟨value | _ | failure, middle⟩
      · have hstep : decoder.feed state token =
            (.ok (some value), ⟨middle, track depth token, false, false⟩) :=
          feed_of_produced houtcome depth holding
        rw [hstep] at hpassed ⊢
        obtain ⟨values, next, hrest, hreached⟩ :=
          ih fun failure hmem => hpassed failure (List.mem_cons_of_mem _ hmem)
        refine ⟨value :: values, next, ?_, ?_⟩
        · rw [Reader.consume_cons_of_produced _ houtcome, hrest]
          rfl
        · rw [hreached, Reader.run_cons_of_feed _ houtcome]
          rfl
      · have hstep : decoder.feed state token =
            (.ok none, ⟨middle, track depth token, true, false⟩) :=
          feed_of_pending houtcome depth holding
        rw [hstep] at hpassed ⊢
        obtain ⟨values, next, hrest, hreached⟩ :=
          ih fun failure hmem => hpassed failure (List.mem_cons_of_mem _ hmem)
        refine ⟨values, next, (Reader.consume_cons_of_pending _ houtcome tokens).trans hrest, ?_⟩
        rw [hreached, Reader.run_cons_of_feed _ houtcome]
        rfl
      · have hanswer : (decoder.feed state token).1 = .error failure := by
          cases hfast : decoder.options.failFast <;> simp [feed, state, houtcome, hfast]
        rw [hanswer] at hpassed
        exact absurd List.mem_cons_self (hpassed failure)

omit [Alphabet τ] in
/-- Between documents, finishing has nothing to add to what was emptied. -/
theorem finish_of_emptied {state : decoder.State} (hclosed : state.depth = 0)
    (hemptied : decoder.Emptied state) : (decoder.finish state).1 = .ok none := by
  cases hflush : decoder.options.flushOnFinish && state.holding with
  | false => simp [finish, hclosed, hflush]
  | true =>
      obtain ⟨hreleases, hholding⟩ := Bool.and_eq_true_iff.mp hflush
      have hnothing := hemptied hreleases hholding
      rcases hreset : decoder.reader.reset state.reading with ⟨value | _ | failure, next⟩
      · rw [hreset] at hnothing
        cases hnothing
      · simp [finish, hclosed, hreset, Outcome.value?]
      · simp [finish, hclosed, hreset, Outcome.value?]

end Streams

/-- A decoder that met no failure in a number of documents is emptied behind them. -/
theorem emptied_behind_documents {decoder : Decoder Token α}
    {between : decoder.reader.State → Prop} (hreader : decoder.reader.Surfaces between)
    {reading : decoder.reader.State} {holding : Bool} {documents : List Document}
    (hbetween : between reading) (hemptied : decoder.Emptied ⟨reading, 0, holding, false⟩)
    (hpassed : ∀ failure,
      .error failure ∉ decoder.answers ⟨reading, 0, holding, false⟩ (documents.flatMap tokens)) :
    decoder.Emptied
      (decoder.stateBehind ⟨reading, 0, holding, false⟩ (documents.flatMap tokens)) := by
  induction documents generalizing reading holding with
  | nil => exact hemptied
  | cons document documents ih =>
      rw [List.flatMap_cons, answers_append] at hpassed
      obtain ⟨values, next, hconsume, hnext⟩ := exists_of_passed fun failure hmem =>
        hpassed failure (List.mem_append_left _ hmem)
      obtain ⟨hbetween, hreleased⟩ := hreader.document hbetween hconsume
      rw [document.nested_tokens.trackAll,
        holdingAfter_run _ _ document.tokens_ne_nil holding true] at hnext
      rw [hnext] at hpassed
      rw [List.flatMap_cons, stateBehind_append, hnext]
      exact ih hbetween (fun _ => hreleased) fun failure hmem =>
        hpassed failure (List.mem_append_right _ hmem)

/-- Finishing behind complete documents in which nothing failed adds nothing, for
arrays and objects of every kind.  If the elements of the array are made of optional
values, that takes a closing bracket that gave a value, or a decoder that releases
nothing. -/
theorem finish_documents {sparse : Bool} {codec : ReadCodec Token α}
    (hcodec : Outermost sparse codec) (options : StreamOptions) (documents : List Document) :
    let decoder := Decoder.ofCodec codec options
    let run := documents.flatMap tokens
    let answers := decoder.answers decoder.start run
    (∀ failure, .error failure ∉ answers) →
      (sparse = true → options.flushOnFinish = true → answers.getLast? ≠ some (.ok none)) →
        decoder.trace decoder.start (run.map .feed ++ [.finish]) = answers ++ [.ok none] := by
  intro decoder run answers hpassed hgiven
  have hclosed : (decoder.stateBehind decoder.start run).depth = 0 :=
    (decoder.depth_stateBehind _ run).trans ((Nested.flatMap nested_tokens documents).trackAll 0)
  have hemptied : decoder.Emptied (decoder.stateBehind decoder.start run) := by
    cases hsparse : sparse with
    | true =>
        intro hreleases hholding
        exact absurd (getLast?_answers_of_holding hholding) (hgiven hsparse hreleases)
    | false =>
        obtain ⟨between, hreader⟩ := hcodec.surfaces hsparse
        exact emptied_behind_documents hreader hreader.start (fun _ => nofun) hpassed
  rw [decoder.trace_finish, finish_of_emptied hclosed hemptied]

/-- Nothing is added behind arrays of arrays of optional truth values.  Nothing is added
behind arrays of optional truth values either, if the last one is empty: it reads as absence
at its closing bracket. -/
theorem finish_documents_flags :
    let optional := Scalar.boolean.codec.toReadCodec.optional
    let arrays := Decoder.ofCodec optional.array.array
    let array := Decoder.ofCodec optional.array
    arrays.trace arrays.start
        (([Document.array [.array [.bool true]]].flatMap tokens).map .feed ++ [.finish]) =
      [.ok none, .ok none, .ok (some (some true)), .ok none, .ok (some none), .ok none] ∧
    array.trace array.start
        (([Document.array [.bool true], .array []].flatMap tokens).map .feed ++ [.finish]) =
      [.ok none, .ok (some (some true)), .ok none, .ok none, .ok (some none), .ok none] := by
  intro optional arrays array
  constructor
  · refine (finish_documents (.array (.array (.optional _))) {} [.array [.array [.bool true]]]
      (fun failure hmem => ?_) nofun).trans rfl
    replace hmem : Except.error failure ∈
      [.ok none, .ok none, .ok (some (some true)), .ok none, .ok (some none)] := hmem
    simp at hmem
  · refine (finish_documents (.array (.optional _)) {} [.array [.bool true], .array []]
      (fun failure hmem => ?_) (fun _ _ hlast => ?_)).trans rfl
    · replace hmem : Except.error failure ∈
        [.ok none, .ok (some (some true)), .ok none, .ok none, .ok (some none)] := hmem
      simp at hmem
    · cases hlast

/-- An array of optional numbers ends with a silent bracket, and finishing adds an absent
number that no token stands for. -/
theorem finish_optional_elements :
    let decoder := Decoder.ofCodec Scalar.integer.codec.toReadCodec.optional.array
    let run := [Document.array [.number "1"]].flatMap tokens
    let answers := decoder.answers decoder.start run
    answers = [.ok none, .ok (some (some 1)), .ok none] ∧
      decoder.trace decoder.start (run.map .feed ++ [.finish]) = answers ++ [.ok (some none)] :=
  ⟨rfl, rfl⟩

end Decoder

end TokenCodec
