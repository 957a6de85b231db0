import TokenCodec.Proofs.Elements
import TokenCodec.Proofs.Finishing

/-!
# Values at the end of their elements

An array of scalars, or of objects that hold their members together, gives each
value at the very token that ends its element, and once.  Elements that stand in the
place of a scalar without being one are passed over, and the closing bracket adds
nothing.  So whoever pulls values from such an array pulls no token behind the
element that the value came from.
-/

namespace TokenCodec

open Alphabet

variable {τ α β : Type}

theorem Outcome.value?_refine (check : α → Outcome β) (outcome : Outcome α) :
    (outcome.refine check).value? = outcome.value?.bind fun value => (check value).value? := by
  cases outcome <;> rfl

/-! ## What a reader gives at each token -/

namespace Reader

/-- What a reader gives at each token of a run: a value, or nothing. -/
def given (reader : Reader τ α) (state : reader.State) (tokens : List τ) : List (Option α) :=
  (reader.run state tokens).1.map Outcome.value?

theorem given_cons_of_feed (reader : Reader τ α) {state next : reader.State} {token : τ}
    {outcome : Outcome α} (hfeed : reader.feed state token = (outcome, next))
    (tokens : List τ) :
    reader.given state (token :: tokens) = outcome.value? :: reader.given next tokens := by
  rw [given, run_cons_of_feed _ hfeed]
  rfl

theorem given_append (reader : Reader τ α) (state : reader.State) (front back : List τ) :
    reader.given state (front ++ back) =
      reader.given state front ++ reader.given (reader.run state front).2 back := by
  rw [given, run_append, List.map_append]
  rfl

theorem given_refine (reader : Reader τ α) (check : α → Outcome β) (state : reader.State)
    (tokens : List τ) :
    (reader.refine check).given state tokens =
      (reader.given state tokens).map (·.bind fun value => (check value).value?) := by
  induction tokens generalizing state with
  | nil => rfl
  | cons token tokens ih =>
      have hfirst := Outcome.value?_refine check (reader.feed state token).1
      apply List.cons_eq_cons.mpr
      exact ⟨hfirst, ih (reader.feed state token).2⟩

/-- The values of a run are those that are given at its tokens. -/
theorem filterMap_given {reader : Reader τ α} {state next : reader.State} {tokens : List τ}
    {values : List α} (hconsume : reader.consume state tokens = .ok (values, next)) :
    (reader.given state tokens).filterMap id = values := by
  rw [given, List.filterMap_map]
  rw [consume_eq_run] at hconsume
  split at hconsume
  · cases hconsume
  · cases hconsume
    rfl

/-- A unit of tokens with a value at the last of them, or with none at all. -/
def lastWord (tokens : List τ) (value : Option α) : List (Option α) :=
  List.replicate (tokens.length - 1) none ++ [value]

theorem length_lastWord {tokens : List τ} (hne : tokens ≠ []) (value : Option α) :
    (lastWord tokens value).length = tokens.length := by
  have hpos := List.length_pos_iff.mpr hne
  rw [lastWord, List.length_append, List.length_replicate]
  exact Nat.sub_add_cancel hpos

@[simp]
theorem filterMap_lastWord (tokens : List τ) (value : Option α) :
    (lastWord tokens value).filterMap id = value.toList := by
  cases value <;> simp [lastWord, List.filterMap_replicate_of_none]

end Reader

/-! ## Readers that give a value at the end of its document -/

open Json Json.Document Reader

/-- Fed a document, a reader has its word at the last token, and rests behind it.  When
it is reset it says nothing. -/
structure Reader.Prompt (reader : Reader Token α) : Prop where
  mute : reader.Mute
  unit : ∀ {state next : reader.State} {document : Document} {values : List α},
    reader.Rested state → reader.consume state document.tokens = .ok (values, next) →
      reader.Rested next ∧
        ∃ value, reader.given state document.tokens = lastWord document.tokens value

theorem Reader.Prompt.refine {reader : Reader Token α} (hreader : reader.Prompt)
    (check : α → Outcome β) : (reader.refine check).Prompt where
  mute := hreader.mute.refine check
  unit {state next document values} hrested hconsume := by
    obtain ⟨read, hread⟩ := exists_of_consume_refine hconsume
    obtain ⟨hnext, value, hvalue⟩ := hreader.unit hrested hread
    refine ⟨hnext, value.bind fun value => (check value).value?, ?_⟩
    calc
      (reader.refine check).given state document.tokens =
          (lastWord document.tokens value).map (·.bind fun value => (check value).value?) :=
        (given_refine reader check state document.tokens).trans (congrArg _ hvalue)
      _ = lastWord document.tokens (value.bind fun value => (check value).value?) := by
        rw [lastWord, List.map_append, List.map_replicate]
        rfl

namespace Json

end Json

/-! ## Documents one after another -/

/-- A reader is fed documents one after another, and reads each of them as a value or
as nothing. -/
inductive Reader.ReadsInTurn (reader : Reader Token α) :
    reader.State → List (Document × Option α) → Prop where
  | nil (state : reader.State) : ReadsInTurn reader state []
  | cons {state next : reader.State} {document : Document} {value : Option α}
      {readings : List (Document × Option α)}
      (hdocument : reader.consume state document.tokens = .ok (value.toList, next))
      (hrest : ReadsInTurn reader next readings) :
      ReadsInTurn reader state ((document, value) :: readings)

/-- The tokens of documents that were read, one after another. -/
def readTokens (readings : List (Document × Option α)) : List Token :=
  elementTokens (readings.map Prod.fst)

/-- What is given at these tokens if each document has the last word on itself. -/
def lastWords (readings : List (Document × Option α)) : List (Option α) :=
  readings.flatMap fun reading => lastWord reading.1.tokens reading.2

theorem readTokens_cons (document : Document) (value : Option α)
    (readings : List (Document × Option α)) :
    readTokens ((document, value) :: readings) = document.tokens ++ readTokens readings := rfl

theorem readTokens_append (front back : List (Document × Option α)) :
    readTokens (front ++ back) = readTokens front ++ readTokens back := by
  simp only [readTokens, elementTokens_eq_flatMap, List.map_append, List.flatMap_append]

theorem length_lastWords (readings : List (Document × Option α)) :
    (lastWords readings).length = (readTokens readings).length := by
  induction readings with
  | nil => rfl
  | cons reading readings ih =>
      obtain ⟨document, value⟩ := reading
      rw [readTokens_cons, List.length_append, ← ih]
      exact List.length_append.trans
        (congrArg (· + _) (length_lastWord document.tokens_ne_nil value))

theorem filterMap_lastWords (readings : List (Document × Option α)) :
    (lastWords readings).filterMap id = readings.filterMap Prod.snd := by
  induction readings with
  | nil => rfl
  | cons reading readings ih =>
      obtain ⟨document, value⟩ := reading
      have hfirst := filterMap_lastWord document.tokens value
      change (lastWord document.tokens value ++ lastWords readings).filterMap id = _
      rw [List.filterMap_append, hfirst, ih]
      cases value <;> rfl

namespace Reader.Prompt

variable {reader : Reader Token α}

/-- A document is read as at most one value. -/
theorem exists_reading (hreader : reader.Prompt) {state next : reader.State}
    {document : Document} {values : List α} (hrested : reader.Rested state)
    (hconsume : reader.consume state document.tokens = .ok (values, next)) :
    ∃ value : Option α, values = value.toList ∧
      reader.given state document.tokens = lastWord document.tokens value := by
  obtain ⟨-, value, hvalue⟩ := hreader.unit hrested hconsume
  refine ⟨value, ?_, hvalue⟩
  calc
    values = (reader.given state document.tokens).filterMap id := (filterMap_given hconsume).symm
    _ = value.toList := by rw [hvalue, filterMap_lastWord]

/-- Each document has the last word on itself. -/
theorem given_readTokens (hreader : reader.Prompt) {state : reader.State}
    {readings : List (Document × Option α)} (hrested : reader.Rested state)
    (hreads : reader.ReadsInTurn state readings) :
    reader.given state (readTokens readings) = lastWords readings := by
  induction hreads with
  | nil state => rfl
  | @cons state next document value readings hdocument hrest ih =>
      obtain ⟨same, hsame, hgiven⟩ := hreader.exists_reading hrested hdocument
      have hvalue : value = same := by simpa using congrArg List.head? hsame
      subst hvalue
      rw [readTokens_cons, given_append, hgiven, run_of_consume hdocument]
      exact congrArg _ (ih (hreader.unit hrested hdocument).1)

end Reader.Prompt

theorem Reader.ReadsInTurn.consume {reader : Reader Token α} {state : reader.State}
    {readings : List (Document × Option α)} (hreads : reader.ReadsInTurn state readings) :
    ∃ next, reader.consume state (readTokens readings) =
      .ok (readings.flatMap fun reading => reading.2.toList, next) := by
  induction hreads with
  | nil state => exact ⟨state, rfl⟩
  | cons hdocument hrest ih =>
      obtain ⟨next, hnext⟩ := ih
      exact ⟨next, consume_append_ok hdocument hnext⟩

/-! ### Documents alone -/

namespace ReadCodec

variable {codec : ReadCodec Token α}

/-- Behind a reader that says nothing when it is reset, the end of a document adds
nothing. -/
theorem readAll_of_mute (hmute : codec.reader.Mute) {document : Document} {values : List α}
    {next : codec.reader.State}
    (hconsume : codec.reader.consume codec.reader.start document.tokens = .ok (values, next)) :
    codec.readAll document.tokens = .ok values := by
  rw [readAll_of_consume hconsume (document.nested_tokens.trackAll 0), hmute next]
  cases Decoder.holdingAfter false (codec.reader.run codec.reader.start document.tokens).1 <;>
    exact congrArg Except.ok (List.append_nil values)

/-- If its resets forget, a codec reads alone what it reads in turn. -/
theorem readAll_of_readsInTurn (hprompt : codec.reader.Prompt) (hresets : codec.reader.Resets)
    {readings : List (Document × Option α)}
    (hreads : codec.reader.ReadsInTurn codec.reader.start readings) :
    ∀ reading ∈ readings, codec.readAll reading.1.tokens = .ok reading.2.toList := by
  induction readings with
  | nil => exact nofun
  | cons reading readings ih =>
      cases hreads with
      | cons hdocument hrest =>
          have hnext := (hprompt.unit (.inl rfl) hdocument).1.eq_start hresets
          subst hnext
          refine List.forall_mem_cons.mpr ?_
          exact ⟨readAll_of_mute hprompt.mute hdocument, ih hrest⟩

end ReadCodec

/-! ## Arrays -/

namespace Json

variable {inner : Reader Token α}

/-- Between the brackets an array gives what its inner reader gives. -/
theorem given_arrayReader_inside {depth : Nat} (hdepth : depth ≠ 0) {tokens : List Token}
    (hopen : StaysOpen depth tokens) (state : inner.State) (index : Nat) :
    (arrayReader inner).given ⟨state, depth, index⟩ tokens = inner.given state tokens := by
  induction tokens generalizing depth state index with
  | nil => rfl
  | cons token tokens ih =>
      obtain ⟨hstep, hrest⟩ := hopen
      have hfeed := feed_arrayReader_inside hdepth hstep
        (rfl : inner.feed state token = (_, _)) index
      calc
        (arrayReader inner).given ⟨state, depth, index⟩ (token :: tokens) =
            (inner.feed state token).1.value? :: inner.given (inner.feed state token).2 tokens := by
          rw [← Outcome.value?_within (indexSegment index), ← ih hstep hrest]
          exact given_cons_of_feed (arrayReader inner) hfeed tokens
        _ = inner.given state (token :: tokens) := rfl

/-- The brackets of an array over a mute reader give nothing. -/
theorem given_arrayReader (hmute : inner.Mute) (elements : List Document) :
    (arrayReader inner).given (arrayReader inner).start (Document.array elements).tokens =
      none :: inner.given inner.start (elementTokens elements) ++ [none] := by
  have hnested := nested_elementTokens elements
  have hinside := given_arrayReader_inside Nat.one_ne_zero (hnested.staysOpen 0) inner.start 0
  obtain ⟨index, hreached⟩ := run_arrayReader_inside inner Nat.one_ne_zero
    (hnested.staysOpen 0) inner.start 0
  rw [hnested.trackAll] at hreached
  have hclosing (state : inner.State) :
      (arrayReader inner).given ⟨state, 1, index⟩ [.endArray] = [none] :=
    congrArg (fun outcome => [Outcome.value? outcome]) (hmute state)
  rw [tokens, given_append]
  change none :: (arrayReader inner).given ⟨inner.start, 1, 0⟩ (elementTokens elements) ++
    (arrayReader inner).given ((arrayReader inner).run ⟨inner.start, 1, 0⟩
      (elementTokens elements)).2 [.endArray] = _
  rw [hinside, hreached, hclosing]

/-- An array over a mute reader is read if its elements are. -/
theorem consume_arrayReader_of_mute (hmute : inner.Mute) {elements : List Document}
    {values : List α} {next : inner.State}
    (hconsume : inner.consume inner.start (elementTokens elements) = .ok (values, next)) :
    ∃ reached, (arrayReader inner).consume (arrayReader inner).start
      (Document.array elements).tokens = .ok (values, reached) := by
  have hreset : inner.reset next = (.pending, (inner.reset next).2) := Prod.ext (hmute next) rfl
  have hconclude := conclude_ok hconsume (release_of_pending inner hreset)
  rw [List.append_nil] at hconclude
  exact ⟨_, consume_arrayReader_of_ok hconclude⟩

end Json

namespace Decoder

variable [Alphabet τ] {decoder : Decoder τ α}

theorem answers_cons_of_feed {state next : decoder.State} {token : τ} {answer : Answer α}
    (hfeed : decoder.feed state token = (answer, next)) (tokens : List τ) :
    decoder.answers state (token :: tokens) = answer :: decoder.answers next tokens := by
  rw [answers_cons, hfeed]

/-- A decoder whose reader does not fail answers with what the reader gives. -/
theorem answers_of_consume {state next : decoder.reader.State} {tokens : List τ}
    {values : List α} (hconsume : decoder.reader.consume state tokens = .ok (values, next))
    (depth : Nat) (holding : Bool) :
    decoder.answers ⟨state, depth, holding, false⟩ tokens =
      (decoder.reader.given state tokens).map .ok := by
  replace hconsume := passes_of_consume hconsume
  induction hconsume generalizing depth holding with
  | done state => rfl
  | @produced state middle next token tokens value values hfeed _ ih =>
      have hstep := feed_of_produced hfeed depth holding
      rw [answers_cons_of_feed hstep, given_cons_of_feed _ hfeed, ih]
      rfl
  | @pending state middle next token tokens values hfeed _ ih =>
      have hstep := feed_of_pending hfeed depth holding
      rw [answers_cons_of_feed hstep, given_cons_of_feed _ hfeed, ih]
      rfl

/-- The item of one of several calls for the next one, and the cursor behind it. -/
def call (decoder : Decoder τ α) (cursor : decoder.Cursor) :
    Nat → Option (Except Failure α) × decoder.Cursor
  | 0 => decoder.next cursor
  | earlier + 1 => decoder.call (decoder.next cursor).2 earlier

/-- Calls pass over the tokens without an answer. -/
theorem call_cons_of_nothing {state next : decoder.State} {token : τ}
    (hfeed : decoder.feed state token = (.ok none, next)) (rest : List τ) (earlier : Nat) :
    decoder.call ⟨state, token :: rest, false⟩ earlier =
      decoder.call ⟨next, rest, false⟩ earlier := by
  have hnext : decoder.next ⟨state, token :: rest, false⟩ =
      decoder.next ⟨next, rest, false⟩ := by
    simp [Decoder.next, pull, hfeed]
  cases earlier with
  | zero => exact hnext
  | succ earlier => exact congrArg (fun item => decoder.call item.2 earlier) hnext

theorem next_cons_of_value {state next : decoder.State} {token : τ} {value : α}
    (hfeed : decoder.feed state token = (.ok (some value), next)) (rest : List τ) :
    decoder.next ⟨state, token :: rest, false⟩ = (some (.ok value), ⟨next, rest, false⟩) := by
  simp [Decoder.next, pull, hfeed]

/-- Each call gives the next value that is answered, and pulls the tokens up to the one
that it is answered at. -/
theorem call_of_answers {state : decoder.State} {tokens : List τ} {front back : List (Option α)}
    {value : α}
    (hanswers : decoder.answers state tokens = (front ++ some value :: back).map .ok) :
    ∃ reached, decoder.call ⟨state, tokens, false⟩ (front.filterMap id).length =
      (some (.ok value), ⟨reached, tokens.drop (front.length + 1), false⟩) := by
  induction tokens generalizing state front with
  | nil =>
      rw [List.map_append] at hanswers
      cases (List.append_eq_nil_iff.mp hanswers.symm).2
  | cons token tokens ih =>
      rcases hfeed : decoder.feed state token with ⟨answer, next⟩
      rw [answers_cons_of_feed hfeed] at hanswers
      cases front with
      | nil =>
          obtain ⟨rfl, -⟩ := List.cons_eq_cons.mp hanswers
          exact ⟨next, next_cons_of_value hfeed tokens⟩
      | cons first front =>
          obtain ⟨rfl, hrest⟩ := List.cons_eq_cons.mp hanswers
          obtain ⟨reached, hreached⟩ := ih hrest
          cases first with
          | none => exact ⟨reached, (call_cons_of_nothing hfeed _ _).trans hreached⟩
          | some earlier =>
              have hnext := next_cons_of_value hfeed tokens
              have hcall (calls : Nat) :=
                congrArg (fun item => decoder.call item.2 calls) hnext
              exact ⟨reached, (hcall _).trans hreached⟩

end Decoder

/-! ## Arrays as they are decoded -/

/-- What a decoder makes of an array whose elements were read, each as a value or as
nothing. -/
structure Decoder.Surfaced (codec : ReadCodec Token α) (options : StreamOptions)
    (readings : List (Document × Option α)) : Prop where
  /-- The elements were read in turn. -/
  inTurn : codec.reader.ReadsInTurn codec.reader.start readings
  /-- If its resets forget, the codec reads the same from each element alone. -/
  alone : codec.reader.Resets →
    ∀ reading ∈ readings, codec.readAll reading.1.tokens = .ok reading.2.toList
  /-- Each value is the answer to the last token of its element, and there is no other. -/
  answers :
    let decoder := ofCodec codec.array options
    decoder.answers decoder.start (Document.array (readings.map Prod.fst)).tokens =
      (none :: lastWords readings ++ [none]).map .ok
  /-- The call for a value pulls the tokens up to the end of its element. -/
  calls : ∀ {front back : List (Document × Option α)} {element : Document} {value : α},
    readings = front ++ (element, some value) :: back →
      let decoder := ofCodec codec.array options
      ∃ reached, decoder.call (decoder.cursor (Document.array (readings.map Prod.fst)).tokens)
          (front.filterMap Prod.snd).length =
        (some (.ok value), ⟨reached, readTokens back ++ [.endArray], false⟩)

/-- What is given in front of a value comes up to the last token of its element. -/
theorem drop_tokens_array (front back : List (Document × Option α)) (element : Document)
    (value : Option α) :
    (Document.array ((front ++ (element, value) :: back).map Prod.fst)).tokens.drop
        ((none :: lastWords front ++ List.replicate (element.tokens.length - 1) none).length + 1) =
      readTokens back ++ [.endArray] := by
  have hpos := List.length_pos_iff.mpr element.tokens_ne_nil
  have htokens : (Document.array ((front ++ (element, value) :: back).map Prod.fst)).tokens =
      .startArray :: (readTokens front ++ element.tokens) ++ (readTokens back ++ [.endArray]) := by
    rw [tokens]
    change .startArray :: readTokens (front ++ (element, value) :: back) ++ [.endArray] = _
    rw [readTokens_append, readTokens_cons]
    simp only [List.cons_append, List.append_assoc]
  rw [htokens]
  apply List.drop_left'
  simp only [List.length_cons, List.length_append, length_lastWords, List.length_replicate]
  omega

theorem Reader.ReadsInTurn.surfaced {codec : ReadCodec Token α} (hprompt : codec.reader.Prompt)
    (options : StreamOptions) {readings : List (Document × Option α)}
    (hreads : codec.reader.ReadsInTurn codec.reader.start readings) :
    Decoder.Surfaced codec options readings := by
  obtain ⟨next, hconsume⟩ := hreads.consume
  obtain ⟨reached, harray⟩ := consume_arrayReader_of_mute hprompt.mute hconsume
  have hgiven := given_arrayReader hprompt.mute (readings.map Prod.fst)
  have hwords := hprompt.given_readTokens (.inl rfl) hreads
  rw [readTokens] at hwords
  rw [hwords] at hgiven
  have hanswers : (Decoder.ofCodec codec.array options).answers
      (Decoder.ofCodec codec.array options).start
      (Document.array (readings.map Prod.fst)).tokens =
        (none :: lastWords readings ++ [none]).map .ok :=
    (Decoder.answers_of_consume harray 0 false).trans (congrArg (List.map Except.ok) hgiven)
  refine ⟨hreads, fun hresets => ?_, hanswers, ?_⟩
  · exact ReadCodec.readAll_of_readsInTurn hprompt hresets hreads
  · rintro front back element value rfl
    have hsplit : none :: lastWords (front ++ (element, some value) :: back) ++ [none] =
        (none :: lastWords front ++ List.replicate (element.tokens.length - 1) none) ++
          some value :: (lastWords back ++ [none]) := by
      simp [lastWords, lastWord]
    have hcount : ((none :: lastWords front ++
        List.replicate (element.tokens.length - 1) none).filterMap id).length =
          (front.filterMap Prod.snd).length := by
      rw [List.filterMap_append, List.filterMap_replicate_of_none rfl, List.append_nil]
      exact congrArg List.length (filterMap_lastWords front)
    rw [hsplit] at hanswers
    obtain ⟨last, hlast⟩ := Decoder.call_of_answers hanswers
    rw [hcount, drop_tokens_array] at hlast
    exact ⟨last, hlast⟩

example :
    let decoder := Decoder.ofCodec Scalar.integer.codec.toReadCodec.array
    decoder.answers decoder.start
        (Document.array [.number "1", .array [.number "2"], .number "3"]).tokens =
      [.ok none, .ok (some 1), .ok none, .ok none, .ok none, .ok (some 3), .ok none] := rfl

end TokenCodec
