import TokenCodec.Proofs.Consumption
import TokenCodec.Proofs.Nesting
import TokenCodec.Proofs.Reset
import TokenCodec.Stream

/-!
# Decoding unit by unit

A decoder is followed over one unit of its stream.  A unit that the reader
consumes adds its values.  In a unit in which the reader fails, a decoder that
recovers adds what came before the failure and the failure itself, passes over
the rest, and stands at the end of the unit as if nothing had been read yet.
-/

namespace TokenCodec.Decoder

open Alphabet

variable {τ α β : Type}

/-- Whether a decoder holds tokens back after some outcomes. -/
def holdingAfter (holding : Bool) (outcomes : List (Outcome α)) : Bool :=
  outcomes.foldl (fun _ outcome => outcome.isPending) holding

theorem holdingAfter_concat (holding : Bool) (outcomes : List (Outcome α))
    (last : Outcome α) : holdingAfter holding (outcomes ++ [last]) = last.isPending := by
  simp [holdingAfter]

/-- Behind a token it does not matter what was held before. -/
theorem holdingAfter_run (reader : Reader τ α) (state : reader.State) {tokens : List τ}
    (hne : tokens ≠ []) (holding other : Bool) :
    holdingAfter holding (reader.run state tokens).1 =
      holdingAfter other (reader.run state tokens).1 := by
  cases tokens with
  | nil => exact absurd rfl hne
  | cons token tokens => rfl

/-- The last token decides whether anything is held. -/
theorem holdingAfter_run_concat {reader : Reader τ α} {state next : reader.State}
    {front : List τ} {values : List α}
    (hfront : reader.consume state front = .ok (values, next)) (holding : Bool) (last : τ) :
    holdingAfter holding (reader.run state (front ++ [last])).1 =
      (reader.feed next last).1.isPending := by
  rw [Reader.run_append, Reader.run_of_consume hfront]
  exact holdingAfter_concat _ _ _

/-- Converted values are held back where the values were. -/
theorem holdingAfter_map (f : α → β) (holding : Bool) (outcomes : List (Outcome α)) :
    holdingAfter holding (outcomes.map (Outcome.map f)) = holdingAfter holding outcomes := by
  induction outcomes generalizing holding with
  | nil => rfl
  | cons outcome outcomes ih => cases outcome <;> exact ih _

variable [Alphabet τ] {decoder : Decoder τ α}

theorem feed_of_produced {state next : decoder.reader.State} {token : τ} {value : α}
    (hfeed : decoder.reader.feed state token = (.produced value, next)) (depth : Nat)
    (holding : Bool) :
    decoder.feed ⟨state, depth, holding, false⟩ token =
      (.ok (some value), ⟨next, track depth token, false, false⟩) := by
  simp [feed, hfeed]

theorem feed_of_pending {state next : decoder.reader.State} {token : τ}
    (hfeed : decoder.reader.feed state token = (.pending, next)) (depth : Nat)
    (holding : Bool) :
    decoder.feed ⟨state, depth, holding, false⟩ token =
      (.ok none, ⟨next, track depth token, true, false⟩) := by
  simp [feed, hfeed]

theorem itemsFrom_cons_of_produced {state next : decoder.reader.State} {token : τ} {value : α}
    (hfeed : decoder.reader.feed state token = (.produced value, next)) (depth : Nat)
    (holding : Bool) (rest : List τ) :
    decoder.itemsFrom ⟨state, depth, holding, false⟩ (token :: rest) =
      .ok value :: decoder.itemsFrom ⟨next, track depth token, false, false⟩ rest := by
  rw [itemsFrom, feed_of_produced hfeed]

theorem itemsFrom_cons_of_pending {state next : decoder.reader.State} {token : τ}
    (hfeed : decoder.reader.feed state token = (.pending, next)) (depth : Nat)
    (holding : Bool) (rest : List τ) :
    decoder.itemsFrom ⟨state, depth, holding, false⟩ (token :: rest) =
      decoder.itemsFrom ⟨next, track depth token, true, false⟩ rest := by
  rw [itemsFrom, feed_of_pending hfeed]

/-- The decoder gives the values of a run that its reader consumes. -/
theorem itemsFrom_append_of_ok {state next : decoder.reader.State} {tokens : List τ}
    {values : List α} (hconsume : decoder.reader.consume state tokens = .ok (values, next))
    (depth : Nat) (holding : Bool) (rest : List τ) :
    decoder.itemsFrom ⟨state, depth, holding, false⟩ (tokens ++ rest) =
      values.map .ok ++ decoder.itemsFrom ⟨next, trackAll depth tokens,
        holdingAfter holding (decoder.reader.run state tokens).1, false⟩ rest := by
  replace hconsume := Reader.passes_of_consume hconsume
  induction hconsume generalizing depth holding with
  | done state => rfl
  | produced hfeed _ ih =>
      rw [List.cons_append, itemsFrom_cons_of_produced hfeed, ih, Reader.run_cons, hfeed]
      rfl
  | pending hfeed _ ih =>
      rw [List.cons_append, itemsFrom_cons_of_pending hfeed, ih, Reader.run_cons, hfeed]
      rfl

/-- A decoder that stops at failures gives nothing behind the first one. -/
theorem values_itemsFrom_of_error (hstops : decoder.options.failFast = true)
    {state : decoder.reader.State} {tokens : List τ} {failure : Failure}
    (hconsume : decoder.reader.consume state tokens = .error failure)
    (depth : Nat) (holding : Bool) (rest : List τ) :
    values (decoder.itemsFrom ⟨state, depth, holding, false⟩ (tokens ++ rest)) =
      .error failure := by
  replace hconsume := Reader.breaks_of_consume hconsume
  induction hconsume generalizing depth holding with
  | failed hfeed tokens => simp [itemsFrom, feed, hfeed, hstops, values]
  | produced hfeed _ ih =>
      rw [List.cons_append, itemsFrom_cons_of_produced hfeed, values, ih]
      rfl
  | pending hfeed _ ih => rw [List.cons_append, itemsFrom_cons_of_pending hfeed, ih]

/-- The rest of a broken unit is passed over. -/
theorem itemsFrom_skipping {depth : Nat} {tokens : List τ} (hends : EndsUnit depth tokens)
    (state : decoder.reader.State) (holding : Bool) (rest : List τ) :
    decoder.itemsFrom ⟨state, depth, holding, true⟩ (tokens ++ rest) =
      decoder.itemsFrom ⟨state, 0, holding, false⟩ rest := by
  induction hends with
  | last hzero => simp [itemsFrom, feed, hzero]
  | step hopen _ ih => simpa [itemsFrom, feed, bne_iff_ne.mpr hopen] using ih

/-- Behind a broken unit a decoder that recovers is at its start, whatever it
held before. -/
theorem itemsFrom_append_of_error (hrecovers : decoder.options.failFast = false)
    (hresets : decoder.reader.Resets) {depth : Nat} {tokens : List τ}
    (hends : EndsUnit depth tokens) {state : decoder.reader.State} {failure : Failure}
    (hconsume : decoder.reader.consume state tokens = .error failure) :
    ∃ items, ∀ holding rest,
      decoder.itemsFrom ⟨state, depth, holding, false⟩ (tokens ++ rest) =
        items ++ decoder.itemsFrom decoder.start rest := by
  replace hconsume := Reader.breaks_of_consume hconsume
  induction hends generalizing state failure with
  | last hzero =>
      cases hconsume with
      | produced _ hrest => cases hrest
      | pending _ hrest => cases hrest
      | failed hfeed =>
          refine ⟨[.error failure], fun holding rest => ?_⟩
          simp [itemsFrom, feed, hfeed, hrecovers, hzero, hresets.discard_eq, start]
  | step hopen hends ih =>
      cases hconsume with
      | @produced _ _ _ _ value _ hfeed hrest =>
          obtain ⟨items, hitems⟩ := ih hrest
          refine ⟨.ok value :: items, fun holding rest => ?_⟩
          rw [List.cons_append, itemsFrom_cons_of_produced hfeed, hitems, List.cons_append]
      | pending hfeed hrest =>
          obtain ⟨items, hitems⟩ := ih hrest
          refine ⟨items, fun holding rest => ?_⟩
          rw [List.cons_append, itemsFrom_cons_of_pending hfeed, hitems]
      | failed hfeed =>
          refine ⟨[.error failure], fun holding rest => ?_⟩
          have hskip := itemsFrom_skipping hends decoder.reader.start false rest
          simpa [itemsFrom, feed, hfeed, hrecovers, bne_iff_ne.mpr hopen, hresets.discard_eq,
            start] using hskip

/-- At the end of the input a decoder between units releases what its reader
still holds. -/
theorem itemsFrom_end (decoder : Decoder τ α) (state : decoder.reader.State)
    (holding : Bool) :
    decoder.itemsFrom ⟨state, 0, holding, false⟩ [] =
      (if decoder.options.flushOnFinish && holding then (decoder.reader.reset state).1.value?
        else none).toList.map .ok := by
  cases hflush : decoder.options.flushOnFinish && holding with
  | false => simp [itemsFrom, finish, hflush]
  | true => cases hreset : (decoder.reader.reset state).1.value? <;>
      simp [itemsFrom, finish, hflush, hreset]

/-- A decoder that is between units gives nothing more, unless its reader still
holds a value. -/
theorem itemsFrom_nil {state : decoder.reader.State} {holding : Bool}
    (hsilent : holding = true → (decoder.reader.reset state).1.isProduced = false) :
    decoder.itemsFrom ⟨state, 0, holding, false⟩ [] = [] := by
  rw [itemsFrom_end]
  cases holding with
  | false => simp
  | true =>
      have hnothing := hsilent rfl
      cases hreset : (decoder.reader.reset state).1 <;>
        simp_all [Outcome.isProduced, Outcome.value?]

theorem values_map_ok (found : List α) : values (found.map .ok) = .ok found := by
  induction found with
  | nil => rfl
  | cons value found ih =>
      rw [List.map_cons, values, ih]
      rfl

/-! ## Answers to tokens -/

/-- The state behind a run of tokens. -/
def stateBehind (decoder : Decoder τ α) (state : decoder.State) (tokens : List τ) :
    decoder.State :=
  tokens.foldl (fun state token => (decoder.feed state token).2) state

/-- The answers to a run of tokens. -/
def answers (decoder : Decoder τ α) (state : decoder.State) (tokens : List τ) :
    List (Answer α) :=
  decoder.trace state (tokens.map .feed)

/-- What an answer adds to the items. -/
def Answer.item? : Answer α → Option (Except Failure α)
  | .ok value? => value?.map .ok
  | .error failure => some (.error failure)

theorem stateBehind_cons (decoder : Decoder τ α) (state : decoder.State) (token : τ)
    (tokens : List τ) :
    decoder.stateBehind state (token :: tokens) =
      decoder.stateBehind (decoder.feed state token).2 tokens := rfl

theorem answers_cons (decoder : Decoder τ α) (state : decoder.State) (token : τ)
    (tokens : List τ) :
    decoder.answers state (token :: tokens) =
      (decoder.feed state token).1 :: decoder.answers (decoder.feed state token).2 tokens := rfl

theorem stateBehind_append (decoder : Decoder τ α) (state : decoder.State)
    (front back : List τ) :
    decoder.stateBehind state (front ++ back) =
      decoder.stateBehind (decoder.stateBehind state front) back :=
  List.foldl_append

theorem answers_append (decoder : Decoder τ α) (state : decoder.State)
    (front back : List τ) :
    decoder.answers state (front ++ back) =
      decoder.answers state front ++
        decoder.answers (decoder.stateBehind state front) back := by
  induction front generalizing state with
  | nil => rfl
  | cons token front ih => exact congrArg ((decoder.feed state token).1 :: ·) (ih _)

/-- A decoder that recovers gives what it answers to the tokens, and goes on behind
them. -/
theorem itemsFrom_append_of_recovers (hrecovers : decoder.options.failFast = false)
    (state : decoder.State) (front back : List τ) :
    decoder.itemsFrom state (front ++ back) =
      (decoder.answers state front).filterMap Answer.item? ++
        decoder.itemsFrom (decoder.stateBehind state front) back := by
  induction front generalizing state with
  | nil => rfl
  | cons token front ih =>
      have hrest := ih (decoder.feed state token).2
      rw [answers_cons, stateBehind_cons, List.cons_append, itemsFrom]
      rcases hfeed : decoder.feed state token with ⟨failure | (_ | value), next⟩ <;>
        rw [hfeed] at hrest
      · simp [hrecovers, hrest, Answer.item?]
      · exact hrest
      · exact congrArg (Except.ok value :: ·) hrest

/-- The end of the input adds what the decoder answers to it. -/
theorem itemsFrom_of_recovers (hrecovers : decoder.options.failFast = false)
    (state : decoder.State) (tokens : List τ) :
    decoder.itemsFrom state tokens =
      (decoder.answers state tokens).filterMap Answer.item? ++
        (Answer.item? (decoder.finish (decoder.stateBehind state tokens)).1).toList := by
  have hend (last : decoder.State) :
      decoder.itemsFrom last [] = (Answer.item? (decoder.finish last).1).toList := by
    rcases hfinish : (decoder.finish last).1 with failure | (_ | value) <;>
      simp [itemsFrom, hfinish, Answer.item?]
  have hitems := itemsFrom_append_of_recovers hrecovers state tokens []
  rwa [List.append_nil, hend] at hitems

/-- The first decided outcome of a reader is the first item of a decoder. -/
theorem pull_fst_of_decided {state : decoder.reader.State} {tokens : List τ}
    {item : Except Failure α}
    (hdecided : (decoder.reader.run state tokens).1.findSome? Outcome.toExcept? = some item)
    (depth : Nat) (holding : Bool) :
    (decoder.pull ⟨state, depth, holding, false⟩ tokens).1 = some item := by
  induction tokens generalizing state depth holding with
  | nil => cases hdecided
  | cons token tokens ih =>
      rw [Reader.run_cons, List.findSome?_cons] at hdecided
      rcases hfeed : decoder.reader.feed state token with ⟨value | _ | failure, next⟩
      · rw [hfeed] at hdecided
        cases hdecided
        simp [pull, feed, hfeed]
      · rw [hfeed] at hdecided
        simpa [pull, feed, hfeed] using ih hdecided _ true
      · rw [hfeed] at hdecided
        cases hdecided
        cases hfast : decoder.options.failFast <;> simp [pull, feed, hfeed, hfast]

end TokenCodec.Decoder

namespace TokenCodec.ReadCodec

open Alphabet

variable {τ α : Type} [Alphabet τ] {codec : ReadCodec τ α} {tokens : List τ}

/-- Reading a whole stream gives what its reader consumes.  If the last token
gave nothing, the end of the input adds what the reader releases then. -/
theorem readAll_of_consume {values : List α} {next : codec.reader.State}
    (hconsume : codec.reader.consume codec.reader.start tokens = .ok (values, next))
    (hclosed : trackAll 0 tokens = 0) :
    codec.readAll tokens = .ok (values ++
      (if Decoder.holdingAfter false (codec.reader.run codec.reader.start tokens).1
        then (codec.reader.reset next).1.value? else none).toList) := by
  have hdecoder : (Decoder.ofCodec codec).reader.consume codec.reader.start tokens =
      .ok (values, next) := hconsume
  have hitems := Decoder.itemsFrom_append_of_ok hdecoder 0 false []
  rw [List.append_nil, hclosed] at hitems
  have hend := (Decoder.ofCodec codec).itemsFrom_end next
    (Decoder.holdingAfter false (codec.reader.run codec.reader.start tokens).1)
  have htogether := hitems.trans (congrArg (values.map .ok ++ ·) hend)
  rw [← List.map_append] at htogether
  exact (congrArg Decoder.values htogether).trans (Decoder.values_map_ok _)

/-- Reading fails with the first failure of the reader. -/
theorem readAll_of_error {failure : Failure}
    (hconsume : codec.reader.consume codec.reader.start tokens = .error failure) :
    codec.readAll tokens = .error failure := by
  have hstops : (Decoder.ofCodec codec).options.failFast = true := rfl
  have herror := Decoder.values_itemsFrom_of_error hstops hconsume 0 false []
  rwa [List.append_nil] at herror

/-- Reading one value takes the first decided outcome of the reader. -/
theorem readOne_of_decided {result : Except Failure α}
    (hdecided : (codec.reader.run codec.reader.start tokens).1.findSome? Outcome.toExcept? =
      some result) : codec.readOne tokens = result := by
  have hitem : ((Decoder.ofCodec codec).pull (Decoder.ofCodec codec).start tokens).1 =
      some result :=
    Decoder.pull_fst_of_decided hdecided 0 false
  calc
    codec.readOne tokens =
        ((Decoder.ofCodec codec).pull (Decoder.ofCodec codec).start tokens).1.getD
          (.error (.incomplete codec.description)) := rfl
    _ = result := by rw [hitem, Option.getD_some]

end TokenCodec.ReadCodec
