import TokenCodec.Codec.Basic

/-!
# Whole streams of tokens

A decoder drives one reader over a stream of tokens and gives each value as soon
as it is complete.  It keeps a depth of its own, so that it can pass over the
rest of a structure in which reading failed, and tell input that stops inside a
structure from complete input.  An encoder drives one writer, so that
consecutive values share what is open.
-/

namespace TokenCodec

variable {τ α : Type}

/-- How a decoder meets failures and the end of its input. -/
structure StreamOptions where
  /-- Stop at the first failure.  Otherwise the reader is reset, the rest of
  the broken structure is passed over, and decoding goes on. -/
  failFast : Bool := true
  /-- Release at the end of the input what the reader still holds. -/
  flushOnFinish : Bool := true
  deriving DecidableEq, Repr

/-- A reader driven over a stream. -/
structure Decoder (τ α : Type) where
  description : String
  reader : Reader τ α
  options : StreamOptions := {}

namespace Decoder

/-- The decoder of a codec. -/
def ofCodec (codec : ReadCodec τ α) (options : StreamOptions := {}) : Decoder τ α :=
  ⟨codec.description, codec.reader, options⟩

/-- The state of a decoder. -/
structure State (decoder : Decoder τ α) where
  reading : decoder.reader.State
  /-- The depth of the stream. -/
  depth : Nat
  /-- Tokens were fed since the last value or failure. -/
  holding : Bool
  /-- The decoder is inside a structure in which reading failed. -/
  skipping : Bool

/-- The state before the first token. -/
def start (decoder : Decoder τ α) : decoder.State :=
  ⟨decoder.reader.start, 0, false, false⟩

/-- The answer of a decoder: a value, nothing yet, or a failure. -/
abbrev Answer (α : Type) := Except Failure (Option α)

/-- Feed one token. -/
def feed [Alphabet τ] (decoder : Decoder τ α) (state : decoder.State) (token : τ) :
    Answer α × decoder.State :=
  let depth := Alphabet.track state.depth token
  if state.skipping then
    (.ok none, ⟨state.reading, depth, state.holding, depth != 0⟩)
  else
    let (outcome, reading) := decoder.reader.feed state.reading token
    match outcome with
    | .produced value => (.ok (some value), ⟨reading, depth, false, false⟩)
    | .pending => (.ok none, ⟨reading, depth, true, false⟩)
    | .failed failure =>
        if decoder.options.failFast then
          (.error failure, ⟨reading, depth, false, false⟩)
        else
          (.error failure, ⟨decoder.reader.discard reading, depth, false, depth != 0⟩)

/-- End the input.  Input that stops inside a structure is incomplete.  Otherwise
the reader may release a value, if a token came after the last one. -/
def finish (decoder : Decoder τ α) (state : decoder.State) : Answer α × decoder.State :=
  let (outcome, reading) := decoder.reader.reset state.reading
  (if state.depth ≠ 0 then .error (.incomplete decoder.description)
    else if decoder.options.flushOnFinish && state.holding then .ok outcome.value?
    else .ok none,
    ⟨reading, 0, false, false⟩)

/-- One step of work with a decoder. -/
inductive Step (τ : Type) where
  | feed (token : τ)
  | finish
  deriving Repr

/-- Work through a list of steps: the answer to each. -/
def trace [Alphabet τ] (decoder : Decoder τ α) :
    decoder.State → List (Step τ) → List (Answer α)
  | _, [] => []
  | state, .feed token :: steps =>
      let (answer, state) := decoder.feed state token
      answer :: decoder.trace state steps
  | state, .finish :: steps =>
      let (answer, state) := decoder.finish state
      answer :: decoder.trace state steps

/-- A decoder reading from a list of tokens: its state, the tokens not yet
pulled, and whether it came to an end. -/
structure Cursor (decoder : Decoder τ α) where
  state : decoder.State
  rest : List τ
  done : Bool

/-- The cursor at the beginning of a list of tokens. -/
def cursor (decoder : Decoder τ α) (tokens : List τ) : decoder.Cursor :=
  ⟨decoder.start, tokens, false⟩

/-- Pull tokens until there is an item, or until the tokens run out and the
decoder is finished. -/
def pull [Alphabet τ] (decoder : Decoder τ α) :
    decoder.State → List τ → Option (Except Failure α) × decoder.Cursor
  | state, [] =>
      let (answer, state) := decoder.finish state
      (match answer with
        | .ok value? => value?.map .ok
        | .error failure => some (.error failure),
        ⟨state, [], true⟩)
  | state, token :: rest =>
      let (answer, state) := decoder.feed state token
      match answer with
      | .ok (some value) => (some (.ok value), ⟨state, rest, false⟩)
      | .ok none => decoder.pull state rest
      | .error failure => (some (.error failure), ⟨state, rest, decoder.options.failFast⟩)

/-- The next item, pulling no more tokens than it takes. -/
def next [Alphabet τ] (decoder : Decoder τ α) (cursor : decoder.Cursor) :
    Option (Except Failure α) × decoder.Cursor :=
  if cursor.done then (none, cursor) else decoder.pull cursor.state cursor.rest

/-- All items from a state on: values, and failures in their places. -/
def itemsFrom [Alphabet τ] (decoder : Decoder τ α) :
    decoder.State → List τ → List (Except Failure α)
  | state, [] =>
      match (decoder.finish state).1 with
      | .ok none => []
      | .ok (some value) => [.ok value]
      | .error failure => [.error failure]
  | state, token :: rest =>
      let (answer, state) := decoder.feed state token
      match answer with
      | .ok none => decoder.itemsFrom state rest
      | .ok (some value) => .ok value :: decoder.itemsFrom state rest
      | .error failure =>
          if decoder.options.failFast then [.error failure]
          else .error failure :: decoder.itemsFrom state rest

/-- All items of a list of tokens. -/
def items [Alphabet τ] (decoder : Decoder τ α) (tokens : List τ) :
    List (Except Failure α) :=
  decoder.itemsFrom decoder.start tokens

/-- All values of a list of items, or the first failure among them. -/
def values : List (Except Failure α) → Except Failure (List α)
  | [] => .ok []
  | .ok value :: rest => (values rest).map (value :: ·)
  | .error failure :: _ => .error failure

/-- All values of a list of tokens, or the first failure. -/
def decode [Alphabet τ] (decoder : Decoder τ α) (tokens : List τ) :
    Except Failure (List α) :=
  values (decoder.items tokens)

end Decoder

namespace ReadCodec

/-- Read every value, or stop at the first failure. -/
def readAll [Alphabet τ] (codec : ReadCodec τ α) (tokens : List τ) :
    Except Failure (List α) :=
  (Decoder.ofCodec codec).decode tokens

/-- Read the first value and leave the tokens after it.  The second component
holds the tokens that were not pulled. -/
def readFirst [Alphabet τ] (codec : ReadCodec τ α) (tokens : List τ) :
    Except Failure α × List τ :=
  let decoder := Decoder.ofCodec codec
  let (item, cursor) := decoder.next (decoder.cursor tokens)
  (item.getD (.error (.incomplete codec.description)), cursor.rest)

/-- Read the first value. -/
def readOne [Alphabet τ] (codec : ReadCodec τ α) (tokens : List τ) : Except Failure α :=
  (codec.readFirst tokens).1

end ReadCodec

namespace WriteCodec

/-- Write every value with one writer and close it at the end. -/
def writeAll (codec : WriteCodec τ α) (values : List α) : List τ :=
  let (tokens, state) := codec.writer.writeShared codec.writer.start values
  tokens ++ (codec.writer.close state).1

end WriteCodec

/-- A writer driven over a stream of values. -/
structure Encoder (τ α : Type) where
  writer : Writer τ α

namespace Encoder

/-- The encoder of a codec. -/
def ofCodec (codec : WriteCodec τ α) : Encoder τ α := ⟨codec.writer⟩

/-- One step of work with an encoder. -/
inductive Step (α : Type) where
  | encode (value : α)
  | finish
  deriving Repr

/-- An encoder step as a step of its writer. -/
def Step.toWriterStep : Step α → Writer.Step α
  | encode value => .write value
  | finish => .close

/-- Work through a list of steps: the tokens of each. -/
def trace (encoder : Encoder τ α) (steps : List (Step α)) : List (List τ) :=
  encoder.writer.trace encoder.writer.start (steps.map Step.toWriterStep)

end Encoder

end TokenCodec
