import TokenCodec.Reader.Basic

/-!
# Choosing between alternatives

The tokens that tell alternatives apart may stand anywhere in a structural
unit.  The choosing reader therefore holds back one whole unit, asks the
discriminator of each alternative in order whether the unit meets its
conditions, and feeds the held unit to the first alternative that accepts it.
-/

namespace TokenCodec

variable {τ α : Type}

namespace Reader

/-- Whether a discriminator accepts a unit.  The first failure rejects it;
otherwise some token, or the reset at the end, has to succeed. -/
def accepts (discriminator : Reader τ Unit) :
    discriminator.State → Bool → List τ → Bool × discriminator.State
  | state, accepted, [] =>
      let (outcome, state) := discriminator.reset state
      (accepted || outcome.isProduced, state)
  | state, accepted, token :: unit =>
      let (outcome, state) := discriminator.feed state token
      match outcome with
      | .produced () => accepts discriminator state true unit
      | .pending => accepts discriminator state accepted unit
      | .failed _ => (false, discriminator.discard state)

/-- Feed a whole unit, `last` being the answer so far.  The answer is the first
failure, after which the reader is reset, or else the last value. -/
def replay (reader : Reader τ α) :
    reader.State → Outcome α → List τ → Outcome α × reader.State
  | state, last, [] => (last, state)
  | state, last, token :: unit =>
      let (outcome, state) := reader.feed state token
      match outcome with
      | .pending => replay reader state last unit
      | .failed failure => (.failed failure, reader.discard state)
      | .produced value => replay reader state (.produced value) unit

end Reader

/-- An alternative: its description, its reader, and the discriminator of a
conditional one. -/
structure Alternative (τ α : Type) where
  description : String
  reader : Reader τ α
  discriminator : Option (Reader τ Unit)

/-- A list of alternatives at work. -/
structure Alternatives (τ α : Type) where
  /-- The states of the readers and the discriminators. -/
  State : Type
  /-- Every machine at its start. -/
  start : State
  /-- Read a unit with the first alternative that accepts it; `none` when no
  alternative does. -/
  select : State → List τ → Option (Outcome α) × State
  /-- Reset every machine. -/
  discard : State → State

namespace Alternatives

def nil : Alternatives τ α where
  State := Unit
  start := ()
  select _ _ := (none, ())
  discard _ := ()

/-- An alternative without conditions, which accepts every unit. -/
def always (reader : Reader τ α) (rest : Alternatives τ α) : Alternatives τ α where
  State := reader.State × rest.State
  start := (reader.start, rest.start)
  select state unit :=
    let (outcome, first) := reader.replay state.1 .pending unit
    (some outcome, (first, state.2))
  discard state := (reader.discard state.1, rest.discard state.2)

def conditional (reader : Reader τ α) (discriminator : Reader τ Unit)
    (rest : Alternatives τ α) : Alternatives τ α where
  State := reader.State × discriminator.State × rest.State
  start := (reader.start, discriminator.start, rest.start)
  select state unit :=
    let (reading, deciding, others) := state
    let (accepted, deciding) := discriminator.accepts deciding false unit
    if accepted then
      let (outcome, reading) := reader.replay reading .pending unit
      (some outcome, (reading, deciding, others))
    else
      let (outcome, others) := rest.select others unit
      (outcome, (reading, deciding, others))
  discard state :=
    (reader.discard state.1, discriminator.discard state.2.1, rest.discard state.2.2)

def ofList : List (Alternative τ α) → Alternatives τ α
  | [] => nil
  | ⟨_, reader, none⟩ :: rest => always reader (ofList rest)
  | ⟨_, reader, some discriminator⟩ :: rest => conditional reader discriminator (ofList rest)

end Alternatives

def isFlatUnit [Alphabet τ] : List τ → Bool
  | [token] => Alphabet.nesting token == .flat
  | _ => false

structure Choosing (σ τ : Type) where
  alternatives : σ
  held : Array τ
  depth : Nat

/-- Read each structural unit with the first alternative that accepts it.  A
lone token without nesting is passed over when every alternative is
conditional, since conditions hold of structures only.  A unit that outgrows
`limit` fails at the first token too many and is forgotten. -/
def Reader.choose [Alphabet τ] (list : List (Alternative τ α)) (limit : Option Nat) :
    Reader τ α where
  State := Choosing (Alternatives.ofList list).State τ
  start := ⟨(Alternatives.ofList list).start, #[], 0⟩
  feed state token :=
    let held := state.held.push token
    let depth := Alphabet.track state.depth token
    if limit.any (held.size > ·) then
      (.failed (.here (.bufferLimit (limit.getD 0))), ⟨state.alternatives, #[], 0⟩)
    else if depth ≠ 0 then
      (.pending, ⟨state.alternatives, held, depth⟩)
    else if isFlatUnit held.toList && list.all (·.discriminator.isSome) then
      (.pending, ⟨state.alternatives, #[], 0⟩)
    else
      let (outcome, alternatives) :=
        (Alternatives.ofList list).select state.alternatives held.toList
      (outcome.getD (.failed (.here (.noAlternative (list.map (·.description))))),
        ⟨alternatives, #[], 0⟩)
  reset state :=
    (.pending, ⟨(Alternatives.ofList list).discard state.alternatives, #[], 0⟩)

end TokenCodec
