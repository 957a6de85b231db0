import TokenCodec.Outcome
import TokenCodec.Token

/-!
# Readers

A reader is a state machine that is fed one token at a time and answers each
with an outcome.  Resetting it abandons the unit being read; the outcome of a
reset is the last word of the reader on that unit: a gathering reader releases
what it holds, a required member that never appeared fails, and a reader that
has nothing to say is pending.
-/

namespace TokenCodec

/-- A state machine from tokens to values. -/
structure Reader (τ α : Type) where
  /-- The states of the machine. -/
  State : Type
  /-- The state before the first token. -/
  start : State
  /-- Feed one token. -/
  feed : State → τ → Outcome α × State
  /-- Abandon the unit being read. -/
  reset : State → Outcome α × State

namespace Reader

variable {τ α β : Type}

/-- Feed a run of tokens: the outcome at each token, and the state reached. -/
def run (reader : Reader τ α) : reader.State → List τ → List (Outcome α) × reader.State
  | state, [] => ([], state)
  | state, token :: tokens =>
      let (outcome, state) := reader.feed state token
      let (outcomes, state) := reader.run state tokens
      (outcome :: outcomes, state)

inductive Step (τ : Type) where
  | feed (token : τ)
  | reset
  deriving Repr

def trace (reader : Reader τ α) : reader.State → List (Step τ) → List (Outcome α)
  | _, [] => []
  | state, .feed token :: steps =>
      let (outcome, state) := reader.feed state token
      outcome :: reader.trace state steps
  | state, .reset :: steps =>
      let (outcome, state) := reader.reset state
      outcome :: reader.trace state steps

/-- The state after a reset, the outcome left aside. -/
def discard (reader : Reader τ α) (state : reader.State) : reader.State :=
  (reader.reset state).2

/-- Check every value that `reader` produces, on a token or at a reset. -/
def refine (reader : Reader τ α) (check : α → Outcome β) : Reader τ β where
  State := reader.State
  start := reader.start
  feed state token :=
    let (outcome, state) := reader.feed state token
    (outcome.refine check, state)
  reset state :=
    let (outcome, state) := reader.reset state
    (outcome.refine check, state)

def map (reader : Reader τ α) (f : α → β) : Reader τ β :=
  reader.refine fun value => .produced (f value)

@[simp]
theorem run_nil (reader : Reader τ α) (state : reader.State) :
    reader.run state [] = ([], state) := rfl

@[simp]
theorem run_cons (reader : Reader τ α) (state : reader.State) (token : τ)
    (tokens : List τ) :
    reader.run state (token :: tokens) =
      ((reader.feed state token).1 :: (reader.run (reader.feed state token).2 tokens).1,
        (reader.run (reader.feed state token).2 tokens).2) := rfl

theorem run_append (reader : Reader τ α) (state : reader.State) (front back : List τ) :
    reader.run state (front ++ back) =
      ((reader.run state front).1 ++ (reader.run (reader.run state front).2 back).1,
        (reader.run (reader.run state front).2 back).2) := by
  induction front generalizing state with
  | nil => rfl
  | cons token front ih => simp [ih]

/-- A run answers once for every token. -/
@[simp]
theorem length_run (reader : Reader τ α) (state : reader.State) (tokens : List τ) :
    (reader.run state tokens).1.length = tokens.length := by
  induction tokens generalizing state with
  | nil => rfl
  | cons token tokens ih => simp [ih]

end Reader

end TokenCodec
