/-!
# Writers

A writer turns values into tokens and may leave structure open between two
values, so that consecutive values share it.  Closing the writer ends whatever
is open and makes it ready for the next value.
-/

namespace TokenCodec

/-- A state machine from values to tokens. -/
structure Writer (τ α : Type) where
  /-- The states of the machine. -/
  State : Type
  /-- The state before the first value. -/
  start : State
  /-- Write one value. -/
  write : State → α → List τ × State
  /-- Close what is open. -/
  close : State → List τ × State

namespace Writer

variable {τ α β : Type}

/-- Write one value and close. -/
def writeClosed (writer : Writer τ α) (state : writer.State) (value : α) :
    List τ × writer.State :=
  let (tokens, state) := writer.write state value
  let (closing, state) := writer.close state
  (tokens ++ closing, state)

/-- Write a list of values, each one closed. -/
def writeEach (writer : Writer τ α) : writer.State → List α → List τ × writer.State
  | state, [] => ([], state)
  | state, value :: values =>
      let (tokens, state) := writer.writeClosed state value
      let (rest, state) := writer.writeEach state values
      (tokens ++ rest, state)

/-- Write a list of values that share what is open. -/
def writeShared (writer : Writer τ α) : writer.State → List α → List τ × writer.State
  | state, [] => ([], state)
  | state, value :: values =>
      let (tokens, state) := writer.write state value
      let (rest, state) := writer.writeShared state values
      (tokens ++ rest, state)

inductive Step (α : Type) where
  | write (value : α)
  | writeClosed (value : α)
  | close
  deriving Repr

/-- Take one step: the tokens it writes, and the state after it. -/
def step (writer : Writer τ α) (state : writer.State) : Step α → List τ × writer.State
  | .write value => writer.write state value
  | .writeClosed value => writer.writeClosed state value
  | .close => writer.close state

def trace (writer : Writer τ α) : writer.State → List (Step α) → List (List τ)
  | _, [] => []
  | state, next :: steps =>
      let (tokens, state) := writer.step state next
      tokens :: writer.trace state steps

def contramap (writer : Writer τ α) (f : β → α) : Writer τ β where
  State := writer.State
  start := writer.start
  write state value := writer.write state (f value)
  close := writer.close

/-- Write each value of a list, closing after every one. -/
def collect (writer : Writer τ α) : Writer τ (List α) where
  State := writer.State
  start := writer.start
  write := writer.writeEach
  close := writer.close

def optional (writer : Writer τ α) : Writer τ (Option α) where
  State := writer.State
  start := writer.start
  write state
    | some value => writer.write state value
    | none => ([], state)
  close := writer.close

/-- Write a list unless it is empty. -/
def skipEmpty (writer : Writer τ (List α)) : Writer τ (List α) where
  State := writer.State
  start := writer.start
  write state values := if values.isEmpty then ([], state) else writer.write state values
  close := writer.close

/-- Write the same value every time. -/
def fixed (writer : Writer τ α) (value : α) : Writer τ Unit :=
  writer.contramap fun _ => value

/-- A writer that turns each value into tokens of its own and never leaves
anything open. -/
def ofTokens (tokens : α → List τ) : Writer τ α where
  State := Unit
  start := ()
  write _ value := (tokens value, ())
  close _ := ([], ())

@[simp]
theorem writeEach_nil (writer : Writer τ α) (state : writer.State) :
    writer.writeEach state [] = ([], state) := rfl

@[simp]
theorem writeShared_nil (writer : Writer τ α) (state : writer.State) :
    writer.writeShared state [] = ([], state) := rfl

end Writer

end TokenCodec
