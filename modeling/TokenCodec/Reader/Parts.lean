import TokenCodec.Parts
import TokenCodec.Reader.Basic

/-!
# Reading compositions

The parts of an object or an XML element all see every token between its
opening and its closing token; names decide which part claims a token.  Beside
its reader, every part has a slot for the value it produced in the current
unit.  Conditions see the same tokens and hold no value.

The opening and closing tokens belong to the caller.
-/

namespace TokenCodec

variable {τ α β : Type}

/-- A part of a composition as it is read: its reader, and the description used
when the part produced nothing. -/
structure PartReader (τ α : Type) where
  description : String
  reader : Reader τ α

/-- The value of a part at the end of a unit: the one in its slot, or else the
one its reader releases at the reset. -/
def PartReader.conclude (part : PartReader τ α) : Option α → Outcome α → Except Failure α
  | some value, _ => .ok value
  | none, .produced value => .ok value
  | none, .failed failure => .error failure
  | none, .pending => .error (.here (.missing part.description))

/-- The readers of a composition at work, each with its slot. -/
structure Slots (τ β : Type) where
  /-- The states of the readers and the contents of the slots. -/
  State : Type
  /-- Every reader at its start and every slot empty. -/
  start : State
  /-- Feed one token to the parts in order, filling the slots of those that
  produce a value.  A failing part ends the round. -/
  feed : State → τ → Option Failure × State
  /-- The combined value, if every slot is filled. -/
  held : State → Option β
  /-- Empty every slot. -/
  clear : State → State
  /-- Reset every part at the end of a unit and combine their values.  Of
  several failures that of the first part is reported. -/
  finish : State → Except Failure β × State
  /-- Reset every part and drop what it held. -/
  discard : State → State

namespace Slots

def nil : Slots τ Unit where
  State := Unit
  start := ()
  feed _ _ := (none, ())
  held _ := some ()
  clear _ := ()
  finish _ := (.ok (), ())
  discard _ := ()

def cons (part : PartReader τ α) (rest : Slots τ β) : Slots τ (α × β) where
  State := (part.reader.State × Option α) × rest.State
  start := ((part.reader.start, none), rest.start)
  feed state token :=
    let ((reading, slot), others) := state
    let (outcome, reading) := part.reader.feed reading token
    match outcome with
    | .failed failure => (some failure, ((reading, slot), others))
    | .pending =>
        let (failure, others) := rest.feed others token
        (failure, ((reading, slot), others))
    | .produced value =>
        let (failure, others) := rest.feed others token
        (failure, ((reading, some value), others))
  held state :=
    match state.1.2, rest.held state.2 with
    | some value, some values => some (value, values)
    | _, _ => none
  clear state := ((state.1.1, none), rest.clear state.2)
  finish state :=
    let ((reading, slot), others) := state
    let (outcome, reading) := part.reader.reset reading
    let (values, others) := rest.finish others
    (match part.conclude slot outcome, values with
      | .error failure, _ => .error failure
      | .ok _, .error failure => .error failure
      | .ok value, .ok values => .ok (value, values),
      ((reading, none), others))
  discard state := ((part.reader.discard state.1.1, none), rest.discard state.2)

def ofParts : {β : Type} → Parts (PartReader τ) β → Slots τ β
  | _, .nil => nil
  | _, .cons part rest => cons part (ofParts rest)

end Slots

structure Conditions (τ : Type) where
  /-- The states of the readers. -/
  State : Type
  /-- Every reader at its start. -/
  start : State
  /-- Feed one token to the conditions in order.  A failing condition ends the
  round. -/
  feed : State → τ → Option Failure × State
  /-- Reset every condition and report the first failure. -/
  reset : State → Option Failure × State

namespace Conditions

def nil : Conditions τ where
  State := Unit
  start := ()
  feed _ _ := (none, ())
  reset _ := (none, ())

def cons (reader : Reader τ Unit) (rest : Conditions τ) : Conditions τ where
  State := reader.State × rest.State
  start := (reader.start, rest.start)
  feed state token :=
    let (outcome, first) := reader.feed state.1 token
    match outcome with
    | .failed failure => (some failure, (first, state.2))
    | _ =>
        let (failure, others) := rest.feed state.2 token
        (failure, (first, others))
  reset state :=
    let (outcome, first) := reader.reset state.1
    let (failure, others) := rest.reset state.2
    (match outcome with
      | .failed earliest => some earliest
      | _ => failure,
      (first, others))

def ofList : List (Reader τ Unit) → Conditions τ
  | [] => nil
  | reader :: rest => cons reader (ofList rest)

end Conditions

/-- A composition with conditions, as it is read between the opening and the
closing token of one unit.  When it `streams`, each complete value is given at
once, and the closing token adds none. -/
structure Assembly (τ β : Type) where
  slots : Slots τ β
  conditions : Conditions τ
  streams : Bool

namespace Assembly

/-- The assembly of a composition.  It streams if it is a lone part without
conditions. -/
def ofParts (parts : Parts (PartReader τ) β) (conditions : List (Reader τ Unit)) :
    Assembly τ β :=
  ⟨.ofParts parts, .ofList conditions, parts.size == 1 && conditions.isEmpty⟩

/-- The state of an assembly.  `emitted` notes that the unit already gave a
value before its end. -/
structure State (assembly : Assembly τ β) where
  slots : assembly.slots.State
  conditions : assembly.conditions.State
  emitted : Bool

def start (assembly : Assembly τ β) : assembly.State :=
  ⟨assembly.slots.start, assembly.conditions.start, false⟩

def discard (assembly : Assembly τ β) (state : assembly.State) : assembly.State :=
  ⟨assembly.slots.discard state.slots, (assembly.conditions.reset state.conditions).2, false⟩

/-- Give the combined value before the end of the unit, if it is complete. -/
def emit (assembly : Assembly τ β) (state : assembly.State) : Outcome β × assembly.State :=
  match assembly.slots.held state.slots with
  | some value =>
      (.produced value, ⟨assembly.slots.clear state.slots, state.conditions, true⟩)
  | none => (.pending, state)

/-- Feed one token that stands between the opening and the closing one. -/
def feed (assembly : Assembly τ β) (state : assembly.State) (token : τ) :
    Outcome β × assembly.State :=
  let (failure, slots) := assembly.slots.feed state.slots token
  match failure with
  | some failure =>
      (.failed failure, assembly.discard ⟨slots, state.conditions, state.emitted⟩)
  | none =>
      let (failure, conditions) := assembly.conditions.feed state.conditions token
      match failure with
      | some failure =>
          (.failed failure, assembly.discard ⟨slots, conditions, state.emitted⟩)
      | none =>
          if assembly.streams then assembly.emit ⟨slots, conditions, state.emitted⟩
          else (.pending, ⟨slots, conditions, state.emitted⟩)

/-- Conclude the unit at its closing token.  A failure of a part is reported
before one of a condition. -/
def complete (assembly : Assembly τ β) (state : assembly.State) :
    Outcome β × assembly.State :=
  if state.emitted then (.pending, assembly.discard state)
  else
    let (values, slots) := assembly.slots.finish state.slots
    let (failure, conditions) := assembly.conditions.reset state.conditions
    (match values, failure with
      | .error failure, _ => .failed failure
      | .ok _, some failure => .failed failure
      | .ok values, none => .produced values,
      ⟨slots, conditions, false⟩)

end Assembly

end TokenCodec
