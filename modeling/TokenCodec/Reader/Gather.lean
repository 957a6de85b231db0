import TokenCodec.Reader.Basic
import TokenCodec.Entries

/-!
# Gathering readers

These readers hold back what an inner reader produces and release one value
made of all of it when they are reset: the enclosing array or object resets its
parts when it closes.  An optional reader belongs to them because it, too,
decides at the reset: a unit in which the inner reader produced nothing reads
as absence.
-/

namespace TokenCodec.Reader

variable {τ α β κ : Type}

/-- Add every produced value to a store, which starts as `empty` and is
released at the reset.  What the inner reader says at its own reset is
dropped. -/
def gather (reader : Reader τ α) (empty : β) (add : β → α → β) : Reader τ β where
  State := reader.State × β
  start := (reader.start, empty)
  feed state token :=
    let (inner, store) := state
    let (outcome, inner) := reader.feed inner token
    match outcome with
    | .produced value => (.pending, (inner, add store value))
    | .pending => (.pending, (inner, store))
    | .failed failure => (.failed failure, (inner, store))
  reset state := (.produced state.2, (reader.discard state.1, empty))

/-- Every produced value, in the order of the tokens.  The store holds the
latest value first. -/
def collect (reader : Reader τ α) : Reader τ (List α) :=
  (reader.gather [] fun store value => value :: store).map List.reverse

/-- The produced pairs as a map: a repeated key keeps its first position and
takes the later value. -/
def entries [BEq κ] (reader : Reader τ (κ × α)) : Reader τ (Entries κ α) :=
  reader.gather Entries.empty fun store entry => store.insert entry.1 entry.2

/-- The state of a fold: the inner state, the result so far, and the failure
that stopped it. -/
structure Folding (σ β : Type) where
  inner : σ
  result : β
  failure : Option Failure

/-- Combine the produced values from the left, beginning with `initial`.  After
a failure no further token is looked at, and the reset repeats the failure. -/
def fold (reader : Reader τ α) (initial : β) (combine : β → α → β) : Reader τ β where
  State := Folding reader.State β
  start := ⟨reader.start, initial, none⟩
  feed state token :=
    match state.failure with
    | some _ => (.pending, state)
    | none =>
        let (outcome, inner) := reader.feed state.inner token
        match outcome with
        | .produced value => (.pending, ⟨inner, combine state.result value, none⟩)
        | .pending => (.pending, ⟨inner, state.result, none⟩)
        | .failed failure => (.failed failure, ⟨inner, state.result, some failure⟩)
  reset state :=
    (match state.failure with
      | some failure => .failed failure
      | none => .produced state.result,
      ⟨reader.discard state.inner, initial, none⟩)

/-- Absence is a value of its own: a unit in which the inner reader produced
nothing reads as `none`, whatever the inner reader says at its reset. -/
def optional (reader : Reader τ α) : Reader τ (Option α) where
  State := reader.State × Bool
  start := (reader.start, false)
  feed state token :=
    let (inner, present) := state
    let (outcome, inner) := reader.feed inner token
    (outcome.map some, (inner, present || outcome.isProduced))
  reset state :=
    (if state.2 then .pending else .produced none, (reader.discard state.1, false))

end TokenCodec.Reader
