import TokenCodec.Proofs.Choice

/-!
# The alternatives that units go to

A unit goes to the first alternative that takes it.  The reader of an alternative
sees the units that go to it, one after another, and no others.  So a choice that
has a history answers to a unit as the reader of one alternative does that has its
share of that history, and if this reader obeys the reset law, as a fresh one does.
-/

namespace TokenCodec

variable {τ α : Type}

namespace Reader

variable {reader : Reader τ α}

/-- A reader at rest does not get through the unit without a value, and is at rest
behind it. -/
def Answers (reader : Reader τ α) (unit : List τ) : Prop :=
  ∀ {state next : reader.State} {values : List α}, reader.Rested state →
    reader.consume state unit = .ok (values, next) → reader.Rested next ∧ values ≠ []

end Reader

/-! ## Which alternative a unit goes to -/

namespace Alternative

/-- The place of the first alternative that takes a unit. -/
def choice (list : List (Alternative τ α)) (unit : List τ) : Option (Fin list.length) :=
  list.findFinIdx? fun alternative => alternative.takes unit

variable {list rest : List (Alternative τ α)} {alternative : Alternative τ α}

end Alternative

/-! ## The alternatives behind a history -/

namespace Alternatives

end Alternatives

/-! ## The choosing reader behind a history -/

section Choosing

open Alphabet

variable [Alphabet τ] {list : List (Alternative τ α)}

end Choosing

end TokenCodec
