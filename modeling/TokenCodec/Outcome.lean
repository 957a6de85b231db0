import TokenCodec.Failure

/-!
# Outcomes

The answer of a reader to one token has three forms: a value is complete,
nothing is decided yet, or reading failed.
-/

namespace TokenCodec

/-- The answer of a reader to one token or to a reset. -/
inductive Outcome (α : Type) where
  /-- A value is complete. -/
  | produced (value : α)
  /-- More tokens are needed. -/
  | pending
  /-- Reading failed. -/
  | failed (failure : Failure)
  deriving DecidableEq, Repr

namespace Outcome

variable {α β γ : Type}

def isProduced : Outcome α → Bool
  | produced _ => true
  | _ => false

def isPending : Outcome α → Bool
  | pending => true
  | _ => false

def isFailed : Outcome α → Bool
  | failed _ => true
  | _ => false

/-- Check a produced value further, which may turn it into another value, into
nothing or into a failure. -/
def refine (check : α → Outcome β) : Outcome α → Outcome β
  | produced value => check value
  | pending => pending
  | failed failure => failed failure

/-- Convert a produced value. -/
def map (f : α → β) : Outcome α → Outcome β :=
  refine fun value => produced (f value)

/-- Change a failure and leave the other outcomes as they are. -/
def mapFailure (f : Failure → Failure) : Outcome α → Outcome α
  | failed failure => failed (f failure)
  | other => other

/-- Put a segment in front of the path of a failure. -/
def within (segment : String) : Outcome α → Outcome α :=
  mapFailure (Failure.within segment)

/-- The produced value, if there is one. -/
def value? : Outcome α → Option α
  | produced value => some value
  | _ => none

/-- The decided outcomes as a result; `none` while nothing is decided. -/
def toExcept? : Outcome α → Option (Except Failure α)
  | produced value => some (.ok value)
  | pending => none
  | failed failure => some (.error failure)

/-- A result as a decided outcome. -/
def ofExcept : Except Failure α → Outcome α
  | .ok value => produced value
  | .error failure => failed failure

@[simp]
theorem refine_produced (check : α → Outcome β) (value : α) :
    (produced value).refine check = check value := rfl

@[simp]
theorem refine_pending (check : α → Outcome β) : pending.refine check = pending := rfl

@[simp]
theorem refine_failed (check : α → Outcome β) (failure : Failure) :
    (failed failure).refine check = failed failure := rfl

@[simp]
theorem map_produced (f : α → β) (value : α) :
    (produced value).map f = produced (f value) := rfl

@[simp]
theorem map_pending (f : α → β) : pending.map f = pending := rfl

@[simp]
theorem map_failed (f : α → β) (failure : Failure) :
    (failed failure).map f = failed failure := rfl

@[simp]
theorem map_id (outcome : Outcome α) : outcome.map id = outcome := by
  cases outcome <;> rfl

theorem map_map (g : β → γ) (f : α → β) (outcome : Outcome α) :
    (outcome.map f).map g = outcome.map (g ∘ f) := by
  cases outcome <;> rfl

theorem isFailed_map (f : α → β) (outcome : Outcome α) :
    (outcome.map f).isFailed = outcome.isFailed := by
  cases outcome <;> rfl

@[simp]
theorem within_produced (segment : String) (value : α) :
    (produced value).within segment = produced value := rfl

@[simp]
theorem within_pending (segment : String) :
    (pending : Outcome α).within segment = pending := rfl

@[simp]
theorem within_failed (segment : String) (failure : Failure) :
    (failed failure : Outcome α).within segment = failed (failure.within segment) := rfl

/-- Turning a result into an outcome and back loses nothing. -/
@[simp]
theorem toExcept?_ofExcept (result : Except Failure α) :
    (ofExcept result).toExcept? = some result := by
  cases result <;> rfl

end Outcome

end TokenCodec
