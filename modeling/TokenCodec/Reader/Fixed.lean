import TokenCodec.Reader.Basic

/-!
# Readers of a fixed value

A fixed value is a condition on a unit: the inner reader has to produce exactly
that value.  At the reset the condition has the last word, and it fails if the
value never came.
-/

namespace TokenCodec.Reader

variable {τ α : Type}

/-- The outcome of comparing a produced value with the fixed one, and whether
they agreed. -/
def compareFixed [BEq α] [Shown α] (value : α) (description : String) (found : α) :
    Outcome Unit × Bool :=
  if found == value then (.produced (), true)
  else (.failed (.here (.unexpected description (Shown.text found))), false)

/-- Succeed when `reader` produces `value`, and fail when it produces another
value.  A unit that matched on a token is content at the reset; otherwise the
value that the inner reader releases at its own reset is compared, and anything
else fails.  A match found at the reset stays noted for the next unit. -/
def fixed [BEq α] [Shown α] (reader : Reader τ α) (value : α) (description : String) :
    Reader τ Unit where
  State := reader.State × Bool
  start := (reader.start, false)
  feed state token :=
    let (inner, matched) := state
    let (outcome, inner) := reader.feed inner token
    match outcome with
    | .produced found =>
        let (outcome, agreed) := compareFixed value description found
        (outcome, (inner, matched || agreed))
    | .pending => (.pending, (inner, matched))
    | .failed failure => (.failed failure, (inner, matched))
  reset state :=
    let (inner, matched) := state
    let (outcome, inner) := reader.reset inner
    if matched then (.produced (), (inner, false))
    else
      match outcome with
      | .produced found =>
          let (outcome, agreed) := compareFixed value description found
          (outcome, (inner, agreed))
      | _ => (.failed (.here (.unexpected description "nothing")), (inner, false))

end TokenCodec.Reader
