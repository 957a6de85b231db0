import TokenCodec.Parts
import TokenCodec.Writer.Basic

/-!
# Writing compositions

With more than one part, every part is closed as soon as it is written, since
the parts stand side by side in one structure.  A single part stays open until
the composition is closed, so that consecutive values can go on with the same
structure.
-/

namespace TokenCodec.Writer

variable {τ α β : Type}

def nothing : Writer τ Unit := ofTokens fun _ => []

/-- Write one part in front of others and close it at once. -/
def beside (writer : Writer τ α) (rest : Writer τ β) : Writer τ (α × β) where
  State := writer.State × rest.State
  start := (writer.start, rest.start)
  write state value :=
    let (tokens, first) := writer.writeClosed state.1 value.1
    let (more, others) := rest.write state.2 value.2
    (tokens ++ more, (first, others))
  close state := ([], state)

/-- Write every part of a composition and close each of them. -/
def besideAll : {β : Type} → Parts (Writer τ) β → Writer τ β
  | _, .nil => nothing
  | _, .cons writer rest => writer.beside (besideAll rest)

/-- The writer of a composition without the structure around it. -/
def parts : {β : Type} → Parts (Writer τ) β → Writer τ β
  | _, .cons writer .nil => writer.contramap Prod.fst
  | _, composition => besideAll composition

end TokenCodec.Writer
