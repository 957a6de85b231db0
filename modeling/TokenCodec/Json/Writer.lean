import TokenCodec.Json.Token
import TokenCodec.Writer.Parts

/-!
# Writers of JSON values

The machines that write members, arrays and objects as JSON tokens.  What they
open on the first value stays open for the next one until they are closed.
-/

namespace TokenCodec.Json

variable {α β : Type}

/-- Write the name in front of the tokens of the first value that has any; a
member without tokens is left out, name and all. -/
def memberWriter (name : String) (inner : Writer Token α) : Writer Token α where
  State := inner.State × Bool
  start := (inner.start, false)
  write state value :=
    let (tokens, writing) := inner.write state.1 value
    if state.2 || tokens.isEmpty then (tokens, (writing, state.2))
    else (.name name :: tokens, (writing, true))
  close state :=
    let (tokens, writing) := inner.close state.1
    (if state.2 then tokens else [], (writing, false))

def anyMemberWriter (inner : Writer Token α) : Writer Token (String × α) where
  State := inner.State
  start := inner.start
  write state value :=
    let (tokens, writing) := inner.writeClosed state value.2
    (.name value.1 :: tokens, writing)
  close state := ([], state)

/-- Write each value as one element of a common array. -/
def arrayWriter (inner : Writer Token α) : Writer Token α where
  State := inner.State × Bool
  start := (inner.start, false)
  write state value :=
    let (tokens, writing) := inner.writeClosed state.1 value
    (if state.2 then tokens else .startArray :: tokens, (writing, true))
  close state := (if state.2 then [.endArray] else [], (state.1, false))

/-- Write the parts of each value into a common object.  The tokens of the
conditions stand at its end. -/
def objectWriter (parts : Writer Token β) (conditions : List Token) : Writer Token β where
  State := parts.State × Bool
  start := (parts.start, false)
  write state value :=
    let (tokens, writing) := parts.write state.1 value
    (if state.2 then tokens else .startObject :: tokens, (writing, true))
  close state :=
    let (tokens, writing) := parts.close state.1
    (if state.2 then tokens ++ conditions ++ [.endObject] else tokens, (writing, false))

end TokenCodec.Json
