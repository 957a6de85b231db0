import TokenCodec.Json.Token
import TokenCodec.Reader.Parts

/-!
# Readers of JSON values

The machines that read scalars, members, arrays and objects from JSON tokens.
Each of them follows nesting with depths of its own, so that tokens inside
values it does not know never count for it.  All of them start afresh after a
reset.
-/

namespace TokenCodec.Json

variable {α β : Type}

/-- Read one scalar with `parse`.  Structures in its place are passed over
whole, and null counts as absence.  `found` is the text that a failure shows. -/
def scalarReader (expected : String) (parse : Token → Option α) : Reader Token α where
  State := Nat
  start := 0
  feed depth token :=
    match token.nesting with
    | .opens => (.pending, depth + 1)
    | .closes => (.pending, depth - 1)
    | .flat =>
        if depth ≠ 0 then (.pending, depth)
        else if token = .null then (.pending, depth)
        else
          match parse token with
          | some value => (.produced value, depth)
          | none => (.failed (.here (.unexpected expected (Shown.text token))), depth)
  reset _ := (.pending, 0)

/-- Where a member reader stands: between members, at a depth within those it
does not claim, or inside a value it claims, at a depth within that value. -/
inductive MemberPlace (ν : Type) where
  | between (depth : Nat)
  | inside (name : ν) (depth : Nat)
  deriving DecidableEq, Repr

/-- The place after a token of a claimed value: a value ends when its depth is
back at zero. -/
def MemberPlace.advance {ν : Type} (name : ν) (depth : Nat) (token : Token) :
    MemberPlace ν :=
  let depth := Alphabet.track depth token
  if depth = 0 then .between 0 else .inside name depth

/-- The state of the reader of one member.  `found` notes that the member
appeared in the current object. -/
structure MemberState (σ : Type) where
  inner : σ
  place : MemberPlace Unit
  found : Bool

/-- Read the value of the member `name` with `inner`.  Other members, and names
within values, are ignored.  At the reset a member that never appeared fails,
unless the inner reader has a value for absence. -/
def memberReader (name : String) (inner : Reader Token α) : Reader Token α where
  State := MemberState inner.State
  start := ⟨inner.start, .between 0, false⟩
  feed state token :=
    match state.place with
    | .inside _ depth =>
        let (outcome, reading) := inner.feed state.inner token
        (outcome.within name, ⟨reading, .advance () depth token, state.found⟩)
    | .between depth =>
        if depth = 0 ∧ token = .name name then
          (.pending, ⟨state.inner, .inside () 0, true⟩)
        else (.pending, ⟨state.inner, .between (Alphabet.track depth token), state.found⟩)
  reset state :=
    let (outcome, reading) := inner.reset state.inner
    (if state.found then .pending
      else
        match outcome with
        | .produced value => .produced value
        | _ => .failed (.here (.missingMember name)),
      ⟨reading, .between 0, false⟩)

/-- Read every member, whatever its name, as a pair of name and value. -/
def anyMemberReader (inner : Reader Token α) : Reader Token (String × α) where
  State := inner.State × MemberPlace String
  start := (inner.start, .between 0)
  feed state token :=
    match state.2 with
    | .inside name depth =>
        let (outcome, reading) := inner.feed state.1 token
        ((outcome.map fun value => (name, value)).within name,
          (reading, .advance name depth token))
    | .between depth =>
        match depth, token with
        | 0, .name name => (.pending, (state.1, .inside name 0))
        | depth, token => (.pending, (state.1, .between (Alphabet.track depth token)))
  reset state := (.pending, (inner.discard state.1, .between 0))

def indexSegment (index : Nat) : String := "[" ++ toString index ++ "]"

/-- The state of an array reader: its depth, zero outside of an array, and the
number of elements that are complete. -/
structure ArrayState (σ : Type) where
  inner : σ
  depth : Nat
  index : Nat

/-- Hand every token between the brackets of an array to `inner`, which is reset
at the closing bracket and has the last word there. -/
def arrayReader (inner : Reader Token α) : Reader Token α where
  State := ArrayState inner.State
  start := ⟨inner.start, 0, 0⟩
  feed state token :=
    if state.depth = 0 then
      if token = .startArray then (.pending, ⟨state.inner, 1, 0⟩)
      else (.failed (.here (.unexpected "start of array" (Shown.text token))), state)
    else if state.depth = 1 ∧ token = .endArray then
      let (outcome, reading) := inner.reset state.inner
      (outcome, ⟨reading, 0, 0⟩)
    else
      let (outcome, reading) := inner.feed state.inner token
      let depth := Alphabet.track state.depth token
      (outcome.within (indexSegment state.index),
        ⟨reading, depth, if depth = 1 then state.index + 1 else state.index⟩)
  reset state :=
    let (outcome, reading) := inner.reset state.inner
    (outcome, ⟨reading, 0, 0⟩)

/-- Read an object with an assembly, which sees the tokens between the braces.
After a failure the reader waits for the next object. -/
def objectReader (assembly : Assembly Token β) : Reader Token β where
  State := assembly.State × Nat
  start := (assembly.start, 0)
  feed state token :=
    let (reading, depth) := state
    if depth = 0 then
      if token = .startObject then (.pending, (reading, 1))
      else (.failed (.here (.unexpected "start of object" (Shown.text token))), state)
    else if depth = 1 ∧ token = .endObject then
      let (outcome, reading) := assembly.complete reading
      (outcome, (reading, 0))
    else
      let (outcome, reading) := assembly.feed reading token
      (outcome, (reading, if outcome.isFailed then 0 else Alphabet.track depth token))
  reset state := (.pending, (assembly.discard state.1, 0))

end TokenCodec.Json
