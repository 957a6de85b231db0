import TokenCodec.Proofs.Writable

/-!
# Closing brings a writer back to its start

A writer that is closed, whatever it wrote before, is at its start again, state
for state, and closing it there writes nothing.  Not every state obeys the law:
parts that stand side by side are closed as they are written and not once more
when their composition is, so it rests on what the states that work leads to
have in common.  Each combinator keeps such a bound on its states.
-/

namespace TokenCodec

variable {τ α β : Type}

namespace Writer

/-- The step closes what is open. -/
def Step.isClosing : Step α → Bool
  | write _ => false
  | writeClosed _ => true
  | close => true

/-- The state behind a list of steps. -/
def stateAfter (writer : Writer τ α) : writer.State → List (Step α) → writer.State
  | state, [] => state
  | state, next :: steps => writer.stateAfter (writer.step state next).2 steps

theorem trace_append (writer : Writer τ α) (state : writer.State) (front back : List (Step α)) :
    writer.trace state (front ++ back) =
      writer.trace state front ++ writer.trace (writer.stateAfter state front) back := by
  induction front generalizing state with
  | nil => rfl
  | cons next front ih => exact congrArg ((writer.step state next).1 :: ·) (ih _)

theorem stateAfter_append (writer : Writer τ α) (state : writer.State)
    (front back : List (Step α)) :
    writer.stateAfter state (front ++ back) =
      writer.stateAfter (writer.stateAfter state front) back := by
  induction front generalizing state with
  | nil => rfl
  | cons next front ih => exact ih _

/-- Work leaves a writer in a state of which `held` is true, and closing leads
from all of these states to the start. -/
structure RestoresFrom (writer : Writer τ α) (held : writer.State → Prop) : Prop where
  start : held writer.start
  write : ∀ {state : writer.State} (value : α), held state → held (writer.write state value).2
  close : ∀ {state : writer.State}, held state → (writer.close state).2 = writer.start
  rests : (writer.close writer.start).1 = []

/-- Closing leads from every state that work leads to back to the start. -/
def Restores (writer : Writer τ α) : Prop :=
  ∃ held, writer.RestoresFrom held

namespace RestoresFrom

variable {writer : Writer τ α} {held : writer.State → Prop}

theorem writeClosed (hwriter : writer.RestoresFrom held) {state : writer.State}
    (hstate : held state) (value : α) : (writer.writeClosed state value).2 = writer.start :=
  hwriter.close (hwriter.write value hstate)

theorem step (hwriter : writer.RestoresFrom held) {state : writer.State} (hstate : held state)
    (next : Step α) : held (writer.step state next).2 := by
  cases next with
  | write value => exact hwriter.write value hstate
  | writeClosed value =>
      rw [Writer.step, hwriter.writeClosed hstate]
      exact hwriter.start
  | close =>
      rw [Writer.step, hwriter.close hstate]
      exact hwriter.start

theorem stateAfter (hwriter : writer.RestoresFrom held) {state : writer.State}
    (hstate : held state) (steps : List (Step α)) : held (writer.stateAfter state steps) := by
  induction steps generalizing state with
  | nil => exact hstate
  | cons next steps ih => exact ih (hwriter.step hstate next)

/-- Behind a closing step a writer is at its start. -/
theorem stateAfter_closing (hwriter : writer.RestoresFrom held) (earlier : List (Step α))
    {last : Step α} (hlast : last.isClosing = true) :
    writer.stateAfter writer.start (earlier ++ [last]) = writer.start := by
  have hearlier := hwriter.stateAfter hwriter.start earlier
  rw [stateAfter_append]
  cases last with
  | write value => cases hlast
  | writeClosed value => exact hwriter.writeClosed hearlier value
  | close => exact hwriter.close hearlier

theorem writeEach (hwriter : writer.RestoresFrom held) {state : writer.State}
    (hstate : held state) (values : List α) : held (writer.writeEach state values).2 := by
  induction values generalizing state with
  | nil => exact hstate
  | cons value values ih =>
      have hfirst := hwriter.writeClosed hstate value
      exact ih (hfirst ▸ hwriter.start)

end RestoresFrom

namespace Restores

theorem ofTokens (tokens : α → List τ) : (Writer.ofTokens tokens).Restores :=
  ⟨fun _ => True, trivial, fun _ _ => trivial, fun _ => rfl, rfl⟩

theorem contramap {writer : Writer τ α} (hwriter : writer.Restores) (f : β → α) :
    (writer.contramap f).Restores := by
  obtain ⟨held, hwriter⟩ := hwriter
  exact ⟨held, hwriter.start, fun value => hwriter.write (f value), hwriter.close, hwriter.rests⟩

theorem collect {writer : Writer τ α} (hwriter : writer.Restores) :
    writer.collect.Restores := by
  obtain ⟨held, hwriter⟩ := hwriter
  exact ⟨held, hwriter.start, fun values hstate => hwriter.writeEach hstate values,
    hwriter.close, hwriter.rests⟩

theorem optional {writer : Writer τ α} (hwriter : writer.Restores) :
    writer.optional.Restores := by
  obtain ⟨held, hwriter⟩ := hwriter
  refine ⟨held, hwriter.start, fun value hstate => ?_, hwriter.close, hwriter.rests⟩
  cases value with
  | none => exact hstate
  | some value => exact hwriter.write value hstate

theorem skipEmpty {writer : Writer τ (List α)} (hwriter : writer.Restores) :
    writer.skipEmpty.Restores := by
  obtain ⟨held, hwriter⟩ := hwriter
  refine ⟨held, hwriter.start, fun values hstate => ?_, hwriter.close, hwriter.rests⟩
  cases values with
  | nil => exact hstate
  | cons value values => exact hwriter.write (value :: values) hstate

/-- A writer that is at its start whenever a value was written. -/
theorem of_write_eq {writer : Writer τ α}
    (hwrite : ∀ value, (writer.write writer.start value).2 = writer.start)
    (hclose : writer.close writer.start = ([], writer.start)) : writer.Restores := by
  refine ⟨(· = writer.start), rfl, fun value hstate => ?_, fun hstate => ?_,
    congrArg Prod.fst hclose⟩
  · rw [hstate]
    exact hwrite value
  · rw [hstate, hclose]

/-- Parts that stand side by side are all closed behind every value. -/
theorem write_besideAll {parts : Parts (Writer τ) β}
    (hparts : ∀ {γ : Type} {writer : Writer τ γ}, parts.Mem writer → writer.Restores)
    (values : β) :
    ((besideAll parts).write (besideAll parts).start values).2 = (besideAll parts).start := by
  induction parts with
  | nil => rfl
  | cons first rest ih =>
      obtain ⟨held, hfirst⟩ := hparts (Parts.mem_head first rest)
      exact Prod.ext (hfirst.writeClosed hfirst.start values.1)
        (ih (fun hmem => hparts (Parts.mem_tail hmem first)) values.2)

theorem parts {parts : Parts (Writer τ) β}
    (hparts : ∀ {γ : Type} {writer : Writer τ γ}, parts.Mem writer → writer.Restores) :
    (Writer.parts parts).Restores := by
  -- A lone part stays open, and is closed with the composition.
  cases parts with
  | nil => exact .ofTokens _
  | cons first rest =>
      cases rest with
      | nil => exact (hparts (Parts.mem_head first .nil)).contramap Prod.fst
      | cons second rest => exact .of_write_eq (write_besideAll hparts) rfl

end Restores

end Writer

/-! ## JSON writers -/

namespace Json

open Writer

variable {writer : Writer Token α}

theorem restores_memberWriter (hwriter : writer.Restores) (name : String) :
    (memberWriter name writer).Restores := by
  obtain ⟨held, hwriter⟩ := hwriter
  refine ⟨fun state => held state.1, hwriter.start, fun {state} value hstate => ?_,
    fun hstate => congrArg (·, false) (hwriter.close hstate), rfl⟩
  have hwritten := hwriter.write value hstate
  simp only [memberWriter]
  split <;> exact hwritten

theorem restores_anyMemberWriter (hwriter : writer.Restores) :
    (anyMemberWriter writer).Restores := by
  obtain ⟨held, hwriter⟩ := hwriter
  exact .of_write_eq (fun pair => hwriter.writeClosed hwriter.start pair.2) rfl

theorem restores_arrayWriter (hwriter : writer.Restores) : (arrayWriter writer).Restores := by
  obtain ⟨held, hwriter⟩ := hwriter
  refine ⟨fun state => state.1 = writer.start, rfl, fun {state} value hstate => ?_,
    fun hstate => congrArg (·, false) hstate, rfl⟩
  change (writer.writeClosed state.1 value).2 = writer.start
  rw [hstate]
  exact hwriter.writeClosed hwriter.start value

theorem restores_objectWriter {parts : Writer Token β} (hparts : parts.Restores)
    (conditions : List Token) : (objectWriter parts conditions).Restores := by
  obtain ⟨held, hparts⟩ := hparts
  exact ⟨fun state => held state.1, hparts.start, fun value hstate => hparts.write value hstate,
    fun hstate => congrArg (·, false) (hparts.close hstate), hparts.rests⟩

end Json

/-! ## XML writers -/

theorem Xml.restores_elementWriter {parts : Writer Token β} (hparts : parts.Restores)
    (name : Name) (conditions : List Token) :
    (elementWriter name parts conditions).Restores := by
  obtain ⟨held, hparts⟩ := hparts
  refine ⟨fun state => held state.1, hparts.start, fun {state} value hstate => ?_,
    fun hstate => congrArg (·, false) (hparts.close hstate), hparts.rests⟩
  have hwritten := hparts.write value hstate
  simp only [elementWriter]
  split <;> exact hwritten

/-! ## The law -/

variable [Bracketed τ]

theorem Writable.restores {writer : Writer τ α} (hwritable : Writable writer) :
    writer.Restores := by
  induction hwritable with
  | scalar _ => exact .ofTokens _
  | member name _ ih => exact Json.restores_memberWriter ih name
  | anyMember _ ih => exact Json.restores_anyMemberWriter ih
  | array _ ih => exact Json.restores_arrayWriter ih
  | object _ _ hparts _ => exact Json.restores_objectWriter (.parts hparts) _
  | ofAttribute _ => exact .ofTokens _
  | anyAttribute => exact .ofTokens _
  | text => exact .ofTokens _
  | element name _ _ hparts _ => exact Xml.restores_elementWriter (.parts hparts) name _
  | contramap _ f ih => exact ih.contramap f
  | collect _ ih => exact ih.collect
  | optional _ ih => exact ih.optional
  | skipEmpty _ ih => exact ih.skipEmpty

/-- Behind a closing step a writer cannot be told from a fresh one: whatever is
done with it next gives the tokens that a fresh writer gives.  Closing a closed or
a fresh writer writes nothing. -/
theorem Writable.trace_afresh {writer : Writer τ α} (hwritable : Writable writer)
    (earlier : List (Writer.Step α)) {last : Writer.Step α} (hlast : last.isClosing = true)
    (further : List (Writer.Step α)) :
    writer.trace writer.start (earlier ++ last :: further) =
        writer.trace writer.start (earlier ++ [last]) ++ writer.trace writer.start further ∧
      writer.trace writer.start (earlier ++ [last, .close]) =
        writer.trace writer.start (earlier ++ [last]) ++ [[]] ∧
      writer.trace writer.start [.close] = [[]] := by
  obtain ⟨held, hwriter⟩ := hwritable.restores
  have hafresh (steps : List (Writer.Step α)) :
      writer.trace writer.start (earlier ++ last :: steps) =
        writer.trace writer.start (earlier ++ [last]) ++ writer.trace writer.start steps := by
    rw [List.append_cons, Writer.trace_append, hwriter.stateAfter_closing earlier hlast]
  have hclose : writer.trace writer.start [.close] = [[]] :=
    congrArg (fun tokens => [tokens]) hwriter.rests
  refine ⟨hafresh further, ?_, hclose⟩
  rw [← hclose]
  exact hafresh [.close]

/-- Objects with an array of numbers that goes on from value to value, and a
condition. -/
def Json.tallyCodec : Codec Json.Token (Int32 × Unit) :=
  .object (.one (Scalar.integer.codec.array.member "ns"))
    [(Scalar.boolean.codec.member "ok").fixed true]

theorem Json.writable_tallyCodec : Writable tallyCodec.writer := by
  apply Writable.codecObject
  · intro γ codec hmem
    cases Parts.mem_one hmem
    exact .member "ns" (.array (.scalar .integer))
  · intro condition hmem
    cases List.mem_singleton.mp hmem
    exact .contramap (.member "ok" (.scalar .boolean)) _

/-- Two values share an object and its array.  The value behind the closing step
opens both again. -/
theorem Writable.trace_afresh_tally :
    Json.tallyCodec.writer.trace Json.tallyCodec.writer.start
        [.write (1, ()), .write (2, ()), .close, .writeClosed (3, ())] =
      [[.startObject, .name "ns", .startArray, .number "1"], [.number "2"],
        [.endArray, .name "ok", .bool true, .endObject],
        [.startObject, .name "ns", .startArray, .number "3", .endArray, .name "ok", .bool true,
          .endObject]] :=
  have hafresh := Json.writable_tallyCodec.trace_afresh [.write (1, ()), .write (2, ())]
    (show Writer.Step.close.isClosing = true from rfl) [.writeClosed (3, ())]
  hafresh.1.trans rfl

end TokenCodec
