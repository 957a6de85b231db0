import TokenCodec.Json.Codec
import TokenCodec.Stream

/-!
# Rendering values

A writer renders a value with certain tokens if writing and closing gives those
tokens and leads back to the start.  The law is closed under the combinators of
writers.  Members need a little more: a member writes its name only in front of
tokens, so the value must begin before it is closed.
-/

namespace TokenCodec

variable {τ α β κ : Type}

namespace Writer

/-- A writer that gives each value tokens of its own, and nothing when it is
closed at its start. -/
structure Renders (writer : Writer τ α) (tokens : α → List τ) : Prop where
  emits : ∀ value, writer.writeClosed writer.start value = (tokens value, writer.start)
  rests : writer.close writer.start = ([], writer.start)

/-- Every value begins with a token before it is closed. -/
def Begins (writer : Writer τ α) : Prop :=
  ∀ value, (writer.write writer.start value).1 ≠ []

theorem writeClosed_eq {writer : Writer τ α} {state middle next : writer.State} {value : α}
    {written closing : List τ} (hwrite : writer.write state value = (written, middle))
    (hclose : writer.close middle = (closing, next)) :
    writer.writeClosed state value = (written ++ closing, next) := by
  simp only [writeClosed, hwrite, hclose]

namespace Renders

variable {writer : Writer τ α} {tokens : α → List τ}

/-- What is written before the closing and what is written by it. -/
theorem exists_closing (hrenders : writer.Renders tokens) (value : α) :
    ∃ written middle closing, writer.write writer.start value = (written, middle) ∧
      writer.close middle = (closing, writer.start) ∧ written ++ closing = tokens value := by
  have hemits := hrenders.emits value
  rcases hwrite : writer.write writer.start value with ⟨written, middle⟩
  rcases hclose : writer.close middle with ⟨closing, next⟩
  rw [writeClosed_eq hwrite hclose] at hemits
  obtain ⟨htokens, rfl⟩ := Prod.mk.inj hemits
  exact ⟨written, middle, closing, rfl, hclose, htokens⟩

theorem congr (hrenders : writer.Renders tokens) {others : α → List τ}
    (hothers : ∀ value, tokens value = others value) : writer.Renders others := by
  have hsame : tokens = others := by
    funext value
    exact hothers value
  rwa [← hsame]

theorem ofTokens (tokens : α → List τ) : (Writer.ofTokens tokens).Renders tokens where
  emits value := by simp [writeClosed, Writer.ofTokens]
  rests := rfl

theorem contramap (hrenders : writer.Renders tokens) (f : β → α) :
    (writer.contramap f).Renders fun value => tokens (f value) where
  emits value := hrenders.emits (f value)
  rests := hrenders.rests

theorem writeEach (hrenders : writer.Renders tokens) (values : List α) :
    writer.writeEach writer.start values = (values.flatMap tokens, writer.start) := by
  induction values with
  | nil => rfl
  | cons value values ih =>
      rw [Writer.writeEach, hrenders.emits]
      simp only [ih]
      rfl

theorem collect (hrenders : writer.Renders tokens) :
    writer.collect.Renders fun values => values.flatMap tokens where
  emits values := by
    change ((writer.writeEach writer.start values).1 ++
      (writer.close (writer.writeEach writer.start values).2).1,
        (writer.close (writer.writeEach writer.start values).2).2) = _
    rw [hrenders.writeEach, hrenders.rests, List.append_nil]
    rfl
  rests := hrenders.rests

theorem optional (hrenders : writer.Renders tokens) :
    writer.optional.Renders fun value => (value.map tokens).getD [] where
  emits value := by
    cases value with
    | some value => exact hrenders.emits value
    | none =>
        change ([] ++ (writer.close writer.start).1, (writer.close writer.start).2) = _
        rw [hrenders.rests]
        rfl
  rests := hrenders.rests

theorem skipEmpty {writer : Writer τ (List α)} {tokens : List α → List τ}
    (hrenders : writer.Renders tokens) :
    writer.skipEmpty.Renders fun values => if values.isEmpty then [] else tokens values where
  emits values := by
    cases values with
    | nil => exact hrenders.optional.emits none
    | cons value values => exact hrenders.emits (value :: values)
  rests := hrenders.rests

theorem fixed (hrenders : writer.Renders tokens) (value : α) :
    (writer.fixed value).Renders fun _ => tokens value :=
  hrenders.contramap _

/-- Writers side by side write one after the other and leave nothing open. -/
theorem write_besideAll (hrenders : writer.Renders tokens) {rest : Parts (Writer τ) β}
    {others : β → List τ}
    (hrest : ∀ values, (besideAll rest).write (besideAll rest).start values =
      (others values, (besideAll rest).start)) (values : α × β) :
    (besideAll (.cons writer rest)).write (besideAll (.cons writer rest)).start values =
      (tokens values.1 ++ others values.2, (besideAll (.cons writer rest)).start) := by
  simp only [besideAll, Writer.beside, hrenders.emits, hrest]

/-- A lone part stays open until the composition is closed, which makes no
difference to what it renders. -/
theorem parts (hrenders : writer.Renders tokens) {rest : Parts (Writer τ) β}
    {others : β → List τ}
    (hrest : ∀ values, (besideAll rest).write (besideAll rest).start values =
      (others values, (besideAll rest).start)) :
    (Writer.parts (.cons writer rest)).Renders fun values =>
      tokens values.1 ++ others values.2 := by
  -- Only two parts or more are written side by side.
  cases rest with
  | nil =>
      have hnothing : ∀ values : Unit, others values = [] := by
        intro values
        exact (congrArg Prod.fst (hrest values)).symm
      apply (hrenders.contramap Prod.fst).congr
      intro values
      rw [hnothing, List.append_nil]
  | cons second rest =>
      constructor
      · intro values
        have hclosed := writeClosed_eq (hrenders.write_besideAll hrest values) rfl
        rwa [List.append_nil] at hclosed
      · rfl

end Renders

/-! ## Values that share what is open -/

/-- Write each value and close it at once, as an array does with its elements. -/
def closingEach (writer : Writer τ α) : Writer τ α where
  State := writer.State
  start := writer.start
  write := writer.writeClosed
  close state := ([], state)

/-- A writer that gives the values of a list common tokens, if there are any, and
is ready for the next list when it is closed behind them. -/
structure Shares (writer : Writer τ α) (tokens : List α → List τ) : Prop where
  emits : ∀ value values, ∃ written middle closing,
    writer.writeShared writer.start (value :: values) = (written, middle) ∧
      writer.close middle = (closing, writer.start) ∧
        written ++ closing = tokens (value :: values)
  rests : writer.close writer.start = ([], writer.start)

theorem writeShared_cons_of_write {writer : Writer τ α} {state next : writer.State} {value : α}
    {written : List τ} (hwrite : writer.write state value = (written, next)) (values : List α) :
    writer.writeShared state (value :: values) =
      (written ++ (writer.writeShared next values).1, (writer.writeShared next values).2) := by
  simp only [writeShared, hwrite]

namespace Shares

variable {writer : Writer τ α} {tokens : List α → List τ}

theorem congr (hshares : writer.Shares tokens) {others : List α → List τ}
    (hothers : ∀ values, tokens values = others values) : writer.Shares others := by
  have hsame : tokens = others := by
    funext values
    exact hothers values
  rwa [← hsame]

/-- A list of one value is rendered by itself. -/
theorem renders (hshares : writer.Shares tokens) : writer.Renders fun value => tokens [value] where
  emits value := by
    obtain ⟨written, middle, closing, hwrite, hclose, htokens⟩ := hshares.emits value []
    rw [writeShared_cons_of_write rfl, writeShared_nil, List.append_nil] at hwrite
    rw [← htokens]
    exact writeClosed_eq hwrite hclose
  rests := hshares.rests

theorem contramap (hshares : writer.Shares tokens) (f : β → α) :
    (writer.contramap f).Shares fun values => tokens (values.map f) where
  emits value values := by
    have hmap (state : writer.State) (values : List β) :
        (writer.contramap f).writeShared state values = writer.writeShared state (values.map f) := by
      induction values generalizing state with
      | nil => rfl
      | cons value values ih =>
          have hrest := congrArg (fun read => ((writer.write state (f value)).1 ++ read.1, read.2))
            (ih (writer.write state (f value)).2)
          exact hrest
    obtain ⟨written, middle, closing, hwrite, hclose, htokens⟩ :=
      hshares.emits (f value) (values.map f)
    exact ⟨written, middle, closing, (hmap _ _).trans hwrite, hclose, htokens⟩
  rests := hshares.rests

/-- A writer that leaves nothing open between two values. -/
theorem of_write {tokens : α → List τ}
    (hwrite : ∀ value, writer.write writer.start value = (tokens value, writer.start))
    (hrests : writer.close writer.start = ([], writer.start)) :
    writer.Shares fun values => values.flatMap tokens where
  emits value values := by
    have hshared (values : List α) :
        writer.writeShared writer.start values = (values.flatMap tokens, writer.start) := by
      induction values with
      | nil => rfl
      | cons value values ih =>
          rw [writeShared_cons_of_write (hwrite value), ih]
          rfl
    exact ⟨_, _, [], hshared _, hrests, List.append_nil _⟩
  rests := hrests

/-- A writer that opens something in front of the first value, goes on behind it
with what an inner writer gives, and closes it at the end. -/
theorem of_opening {inner : Writer τ α} {tokens : List α → List τ}
    (hshares : inner.Shares tokens) (outer : Writer τ α) (inside : inner.State → outer.State)
    (opening : List τ) (ending : List τ)
    (hopens : ∀ value, outer.write outer.start value =
      (opening ++ (inner.write inner.start value).1, inside (inner.write inner.start value).2))
    (hinside : ∀ state value, outer.write (inside state) value =
      ((inner.write state value).1, inside (inner.write state value).2))
    (hcloses : ∀ {state closing}, inner.close state = (closing, inner.start) →
      outer.close (inside state) = (closing ++ ending, outer.start))
    (hrests : outer.close outer.start = ([], outer.start)) :
    outer.Shares fun values => opening ++ tokens values ++ ending where
  emits value values := by
    have hshared (state : inner.State) (values : List α) :
        outer.writeShared (inside state) values =
          ((inner.writeShared state values).1, inside (inner.writeShared state values).2) := by
      induction values generalizing state with
      | nil => rfl
      | cons value values ih =>
          rw [writeShared_cons_of_write (hinside state value), writeShared_cons_of_write rfl, ih]
    obtain ⟨written, middle, closing, hwrite, hclose, htokens⟩ := hshares.emits value values
    rw [writeShared_cons_of_write rfl] at hwrite
    obtain ⟨hwritten, hmiddle⟩ := Prod.mk.inj hwrite
    refine ⟨opening ++ written, inside middle, closing ++ ending, ?_, ?_, ?_⟩
    · rw [writeShared_cons_of_write (hopens value), hshared, List.append_assoc, hwritten, hmiddle]
    · exact hcloses hclose
    · rw [← htokens]
      simp
  rests := hrests

end Shares

end Writer

/-- Writing a list and closing gives its common tokens. -/
theorem WriteCodec.writeAll_cons {codec : WriteCodec τ α} {tokens : List α → List τ}
    (hshares : codec.writer.Shares tokens) (value : α) (values : List α) :
    codec.writeAll (value :: values) = tokens (value :: values) := by
  obtain ⟨written, middle, closing, hwrite, hclose, htokens⟩ := hshares.emits value values
  simp only [writeAll, hwrite, hclose, htokens]

/-- Nothing is written for no values. -/
theorem WriteCodec.writeAll_nil {codec : WriteCodec τ α} {tokens : List α → List τ}
    (hshares : codec.writer.Shares tokens) : codec.writeAll [] = [] := by
  simp only [writeAll, Writer.writeShared_nil, hshares.rests, List.append_nil]

namespace Json

open Writer

variable {writer : Writer Token α} {tokens : α → List Token}

/-- A member writes its name in front of a value that begins. -/
theorem writeClosed_memberWriter (hrenders : writer.Renders tokens) {value : α}
    (hbegins : (writer.write writer.start value).1 ≠ []) (name : String) :
    (memberWriter name writer).writeClosed (memberWriter name writer).start value =
      (.name name :: tokens value, (memberWriter name writer).start) := by
  obtain ⟨written, middle, closing, hwrite, hclose, htokens⟩ := hrenders.exists_closing value
  rw [hwrite] at hbegins
  have hnonempty : written.isEmpty = false := by
    simpa using hbegins
  have hmember : (memberWriter name writer).write (writer.start, false) value =
      (.name name :: written, (middle, true)) := by
    simp only [memberWriter, hwrite, hnonempty, Bool.or_false, Bool.false_eq_true, if_false]
  have hclosing : (memberWriter name writer).close (middle, true) =
      (closing, (writer.start, false)) := by
    simp only [memberWriter, hclose, if_true]
  rw [← htokens]
  exact writeClosed_eq hmember hclosing

theorem rests_memberWriter (hrenders : writer.Renders tokens) (name : String) :
    (memberWriter name writer).close (memberWriter name writer).start =
      ([], (memberWriter name writer).start) := by
  simp [memberWriter, hrenders.rests]

theorem renders_memberWriter (hrenders : writer.Renders tokens) (hbegins : writer.Begins)
    (name : String) :
    (memberWriter name writer).Renders fun value => .name name :: tokens value where
  emits value := writeClosed_memberWriter hrenders (hbegins value) name
  rests := rests_memberWriter hrenders name

theorem renders_anyMemberWriter (hrenders : writer.Renders tokens) :
    (anyMemberWriter writer).Renders fun pair => .name pair.1 :: tokens pair.2 where
  emits pair := by
    have hpair : (anyMemberWriter writer).write writer.start pair =
        (.name pair.1 :: tokens pair.2, writer.start) := by
      simp only [anyMemberWriter, hrenders.emits]
    have hclosed := writeClosed_eq hpair rfl
    rwa [List.append_nil] at hclosed
  rests := rfl

/-- An array renders between its brackets. -/
theorem renders_arrayWriter (hrenders : writer.Renders tokens) :
    (arrayWriter writer).Renders fun value => .startArray :: tokens value ++ [.endArray] where
  emits value := by
    have harray : (arrayWriter writer).write (writer.start, false) value =
        (.startArray :: tokens value, (writer.start, true)) := by
      simp only [arrayWriter, hrenders.emits, Bool.false_eq_true, if_false]
    exact writeClosed_eq harray rfl
  rests := rfl

theorem begins_arrayWriter (writer : Writer Token α) : (arrayWriter writer).Begins :=
  fun _ => List.cons_ne_nil _ _

/-- An object renders between its braces, with the conditions behind the
parts. -/
theorem renders_objectWriter (hrenders : writer.Renders tokens) (conditions : List Token) :
    (objectWriter writer conditions).Renders fun value =>
      .startObject :: (tokens value ++ conditions) ++ [.endObject] where
  emits value := by
    obtain ⟨written, middle, closing, hwrite, hclose, htokens⟩ := hrenders.exists_closing value
    have hobject : (objectWriter writer conditions).write (writer.start, false) value =
        (.startObject :: written, (middle, true)) := by
      simp only [objectWriter, hwrite, Bool.false_eq_true, if_false]
    have hclosing : (objectWriter writer conditions).close (middle, true) =
        (closing ++ conditions ++ [.endObject], (writer.start, false)) := by
      simp only [objectWriter, hclose, if_true]
    have htogether : .startObject :: (tokens value ++ conditions) ++ [.endObject] =
        .startObject :: written ++ (closing ++ conditions ++ [.endObject]) := by
      simp [← htokens]
    rw [htogether]
    exact writeClosed_eq hobject hclosing
  rests := by
    simp [objectWriter, hrenders.rests]

theorem begins_objectWriter (writer : Writer Token α) (conditions : List Token) :
    (objectWriter writer conditions).Begins :=
  fun _ => List.cons_ne_nil _ _

/-- The writer of objects that hold any names. -/
def entriesWriter (writer : Writer Token α) : Writer Token (Entries String α × Unit) :=
  objectWriter (.parts (.one ((anyMemberWriter writer).collect.contramap Entries.toList))) []

/-- Pairs render as the members of an object. -/
theorem renders_entriesWriter (hrenders : writer.Renders tokens) :
    (entriesWriter writer).Renders fun value =>
      .startObject :: (value.1.toList.flatMap fun pair => .name pair.1 :: tokens pair.2) ++
        [.endObject] := by
  have hpairs := (renders_anyMemberWriter hrenders).collect.contramap
    fun entries : Entries String α => entries.toList
  have hnothing (value : Unit) : (Writer.besideAll (.nil : Parts (Writer Token) Unit)).write
      (Writer.besideAll .nil).start value = ([], (Writer.besideAll .nil).start) := rfl
  apply (renders_objectWriter (hpairs.parts hnothing) []).congr
  intro value
  rw [List.append_nil, List.append_nil]

/-! ## Values in one document -/

variable {shared : List α → List Token}

/-- A member goes on from value to value. -/
theorem shares_memberWriter (hshares : writer.Shares shared) (hbegins : writer.Begins)
    (name : String) :
    (memberWriter name writer).Shares fun values => .name name :: shared values := by
  have hopens (value : α) : (memberWriter name writer).write (writer.start, false) value =
      (.name name :: (writer.write writer.start value).1,
        ((writer.write writer.start value).2, true)) := by
    have hfirst : (writer.write writer.start value).1.isEmpty = false := by
      simpa using hbegins value
    simp [memberWriter, hfirst]
  have hmember := hshares.of_opening (memberWriter name writer) (·, true) [.name name] [] hopens
    (fun state value => by simp [memberWriter])
    (fun hclose => by simp [memberWriter, hclose]) (by simp [memberWriter, hshares.rests])
  simpa using hmember

/-- An object goes on from value to value. -/
theorem shares_objectWriter (hshares : writer.Shares shared) :
    (objectWriter writer []).Shares fun values =>
      .startObject :: shared values ++ [.endObject] :=
  hshares.of_opening (objectWriter writer []) (·, true) [.startObject] [.endObject]
    (fun _ => rfl) (fun _ _ => rfl) (fun hclose => by simp [objectWriter, hclose])
    (by simp [objectWriter, hshares.rests])

/-- The object with one member. -/
def enclosed (member : Codec Token α) : Codec Token α :=
  (Codec.object (.one member)).imap Prod.fst (·, ())

theorem shares_enclosed (member : Codec Token α) (hshares : member.writer.Shares shared) :
    (enclosed member).writer.Shares fun values =>
      .startObject :: shared values ++ [.endObject] := by
  apply ((shares_objectWriter (hshares.contramap Prod.fst)).contramap (·, ())).congr
  intro values
  rw [List.map_map]
  exact congrArg (fun values => .startObject :: shared values ++ [.endObject]) values.map_id

/-- An array goes on with a further element. -/
theorem shares_arrayWriter (hrenders : writer.Renders tokens) :
    (arrayWriter writer).Shares fun values =>
      .startArray :: values.flatMap tokens ++ [.endArray] := by
  have hclosing : writer.closingEach.Shares fun values => values.flatMap tokens :=
    .of_write hrenders.emits rfl
  refine hclosing.of_opening (arrayWriter writer) (·, true) [.startArray] [.endArray]
    (fun _ => rfl) (fun _ _ => rfl) (fun {state} {written} hclose => ?_) rfl
  obtain ⟨rfl, rfl⟩ := Prod.mk.inj hclose
  rfl

theorem shares_anyMemberWriter (hrenders : writer.Renders tokens) :
    (anyMemberWriter writer).Shares fun pairs =>
      pairs.flatMap fun pair => .name pair.1 :: tokens pair.2 := by
  apply Shares.of_write _ rfl
  intro pair
  simp only [anyMemberWriter, hrenders.emits]

end Json

end TokenCodec
