import TokenCodec.Proofs.Xml.Elements
import TokenCodec.Proofs.Xml.Readable

/-!
# Conditions over a stream of elements

The conditions of an element bind an attribute, a child element or the text to
a fixed value.  A match with an attribute or a child is made at a token, and the
end of the element forgets it.  A match with the text is only made at the end of
the element, where it stays noted: the next element then passes whatever its
text is, and only the one behind it is checked again.  So a reader with a
condition on the text is at its start again behind every second element, and
without one behind every element.
-/

namespace TokenCodec

variable {τ α β : Type}

/-! ## Units that move a reader -/

/-- Every unit that the reader passes from one state leads to the other. -/
def Reader.Moves (reader : Reader τ α) (state next : reader.State) : Prop :=
  ∀ (tokens : List τ) (values : List α) (reached : reader.State),
    reader.consume state tokens = .ok (values, reached) →
      (reader.reset reached).1.isFailed = false → (reader.reset reached).2 = next

theorem Reader.Resets.moves {reader : Reader τ α} (hresets : reader.Resets)
    (state : reader.State) : reader.Moves state reader.start :=
  fun _ _ _ _ _ => hresets _

namespace Conditions

/-- The same for conditions that see each token in turn. -/
def Moves (conditions : Conditions τ) (state next : conditions.State) : Prop :=
  ∀ (tokens : List τ) (reached : conditions.State),
    Watcher.follow conditions.feed state tokens = .ok reached →
      (conditions.reset reached).1 = none → (conditions.reset reached).2 = next

theorem Moves.nil : (nil : Conditions τ).Moves () () :=
  fun _ _ _ _ => rfl

/-- A reset of conditions passes if every one of them passes it. -/
theorem passes_of_reset_cons {reader : Reader τ Unit} {rest : Conditions τ}
    {state : reader.State} {others : rest.State}
    (hpasses : ((cons reader rest).reset (state, others)).1 = none) :
    (reader.reset state).1.isFailed = false ∧ (rest.reset others).1 = none := by
  rcases hreset : reader.reset state with ⟨value | _ | failure, fresh⟩ <;>
    simp only [cons, hreset] at hpasses
  · exact ⟨rfl, hpasses⟩
  · exact ⟨rfl, hpasses⟩
  · cases hpasses

theorem Moves.cons {reader : Reader τ Unit} {rest : Conditions τ} {state next : reader.State}
    {others after : rest.State} (hreader : reader.Moves state next)
    (hrest : rest.Moves others after) : (cons reader rest).Moves (state, others) (next, after) := by
  intro tokens ⟨reached, reaching⟩ hfollow hpasses
  rw [feed_cons] at hfollow
  obtain ⟨hfirst, hsecond⟩ := Watcher.follow_both_of_inTurn hfollow
  obtain ⟨hpassed, hothers⟩ := passes_of_reset_cons hpasses
  rw [Reader.follow_heed] at hfirst
  obtain ⟨read, hconsume, rfl⟩ := Except.exists_of_map hfirst
  exact Prod.ext (hreader _ _ _ hconsume hpassed) (hrest _ _ hsecond hothers)

end Conditions

namespace Assembly

variable {assembly : Assembly τ β}

/-- The end of a unit passes only if the conditions do. -/
theorem passes_of_complete {slots : assembly.slots.State} {conditions : assembly.conditions.State}
    (hpasses : (assembly.complete ⟨slots, conditions, false⟩).1.isFailed = false) :
    (assembly.conditions.reset conditions).1 = none := by
  rcases hvalues : (assembly.slots.finish slots).1 with failure | value
  · simp [complete, hvalues, Outcome.isFailed] at hpasses
  · cases hfailure : (assembly.conditions.reset conditions).1 with
    | none => rfl
    | some failure => simp [complete, hvalues, hfailure, Outcome.isFailed] at hpasses

/-- The end of a unit that passes takes an assembly which holds its values back
to the start of its parts, and its conditions where the unit moves them. -/
theorem reached_of_conclude (hheld : assembly.streams = false) (hslots : assembly.slots.Resets)
    {state next : assembly.conditions.State} (hmoves : assembly.conditions.Moves state next)
    {tokens : List τ} {values : List β} {reached : assembly.State}
    (hconclude : assembly.interior.conclude ⟨assembly.slots.start, state, false⟩ tokens =
      .ok (values, reached)) : reached = ⟨assembly.slots.start, next, false⟩ := by
  obtain ⟨given, middle, released, hconsume, hrelease, -⟩ := Reader.exists_of_conclude hconclude
  rw [consume_interior_of_held hheld] at hconsume
  obtain ⟨⟨slots, conditions⟩, hround, hread⟩ := Except.exists_of_map hconsume
  cases hread
  obtain ⟨-, hfollow⟩ := Watcher.follow_both_of_inTurn hround
  have hpasses := passes_of_complete (Reader.passes_of_release hrelease)
  have hreset := Reader.reset_of_release hrelease
  have hcomplete : (assembly.complete ⟨slots, conditions, false⟩).2 =
      ⟨(assembly.slots.finish slots).2, (assembly.conditions.reset conditions).2, false⟩ := rfl
  rw [hslots.finish_eq, hmoves _ _ hfollow hpasses] at hcomplete
  exact hreset.symm.trans hcomplete

/-- A composition streams only without conditions, and then there is nothing to
move. -/
theorem reached_of_conclude_ofParts {parts : Parts (PartReader τ) β}
    {readers : List (Reader τ Unit)} (hslots : (Slots.ofParts parts).Resets)
    {state next : (Conditions.ofList readers).State}
    (hmoves : (Conditions.ofList readers).Moves state next) {tokens : List τ} {values : List β}
    {reached : (ofParts parts readers).State}
    (hconclude : (ofParts parts readers).interior.conclude
      ⟨(Slots.ofParts parts).start, state, false⟩ tokens = .ok (values, reached)) :
    reached = ⟨(Slots.ofParts parts).start, next, false⟩ := by
  cases readers with
  | nil =>
      have hresets : (ofParts parts []).Resets := ⟨hslots, fun _ => rfl⟩
      obtain ⟨_, middle, _, _, hrelease, -⟩ := Reader.exists_of_conclude hconclude
      rw [← Reader.reset_of_release hrelease]
      exact hresets.complete_eq middle
  | cons reader rest => exact reached_of_conclude (Bool.and_false _) hslots hmoves hconclude

end Assembly

namespace Xml

/-! ## The conditions of elements -/

/-- A condition that an attribute or a child element has a certain text. -/
inductive Marker where
  | onAttribute (name : Name) (value : String)
  | onChild (name : Name) (value : String)
  deriving DecidableEq, Repr

/-- The text of a child element. -/
def childText (name : Name) : Codec Token String :=
  (Codec.element name (.one text)).imap Prod.fst (·, ())

/-- The codec of a marker. -/
def Marker.condition : Marker → Condition Token
  | onAttribute name value => (ofAttribute name).fixed value
  | onChild name value => (childText name).fixed value

/-- A condition of an element: a marker, or a certain text directly inside. -/
inductive Requirement where
  | marker (bound : Marker)
  | onText (value : String)
  deriving DecidableEq, Repr

namespace Requirement

/-- The codec of a requirement. -/
def condition : Requirement → Condition Token
  | marker bound => bound.condition
  | onText value => text.fixed value

/-- A list of requirements at work. -/
def conditions (requirements : List Requirement) : Conditions Token :=
  .ofList (Condition.readers (requirements.map condition))

end Requirement

theorem readable_childText (name : Name) : Readable (childText name).toReadCodec := by
  refine .map (.elements _ _ ?_ (List.forall_mem_nil _)) _
  intro γ codec hmem
  cases Parts.mem_one hmem
  exact .text

theorem Marker.readable (marker : Marker) : Readable marker.condition.toReadCodec := by
  cases marker with
  | onAttribute name value => exact .fixed (.ofAttribute name) (silent_attributeReader _) value
  | onChild name value => exact .fixed (readable_childText name) (fun _ => rfl) value

/-- No token makes a text reader answer. -/
theorem consume_textReader_pending (state : textReader.State) (tokens : List Token) :
    ∃ next, textReader.consume state tokens = .ok ([], next) := by
  induction tokens generalizing state with
  | nil => exact ⟨state, rfl⟩
  | cons token tokens ih =>
      have hfeed : (textReader.feed state token).1 = .pending := by
        cases token with
        | characters text =>
            by_cases hdepth : state.1 = 0 <;> simp [textReader, hdepth]
        | _ => rfl
      obtain ⟨next, hnext⟩ := ih (textReader.feed state token).2
      exact ⟨next, (Reader.consume_cons_of_pending _ (Prod.ext hfeed rfl) tokens).trans hnext⟩

/-- An element whose text passes turns the note of a match around. -/
theorem moves_fixed_text (value description : String) (matched : Bool) :
    (textReader.fixed value description).Moves (textReader.start, matched)
      (textReader.start, !matched) := by
  intro tokens values reached hconsume hpasses
  obtain ⟨next, htext⟩ := consume_textReader_pending textReader.start tokens
  have hfixed := Reader.consume_fixed_of_ok value description htext (List.forall_mem_nil _) matched
  cases hfixed.symm.trans hconsume
  cases matched with
  | true => rfl
  | false =>
      by_cases hagree : (next.2 == value) = true
      · simp [Reader.fixed, textReader, Reader.compareFixed, hagree]
      · simp [Reader.fixed, textReader, Reader.compareFixed, hagree, Outcome.isFailed] at hpasses

/-- The conditions of an element move away from their start and back, and they
stay there if none of them is on the text. -/
theorem Requirement.exists_moves (requirements : List Requirement) :
    ∃ away, (conditions requirements).Moves (conditions requirements).start away ∧
      (conditions requirements).Moves away (conditions requirements).start ∧
        ((∀ value, onText value ∉ requirements) → away = (conditions requirements).start) := by
  induction requirements with
  | nil => exact ⟨(), .nil, .nil, fun _ => rfl⟩
  | cons requirement requirements ih =>
      obtain ⟨away, hleaves, hreturns, hstays⟩ := ih
      cases requirement with
      | marker bound =>
          have hbound := bound.readable.resets.reader.moves bound.condition.reader.start
          refine ⟨(bound.condition.reader.start, away), .cons hbound hleaves,
            .cons hbound hreturns, fun hmarkers => Prod.ext rfl (hstays fun value hmem => ?_)⟩
          exact hmarkers value (List.mem_cons_of_mem _ hmem)
      | onText value =>
          refine ⟨((textReader.start, true), away), .cons (moves_fixed_text value _ false) hleaves,
            .cons (moves_fixed_text value _ true) hreturns, fun hmarkers => ?_⟩
          exact absurd List.mem_cons_self (hmarkers value)

/-! ## Streams of elements -/

/-- The content of a well-formed element: its attributes, and tokens behind the
start token that close what they open. -/
structure Content where
  attributes : List Attribute
  inside : List Token
  hnested : Nested inside

/-- The tokens of an element with a certain content. -/
def Content.tokens (name : Name) (content : Content) : List Token :=
  .startElement name content.attributes :: (content.inside ++ [.endElement name])

/-- The codec of an element with requirements. -/
abbrev checked (name : Name) (parts : Parts (ReadCodec Token) β)
    (requirements : List Requirement) : ReadCodec Token β :=
  .element name parts (requirements.map Requirement.condition)

section Streams

variable {name : Name} {parts : Parts (ReadCodec Token) β} {requirements : List Requirement}
  {away : (Requirement.conditions requirements).State}

/-- The state of the reader of an element between two elements, its conditions
standing at a state of theirs. -/
def standing (name : Name) (parts : Parts (ReadCodec Token) β)
    (state : (Requirement.conditions requirements).State) :
    (checked name parts requirements).reader.State :=
  (⟨(Slots.ofParts (parts.mapParts ReadCodec.part)).start, state, false⟩, .outside)

/-- One element moves the conditions and nothing else. -/
theorem reached_of_element
    (hparts : ∀ {γ : Type} {codec : ReadCodec Token γ}, parts.Mem codec → codec.Resets)
    {state next : (Requirement.conditions requirements).State}
    (hmoves : (Requirement.conditions requirements).Moves state next) {content : Content}
    {values : List β} {reached : (checked name parts requirements).reader.State}
    (hconsume : (checked name parts requirements).reader.consume (standing name parts state)
      (content.tokens name) = .ok (values, reached)) :
    reached = standing name parts next := by
  obtain ⟨given, after, rfl, hconclude⟩ := conclude_of_consume_elementReader
    (decide_eq_true rfl) content.hnested hconsume
  have hslots := Slots.Resets.ofParts (resets_partReaders hparts)
  rw [Assembly.reached_of_conclude_ofParts hslots hmoves hconclude]
  rfl

/-- Where conditions stand behind a number of elements. -/
def phase (away : (Requirement.conditions requirements).State) (count : Nat) :
    (Requirement.conditions requirements).State :=
  if count % 2 = 0 then (Requirement.conditions requirements).start else away

theorem moves_phase
    (hleaves : (Requirement.conditions requirements).Moves
      (Requirement.conditions requirements).start away)
    (hreturns : (Requirement.conditions requirements).Moves away
      (Requirement.conditions requirements).start) (count : Nat) :
    (Requirement.conditions requirements).Moves (phase away count) (phase away (count + 1)) := by
  rcases Nat.mod_two_eq_zero_or_one count with heven | hodd
  · have hnext : (count + 1) % 2 ≠ 0 := by omega
    rwa [phase, phase, if_pos heven, if_neg hnext]
  · have hthis : count % 2 ≠ 0 := by omega
    have hnext : (count + 1) % 2 = 0 := by omega
    rwa [phase, phase, if_neg hthis, if_pos hnext]

/-- Elements that are read one after the other move the conditions step by
step. -/
theorem reached_of_elements
    (hparts : ∀ {γ : Type} {codec : ReadCodec Token γ}, parts.Mem codec → codec.Resets)
    (hmoves : ∀ count, (Requirement.conditions requirements).Moves (phase away count)
      (phase away (count + 1))) {contents : List Content} (count : Nat) {values : List β}
    {reached : (checked name parts requirements).reader.State}
    (hconsume : (checked name parts requirements).reader.consume
      (standing name parts (phase away count)) (contents.flatMap (Content.tokens name)) =
        .ok (values, reached)) :
    reached = standing name parts (phase away (count + contents.length)) := by
  induction contents generalizing count values with
  | nil =>
      cases hconsume
      rfl
  | cons content contents ih =>
      rw [List.flatMap_cons] at hconsume
      obtain ⟨_, middle, _, hfirst, hrest, -⟩ := Reader.exists_of_consume_append hconsume
      obtain rfl := reached_of_element hparts (hmoves count) hfirst
      rw [ih (count + 1) hrest, List.length_cons, Nat.add_assoc, Nat.add_comm 1]

/-- Behind elements that were read the reader is at its start again, if no
condition is on the text or their number is even. -/
theorem reached_eq_start
    (hparts : ∀ {γ : Type} {codec : ReadCodec Token γ}, parts.Mem codec → codec.Resets)
    {earlier : List Content} {values : List β}
    {reached : (checked name parts requirements).reader.State}
    (hconsume : (checked name parts requirements).reader.consume
      (checked name parts requirements).reader.start
      (earlier.flatMap (Content.tokens name)) = .ok (values, reached))
    (hphase : (∀ value, .onText value ∉ requirements) ∨ earlier.length % 2 = 0) :
    reached = (checked name parts requirements).reader.start := by
  obtain ⟨away, hleaves, hreturns, hstays⟩ := Requirement.exists_moves requirements
  have hreached := reached_of_elements hparts (moves_phase hleaves hreturns) 0 hconsume
  have hback : phase away (0 + earlier.length) = (Requirement.conditions requirements).start := by
    rw [phase, Nat.zero_add]
    rcases hphase with hmarkers | heven
    · rw [hstays hmarkers, ite_self]
    · exact if_pos heven
  rw [hreached, hback]
  rfl

/-- A reader answers to the next element like a fresh one, if the elements
before it were read, and no condition is on the text or their number is even. -/
theorem run_element_afresh
    (hparts : ∀ {γ : Type} {codec : ReadCodec Token γ}, parts.Mem codec → codec.Resets)
    {γ : Type} (produce : β → γ) {earlier : List Content} {values : List γ}
    {reached : ((checked name parts requirements).map produce).reader.State}
    (hearlier : ((checked name parts requirements).map produce).reader.consume
      ((checked name parts requirements).map produce).reader.start
      (earlier.flatMap (Content.tokens name)) = .ok (values, reached))
    (hphase : (∀ value, .onText value ∉ requirements) ∨ earlier.length % 2 = 0)
    (content : Content) :
    (((checked name parts requirements).map produce).reader.run reached
        (content.tokens name)).1 =
      (((checked name parts requirements).map produce).reader.run
        ((checked name parts requirements).map produce).reader.start (content.tokens name)).1 := by
  obtain ⟨given, hconsume, -⟩ := Reader.exists_of_consume_map hearlier
  rw [reached_eq_start hparts hconsume hphase]
  rfl

end Streams

/-- Elements `p` with an attribute `a` as their value, which hold the text `x`. -/
def labelled : ReadCodec Token String :=
  (checked (.plain "p") (.one (ofAttribute (.plain "a")).toReadCodec) [.onText "x"]).map Prod.fst

/-- The content of such an element. -/
def labelContent (label body : String) : Content :=
  ⟨[⟨.plain "a", label⟩], [.characters body], .flat rfl .nil⟩

/-- Behind two elements a third one with another text is refused. -/
theorem run_element_afresh_third :
    let earlier := [labelContent "1" "x", labelContent "2" "x"].flatMap (Content.tokens (.plain "p"))
    let reached := (labelled.reader.run labelled.reader.start earlier).2
    (labelled.reader.run reached ((labelContent "3" "y").tokens (.plain "p"))).1 =
      [.pending, .pending, .failed (.within "p" (.here (.unexpected "(body)=x" "y")))] :=
  have hparts {γ : Type} {codec : ReadCodec Token γ}
      (hmem : (Parts.one (ofAttribute (.plain "a")).toReadCodec).Mem codec) : codec.Resets := by
    cases Parts.mem_one hmem
    exact (Readable.ofAttribute _).resets
  have hread : labelled.reader.consume labelled.reader.start
      ([labelContent "1" "x", labelContent "2" "x"].flatMap (Content.tokens (.plain "p"))) =
        .ok (["1", "2"], labelled.reader.start) := rfl
  have hafresh := run_element_afresh hparts Prod.fst hread (.inr rfl) (labelContent "3" "y")
  hafresh.trans rfl

/-- Behind one element a second one with another text is read all the same. -/
theorem run_element_second_passes :
    let earlier := (labelContent "1" "x").tokens (.plain "p")
    let reached := (labelled.reader.run labelled.reader.start earlier).2
    let second := (labelContent "2" "y").tokens (.plain "p")
    (labelled.reader.run labelled.reader.start earlier).1 = [.pending, .pending, .produced "1"] ∧
      (labelled.reader.run reached second).1 = [.pending, .pending, .produced "2"] ∧
      (labelled.reader.run labelled.reader.start second).1 =
        [.pending, .pending, .failed (.within "p" (.here (.unexpected "(body)=x" "y")))] :=
  ⟨rfl, rfl, rfl⟩

end Xml

end TokenCodec
