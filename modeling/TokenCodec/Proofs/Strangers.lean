import TokenCodec.Proofs.Layouts
import TokenCodec.Proofs.Streams

/-!
# Strangers among the members

The parts of an object and its conditions all see every member, also one whose name
none of them knows.  The value of such a stranger may be anything: it may hold the
names that the parts look for, and values that their conditions ask for.  Every part
passes over it, with a depth of its own, and stands where it stood before.  So does
the object then, whatever it had read, gave or noted until there, and neither the
values nor the failures of a document depend on the strangers in it.

Nothing of this is about JSON alone.  A machine overlooks a stranger among the pieces
of a unit if it is at rest between pieces, and the stranger moves it from no state of
rest.  Combinators keep that up.
-/

namespace TokenCodec

open Alphabet

variable {τ α β κ σ ρ : Type}

/-! ## What shows of a unit -/

namespace Reader

/-- What shows of a run: its values up to the first failure, and that failure. -/
def surfaced (reader : Reader τ α) : reader.State → List τ → List (Except Failure α)
  | _, [] => []
  | state, token :: tokens =>
      match reader.feed state token with
      | (.produced value, next) => .ok value :: reader.surfaced next tokens
      | (.pending, next) => reader.surfaced next tokens
      | (.failed failure, _) => [.error failure]

variable {reader : Reader τ α}

theorem surfaced_cons_of_produced {state next : reader.State} {token : τ} {value : α}
    (hfeed : reader.feed state token = (.produced value, next)) (tokens : List τ) :
    reader.surfaced state (token :: tokens) = .ok value :: reader.surfaced next tokens := by
  rw [surfaced, hfeed]

theorem surfaced_cons_of_pending {state next : reader.State} {token : τ}
    (hfeed : reader.feed state token = (.pending, next)) (tokens : List τ) :
    reader.surfaced state (token :: tokens) = reader.surfaced next tokens := by
  rw [surfaced, hfeed]

theorem surfaced_cons_of_failed {state next : reader.State} {token : τ} {failure : Failure}
    (hfeed : reader.feed state token = (.failed failure, next)) (tokens : List τ) :
    reader.surfaced state (token :: tokens) = [.error failure] := by
  rw [surfaced, hfeed]

theorem surfaced_append_of_ok {state next : reader.State} {front : List τ} {values : List α}
    (hfront : reader.consume state front = .ok (values, next)) (back : List τ) :
    reader.surfaced state (front ++ back) = values.map .ok ++ reader.surfaced next back := by
  replace hfront := passes_of_consume hfront
  induction hfront with
  | done state => rfl
  | produced hfeed _ ih =>
      rw [List.cons_append, surfaced_cons_of_produced hfeed, ih]
      rfl
  | pending hfeed _ ih => rw [List.cons_append, surfaced_cons_of_pending hfeed, ih]

theorem surfaced_append_of_error {state : reader.State} {front : List τ} {failure : Failure}
    (hfront : reader.consume state front = .error failure) (back : List τ) :
    reader.surfaced state (front ++ back) = reader.surfaced state front := by
  replace hfront := breaks_of_consume hfront
  induction hfront with
  | failed hfeed tokens =>
      rw [List.cons_append, surfaced_cons_of_failed hfeed, surfaced_cons_of_failed hfeed]
  | produced hfeed _ ih =>
      rw [List.cons_append, surfaced_cons_of_produced hfeed, surfaced_cons_of_produced hfeed, ih]
  | pending hfeed _ ih =>
      rw [List.cons_append, surfaced_cons_of_pending hfeed, surfaced_cons_of_pending hfeed, ih]

/-- What does not move the reader does not show. -/
theorem surfaced_insert {state : reader.State} {front stranger : List τ}
    (hstranger : ∀ values next, reader.consume state front = .ok (values, next) →
      reader.consume next stranger = .ok ([], next)) (back : List τ) :
    reader.surfaced state (front ++ (stranger ++ back)) =
      reader.surfaced state (front ++ back) := by
  rcases hfront : reader.consume state front with failure | ⟨values, next⟩
  · rw [surfaced_append_of_error hfront, surfaced_append_of_error hfront]
  · rw [surfaced_append_of_ok hfront, surfaced_append_of_ok hfront,
      surfaced_append_of_ok (hstranger values next hfront)]
    rfl

theorem surfaced_map (reader : Reader τ α) (f : α → β) (state : reader.State)
    (tokens : List τ) :
    (reader.map f).surfaced state tokens = (reader.surfaced state tokens).map (Except.map f) := by
  induction tokens generalizing state with
  | nil => rfl
  | cons token tokens ih =>
      rcases hfeed : reader.feed state token with ⟨value | _ | failure, next⟩
      · have hmapped : (reader.map f).feed state token = (.produced (f value), next) := by
          simp [map, refine, hfeed]
        rw [surfaced_cons_of_produced hfeed, surfaced_cons_of_produced hmapped, ih]
        rfl
      · have hmapped : (reader.map f).feed state token = (.pending, next) := by
          simp [map, refine, hfeed]
        rw [surfaced_cons_of_pending hfeed, surfaced_cons_of_pending hmapped, ih]
      · have hmapped : (reader.map f).feed state token = (.failed failure, next) := by
          simp [map, refine, hfeed]
        rw [surfaced_cons_of_failed hfeed, surfaced_cons_of_failed hmapped]
        rfl

end Reader

/-- If a reset never gives a value, a decoder gives for a unit what shows of it, however
it meets failures and the end of the input. -/
theorem Decoder.itemsFrom_unit [Alphabet τ] {decoder : Decoder τ α}
    (hsilent : decoder.reader.Silent) {depth : Nat} {tokens : List τ}
    (hends : EndsUnit depth tokens) (state : decoder.reader.State) (holding : Bool) :
    decoder.itemsFrom ⟨state, depth, holding, false⟩ tokens =
      decoder.reader.surfaced state tokens := by
  have hnothing (state : decoder.reader.State) (holding : Bool) :
      decoder.itemsFrom ⟨state, 0, holding, false⟩ [] = [] :=
    itemsFrom_nil fun _ => hsilent state
  induction hends generalizing state holding with
  | @last depth token hzero =>
      rcases hfeed : decoder.reader.feed state token with ⟨value | _ | failure, next⟩
      · rw [itemsFrom_cons_of_produced hfeed, Reader.surfaced_cons_of_produced hfeed, hzero,
          hnothing]
        rfl
      · rw [itemsFrom_cons_of_pending hfeed, Reader.surfaced_cons_of_pending hfeed, hzero,
          hnothing]
        rfl
      · rw [Reader.surfaced_cons_of_failed hfeed]
        cases hfast : decoder.options.failFast with
        | true => simp [itemsFrom, feed, hfeed, hfast]
        | false =>
            rw [itemsFrom]
            simpa [feed, hfeed, hfast, hzero] using hnothing (decoder.reader.discard next) false
  | @step depth token tokens hopen hends ih =>
      rcases hfeed : decoder.reader.feed state token with ⟨value | _ | failure, next⟩
      · rw [itemsFrom_cons_of_produced hfeed, Reader.surfaced_cons_of_produced hfeed, ih]
      · rw [itemsFrom_cons_of_pending hfeed, Reader.surfaced_cons_of_pending hfeed, ih]
      · rw [Reader.surfaced_cons_of_failed hfeed]
        cases hfast : decoder.options.failFast with
        | true => simp [itemsFrom, feed, hfeed, hfast]
        | false =>
            -- The rest of the unit is passed over.
            have hskip := itemsFrom_skipping hends (decoder.reader.discard next) false []
            rw [List.append_nil, hnothing] at hskip
            simpa [itemsFrom, feed, hfeed, hfast, bne_iff_ne.mpr hopen] using hskip

/-! ## Machines that overlook a stranger -/

/-- The runs of a machine from states of rest: pieces lead to states of rest again, and
the stranger changes nothing.  `unmoved` is the result of a run in which nothing happens,
and `after` the state in the result of a run. -/
structure Overlooking (pieces : List τ → Prop) (stranger : List τ) (rests : σ → Prop)
    (run : σ → List τ → Except Failure ρ) (unmoved : σ → ρ) (after : ρ → σ) : Prop where
  piece : ∀ {state : σ} {tokens : List τ} {read : ρ}, rests state → pieces tokens →
    run state tokens = .ok read → rests (after read)
  stranger : ∀ {state : σ}, rests state → run state stranger = .ok (unmoved state)

/-- A machine whose runs are those of another one, with something to keep beside the
state, overlooks what the other one does. -/
theorem Overlooking.along {pieces : List τ → Prop} {stranger : List τ} {rests : σ → Prop}
    {run : σ → List τ → Except Failure ρ} {unmoved : σ → ρ} {after : ρ → σ}
    (hmachine : Overlooking pieces stranger rests run unmoved after) {κ υ φ : Type}
    {runs : υ → List τ → Except Failure φ} {stays : υ → φ} {afters : φ → υ} (place : κ → σ → υ)
    (give : κ → ρ → φ) (keep : κ → ρ → κ)
    (hruns : ∀ kept state tokens,
      runs (place kept state) tokens = (run state tokens).map (give kept))
    (hstays : ∀ kept state, give kept (unmoved state) = stays (place kept state))
    (hafters : ∀ kept read, afters (give kept read) = place (keep kept read) (after read)) :
    Overlooking pieces stranger (fun state => ∃ kept inner, rests inner ∧ state = place kept inner)
      runs stays afters where
  piece := by
    rintro _ tokens read ⟨kept, inner, hrests, rfl⟩ hpiece hread
    rw [hruns] at hread
    obtain ⟨given, hgiven, rfl⟩ := Except.exists_of_map hread
    exact ⟨_, _, hmachine.piece hrests hpiece hgiven, hafters kept given⟩
  stranger := by
    rintro _ ⟨kept, inner, hrests, rfl⟩
    rw [hruns, hmachine.stranger hrests]
    exact congrArg Except.ok (hstays kept inner)

/-- A reader that overlooks a stranger, and is at rest when it starts. -/
def Reader.Overlooks (reader : Reader τ α) (pieces : List τ → Prop) (stranger : List τ) : Prop :=
  ∃ rests : reader.State → Prop, rests reader.start ∧
    Overlooking pieces stranger rests reader.consume ([], ·) Prod.snd

/-- A watcher that overlooks a stranger, and is at rest when it starts. -/
def Watcher.Overlooks (watcher : Watcher τ σ) (start : σ) (pieces : List τ → Prop)
    (stranger : List τ) : Prop :=
  ∃ rests : σ → Prop, rests start ∧ Overlooking pieces stranger rests watcher.follow id id

section Closure

variable {pieces : List τ → Prop} {stranger : List τ}

/-- Any number of pieces leads from rest to rest. -/
theorem Overlooking.behind {reader : Reader τ α} {rests : reader.State → Prop}
    (hmachine : Overlooking pieces stranger rests reader.consume ([], ·) Prod.snd)
    {runs : List (List τ)} (hruns : ∀ run ∈ runs, pieces run) {state next : reader.State}
    {values : List α} (hrests : rests state)
    (hconsume : reader.consume state runs.flatten = .ok (values, next)) : rests next := by
  induction runs generalizing state values with
  | nil =>
      cases hconsume
      exact hrests
  | cons run runs ih =>
      rw [List.flatten_cons] at hconsume
      obtain ⟨given, middle, more, hfirst, hrest, -⟩ := Reader.exists_of_consume_append hconsume
      have hmiddle := hmachine.piece hrests (hruns run List.mem_cons_self) hfirst
      exact ih (fun other hmem => hruns other (List.mem_cons_of_mem _ hmem)) hmiddle hrest

namespace Reader.Overlooks

/-- Behind any number of pieces the stranger changes nothing. -/
theorem unmoved {reader : Reader τ α} (hreader : reader.Overlooks pieces stranger)
    {runs : List (List τ)} (hruns : ∀ run ∈ runs, pieces run) {values : List α}
    {next : reader.State}
    (hconsume : reader.consume reader.start runs.flatten = .ok (values, next)) :
    reader.consume next stranger = .ok ([], next) := by
  obtain ⟨rests, hstart, hmachine⟩ := hreader
  exact hmachine.stranger (hmachine.behind hruns hstart hconsume)

variable {reader : Reader τ α} (hreader : reader.Overlooks pieces stranger)

include hreader

theorem map (f : α → β) : (reader.map f).Overlooks pieces stranger := by
  obtain ⟨rests, hstart, hmachine⟩ := hreader
  exact ⟨_, ⟨(), _, hstart, rfl⟩, hmachine.along (fun _ state => state)
    (fun _ read => (read.1.map f, read.2)) (fun _ _ => ())
    (fun _ state tokens => reader.consume_map f state tokens) (fun _ _ => rfl) fun _ _ => rfl⟩

theorem gather (empty : β) (add : β → α → β) :
    (reader.gather empty add).Overlooks pieces stranger := by
  obtain ⟨rests, hstart, hmachine⟩ := hreader
  exact ⟨_, ⟨empty, _, hstart, rfl⟩, hmachine.along (fun store state => (state, store))
    (fun store read => ([], (read.2, read.1.foldl add store)))
    (fun store read => read.1.foldl add store)
    (fun store state tokens => reader.consume_gather empty add state store tokens)
    (fun _ _ => rfl) fun _ _ => rfl⟩

theorem fold (initial : β) (combine : β → α → β) :
    (reader.fold initial combine).Overlooks pieces stranger := by
  obtain ⟨rests, hstart, hmachine⟩ := hreader
  exact ⟨_, ⟨initial, _, hstart, rfl⟩, hmachine.along (fun result state => ⟨state, result, none⟩)
    (fun result read => ([], ⟨read.2, read.1.foldl combine result, none⟩))
    (fun result read => read.1.foldl combine result)
    (fun result state tokens => reader.consume_fold initial combine state result tokens)
    (fun _ _ => rfl) fun _ _ => rfl⟩

theorem optional : reader.optional.Overlooks pieces stranger := by
  obtain ⟨rests, hstart, hmachine⟩ := hreader
  exact ⟨_, ⟨false, _, hstart, rfl⟩, hmachine.along (fun present state => (state, present))
    (fun present read => (read.1.map some, (read.2, present || !read.1.isEmpty)))
    (fun present read => present || !read.1.isEmpty)
    (fun present state tokens => reader.consume_optional state present tokens)
    (fun present _ => by cases present <;> rfl) fun _ _ => rfl⟩

theorem fixed [BEq α] [Shown α] (value : α) (description : String) :
    (reader.fixed value description).Overlooks pieces stranger := by
  obtain ⟨rests, hstart, hmachine⟩ := hreader
  refine ⟨fun state => rests state.1, hstart, ⟨?_, ?_⟩⟩
  · rintro ⟨inner, matched⟩ tokens ⟨values, reached⟩ hrests hpiece hread
    obtain ⟨given, next, hgiven, -, rfl⟩ := exists_of_consume_fixed hread
    exact hmachine.piece hrests hpiece hgiven
  · rintro ⟨inner, matched⟩ hrests
    have hfixed := consume_fixed_of_ok value description (hmachine.stranger hrests)
      (List.forall_mem_nil _) matched
    rw [List.isEmpty_nil, Bool.not_true, Bool.or_false] at hfixed
    exact hfixed

end Reader.Overlooks

namespace Watcher.Overlooks

/-- A machine that never answers. -/
theorem idle : Watcher.Overlooks (fun (state : Unit) _ => (none, state)) () pieces stranger := by
  refine ⟨fun _ => True, trivial, ⟨fun _ _ _ => trivial, fun {state} _ => ?_⟩⟩
  induction stranger with
  | nil => rfl
  | cons token tokens ih => exact ih

theorem watch {part : PartReader τ α} (hpart : part.reader.Overlooks pieces stranger) :
    Watcher.Overlooks part.watch (part.reader.start, none) pieces stranger := by
  obtain ⟨rests, hstart, hmachine⟩ := hpart
  exact ⟨_, ⟨none, _, hstart, rfl⟩, hmachine.along (fun slot state => (state, slot))
    (fun slot read => (read.2, read.1.getLast?.or slot))
    (fun slot read => read.1.getLast?.or slot)
    (fun slot state tokens => part.follow_watch state slot tokens) (fun _ _ => rfl) fun _ _ => rfl⟩

theorem heed {reader : Reader τ α} (hreader : reader.Overlooks pieces stranger) :
    Watcher.Overlooks reader.heed reader.start pieces stranger := by
  obtain ⟨rests, hstart, hmachine⟩ := hreader
  exact ⟨_, ⟨(), _, hstart, rfl⟩, hmachine.along (fun _ state => state) (fun _ read => read.2)
    (fun _ _ => ()) (fun _ state tokens => reader.follow_heed state tokens) (fun _ _ => rfl)
    fun _ _ => rfl⟩

theorem inTurn {first : Watcher τ σ} {second : Watcher τ ρ} {start : σ} {other : ρ}
    (hfirst : Watcher.Overlooks first start pieces stranger)
    (hsecond : Watcher.Overlooks second other pieces stranger) :
    Watcher.Overlooks (Watcher.inTurn first second) (start, other) pieces stranger := by
  obtain ⟨rests, hstart, hone⟩ := hfirst
  obtain ⟨resting, hother, htwo⟩ := hsecond
  refine ⟨fun state => rests state.1 ∧ resting state.2, ⟨hstart, hother⟩, ⟨?_, ?_⟩⟩
  · rintro ⟨state, others⟩ tokens ⟨next, reached⟩ ⟨hrests, hresting⟩ hpiece hread
    obtain ⟨hnext, hreached⟩ := Watcher.follow_both_of_inTurn hread
    exact ⟨hone.piece hrests hpiece hnext, htwo.piece hresting hpiece hreached⟩
  · rintro ⟨state, others⟩ ⟨hrests, hresting⟩
    exact Watcher.follow_inTurn_of_ok (hone.stranger hrests) (htwo.stranger hresting)

theorem slots {parts : Parts (PartReader τ) β}
    (hparts : ∀ {γ : Type} {part : PartReader τ γ}, parts.Mem part →
      part.reader.Overlooks pieces stranger) :
    Watcher.Overlooks (Slots.ofParts parts).feed (Slots.ofParts parts).start pieces stranger := by
  induction parts with
  | nil => exact idle
  | cons part rest ih =>
      change Watcher.Overlooks (Slots.cons part (Slots.ofParts rest)).feed _ _ _
      rw [Slots.feed_cons]
      exact (watch (hparts (Parts.mem_head part rest))).inTurn
        (ih fun hmem => hparts (Parts.mem_tail hmem part))

theorem conditions {readers : List (Reader τ Unit)}
    (hreaders : ∀ reader ∈ readers, reader.Overlooks pieces stranger) :
    Watcher.Overlooks (Conditions.ofList readers).feed (Conditions.ofList readers).start
      pieces stranger := by
  induction readers with
  | nil => exact idle
  | cons reader rest ih =>
      change Watcher.Overlooks (Conditions.cons reader (Conditions.ofList rest)).feed _ _ _
      rw [Conditions.feed_cons]
      exact (heed (hreaders reader List.mem_cons_self)).inTurn
        (ih fun other hmem => hreaders other (List.mem_cons_of_mem _ hmem))

end Watcher.Overlooks

namespace Assembly

/-- An assembly that holds its values back. -/
theorem overlooks_of_held {assembly : Assembly τ β} (hheld : assembly.streams = false)
    (hslots : Watcher.Overlooks assembly.slots.feed assembly.slots.start pieces stranger)
    (hconditions : Watcher.Overlooks assembly.conditions.feed assembly.conditions.start
      pieces stranger) : assembly.interior.Overlooks pieces stranger := by
  obtain ⟨rests, hstart, hmachine⟩ := hslots.inTurn hconditions
  exact ⟨_, ⟨false, _, hstart, rfl⟩, hmachine.along
    (fun emitted state => (⟨state.1, state.2, emitted⟩ : assembly.State))
    (fun emitted next => ([], ⟨next.1, next.2, emitted⟩)) (fun emitted _ => emitted)
    (fun emitted state tokens =>
      consume_interior_of_held hheld ⟨state.1, state.2, emitted⟩ tokens)
    (fun _ _ => rfl) fun _ _ => rfl⟩

/-- A lone part without conditions. -/
theorem overlooks_lone {part : PartReader τ α} (hpart : part.reader.Overlooks pieces stranger) :
    (lone part).interior.Overlooks pieces stranger := by
  obtain ⟨rests, hstart, hmachine⟩ := hpart
  exact ⟨_, ⟨false, _, hstart, rfl⟩, hmachine.along
    (fun emitted state => loneState part state emitted)
    (fun emitted read =>
      (read.1.map (·, ()), loneState part read.2 (emitted || !read.1.isEmpty)))
    (fun emitted read => emitted || !read.1.isEmpty)
    (fun emitted state tokens => consume_interior_lone part state emitted tokens)
    (fun emitted _ => by cases emitted <;> rfl) fun _ _ => rfl⟩

/-- A composition overlooks what its parts and its conditions overlook. -/
theorem overlooks_ofParts {parts : Parts (PartReader τ) β} {conditions : List (Reader τ Unit)}
    (hparts : ∀ {γ : Type} {part : PartReader τ γ}, parts.Mem part →
      part.reader.Overlooks pieces stranger)
    (hconditions : ∀ reader ∈ conditions, reader.Overlooks pieces stranger) :
    (ofParts parts conditions).interior.Overlooks pieces stranger := by
  by_cases hstreams : (ofParts parts conditions).streams = false
  · exact overlooks_of_held hstreams (.slots hparts) (.conditions hconditions)
  · simp only [ofParts, Bool.not_eq_false, Bool.and_eq_true, beq_iff_eq,
      List.isEmpty_iff] at hstreams
    obtain ⟨hsize, rfl⟩ := hstreams
    cases parts with
    | nil => cases hsize
    | cons part rest =>
        cases rest with
        | cons second others => simp [Parts.size] at hsize
        | nil => exact overlooks_lone (hparts (Parts.mem_head part .nil))

end Assembly

/-- The codecs that are made of some codecs by those combinators that go by their values
alone. -/
inductive ReadCodec.MadeOf (basis : ⦃α : Type⦄ → ReadCodec τ α → Prop) :
    {α : Type} → ReadCodec τ α → Prop where
  | basic {α : Type} {codec : ReadCodec τ α} (hcodec : basis codec) : MadeOf basis codec
  | collect {α : Type} {codec : ReadCodec τ α} (hcodec : MadeOf basis codec) :
      MadeOf basis codec.collect
  | entries {α κ : Type} [BEq κ] {codec : ReadCodec τ (κ × α)} (hcodec : MadeOf basis codec) :
      MadeOf basis codec.entries
  | fold {α β : Type} {codec : ReadCodec τ α} (hcodec : MadeOf basis codec) (initial : β)
      (combine : β → α → β) : MadeOf basis (codec.fold initial combine)
  | optional {α : Type} {codec : ReadCodec τ α} (hcodec : MadeOf basis codec) :
      MadeOf basis codec.optional
  | map {α β : Type} {codec : ReadCodec τ α} (hcodec : MadeOf basis codec) (f : α → β) :
      MadeOf basis (codec.map f)
  | fixed {α : Type} [BEq α] [Shown α] {codec : ReadCodec τ α} (hcodec : MadeOf basis codec)
      (value : α) : MadeOf basis (codec.fixed value)

/-- A codec overlooks what the codecs that it is made of overlook. -/
theorem ReadCodec.MadeOf.overlooks {basis : ⦃α : Type⦄ → ReadCodec τ α → Prop}
    (hbasis : ∀ {α : Type} {codec : ReadCodec τ α}, basis codec →
      codec.reader.Overlooks pieces stranger) {codec : ReadCodec τ α}
    (hcodec : MadeOf basis codec) : codec.reader.Overlooks pieces stranger := by
  induction hcodec with
  | basic hcodec => exact hbasis hcodec
  | collect _ ih => exact (ih.gather _ _).map _
  | entries _ ih => exact ih.gather _ _
  | fold _ initial combine ih => exact ih.fold initial combine
  | optional _ ih => exact ih.optional
  | map _ f ih => exact ih.map f
  | fixed _ expected ih => exact ih.fixed expected _

end Closure

/-! ## Members with a name that nobody knows -/

namespace Json

open Document

/-- The run is a member: a name and the value behind it. -/
def IsMember (tokens : List Token) : Prop := ∃ member, tokens = memberTokens [member]

/-- A member reader is at rest between members, whatever it has found. -/
theorem overlooks_memberReader {name stranger : String} (hstranger : stranger ≠ name)
    (inner : Reader Token α) (value : Document) :
    (memberReader name inner).Overlooks IsMember (memberTokens [(stranger, value)]) := by
  refine ⟨fun state => state.place = .between 0, rfl, ⟨?_, ?_⟩⟩
  · rintro ⟨state, _, found⟩ _ read rfl ⟨member, rfl⟩ hread
    obtain ⟨given, -, rfl⟩ :=
      Except.exists_of_map ((consume_memberReader name inner [member] state found).symm.trans hread)
    rfl
  · rintro ⟨state, _, found⟩ rfl
    refine (consume_memberReader name inner [(stranger, value)] state found).trans ?_
    rw [occurrences_cons_of_ne hstranger]
    cases found <;> rfl

/-- The codecs of members with names other than that of the stranger. -/
inductive OtherMember (stranger : String) : ⦃α : Type⦄ → ReadCodec Token α → Prop where
  | member {α : Type} {name : String} (hname : stranger ≠ name) (codec : ReadCodec Token α) :
      OtherMember stranger (codec.member name)

/-- The codecs that do not know a name: those of members with other names, and what is
made of them. -/
def Unaware (stranger : String) (codec : ReadCodec Token α) : Prop :=
  ReadCodec.MadeOf (OtherMember stranger) codec

variable {stranger : String}

theorem OtherMember.overlooks {codec : ReadCodec Token α} (hother : OtherMember stranger codec)
    (value : Document) :
    codec.reader.Overlooks IsMember (memberTokens [(stranger, value)]) := by
  cases hother with
  | member hname codec => exact overlooks_memberReader hname codec.reader value

theorem Unaware.member {name : String} (hname : stranger ≠ name) (codec : ReadCodec Token α) :
    Unaware stranger (codec.member name) :=
  .basic (.member hname codec)

theorem Unaware.listMember {name : String} (hname : stranger ≠ name) (codec : ReadCodec Token α) :
    Unaware stranger (codec.listMember name) :=
  .map (.optional (Unaware.member hname codec.collect.array)) _

theorem Unaware.overlooks {codec : ReadCodec Token α} (hcodec : Unaware stranger codec)
    (value : Document) :
    codec.reader.Overlooks IsMember (memberTokens [(stranger, value)]) :=
  ReadCodec.MadeOf.overlooks (fun hother => hother.overlooks value) hcodec

/-- The codecs of objects whose parts and conditions do not know a name, and those made
of them. -/
inductive UnawareObject (stranger : String) : {β : Type} → ReadCodec Token β → Prop where
  | object {β : Type} {parts : Parts (ReadCodec Token) β} {conditions : List (Condition Token)}
      (hparts : ∀ {γ : Type} {codec : ReadCodec Token γ}, parts.Mem codec → Unaware stranger codec)
      (hconditions : ∀ condition ∈ conditions, Unaware stranger condition.toReadCodec) :
      UnawareObject stranger (.object parts conditions)
  | map {α β : Type} {codec : ReadCodec Token α} (hcodec : UnawareObject stranger codec)
      (f : α → β) : UnawareObject stranger (codec.map f)

theorem memberTokens_eq_flatten (members : List (String × Document)) :
    memberTokens members = (members.map fun member => memberTokens [member]).flatten := by
  induction members with
  | nil => rfl
  | cons member members ih =>
      rw [List.map_cons, List.flatten_cons, ← ih]
      exact memberTokens_append [member] members

/-- What shows of an object does not depend on the strangers in it. -/
theorem surfaced_objectReader {assembly : Assembly Token β} {value : Document}
    (hinterior : assembly.interior.Overlooks IsMember (memberTokens [(stranger, value)]))
    (front back : List (String × Document)) :
    (objectReader assembly).surfaced (objectReader assembly).start
        (object (front ++ (stranger, value) :: back)).tokens =
      (objectReader assembly).surfaced (objectReader assembly).start
        (object (front ++ back)).tokens := by
  have hinside (members : List (String × Document)) (state : assembly.State) :
      (objectReader assembly).consume (state, 1) (memberTokens members) =
        (assembly.interior.consume state (memberTokens members)).map fun read =>
          (read.1, (read.2, 1)) := by
    have hnested := nested_memberTokens members
    rw [consume_objectReader_inside Nat.one_ne_zero (hnested.staysOpen 0), hnested.trackAll]
  have hopening : (objectReader assembly).feed (assembly.start, 0) .startObject =
      (.pending, (assembly.start, 1)) := rfl
  have hsplit (members : List (String × Document)) :
      (object (front ++ members)).tokens =
        (.startObject :: memberTokens front) ++ (memberTokens members ++ [.endObject]) := by
    rw [Document.tokens, memberTokens_append]
    simp
  have hstranger : memberTokens ((stranger, value) :: back) =
      memberTokens [(stranger, value)] ++ memberTokens back :=
    memberTokens_append [(stranger, value)] back
  rw [hsplit, hsplit, hstranger, List.append_assoc]
  refine Reader.surfaced_insert (fun values next hfront => ?_) _
  replace hfront := (Reader.consume_cons_of_pending _ hopening _).symm.trans hfront
  rw [hinside] at hfront
  obtain ⟨read, hmembers, hread⟩ := Except.exists_of_map hfront
  cases hread
  rw [memberTokens_eq_flatten] at hmembers
  have hunmoved := hinterior.unmoved (fun run hmem => ?_) hmembers
  · exact (hinside [(stranger, value)] read.2).trans (congrArg (Except.map _) hunmoved)
  · obtain ⟨member, -, rfl⟩ := List.mem_map.mp hmem
    exact ⟨member, rfl⟩

theorem UnawareObject.silent {codec : ReadCodec Token β}
    (hcodec : UnawareObject stranger codec) : codec.reader.Silent := by
  induction hcodec with
  | object _ _ => exact fun _ => rfl
  | map _ f ih => exact ih.map f

theorem UnawareObject.surfaced {codec : ReadCodec Token β}
    (hcodec : UnawareObject stranger codec) (front : List (String × Document)) (value : Document)
    (back : List (String × Document)) :
    codec.reader.surfaced codec.reader.start
        (Document.object (front ++ (stranger, value) :: back)).tokens =
      codec.reader.surfaced codec.reader.start (Document.object (front ++ back)).tokens := by
  induction hcodec with
  | object hparts hconditions =>
      refine surfaced_objectReader (Assembly.overlooks_ofParts ?_ ?_) front back
      · intro γ part hmem
        obtain ⟨codec, hcodec, rfl⟩ := Parts.exists_of_mem_mapParts hmem
        exact (hparts hcodec).overlooks value
      · intro reader hmem
        obtain ⟨condition, hcondition, rfl⟩ := List.mem_map.mp hmem
        exact (hconditions condition hcondition).overlooks value
  | @map α β codec hcodec f ih =>
      change (codec.reader.map f).surfaced codec.reader.start _ =
        (codec.reader.map f).surfaced codec.reader.start _
      rw [Reader.surfaced_map, Reader.surfaced_map, ih]

/-- A member with a name that an object codec does not know changes no item. -/
theorem UnawareObject.items {codec : ReadCodec Token β} (hcodec : UnawareObject stranger codec)
    (options : StreamOptions) (front : List (String × Document)) (value : Document)
    (back : List (String × Document)) :
    (Decoder.ofCodec codec options).items
        (Document.object (front ++ (stranger, value) :: back)).tokens =
      (Decoder.ofCodec codec options).items (Document.object (front ++ back)).tokens := by
  have hunit (document : Document) : (Decoder.ofCodec codec options).items document.tokens =
      codec.reader.surfaced codec.reader.start document.tokens :=
    Decoder.itemsFrom_unit hcodec.silent document.endsUnit_tokens _ false
  rw [hunit, hunit, hcodec.surfaced]

end Json

end TokenCodec
