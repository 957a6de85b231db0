import Mathlib.Data.List.Forall2
import TokenCodec.Proofs.Elements
import TokenCodec.Proofs.Xml.Elements

/-!
# Folding instead of collecting

A fold combines the values of a codec as they come and remembers the failure that
stopped it; a list of the values keeps them and remembers no failure.  The two
readers run in lockstep: as long as nothing failed, the result of the fold is the
fold of the list.  Behind a failure they part, until both are reset, and every
combinator and every decoder that goes on behind a failure resets its readers first.
So a list and a fold in the same place decode to the same items, one of them with
lists and the other with what these lists fold to.
-/

namespace TokenCodec

variable {τ σ ρ α β γ δ : Type}

/-- Two failures of one kind at one place.  Descriptions of codecs, which tell what
was missing or incomplete, need not agree. -/
inductive Failure.Alike : Failure → Failure → Prop where
  | refl (failure : Failure) : Alike failure failure
  | missing (path : Path) (expected other : String) :
      Alike (.located path (.missing expected)) (.located path (.missing other))
  | incomplete (expected other : String) : Alike (.incomplete expected) (.incomplete other)

theorem Failure.Alike.within {failure other : Failure} (halike : failure.Alike other)
    (segment : String) : (failure.within segment).Alike (other.within segment) := by
  cases halike with
  | refl => exact .refl _
  | missing path expected other => exact .missing (segment :: path) expected other
  | incomplete expected other => exact .incomplete expected other

/-- Two answers of one form, with the states behind them: the value of the second is
`f` of the value of the first, and failures are alike.  The states are `related`, and
behind a failure `broken`. -/
inductive Outcome.Mirrors (f : α → β) (related broken : σ → ρ → Prop) :
    Outcome α × σ → Outcome β × ρ → Prop where
  | produced {state : σ} {other : ρ} (value : α) (hrelated : related state other) :
      Mirrors f related broken (.produced value, state) (.produced (f value), other)
  | pending {state : σ} {other : ρ} (hrelated : related state other) :
      Mirrors f related broken (.pending, state) (.pending, other)
  | failed {state : σ} {other : ρ} {failure mirrored : Failure} (halike : failure.Alike mirrored)
      (hbroken : broken state other) :
      Mirrors f related broken (.failed failure, state) (.failed mirrored, other)

namespace Outcome.Mirrors

variable {f : α → β} {related broken : σ → ρ → Prop} {left : Outcome α × σ}
  {right : Outcome β × ρ}

/-- The states behind two answers, if a failure leaves them related as well. -/
theorem state (hmirrors : Mirrors f related related left right) : related left.2 right.2 := by
  cases hmirrors with
  | produced _ hrelated => exact hrelated
  | pending hrelated => exact hrelated
  | failed _ hbroken => exact hbroken

theorem isFailed_eq (hmirrors : Mirrors f related broken left right) :
    left.1.isFailed = right.1.isFailed := by
  cases hmirrors <;> rfl

/-- Two answers from the inside of machines, with their states in larger ones. -/
theorem lift {κ ι : Type} {around below : κ → ι → Prop}
    (hmirrors : Mirrors f related broken left right) (first : σ → κ) (second : ρ → ι)
    (hrelated : ∀ {state other}, related state other → around (first state) (second other))
    (hbroken : ∀ {state other}, broken state other → below (first state) (second other)) :
    Mirrors f around below (left.1, first left.2) (right.1, second right.2) := by
  cases hmirrors with
  | produced value h => exact .produced value (hrelated h)
  | pending h => exact .pending (hrelated h)
  | failed halike h => exact .failed halike (hbroken h)

/-- A segment in front of the path of both failures. -/
theorem within (hmirrors : Mirrors f related broken left right) (segment : String) :
    Mirrors f related broken (left.1.within segment, left.2)
      (right.1.within segment, right.2) := by
  cases hmirrors with
  | produced value h => exact .produced value h
  | pending h => exact .pending h
  | failed halike h => exact .failed (halike.within segment) h

/-- Conversions of both values that agree about them. -/
theorem map {convert : α → γ} {other : β → δ} {g : γ → δ}
    (hmirrors : Mirrors f related broken left right)
    (hconvert : ∀ value, other (f value) = g (convert value)) :
    Mirrors g related broken (left.1.map convert, left.2) (right.1.map other, right.2) := by
  cases hmirrors with
  | produced value h =>
      simp only [map_produced, hconvert]
      exact .produced (convert value) h
  | pending h => exact .pending h
  | failed halike h => exact .failed halike h

end Outcome.Mirrors

namespace Reader

open Outcome (Mirrors)

/-- Two readers that answer every token and every reset alike, in states that are
`related`.  Behind a failure their states are related again once both are reset. -/
structure Lockstep (left : Reader τ α) (right : Reader τ β) (f : α → β)
    (related : left.State → right.State → Prop) : Prop where
  start : related left.start right.start
  feed : ∀ {state other}, related state other → ∀ token,
    Mirrors f related (fun state other => related (left.discard state) (right.discard other))
      (left.feed state token) (right.feed other token)
  reset : ∀ {state other}, related state other →
    Mirrors f related related (left.reset state) (right.reset other)

/-- The second reader gives `f` of what the first one gives, and nothing else tells
them apart. -/
def MirroredBy (left : Reader τ α) (right : Reader τ β) (f : α → β) : Prop :=
  ∃ related, Lockstep left right f related

/-- Readers that a failure leaves in related states. -/
theorem MirroredBy.of_cleaning {left : Reader τ α} {right : Reader τ β} {f : α → β}
    (related : left.State → right.State → Prop) (hstart : related left.start right.start)
    (hfeed : ∀ {state other}, related state other → ∀ token,
      Mirrors f related related (left.feed state token) (right.feed other token))
    (hreset : ∀ {state other}, related state other →
      Mirrors f related related (left.reset state) (right.reset other)) :
    left.MirroredBy right f :=
  ⟨related, hstart, fun hrelated token =>
    (hfeed hrelated token).lift id id id fun hbroken => (hreset hbroken).state, hreset⟩

/-- A fold mirrors a list of the values.  Its result is what the list folds to. -/
theorem collect_mirroredBy_fold (reader : Reader τ α) (initial : β) (combine : β → α → β) :
    reader.collect.MirroredBy (reader.fold initial combine) (List.foldl combine initial) := by
  refine ⟨fun state other => other = ⟨state.1, state.2.reverse.foldl combine initial, none⟩,
    rfl, ?_, ?_⟩
  · rintro ⟨inner, store⟩ _ rfl token
    rw [feed_collect]
    rcases hfeed : reader.feed inner token with ⟨value | _ | failure, next⟩ <;>
      simp only [fold, hfeed, Outcome.withhold, Outcome.value?]
    · refine .pending ?_
      simp
    · exact .pending rfl
    · exact .failed (.refl failure) rfl
  · rintro ⟨inner, store⟩ _ rfl
    exact .produced store.reverse rfl

theorem MirroredBy.map {left : Reader τ α} {right : Reader τ β} {f : α → β}
    (hmirrored : left.MirroredBy right f) {convert : α → γ} {other : β → δ} {g : γ → δ}
    (hconvert : ∀ value, other (f value) = g (convert value)) :
    (left.map convert).MirroredBy (right.map other) g := by
  obtain ⟨related, hlockstep⟩ := hmirrored
  exact ⟨related, hlockstep.start,
    fun hrelated token => (hlockstep.feed hrelated token).map hconvert,
    fun hrelated => (hlockstep.reset hrelated).map hconvert⟩

end Reader

/-! ## A lone part -/

namespace Assembly

open Outcome (Mirrors)

/-- Two assemblies that answer every token and the end of the unit alike.  An assembly
forgets its unit at a failure, so the states stay related. -/
structure Lockstep (left : Assembly τ α) (right : Assembly τ β) (f : α → β)
    (related : left.State → right.State → Prop) : Prop where
  start : related left.start right.start
  feed : ∀ {state other}, related state other → ∀ token,
    Mirrors f related related (left.feed state token) (right.feed other token)
  complete : ∀ {state other}, related state other →
    Mirrors f related related (left.complete state) (right.complete other)
  discard : ∀ {state other}, related state other →
    related (left.discard state) (right.discard other)

/-- A unit that already gave its values ends without a further one. -/
theorem complete_lone_of_emitted (part : PartReader τ α) (state : part.reader.State) :
    (lone part).complete (loneState part state true) =
      (.pending, loneState part (part.reader.discard state) false) := rfl

/-- A unit that gave no value ends with what the reader of its part releases. -/
theorem complete_lone_of_reset (part : PartReader τ α) {state next : part.reader.State}
    {outcome : Outcome α} (hreset : part.reader.reset state = (outcome, next)) :
    (lone part).complete (loneState part state false) =
      (.ofExcept ((part.conclude none outcome).map (·, ())), loneState part next false) := by
  refine Prod.ext ?_ ?_
  · rw [complete_lone, hreset]
  · simp [complete, loneState, lone, ofParts, Parts.one, Slots.ofParts, Slots.cons, Slots.nil,
      Conditions.ofList, Conditions.nil, hreset]

/-- Lone parts that mirror one another make assemblies that do. -/
theorem lockstep_lone {left : PartReader τ α} {right : PartReader τ β} {f : α → β}
    {related : left.reader.State → right.reader.State → Prop}
    (hlockstep : left.reader.Lockstep right.reader f related) :
    (lone left).Lockstep (lone right) (Prod.map f id) fun state other =>
      ∃ reading mirrored emitted, related reading mirrored ∧
        state = loneState left reading emitted ∧ other = loneState right mirrored emitted where
  start := ⟨_, _, false, hlockstep.start, rfl, rfl⟩
  feed := by
    rintro _ _ ⟨reading, mirrored, emitted, hrelated, rfl, rfl⟩ token
    have hstep := hlockstep.feed hrelated token
    generalize hleft : left.reader.feed reading token = read at hstep
    generalize hright : right.reader.feed mirrored token = answer at hstep
    cases hstep with
    | produced value hnext =>
        rw [feed_lone_of_produced left hleft, feed_lone_of_produced right hright]
        exact .produced (value, ()) ⟨_, _, true, hnext, rfl, rfl⟩
    | pending hnext =>
        rw [feed_lone_of_pending left hleft, feed_lone_of_pending right hright]
        exact .pending ⟨_, _, emitted, hnext, rfl, rfl⟩
    | failed halike hnext =>
        rw [feed_lone_of_failed left hleft, feed_lone_of_failed right hright]
        exact .failed halike ⟨_, _, false, hnext, rfl, rfl⟩
  complete := by
    rintro _ _ ⟨reading, mirrored, emitted, hrelated, rfl, rfl⟩
    have hreset := hlockstep.reset hrelated
    cases emitted with
    | true =>
        rw [complete_lone_of_emitted, complete_lone_of_emitted]
        exact .pending ⟨_, _, false, hreset.state, rfl, rfl⟩
    | false =>
        generalize hleft : left.reader.reset reading = read at hreset
        generalize hright : right.reader.reset mirrored = answer at hreset
        rw [complete_lone_of_reset left hleft, complete_lone_of_reset right hright]
        cases hreset with
        | produced value hnext => exact .produced (value, ()) ⟨_, _, false, hnext, rfl, rfl⟩
        | pending hnext =>
            exact .failed (.missing [] left.description right.description)
              ⟨_, _, false, hnext, rfl, rfl⟩
        | failed halike hnext => exact .failed halike ⟨_, _, false, hnext, rfl, rfl⟩
  discard := by
    rintro _ _ ⟨reading, mirrored, emitted, hrelated, rfl, rfl⟩
    exact ⟨_, _, false, (hlockstep.reset hrelated).state, rfl, rfl⟩

end Assembly

/-! ## Readers around a reader -/

open Outcome (Mirrors)

namespace Json

variable {left : Reader Token α} {right : Reader Token β} {f : α → β}

/-- A member that did not appear is what its reader releases for it, or else missing. -/
theorem reset_memberReader_of_absent {inner : Reader Token α} {state : inner.State}
    {read : Outcome α × inner.State} (hreset : inner.reset state = read) {name : String}
    {place : MemberPlace Unit} :
    (memberReader name inner).reset ⟨state, place, false⟩ =
      (match read.1 with
        | .produced value => .produced value
        | _ => .failed (.here (.missingMember name)), ⟨read.2, .between 0, false⟩) := by
  rw [← hreset]
  rfl

theorem mirroredBy_memberReader (hmirrored : left.MirroredBy right f) (name : String) :
    (memberReader name left).MirroredBy (memberReader name right) f := by
  obtain ⟨related, hlockstep⟩ := hmirrored
  refine ⟨fun state other => related state.inner other.inner ∧ state.place = other.place ∧
    state.found = other.found, ⟨hlockstep.start, rfl, rfl⟩, ?_, ?_⟩
  · rintro ⟨state, place, found⟩ ⟨other, _, _⟩ ⟨hrelated, rfl, rfl⟩ token
    cases place with
    | inside _ depth =>
        have hstep := (hlockstep.feed hrelated token).within name
        exact hstep.lift (MemberState.mk · (.advance () depth token) found)
          (MemberState.mk · (.advance () depth token) found)
          (fun hnext => ⟨hnext, rfl, rfl⟩) (fun hbroken => ⟨hbroken, rfl, rfl⟩)
    | between depth =>
        simp only [memberReader]
        split <;> exact .pending ⟨hrelated, rfl, rfl⟩
  · rintro ⟨state, place, found⟩ ⟨other, _, _⟩ ⟨hrelated, rfl, rfl⟩
    have hreset := hlockstep.reset hrelated
    cases found with
    | true => exact .pending ⟨hreset.state, rfl, rfl⟩
    | false =>
        generalize hleft : left.reset state = read at hreset
        generalize hright : right.reset other = answer at hreset
        rw [reset_memberReader_of_absent hleft, reset_memberReader_of_absent hright]
        cases hreset with
        | produced value hnext => exact .produced value ⟨hnext, rfl, rfl⟩
        | pending hnext => exact .failed (.refl _) ⟨hnext, rfl, rfl⟩
        | failed _ hnext => exact .failed (.refl _) ⟨hnext, rfl, rfl⟩

theorem mirroredBy_arrayReader (hmirrored : left.MirroredBy right f) :
    (arrayReader left).MirroredBy (arrayReader right) f := by
  obtain ⟨related, hlockstep⟩ := hmirrored
  refine ⟨fun state other => related state.inner other.inner ∧ state.depth = other.depth ∧
    state.index = other.index, ⟨hlockstep.start, rfl, rfl⟩, ?_, ?_⟩
  · rintro ⟨state, depth, index⟩ ⟨other, _, _⟩ ⟨hrelated, rfl, rfl⟩ token
    have hreset := hlockstep.reset hrelated
    simp only [arrayReader]
    split
    · split
      · exact .pending ⟨hrelated, rfl, rfl⟩
      · exact .failed (.refl _) ⟨hreset.state, rfl, rfl⟩
    split
    · exact hreset.lift (ArrayState.mk · 0 0) (ArrayState.mk · 0 0)
        (fun hnext => ⟨hnext, rfl, rfl⟩)
        (fun hnext => ⟨(hlockstep.reset hnext).state, rfl, rfl⟩)
    · have hstep := (hlockstep.feed hrelated token).within (indexSegment index)
      exact hstep.lift (ArrayState.mk · _ _) (ArrayState.mk · _ _)
        (fun hnext => ⟨hnext, rfl, rfl⟩) (fun hbroken => ⟨hbroken, rfl, rfl⟩)
  · rintro ⟨state, depth, index⟩ ⟨other, _, _⟩ ⟨hrelated, rfl, rfl⟩
    exact (hlockstep.reset hrelated).lift (ArrayState.mk · 0 0) (ArrayState.mk · 0 0)
      (fun hnext => ⟨hnext, rfl, rfl⟩) (fun hnext => ⟨hnext, rfl, rfl⟩)

theorem mirroredBy_objectReader {left : Assembly Token α} {right : Assembly Token β}
    {related : left.State → right.State → Prop} (hlockstep : left.Lockstep right f related) :
    (objectReader left).MirroredBy (objectReader right) f := by
  refine .of_cleaning (fun state other => related state.1 other.1 ∧ state.2 = other.2)
    ⟨hlockstep.start, rfl⟩ ?_ ?_
  · rintro ⟨state, depth⟩ ⟨other, _⟩ ⟨hrelated, rfl⟩ token
    simp only [objectReader]
    split
    · split
      · exact .pending ⟨hrelated, rfl⟩
      · exact .failed (.refl _) ⟨hrelated, rfl⟩
    split
    · exact (hlockstep.complete hrelated).lift (Prod.mk · 0) (Prod.mk · 0)
        (fun hnext => ⟨hnext, rfl⟩) (fun hnext => ⟨hnext, rfl⟩)
    · have hstep := hlockstep.feed hrelated token
      rw [hstep.isFailed_eq]
      exact hstep.lift (Prod.mk · _) (Prod.mk · _) (fun hnext => ⟨hnext, rfl⟩)
        (fun hnext => ⟨hnext, rfl⟩)
  · rintro ⟨state, depth⟩ ⟨other, _⟩ ⟨hrelated, rfl⟩
    exact .pending ⟨hlockstep.discard hrelated, rfl⟩

end Json

namespace Xml

variable {left : Assembly Token α} {right : Assembly Token β} {f : α → β}
  {related : left.State → right.State → Prop}

theorem mirrors_feedAttributes (hlockstep : left.Lockstep right f related)
    {state : left.State} {other : right.State} {last : Outcome α} {mirrored : Outcome β}
    (hlast : Mirrors f related related (last, state) (mirrored, other))
    (attributes : List Attribute) :
    Mirrors f related related (feedAttributes left state last attributes)
      (feedAttributes right other mirrored attributes) := by
  induction attributes generalizing state other last mirrored with
  | nil => exact hlast
  | cons attr rest ih =>
      have hstep := hlockstep.feed hlast.state (.loneAttribute attr)
      generalize hleft : left.feed state (.loneAttribute attr) = read at hstep
      generalize hright : right.feed other (.loneAttribute attr) = answer at hstep
      cases hstep with
      | produced value hnext =>
          rw [feedAttributes_cons_of_produced hleft, feedAttributes_cons_of_produced hright]
          exact ih (.produced value hnext)
      | pending hnext =>
          rw [feedAttributes_cons_of_pending hleft, feedAttributes_cons_of_pending hright]
          refine ih ?_
          cases hlast with
          | produced value _ => exact .produced value hnext
          | pending _ => exact .pending hnext
          | failed halike _ => exact .failed halike hnext
      | failed halike hnext =>
          rw [feedAttributes_cons_of_failed hleft, feedAttributes_cons_of_failed hright]
          exact .failed halike hnext

theorem mirroredBy_elementReader (hlockstep : left.Lockstep right f related)
    (claims : Name → Bool) :
    (elementReader claims left).MirroredBy (elementReader claims right) f := by
  refine .of_cleaning (fun state other => related state.1 other.1 ∧ state.2 = other.2)
    ⟨hlockstep.start, rfl⟩ ?_ ?_
  · rintro ⟨state, place⟩ ⟨other, _⟩ ⟨hrelated, rfl⟩ token
    cases place with
    | outside =>
        cases token with
        | startElement name attributes =>
            have hround := mirrors_feedAttributes hlockstep (.pending hrelated) attributes
            simp only [elementReader]
            split
            · rw [hround.isFailed_eq]
              exact (hround.within name.shownText).lift (Prod.mk · _) (Prod.mk · _)
                (fun hnext => ⟨hnext, rfl⟩) (fun hnext => ⟨hnext, rfl⟩)
            · exact .pending ⟨hrelated, rfl⟩
        | _ => exact .pending ⟨hrelated, rfl⟩
    | skipping depth => exact .pending ⟨hrelated, rfl⟩
    | inside name depth =>
        simp only [elementReader]
        split
        · exact ((hlockstep.complete hrelated).within name).lift (Prod.mk · _) (Prod.mk · _)
            (fun hnext => ⟨hnext, rfl⟩) (fun hnext => ⟨hnext, rfl⟩)
        · have hstep := hlockstep.feed hrelated token
          rw [hstep.isFailed_eq]
          exact (hstep.within name).lift (Prod.mk · _) (Prod.mk · _)
            (fun hnext => ⟨hnext, rfl⟩) (fun hnext => ⟨hnext, rfl⟩)
  · rintro ⟨state, place⟩ ⟨other, _⟩ ⟨hrelated, rfl⟩
    exact .pending ⟨hlockstep.discard hrelated, rfl⟩

end Xml

/-! ## Whole streams -/

/-- Two items of one form: the second value is `f` of the first, or both are
failures alike. -/
inductive Decoder.MirrorsItem (f : α → β) : Except Failure α → Except Failure β → Prop where
  | ok (value : α) : MirrorsItem f (.ok value) (.ok (f value))
  | error {failure mirrored : Failure} (halike : failure.Alike mirrored) :
      MirrorsItem f (.error failure) (.error mirrored)

/-- An outcome as the answer of a decoder. -/
def Outcome.toAnswer : Outcome α → Decoder.Answer α
  | produced value => .ok (some value)
  | pending => .ok none
  | failed failure => .error failure

namespace Decoder

section Lockstep

variable [Alphabet τ] {left : Decoder τ α} {right : Decoder τ β} {f : α → β}
  {related : left.reader.State → right.reader.State → Prop} {state : left.State}
  {other : right.State}

/-- Two decoders that stand at the same place of a stream, with related readers. -/
structure Abreast (related : left.reader.State → right.reader.State → Prop)
    (state : left.State) (other : right.State) : Prop where
  reading : related state.reading other.reading
  depth : state.depth = other.depth
  holding : state.holding = other.holding
  skipping : state.skipping = other.skipping

/-- Decoders whose readers run in lockstep answer a token alike.  One that goes on
behind a failure resets its reader first. -/
theorem exists_feed_mirrored (hlockstep : left.reader.Lockstep right.reader f related)
    (hoptions : left.options = right.options) (habreast : Abreast related state other)
    (token : τ) :
    ∃ outcome mirrored next others,
      left.feed state token = (outcome.toAnswer, next) ∧
        right.feed other token = (mirrored.toAnswer, others) ∧
          Mirrors f (Abreast related)
            (fun next others => right.options.failFast = false → Abreast related next others)
            (outcome, next) (mirrored, others) := by
  obtain ⟨reading, depth, holding, skipping⟩ := state
  obtain ⟨mirrored, _, _, _⟩ := other
  obtain ⟨hrelated, rfl, rfl, rfl⟩ := habreast
  cases skipping with
  | true => exact ⟨.pending, .pending, _, _, rfl, rfl, .pending ⟨hrelated, rfl, rfl, rfl⟩⟩
  | false =>
      have hstep := hlockstep.feed hrelated token
      generalize hleft : left.reader.feed reading token = read at hstep
      generalize hright : right.reader.feed mirrored token = answer at hstep
      simp only [feed, hleft, hright, hoptions, Bool.false_eq_true, if_false]
      cases hstep with
      | produced value hnext =>
          exact ⟨.produced value, .produced (f value), _, _, rfl, rfl,
            .produced value ⟨hnext, rfl, rfl, rfl⟩⟩
      | pending hnext =>
          exact ⟨.pending, .pending, _, _, rfl, rfl, .pending ⟨hnext, rfl, rfl, rfl⟩⟩
      | failed halike hbroken =>
          cases hfast : right.options.failFast with
          | true =>
              exact ⟨.failed _, .failed _, _, _, rfl, rfl,
                .failed halike fun hslow => Bool.noConfusion hslow⟩
          | false =>
              exact ⟨.failed _, .failed _, _, _, rfl, rfl,
                .failed halike fun _ => ⟨hbroken, rfl, rfl, rfl⟩⟩

omit [Alphabet τ] in
/-- Decoders whose readers run in lockstep end their input alike. -/
theorem exists_finish_mirrored (hlockstep : left.reader.Lockstep right.reader f related)
    (hoptions : left.options = right.options) (habreast : Abreast related state other) :
    ∃ outcome mirrored next others,
      left.finish state = (outcome.toAnswer, next) ∧
        right.finish other = (mirrored.toAnswer, others) ∧
          Mirrors f (Abreast related) (Abreast related) (outcome, next) (mirrored, others) := by
  obtain ⟨reading, depth, holding, skipping⟩ := state
  obtain ⟨mirrored, _, _, _⟩ := other
  obtain ⟨hrelated, rfl, rfl, rfl⟩ := habreast
  have hreset := hlockstep.reset hrelated
  have hnext : Abreast related (left.finish ⟨reading, depth, holding, skipping⟩).2
      (right.finish ⟨mirrored, depth, holding, skipping⟩).2 := ⟨hreset.state, rfl, rfl, rfl⟩
  generalize hleft : left.reader.reset reading = read at hreset
  generalize hright : right.reader.reset mirrored = answer at hreset
  simp only [finish, hleft, hright, hoptions] at hnext ⊢
  split
  · exact ⟨.failed _, .failed _, _, _, rfl, rfl, .failed (.incomplete _ _) hnext⟩
  split
  · cases hreset with
    | produced value _ =>
        exact ⟨.produced value, .produced (f value), _, _, rfl, rfl, .produced value hnext⟩
    | pending _ => exact ⟨.pending, .pending, _, _, rfl, rfl, .pending hnext⟩
    | failed _ _ => exact ⟨.pending, .pending, _, _, rfl, rfl, .pending hnext⟩
  · exact ⟨.pending, .pending, _, _, rfl, rfl, .pending hnext⟩

/-- Decoders whose readers run in lockstep give the same items. -/
theorem itemsFrom_mirrored (hlockstep : left.reader.Lockstep right.reader f related)
    (hoptions : left.options = right.options) (habreast : Abreast related state other)
    (tokens : List τ) :
    List.Forall₂ (MirrorsItem f) (left.itemsFrom state tokens) (right.itemsFrom other tokens) := by
  induction tokens generalizing state other with
  | nil =>
      obtain ⟨outcome, mirrored, next, others, hleft, hright, hmirrors⟩ :=
        exists_finish_mirrored hlockstep hoptions habreast
      simp only [itemsFrom, hleft, hright]
      cases hmirrors with
      | produced value _ => exact .cons (.ok value) .nil
      | pending _ => exact .nil
      | failed halike _ => exact .cons (.error halike) .nil
  | cons token rest ih =>
      obtain ⟨outcome, mirrored, next, others, hleft, hright, hmirrors⟩ :=
        exists_feed_mirrored hlockstep hoptions habreast token
      simp only [itemsFrom, hleft, hright, hoptions]
      cases hmirrors with
      | produced value hnext => exact .cons (.ok value) (ih hnext)
      | pending hnext => exact ih hnext
      | failed halike hbroken =>
          simp only [Outcome.toAnswer]
          cases hfast : right.options.failFast with
          | true => exact .cons (.error halike) .nil
          | false => exact .cons (.error halike) (ih (hbroken hfast))

end Lockstep

/-- What one codec mirrors of another shows in the items of a list of tokens. -/
theorem items_mirrored [Alphabet τ] {left : ReadCodec τ α} {right : ReadCodec τ β} {f : α → β}
    (hmirrored : left.reader.MirroredBy right.reader f) (options : StreamOptions)
    (tokens : List τ) :
    List.Forall₂ (MirrorsItem f) ((ofCodec left options).items tokens)
      ((ofCodec right options).items tokens) := by
  obtain ⟨related, hlockstep⟩ := hmirrored
  have hreaders : (ofCodec left options).reader.Lockstep (ofCodec right options).reader f related :=
    hlockstep
  exact itemsFrom_mirrored hreaders rfl ⟨hlockstep.start, rfl, rfl, rfl⟩ tokens

end Decoder

/-- A place for a codec of values: by itself, as the elements of an array, as a member,
as the lone part of an object or as the lone part of an element, and these within one
another. -/
inductive Frame : Type → Type 1 where
  | bare {τ : Type} : Frame τ
  | array (inner : Frame Json.Token) : Frame Json.Token
  | member (name : String) (inner : Frame Json.Token) : Frame Json.Token
  | object (inner : Frame Json.Token) : Frame Json.Token
  | element (name : Xml.Name) (inner : Frame Xml.Token) : Frame Xml.Token

namespace Frame

/-- The codec in its place.  A lone part stands for the composition. -/
def around : {τ : Type} → Frame τ → ReadCodec τ α → ReadCodec τ α
  | _, .bare, codec => codec
  | _, .array inner, codec => (inner.around codec).array
  | _, .member name inner, codec => (inner.around codec).member name
  | _, .object inner, codec => (ReadCodec.object (.one (inner.around codec))).map Prod.fst
  | _, .element name inner, codec =>
      (ReadCodec.element name (.one (inner.around codec))).map Prod.fst

/-- What is in the same place is mirrored in that place. -/
theorem mirroredBy_around {left : ReadCodec τ α} {right : ReadCodec τ β} {f : α → β}
    (frame : Frame τ) (hmirrored : left.reader.MirroredBy right.reader f) :
    (frame.around left).reader.MirroredBy (frame.around right).reader f := by
  induction frame with
  | bare => exact hmirrored
  | array inner ih => exact Json.mirroredBy_arrayReader (ih hmirrored)
  | member name inner ih => exact Json.mirroredBy_memberReader (ih hmirrored) name
  | object inner ih =>
      obtain ⟨related, hlockstep⟩ := ih hmirrored
      exact (Json.mirroredBy_objectReader (Assembly.lockstep_lone hlockstep)).map fun _ => rfl
  | element name inner ih =>
      obtain ⟨related, hlockstep⟩ := ih hmirrored
      exact (Xml.mirroredBy_elementReader (Assembly.lockstep_lone hlockstep) _).map fun _ => rfl

/-- A fold in any place decodes to what a list in this place decodes to, folded: item
by item, for any tokens and options. -/
theorem items_fold [Alphabet τ] (frame : Frame τ) (codec : ReadCodec τ α) (initial : β)
    (combine : β → α → β) (options : StreamOptions) (tokens : List τ) :
    List.Forall₂ (Decoder.MirrorsItem (List.foldl combine initial))
      ((Decoder.ofCodec (frame.around codec.collect) options).items tokens)
      ((Decoder.ofCodec (frame.around (codec.fold initial combine)) options).items tokens) := by
  have hmirrored : codec.collect.reader.MirroredBy (codec.fold initial combine).reader
      (List.foldl combine initial) := codec.reader.collect_mirroredBy_fold initial combine
  exact Decoder.items_mirrored (frame.mirroredBy_around hmirrored) options tokens

/-- The array in which an element failed is passed over, and the fold begins afresh in the
next one. -/
example :
    let frame : Frame Json.Token := .array .bare
    let codec := Json.Scalar.boolean.codec.toReadCodec.fold 0 fun count _ => count + 1
    (Decoder.ofCodec (frame.around codec) ⟨false, true⟩).items
        [.startArray, .bool true, .number "7", .bool true, .endArray,
          .startArray, .bool true, .bool false, .endArray] =
      [.error (.located ["[1]"] (.unexpected "(boolean)" "7")), .ok 2] := by
  decide

end Frame

end TokenCodec
