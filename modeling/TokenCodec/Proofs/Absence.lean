import TokenCodec.Proofs.Elements
import TokenCodec.Proofs.Xml.RoundTrip

/-!
# Optional members

An optional member is written as the member itself, or not at all.  Read back,
a member that was left out is absent.  A member that was written is present if
it gives its value at a token, and it is absent all the same if it gives its value
at the end of the object or element: the optional reader has seen no value by
then.  In either case the optional reader goes along with the reader it is made
of, token by token, up to the first value.
-/

namespace TokenCodec

open Outcome (toExcept?)

variable {τ α β : Type}

theorem Outcome.isFailed_within (segment : String) (outcome : Outcome α) :
    (outcome.within segment).isFailed = outcome.isFailed := by
  cases outcome <;> rfl

/-! ## First values -/

namespace Reader

/-- The first value of a run that is consumed decides the run. -/
theorem decided_of_consume {reader : Reader τ α} {state next : reader.State} {tokens : List τ}
    {value : α} {values : List α}
    (hconsume : reader.consume state tokens = .ok (value :: values, next)) :
    (reader.run state tokens).1.findSome? toExcept? = some (.ok value) := by
  induction tokens generalizing state with
  | nil => cases hconsume
  | cons token tokens ih =>
      rcases hfeed : reader.feed state token with ⟨found | _ | failure, middle⟩
      · rw [consume_cons_of_produced _ hfeed] at hconsume
        obtain ⟨read, -, hread⟩ := Except.exists_of_map hconsume
        rw [run_cons_of_feed _ hfeed]
        cases hread
        rfl
      · rw [consume_cons_of_pending _ hfeed] at hconsume
        rw [run_cons_of_feed _ hfeed]
        exact ih hconsume
      · cases (consume_cons_of_failed _ hfeed tokens).symm.trans hconsume

theorem decided_map {reader : Reader τ α} {state : reader.State} {tokens : List τ} (f : α → β) :
    ((reader.map f).run state tokens).1.findSome? toExcept? =
      ((reader.run state tokens).1.findSome? toExcept?).map (Except.map f) := by
  rw [run_map]
  induction (reader.run state tokens).1 with
  | nil => rfl
  | cons outcome outcomes ih =>
      cases outcome with
      | pending => exact ih
      | _ => rfl

/-- A reader that goes along with another one, step by step up to the first
value, gives that value as well. -/
theorem decided_of_lockstep {first : Reader τ α} {second : Reader τ β}
    (along : first.State → second.State → Prop) {f : α → β}
    (hstep : ∀ {state other token outcome next}, along state other →
      first.feed state token = (outcome, next) → outcome.isFailed = false →
        (second.feed other token).1 = outcome.map f ∧
          (outcome = .pending → along next (second.feed other token).2))
    {state : first.State} {other : second.State} (halong : along state other) {tokens : List τ}
    {value : α} (hdecided : (first.run state tokens).1.findSome? toExcept? = some (.ok value)) :
    (second.run other tokens).1.findSome? toExcept? = some (.ok (f value)) := by
  induction tokens generalizing state other with
  | nil => cases hdecided
  | cons token tokens ih =>
      rcases hfeed : first.feed state token with ⟨found | _ | failure, next⟩ <;>
        rw [run_cons_of_feed _ hfeed] at hdecided
      · obtain ⟨hanswer, -⟩ := hstep halong hfeed rfl
        rw [run_cons_of_feed second (Prod.ext hanswer rfl)]
        cases hdecided
        rfl
      · obtain ⟨hanswer, hnext⟩ := hstep halong hfeed rfl
        rw [run_cons_of_feed second (Prod.ext hanswer rfl)]
        exact ih (hnext rfl) hdecided
      · cases hdecided

end Reader

/-- A reader that says nothing when it is reset gave at a token what was read. -/
theorem ReadCodec.decided_of_readOne [Alphabet τ] {codec : ReadCodec τ α}
    (hmute : codec.reader.Mute) {tokens : List τ} {value : α}
    (hread : codec.readOne tokens = .ok value) :
    (codec.reader.run codec.reader.start tokens).1.findSome? toExcept? = some (.ok value) := by
  cases hdecided : (codec.reader.run codec.reader.start tokens).1.findSome? toExcept? with
  | some result => exact congrArg some ((readOne_of_decided hdecided).symm.trans hread)
  | none =>
      have hnothing (state : codec.reader.State) (depth : Nat) (holding : Bool)
          (hundecided : (codec.reader.run state tokens).1.findSome? toExcept? = none) :
          ((Decoder.ofCodec codec).pull ⟨state, depth, holding, false⟩ tokens).1 ≠
            some (.ok value) := by
        clear hread hdecided
        induction tokens generalizing state depth holding with
        | nil =>
            have hpending := hmute state
            rcases hreset : codec.reader.reset state with ⟨outcome, fresh⟩
            rw [hreset] at hpending
            obtain rfl : outcome = .pending := hpending
            by_cases hclosed : depth = 0 <;> cases holding <;>
              simp [Decoder.pull, Decoder.finish, Decoder.ofCodec, hreset, hclosed,
                Outcome.value?]
        | cons token tokens ih =>
            rcases hfeed : codec.reader.feed state token with ⟨found | _ | failure, next⟩ <;>
              rw [Reader.run_cons_of_feed _ hfeed] at hundecided
            · cases hundecided
            · have hpull := ih next (Alphabet.track depth token) true hundecided
              have hdecoder : (Decoder.ofCodec codec).reader.feed state token =
                  (.pending, next) := hfeed
              simpa [Decoder.pull, Decoder.feed, hdecoder] using hpull
            · cases hundecided
      refine absurd ?_ (hnothing codec.reader.start 0 false hdecided)
      rw [readOne, readFirst] at hread
      change (((Decoder.ofCodec codec).pull (Decoder.ofCodec codec).start tokens).1).getD _ = _
        at hread
      cases hpull : ((Decoder.ofCodec codec).pull (Decoder.ofCodec codec).start tokens).1 with
      | none =>
          rw [hpull] at hread
          cases hread
      | some result =>
          rw [hpull] at hread
          exact hpull.trans (congrArg some hread)

/-- The values of a codec are read back one by one. -/
def Codec.RoundTrips [Alphabet τ] (codec : Codec τ α) : Prop :=
  ∀ value, codec.toReadCodec.readOne (codec.toWriteCodec.write value) = .ok value

/-- From the states of a set, which no token leads out of, values come at resets
if they come late, and at tokens otherwise. -/
structure Reader.Gives (reader : Reader τ α) (within : reader.State → Prop) (late : Bool) :
    Prop where
  stays : ∀ {state} (token : τ), within state → within (reader.feed state token).2
  early : ∀ {state} (token : τ), within state →
    (reader.feed state token).1.isProduced = true → late = false
  late : ∀ {state}, within state → (reader.reset state).1.isProduced = true → late = true

/-- What an optional reader makes of a value. -/
def presence (late : Bool) (value : α) : Option α := if late then none else some value

namespace Reader.Gives

variable {reader : Reader τ α} {within : reader.State → Prop} {late : Bool}

theorem map (hgives : reader.Gives within late) (f : α → β) :
    (reader.map f).Gives within late where
  stays := hgives.stays
  early token hstate hproduced :=
    hgives.early token hstate ((Outcome.isProduced_map f _).symm.trans hproduced)
  late hstate hproduced := hgives.late hstate ((Outcome.isProduced_map f _).symm.trans hproduced)

/-- A reader that says nothing of its own at a reset gives its values at tokens. -/
theorem of_silent (hsilent : reader.Silent) : reader.Gives (fun _ => True) false where
  stays _ _ := trivial
  early _ _ _ := rfl
  late {state} _ hproduced := (hsilent state).symm.trans hproduced

/-- A gathering reader gives its values at resets. -/
theorem gather (reader : Reader τ α) (empty : β) (add : β → α → β) :
    (reader.gather empty add).Gives (fun _ => True) true where
  stays _ _ := trivial
  early {state} token _ hproduced := by
    rcases hfeed : reader.feed state.1 token with ⟨value | _ | failure, next⟩ <;>
      simp [Reader.gather, hfeed, Outcome.isProduced] at hproduced
  late _ _ := rfl

/-- The values of a run come early. -/
theorem of_consume (hgives : reader.Gives within late) {state next : reader.State}
    {tokens : List τ} {values : List α} (hstate : within state)
    (hconsume : reader.consume state tokens = .ok (values, next)) :
    within next ∧ (values ≠ [] → late = false) := by
  replace hconsume := Reader.passes_of_consume hconsume
  induction hconsume with
  | done state => exact ⟨hstate, fun hne => absurd rfl hne⟩
  | @produced state middle next token tokens value values hfeed _ ih =>
      have hstays := hgives.stays token hstate
      have hearly := hgives.early token hstate
      rw [hfeed] at hstays hearly
      exact ⟨(ih hstays).1, fun _ => hearly rfl⟩
  | @pending state middle next token tokens values hfeed _ ih =>
      have hstays := hgives.stays token hstate
      rw [hfeed] at hstays
      exact ih hstays

end Reader.Gives

/-- An optional reader answers as the reader it is made of. -/
theorem Reader.feed_optional (reader : Reader τ α) (state : reader.State) (present : Bool)
    (token : τ) :
    reader.optional.feed (state, present) token =
      ((reader.feed state token).1.map some,
        ((reader.feed state token).2, present || (reader.feed state token).1.isProduced)) := rfl

namespace Assembly

variable {codec : Codec τ α} {within : codec.reader.State → Prop} {late : Bool}
  {state : codec.reader.State}

/-- At a token, a lone part and its optional form answer alike up to the first
value. -/
theorem feed_lone_optional (hgives : codec.reader.Gives within late) (hstate : within state)
    {token : τ} {outcome : Outcome (α × Unit)} {next : (lone codec.part).State}
    (hfeed : (lone codec.part).feed (loneState codec.part state false) token = (outcome, next))
    (hpasses : outcome.isFailed = false) :
    ∃ reached, (lone codec.optional.part).feed (loneState codec.optional.part (state, false) false)
        token = (outcome.map fun pair => (presence late pair.1, ()), reached) ∧
      (outcome = .pending → next = loneState codec.part (codec.reader.feed state token).2 false ∧
        reached = loneState codec.optional.part ((codec.reader.feed state token).2, false) false) := by
  have hoptional := codec.reader.feed_optional state false token
  have hearly := hgives.early token hstate
  rcases hcodec : codec.reader.feed state token with ⟨found | _ | failure, after⟩ <;>
    rw [hcodec] at hoptional hearly
  · cases (feed_lone_of_produced codec.part hcodec false).symm.trans hfeed
    rw [hearly rfl]
    exact ⟨_, feed_lone_of_produced codec.optional.part hoptional false, nofun⟩
  · cases (feed_lone_of_pending codec.part hcodec false).symm.trans hfeed
    exact ⟨_, feed_lone_of_pending codec.optional.part hoptional false, fun _ => ⟨rfl, rfl⟩⟩
  · cases (feed_lone_of_failed codec.part hcodec false).symm.trans hfeed
    cases hpasses

/-- At the end of a unit in which it gave no value, a lone part gives a late value,
and its optional form gives absence. -/
theorem complete_lone_optional (hgives : codec.reader.Gives within late) (hstate : within state)
    (hpasses : ((lone codec.part).complete (loneState codec.part state false)).1.isFailed = false) :
    ∃ value, ((lone codec.part).complete (loneState codec.part state false)).1 =
        .produced (value, ()) ∧
      ((lone codec.optional.part).complete
        (loneState codec.optional.part (state, false) false)).1 =
          .produced (presence late value, ()) := by
  have hcomplete : ((lone codec.part).complete (loneState codec.part state false)).1 =
      .ofExcept ((codec.part.conclude none (codec.reader.reset state).1).map (·, ())) :=
    complete_lone codec.part state
  have hlate := hgives.late hstate
  rcases hreset : (codec.reader.reset state).1 with value | _ | failure <;>
    rw [hreset] at hcomplete hlate
  · have habsent : ((lone codec.optional.part).complete
        (loneState codec.optional.part (state, false) false)).1 = .produced (none, ()) :=
      complete_lone codec.optional.part (state, false)
    rw [hlate rfl]
    exact ⟨value, hcomplete, habsent⟩
  · cases (congrArg Outcome.isFailed hcomplete).symm.trans hpasses
  · cases (congrArg Outcome.isFailed hcomplete).symm.trans hpasses

end Assembly

/-! ## Members of an object -/

namespace Json

open Assembly

/-- The codecs that stand inside an object. -/
inductive Inner : {α : Type} → Codec Token α → Prop where
  | member {α : Type} (name : String) (codec : Codec Token α) : Inner (codec.member name)
  | anyMember {α : Type} (codec : Codec Token α) : Inner codec.anyMember
  | collect {α : Type} {codec : Codec Token α} (hcodec : Inner codec) : Inner codec.collect
  | entries {α κ : Type} [BEq κ] {codec : Codec Token (κ × α)} (hcodec : Inner codec) :
      Inner codec.entries
  | optional {α : Type} {codec : Codec Token α} (hcodec : Inner codec) : Inner codec.optional
  | imap {α β : Type} {codec : Codec Token α} (hcodec : Inner codec) (f : α → β) (g : β → α) :
      Inner (codec.imap f g)

/-- The members that give their value at a token. -/
inductive Prompt : {α : Type} → Codec Token α → Prop where
  | member {α : Type} (name : String) (codec : Codec Token α) : Prompt (codec.member name)
  | anyMember {α : Type} (codec : Codec Token α) : Prompt codec.anyMember
  | imap {α β : Type} {codec : Codec Token α} (hcodec : Prompt codec) (f : α → β) (g : β → α) :
      Prompt (codec.imap f g)

/-- The members that give their value at the end of the object. -/
inductive Late : {α : Type} → Codec Token α → Prop where
  | collect {α : Type} (codec : Codec Token α) : Late codec.collect
  | entries {α κ : Type} [BEq κ] (codec : Codec Token (κ × α)) : Late codec.entries
  | imap {α β : Type} {codec : Codec Token α} (hcodec : Late codec) (f : α → β) (g : β → α) :
      Late (codec.imap f g)

variable {member : Codec Token α}

/-- Nothing is open before the first value. -/
theorem Inner.close_start (hinner : Inner member) :
    (member.writer.close member.writer.start).1 = [] := by
  induction hinner with
  | member name codec => rfl
  | anyMember codec => rfl
  | collect _ ih => exact ih
  | entries _ ih => exact ih
  | optional _ ih => exact ih
  | imap _ f g ih => exact ih

/-- A member that was left out is absent. -/
theorem readOne_optional_none (hinner : Inner member) :
    (enclosed member.optional).toReadCodec.readOne
      ((enclosed member.optional).toWriteCodec.write none) = .ok none := by
  have hwrite : (enclosed member.optional).toWriteCodec.write none =
      [.startObject] ++ ((member.writer.close member.writer.start).1 ++ [] ++ [.endObject]) := rfl
  rw [hwrite, hinner.close_start]
  exact ReadCodec.readOne_of_decided rfl

theorem Late.gives (hlate : Late member) : member.reader.Gives (fun _ => True) true := by
  induction hlate with
  | collect codec => exact (Reader.Gives.gather codec.reader _ _).map _
  | entries codec =>
      exact Reader.Gives.gather codec.reader Entries.empty fun store entry =>
        store.insert entry.1 entry.2
  | imap _ f g ih => exact ih.map f

/-- A member begins with its name, and from there on it is not missing. -/
theorem Prompt.begins (hprompt : Prompt member) :
    ∃ within, member.reader.Gives within false ∧ ∀ value, member.toWriteCodec.write value ≠ [] →
      ∃ name rest next, member.toWriteCodec.write value = .name name :: rest ∧
        member.reader.feed member.reader.start (.name name) = (.pending, next) ∧
          within next := by
  induction hprompt with
  | member name codec =>
      refine ⟨fun state => state.found = true, ⟨?_, fun _ _ _ => rfl, ?_⟩, ?_⟩
      · rintro ⟨reading, place, found⟩ token rfl
        cases place with
        | inside claimed depth => rfl
        | between depth =>
            by_cases hclaimed : depth = 0 ∧ token = .name name <;>
              simp [Codec.member, Codec.ofHalves, ReadCodec.member, memberReader, hclaimed]
      · rintro ⟨reading, place, found⟩ rfl hproduced
        cases hproduced
      · intro value hwritten
        rcases hinner : codec.writer.write codec.writer.start value with ⟨tokens, writing⟩
        have hwrite : (codec.member name).toWriteCodec.write value =
            if tokens.isEmpty then [] else .name name :: (tokens ++ (codec.writer.close writing).1) := by
          cases tokens <;>
            simp [WriteCodec.write, Writer.writeClosed, Codec.member, Codec.ofHalves,
              WriteCodec.member, memberWriter, hinner]
        rw [hwrite] at hwritten ⊢
        cases hempty : tokens.isEmpty with
        | true => simp [hempty] at hwritten
        | false =>
            have hfeed : (codec.member name).reader.feed (codec.member name).reader.start
                (.name name) = (.pending, ⟨codec.reader.start, .inside () 0, true⟩) := by
              simp [Codec.member, Codec.ofHalves, ReadCodec.member, memberReader]
            exact ⟨name, _, _, rfl, hfeed, rfl⟩
  | anyMember codec =>
      exact ⟨fun _ => True, .of_silent fun _ => rfl,
        fun value _ => ⟨value.1, _, _, rfl, rfl, trivial⟩⟩
  | imap _ f g ih =>
      obtain ⟨within, hgives, hbegins⟩ := ih
      refine ⟨within, hgives.map f, ?_⟩
      intro value hwritten
      obtain ⟨name, rest, next, hwrite, hfeed, hnext⟩ := hbegins (g value) hwritten
      exact ⟨name, rest, next, hwrite,
        congrArg (fun answer => (answer.1.map f, answer.2)) hfeed, hnext⟩

/-- The object around an optional member stands where the object around the member
stands, which has given no value. -/
def Along (member : Codec Token α) (within : member.reader.State → Prop)
    (first : (objectReader (lone member.part)).State)
    (second : (objectReader (lone member.optional.part)).State) : Prop :=
  ∃ state depth, within state ∧ first = (loneState member.part state false, depth) ∧
    second = (loneState member.optional.part (state, false) false, depth)

/-- The object around an optional member goes along with the object around the
member. -/
theorem Along.step {within : member.reader.State → Prop} {late : Bool}
    (hgives : member.reader.Gives within late)
    {first next : (objectReader (lone member.part)).State}
    {second : (objectReader (lone member.optional.part)).State} {token : Token}
    {outcome : Outcome (α × Unit)} (halong : Along member within first second)
    (hfeed : (objectReader (lone member.part)).feed first token = (outcome, next))
    (hpasses : outcome.isFailed = false) :
    ((objectReader (lone member.optional.part)).feed second token).1 =
        outcome.map (fun pair => (presence late pair.1, ())) ∧
      (outcome = .pending →
        Along member within next
          ((objectReader (lone member.optional.part)).feed second token).2) := by
  obtain ⟨state, depth, hstate, rfl, rfl⟩ := halong
  by_cases hdepth : depth = 0
  · subst hdepth
    by_cases hopening : token = .startObject
    · subst hopening
      cases hfeed
      exact ⟨rfl, fun _ => ⟨state, 1, hstate, rfl, rfl⟩⟩
    · simp only [objectReader, if_true, hopening, if_false] at hfeed
      cases hfeed
      cases hpasses
  by_cases hclosing : depth = 1 ∧ token = .endObject
  · simp only [objectReader, hclosing, and_self, if_true] at hfeed ⊢
    obtain ⟨rfl, rfl⟩ := Prod.mk.inj hfeed
    obtain ⟨value, hvalue, hoptional⟩ := complete_lone_optional hgives hstate hpasses
    rw [hvalue, hoptional]
    exact ⟨rfl, by rintro ⟨⟩⟩
  simp only [objectReader, hdepth, if_false, hclosing] at hfeed ⊢
  rcases hlone : (lone member.part).feed (loneState member.part state false) token with
    ⟨answer, inner⟩
  rw [hlone] at hfeed
  obtain ⟨rfl, rfl⟩ := Prod.mk.inj hfeed
  obtain ⟨reached, hreached, hnext⟩ := feed_lone_optional hgives hstate hlone hpasses
  rw [hreached]
  refine ⟨rfl, ?_⟩
  rintro rfl
  obtain ⟨rfl, rfl⟩ := hnext rfl
  exact ⟨_, _, hgives.stays token hstate, rfl, rfl⟩

theorem write_enclosed (member : Codec Token α) (value : α) :
    (enclosed member).toWriteCodec.write value =
      .startObject :: (member.toWriteCodec.write value ++ [.endObject]) := by
  simp [WriteCodec.write, Writer.writeClosed, enclosed, Codec.imap, Codec.ofHalves,
    Codec.object, WriteCodec.contramap, Writer.contramap, WriteCodec.object, objectWriter,
    Parts.one, Parts.mapParts, Writer.parts, Condition.written]

/-- Nothing is decided up to the name of a member. -/
theorem decided_behind_name (part : PartReader Token α) {next : part.reader.State}
    {name : String} (hfeed : part.reader.feed part.reader.start (.name name) = (.pending, next))
    (rest : List Token) :
    ((objectReader (lone part)).run (objectReader (lone part)).start
        (.startObject :: .name name :: rest)).1.findSome? toExcept? =
      ((objectReader (lone part)).run (loneState part next false, 1) rest).1.findSome?
        toExcept? := by
  have hopening : (objectReader (lone part)).feed (objectReader (lone part)).start .startObject =
      (.pending, (loneState part part.reader.start false, 1)) := rfl
  have hname : (objectReader (lone part)).feed (loneState part part.reader.start false, 1)
      (.name name) = (.pending, (loneState part next false, 1)) := by
    have hflat : Alphabet.track 1 (Token.name name) = 1 := rfl
    simp [objectReader, feed_lone_of_pending part hfeed, Outcome.isFailed, hflat]
  rw [Reader.run_cons_of_feed _ hopening, Reader.run_cons_of_feed _ hname]
  rfl

/-- A member that was written is present, if it is read at a token. -/
theorem readOne_optional_some (hprompt : Prompt member) (hround : (enclosed member).RoundTrips)
    {value : α} (hwritten : member.toWriteCodec.write value ≠ []) :
    (enclosed member.optional).toReadCodec.readOne
      ((enclosed member.optional).toWriteCodec.write (some value)) = .ok (some value) := by
  obtain ⟨within, hgives, hbegins⟩ := hprompt.begins
  obtain ⟨name, rest, next, hwrite, hfeed, hnext⟩ := hbegins value hwritten
  have hread := hround value
  rw [write_enclosed, hwrite, List.cons_append] at hread
  have hdecided : (((objectReader (lone member.part)).run (objectReader (lone member.part)).start
      (.startObject :: .name name :: (rest ++ [.endObject]))).1.findSome? toExcept?).map
        (Except.map Prod.fst) = some (.ok value) :=
    (Reader.decided_map Prod.fst).symm.trans (ReadCodec.decided_of_readOne (fun _ => rfl) hread)
  obtain ⟨result, hfound, hresult⟩ := Option.map_eq_some_iff.mp hdecided
  obtain ⟨⟨found, ⟨⟩⟩, rfl, rfl⟩ := Except.exists_of_map hresult
  have hoptional : member.reader.optional.feed (member.reader.start, false) (.name name) =
      (.pending, (next, false)) := by
    rw [Reader.feed_optional, hfeed]
    rfl
  -- Behind the name of the member the two readers stand alongside.
  have halong : Along member within (loneState member.part next false, 1)
      (loneState member.optional.part (next, false) false, 1) := ⟨next, 1, hnext, rfl, rfl⟩
  have hrest := (decided_behind_name member.part hfeed (rest ++ [.endObject])).symm.trans hfound
  have hpresent := Reader.decided_of_lockstep (Along member within) (Along.step hgives) halong hrest
  have hwhole : (enclosed member.optional).toWriteCodec.write (some found) =
      .startObject :: .name name :: (rest ++ [.endObject]) := by
    rw [write_enclosed]
    exact congrArg (fun tokens => Token.startObject :: (tokens ++ [.endObject])) hwrite
  rw [hwhole]
  exact ReadCodec.readOne_of_decided ((Reader.decided_map Prod.fst).trans
    (congrArg (Option.map (Except.map Prod.fst))
      ((decided_behind_name member.optional.part hoptional _).trans hpresent)))

/-- A member that gives its value at the end of the object is absent, written or
not. -/
theorem readOne_optional_late (hlate : Late member) (hround : (enclosed member).RoundTrips)
    (value : α) :
    (enclosed member.optional).toReadCodec.readOne
      ((enclosed member.optional).toWriteCodec.write (some value)) = .ok none := by
  have hdecided := (Reader.decided_map Prod.fst).symm.trans
    (ReadCodec.decided_of_readOne (fun _ => rfl) (hround value))
  obtain ⟨result, hfound, hresult⟩ := Option.map_eq_some_iff.mp hdecided
  obtain ⟨⟨found, ⟨⟩⟩, rfl, rfl⟩ := Except.exists_of_map hresult
  have halong : Along member (fun _ => True) (objectReader (lone member.part)).start
      (objectReader (lone member.optional.part)).start :=
    ⟨member.reader.start, 0, trivial, rfl, rfl⟩
  have habsent := Reader.decided_of_lockstep (Along member fun _ => True) (Along.step hlate.gives)
    halong hfound
  have hwrite : (enclosed member.optional).toWriteCodec.write (some found) =
      (enclosed member).toWriteCodec.write found := by
    rw [write_enclosed, write_enclosed]
    rfl
  rw [hwrite]
  exact ReadCodec.readOne_of_decided ((Reader.decided_map Prod.fst).trans
    (congrArg (Option.map (Except.map Prod.fst)) habsent))

end Json

/-! ## Members of an element -/

namespace Xml

open Assembly

/-- The codecs that stand inside an element. -/
inductive Inner : {α : Type} → Codec Token α → Prop where
  | ofAttribute (name : Name) : Inner (ofAttribute name)
  | anyAttribute : Inner anyAttribute
  | text : Inner text
  | element {β : Type} {parts : Parts (Codec Token) β} (name : Name)
      (conditions : List (Condition Token))
      (hparts : ∀ {γ : Type} {codec : Codec Token γ}, parts.Mem codec → Inner codec) :
      Inner (.element name parts conditions)
  | collect {α : Type} {codec : Codec Token α} (hcodec : Inner codec) : Inner codec.collect
  | entries {α κ : Type} [BEq κ] {codec : Codec Token (κ × α)} (hcodec : Inner codec) :
      Inner codec.entries
  | optional {α : Type} {codec : Codec Token α} (hcodec : Inner codec) : Inner codec.optional
  | imap {α β : Type} {codec : Codec Token α} (hcodec : Inner codec) (f : α → β) (g : β → α) :
      Inner (codec.imap f g)

/-- The members that give their value at a token. -/
inductive Prompt : {α : Type} → Codec Token α → Prop where
  | ofAttribute (name : Name) : Prompt (ofAttribute name)
  | anyAttribute : Prompt anyAttribute
  | element {β : Type} (name : Name) (parts : Parts (Codec Token) β)
      (conditions : List (Condition Token)) : Prompt (.element name parts conditions)
  | imap {α β : Type} {codec : Codec Token α} (hcodec : Prompt codec) (f : α → β) (g : β → α) :
      Prompt (codec.imap f g)

/-- The members that give their value at the end of the element. -/
inductive Late : {α : Type} → Codec Token α → Prop where
  | text : Late text
  | collect {α : Type} (codec : Codec Token α) : Late codec.collect
  | entries {α κ : Type} [BEq κ] (codec : Codec Token (κ × α)) : Late codec.entries
  | imap {α β : Type} {codec : Codec Token α} (hcodec : Late codec) (f : α → β) (g : β → α) :
      Late (codec.imap f g)

variable {member : Codec Token α}

/-- Nothing is open before the first value. -/
theorem Inner.close_start (hinner : Inner member) :
    (member.writer.close member.writer.start).1 = [] := by
  induction hinner with
  | ofAttribute name => rfl
  | anyAttribute => rfl
  | text => rfl
  | @element β parts name conditions _ ih =>
      cases parts with
      | nil => rfl
      | cons first rest =>
          cases rest with
          | nil =>
              have hfirst : (first.writer.close first.writer.start).1 = [] :=
                ih (Parts.mem_head first .nil)
              exact hfirst
          | cons second others => rfl
  | collect _ ih => exact ih
  | entries _ ih => exact ih
  | optional _ ih => exact ih
  | imap _ f g ih => exact ih

/-- A member that was left out is absent. -/
theorem readOne_optional_none (name : Name) (hinner : Inner member) :
    (enclosed name member.optional).toReadCodec.readOne
      ((enclosed name member.optional).toWriteCodec.write none) = .ok none := by
  have hwrite : (enclosed name member.optional).toWriteCodec.write none =
      [.startElement name []] ++
        ((member.writer.close member.writer.start).1 ++ [] ++ [.endElement name]) := rfl
  rw [hwrite, hinner.close_start]
  have hempty : (lone member.optional.part).interior.conclude (lone member.optional.part).start
      (([] : List Attribute).map Token.loneAttribute ++ []) = .ok ([(none, ())], _) := rfl
  have hread : (elementReader (· = name) (lone member.optional.part)).consume
      ((lone member.optional.part).start, .outside)
      (.startElement name [] :: ([] ++ [.endElement name])) = .ok ([(none, ())], _) :=
    consume_elementReader_of_conclude (decide_eq_true rfl) .nil hempty name
  exact ReadCodec.readOne_of_decided ((Reader.decided_map Prod.fst).trans
    (congrArg (Option.map (Except.map Prod.fst)) (Reader.decided_of_consume hread)))

theorem Prompt.gives (hprompt : Prompt member) : member.reader.Gives (fun _ => True) false := by
  induction hprompt with
  | ofAttribute name => exact .of_silent (silent_attributeReader _)
  | anyAttribute => exact .of_silent (silent_attributeReader _)
  | element name parts conditions => exact .of_silent (silent_elementReader _ _)
  | imap _ f g ih => exact ih.map f

theorem Late.gives (hlate : Late member) : member.reader.Gives (fun _ => True) true := by
  induction hlate with
  | text =>
      refine ⟨fun _ _ => trivial, ?_, fun _ _ => rfl⟩
      rintro ⟨depth, found⟩ token - hproduced
      cases token with
      | characters more =>
          by_cases hdepth : depth = 0 <;>
            simp [Xml.text, textReader, hdepth, Outcome.isProduced] at hproduced
      | _ => cases hproduced
  | collect codec => exact (Reader.Gives.gather codec.reader _ _).map _
  | entries codec =>
      exact Reader.Gives.gather codec.reader Entries.empty fun store entry =>
        store.insert entry.1 entry.2
  | imap _ f g ih => exact ih.map f

/-- The element around an optional member stands where the element around the
member stands, which has given no value. -/
def Along (claims : Name → Bool) (member : Codec Token α)
    (first : (elementReader claims (lone member.part)).State)
    (second : (elementReader claims (lone member.optional.part)).State) : Prop :=
  ∃ state place, first = (loneState member.part state false, place) ∧
    second = (loneState member.optional.part (state, false) false, place)

variable {late : Bool} (hgives : member.reader.Gives (fun _ => True) late)

include hgives

/-- The start of a claimed element, with the attributes that are in it. -/
theorem Along.step_start {claims : Name → Bool} {state : member.reader.State}
    {name : Name} {attributes : List Attribute} (hclaims : claims name = true)
    {next : (elementReader claims (lone member.part)).State} {outcome : Outcome (α × Unit)}
    (hfeed : (elementReader claims (lone member.part)).feed
      (loneState member.part state false, .outside) (.startElement name attributes) =
        (outcome, next))
    (hpasses : outcome.isFailed = false) :
    ((elementReader claims (lone member.optional.part)).feed
        (loneState member.optional.part (state, false) false, .outside)
        (.startElement name attributes)).1 =
          outcome.map (fun pair => (presence late pair.1, ())) ∧
      (outcome = .pending → Along claims member next
        ((elementReader claims (lone member.optional.part)).feed
          (loneState member.optional.part (state, false) false, .outside)
          (.startElement name attributes)).2) := by
  have hlone := consume_interior_lone member.part state false
    (attributes.map Token.loneAttribute)
  rcases hmember : member.reader.consume state (attributes.map Token.loneAttribute) with
    failure | ⟨values, reached⟩
  · have hround := feedAttributes_of_error
      (hlone.trans (congrArg (Except.map _) hmember)) .pending
    simp only [elementReader, hclaims, if_true, hround] at hfeed
    cases hfeed
    cases hpasses
  · have hround := feedAttributes_of_ok
      (hlone.trans (congrArg (Except.map _) hmember)) .pending
    have hoptional := Reader.consume_optional member.reader state false
      (attributes.map Token.loneAttribute)
    rw [hmember] at hoptional
    have hothers := feedAttributes_of_ok ((consume_interior_lone member.optional.part
      (state, false) false (attributes.map Token.loneAttribute)).trans
        (congrArg (Except.map _) hoptional)) .pending
    simp only [elementReader, hclaims, if_true, hround] at hfeed
    simp only [elementReader, hclaims, if_true, hothers]
    cases hlast : values.getLast? with
    | none =>
        obtain rfl := List.getLast?_eq_none_iff.mp hlast
        cases hfeed
        exact ⟨rfl, fun _ => ⟨reached, _, rfl, rfl⟩⟩
    | some value =>
        have hne : values ≠ [] := by
          rintro rfl
          cases hlast
        obtain rfl := (hgives.of_consume trivial hmember).2 hne
        simp only [List.getLast?_map, hlast] at hfeed ⊢
        cases hfeed
        exact ⟨rfl, by rintro ⟨⟩⟩

/-- The element around an optional member goes along with the element around the
member. -/
theorem Along.step {claims : Name → Bool}
    {first next : (elementReader claims (lone member.part)).State}
    {second : (elementReader claims (lone member.optional.part)).State} {token : Token}
    {outcome : Outcome (α × Unit)} (halong : Along claims member first second)
    (hfeed : (elementReader claims (lone member.part)).feed first token = (outcome, next))
    (hpasses : outcome.isFailed = false) :
    ((elementReader claims (lone member.optional.part)).feed second token).1 =
        outcome.map (fun pair => (presence late pair.1, ())) ∧
      (outcome = .pending → Along claims member next
        ((elementReader claims (lone member.optional.part)).feed second token).2) := by
  obtain ⟨state, place, rfl, rfl⟩ := halong
  cases place with
  | outside =>
      cases token with
      | startElement name attributes =>
          by_cases hclaims : claims name = true
          · exact Along.step_start hgives hclaims hfeed hpasses
          · simp only [elementReader, hclaims, Bool.false_eq_true, if_false] at hfeed ⊢
            cases hfeed
            exact ⟨rfl, fun _ => ⟨state, .skipping 1, rfl, rfl⟩⟩
      | _ =>
          cases hfeed
          exact ⟨rfl, fun _ => ⟨state, .outside, rfl, rfl⟩⟩
  | skipping depth =>
      cases hfeed
      exact ⟨rfl, fun _ => ⟨state, .skip depth token, rfl, rfl⟩⟩
  | inside shownName depth =>
      by_cases hclosing : depth = 1 ∧ token.nesting = .closes
      · simp only [elementReader, hclosing, if_true, and_self] at hfeed ⊢
        obtain ⟨rfl, rfl⟩ := Prod.mk.inj hfeed
        rw [Outcome.isFailed_within] at hpasses
        obtain ⟨value, hvalue, hoptional⟩ := complete_lone_optional hgives trivial hpasses
        rw [hvalue, hoptional]
        exact ⟨rfl, by rintro ⟨⟩⟩
      simp only [elementReader, hclosing, if_false] at hfeed ⊢
      rcases hlone : (lone member.part).feed (loneState member.part state false) token with
        ⟨answer, inner⟩
      rw [hlone] at hfeed
      obtain ⟨rfl, rfl⟩ := Prod.mk.inj hfeed
      rw [Outcome.isFailed_within] at hpasses
      obtain ⟨reached, hreached, hnext⟩ := feed_lone_optional hgives trivial hlone hpasses
      rw [hreached]
      cases answer with
      | produced found => exact ⟨rfl, by rintro ⟨⟩⟩
      | pending =>
          obtain ⟨rfl, rfl⟩ := hnext rfl
          exact ⟨rfl, fun _ => ⟨_, _, rfl, rfl⟩⟩
      | failed failure => cases hpasses

omit hgives

/-- A present value is written like the member itself. -/
theorem write_enclosed_optional (name : Name) (member : Codec Token α) (value : α) :
    (enclosed name member.optional).toWriteCodec.write (some value) =
      (enclosed name member).toWriteCodec.write value := by
  simp [WriteCodec.write, Writer.writeClosed, Writer.contramap, Writer.parts, Writer.optional,
    enclosed, elementWriter, WriteCodec.element, WriteCodec.contramap, WriteCodec.optional,
    Codec.imap, Codec.ofHalves, Codec.element, Codec.optional, Parts.one, Parts.mapParts,
    Condition.written]

/-- Whether a member that was written is present depends on where its value is
given. -/
theorem readOne_optional_presence (name : Name) (hgives : member.reader.Gives (fun _ => True) late)
    (hround : (enclosed name member).RoundTrips) (value : α) :
    (enclosed name member.optional).toReadCodec.readOne
      ((enclosed name member.optional).toWriteCodec.write (some value)) =
        .ok (presence late value) := by
  have hdecided := (Reader.decided_map Prod.fst).symm.trans
    (ReadCodec.decided_of_readOne (fun _ => rfl) (hround value))
  obtain ⟨result, hfound, hresult⟩ := Option.map_eq_some_iff.mp hdecided
  obtain ⟨⟨found, ⟨⟩⟩, rfl, rfl⟩ := Except.exists_of_map hresult
  have halong : Along (· = name) member
      (elementReader (· = name) (lone member.part)).start
      (elementReader (· = name) (lone member.optional.part)).start :=
    ⟨member.reader.start, .outside, rfl, rfl⟩
  have hpresence := Reader.decided_of_lockstep (Along (· = name) member)
    (Along.step hgives) halong hfound
  rw [write_enclosed_optional]
  exact ReadCodec.readOne_of_decided ((Reader.decided_map Prod.fst).trans
    (congrArg (Option.map (Except.map Prod.fst)) hpresence))

end Xml

/-! ## Both formats -/

/-- Absence reads back for every member.  Presence reads back for a member that
gives its value at a token, if the member itself reads back and was written; a
member that gives its value at the end reads as absent. -/
theorem readOne_optional {member : Codec Json.Token α} {child : Codec Xml.Token β}
    (name : Xml.Name) (hmember : Json.Inner member) (hchild : Xml.Inner child) :
    ((Json.enclosed member.optional).toReadCodec.readOne
          ((Json.enclosed member.optional).toWriteCodec.write none) = .ok none ∧
        ((Json.enclosed member).RoundTrips → ∀ value, member.toWriteCodec.write value ≠ [] →
          (Json.Prompt member → (Json.enclosed member.optional).toReadCodec.readOne
            ((Json.enclosed member.optional).toWriteCodec.write (some value)) =
              .ok (some value)) ∧
          (Json.Late member → (Json.enclosed member.optional).toReadCodec.readOne
            ((Json.enclosed member.optional).toWriteCodec.write (some value)) = .ok none))) ∧
      (Xml.enclosed name child.optional).toReadCodec.readOne
          ((Xml.enclosed name child.optional).toWriteCodec.write none) = .ok none ∧
        ((Xml.enclosed name child).RoundTrips → ∀ value, child.toWriteCodec.write value ≠ [] →
          (Xml.Prompt child → (Xml.enclosed name child.optional).toReadCodec.readOne
            ((Xml.enclosed name child.optional).toWriteCodec.write (some value)) =
              .ok (some value)) ∧
          (Xml.Late child → (Xml.enclosed name child.optional).toReadCodec.readOne
            ((Xml.enclosed name child.optional).toWriteCodec.write (some value)) = .ok none)) := by
  refine ⟨⟨Json.readOne_optional_none hmember, fun hround value hwritten => ⟨?_, ?_⟩⟩,
    Xml.readOne_optional_none name hchild, fun hround value hwritten => ⟨?_, ?_⟩⟩
  · exact fun hprompt => Json.readOne_optional_some hprompt hround hwritten
  · exact fun hlate => Json.readOne_optional_late hlate hround value
  · exact fun hprompt => Xml.readOne_optional_presence name hprompt.gives hround value
  · exact fun hlate => Xml.readOne_optional_presence name hlate.gives hround value

/-- An optional member of an object and an optional attribute, absent and present. -/
theorem readOne_optional_attribute :
    let member := (Json.Scalar.string.codec.member "a").optional
    let attr := (Xml.ofAttribute (.plain "a")).optional
    (Json.enclosed member).toReadCodec.readOne [.startObject, .endObject] = .ok none ∧
      (Json.enclosed member).toReadCodec.readOne
        [.startObject, .name "a", .string "x", .endObject] = .ok (some "x") ∧
      (Xml.enclosed (.plain "p") attr).toReadCodec.readOne
        [.startElement (.plain "p") [], .endElement (.plain "p")] = .ok none ∧
      (Xml.enclosed (.plain "p") attr).toReadCodec.readOne
        [.startElement (.plain "p") [⟨.plain "a", "1"⟩], .endElement (.plain "p")] =
          .ok (some "1") := by
  obtain ⟨hmember, hattribute⟩ := readOne_optional (.plain "p")
    (.member "a" Json.Scalar.string.codec) (.ofAttribute (.plain "a"))
  exact ⟨hmember.1, (hmember.2 (fun _ => rfl) "x" nofun).1 (.member "a" _),
    hattribute.1, (hattribute.2 (fun _ => rfl) "1" nofun).1 (.ofAttribute _)⟩

/-- The text of an element reads back, and so does the absence of an optional
text.  A text that is present reads as absent: the reader of the text gives it at
the end of the element, where the optional reader takes no value. -/
theorem readOne_optional_text_absent :
    (Xml.enclosed (.plain "p") Xml.text).RoundTrips ∧
      Xml.text.toWriteCodec.write "x" ≠ [] ∧
      (Xml.enclosed (.plain "p") Xml.text.optional).toReadCodec.readOne
        ((Xml.enclosed (.plain "p") Xml.text.optional).toWriteCodec.write (some "x")) =
          .ok none := by
  refine ⟨fun value => ?_, nofun, rfl⟩
  have hread := (Xml.readsBack_childText (.plain "p")).reads value
  have hwrite := congrArg Prod.fst ((Xml.renders_childText (.plain "p")).1.emits value)
  exact (congrArg (ReadCodec.readOne _) hwrite).trans
    (ReadCodec.readOne_of_decided (Reader.decided_of_consume hread))

end TokenCodec
