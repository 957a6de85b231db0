import TokenCodec.Proofs.Reset
import TokenCodec.Proofs.Consumption

/-!
# Compositions over one unit

The parts and the conditions of a composition all see the tokens of a unit, one
after the other at each token.  A round fails with the first of them that fails,
so a unit passes if and only if every part and every condition passes it by
itself.  The value of the unit is then made of what each part gives for the
unit by itself, whether the composition holds its values back or streams them.
-/

namespace TokenCodec

variable {τ α β σ ρ : Type}

/-- A machine whose answer to a token is a failure or nothing. -/
abbrev Watcher (τ σ : Type) := σ → τ → Option Failure × σ

namespace Watcher

/-- The state behind a run of tokens, or the first failure. -/
def follow (watcher : Watcher τ σ) : σ → List τ → Except Failure σ
  | state, [] => .ok state
  | state, token :: tokens =>
      match watcher state token with
      | (some failure, _) => .error failure
      | (none, next) => follow watcher next tokens

/-- Two machines that see each token in turn.  The second one does not see a
token at which the first one fails. -/
def inTurn (first : Watcher τ σ) (second : Watcher τ ρ) : Watcher τ (σ × ρ) :=
  fun state token =>
    match first state.1 token with
    | (some failure, next) => (some failure, (next, state.2))
    | (none, next) => ((second state.2 token).1, (next, (second state.2 token).2))

variable {first : Watcher τ σ} {second : Watcher τ ρ}

theorem follow_cons_of_none {watcher : Watcher τ σ} {state next : σ} {token : τ}
    (hanswer : watcher state token = (none, next)) (tokens : List τ) :
    follow watcher state (token :: tokens) = follow watcher next tokens := by
  rw [follow, hanswer]

theorem follow_cons_of_some {watcher : Watcher τ σ} {state next : σ} {token : τ}
    {failure : Failure} (hanswer : watcher state token = (some failure, next))
    (tokens : List τ) : follow watcher state (token :: tokens) = .error failure := by
  rw [follow, hanswer]

/-- Two machines pass a run in turn if each of them passes it. -/
theorem follow_inTurn_of_ok {state next : σ} {other others : ρ} {tokens : List τ}
    (hfirst : follow first state tokens = .ok next)
    (hsecond : follow second other tokens = .ok others) :
    follow (inTurn first second) (state, other) tokens = .ok (next, others) := by
  induction tokens generalizing state other with
  | nil =>
      cases hfirst
      cases hsecond
      rfl
  | cons token tokens ih =>
      rcases hone : first state token with ⟨_ | failure, next'⟩
      · rcases htwo : second other token with ⟨_ | failure, others'⟩
        · rw [follow_cons_of_none hone] at hfirst
          rw [follow_cons_of_none htwo] at hsecond
          have hboth : inTurn first second (state, other) token = (none, (next', others')) := by
            simp only [inTurn, hone, htwo]
          rw [follow_cons_of_none hboth]
          exact ih hfirst hsecond
        · rw [follow_cons_of_some htwo] at hsecond
          cases hsecond
      · rw [follow_cons_of_some hone] at hfirst
        cases hfirst

/-- Two machines fail in turn if one of them fails. -/
theorem follow_inTurn_of_error (first : Watcher τ σ) (second : Watcher τ ρ) (state : σ)
    (other : ρ) {tokens : List τ} (herror : (∃ failure, follow first state tokens = .error failure) ∨
      ∃ failure, follow second other tokens = .error failure) :
    ∃ failure, follow (inTurn first second) (state, other) tokens = .error failure := by
  induction tokens generalizing state other with
  | nil => rcases herror with ⟨_, hfirst⟩ | ⟨_, hsecond⟩ <;> contradiction
  | cons token tokens ih =>
      rcases hone : first state token with ⟨_ | failure, next⟩
      · rcases htwo : second other token with ⟨_ | failure, others⟩
        · have hboth : inTurn first second (state, other) token = (none, (next, others)) := by
            simp only [inTurn, hone, htwo]
          rw [follow_cons_of_none hone, follow_cons_of_none htwo] at herror
          rw [follow_cons_of_none hboth]
          exact ih next others herror
        · have hboth : inTurn first second (state, other) token =
              (some failure, (next, others)) := by
            simp only [inTurn, hone, htwo]
          exact ⟨failure, follow_cons_of_some hboth tokens⟩
      · have hboth : inTurn first second (state, other) token =
            (some failure, (next, other)) := by
          simp only [inTurn, hone]
        exact ⟨failure, follow_cons_of_some hboth tokens⟩

/-- Each of two machines passes what they pass in turn. -/
theorem follow_both_of_inTurn {state next : σ} {other others : ρ} {tokens : List τ}
    (hboth : follow (inTurn first second) (state, other) tokens = .ok (next, others)) :
    follow first state tokens = .ok next ∧ follow second other tokens = .ok others := by
  rcases hfirst : follow first state tokens with failure | reached
  · obtain ⟨earlier, hfailed⟩ := follow_inTurn_of_error first second state other
      (.inl ⟨failure, hfirst⟩)
    rw [hfailed] at hboth
    cases hboth
  rcases hsecond : follow second other tokens with failure | reaching
  · obtain ⟨earlier, hfailed⟩ := follow_inTurn_of_error first second state other
      (.inr ⟨failure, hsecond⟩)
    rw [hfailed] at hboth
    cases hboth
  rw [follow_inTurn_of_ok hfirst hsecond] at hboth
  cases hboth
  exact ⟨rfl, rfl⟩

/-- What two machines fail with in turn, one of them fails with by itself. -/
theorem error_of_inTurn {state : σ} {other : ρ} {tokens : List τ} {failure : Failure}
    (herror : follow (inTurn first second) (state, other) tokens = .error failure) :
    follow first state tokens = .error failure ∨ follow second other tokens = .error failure := by
  induction tokens generalizing state other with
  | nil => cases herror
  | cons token tokens ih =>
      rcases hone : first state token with ⟨_ | earliest, next⟩
      · rcases htwo : second other token with ⟨_ | earliest, others⟩
        · have hboth : inTurn first second (state, other) token = (none, (next, others)) := by
            simp only [inTurn, hone, htwo]
          rw [follow_cons_of_none hboth] at herror
          rw [follow_cons_of_none hone, follow_cons_of_none htwo]
          exact ih herror
        · have hboth : inTurn first second (state, other) token =
              (some earliest, (next, others)) := by
            simp only [inTurn, hone, htwo]
          cases (follow_cons_of_some hboth tokens).symm.trans herror
          exact .inr (follow_cons_of_some htwo tokens)
      · have hboth : inTurn first second (state, other) token =
            (some earliest, (next, other)) := by
          simp only [inTurn, hone]
        cases (follow_cons_of_some hboth tokens).symm.trans herror
        exact .inl (follow_cons_of_some hone tokens)

end Watcher

/-! ## Parts -/

namespace PartReader

/-- A part with its slot, as one of the machines that see each token. -/
def watch (part : PartReader τ α) : Watcher τ (part.reader.State × Option α) :=
  fun state token =>
    match part.reader.feed state.1 token with
    | (.produced value, next) => (none, (next, some value))
    | (.pending, next) => (none, (next, state.2))
    | (.failed failure, next) => (some failure, (next, state.2))

/-- The slot of a part holds the last value of a run. -/
theorem follow_watch (part : PartReader τ α) (state : part.reader.State) (slot : Option α)
    (tokens : List τ) :
    part.watch.follow (state, slot) tokens =
      (part.reader.consume state tokens).map fun read =>
        (read.2, read.1.getLast?.or slot) := by
  induction tokens generalizing state slot with
  | nil => rfl
  | cons token tokens ih =>
      rcases hfeed : part.reader.feed state token with ⟨value | _ | failure, next⟩
      · have hwatch : part.watch (state, slot) token = (none, (next, some value)) := by
          simp only [watch, hfeed]
        rw [Watcher.follow_cons_of_none hwatch, ih, Reader.consume_cons_of_produced _ hfeed]
        cases part.reader.consume next tokens with
        | error failure => rfl
        | ok read => simp [Except.map, List.getLast?_cons]
      · have hwatch : part.watch (state, slot) token = (none, (next, slot)) := by
          simp only [watch, hfeed]
        rw [Watcher.follow_cons_of_none hwatch, ih, Reader.consume_cons_of_pending _ hfeed]
      · have hwatch : part.watch (state, slot) token = (some failure, (next, slot)) := by
          simp only [watch, hfeed]
        rw [Watcher.follow_cons_of_some hwatch, Reader.consume_cons_of_failed _ hfeed]
        rfl

/-- What a part gives for the tokens of a unit: the last value produced, or else
what its reader releases at the end. -/
def evaluate (part : PartReader τ α) (tokens : List τ) : Except Failure α :=
  (part.reader.consume part.reader.start tokens).bind fun read =>
    part.conclude read.1.getLast? (part.reader.reset read.2).1

theorem evaluate_of_ok {part : PartReader τ α} {tokens : List τ} {values : List α}
    {next : part.reader.State}
    (hconsume : part.reader.consume part.reader.start tokens = .ok (values, next)) :
    part.evaluate tokens = part.conclude values.getLast? (part.reader.reset next).1 := by
  rw [evaluate, hconsume]
  rfl

theorem evaluate_of_error {part : PartReader τ α} {tokens : List τ} {failure : Failure}
    (hconsume : part.reader.consume part.reader.start tokens = .error failure) :
    part.evaluate tokens = .error failure := by
  rw [evaluate, hconsume]
  rfl

/-- A part produces no more than one value in a unit. -/
def AtMostOnce (part : PartReader τ α) (tokens : List τ) : Prop :=
  ∀ values next, part.reader.consume part.reader.start tokens = .ok (values, next) →
    values.length ≤ 1

theorem AtMostOnce.of_consume {part : PartReader τ α} {tokens : List τ} {values : List α}
    {next : part.reader.State}
    (hconsume : part.reader.consume part.reader.start tokens = .ok (values, next))
    (honce : values.length ≤ 1) : part.AtMostOnce tokens := by
  intro others reached hothers
  cases hconsume.symm.trans hothers
  exact honce

theorem AtMostOnce.of_error {part : PartReader τ α} {tokens : List τ} {failure : Failure}
    (hconsume : part.reader.consume part.reader.start tokens = .error failure) :
    part.AtMostOnce tokens := by
  intro values next hvalues
  cases hvalues.symm.trans hconsume

/-- Conversion of the values of a part. -/
def map (part : PartReader τ α) (f : α → β) : PartReader τ β :=
  ⟨part.description, part.reader.map f⟩

theorem evaluate_map (part : PartReader τ α) (f : α → β) (tokens : List τ) :
    (part.map f).evaluate tokens = (part.evaluate tokens).map f := by
  have hmap := Reader.consume_map part.reader f part.reader.start tokens
  rcases hconsume : part.reader.consume part.reader.start tokens with failure | ⟨values, next⟩
  · rw [hconsume] at hmap
    rw [evaluate_of_error hconsume, evaluate_of_error hmap]
    rfl
  · rw [hconsume] at hmap
    refine (evaluate_of_ok hmap).trans ?_
    rw [evaluate_of_ok hconsume, List.getLast?_map]
    change (part.map f).conclude _ ((part.reader.reset next).1.map f) = _
    cases values.getLast? with
    | some value => rfl
    | none => cases (part.reader.reset next).1 <;> rfl

theorem AtMostOnce.map {part : PartReader τ α} {tokens : List τ}
    (honce : part.AtMostOnce tokens) (f : α → β) : (part.map f).AtMostOnce tokens := by
  intro values next hconsume
  have hmap := Reader.consume_map part.reader f part.reader.start tokens
  rcases hpart : part.reader.consume part.reader.start tokens with failure | ⟨given, reached⟩
  · rw [hpart] at hmap
    cases hconsume.symm.trans hmap
  · rw [hpart] at hmap
    cases hconsume.symm.trans hmap
    rw [List.length_map]
    exact honce given reached hpart

end PartReader

namespace Slots

theorem feed_cons (part : PartReader τ α) (rest : Slots τ β) :
    (cons part rest).feed = Watcher.inTurn part.watch rest.feed := by
  funext ⟨⟨reading, slot⟩, others⟩ token
  rcases hfeed : part.reader.feed reading token with ⟨value | _ | failure, next⟩ <;>
    simp only [cons, Watcher.inTurn, PartReader.watch, hfeed]

/-- What the parts of a composition give together for the tokens of a unit. -/
def evaluate (slots : Slots τ β) (tokens : List τ) : Except Failure β :=
  (Watcher.follow slots.feed slots.start tokens).bind fun next => (slots.finish next).1

theorem follow_nil (tokens : List τ) :
    Watcher.follow (nil : Slots τ Unit).feed () tokens = .ok () := by
  induction tokens with
  | nil => rfl
  | cons token tokens ih => exact ih

theorem evaluate_nil (tokens : List τ) : (nil : Slots τ Unit).evaluate tokens = .ok () := by
  rw [evaluate]
  change (Watcher.follow (nil : Slots τ Unit).feed () tokens).bind _ = _
  rw [follow_nil]
  rfl

theorem evaluate_cons_of_ok {part : PartReader τ α} {rest : Slots τ β} {tokens : List τ}
    {value : α} {values : β} (hpart : part.evaluate tokens = .ok value)
    (hrest : rest.evaluate tokens = .ok values) :
    (cons part rest).evaluate tokens = .ok (value, values) := by
  rcases hconsume : part.reader.consume part.reader.start tokens with failure | ⟨given, next⟩
  · rw [PartReader.evaluate_of_error hconsume] at hpart
    cases hpart
  rcases hfollow : Watcher.follow rest.feed rest.start tokens with failure | others
  · rw [evaluate, hfollow] at hrest
    cases hrest
  have hwatch : part.watch.follow (part.reader.start, none) tokens =
      .ok (next, given.getLast?) := by
    rw [PartReader.follow_watch, hconsume]
    exact congrArg (fun slot => Except.ok (next, slot)) Option.or_none
  have hboth : Watcher.follow (cons part rest).feed (cons part rest).start tokens =
      .ok ((next, given.getLast?), others) := by
    rw [feed_cons]
    exact Watcher.follow_inTurn_of_ok hwatch hfollow
  rw [PartReader.evaluate_of_ok hconsume] at hpart
  rw [evaluate, hfollow] at hrest
  rw [evaluate, hboth]
  change (rest.finish others).1 = .ok values at hrest
  simp only [Except.bind, cons, hpart, hrest]

theorem evaluate_cons_of_error (part : PartReader τ α) (rest : Slots τ β) {tokens : List τ}
    (herror : (∃ failure, part.evaluate tokens = .error failure) ∨
      ∃ failure, rest.evaluate tokens = .error failure) :
    ∃ failure, (cons part rest).evaluate tokens = .error failure := by
  have hwatch := part.follow_watch part.reader.start none tokens
  rcases hconsume : part.reader.consume part.reader.start tokens with failure | ⟨given, next⟩
  · rw [hconsume] at hwatch
    obtain ⟨failure, hfollow⟩ := Watcher.follow_inTurn_of_error part.watch rest.feed
      (part.reader.start, none) rest.start (.inl ⟨_, hwatch⟩)
    refine ⟨failure, ?_⟩
    rw [evaluate, feed_cons]
    exact congrArg (Except.bind · _) hfollow
  rcases hrest : Watcher.follow rest.feed rest.start tokens with failure | others
  · obtain ⟨failure, hfollow⟩ := Watcher.follow_inTurn_of_error part.watch rest.feed
      (part.reader.start, none) rest.start (.inr ⟨_, hrest⟩)
    refine ⟨failure, ?_⟩
    rw [evaluate, feed_cons]
    exact congrArg (Except.bind · _) hfollow
  rw [hconsume] at hwatch
  have hboth : Watcher.follow (cons part rest).feed (cons part rest).start tokens =
      .ok ((next, given.getLast?.or none), others) := by
    rw [feed_cons]
    exact Watcher.follow_inTurn_of_ok hwatch hrest
  rw [PartReader.evaluate_of_ok hconsume, evaluate, hrest] at herror
  rw [evaluate, hboth]
  change (∃ failure, _ = Except.error failure) ∨
    ∃ failure, (rest.finish others).1 = .error failure at herror
  simp only [Except.bind, cons, Option.or_none]
  rcases herror with ⟨failure, hpart⟩ | ⟨failure, hfinish⟩
  · exact ⟨failure, by rw [hpart]⟩
  · rw [hfinish]
    cases part.conclude given.getLast? (part.reader.reset next).1 with
    | error earlier => exact ⟨earlier, rfl⟩
    | ok value => exact ⟨failure, rfl⟩

end Slots

/-! ## Conditions -/

namespace Reader

/-- A reader of which only the failures matter. -/
def heed (reader : Reader τ α) : Watcher τ reader.State :=
  fun state token =>
    match reader.feed state token with
    | (.failed failure, next) => (some failure, next)
    | (_, next) => (none, next)

theorem follow_heed (reader : Reader τ α) (state : reader.State) (tokens : List τ) :
    reader.heed.follow state tokens = (reader.consume state tokens).map Prod.snd := by
  induction tokens generalizing state with
  | nil => rfl
  | cons token tokens ih =>
      rcases hfeed : reader.feed state token with ⟨value | _ | failure, next⟩
      · have hheed : reader.heed state token = (none, next) := by
          simp only [heed, hfeed]
        rw [Watcher.follow_cons_of_none hheed, ih, consume_cons_of_produced _ hfeed]
        cases reader.consume next tokens <;> rfl
      · have hheed : reader.heed state token = (none, next) := by
          simp only [heed, hfeed]
        rw [Watcher.follow_cons_of_none hheed, ih, consume_cons_of_pending _ hfeed]
      · have hheed : reader.heed state token = (some failure, next) := by
          simp only [heed, hfeed]
        rw [Watcher.follow_cons_of_some hheed, consume_cons_of_failed _ hfeed]
        rfl

/-- A condition holds of the tokens of a unit: its reader fails neither at a
token nor at the end. -/
def HoldsOf (condition : Reader τ Unit) (tokens : List τ) : Prop :=
  ∃ values next, condition.consume condition.start tokens = .ok (values, next) ∧
    (condition.reset next).1.isFailed = false

/-- A fixed value holds of a unit that gives the value once. -/
theorem holdsOf_fixed [BEq α] [LawfulBEq α] [Shown α] {reader : Reader τ α} {tokens : List τ}
    {value : α} {next : reader.State}
    (hconsume : reader.consume reader.start tokens = .ok ([value], next)) (description : String) :
    (reader.fixed value description).HoldsOf tokens := by
  have hsame : ∀ found ∈ [value], (found == value) = true := by
    intro found hfound
    cases List.mem_singleton.mp hfound
    exact beq_self_eq_true value
  exact ⟨_, _, consume_fixed_of_ok value description hconsume hsame false, rfl⟩

/-- A fixed value on a reader that gives nothing at its reset holds of the units
that give the value and no other. -/
theorem holdsOf_fixed_iff [BEq α] [Shown α] {reader : Reader τ α} (hsilent : reader.Silent)
    (value : α) (description : String) (tokens : List τ) :
    (reader.fixed value description).HoldsOf tokens ↔
      ∃ values next, reader.consume reader.start tokens = .ok (values, next) ∧ values ≠ [] ∧
        ∀ found ∈ values, (found == value) = true := by
  constructor
  · rintro ⟨read, last, hconsume, hreset⟩
    obtain ⟨values, next, hvalues, hsame, rfl⟩ := exists_of_consume_fixed hconsume
    refine ⟨values, next, hvalues, ?_, hsame⟩
    rintro rfl
    have hquiet := hsilent next
    rcases hlast : reader.reset next with ⟨found | _ | failure, fresh⟩ <;>
      rw [hlast] at hquiet <;> simp [fixed, hlast, Outcome.isFailed] at hreset
    cases hquiet
  · rintro ⟨values, next, hvalues, hne, hsame⟩
    refine ⟨_, _, consume_fixed_of_ok value description hvalues hsame false, ?_⟩
    have hmatched : (!values.isEmpty) = true := by simpa using hne
    simp [fixed, hmatched, Outcome.isFailed]

end Reader

namespace Conditions

theorem feed_cons (reader : Reader τ Unit) (rest : Conditions τ) :
    (cons reader rest).feed = Watcher.inTurn reader.heed rest.feed := by
  funext ⟨reading, others⟩ token
  rcases hfeed : reader.feed reading token with ⟨value | _ | failure, next⟩ <;>
    simp only [cons, Watcher.inTurn, Reader.heed, hfeed]

/-- The conditions of a composition hold together if each of them holds. -/
theorem follow_ofList {readers : List (Reader τ Unit)} {tokens : List τ}
    (hreaders : ∀ reader ∈ readers, reader.HoldsOf tokens) :
    ∃ next, Watcher.follow (ofList readers).feed (ofList readers).start tokens = .ok next ∧
      ((ofList readers).reset next).1 = none := by
  induction readers with
  | nil =>
      refine ⟨(), ?_, rfl⟩
      clear hreaders
      induction tokens with
      | nil => rfl
      | cons token tokens ih => exact ih
  | cons reader rest ih =>
      obtain ⟨values, next, hconsume, hreset⟩ := hreaders reader List.mem_cons_self
      obtain ⟨others, hfollow, hothers⟩ :=
        ih fun other hmem => hreaders other (List.mem_cons_of_mem _ hmem)
      have hheed : reader.heed.follow reader.start tokens = .ok next := by
        rw [Reader.follow_heed, hconsume]
        rfl
      refine ⟨(next, others), ?_, ?_⟩
      · change Watcher.follow (cons reader (ofList rest)).feed _ tokens = _
        rw [feed_cons]
        exact Watcher.follow_inTurn_of_ok hheed hfollow
      · rcases hlast : reader.reset next with ⟨value | _ | failure, fresh⟩
        · simp only [ofList, cons, hlast, hothers]
        · simp only [ofList, cons, hlast, hothers]
        · rw [hlast] at hreset
          cases hreset

/-- Conditions that hold together hold each by itself. -/
theorem holdsOf_of_follow {readers : List (Reader τ Unit)} {tokens : List τ}
    {next : (ofList readers).State}
    (hfollow : Watcher.follow (ofList readers).feed (ofList readers).start tokens = .ok next)
    (hreset : ((ofList readers).reset next).1 = none) :
    ∀ reader ∈ readers, reader.HoldsOf tokens := by
  induction readers with
  | nil => exact List.forall_mem_nil _
  | cons reader rest ih =>
      obtain ⟨first, others⟩ := next
      change Watcher.follow (cons reader (ofList rest)).feed (reader.start, (ofList rest).start)
        tokens = _ at hfollow
      rw [feed_cons] at hfollow
      obtain ⟨hfirst, hothers⟩ := Watcher.follow_both_of_inTurn hfollow
      rw [Reader.follow_heed] at hfirst
      obtain ⟨⟨values, reached⟩, hconsume, rfl⟩ := Except.exists_of_map hfirst
      rcases hlast : reader.reset reached with ⟨value | _ | failure, fresh⟩ <;>
        simp only [ofList, cons, hlast] at hreset
      · exact List.forall_mem_cons.mpr
          ⟨⟨values, reached, hconsume, by rw [hlast]; rfl⟩, ih hothers hreset⟩
      · exact List.forall_mem_cons.mpr
          ⟨⟨values, reached, hconsume, by rw [hlast]; rfl⟩, ih hothers hreset⟩
      · cases hreset

end Conditions

/-! ## Assemblies -/

namespace Assembly

/-- An assembly as the reader of what stands between the opening and the closing
token; its reset is the closing token. -/
def interior (assembly : Assembly τ β) : Reader τ β :=
  ⟨assembly.State, assembly.start, assembly.feed, assembly.complete⟩

theorem emitted_of_feed {assembly : Assembly τ β} {state next : assembly.State} {token : τ}
    {outcome : Outcome β} (hfeed : assembly.feed state token = (outcome, next))
    (hpasses : outcome.isFailed = false) :
    next.emitted = (state.emitted || outcome.isProduced) := by
  simp only [feed] at hfeed
  split at hfeed
  · cases hfeed
    cases hpasses
  split at hfeed
  · cases hfeed
    cases hpasses
  split at hfeed
  · simp only [emit] at hfeed
    split at hfeed <;> cases hfeed <;> simp [Outcome.isProduced]
  · cases hfeed
    simp [Outcome.isProduced]

/-- An assembly notes whether the unit gave a value before its end. -/
theorem emitted_of_consume {assembly : Assembly τ β} {state next : assembly.interior.State}
    {tokens : List τ} {values : List β}
    (hconsume : assembly.interior.consume state tokens = .ok (values, next)) :
    State.emitted next = (State.emitted state || !values.isEmpty) := by
  replace hconsume := Reader.passes_of_consume hconsume
  induction hconsume with
  | done state => simp
  | produced hfeed _ ih =>
      rw [ih, emitted_of_feed hfeed rfl]
      simp [Outcome.isProduced]
  | pending hfeed _ ih =>
      rw [ih, emitted_of_feed hfeed rfl]
      simp [Outcome.isProduced]

/-- A unit that passes gives a value, before its end or at its end. -/
theorem ne_nil_of_conclude {assembly : Assembly τ β} {state next : assembly.State}
    {tokens : List τ} {values : List β} (hfresh : state.emitted = false)
    (hconclude : assembly.interior.conclude state tokens = .ok (values, next)) :
    values ≠ [] := by
  obtain ⟨given, middle, released, hconsume, hrelease, rfl⟩ :=
    Reader.exists_of_conclude hconclude
  have hemitted := emitted_of_consume hconsume
  intro hnil
  obtain ⟨rfl, rfl⟩ := List.append_eq_nil_iff.mp hnil
  have hsilent : middle.emitted = false := by
    simpa [hfresh] using hemitted
  rcases hcomplete : assembly.interior.reset middle with ⟨value | _ | failure, fresh⟩
  · rw [Reader.release_of_produced _ hcomplete] at hrelease
    cases hrelease
  · have houtcome := congrArg Prod.fst hcomplete
    simp only [interior, complete, hsilent, Bool.false_eq_true, if_false] at houtcome
    split at houtcome <;> cases houtcome
  · rw [Reader.release_of_failed _ hcomplete] at hrelease
    cases hrelease

/-- An assembly that holds its values back passes the tokens that its parts and
its conditions pass. -/
theorem consume_interior_of_held {assembly : Assembly τ β} (hheld : assembly.streams = false)
    (state : assembly.State) (tokens : List τ) :
    assembly.interior.consume state tokens =
      ((Watcher.inTurn assembly.slots.feed assembly.conditions.feed).follow
        (state.slots, state.conditions) tokens).map fun next =>
          ([], ⟨next.1, next.2, state.emitted⟩) := by
  induction tokens generalizing state with
  | nil => rfl
  | cons token tokens ih =>
      rcases hslots : assembly.slots.feed state.slots token with ⟨_ | failure, slots⟩
      · rcases hconditions : assembly.conditions.feed state.conditions token with
          ⟨_ | failure, conditions⟩
        · have hfeed : assembly.interior.feed state token =
              (.pending, ⟨slots, conditions, state.emitted⟩) := by
            simp [interior, feed, hslots, hconditions, hheld]
          have hround : Watcher.inTurn assembly.slots.feed assembly.conditions.feed
              (state.slots, state.conditions) token = (none, (slots, conditions)) := by
            simp only [Watcher.inTurn, hslots, hconditions]
          rw [Reader.consume_cons_of_pending _ hfeed, Watcher.follow_cons_of_none hround, ih]
        · have hfeed : assembly.interior.feed state token =
              (.failed failure, assembly.discard ⟨slots, conditions, state.emitted⟩) := by
            simp [interior, feed, hslots, hconditions]
          have hround : Watcher.inTurn assembly.slots.feed assembly.conditions.feed
              (state.slots, state.conditions) token = (some failure, (slots, conditions)) := by
            simp only [Watcher.inTurn, hslots, hconditions]
          rw [Reader.consume_cons_of_failed _ hfeed, Watcher.follow_cons_of_some hround]
          rfl
      · have hfeed : assembly.interior.feed state token =
            (.failed failure, assembly.discard ⟨slots, state.conditions, state.emitted⟩) := by
          simp [interior, feed, hslots]
        have hround : Watcher.inTurn assembly.slots.feed assembly.conditions.feed
            (state.slots, state.conditions) token =
              (some failure, (slots, state.conditions)) := by
          simp only [Watcher.inTurn, hslots]
        rw [Reader.consume_cons_of_failed _ hfeed, Watcher.follow_cons_of_some hround]
        rfl

/-- The assembly of a lone part without conditions. -/
def lone (part : PartReader τ α) : Assembly τ (α × Unit) := .ofParts (.one part) []

/-- The state of a lone part, with an empty slot between any two tokens. -/
def loneState (part : PartReader τ α) (state : part.reader.State) (emitted : Bool) :
    (lone part).State :=
  ⟨((state, none), ()), (), emitted⟩

section Lone

variable (part : PartReader τ α) {state next : part.reader.State} {token : τ}

theorem feed_lone_of_produced {value : α}
    (hfeed : part.reader.feed state token = (.produced value, next)) (emitted : Bool) :
    (lone part).feed (loneState part state emitted) token =
      (.produced (value, ()), loneState part next true) := by
  simp [lone, loneState, ofParts, feed, Parts.one, Slots.ofParts, Slots.cons, Slots.nil,
    Conditions.ofList, Conditions.nil, hfeed, Parts.size, emit]

theorem feed_lone_of_pending (hfeed : part.reader.feed state token = (.pending, next))
    (emitted : Bool) :
    (lone part).feed (loneState part state emitted) token =
      (.pending, loneState part next emitted) := by
  simp [lone, loneState, ofParts, feed, Parts.one, Slots.ofParts, Slots.cons, Slots.nil,
    Conditions.ofList, Conditions.nil, hfeed, Parts.size, emit]

theorem feed_lone_of_failed {failure : Failure}
    (hfeed : part.reader.feed state token = (.failed failure, next)) (emitted : Bool) :
    (lone part).feed (loneState part state emitted) token =
      (.failed failure, (lone part).discard (loneState part next emitted)) := by
  simp [lone, loneState, ofParts, feed, Parts.one, Slots.ofParts, Slots.cons, Slots.nil, hfeed]

/-- At the end of a unit in which it gave no value, a lone part gives what its
reader releases. -/
theorem complete_lone (state : part.reader.State) :
    ((lone part).complete (loneState part state false)).1 =
      .ofExcept ((part.conclude none (part.reader.reset state).1).map (·, ())) := by
  cases hlast : part.conclude none (part.reader.reset state).1 <;>
    simp [complete, loneState, lone, ofParts, Parts.one, Slots.ofParts, Slots.cons, Slots.nil,
      Conditions.ofList, Conditions.nil, hlast, Except.map, Outcome.ofExcept]

/-- A lone part gives its values as they come. -/
theorem consume_interior_lone (state : part.reader.State) (emitted : Bool)
    (tokens : List τ) :
    (lone part).interior.consume (loneState part state emitted) tokens =
      (part.reader.consume state tokens).map fun read =>
        (read.1.map (·, ()), loneState part read.2 (emitted || !read.1.isEmpty)) := by
  induction tokens generalizing state emitted with
  | nil => cases emitted <;> rfl
  | cons token tokens ih =>
      rcases hfeed : part.reader.feed state token with ⟨value | _ | failure, next⟩
      · have hlone : (lone part).interior.feed (loneState part state emitted) token =
            (.produced (value, ()), loneState part next true) :=
          feed_lone_of_produced part hfeed emitted
        rw [Reader.consume_cons_of_produced _ hfeed, Reader.consume_cons_of_produced _ hlone, ih]
        cases part.reader.consume next tokens <;> cases emitted <;> rfl
      · have hlone : (lone part).interior.feed (loneState part state emitted) token =
            (.pending, loneState part next emitted) :=
          feed_lone_of_pending part hfeed emitted
        rw [Reader.consume_cons_of_pending _ hfeed, Reader.consume_cons_of_pending _ hlone, ih]
      · have hlone : (lone part).interior.feed (loneState part state emitted) token =
            (.failed failure, (lone part).discard (loneState part next emitted)) :=
          feed_lone_of_failed part hfeed emitted
        rw [Reader.consume_cons_of_failed _ hfeed, Reader.consume_cons_of_failed _ hlone]
        rfl

end Lone

theorem release_lone_of_emitted {part : PartReader τ α} (hpart : part.reader.Resets)
    (state : part.reader.State) :
    (lone part).interior.release (loneState part state true) =
      .ok ([], (lone part).interior.start) := by
  apply Reader.release_of_pending
  simp [interior, complete, loneState, lone, ofParts, Parts.one, Slots.ofParts, Slots.cons,
    Slots.nil, Conditions.ofList, Conditions.nil, hpart.discard_eq, start, discard]

theorem release_lone_of_value {part : PartReader τ α} (hpart : part.reader.Resets)
    {state : part.reader.State} {value : α}
    (hvalue : part.conclude none (part.reader.reset state).1 = .ok value) :
    (lone part).interior.release (loneState part state false) =
      .ok ([(value, ())], (lone part).interior.start) := by
  apply Reader.release_of_produced
  simp [interior, complete, loneState, lone, ofParts, Parts.one, Slots.ofParts, Slots.cons,
    Slots.nil, Conditions.ofList, Conditions.nil, hvalue, hpart state, start]

theorem release_lone_of_error {part : PartReader τ α} {state : part.reader.State}
    {failure : Failure} (herror : part.conclude none (part.reader.reset state).1 = .error failure) :
    (lone part).interior.release (loneState part state false) = .error failure := by
  have hcomplete := complete_lone part state
  rw [herror] at hcomplete
  exact Reader.release_of_failed _ (Prod.ext hcomplete rfl)

/-- The values of a unit from a lone part that gives any: the end adds none. -/
theorem conclude_lone_of_values {part : PartReader τ α} (hpart : part.reader.Resets)
    {tokens : List τ} {values : List α} {next : part.reader.State}
    (hconsume : part.reader.consume part.reader.start tokens = .ok (values, next))
    (hne : values ≠ []) :
    (lone part).interior.conclude (lone part).interior.start tokens =
      .ok (values.map (·, ()), (lone part).interior.start) := by
  have hinterior := consume_interior_lone part part.reader.start false tokens
  have hemitted : (false || !values.isEmpty) = true := by simpa using hne
  rw [hconsume] at hinterior
  change _ = Except.ok (values.map (·, ()), loneState part next (false || !values.isEmpty))
    at hinterior
  rw [hemitted] at hinterior
  have hconclude := Reader.conclude_ok hinterior (release_lone_of_emitted hpart next)
  rwa [List.append_nil] at hconclude

/-- The value of a unit from a lone part that gives no more than one. -/
theorem conclude_lone_of_ok {part : PartReader τ α} {tokens : List τ} {value : α}
    (hpart : part.reader.Resets) (honce : part.AtMostOnce tokens)
    (hvalue : part.evaluate tokens = .ok value) :
    (lone part).interior.conclude (lone part).interior.start tokens =
      .ok ([(value, ())], (lone part).interior.start) := by
  rcases hconsume : part.reader.consume part.reader.start tokens with failure | ⟨values, next⟩
  · rw [PartReader.evaluate_of_error hconsume] at hvalue
    cases hvalue
  rw [PartReader.evaluate_of_ok hconsume] at hvalue
  have hlength := honce values next hconsume
  match values, hlength with
  | [], _ =>
      have hinterior := consume_interior_lone part part.reader.start false tokens
      rw [hconsume] at hinterior
      exact Reader.conclude_ok hinterior (release_lone_of_value hpart hvalue)
  | [produced], _ =>
      cases hvalue
      exact conclude_lone_of_values hpart hconsume (List.cons_ne_nil _ _)

/-- A unit from which a lone part gives no value fails. -/
theorem conclude_lone_of_error {part : PartReader τ α} {tokens : List τ} {failure : Failure}
    (herror : part.evaluate tokens = .error failure) :
    ∃ failure, (lone part).interior.conclude (lone part).interior.start tokens =
      .error failure := by
  have hinterior := consume_interior_lone part part.reader.start false tokens
  rcases hconsume : part.reader.consume part.reader.start tokens with earlier | ⟨values, next⟩
  · rw [hconsume] at hinterior
    exact ⟨earlier, Reader.conclude_of_error hinterior⟩
  · rw [hconsume] at hinterior
    rw [PartReader.evaluate_of_ok hconsume] at herror
    rcases values.eq_nil_or_concat with rfl | ⟨front, last, rfl⟩
    · exact ⟨failure, Reader.conclude_of_release_error hinterior (release_lone_of_error herror)⟩
    · rw [List.concat_eq_append, List.getLast?_concat] at herror
      cases herror

theorem conclude_held_of_ok {assembly : Assembly τ β} {tokens : List τ} {value : β}
    (hheld : assembly.streams = false) (hresets : assembly.Resets)
    (hvalue : assembly.slots.evaluate tokens = .ok value)
    {others : assembly.conditions.State}
    (hfollow : Watcher.follow assembly.conditions.feed assembly.conditions.start tokens =
      .ok others)
    (hreset : (assembly.conditions.reset others).1 = none) :
    assembly.interior.conclude assembly.interior.start tokens =
      .ok ([value], assembly.interior.start) := by
  rcases hslots : Watcher.follow assembly.slots.feed assembly.slots.start tokens with
    failure | next
  · rw [Slots.evaluate, hslots] at hvalue
    cases hvalue
  rw [Slots.evaluate, hslots] at hvalue
  change (assembly.slots.finish next).1 = .ok value at hvalue
  have hconsume := consume_interior_of_held hheld assembly.start tokens
  have hround := Watcher.follow_inTurn_of_ok hslots hfollow
  rw [start, hround] at hconsume
  have hcomplete : assembly.complete ⟨next, others, false⟩ =
      (.produced value, assembly.start) := by
    have hfresh := hresets.complete_eq ⟨next, others, false⟩
    refine Prod.ext ?_ hfresh
    simp [complete, hvalue, hreset]
  exact Reader.conclude_ok hconsume (Reader.release_of_produced _ hcomplete)

theorem conclude_held_of_error {assembly : Assembly τ β} {tokens : List τ} {failure : Failure}
    (hheld : assembly.streams = false)
    (herror : assembly.slots.evaluate tokens = .error failure) :
    ∃ failure, assembly.interior.conclude assembly.interior.start tokens =
      .error failure := by
  have hconsume := consume_interior_of_held hheld assembly.start tokens
  rcases hround : (Watcher.inTurn assembly.slots.feed assembly.conditions.feed).follow
    (assembly.slots.start, assembly.conditions.start) tokens with earlier | ⟨next, others⟩
  · rw [start, hround] at hconsume
    exact ⟨earlier, Reader.conclude_of_error hconsume⟩
  · rw [start, hround] at hconsume
    rw [Slots.evaluate, (Watcher.follow_both_of_inTurn hround).1] at herror
    change (assembly.slots.finish next).1 = .error failure at herror
    have hcomplete : (assembly.complete ⟨next, others, false⟩).1 = .failed failure := by
      simp [complete, herror]
    have hrelease := Reader.release_of_failed assembly.interior (Prod.ext hcomplete rfl)
    exact ⟨failure, Reader.conclude_of_release_error hconsume hrelease⟩

/-- A unit that meets the conditions of an assembly gives what its slots give. -/
theorem conclude_held_of_follow {assembly : Assembly τ β} {tokens : List τ}
    (hheld : assembly.streams = false) {others : assembly.conditions.State}
    (hfollow : Watcher.follow assembly.conditions.feed assembly.conditions.start tokens =
      .ok others)
    (hreset : (assembly.conditions.reset others).1 = none) :
    (assembly.interior.conclude assembly.interior.start tokens).map Prod.fst =
      (assembly.slots.evaluate tokens).map ([·]) := by
  have hconsume := consume_interior_of_held hheld assembly.start tokens
  rcases hslots : Watcher.follow assembly.slots.feed assembly.slots.start tokens with
    failure | next
  · obtain ⟨earlier, hround⟩ := Watcher.follow_inTurn_of_error assembly.slots.feed
      assembly.conditions.feed assembly.slots.start assembly.conditions.start
      (.inl ⟨failure, hslots⟩)
    -- The conditions pass, so the round fails as the slots do.
    rcases Watcher.error_of_inTurn hround with hfirst | hsecond
    · cases hslots.symm.trans hfirst
      rw [start, hround] at hconsume
      rw [Slots.evaluate, hslots]
      exact congrArg (Except.map Prod.fst) (Reader.conclude_of_error hconsume)
    · cases hfollow.symm.trans hsecond
  · rw [start, Watcher.follow_inTurn_of_ok hslots hfollow] at hconsume
    rw [Slots.evaluate, hslots]
    change _ = Except.map _ (assembly.slots.finish next).1
    rcases hfinish : (assembly.slots.finish next).1 with failure | value
    · have hcomplete : (assembly.complete ⟨next, others, false⟩).1 = .failed failure := by
        simp [complete, hfinish]
      have hrelease := Reader.release_of_failed assembly.interior (Prod.ext hcomplete rfl)
      exact congrArg (Except.map Prod.fst) (Reader.conclude_of_release_error hconsume hrelease)
    · have hcomplete : (assembly.complete ⟨next, others, false⟩).1 = .produced value := by
        simp [complete, hfinish, hreset]
      have hrelease := Reader.release_of_produced assembly.interior (Prod.ext hcomplete rfl)
      exact congrArg (Except.map Prod.fst) (Reader.conclude_ok hconsume hrelease)

/-- A unit that is concluded meets the conditions. -/
theorem follow_of_conclude_held {assembly : Assembly τ β} {tokens : List τ}
    (hheld : assembly.streams = false) {read : List β × assembly.State}
    (hconclude : assembly.interior.conclude assembly.interior.start tokens = .ok read) :
    ∃ others,
      Watcher.follow assembly.conditions.feed assembly.conditions.start tokens = .ok others ∧
        (assembly.conditions.reset others).1 = none := by
  obtain ⟨given, middle, released, hmembers, hrelease, -⟩ :=
    Reader.exists_of_conclude hconclude
  have hround := (consume_interior_of_held hheld assembly.start tokens).symm.trans hmembers
  obtain ⟨⟨slots, others⟩, hboth, hread⟩ := Except.exists_of_map hround
  cases hread
  refine ⟨others, (Watcher.follow_both_of_inTurn hboth).2, ?_⟩
  have hpasses := Reader.passes_of_release hrelease
  change (assembly.complete ⟨slots, others, false⟩).1.isFailed = false at hpasses
  simp only [complete, Bool.false_eq_true, if_false] at hpasses
  split at hpasses
  · cases hpasses
  · cases hpasses
  · assumption

/-! ## Compositions of parts and conditions -/

variable {parts : Parts (PartReader τ) β} {conditions : List (Reader τ Unit)}
  {tokens : List τ}

/-- A unit that gives every part a value and meets the conditions gives the
combined value once, and leaves the assembly at its start.  A lone part has to
give no more than one value, since it does not wait for the end. -/
theorem conclude_ofParts_of_ok {value : β} (hresets : (ofParts parts conditions).Resets)
    (honce : parts.size = 1 → ∀ {γ : Type} {part : PartReader τ γ}, parts.Mem part →
      part.AtMostOnce tokens)
    (hvalue : (Slots.ofParts parts).evaluate tokens = .ok value)
    (hconditions : ∀ condition ∈ conditions, condition.HoldsOf tokens) :
    (ofParts parts conditions).interior.conclude (ofParts parts conditions).interior.start
      tokens = .ok ([value], (ofParts parts conditions).interior.start) := by
  by_cases hstreams : (ofParts parts conditions).streams = false
  · obtain ⟨others, hfollow, hreset⟩ := Conditions.follow_ofList hconditions
    exact conclude_held_of_ok hstreams hresets hvalue hfollow hreset
  · simp only [ofParts, Bool.not_eq_false, Bool.and_eq_true, beq_iff_eq,
      List.isEmpty_iff] at hstreams
    obtain ⟨hsize, rfl⟩ := hstreams
    -- What streams is a lone part: its value comes at a token, and the end adds none.
    cases parts with
    | nil => cases hsize
    | cons part rest =>
        cases rest with
        | cons second others => simp [Parts.size] at hsize
        | nil =>
            have hpart : part.reader.Resets := by
              intro state
              have hfresh := hresets.slots.discard_eq ((state, none), ())
              exact congrArg (fun slots => slots.1.1) hfresh
            change (Slots.cons part .nil).evaluate tokens = _ at hvalue
            rcases hlone : part.evaluate tokens with failure | given
            · obtain ⟨earlier, hfailed⟩ := Slots.evaluate_cons_of_error part .nil
                (.inl ⟨failure, hlone⟩)
              rw [hfailed] at hvalue
              cases hvalue
            · rw [Slots.evaluate_cons_of_ok hlone (Slots.evaluate_nil tokens)] at hvalue
              cases hvalue
              exact conclude_lone_of_ok hpart (honce rfl (Parts.mem_head part .nil)) hlone

/-- A unit that does not give every part a value fails. -/
theorem conclude_ofParts_of_error {failure : Failure}
    (herror : (Slots.ofParts parts).evaluate tokens = .error failure) :
    ∃ failure, (ofParts parts conditions).interior.conclude
      (ofParts parts conditions).interior.start tokens = .error failure := by
  by_cases hstreams : (ofParts parts conditions).streams = false
  · exact conclude_held_of_error hstreams herror
  · simp only [ofParts, Bool.not_eq_false, Bool.and_eq_true, beq_iff_eq,
      List.isEmpty_iff] at hstreams
    obtain ⟨hsize, rfl⟩ := hstreams
    cases parts with
    | nil => cases hsize
    | cons part rest =>
        cases rest with
        | cons second others => simp [Parts.size] at hsize
        | nil =>
            change (Slots.cons part .nil).evaluate tokens = _ at herror
            rcases hlone : part.evaluate tokens with earlier | given
            · exact conclude_lone_of_error hlone
            · rw [Slots.evaluate_cons_of_ok hlone (Slots.evaluate_nil tokens)] at herror
              cases herror

end Assembly

end TokenCodec
