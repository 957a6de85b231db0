import TokenCodec.Proofs.Consumption
import TokenCodec.Proofs.Nesting
import TokenCodec.Proofs.Reset

/-!
# Choosing by fresh machines

What a choosing reader answers to a unit is described by fresh machines alone:
the first alternative whose discriminator admits the unit reads it, and the
answer is the first failure of that reading or else its last value.  The
machines of a choosing reader are used again for every unit.  They agree with
fresh ones because each of them is at its start again behind a unit.
-/

namespace TokenCodec

open Alphabet

variable {τ α β : Type}

namespace Reader

/-- The decision of a fresh reader on a unit: its first failure, or else its
last value. -/
def verdict (reader : Reader τ α) (unit : List τ) : Outcome α :=
  let outcomes := (reader.run reader.start unit).1
  ((outcomes.find? Outcome.isFailed).or
    (outcomes.filter Outcome.isProduced).getLast?).getD .pending

/-- A fresh discriminator admits a unit if it never fails and succeeds at some
token or at the reset behind the unit. -/
def admits (discriminator : Reader τ Unit) (unit : List τ) : Bool :=
  let (outcomes, state) := discriminator.run discriminator.start unit
  !outcomes.any Outcome.isFailed &&
    (outcomes ++ [(discriminator.reset state).1]).any Outcome.isProduced

variable {reader : Reader τ α}

theorem replay_fst (state : reader.State) (last : Outcome α) (unit : List τ) :
    (reader.replay state last unit).1 =
      (((reader.run state unit).1.find? Outcome.isFailed).or
        ((reader.run state unit).1.filter Outcome.isProduced).getLast?).getD last := by
  induction unit generalizing state last with
  | nil => rfl
  | cons token unit ih =>
      rw [replay, run_cons]
      rcases hfeed : reader.feed state token with ⟨value | _ | failure, next⟩
      · simp only [ih, List.find?_cons, List.filter_cons, Outcome.isFailed, Outcome.isProduced,
          if_true, List.getLast?_cons]
        cases (reader.run next unit).1.find? Outcome.isFailed with
        | some failed => rfl
        | none =>
            cases ((reader.run next unit).1.filter Outcome.isProduced).getLast? <;> rfl
      · simp [ih, Outcome.isFailed, Outcome.isProduced]
      · simp only [List.find?_cons, Outcome.isFailed, Option.some_or, Option.getD_some]

theorem replay_snd_of_ok {state next : reader.State} {unit : List τ} {values : List α}
    (hconsume : reader.consume state unit = .ok (values, next)) (last : Outcome α) :
    (reader.replay state last unit).2 = next := by
  replace hconsume := passes_of_consume hconsume
  induction hconsume generalizing last with
  | done state => rfl
  | produced hfeed _ ih =>
      rw [replay, hfeed]
      exact ih _
  | pending hfeed _ ih =>
      rw [replay, hfeed]
      exact ih _

/-- Behind a failure the reader was reset. -/
theorem exists_replay_snd_of_error {state : reader.State} {unit : List τ} {failure : Failure}
    (hconsume : reader.consume state unit = .error failure) (last : Outcome α) :
    ∃ broken, (reader.replay state last unit).2 = reader.discard broken := by
  replace hconsume := breaks_of_consume hconsume
  induction hconsume generalizing last with
  | @failed state broken token failure hfeed tokens =>
      refine ⟨broken, ?_⟩
      rw [replay, hfeed]
  | produced hfeed _ ih =>
      rw [replay, hfeed]
      exact ih _
  | pending hfeed _ ih =>
      rw [replay, hfeed]
      exact ih _

/-- A reader that is at rest behind every unit that it gets through is at rest behind
every unit. -/
theorem rested_replay {state : reader.State} {unit : List τ}
    (hpasses : ∀ values next, reader.consume state unit = .ok (values, next) →
      reader.Rested next) (last : Outcome α) : reader.Rested (reader.replay state last unit).2 := by
  cases hconsume : reader.consume state unit with
  | error failure => exact .inr (exists_replay_snd_of_error hconsume last)
  | ok read =>
      rw [replay_snd_of_ok hconsume]
      exact hpasses _ _ hconsume

/-- Feeding a held unit gives the verdict of a fresh reader and makes the
reader fresh again. -/
theorem replay_eq (hresets : reader.Resets) {unit : List τ} (hreturns : reader.ReturnsAfter unit) :
    reader.replay reader.start .pending unit = (reader.verdict unit, reader.start) := by
  apply Prod.ext
  · exact replay_fst reader.start .pending unit
  · have hrested : reader.Rested (reader.replay reader.start .pending unit).2 :=
      rested_replay (fun values next hconsume => .inl (hreturns values next hconsume)) _
    exact hrested.eq_start hresets

theorem accepts_eq {discriminator : Reader τ Unit} (hresets : discriminator.Resets)
    (state : discriminator.State) (accepted : Bool) (unit : List τ) :
    discriminator.accepts state accepted unit =
      (!(discriminator.run state unit).1.any Outcome.isFailed &&
        (accepted || ((discriminator.run state unit).1 ++
          [(discriminator.reset (discriminator.run state unit).2).1]).any Outcome.isProduced),
        discriminator.start) := by
  induction unit generalizing state accepted with
  | nil =>
      have hstart := hresets state
      simp [accepts, hstart]
  | cons token unit ih =>
      rw [accepts, run_cons]
      rcases hfeed : discriminator.feed state token with ⟨value | _ | failure, next⟩
      · simp [ih, Outcome.isFailed, Outcome.isProduced]
      · simp [ih, Outcome.isFailed, Outcome.isProduced]
      · simp [Outcome.isFailed, hresets.discard_eq]

/-- Asking a discriminator gives what a fresh one says and makes it fresh
again. -/
theorem accepts_start {discriminator : Reader τ Unit} (hresets : discriminator.Resets)
    (unit : List τ) :
    discriminator.accepts discriminator.start false unit =
      (discriminator.admits unit, discriminator.start) :=
  accepts_eq hresets discriminator.start false unit

end Reader

namespace Alternative

/-- An alternative takes a unit if it has no conditions or its discriminator
admits the unit. -/
def takes (alternative : Alternative τ α) (unit : List τ) : Bool :=
  alternative.discriminator.all fun discriminator => discriminator.admits unit

end Alternative

/-- A unit is read by the first alternative that takes it, and every machine is
fresh again behind it. -/
theorem Alternatives.select_ofList {list : List (Alternative τ α)} {unit : List τ}
    (hresets : ∀ alternative ∈ list, alternative.Resets)
    (hreturns : ∀ alternative ∈ list, alternative.reader.ReturnsAfter unit) :
    (ofList list).select (ofList list).start unit =
      ((list.find? fun alternative => alternative.takes unit).map
        fun alternative => alternative.reader.verdict unit, (ofList list).start) := by
  induction list with
  | nil => rfl
  | cons alternative rest ih =>
      have hfirst := hresets alternative List.mem_cons_self
      have hfirstReturns := hreturns alternative List.mem_cons_self
      have hrest := ih (fun other hmem => hresets other (List.mem_cons_of_mem _ hmem))
        fun other hmem => hreturns other (List.mem_cons_of_mem _ hmem)
      obtain ⟨description, reader, discriminator⟩ := alternative
      have hreplay := Reader.replay_eq hfirst.reader hfirstReturns
      cases discriminator with
      | none =>
          simp only [ofList, always, hreplay, Alternative.takes, Option.all_none,
            List.find?_cons, Option.map_some]
      | some discriminator =>
          have haccepts := Reader.accepts_start (hfirst.discriminator discriminator rfl) unit
          cases hadmits : discriminator.admits unit with
          | true =>
              simp only [ofList, conditional, haccepts, hadmits, hreplay, if_true,
                Alternative.takes, Option.all_some, List.find?_cons, Option.map_some]
          | false =>
              simp only [ofList, conditional, haccepts, hadmits, hrest, Bool.false_eq_true,
                if_false, Alternative.takes, Option.all_some, List.find?_cons]

/-! ## The choosing reader -/

section Choosing

variable [Alphabet τ] {list : List (Alternative τ α)} {unit : List τ}

/-- The answer to a unit: the verdict of the first alternative that takes it, or
the failure that describes all of them. -/
def Alternative.answer (list : List (Alternative τ α)) (unit : List τ) : Outcome α :=
  match list.find? fun alternative => alternative.takes unit with
  | some alternative => alternative.reader.verdict unit
  | none => .failed (.here (.noAlternative (list.map (·.description))))

/-- The state of a choice inside a unit of which some tokens are held. -/
def Reader.choosing (list : List (Alternative τ α)) (limit : Option Nat) (held : Array τ)
    (depth : Nat) : (Reader.choose list limit).State :=
  ⟨(Alternatives.ofList list).start, held, depth⟩

/-- Every token of a unit but the last one is held back, and at the last the
alternatives make their choice. -/
theorem Reader.run_choose (alternatives : (Alternatives.ofList list).State)
    (hflat : isFlatUnit unit = false) {depth : Nat} {tokens : List τ}
    (hends : EndsUnit depth tokens) {held : Array τ} (hunit : held.toList ++ tokens = unit) :
    (choose list none).run ⟨alternatives, held, depth⟩ tokens =
      (List.replicate (tokens.length - 1) .pending ++
          [((Alternatives.ofList list).select alternatives unit).1.getD
            (.failed (.here (.noAlternative (list.map (·.description)))))],
        ⟨((Alternatives.ofList list).select alternatives unit).2, #[], 0⟩) := by
  induction hends generalizing held with
  | @last depth token hzero =>
      have hpush : (held.push token).toList = unit := by
        rw [Array.toList_push, hunit]
      have hfeed : (choose list none).feed ⟨alternatives, held, depth⟩ token =
          (((Alternatives.ofList list).select alternatives unit).1.getD
            (.failed (.here (.noAlternative (list.map (·.description))))),
            ⟨((Alternatives.ofList list).select alternatives unit).2, #[], 0⟩) := by
        simp only [choose, hzero, hpush, hflat, Option.any_none, Bool.false_eq_true, if_false,
          ne_eq, not_true_eq_false, Bool.false_and]
      rw [run_cons_of_feed _ hfeed]
      rfl
  | @step depth token tokens hopen hrest ih =>
      have hpush : (held.push token).toList ++ tokens = unit := by
        rw [Array.toList_push, List.append_assoc, List.singleton_append, hunit]
      have hfeed : (choose list none).feed ⟨alternatives, held, depth⟩ token =
          (.pending, ⟨alternatives, held.push token, track depth token⟩) := by
        simp [choose, hopen]
      have hlength : tokens.length - 1 + 1 = tokens.length :=
        Nat.sub_add_cancel (List.length_pos_iff.mpr hrest.ne_nil)
      rw [run_cons_of_feed _ hfeed, ih hpush, List.length_cons, Nat.add_sub_cancel, ← hlength,
        List.replicate_succ, List.cons_append]
      rfl

/-- Fresh machines answer to a unit and are fresh again behind it. -/
theorem Reader.run_choosing (hresets : ∀ alternative ∈ list, alternative.Resets)
    (hreturns : ∀ alternative ∈ list, alternative.reader.ReturnsAfter unit)
    (hflat : isFlatUnit unit = false) (hends : EndsUnit 0 unit) :
    (choose list none).run (choose list none).start unit =
      (List.replicate (unit.length - 1) .pending ++ [Alternative.answer list unit],
        (choose list none).start) := by
  have hrun := run_choose (Alternatives.ofList list).start hflat hends (List.nil_append unit)
  rw [Alternatives.select_ofList hresets hreturns] at hrun
  refine hrun.trans ?_
  cases hfind : list.find? fun alternative => alternative.takes unit <;>
    simp only [Alternative.answer, hfind] <;> rfl

/-- Whatever the last token of a unit brings, the choice is at its start behind
it. -/
theorem Reader.feed_choose_last_snd (hresets : ∀ alternative ∈ list, alternative.Resets)
    (hreturns : ∀ alternative ∈ list, alternative.reader.ReturnsAfter unit)
    (limit : Option Nat) {held : Array τ} {depth : Nat} {token : τ}
    (hunit : held.toList ++ [token] = unit) (hzero : track depth token = 0) :
    ((choose list limit).feed (choosing list limit held depth) token).2 =
      (choose list limit).start := by
  have hselect := Alternatives.select_ofList hresets hreturns
  have hpush : (held.push token).toList = unit := by
    rw [Array.toList_push, hunit]
  simp only [choose, choosing, hzero, hpush, hselect]
  split
  · rfl
  · rw [if_neg (fun hne => hne rfl)]
    split <;> rfl

/-- A choice that gets through a unit is at its start again, whatever its
limit. -/
theorem Reader.returnsAfter_choose (hresets : ∀ alternative ∈ list, alternative.Resets)
    (hreturns : ∀ alternative ∈ list, alternative.reader.ReturnsAfter unit)
    (limit : Option Nat) (hends : EndsUnit 0 unit) :
    (choose list limit).ReturnsAfter unit := by
  -- The tokens held and those to come make up the unit all along.
  have hinside {depth : Nat} {tokens : List τ} (hends : EndsUnit depth tokens)
      {held : Array τ} (hunit : held.toList ++ tokens = unit) {values : List α}
      {next : (choose list limit).State}
      (hconsume : (choose list limit).consume (choosing list limit held depth) tokens =
        .ok (values, next)) : next = (choose list limit).start := by
    induction hends generalizing held values with
    | last hzero =>
        rw [← run_of_consume hconsume, run_cons, run_nil]
        exact feed_choose_last_snd hresets hreturns limit hunit hzero
    | @step depth token tokens hopen _ ih =>
        have hpush : (held.push token).toList ++ tokens = unit := by
          rw [Array.toList_push, List.append_assoc, List.singleton_append, hunit]
        by_cases hlimit : limit.any ((held.push token).size > ·)
        · have hfeed : ((choose list limit).feed (choosing list limit held depth) token).1 =
              .failed (.here (.bufferLimit (limit.getD 0))) := by
            simp only [choose, choosing, hlimit, if_true]
          rw [consume_cons_of_failed _ (Prod.ext hfeed rfl)] at hconsume
          cases hconsume
        · have hfeed : (choose list limit).feed (choosing list limit held depth) token =
              (.pending, choosing list limit (held.push token) (track depth token)) := by
            simp only [choose, choosing, hlimit, hopen, if_false, Bool.false_eq_true, ne_eq,
              not_false_eq_true, if_true]
          rw [consume_cons_of_pending _ hfeed] at hconsume
          exact ih hpush hconsume
  intro values next hconsume
  exact hinside hends (List.nil_append unit) hconsume

end Choosing

end TokenCodec
