import TokenCodec.Proofs.Nesting
import TokenCodec.Reader.Fixed
import TokenCodec.Reader.Gather

/-!
# Consuming a run of tokens

A reader is usually followed up to its first failure.  Consuming a run gives the
values in order together with the state reached, or that failure.  Consumption
of a run is that of its pieces, one after the other, and a combinator over one
inner reader consumes what the inner reader consumes, with its own account of
the values.
-/

namespace TokenCodec

/-- The failure, if there is one. -/
def Outcome.failure? {α : Type} : Outcome α → Option Failure
  | failed failure => some failure
  | _ => none

namespace Except

variable {α β : Type}

/-- What passes a conversion passed before it. -/
theorem exists_of_map {result : Except Failure α} {f : α → β} {value : β}
    (hmap : result.map f = .ok value) : ∃ given, result = .ok given ∧ f given = value := by
  cases result with
  | error failure => cases hmap
  | ok given => exact ⟨given, rfl, Except.ok.inj hmap⟩

/-- What fails behind a conversion failed before it. -/
theorem error_of_map {result : Except Failure α} {f : α → β} {failure : Failure}
    (hmap : result.map f = .error failure) : result = .error failure := by
  cases result with
  | error earlier => exact congrArg Except.error (Except.error.inj hmap)
  | ok given => cases hmap

end Except

namespace Reader

variable {τ α β σ : Type}

/-- Put values in front of those of a consumed run. -/
def prepend (values : List α) (read : List α × σ) : List α × σ :=
  (values ++ read.1, read.2)

@[simp]
theorem prepend_fst (values : List α) (read : List α × σ) :
    (prepend values read).1 = values ++ read.1 := rfl

@[simp]
theorem prepend_snd (values : List α) (read : List α × σ) :
    (prepend values read).2 = read.2 := rfl

/-- Feed a run of tokens up to the first failure: the values produced and the
state reached, or that failure. -/
def consume (reader : Reader τ α) :
    reader.State → List τ → Except Failure (List α × reader.State)
  | state, [] => .ok ([], state)
  | state, token :: tokens =>
      match reader.feed state token with
      | (.produced value, next) => (reader.consume next tokens).map (prepend [value])
      | (.pending, next) => reader.consume next tokens
      | (.failed failure, _) => .error failure

variable (reader : Reader τ α)

theorem consume_cons_of_produced {state next : reader.State} {token : τ} {value : α}
    (hfeed : reader.feed state token = (.produced value, next)) (tokens : List τ) :
    reader.consume state (token :: tokens) =
      (reader.consume next tokens).map (prepend [value]) := by
  rw [consume, hfeed]

theorem consume_cons_of_pending {state next : reader.State} {token : τ}
    (hfeed : reader.feed state token = (.pending, next)) (tokens : List τ) :
    reader.consume state (token :: tokens) = reader.consume next tokens := by
  rw [consume, hfeed]

theorem consume_cons_of_failed {state next : reader.State} {token : τ} {failure : Failure}
    (hfeed : reader.feed state token = (.failed failure, next)) (tokens : List τ) :
    reader.consume state (token :: tokens) = .error failure := by
  rw [consume, hfeed]

/-- The state behind a single token that is consumed. -/
theorem feed_snd_of_consume {reader : Reader τ α} {state : reader.State} {token : τ}
    {read : List α × reader.State} (hconsume : reader.consume state [token] = .ok read) :
    (reader.feed state token).2 = read.2 := by
  rcases hfeed : reader.feed state token with ⟨value | _ | failure, next⟩
  · cases (consume_cons_of_produced reader hfeed []).symm.trans hconsume
    rfl
  · cases (consume_cons_of_pending reader hfeed []).symm.trans hconsume
    rfl
  · cases (consume_cons_of_failed reader hfeed []).symm.trans hconsume

/-- A run is consumed piece by piece. -/
theorem consume_append (state : reader.State) (front back : List τ) :
    reader.consume state (front ++ back) =
      (reader.consume state front).bind fun read =>
        (reader.consume read.2 back).map (prepend read.1) := by
  induction front generalizing state with
  | nil =>
      rw [List.nil_append]
      change _ = (reader.consume state back).map (prepend [])
      cases reader.consume state back <;> rfl
  | cons token front ih =>
      rw [List.cons_append]
      rcases hfeed : reader.feed state token with ⟨value | _ | failure, next⟩
      · rw [consume_cons_of_produced reader hfeed, consume_cons_of_produced reader hfeed,
          ih]
        cases reader.consume next front with
        | error failure => rfl
        | ok read =>
            change Except.map _ (Except.map _ (reader.consume read.2 back)) =
              Except.map _ (reader.consume read.2 back)
            cases reader.consume read.2 back <;> rfl
      · rw [consume_cons_of_pending reader hfeed, consume_cons_of_pending reader hfeed, ih]
      · rw [consume_cons_of_failed reader hfeed, consume_cons_of_failed reader hfeed]
        rfl

variable {reader}

theorem consume_append_of_ok {state next : reader.State} {front : List τ} {values : List α}
    (hfront : reader.consume state front = .ok (values, next)) (back : List τ) :
    reader.consume state (front ++ back) =
      (reader.consume next back).map (prepend values) := by
  rw [consume_append, hfront]
  rfl

theorem consume_append_of_error {state : reader.State} {front : List τ} {failure : Failure}
    (hfront : reader.consume state front = .error failure) (back : List τ) :
    reader.consume state (front ++ back) = .error failure := by
  rw [consume_append, hfront]
  rfl

/-- Two pieces consumed in turn are consumed together. -/
theorem consume_append_ok {state middle next : reader.State} {front back : List τ}
    {values more : List α} (hfront : reader.consume state front = .ok (values, middle))
    (hback : reader.consume middle back = .ok (more, next)) :
    reader.consume state (front ++ back) = .ok (values ++ more, next) := by
  rw [consume_append_of_ok hfront, hback]
  rfl

/-- What is consumed together is consumed in turn. -/
theorem exists_of_consume_append {state next : reader.State} {front back : List τ}
    {values : List α} (hconsume : reader.consume state (front ++ back) = .ok (values, next)) :
    ∃ given middle more, reader.consume state front = .ok (given, middle) ∧
      reader.consume middle back = .ok (more, next) ∧ values = given ++ more := by
  rcases hfront : reader.consume state front with failure | ⟨given, middle⟩
  · rw [consume_append_of_error hfront] at hconsume
    cases hconsume
  · rw [consume_append_of_ok hfront] at hconsume
    obtain ⟨more, hback, hread⟩ := Except.exists_of_map hconsume
    cases hread
    exact ⟨given, middle, more.1, rfl, hback, rfl⟩

/-- A run that a reader passes: the values it gives on the way, and the state
that it reaches. -/
inductive Passes (reader : Reader τ α) :
    reader.State → List τ → List α → reader.State → Prop where
  | done (state : reader.State) : Passes reader state [] [] state
  | produced {state middle next : reader.State} {token : τ} {tokens : List τ} {value : α}
      {values : List α} (hfeed : reader.feed state token = (.produced value, middle))
      (hrest : Passes reader middle tokens values next) :
      Passes reader state (token :: tokens) (value :: values) next
  | pending {state middle next : reader.State} {token : τ} {tokens : List τ}
      {values : List α} (hfeed : reader.feed state token = (.pending, middle))
      (hrest : Passes reader middle tokens values next) :
      Passes reader state (token :: tokens) values next

/-- A run that a reader does not pass, and the failure that ends it. -/
inductive Breaks (reader : Reader τ α) : reader.State → List τ → Failure → Prop where
  | failed {state next : reader.State} {token : τ} {failure : Failure}
      (hfeed : reader.feed state token = (.failed failure, next)) (tokens : List τ) :
      Breaks reader state (token :: tokens) failure
  | produced {state middle : reader.State} {token : τ} {tokens : List τ} {value : α}
      {failure : Failure} (hfeed : reader.feed state token = (.produced value, middle))
      (hrest : Breaks reader middle tokens failure) :
      Breaks reader state (token :: tokens) failure
  | pending {state middle : reader.State} {token : τ} {tokens : List τ} {failure : Failure}
      (hfeed : reader.feed state token = (.pending, middle))
      (hrest : Breaks reader middle tokens failure) :
      Breaks reader state (token :: tokens) failure

theorem passes_of_consume {state next : reader.State} {tokens : List τ} {values : List α}
    (hconsume : reader.consume state tokens = .ok (values, next)) :
    reader.Passes state tokens values next := by
  induction tokens generalizing state values with
  | nil =>
      cases hconsume
      exact .done _
  | cons token tokens ih =>
      rcases hfeed : reader.feed state token with ⟨value | _ | failure, middle⟩
      · rw [consume_cons_of_produced _ hfeed] at hconsume
        obtain ⟨read, hmore, hread⟩ := Except.exists_of_map hconsume
        cases hread
        exact .produced hfeed (ih hmore)
      · rw [consume_cons_of_pending _ hfeed] at hconsume
        exact .pending hfeed (ih hconsume)
      · rw [consume_cons_of_failed _ hfeed] at hconsume
        cases hconsume

theorem breaks_of_consume {state : reader.State} {tokens : List τ} {failure : Failure}
    (hconsume : reader.consume state tokens = .error failure) :
    reader.Breaks state tokens failure := by
  induction tokens generalizing state with
  | nil => cases hconsume
  | cons token tokens ih =>
      rcases hfeed : reader.feed state token with ⟨value | _ | earliest, middle⟩
      · rw [consume_cons_of_produced _ hfeed] at hconsume
        exact .produced hfeed (ih (Except.error_of_map hconsume))
      · rw [consume_cons_of_pending _ hfeed] at hconsume
        exact .pending hfeed (ih hconsume)
      · rw [consume_cons_of_failed _ hfeed] at hconsume
        cases hconsume
        exact .failed hfeed tokens

/-- Each token gives no more than one value. -/
theorem length_le_of_consume {state next : reader.State} {tokens : List τ} {values : List α}
    (hconsume : reader.consume state tokens = .ok (values, next)) :
    values.length ≤ tokens.length := by
  replace hconsume := passes_of_consume hconsume
  induction hconsume with
  | done state => exact Nat.le_refl 0
  | produced _ _ ih => exact Nat.succ_le_succ ih
  | pending _ _ ih => exact Nat.le_succ_of_le ih

/-- Without a failure a run leads to the same state. -/
theorem run_of_consume {state next : reader.State} {tokens : List τ} {values : List α}
    (hconsume : reader.consume state tokens = .ok (values, next)) :
    (reader.run state tokens).2 = next := by
  replace hconsume := passes_of_consume hconsume
  induction hconsume with
  | done state => rfl
  | produced hfeed _ ih =>
      rw [run_cons, hfeed]
      exact ih
  | pending hfeed _ ih =>
      rw [run_cons, hfeed]
      exact ih

theorem run_cons_of_feed (reader : Reader τ α) {state next : reader.State} {token : τ}
    {outcome : Outcome α} (hfeed : reader.feed state token = (outcome, next))
    (tokens : List τ) :
    reader.run state (token :: tokens) =
      (outcome :: (reader.run next tokens).1, (reader.run next tokens).2) := by
  rw [run_cons, hfeed]

/-- To consume a run is to look at its outcomes for a failure first. -/
theorem consume_eq_run (reader : Reader τ α) (state : reader.State) (tokens : List τ) :
    reader.consume state tokens =
      match (reader.run state tokens).1.findSome? Outcome.failure? with
      | some failure => .error failure
      | none =>
          .ok ((reader.run state tokens).1.filterMap Outcome.value?,
            (reader.run state tokens).2) := by
  induction tokens generalizing state with
  | nil => rfl
  | cons token tokens ih =>
      rcases hfeed : reader.feed state token with ⟨value | _ | failure, next⟩
      · rw [consume_cons_of_produced _ hfeed, ih, run_cons, hfeed, List.findSome?_cons]
        cases (reader.run next tokens).1.findSome? Outcome.failure? <;> rfl
      · rw [consume_cons_of_pending _ hfeed, ih, run_cons, hfeed, List.findSome?_cons]
        rfl
      · rw [consume_cons_of_failed _ hfeed, run_cons, hfeed, List.findSome?_cons]
        rfl

/-- A unit that a reader gets through leaves it at its start. -/
def ReturnsAfter (reader : Reader τ α) (unit : List τ) : Prop :=
  ∀ values next, reader.consume reader.start unit = .ok (values, next) → next = reader.start

/-- The last word of a reader at a reset, as a run of its own. -/
def release (reader : Reader τ α) (state : reader.State) :
    Except Failure (List α × reader.State) :=
  match reader.reset state with
  | (.produced value, next) => .ok ([value], next)
  | (.pending, next) => .ok ([], next)
  | (.failed failure, _) => .error failure

theorem release_of_produced (reader : Reader τ α) {state next : reader.State} {value : α}
    (hreset : reader.reset state = (.produced value, next)) :
    reader.release state = .ok ([value], next) := by
  rw [release, hreset]

theorem release_of_pending (reader : Reader τ α) {state next : reader.State}
    (hreset : reader.reset state = (.pending, next)) :
    reader.release state = .ok ([], next) := by
  rw [release, hreset]

theorem release_of_failed (reader : Reader τ α) {state next : reader.State} {failure : Failure}
    (hreset : reader.reset state = (.failed failure, next)) :
    reader.release state = .error failure := by
  rw [release, hreset]

theorem reset_of_release {state next : reader.State} {values : List α}
    (hrelease : reader.release state = .ok (values, next)) : (reader.reset state).2 = next := by
  rcases hreset : reader.reset state with ⟨value | _ | failure, reached⟩
  · rw [release_of_produced _ hreset] at hrelease
    cases hrelease
    rfl
  · rw [release_of_pending _ hreset] at hrelease
    cases hrelease
    rfl
  · rw [release_of_failed _ hreset] at hrelease
    cases hrelease

theorem passes_of_release {state next : reader.State} {values : List α}
    (hrelease : reader.release state = .ok (values, next)) :
    (reader.reset state).1.isFailed = false := by
  rcases hreset : reader.reset state with ⟨value | _ | failure, reached⟩
  · rfl
  · rfl
  · rw [release_of_failed _ hreset] at hrelease
    cases hrelease

/-- Consume a run of tokens and reset the reader behind it. -/
def conclude (reader : Reader τ α) (state : reader.State) (tokens : List τ) :
    Except Failure (List α × reader.State) :=
  (reader.consume state tokens).bind fun read =>
    (reader.release read.2).map (prepend read.1)

theorem conclude_of_ok {state next : reader.State} {tokens : List τ} {values : List α}
    (htokens : reader.consume state tokens = .ok (values, next)) :
    reader.conclude state tokens = (reader.release next).map (prepend values) := by
  rw [conclude, htokens]
  rfl

/-- A unit that is consumed and released in turn is concluded. -/
theorem conclude_ok {state middle next : reader.State} {tokens : List τ}
    {values released : List α} (htokens : reader.consume state tokens = .ok (values, middle))
    (hrelease : reader.release middle = .ok (released, next)) :
    reader.conclude state tokens = .ok (values ++ released, next) := by
  rw [conclude_of_ok htokens, hrelease]
  rfl

theorem conclude_of_release_error {state next : reader.State} {tokens : List τ}
    {values : List α} {failure : Failure}
    (htokens : reader.consume state tokens = .ok (values, next))
    (hrelease : reader.release next = .error failure) :
    reader.conclude state tokens = .error failure := by
  rw [conclude_of_ok htokens, hrelease]
  rfl

theorem conclude_of_error {state : reader.State} {tokens : List τ} {failure : Failure}
    (htokens : reader.consume state tokens = .error failure) :
    reader.conclude state tokens = .error failure := by
  rw [conclude, htokens]
  rfl

/-- A unit is concluded behind what was consumed of it. -/
theorem conclude_append_of_ok {state middle : reader.State} {front : List τ}
    {values : List α} (hfront : reader.consume state front = .ok (values, middle))
    (back : List τ) :
    reader.conclude state (front ++ back) = (reader.conclude middle back).map (prepend values) := by
  rcases hback : reader.consume middle back with failure | ⟨more, next⟩
  · have hboth : reader.consume state (front ++ back) = .error failure := by
      rw [consume_append_of_ok hfront, hback]
      rfl
    rw [conclude_of_error hboth, conclude_of_error hback]
    rfl
  · rw [conclude_of_ok (consume_append_ok hfront hback), conclude_of_ok hback]
    cases reader.release next with
    | error failure => rfl
    | ok released =>
        exact congrArg (fun values => Except.ok (values, released.2))
          (List.append_assoc values more released.1)

/-- What a unit gives stands in front of what the reset releases. -/
theorem exists_of_conclude {state next : reader.State} {tokens : List τ} {values : List α}
    (hconclude : reader.conclude state tokens = .ok (values, next)) :
    ∃ given middle released, reader.consume state tokens = .ok (given, middle) ∧
      reader.release middle = .ok (released, next) ∧ values = given ++ released := by
  rcases hconsume : reader.consume state tokens with failure | ⟨given, middle⟩
  · rw [conclude_of_error hconsume] at hconclude
    cases hconclude
  · rw [conclude_of_ok hconsume] at hconclude
    obtain ⟨released, hrelease, hread⟩ := Except.exists_of_map hconclude
    cases hread
    exact ⟨given, middle, released.1, rfl, hrelease, rfl⟩

/-- A reader that keeps account of nothing but the depth in a structure passes
over the rest of it. -/
theorem consume_passing [Alphabet τ] (reader : Reader τ α) (passing : Nat → reader.State)
    (hfeed : ∀ depth ≠ 0, ∀ token : τ,
      reader.feed (passing depth) token = (.pending, passing (Alphabet.track depth token)))
    {depth : Nat} {tokens : List τ} (hends : EndsUnit depth tokens) (hdepth : depth ≠ 0) :
    reader.consume (passing depth) tokens = .ok ([], passing 0) := by
  induction hends with
  | last hzero =>
      rw [consume_cons_of_pending _ (hfeed _ hdepth _), hzero]
      rfl
  | step hopen _ ih =>
      rw [consume_cons_of_pending _ (hfeed _ hdepth _)]
      exact ih hopen

/-! ## Combinators over one inner reader -/

theorem consume_map (reader : Reader τ α) (f : α → β) (state : reader.State)
    (tokens : List τ) :
    (reader.map f).consume state tokens =
      (reader.consume state tokens).map fun read => (read.1.map f, read.2) := by
  induction tokens generalizing state with
  | nil => rfl
  | cons token tokens ih =>
      rcases hfeed : reader.feed state token with ⟨value | _ | failure, next⟩
      · have hmapped : (reader.map f).feed state token = (.produced (f value), next) := by
          simp [map, refine, hfeed]
        rw [consume_cons_of_produced reader hfeed, consume_cons_of_produced _ hmapped, ih]
        cases reader.consume next tokens <;> rfl
      · have hmapped : (reader.map f).feed state token = (.pending, next) := by
          simp [map, refine, hfeed]
        rw [consume_cons_of_pending reader hfeed, consume_cons_of_pending _ hmapped, ih]
      · have hmapped : (reader.map f).feed state token = (.failed failure, next) := by
          simp [map, refine, hfeed]
        rw [consume_cons_of_failed reader hfeed, consume_cons_of_failed _ hmapped]
        rfl

/-- What is consumed behind a conversion is consumed before it. -/
theorem exists_of_consume_map {reader : Reader τ α} {f : α → β} {state next : reader.State}
    {tokens : List τ} {values : List β}
    (hconsume : (reader.map f).consume state tokens = .ok (values, next)) :
    ∃ given, reader.consume state tokens = .ok (given, next) ∧ values = given.map f := by
  rw [consume_map] at hconsume
  obtain ⟨read, hread, hvalues⟩ := Except.exists_of_map hconsume
  cases hvalues
  exact ⟨read.1, hread, rfl⟩

theorem run_map (reader : Reader τ α) (f : α → β) (state : reader.State) (tokens : List τ) :
    (reader.map f).run state tokens =
      ((reader.run state tokens).1.map (Outcome.map f), (reader.run state tokens).2) := by
  induction tokens generalizing state with
  | nil => rfl
  | cons token tokens ih =>
      change ((reader.feed state token).1.map f ::
          ((reader.map f).run (reader.feed state token).2 tokens).1,
        ((reader.map f).run (reader.feed state token).2 tokens).2) = _
      rw [ih]
      rfl

theorem consume_gather (reader : Reader τ α) (empty : β) (add : β → α → β)
    (state : reader.State) (store : β) (tokens : List τ) :
    (reader.gather empty add).consume (state, store) tokens =
      (reader.consume state tokens).map fun read =>
        ([], (read.2, read.1.foldl add store)) := by
  induction tokens generalizing state store with
  | nil => rfl
  | cons token tokens ih =>
      rcases hfeed : reader.feed state token with ⟨value | _ | failure, next⟩
      · have hgathered : (reader.gather empty add).feed (state, store) token =
            (.pending, (next, add store value)) := by
          simp [gather, hfeed]
        rw [consume_cons_of_produced reader hfeed, consume_cons_of_pending _ hgathered, ih]
        cases reader.consume next tokens <;> rfl
      · have hgathered : (reader.gather empty add).feed (state, store) token =
            (.pending, (next, store)) := by
          simp [gather, hfeed]
        rw [consume_cons_of_pending reader hfeed, consume_cons_of_pending _ hgathered, ih]
      · have hgathered : (reader.gather empty add).feed (state, store) token =
            (.failed failure, (next, store)) := by
          simp [gather, hfeed]
        rw [consume_cons_of_failed reader hfeed, consume_cons_of_failed _ hgathered]
        rfl

/-- A folding reader that has not failed combines the values of a run. -/
theorem consume_fold (reader : Reader τ α) (initial : β) (combine : β → α → β)
    (state : reader.State) (result : β) (tokens : List τ) :
    (reader.fold initial combine).consume ⟨state, result, none⟩ tokens =
      (reader.consume state tokens).map fun read =>
        ([], ⟨read.2, read.1.foldl combine result, none⟩) := by
  induction tokens generalizing state result with
  | nil => rfl
  | cons token tokens ih =>
      rcases hfeed : reader.feed state token with ⟨value | _ | failure, next⟩
      · have hfolded : (reader.fold initial combine).feed ⟨state, result, none⟩ token =
            (.pending, ⟨next, combine result value, none⟩) := by
          simp [fold, hfeed]
        rw [consume_cons_of_produced reader hfeed, consume_cons_of_pending _ hfolded, ih]
        cases reader.consume next tokens <;> rfl
      · have hfolded : (reader.fold initial combine).feed ⟨state, result, none⟩ token =
            (.pending, ⟨next, result, none⟩) := by
          simp [fold, hfeed]
        rw [consume_cons_of_pending reader hfeed, consume_cons_of_pending _ hfolded, ih]
      · have hfolded : (reader.fold initial combine).feed ⟨state, result, none⟩ token =
            (.failed failure, ⟨next, result, some failure⟩) := by
          simp [fold, hfeed]
        rw [consume_cons_of_failed reader hfeed, consume_cons_of_failed _ hfolded]
        rfl

/-- A collecting reader holds the values of a run, the latest first. -/
theorem consume_collect (reader : Reader τ α) (state : reader.State) (store : List α)
    (tokens : List τ) :
    reader.collect.consume (state, store) tokens =
      (reader.consume state tokens).map fun read =>
        ([], (read.2, read.1.reverse ++ store)) := by
  have hfold (values : List α) :
      values.foldl (fun store value => value :: store) store = values.reverse ++ store := by
    induction values generalizing store with
    | nil => rfl
    | cons value values ih => simp [ih]
  have hmap := consume_map (reader.gather [] fun store value => value :: store) List.reverse
    (state, store) tokens
  rw [consume_gather] at hmap
  refine hmap.trans ?_
  cases reader.consume state tokens with
  | error failure => rfl
  | ok read => exact congrArg (fun held => Except.ok ([], (read.2, held))) (hfold read.1)

/-- A collecting reader concludes a unit with all its values in one. -/
theorem conclude_collect_of_ok {reader : Reader τ α} {tokens : List τ} {values : List α}
    {next : reader.State} (hconsume : reader.consume reader.start tokens = .ok (values, next)) :
    reader.collect.conclude reader.collect.start tokens =
      .ok ([values], (reader.discard next, [])) := by
  have hcollect := consume_collect reader reader.start [] tokens
  rw [hconsume] at hcollect
  refine conclude_ok hcollect (release_of_produced reader.collect ?_)
  simp [collect, map, refine, gather]

theorem conclude_collect_of_error {reader : Reader τ α} {tokens : List τ} {failure : Failure}
    (hconsume : reader.consume reader.start tokens = .error failure) :
    reader.collect.conclude reader.collect.start tokens = .error failure := by
  have hcollect := consume_collect reader reader.start [] tokens
  rw [hconsume] at hcollect
  exact conclude_of_error hcollect

theorem consume_optional (reader : Reader τ α) (state : reader.State) (present : Bool)
    (tokens : List τ) :
    reader.optional.consume (state, present) tokens =
      (reader.consume state tokens).map fun read =>
        (read.1.map some, (read.2, present || !read.1.isEmpty)) := by
  induction tokens generalizing state present with
  | nil => cases present <;> rfl
  | cons token tokens ih =>
      rcases hfeed : reader.feed state token with ⟨value | _ | failure, next⟩
      · have hoptional : reader.optional.feed (state, present) token =
            (.produced (some value), (next, true)) := by
          simp [optional, hfeed, Outcome.isProduced]
        rw [consume_cons_of_produced reader hfeed, consume_cons_of_produced _ hoptional, ih]
        cases reader.consume next tokens <;> cases present <;> rfl
      · have hoptional : reader.optional.feed (state, present) token =
            (.pending, (next, present)) := by
          simp [optional, hfeed, Outcome.isProduced]
        rw [consume_cons_of_pending reader hfeed, consume_cons_of_pending _ hoptional, ih]
      · have hoptional : reader.optional.feed (state, present) token =
            (.failed failure, (next, present)) := by
          simp [optional, hfeed, Outcome.isProduced]
        rw [consume_cons_of_failed reader hfeed, consume_cons_of_failed _ hoptional]
        rfl

/-- A fixed value is met as long as no other value is produced. -/
theorem consume_fixed_of_ok [BEq α] [Shown α] {reader : Reader τ α} (value : α)
    (description : String) {state next : reader.State} {tokens : List τ} {values : List α}
    (hconsume : reader.consume state tokens = .ok (values, next))
    (hsame : ∀ found ∈ values, (found == value) = true) (matched : Bool) :
    (reader.fixed value description).consume (state, matched) tokens =
      .ok (values.map fun _ => (), (next, matched || !values.isEmpty)) := by
  replace hconsume := passes_of_consume hconsume
  induction hconsume generalizing matched with
  | done state => cases matched <;> rfl
  | @produced state middle next token tokens found others hfeed _ ih =>
      have hfound : (found == value) = true := hsame found List.mem_cons_self
      have hfixed : (reader.fixed value description).feed (state, matched) token =
          (.produced (), (middle, true)) := by
        simp [fixed, compareFixed, hfeed, hfound]
      have hothers := ih (fun other hmem => hsame other (List.mem_cons_of_mem _ hmem)) true
      rw [consume_cons_of_produced _ hfixed, hothers]
      simp [Except.map, prepend]
  | @pending state middle next token tokens values hfeed _ ih =>
      have hfixed : (reader.fixed value description).feed (state, matched) token =
          (.pending, (middle, matched)) := by
        simp [fixed, hfeed]
      rw [consume_cons_of_pending _ hfixed]
      exact ih hsame matched

/-- A run that a fixed value passes gives no other value. -/
theorem exists_of_consume_fixed [BEq α] [Shown α] {reader : Reader τ α} {value : α}
    {description : String} {state : reader.State} {matched : Bool} {tokens : List τ}
    {read : List Unit × (reader.fixed value description).State}
    (hconsume : (reader.fixed value description).consume (state, matched) tokens = .ok read) :
    ∃ given next, reader.consume state tokens = .ok (given, next) ∧
      (∀ found ∈ given, (found == value) = true) ∧ read.2 = (next, matched || !given.isEmpty) := by
  induction tokens generalizing state matched read with
  | nil =>
      cases hconsume
      exact ⟨[], state, rfl, List.forall_mem_nil _, by cases matched <;> rfl⟩
  | cons token tokens ih =>
      rcases hfeed : reader.feed state token with ⟨found | _ | failure, middle⟩
      · rw [consume_cons_of_produced _ hfeed]
        cases hfound : found == value with
        | false =>
            have hfixed : ((reader.fixed value description).feed (state, matched) token).1 =
                .failed (.here (.unexpected description (Shown.text found))) := by
              simp [fixed, compareFixed, hfeed, hfound]
            cases (consume_cons_of_failed _ (Prod.ext hfixed rfl) tokens).symm.trans hconsume
        | true =>
            have hfixed : (reader.fixed value description).feed (state, matched) token =
                (.produced (), (middle, true)) := by
              simp [fixed, compareFixed, hfeed, hfound]
            rw [consume_cons_of_produced _ hfixed] at hconsume
            obtain ⟨others, hothers, rfl⟩ := Except.exists_of_map hconsume
            obtain ⟨given, next, hgiven, hsame, hnext⟩ := ih hothers
            refine ⟨found :: given, next, by rw [hgiven]; rfl, ?_, ?_⟩
            · exact List.forall_mem_cons.mpr ⟨hfound, hsame⟩
            · simpa using hnext
      · have hfixed : (reader.fixed value description).feed (state, matched) token =
            (.pending, (middle, matched)) := by
          simp [fixed, hfeed]
        rw [consume_cons_of_pending _ hfixed] at hconsume
        rw [consume_cons_of_pending _ hfeed]
        exact ih hconsume
      · have hfixed : (reader.fixed value description).feed (state, matched) token =
            (.failed failure, (middle, matched)) := by
          simp [fixed, hfeed]
        cases (consume_cons_of_failed _ hfixed tokens).symm.trans hconsume

end Reader

end TokenCodec
