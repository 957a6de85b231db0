import Mathlib.Data.List.Induction
import Mathlib.Data.List.Infix
import TokenCodec.Proofs.Brackets
import TokenCodec.Proofs.Nesting
import TokenCodec.Proofs.Readable

/-!
# Units do not mix

The reader of an object or an array follows the depth in its own unit, and it
does so for tokens of every order, also where they close what they did not open.
Outside of a unit it refuses everything but the opening bracket.  It leaves a unit
at its start again, state for state, at the closing bracket and at a failure.
There is one more way out: a closing token of the other kind takes the depth down
as well, and leaves behind what was read.  A value that a reader gives is made of
the tokens since the last opening bracket, unless the unit before was left that
way.  Where the brackets match, no unit is.
-/

namespace TokenCodec

open Alphabet Bracketed

variable {τ α β : Type}

namespace Reader

/-- The state behind a run of tokens. -/
def reached (reader : Reader τ α) (tokens : List τ) : reader.State :=
  (reader.run reader.start tokens).2

theorem reached_append (reader : Reader τ α) (front back : List τ) :
    reader.reached (front ++ back) = (reader.run (reader.reached front) back).2 := by
  rw [reached, run_append]
  rfl

theorem reached_concat (reader : Reader τ α) (tokens : List τ) (token : τ) :
    reader.reached (tokens ++ [token]) = (reader.feed (reader.reached tokens) token).2 :=
  reader.reached_append tokens [token]

end Reader

/-- Only a closing token takes the depth down to zero. -/
theorem Alphabet.closes_of_track_eq_zero [Alphabet τ] {depth : Nat} {token : τ}
    (hinside : depth ≠ 0) (houtside : track depth token = 0) :
    depth = 1 ∧ nesting token = .closes := by
  cases hnesting : nesting token with
  | opens =>
      rw [track_of_opens hnesting] at houtside
      cases houtside
  | closes =>
      rw [track_of_closes hnesting] at houtside
      exact ⟨by omega, rfl⟩
  | flat =>
      rw [track_of_flat hnesting] at houtside
      exact absurd houtside hinside

/-! ## Readers of bracketed units -/

/-- A reader of units between two brackets, which follows the depth in its unit. -/
structure Bracketing [Bracketed τ] (reader : Reader τ β) where
  opening : τ
  nesting_opening : nesting opening = .opens
  /-- The depth within the unit, zero outside of any. -/
  depth : reader.State → Nat
  depth_start : depth reader.start = 0
  opens : ∀ {state}, depth state = 0 →
    (reader.feed state opening).1 = .pending ∧ depth (reader.feed state opening).2 = 1
  refuses : ∀ {state token}, depth state = 0 → token ≠ opening →
    (reader.feed state token).1.isFailed = true ∧ (reader.feed state token).2 = state
  /-- Inside of a unit the reader goes back to its start, as it does at the closing
  bracket of the unit, or the depth follows the token. -/
  proceeds : ∀ {state token}, depth state ≠ 0 →
    (reader.feed state token).2 = reader.start ∨
      depth (reader.feed state token).2 = track (depth state) token ∧
        ¬ (depth state = 1 ∧ token = closing opening)

namespace Bracketing

variable [Bracketed τ] {reader : Reader τ β} (bracketing : Bracketing reader)

/-- The depth behind a run of tokens. -/
def depthBehind (tokens : List τ) : Nat := bracketing.depth (reader.reached tokens)

/-- The last unit was left with a closing token of the wrong kind, in another state
than the start, and everything behind that token was refused. -/
def LeftAstray (tokens : List τ) : Prop :=
  ∃ front stray refused, tokens = front ++ stray :: refused ∧ bracketing.depthBehind front = 1 ∧
    nesting stray = .closes ∧ stray ≠ closing bracketing.opening ∧
      reader.reached (front ++ [stray]) ≠ reader.start ∧ bracketing.opening ∉ refused

/-- Behind `history` stands the opening bracket of the unit that the reader is in,
and `within` is what it has seen of it. -/
structure IsLastUnit (history within : List τ) : Prop where
  outside : bracketing.depthBehind history = 0
  inside : ∀ {front}, front <+: within →
    bracketing.depthBehind (history ++ bracketing.opening :: front) ≠ 0

variable {bracketing}

theorem depthBehind_concat (tokens : List τ) (token : τ) :
    bracketing.depthBehind (tokens ++ [token]) =
      bracketing.depth (reader.feed (reader.reached tokens) token).2 :=
  congrArg bracketing.depth (reader.reached_concat tokens token)

/-- Only the opening bracket leads into a unit. -/
theorem eq_opening_of_inside {tokens : List τ} {token : τ}
    (houtside : bracketing.depthBehind tokens = 0)
    (hinside : bracketing.depthBehind (tokens ++ [token]) ≠ 0) : token = bracketing.opening := by
  by_contra hrefused
  have hsame := (bracketing.refuses houtside hrefused).2
  rw [depthBehind_concat, hsame] at hinside
  exact hinside houtside

/-- The depth follows the tokens of a unit as long as the unit lasts. -/
theorem depthBehind_concat_of_inside {tokens : List τ} {token : τ}
    (hbefore : bracketing.depthBehind tokens ≠ 0)
    (hinside : bracketing.depthBehind (tokens ++ [token]) ≠ 0) :
    bracketing.depthBehind (tokens ++ [token]) = track (bracketing.depthBehind tokens) token := by
  rw [depthBehind_concat] at hinside ⊢
  rcases bracketing.proceeds hbefore with hstart | ⟨hdepth, -⟩
  · rw [hstart] at hinside
    exact absurd bracketing.depth_start hinside
  · exact hdepth

/-- A unit is left at the start, or with a closing token of the wrong kind. -/
theorem leaves {state : reader.State} {token : τ} (hinside : bracketing.depth state ≠ 0)
    (houtside : bracketing.depth (reader.feed state token).2 = 0) :
    (reader.feed state token).2 = reader.start ∨
      bracketing.depth state = 1 ∧ nesting token = .closes ∧
        token ≠ closing bracketing.opening := by
  apply (bracketing.proceeds hinside).imp_right
  rintro ⟨hdepth, hends⟩
  rw [houtside] at hdepth
  obtain ⟨hone, hcloses⟩ := closes_of_track_eq_zero hinside hdepth.symm
  exact ⟨hone, hcloses, fun hkind => hends ⟨hone, hkind⟩⟩

theorem LeftAstray.concat {tokens : List τ} (hastray : bracketing.LeftAstray tokens) {token : τ}
    (hrefused : token ≠ bracketing.opening) : bracketing.LeftAstray (tokens ++ [token]) := by
  obtain ⟨front, stray, refused, rfl, hdepth, hcloses, hkind, hleft, hopening⟩ := hastray
  refine ⟨front, stray, refused ++ [token], by simp, hdepth, hcloses, hkind, hleft, ?_⟩
  intro hmem
  rcases List.mem_append.mp hmem with hbefore | hlast
  · exact hopening hbefore
  · exact hrefused (List.mem_singleton.mp hlast).symm

/-- Outside of a unit the reader is at its start, unless it was led astray. -/
theorem reached_eq_start {tokens : List τ} (houtside : bracketing.depthBehind tokens = 0) :
    reader.reached tokens = reader.start ∨ bracketing.LeftAstray tokens := by
  -- From the end of the run: only its last token may have taken the reader outside.
  induction tokens using List.reverseRecOn with
  | nil => exact .inl rfl
  | append_singleton tokens token ih =>
      rw [depthBehind_concat] at houtside
      rw [reader.reached_concat]
      by_cases hbefore : bracketing.depthBehind tokens = 0
      · have hrefused : token ≠ bracketing.opening := by
          rintro rfl
          have hopened := (bracketing.opens hbefore).2
          rw [houtside] at hopened
          cases hopened
        rw [(bracketing.refuses hbefore hrefused).2]
        exact (ih hbefore).imp_right (·.concat hrefused)
      · by_cases hstart : (reader.feed (reader.reached tokens) token).2 = reader.start
        · exact .inl hstart
        · obtain ⟨hdepth, hcloses, hkind⟩ := (leaves hbefore houtside).resolve_left hstart
          rw [← reader.reached_concat] at hstart
          exact .inr ⟨tokens, token, [], rfl, hdepth, hcloses, hkind, hstart, List.not_mem_nil⟩

/-- Inside of a unit there is a last opening bracket that was met outside. -/
theorem exists_lastUnit {tokens : List τ} (hinside : bracketing.depthBehind tokens ≠ 0) :
    ∃ history within, tokens = history ++ bracketing.opening :: within ∧
      bracketing.IsLastUnit history within := by
  induction tokens using List.reverseRecOn with
  | nil => exact absurd bracketing.depth_start hinside
  | append_singleton tokens token ih =>
      by_cases hbefore : bracketing.depthBehind tokens = 0
      · obtain rfl := eq_opening_of_inside hbefore hinside
        refine ⟨tokens, [], rfl, hbefore, fun hfront => ?_⟩
        rwa [List.prefix_nil.mp hfront]
      · obtain ⟨history, within, rfl, hunit⟩ := ih hbefore
        refine ⟨history, within ++ [token], by simp, hunit.outside, fun hfront => ?_⟩
        rcases List.prefix_concat_iff.mp hfront with rfl | hshorter
        · simpa using hinside
        · exact hunit.inside hshorter

/-- Only inside of a unit does the reader give a value. -/
theorem inside_of_produced {tokens : List τ} {last : τ} {value : β}
    (hproduced : (reader.feed (reader.reached tokens) last).1 = .produced value) :
    bracketing.depthBehind tokens ≠ 0 := by
  intro houtside
  by_cases hopening : last = bracketing.opening
  · have hpending := (bracketing.opens houtside).1
    rw [← hopening, hproduced] at hpending
    cases hpending
  · have hfailed := (bracketing.refuses houtside hopening).1
    rw [hproduced] at hfailed
    cases hfailed

/-- A value is made of the unit that it ends in, unless the reader was led astray
in front of it. -/
theorem feed_lastUnit (bracketing : Bracketing reader) {tokens : List τ} {last : τ} {value : β}
    (hproduced : (reader.feed (reader.reached tokens) last).1 = .produced value) :
    ∃ history within, tokens = history ++ bracketing.opening :: within ∧
      bracketing.IsLastUnit history within ∧
        (bracketing.LeftAstray history ∨
          (reader.feed (reader.reached (bracketing.opening :: within)) last).1 =
            .produced value) := by
  obtain ⟨history, within, rfl, hunit⟩ :=
    bracketing.exists_lastUnit (inside_of_produced hproduced)
  refine ⟨history, within, rfl, hunit, ?_⟩
  apply (reached_eq_start hunit.outside).symm.imp_right
  intro hstart
  rwa [reader.reached_append, hstart] at hproduced

/-! ### Brackets that match -/

/-- Where the brackets match, the reader is as deep in its unit as the closing
bracket of the unit is among those that are owed. -/
theorem exists_owed {before tokens owed : List τ} (howes : Owes before tokens owed)
    (hinside : bracketing.depthBehind tokens ≠ 0) :
    ∃ inner outer, owed = inner ++ closing bracketing.opening :: outer ∧
      bracketing.depthBehind tokens = inner.length + 1 := by
  -- What the unit has opened since its own bracket is owed in front of its closing one.
  induction tokens using List.reverseRecOn generalizing owed with
  | nil => exact absurd bracketing.depth_start hinside
  | append_singleton tokens token ih =>
      obtain ⟨middle, hfront, hlast⟩ := howes.of_append
      by_cases hbefore : bracketing.depthBehind tokens = 0
      · obtain rfl := eq_opening_of_inside hbefore hinside
        refine ⟨[], middle, (hlast.of_opens bracketing.nesting_opening).eq_of_nil, ?_⟩
        rw [depthBehind_concat, (bracketing.opens hbefore).2]
        rfl
      · obtain ⟨inner, outer, rfl, hdepth⟩ := ih hfront hbefore
        have hfollows := depthBehind_concat_of_inside hbefore hinside
        rw [hfollows, hdepth] at hinside ⊢
        cases hnesting : nesting token with
        | flat =>
            exact ⟨inner, outer, (hlast.of_flat hnesting).eq_of_nil, track_of_flat hnesting _⟩
        | opens =>
            exact ⟨closing token :: inner, outer, (hlast.of_opens hnesting).eq_of_nil,
              track_of_opens hnesting _⟩
        | closes =>
            rw [track_of_closes hnesting] at hinside ⊢
            obtain ⟨rest, hrest, hnothing⟩ := hlast.of_closes hnesting
            obtain rfl := hnothing.eq_of_nil
            -- The depth stays above zero, so what is closed is within the unit.
            cases inner with
            | nil => exact absurd rfl hinside
            | cons first inner =>
                obtain ⟨rfl, rfl⟩ := List.cons.inj hrest
                exact ⟨inner, outer, rfl, rfl⟩

/-- Where the brackets match, the reader is not led astray. -/
theorem not_leftAstray {before tokens owed : List τ} (howes : Owes before tokens owed) :
    ¬ bracketing.LeftAstray tokens := by
  rintro ⟨front, stray, refused, rfl, hdepth, hcloses, hkind, -, -⟩
  obtain ⟨middle, hfront, hback⟩ := howes.of_append
  have hinside : bracketing.depthBehind front ≠ 0 := by
    rw [hdepth]
    exact Nat.one_ne_zero
  obtain ⟨inner, outer, rfl, hlength⟩ := exists_owed hfront hinside
  have hnothing : inner = [] := by
    rw [hdepth] at hlength
    exact List.eq_nil_of_length_eq_zero (Nat.succ.inj hlength).symm
  subst hnothing
  obtain ⟨rest, hfirst, -⟩ := hback.of_closes hcloses
  exact hkind (List.cons.inj hfirst).1.symm

/-! ### Converted values -/

/-- Converting values makes no difference to the units. -/
def map (bracketing : Bracketing reader) (f : β → α) : Bracketing (reader.map f) where
  opening := bracketing.opening
  nesting_opening := bracketing.nesting_opening
  depth := bracketing.depth
  depth_start := bracketing.depth_start
  opens houtside := by
    obtain ⟨hpending, hdepth⟩ := bracketing.opens houtside
    exact ⟨congrArg (Outcome.map f) hpending, hdepth⟩
  refuses houtside hrefused := by
    obtain ⟨hfailed, hstate⟩ := bracketing.refuses houtside hrefused
    exact ⟨(Outcome.isFailed_map f _).trans hfailed, hstate⟩
  proceeds := bracketing.proceeds

end Bracketing

/-! ## Objects and arrays -/

namespace Assembly

variable {assembly : Assembly τ β}

theorem isFailed_emit (state : assembly.State) : (assembly.emit state).1.isFailed = false := by
  unfold emit
  split <;> rfl

/-- An assembly that fails drops the unit. -/
theorem Resets.feed_of_isFailed (hresets : assembly.Resets) {state : assembly.State} {token : τ}
    (hfailed : (assembly.feed state token).1.isFailed = true) :
    (assembly.feed state token).2 = assembly.start := by
  rcases hslots : assembly.slots.feed state.slots token with ⟨_ | failure, slots⟩
  · rcases hconditions : assembly.conditions.feed state.conditions token with
      ⟨_ | failure, conditions⟩
    · simp only [feed, hslots, hconditions] at hfailed
      split at hfailed
      · rw [isFailed_emit] at hfailed
        cases hfailed
      · cases hfailed
    · simp only [feed, hslots, hconditions]
      exact hresets.discard_eq _
  · simp only [feed, hslots]
    exact hresets.discard_eq _

end Assembly

namespace Json

/-- The units of an object reader. -/
def bracketingObject {assembly : Assembly Token β} (hresets : assembly.Resets) :
    Bracketing (objectReader assembly) where
  opening := .startObject
  nesting_opening := rfl
  depth := Prod.snd
  depth_start := rfl
  opens {state} houtside := by
    have hfeed : (objectReader assembly).feed state .startObject = (.pending, (state.1, 1)) := by
      simp only [objectReader, if_pos houtside, if_true]
    rw [hfeed]
    exact ⟨rfl, rfl⟩
  refuses {state token} houtside hrefused := by
    have hfeed : (objectReader assembly).feed state token =
        (.failed (.here (.unexpected "start of object" (Shown.text token))), state) := by
      simp only [objectReader, if_pos houtside, if_neg hrefused]
    rw [hfeed]
    exact ⟨rfl, rfl⟩
  proceeds {state token} hinside := by
    simp only [objectReader, if_neg hinside]
    by_cases hends : state.2 = 1 ∧ token = .endObject
    · simp only [if_pos hends]
      exact .inl (congrArg (·, 0) (hresets.complete_eq state.1))
    · simp only [if_neg hends]
      by_cases hfailed : (assembly.feed state.1 token).1.isFailed = true
      · simp only [if_pos hfailed]
        exact .inl (congrArg (·, 0) (hresets.feed_of_isFailed hfailed))
      · refine .inr ⟨?_, hends⟩
        simp only [if_neg hfailed]

/-- The units of an array reader. -/
def bracketingArray {inner : Reader Token α} (hresets : inner.Resets) :
    Bracketing (arrayReader inner) where
  opening := .startArray
  nesting_opening := rfl
  depth := ArrayState.depth
  depth_start := rfl
  opens {state} houtside := by
    have hfeed : (arrayReader inner).feed state .startArray = (.pending, ⟨state.inner, 1, 0⟩) := by
      simp only [arrayReader, if_pos houtside, if_true]
    rw [hfeed]
    exact ⟨rfl, rfl⟩
  refuses {state token} houtside hrefused := by
    have hfeed : (arrayReader inner).feed state token =
        (.failed (.here (.unexpected "start of array" (Shown.text token))), state) := by
      simp only [arrayReader, if_pos houtside, if_neg hrefused]
    rw [hfeed]
    exact ⟨rfl, rfl⟩
  proceeds {state token} hinside := by
    simp only [arrayReader, if_neg hinside]
    by_cases hends : state.depth = 1 ∧ token = .endArray
    · simp only [if_pos hends]
      exact .inl (congrArg (ArrayState.mk · 0 0) (hresets state.inner))
    · refine .inr ⟨?_, hends⟩
      simp only [if_neg hends]

/-- The codecs of objects and arrays, whose values may be converted. -/
inductive Root : Type → Type 1 where
  | object {β : Type} (parts : Parts (ReadCodec Token) β) (conditions : List (Condition Token))
      (hparts : ∀ {γ : Type} {codec : ReadCodec Token γ}, parts.Mem codec → Readable codec)
      (hconditions : ∀ condition ∈ conditions, Readable condition.toReadCodec) : Root β
  | array {α : Type} (codec : ReadCodec Token α) (hcodec : Readable codec) : Root α
  | map {α β : Type} (root : Root α) (f : α → β) : Root β

namespace Root

/-- The codec of a root. -/
def codec : {β : Type} → Root β → ReadCodec Token β
  | _, object parts conditions _ _ => .object parts conditions
  | _, array inner _ => inner.array
  | _, map root f => root.codec.map f

/-- The units that the reader of a root reads. -/
def bracketing : {β : Type} → (root : Root β) → Bracketing root.codec.reader
  | _, object _ _ hparts hconditions =>
      bracketingObject (.ofParts (resets_partReaders fun hmem => (hparts hmem).resets)
        (resets_conditionReaders fun condition hmem => (hconditions condition hmem).resets))
  | _, array _ hcodec => bracketingArray hcodec.resets.reader
  | _, map root f => root.bracketing.map f

/-- A value of an object or an array is what a fresh reader gives at the same token
for the unit alone that the value stands in, unless the unit before was left with a
closing token of the wrong kind. -/
theorem produced_afresh (root : Root β) {tokens : List Token} {last : Token} {value : β}
    (hproduced : (root.codec.reader.feed (root.codec.reader.reached tokens) last).1 =
      .produced value) :
    ∃ history within, tokens = history ++ root.bracketing.opening :: within ∧
      root.bracketing.IsLastUnit history within ∧
        (root.bracketing.LeftAstray history ∨
          (root.codec.reader.feed
            (root.codec.reader.reached (root.bracketing.opening :: within)) last).1 =
              .produced value) :=
  root.bracketing.feed_lastUnit hproduced

/-- Objects with two numbers that may be absent. -/
def pair : Root (Option Int32 × Option Int32 × Unit) :=
  .object
    (.cons (Scalar.integer.codec.toReadCodec.member "a").optional
      (.one (Scalar.integer.codec.toReadCodec.member "b").optional))
    [] (by
      intro γ codec hmem
      rcases hmem with hfirst | hsecond | hnone
      · cases hfirst
        exact .optional (.member "a" (.scalar Scalar.integer))
      · cases hsecond
        exact .optional (.member "b" (.scalar Scalar.integer))
      · exact hnone.elim)
    (List.forall_mem_nil _)

/-- An object is left with the wrong bracket, and the next one with the right one.
The value behind them is the one of the third object. -/
theorem produced_afresh_third :
    let tokens : List Token := [.startObject, .name "a", .number "1", .endArray, .startObject,
      .name "b", .number "2", .endObject, .endArray, .startObject, .name "a", .number "3"]
    (pair.codec.reader.feed (pair.codec.reader.reached tokens) .endObject).1 =
        .produced (some 3, none, ()) ∧
      ∃ history within, tokens = history ++ pair.bracketing.opening :: within ∧
        pair.bracketing.IsLastUnit history within ∧
          (pair.bracketing.LeftAstray history ∨
            (pair.codec.reader.feed
              (pair.codec.reader.reached (pair.bracketing.opening :: within)) .endObject).1 =
                .produced (some 3, none, ())) :=
  ⟨rfl, pair.produced_afresh rfl⟩

/-- A number of an object that was left with the wrong bracket goes into the value of
the next object, where a fresh reader finds none. -/
theorem produced_mixed :
    let history : List Token := [.startObject, .name "a", .number "1", .endArray]
    let within : List Token := [.name "b", .number "2"]
    pair.bracketing.IsLastUnit history within ∧
      (pair.codec.reader.feed
        (pair.codec.reader.reached (history ++ .startObject :: within)) .endObject).1 =
          .produced (some 1, some 2, ()) ∧
      (pair.codec.reader.feed (pair.codec.reader.reached (.startObject :: within)) .endObject).1 =
        .produced (none, some 2, ()) := by
  intro history within
  refine ⟨⟨rfl, fun {front} hfront => ?_⟩, rfl, rfl⟩
  -- The object stays at depth one between its brackets.
  have hmem : front ∈ [[], [.name "b"], within] := (List.mem_inits _ _).mpr hfront
  simp only [List.mem_cons, List.not_mem_nil, or_false] at hmem
  rcases hmem with rfl | rfl | rfl <;> exact Nat.one_ne_zero

end Root

end Json

end TokenCodec
