import TokenCodec.Proofs.Documents

/-!
# What the readers of members hand on

Between the braces of an object the reader of one member hands on the tokens of
the values at its name, and the reader of every member those of all values.
The places of these tokens are fixed by the members alone.  At each of them the
outcome of the inner reader comes out, and at every other token nothing is
decided.  Behind every member both readers stand between members again, at
depth zero, whatever was nested in its value.
-/

namespace TokenCodec

variable {τ α β : Type}

/-- A run that gives no value and does not fail is pending at every token. -/
theorem Reader.run_of_consume_nothing {reader : Reader τ α} {state next : reader.State}
    {tokens : List τ} (hconsume : reader.consume state tokens = .ok ([], next)) :
    reader.run state tokens = (List.replicate tokens.length .pending, next) := by
  generalize hvalues : ([] : List α) = values at hconsume
  replace hconsume := passes_of_consume hconsume
  induction hconsume with
  | done state => rfl
  | produced _ _ _ => cases hvalues
  | pending hfeed _ ih =>
      rw [run_cons_of_feed _ hfeed, ih hvalues]
      rfl

/-- No outcome of the run is a failure. -/
def Reader.Untroubled (reader : Reader τ α) (state : reader.State) (tokens : List τ) : Prop :=
  ∀ outcome ∈ (reader.run state tokens).1, outcome.isFailed = false

instance (reader : Reader τ α) (state : reader.State) (tokens : List τ) :
    Decidable (reader.Untroubled state tokens) :=
  inferInstanceAs (Decidable (∀ outcome ∈ (reader.run state tokens).1, outcome.isFailed = false))

/-- A run in two pieces. -/
theorem Reader.run_append_of_run {reader : Reader τ α} {state next : reader.State}
    {front : List τ} {outcomes : List (Outcome α)}
    (hfront : reader.run state front = (outcomes, next)) (back : List τ) :
    reader.run state (front ++ back) =
      (outcomes ++ (reader.run next back).1, (reader.run next back).2) := by
  rw [run_append, hfront]

/-- The outcomes of an inner reader, one after the other, at the tokens that are
handed on to it, each with the name under which it was; the reader around it is
pending at the other tokens. -/
def Outcome.spread (convert : String → Outcome α → Outcome β) :
    List (Option String) → List (Outcome α) → List (Outcome β)
  | [], _ => []
  | some name :: places, outcome :: outcomes =>
      convert name outcome :: spread convert places outcomes
  | _ :: places, outcomes => .pending :: spread convert places outcomes

namespace Outcome

variable {convert : String → Outcome α → Outcome β}

theorem spread_none_cons (places : List (Option String)) (outcomes : List (Outcome α)) :
    spread convert (none :: places) outcomes = .pending :: spread convert places outcomes := by
  cases outcomes <;> rfl

theorem spread_replicate_none (count : Nat) (places : List (Option String))
    (outcomes : List (Outcome α)) :
    spread convert (List.replicate count none ++ places) outcomes =
      List.replicate count .pending ++ spread convert places outcomes := by
  induction count with
  | zero => rfl
  | succ count ih =>
      rw [List.replicate_succ, List.replicate_succ, List.cons_append, List.cons_append,
        spread_none_cons, ih]

theorem spread_replicate_some (name : String) (front back : List (Outcome α))
    (places : List (Option String)) :
    spread convert (List.replicate front.length (some name) ++ places) (front ++ back) =
      front.map (convert name) ++ spread convert places back := by
  induction front with
  | nil => rfl
  | cons outcome front ih => exact congrArg (convert name outcome :: ·) ih

/-- Only what is done to the outcomes that are there matters. -/
theorem spread_congr {other : String → Outcome α → Outcome β} {outcomes : List (Outcome α)}
    (hsame : ∀ outcome ∈ outcomes, ∀ name, convert name outcome = other name outcome)
    (places : List (Option String)) :
    spread convert places outcomes = spread other places outcomes := by
  fun_induction spread convert places outcomes with
  | case1 => rfl
  | case2 name places outcome outcomes ih =>
      rw [spread, hsame outcome List.mem_cons_self,
        ih fun later hmem => hsame later (List.mem_cons_of_mem outcome hmem)]
  | case3 place places outcomes hother ih =>
      rw [spread, ih hsame]
      exact hother

theorem within_of_not_isFailed {outcome : Outcome α} (hpasses : outcome.isFailed = false)
    (segment : String) : outcome.within segment = outcome := by
  cases outcome with
  | failed failure => cases hpasses
  | _ => rfl

end Outcome

namespace Json

open Document Alphabet Outcome

/-- The tokens of the values at the wanted names, one value behind the other. -/
def slice (wanted : String → Bool) (members : List (String × Document)) : List Token :=
  (members.filter fun member => wanted member.1).flatMap fun member => member.2.tokens

/-- The tokens of the members of an object.  Those of a value at a wanted name are
marked with that name. -/
def handedOn (wanted : String → Bool) : List (String × Document) → List (Option String)
  | [] => []
  | (name, value) :: members =>
      none :: (List.replicate value.tokens.length (if wanted name then some name else none) ++
        handedOn wanted members)

section Slices

variable (wanted : String → Bool) {name : String}

theorem slice_cons_of_wanted (hwanted : wanted name = true) (value : Document)
    (members : List (String × Document)) :
    slice wanted ((name, value) :: members) = value.tokens ++ slice wanted members := by
  simp [slice, hwanted]

theorem slice_cons_of_not_wanted (hwanted : wanted name = false) (value : Document)
    (members : List (String × Document)) :
    slice wanted ((name, value) :: members) = slice wanted members := by
  simp [slice, hwanted]

theorem filterMap_zip_replicate (mark : Option String) (tokens : List Token) :
    ((List.replicate tokens.length mark).zip tokens).filterMap
        (fun marked => marked.1.map fun _ => marked.2) =
      if mark.isSome then tokens else [] := by
  induction tokens with
  | nil => cases mark <;> rfl
  | cons token tokens ih =>
      rw [List.length_cons, List.replicate_succ, List.zip_cons_cons]
      cases mark with
      | none => exact ih
      | some name => exact congrArg (token :: ·) ih

/-- What stands at the marks is the slice. -/
theorem filterMap_handedOn (members : List (String × Document)) :
    ((handedOn wanted members).zip (memberTokens members)).filterMap
      (fun marked => marked.1.map fun _ => marked.2) = slice wanted members := by
  induction members with
  | nil => rfl
  | cons member members ih =>
      obtain ⟨name, value⟩ := member
      rw [handedOn, memberTokens, List.cons_append, List.zip_cons_cons,
        List.zip_append List.length_replicate, List.filterMap_cons_none rfl,
        List.filterMap_append, filterMap_zip_replicate, ih]
      by_cases hwanted : wanted name = true
      · rw [if_pos hwanted, slice_cons_of_wanted wanted hwanted]
        rfl
      · rw [if_neg hwanted, slice_cons_of_not_wanted wanted (Bool.eq_false_iff.mpr hwanted)]
        rfl

/-- Outcomes of a run over the slice are put at the marks, member by member. -/
theorem spread_handedOn_of_wanted {convert : String → Outcome α → Outcome β}
    (hwanted : wanted name = true) (value : Document) (members : List (String × Document))
    {front : List (Outcome α)} (hfront : front.length = value.tokens.length)
    (back : List (Outcome α)) :
    spread convert (handedOn wanted ((name, value) :: members)) (front ++ back) =
      .pending :: (front.map (convert name) ++ spread convert (handedOn wanted members) back) := by
  rw [handedOn, if_pos hwanted, ← hfront, spread_none_cons, spread_replicate_some]

theorem spread_handedOn_of_not_wanted {convert : String → Outcome α → Outcome β}
    (hwanted : wanted name = false) (value : Document) (members : List (String × Document))
    (outcomes : List (Outcome α)) :
    spread convert (handedOn wanted ((name, value) :: members)) outcomes =
      .pending :: (List.replicate value.tokens.length .pending ++
        spread convert (handedOn wanted members) outcomes) := by
  rw [handedOn, if_neg (by simp [hwanted]), spread_none_cons, spread_replicate_none]

end Slices

section Members

variable (name : String) (inner : Reader Token α)

/-- A value that is claimed goes to the inner reader token by token, up to its end. -/
theorem run_claimed (outer : Reader Token β) (inside : inner.State → Nat → outer.State)
    (behind : inner.State → outer.State) (convert : Outcome α → Outcome β)
    (hfeed : ∀ state depth token, outer.feed (inside state depth) token =
      (convert (inner.feed state token).1,
        if track depth token = 0 then behind (inner.feed state token).2
        else inside (inner.feed state token).2 (track depth token)))
    {depth : Nat} {tokens : List Token} (hends : EndsUnit depth tokens) (state : inner.State) :
    outer.run (inside state depth) tokens =
      ((inner.run state tokens).1.map convert, behind (inner.run state tokens).2) := by
  induction hends generalizing state with
  | @last depth token hzero =>
      have houter := hfeed state depth token
      rw [if_pos hzero] at houter
      rw [Reader.run_cons_of_feed _ houter]
      rfl
  | @step depth token tokens hopen _ ih =>
      have houter := hfeed state depth token
      rw [if_neg hopen] at houter
      rw [Reader.run_cons_of_feed _ houter, ih]
      rfl

/-- The value of a member of the wanted name. -/
theorem run_memberReader_own (value : Document) (state : inner.State) (found : Bool) :
    (memberReader name inner).run ⟨state, .between 0, found⟩ (.name name :: value.tokens) =
      (.pending :: (inner.run state value.tokens).1.map (Outcome.within name),
        ⟨(inner.run state value.tokens).2, .between 0, true⟩) := by
  have hname : (memberReader name inner).feed ⟨state, .between 0, found⟩ (.name name) =
      (.pending, ⟨state, .inside () 0, true⟩) := by
    simp [memberReader]
  have hvalue := run_claimed inner (memberReader name inner)
    (fun state depth => ⟨state, .inside () depth, true⟩) (fun state => ⟨state, .between 0, true⟩)
    (Outcome.within name)
    (fun state depth token => by
      by_cases hzero : track depth token = 0 <;> simp [memberReader, MemberPlace.advance, hzero])
    value.endsUnit_tokens state
  rw [Reader.run_cons_of_feed _ hname, hvalue]

/-- A member of another name, with everything nested in its value. -/
theorem run_memberReader_other {other : String} (hother : other ≠ name) (value : Document)
    (state : inner.State) (found : Bool) :
    (memberReader name inner).run ⟨state, .between 0, found⟩ (.name other :: value.tokens) =
      (.pending :: List.replicate value.tokens.length .pending,
        ⟨state, .between 0, found⟩) := by
  have hname : (memberReader name inner).feed ⟨state, .between 0, found⟩ (.name other) =
      (.pending, ⟨state, .between 0, found⟩) := by
    have hflat : track 0 (Token.name other) = 0 := rfl
    simp [memberReader, hother, hflat]
  rw [Reader.run_cons_of_feed _ hname,
    Reader.run_of_consume_nothing (consume_memberReader_between name inner value state found)]

/-- The inner reader of a member sees the values at its name, one behind the other. -/
theorem run_memberReader (members : List (String × Document)) (state : inner.State)
    (found : Bool) :
    (memberReader name inner).run ⟨state, .between 0, found⟩ (memberTokens members) =
      (spread (fun own => within own) (handedOn (· == name) members)
          (inner.run state (slice (· == name) members)).1,
        ⟨(inner.run state (slice (· == name) members)).2, .between 0,
          found || members.any (·.1 == name)⟩) := by
  induction members generalizing state found with
  | nil => cases found <;> rfl
  | cons member members ih =>
      obtain ⟨other, value⟩ := member
      rw [memberTokens]
      by_cases heq : other = name
      · subst heq
        have hwanted := beq_self_eq_true other
        have hrest := ih (inner.run state value.tokens).2 true
        rw [Reader.run_append_of_run (run_memberReader_own other inner value state found), hrest,
          slice_cons_of_wanted (· == other) hwanted, Reader.run_append,
          spread_handedOn_of_wanted (· == other) hwanted value members
            (inner.length_run state value.tokens),
          List.any_cons, hwanted, Bool.true_or, Bool.or_true]
        rfl
      · have hwanted : (other == name) = false := beq_eq_false_iff_ne.mpr heq
        rw [Reader.run_append_of_run (run_memberReader_other name inner heq value state found), ih,
          slice_cons_of_not_wanted (· == name) hwanted,
          spread_handedOn_of_not_wanted (· == name) hwanted, List.any_cons, hwanted, Bool.false_or]
        rfl

/-- A member of any name, its values paired with the name. -/
theorem run_anyMemberReader_own (value : Document) (state : inner.State) :
    (anyMemberReader inner).run (state, .between 0) (.name name :: value.tokens) =
      (.pending :: (inner.run state value.tokens).1.map fun outcome =>
          (outcome.map fun value => (name, value)).within name,
        ((inner.run state value.tokens).2, .between 0)) := by
  have hname : (anyMemberReader inner).feed (state, .between 0) (.name name) =
      (.pending, (state, .inside name 0)) := rfl
  have hvalue := run_claimed inner (anyMemberReader inner)
    (fun state depth => (state, .inside name depth)) (fun state => (state, .between 0))
    (fun outcome => (outcome.map fun value => (name, value)).within name)
    (fun state depth token => by
      by_cases hzero : track depth token = 0 <;>
        simp [anyMemberReader, MemberPlace.advance, hzero])
    value.endsUnit_tokens state
  rw [Reader.run_cons_of_feed _ hname, hvalue]
  rfl

/-- The inner reader of every member sees all values, one behind the other. -/
theorem run_anyMemberReader (members : List (String × Document)) (state : inner.State) :
    (anyMemberReader inner).run (state, .between 0) (memberTokens members) =
      (spread (fun own outcome => (outcome.map fun value => (own, value)).within own)
          (handedOn (fun _ => true) members) (inner.run state (slice (fun _ => true) members)).1,
        ((inner.run state (slice (fun _ => true) members)).2, .between 0)) := by
  induction members generalizing state with
  | nil => rfl
  | cons member members ih =>
      obtain ⟨name, value⟩ := member
      rw [memberTokens,
        Reader.run_append_of_run (run_anyMemberReader_own name inner value state), ih,
        slice_cons_of_wanted (fun _ => true) rfl, Reader.run_append,
        spread_handedOn_of_wanted (fun _ => true) rfl value members
          (inner.length_run state value.tokens)]
      rfl

end Members

/-- An inner reader that does not fail sees exactly the tokens of the values at one
name, or of all values, in their order.  Its outcomes come out at these tokens, paired
with the name if it is any, and every other token is pending; the marks stand at the
tokens of the slice.  Behind every member both readers stand between members at depth
zero. -/
theorem run_members_slices (name : String) (inner : Reader Token α) (state : inner.State)
    (found : Bool) (members : List (String × Document)) :
    (inner.Untroubled state (slice (· == name) members) →
      (memberReader name inner).run ⟨state, .between 0, found⟩ (memberTokens members) =
        (spread (fun _ outcome => outcome) (handedOn (· == name) members)
            (inner.run state (slice (· == name) members)).1,
          ⟨(inner.run state (slice (· == name) members)).2, .between 0,
            found || members.any (·.1 == name)⟩)) ∧
    (inner.Untroubled state (slice (fun _ => true) members) →
      (anyMemberReader inner).run (state, .between 0) (memberTokens members) =
        (spread (fun own outcome => outcome.map fun value => (own, value))
            (handedOn (fun _ => true) members)
            (inner.run state (slice (fun _ => true) members)).1,
          ((inner.run state (slice (fun _ => true) members)).2, .between 0))) ∧
    (∀ wanted, ((handedOn wanted members).zip (memberTokens members)).filterMap
      (fun marked => marked.1.map fun _ => marked.2) = slice wanted members) ∧
    ∀ front, front <+: members →
      ((memberReader name inner).run ⟨state, .between 0, found⟩ (memberTokens front)).2.place =
          .between 0 ∧
        ((anyMemberReader inner).run (state, .between 0) (memberTokens front)).2.2 =
          .between 0 := by
  refine ⟨?own, ?every, fun wanted => filterMap_handedOn wanted members, ?behind⟩
  case own =>
    intro hpasses
    rw [run_memberReader]
    congr 1
    apply spread_congr
    intro outcome hmem own
    exact within_of_not_isFailed (hpasses outcome hmem) own
  case every =>
    intro hpasses
    rw [run_anyMemberReader]
    congr 1
    apply spread_congr
    intro outcome hmem own
    apply within_of_not_isFailed
    rw [isFailed_map]
    exact hpasses outcome hmem
  case behind =>
    intro front _
    rw [run_memberReader, run_anyMemberReader]
    exact ⟨rfl, rfl⟩

/-- A name that occurs again within another value, an empty array at the name, and the
name twice. -/
theorem run_members_slices_nested :
    let inner := Scalar.boolean.codec.reader
    let members : List (String × Document) :=
      [("x", .object [("l", .bool true)]), ("l", .bool false), ("l", .array []), ("y", .bool true),
        ("l", .bool true)]
    (memberReader "l" inner).run (memberReader "l" inner).start (memberTokens members) =
        ([.pending, .pending, .pending, .pending, .pending, .pending, .produced false, .pending,
            .pending, .pending, .pending, .pending, .pending, .produced true],
          ⟨inner.start, .between 0, true⟩) ∧
      (anyMemberReader inner).run (anyMemberReader inner).start (memberTokens members) =
        ([.pending, .pending, .pending, .pending, .pending, .pending, .produced ("l", false),
            .pending, .pending, .pending, .pending, .produced ("y", true), .pending,
            .produced ("l", true)],
          (inner.start, .between 0)) := by
  intro inner members
  have hslices := run_members_slices "l" inner inner.start false members
  exact ⟨hslices.1 (by decide), hslices.2.1 (by decide)⟩

end Json

end TokenCodec
