import TokenCodec.Proofs.Consumption
import TokenCodec.Proofs.Nesting
import TokenCodec.Proofs.Composition

/-!
# Readers on whole documents

What the machines of JSON consume of a document, in terms of what their inner
machines consume of its pieces.  A scalar passes over a structure, a member
hands on the values at its name and nothing else, and arrays and objects hand
on what stands between their brackets and fail on anything else.
-/

namespace TokenCodec.Json

open Document Alphabet

variable {α β : Type}

/-! ## Scalars -/

section Scalars

variable (expected : String) (parse : Token → Option α)

theorem feed_scalarReader_inside (depth : Nat) (hdepth : depth ≠ 0) (token : Token) :
    (scalarReader expected parse).feed depth token = (.pending, track depth token) := by
  obtain ⟨outer, rfl⟩ := Nat.exists_eq_succ_of_ne_zero hdepth
  cases token <;> rfl

/-- A structure in the place of a scalar is passed over. -/
theorem consume_scalarReader_structure {document : Document}
    (hstructure : document.isStructure = true) :
    (scalarReader expected parse).consume (scalarReader expected parse).start
      document.tokens = .ok ([], (scalarReader expected parse).start) := by
  rcases document.tokens_cases with
    ⟨token, -, -, hscalar⟩ | ⟨opening, closing, inner, htokens, hopens, hinner, hcloses, -⟩
  · rw [hscalar] at hstructure
    cases hstructure
  · have hfeed : (scalarReader expected parse).feed (0 : Nat) opening =
        (.pending, (0 + 1 : Nat)) := by
      simp only [scalarReader, hopens]
    rw [htokens]
    refine (Reader.consume_cons_of_pending _ hfeed _).trans ?_
    exact Reader.consume_passing (scalarReader expected parse) (fun depth => depth)
      (feed_scalarReader_inside expected parse)
      (hinner.endsUnit_append (.last (track_of_closes hcloses 1))) Nat.one_ne_zero

end Scalars

/-! ## Members -/

/-- The values at a name in the members of an object. -/
def occurrences (name : String) (members : List (String × Document)) : List Document :=
  (members.filter (·.1 == name)).map Prod.snd

theorem occurrences_cons_of_eq {name : String} (value : Document)
    (members : List (String × Document)) :
    occurrences name ((name, value) :: members) = value :: occurrences name members := by
  simp [occurrences]

theorem occurrences_cons_of_ne {name other : String} (hne : other ≠ name) (value : Document)
    (members : List (String × Document)) :
    occurrences name ((other, value) :: members) = occurrences name members := by
  simp [occurrences, hne]

theorem occurrences_append (name : String) (front back : List (String × Document)) :
    occurrences name (front ++ back) = occurrences name front ++ occurrences name back := by
  simp [occurrences]

theorem occurrences_eq_nil {name : String} {members : List (String × Document)}
    (hnew : name ∉ members.map Prod.fst) : occurrences name members = [] := by
  induction members with
  | nil => rfl
  | cons member members ih =>
      rw [List.map_cons, List.mem_cons, not_or] at hnew
      rw [occurrences_cons_of_ne (Ne.symm hnew.1), ih hnew.2]

section Members

variable (name : String) (inner : Reader Token α)

/-- One step of a reader that hands a token to an inner reader, converts its
values and puts a segment in front of its failures. -/
theorem consume_cons_within {inner : Reader Token α} {outer : Reader Token β} {segment : String}
    {f : α → β} {state next : inner.State} {token : Token}
    {outcome : Outcome α} (hinner : inner.feed state token = (outcome, next))
    {place after : outer.State}
    (houter : outer.feed place token = ((outcome.map f).within segment, after))
    (behind : inner.State → outer.State) {tokens : List Token}
    (hrest : outer.consume after tokens =
      ((inner.consume next tokens).mapError (Failure.within segment)).map fun read =>
        (read.1.map f, behind read.2)) :
    outer.consume place (token :: tokens) =
      ((inner.consume state (token :: tokens)).mapError (Failure.within segment)).map fun read =>
        (read.1.map f, behind read.2) := by
  cases outcome with
  | produced value =>
      rw [Reader.consume_cons_of_produced _ hinner, Reader.consume_cons_of_produced _ houter,
        hrest]
      cases inner.consume next tokens <;> rfl
  | pending =>
      rw [Reader.consume_cons_of_pending _ hinner, Reader.consume_cons_of_pending _ houter, hrest]
  | failed failure =>
      rw [Reader.consume_cons_of_failed _ hinner, Reader.consume_cons_of_failed _ houter]
      rfl

/-- A value that is claimed goes to the inner reader up to its end.  The reader
around it has a state for every depth in the value, and one for its end. -/
theorem consume_claimed (outer : Reader Token β) (inside : inner.State → Nat → outer.State)
    (behind : inner.State → outer.State) (f : α → β)
    (hfeed : ∀ state depth token, outer.feed (inside state depth) token =
      (((inner.feed state token).1.map f).within name,
        if track depth token = 0 then behind (inner.feed state token).2
        else inside (inner.feed state token).2 (track depth token)))
    {depth : Nat} {tokens : List Token} (hends : EndsUnit depth tokens) (state : inner.State) :
    outer.consume (inside state depth) tokens =
      ((inner.consume state tokens).mapError (Failure.within name)).map fun read =>
        (read.1.map f, behind read.2) := by
  induction hends generalizing state with
  | @last depth token hzero =>
      have houter := hfeed state depth token
      rw [if_pos hzero] at houter
      exact consume_cons_within rfl houter behind rfl
  | @step depth token tokens hopen _ ih =>
      have houter := hfeed state depth token
      rw [if_neg hopen] at houter
      exact consume_cons_within rfl houter behind (ih _)

theorem consume_memberReader_inside {tokens : List Token} (hends : EndsUnit 0 tokens)
    (state : inner.State) (found : Bool) :
    (memberReader name inner).consume ⟨state, .inside () 0, found⟩ tokens =
      ((inner.consume state tokens).mapError (Failure.within name)).map fun read =>
        (read.1, ⟨read.2, .between 0, found⟩) := by
  have hfeed (state : inner.State) (depth : Nat) (token : Token) :
      (memberReader name inner).feed ⟨state, .inside () depth, found⟩ token =
        (((inner.feed state token).1.map id).within name,
          if track depth token = 0 then ⟨(inner.feed state token).2, .between 0, found⟩
          else ⟨(inner.feed state token).2, .inside () (track depth token), found⟩) := by
    by_cases hzero : track depth token = 0 <;> simp [memberReader, MemberPlace.advance, hzero]
  refine (consume_claimed name inner (memberReader name inner)
    (fun state depth => ⟨state, .inside () depth, found⟩)
    (fun state => ⟨state, .between 0, found⟩) id hfeed hends state).trans ?_
  simp only [List.map_id]

/-- Whatever its name, a value goes to the inner reader, and its values come out
as pairs. -/
theorem consume_anyMemberReader_inside {tokens : List Token} (hends : EndsUnit 0 tokens)
    (state : inner.State) :
    (anyMemberReader inner).consume (state, .inside name 0) tokens =
      ((inner.consume state tokens).mapError (Failure.within name)).map fun read =>
        (read.1.map fun value => (name, value), (read.2, .between 0)) := by
  have hfeed (state : inner.State) (depth : Nat) (token : Token) :
      (anyMemberReader inner).feed (state, .inside name depth) token =
        (((inner.feed state token).1.map fun value => (name, value)).within name,
          if track depth token = 0 then ((inner.feed state token).2, .between 0)
          else ((inner.feed state token).2, .inside name (track depth token))) := by
    by_cases hzero : track depth token = 0 <;> simp [anyMemberReader, MemberPlace.advance, hzero]
  exact consume_claimed name inner (anyMemberReader inner)
    (fun state depth => (state, .inside name depth)) (fun state => (state, .between 0)) _
    hfeed hends state

/-- A member of any name gives the values behind the name, each with the name. -/
theorem consume_anyMemberReader (document : Document) (state : inner.State) :
    (anyMemberReader inner).consume (state, .between 0) (.name name :: document.tokens) =
      ((inner.consume state document.tokens).mapError (Failure.within name)).map fun read =>
        (read.1.map fun value => (name, value), (read.2, .between 0)) := by
  have hname : (anyMemberReader inner).feed (state, .between 0) (.name name) =
      (.pending, (state, .inside name 0)) := rfl
  rw [Reader.consume_cons_of_pending _ hname]
  exact consume_anyMemberReader_inside name inner document.endsUnit_tokens state

theorem feed_memberReader_skipping (state : inner.State) (found : Bool) (depth : Nat)
    (hdepth : depth ≠ 0) (token : Token) :
    (memberReader name inner).feed ⟨state, .between depth, found⟩ token =
      (.pending, ⟨state, .between (track depth token), found⟩) := by
  simp [memberReader, hdepth]

/-- A value that is not claimed is passed over. -/
theorem consume_memberReader_between (document : Document) (state : inner.State)
    (found : Bool) :
    (memberReader name inner).consume ⟨state, .between 0, found⟩ document.tokens =
      .ok ([], ⟨state, .between 0, found⟩) := by
  rcases document.tokens_cases with
    ⟨token, htokens, hscalar, -⟩ | ⟨opening, closing, inside, htokens, hopens, hinside, hcloses, -⟩
  · have hfeed : (memberReader name inner).feed ⟨state, .between 0, found⟩ token =
        (.pending, ⟨state, .between 0, found⟩) := by
      have hflat := track_of_flat (show Alphabet.nesting token = .flat from
        Token.nesting_of_isScalar hscalar) 0
      cases token <;> simp_all [memberReader, Token.isScalar]
    rw [htokens, Reader.consume_cons_of_pending _ hfeed]
    rfl
  · have hfeed : (memberReader name inner).feed ⟨state, .between 0, found⟩ opening =
        (.pending, ⟨state, .between 1, found⟩) := by
      have hopened := track_of_opens (show Alphabet.nesting opening = .opens from hopens) 0
      cases opening <;> simp_all [memberReader, Token.nesting]
    rw [htokens, Reader.consume_cons_of_pending _ hfeed]
    exact Reader.consume_passing (memberReader name inner)
      (fun depth => ⟨state, .between depth, found⟩)
      (feed_memberReader_skipping name inner state found)
      (hinside.endsUnit_append (.last (track_of_closes hcloses 1))) Nat.one_ne_zero

/-- The inner reader of a member sees the values at its name. -/
theorem consume_memberReader (members : List (String × Document)) (state : inner.State)
    (found : Bool) :
    (memberReader name inner).consume ⟨state, .between 0, found⟩ (memberTokens members) =
      ((inner.consume state ((occurrences name members).flatMap tokens)).mapError
        (Failure.within name)).map fun read =>
          (read.1, ⟨read.2, .between 0, found || !(occurrences name members).isEmpty⟩) := by
  induction members generalizing state found with
  | nil => cases found <;> rfl
  | cons member members ih =>
      obtain ⟨other, value⟩ := member
      rw [memberTokens, List.cons_append]
      by_cases heq : other = name
      · subst heq
        have hfeed : (memberReader other inner).feed ⟨state, .between 0, found⟩ (.name other) =
            (.pending, ⟨state, .inside () 0, true⟩) := by
          simp [memberReader]
        have hvalue := consume_memberReader_inside other inner value.endsUnit_tokens state true
        rw [Reader.consume_cons_of_pending _ hfeed, occurrences_cons_of_eq, List.flatMap_cons]
        rcases hinner : inner.consume state value.tokens with failure | ⟨values, next⟩
        · rw [hinner] at hvalue
          rw [Reader.consume_append_of_error hvalue, Reader.consume_append_of_error hinner]
          rfl
        · rw [hinner] at hvalue
          rw [Reader.consume_append_of_ok hvalue, Reader.consume_append_of_ok hinner, ih]
          cases inner.consume next ((occurrences other members).flatMap tokens) <;>
            cases found <;> rfl
      · have hfeed : (memberReader name inner).feed ⟨state, .between 0, found⟩ (.name other) =
            (.pending, ⟨state, .between 0, found⟩) := by
          have hflat : track 0 (Token.name other) = 0 := rfl
          simp [memberReader, heq, hflat]
        rw [Reader.consume_cons_of_pending _ hfeed, occurrences_cons_of_ne heq,
          Reader.consume_append_of_ok (consume_memberReader_between name inner value state found),
          ih]
        cases inner.consume state ((occurrences name members).flatMap tokens) <;> rfl

end Members

/-! ## Arrays -/

theorem elementTokens_eq_flatMap (elements : List Document) :
    elementTokens elements = elements.flatMap tokens := by
  induction elements with
  | nil => rfl
  | cons element rest ih => rw [elementTokens, List.flatMap_cons, ih]

section Arrays

variable {inner : Reader Token α}

theorem feed_arrayReader_inside {depth : Nat} (hdepth : depth ≠ 0) {token : Token}
    (hopen : track depth token ≠ 0) {state next : inner.State} {outcome : Outcome α}
    (hinner : inner.feed state token = (outcome, next)) (index : Nat) :
    (arrayReader inner).feed ⟨state, depth, index⟩ token =
      (outcome.within (indexSegment index), ⟨next, track depth token,
        if track depth token = 1 then index + 1 else index⟩) := by
  have hnot : ¬(depth = 1 ∧ token = .endArray) := by
    rintro ⟨rfl, rfl⟩
    exact hopen rfl
  simp [arrayReader, hdepth, hnot, hinner]

/-- Behind its first token, an element that is a structure goes to the inner reader
up to its end, and is counted there. -/
theorem consume_arrayReader_within {depth : Nat} {tokens : List Token}
    (hends : EndsUnit depth tokens) (hdepth : depth ≠ 0) (state : inner.State) (index : Nat) :
    (arrayReader inner).consume ⟨state, depth + 1, index⟩ tokens =
      ((inner.consume state tokens).mapError (Failure.within (indexSegment index))).map
        fun read => (read.1.map id, ⟨read.2, 1, index + 1⟩) := by
  have htrack {depth : Nat} (hdepth : depth ≠ 0) (token : Token) :
      track (depth + 1) token = track depth token + 1 := by
    simp only [track]
    cases nesting token <;> simp only [Nesting.track]
    omega
  induction hends generalizing state with
  | @last depth token hzero =>
      have hafter : track (depth + 1) token = 1 := by rw [htrack hdepth, hzero]
      have harray := feed_arrayReader_inside (Nat.succ_ne_zero depth)
        (by rw [hafter]; exact Nat.one_ne_zero) (rfl : inner.feed state token = (_, _)) index
      rw [hafter, if_pos rfl, ← Outcome.map_id (inner.feed state token).1] at harray
      exact consume_cons_within rfl harray (fun next => ⟨next, 1, index + 1⟩) rfl
  | @step depth token tokens hopen _ ih =>
      have hafter := htrack hdepth token
      have harray := feed_arrayReader_inside (Nat.succ_ne_zero depth)
        (by rw [hafter]; exact Nat.succ_ne_zero _) (rfl : inner.feed state token = (_, _)) index
      rw [hafter, if_neg fun hone => hopen (Nat.succ.inj hone),
        ← Outcome.map_id (inner.feed state token).1] at harray
      exact consume_cons_within rfl harray (fun next => ⟨next, 1, index + 1⟩) (ih hopen _)

/-- An element of an array goes to the inner reader, and its failures show its
index. -/
theorem consume_arrayReader_element (element : Document) (state : inner.State) (index : Nat) :
    (arrayReader inner).consume ⟨state, 1, index⟩ element.tokens =
      ((inner.consume state element.tokens).mapError (Failure.within (indexSegment index))).map
        fun read => (read.1, ⟨read.2, 1, index + 1⟩) := by
  have hconverted : (arrayReader inner).consume ⟨state, 1, index⟩ element.tokens =
      ((inner.consume state element.tokens).mapError (Failure.within (indexSegment index))).map
        fun read => (read.1.map id, ⟨read.2, 1, index + 1⟩) := by
    rcases element.tokens_cases with
      ⟨token, htokens, hscalar, -⟩ |
        ⟨opening, closing, inside, htokens, hopens, hinside, hcloses, -⟩
    · have hflat : track 1 token = 1 := track_of_flat (Token.nesting_of_isScalar hscalar) 1
      have harray := feed_arrayReader_inside Nat.one_ne_zero
        (by rw [hflat]; exact Nat.one_ne_zero) (rfl : inner.feed state token = (_, _)) index
      rw [hflat, if_pos rfl, ← Outcome.map_id (inner.feed state token).1] at harray
      rw [htokens]
      exact consume_cons_within rfl harray (fun next => ⟨next, 1, index + 1⟩) rfl
    · have hopened : track 1 opening = 2 := track_of_opens hopens 1
      have hends : EndsUnit 1 (inside ++ [closing]) :=
        hinside.endsUnit_append (.last (track_of_closes hcloses 1))
      have harray := feed_arrayReader_inside Nat.one_ne_zero
        (by rw [hopened]; exact nofun) (rfl : inner.feed state opening = (_, _)) index
      rw [hopened, if_neg nofun, ← Outcome.map_id (inner.feed state opening).1] at harray
      rw [htokens]
      exact consume_cons_within rfl harray (fun next => ⟨next, 1, index + 1⟩)
        (consume_arrayReader_within hends Nat.one_ne_zero _ index)
  simpa only [List.map_id] using hconverted

theorem consume_arrayReader_inside_of_ok {depth : Nat} (hdepth : depth ≠ 0)
    {tokens : List Token} (hopen : StaysOpen depth tokens) {state next : inner.State}
    {values : List α} (hinner : inner.consume state tokens = .ok (values, next))
    (index : Nat) :
    ∃ reached, (arrayReader inner).consume ⟨state, depth, index⟩ tokens =
      .ok (values, ⟨next, trackAll depth tokens, reached⟩) := by
  induction tokens generalizing depth state values index with
  | nil =>
      cases hinner
      exact ⟨index, rfl⟩
  | cons token tokens ih =>
      obtain ⟨hstep, hrest⟩ := hopen
      rcases hfeed : inner.feed state token with ⟨value | _ | failure, middle⟩
      · rw [Reader.consume_cons_of_produced _ hfeed] at hinner
        rcases hmore : inner.consume middle tokens with failure | ⟨more, last⟩
        · rw [hmore] at hinner
          cases hinner
        rw [hmore] at hinner
        cases hinner
        obtain ⟨reached, hreached⟩ := ih hstep hrest hmore
          (if track depth token = 1 then index + 1 else index)
        have harray := feed_arrayReader_inside hdepth hstep hfeed index
        refine ⟨reached, ?_⟩
        rw [Reader.consume_cons_of_produced _ harray, hreached]
        rfl
      · rw [Reader.consume_cons_of_pending _ hfeed] at hinner
        obtain ⟨reached, hreached⟩ := ih hstep hrest hinner
          (if track depth token = 1 then index + 1 else index)
        have harray := feed_arrayReader_inside hdepth hstep hfeed index
        refine ⟨reached, ?_⟩
        rw [Reader.consume_cons_of_pending _ harray, hreached]
        rfl
      · rw [Reader.consume_cons_of_failed _ hfeed] at hinner
        cases hinner

theorem consume_arrayReader_inside_of_error {depth : Nat} (hdepth : depth ≠ 0)
    {tokens : List Token} (hopen : StaysOpen depth tokens) {state : inner.State}
    {failure : Failure} (hinner : inner.consume state tokens = .error failure) (index : Nat) :
    ∃ failure, (arrayReader inner).consume ⟨state, depth, index⟩ tokens = .error failure := by
  induction tokens generalizing depth state failure index with
  | nil => cases hinner
  | cons token tokens ih =>
      obtain ⟨hstep, hrest⟩ := hopen
      rcases hfeed : inner.feed state token with ⟨value | _ | earlier, middle⟩
      · have harray := feed_arrayReader_inside hdepth hstep hfeed index
        rw [Reader.consume_cons_of_produced _ hfeed] at hinner
        rcases hmore : inner.consume middle tokens with later | read
        · obtain ⟨failed, hfailed⟩ := ih hstep hrest hmore
            (if track depth token = 1 then index + 1 else index)
          refine ⟨failed, ?_⟩
          rw [Reader.consume_cons_of_produced _ harray, hfailed]
          rfl
        · rw [hmore] at hinner
          cases hinner
      · have harray := feed_arrayReader_inside hdepth hstep hfeed index
        rw [Reader.consume_cons_of_pending _ hfeed] at hinner
        obtain ⟨failed, hfailed⟩ := ih hstep hrest hinner
          (if track depth token = 1 then index + 1 else index)
        refine ⟨failed, ?_⟩
        rw [Reader.consume_cons_of_pending _ harray, hfailed]
      · have harray := feed_arrayReader_inside hdepth hstep hfeed index
        exact ⟨_, Reader.consume_cons_of_failed _ harray tokens⟩

/-- The closing bracket lets the inner reader have its last word. -/
theorem consume_arrayReader_closing (state : inner.State) (index : Nat) :
    (arrayReader inner).consume ⟨state, 1, index⟩ [.endArray] =
      (inner.release state).map fun read => (read.1, ⟨read.2, 0, 0⟩) := by
  have hfeed : (arrayReader inner).feed ⟨state, 1, index⟩ .endArray =
      ((inner.reset state).1, ⟨(inner.reset state).2, 0, 0⟩) := by
    simp [arrayReader]
  rcases hreset : inner.reset state with ⟨value | _ | failure, next⟩ <;> rw [hreset] at hfeed
  · rw [Reader.consume_cons_of_produced _ hfeed, Reader.release_of_produced _ hreset]
    rfl
  · rw [Reader.consume_cons_of_pending _ hfeed, Reader.release_of_pending _ hreset]
    rfl
  · rw [Reader.consume_cons_of_failed _ hfeed, Reader.release_of_failed _ hreset]
    rfl

/-- The elements of an array, up to its closing bracket.  What the inner reader
does with them is what the array does. -/
theorem consume_arrayReader_elements {elements : List Document} {state next : inner.State}
    {values : List α}
    (hinner : inner.consume state (elementTokens elements) = .ok (values, next)) (index : Nat) :
    ∃ reached, (arrayReader inner).consume ⟨state, 0, index⟩
      (.startArray :: elementTokens elements) = .ok (values, ⟨next, 1, reached⟩) := by
  have hnested := nested_elementTokens elements
  obtain ⟨reached, hinside⟩ := consume_arrayReader_inside_of_ok Nat.one_ne_zero
    (hnested.staysOpen 0) hinner 0
  rw [hnested.trackAll] at hinside
  have hopening : (arrayReader inner).feed ⟨state, 0, index⟩ .startArray =
      (.pending, ⟨state, 1, 0⟩) := rfl
  exact ⟨reached, (Reader.consume_cons_of_pending _ hopening _).trans hinside⟩

theorem consume_arrayReader_elements_of_error {elements : List Document} {state : inner.State}
    {failure : Failure}
    (hinner : inner.consume state (elementTokens elements) = .error failure) (index : Nat) :
    ∃ failure, (arrayReader inner).consume ⟨state, 0, index⟩
      (.startArray :: elementTokens elements) = .error failure := by
  have hopening : (arrayReader inner).feed ⟨state, 0, index⟩ .startArray =
      (.pending, ⟨state, 1, 0⟩) := rfl
  obtain ⟨failed, hfailed⟩ := consume_arrayReader_inside_of_error Nat.one_ne_zero
    ((nested_elementTokens elements).staysOpen 0) hinner 0
  exact ⟨failed, (Reader.consume_cons_of_pending _ hopening _).trans hfailed⟩

/-- An array gives what its inner reader concludes from the elements. -/
theorem consume_arrayReader_of_ok {elements : List Document} {values : List α}
    {next : inner.State}
    (hinner : inner.conclude inner.start (elementTokens elements) = .ok (values, next)) :
    (arrayReader inner).consume (arrayReader inner).start (Document.array elements).tokens =
      .ok (values, ⟨next, 0, 0⟩) := by
  obtain ⟨given, middle, released, helements, hrelease, rfl⟩ :=
    Reader.exists_of_conclude hinner
  obtain ⟨reached, hfront⟩ := consume_arrayReader_elements helements 0
  rw [tokens]
  refine (Reader.consume_append_of_ok hfront _).trans ?_
  rw [consume_arrayReader_closing, hrelease]
  rfl

theorem consume_arrayReader_of_error {elements : List Document} {failure : Failure}
    (hinner : inner.conclude inner.start (elementTokens elements) = .error failure) :
    ∃ failure, (arrayReader inner).consume (arrayReader inner).start
      (Document.array elements).tokens = .error failure := by
  rw [tokens]
  rcases helements : inner.consume inner.start (elementTokens elements) with
    early | ⟨given, middle⟩
  · obtain ⟨failed, hfront⟩ := consume_arrayReader_elements_of_error helements 0
    exact ⟨failed, Reader.consume_append_of_error hfront [.endArray]⟩
  · obtain ⟨reached, hfront⟩ := consume_arrayReader_elements helements 0
    have harray := Reader.consume_append_of_ok hfront [.endArray]
    rw [Reader.conclude_of_ok helements] at hinner
    rw [consume_arrayReader_closing] at harray
    cases hrelease : inner.release middle with
    | error late =>
        rw [hrelease] at harray
        exact ⟨late, harray⟩
    | ok released =>
        rw [hrelease] at hinner
        cases hinner

/-- An array reader takes nothing but an array. -/
theorem consume_arrayReader_of_not_array {document : Document}
    (hdocument : ∀ elements, document ≠ .array elements) :
    ∃ failure, (arrayReader inner).consume (arrayReader inner).start document.tokens =
      .error failure := by
  cases document with
  | array elements => exact absurd rfl (hdocument elements)
  | object members =>
      rw [tokens]
      exact ⟨_, rfl⟩
  | _ => exact ⟨_, rfl⟩

end Arrays

/-! ## Objects -/

section Objects

variable {assembly : Assembly Token β}

/-- Between the braces an object reader is its assembly. -/
theorem consume_objectReader_inside {depth : Nat} (hdepth : depth ≠ 0)
    {tokens : List Token} (hopen : StaysOpen depth tokens) (state : assembly.State) :
    (objectReader assembly).consume (state, depth) tokens =
      (assembly.interior.consume state tokens).map fun read =>
        (read.1, (read.2, trackAll depth tokens)) := by
  induction tokens generalizing depth state with
  | nil => rfl
  | cons token tokens ih =>
      obtain ⟨hstep, hrest⟩ := hopen
      have hnot : ¬(depth = 1 ∧ token = .endObject) := by
        rintro ⟨rfl, rfl⟩
        exact hstep rfl
      rcases hfeed : assembly.feed state token with ⟨value | _ | failure, next⟩
      · have hobject : (objectReader assembly).feed (state, depth) token =
            (.produced value, (next, track depth token)) := by
          simp [objectReader, hdepth, hnot, hfeed, Outcome.isFailed]
        rw [Reader.consume_cons_of_produced _ hobject, ih hstep hrest next]
        refine Eq.trans ?_ (congrArg (Except.map _)
          (Reader.consume_cons_of_produced assembly.interior hfeed tokens)).symm
        cases assembly.interior.consume next tokens <;> rfl
      · have hobject : (objectReader assembly).feed (state, depth) token =
            (.pending, (next, track depth token)) := by
          simp [objectReader, hdepth, hnot, hfeed, Outcome.isFailed]
        rw [Reader.consume_cons_of_pending _ hobject, ih hstep hrest next]
        exact (congrArg (Except.map _)
          (Reader.consume_cons_of_pending assembly.interior hfeed tokens)).symm
      · have hobject : (objectReader assembly).feed (state, depth) token =
            (.failed failure, (next, 0)) := by
          simp [objectReader, hdepth, hnot, hfeed, Outcome.isFailed]
        rw [Reader.consume_cons_of_failed _ hobject]
        exact (congrArg (Except.map _)
          (Reader.consume_cons_of_failed assembly.interior hfeed tokens)).symm

/-- The closing brace completes the assembly. -/
theorem consume_objectReader_closing (state : assembly.State) :
    (objectReader assembly).consume (state, 1) [.endObject] =
      (assembly.interior.release state).map fun read => (read.1, (read.2, 0)) := by
  have hfeed : (objectReader assembly).feed (state, 1) .endObject =
      ((assembly.complete state).1, ((assembly.complete state).2, 0)) := by
    simp [objectReader]
  rcases hcomplete : assembly.complete state with ⟨value | _ | failure, next⟩ <;>
    rw [hcomplete] at hfeed
  · rw [Reader.consume_cons_of_produced _ hfeed,
      Reader.release_of_produced assembly.interior hcomplete]
    rfl
  · rw [Reader.consume_cons_of_pending _ hfeed,
      Reader.release_of_pending assembly.interior hcomplete]
    rfl
  · rw [Reader.consume_cons_of_failed _ hfeed,
      Reader.release_of_failed assembly.interior hcomplete]
    rfl

/-- Between its units an object reader gives for the next one what its assembly
concludes from the members. -/
theorem consume_objectReader_from (state : assembly.State)
    (members : List (String × Document)) :
    (objectReader assembly).consume (state, 0) (Document.object members).tokens =
      (assembly.interior.conclude state (memberTokens members)).map
        fun read => (read.1, (read.2, 0)) := by
  have hopening : (objectReader assembly).feed (state, 0) .startObject =
      (.pending, (state, 1)) := rfl
  have hnested := nested_memberTokens members
  have hinside := consume_objectReader_inside Nat.one_ne_zero (hnested.staysOpen 0) state
  rw [hnested.trackAll] at hinside
  rw [tokens, List.cons_append]
  refine (Reader.consume_cons_of_pending _ hopening _).trans ?_
  rcases hmembers : assembly.interior.consume state (memberTokens members) with
    failure | ⟨values, next⟩
  · replace hinside := hinside.trans (congrArg (Except.map _) hmembers)
    rw [Reader.consume_append_of_error hinside, Reader.conclude_of_error hmembers]
    rfl
  · have hpassed : (objectReader assembly).consume (state, 1) (memberTokens members) =
        .ok (values, (next, 1)) :=
      hinside.trans (congrArg (Except.map _) hmembers)
    rw [Reader.consume_append_of_ok hpassed, Reader.conclude_of_ok hmembers]
    refine (congrArg (Except.map _) (consume_objectReader_closing next)).trans ?_
    cases assembly.interior.release next <;> rfl

/-- An object gives what its assembly concludes from the members. -/
theorem consume_objectReader (assembly : Assembly Token β)
    (members : List (String × Document)) :
    (objectReader assembly).consume (objectReader assembly).start
        (Document.object members).tokens =
      (assembly.interior.conclude assembly.interior.start (memberTokens members)).map
        fun read => (read.1, (read.2, 0)) :=
  consume_objectReader_from assembly.start members

/-- An object reader takes nothing but an object. -/
theorem consume_objectReader_of_not_object {document : Document}
    (hdocument : ∀ members, document ≠ .object members) (state : assembly.State) :
    ∃ failure, (objectReader assembly).consume (state, 0) document.tokens = .error failure := by
  cases document with
  | object members => exact absurd rfl (hdocument members)
  | array elements =>
      rw [tokens]
      exact ⟨_, rfl⟩
  | _ => exact ⟨_, rfl⟩

end Objects

end TokenCodec.Json
