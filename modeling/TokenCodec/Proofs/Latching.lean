import TokenCodec.Proofs.Documents
import TokenCodec.Proofs.Readable

/-!
# Folds that have failed

The first failure of an element stops the fold over an array for good.  The
reader around it goes on counting brackets, but the fold keeps its result and
its failure through every further token, and says the failure again when the
closing bracket resets it.  A failure from inside carries the index of the element
that it arose in.  The repeated one does not: at the closing bracket no element
is being read, so nothing is put in front of its path.  Behind the closing bracket
the array is as new.
-/

namespace TokenCodec

variable {τ α β : Type}

open Alphabet

/-- The depth stays above zero in a run exactly if it does in both its halves. -/
theorem staysOpen_append_iff [Alphabet τ] {depth : Nat} {front back : List τ} :
    StaysOpen depth (front ++ back) ↔
      StaysOpen depth front ∧ StaysOpen (trackAll depth front) back := by
  induction front generalizing depth with
  | nil => exact (iff_of_eq (true_and _)).symm
  | cons token front ih =>
      simp only [List.cons_append, StaysOpen, trackAll, List.foldl_cons, and_assoc]
      exact and_congr_right fun _ => ih

theorem StaysOpen.trackAll_ne_zero [Alphabet τ] {depth : Nat} {tokens : List τ}
    (hopen : StaysOpen depth tokens) (hdepth : depth ≠ 0) : trackAll depth tokens ≠ 0 := by
  induction tokens generalizing depth with
  | nil => exact hdepth
  | cons token tokens ih => exact ih hopen.2 hopen.1

namespace Reader

variable {reader : Reader τ α} {initial : β} {combine : β → α → β}
  {state : (reader.fold initial combine).State} {failure : Failure}

/-- A fold that has failed answers nothing, and does not move. -/
theorem feed_fold_of_failed (hfailed : state.failure = some failure) (token : τ) :
    (reader.fold initial combine).feed state token = (.pending, state) := by
  simp only [fold, hfailed]

/-- The reset of a fold that has failed says the failure again. -/
theorem reset_fold_of_failed (hfailed : state.failure = some failure) :
    ((reader.fold initial combine).reset state).1 = .failed failure := by
  simp only [fold, hfailed]

/-- A fold that fails keeps its result and remembers the failure. -/
theorem keeps_of_feed_fold {token : τ} {broken : (reader.fold initial combine).State}
    (hunfailed : state.failure = none)
    (hfails : (reader.fold initial combine).feed state token = (.failed failure, broken)) :
    broken.result = state.result ∧ broken.failure = some failure := by
  rcases hfeed : reader.feed state.inner token with ⟨value | _ | cause, next⟩ <;>
    simp only [fold, hunfailed, hfeed] at hfails <;> cases hfails
  exact ⟨rfl, rfl⟩

/-- A fold that got through a run has no failure to remember. -/
theorem failure_of_consume_fold {tokens : List τ} {values : List β}
    (hconsume : (reader.fold initial combine).consume (reader.fold initial combine).start tokens =
      .ok (values, state)) : state.failure = none := by
  have hfold := consume_fold reader initial combine reader.start initial tokens
  replace hfold := hfold.symm.trans hconsume
  obtain ⟨read, -, hnext⟩ := Except.exists_of_map hfold
  cases hnext
  rfl

end Reader

namespace Json

open Document

/-! ## The element that holds a token -/

/-- A token between the brackets of an array stands in one of the elements. -/
theorem exists_element_of_split {elements : List Document} {front back : List Token}
    {token : Token} (hsplit : elementTokens elements = front ++ token :: back) :
    ∃ before element after part later, elements = before ++ element :: after ∧
      front = elementTokens before ++ part ∧ element.tokens = part ++ token :: later ∧
      back = later ++ elementTokens after := by
  induction elements generalizing front with
  | nil => exact absurd hsplit (by simp [elementTokens])
  | cons element elements ih =>
      rw [elementTokens] at hsplit
      cases List.append_eq_append_iff.mp hsplit with
      | inl hbehind =>
          obtain ⟨part, rfl, hrest⟩ := hbehind
          obtain ⟨before, holder, after, inner, later, rfl, rfl, hholder, rfl⟩ := ih hrest
          refine ⟨element :: before, holder, after, inner, later, rfl, ?_, hholder, rfl⟩
          rw [elementTokens, List.append_assoc]
      | inr hwithin =>
          obtain ⟨later, helement, hrest⟩ := hwithin
          cases later with
          | cons first later =>
              obtain ⟨rfl, rfl⟩ := List.cons.inj hrest
              exact ⟨[], element, elements, front, later, rfl, rfl, helement, rfl⟩
          | nil =>
              -- The element ends right in front of the token, which begins the next one.
              have hnext : elementTokens elements = [] ++ token :: back := hrest.symm
              obtain ⟨before, holder, after, inner, later, rfl, hnothing, hholder, rfl⟩ := ih hnext
              refine ⟨element :: before, holder, after, inner, later, rfl, ?_, hholder, rfl⟩
              rw [elementTokens, List.append_assoc, ← hnothing, helement]
              simp

section Arrays

variable {inner : Reader Token α}

/-! ## The failure of an array -/

/-- Every element that the inner reader gets through is counted. -/
theorem consume_arrayReader_counted {elements : List Document} {state next : inner.State}
    {values : List α} (hinner : inner.consume state (elementTokens elements) = .ok (values, next))
    (index : Nat) :
    (arrayReader inner).consume ⟨state, 1, index⟩ (elementTokens elements) =
      .ok (values, ⟨next, 1, index + elements.length⟩) := by
  induction elements generalizing state values index with
  | nil =>
      cases hinner
      rfl
  | cons element elements ih =>
      rw [elementTokens] at hinner ⊢
      obtain ⟨given, middle, more, helement, hrest, rfl⟩ :=
        Reader.exists_of_consume_append hinner
      have harray := consume_arrayReader_element element state index
      rw [helement] at harray
      have hlast := Reader.consume_append_ok harray (ih hrest (index + 1))
      rw [Nat.add_assoc, Nat.add_comm 1] at hlast
      exact hlast

/-- The failure of an element carries its index. -/
theorem consume_arrayReader_elements_error {before : List Document} {element : Document}
    {state middle : inner.State} {values : List α} {failure : Failure}
    (hbefore : inner.consume state (elementTokens before) = .ok (values, middle))
    (helement : inner.consume middle element.tokens = .error failure) (index : Nat) :
    (arrayReader inner).consume ⟨state, 1, index⟩ (elementTokens before ++ element.tokens) =
      .error (failure.within (indexSegment (index + before.length))) := by
  rw [Reader.consume_append_of_ok (consume_arrayReader_counted hbefore index),
    consume_arrayReader_element, helement]
  rfl

/-- What an array gets through between its brackets, its inner reader gets through. -/
theorem exists_of_consume_arrayReader_inside {depth : Nat} (hdepth : depth ≠ 0)
    {tokens : List Token} (hopen : StaysOpen depth tokens) {state : inner.State}
    {index : Nat} {values : List α} {reached : (arrayReader inner).State}
    (harray : (arrayReader inner).consume ⟨state, depth, index⟩ tokens = .ok (values, reached)) :
    inner.consume state tokens = .ok (values, reached.inner) ∧
      reached.depth = trackAll depth tokens := by
  cases hinner : inner.consume state tokens with
  | error failure =>
      obtain ⟨failed, hfailed⟩ := consume_arrayReader_inside_of_error hdepth hopen hinner index
      cases hfailed.symm.trans harray
  | ok read =>
      obtain ⟨last, hlast⟩ := consume_arrayReader_inside_of_ok hdepth hopen hinner index
      cases hlast.symm.trans harray
      exact ⟨rfl, rfl⟩

/-- Where an array fails, the failure is that of its inner reader, with the index of
the element that is being read. -/
theorem failure_eq_within {before : List Document} {element : Document}
    {part later : List Token} {token : Token} {values : List α}
    {state broken : (arrayReader inner).State} {next : inner.State} {failure cause : Failure}
    (helement : element.tokens = part ++ token :: later)
    (harray : (arrayReader inner).consume ⟨inner.start, 1, 0⟩ (elementTokens before ++ part) =
      .ok (values, state))
    (hfails : (arrayReader inner).feed state token = (.failed failure, broken))
    (hinner : inner.consume inner.start (elementTokens before ++ part) = .ok (values, state.inner))
    (hcause : inner.feed state.inner token = (.failed cause, next)) :
    failure = cause.within (indexSegment before.length) := by
  obtain ⟨given, middle, more, hbefore, hpart, rfl⟩ := Reader.exists_of_consume_append hinner
  have hbroken : inner.consume middle element.tokens = .error cause := by
    rw [helement, Reader.consume_append_of_ok hpart, Reader.consume_cons_of_failed _ hcause]
    rfl
  have hlocated := consume_arrayReader_elements_error hbefore hbroken 0
  have hfailed := Reader.consume_append_of_ok harray (token :: later)
  rw [Reader.consume_cons_of_failed _ hfails, List.append_assoc, ← helement] at hfailed
  rw [Nat.zero_add] at hlocated
  exact Except.error.inj (hfailed.symm.trans hlocated)

/-- A failure between the brackets of an array is one of its inner reader. -/
theorem exists_of_feed_arrayReader_failed {state broken : (arrayReader inner).State}
    {token : Token} {failure : Failure} (hdepth : state.depth ≠ 0)
    (hopen : track state.depth token ≠ 0)
    (hfails : (arrayReader inner).feed state token = (.failed failure, broken)) :
    ∃ cause, inner.feed state.inner token = (.failed cause, broken.inner) ∧
      broken.depth = track state.depth token := by
  rcases hinner : inner.feed state.inner token with ⟨value | _ | cause, next⟩ <;>
    have harray := feed_arrayReader_inside hdepth hopen hinner state.index <;>
    cases harray.symm.trans hfails
  exact ⟨cause, rfl, rfl⟩

/-- Over an inner reader that stands still and says nothing, an array only counts. -/
theorem run_arrayReader_still {state : inner.State}
    (hstill : ∀ token, inner.feed state token = (.pending, state)) {depth : Nat}
    (hdepth : depth ≠ 0) {tokens : List Token} (hopen : StaysOpen depth tokens) (index : Nat) :
    ∃ reached, (arrayReader inner).run ⟨state, depth, index⟩ tokens =
      (List.replicate tokens.length .pending, ⟨state, trackAll depth tokens, reached⟩) := by
  induction tokens generalizing depth index with
  | nil => exact ⟨index, rfl⟩
  | cons token tokens ih =>
      obtain ⟨hstep, hrest⟩ := hopen
      have hfeed := feed_arrayReader_inside hdepth hstep (hstill token) index
      obtain ⟨reached, hreached⟩ := ih hstep hrest
        (if track depth token = 1 then index + 1 else index)
      refine ⟨reached, ?_⟩
      rw [Reader.run_cons_of_feed _ hfeed, hreached]
      rfl

/-- Over such a reader the closing bracket says what its reset says. -/
theorem run_arrayReader_still_closing {state : inner.State}
    (hstill : ∀ token, inner.feed state token = (.pending, state)) {depth : Nat}
    (hdepth : depth ≠ 0) {tokens : List Token} (hopen : StaysOpen depth tokens)
    (hclosed : trackAll depth tokens = 1) (index : Nat) :
    (arrayReader inner).run ⟨state, depth, index⟩ (tokens ++ [.endArray]) =
      (List.replicate tokens.length .pending ++ [(inner.reset state).1],
        ⟨(inner.reset state).2, 0, 0⟩) := by
  obtain ⟨reached, hrun⟩ := run_arrayReader_still hstill hdepth hopen index
  have hboth := (arrayReader inner).run_append ⟨state, depth, index⟩ tokens [.endArray]
  rw [hrun, hclosed] at hboth
  exact hboth

end Arrays

/-! ## The failure of a fold -/

section Folds

variable {reader : Reader Token α} {initial : β} {combine : β → α → β}

/-- An array over a fold fails nowhere but in its elements: it takes the opening
bracket, and at the closing one the fold gives its result. -/
theorem exists_split_of_failed {elements : List Document} {front rest : List Token}
    {token : Token} {values : List β} {failure : Failure}
    {state broken : (arrayReader (reader.fold initial combine)).State}
    (htokens : (Document.array elements).tokens = front ++ token :: rest)
    (hfront : (arrayReader (reader.fold initial combine)).consume
      (arrayReader (reader.fold initial combine)).start front = .ok (values, state))
    (hfails : (arrayReader (reader.fold initial combine)).feed state token =
      (.failed failure, broken)) :
    ∃ inside later, front = .startArray :: inside ∧ rest = later ++ [.endArray] ∧
      elementTokens elements = inside ++ token :: later ∧
      (arrayReader (reader.fold initial combine)).consume
        ⟨(reader.fold initial combine).start, 1, 0⟩ inside = .ok (values, state) := by
  rw [tokens] at htokens
  cases front with
  | nil =>
      obtain ⟨rfl, rfl⟩ := List.cons.inj htokens
      cases hfront
      cases hfails
  | cons first inside =>
      rw [List.cons_append, List.cons_append] at htokens
      obtain ⟨rfl, hrest⟩ := List.cons.inj htokens
      have hinside : (arrayReader (reader.fold initial combine)).consume
          ⟨(reader.fold initial combine).start, 1, 0⟩ inside = .ok (values, state) := hfront
      cases List.eq_nil_or_concat rest with
      | inl hend =>
          subst hend
          obtain ⟨rfl, hlast⟩ := List.append_inj' hrest rfl
          cases hlast
          have hnested := nested_elementTokens elements
          obtain ⟨hfold, hdepth⟩ :=
            exists_of_consume_arrayReader_inside Nat.one_ne_zero (hnested.staysOpen 0) hinside
          have hunfailed := Reader.failure_of_consume_fold hfold
          have hclosed := hdepth.trans (hnested.trackAll 1)
          simp only [arrayReader, Reader.fold, hunfailed, hclosed] at hfails
          cases hfails
      | inr hend =>
          obtain ⟨later, last, rfl⟩ := hend
          rw [List.concat_eq_append] at hrest ⊢
          rw [← List.cons_append, ← List.append_assoc] at hrest
          obtain ⟨helements, hlast⟩ := List.append_inj' hrest rfl
          cases hlast
          exact ⟨inside, later, rfl, rfl, helements, hinside⟩

/-- The fold over an array has failed, and `later` is what stands in front of the
closing bracket. -/
structure Latched (broken : (arrayReader (reader.fold initial combine)).State)
    (cause : Failure) (later : List Token) : Prop where
  failed : broken.inner.failure = some cause
  inside : broken.depth ≠ 0
  stays : StaysOpen broken.depth later
  closed : trackAll broken.depth later = 1

namespace Latched

variable {broken : (arrayReader (reader.fold initial combine)).State} {cause : Failure}
  {later : List Token}

/-- The failed fold is silent up to the closing bracket, and says its failure there. -/
theorem run_closing (hlatched : Latched broken cause later) :
    (arrayReader (reader.fold initial combine)).run broken (later ++ [.endArray]) =
      (List.replicate later.length .pending ++ [.failed cause],
        ⟨((reader.fold initial combine).reset broken.inner).2, 0, 0⟩) := by
  have hstill := Reader.feed_fold_of_failed hlatched.failed
  have hrun := run_arrayReader_still_closing hstill hlatched.inside hlatched.stays
    hlatched.closed broken.index
  rwa [Reader.reset_fold_of_failed hlatched.failed] at hrun

/-- Up to the closing bracket the failed fold does not move. -/
theorem run_inner (hlatched : Latched broken cause later) {more : List Token}
    (hmore : more <+: later) :
    ((arrayReader (reader.fold initial combine)).run broken more).2.inner = broken.inner := by
  obtain ⟨rest, rfl⟩ := hmore
  have hstill := Reader.feed_fold_of_failed hlatched.failed
  obtain ⟨reached, hrun⟩ := run_arrayReader_still hstill hlatched.inside
    (staysOpen_append_iff.mp hlatched.stays).1 broken.index
  exact congrArg (fun read => read.2.inner) hrun

end Latched

/-- The first failure between the brackets leaves the fold with its result and the
failure, and the array around it at the depth where it was. -/
theorem latched_of_failed {elements : List Document} {inside later : List Token} {token : Token}
    {values : List β} {failure : Failure}
    {state broken : (arrayReader (reader.fold initial combine)).State}
    (hsplit : elementTokens elements = inside ++ token :: later)
    (hinside : (arrayReader (reader.fold initial combine)).consume
      ⟨(reader.fold initial combine).start, 1, 0⟩ inside = .ok (values, state))
    (hfails : (arrayReader (reader.fold initial combine)).feed state token =
      (.failed failure, broken)) :
    ∃ cause,
      (reader.fold initial combine).consume (reader.fold initial combine).start inside =
        .ok (values, state.inner) ∧
      (reader.fold initial combine).feed state.inner token = (.failed cause, broken.inner) ∧
      broken.inner.result = state.inner.result ∧ Latched broken cause later := by
  have hnested := nested_elementTokens elements
  have hopen : StaysOpen 1 (elementTokens elements) := hnested.staysOpen 0
  have hclosed : trackAll 1 (elementTokens elements) = 1 := hnested.trackAll 1
  rw [hsplit] at hopen hclosed
  obtain ⟨hfront, htoken, hlater⟩ := staysOpen_append_iff.mp hopen
  obtain ⟨hfold, hdepth⟩ := exists_of_consume_arrayReader_inside Nat.one_ne_zero hfront hinside
  have hbetween := hfront.trackAll_ne_zero Nat.one_ne_zero
  rw [trackAll, List.foldl_append, List.foldl_cons] at hclosed
  change trackAll (track (trackAll 1 inside) token) later = 1 at hclosed
  rw [← hdepth] at hbetween htoken hlater hclosed
  obtain ⟨cause, hcause, hbroken⟩ := exists_of_feed_arrayReader_failed hbetween htoken hfails
  obtain ⟨hresult, hfailed⟩ :=
    Reader.keeps_of_feed_fold (Reader.failure_of_consume_fold hfold) hcause
  rw [← hbroken] at htoken hlater hclosed
  exact ⟨cause, hfold, hcause, hresult, hfailed, htoken, hlater, hclosed⟩

end Folds

/-! ## The failure again -/

section Codecs

variable (codec : ReadCodec Token α) (initial : β) (combine : β → α → β)

/-- The result so far of a fold over the elements of an array. -/
def foldedSoFar (state : (codec.fold initial combine).array.reader.State) : β :=
  state.inner.result

/-- The first failure of a fold over an array arises in an element and carries its
index.  Every later token up to the closing bracket is silent and leaves the result
alone, and the closing bracket says the failure again, without the index.  Behind it
the reader answers as a fresh one. -/
theorem fold_repeats_failure (elements : List Document) :
    let reader := (codec.fold initial combine).array.reader
    ∀ {front rest : List Token} {token : Token} {values : List β} {failure : Failure}
      {state broken : reader.State},
      (Document.array elements).tokens = front ++ token :: rest →
      reader.consume reader.start front = .ok (values, state) →
      reader.feed state token = (.failed failure, broken) →
      ∃ (before after : List Document) (element : Document) (part later : List Token)
        (cause : Failure),
        elements = before ++ element :: after ∧
        front = .startArray :: (elementTokens before ++ part) ∧
        element.tokens = part ++ token :: later ∧
        failure = cause.within (indexSegment before.length) ∧
        (reader.run broken rest).1 =
          List.replicate (rest.length - 1) .pending ++ [.failed cause] ∧
        (∀ more, more <+: rest → more ≠ rest →
          foldedSoFar codec initial combine (reader.run broken more).2 =
            foldedSoFar codec initial combine state) ∧
        (Readable codec → ∀ further,
          reader.run (reader.run broken rest).2 further = reader.run reader.start further) := by
  intro reader front rest token values failure state broken htokens hfront hfails
  obtain ⟨inside, behind, rfl, rfl, hsplit, hinside⟩ :=
    exists_split_of_failed htokens hfront hfails
  obtain ⟨cause, hfold, hcause, hresult, hlatched⟩ := latched_of_failed hsplit hinside hfails
  obtain ⟨before, element, after, part, later, rfl, rfl, helement, rfl⟩ :=
    exists_element_of_split hsplit
  have hrun : reader.run broken (later ++ elementTokens after ++ [.endArray]) = _ :=
    hlatched.run_closing
  refine ⟨before, after, element, part, later, cause, rfl, rfl, helement, ?_, ?_, ?_, ?_⟩
  · exact failure_eq_within helement hinside hfails hfold hcause
  · have hlength : (later ++ elementTokens after ++ [Token.endArray]).length - 1 =
        (later ++ elementTokens after).length := by simp
    rw [hlength]
    exact congrArg Prod.fst hrun
  · intro more hmore hne
    have hbefore : more <+: later ++ elementTokens after :=
      (List.prefix_concat_iff.mp hmore).resolve_left hne
    exact (congrArg Reader.Folding.result (hlatched.run_inner hbefore)).trans hresult
  · intro hreadable further
    have hstart := (hreadable.fold initial combine).resets.reader broken.inner
    have hagain : (reader.run broken (later ++ elementTokens after ++ [.endArray])).2 =
        reader.start :=
      (congrArg Prod.snd hrun).trans (congrArg (ArrayState.mk · 0 0) hstart)
    rw [hagain]

end Codecs

/-- Sums of the integers in lists of lists. -/
def totalCodec : ReadCodec Token Int :=
  (Scalar.integer.codec.toReadCodec.array.fold 0 fun total n => total + n.toInt).array

/-- A truth value in the second of three lists, with a number behind it. -/
theorem fold_repeats_failure_nested :
    let reader := totalCodec.reader
    let reached := reader.run reader.start
      [.startArray, .startArray, .number "1", .endArray, .startArray, .number "2"]
    let broken := (reader.feed reached.2 (.bool true)).2
    let rest := [.number "3", .endArray, .startArray, .number "4", .endArray, .endArray]
    let failure (path : Path) : Failure := .located path (.unexpected "(integer)" "true")
    (reader.feed reached.2 (.bool true)).1 = .failed (failure ["[1]", "[1]"]) ∧
      (reader.run broken rest).1 = List.replicate 5 .pending ++ [.failed (failure ["[1]"])] ∧
      reader.run (reader.run broken rest).2 [.startArray, .endArray] =
        reader.run reader.start [.startArray, .endArray] := by
  refine ⟨rfl, ?_⟩
  have hlists : Readable Scalar.integer.codec.toReadCodec.array := .array (.scalar Scalar.integer)
  have htokens : (Document.array [.array [.number "1"],
      .array [.number "2", .bool true, .number "3"], .array [.number "4"]]).tokens =
    [.startArray, .startArray, .number "1", .endArray, .startArray, .number "2"] ++
      .bool true :: [.number "3", .endArray, .startArray, .number "4", .endArray, .endArray] := rfl
  obtain ⟨before, -, -, -, -, cause, -, -, -, hfailure, hrun, -, hfresh⟩ :=
    fold_repeats_failure Scalar.integer.codec.toReadCodec.array 0 (fun total n => total + n.toInt)
      _ htokens rfl rfl
  have hlocated : Failure.located ["[1]", "[1]"] (.unexpected "(integer)" "true") =
      cause.within (indexSegment before.length) := hfailure
  cases cause with
  | incomplete expected => cases hlocated
  | located path why =>
      obtain ⟨hpath, rfl⟩ := Failure.located.inj hlocated
      obtain ⟨-, rfl⟩ := List.cons.inj hpath
      exact ⟨hrun, hfresh hlists _⟩

/-- The failure of the only element carries its index, and the closing bracket says it
again without one. -/
theorem fold_repeats_without_index :
    let sum := Scalar.long.codec.toReadCodec.fold (0 : Int) fun total n => total + n.toInt
    let reader := sum.array.reader
    let failure (path : Path) : Failure := .located path (.unexpected "(long)" "true")
    (reader.run reader.start (Document.array [.bool true]).tokens).1 =
        [.pending, .failed (failure ["[0]"]), .failed (failure [])] ∧
      failure ["[0]"] ≠ failure [] :=
  ⟨rfl, nofun⟩

end Json

end TokenCodec
