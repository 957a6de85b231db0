import TokenCodec.Proofs.TreeDecoding

/-!
# Where reading failed

A failure travels outwards from the machine that noticed it, and every machine
on the way that stands at a member or at an array element puts that place in
front of the path.  Read from the front, the path leads through the document
back to the node that is to blame: the one whose first token was found, or the
object in which a member is missing.
-/

namespace TokenCodec

variable {τ α β : Type}

/-! ## The failure of a composition -/

theorem Slots.error_of_cons {part : PartReader τ α} {rest : Slots τ β} {tokens : List τ}
    {failure : Failure} (herror : (cons part rest).evaluate tokens = .error failure) :
    part.evaluate tokens = .error failure ∨ rest.evaluate tokens = .error failure := by
  rw [evaluate, feed_cons] at herror
  have hwatch := part.follow_watch part.reader.start none tokens
  rcases hround : Watcher.follow (Watcher.inTurn part.watch rest.feed)
      ((part.reader.start, none), rest.start) tokens with earliest | ⟨⟨reached, slot⟩, others⟩
  · cases (congrArg (Except.bind · _) hround).symm.trans herror
    rcases Watcher.error_of_inTurn hround with hfirst | hrest
    · rw [hwatch] at hfirst
      exact .inl (PartReader.evaluate_of_error (Except.error_of_map hfirst))
    · exact .inr (congrArg (Except.bind · _) hrest)
  · obtain ⟨hfirst, hrest⟩ := Watcher.follow_both_of_inTurn hround
    rw [hwatch] at hfirst
    obtain ⟨⟨given, next⟩, hconsume, hread⟩ := Except.exists_of_map hfirst
    obtain ⟨rfl, rfl⟩ := Prod.mk.inj hread
    have hfinish := (congrArg (Except.bind · _) hround).symm.trans herror
    simp only [Except.bind, cons, Option.or_none] at hfinish
    rw [PartReader.evaluate_of_ok hconsume, evaluate, hrest]
    change _ ∨ (rest.finish others).1 = .error failure
    cases hpart : part.conclude given.getLast? (part.reader.reset next).1 with
    | error earliest =>
        rw [hpart] at hfinish
        cases hfinish
        exact .inl rfl
    | ok value =>
        cases hothers : (rest.finish others).1 with
        | error earliest =>
            rw [hpart, hothers] at hfinish
            cases hfinish
            exact .inr rfl
        | ok values =>
            rw [hpart, hothers] at hfinish
            cases hfinish

/-- What the parts of a composition fail with, one of them fails with by
itself. -/
theorem Slots.exists_of_error {parts : Parts (PartReader τ) β} {tokens : List τ}
    {failure : Failure} (herror : (ofParts parts).evaluate tokens = .error failure) :
    ∃ (γ : Type) (part : PartReader τ γ), parts.Mem part ∧
      part.evaluate tokens = .error failure := by
  induction parts with
  | nil => cases (evaluate_nil tokens).symm.trans herror
  | cons first rest ih =>
      rcases error_of_cons herror with hfirst | hrest
      · exact ⟨_, first, Parts.mem_head first rest, hfirst⟩
      · obtain ⟨γ, part, hmem, hpart⟩ := ih hrest
        exact ⟨γ, part, Parts.mem_tail hmem first, hpart⟩

namespace Assembly

/-- A unit that fails with a lone part fails as the part does by itself. -/
theorem error_of_conclude_lone {part : PartReader τ α} {tokens : List τ} {failure : Failure}
    (herror : (lone part).interior.conclude (lone part).interior.start tokens =
      .error failure) : part.evaluate tokens = .error failure := by
  have hinterior := consume_interior_lone part part.reader.start false tokens
  rcases hconsume : part.reader.consume part.reader.start tokens with earlier | ⟨values, next⟩
  · rw [hconsume] at hinterior
    cases (Reader.conclude_of_error hinterior).symm.trans herror
    exact PartReader.evaluate_of_error hconsume
  · rw [hconsume] at hinterior
    have hrelease := (Reader.conclude_of_ok hinterior).symm.trans herror
    replace hrelease := Except.error_of_map hrelease
    cases values with
    | cons value values =>
        -- The unit gave a value before its end, so the end adds nothing.
        have hcomplete : ((lone part).complete (loneState part next true)).1 = .pending := rfl
        cases (Reader.release_of_pending (lone part).interior
          (Prod.ext hcomplete rfl)).symm.trans hrelease
    | nil =>
        rw [PartReader.evaluate_of_ok hconsume]
        change part.conclude none _ = _
        cases hlast : part.conclude none (part.reader.reset next).1 with
        | error late =>
            cases (release_lone_of_error hlast).symm.trans hrelease
            rfl
        | ok value =>
            have hcomplete := complete_lone part next
            rw [hlast] at hcomplete
            cases (Reader.release_of_produced (lone part).interior
              (Prod.ext hcomplete rfl)).symm.trans hrelease

/-- A unit that fails without conditions and holds its values back fails as its
slots do. -/
theorem error_of_conclude_held {parts : Parts (PartReader τ) β} {tokens : List τ}
    {failure : Failure} (hheld : (ofParts parts []).streams = false)
    (herror : (ofParts parts []).interior.conclude (ofParts parts []).interior.start tokens =
      .error failure) : (Slots.ofParts parts).evaluate tokens = .error failure := by
  have hnone : Watcher.follow (Conditions.ofList []).feed (Conditions.ofList []).start tokens =
      .ok () := by
    clear herror
    induction tokens with
    | nil => rfl
    | cons token tokens ih => exact ih
  have hinterior := consume_interior_of_held hheld (ofParts parts []).start tokens
  rcases hround : (Watcher.inTurn (ofParts parts []).slots.feed
      (ofParts parts []).conditions.feed).follow ((ofParts parts []).start.slots,
        (ofParts parts []).start.conditions) tokens with earliest | ⟨reached, others⟩
  · rw [hround] at hinterior
    cases (Reader.conclude_of_error hinterior).symm.trans herror
    rcases Watcher.error_of_inTurn hround with hslots | hconditions
    · exact congrArg (Except.bind · _) hslots
    · cases hnone.symm.trans hconditions
  · rw [hround] at hinterior
    have hrelease := Except.error_of_map ((Reader.conclude_of_ok hinterior).symm.trans herror)
    obtain ⟨hslots, -⟩ := Watcher.follow_both_of_inTurn hround
    refine (congrArg (Except.bind · _) hslots).trans ?_
    change ((Slots.ofParts parts).finish reached).1 = .error failure
    cases hfinish : ((Slots.ofParts parts).finish reached).1 with
    | error late =>
        have hcomplete : ((ofParts parts []).complete ⟨reached, others, false⟩).1 =
            .failed late := by
          simp [complete, ofParts, hfinish]
        cases (Reader.release_of_failed (ofParts parts []).interior
          (Prod.ext hcomplete rfl)).symm.trans hrelease
        rfl
    | ok value =>
        have hcomplete : ((ofParts parts []).complete ⟨reached, others, false⟩).1 =
            .produced value := by
          simp [complete, ofParts, hfinish, Conditions.ofList, Conditions.nil]
        cases (Reader.release_of_produced (ofParts parts []).interior
          (Prod.ext hcomplete rfl)).symm.trans hrelease

/-- A composition without conditions fails as its slots do. -/
theorem error_of_conclude_ofParts {parts : Parts (PartReader τ) β} {tokens : List τ}
    {failure : Failure}
    (herror : (ofParts parts []).interior.conclude (ofParts parts []).interior.start tokens =
      .error failure) : (Slots.ofParts parts).evaluate tokens = .error failure := by
  cases hstreams : (ofParts parts []).streams with
  | false => exact error_of_conclude_held hstreams herror
  | true =>
      simp only [ofParts, Bool.and_eq_true, beq_iff_eq] at hstreams
      cases parts with
      | nil => cases hstreams.1
      | cons part rest =>
          cases rest with
          | cons second others => simp [Parts.size] at hstreams
          | nil =>
              have hpart := error_of_conclude_lone herror
              obtain ⟨earlier, hslots⟩ := Slots.evaluate_cons_of_error part .nil
                (.inl ⟨failure, hpart⟩)
              rcases Slots.error_of_cons hslots with hfirst | hnone
              · cases hpart.symm.trans hfirst
                exact hslots
              · cases (Slots.evaluate_nil tokens).symm.trans hnone

/-- What a composition without conditions fails with, one of its parts fails
with by itself. -/
theorem exists_of_conclude_error {parts : Parts (PartReader τ) β} {tokens : List τ}
    {failure : Failure}
    (herror : (ofParts parts []).interior.conclude (ofParts parts []).interior.start tokens =
      .error failure) :
    ∃ (γ : Type) (part : PartReader τ γ), parts.Mem part ∧
      part.evaluate tokens = .error failure :=
  Slots.exists_of_error (error_of_conclude_ofParts herror)

end Assembly

namespace Json

open Document Alphabet

/-! ## Nodes at a path -/

/-- The nodes of a document that a path leads to.  A segment leads to the members
of that name, or to the element whose index it shows. -/
def Document.nodesAt : Path → Document → List Document
  | [], document => [document]
  | segment :: path, .object members => (occurrences segment members).flatMap (nodesAt path)
  | segment :: path, .array elements =>
      (elements.zipIdx.filter fun element => indexSegment element.2 == segment).flatMap
        fun element => nodesAt path element.1
  | _ :: _, _ => []

/-- A node is to blame for a cause: its first token was found, or it is an object
in which a member is missing.  The readers of documents know no other causes. -/
def Blames (node : Document) : Cause → Prop
  | .unexpected _ found => node.tokens.head?.map Shown.text = some found
  | .missingMember name => ∃ members, node = .object members ∧ name ∉ members.map Prod.fst
  | .missing _ => ∃ members, node = .object members
  | _ => False

/-- A failure has a path that leads to a node of the document to blame for its
cause. -/
def LocatedIn (document : Document) (failure : Failure) : Prop :=
  ∃ path cause, failure = .located path cause ∧
    ∃ node ∈ document.nodesAt path, Blames node cause

theorem LocatedIn.here {document : Document} {cause : Cause} (hblames : Blames document cause) :
    LocatedIn document (.here cause) :=
  ⟨[], cause, rfl, document, List.mem_singleton_self document, hblames⟩

theorem LocatedIn.member {name : String} {members : List (String × Document)}
    {value : Document} (hmem : value ∈ occurrences name members) {failure : Failure}
    (hlocated : LocatedIn value failure) :
    LocatedIn (.object members) (failure.within name) := by
  obtain ⟨path, cause, rfl, node, hnode, hblames⟩ := hlocated
  exact ⟨name :: path, cause, rfl, node, List.mem_flatMap.mpr ⟨value, hmem, hnode⟩, hblames⟩

theorem LocatedIn.element {elements : List Document} {index : Nat} {element : Document}
    (hget : elements[index]? = some element) {failure : Failure}
    (hlocated : LocatedIn element failure) :
    LocatedIn (.array elements) (failure.within (indexSegment index)) := by
  obtain ⟨path, cause, rfl, node, hnode, hblames⟩ := hlocated
  refine ⟨indexSegment index :: path, cause, rfl, node, List.mem_flatMap.mpr ?_, hblames⟩
  refine ⟨(element, index), List.mem_filter.mpr ⟨?_, beq_self_eq_true _⟩, hnode⟩
  exact List.mk_mem_zipIdx_iff_getElem?.mpr hget

/-- The document is no array, or no object, but something else. -/
theorem LocatedIn.unexpected {document : Document} {token : Token}
    (htoken : document.tokens.head? = some token) (expected : String) :
    LocatedIn document (.here (.unexpected expected (Shown.text token))) :=
  .here (by rw [Blames, htoken, Option.map_some])

/-! ## Readers of values -/

/-- The failures of a reader on documents are located in them. -/
def Locates (reader : Reader Token α) : Prop :=
  ∀ document failure, reader.consume reader.start document.tokens = .error failure →
    LocatedIn document failure

theorem locates_scalarReader (expected : String) (parse : Token → Option α) :
    Locates (scalarReader expected parse) := by
  intro document failure herror
  rcases document.tokens_cases with
    ⟨token, htokens, hscalar, -⟩ | ⟨_, _, _, -, -, -, -, hstructure⟩
  · rw [htokens] at herror
    have hflat := Token.nesting_of_isScalar hscalar
    rcases hfeed : (scalarReader expected parse).feed (0 : Nat) token with ⟨_ | _ | found, next⟩
    · cases (Reader.consume_cons_of_produced _ hfeed []).symm.trans herror
    · cases (Reader.consume_cons_of_pending _ hfeed []).symm.trans herror
    · cases (Reader.consume_cons_of_failed _ hfeed []).symm.trans herror
      simp only [scalarReader, hflat, ne_eq, not_true_eq_false, if_false] at hfeed
      split at hfeed
      · cases hfeed
      · cases hparse : parse token <;> rw [hparse] at hfeed <;> cases hfeed
        exact .unexpected (by rw [htokens, List.head?_cons]) expected
  · cases (consume_scalarReader_structure expected parse hstructure).symm.trans herror

/-- The elements of an array are consumed one by one, up to the first that fails.
The index in its failure is the number of elements before it. -/
theorem consume_collect_elements {codec : ReadCodec Token α}
    (hreturns : ∀ document : Document, codec.reader.ReturnsAfter document.tokens)
    (elements : List Document) (store : List α) (index : Nat) :
    (∃ inner last, (arrayReader codec.reader.collect).consume
      ⟨(codec.reader.start, store), 1, index⟩ (elementTokens elements) =
        .ok ([], ⟨inner, 1, last⟩)) ∨
    ∃ offset element failure, elements[offset]? = some element ∧
      codec.reader.consume codec.reader.start element.tokens = .error failure ∧
        (arrayReader codec.reader.collect).consume
          ⟨(codec.reader.start, store), 1, index⟩ (elementTokens elements) =
            .error (failure.within (indexSegment (index + offset))) := by
  induction elements generalizing store index with
  | nil => exact .inl ⟨_, _, rfl⟩
  | cons element rest ih =>
      rw [elementTokens]
      have hcollect := Reader.consume_collect codec.reader codec.reader.start store element.tokens
      have helement : (arrayReader codec.reader.collect).consume
          ⟨(codec.reader.start, store), 1, index⟩ element.tokens = _ :=
        consume_arrayReader_element element _ index
      rw [hcollect] at helement
      rcases hfirst : codec.reader.consume codec.reader.start element.tokens with
        failure | ⟨values, next⟩
      · rw [hfirst] at helement
        exact .inr ⟨0, element, failure, rfl, hfirst, Reader.consume_append_of_error helement _⟩
      · obtain rfl := hreturns element values next hfirst
        rw [hfirst] at helement
        rw [Reader.consume_append_of_ok helement]
        rcases ih (values.reverse ++ store) (index + 1) with
          ⟨inner, last, hrest⟩ | ⟨offset, found, failure, hget, hfailed, hrest⟩
        · exact .inl ⟨inner, last, congrArg (Except.map _) hrest⟩
        · have hindex : index + 1 + offset = index + (offset + 1) := by omega
          rw [hindex] at hrest
          exact .inr ⟨offset + 1, found, failure, hget, hfailed, congrArg (Except.map _) hrest⟩

/-- A list is located by its elements. -/
theorem locates_collect_array {codec : ReadCodec Token α} (hcodec : Locates codec.reader)
    (hreturns : ∀ document : Document, codec.reader.ReturnsAfter document.tokens) :
    Locates codec.collect.array.reader := by
  intro document failure herror
  cases document with
  | array elements =>
      have hopening : (arrayReader codec.reader.collect).feed
          (arrayReader codec.reader.collect).start .startArray =
            (.pending, ⟨(codec.reader.start, []), 1, 0⟩) := rfl
      rw [tokens, List.cons_append] at herror
      replace herror := (Reader.consume_cons_of_pending _ hopening _).symm.trans herror
      rcases consume_collect_elements hreturns elements [] 0 with
        ⟨inner, last, hinside⟩ | ⟨offset, element, inner, hget, hfailed, hinside⟩
      · -- The closing bracket releases the list, which cannot fail.
        rw [Reader.consume_append_of_ok hinside] at herror
        have hclosing := (consume_arrayReader_closing inner last).symm.trans
          (Except.error_of_map herror)
        cases Except.error_of_map hclosing
      · cases (Reader.consume_append_of_error hinside _).symm.trans herror
        rw [Nat.zero_add]
        exact (hcodec element inner hfailed).element hget
  | object members =>
      rw [tokens] at herror
      cases herror
      exact .unexpected (by rw [tokens]; rfl) "start of array"
  | _ =>
      cases herror
      exact .unexpected rfl "start of array"

/-! ## Members -/

/-- The failures of a part of an object are located in the object. -/
def LocatesMembers (part : PartReader Token α) : Prop :=
  ∀ members failure, part.evaluate (memberTokens members) = .error failure →
    LocatedIn (.object members) failure

/-- Of documents read one after the other, one fails by itself. -/
theorem exists_of_documents_error {reader : Reader Token α}
    (hreturns : ∀ document : Document, reader.ReturnsAfter document.tokens)
    {documents : List Document} {failure : Failure}
    (herror : reader.consume reader.start (documents.flatMap tokens) = .error failure) :
    ∃ document ∈ documents, reader.consume reader.start document.tokens = .error failure := by
  induction documents with
  | nil => cases herror
  | cons document rest ih =>
      rw [List.flatMap_cons] at herror
      rcases hfirst : reader.consume reader.start document.tokens with earliest | ⟨values, next⟩
      · cases (Reader.consume_append_of_error hfirst _).symm.trans herror
        exact ⟨document, List.mem_cons_self, hfirst⟩
      · obtain rfl := hreturns document values next hfirst
        rw [Reader.consume_append_of_ok hfirst] at herror
        obtain ⟨other, hother, hfailed⟩ := ih (Except.error_of_map herror)
        exact ⟨other, List.mem_cons_of_mem _ hother, hfailed⟩

section Members

variable {codec : ReadCodec Token α} (name : String) (hcodec : Locates codec.reader)
  (hreturns : ∀ document : Document, codec.reader.ReturnsAfter document.tokens)

include hcodec hreturns in
/-- A value at a name fails within the member. -/
theorem locatedIn_of_member_error {members : List (String × Document)} {failure : Failure}
    (herror : (codec.member name).reader.consume (codec.member name).reader.start
      (memberTokens members) = .error failure) : LocatedIn (.object members) failure := by
  have hmember := (consume_memberReader name codec.reader members codec.reader.start false).symm.trans
    herror
  rcases hvalues : codec.reader.consume codec.reader.start
    ((occurrences name members).flatMap tokens) with inner | read
  · rw [hvalues] at hmember
    cases hmember
    obtain ⟨value, hmem, hfailed⟩ := exists_of_documents_error hreturns hvalues
    exact (hcodec value inner hfailed).member hmem
  · rw [hvalues] at hmember
    cases hmember

include hcodec hreturns in
/-- A required member fails within a value, or because there is none. -/
theorem locates_member : LocatesMembers (codec.member name).part := by
  intro members failure herror
  have hmember := consume_memberReader name codec.reader members codec.reader.start false
  rcases hvalues : codec.reader.consume codec.reader.start
    ((occurrences name members).flatMap tokens) with inner | ⟨values, next⟩
  · rw [hvalues] at hmember
    cases (PartReader.evaluate_of_error hmember).symm.trans herror
    exact locatedIn_of_member_error name hcodec hreturns hmember
  · rw [hvalues] at hmember
    have hlast := (PartReader.evaluate_of_ok hmember).symm.trans herror
    cases hgiven : values.getLast? with
    | some value =>
        rw [hgiven] at hlast
        cases hlast
    | none =>
        rw [hgiven] at hlast
        by_cases hmissing : occurrences name members = []
        · have hnew : name ∉ members.map Prod.fst := by
            intro hmem
            obtain ⟨⟨other, value⟩, hpair, rfl⟩ := List.mem_map.mp hmem
            have hfound : value ∈ occurrences other members :=
              List.mem_map_of_mem (List.mem_filter.mpr ⟨hpair, beq_self_eq_true other⟩)
            rw [hmissing] at hfound
            cases hfound
          have hblames : Blames (.object members) (.missingMember name) := ⟨members, rfl, hnew⟩
          rw [hmissing] at hlast
          rcases hreset : codec.reader.reset next with ⟨value | _ | inner, fresh⟩ <;>
            simp [PartReader.conclude, ReadCodec.part, ReadCodec.member, memberReader, hreset]
              at hlast <;>
            cases hlast <;> exact .here hblames
        · have hfound : (!(occurrences name members).isEmpty) = true := by simpa using hmissing
          rw [Bool.false_or, hfound] at hlast
          cases hlast
          exact .here ⟨members, rfl⟩

include hcodec hreturns in
/-- An optional member fails within a value only. -/
theorem locates_optional : LocatesMembers (codec.member name).optional.part := by
  intro members failure herror
  have hoptional := Reader.consume_optional (codec.member name).reader
    (codec.member name).reader.start false (memberTokens members)
  rcases hconsume : (codec.member name).reader.consume (codec.member name).reader.start
    (memberTokens members) with inner | ⟨values, next⟩
  · rw [hconsume] at hoptional
    cases (PartReader.evaluate_of_error hoptional).symm.trans herror
    exact locatedIn_of_member_error name hcodec hreturns hconsume
  · rw [hconsume] at hoptional
    have hlast := (PartReader.evaluate_of_ok hoptional).symm.trans herror
    cases values with
    | nil => cases hlast
    | cons value values =>
        rw [List.map_cons, List.getLast?_cons] at hlast
        cases hlast

end Members

/-- An object is located by its parts. -/
theorem locates_object {parts : Parts (ReadCodec Token) β}
    (hparts : ∀ {γ : Type} {codec : ReadCodec Token γ}, parts.Mem codec →
      LocatesMembers codec.part) :
    Locates (ReadCodec.object parts).reader := by
  intro document failure herror
  cases document with
  | object members =>
      have hobject := consume_objectReader
        (Assembly.ofParts (parts.mapParts ReadCodec.part) []) members
      have hconclude := Except.error_of_map (hobject.symm.trans herror)
      obtain ⟨γ, part, hmem, hfailed⟩ := Assembly.exists_of_conclude_error hconclude
      obtain ⟨codec, hcodec, rfl⟩ := Parts.exists_of_mem_mapParts hmem
      exact hparts hcodec members failure hfailed
  | array elements =>
      rw [tokens] at herror
      cases herror
      exact .unexpected (by rw [tokens]; rfl) "start of object"
  | _ =>
      cases herror
      exact .unexpected rfl "start of object"

/-! ## Shapes -/

mutual

theorem Shape.locates : ∀ {α : Type} (shape : Shape α), Locates shape.codec.reader
  | _, .scalar _ => locates_scalarReader _ _
  | _, .list element => locates_collect_array element.locates element.unitwise.returns
  | _, .object members produce => by
      intro document failure herror
      have hmap := (Reader.consume_map (ReadCodec.object members.parts).reader produce _ _).symm.trans
        herror
      exact locates_object members.locates document failure (Except.error_of_map hmap)

theorem Members.locates : ∀ {β : Type} (members : Members β) {γ : Type}
    {codec : ReadCodec Token γ}, members.parts.Mem codec → LocatesMembers codec.part
  | _, .nil, _, _, hmem => hmem.elim
  | _, .required name shape rest, _, _, hmem => by
      rcases hmem with hfirst | hrest
      · cases hfirst
        exact locates_member name shape.locates shape.unitwise.returns
      · exact rest.locates hrest
  | _, .optional name shape rest, _, _, hmem => by
      rcases hmem with hfirst | hrest
      · cases hfirst
        exact locates_optional name shape.locates shape.unitwise.returns
      · exact rest.locates hrest

end

/-- A failure to read a document has a path through the document, and the path
leads to a node that is to blame for it. -/
theorem locatedIn_of_readAll_error (shape : Shape α) (document : Document) {failure : Failure}
    (herror : shape.codec.readAll document.tokens = .error failure) :
    LocatedIn document failure := by
  rcases hconsume : shape.codec.reader.consume shape.codec.reader.start document.tokens with
    earliest | ⟨values, next⟩
  · cases (ReadCodec.readAll_of_error hconsume).symm.trans herror
    exact shape.locates document failure hconsume
  · have hclosed := document.nested_tokens.trackAll 0
    cases (ReadCodec.readAll_of_consume hconsume hclosed).symm.trans herror

/-- Elements that are null or passed over count for the index of a later one. -/
theorem locatedIn_of_readAll_error_later :
    let entry : Shape (List String × Unit) :=
      .object (.required "tags" (.list (.scalar .string)) .nil) id
    let shape : Shape (List (List String × Unit) × Unit) :=
      .object (.required "entries" (.list entry) .nil) id
    let document : Document := .object [("other", .array []), ("entries", .array [
      .object [("tags", .array [])],
      .object [("tags", .array [.string "a", .null, .array [.string "b"], .bool true])]])]
    let failure : Failure :=
      .located ["entries", "[1]", "tags", "[3]"] (.unexpected "(string)" "true")
    shape.codec.readAll document.tokens = .error failure ∧ LocatedIn document failure := by
  intro entry shape document failure
  have hread : shape.codec.readAll document.tokens = .error failure := by
    subst failure document shape entry
    rfl
  exact ⟨hread, locatedIn_of_readAll_error shape document hread⟩

end Json

end TokenCodec
