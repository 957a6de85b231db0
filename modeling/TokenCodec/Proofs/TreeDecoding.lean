import TokenCodec.Proofs.Shapes
import TokenCodec.Proofs.Units

/-!
# Reading is decoding the tree

The readers of shapes are flat machines: every part of an object sees every
token, a depth tells which tokens are whose, and a lone part gives its value
before the object ends.  What they make of the tokens of a document is what the
recursive decoder makes of its tree.  The one exception is an object with a lone
member whose name is repeated, since the value is gone when the second one
comes.
-/

namespace TokenCodec

open Json Json.Document

variable {α β : Type}

namespace Reader

/-- What a reader makes of a document agrees with a decoding: the value alone,
nothing, or a failure. -/
def Follows (reader : Reader Token α) (document : Document) : Decoded α → Prop
  | .value v => reader.consume reader.start document.tokens = .ok ([v], reader.start)
  | .absent => reader.consume reader.start document.tokens = .ok ([], reader.start)
  | .fails => ∃ failure, reader.consume reader.start document.tokens = .error failure

theorem Follows.map {reader : Reader Token α} {document : Document} {decoded : Decoded α}
    (hfollows : reader.Follows document decoded) (f : α → β) :
    (reader.map f).Follows document (decoded.map f) := by
  have hmap := consume_map reader f reader.start document.tokens
  cases decoded with
  | value v =>
      rw [show reader.consume _ _ = _ from hfollows] at hmap
      exact hmap
  | absent =>
      rw [show reader.consume _ _ = _ from hfollows] at hmap
      exact hmap
  | fails =>
      obtain ⟨failure, hfailed⟩ := hfollows
      rw [hfailed] at hmap
      exact ⟨failure, hmap⟩

variable {reader : Reader Token α} {decode : Document → Decoded α} {documents : List Document}

/-- One after the other, documents that decode give their values. -/
theorem consume_documents_of_values
    (hfollows : ∀ document ∈ documents, reader.Follows document (decode document))
    {values : List α} (hvalues : Decoded.values (documents.map decode) = some values) :
    reader.consume reader.start (documents.flatMap tokens) = .ok (values, reader.start) := by
  induction documents generalizing values with
  | nil =>
      cases hvalues
      rfl
  | cons document documents ih =>
      have hfirst := hfollows document List.mem_cons_self
      have hrest := fun other hmem => hfollows other (List.mem_cons_of_mem _ hmem)
      rw [List.map_cons] at hvalues
      rw [List.flatMap_cons]
      cases hdecode : decode document with
      | value v =>
          rw [hdecode] at hfirst hvalues
          obtain ⟨others, hothers, rfl⟩ := Option.map_eq_some_iff.mp hvalues
          exact consume_append_ok hfirst (ih hrest hothers)
      | absent =>
          rw [hdecode] at hfirst hvalues
          exact consume_append_ok hfirst (ih hrest hvalues)
      | fails =>
          rw [hdecode] at hvalues
          cases hvalues

/-- One document that does not decode makes the reader fail. -/
theorem consume_documents_of_fails
    (hfollows : ∀ document ∈ documents, reader.Follows document (decode document))
    (hvalues : Decoded.values (documents.map decode) = none) :
    ∃ failure, reader.consume reader.start (documents.flatMap tokens) = .error failure := by
  induction documents with
  | nil => cases hvalues
  | cons document documents ih =>
      have hfirst := hfollows document List.mem_cons_self
      have hrest := fun other hmem => hfollows other (List.mem_cons_of_mem _ hmem)
      rw [List.map_cons] at hvalues
      rw [List.flatMap_cons]
      cases hdecode : decode document with
      | value v =>
          rw [hdecode] at hfirst hvalues
          obtain ⟨failure, hfailed⟩ := ih hrest (Option.map_eq_none_iff.mp hvalues)
          rw [consume_append_of_ok hfirst, hfailed]
          exact ⟨failure, rfl⟩
      | absent =>
          rw [hdecode] at hfirst hvalues
          obtain ⟨failure, hfailed⟩ := ih hrest hvalues
          rw [consume_append_of_ok hfirst, hfailed]
          exact ⟨failure, rfl⟩
      | fails =>
          rw [hdecode] at hfirst
          obtain ⟨failure, hfailed⟩ := hfirst
          exact ⟨failure, consume_append_of_error hfailed _⟩

end Reader

namespace Json

/-! ## Scalars and lists -/

theorem follows_scalar (scalar : Scalar α) (document : Document) :
    scalar.codec.reader.Follows document (scalar.decode document) := by
  have hstructure (hdocument : document.isStructure = true) :
      scalar.codec.reader.Follows document .absent :=
    consume_scalarReader_structure _ scalar.parse hdocument
  have htoken (token : Token) (htokens : document.tokens = [token])
      (hflat : token.nesting = .flat) (hnull : token ≠ .null) :
      scalar.codec.reader.Follows document (.ofParsed (scalar.parse token)) := by
    cases hparse : scalar.parse token with
    | some v =>
        have hfeed : scalar.codec.reader.feed (0 : Nat) token = (.produced v, (0 : Nat)) := by
          simp [Scalar.codec, scalarReader, hflat, hnull, hparse]
        change scalar.codec.reader.consume _ document.tokens = _
        rw [htokens]
        exact Reader.consume_cons_of_produced _ hfeed []
    | none =>
        have hfeed : (scalar.codec.reader.feed (0 : Nat) token).1 =
            .failed (.here (.unexpected ("(" ++ scalar.kind ++ ")") (Shown.text token))) := by
          simp [Scalar.codec, scalarReader, hflat, hnull, hparse]
        have hfailed := Reader.consume_cons_of_failed _ (Prod.ext hfeed rfl) []
        rw [← htokens] at hfailed
        exact ⟨_, hfailed⟩
  cases document with
  | null => rfl
  | bool value => exact htoken (.bool value) rfl rfl (by simp)
  | number text => exact htoken (.number text) rfl rfl (by simp)
  | string text => exact htoken (.string text) rfl rfl (by simp)
  | array elements => exact hstructure rfl
  | object members => exact hstructure rfl

/-- The values of the elements are the list of an array. -/
theorem follows_array_of_consume {codec : ReadCodec Token α} (hresets : codec.reader.Resets)
    {elements : List Document} {values : List α}
    (hconsume : codec.reader.consume codec.reader.start (elements.flatMap tokens) =
      .ok (values, codec.reader.start)) :
    codec.collect.array.reader.Follows (.array elements) (.value values) := by
  rw [← elementTokens_eq_flatMap] at hconsume
  have harray := consume_arrayReader_of_ok (Reader.conclude_collect_of_ok hconsume)
  rw [hresets.discard_eq] at harray
  exact harray

/-- The list of an array fails with any of its elements. -/
theorem follows_list {codec : ReadCodec Token α} (hresets : codec.reader.Resets)
    {decode : Document → Decoded α} {elements : List Document}
    (hfollows : ∀ element ∈ elements, codec.reader.Follows element (decode element)) :
    codec.collect.array.reader.Follows (.array elements)
      (match Decoded.values (elements.map decode) with
        | some values => .value values
        | none => .fails) := by
  cases hvalues : Decoded.values (elements.map decode) with
  | some values =>
      exact follows_array_of_consume hresets
        (Reader.consume_documents_of_values hfollows hvalues)
  | none =>
      obtain ⟨failure, hfailed⟩ := Reader.consume_documents_of_fails hfollows hvalues
      rw [← elementTokens_eq_flatMap] at hfailed
      exact consume_arrayReader_of_error (Reader.conclude_collect_of_error hfailed)

/-! ## Members -/

section Members

variable {name : String} {codec : ReadCodec Token α} {decode : Document → Decoded α}
  {given : List (String × Document)}

theorem consume_member_of_values
    (hfollows : ∀ value ∈ occurrences name given, codec.reader.Follows value (decode value))
    {values : List α}
    (hvalues : Decoded.values ((occurrences name given).map decode) = some values) :
    (codec.member name).reader.consume (codec.member name).reader.start (memberTokens given) =
      .ok (values, ⟨codec.reader.start, .between 0, !(occurrences name given).isEmpty⟩) := by
  have hmember := consume_memberReader name codec.reader given codec.reader.start false
  rw [Reader.consume_documents_of_values hfollows hvalues] at hmember
  exact hmember

theorem consume_member_of_fails
    (hfollows : ∀ value ∈ occurrences name given, codec.reader.Follows value (decode value))
    (hvalues : Decoded.values ((occurrences name given).map decode) = none) :
    ∃ failure, (codec.member name).reader.consume (codec.member name).reader.start
      (memberTokens given) = .error failure := by
  have hmember := consume_memberReader name codec.reader given codec.reader.start false
  obtain ⟨failure, hfailed⟩ := Reader.consume_documents_of_fails hfollows hvalues
  rw [hfailed] at hmember
  exact ⟨_, hmember⟩

/-- A member gives its last value. -/
theorem evaluate_member_of_last
    (hfollows : ∀ value ∈ occurrences name given, codec.reader.Follows value (decode value))
    {values : List α} {last : α}
    (hvalues : Decoded.values ((occurrences name given).map decode) = some values)
    (hlast : values.getLast? = some last) :
    (codec.member name).part.evaluate (memberTokens given) = .ok last := by
  have hconsume := consume_member_of_values hfollows hvalues
  refine (PartReader.evaluate_of_ok hconsume).trans ?_
  rw [hlast]
  rfl

/-- A member that does not occur gives what its reader releases. -/
theorem evaluate_member_of_missing (hmissing : occurrences name given = []) :
    (codec.member name).part.evaluate (memberTokens given) =
      match (codec.reader.reset codec.reader.start).1 with
      | .produced v => .ok v
      | _ => .error (.here (.missingMember name)) := by
  have hconsume := consume_memberReader name codec.reader given codec.reader.start false
  rw [hmissing] at hconsume
  refine (PartReader.evaluate_of_ok hconsume).trans ?_
  rcases hreset : codec.reader.reset codec.reader.start with ⟨value | _ | failure, next⟩ <;>
    simp [PartReader.conclude, ReadCodec.part, ReadCodec.member, memberReader, hreset]

/-- A member that occurs without a value fails. -/
theorem evaluate_member_of_absent
    (hfollows : ∀ value ∈ occurrences name given, codec.reader.Follows value (decode value))
    (hvalues : Decoded.values ((occurrences name given).map decode) = some [])
    (hfound : occurrences name given ≠ []) :
    ∃ failure, (codec.member name).part.evaluate (memberTokens given) = .error failure := by
  have hconsume := consume_member_of_values hfollows hvalues
  have hstate : (!(occurrences name given).isEmpty) = true := by
    simpa using hfound
  rw [hstate] at hconsume
  exact ⟨.here (.missing (codec.member name).description),
    (PartReader.evaluate_of_ok hconsume).trans rfl⟩

/-- An optional member is never missing. -/
theorem evaluate_optional_of_values
    (hfollows : ∀ value ∈ occurrences name given, codec.reader.Follows value (decode value))
    {values : List α}
    (hvalues : Decoded.values ((occurrences name given).map decode) = some values) :
    (codec.member name).optional.part.evaluate (memberTokens given) = .ok values.getLast? := by
  have hoptional := Reader.consume_optional (codec.member name).reader
    (codec.member name).reader.start false (memberTokens given)
  rw [consume_member_of_values hfollows hvalues] at hoptional
  refine (PartReader.evaluate_of_ok hoptional).trans ?_
  cases hlast : values.getLast? with
  | some last =>
      rw [List.getLast?_map, hlast]
      rfl
  | none =>
      rw [List.getLast?_eq_none_iff.mp hlast]
      rfl

theorem evaluate_member_of_fails
    (hfollows : ∀ value ∈ occurrences name given, codec.reader.Follows value (decode value))
    (hvalues : Decoded.values ((occurrences name given).map decode) = none) :
    ∃ failure, (codec.member name).part.evaluate (memberTokens given) = .error failure := by
  obtain ⟨failure, hfailed⟩ := consume_member_of_fails hfollows hvalues
  exact ⟨failure, PartReader.evaluate_of_error hfailed⟩

theorem evaluate_optional_of_fails
    (hfollows : ∀ value ∈ occurrences name given, codec.reader.Follows value (decode value))
    (hvalues : Decoded.values ((occurrences name given).map decode) = none) :
    ∃ failure, (codec.member name).optional.part.evaluate (memberTokens given) =
      .error failure := by
  obtain ⟨failure, hfailed⟩ := consume_member_of_fails hfollows hvalues
  have hoptional := Reader.consume_optional (codec.member name).reader
    (codec.member name).reader.start false (memberTokens given)
  rw [hfailed] at hoptional
  exact ⟨failure, PartReader.evaluate_of_error hoptional⟩

/-- A name that is not repeated brings no more than one value. -/
theorem atMostOnce_member
    (hfollows : ∀ value ∈ occurrences name given, codec.reader.Follows value (decode value))
    (honce : (occurrences name given).length ≤ 1) :
    (codec.member name).part.AtMostOnce (memberTokens given) ∧
      (codec.member name).optional.part.AtMostOnce (memberTokens given) := by
  have hoptional := Reader.consume_optional (codec.member name).reader
    (codec.member name).reader.start false (memberTokens given)
  cases hvalues : Decoded.values ((occurrences name given).map decode) with
  | none =>
      obtain ⟨failure, hfailed⟩ := consume_member_of_fails hfollows hvalues
      rw [hfailed] at hoptional
      exact ⟨.of_error hfailed, .of_error hoptional⟩
  | some found =>
      have hmember := consume_member_of_values hfollows hvalues
      have hlength : found.length ≤ 1 := by
        have hfound := Decoded.length_le_of_values hvalues
        rw [List.length_map] at hfound
        exact Nat.le_trans hfound honce
      rw [hmember] at hoptional
      constructor
      · exact .of_consume hmember hlength
      · apply PartReader.AtMostOnce.of_consume hoptional
        rwa [List.length_map]

end Members

/-! ## Shapes -/

mutual

theorem Shape.readable : ∀ {α : Type} (shape : Shape α), Readable shape.codec
  | _, .scalar scalar => .scalar scalar
  | _, .list element => .array (.collect element.readable)
  | _, .object members produce => .map (.object members.readable (List.forall_mem_nil _))
      produce

theorem Members.readable : ∀ {β : Type} (members : Members β) {γ : Type}
    {codec : ReadCodec Token γ}, members.parts.Mem codec → Readable codec
  | _, .nil, _, _, hmem => hmem.elim
  | _, .required name shape rest, _, _, hmem => by
      rcases hmem with hfirst | hrest
      · cases hfirst
        exact .member name shape.readable
      · exact rest.readable hrest
  | _, .optional name shape rest, _, _, hmem => by
      rcases hmem with hfirst | hrest
      · cases hfirst
        exact .optional (.member name shape.readable)
      · exact rest.readable hrest

end

theorem Members.size_parts : ∀ {β : Type} (members : Members β),
    members.parts.size = members.size
  | _, .nil => rfl
  | _, .required _ _ rest => congrArg (· + 1) rest.size_parts
  | _, .optional _ _ rest => congrArg (· + 1) rest.size_parts

/-- What a shape gives when it is missing is what its reader releases at a
reset. -/
theorem Shape.reset_start (shape : Shape α) :
    (shape.codec.reader.reset shape.codec.reader.start).1.value? = shape.missing? := by
  cases shape <;> rfl

theorem Shape.decode_ne_absent {shape : Shape α} {fallback : α}
    (hmissing : shape.missing? = some fallback) (document : Document) :
    shape.decode document ≠ .absent := by
  cases shape with
  | scalar scalar => cases hmissing
  | object members produce => cases hmissing
  | list element =>
      cases document with
      | array elements =>
          rw [Shape.decode]
          split <;> exact nofun
      | _ => exact nofun

/-- A shape that has a value when it is missing decodes to one or fails. -/
theorem Shape.values_ne_nil {shape : Shape α} {fallback : α}
    (hmissing : shape.missing? = some fallback) {documents : List Document}
    (hne : documents ≠ []) : Decoded.values (documents.map shape.decode) ≠ some [] := by
  cases documents with
  | nil => exact absurd rfl hne
  | cons document documents =>
      rw [List.map_cons]
      cases hdecode : shape.decode document with
      | value v => simp [Decoded.values]
      | absent => exact absurd hdecode (shape.decode_ne_absent hmissing document)
      | fails => simp [Decoded.values]

/-- What the parts of an object shape make of the members of an object agrees
with their decoding. -/
structure Members.Follows (members : Members β) (given : List (String × Document)) : Prop where
  value : ∀ {values}, members.decode given = some values →
    (Slots.ofParts (members.parts.mapParts ReadCodec.part)).evaluate (memberTokens given) =
      .ok values
  fails : members.decode given = none → ∃ failure,
    (Slots.ofParts (members.parts.mapParts ReadCodec.part)).evaluate (memberTokens given) =
      .error failure
  once : (given.map Prod.fst).Nodup → ∀ {γ : Type} {part : PartReader Token γ},
    (members.parts.mapParts ReadCodec.part).Mem part → part.AtMostOnce (memberTokens given)

/-- A name that is not repeated occurs once at most. -/
theorem length_occurrences_le {given : List (String × Document)}
    (hdistinct : (given.map Prod.fst).Nodup) (name : String) :
    (occurrences name given).length ≤ 1 := by
  have hcount : (occurrences name given).length = (given.map Prod.fst).count name := by
    rw [occurrences, List.length_map, List.count, List.countP_map, List.countP_eq_length_filter]
    rfl
  rw [hcount]
  exact List.nodup_iff_count.mp hdistinct name

section Members

variable {name : String} {shape : Shape α} {rest : Members β}
  {given : List (String × Document)}

/-- A required member gives its last value, or else that of a missing one. -/
theorem evaluate_required_of_some
    (hshape : ∀ value ∈ occurrences name given,
      shape.codec.reader.Follows value (shape.decode value))
    {values : List α} {chosen : α}
    (hvalues : Decoded.values ((occurrences name given).map shape.decode) = some values)
    (hchosen : values.getLast?.or shape.missing? = some chosen) :
    (shape.codec.member name).part.evaluate (memberTokens given) = .ok chosen := by
  cases hlast : values.getLast? with
  | some last =>
      rw [hlast] at hchosen
      cases hchosen
      exact evaluate_member_of_last hshape hvalues hlast
  | none =>
      rw [hlast, Option.none_or] at hchosen
      rw [List.getLast?_eq_none_iff.mp hlast] at hvalues
      have hmissing : occurrences name given = [] :=
        Classical.byContradiction fun hne => shape.values_ne_nil hchosen hne hvalues
      have hreset := shape.reset_start
      rw [hchosen] at hreset
      rw [evaluate_member_of_missing hmissing]
      cases houtcome : (shape.codec.reader.reset shape.codec.reader.start).1 <;>
        simp_all [Outcome.value?]

/-- A required member without a value fails, whether it occurs or not. -/
theorem evaluate_required_of_none
    (hshape : ∀ value ∈ occurrences name given,
      shape.codec.reader.Follows value (shape.decode value))
    {values : List α}
    (hvalues : Decoded.values ((occurrences name given).map shape.decode) = some values)
    (hchosen : values.getLast?.or shape.missing? = none) :
    ∃ failure, (shape.codec.member name).part.evaluate (memberTokens given) =
      .error failure := by
  obtain ⟨hlast, hnothing⟩ := Option.or_eq_none_iff.mp hchosen
  rw [List.getLast?_eq_none_iff.mp hlast] at hvalues
  by_cases hmissing : occurrences name given = []
  · have hreset := shape.reset_start
    rw [hnothing] at hreset
    rw [evaluate_member_of_missing hmissing]
    cases houtcome : (shape.codec.reader.reset shape.codec.reader.start).1 <;>
      simp_all [Outcome.value?]
  · exact evaluate_member_of_absent hshape hvalues hmissing

theorem follows_required
    (hshape : ∀ value ∈ occurrences name given,
      shape.codec.reader.Follows value (shape.decode value))
    (hrest : rest.Follows given) : (Members.required name shape rest).Follows given where
  value {values} hdecode := by
    rw [Members.decode] at hdecode
    cases hvalues : Decoded.values ((occurrences name given).map shape.decode) with
    | none => simp [hvalues] at hdecode
    | some found =>
        cases hothers : rest.decode given with
        | none => simp [hvalues, hothers] at hdecode
        | some others =>
            simp only [hvalues, hothers] at hdecode
            obtain ⟨chosen, hchosen, rfl⟩ := Option.map_eq_some_iff.mp hdecode
            exact Slots.evaluate_cons_of_ok (evaluate_required_of_some hshape hvalues hchosen)
              (hrest.value hothers)
  fails hdecode := by
    rw [Members.decode] at hdecode
    apply Slots.evaluate_cons_of_error
    cases hvalues : Decoded.values ((occurrences name given).map shape.decode) with
    | none => exact .inl (evaluate_member_of_fails hshape hvalues)
    | some found =>
        cases hothers : rest.decode given with
        | none => exact .inr (hrest.fails hothers)
        | some others =>
            simp only [hvalues, hothers] at hdecode
            exact .inl (evaluate_required_of_none hshape hvalues
              (Option.map_eq_none_iff.mp hdecode))
  once hdistinct γ part hmem := by
    rcases hmem with hfirst | hothers
    · cases hfirst
      exact (atMostOnce_member hshape (length_occurrences_le hdistinct name)).1
    · exact hrest.once hdistinct hothers

theorem follows_optional
    (hshape : ∀ value ∈ occurrences name given,
      shape.codec.reader.Follows value (shape.decode value))
    (hrest : rest.Follows given) : (Members.optional name shape rest).Follows given where
  value {values} hdecode := by
    rw [Members.decode] at hdecode
    cases hvalues : Decoded.values ((occurrences name given).map shape.decode) with
    | none => simp [hvalues] at hdecode
    | some found =>
        cases hothers : rest.decode given with
        | none => simp [hvalues, hothers] at hdecode
        | some others =>
            simp only [hvalues, hothers] at hdecode
            cases hdecode
            exact Slots.evaluate_cons_of_ok (evaluate_optional_of_values hshape hvalues)
              (hrest.value hothers)
  fails hdecode := by
    rw [Members.decode] at hdecode
    apply Slots.evaluate_cons_of_error
    cases hvalues : Decoded.values ((occurrences name given).map shape.decode) with
    | none => exact .inl (evaluate_optional_of_fails hshape hvalues)
    | some found =>
        cases hothers : rest.decode given with
        | none => exact .inr (hrest.fails hothers)
        | some others => simp [hvalues, hothers] at hdecode
  once hdistinct γ part hmem := by
    rcases hmem with hfirst | hothers
    · cases hfirst
      exact (atMostOnce_member hshape (length_occurrences_le hdistinct name)).2
    · exact hrest.once hdistinct hothers

end Members

/-- An object gives the value that its assembly concludes from the members. -/
theorem follows_object_of_conclude {assembly : Assembly Token β}
    {given : List (String × Document)} {values : β}
    (hconclude : assembly.interior.conclude assembly.interior.start (memberTokens given) =
      .ok ([values], assembly.interior.start)) :
    (objectReader assembly).Follows (.object given) (.value values) := by
  have hobject := consume_objectReader assembly given
  rw [hconclude] at hobject
  exact hobject

/-- An object follows its members.  Only a lone member needs names that are not
repeated. -/
theorem follows_object {members : Members β} {given : List (String × Document)}
    (hmembers : members.Follows given)
    (hlone : members.size = 1 → (given.map Prod.fst).Nodup) (produce : β → α) :
    (Shape.object members produce).codec.reader.Follows (.object given)
      ((Shape.object members produce).decode (.object given)) := by
  have hresets : (Assembly.ofParts (members.parts.mapParts ReadCodec.part) []).Resets := by
    apply Assembly.Resets.ofParts
    · exact resets_partReaders fun hmem => (members.readable hmem).resets
    · exact List.forall_mem_nil _
  have honce : (members.parts.mapParts ReadCodec.part).size = 1 →
      ∀ {γ : Type} {part : PartReader Token γ},
        (members.parts.mapParts ReadCodec.part).Mem part →
          part.AtMostOnce (memberTokens given) := by
    intro hsize
    rw [Parts.size_mapParts, members.size_parts] at hsize
    exact hmembers.once (hlone hsize)
  rw [Shape.decode]
  cases hdecode : members.decode given with
  | some values =>
      have hfollows : (ReadCodec.object members.parts).reader.Follows (.object given)
          (.value values) :=
        follows_object_of_conclude (Assembly.conclude_ofParts_of_ok hresets honce
          (hmembers.value hdecode) (List.forall_mem_nil _))
      exact hfollows.map produce
  | none =>
      obtain ⟨failure, hslots⟩ := hmembers.fails hdecode
      obtain ⟨failed, hfailed⟩ := Assembly.conclude_ofParts_of_error hslots
      have hobject := consume_objectReader
        (Assembly.ofParts (members.parts.mapParts ReadCodec.part) []) given
      rw [hfailed] at hobject
      have hfollows : (ReadCodec.object members.parts).reader.Follows (.object given) .fails :=
        ⟨failed, hobject⟩
      exact hfollows.map produce

/-! ## Documents -/

theorem Document.AllDistinct.of_mem {elements : List Document}
    (hdistinct : Document.AllDistinct elements) :
    ∀ element ∈ elements, element.Distinct := by
  induction elements with
  | nil => exact List.forall_mem_nil _
  | cons element rest ih => exact List.forall_mem_cons.mpr ⟨hdistinct.1, ih hdistinct.2⟩

theorem Document.MembersDistinct.of_mem {members : List (String × Document)}
    (hdistinct : Document.MembersDistinct members) {name : String} :
    ∀ value ∈ occurrences name members, value.Distinct := by
  intro value hmem
  obtain ⟨member, hmember, rfl⟩ := List.mem_map.mp hmem
  have hin := (List.mem_filter.mp hmember).1
  clear hmem hmember
  induction members with
  | nil => cases hin
  | cons first rest ih =>
      rcases List.mem_cons.mp hin with rfl | hrest
      · exact hdistinct.1
      · exact ih hdistinct.2 hrest

mutual

theorem Shape.follows : ∀ {α : Type} (shape : Shape α) (document : Document),
    shape.Wide ∨ document.Distinct →
      shape.codec.reader.Follows document (shape.decode document)
  | _, .scalar scalar, document, _ => follows_scalar scalar document
  | _, .list element, document, hrepeats => by
      by_cases harray : ∃ elements, document = .array elements
      · obtain ⟨elements, rfl⟩ := harray
        have helements : ∀ inner ∈ elements,
            element.codec.reader.Follows inner (element.decode inner) := by
          intro inner hmem
          exact element.follows inner
            (hrepeats.imp_right fun hdistinct => hdistinct.of_mem inner hmem)
        exact follows_list element.readable.resets.reader helements
      · have hfails : (Shape.list element).decode document = .fails := by
          cases document with
          | array elements => exact absurd ⟨elements, rfl⟩ harray
          | _ => rfl
        rw [hfails]
        exact consume_arrayReader_of_not_array fun elements heq => harray ⟨elements, heq⟩
  | _, .object members produce, document, hrepeats => by
      by_cases hobject : ∃ given, document = .object given
      · obtain ⟨given, rfl⟩ := hobject
        have hmembers := members.follows given
          (hrepeats.imp (fun hwide => hwide.2) fun hdistinct => hdistinct.2)
        refine follows_object hmembers (fun hsize => ?_) produce
        rcases hrepeats with hwide | hdistinct
        · exact absurd hsize hwide.1
        · exact hdistinct.1
      · have hfails : (Shape.object members produce).decode document = .fails := by
          cases document with
          | object given => exact absurd ⟨given, rfl⟩ hobject
          | _ => rfl
        obtain ⟨failure, hfailed⟩ : ∃ failure,
            (ReadCodec.object members.parts).reader.consume _ document.tokens =
              .error failure :=
          consume_objectReader_of_not_object (fun given heq => hobject ⟨given, heq⟩) _
        have hfollows : (ReadCodec.object members.parts).reader.Follows document .fails :=
          ⟨failure, hfailed⟩
        rw [hfails]
        exact hfollows.map produce

theorem Members.follows : ∀ {β : Type} (members : Members β)
    (given : List (String × Document)), members.Wide ∨ Document.MembersDistinct given →
      members.Follows given
  | _, .nil, given, _ => by
      constructor
      · intro values hdecode
        cases hdecode
        exact Slots.evaluate_nil _
      · exact nofun
      · intro _ γ part hmem
        exact hmem.elim
  | _, .required name shape rest, given, hrepeats => by
      apply follows_required
      · intro value hmem
        exact shape.follows value
          (hrepeats.imp (fun hwide => hwide.1) fun hdistinct => hdistinct.of_mem value hmem)
      · exact rest.follows given (hrepeats.imp_left fun hwide => hwide.2)
  | _, .optional name shape rest, given, hrepeats => by
      apply follows_optional
      · intro value hmem
        exact shape.follows value
          (hrepeats.imp (fun hwide => hwide.1) fun hdistinct => hdistinct.of_mem value hmem)
      · exact rest.follows given (hrepeats.imp_left fun hwide => hwide.2)

end

theorem Shape.unitwise (shape : Shape α) : shape.codec.reader.Unitwise := by
  cases shape with
  | scalar scalar => exact .scalar _ scalar.parse
  | list element =>
      apply Reader.Unitwise.array
      · exact element.readable.resets.reader.collect
      · exact fun _ => rfl
  | object members produce =>
      apply Reader.Unitwise.map
      apply Reader.Unitwise.object
      apply Assembly.Resets.ofParts
      · exact resets_partReaders fun hmem => (members.readable hmem).resets
      · exact List.forall_mem_nil _

/-- Reading the tokens of a document is decoding its tree, unless an object with
a lone member meets a name that is repeated. -/
theorem readAll_iff_decode (shape : Shape α) (document : Document)
    (hrepeats : shape.Wide ∨ document.Distinct) :
    (∀ v, shape.codec.readAll document.tokens = .ok [v] ↔ shape.decode document = .value v) ∧
      (shape.codec.readAll document.tokens = .ok [] ↔ shape.decode document = .absent) ∧
      ((∃ failure, shape.codec.readAll document.tokens = .error failure) ↔
        shape.decode document = .fails) := by
  have hfollows := shape.follows document hrepeats
  cases hdecode : shape.decode document with
  | value v =>
      rw [hdecode] at hfollows
      have hread := ReadCodec.readAll_document_of_ok shape.unitwise hfollows
      simp [hread]
  | absent =>
      rw [hdecode] at hfollows
      have hread := ReadCodec.readAll_document_of_ok shape.unitwise hfollows
      simp [hread]
  | fails =>
      rw [hdecode] at hfollows
      obtain ⟨failure, hfailed⟩ := hfollows
      have hread := ReadCodec.readAll_of_error hfailed
      simp [hread]

/-- Unknown members are passed over with all that is in them, null is absence, and
the last value at a name counts. -/
theorem readAll_iff_decode_wide :
    (Shape.object (.required "on" (.scalar .boolean)
        (.optional "tags" (.list (.scalar .string)) .nil)) id).codec.readAll
      (Document.object [("other", .object [("on", .bool false)]), ("on", .bool false),
        ("tags", .array [.string "a", .null, .array [.string "b"]]), ("on", .bool true),
        ("on", .null)]).tokens = .ok [(true, some ["a"], ())] := by
  have hwide : (Shape.object (.required "on" (.scalar .boolean)
      (.optional "tags" (.list (.scalar .string)) .nil)) id).Wide :=
    ⟨nofun, trivial, trivial, trivial⟩
  exact ((readAll_iff_decode _ _ (.inl hwide)).1 _).mpr rfl

end Json

end TokenCodec
