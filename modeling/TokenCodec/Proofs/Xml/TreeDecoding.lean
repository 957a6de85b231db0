import TokenCodec.Proofs.Elements
import TokenCodec.Proofs.Xml.RoundTrip
import TokenCodec.Proofs.Xml.Shapes

/-!
# Reading is decoding the element tree

Every member of an element sees all tokens between the start and the end token,
and follows the depth by itself to tell which of them are its own.  What the
members make of these tokens is what the recursive decoder makes of the
attributes and the content: nothing inside a child reaches a member of the
element around it, and nothing of an element with another name is read at all.
-/

namespace TokenCodec

variable {τ α β : Type}

/-- The values of a decoded piece, if it does not fail. -/
def Json.Decoded.given : Json.Decoded α → Option (List α)
  | value v => some [v]
  | absent => some []
  | fails => none

theorem Json.Decoded.values_cons (piece : Json.Decoded α) (pieces : List (Json.Decoded α)) :
    values (piece :: pieces) =
      piece.given.bind fun first => (values pieces).map (first ++ ·) := by
  cases piece with
  | absent => exact Option.map_id'.symm
  | _ => rfl

namespace Reader

/-- What a reader makes of a run, from its start and back to its start: values,
or some failure. -/
def Reads (reader : Reader τ α) (tokens : List τ) (values : Option (List α)) : Prop :=
  (reader.consume reader.start tokens).toOption = values.map (·, reader.start)

variable {reader : Reader τ α} {tokens : List τ}

theorem Reads.of_ok {values : List α}
    (hconsume : reader.consume reader.start tokens = .ok (values, reader.start)) :
    reader.Reads tokens (some values) := by
  rw [Reads, hconsume]
  rfl

theorem Reads.of_error {failure : Failure}
    (hconsume : reader.consume reader.start tokens = .error failure) :
    reader.Reads tokens none := by
  rw [Reads, hconsume]
  rfl

theorem Reads.ok {values : List α} (hreads : reader.Reads tokens (some values)) :
    reader.consume reader.start tokens = .ok (values, reader.start) := by
  rcases hconsume : reader.consume reader.start tokens with failure | read
  · rw [Reads, hconsume] at hreads
    cases hreads
  · rw [Reads, hconsume] at hreads
    exact congrArg Except.ok (Option.some.inj hreads)

theorem Reads.error (hreads : reader.Reads tokens none) :
    ∃ failure, reader.consume reader.start tokens = .error failure := by
  rcases hconsume : reader.consume reader.start tokens with failure | read
  · exact ⟨failure, rfl⟩
  · rw [Reads, hconsume] at hreads
    cases hreads

/-- Two runs are read one after the other. -/
theorem Reads.append {front back : List τ} {first second : Option (List α)}
    (hfront : reader.Reads front first) (hback : reader.Reads back second) :
    reader.Reads (front ++ back) (first.bind fun values => second.map (values ++ ·)) := by
  cases first with
  | none =>
      obtain ⟨failure, hfailed⟩ := hfront.error
      exact .of_error (consume_append_of_error hfailed back)
  | some values =>
      cases second with
      | none =>
          obtain ⟨failure, hfailed⟩ := hback.error
          apply Reads.of_error
          · rw [consume_append_of_ok hfront.ok, hfailed]
            rfl
      | some more => exact .of_ok (consume_append_ok hfront.ok hback.ok)

theorem Reads.map {values : Option (List α)} (hreads : reader.Reads tokens values) (f : α → β) :
    (reader.map f).Reads tokens (values.map (List.map f)) := by
  have hmap := consume_map reader f reader.start tokens
  cases values with
  | none =>
      obtain ⟨failure, hfailed⟩ := hreads.error
      rw [hfailed] at hmap
      exact .of_error hmap
  | some values =>
      rw [hreads.ok] at hmap
      exact .of_ok hmap

end Reader

/-- The parts of a composition give their values one by one. -/
theorem Slots.toOption_evaluate_cons (part : PartReader τ α) (rest : Slots τ β)
    (tokens : List τ) :
    ((cons part rest).evaluate tokens).toOption =
      (part.evaluate tokens).toOption.bind fun first =>
        (rest.evaluate tokens).toOption.map (first, ·) := by
  rcases hpart : part.evaluate tokens with failure | first
  · obtain ⟨earlier, hfailed⟩ := evaluate_cons_of_error part rest (.inl ⟨failure, hpart⟩)
    rw [hfailed]
    rfl
  rcases hrest : rest.evaluate tokens with failure | others
  · obtain ⟨earlier, hfailed⟩ := evaluate_cons_of_error part rest (.inr ⟨failure, hrest⟩)
    rw [hfailed]
    rfl
  rw [evaluate_cons_of_ok hpart hrest]
  rfl

namespace Xml

open Json (Decoded)
open Node

variable {γ : Type}

/-! ## Members -/

/-- A member makes its value of what its reader gives, and fails with it. -/
theorem Arity.evaluate_readCodec (arity : Arity α γ) {codec : ReadCodec Token α}
    (hmute : codec.reader.Mute) {tokens : List Token} {values : Option (List α)}
    (hreads : codec.reader.Reads tokens values) :
    ((arity.readCodec codec).part.evaluate tokens).toOption = values.bind arity.combine := by
  have hoptional := Reader.consume_optional codec.reader codec.reader.start false tokens
  have hcollect := Reader.consume_collect codec.reader codec.reader.start [] tokens
  cases values with
  | none =>
      obtain ⟨failure, hfailed⟩ := hreads.error
      rw [hfailed] at hoptional hcollect
      cases arity with
      | once => exact congrArg Except.toOption (PartReader.evaluate_of_error hfailed)
      | optional => exact congrArg Except.toOption (PartReader.evaluate_of_error hoptional)
      | many => exact congrArg Except.toOption (PartReader.evaluate_of_error hcollect)
  | some values =>
      have hconsume := hreads.ok
      cases hvalue : arity.combine values with
      | some value =>
          refine (congrArg Except.toOption (arity.evaluate_of_combine hconsume hvalue)).trans ?_
          exact hvalue.symm
      | none =>
          -- Only where one value has to be there can none come of the values.
          cases arity with
          | once =>
              have hmissing : codec.part.evaluate tokens =
                  codec.part.conclude values.getLast? (codec.reader.reset codec.reader.start).1 :=
                PartReader.evaluate_of_ok hconsume
              change values.getLast? = none at hvalue
              rw [hmute, hvalue] at hmissing
              refine (congrArg Except.toOption hmissing).trans ?_
              exact hvalue.symm
          | optional => cases hvalue
          | many => cases hvalue

theorem reads_ofAttribute (name : Name) (attributes : List Attribute) (content : List Node) :
    (ofAttribute name).reader.Reads (innerTokens attributes content)
      (some (valuesAt name attributes)) := by
  have hvalues : attributes.filterMap
      (fun attr => if attr.name = name then some attr.value else none) =
        valuesAt name attributes := by
    induction attributes with
    | nil => rfl
    | cons attr attributes ih =>
        by_cases hname : attr.name = name <;> simp_all [valuesAt]
  have hconsume := consume_attributeReader
    (fun attr => if attr.name = name then some attr.value else none) attributes content
  rw [hvalues] at hconsume
  exact .of_ok hconsume

theorem evaluate_text_inside (attributes : List Attribute) (content : List Node) :
    text.part.evaluate (innerTokens attributes content) = .ok (textOf content) :=
  (PartReader.evaluate_of_ok (consume_textReader attributes content)).trans rfl

/-- A map of attributes holds the last value of each name. -/
theorem evaluate_attributes_inside (attributes : List Attribute) (content : List Node) :
    anyAttribute.toReadCodec.entries.part.evaluate (innerTokens attributes content) =
      .ok (attributeMap attributes) := by
  have hgather := Reader.consume_gather anyAttribute.reader Entries.empty
    (fun store entry => store.insert entry.1 entry.2) anyAttribute.reader.start Entries.empty
    (innerTokens attributes content)
  have hpairs := consume_attributeReader (fun attr => some (attr.name, attr.value))
    attributes content
  have hall : attributes.filterMap (fun attr => some (attr.name, attr.value)) =
      attributes.map fun attr => (attr.name, attr.value) :=
    congrFun List.filterMap_eq_map' attributes
  rw [hall] at hpairs
  have hconsume := hgather.trans (congrArg (Except.map _) hpairs)
  refine (PartReader.evaluate_of_ok hconsume).trans ?_
  exact congrArg Except.ok (Entries.ofList_eq_ofLast _)

/-! ## Elements -/

/-- A reader of elements reads those that stand directly inside an element. -/
theorem Seeks.reads_innerTokens {reader : Reader Token α} {claims : Name → Bool}
    (hseeks : Seeks reader claims) {decode : Node → Decoded α} {content : List Node}
    (hreads : ∀ node ∈ content, reader.Reads node.tokens (decode node).given)
    (attributes : List Attribute) :
    reader.Reads (innerTokens attributes content) (Decoded.values (content.map decode)) := by
  have hattributes := Reader.Reads.of_ok (hseeks.consume_attributes attributes)
  have hcontent : reader.Reads (contentTokens content) (Decoded.values (content.map decode)) := by
    induction content with
    | nil => exact .of_ok rfl
    | cons node content ih =>
        rw [contentTokens, List.map_cons, Decoded.values_cons]
        exact (hreads node List.mem_cons_self).append
          (ih fun other hmem => hreads other (List.mem_cons_of_mem _ hmem))
  have hboth := hattributes.append hcontent
  rwa [Option.bind_some, show ([] ++ · : List α → List α) = id from rfl, Option.map_id] at hboth

/-- An element whose name is claimed gives the combined value of its parts, or
fails.  A lone part has to give no more than one value, since it does not wait
for the end. -/
theorem reads_elementReader {parts : Parts (PartReader Token) β}
    (hresets : (Assembly.ofParts parts []).Resets) (claims : Name → Bool) {name : Name}
    (hclaims : claims name = true) (attributes : List Attribute) (content : List Node)
    (honce : parts.size = 1 → ∀ {γ : Type} {part : PartReader Token γ}, parts.Mem part →
      part.AtMostOnce (innerTokens attributes content)) :
    (elementReader claims (.ofParts parts [])).Reads (element name attributes content).tokens
      (((Slots.ofParts parts).evaluate (innerTokens attributes content)).toOption.map ([·])) := by
  have hnested := nested_contentTokens content
  rcases hvalue : (Slots.ofParts parts).evaluate (innerTokens attributes content) with
    failure | value
  · obtain ⟨failed, hconclude⟩ : ∃ failed, (Assembly.ofParts parts []).interior.conclude
        (Assembly.ofParts parts []).interior.start (innerTokens attributes content) =
          .error failed := Assembly.conclude_ofParts_of_error hvalue
    rcases hconsume : (elementReader claims (.ofParts parts [])).consume
      (elementReader claims (.ofParts parts [])).start (element name attributes content).tokens with
      earlier | ⟨values, reached⟩
    · exact .of_error hconsume
    · obtain ⟨given, next, -, hconcluded⟩ :=
        conclude_of_consume_elementReader hclaims hnested hconsume
      cases hconclude.symm.trans hconcluded
  · have hconclude := Assembly.conclude_ofParts_of_ok hresets honce hvalue (List.forall_mem_nil _)
    exact .of_ok (consume_elementReader_of_conclude hclaims hnested hconclude name)

/-! ## Shapes -/

theorem Arity.readable_readCodec {codec : ReadCodec Token α} (hcodec : Readable codec)
    (arity : Arity α γ) : Readable (arity.readCodec codec) := by
  cases arity with
  | once => exact hcodec
  | optional => exact .optional hcodec
  | many => exact .collect hcodec

theorem readable_lone {codec : ReadCodec Token α} (hcodec : Readable codec)
    {other : ReadCodec Token γ} (hmem : (Parts.one codec).Mem other) : Readable other := by
  cases Parts.mem_one hmem
  exact hcodec

mutual

theorem Shape.readable : ∀ {α : Type} (shape : Shape α), Readable shape.codec
  | _, .text _ => .map (.elements _ _ (readable_lone .text) (List.forall_mem_nil _)) Prod.fst
  | _, .element _ members produce =>
      .map (.elements _ _ members.readable (List.forall_mem_nil _)) produce

theorem Shape.Members.readable : ∀ {count : Nat} {β : Type} (members : Shape.Members count β)
    {γ : Type} {codec : ReadCodec Token γ}, members.parts.Mem codec → Readable codec
  | _, _, .nil, _, _, hmem => hmem.elim
  | _, _, .ofAttribute name arity rest, _, _, hmem => by
      rcases hmem with hfirst | hrest
      · cases hfirst
        exact arity.readable_readCodec (.ofAttribute name)
      · exact rest.readable hrest
  | _, _, .ofText rest, _, _, hmem => by
      rcases hmem with hfirst | hrest
      · cases hfirst
        exact .text
      · exact rest.readable hrest
  | _, _, .attributes rest, _, _, hmem => by
      rcases hmem with hfirst | hrest
      · cases hfirst
        exact .entries .anyAttribute
      · exact rest.readable hrest
  | _, _, .ofChild shape arity rest, _, _, hmem => by
      rcases hmem with hfirst | hrest
      · cases hfirst
        exact arity.readable_readCodec shape.readable
      · exact rest.readable hrest

end

theorem Shape.seeks : (shape : Shape α) → Seeks shape.codec.reader (· = shape.name)
  | .text name => (seeks_elementReader (· = name) _).map Prod.fst
  | .element name _ produce => (seeks_elementReader (· = name) _).map produce

theorem Shape.mute : (shape : Shape α) → shape.codec.reader.Mute
  | .text _ => fun _ => rfl
  | .element _ _ _ => fun _ => rfl

theorem Shape.Members.size_parts : ∀ {count : Nat} {β : Type} (members : Shape.Members count β),
    members.parts.size = count
  | _, _, .nil => rfl
  | _, _, .ofAttribute _ _ rest => congrArg (· + 1) rest.size_parts
  | _, _, .ofText rest => congrArg (· + 1) rest.size_parts
  | _, _, .attributes rest => congrArg (· + 1) rest.size_parts
  | _, _, .ofChild _ _ rest => congrArg (· + 1) rest.size_parts

/-- A node that does not bear the name of a shape is passed over. -/
theorem Shape.decode_of_other (shape : Shape α) {node : Node}
    (hnode : node.bears (· = shape.name) = false) : shape.decode node = .absent := by
  cases node with
  | characters text => cases shape <;> rfl
  | element given attributes content =>
      have hname : given ≠ shape.name := of_decide_eq_false hnode
      cases shape <;> exact if_neg hname

/-- A lone text is the text of its element. -/
theorem reads_lone_text (name : Name) (attributes : List Attribute) (content : List Node) :
    (Shape.text name).codec.reader.Reads (element name attributes content).tokens
      (some [textOf content]) := by
  have hresets : (Assembly.ofParts ((Parts.one text.toReadCodec).mapParts ReadCodec.part)
      []).Resets :=
    .ofParts (resets_partReaders fun hmem => (readable_lone .text hmem).resets)
      (List.forall_mem_nil _)
  have honce {γ : Type} {part : PartReader Token γ}
      (hmem : (Parts.one text.toReadCodec.part).Mem part) :
      part.AtMostOnce (innerTokens attributes content) := by
    cases Parts.mem_one hmem
    exact .of_consume (consume_textReader attributes content) (Nat.zero_le 1)
  have helement := reads_elementReader hresets (· = name) (decide_eq_true rfl) attributes
    content fun _ => honce
  have hvalue : (Slots.ofParts ((Parts.one text.toReadCodec).mapParts ReadCodec.part)).evaluate
      (innerTokens attributes content) = .ok (textOf content, ()) :=
    Slots.evaluate_cons_of_ok (evaluate_text_inside attributes content) (Slots.evaluate_nil _)
  rw [hvalue] at helement
  exact helement.map Prod.fst

mutual

/-- The reader of a shape makes of a node what it decodes to. -/
theorem Shape.reads : ∀ {α : Type} (shape : Shape α) (node : Node),
    shape.codec.reader.Reads node.tokens (shape.decode node).given
  | _, .text name, node => by
      by_cases hbears : node.bears (· = name) = true
      · cases node with
        | characters text => cases hbears
        | element given attributes content =>
            obtain rfl : given = name := of_decide_eq_true hbears
            rw [Shape.decode, if_pos rfl]
            exact reads_lone_text given attributes content
      · rw [Bool.not_eq_true] at hbears
        rw [(Shape.text name).decode_of_other hbears]
        exact .of_ok ((Shape.text name).seeks.other node hbears)
  | _, .element name members produce, node => by
      by_cases hbears : node.bears (· = name) = true
      · cases node with
        | characters text => cases hbears
        | element given attributes content =>
            obtain rfl : given = name := of_decide_eq_true hbears
            have hresets : (Assembly.ofParts (members.parts.mapParts ReadCodec.part) []).Resets :=
              .ofParts (resets_partReaders fun hmem => (members.readable hmem).resets)
                (List.forall_mem_nil _)
            have hmany : (members.parts.mapParts ReadCodec.part).size ≠ 1 := by
              rw [Parts.size_mapParts, members.size_parts]
              exact Nat.succ_succ_ne_one _
            have helement := reads_elementReader hresets (· = given) (decide_eq_true rfl)
              attributes content fun hlone => absurd hlone hmany
            rw [members.evaluate attributes content] at helement
            rw [Shape.decode, if_pos rfl]
            have hread := helement.map produce
            cases hdecode : members.decode attributes content <;> rw [hdecode] at hread <;>
              exact hread
      · rw [Bool.not_eq_true] at hbears
        rw [(Shape.element name members produce).decode_of_other hbears]
        exact .of_ok ((Shape.element name members produce).seeks.other node hbears)

/-- The parts of an element make of its attributes and its content what the
members decode to. -/
theorem Shape.Members.evaluate : ∀ {count : Nat} {β : Type} (members : Shape.Members count β)
    (attributes : List Attribute) (content : List Node),
    ((Slots.ofParts (members.parts.mapParts ReadCodec.part)).evaluate
      (innerTokens attributes content)).toOption = members.decode attributes content
  | _, _, .nil, attributes, content => congrArg Except.toOption (Slots.evaluate_nil _)
  | _, _, .ofAttribute name arity rest, attributes, content => by
      have hfirst := arity.evaluate_readCodec (fun _ => rfl)
        (reads_ofAttribute name attributes content)
      refine (Slots.toOption_evaluate_cons _ _ _).trans ?_
      rw [hfirst, rest.evaluate attributes content, Shape.Members.decode]
      rfl
  | _, _, .ofText rest, attributes, content => by
      refine (Slots.toOption_evaluate_cons _ _ _).trans ?_
      rw [evaluate_text_inside, rest.evaluate attributes content, Shape.Members.decode]
      rfl
  | _, _, .attributes rest, attributes, content => by
      refine (Slots.toOption_evaluate_cons _ _ _).trans ?_
      rw [evaluate_attributes_inside, rest.evaluate attributes content, Shape.Members.decode]
      rfl
  | _, _, .ofChild shape arity rest, attributes, content => by
      have hchildren := shape.seeks.reads_innerTokens
        (fun node (_ : node ∈ content) => shape.reads node) attributes
      have hfirst := arity.evaluate_readCodec shape.mute hchildren
      refine (Slots.toOption_evaluate_cons _ _ _).trans ?_
      rw [hfirst, rest.evaluate attributes content, Shape.Members.decode]

end

/-- An element that bears the name of a shape decodes to a value or fails. -/
theorem Shape.decode_eq_absent_iff (shape : Shape α) (node : Node) :
    shape.decode node = .absent ↔ node.bears (· = shape.name) = false := by
  refine ⟨fun habsent => ?_, shape.decode_of_other⟩
  cases node with
  | characters text => rfl
  | element given attributes content =>
      refine decide_eq_false fun hname => ?_
      obtain rfl : given = shape.name := hname
      cases shape with
      | text name =>
          rw [Shape.decode, Shape.name, if_pos rfl] at habsent
          cases habsent
      | element name members produce =>
          rw [Shape.decode, Shape.name, if_pos rfl] at habsent
          cases hdecode : members.decode attributes content <;> rw [hdecode] at habsent <;>
            cases habsent

/-- Reading the tokens of an element tree is decoding the tree.  Only a node
that does not bear the name of the shape reads as nothing. -/
theorem readAll_iff_decode_node (shape : Shape α) (node : Node) :
    (∀ v, shape.codec.readAll node.tokens = .ok [v] ↔ shape.decode node = .value v) ∧
      (shape.codec.readAll node.tokens = .ok [] ↔ node.bears (· = shape.name) = false) ∧
      ((∃ failure, shape.codec.readAll node.tokens = .error failure) ↔
        shape.decode node = .fails) := by
  have hreads := shape.reads node
  have hclosed : Alphabet.trackAll 0 node.tokens = 0 := (nested_tokens node).trackAll 0
  have hsilent : (shape.codec.reader.reset shape.codec.reader.start).1.value? = none :=
    congrArg Outcome.value? (shape.mute _)
  have hread {values : List α} (hgiven : (shape.decode node).given = some values) :
      shape.codec.readAll node.tokens = .ok values := by
    rw [hgiven] at hreads
    rw [ReadCodec.readAll_of_consume hreads.ok hclosed, hsilent, ite_self]
    exact congrArg Except.ok (List.append_nil values)
  rw [← shape.decode_eq_absent_iff node]
  cases hdecode : shape.decode node with
  | value v => simp [hread (congrArg Decoded.given hdecode)]
  | absent => simp [hread (congrArg Decoded.given hdecode)]
  | fails =>
      rw [hdecode] at hreads
      obtain ⟨failure, hfailed⟩ := hreads.error
      simp [ReadCodec.readAll_of_error hfailed]

example :
    let key : Name := .plain "k"
    let inner : Shape (Option String × String × Unit) :=
      .element (.plain "a") (.ofAttribute key .optional (.ofText .nil)) id
    let shape : Shape (List (Option String × String × Unit) × Entries Name String × Unit) :=
      .element (.plain "a") (.ofChild inner .many (.attributes .nil)) id
    shape.codec.readAll (element (.plain "a") [⟨key, "1"⟩, ⟨key, "2"⟩]
      [.element (.plain "b") [⟨key, "3"⟩] [.element (.plain "a") [] []], .characters "u",
        .element (.plain "a") [] [.characters "v", .element (.plain "a") [⟨key, "4"⟩]
          [.characters "w"], .characters "x"]]).tokens =
            .ok [([(none, "vx", ())], attributeMap [⟨key, "2"⟩], ())] := rfl

end Xml

end TokenCodec
