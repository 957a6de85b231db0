import TokenCodec.Proofs.Strangers
import TokenCodec.Proofs.Truncation

/-!
# Strangers among the children

An element may have a child whose name no part and no condition of its codec bears.
Such a stranger is passed over with everything in it: attributes, text, and elements
that the parts would read anywhere else.  That holds for both layouts of attributes,
and so for the stranger in any of them.
-/

namespace TokenCodec

open Alphabet Xml Xml.Node

variable {α β : Type}

namespace Xml

/-- An element from its start token to its end token. -/
def elementRun (name : Name) (attributes : List Attribute) (inside : List Token) : List Token :=
  .startElement name attributes :: (inside ++ [.endElement name])

/-- The pieces of an element: its attributes, texts and children. -/
inductive IsPiece : List Token → Prop where
  | lone (attr : Attribute) : IsPiece [.loneAttribute attr]
  | characters (text : String) : IsPiece [.characters text]
  | element (name : Name) (attributes : List Attribute) {inside : List Token}
      (hnested : Nested inside) : IsPiece (elementRun name attributes inside)

theorem IsPiece.nested {tokens : List Token} (hpiece : IsPiece tokens) : Nested tokens := by
  cases hpiece with
  | lone attr => exact .flat rfl .nil
  | characters text => exact .flat rfl .nil
  | element name attributes hnested => exact .group rfl hnested rfl .nil

theorem IsPiece.tokens (node : Node) : IsPiece node.tokens := by
  cases node with
  | characters text => exact .characters text
  | element name attributes content =>
      rw [tokens_element]
      exact .element name attributes (nested_contentTokens content)

theorem IsPiece.spreadTokens (node : Node) : IsPiece node.spreadTokens := by
  cases node with
  | characters text => exact .characters text
  | element name attributes content =>
      rw [spreadTokens_element]
      exact .element name [] (nested_spreadInnerTokens attributes content)

/-- The attributes of an element as runs of their own. -/
def loneRuns (attributes : List Attribute) : List (List Token) :=
  attributes.map fun attr => [.loneAttribute attr]

theorem flatten_loneRuns (attributes : List Attribute) :
    (loneRuns attributes).flatten = attributes.map Token.loneAttribute := by
  rw [loneRuns, ← List.flatMap_def, ← List.map_eq_flatMap]

theorem IsPiece.of_mem_loneRuns {attributes : List Attribute} {run : List Token}
    (hmem : run ∈ loneRuns attributes) : IsPiece run := by
  obtain ⟨attr, -, rfl⟩ := List.mem_map.mp hmem
  exact .lone attr

/-- Behind some of its children, an element goes on with the others. -/
theorem Node.tokens_element_append (name : Name) (own : List Attribute)
    (front children : List Node) :
    (element name own (front ++ children)).tokens =
      elementRun name own ((front.map Node.tokens).flatten ++ contentTokens children) := by
  rw [tokens_element, contentTokens_append, contentTokens_eq_flatMap front, List.flatMap_def]
  rfl

theorem Node.contentSpreadTokens_append (front back : List Node) :
    contentSpreadTokens (front ++ back) =
      (front.map Node.spreadTokens).flatten ++ contentSpreadTokens back := by
  induction front with
  | nil => rfl
  | cons node front ih => simp [contentSpreadTokens, ih]

theorem Node.spreadTokens_element_append (name : Name) (own : List Attribute)
    (front children : List Node) :
    (element name own (front ++ children)).spreadTokens =
      elementRun name [] ((loneRuns own ++ front.map Node.spreadTokens).flatten ++
        contentSpreadTokens children) := by
  rw [spreadTokens_element, spreadInnerTokens, contentSpreadTokens_append, List.flatten_append,
    flatten_loneRuns, ← List.append_assoc]
  rfl

/-! ## Readers that pass over a child -/

section Readers

variable {stranger : Name} {attributes : List Attribute} {inside : List Token}

theorem overlooks_attributeReader (claim : Attribute → Option α) (hnested : Nested inside) :
    (attributeReader claim).Overlooks IsPiece (elementRun stranger attributes inside) := by
  refine ⟨(· = (0 : Nat)), rfl, ⟨?_, ?_⟩⟩
  · rintro _ tokens read rfl hpiece hread
    cases hpiece with
    | lone attr =>
        cases (consume_attributeReader_attributes claim [attr]).symm.trans hread
        rfl
    | characters text =>
        cases hread
        rfl
    | element name attributes hnested =>
        cases (consume_attributeReader_element claim name name attributes hnested).symm.trans hread
        rfl
  · rintro _ rfl
    exact consume_attributeReader_element claim stranger stranger attributes hnested

theorem overlooks_textReader (hnested : Nested inside) :
    textReader.Overlooks IsPiece (elementRun stranger attributes inside) := by
  refine ⟨fun state => state.1 = 0, rfl, ⟨?_, ?_⟩⟩
  · rintro ⟨_, text⟩ tokens read rfl hpiece hread
    cases hpiece with
    | lone attr =>
        cases hread
        rfl
    | characters more =>
        cases hread
        rfl
    | element name attributes hnested =>
        cases (consume_textReader_element text name name attributes hnested).symm.trans hread
        rfl
  · rintro ⟨_, text⟩ rfl
    exact consume_textReader_element text stranger stranger attributes hnested

/-- An element reader is at rest outside of elements, whatever its assembly has seen. -/
theorem overlooks_elementReader {claims : Name → Bool} (hclaims : claims stranger = false)
    (assembly : Assembly Token β) (hnested : Nested inside) :
    (elementReader claims assembly).Overlooks IsPiece (elementRun stranger attributes inside) := by
  refine ⟨fun state => state.2 = .outside, rfl, ⟨?_, ?_⟩⟩
  · rintro ⟨state, _⟩ tokens ⟨values, next⟩ rfl hpiece hread
    cases hpiece with
    | lone attr =>
        cases hread
        rfl
    | characters text =>
        cases hread
        rfl
    | element name attributes hnested =>
        cases hname : claims name with
        | true =>
            obtain ⟨given, reached, rfl, -⟩ := conclude_of_consume_elementReader hname hnested hread
            rfl
        | false =>
            cases (consume_elementReader_other hname hnested state name).symm.trans hread
            rfl
  · rintro ⟨state, _⟩ rfl
    exact consume_elementReader_other hclaims hnested state stranger

end Readers

/-- The codecs of attributes, of text, and of elements with names other than that of the
stranger. -/
inductive OtherPiece (stranger : Name) : ⦃α : Type⦄ → ReadCodec Token α → Prop where
  | ofAttribute (name : Name) : OtherPiece stranger (ofAttribute name).toReadCodec
  | anyAttribute : OtherPiece stranger anyAttribute.toReadCodec
  | text : OtherPiece stranger text.toReadCodec
  | elements {β : Type} {claims : Name → Bool} (hclaims : claims stranger = false)
      (shownName : String) (parts : Parts (ReadCodec Token) β)
      (conditions : List (Condition Token)) :
      OtherPiece stranger (readElements claims shownName parts conditions)

/-- The codecs that do not know an element name: those of attributes, of text and of
elements with other names, and what is made of them. -/
def Unaware (stranger : Name) (codec : ReadCodec Token α) : Prop :=
  ReadCodec.MadeOf (OtherPiece stranger) codec

variable {stranger : Name} {attributes : List Attribute} {inside : List Token}

theorem OtherPiece.overlooks {codec : ReadCodec Token α} (hother : OtherPiece stranger codec)
    (hnested : Nested inside) :
    codec.reader.Overlooks IsPiece (elementRun stranger attributes inside) := by
  cases hother with
  | ofAttribute name => exact overlooks_attributeReader _ hnested
  | anyAttribute => exact overlooks_attributeReader _ hnested
  | text => exact overlooks_textReader hnested
  | elements hclaims shownName parts conditions => exact overlooks_elementReader hclaims _ hnested

theorem Unaware.overlooks {codec : ReadCodec Token α} (hcodec : Unaware stranger codec)
    (hnested : Nested inside) :
    codec.reader.Overlooks IsPiece (elementRun stranger attributes inside) :=
  ReadCodec.MadeOf.overlooks (fun hother => hother.overlooks hnested) hcodec

/-! ## Elements -/

/-- The codecs of elements whose parts and conditions do not know a name, and those made
of them. -/
inductive UnawareElement (stranger : Name) : {β : Type} → ReadCodec Token β → Prop where
  | elements {β : Type} (claims : Name → Bool) (shownName : String)
      {parts : Parts (ReadCodec Token) β} {conditions : List (Condition Token)}
      (hparts : ∀ {γ : Type} {codec : ReadCodec Token γ}, parts.Mem codec →
        Unaware stranger codec)
      (hconditions : ∀ condition ∈ conditions, Unaware stranger condition.toReadCodec) :
      UnawareElement stranger (readElements claims shownName parts conditions)
  | map {α β : Type} {codec : ReadCodec Token α} (hcodec : UnawareElement stranger codec)
      (f : α → β) : UnawareElement stranger (codec.map f)

section Elements

variable {assembly : Assembly Token β} {claims : Name → Bool} {name : Name}

/-- Inside of an element that is read, the assembly has seen its attributes and its
content until there. -/
theorem exists_of_consume_opened (hclaims : claims name = true) (hnested : Nested inside)
    {state : assembly.State} {values : List β} {next : (elementReader claims assembly).State}
    (hconsume : (elementReader claims assembly).consume (state, .outside)
      (.startElement name attributes :: inside) = .ok (values, next)) :
    ∃ given reached, next = (reached, .inside name.shownText 1) ∧
      assembly.interior.consume state (attributes.map Token.loneAttribute ++ inside) =
        .ok (given, reached) := by
  rcases hattributes : assembly.interior.consume state (attributes.map Token.loneAttribute) with
    failure | ⟨early, middle⟩
  · rw [consume_elementReader_of_error hclaims hattributes] at hconsume
    cases hconsume
  have hinside := consume_elementReader_inside claims name.shownText Nat.one_ne_zero
    (hnested.staysOpen 0) middle
  rw [hnested.trackAll] at hinside
  rw [consume_elementReader_opening hclaims hattributes, hinside] at hconsume
  obtain ⟨_, hentered, hread⟩ := Except.exists_of_map hconsume
  obtain ⟨read, hmapped, rfl⟩ := Except.exists_of_map hentered
  cases hread
  rcases hcontent : assembly.interior.consume middle inside with failure | ⟨late, reached⟩
  · rw [hcontent] at hmapped
    cases hmapped
  · rw [hcontent] at hmapped
    cases hmapped
    exact ⟨early ++ late, reached, rfl, Reader.consume_append_ok hattributes hcontent⟩

/-- What shows of an element does not depend on the strangers in it, whether its codec
reads the element or passes over it. -/
theorem surfaced_elementReader (hstranger : Nested inside)
    (hinterior : assembly.interior.Overlooks IsPiece (elementRun stranger attributes inside))
    (own : List Attribute) {runs : List (List Token)} (hruns : ∀ run ∈ runs, IsPiece run)
    {back : List Token} (hback : Nested back) :
    (elementReader claims assembly).surfaced (elementReader claims assembly).start
        (elementRun name own (runs.flatten ++ (elementRun stranger attributes inside ++ back))) =
      (elementReader claims assembly).surfaced (elementReader claims assembly).start
        (elementRun name own (runs.flatten ++ back)) := by
  have hcontent : Nested runs.flatten := .flatten fun run hmem => (hruns run hmem).nested
  have hchild : Nested (elementRun stranger attributes inside) :=
    (IsPiece.element stranger attributes hstranger).nested
  cases hclaims : claims name with
  | false =>
      -- Both elements are passed over as a whole.
      have hpassed {tokens : List Token} (hnested : Nested tokens) :
          (elementReader claims assembly).surfaced (elementReader claims assembly).start
            (elementRun name own tokens) = [] := by
        have hother : (elementReader claims assembly).consume (assembly.start, .outside)
            (elementRun name own tokens) = .ok ([], (assembly.start, .outside)) :=
          consume_elementReader_other hclaims hnested assembly.start name
        have hnothing := Reader.surfaced_append_of_ok hother []
        rwa [List.append_nil] at hnothing
      rw [hpassed (hcontent.append (hchild.append hback)), hpassed (hcontent.append hback)]
  | true =>
      have hsplit (tokens : List Token) : elementRun name own (runs.flatten ++ tokens) =
          (.startElement name own :: runs.flatten) ++ (tokens ++ [.endElement name]) := by
        simp [elementRun]
      rw [hsplit, hsplit, List.append_assoc]
      refine Reader.surfaced_insert (fun values next hfront => ?_) _
      obtain ⟨given, reached, rfl, hseen⟩ := exists_of_consume_opened hclaims hcontent hfront
      rw [← flatten_loneRuns, ← List.flatten_append] at hseen
      have hunmoved := hinterior.unmoved (fun run hmem => ?_) hseen
      · have hinside := consume_elementReader_inside claims name.shownText Nat.one_ne_zero
          (hchild.staysOpen 0) reached
        rw [hchild.trackAll] at hinside
        exact hinside.trans (congrArg (fun read => (Except.mapError _ read).map _) hunmoved)
      · rcases List.mem_append.mp hmem with hlone | hrun
        · exact .of_mem_loneRuns hlone
        · exact hruns run hrun

end Elements

theorem UnawareElement.silent {codec : ReadCodec Token β}
    (hcodec : UnawareElement stranger codec) : codec.reader.Silent := by
  induction hcodec with
  | elements claims shownName _ _ => exact fun _ => rfl
  | map _ f ih => exact ih.map f

theorem UnawareElement.surfaced {codec : ReadCodec Token β}
    (hcodec : UnawareElement stranger codec) (hstranger : Nested inside) (name : Name)
    (own : List Attribute) {runs : List (List Token)} (hruns : ∀ run ∈ runs, IsPiece run)
    {back : List Token} (hback : Nested back) :
    codec.reader.surfaced codec.reader.start
        (elementRun name own (runs.flatten ++ (elementRun stranger attributes inside ++ back))) =
      codec.reader.surfaced codec.reader.start (elementRun name own (runs.flatten ++ back)) := by
  induction hcodec with
  | elements claims shownName hparts hconditions =>
      refine surfaced_elementReader hstranger (Assembly.overlooks_ofParts ?_ ?_) own hruns hback
      · intro γ part hmem
        obtain ⟨codec, hcodec, rfl⟩ := Parts.exists_of_mem_mapParts hmem
        exact (hparts hcodec).overlooks hstranger
      · intro reader hmem
        obtain ⟨condition, hcondition, rfl⟩ := List.mem_map.mp hmem
        exact (hconditions condition hcondition).overlooks hstranger
  | @map α β codec hcodec f ih =>
      change (codec.reader.map f).surfaced codec.reader.start _ =
        (codec.reader.map f).surfaced codec.reader.start _
      rw [Reader.surfaced_map, Reader.surfaced_map, ih]

/-- A child with a name that an element codec does not know changes no item, in either
layout of attributes. -/
theorem UnawareElement.items {codec : ReadCodec Token β} (hcodec : UnawareElement stranger codec)
    (options : StreamOptions) (name : Name) (own attributes : List Attribute)
    (front content back : List Node) :
    let decoder := Decoder.ofCodec codec options
    let visited := Node.element name own (front ++ .element stranger attributes content :: back)
    let alone := Node.element name own (front ++ back)
    decoder.items visited.tokens = decoder.items alone.tokens ∧
      decoder.items visited.spreadTokens = decoder.items alone.spreadTokens := by
  intro decoder visited alone
  have hunit {tokens : List Token} (hends : EndsUnit 0 tokens) :
      decoder.items tokens = codec.reader.surfaced codec.reader.start tokens :=
    Decoder.itemsFrom_unit hcodec.silent hends _ false
  constructor
  · have hruns : ∀ run ∈ front.map Node.tokens, IsPiece run := by
      intro run hmem
      obtain ⟨node, -, rfl⟩ := List.mem_map.mp hmem
      exact .tokens node
    rw [hunit visited.endsUnit_tokens.1, hunit alone.endsUnit_tokens.1,
      show visited.tokens = _ from tokens_element_append name own front _,
      show alone.tokens = _ from tokens_element_append name own front back]
    exact hcodec.surfaced (nested_contentTokens content) name own hruns (nested_contentTokens back)
  · have hruns : ∀ run ∈ loneRuns own ++ front.map Node.spreadTokens, IsPiece run := by
      intro run hmem
      rcases List.mem_append.mp hmem with hlone | hnode
      · exact .of_mem_loneRuns hlone
      · obtain ⟨node, -, rfl⟩ := List.mem_map.mp hnode
        exact .spreadTokens node
    rw [hunit visited.endsUnit_tokens.2, hunit alone.endsUnit_tokens.2,
      show visited.spreadTokens = _ from spreadTokens_element_append name own front _,
      show alone.spreadTokens = _ from spreadTokens_element_append name own front back,
      contentSpreadTokens, spreadTokens_element]
    exact hcodec.surfaced (nested_spreadInnerTokens attributes content) name [] hruns
      (nested_contentSpreadTokens back)

end Xml

/-- Nothing changes with a member of an object, or a child of an element, whose name no
part and no condition knows: neither the values, nor their order, nor the failures and
their paths, wherever the stranger stands, whatever it holds, and however the decoder
meets failures and the end of the input. -/
theorem Decoder.items_with_stranger (options : StreamOptions) :
    (∀ {β : Type} {codec : ReadCodec Json.Token β} {stranger : String},
      Json.UnawareObject stranger codec →
        ∀ (front : List (String × Json.Document)) (value : Json.Document)
          (back : List (String × Json.Document)),
          let decoder := Decoder.ofCodec codec options
          decoder.items (Json.Document.object (front ++ (stranger, value) :: back)).tokens =
            decoder.items (Json.Document.object (front ++ back)).tokens) ∧
    ∀ {β : Type} {codec : ReadCodec Token β} {stranger : Name},
      UnawareElement stranger codec →
        ∀ (name : Name) (own attributes : List Attribute) (front content back : List Node),
          let decoder := Decoder.ofCodec codec options
          let child := Node.element stranger attributes content
          let visited := Node.element name own (front ++ child :: back)
          let alone := Node.element name own (front ++ back)
          decoder.items visited.tokens = decoder.items alone.tokens ∧
            decoder.items visited.spreadTokens = decoder.items alone.spreadTokens :=
  ⟨fun hcodec front value back => hcodec.items options front value back,
    fun hcodec name own attributes front content back =>
      hcodec.items options name own attributes front content back⟩

/-- A member that holds what the condition of the object asks for does not meet it, and
a child that holds another one adds none to the list. -/
theorem Decoder.items_with_stranger_inside :
    let switch : ReadCodec Json.Token (Bool × List Bool × Unit) :=
      .object (.cons (Json.Scalar.boolean.codec.toReadCodec.member "on")
          (.one (Json.Scalar.boolean.codec.toReadCodec.listMember "past")))
        [(Json.Scalar.boolean.codec.member "ok").fixed true]
    let page : ReadCodec Token (String × List (String × Unit) × Unit) :=
      .element (.plain "page") (.cons (ofAttribute (.plain "id")).toReadCodec
        (.one (ReadCodec.element (.plain "line") (.one text.toReadCodec)).collect))
    (Decoder.ofCodec switch).items (Json.Document.object ([("past", .array [.bool false])] ++
        ("more", .object [("ok", .bool true), ("on", .null)]) :: [("on", .bool true)])).tokens =
      [.error (.here (.unexpected "ok: (boolean)=true" "nothing"))] ∧
    (Decoder.ofCodec page).items (element (.plain "page") [⟨.plain "id", "1"⟩]
        ([.element (.plain "line") [] [.characters "a"]] ++
          .element (.plain "note") [⟨.plain "id", "2"⟩]
            [.element (.plain "line") [] [.characters "b"]] ::
          [.element (.plain "line") [] [.characters "c"]])).tokens =
      [.ok ("1", [("a", ()), ("c", ())], ())] := by
  intro switch page
  have hswitch : Json.UnawareObject "more" switch := by
    refine .object (fun hmem => ?_) fun condition hmem => ?_
    · rcases hmem with hon | hpast | hnone
      · cases hon
        exact .member (by decide) _
      · cases hpast
        exact .listMember (by decide) _
      · exact hnone.elim
    · cases List.mem_singleton.mp hmem
      exact .fixed (Json.Unaware.member (by decide) _) true
  have hpage : UnawareElement (.plain "note") page := by
    refine .elements _ _ (fun hmem => ?_) nofun
    rcases hmem with hid | hline | hnone
    · cases hid
      exact .basic (.ofAttribute _)
    · cases hline
      exact .collect (.basic (.elements (by decide) _ _ _))
    · exact hnone.elim
  exact ⟨((Decoder.items_with_stranger {}).1 hswitch _ _ _).trans rfl,
    ((Decoder.items_with_stranger {}).2 hpage _ _ _ _ _ _).1.trans rfl⟩

end TokenCodec
