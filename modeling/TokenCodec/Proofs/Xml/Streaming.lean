import TokenCodec.Proofs.Xml.RoundTrip

/-!
# Elements that go on from value to value

An element around a lone part is left open from one value to the next, and so is the
element that is this part: values that share a document share both.  The inner
element then holds what every value has in it, one value behind the other, with the
attributes of later values as tokens among the content.  Each of its parts finds the
values at its own place in order, and the element makes one value of them, unless an
attribute is all it reads.
-/

namespace TokenCodec.Xml

open Node Writer

variable {α β γ ρ : Type}

/-! ## Pieces of several values -/

/-- What an element holds of several values and of its conditions.  The attributes of
the conditions stand behind those of the first value, and their content at the end. -/
def Body.ofShared (pieces : ρ → List Piece) (markers : List Piece) (first : ρ)
    (others : List ρ) : Body where
  attributes := (pieces first ++ markers).flatMap Piece.attributes ++
    others.flatMap fun value => (pieces value).flatMap Piece.attributes
  content := (pieces first).flatMap Piece.content ++
    others.flatMap (fun value => (pieces value).flatMap Piece.content) ++
      markers.flatMap Piece.content

/-- Tokens between the start token and the end token of an element that hold the
pieces of several values, each at a place of its own. -/
structure Shared (pieces : ρ → List Piece) (markers : List Piece) (first : ρ) (others : List ρ)
    (tokens : List Token) : Prop where
  mixed : Mixed tokens (Body.ofShared pieces markers first others).attributes
    (Body.ofShared pieces markers first others).content
  distinct : ∀ value, ((pieces value ++ markers).map Piece.place).Nodup

namespace Shared

variable {pieces : ρ → List Piece} {markers : List Piece} {first : ρ} {others : List ρ}
  {tokens : List Token} {name : Name} (hshared : Shared pieces markers first others tokens)

include hshared

theorem nodup_pieces (value : ρ) : ((pieces value).map Piece.place).Nodup := by
  have hdistinct := hshared.distinct value
  rw [List.map_append] at hdistinct
  exact (List.nodup_append.mp hdistinct).1

theorem nodup_markers : (markers.map Piece.place).Nodup := by
  have hdistinct := hshared.distinct first
  rw [List.map_append] at hdistinct
  exact (List.nodup_append.mp hdistinct).2.1

/-- No value has a piece at the place of a condition. -/
theorem place_ne {value : ρ} {piece marker : Piece} (hpiece : piece ∈ pieces value)
    (hmarker : marker ∈ markers) : piece.place ≠ marker.place := by
  have hdistinct := hshared.distinct value
  rw [List.map_append] at hdistinct
  exact (List.nodup_append.mp hdistinct).2.2 _ (List.mem_map_of_mem hpiece) _
    (List.mem_map_of_mem hmarker)

theorem notMem_markers {value : ρ} {piece : Piece} (hpiece : piece ∈ pieces value) :
    piece.place ∉ markers.map Piece.place := by
  intro hmem
  obtain ⟨marker, hmarker, hplace⟩ := List.mem_map.mp hmem
  exact hshared.place_ne hpiece hmarker hplace.symm

theorem notMem_pieces {marker : Piece} (hmarker : marker ∈ markers) (value : ρ) :
    marker.place ∉ (pieces value).map Piece.place := by
  intro hmem
  obtain ⟨piece, hpiece, hplace⟩ := List.mem_map.mp hmem
  exact hshared.place_ne hpiece hmarker hplace

/-- A reader of attributes gives those of each value, in order. -/
theorem consume_ofAttribute {values : ρ → List String}
    (hmem : ∀ value, .ofAttribute name (values value) ∈ pieces value) :
    (ofAttribute name).reader.consume (ofAttribute name).reader.start tokens =
      .ok ((first :: others).flatMap values, (ofAttribute name).reader.start) := by
  have hfirst := attributes_of_mem (hshared.distinct first) (List.mem_append_left _ (hmem first))
  have hothers (value : ρ) := attributes_of_mem (hshared.nodup_pieces value) (hmem value)
  have hvalues : (Body.ofShared pieces markers first others).attributes.filterMap
      (fun attr => if attr.name = name then some attr.value else none) =
        (first :: others).flatMap values := by
    rw [Body.ofShared, List.filterMap_append, hfirst, List.filterMap_flatMap]
    simp only [hothers, List.flatMap_cons]
  rw [← hvalues]
  exact hshared.mixed.consume_attributeReader _

/-- The reader of text gathers that of all values. -/
theorem consume_text {texts : ρ → String} (hmem : ∀ value, .ofText (texts value) ∈ pieces value) :
    text.reader.consume text.reader.start tokens =
      .ok ([], ((0 : Nat), String.join ((first :: others).map texts))) := by
  have htexts (value : ρ) := textOf_of_mem (hshared.nodup_pieces value) (hmem value)
  have hnone := textOf_of_no_place (hshared.notMem_markers (hmem first))
  have htext : textOf (Body.ofShared pieces markers first others).content =
      String.join ((first :: others).map texts) := by
    simp only [Body.ofShared, textOf_append, textOf_flatMap, htexts, hnone, String.append_empty,
      List.map_cons, String.join_cons]
  have hconsume := hshared.mixed.consume_textReader ""
  rw [htext, String.empty_append] at hconsume
  exact hconsume

/-- A reader of children gives those of each value, in order. -/
theorem consume_ofChild {codec : Codec Token α} {body : α → Body}
    (hcodec : ReadsBack codec name body) {values : ρ → List α}
    (hmem : ∀ value, .ofChild name ((values value).map body) ∈ pieces value) :
    codec.reader.consume codec.reader.start tokens =
      .ok ((first :: others).flatMap values, codec.reader.start) := by
  have hchildren (value : ρ) := content_of_mem (hshared.nodup_pieces value) (hmem value)
  have hnone := content_of_no_place (hshared.notMem_markers (hmem first))
  have hfound : (Body.ofShared pieces markers first others).content.filter
      (Node.bears (· = name)) =
        ((first :: others).flatMap values).map fun value => (body value).node name := by
    rw [Body.ofShared, List.filter_append, List.filter_append, hchildren, hnone,
      List.filter_flatMap]
    simp only [hchildren, List.map_map, List.flatMap_cons, List.map_append, List.map_flatMap,
      List.append_nil]
    rfl
  have hconsume := hcodec.seeks.consume_mixed hshared.mixed (fun value _ => hcodec.reads value)
    hfound
  rwa [List.map_id'] at hconsume

/-- A condition holds that has a piece of its own. -/
theorem holdsOf {marker : Marker} (hmem : marker.piece ∈ markers) :
    marker.condition.reader.HoldsOf tokens := by
  cases marker with
  | onAttribute name value =>
      have hmarker := attributes_of_mem (hshared.distinct first) (List.mem_append_right _ hmem)
      have hnone (other : ρ) := attributes_of_no_place (hshared.notMem_pieces hmem other)
      have hvalue : (Body.ofShared pieces markers first others).attributes.filterMap
          (fun attr => if attr.name = name then some attr.value else none) = [value] := by
        rw [Body.ofShared, List.filterMap_append, hmarker, List.filterMap_flatMap]
        simp only [hnone]
        simp
      have hconsume := hshared.mixed.consume_attributeReader
        fun attr => if attr.name = name then some attr.value else none
      rw [hvalue] at hconsume
      exact Reader.holdsOf_fixed hconsume _
  | onChild name value =>
      have hchild : .ofChild name ([value].map fun value => .ofPieces [.ofText value]) ∈ markers :=
        hmem
      have hmarker := content_of_mem hshared.nodup_markers hchild
      have hnone (other : ρ) := content_of_no_place (hshared.notMem_pieces hmem other)
      have hfound : (Body.ofShared pieces markers first others).content.filter
          (Node.bears (· = name)) =
            [value].map fun value => (Body.ofPieces [.ofText value]).node name := by
        rw [Body.ofShared, List.filter_append, List.filter_append, hnone, List.filter_flatMap,
          hmarker]
        simp only [hnone]
        simp
      have hchildText := readsBack_childText name
      have hconsume := hchildText.seeks.consume_mixed hshared.mixed
        (fun value _ => hchildText.reads value) hfound
      exact Reader.holdsOf_fixed hconsume _

end Shared

/-- The conditions of an element hold that have pieces of their own. -/
theorem Shared.holdsOf_readers {pieces : ρ → List Piece} {markers : List Marker} {first : ρ}
    {others : List ρ} {tokens : List Token}
    (hshared : Shared pieces (markers.map Marker.piece) first others tokens) :
    ∀ reader ∈ Condition.readers (markers.map Marker.condition), reader.HoldsOf tokens := by
  simp only [Condition.readers, List.forall_mem_map]
  intro marker hmarker
  exact hshared.holdsOf (List.mem_map_of_mem hmarker)

/-! ## One value of several -/

/-- The value that the values at a place make together: the last one, the last one
that is present, or all of them. -/
def Arity.joined : Arity α γ → γ → List γ → γ
  | once, value, values => values.getLast?.getD value
  | optional, value, values => ((value :: values).flatMap Option.toList).getLast?
  | many, value, values => (value :: values).flatten

/-- Of the values behind one another an arity makes what they make together. -/
theorem Arity.combine_joined (arity : Arity α γ) (value : γ) (values : List γ) :
    arity.combine ((value :: values).flatMap arity.toList) = some (arity.joined value values) := by
  cases arity with
  | once =>
      change ((value :: values).flatMap ([·])).getLast? = _
      rw [List.flatMap_singleton', List.getLast?_cons]
      rfl
  | optional => rfl
  | many => exact congrArg some List.flatMap_id

theorem Arity.evaluate_joined {codec : Codec Token α} {tokens : List Token} (arity : Arity α γ)
    (value : ρ → γ) {first : ρ} {others : List ρ} {next : codec.reader.State}
    (hconsume : codec.reader.consume codec.reader.start tokens =
      .ok ((first :: others).flatMap fun item => arity.toList (value item), next)) :
    (arity.codec codec).part.evaluate tokens =
      .ok (arity.joined (value first) (others.map value)) := by
  rw [← List.flatMap_map, List.map_cons] at hconsume
  rw [toReadCodec_codec]
  exact arity.evaluate_of_combine hconsume (arity.combine_joined (value first) (others.map value))

/-- The values of the members that several values make together: the text of all of
them, and at the other places what the arity makes of theirs. -/
def Members.joined : {places : List Place} → {β : Type} → Members places β → β → List β → β
  | _, _, .nil, _, _ => ()
  | _, _, .ofAttribute _ arity rest, value, values =>
      (arity.joined value.1 (values.map Prod.fst), rest.joined value.2 (values.map Prod.snd))
  | _, _, .ofText rest, value, values =>
      (String.join (value.1 :: values.map Prod.fst), rest.joined value.2 (values.map Prod.snd))
  | _, _, .ofChild _ arity rest, value, values =>
      (arity.joined value.1 (values.map Prod.fst), rest.joined value.2 (values.map Prod.snd))

theorem Arity.joined_nil (arity : Arity α γ) (value : γ) : arity.joined value [] = value := by
  cases arity with
  | once => rfl
  | optional => cases value <;> rfl
  | many => exact List.flatten_singleton

/-- One value by itself stays as it is. -/
theorem Members.joined_nil : ∀ {places : List Place} {β : Type} (members : Members places β)
    (value : β), members.joined value [] = value
  | _, _, .nil, _ => rfl
  | _, _, .ofAttribute _ arity rest, value => by
      rw [Members.joined, List.map_nil, List.map_nil, arity.joined_nil, rest.joined_nil]
  | _, _, .ofText rest, value => by
      have htext : String.join [value.1] = value.1 := by
        simp
      rw [Members.joined, List.map_nil, List.map_nil, rest.joined_nil, htext]
  | _, _, .ofChild _ arity rest, value => by
      rw [Members.joined, List.map_nil, List.map_nil, arity.joined_nil, rest.joined_nil]

/-- The parts of an element make one value of the pieces of several. -/
theorem Members.evaluate_joined : ∀ {places : List Place} {β : Type} (members : Members places β)
    {pieces : ρ → List Piece} {markers : List Piece} {first : ρ} {others : List ρ}
    {tokens : List Token}, Shared pieces markers first others tokens → ∀ (value : ρ → β),
      (∀ item, ∀ piece ∈ members.pieces (value item), piece ∈ pieces item) →
        (Slots.ofParts (members.readCodecs.mapParts ReadCodec.part)).evaluate tokens =
          .ok (members.joined (value first) (others.map value))
  | _, _, .nil, _, _, _, _, _, _, _, _ => Slots.evaluate_nil _
  | _, _, .ofAttribute name arity rest, _, _, _, _, _, hshared, value, hfound => by
      have hconsume := hshared.consume_ofAttribute fun item => hfound item _ List.mem_cons_self
      have hrest := rest.evaluate_joined hshared (fun item => (value item).2)
        fun item piece hmem => hfound item piece (List.mem_cons_of_mem _ hmem)
      rw [Members.joined, List.map_map, List.map_map]
      exact Slots.evaluate_cons_of_ok (arity.evaluate_joined _ hconsume) hrest
  | _, _, .ofText rest, _, _, _, _, _, hshared, value, hfound => by
      have hconsume := hshared.consume_text fun item => hfound item _ List.mem_cons_self
      have hrest := rest.evaluate_joined hshared (fun item => (value item).2)
        fun item piece hmem => hfound item piece (List.mem_cons_of_mem _ hmem)
      rw [Members.joined, List.map_map, List.map_map]
      exact Slots.evaluate_cons_of_ok ((PartReader.evaluate_of_ok hconsume).trans rfl) hrest
  | .ofChild name :: _, _, .ofChild layout arity rest, _, _, _, _, _, hshared, value, hfound => by
      have hconsume := hshared.consume_ofChild layout.readsBack
        fun item => hfound item _ List.mem_cons_self
      have hrest := rest.evaluate_joined hshared (fun item => (value item).2)
        fun item piece hmem => hfound item piece (List.mem_cons_of_mem _ hmem)
      rw [Members.joined, List.map_map, List.map_map]
      exact Slots.evaluate_cons_of_ok (arity.evaluate_joined _ hconsume) hrest

/-! ## The tokens of a shared element -/

/-- What stands between the start token and the end token of an element that several
values share. -/
def sharedInside (pieces : ρ → List Piece) (markers : List Piece) (first : ρ) (others : List ρ) :
    List Token :=
  contentTokens ((pieces first).flatMap Piece.content) ++
    others.flatMap (fun value => (pieces value).flatMap Piece.tokens) ++
      contentTokens (markers.flatMap Piece.content)

/-- The element that several values share.  Its start token has the attributes of the
first of them, and those of the conditions. -/
def sharedTokens (name : Name) (pieces : ρ → List Piece) (markers : List Piece) :
    List ρ → List Token
  | [] => []
  | first :: others =>
      .startElement name ((pieces first ++ markers).flatMap Piece.attributes) ::
        (sharedInside pieces markers first others ++ [.endElement name])

theorem Mixed.ofPieces (pieces : List Piece) :
    Mixed (pieces.flatMap Piece.tokens) (pieces.flatMap Piece.attributes)
      (pieces.flatMap Piece.content) := by
  have hmixed (piece : Piece) : Mixed piece.tokens piece.attributes piece.content :=
    .ofInner piece.attributes piece.content
  exact .flatMap hmixed pieces

section SharedTokens

variable {pieces : ρ → List Piece} {markers : List Piece} {first : ρ} {others : List ρ}

theorem shared_inside (hdistinct : ∀ value, ((pieces value ++ markers).map Piece.place).Nodup) :
    Shared pieces markers first others
      (((pieces first ++ markers).flatMap Piece.attributes).map Token.loneAttribute ++
        sharedInside pieces markers first others) := by
  refine ⟨?_, hdistinct⟩
  have hfirst := Mixed.ofInner ((pieces first ++ markers).flatMap Piece.attributes)
    ((pieces first).flatMap Piece.content)
  have hothers := Mixed.flatMap (fun value => Mixed.ofPieces (pieces value)) others
  have hall := (hfirst.append hothers).append (.ofContent (markers.flatMap Piece.content))
  rw [List.append_nil] at hall
  simpa only [Body.ofShared, sharedInside, innerTokens, List.append_assoc] using hall

theorem nested_sharedInside : Nested (sharedInside pieces markers first others) := by
  have hothers := Mixed.flatMap (fun value => Mixed.ofPieces (pieces value)) others
  exact ((nested_contentTokens _).append hothers.nested).append (nested_contentTokens _)

theorem nested_sharedTokens (name : Name) (pieces : ρ → List Piece) (markers : List Piece)
    (values : List ρ) : Nested (sharedTokens name pieces markers values) := by
  cases values with
  | nil => exact .nil
  | cons first others => exact .group rfl nested_sharedInside rfl .nil

end SharedTokens

/-! ## Writing -/

/-- An element goes on with the pieces of its members. -/
theorem shares_element {places : List Place} {members : Members places β}
    (hcloses : ∀ state, (Writer.parts members.writers).close state = ([], state)) (name : Name)
    (markers : List Marker) (value : ρ → β) :
    ((Codec.element name members.parts (markers.map Marker.condition)).writer.contramap
        value).Shares
      (sharedTokens name (fun item => members.pieces (value item))
        (markers.map Marker.piece)) := by
  apply ((shares_elementWriter members.render.parts hcloses name _).contramap value).congr
  intro items
  cases items with
  | nil => rfl
  | cons first others =>
      change Token.startElement name _ :: _ = Token.startElement name _ :: _
      rw [written_markers, splitAttributes_pieces, splitAttributes_pieces]
      simp only [sharedInside, List.flatMap_append, List.flatMap_map]

/-- What is written before the end of an element has no attributes by themselves. -/
theorem Layout.loneless_write {name : Name} (layout : Layout name α) (value : α) :
    Loneless (layout.codec.writer.write layout.codec.writer.start value).1 := by
  obtain ⟨written, middle, closing, hwrite, -, htokens⟩ := layout.renders.1.exists_closing value
  rw [hwrite]
  intro attr hmem
  apply loneless_tokens (layout.node value) attr
  rw [← htokens]
  exact List.mem_append_left closing hmem

/-! ## Reading -/

/-- A lone part of an element gives its values as they come, and the end adds none. -/
theorem consume_enclosed {codec : Codec Token α} (hresets : codec.reader.Resets)
    (attributes : List Attribute) (hfew : attributes.length ≤ 1) {inside : List Token}
    (hnested : Nested inside) {values : List α} {next : codec.reader.State}
    (hconsume : codec.reader.consume codec.reader.start
      (attributes.map Token.loneAttribute ++ inside) = .ok (values, next))
    (hne : values ≠ []) (outer : Name) :
    (enclosed outer codec).reader.consume (enclosed outer codec).reader.start
        (.startElement outer attributes :: (inside ++ [.endElement outer])) =
      .ok (values, (enclosed outer codec).reader.start) := by
  have hpart : codec.part.reader.Resets := hresets
  have hconclude := Assembly.conclude_lone_of_values hpart hconsume hne
  have helement : (elementReader (· = outer) (Assembly.lone codec.part)).consume
      ((Assembly.lone codec.part).start, .outside)
      (.startElement outer attributes :: (inside ++ [.endElement outer])) =
        .ok (values.map (·, ()), ((Assembly.lone codec.part).start, .outside)) := by
    apply consume_elementReader_of_few (decide_eq_true rfl) hnested hconclude
    intro early middle hattributes
    have hlength := Reader.length_le_of_consume hattributes
    rw [List.length_map] at hlength
    exact Nat.le_trans hlength hfew
  refine (Reader.consume_map _ Prod.fst _ _).trans ((congrArg (Except.map _) helement).trans ?_)
  simp only [Except.map, List.map_map, Function.comp_def, List.map_id']
  rfl

theorem readAll_enclosed {codec : Codec Token α} (hresets : codec.reader.Resets)
    {inside : List Token} (hnested : Nested inside) {values : List α}
    {next : codec.reader.State}
    (hconsume : codec.reader.consume codec.reader.start inside = .ok (values, next))
    (hne : values ≠ []) (outer : Name) :
    (enclosed outer codec).toReadCodec.readAll
      (.startElement outer [] :: (inside ++ [.endElement outer])) = .ok values := by
  have hread := consume_enclosed hresets [] (Nat.zero_le 1) hnested hconsume hne outer
  have hclosed : Nested (.startElement outer [] :: (inside ++ [.endElement outer])) :=
    .group rfl hnested rfl .nil
  rw [ReadCodec.readAll_of_consume hread (hclosed.trackAll 0)]
  change Except.ok (values ++ (if _ then none else none).toList) = _
  rw [ite_self, Option.toList_none, List.append_nil]

theorem Members.shared {places : List Place} (members : Members places β) {markers : List Marker}
    (hdistinct : (places ++ markers.map Marker.place).Nodup) (value : ρ → β) (first : ρ)
    (others : List ρ) :
    let pieces (item : ρ) := members.pieces (value item)
    Shared pieces (markers.map Marker.piece) first others
      (((pieces first ++ markers.map Marker.piece).flatMap Piece.attributes).map
          Token.loneAttribute ++ sharedInside pieces (markers.map Marker.piece) first others) := by
  apply shared_inside
  intro item
  rwa [List.map_append, members.places_pieces, places_markers]

/-- An element that several values share gives one value, if its parts wait for the
end. -/
theorem Members.consume_shared {places : List Place} (members : Members places β)
    {markers : List Marker} (hdistinct : (places ++ markers.map Marker.place).Nodup)
    (value : ρ → β) (honce : places.length = 1 → ∀ {γ : Type} {part : PartReader Token γ},
      (members.readCodecs.mapParts ReadCodec.part).Mem part → ∀ {first others tokens},
        Shared (fun item => members.pieces (value item)) (markers.map Marker.piece) first others
          tokens → part.AtMostOnce tokens) (name : Name) (first : ρ) (others : List ρ) :
    (Codec.element name members.parts (markers.map Marker.condition)).reader.consume
        (Codec.element name members.parts (markers.map Marker.condition)).reader.start
        (sharedTokens name (fun item => members.pieces (value item)) (markers.map Marker.piece)
          (first :: others)) =
      .ok ([members.joined (value first) (others.map value)],
        (Codec.element name members.parts (markers.map Marker.condition)).reader.start) := by
  have hshared := members.shared hdistinct value first others
  have hvalue := members.evaluate_joined hshared value fun _ _ hmem => hmem
  have hsize : (members.readCodecs.mapParts ReadCodec.part).size = places.length := by
    rw [Parts.size_mapParts, Members.readCodecs, Parts.size_mapParts, members.size_parts]
  exact consume_element_of_evaluate (fun hmem => (members.readable hmem).resets)
    (fun condition hmem => (readable_markers condition hmem).resets) nested_sharedInside hvalue
    (fun hlone {_ _} hmem => honce (hsize ▸ hlone) hmem hshared) hshared.holdsOf_readers name

/-! ## Entries -/

/-- The elements with a certain name that stand for values by themselves: around text,
around an attribute, or around several members. -/
inductive Entry (name : Name) : Type → Type 1 where
  | ofText : Entry name String
  | ofKey (key : Name) : Entry name String
  | ofMembers {places : List Place} {β α : Type} (members : Members places β)
      (markers : List Marker) (hdistinct : (places ++ markers.map Marker.place).Nodup)
      (hseveral : 1 < places.length) (produce : β → α) (extract : α → β)
      (hinverse : ∀ value, produce (extract value) = value) : Entry name α

namespace Entry

variable {name : Name}

/-- The layout of one element. -/
def layout : Entry name α → Layout name α
  | ofText =>
      .imap (.element name (.ofText .nil) [] (List.pairwise_singleton _ _)) Prod.fst (·, ())
        fun _ => rfl
  | ofKey key =>
      .imap (.element name (.ofAttribute key .once .nil) [] (List.pairwise_singleton _ _)) Prod.fst
        (·, ()) fun _ => rfl
  | ofMembers members markers hdistinct _ produce extract hinverse =>
      .imap (.element name members markers hdistinct) produce extract hinverse

/-- The pieces of one value. -/
def pieces : Entry name α → α → List Piece
  | ofText, value => [.ofText value]
  | ofKey key, value => [.ofAttribute key [value]]
  | ofMembers members _ _ _ _ extract _, value => members.pieces (extract value)

/-- The pieces of the conditions. -/
def markers : Entry name α → List Piece
  | ofText => []
  | ofKey _ => []
  | ofMembers _ markers _ _ _ _ _ => markers.map Marker.piece

/-- The values that are read where several values share an element: the text of all of
them, their attributes one by one, or one value of all their members. -/
def joined : Entry name α → α → List α → List α
  | ofText, value, values => [String.join (value :: values)]
  | ofKey _, value, values => value :: values
  | ofMembers members _ _ _ produce extract _, value, values =>
      [produce (members.joined (extract value) (values.map extract))]

theorem joined_nil : (entry : Entry name α) → (value : α) → entry.joined value [] = [value]
  | ofText, value => by simp [joined]
  | ofKey _, _ => rfl
  | ofMembers members _ _ _ produce extract hinverse, value => by
      rw [joined, List.map_nil, members.joined_nil, hinverse]

theorem joined_ne_nil : (entry : Entry name α) → (value : α) → (values : List α) →
    entry.joined value values ≠ []
  | ofText, _, _ => List.cons_ne_nil _ _
  | ofKey _, _, _ => List.cons_ne_nil _ _
  | ofMembers _ _ _ _ _ _ _, _, _ => List.cons_ne_nil _ _

/-- The writer of an entry gives several values one element. -/
theorem shares : (entry : Entry name α) →
    entry.layout.codec.writer.Shares (sharedTokens name entry.pieces entry.markers)
  | ofText => shares_element (fun _ => rfl) name [] (·, ())
  | ofKey key => shares_element (fun _ => rfl) name [] (·, ())
  | ofMembers members markers _ hseveral _ extract _ => by
      apply shares_element (close_parts _) name markers extract
      rw [Members.writers, Parts.size_mapParts, Parts.size_mapParts, members.size_parts]
      exact Nat.ne_of_gt hseveral

/-- An element that several values share gives what they make together. -/
theorem consume_sharedTokens : (entry : Entry name α) → (value : α) → (values : List α) →
    entry.layout.codec.reader.consume entry.layout.codec.reader.start
      (sharedTokens name entry.pieces entry.markers (value :: values)) =
        .ok (entry.joined value values, entry.layout.codec.reader.start)
  | ofText, value, values => by
      have hdistinct : ([Place.ofText] ++ ([] : List Marker).map Marker.place).Nodup :=
        List.pairwise_singleton _ _
      have honce {γ : Type} {part : PartReader Token γ}
          (hmem : ((Members.ofText .nil).readCodecs.mapParts ReadCodec.part).Mem part)
          {first : String} {others : List String} {tokens : List Token}
          (hshared : Shared (fun text => [.ofText text]) [] first others tokens) :
          part.AtMostOnce tokens := by
        cases Parts.mem_one hmem
        have hconsume := hshared.consume_text fun _ => List.mem_cons_self
        exact .of_consume hconsume (Nat.zero_le 1)
      have hconsume := (Members.ofText .nil).consume_shared hdistinct (·, ()) (fun _ => honce) name
        value values
      refine (Reader.consume_map _ Prod.fst _ _).trans ((congrArg (Except.map _) hconsume).trans ?_)
      simp only [Except.map, Members.joined, List.map_map, Function.comp_def, List.map_id',
        List.map_cons, List.map_nil]
      rfl
  | ofKey key, value, values => by
      have hdistinct : ([Place.ofAttribute key] ++ ([] : List Marker).map Marker.place).Nodup :=
        List.pairwise_singleton _ _
      have hshared := (Members.ofAttribute key .once .nil).shared hdistinct (·, ()) value values
      have hkey (value : String) : Piece.ofAttribute key [value] ∈ [Piece.ofAttribute key [value]] :=
        List.mem_cons_self
      have hconsume := hshared.consume_ofAttribute hkey
      rw [List.flatMap_singleton'] at hconsume
      have hresets : (ofAttribute key).reader.Resets := fun _ => rfl
      exact consume_enclosed hresets [⟨key, value⟩] (Nat.le_refl 1) nested_sharedInside hconsume
        (List.cons_ne_nil _ _) name
  | ofMembers members markers hdistinct hseveral produce extract hinverse, value, values => by
      have hconsume := members.consume_shared hdistinct extract
        (fun hlone {_ _} => absurd hlone (Nat.ne_of_gt hseveral)) name value values
      exact (Reader.consume_map _ produce _ _).trans (congrArg (Except.map _) hconsume)

/-- An element around entries goes on with one of them from value to value: all values
share it, and one reader gives what they make together.  So a value by itself is read
back, and so are values of which each has an element of its own. -/
theorem readAll_writeAll_enclosed (entry : Entry name α) (outer : Name) (value : α)
    (values : List α) :
    let codec := enclosed outer entry.layout.codec
    codec.toWriteCodec.writeAll (value :: values) =
        .startElement outer [] ::
          (.startElement name
              ((entry.pieces value ++ entry.markers).flatMap Piece.attributes) ::
            (sharedInside entry.pieces entry.markers value values ++ [.endElement name]) ++
              [.endElement outer]) ∧
      Nested (sharedInside entry.pieces entry.markers value values) ∧
      codec.toReadCodec.readAll (codec.toWriteCodec.writeAll (value :: values)) =
        .ok (entry.joined value values) ∧
      codec.toReadCodec.readAll (codec.toWriteCodec.writeAll [value]) = .ok [value] ∧
      codec.toReadCodec.readAll
        (element outer [] ((value :: values).map entry.layout.node)).tokens =
          .ok (value :: values) := by
  intro codec
  have hwrite (value : α) (values : List α) : codec.toWriteCodec.writeAll (value :: values) =
      .startElement outer [] ::
        (sharedTokens name entry.pieces entry.markers (value :: values) ++ [.endElement outer]) :=
    WriteCodec.writeAll_cons (shares_enclosed entry.shares entry.layout.loneless_write outer) value
      values
  have hread (value : α) (values : List α) :
      codec.toReadCodec.readAll (codec.toWriteCodec.writeAll (value :: values)) =
        .ok (entry.joined value values) := by
    rw [hwrite]
    exact readAll_enclosed entry.layout.readable.resets.reader (nested_sharedTokens name _ _ _)
      (entry.consume_sharedTokens value values) (entry.joined_ne_nil value values) outer
  refine ⟨hwrite value values, nested_sharedInside, hread value values, ?_, ?_⟩
  · rw [hread, entry.joined_nil]
  · exact readAll_enclosed entry.layout.readable.resets.reader (nested_contentTokens _)
      (entry.layout.consume_nodes (value :: values)) (List.cons_ne_nil _ _) outer

/-- Two texts share an element, and are read as one. -/
theorem readAll_writeAll_enclosed_texts :
    let entry : Entry (.plain "n") String := .ofText
    let codec := enclosed (.plain "o") entry.layout.codec
    codec.toWriteCodec.writeAll ["x", "y"] =
        (element (.plain "o") [] [element (.plain "n") [] [characters "x", characters "y"]]).tokens ∧
      codec.toReadCodec.readAll (codec.toWriteCodec.writeAll ["x", "y"]) ≠ .ok ["x", "y"] := by
  intro entry codec
  have hread : codec.toReadCodec.readAll (codec.toWriteCodec.writeAll ["x", "y"]) = .ok ["xy"] :=
    rfl
  refine ⟨rfl, ?_⟩
  rw [hread]
  intro hsame
  cases congrArg List.length (Except.ok.inj hsame)

end Entry

end TokenCodec.Xml
