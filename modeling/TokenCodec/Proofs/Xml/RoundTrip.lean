import TokenCodec.Proofs.Streams
import TokenCodec.Proofs.Xml.Layouts

/-!
# Reading elements that were written

The reader of a layout takes the element that stands for a value back to the
value, and is at its start again behind it.  The places of an element are
distinct, so every part meets the piece at its own place and nothing else.  With
the writer rendering that element, one reader gives the values of a stream in
order.
-/

namespace TokenCodec.Xml

open Node

variable {α β γ : Type}

/-! ## Pieces at their places -/

section Pieces

variable {pieces : List Piece} {name : Name}

/-- What only one place can give is nothing without a piece at that place. -/
theorem flatMap_of_no_place {ρ : Type} {pick : Piece → List ρ} {place : Place}
    (hnone : place ∉ pieces.map Piece.place)
    (hother : ∀ other : Piece, other.place ≠ place → pick other = []) :
    pieces.flatMap pick = [] := by
  rw [List.flatMap_eq_nil_iff]
  intro other hmem
  apply hother
  rintro rfl
  exact hnone (List.mem_map_of_mem hmem)

/-- What only one place can give comes from the piece at that place. -/
theorem flatMap_of_place {ρ : Type} {pick : Piece → List ρ} {piece : Piece}
    (hdistinct : (pieces.map Piece.place).Nodup) (hmem : piece ∈ pieces)
    (hother : ∀ other : Piece, other.place ≠ piece.place → pick other = []) :
    pieces.flatMap pick = pick piece := by
  induction pieces with
  | nil => cases hmem
  | cons first pieces ih =>
      obtain ⟨hnew, hrest⟩ := List.nodup_cons.mp hdistinct
      rw [List.flatMap_cons]
      rcases List.mem_cons.mp hmem with rfl | hlater
      · rw [flatMap_of_no_place hnew hother, List.append_nil]
      · have hfirst : first.place ≠ piece.place := by
          intro heq
          exact hnew (heq ▸ List.mem_map_of_mem hlater)
        rw [hother first hfirst, ih hrest hlater, List.nil_append]

theorem attributes_elsewhere {piece : Piece} (hplace : piece.place ≠ .ofAttribute name) :
    piece.attributes.filterMap (fun attr => if attr.name = name then some attr.value else none) =
      [] := by
  cases piece with
  | ofAttribute other values =>
      have hne : other ≠ name := fun heq => hplace (congrArg Place.ofAttribute heq)
      simp [Piece.attributes, List.filterMap_map, hne]
  | _ => rfl

theorem attributes_of_no_place (hnone : .ofAttribute name ∉ pieces.map Piece.place) :
    (pieces.flatMap Piece.attributes).filterMap
      (fun attr => if attr.name = name then some attr.value else none) = [] := by
  rw [List.filterMap_flatMap, flatMap_of_no_place hnone fun _ => attributes_elsewhere]

theorem attributes_of_mem (hdistinct : (pieces.map Piece.place).Nodup) {values : List String}
    (hmem : .ofAttribute name values ∈ pieces) :
    (pieces.flatMap Piece.attributes).filterMap
      (fun attr => if attr.name = name then some attr.value else none) = values := by
  rw [List.filterMap_flatMap, flatMap_of_place hdistinct hmem fun _ => attributes_elsewhere]
  have hvalue : (fun attr : Attribute => if attr.name = name then some attr.value else none) ∘
      (fun value => ⟨name, value⟩) = some := by
    funext value
    exact if_pos rfl
  rw [Piece.attributes, List.filterMap_map, hvalue, List.filterMap_some]

theorem text_elsewhere {piece : Piece} (hplace : piece.place ≠ .ofText) :
    piece.content.filterMap text? = [] := by
  cases piece with
  | ofText text => exact absurd rfl hplace
  | ofAttribute other values => rfl
  | ofChild other bodies => simp [Piece.content, Body.node, text?, List.filterMap_map]

theorem textOf_of_no_place (hnone : .ofText ∉ pieces.map Piece.place) :
    textOf (pieces.flatMap Piece.content) = "" := by
  rw [textOf, List.filterMap_flatMap, flatMap_of_no_place hnone fun _ => text_elsewhere]
  rfl

theorem textOf_of_mem (hdistinct : (pieces.map Piece.place).Nodup) {text : String}
    (hmem : .ofText text ∈ pieces) : textOf (pieces.flatMap Piece.content) = text := by
  rw [textOf, List.filterMap_flatMap, flatMap_of_place hdistinct hmem fun _ => text_elsewhere]
  by_cases hempty : text.isEmpty = true
  · simp_all [Piece.content]
  · simp [Piece.content, hempty, text?]

theorem content_elsewhere {piece : Piece} (hplace : piece.place ≠ .ofChild name) :
    piece.content.filter (Node.bears (· = name)) = [] := by
  rw [List.filter_eq_nil_iff]
  intro node hnode
  cases piece with
  | ofAttribute other values => cases hnode
  | ofText text =>
      rw [Piece.content] at hnode
      split at hnode
      · cases hnode
      · cases List.mem_singleton.mp hnode
        exact Bool.false_ne_true
  | ofChild other bodies =>
      obtain ⟨body, -, rfl⟩ := List.mem_map.mp hnode
      have hne : other ≠ name := fun heq => hplace (congrArg Place.ofChild heq)
      simpa [Body.node, bears] using hne

theorem content_of_no_place (hnone : .ofChild name ∉ pieces.map Piece.place) :
    (pieces.flatMap Piece.content).filter (Node.bears (· = name)) = [] := by
  rw [List.filter_flatMap, flatMap_of_no_place hnone fun _ => content_elsewhere]

theorem content_of_mem (hdistinct : (pieces.map Piece.place).Nodup) {bodies : List Body}
    (hmem : .ofChild name bodies ∈ pieces) :
    (pieces.flatMap Piece.content).filter (Node.bears (· = name)) =
      bodies.map (Body.node name) := by
  rw [List.filter_flatMap, flatMap_of_place hdistinct hmem fun _ => content_elsewhere,
    Piece.content, List.filter_eq_self]
  intro node hnode
  obtain ⟨body, -, rfl⟩ := List.mem_map.mp hnode
  exact decide_eq_true rfl

end Pieces

/-! ## Parts of an element -/

/-- What the reader of an element hands to its parts. -/
def Body.inside (body : Body) : List Token := innerTokens body.attributes body.content

section Parts

variable {pieces : List Piece} {name : Name}

theorem consume_ofAttribute (hdistinct : (pieces.map Piece.place).Nodup) {values : List String}
    (hmem : .ofAttribute name values ∈ pieces) :
    (ofAttribute name).reader.consume (ofAttribute name).reader.start
      (Body.ofPieces pieces).inside = .ok (values, (ofAttribute name).reader.start) := by
  have hconsume := consume_attributeReader
    (fun attr => if attr.name = name then some attr.value else none)
    (pieces.flatMap Piece.attributes) (pieces.flatMap Piece.content)
  rwa [attributes_of_mem hdistinct hmem] at hconsume

theorem evaluate_text (hdistinct : (pieces.map Piece.place).Nodup) {value : String}
    (hmem : .ofText value ∈ pieces) :
    text.part.evaluate (Body.ofPieces pieces).inside = .ok value ∧
      text.part.AtMostOnce (Body.ofPieces pieces).inside := by
  have hconsume := consume_textReader (pieces.flatMap Piece.attributes)
    (pieces.flatMap Piece.content)
  rw [textOf_of_mem hdistinct hmem] at hconsume
  exact ⟨(PartReader.evaluate_of_ok hconsume).trans rfl, .of_consume hconsume (Nat.zero_le 1)⟩

/-- The laws of a codec that reads elements with a certain name. -/
structure ReadsBack (codec : Codec Token α) (name : Name) (body : α → Body) : Prop where
  seeks : Seeks codec.reader (· = name)
  reads : ∀ value, codec.reader.consume codec.reader.start ((body value).node name).tokens =
    .ok ([value], codec.reader.start)

theorem ReadsBack.consume {codec : Codec Token α} {body : α → Body}
    (hcodec : ReadsBack codec name body) (hdistinct : (pieces.map Piece.place).Nodup)
    {values : List α} (hmem : .ofChild name (values.map body) ∈ pieces) :
    codec.reader.consume codec.reader.start (Body.ofPieces pieces).inside =
      .ok (values, codec.reader.start) := by
  have hfound := content_of_mem hdistinct hmem
  rw [List.map_map] at hfound
  have hconsume := hcodec.seeks.consume_innerTokens (fun value _ => hcodec.reads value) hfound
    (pieces.flatMap Piece.attributes)
  rwa [List.map_id'] at hconsume

end Parts

namespace Arity

variable {tokens : List Token}

/-- The value at a place is what the arity makes of the values of the codec. -/
theorem evaluate_of_combine (arity : Arity α γ) {codec : ReadCodec Token α} {values : List α}
    {value : γ} {next : codec.reader.State}
    (hconsume : codec.reader.consume codec.reader.start tokens = .ok (values, next))
    (hvalue : arity.combine values = some value) :
    (arity.readCodec codec).part.evaluate tokens = .ok value := by
  cases arity with
  | once =>
      refine (PartReader.evaluate_of_ok hconsume).trans ?_
      change values.getLast? = some value at hvalue
      rw [hvalue]
      rfl
  | optional =>
      have hoptional := Reader.consume_optional codec.reader codec.reader.start false tokens
      rw [hconsume] at hoptional
      refine (PartReader.evaluate_of_ok hoptional).trans ?_
      obtain rfl : values.getLast? = value := Option.some.inj hvalue
      rw [List.getLast?_map]
      cases hlast : values.getLast? with
      | some last => rfl
      | none =>
          rw [List.getLast?_eq_none_iff.mp hlast]
          rfl
  | many =>
      have hcollect := Reader.consume_collect codec.reader codec.reader.start [] tokens
      rw [hconsume] at hcollect
      refine (PartReader.evaluate_of_ok hcollect).trans ?_
      obtain rfl : values = value := Option.some.inj hvalue
      have hheld : (values.reverse ++ []).reverse = values := by
        rw [List.append_nil, List.reverse_reverse]
      exact congrArg Except.ok hheld

/-- The values that a codec consumes from an element are those of the arity. -/
theorem evaluate (arity : Arity α γ) {codec : Codec Token α} {value : γ}
    {next : codec.reader.State}
    (hconsume : codec.reader.consume codec.reader.start tokens =
      .ok (arity.toList value, next)) :
    (arity.codec codec).part.evaluate tokens = .ok value ∧
      (arity.codec codec).part.AtMostOnce tokens := by
  constructor
  · rw [toReadCodec_codec]
    exact arity.evaluate_of_combine hconsume (arity.combine_toList value)
  · cases arity with
    | once => exact .of_consume hconsume (Nat.le_refl 1)
    | optional =>
        have hoptional := Reader.consume_optional codec.reader codec.reader.start false tokens
        rw [hconsume] at hoptional
        refine .of_consume hoptional ?_
        cases value <;> simp [toList]
    | many =>
        have hcollect := Reader.consume_collect codec.reader codec.reader.start [] tokens
        rw [hconsume] at hcollect
        exact .of_consume hcollect (Nat.zero_le 1)

end Arity

/-! ## Elements -/

/-- The codecs of the members for reading. -/
def Members.readCodecs {places : List Place} (members : Members places β) :
    Parts (ReadCodec Token) β :=
  members.parts.mapParts Codec.toReadCodec

/-- The parts of an element give the values, none of them more than once. -/
structure Members.Reads {places : List Place} (members : Members places β) (value : β)
    (pieces : List Piece) : Prop where
  value : (Slots.ofParts (members.readCodecs.mapParts ReadCodec.part)).evaluate
    (Body.ofPieces pieces).inside = .ok value
  once : ∀ {γ : Type} {part : PartReader Token γ},
    (members.readCodecs.mapParts ReadCodec.part).Mem part →
      part.AtMostOnce (Body.ofPieces pieces).inside

section Elements

variable {places : List Place} {pieces : List Piece} {name : Name}

theorem Members.Reads.nil : Members.nil.Reads () pieces :=
  ⟨Slots.evaluate_nil _, fun hmem => hmem.elim⟩

theorem Members.Reads.cons {place : Place} {rest : Members places β}
    {members : Members (place :: places) (γ × β)} {codec : Codec Token γ} {first : γ} {others : β}
    (hcodecs : members.readCodecs = .cons codec.toReadCodec rest.readCodecs)
    (hfirst : codec.part.evaluate (Body.ofPieces pieces).inside = .ok first ∧
      codec.part.AtMostOnce (Body.ofPieces pieces).inside)
    (hrest : rest.Reads others pieces) : members.Reads (first, others) pieces := by
  constructor
  · rw [hcodecs]
    exact Slots.evaluate_cons_of_ok hfirst.1 hrest.value
  · intro γ part hmem
    rw [hcodecs] at hmem
    rcases hmem with hhead | htail
    · cases hhead
      exact hfirst.2
    · exact hrest.once htail

/-- An element is read if its parts give a value, and a lone part no more than one,
and its conditions hold. -/
theorem consume_element_of_evaluate {members : Members places β} {value : β}
    (hresets : ∀ {γ : Type} {codec : ReadCodec Token γ},
      members.readCodecs.Mem codec → codec.Resets)
    {conditions : List (Condition Token)}
    (hreadable : ∀ condition ∈ conditions, condition.toReadCodec.Resets)
    {attributes : List Attribute} {inside : List Token} (hnested : Nested inside)
    (hvalue : (Slots.ofParts (members.readCodecs.mapParts ReadCodec.part)).evaluate
      (attributes.map Token.loneAttribute ++ inside) = .ok value)
    (honce : (members.readCodecs.mapParts ReadCodec.part).size = 1 →
      ∀ {γ : Type} {part : PartReader Token γ},
        (members.readCodecs.mapParts ReadCodec.part).Mem part →
          part.AtMostOnce (attributes.map Token.loneAttribute ++ inside))
    (hholds : ∀ reader ∈ Condition.readers conditions,
      reader.HoldsOf (attributes.map Token.loneAttribute ++ inside)) (name : Name) :
    (Codec.element name members.parts conditions).reader.consume
        (Codec.element name members.parts conditions).reader.start
        (.startElement name attributes :: (inside ++ [.endElement name])) =
      .ok ([value], (Codec.element name members.parts conditions).reader.start) := by
  have hassembly : (Assembly.ofParts (members.readCodecs.mapParts ReadCodec.part)
      (Condition.readers conditions)).Resets :=
    .ofParts (resets_partReaders hresets) (resets_conditionReaders hreadable)
  have hconclude := Assembly.conclude_ofParts_of_ok hassembly honce hvalue hholds
  exact consume_elementReader_of_conclude (decide_eq_true rfl) hnested hconclude name

/-- An element is read back if its members are and its conditions hold. -/
theorem consume_element {members : Members places β} {value : β}
    (hresets : ∀ {γ : Type} {codec : ReadCodec Token γ},
      members.readCodecs.Mem codec → codec.Resets)
    (hmembers : members.Reads value pieces) {conditions : List (Condition Token)}
    (hreadable : ∀ condition ∈ conditions, condition.toReadCodec.Resets)
    (hholds : ∀ reader ∈ Condition.readers conditions,
      reader.HoldsOf (Body.ofPieces pieces).inside) (name : Name) :
    (Codec.element name members.parts conditions).reader.consume
        (Codec.element name members.parts conditions).reader.start
        ((Body.ofPieces pieces).node name).tokens =
      .ok ([value], (Codec.element name members.parts conditions).reader.start) := by
  have hnested := nested_contentTokens (pieces.flatMap Piece.content)
  exact consume_element_of_evaluate hresets hreadable hnested hmembers.value
    (fun _ => hmembers.once) hholds name

theorem readsBack_childText (name : Name) :
    ReadsBack (childText name) name fun value => .ofPieces [.ofText value] where
  seeks := (seeks_elementReader (· = name) _).map Prod.fst
  reads value := by
    have hmember : (Members.ofText .nil).Reads (value, ()) [.ofText value] :=
      .cons rfl (evaluate_text (by simp) List.mem_cons_self) .nil
    have hresets {γ : Type} {codec : ReadCodec Token γ}
        (hmem : (Members.ofText .nil).readCodecs.Mem codec) : codec.Resets := by
      cases Parts.mem_one hmem
      exact Readable.text.resets
    have hconsume := consume_element hresets hmember (List.forall_mem_nil _)
      (List.forall_mem_nil _) name
    refine (Reader.consume_map _ Prod.fst _ _).trans ?_
    refine (congrArg (Except.map _) hconsume).trans ?_
    rfl

/-- A condition holds of an element with the piece that meets it. -/
theorem Marker.holdsOf {marker : Marker} (hdistinct : (pieces.map Piece.place).Nodup)
    (hmem : marker.piece ∈ pieces) :
    marker.condition.reader.HoldsOf (Body.ofPieces pieces).inside := by
  cases marker with
  | onAttribute name value => exact Reader.holdsOf_fixed (consume_ofAttribute hdistinct hmem) _
  | onChild name value =>
      have hchild : .ofChild name ([value].map fun value => .ofPieces [.ofText value]) ∈ pieces :=
        hmem
      exact Reader.holdsOf_fixed ((readsBack_childText name).consume hdistinct hchild) _

end Elements

/-! ## Layouts -/

theorem Arity.readable {codec : Codec Token α} (hcodec : Readable codec.toReadCodec)
    (arity : Arity α γ) : Readable (arity.codec codec).toReadCodec := by
  cases arity with
  | once => exact hcodec
  | optional => exact .optional hcodec
  | many => exact .collect hcodec

theorem readable_markers {markers : List Marker} :
    ∀ condition ∈ markers.map Marker.condition, Readable condition.toReadCodec := by
  intro condition hmem
  obtain ⟨marker, -, rfl⟩ := List.mem_map.mp hmem
  exact marker.readable

theorem readable_attributes {codec : ReadCodec Token γ}
    (hmem : (Parts.one anyAttribute.toReadCodec.entries).Mem codec) : Readable codec := by
  cases Parts.mem_one hmem
  exact .entries .anyAttribute

mutual

theorem Layout.readable : ∀ {name : Name} {α : Type} (layout : Layout name α),
    Readable layout.codec.toReadCodec
  | _, _, .element _ members _ _ => .elements _ _ members.readable readable_markers
  | _, _, .attributes _ => .elements _ _ readable_attributes (List.forall_mem_nil _)
  | _, _, .imap layout f _ _ => .map layout.readable f

theorem Members.readable : ∀ {places : List Place} {β : Type} (members : Members places β)
    {γ : Type} {codec : ReadCodec Token γ}, members.readCodecs.Mem codec → Readable codec
  | _, _, .nil, _, _, hmem => hmem.elim
  | _, _, .ofAttribute name arity rest, _, _, hmem => by
      rcases hmem with hfirst | hrest
      · cases hfirst
        exact arity.readable (.ofAttribute name)
      · exact rest.readable hrest
  | _, _, .ofText rest, _, _, hmem => by
      rcases hmem with hfirst | hrest
      · cases hfirst
        exact .text
      · exact rest.readable hrest
  | _, _, .ofChild layout arity rest, _, _, hmem => by
      rcases hmem with hfirst | hrest
      · cases hfirst
        exact arity.readable layout.readable
      · exact rest.readable hrest

end

/-- The pieces of members stand at the places of the members. -/
theorem Members.places_pieces : ∀ {places : List Place} {β : Type} (members : Members places β)
    (value : β), (members.pieces value).map Piece.place = places
  | _, _, .nil, _ => rfl
  | _, _, .ofAttribute name _ rest, value =>
      congrArg (Place.ofAttribute name :: ·) (rest.places_pieces value.2)
  | _, _, .ofText rest, value => congrArg (Place.ofText :: ·) (rest.places_pieces value.2)
  | .ofChild name :: _, _, .ofChild _ _ rest, value =>
      congrArg (Place.ofChild name :: ·) (rest.places_pieces value.2)

theorem places_markers (markers : List Marker) :
    (markers.map Marker.piece).map Piece.place = markers.map Marker.place := by
  rw [List.map_map]
  apply List.map_congr_left
  intro marker _
  cases marker <;> rfl

/-- The attributes of an element, as pairs, give the map. -/
theorem consume_attributes (entries : Entries Name String) :
    anyAttribute.entries.reader.consume anyAttribute.entries.reader.start
        (innerTokens (entries.toList.map fun pair => ⟨pair.1, pair.2⟩) []) =
      .ok ([], (anyAttribute.reader.start, entries)) := by
  have hgather := Reader.consume_gather anyAttribute.reader Entries.empty
    (fun store entry => store.insert entry.1 entry.2) anyAttribute.reader.start Entries.empty
    (innerTokens (entries.toList.map fun pair => ⟨pair.1, pair.2⟩) [])
  have hpairs := consume_attributeReader (fun attr => some (attr.name, attr.value))
    (entries.toList.map fun pair => ⟨pair.1, pair.2⟩) []
  have hpair : (fun attr : Attribute => some (attr.name, attr.value)) ∘
      (fun pair : Name × String => ⟨pair.1, pair.2⟩) = some := rfl
  rw [List.filterMap_map, hpair, List.filterMap_some] at hpairs
  refine hgather.trans ((congrArg (Except.map _) hpairs).trans ?_)
  exact congrArg (fun store => Except.ok ([], (anyAttribute.reader.start, store)))
    entries.ofList_toList

/-- An element of any attributes is read back. -/
theorem readsBack_attributes (name : Name) :
    ReadsBack (Layout.attributes name).codec name (Layout.attributes name).body where
  seeks := seeks_elementReader (· = name) _
  reads value := by
    obtain ⟨entries, nothing⟩ := value
    have hconsume := consume_attributes entries
    have hpart : anyAttribute.toReadCodec.entries.part.evaluate
        (innerTokens (entries.toList.map fun pair => ⟨pair.1, pair.2⟩) []) = .ok entries :=
      (PartReader.evaluate_of_ok hconsume).trans rfl
    have honce {γ : Type} {part : PartReader Token γ}
        (hmem : (Parts.one anyAttribute.toReadCodec.entries.part).Mem part) :
        part.AtMostOnce
          (innerTokens (entries.toList.map fun pair => ⟨pair.1, pair.2⟩) []) := by
      cases Parts.mem_one hmem
      exact .of_consume hconsume (Nat.zero_le 1)
    have hassembly : (Assembly.ofParts (Parts.one anyAttribute.toReadCodec.entries.part)
        []).Resets :=
      .ofParts (resets_partReaders fun hmem => (readable_attributes hmem).resets)
        (List.forall_mem_nil _)
    have hconclude := Assembly.conclude_ofParts_of_ok hassembly (fun _ => honce)
      (Slots.evaluate_cons_of_ok hpart (Slots.evaluate_nil _)) (List.forall_mem_nil _)
    exact consume_elementReader_of_conclude (decide_eq_true rfl) .nil hconclude name

mutual

/-- The element of a value reads as the value. -/
theorem Layout.readsBack : ∀ {name : Name} {α : Type} (layout : Layout name α),
    ReadsBack layout.codec name layout.body
  | _, _, .element name members markers hdistinct => by
      refine ⟨seeks_elementReader (· = name) _, fun value => ?_⟩
      have hpieces : ((members.pieces value ++ markers.map Marker.piece).map Piece.place).Nodup := by
        rwa [List.map_append, members.places_pieces, places_markers]
      apply consume_element (fun hmem => (members.readable hmem).resets)
        (members.reads value hpieces fun piece hmem => List.mem_append_left _ hmem)
        (fun condition hmem => (readable_markers condition hmem).resets)
      intro reader hmem
      obtain ⟨condition, hcondition, rfl⟩ := List.mem_map.mp hmem
      obtain ⟨marker, hmarker, rfl⟩ := List.mem_map.mp hcondition
      exact marker.holdsOf hpieces (List.mem_append_right _ (List.mem_map_of_mem hmarker))
  | _, _, .attributes name => readsBack_attributes name
  | _, _, .imap layout f g hinverse => by
      refine ⟨layout.readsBack.seeks.map f, fun value => ?_⟩
      refine (Reader.consume_map _ f _ _).trans ?_
      refine (congrArg (Except.map _) (layout.readsBack.reads (g value))).trans ?_
      exact congrArg (fun found => Except.ok ([found], layout.codec.reader.start)) (hinverse value)

theorem Members.reads : ∀ {places : List Place} {β : Type} (members : Members places β)
    (value : β) {pieces : List Piece}, (pieces.map Piece.place).Nodup →
      (∀ piece ∈ members.pieces value, piece ∈ pieces) → members.Reads value pieces
  | _, _, .nil, _, _, _, _ => .nil
  | _, _, .ofAttribute name arity rest, (first, others), _, hdistinct, hfound => by
      have hpiece := hfound _ List.mem_cons_self
      exact .cons rfl (arity.evaluate (consume_ofAttribute hdistinct hpiece))
        (rest.reads others hdistinct fun piece hmem => hfound piece (List.mem_cons_of_mem _ hmem))
  | _, _, .ofText rest, (first, others), _, hdistinct, hfound => by
      have hpiece := hfound _ List.mem_cons_self
      exact .cons rfl (evaluate_text hdistinct hpiece)
        (rest.reads others hdistinct fun piece hmem => hfound piece (List.mem_cons_of_mem _ hmem))
  | .ofChild name :: _, _, .ofChild layout arity rest, (first, others), _, hdistinct, hfound => by
      have hpiece := hfound _ List.mem_cons_self
      exact .cons rfl (arity.evaluate (layout.readsBack.consume hdistinct hpiece))
        (rest.reads others hdistinct fun piece hmem => hfound piece (List.mem_cons_of_mem _ hmem))

end

/-! ## Streams -/

theorem Layout.silent : ∀ {name : Name} {α : Type} (layout : Layout name α),
    layout.codec.reader.Silent
  | _, _, .element _ _ _ _ => silent_elementReader _ _
  | _, _, .attributes _ => silent_elementReader _ _
  | _, _, .imap layout f _ _ => layout.silent.map f

theorem Layout.consume_nodes {name : Name} (layout : Layout name α) (values : List α) :
    layout.codec.reader.consume layout.codec.reader.start
      (contentTokens (values.map layout.node)) = .ok (values, layout.codec.reader.start) := by
  induction values with
  | nil => rfl
  | cons value values ih => exact Reader.consume_append_ok (layout.readsBack.reads value) ih

/-- One reader gives back the values that were written one after the other. -/
theorem Layout.readAll_written {name : Name} (layout : Layout name α) (values : List α) :
    layout.codec.toReadCodec.readAll (values.flatMap layout.codec.toWriteCodec.write) =
      .ok values := by
  have hwrite : layout.codec.toWriteCodec.write = fun value => (layout.node value).tokens := by
    funext value
    exact congrArg Prod.fst (layout.renders.1.emits value)
  have hnothing : (layout.codec.reader.reset layout.codec.reader.start).1.value? = none := by
    have hsilent := layout.silent layout.codec.reader.start
    cases hreset : (layout.codec.reader.reset layout.codec.reader.start).1 <;>
      simp_all [Outcome.isProduced, Outcome.value?]
  calc
    layout.codec.toReadCodec.readAll (values.flatMap layout.codec.toWriteCodec.write) =
        layout.codec.toReadCodec.readAll (contentTokens (values.map layout.node)) := by
      rw [hwrite, contentTokens_eq_flatMap, List.flatMap_map]
    _ = .ok (values ++ []) := by
      rw [ReadCodec.readAll_of_consume (layout.consume_nodes values)
        ((nested_contentTokens _).trackAll 0), hnothing, ite_self]
      rfl
    _ = .ok values := by
      rw [List.append_nil]

example :
    let entry : Layout (.plain "entry") (String × Option String × Unit) :=
      .element (.plain "entry") (.ofText (.ofAttribute (.plain "key") .optional .nil)) [] (by decide)
    let layout : Layout (.plain "entries") (List (String × Option String × Unit) × Unit) :=
      .element (.plain "entries") (.ofChild entry .many .nil)
        [.onAttribute (.plain "version") "1", .onChild (.plain "kind") "map"] (by decide)
    layout.codec.toReadCodec.readAll
      ([([("a", some "k", ()), ("", none, ())], ()), ([], ())].flatMap
        layout.codec.toWriteCodec.write) =
          .ok [([("a", some "k", ()), ("", none, ())], ()), ([], ())] := rfl

end TokenCodec.Xml
