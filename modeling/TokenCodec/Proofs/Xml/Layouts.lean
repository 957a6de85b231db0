import TokenCodec.Proofs.Xml.Conditions
import TokenCodec.Proofs.Xml.Rendering

/-!
# Elements that write and read

The layouts of elements for which reading undoes writing, each with its codec
and with the element that stands for a value.  An element is put together from
pieces: every member and every condition owns one, at a place of its own.  The
places of an element are distinct, so its parts never meet.
-/

namespace TokenCodec.Xml

open Node

variable {α β γ : Type}

/-! ## Pieces of elements -/

/-- Where in an element a member or a condition stands. -/
inductive Place where
  | ofAttribute (name : Name)
  | ofText
  | ofChild (name : Name)
  deriving DecidableEq, Repr

/-- What stands in an element of any name. -/
structure Body where
  attributes : List Attribute
  content : List Node

/-- The element with a name and a body. -/
def Body.node (name : Name) (body : Body) : Node :=
  .element name body.attributes body.content

/-- What a member or a condition contributes to an element: attributes of one
name, text, or children of one name. -/
inductive Piece where
  | ofAttribute (name : Name) (values : List String)
  | ofText (text : String)
  | ofChild (name : Name) (bodies : List Body)

namespace Piece

/-- The place of a piece. -/
def place : Piece → Place
  | ofAttribute name _ => .ofAttribute name
  | ofText _ => .ofText
  | ofChild name _ => .ofChild name

/-- The attributes of a piece. -/
def attributes : Piece → List Attribute
  | ofAttribute name values => values.map (⟨name, ·⟩)
  | _ => []

/-- The content of a piece.  The empty text has no node. -/
def content : Piece → List Node
  | ofAttribute _ _ => []
  | ofText text => if text.isEmpty then [] else [.characters text]
  | ofChild name bodies => bodies.map (Body.node name)

/-- The tokens of a piece, attributes as tokens of their own. -/
def tokens (piece : Piece) : List Token := innerTokens piece.attributes piece.content

end Piece

/-- The body that is put together from pieces. -/
def Body.ofPieces (pieces : List Piece) : Body :=
  ⟨pieces.flatMap Piece.attributes, pieces.flatMap Piece.content⟩

/-- The place of a marker. -/
def Marker.place : Marker → Place
  | onAttribute name _ => .ofAttribute name
  | onChild name _ => .ofChild name

/-- The piece that meets a marker. -/
def Marker.piece : Marker → Piece
  | onAttribute name value => .ofAttribute name [value]
  | onChild name value => .ofChild name [.ofPieces [.ofText value]]

/-! ## Layouts -/

/-- How many values of one kind stand at a place, and the value they make
together. -/
inductive Arity (α : Type) : Type → Type 1 where
  | once : Arity α α
  | optional : Arity α (Option α)
  | many : Arity α (List α)

namespace Arity

/-- The codec of the values at a place. -/
def codec : Arity α γ → Codec Token α → Codec Token γ
  | once, codec => codec
  | optional, codec => codec.optional
  | many, codec => codec.collect

/-- The values at a place. -/
def toList : Arity α γ → γ → List α
  | once, value => [value]
  | optional, value => value.toList
  | many, values => values

/-- The reading codec of the values at a place. -/
def readCodec : Arity α γ → ReadCodec Token α → ReadCodec Token γ
  | once, codec => codec
  | optional, codec => codec.optional
  | many, codec => codec.collect

/-- The value that the values at a place make together: the last one, which may
be missing where it is not optional, or all of them. -/
def combine : Arity α γ → List α → Option γ
  | once, values => values.getLast?
  | optional, values => some values.getLast?
  | many, values => some values

theorem toReadCodec_codec (arity : Arity α γ) (codec : Codec Token α) :
    (arity.codec codec).toReadCodec = arity.readCodec codec.toReadCodec := by
  cases arity <;> rfl

theorem combine_toList (arity : Arity α γ) (value : γ) :
    arity.combine (arity.toList value) = some value := by
  cases arity with
  | once => rfl
  | optional => cases value <;> rfl
  | many => rfl

end Arity

mutual

/-- A layout of elements with a certain name. -/
inductive Layout : Name → Type → Type 1 where
  /-- An element with conditions, all places in it distinct. -/
  | element {β : Type} {places : List Place} (name : Name) (members : Members places β)
      (markers : List Marker) (hdistinct : (places ++ markers.map Marker.place).Nodup) :
      Layout name β
  /-- An element that holds any attributes. -/
  | attributes (name : Name) : Layout name (Entries Name String × Unit)
  /-- Values converted in both directions. -/
  | imap {name : Name} {α β : Type} (layout : Layout name α) (f : α → β) (g : β → α)
      (hinverse : ∀ value, f (g value) = value) : Layout name β

/-- The members of an element with the places where they stand. -/
inductive Members : List Place → Type → Type 1 where
  | nil : Members [] Unit
  | ofAttribute {places : List Place} {γ β : Type} (name : Name) (arity : Arity String γ)
      (rest : Members places β) : Members (.ofAttribute name :: places) (γ × β)
  | ofText {places : List Place} {β : Type} (rest : Members places β) :
      Members (.ofText :: places) (String × β)
  | ofChild {places : List Place} {name : Name} {α γ β : Type} (layout : Layout name α)
      (arity : Arity α γ) (rest : Members places β) : Members (.ofChild name :: places) (γ × β)

end

mutual

/-- The codec of a layout. -/
def Layout.codec : {name : Name} → {α : Type} → Layout name α → Codec Token α
  | _, _, .element name members markers _ =>
      .element name members.parts (markers.map Marker.condition)
  | _, _, .attributes name => .element name (.one anyAttribute.entries)
  | _, _, .imap layout f g _ => layout.codec.imap f g

/-- The codecs of the members. -/
def Members.parts : {places : List Place} → {β : Type} → Members places β →
    Parts (Codec Token) β
  | _, _, .nil => .nil
  | _, _, .ofAttribute name arity rest => .cons (arity.codec (ofAttribute name)) rest.parts
  | _, _, .ofText rest => .cons text rest.parts
  | _, _, .ofChild layout arity rest => .cons (arity.codec layout.codec) rest.parts

end

mutual

/-- The body of the element that stands for a value. -/
def Layout.body : {name : Name} → {α : Type} → Layout name α → α → Body
  | _, _, .element _ members markers _, value =>
      .ofPieces (members.pieces value ++ markers.map Marker.piece)
  | _, _, .attributes _, value => ⟨value.1.toList.map fun pair => ⟨pair.1, pair.2⟩, []⟩
  | _, _, .imap layout _ g _, value => layout.body (g value)

/-- The pieces that stand for the values of the members. -/
def Members.pieces : {places : List Place} → {β : Type} → Members places β → β → List Piece
  | _, _, .nil, _ => []
  | _, _, .ofAttribute name arity rest, value =>
      .ofAttribute name (arity.toList value.1) :: rest.pieces value.2
  | _, _, .ofText rest, value => .ofText value.1 :: rest.pieces value.2
  | .ofChild name :: _, _, .ofChild layout arity rest, value =>
      .ofChild name ((arity.toList value.1).map layout.body) :: rest.pieces value.2

end

/-- The element that stands for a value. -/
def Layout.node {name : Name} (layout : Layout name α) (value : α) : Node :=
  (layout.body value).node name

/-! ## Writing -/

open Writer

theorem splitAttributes_pieces (pieces : List Piece) :
    splitAttributes 0 (pieces.flatMap Piece.tokens) =
      (pieces.flatMap Piece.attributes, contentTokens (pieces.flatMap Piece.content)) := by
  induction pieces with
  | nil => rfl
  | cons piece pieces ih =>
      have hnested := nested_innerTokens piece.attributes piece.content
      have hfirst := splitAttributes_innerTokens piece.attributes piece.content
      simp only [List.flatMap_cons]
      rw [splitAttributes_append, Piece.tokens, hfirst, hnested.trackAll, ih, contentTokens_append]

namespace Arity

variable {codec : Codec Token α}

theorem renders {tokens : α → List Token} (hrenders : codec.writer.Renders tokens)
    (arity : Arity α γ) :
    (arity.codec codec).writer.Renders fun value => (arity.toList value).flatMap tokens := by
  cases arity with
  | once =>
      apply hrenders.congr
      intro value
      rw [toList, List.flatMap_singleton]
  | optional =>
      apply hrenders.optional.congr
      intro value
      cases value <;> simp [toList]
  | many => exact hrenders.collect

theorem tidy (htidy : codec.writer.Tidy) (arity : Arity α γ) :
    (arity.codec codec).writer.Tidy := by
  cases arity <;> exact htidy

end Arity

/-- The writers of the members of an element. -/
def Members.writers {places : List Place} (members : Members places β) :
    Parts (Writer Token) β :=
  (members.parts.mapParts Codec.toWriteCodec).mapParts WriteCodec.writer

/-- What the writers of the members of an element do side by side, and as the
parts of the element. -/
structure Members.Render {places : List Place} (members : Members places β) : Prop where
  beside : ∀ value,
    (besideAll members.writers).write (besideAll members.writers).start value =
      ((members.pieces value).flatMap Piece.tokens, (besideAll members.writers).start)
  parts : (Writer.parts members.writers).Renders fun value =>
    (members.pieces value).flatMap Piece.tokens
  tidy : (Writer.parts members.writers).Tidy

theorem Members.Render.nil : Members.nil.Render :=
  ⟨fun _ => rfl, .ofTokens _, .ofTokens _⟩

theorem Members.Render.cons {place : Place} {places : List Place} {rest : Members places β}
    {members : Members (place :: places) (γ × β)} {writer : Writer Token γ} (piece : γ → Piece)
    (hwriters : members.writers = .cons writer rest.writers)
    (hpieces : ∀ value, members.pieces value = piece value.1 :: rest.pieces value.2)
    (hfirst : writer.Renders fun value => (piece value).tokens) (htidy : writer.Tidy)
    (hrest : rest.Render) : members.Render := by
  have htokens (value : γ × β) : (piece value.1).tokens ++
      (rest.pieces value.2).flatMap Piece.tokens = (members.pieces value).flatMap Piece.tokens := by
    rw [hpieces, List.flatMap_cons]
  constructor
  · intro value
    rw [hwriters, ← htokens]
    exact hfirst.write_besideAll hrest.beside value
  · rw [hwriters]
    exact (hfirst.parts hrest.beside).congr htokens
  · rw [hwriters]
    exact htidy.parts rest.writers

theorem Members.Render.ofText {places : List Place} {rest : Members places β}
    (hrest : rest.Render) : (Members.ofText rest).Render := by
  apply Members.Render.cons Piece.ofText rfl (fun _ => rfl) _ (.ofTokens _) hrest
  apply (Renders.ofTokens _).congr
  intro value
  by_cases hempty : value.isEmpty = true <;>
    simp [Piece.tokens, Piece.attributes, Piece.content, innerTokens, contentTokens, Node.tokens,
      hempty]

/-- An element renders the body that its members and conditions make. -/
theorem renders_element {places : List Place} {members : Members places β}
    (hmembers : members.Render) (name : Name) {conditions : List (Condition Token)}
    {pieces : List Piece}
    (hconditions : Condition.written conditions = pieces.flatMap Piece.tokens) :
    ((Codec.element name members.parts conditions).writer.Renders fun value =>
        ((Body.ofPieces (members.pieces value ++ pieces)).node name).tokens) ∧
      (Codec.element name members.parts conditions).writer.Tidy := by
  have hsplit := splitAttributes_pieces pieces
  constructor
  · apply (renders_elementWriter hmembers.parts hmembers.tidy name _).congr
    intro value
    rw [splitAttributes_pieces, hconditions, hsplit, ← contentTokens_append,
      ← List.flatMap_append, ← List.flatMap_append]
    rfl
  · apply hmembers.tidy.element
    rw [hconditions, hsplit]
    exact loneless_contentTokens _

theorem renders_childText (name : Name) :
    ((childText name).writer.Renders fun value =>
        ((Body.ofPieces [.ofText value]).node name).tokens) ∧
      (childText name).writer.Tidy := by
  have hnothing : Condition.written ([] : List (Condition Token)) =
      ([] : List Piece).flatMap Piece.tokens := rfl
  have htext := renders_element (.ofText .nil) name hnothing
  exact ⟨htext.1.contramap (·, ()), htext.2⟩

/-- A condition writes the piece that meets it. -/
theorem Marker.write_condition (marker : Marker) :
    marker.condition.toWriteCodec.write () = marker.piece.tokens := by
  cases marker with
  | onAttribute name value => rfl
  | onChild name value =>
      have hwrite := ((renders_childText name).1.fixed value).emits ()
      refine (congrArg Prod.fst hwrite).trans ?_
      simp [Marker.piece, Piece.tokens, Piece.attributes, Piece.content, innerTokens,
        contentTokens]

theorem written_markers (markers : List Marker) :
    Condition.written (markers.map Marker.condition) =
      (markers.map Marker.piece).flatMap Piece.tokens := by
  induction markers with
  | nil => rfl
  | cons marker markers ih =>
      have hfirst := marker.write_condition
      simp only [Condition.written, List.map_cons, List.flatMap_cons] at ih ⊢
      rw [hfirst, ih]

/-- Any attributes render as the element that holds them. -/
theorem renders_attributes (name : Name) :
    ((Layout.attributes name).codec.writer.Renders fun value =>
        ((Layout.attributes name).node value).tokens) ∧
      (Layout.attributes name).codec.writer.Tidy := by
  have hpairs := (Renders.ofTokens fun pair : Name × String =>
    [Token.loneAttribute ⟨pair.1, pair.2⟩]).collect.contramap
      fun entries : Entries Name String => entries.toList
  have hnothing (value : Unit) : (besideAll (.nil : Parts (Writer Token) Unit)).write
      (besideAll .nil).start value = ([], (besideAll .nil).start) := rfl
  have htidy : anyAttribute.entries.writer.Tidy := fun _ _ hmem => by cases hmem
  constructor
  · apply (renders_elementWriter (hpairs.parts hnothing) (htidy.parts .nil) name []).congr
    intro value
    have htokens : value.1.toList.flatMap (fun pair => [Token.loneAttribute ⟨pair.1, pair.2⟩]) ++
        [] = innerTokens (value.1.toList.map fun pair => ⟨pair.1, pair.2⟩) [] := by
      rw [innerTokens, contentTokens, List.map_map, List.map_eq_flatMap]
      rfl
    rw [htokens, splitAttributes_innerTokens]
    simp [splitAttributes, Layout.node, Body.node, Layout.body, Node.tokens]
  · exact (htidy.parts .nil).element name fun _ hmem => by cases hmem

theorem renders_ofAttribute (name : Name) (arity : Arity String γ) :
    (arity.codec (ofAttribute name)).writer.Renders fun value =>
      (Piece.ofAttribute name (arity.toList value)).tokens := by
  apply (arity.renders (.ofTokens _)).congr
  intro value
  rw [Piece.tokens, innerTokens, Piece.attributes, Piece.content, contentTokens,
    List.append_nil, List.map_map, List.map_eq_flatMap]
  rfl

mutual

/-- The writer of a layout renders the element of a value. -/
theorem Layout.renders : ∀ {name : Name} {α : Type} (layout : Layout name α),
    (layout.codec.writer.Renders fun value => (layout.node value).tokens) ∧
      layout.codec.writer.Tidy
  | _, _, .element name members markers _ =>
      renders_element members.render name (written_markers markers)
  | _, _, .attributes name => renders_attributes name
  | _, _, .imap layout _ g _ => ⟨layout.renders.1.contramap g, layout.renders.2⟩

/-- The writers of the members of an element render their pieces. -/
theorem Members.render : ∀ {places : List Place} {β : Type} (members : Members places β),
    members.Render
  | _, _, .nil => .nil
  | _, _, .ofAttribute name arity rest =>
      .cons _ rfl (fun _ => rfl) (renders_ofAttribute name arity) (arity.tidy (.ofTokens _))
        rest.render
  | _, _, .ofText rest => .ofText rest.render
  | .ofChild name :: _, _, .ofChild layout arity rest => by
      refine .cons (fun value => .ofChild name ((arity.toList value).map layout.body)) rfl
        (fun _ => rfl) ?_ (arity.tidy layout.renders.2) rest.render
      apply (arity.renders layout.renders.1).congr
      intro value
      rw [Piece.tokens, innerTokens, Piece.content, contentTokens_eq_flatMap, List.map_map,
        List.flatMap_map]
      rfl

end

theorem Members.size_parts : ∀ {places : List Place} {β : Type} (members : Members places β),
    members.parts.size = places.length
  | _, _, .nil => rfl
  | _, _, .ofAttribute _ _ rest => congrArg (· + 1) rest.size_parts
  | _, _, .ofText rest => congrArg (· + 1) rest.size_parts
  | .ofChild _ :: _, _, .ofChild _ _ rest => congrArg (· + 1) rest.size_parts

end TokenCodec.Xml
