import TokenCodec.Proofs.Entries
import TokenCodec.Proofs.Shapes
import TokenCodec.Proofs.Xml.Layouts

/-!
# Decoding element trees

The shapes of values that codecs of elements without conditions read, and what
a node of an element tree decodes to at such a shape.  There are no tokens,
depths or states here: decoding looks at the attributes, the text and the
children of one element, and goes on with the children that bear the name of a
member.  An element with more than one part waits for its end, so the members
of a shape are counted and at least two.  A lone text waits for the end as well.
-/

namespace TokenCodec.Xml

open Json (Decoded)

variable {α β γ : Type}

mutual

/-- A shape of elements with a certain name. -/
inductive Shape : Type → Type 1 where
  /-- The text directly inside an element. -/
  | text (name : Name) : Shape String
  | element {extra : Nat} {β γ : Type} (name : Name) (members : Shape.Members (extra + 2) β)
      (produce : β → γ) : Shape γ

/-- The members of an element shape, in order, and their number. -/
inductive Shape.Members : Nat → Type → Type 1 where
  | nil : Shape.Members 0 Unit
  | ofAttribute {count : Nat} {γ β : Type} (name : Name) (arity : Arity String γ)
      (rest : Shape.Members count β) : Shape.Members (count + 1) (γ × β)
  | ofText {count : Nat} {β : Type} (rest : Shape.Members count β) :
      Shape.Members (count + 1) (String × β)
  /-- All attributes of the element. -/
  | attributes {count : Nat} {β : Type} (rest : Shape.Members count β) :
      Shape.Members (count + 1) (Entries Name String × β)
  | ofChild {count : Nat} {α γ β : Type} (shape : Shape α) (arity : Arity α γ)
      (rest : Shape.Members count β) : Shape.Members (count + 1) (γ × β)

end

mutual

/-- The codec of a shape. -/
def Shape.codec : {α : Type} → Shape α → ReadCodec Token α
  | _, .text name => (ReadCodec.element name (.one Xml.text.toReadCodec)).map Prod.fst
  | _, .element name members produce => (ReadCodec.element name members.parts).map produce

/-- The codecs of the members. -/
def Shape.Members.parts : {count : Nat} → {β : Type} → Shape.Members count β →
    Parts (ReadCodec Token) β
  | _, _, .nil => .nil
  | _, _, .ofAttribute name arity rest =>
      .cons (arity.readCodec (ofAttribute name).toReadCodec) rest.parts
  | _, _, .ofText rest => .cons Xml.text.toReadCodec rest.parts
  | _, _, .attributes rest => .cons anyAttribute.toReadCodec.entries rest.parts
  | _, _, .ofChild shape arity rest => .cons (arity.readCodec shape.codec) rest.parts

end

/-- The name of the elements of a shape. -/
def Shape.name : Shape α → Name
  | .text name => name
  | .element name _ _ => name

/-- The values of the attributes with a name. -/
def valuesAt (name : Name) (attributes : List Attribute) : List String :=
  (attributes.filter (·.name = name)).map Attribute.value

/-- The attributes as a map: each name once, with its last value. -/
def attributeMap (attributes : List Attribute) : Entries Name String :=
  .ofLast (attributes.map fun attr => (attr.name, attr.value))

mutual

/-- Decode a node at a shape.  Text, and elements with other names, are passed
over. -/
def Shape.decode : {α : Type} → Shape α → Node → Decoded α
  | _, _, .characters _ => .absent
  | _, .text name, .element given _ content =>
      if given = name then .value (Node.textOf content) else .absent
  | _, .element name members produce, .element given attributes content =>
      if given = name then .ofParsed ((members.decode attributes content).map produce)
      else .absent

/-- Decode the members of an element from its attributes and its content. -/
def Shape.Members.decode : {count : Nat} → {β : Type} → Shape.Members count β →
    List Attribute → List Node → Option β
  | _, _, .nil, _, _ => some ()
  | _, _, .ofAttribute name arity rest, attributes, content =>
      (arity.combine (valuesAt name attributes)).bind fun first =>
        (rest.decode attributes content).map (first, ·)
  | _, _, .ofText rest, attributes, content =>
      (rest.decode attributes content).map (Node.textOf content, ·)
  | _, _, .attributes rest, attributes, content =>
      (rest.decode attributes content).map (attributeMap attributes, ·)
  | _, _, .ofChild shape arity rest, attributes, content =>
      ((Decoded.values (content.map shape.decode)).bind arity.combine).bind fun first =>
        (rest.decode attributes content).map (first, ·)

end

end TokenCodec.Xml
