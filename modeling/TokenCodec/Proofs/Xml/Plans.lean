import TokenCodec.Proofs.Xml.Elements
import TokenCodec.Proofs.Xml.Readable

/-!
# Plans of element codecs

The codecs that attributes, text and elements are read with, as trees.  A plan
keeps what a codec is made of, so that properties of a codec can be told from its
parts: which elements it reads, whether the parts of an element compete for the
same elements, and whether an element can give a value for each attribute it has.
-/

namespace TokenCodec.Xml

variable {α β : Type}

mutual

/-- A reading codec as the tree of its combinators. -/
inductive Plan : Type → Type 1 where
  | ofAttribute (name : Name) : Plan String
  | anyAttribute : Plan (Name × String)
  | text : Plan String
  /-- The elements whose name is claimed.  Their conditions are attributes with
  fixed values. -/
  | elements {β : Type} (claims : Name → Bool) (shownName : String) (members : Plan.Members β)
      (conditions : List Attribute) : Plan β
  | collect {α : Type} (inner : Plan α) : Plan (List α)
  | entries {κ α : Type} [BEq κ] (inner : Plan (κ × α)) : Plan (Entries κ α)
  | fold {α β : Type} (inner : Plan α) (initial : β) (combine : β → α → β) : Plan β
  | optional {α : Type} (inner : Plan α) : Plan (Option α)
  | map {α β : Type} (inner : Plan α) (f : α → β) : Plan β

/-- The parts of an element, in order. -/
inductive Plan.Members : Type → Type 1 where
  | nil : Plan.Members Unit
  | cons {α β : Type} (first : Plan α) (rest : Plan.Members β) : Plan.Members (α × β)

end

/-- The condition that an attribute has a value. -/
def Attribute.condition (attr : Attribute) : Condition Token :=
  (ofAttribute attr.name).fixed attr.value

mutual

/-- The codec of a plan. -/
def Plan.codec : {α : Type} → Plan α → ReadCodec Token α
  | _, .ofAttribute name => (Xml.ofAttribute name).toReadCodec
  | _, .anyAttribute => Xml.anyAttribute.toReadCodec
  | _, .text => Xml.text.toReadCodec
  | _, .elements claims shownName members conditions =>
      readElements claims shownName members.parts (conditions.map Attribute.condition)
  | _, .collect inner => inner.codec.collect
  | _, @Plan.entries _ _ _ inner => inner.codec.entries
  | _, .fold inner initial combine => inner.codec.fold initial combine
  | _, .optional inner => inner.codec.optional
  | _, .map inner f => inner.codec.map f

/-- The codecs of the members. -/
def Plan.Members.parts : {β : Type} → Plan.Members β → Parts (ReadCodec Token) β
  | _, .nil => .nil
  | _, .cons first rest => .cons first.codec rest.parts

end

/-- The assembly of an element with these members and conditions. -/
def Plan.Members.assembly (members : Plan.Members β) (conditions : List Attribute) :
    Assembly Token β :=
  .ofParts (members.parts.mapParts ReadCodec.part)
    (Condition.readers (conditions.map Attribute.condition))

/-- Members and conditions hold their values back, or there is a single member and
no condition. -/
theorem Plan.Members.held_or_lone {motive : {β : Type} → Plan.Members β → List Attribute → Prop}
    (held : ∀ {β : Type} {members : Plan.Members β} {conditions : List Attribute},
      (members.assembly conditions).streams = false → motive members conditions)
    (lone : ∀ {α : Type} (first : Plan α), motive (.cons first .nil) []) :
    {β : Type} → (members : Plan.Members β) → (conditions : List Attribute) →
      motive members conditions
  | _, .nil, _ => held rfl
  | _, .cons first .nil, [] => lone first
  | _, .cons _ .nil, _ :: _ => held rfl
  | _, .cons _ (.cons _ _), _ => held (by simp [assembly, Assembly.ofParts, parts, Parts.size])

/-- The plan is that of an element, whose value may be converted. -/
def Plan.isElement : {α : Type} → Plan α → Bool
  | _, .elements _ _ _ _ => true
  | _, .map inner _ => inner.isElement
  | _, _ => false

/-- The names of the elements that a plan reads. -/
def Plan.claims : {α : Type} → Plan α → Name → Bool
  | _, .elements claims _ _ _, name => claims name
  | _, .collect inner, name => inner.claims name
  | _, @Plan.entries _ _ _ inner, name => inner.claims name
  | _, .fold inner _ _, name => inner.claims name
  | _, .optional inner, name => inner.claims name
  | _, .map inner _, name => inner.claims name
  | _, _, _ => false

/-- The names of the elements that some member reads. -/
def Plan.Members.claims : {β : Type} → Plan.Members β → Name → Bool
  | _, .nil, _ => false
  | _, .cons first rest, name => first.claims name || rest.claims name

mutual

/-- No two members of one element read elements of the same name. -/
def Plan.Apart : {α : Type} → Plan α → Prop
  | _, .elements _ _ members _ => members.Apart
  | _, .collect inner => inner.Apart
  | _, @Plan.entries _ _ _ inner => inner.Apart
  | _, .fold inner _ _ => inner.Apart
  | _, .optional inner => inner.Apart
  | _, .map inner _ => inner.Apart
  | _, _ => True

def Plan.Members.Apart : {β : Type} → Plan.Members β → Prop
  | _, .nil => True
  | _, .cons first rest =>
      first.Apart ∧ rest.Apart ∧ ∀ name, first.claims name = true → rest.claims name = false

end

/-- The plan gives each attribute of its element as a value of its own. -/
def Plan.givesEach : {α : Type} → Plan α → Bool
  | _, .anyAttribute => true
  | _, .optional inner => inner.givesEach
  | _, .map inner _ => inner.givesEach
  | _, _ => false

/-- There is a single member, and it gives each attribute as a value. -/
def Plan.Members.givesEach : {β : Type} → Plan.Members β → Bool
  | _, .cons first .nil => first.givesEach
  | _, _ => false

mutual

/-- No element of a node is read with several attributes by a plan that gives
each of them as a value of the element. -/
def Plan.Fits : {α : Type} → Plan α → Node → Prop
  | _, .elements claims _ members conditions, .element name attributes content =>
      claims name = true →
        (members.givesEach = true → conditions = [] → attributes.length ≤ 1) ∧
          ∀ node ∈ content, members.Fits node
  | _, .collect inner, node => inner.Fits node
  | _, @Plan.entries _ _ _ inner, node => inner.Fits node
  | _, .fold inner _ _, node => inner.Fits node
  | _, .optional inner, node => inner.Fits node
  | _, .map inner _, node => inner.Fits node
  | _, _, _ => True

def Plan.Members.Fits : {β : Type} → Plan.Members β → Node → Prop
  | _, .nil, _ => True
  | _, .cons first rest, node => first.Fits node ∧ rest.Fits node

end

theorem Attribute.readable_condition (attr : Attribute) :
    Readable attr.condition.toReadCodec :=
  .fixed (.ofAttribute attr.name) (silent_attributeReader _) attr.value

mutual

theorem Plan.readable : {α : Type} → (plan : Plan α) → Readable plan.codec
  | _, .ofAttribute name => .ofAttribute name
  | _, .anyAttribute => .anyAttribute
  | _, .text => .text
  | _, .elements claims shownName members conditions => by
      refine .elements claims shownName members.readable fun condition hmem => ?_
      obtain ⟨attr, -, rfl⟩ := List.mem_map.mp hmem
      exact attr.readable_condition
  | _, .collect inner => .collect inner.readable
  | _, @Plan.entries _ _ _ inner => .entries inner.readable
  | _, .fold inner initial combine => .fold inner.readable initial combine
  | _, .optional inner => .optional inner.readable
  | _, .map inner f => .map inner.readable f

theorem Plan.Members.readable : {β : Type} → (members : Plan.Members β) →
    ∀ {γ : Type} {codec : ReadCodec Token γ}, members.parts.Mem codec → Readable codec
  | _, .nil, _, _, hmem => hmem.elim
  | _, .cons first rest, _, _, hmem => by
      rcases hmem with hhead | htail
      · cases hhead
        exact first.readable
      · exact rest.readable htail

end

theorem Plan.Members.resets_assembly (members : Plan.Members β) (conditions : List Attribute) :
    (members.assembly conditions).Resets := by
  refine .ofParts (resets_partReaders fun hmem => (members.readable hmem).resets)
    (resets_conditionReaders fun condition hmem => ?_)
  obtain ⟨attr, -, rfl⟩ := List.mem_map.mp hmem
  exact attr.readable_condition.resets

end TokenCodec.Xml
