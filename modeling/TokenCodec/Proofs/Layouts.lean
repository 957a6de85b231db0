import TokenCodec.Proofs.Documents
import TokenCodec.Proofs.Readable
import TokenCodec.Proofs.Rendering

/-!
# Layouts that write and read

The layouts of values for which reading undoes writing, each with its codec and
with the document that stands for a value.  A layout carries the facts that it
depends on: no two members of an object have the same name, and conversions
undo one another.
-/

namespace TokenCodec.Json

open Numeral Document

variable {α β : Type}

/-! ## Plain values -/

/-- The kinds of scalars that JSON writes without loss. -/
inductive Plain : Type → Type 1 where
  | string : Plain String
  | integer : Plain Int32
  | long : Plain Int64
  | bigInteger : Plain Int
  | boolean : Plain Bool

namespace Plain

/-- The scalar of a kind. -/
def scalar : Plain α → Scalar α
  | string => .string
  | integer => .integer
  | long => .long
  | bigInteger => .bigInteger
  | boolean => .boolean

/-- The document that stands for a plain value. -/
def document : Plain α → α → Document
  | string, text => .string text
  | integer, n => .number (integerText n.toInt)
  | long, n => .number (integerText n.toInt)
  | bigInteger, n => .number (integerText n)
  | boolean, value => .bool value

theorem tokens_document (kind : Plain α) (value : α) :
    (kind.document value).tokens = [kind.scalar.render value] := by
  cases kind <;> rfl

/-- A plain value is read back from the token it is written as. -/
theorem parse_render (kind : Plain α) (value : α) :
    kind.scalar.parse (kind.scalar.render value) = some value := by
  cases kind with
  | string => rfl
  | integer => exact int32?_integerText value
  | long => exact int64?_integerText value
  | bigInteger => exact groupedInteger?_integerText value
  | boolean => rfl

end Plain

/-- A condition that binds a member to a plain value. -/
structure FixedMember where
  {α : Type}
  [beq : BEq α]
  [lawful : LawfulBEq α]
  [shown : Shown α]
  name : String
  kind : Plain α
  value : α

namespace FixedMember

instance (fixed : FixedMember) : BEq fixed.α := fixed.beq

instance (fixed : FixedMember) : LawfulBEq fixed.α := fixed.lawful

instance (fixed : FixedMember) : Shown fixed.α := fixed.shown

/-- The codec of the condition. -/
def condition (fixed : FixedMember) : Condition Token :=
  (fixed.kind.scalar.codec.member fixed.name).fixed fixed.value

/-- The member that meets the condition. -/
def member (fixed : FixedMember) : String × Document :=
  (fixed.name, fixed.kind.document fixed.value)

end FixedMember

/-! ## Layouts -/

mutual

/-- A layout of values. -/
inductive Layout : Type → Type 1 where
  | plain {α : Type} (kind : Plain α) : Layout α
  | list {α : Type} (element : Layout α) : Layout (List α)
  /-- An object with conditions, all names in it distinct. -/
  | object {β : Type} {names : List String} (fields : Fields names β)
      (conditions : List FixedMember)
      (hdistinct : (names ++ conditions.map FixedMember.name).Nodup) : Layout β
  /-- An object that holds any names. -/
  | entries {α : Type} (value : Layout α) : Layout (Entries String α × Unit)
  /-- Values converted in both directions. -/
  | imap {α β : Type} (layout : Layout α) (f : α → β) (g : β → α)
      (hinverse : ∀ value, f (g value) = value) : Layout β

/-- The members of an object with the names that they bear. -/
inductive Fields : List String → Type → Type 1 where
  | nil : Fields [] Unit
  | required {names : List String} {α β : Type} (name : String) (layout : Layout α)
      (rest : Fields names β) : Fields (name :: names) (α × β)
  | optional {names : List String} {α β : Type} (name : String) (layout : Layout α)
      (rest : Fields names β) : Fields (name :: names) (Option α × β)
  /-- A list that is left out when it is empty. -/
  | list {names : List String} {α β : Type} (name : String) (layout : Layout α)
      (rest : Fields names β) : Fields (name :: names) (List α × β)

end

mutual

/-- The codec of a layout. -/
def Layout.codec : {α : Type} → Layout α → Codec Token α
  | _, .plain kind => kind.scalar.codec
  | _, .list element => element.codec.collect.array
  | _, .object fields conditions _ =>
      .object fields.parts (conditions.map FixedMember.condition)
  | _, .entries value => .object (.one value.codec.anyMember.entries)
  | _, .imap layout f g _ => layout.codec.imap f g

/-- The codecs of the members. -/
def Fields.parts : {names : List String} → {β : Type} → Fields names β →
    Parts (Codec Token) β
  | _, _, .nil => .nil
  | _, _, .required name layout rest => .cons (layout.codec.member name) rest.parts
  | _, _, .optional name layout rest => .cons (layout.codec.member name).optional rest.parts
  | _, _, .list name layout rest => .cons (layout.codec.listMember name) rest.parts

end

mutual

/-- The document that stands for a value. -/
def Layout.document : {α : Type} → Layout α → α → Document
  | _, .plain kind, value => kind.document value
  | _, .list element, values => .array (values.map element.document)
  | _, .object fields conditions _, value =>
      .object (fields.members value ++ conditions.map FixedMember.member)
  | _, .entries layout, value =>
      .object (value.1.toList.map fun pair => (pair.1, layout.document pair.2))
  | _, .imap layout _ g _, value => layout.document (g value)

/-- The members that stand for the values of an object. -/
def Fields.members : {names : List String} → {β : Type} → Fields names β → β →
    List (String × Document)
  | _, _, .nil, _ => []
  | _, _, .required name layout rest, value =>
      (name, layout.document value.1) :: rest.members value.2
  | _, _, .optional name layout rest, value =>
      (value.1.map fun found => (name, layout.document found)).toList ++ rest.members value.2
  | _, _, .list name layout rest, value =>
      (if value.1.isEmpty then [] else [(name, .array (value.1.map layout.document))]) ++
        rest.members value.2

end

/-! ## Writing -/

theorem memberTokens_append (front back : List (String × Document)) :
    memberTokens (front ++ back) = memberTokens front ++ memberTokens back := by
  induction front with
  | nil => rfl
  | cons member front ih =>
      obtain ⟨name, value⟩ := member
      simp [memberTokens, ih]

theorem elementTokens_map (document : α → Document) (values : List α) :
    elementTokens (values.map document) = values.flatMap fun value => (document value).tokens := by
  rw [elementTokens_eq_flatMap, List.flatMap_map]

theorem Plain.renders (kind : Plain α) :
    kind.scalar.codec.writer.Renders fun value => (kind.document value).tokens := by
  have htokens : (fun value => (kind.document value).tokens) =
      fun value => [kind.scalar.render value] := by
    funext value
    exact kind.tokens_document value
  rw [htokens]
  exact Writer.Renders.ofTokens _

theorem Plain.begins (kind : Plain α) : kind.scalar.codec.writer.Begins :=
  fun _ => List.cons_ne_nil _ _

/-- A condition writes the member that meets it. -/
theorem FixedMember.write_condition (fixed : FixedMember) :
    fixed.condition.toWriteCodec.write () = memberTokens [fixed.member] := by
  have hmember := renders_memberWriter fixed.kind.renders fixed.kind.begins fixed.name
  have hwrite := (hmember.fixed fixed.value).emits ()
  refine (congrArg Prod.fst hwrite).trans ?_
  simp [FixedMember.member, memberTokens]

theorem written_conditions (conditions : List FixedMember) :
    Condition.written (conditions.map FixedMember.condition) =
      memberTokens (conditions.map FixedMember.member) := by
  induction conditions with
  | nil => rfl
  | cons fixed conditions ih =>
      have hfirst := fixed.write_condition
      simp only [Condition.written, List.map_cons, List.flatMap_cons] at ih ⊢
      rw [hfirst, ih, ← memberTokens_append]
      rfl

/-- The writers of the members of an object. -/
def Fields.writers {names : List String} (fields : Fields names β) :
    Parts (Writer Token) β :=
  (fields.parts.mapParts Codec.toWriteCodec).mapParts WriteCodec.writer

/-- What the writers of the members of an object do side by side, and as the
parts of the object. -/
structure RendersMembers (writers : Parts (Writer Token) β)
    (members : β → List (String × Document)) : Prop where
  beside : ∀ value,
    (Writer.besideAll writers).write (Writer.besideAll writers).start value =
      (memberTokens (members value), (Writer.besideAll writers).start)
  parts : (Writer.parts writers).Renders fun value => memberTokens (members value)

section Members

variable {codec : Codec Token α} {document : α → Document}

theorem renders_required
    (hcodec : codec.writer.Renders fun value => (document value).tokens)
    (hbegins : codec.writer.Begins) (name : String) :
    (codec.member name).writer.Renders fun value =>
      memberTokens [(name, document value)] := by
  apply (renders_memberWriter hcodec hbegins name).congr
  intro value
  simp [memberTokens]

theorem renders_optional
    (hcodec : codec.writer.Renders fun value => (document value).tokens)
    (hbegins : codec.writer.Begins) (name : String) :
    (codec.member name).optional.writer.Renders fun value =>
      memberTokens (value.map fun found => (name, document found)).toList := by
  apply (renders_required hcodec hbegins name).optional.congr
  intro value
  cases value <;> rfl

/-- A list renders as the array of the documents of its elements. -/
theorem renders_elements
    (hcodec : codec.writer.Renders fun value => (document value).tokens) :
    codec.collect.array.writer.Renders fun values =>
      (Document.array (values.map document)).tokens := by
  apply (renders_arrayWriter hcodec.collect).congr
  intro values
  rw [Document.tokens, elementTokens_map]

theorem renders_listMember
    (hcodec : codec.writer.Renders fun value => (document value).tokens)
    (name : String) :
    (codec.listMember name).writer.Renders fun values =>
      memberTokens (if values.isEmpty then []
        else [(name, .array (values.map document))]) := by
  have hmember := renders_memberWriter (renders_elements hcodec) (begins_arrayWriter _) name
  apply (hmember.optional.contramap fun values : List α =>
    if values.isEmpty then none else some values).congr
  intro values
  cases values with
  | nil => rfl
  | cons value values => simp [memberTokens]

theorem memberTokens_map (document : α → Document) (pairs : List (String × α)) :
    memberTokens (pairs.map fun pair => (pair.1, document pair.2)) =
      pairs.flatMap fun pair => .name pair.1 :: (document pair.2).tokens := by
  induction pairs with
  | nil => rfl
  | cons pair pairs ih =>
      rw [List.map_cons, memberTokens, ih]
      rfl

/-- Pairs render as the members of an object. -/
theorem renders_entries
    (hcodec : codec.writer.Renders fun value => (document value).tokens) :
    (Codec.object (.one codec.anyMember.entries)).writer.Renders fun value =>
      (Document.object (value.1.toList.map fun pair =>
        (pair.1, document pair.2))).tokens := by
  apply (renders_entriesWriter hcodec).congr
  intro value
  rw [Document.tokens, memberTokens_map]

theorem RendersMembers.nil : RendersMembers .nil fun _ => [] := ⟨fun _ => rfl, .ofTokens _⟩

theorem RendersMembers.cons {writer : Writer Token α} {writers : Parts (Writer Token) β}
    {members : α → List (String × Document)} {others : β → List (String × Document)}
    (hfirst : writer.Renders fun value => memberTokens (members value))
    (hrest : RendersMembers writers others) :
    RendersMembers (.cons writer writers) fun value => members value.1 ++ others value.2 where
  beside value := by
    rw [memberTokens_append]
    exact hfirst.write_besideAll hrest.beside value
  parts := by
    apply (hfirst.parts hrest.beside).congr
    intro value
    rw [memberTokens_append]

end Members

mutual

/-- The writer of a layout renders the document of a value, and begins it. -/
theorem Layout.renders : ∀ {α : Type} (layout : Layout α),
    layout.codec.writer.Renders (fun value => (layout.document value).tokens) ∧
      layout.codec.writer.Begins
  | _, .plain kind => ⟨kind.renders, kind.begins⟩
  | _, .list element => ⟨renders_elements element.renders.1, begins_arrayWriter _⟩
  | _, .object fields conditions _ => by
      refine ⟨?_, begins_objectWriter _ _⟩
      apply (renders_objectWriter fields.render.parts _).congr
      intro value
      rw [written_conditions, ← memberTokens_append]
      rfl
  | _, .entries layout => by
      refine ⟨?_, begins_objectWriter _ _⟩
      exact renders_entries layout.renders.1
  | _, .imap layout f g _ =>
      ⟨layout.renders.1.contramap g, fun value => layout.renders.2 (g value)⟩

/-- The writers of the members of an object render the members. -/
theorem Fields.render : ∀ {names : List String} {β : Type} (fields : Fields names β),
    RendersMembers fields.writers fields.members
  | _, _, .nil => .nil
  | _, _, .required name layout rest =>
      .cons (renders_required layout.renders.1 layout.renders.2 name) rest.render
  | _, _, .optional name layout rest =>
      .cons (renders_optional layout.renders.1 layout.renders.2 name) rest.render
  | _, _, .list name layout rest =>
      .cons (renders_listMember layout.renders.1 name) rest.render

end

end TokenCodec.Json
