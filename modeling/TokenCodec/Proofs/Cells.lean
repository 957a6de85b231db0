import TokenCodec.Proofs.Calendar.Texts
import TokenCodec.Proofs.Numeral.Texts
import TokenCodec.Proofs.RoundTrip
import TokenCodec.Proofs.Writable

/-!
# Values that are written as they were read

Cells are scalars of every kind, lists of cells and objects of several cells.  Not
every value of a cell is read back from its document: a number that is not finite is
written as null, and null is nothing.  But a value that was read, and whose document
has no null in it, is the value of this document again.
-/

namespace TokenCodec.Json

open Calendar Document Numeral

variable {α β : Type}

/-! ## Scalars -/

/-- A value that was read from a token is read again from the token that is written for
it, unless that is null. -/
theorem Scalar.Standard.parse_render {scalar : Scalar α} (hstandard : scalar.Standard)
    {token : Token} {value : α} (hparse : scalar.parse token = some value)
    (hnull : scalar.render value ≠ .null) :
    scalar.parse (scalar.render value) = some value := by
  cases hstandard with
  | string => rfl
  | integer => exact int32?_integerText value
  | long => exact int64?_integerText value
  | bigInteger => exact groupedInteger?_integerText value
  | boolean => rfl
  | double =>
      cases token with
      | number text =>
          have hfinite : value.isFinite = true := by
            by_contra hinfinite
            exact hnull (if_neg hinfinite)
          have hrender : Scalar.double.render value = .number value.text := if_pos hfinite
          rw [hrender]
          exact Binary.ofText?_text BinaryFormat.ordinary_double hparse hfinite
      | _ => cases hparse
  | timestamp =>
      cases token with
      | string text => exact Timestamp.ofText?_text hparse
      | _ => cases hparse

/-- The document of one token. -/
def Document.ofToken : Token → Document
  | .bool value => .bool value
  | .number text => .number text
  | .string text => .string text
  | _ => .null

theorem Document.tokens_ofToken {token : Token} (hscalar : token.isScalar = true) :
    (ofToken token).tokens = [token] := by
  cases token <;> first | rfl | cases hscalar

theorem Scalar.decode_ofToken (scalar : Scalar α) {token : Token} (hscalar : token.isScalar = true)
    (hnull : token ≠ .null) :
    scalar.decode (ofToken token) = .ofParsed (scalar.parse token) := by
  cases token <;> first | rfl | exact absurd rfl hnull | cases hscalar

theorem Scalar.exists_parse_of_decode {scalar : Scalar α} {document : Document} {value : α}
    (hdecode : scalar.decode document = .value value) :
    ∃ token, scalar.parse token = some value := by
  have hparsed {parsed : Option α} (hvalue : Decoded.ofParsed parsed = .value value) :
      parsed = some value := by
    cases parsed <;> cases hvalue
    rfl
  cases document with
  | bool flag => exact ⟨.bool flag, hparsed hdecode⟩
  | number text => exact ⟨.number text, hparsed hdecode⟩
  | string text => exact ⟨.string text, hparsed hdecode⟩
  | _ => cases hdecode

/-! ## Cells -/

mutual

/-- A value of one kind. -/
inductive Cell : Type → Type 1 where
  | scalar {α : Type} (scalar : Scalar α) (hstandard : scalar.Standard) : Cell α
  | list {α : Type} (element : Cell α) : Cell (List α)
  /-- An object of several members, whose values are put together and taken apart. -/
  | object {names : List String} {β γ : Type} (columns : Columns names β)
      (hseveral : 2 ≤ names.length) (produce : β → γ) (extract : γ → β) : Cell γ

/-- The members of an object with the names that they bear. -/
inductive Columns : List String → Type → Type 1 where
  | nil : Columns [] Unit
  | required {names : List String} {α β : Type} (name : String) (cell : Cell α)
      (rest : Columns names β) : Columns (name :: names) (α × β)
  | optional {names : List String} {α β : Type} (name : String) (cell : Cell α)
      (rest : Columns names β) : Columns (name :: names) (Option α × β)

end

mutual

/-- The codec of a cell. -/
def Cell.codec : {α : Type} → Cell α → Codec Token α
  | _, .scalar scalar _ => scalar.codec
  | _, .list element => element.codec.collect.array
  | _, .object columns _ produce extract => (Codec.object columns.parts).imap produce extract

/-- The codecs of the members. -/
def Columns.parts : {names : List String} → {β : Type} → Columns names β →
    Parts (Codec Token) β
  | _, _, .nil => .nil
  | _, _, .required name cell rest => .cons (cell.codec.member name) rest.parts
  | _, _, .optional name cell rest => .cons (cell.codec.member name).optional rest.parts

end

mutual

/-- The shape that a cell is read at. -/
def Cell.shape : {α : Type} → Cell α → Shape α
  | _, .scalar scalar _ => .scalar scalar
  | _, .list element => .list element.shape
  | _, .object columns _ produce _ => .object columns.shape produce

def Columns.shape : {names : List String} → {β : Type} → Columns names β → Members β
  | _, _, .nil => .nil
  | _, _, .required name cell rest => .required name cell.shape rest.shape
  | _, _, .optional name cell rest => .optional name cell.shape rest.shape

end

mutual

/-- The document that stands for a value. -/
def Cell.document : {α : Type} → Cell α → α → Document
  | _, .scalar scalar _, value => .ofToken (scalar.render value)
  | _, .list element, values => .array (values.map element.document)
  | _, .object columns _ _ extract, value => .object (columns.members (extract value))

/-- The members that stand for the values of an object. -/
def Columns.members : {names : List String} → {β : Type} → Columns names β → β →
    List (String × Document)
  | _, _, .nil, _ => []
  | _, _, .required name cell rest, value =>
      (name, cell.document value.1) :: rest.members value.2
  | _, _, .optional name cell rest, value =>
      (value.1.map fun found => (name, cell.document found)).toList ++ rest.members value.2

end

mutual

/-- No object has two members of one name, and each is taken apart into the values that
it was put together from. -/
def Cell.Faithful : {α : Type} → Cell α → Prop
  | _, .scalar _ _ => True
  | _, .list element => element.Faithful
  | _, .object columns _ produce extract =>
      (∀ value, extract (produce value) = value) ∧ columns.Faithful

def Columns.Faithful : {names : List String} → {β : Type} → Columns names β → Prop
  | _, _, .nil => True
  | name :: names, _, .required _ cell rest => name ∉ names ∧ cell.Faithful ∧ rest.Faithful
  | name :: names, _, .optional _ cell rest => name ∉ names ∧ cell.Faithful ∧ rest.Faithful

end

/-! ## Reading -/

mutual

/-- A cell is read at its shape. -/
theorem Cell.codec_shape : ∀ {α : Type} (cell : Cell α), cell.shape.codec = cell.codec.toReadCodec
  | _, .scalar _ _ => rfl
  | _, .list element => by
      rw [Cell.shape, Shape.codec, element.codec_shape]
      rfl
  | _, .object columns _ _ _ => by
      rw [Cell.shape, Shape.codec, columns.parts_shape]
      rfl

theorem Columns.parts_shape : ∀ {names : List String} {β : Type} (columns : Columns names β),
    columns.shape.parts = columns.parts.mapParts Codec.toReadCodec
  | _, _, .nil => rfl
  | _, _, .required name cell rest => by
      rw [Columns.shape, Members.parts, cell.codec_shape, rest.parts_shape]
      rfl
  | _, _, .optional name cell rest => by
      rw [Columns.shape, Members.parts, cell.codec_shape, rest.parts_shape]
      rfl

end

theorem Columns.size_shape : ∀ {names : List String} {β : Type} (columns : Columns names β),
    columns.shape.size = names.length
  | _, _, .nil => rfl
  | _, _, .required _ _ rest => congrArg (· + 1) rest.size_shape
  | _, _, .optional _ _ rest => congrArg (· + 1) rest.size_shape

mutual

theorem Cell.wide : ∀ {α : Type} (cell : Cell α), cell.shape.Wide
  | _, .scalar _ _ => trivial
  | _, .list element => element.wide
  | _, .object columns hseveral _ _ => by
      refine ⟨?_, columns.wide⟩
      rw [columns.size_shape]
      omega

theorem Columns.wide : ∀ {names : List String} {β : Type} (columns : Columns names β),
    columns.shape.Wide
  | _, _, .nil => trivial
  | _, _, .required _ cell rest => ⟨cell.wide, rest.wide⟩
  | _, _, .optional _ cell rest => ⟨cell.wide, rest.wide⟩

end

/-- The reader of a cell decodes any document at the shape of the cell. -/
theorem Cell.follows (cell : Cell α) (document : Document) :
    cell.codec.reader.Follows document (cell.shape.decode document) := by
  have hfollows := cell.shape.follows document (.inl cell.wide)
  rwa [cell.codec_shape] at hfollows

/-! ## Writing -/

/-- The writers of the members of an object. -/
def Columns.writers {names : List String} (columns : Columns names β) : Parts (Writer Token) β :=
  (columns.parts.mapParts Codec.toWriteCodec).mapParts WriteCodec.writer

theorem Scalar.Standard.renders {scalar : Scalar α} (hstandard : scalar.Standard) :
    scalar.codec.writer.Renders fun value => (Document.ofToken (scalar.render value)).tokens := by
  apply (Writer.Renders.ofTokens fun value => [scalar.render value]).congr
  intro value
  rw [Document.tokens_ofToken (hstandard.isScalar_render value)]

mutual

/-- The writer of a cell renders the document of a value, and begins it. -/
theorem Cell.renders : ∀ {α : Type} (cell : Cell α),
    cell.codec.writer.Renders (fun value => (cell.document value).tokens) ∧
      cell.codec.writer.Begins
  | _, .scalar scalar hstandard => ⟨hstandard.renders, fun _ => List.cons_ne_nil _ _⟩
  | _, .list element => ⟨renders_elements element.renders.1, begins_arrayWriter _⟩
  | _, .object columns _ _ extract => by
      have hbegins := begins_objectWriter (Writer.parts columns.writers) []
      refine ⟨?_, fun value => hbegins (extract value)⟩
      apply ((renders_objectWriter columns.render.parts _).contramap extract).congr
      intro value
      rw [Cell.document, Document.tokens]
      exact congrArg (Token.startObject :: · ++ [Token.endObject]) (List.append_nil _)

/-- The writers of the members of an object render the members. -/
theorem Columns.render : ∀ {names : List String} {β : Type} (columns : Columns names β),
    RendersMembers columns.writers columns.members
  | _, _, .nil => .nil
  | _, _, .required name cell rest =>
      .cons (renders_required cell.renders.1 cell.renders.2 name) rest.render
  | _, _, .optional name cell rest =>
      .cons (renders_optional cell.renders.1 cell.renders.2 name) rest.render

end

/-! ## Reading what was written -/

theorem null_notMem_array {elements : List Document} :
    .null ∉ (Document.array elements).tokens ↔ ∀ element ∈ elements, .null ∉ element.tokens := by
  rw [Document.tokens, elementTokens_eq_flatMap]
  simp

theorem null_notMem_memberTokens {members : List (String × Document)} :
    .null ∉ memberTokens members ↔ ∀ member ∈ members, .null ∉ member.2.tokens := by
  induction members with
  | nil => simp [memberTokens]
  | cons member members ih =>
      obtain ⟨name, value⟩ := member
      simp [memberTokens, ih]

theorem null_notMem_object {members : List (String × Document)} :
    .null ∉ (Document.object members).tokens ↔ ∀ member ∈ members, .null ∉ member.2.tokens := by
  rw [Document.tokens, ← null_notMem_memberTokens]
  simp

namespace Decoded

variable {γ : Type} {decode : γ → Decoded α} {document : α → γ}

/-- Pieces that are as many as their values are these values. -/
theorem eq_map_of_values {pieces : List (Decoded α)} {found : List α}
    (hfound : values pieces = some found) (hlength : pieces.length = found.length) :
    pieces = found.map .value := by
  induction pieces generalizing found with
  | nil =>
      cases hfound
      rfl
  | cons piece pieces ih =>
      cases piece with
      | value v =>
          obtain ⟨others, hothers, rfl⟩ := Option.map_eq_some_iff.mp hfound
          rw [ih hothers (Nat.succ.inj hlength)]
          rfl
      | absent =>
          have hfewer := length_le_of_values (show values pieces = some found from hfound)
          rw [List.length_cons] at hlength
          omega
      | fails => cases hfound

/-- What stands for values decodes to these values if each of them does. -/
theorem values_documents_iff {values : List α} :
    Decoded.values ((values.map document).map decode) = some values ↔
      ∀ value ∈ values, decode (document value) = .value value := by
  constructor
  · intro hvalues value hmem
    have hpieces := eq_map_of_values hvalues (by simp)
    rw [List.map_map] at hpieces
    exact List.map_inj_left.mp hpieces value hmem
  · intro hdecode
    induction values with
    | nil => rfl
    | cons value values ih =>
        obtain ⟨hfirst, hrest⟩ := List.forall_mem_cons.mp hdecode
        rw [List.map_cons, List.map_cons, hfirst, Decoded.values, ih hrest]
        rfl

/-- A value among those of documents is the value of one of them. -/
theorem exists_of_values {documents : List γ} {found : List α}
    (hfound : values (documents.map decode) = some found) {value : α} (hmem : value ∈ found) :
    ∃ read, decode read = .value value := by
  obtain ⟨read, -, hread⟩ := List.mem_map.mp ((mem_of_values hfound value).mp hmem)
  exact ⟨read, hread⟩

/-- The last value of a single piece, or what counts as a value when there is none. -/
theorem last_of_one_iff {piece : Decoded α} {missing : Option α} {value : α}
    (habsent : piece = .absent → missing ≠ some value) :
    (∃ found, values [piece] = some found ∧ found.getLast?.or missing = some value) ↔
      piece = .value value := by
  cases piece with
  | value v => simp [values]
  | absent => simp [values, habsent rfl]
  | fails => simp [values]

end Decoded

/-- The members of an object bear names of theirs, in order. -/
theorem Columns.sublist_names : ∀ {names : List String} {β : Type} (columns : Columns names β)
    (value : β), ((columns.members value).map Prod.fst).Sublist names
  | _, _, .nil, _ => .slnil
  | _, _, .required _ _ rest, value => (rest.sublist_names value.2).cons_cons _
  | _, _, .optional _ _ rest, (none, others) => (rest.sublist_names others).cons _
  | _, _, .optional _ _ rest, (some _, others) => (rest.sublist_names others).cons_cons _

theorem Columns.Faithful.nodup : ∀ {names : List String} {β : Type} {columns : Columns names β},
    columns.Faithful → names.Nodup
  | _, _, .nil, _ => .nil
  | _, _, .required _ _ _, hfaithful => List.nodup_cons.mpr ⟨hfaithful.1, hfaithful.2.2.nodup⟩
  | _, _, .optional _ _ _, hfaithful => List.nodup_cons.mpr ⟨hfaithful.1, hfaithful.2.2.nodup⟩

section Decoding

variable {shape : Shape α} {members : Members β} {name : String}
  {given : List (String × Document)} {others : β}

theorem Shape.decode_list_iff {document : Document} {values : List α} :
    (Shape.list shape).decode document = .value values ↔
      ∃ elements, document = .array elements ∧
        Decoded.values (elements.map shape.decode) = some values := by
  cases document with
  | array elements =>
      rw [Shape.decode]
      cases hvalues : Decoded.values (elements.map shape.decode) <;> simp [hvalues]
  | _ => simp [Shape.decode]

theorem Shape.decode_object_iff {γ : Type} {produce : β → γ} {document : Document} {value : γ} :
    (Shape.object members produce).decode document = .value value ↔
      ∃ given, document = .object given ∧
        ∃ values, members.decode given = some values ∧ produce values = value := by
  cases document with
  | object given =>
      rw [Shape.decode]
      cases hvalues : members.decode given <;> simp [hvalues]
  | _ => simp [Shape.decode]

theorem Members.decode_required_iff {first : α} :
    (Members.required name shape members).decode given = some (first, others) ↔
      ∃ values, Decoded.values ((occurrences name given).map shape.decode) = some values ∧
        values.getLast?.or shape.missing? = some first ∧ members.decode given = some others := by
  rw [Members.decode]
  cases hvalues : Decoded.values ((occurrences name given).map shape.decode) <;>
    cases hothers : members.decode given <;> simp

theorem Members.decode_optional_iff {first : Option α} :
    (Members.optional name shape members).decode given = some (first, others) ↔
      ∃ values, Decoded.values ((occurrences name given).map shape.decode) = some values ∧
        values.getLast? = first ∧ members.decode given = some others := by
  rw [Members.decode]
  cases hvalues : Decoded.values ((occurrences name given).map shape.decode) <;>
    cases hothers : members.decode given <;> simp

/-- What a shape gives when it is missing is what an empty array gives. -/
theorem Shape.exists_decode_of_missing {value : α} (hmissing : shape.missing? = some value) :
    ∃ read, shape.decode read = .value value := by
  cases shape with
  | list element =>
      cases hmissing
      exact ⟨.array [], rfl⟩
  | _ => cases hmissing

end Decoding

-- The members of an object are found by their names, whatever else is in it: hence the
-- statement about members is about every object that agrees with them at their names.
mutual

/-- A value that some document gave is the value of its own document just if there is no
null in that. -/
theorem Cell.decode_document_iff : ∀ {α : Type} (cell : Cell α), cell.Faithful → ∀ {value : α},
    (∃ read, cell.shape.decode read = .value value) →
      (cell.shape.decode (cell.document value) = .value value ↔
        .null ∉ (cell.document value).tokens)
  | _, .scalar scalar hstandard, _, value, ⟨read, hread⟩ => by
      have hscalar := hstandard.isScalar_render value
      obtain ⟨token, hparse⟩ := Scalar.exists_parse_of_decode hread
      rw [Cell.document, Document.tokens_ofToken hscalar, List.mem_singleton]
      by_cases hnull : scalar.render value = .null
      · rw [hnull]
        exact iff_of_false nofun (fun hne => hne rfl)
      · have hdecode := scalar.decode_ofToken hscalar hnull
        rw [hstandard.parse_render hparse hnull] at hdecode
        exact iff_of_true hdecode (Ne.symm hnull)
  | _, .list element, hfaithful, values, ⟨read, hread⟩ => by
      obtain ⟨elements, -, helements⟩ := Shape.decode_list_iff.mp hread
      rw [Cell.document, null_notMem_array, Cell.shape, Shape.decode_list_iff]
      simp only [Document.array.injEq, exists_eq_left', Decoded.values_documents_iff,
        List.forall_mem_map]
      exact forall₂_congr fun value hmem =>
        element.decode_document_iff hfaithful (Decoded.exists_of_values helements hmem)
  | _, .object columns _ produce extract, hfaithful, value, ⟨read, hread⟩ => by
      obtain ⟨given, -, values, hgiven, rfl⟩ := Shape.decode_object_iff.mp hread
      have hmembers := columns.decode_members_iff hfaithful.2 ⟨given, hgiven⟩
        (columns.members values) fun _ _ => rfl
      have hinjective {other} (hsame : produce other = produce values) : other = values := by
        rw [← hfaithful.1 other, hsame, hfaithful.1]
      rw [Cell.document, hfaithful.1, null_notMem_object, ← hmembers, Cell.shape,
        Shape.decode_object_iff]
      constructor
      · rintro ⟨_, hobject, others, hothers, hsame⟩
        cases hobject
        rwa [hinjective hsame] at hothers
      · exact fun hvalues => ⟨_, rfl, values, hvalues, rfl⟩

theorem Columns.decode_members_iff : ∀ {names : List String} {β : Type}
    (columns : Columns names β), columns.Faithful → ∀ {value : β},
      (∃ read, columns.shape.decode read = some value) → ∀ given,
        (∀ name ∈ names, occurrences name given = occurrences name (columns.members value)) →
          (columns.shape.decode given = some value ↔
            ∀ member ∈ columns.members value, .null ∉ member.2.tokens)
  | _, _, .nil, _, _, _, _, _ => iff_of_true rfl (List.forall_mem_nil _)
  | name :: names, _, .required _ cell rest, hfaithful, (first, others), ⟨read, hread⟩, given,
      hagree => by
      obtain ⟨values, hvalues, hlast, hothers⟩ := Members.decode_required_iff.mp hread
      have hfirst : ∃ read, cell.shape.decode read = .value first := by
        obtain hlast | ⟨-, hmissing⟩ := Option.or_eq_some_iff.mp hlast
        · exact Decoded.exists_of_values hvalues (List.mem_of_getLast? hlast)
        · exact Shape.exists_decode_of_missing hmissing
      -- A required member is one that is never left out.
      have hsome : ∀ other ∈ name :: names, occurrences other given = occurrences other
          (((some first).map fun value => (name, cell.document value)).toList ++
            rest.members others) := hagree
      obtain ⟨hfound, hrest⟩ :=
        occurrences_found hfaithful.nodup (rest.sublist_names others) hsome
      have hvalue := cell.decode_document_iff hfaithful.2.1 hfirst
      have hmembers := rest.decode_members_iff hfaithful.2.2 ⟨read, hothers⟩ given hrest
      have hone := Decoded.last_of_one_iff
        fun habsent (hmissing : cell.shape.missing? = some first) =>
          cell.shape.decode_ne_absent hmissing (cell.document first) habsent
      rw [Columns.shape, Members.decode_required_iff, hfound, hmembers, Columns.members,
        List.forall_mem_cons, ← hvalue, ← hone, ← exists_and_right]
      simp only [and_assoc]
      exact Iff.rfl
  | name :: names, _, .optional _ cell rest, hfaithful, (first, others), ⟨read, hread⟩, given,
      hagree => by
      obtain ⟨values, hvalues, hlast, hothers⟩ := Members.decode_optional_iff.mp hread
      obtain ⟨hfound, hrest⟩ :=
        occurrences_found hfaithful.nodup (rest.sublist_names others) hagree
      have hmembers := rest.decode_members_iff hfaithful.2.2 ⟨read, hothers⟩ given hrest
      rw [Columns.shape, Members.decode_optional_iff, hfound, hmembers, Columns.members,
        List.forall_mem_append]
      cases first with
      | none => simp [Decoded.values]
      | some value =>
          have hvalue := cell.decode_document_iff hfaithful.2.1
            (Decoded.exists_of_values hvalues (List.mem_of_getLast? hlast))
          have hsingle : (∀ member ∈ [(name, cell.document value)], .null ∉ member.2.tokens) ↔
              .null ∉ (cell.document value).tokens := List.forall_mem_singleton
          have hone : (∃ found, Decoded.values [cell.shape.decode (cell.document value)] =
              some found ∧ found.getLast?.or none = some value) ↔
                cell.shape.decode (cell.document value) = .value value :=
            Decoded.last_of_one_iff fun _ => nofun
          simp only [Option.map_some, Option.toList_some]
          rw [hsingle, ← hvalue, ← hone, ← exists_and_right]
          simp only [and_assoc, Option.or_none]
          exact Iff.rfl

end

end TokenCodec.Json
