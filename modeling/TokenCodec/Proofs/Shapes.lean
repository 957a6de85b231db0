import TokenCodec.Proofs.Documents
import TokenCodec.Proofs.Readable

/-!
# Decoding document trees

The shapes of values that codecs of scalars, lists and objects without
conditions read, and what a document tree decodes to at such a shape.  There
are no runs of tokens, depths or states here: decoding is a recursion over the
shape and the tree.  It is what the readers of the shapes are measured against.
-/

namespace TokenCodec.Json

variable {α β γ : Type}

/-- What a document decodes to: a value, nothing, or a failure. -/
inductive Decoded (α : Type) where
  | value (value : α)
  | absent
  | fails
  deriving DecidableEq, Repr

namespace Decoded

/-- Convert a decoded value. -/
def map (f : α → β) : Decoded α → Decoded β
  | value v => value (f v)
  | absent => absent
  | fails => fails

/-- The values among the decoded pieces, if no piece fails. -/
def values : List (Decoded α) → Option (List α)
  | [] => some []
  | value v :: rest => (values rest).map (v :: ·)
  | absent :: rest => values rest
  | fails :: _ => none

theorem length_le_of_values {pieces : List (Decoded α)} {found : List α}
    (hfound : values pieces = some found) : found.length ≤ pieces.length := by
  induction pieces generalizing found with
  | nil =>
      cases hfound
      exact Nat.le_refl 0
  | cons piece pieces ih =>
      cases piece with
      | value v =>
          obtain ⟨others, hothers, rfl⟩ := Option.map_eq_some_iff.mp hfound
          exact Nat.succ_le_succ (ih hothers)
      | absent => exact Nat.le_succ_of_le (ih hfound)
      | fails => cases hfound

theorem values_eq_none_iff {pieces : List (Decoded α)} :
    values pieces = none ↔ .fails ∈ pieces := by
  induction pieces with
  | nil => simp [values]
  | cons piece pieces ih => cases piece <;> simp [values, ih]

theorem mem_of_values {pieces : List (Decoded α)} {found : List α}
    (hfound : values pieces = some found) (value : α) :
    value ∈ found ↔ .value value ∈ pieces := by
  induction pieces generalizing found with
  | nil =>
      cases hfound
      simp
  | cons piece pieces ih =>
      cases piece with
      | value v =>
          obtain ⟨others, hothers, rfl⟩ := Option.map_eq_some_iff.mp hfound
          simp [ih hothers]
      | absent => simp [ih hfound]
      | fails => cases hfound

/-- Pieces give one value and no other if some piece is that value and every
other one is absent. -/
theorem exists_values_iff {pieces : List (Decoded α)} {value : α} :
    (∃ found, values pieces = some found ∧ found ≠ [] ∧ ∀ other ∈ found, other = value) ↔
      Decoded.value value ∈ pieces ∧
        ∀ piece ∈ pieces, piece = .absent ∨ piece = .value value := by
  constructor
  · rintro ⟨found, hfound, hne, hsame⟩
    constructor
    · obtain ⟨other, hother⟩ := List.exists_mem_of_ne_nil found hne
      rw [← hsame other hother]
      exact (mem_of_values hfound other).mp hother
    · intro piece hmem
      cases piece with
      | value other => rw [hsame other ((mem_of_values hfound other).mpr hmem)]; exact .inr rfl
      | absent => exact .inl rfl
      | fails => cases hfound.symm.trans (values_eq_none_iff.mpr hmem)
  · rintro ⟨hmem, hpieces⟩
    cases hfound : values pieces with
    | none => rcases hpieces _ (values_eq_none_iff.mp hfound) with hfails | hfails <;> cases hfails
    | some found =>
        refine ⟨found, rfl, List.ne_nil_of_mem ((mem_of_values hfound value).mpr hmem), ?_⟩
        intro other hother
        rcases hpieces _ ((mem_of_values hfound other).mp hother) with hvalue | hvalue <;>
          cases hvalue
        rfl

end Decoded

mutual

/-- The shape of a value. -/
inductive Shape : Type → Type 1 where
  | scalar {α : Type} (scalar : Scalar α) : Shape α
  | list {α : Type} (element : Shape α) : Shape (List α)
  | object {β γ : Type} (members : Members β) (produce : β → γ) : Shape γ

/-- The members of an object shape, in order. -/
inductive Members : Type → Type 1 where
  | nil : Members Unit
  | required {α β : Type} (name : String) (shape : Shape α) (rest : Members β) :
      Members (α × β)
  | optional {α β : Type} (name : String) (shape : Shape α) (rest : Members β) :
      Members (Option α × β)

end

mutual

/-- The codec of a shape. -/
def Shape.codec : {α : Type} → Shape α → ReadCodec Token α
  | _, .scalar scalar => scalar.codec.toReadCodec
  | _, .list element => element.codec.collect.array
  | _, .object members produce => (ReadCodec.object members.parts).map produce

/-- The codecs of the members. -/
def Members.parts : {β : Type} → Members β → Parts (ReadCodec Token) β
  | _, .nil => .nil
  | _, .required name shape rest => .cons (shape.codec.member name) rest.parts
  | _, .optional name shape rest => .cons (shape.codec.member name).optional rest.parts

end

/-- The outcome of parsing. -/
def Decoded.ofParsed : Option α → Decoded α
  | some v => value v
  | none => fails

/-- Decode a scalar.  Null and structures count as absence. -/
def Scalar.decode (scalar : Scalar α) : Document → Decoded α
  | .bool value => .ofParsed (scalar.parse (.bool value))
  | .number text => .ofParsed (scalar.parse (.number text))
  | .string text => .ofParsed (scalar.parse (.string text))
  | _ => .absent

/-- A scalar makes nothing of null and of structures, and of nothing else. -/
theorem Scalar.decode_eq_absent_iff (scalar : Scalar α) (document : Document) :
    scalar.decode document = .absent ↔ document = .null ∨ document.isStructure = true := by
  have hparsed (parsed : Option α) : Decoded.ofParsed parsed ≠ .absent := by
    cases parsed <;> exact nofun
  cases document <;> simp [Scalar.decode, Document.isStructure, hparsed]

/-- The value of a required member that does not decode to one. -/
def Shape.missing? : {α : Type} → Shape α → Option α
  | _, .list _ => some []
  | _, _ => none

mutual

/-- Decode a document at a shape. -/
def Shape.decode : {α : Type} → Shape α → Document → Decoded α
  | _, .scalar scalar, document => scalar.decode document
  | _, .list element, .array elements =>
      match Decoded.values (elements.map element.decode) with
      | some values => .value values
      | none => .fails
  | _, .list _, _ => .fails
  | _, .object members produce, .object given =>
      match members.decode given with
      | some values => .value (produce values)
      | none => .fails
  | _, .object _ _, _ => .fails

/-- Decode the members of an object.  Each takes the last value at its name. -/
def Members.decode : {β : Type} → Members β → List (String × Document) → Option β
  | _, .nil, _ => some ()
  | _, .required name shape rest, given =>
      match Decoded.values ((occurrences name given).map shape.decode), rest.decode given with
      | some values, some others => (values.getLast?.or shape.missing?).map (·, others)
      | _, _ => none
  | _, .optional name shape rest, given =>
      match Decoded.values ((occurrences name given).map shape.decode), rest.decode given with
      | some values, some others => some (values.getLast?, others)
      | _, _ => none

end

/-- The number of members. -/
def Members.size : {β : Type} → Members β → Nat
  | _, .nil => 0
  | _, .required _ _ rest => rest.size + 1
  | _, .optional _ _ rest => rest.size + 1

mutual

/-- No object of a shape has exactly one member. -/
def Shape.Wide : {α : Type} → Shape α → Prop
  | _, .scalar _ => True
  | _, .list element => element.Wide
  | _, .object members _ => members.size ≠ 1 ∧ members.Wide

def Members.Wide : {β : Type} → Members β → Prop
  | _, .nil => True
  | _, .required _ shape rest => shape.Wide ∧ rest.Wide
  | _, .optional _ shape rest => shape.Wide ∧ rest.Wide

end

mutual

/-- No object of a document repeats a name. -/
def Document.Distinct : Document → Prop
  | .array elements => Document.AllDistinct elements
  | .object members => (members.map Prod.fst).Nodup ∧ Document.MembersDistinct members
  | _ => True

def Document.AllDistinct : List Document → Prop
  | [] => True
  | element :: rest => element.Distinct ∧ Document.AllDistinct rest

def Document.MembersDistinct : List (String × Document) → Prop
  | [] => True
  | (_, value) :: rest => value.Distinct ∧ Document.MembersDistinct rest

end

end TokenCodec.Json
