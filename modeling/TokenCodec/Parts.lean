/-!
# Compositions of parts

Objects and XML elements combine a fixed list of parts into one value.  The
list carries the types of its parts, and the value of a composition is the
nested pair of their values, so that a composition and its value cannot
disagree about number or order.
-/

namespace TokenCodec

/-- A list of parts, each a `P α` with a value type of its own.  The second
argument is the type of the combined value. -/
inductive Parts (P : Type → Type 1) : Type → Type 1 where
  /-- No part; the value is trivial. -/
  | nil : Parts P Unit
  /-- A part in front of others. -/
  | cons {α β : Type} (part : P α) (rest : Parts P β) : Parts P (α × β)

namespace Parts

variable {P Q : Type → Type 1} {α β : Type}

/-- The number of parts. -/
def size : {β : Type} → Parts P β → Nat
  | _, nil => 0
  | _, cons _ rest => rest.size + 1

/-- Change every part and keep its value type. -/
def mapParts (f : {α : Type} → P α → Q α) : {β : Type} → Parts P β → Parts Q β
  | _, nil => nil
  | _, cons part rest => cons (f part) (rest.mapParts f)

/-- Something of every part, in order. -/
def toList {ρ : Type} (f : {α : Type} → P α → ρ) : {β : Type} → Parts P β → List ρ
  | _, nil => []
  | _, cons part rest => f part :: rest.toList f

/-- The composition of one part. -/
def one (part : P α) : Parts P (α × Unit) := cons part nil

/-- A part stands in a list of parts. -/
def Mem (part : P α) : {β : Type} → Parts P β → Prop
  | _, nil => False
  | _, cons first rest => (⟨α, part⟩ : Sigma P) = ⟨_, first⟩ ∨ rest.Mem part

@[simp]
theorem size_mapParts (f : {α : Type} → P α → Q α) (parts : Parts P β) :
    (parts.mapParts f).size = parts.size := by
  induction parts with
  | nil => rfl
  | cons part rest ih => simp [mapParts, size, ih]

theorem mem_head (part : P α) (rest : Parts P β) : (cons part rest).Mem part := .inl rfl

theorem mem_tail {γ : Type} {part : P α} {rest : Parts P β} (hmem : rest.Mem part)
    (first : P γ) : (cons first rest).Mem part := .inr hmem

theorem mem_one {γ : Type} {part : P α} {other : P γ} (hmem : (one part).Mem other) :
    (⟨γ, other⟩ : Sigma P) = ⟨α, part⟩ := hmem.resolve_right id

/-- The parts of a changed list are the changed parts. -/
theorem exists_of_mem_mapParts {f : {α : Type} → P α → Q α} {part : Q α}
    {parts : Parts P β} (hmem : (parts.mapParts f).Mem part) :
    ∃ original, parts.Mem original ∧ f original = part := by
  induction parts with
  | nil => exact hmem.elim
  | cons first rest ih =>
      rcases hmem with hhead | htail
      · cases hhead
        exact ⟨first, mem_head first rest, rfl⟩
      · obtain ⟨original, horiginal, heq⟩ := ih htail
        exact ⟨original, mem_tail horiginal first, heq⟩

end Parts

end TokenCodec
