import TokenCodec.Json.Document

/-!
# Nesting of whole documents

Every machine follows nesting with a depth of its own.  Two shapes of token
runs are what these depths have in common.  A nested run closes what it opens
and nothing else, so it leaves every depth as it found it.  A run that ends a
unit brings the depth back to zero with its last token and not before.  The
tokens of a document are of the second shape, and those between its brackets
are of the first.
-/

namespace TokenCodec

variable {τ : Type} [Alphabet τ]

open Alphabet

/-- A run of tokens that closes what it opens and nothing else. -/
inductive Nested : List τ → Prop where
  /-- The empty run. -/
  | nil : Nested []
  /-- A token without nesting in front of a nested run. -/
  | flat {token : τ} {tokens : List τ} (hflat : nesting token = .flat)
      (hrest : Nested tokens) : Nested (token :: tokens)
  /-- A bracketed run in front of a nested run. -/
  | group {opening closing : τ} {inner tokens : List τ} (hopens : nesting opening = .opens)
      (hinner : Nested inner) (hcloses : nesting closing = .closes)
      (hrest : Nested tokens) : Nested (opening :: (inner ++ closing :: tokens))

/-- A run of tokens that begins at a depth and brings it to zero with the last
token and not before. -/
inductive EndsUnit : Nat → List τ → Prop where
  /-- The last token brings the depth to zero. -/
  | last {depth : Nat} {token : τ} (hzero : track depth token = 0) :
      EndsUnit depth [token]
  /-- Another token leaves the depth above zero. -/
  | step {depth : Nat} {token : τ} {tokens : List τ} (hopen : track depth token ≠ 0)
      (hrest : EndsUnit (track depth token) tokens) : EndsUnit depth (token :: tokens)

/-- No token of a run brings the depth to zero. -/
def StaysOpen : Nat → List τ → Prop
  | _, [] => True
  | depth, token :: tokens => track depth token ≠ 0 ∧ StaysOpen (track depth token) tokens

namespace Alphabet

theorem track_of_flat {token : τ} (hflat : nesting token = .flat) (depth : Nat) :
    track depth token = depth := by
  rw [track, hflat, Nesting.track_flat]

theorem track_of_opens {token : τ} (hopens : nesting token = .opens) (depth : Nat) :
    track depth token = depth + 1 := by
  rw [track, hopens, Nesting.track_opens]

theorem track_of_closes {token : τ} (hcloses : nesting token = .closes) (depth : Nat) :
    track depth token = depth - 1 := by
  rw [track, hcloses, Nesting.track_closes]

end Alphabet

theorem Nested.append {front back : List τ} (hfront : Nested front) (hback : Nested back) :
    Nested (front ++ back) := by
  induction hfront with
  | nil => exact hback
  | flat hflat _ ih => exact .flat hflat ih
  | group hopens hinner hcloses _ _ ih =>
      rw [List.cons_append, List.append_assoc, List.cons_append]
      exact .group hopens hinner hcloses ih

theorem Nested.flatten {runs : List (List τ)} (hruns : ∀ run ∈ runs, Nested run) :
    Nested runs.flatten := by
  induction runs with
  | nil => exact .nil
  | cons run runs ih =>
      exact (hruns run List.mem_cons_self).append
        (ih fun other hmem => hruns other (List.mem_cons_of_mem run hmem))

theorem Nested.flatMap {ρ : Type} {tokens : ρ → List τ} (hnested : ∀ item, Nested (tokens item))
    (items : List ρ) : Nested (items.flatMap tokens) := by
  rw [List.flatMap_def]
  refine .flatten fun run hmem => ?_
  obtain ⟨item, -, rfl⟩ := List.mem_map.mp hmem
  exact hnested item

/-- A nested run may stand in front of whatever ends the unit. -/
theorem Nested.endsUnit_append {tokens rest : List τ} (hnested : Nested tokens)
    {depth : Nat} (hrest : EndsUnit (depth + 1) rest) :
    EndsUnit (depth + 1) (tokens ++ rest) := by
  induction hnested generalizing depth rest with
  | nil => exact hrest
  | flat hflat _ ih =>
      refine .step ?_ ?_
      · rw [track_of_flat hflat]
        exact Nat.succ_ne_zero depth
      · rw [track_of_flat hflat]
        exact ih hrest
  | @group opening closing inner tokens hopens _ hcloses _ ihinner ihrest =>
      rw [List.cons_append, List.append_assoc, List.cons_append]
      refine .step ?_ ?_
      · rw [track_of_opens hopens]
        exact Nat.succ_ne_zero _
      · rw [track_of_opens hopens]
        refine ihinner (.step ?_ ?_)
        · rw [track_of_closes hcloses]
          exact Nat.succ_ne_zero depth
        · rw [track_of_closes hcloses]
          exact ihrest hrest

/-- Between the brackets around a nested run the depth stays above zero. -/
theorem Nested.staysOpen_append {tokens rest : List τ} (hnested : Nested tokens)
    {depth : Nat} (hrest : StaysOpen (depth + 1) rest) :
    StaysOpen (depth + 1) (tokens ++ rest) := by
  induction hnested generalizing depth rest with
  | nil => exact hrest
  | flat hflat _ ih =>
      rw [List.cons_append, StaysOpen, track_of_flat hflat]
      exact ⟨Nat.succ_ne_zero depth, ih hrest⟩
  | @group opening closing inner tokens hopens _ hcloses _ ihinner ihrest =>
      rw [List.cons_append, List.append_assoc, List.cons_append, StaysOpen,
        track_of_opens hopens]
      refine ⟨Nat.succ_ne_zero _, ihinner ?_⟩
      rw [StaysOpen, track_of_closes hcloses]
      exact ⟨Nat.succ_ne_zero depth, ihrest hrest⟩

theorem Nested.staysOpen {tokens : List τ} (hnested : Nested tokens) (depth : Nat) :
    StaysOpen (depth + 1) tokens := by
  have hnothing : StaysOpen (depth + 1) ([] : List τ) := trivial
  have happend := hnested.staysOpen_append hnothing
  rwa [List.append_nil] at happend

/-- A nested run leaves the depth as it found it. -/
theorem Nested.trackAll {tokens : List τ} (hnested : Nested tokens) (depth : Nat) :
    Alphabet.trackAll depth tokens = depth := by
  induction hnested generalizing depth with
  | nil => rfl
  | flat hflat _ ih =>
      rw [Alphabet.trackAll, List.foldl_cons, track_of_flat hflat]
      exact ih depth
  | @group opening closing inner tokens hopens _ hcloses _ ihinner ihrest =>
      have hinside := ihinner (depth + 1)
      rw [Alphabet.trackAll] at hinside
      rw [Alphabet.trackAll, List.foldl_cons, List.foldl_append, List.foldl_cons,
        track_of_opens hopens, hinside, track_of_closes hcloses]
      exact ihrest depth

theorem EndsUnit.ne_nil {depth : Nat} {tokens : List τ} (hends : EndsUnit depth tokens) :
    tokens ≠ [] := by
  cases hends <;> exact List.cons_ne_nil _ _

namespace Json

theorem Token.nesting_of_isScalar {token : Token} (hscalar : token.isScalar = true) :
    token.nesting = .flat := by
  cases token <;> simp_all [Token.isScalar, Token.nesting]

namespace Document

mutual

/-- A document can stand wherever nesting has to be kept. -/
theorem nested_tokens : ∀ document : Document, Nested document.tokens
  | null => .flat rfl .nil
  | bool _ => .flat rfl .nil
  | number _ => .flat rfl .nil
  | string _ => .flat rfl .nil
  | array elements => by
      rw [tokens]
      exact .group rfl (nested_elementTokens elements) rfl .nil
  | object members => by
      rw [tokens]
      exact .group rfl (nested_memberTokens members) rfl .nil

theorem nested_elementTokens : ∀ elements : List Document, Nested (elementTokens elements)
  | [] => .nil
  | element :: rest => by
      rw [elementTokens]
      exact (nested_tokens element).append (nested_elementTokens rest)

theorem nested_memberTokens :
    ∀ members : List (String × Document), Nested (memberTokens members)
  | [] => .nil
  | (name, value) :: rest => by
      rw [memberTokens]
      exact .flat rfl ((nested_tokens value).append (nested_memberTokens rest))

end

/-- The document is an array or an object. -/
def isStructure : Document → Bool
  | array _ => true
  | object _ => true
  | _ => false

/-- A document is a scalar token or a bracketed run. -/
theorem tokens_cases (document : Document) :
    (∃ token : Token, document.tokens = [token] ∧ token.isScalar = true ∧
      document.isStructure = false) ∨
    (∃ (opening closing : Token) (inner : List Token),
      document.tokens = opening :: (inner ++ [closing]) ∧ opening.nesting = .opens ∧
        Nested inner ∧ closing.nesting = .closes ∧ document.isStructure = true) := by
  cases document with
  | null => exact .inl ⟨_, rfl, rfl, rfl⟩
  | bool value => exact .inl ⟨_, rfl, rfl, rfl⟩
  | number text => exact .inl ⟨_, rfl, rfl, rfl⟩
  | string text => exact .inl ⟨_, rfl, rfl, rfl⟩
  | array elements =>
      exact .inr ⟨_, _, _, by rw [tokens]; rfl, rfl, nested_elementTokens elements, rfl, rfl⟩
  | object members =>
      exact .inr ⟨_, _, _, by rw [tokens]; rfl, rfl, nested_memberTokens members, rfl, rfl⟩

/-- A document is one whole unit. -/
theorem endsUnit_tokens (document : Document) : EndsUnit 0 document.tokens := by
  rcases document.tokens_cases with
    ⟨token, htokens, hscalar, -⟩ | ⟨opening, closing, inner, htokens, hopens, hinner, hcloses, -⟩
  · rw [htokens]
    exact .last (track_of_flat (Token.nesting_of_isScalar hscalar) 0)
  · rw [htokens]
    refine .step ?_ ?_
    · rw [track_of_opens hopens]
      exact Nat.one_ne_zero
    · rw [track_of_opens hopens]
      exact hinner.endsUnit_append (.last (track_of_closes hcloses 1))

theorem tokens_ne_nil (document : Document) : document.tokens ≠ [] :=
  document.endsUnit_tokens.ne_nil

end Document

end Json

end TokenCodec
