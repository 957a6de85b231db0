import TokenCodec.Json.Token
import TokenCodec.Xml.Writer

/-!
# Matching brackets

A depth alone cannot tell a closing token of the wrong kind from the right one.
Here an opening token says which token closes its structure, and a run is read
with the closing tokens that are owed, the innermost first.  A run is balanced
when every closing token is the one owed first and none is owed at the end.
-/

namespace TokenCodec

/-- An alphabet in which an opening token says how its structure closes. -/
class Bracketed (τ : Type) extends Alphabet τ where
  /-- The token that closes what a token opens. -/
  closing : τ → τ

instance : Bracketed Json.Token where
  closing
    | .startObject => .endObject
    | .startArray => .endArray
    | token => token

instance : Bracketed Xml.Token where
  closing
    | .startElement name _ => .endElement name
    | token => token

open Alphabet Bracketed

variable {τ : Type} [Bracketed τ]

/-- Where the closing tokens `before` are owed, the innermost first, a run may
follow that leaves the closing tokens `after` owed. -/
inductive Owes : List τ → List τ → List τ → Prop where
  | nil (owed : List τ) : Owes owed [] owed
  | flat {before tokens after : List τ} {token : τ} (hflat : nesting token = .flat)
      (hrest : Owes before tokens after) : Owes before (token :: tokens) after
  | opens {before tokens after : List τ} {token : τ} (hopens : nesting token = .opens)
      (hrest : Owes (closing token :: before) tokens after) : Owes before (token :: tokens) after
  /-- A closing token has to be the one that is owed first. -/
  | closes {before tokens after : List τ} {token : τ} (hcloses : nesting token = .closes)
      (hrest : Owes before tokens after) : Owes (token :: before) (token :: tokens) after

/-- Every closing token of a run closes the innermost open structure, and no
structure is left open. -/
def Balanced (tokens : List τ) : Prop := Owes [] tokens []

namespace Owes

theorem append {before front middle back after : List τ} (hfront : Owes before front middle)
    (hback : Owes middle back after) : Owes before (front ++ back) after := by
  induction hfront with
  | nil owed => exact hback
  | flat hflat _ ih => exact .flat hflat (ih hback)
  | opens hopens _ ih => exact .opens hopens (ih hback)
  | closes hcloses _ ih => exact .closes hcloses (ih hback)

/-- What a run does it also does inside of further structures. -/
theorem inside {before tokens after : List τ} (howes : Owes before tokens after)
    (outer : List τ) : Owes (before ++ outer) tokens (after ++ outer) := by
  induction howes with
  | nil owed => exact .nil _
  | flat hflat _ ih => exact .flat hflat ih
  | opens hopens _ ih => exact .opens hopens ih
  | closes hcloses _ ih => exact .closes hcloses ih

/-- A run comes to its end by way of what each of its parts leaves owed. -/
theorem of_append {before front back after : List τ} (howes : Owes before (front ++ back) after) :
    ∃ middle, Owes before front middle ∧ Owes middle back after := by
  induction front generalizing before with
  | nil => exact ⟨before, .nil before, howes⟩
  | cons token front ih =>
      cases howes with
      | flat hflat hrest =>
          obtain ⟨middle, hfront, hback⟩ := ih hrest
          exact ⟨middle, .flat hflat hfront, hback⟩
      | opens hopens hrest =>
          obtain ⟨middle, hfront, hback⟩ := ih hrest
          exact ⟨middle, .opens hopens hfront, hback⟩
      | closes hcloses hrest =>
          obtain ⟨middle, hfront, hback⟩ := ih hrest
          exact ⟨middle, .closes hcloses hfront, hback⟩

theorem eq_of_nil {before after : List τ} (howes : Owes before [] after) : after = before := by
  cases howes
  rfl

section Token

variable {before tokens after : List τ} {token : τ}

theorem of_flat (howes : Owes before (token :: tokens) after) (hflat : nesting token = .flat) :
    Owes before tokens after := by
  cases howes with
  | flat _ hrest => exact hrest
  | opens hopens _ => cases hopens.symm.trans hflat
  | closes hcloses _ => cases hcloses.symm.trans hflat

theorem of_opens (howes : Owes before (token :: tokens) after)
    (hopens : nesting token = .opens) : Owes (closing token :: before) tokens after := by
  cases howes with
  | flat hflat _ => cases hflat.symm.trans hopens
  | opens _ hrest => exact hrest
  | closes hcloses _ => cases hcloses.symm.trans hopens

theorem of_closes (howes : Owes before (token :: tokens) after)
    (hcloses : nesting token = .closes) :
    ∃ rest, before = token :: rest ∧ Owes rest tokens after := by
  cases howes with
  | flat hflat _ => cases hflat.symm.trans hcloses
  | opens hopens _ => cases hopens.symm.trans hcloses
  | closes _ hrest => exact ⟨_, rfl, hrest⟩

end Token

end Owes

namespace Balanced

theorem nil : Balanced ([] : List τ) := Owes.nil []

theorem append {front back : List τ} (hfront : Balanced front) (hback : Balanced back) :
    Balanced (front ++ back) :=
  Owes.append hfront hback

theorem flatMap {ι : Type _} {items : List ι} {tokens : ι → List τ}
    (htokens : ∀ item ∈ items, Balanced (tokens item)) : Balanced (items.flatMap tokens) := by
  induction items with
  | nil => exact .nil
  | cons item items ih =>
      rw [List.flatMap_cons]
      exact (htokens item List.mem_cons_self).append
        (ih fun other hmem => htokens other (List.mem_cons_of_mem _ hmem))

/-- Tokens without nesting are balanced. -/
theorem of_flat {tokens : List τ} (hflat : ∀ token ∈ tokens, nesting token = .flat) :
    Balanced tokens := by
  induction tokens with
  | nil => exact .nil
  | cons token tokens ih =>
      exact .flat (hflat token List.mem_cons_self)
        (ih fun other hmem => hflat other (List.mem_cons_of_mem _ hmem))

end Balanced

/-- Taking attributes out of a run leaves its brackets as they are. -/
theorem Owes.splitAttributes {before tokens after : List Xml.Token}
    (howes : Owes before tokens after) (depth : Nat) :
    Owes before (Xml.splitAttributes depth tokens).2 after := by
  induction howes generalizing depth with
  | nil owed => exact .nil owed
  | @flat _ _ _ token hflat _ ih =>
      cases token with
      | startElement name attributes => cases hflat
      | endElement name => cases hflat
      | characters text => exact .flat rfl (ih depth)
      | loneAttribute attr =>
          by_cases hdepth : depth = 0
          · simpa [Xml.splitAttributes, hdepth] using ih 0
          · simpa [Xml.splitAttributes, hdepth] using Owes.flat rfl (ih depth)
  | @opens _ _ _ token hopens _ ih =>
      cases token with
      | startElement name attributes => exact .opens rfl (ih (depth + 1))
      | _ => cases hopens
  | @closes _ _ _ token hcloses _ ih =>
      cases token with
      | endElement name => exact .closes rfl (ih (depth - 1))
      | _ => cases hcloses

end TokenCodec
