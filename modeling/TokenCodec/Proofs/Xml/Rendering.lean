import TokenCodec.Proofs.Rendering
import TokenCodec.Proofs.Xml.Elements

/-!
# Rendering elements

The writer of an element moves the attributes among the tokens of its parts into
the start token.  It does so when the first value is written, and what its parts
write when they are closed follows as it is.  So the parts must not write
attributes of their own when they are closed, and none of the writers of this
library does.
-/

namespace TokenCodec

open Xml Xml.Node Alphabet

variable {α β κ : Type}

namespace Xml

/-! ## Attributes among tokens -/

/-- No attribute is a token of its own. -/
def Loneless (tokens : List Token) : Prop :=
  ∀ attr, .loneAttribute attr ∉ tokens

theorem Loneless.append {front back : List Token} (hfront : Loneless front)
    (hback : Loneless back) : Loneless (front ++ back) := by
  intro attr hmem
  rcases List.mem_append.mp hmem with hfirst | hsecond
  · exact hfront attr hfirst
  · exact hback attr hsecond

namespace Node

mutual

theorem loneless_tokens : ∀ node : Node, Loneless node.tokens
  | element name attributes content => by
      intro attr hmem
      rw [tokens] at hmem
      rcases List.mem_append.mp hmem with hfront | hlast
      · rcases List.mem_cons.mp hfront with hfirst | hcontent
        · cases hfirst
        · exact loneless_contentTokens content attr hcontent
      · cases List.mem_singleton.mp hlast
  | characters text => fun attr hmem => by cases List.mem_singleton.mp hmem

theorem loneless_contentTokens : ∀ content : List Node, Loneless (contentTokens content)
  | [] => fun _ hmem => by cases hmem
  | node :: rest => by
      rw [contentTokens]
      exact (loneless_tokens node).append (loneless_contentTokens rest)

end

end Node

/-- A token other than an attribute stays where it is. -/
theorem splitAttributes_cons {token : Token} (hother : ∀ attr, token ≠ .loneAttribute attr)
    (depth : Nat) (rest : List Token) :
    splitAttributes depth (token :: rest) =
      ((splitAttributes (track depth token) rest).1,
        token :: (splitAttributes (track depth token) rest).2) := by
  cases token with
  | loneAttribute attr => exact absurd rfl (hother attr)
  | _ => rfl

theorem splitAttributes_append (depth : Nat) (front back : List Token) :
    splitAttributes depth (front ++ back) =
      ((splitAttributes depth front).1 ++ (splitAttributes (trackAll depth front) back).1,
        (splitAttributes depth front).2 ++ (splitAttributes (trackAll depth front) back).2) := by
  induction front generalizing depth with
  | nil => rfl
  | cons token front ih =>
      by_cases hlone : ∃ attr, token = .loneAttribute attr
      · obtain ⟨attr, rfl⟩ := hlone
        have htrack : trackAll depth (.loneAttribute attr :: front) = trackAll depth front := rfl
        rw [htrack]
        by_cases hdepth : depth = 0 <;> simp [splitAttributes, ih, hdepth]
      · have hother : ∀ attr, token ≠ .loneAttribute attr := fun attr heq => hlone ⟨attr, heq⟩
        rw [List.cons_append, splitAttributes_cons hother, splitAttributes_cons hother, ih]
        rfl

theorem splitAttributes_of_loneless (depth : Nat) {tokens : List Token}
    (hloneless : Loneless tokens) : splitAttributes depth tokens = ([], tokens) := by
  induction tokens generalizing depth with
  | nil => rfl
  | cons token tokens ih =>
      have hrest : Loneless tokens := fun attr hmem =>
        hloneless attr (List.mem_cons_of_mem _ hmem)
      have hother : ∀ attr, token ≠ .loneAttribute attr := by
        rintro attr rfl
        exact hloneless attr List.mem_cons_self
      rw [splitAttributes_cons hother, ih _ hrest]

/-- Attributes in front of content are split from it. -/
theorem splitAttributes_innerTokens (attributes : List Attribute) (content : List Node) :
    splitAttributes 0 (innerTokens attributes content) = (attributes, contentTokens content) := by
  induction attributes with
  | nil => exact splitAttributes_of_loneless 0 (loneless_contentTokens content)
  | cons attr attributes ih =>
      change splitAttributes 0 (.loneAttribute attr :: innerTokens attributes content) = _
      simp [splitAttributes, ih]

end Xml

/-! ## Writers that are tidy when they are closed -/

namespace Writer

/-- Closing writes no attribute. -/
def Tidy (writer : Writer Token α) : Prop :=
  ∀ state, Loneless (writer.close state).1

theorem Tidy.ofTokens (tokens : α → List Token) : (Writer.ofTokens tokens).Tidy :=
  fun _ _ hmem => by cases hmem

theorem Tidy.contramap {writer : Writer Token α} (htidy : writer.Tidy) (f : β → α) :
    (writer.contramap f).Tidy :=
  htidy

theorem Tidy.collect {writer : Writer Token α} (htidy : writer.Tidy) : writer.collect.Tidy :=
  htidy

theorem Tidy.optional {writer : Writer Token α} (htidy : writer.Tidy) : writer.optional.Tidy :=
  htidy

/-- Only a lone part is left open until the composition is closed. -/
theorem Tidy.parts {writer : Writer Token α} (htidy : writer.Tidy)
    (rest : Parts (Writer Token) β) : (Writer.parts (.cons writer rest)).Tidy := by
  cases rest with
  | nil => exact htidy
  | cons second rest => exact fun _ _ hmem => by cases hmem

theorem Tidy.element {parts : Writer Token β} (hparts : parts.Tidy) (name : Name)
    {conditions : List Token} (hconditions : Loneless (splitAttributes 0 conditions).2) :
    (elementWriter name parts conditions).Tidy := by
  intro state
  have hclosing := hparts state.1
  cases hopen : state.2 with
  | false => simpa [elementWriter, hopen] using hclosing
  | true =>
      have hend : Loneless [.endElement name] := fun _ hmem => by
        cases List.mem_singleton.mp hmem
      simpa [elementWriter, hopen] using (hclosing.append hconditions).append hend

end Writer

namespace Xml

open Writer

/-- An element renders with the attributes of its parts and conditions in the
start token, and everything else behind it. -/
theorem renders_elementWriter {writer : Writer Token β} {tokens : β → List Token}
    (hrenders : writer.Renders tokens) (htidy : writer.Tidy) (name : Name)
    (conditions : List Token) :
    (elementWriter name writer conditions).Renders fun value =>
      .startElement name ((splitAttributes 0 (tokens value)).1 ++ (splitAttributes 0 conditions).1) ::
        ((splitAttributes 0 (tokens value)).2 ++ (splitAttributes 0 conditions).2) ++
          [.endElement name] where
  emits value := by
    obtain ⟨written, middle, closing, hwrite, hclose, htokens⟩ := hrenders.exists_closing value
    have hloneless : Loneless closing := by
      have hmiddle := htidy middle
      rwa [hclose] at hmiddle
    have hsplit : splitAttributes 0 (tokens value) =
        ((splitAttributes 0 written).1, (splitAttributes 0 written).2 ++ closing) := by
      rw [← htokens, splitAttributes_append, splitAttributes_of_loneless _ hloneless,
        List.append_nil]
    have hopening : (elementWriter name writer conditions).write (writer.start, false) value =
        (.startElement name ((splitAttributes 0 written).1 ++ (splitAttributes 0 conditions).1) ::
          (splitAttributes 0 written).2, (middle, true)) := by
      simp [elementWriter, hwrite]
    have hclosing : (elementWriter name writer conditions).close (middle, true) =
        (closing ++ (splitAttributes 0 conditions).2 ++ [.endElement name],
          (writer.start, false)) := by
      simp [elementWriter, hclose]
    refine (writeClosed_eq hopening hclosing).trans ?_
    rw [hsplit]
    simp
    rfl
  rests := by
    simp [elementWriter, hrenders.rests]

/-! ## Values in one element -/

/-- Several parts leave nothing open between two values. -/
theorem close_parts : {β : Type} → {parts : Parts (Writer Token) β} → parts.size ≠ 1 →
    ∀ state, (Writer.parts parts).close state = ([], state)
  | _, .nil, _, _ => rfl
  | _, .cons _ .nil, hsize, _ => absurd rfl hsize
  | _, .cons _ (.cons _ _), _, _ => rfl

/-- An element goes on from value to value if its parts leave nothing open between
them. -/
theorem shares_elementWriter {parts : Writer Token β} {tokens : β → List Token}
    (hrenders : parts.Renders tokens) (hcloses : ∀ state, parts.close state = ([], state))
    (name : Name) (conditions : List Token) :
    (elementWriter name parts conditions).Shares fun
      | [] => []
      | first :: others =>
          .startElement name
              ((splitAttributes 0 (tokens first)).1 ++ (splitAttributes 0 conditions).1) ::
            ((splitAttributes 0 (tokens first)).2 ++ others.flatMap tokens ++
              (splitAttributes 0 conditions).2 ++ [.endElement name]) where
  emits first others := by
    have hwrite (value : β) : parts.write parts.start value = (tokens value, parts.start) := by
      obtain ⟨written, middle, closing, hwrite, hclose, htokens⟩ := hrenders.exists_closing value
      rw [hcloses] at hclose
      obtain ⟨rfl, rfl⟩ := Prod.mk.inj hclose
      rw [hwrite, ← htokens, List.append_nil]
    have hopening : (elementWriter name parts conditions).write (parts.start, false) first =
        (.startElement name
            ((splitAttributes 0 (tokens first)).1 ++ (splitAttributes 0 conditions).1) ::
          (splitAttributes 0 (tokens first)).2, (parts.start, true)) := by
      simp [elementWriter, hwrite]
    have hgoing (values : List β) :
        (elementWriter name parts conditions).writeShared (parts.start, true) values =
          (values.flatMap tokens, (parts.start, true)) := by
      induction values with
      | nil => rfl
      | cons value values ih =>
          have hvalue : (elementWriter name parts conditions).write (parts.start, true) value =
              (tokens value, (parts.start, true)) := by
            simp [elementWriter, hwrite]
          rw [writeShared_cons_of_write hvalue, ih]
          rfl
    have hclosing : (elementWriter name parts conditions).close (parts.start, true) =
        ((splitAttributes 0 conditions).2 ++ [.endElement name], (parts.start, false)) := by
      simp [elementWriter, hcloses]
    have hwritten := writeShared_cons_of_write hopening others
    rw [hgoing] at hwritten
    refine ⟨_, _, _, hwritten, hclosing, ?_⟩
    simp
  rests := by
    simp [elementWriter, hcloses]

/-- The element with one member. -/
def enclosed (name : Name) (member : Codec Token α) : Codec Token α :=
  (Codec.element name (.one member)).imap Prod.fst (·, ())

theorem shares_enclosed {codec : Codec Token α} {tokens : List α → List Token}
    (hshares : codec.writer.Shares tokens)
    (hloneless : ∀ value, Loneless (codec.writer.write codec.writer.start value).1)
    (outer : Name) :
    (enclosed outer codec).writer.Shares fun values =>
      [.startElement outer []] ++ tokens values ++ [.endElement outer] := by
  apply hshares.of_opening (enclosed outer codec).writer (·, true)
  · intro value
    have hopens : (enclosed outer codec).writer.write (codec.writer.start, false) value =
        (.startElement outer
            ((splitAttributes 0 (codec.writer.write codec.writer.start value).1).1 ++ []) ::
          (splitAttributes 0 (codec.writer.write codec.writer.start value).1).2,
            ((codec.writer.write codec.writer.start value).2, true)) := rfl
    rw [splitAttributes_of_loneless 0 (hloneless value)] at hopens
    exact hopens
  · intro state value
    rfl
  · intro state closing hclose
    have hcloses : (enclosed outer codec).writer.close (state, true) =
        ((codec.writer.close state).1 ++ [] ++ [.endElement outer],
          ((codec.writer.close state).2, false)) := rfl
    rw [hclose, List.append_nil] at hcloses
    exact hcloses
  · have hcloses : (enclosed outer codec).writer.close (codec.writer.start, false) =
        ((codec.writer.close codec.writer.start).1,
          ((codec.writer.close codec.writer.start).2, false)) := rfl
    rw [hshares.rests] at hcloses
    exact hcloses

end Xml

end TokenCodec
