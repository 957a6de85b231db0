import TokenCodec.Proofs.Balance
import TokenCodec.Proofs.Xml.Rendering

/-!
# The start token of a written element

A written element is one start token with all its attributes, balanced content,
and the end token that matches.  What a member shows at the top level follows from
how it is built: an attribute shows itself, lists and maps show what their values
show, and an element hides what its own members show in its own start token.  The
start token has what the members show, in their order, and behind it what the
conditions show, in theirs.
-/

namespace TokenCodec

open Alphabet

/-- The depth follows the closing tokens that are owed. -/
theorem Owes.trackAll {τ : Type} [Bracketed τ] {before tokens after : List τ}
    (howes : Owes before tokens after) : trackAll before.length tokens = after.length := by
  induction howes with
  | nil owed => rfl
  | flat hflat _ ih => rwa [Alphabet.trackAll, List.foldl_cons, track_of_flat hflat]
  | opens hopens _ ih => rwa [Alphabet.trackAll, List.foldl_cons, track_of_opens hopens]
  | closes hcloses _ ih => rwa [Alphabet.trackAll, List.foldl_cons, track_of_closes hcloses]

namespace Xml

variable {α β : Type}

/-! ## Attributes at the top level -/

/-- Balanced tokens that have the given attributes at the top level, and no other
attributes as tokens of their own. -/
structure Headed (tokens : List Token) (attributes : List Attribute) : Prop where
  balanced : Balanced tokens
  attributes : (splitAttributes 0 tokens).1 = attributes
  loneless : Loneless (splitAttributes 0 tokens).2

namespace Headed

theorem of_loneless {tokens : List Token} (hbalanced : Balanced tokens)
    (hloneless : Loneless tokens) : Headed tokens [] := by
  have hsplit := splitAttributes_of_loneless 0 hloneless
  constructor
  · exact hbalanced
  · rw [hsplit]
  · rwa [hsplit]

theorem nil : Headed [] [] :=
  of_loneless .nil fun _ hmem => by cases hmem

theorem lone (attr : Attribute) : Headed [.loneAttribute attr] [attr] where
  balanced := .flat rfl (.nil [])
  attributes := rfl
  loneless := nil.loneless

theorem append {front back : List Token} {first others : List Attribute}
    (hfront : Headed front first) (hback : Headed back others) :
    Headed (front ++ back) (first ++ others) := by
  have houtside : trackAll 0 front = 0 := hfront.balanced.trackAll
  have hsplit := splitAttributes_append 0 front back
  rw [houtside] at hsplit
  constructor
  · exact hfront.balanced.append hback.balanced
  · rw [hsplit, hfront.attributes, hback.attributes]
  · rw [hsplit]
    exact hfront.loneless.append hback.loneless

theorem flatMap {tokens : α → List Token} {shown : α → List Attribute}
    (htokens : ∀ value, Headed (tokens value) (shown value)) (values : List α) :
    Headed (values.flatMap tokens) (values.flatMap shown) := by
  induction values with
  | nil => exact nil
  | cons value values ih => exact (htokens value).append ih

end Headed

/-! ## What a writer shows -/

mutual

/-- A writer is built by the combinators, and for every value `shown` gives the
attributes that it shows at the top level. -/
inductive Shows : {α : Type} → Writer Token α → (α → List Attribute) → Prop where
  | ofAttribute (name : Name) : Shows (ofAttribute name).writer fun value => [⟨name, value⟩]
  | anyAttribute : Shows anyAttribute.writer fun pair => [⟨pair.1, pair.2⟩]
  | text : Shows text.writer fun _ => []
  /-- An element hides the attributes of its own parts and conditions. -/
  | element {β : Type} {parts : Parts (Writer Token) β} {conditions : List (Condition Token)}
      {shown : β → List Attribute} {bound : List Attribute} (name : Name)
      (hparts : ShowsAll parts shown) (hconditions : ShowsEach conditions bound) :
      Shows (elementWriter name (.parts parts) (Condition.written conditions)) fun _ => []
  | contramap {α β : Type} {writer : Writer Token α} {shown : α → List Attribute}
      (hwriter : Shows writer shown) (f : β → α) :
      Shows (writer.contramap f) fun value => shown (f value)
  | collect {α : Type} {writer : Writer Token α} {shown : α → List Attribute}
      (hwriter : Shows writer shown) : Shows writer.collect fun values => values.flatMap shown
  | optional {α : Type} {writer : Writer Token α} {shown : α → List Attribute}
      (hwriter : Shows writer shown) : Shows writer.optional fun value => (value.map shown).getD []

/-- What the parts of a composition show together, in their order. -/
inductive ShowsAll : {β : Type} → Parts (Writer Token) β → (β → List Attribute) → Prop where
  | nil : ShowsAll .nil fun _ => []
  | cons {α β : Type} {first : Writer Token α} {rest : Parts (Writer Token) β}
      {shown : α → List Attribute} {others : β → List Attribute} (hfirst : Shows first shown)
      (hrest : ShowsAll rest others) :
      ShowsAll (.cons first rest) fun values => shown values.1 ++ others values.2

/-- What conditions show together, in their order. -/
inductive ShowsEach : List (Condition Token) → List Attribute → Prop where
  | nil : ShowsEach [] []
  | cons {condition : Condition Token} {conditions : List (Condition Token)}
      {shown : Unit → List Attribute} {others : List Attribute}
      (hfirst : Shows condition.writer shown) (hrest : ShowsEach conditions others) :
      ShowsEach (condition :: conditions) (shown () ++ others)

end

/-- A writer renders tokens that are headed by what it shows, and closes without
attributes. -/
def Heads (writer : Writer Token α) (shown : α → List Attribute) : Prop :=
  ∃ tokens, writer.Renders tokens ∧ writer.Tidy ∧ ∀ value, Headed (tokens value) (shown value)

namespace Heads

variable {writer : Writer Token α} {shown : α → List Attribute}

theorem ofTokens {tokens : α → List Token}
    (htokens : ∀ value, Headed (tokens value) (shown value)) :
    Heads (.ofTokens tokens) shown :=
  ⟨tokens, .ofTokens tokens, .ofTokens tokens, htokens⟩

theorem contramap (hwriter : Heads writer shown) (f : β → α) :
    Heads (writer.contramap f) fun value => shown (f value) := by
  obtain ⟨tokens, hrenders, htidy, hheaded⟩ := hwriter
  exact ⟨_, hrenders.contramap f, htidy.contramap f, fun value => hheaded (f value)⟩

theorem collect (hwriter : Heads writer shown) :
    Heads writer.collect fun values => values.flatMap shown := by
  obtain ⟨tokens, hrenders, htidy, hheaded⟩ := hwriter
  exact ⟨_, hrenders.collect, htidy.collect, Headed.flatMap hheaded⟩

theorem optional (hwriter : Heads writer shown) :
    Heads writer.optional fun value => (value.map shown).getD [] := by
  obtain ⟨tokens, hrenders, htidy, hheaded⟩ := hwriter
  refine ⟨_, hrenders.optional, htidy.optional, fun value => ?_⟩
  cases value with
  | none => exact .nil
  | some value => exact hheaded value

/-- What is written when the writer is closed behind one value. -/
theorem headed_writeClosed (hwriter : Heads writer shown) (value : α) :
    Headed (writer.writeClosed writer.start value).1 (shown value) := by
  obtain ⟨tokens, hrenders, -, hheaded⟩ := hwriter
  rw [hrenders.emits]
  exact hheaded value

end Heads

/-- Parts that stand side by side are headed by what they show together. -/
def HeadsAll (parts : Parts (Writer Token) β) (shown : β → List Attribute) : Prop :=
  ∃ tokens : β → List Token,
    (∀ values, (Writer.besideAll parts).write (Writer.besideAll parts).start values =
      (tokens values, (Writer.besideAll parts).start)) ∧
    ∀ values, Headed (tokens values) (shown values)

section Parts

variable {first : Writer Token α} {rest : Parts (Writer Token) β} {shown : α → List Attribute}
  {others : β → List Attribute}

theorem HeadsAll.nil : HeadsAll .nil fun _ => [] :=
  ⟨fun _ => [], fun _ => rfl, fun _ => .nil⟩

theorem HeadsAll.cons (hfirst : Heads first shown) (hrest : HeadsAll rest others) :
    HeadsAll (.cons first rest) fun values => shown values.1 ++ others values.2 := by
  obtain ⟨tokens, hrenders, -, hheaded⟩ := hfirst
  obtain ⟨more, hbeside, hothers⟩ := hrest
  exact ⟨_, hrenders.write_besideAll hbeside,
    fun values => (hheaded values.1).append (hothers values.2)⟩

theorem Heads.parts (hfirst : Heads first shown) (hrest : HeadsAll rest others) :
    Heads (.parts (.cons first rest)) fun values => shown values.1 ++ others values.2 := by
  obtain ⟨tokens, hrenders, htidy, hheaded⟩ := hfirst
  obtain ⟨more, hbeside, hothers⟩ := hrest
  exact ⟨_, hrenders.parts hbeside, htidy.parts rest,
    fun values => (hheaded values.1).append (hothers values.2)⟩

end Parts

/-- The tokens of an element with the given attributes and content. -/
def elementTokens (name : Name) (attributes : List Attribute) (content : List Token) :
    List Token :=
  .startElement name attributes :: content ++ [.endElement name]

/-- An element renders one start token with what its parts and conditions show, and
behind it balanced content without attributes. -/
theorem Heads.exists_content {parts : Writer Token β} {shown : β → List Attribute}
    {conditions : List Token} {bound : List Attribute} (hparts : Heads parts shown)
    (hconditions : Headed conditions bound) (name : Name) :
    ∃ content : β → List Token,
      (elementWriter name parts conditions).Renders
          (fun value => elementTokens name (shown value ++ bound) (content value)) ∧
        ∀ value, Balanced (content value) ∧ Loneless (content value) := by
  obtain ⟨tokens, hrenders, htidy, hheaded⟩ := hparts
  refine ⟨fun value => (splitAttributes 0 (tokens value)).2 ++ (splitAttributes 0 conditions).2,
    ?_, fun value => ⟨?_, ?_⟩⟩
  · apply (renders_elementWriter hrenders htidy name conditions).congr
    intro value
    rw [(hheaded value).attributes, hconditions.attributes, elementTokens]
  · exact ((hheaded value).balanced.splitAttributes 0).append
      (hconditions.balanced.splitAttributes 0)
  · exact (hheaded value).loneless.append hconditions.loneless

theorem balanced_elementTokens (name : Name) (attributes : List Attribute) {content : List Token}
    (hcontent : Balanced content) : Balanced (elementTokens name attributes content) :=
  .opens rfl ((hcontent.inside [Token.endElement name]).append (.closes rfl (.nil [])))

theorem loneless_elementTokens (name : Name) (attributes : List Attribute) {content : List Token}
    (hcontent : Loneless content) : Loneless (elementTokens name attributes content) := by
  intro attr hmem
  rcases List.mem_append.mp hmem with hinside | hend
  · rcases List.mem_cons.mp hinside with hstart | hmember
    · cases hstart
    · exact hcontent attr hmember
  · cases List.mem_singleton.mp hend

theorem Heads.element {parts : Writer Token β} {shown : β → List Attribute}
    {conditions : List Token} {bound : List Attribute} (hparts : Heads parts shown)
    (hconditions : Headed conditions bound) (name : Name) :
    Heads (elementWriter name parts conditions) fun _ => [] := by
  obtain ⟨content, hrenders, hcontent⟩ := hparts.exists_content hconditions name
  obtain ⟨inside, -, htidy, -⟩ := hparts
  refine ⟨_, hrenders, htidy.element name hconditions.loneless, fun value => ?_⟩
  exact .of_loneless (balanced_elementTokens name _ (hcontent value).1)
    (loneless_elementTokens name _ (hcontent value).2)

mutual

/-- Every writer is headed by what it shows. -/
theorem Shows.heads : ∀ {α : Type} {writer : Writer Token α} {shown : α → List Attribute},
    Shows writer shown → Heads writer shown
  | _, _, _, .ofAttribute name => .ofTokens fun value => .lone ⟨name, value⟩
  | _, _, _, .anyAttribute => .ofTokens fun pair => .lone ⟨pair.1, pair.2⟩
  | _, _, _, .text => by
      apply Heads.ofTokens
      intro value
      split
      · exact .nil
      · exact .of_loneless (.flat rfl (.nil [])) fun attr hmem => by
          cases List.mem_singleton.mp hmem
  | _, _, _, .element name hparts hconditions =>
      hparts.heads.2.element hconditions.headed name
  | _, _, _, .contramap hwriter f => hwriter.heads.contramap f
  | _, _, _, .collect hwriter => hwriter.heads.collect
  | _, _, _, .optional hwriter => hwriter.heads.optional

theorem ShowsAll.heads : ∀ {β : Type} {parts : Parts (Writer Token) β}
    {shown : β → List Attribute}, ShowsAll parts shown →
      HeadsAll parts shown ∧ Heads (.parts parts) shown
  | _, _, _, .nil => ⟨.nil, .ofTokens fun _ => .nil⟩
  | _, _, _, .cons hfirst hrest =>
      ⟨.cons hfirst.heads hrest.heads.1, hfirst.heads.parts hrest.heads.1⟩

theorem ShowsEach.headed : ∀ {conditions : List (Condition Token)} {bound : List Attribute},
    ShowsEach conditions bound → Headed (Condition.written conditions) bound
  | _, _, .nil => .nil
  | _, _, .cons hfirst hrest => (hfirst.heads.headed_writeClosed ()).append hrest.headed

end

/-! ## The start token -/

/-- A written element begins with its start token, whose attributes are those that the
parts show, in their order, and behind them those that the conditions show, in theirs.
It ends with the end token that matches, and no attribute is a token of its own. -/
theorem write_element (name : Name) {parts : Parts (WriteCodec Token) β}
    {conditions : List (Condition Token)} {shown : β → List Attribute} {bound : List Attribute}
    (hparts : ShowsAll (parts.mapParts WriteCodec.writer) shown)
    (hconditions : ShowsEach conditions bound) (extract : α → β) (value : α) :
    let written := ((WriteCodec.element name parts conditions).contramap extract).write value
    Loneless written ∧ ∃ content, Balanced content ∧
      written = .startElement name (shown (extract value) ++ bound) :: content ++
        [.endElement name] := by
  obtain ⟨content, hrenders, hcontent⟩ :=
    hparts.heads.2.exists_content hconditions.headed name
  obtain ⟨hbalanced, hloneless⟩ := hcontent (extract value)
  have hwritten : ((WriteCodec.element name parts conditions).contramap extract).write value =
      elementTokens name (shown (extract value) ++ bound) (content (extract value)) :=
    congrArg Prod.fst (hrenders.emits (extract value))
  rw [hwritten]
  exact ⟨loneless_elementTokens name _ hloneless, content (extract value), hbalanced, rfl⟩

/-- An element that is read and written has the writer of the element that is only
written. -/
example (name : Name) (parts : Parts (Codec Token) β) (conditions : List (Condition Token)) :
    (Codec.element name parts conditions).writer =
      (WriteCodec.element name (parts.mapParts Codec.toWriteCodec) conditions).writer := rfl

/-- Crates with the texts of their books in front of two attributes, a condition on a
child with an attribute of its own, and one on an attribute. -/
def crateParts : Parts (WriteCodec Token) (List (String × Unit) × Option String × String × Unit) :=
  .cons (Codec.element (.plain "book") (.one text)).collect.toWriteCodec
    (.cons (ofAttribute (.plain "label")).optional.toWriteCodec
      (.one (ofAttribute (.plain "n")).toWriteCodec))

def crateConditions : List (Condition Token) :=
  [((Codec.element (.plain "kind") (.one (ofAttribute (.plain "k")))).imap Prod.fst (·, ())).fixed
      "open",
    (ofAttribute (.plain "v")).fixed "1"]

/-- The attributes behind the books and that of a condition are in the start token, in
order; the attribute of the child stays with the child. -/
theorem write_element_crate :
    let written := ((WriteCodec.element (.plain "crate") crateParts crateConditions).contramap
      fun n : String => ([("x", ()), ("", ())], some "a", n, ())).write "7"
    written =
        [.startElement (.plain "crate")
            [⟨.plain "label", "a"⟩, ⟨.plain "n", "7"⟩, ⟨.plain "v", "1"⟩],
          .startElement (.plain "book") [], .characters "x", .endElement (.plain "book"),
          .startElement (.plain "book") [], .endElement (.plain "book"),
          .startElement (.plain "kind") [⟨.plain "k", "open"⟩], .endElement (.plain "kind"),
          .endElement (.plain "crate")] ∧
      Loneless written ∧ ∃ content, Balanced content ∧
        written =
          .startElement (.plain "crate")
              [⟨.plain "label", "a"⟩, ⟨.plain "n", "7"⟩, ⟨.plain "v", "1"⟩] ::
            content ++ [.endElement (.plain "crate")] := by
  have hbook : Shows (Codec.element (.plain "book") (.one text)).writer fun _ => [] :=
    .element _ (.cons .text .nil) .nil
  have hkind : Shows (Codec.element (.plain "kind") (.one (ofAttribute (.plain "k")))).writer
      fun _ => [] := .element _ (.cons (.ofAttribute _) .nil) .nil
  have hparts : ShowsAll (crateParts.mapParts WriteCodec.writer) _ :=
    .cons (.collect hbook) (.cons (.optional (.ofAttribute _)) (.cons (.ofAttribute _) .nil))
  have hconditions : ShowsEach crateConditions _ :=
    .cons (.contramap (.contramap hkind _) _) (.cons (.contramap (.ofAttribute _) _) .nil)
  exact ⟨by decide, write_element (.plain "crate") hparts hconditions _ "7"⟩

end Xml

end TokenCodec
