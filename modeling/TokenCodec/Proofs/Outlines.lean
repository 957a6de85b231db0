import Mathlib.Data.List.Chain
import TokenCodec.Proofs.Layouts
import TokenCodec.Proofs.Writable

/-!
# Writing one document

An outline says of which combinators a codec for writing is made.  Each of its
writers gives the tokens of exactly one document, with one exception: a pair of a
name and no value is written as the name alone.  Whether that happens shows in
the tokens.  In a document every name is followed by a token that begins a value,
and a value of an outline is written that way only if none of its pairs lacks a
value.
-/

namespace TokenCodec.Json

open Document Writer

variable {α β : Type}

/-! ## Names in front of values -/

/-- The token can be the first one of a value. -/
def Token.beginsValue : Token → Bool
  | .name _ => false
  | .endObject => false
  | .endArray => false
  | _ => true

/-- Behind every name of a run, unless it is the last token, a value begins. -/
def Named (tokens : List Token) : Prop :=
  tokens.IsChain fun first second => ∀ name, first = .name name → second.beginsValue = true

theorem Named.cons {token : Token} {tokens : List Token} (htoken : ∀ name, token ≠ .name name)
    (htokens : Named tokens) : Named (token :: tokens) :=
  List.isChain_cons.mpr ⟨fun _ _ name hname => absurd hname (htoken name), htokens⟩

theorem Named.name {token : Token} {tokens : List Token} (hbegins : token.beginsValue = true)
    (htokens : Named (token :: tokens)) (name : String) :
    Named (.name name :: token :: tokens) :=
  List.isChain_cons_cons.mpr ⟨fun _ _ => hbegins, htokens⟩

theorem Named.within {tokens part : List Token} (hnamed : Named tokens) (hpart : part <:+: tokens) :
    Named part :=
  List.IsChain.infix hnamed hpart

/-- The parts of a run that is made of parts. -/
theorem Named.of_flatMap {tokens : α → List Token} {values : List α}
    (hnamed : Named (values.flatMap tokens)) {value : α} (hmem : value ∈ values) :
    Named (tokens value) :=
  hnamed.within (List.infix_of_mem_flatten (List.mem_map_of_mem hmem))

/-- What stands between two brackets. -/
theorem Named.inside {opening closing : Token} {tokens : List Token}
    (hnamed : Named (opening :: tokens ++ [closing])) : Named tokens :=
  hnamed.within ⟨[opening], [closing], rfl⟩

namespace Document

theorem exists_beginsValue (document : Document) :
    ∃ token rest, document.tokens = token :: rest ∧ token.beginsValue = true := by
  cases document with
  | array elements => exact ⟨_, _, by rw [tokens, List.cons_append], rfl⟩
  | object members => exact ⟨_, _, by rw [tokens, List.cons_append], rfl⟩
  | _ => exact ⟨_, _, by rw [tokens], rfl⟩

theorem named_name_append {document : Document} {rest : List Token}
    (hnamed : Named (document.tokens ++ rest)) (name : String) :
    Named (.name name :: document.tokens ++ rest) := by
  obtain ⟨token, others, htokens, hbegins⟩ := document.exists_beginsValue
  rw [htokens] at hnamed ⊢
  exact hnamed.name hbegins name

mutual

/-- In a document every name has a value behind it, whatever stands behind the
document. -/
theorem named_append : ∀ (document : Document) {rest : List Token}, Named rest →
    Named (document.tokens ++ rest)
  | null, _, hrest => .cons nofun hrest
  | bool _, _, hrest => .cons nofun hrest
  | number _, _, hrest => .cons nofun hrest
  | string _, _, hrest => .cons nofun hrest
  | array elements, rest, hrest => by
      rw [tokens, List.cons_append, List.cons_append, List.append_assoc]
      exact .cons nofun (named_elementTokens_append elements (.cons nofun hrest))
  | object members, rest, hrest => by
      rw [tokens, List.cons_append, List.cons_append, List.append_assoc]
      exact .cons nofun (named_memberTokens_append members (.cons nofun hrest))

theorem named_elementTokens_append : ∀ (elements : List Document) {rest : List Token},
    Named rest → Named (elementTokens elements ++ rest)
  | [], _, hrest => hrest
  | element :: elements, rest, hrest => by
      rw [elementTokens, List.append_assoc]
      exact named_append element (named_elementTokens_append elements hrest)

theorem named_memberTokens_append : ∀ (members : List (String × Document)) {rest : List Token},
    Named rest → Named (memberTokens members ++ rest)
  | [], _, hrest => hrest
  | (name, value) :: members, rest, hrest => by
      rw [memberTokens, List.append_assoc]
      exact named_name_append (named_append value (named_memberTokens_append members hrest)) name

end

theorem named_tokens (document : Document) : Named document.tokens := by
  have hnamed := document.named_append .nil
  rwa [List.append_nil] at hnamed

end Document

/-! ## Outlines -/

/-- A condition that binds a member to a scalar value. -/
inductive BindsMember : Condition Token → Prop where
  | intro {α : Type} [BEq α] [Shown α] {scalar : Scalar α} (hstandard : scalar.Standard)
      (name : String) (value : α) : BindsMember ((scalar.codec.member name).fixed value)

mutual

/-- The combinators that a codec for writing is made of. -/
inductive Outline : Type → Type 1 where
  | scalar {α : Type} (scalar : Scalar α) (hstandard : scalar.Standard) : Outline α
  | list {α : Type} (element : Outline.Content α) : Outline (List α)
  /-- An object with conditions. -/
  | object {β : Type} (members : Outline.Members β) (conditions : List (Condition Token))
      (hconditions : ∀ condition ∈ conditions, BindsMember condition) : Outline β
  /-- An object that holds any names. -/
  | entries {α : Type} (value : Outline.Content α) : Outline (Entries String α × Unit)
  | contramap {α β : Type} (outline : Outline α) (f : β → α) : Outline β

/-- What stands in an array or behind a name: a value that has to be there, or one
that may be absent. -/
inductive Outline.Content : Type → Type 1 where
  | always {α : Type} (outline : Outline α) : Outline.Content α
  | optional {α : Type} (outline : Outline α) : Outline.Content (Option α)

/-- A member of an object. -/
inductive Outline.Member : Type → Type 1 where
  | named {α : Type} (name : String) (content : Outline.Content α) : Outline.Member α
  | optional {α : Type} (name : String) (outline : Outline α) : Outline.Member (Option α)
  /-- A list that is left out when it is empty. -/
  | list {α : Type} (name : String) (outline : Outline α) : Outline.Member (List α)
  /-- The same for writing alone. -/
  | nonempty {α : Type} (name : String) (outline : Outline α) : Outline.Member (List α)

/-- The members of an object. -/
inductive Outline.Members : Type → Type 1 where
  | nil : Outline.Members Unit
  | cons {α β : Type} (first : Outline.Member α) (rest : Outline.Members β) :
      Outline.Members (α × β)

end

namespace Outline

mutual

/-- The codec of an outline.  A codec for both directions has the same writer. -/
def codec : {α : Type} → Outline α → WriteCodec Token α
  | _, .scalar kind _ => kind.codec.toWriteCodec
  | _, .list element => element.codec.collect.array
  | _, .object members conditions _ => .object members.parts conditions
  | _, .entries value => .object (.one value.codec.anyMember.entries)
  | _, .contramap outline f => outline.codec.contramap f

def Content.codec : {α : Type} → Content α → WriteCodec Token α
  | _, .always outline => outline.codec
  | _, .optional outline => outline.codec.optional

def Member.codec : {α : Type} → Member α → WriteCodec Token α
  | _, .named name content => content.codec.member name
  | _, .optional name outline => (outline.codec.member name).optional
  | _, .list name outline => outline.codec.listMember name
  | _, .nonempty name outline => outline.codec.nonemptyMember name

/-- The codecs of the members. -/
def Members.parts : {β : Type} → Members β → Parts (WriteCodec Token) β
  | _, .nil => .nil
  | _, .cons first rest => .cons first.codec rest.parts

end

/-- The value is there. -/
def Content.isPresent : {α : Type} → Content α → α → Bool
  | _, .always _, _ => true
  | _, .optional _, value => value.isSome

mutual

/-- No pair of a name and a value lacks the value. -/
def Complete : {α : Type} → Outline α → α → Prop
  | _, .scalar _ _, _ => True
  | _, .list element, values => ∀ value ∈ values, element.Complete value
  | _, .object members _ _, value => members.Complete value
  | _, .entries content, value =>
      ∀ pair ∈ value.1.toList, content.isPresent pair.2 = true ∧ content.Complete pair.2
  | _, .contramap outline f, value => outline.Complete (f value)

def Content.Complete : {α : Type} → Content α → α → Prop
  | _, .always outline, value => outline.Complete value
  | _, .optional outline, value => ∀ found ∈ value, outline.Complete found

def Member.Complete : {α : Type} → Member α → α → Prop
  | _, .named _ content, value => content.Complete value
  | _, .optional _ outline, value => ∀ found ∈ value, outline.Complete found
  | _, .list _ outline, values => ∀ value ∈ values, outline.Complete value
  | _, .nonempty _ outline, values => ∀ value ∈ values, outline.Complete value

def Members.Complete : {β : Type} → Members β → β → Prop
  | _, .nil, _ => True
  | _, .cons first rest, value => first.Complete value.1 ∧ rest.Complete value.2

end

end Outline

/-! ## What the writers do -/

/-- The writer gives the tokens of a document for each value that is present and
complete.  It gives nothing for a value that is absent, and the names among the
tokens of a value have values behind them only if it is complete. -/
structure Draws (writer : Writer Token α) (isPresent : α → Bool) (complete : α → Prop)
    (tokens : α → List Token) : Prop where
  renders : writer.Renders tokens
  begins : ∀ {value}, isPresent value = true → (writer.write writer.start value).1 ≠ []
  rests : ∀ {value}, isPresent value = false →
    writer.write writer.start value = ([], writer.start)
  document : ∀ {value}, isPresent value = true → complete value →
    ∃ document : Document, tokens value = document.tokens
  complete : ∀ {value}, Named (tokens value) → complete value

/-- The writer gives the tokens of members for each value that is complete, and the
names among the tokens of a value have values behind them only if it is complete. -/
structure Fills (writer : Writer Token α) (complete : α → Prop) (tokens : α → List Token) :
    Prop where
  renders : writer.Renders tokens
  members : ∀ {value}, complete value → ∃ members, tokens value = memberTokens members
  complete : ∀ {value}, Named (tokens value) → complete value

section Combinators

variable {writer : Writer Token α} {isPresent : α → Bool} {complete : α → Prop}
  {tokens : α → List Token}

theorem Token.exists_document {token : Token} (hscalar : token.isScalar = true) :
    ∃ document : Document, [token] = document.tokens := by
  cases token with
  | string text => exact ⟨.string text, by rw [Document.tokens]⟩
  | number text => exact ⟨.number text, by rw [Document.tokens]⟩
  | bool value => exact ⟨.bool value, by rw [Document.tokens]⟩
  | null => exact ⟨.null, by rw [Document.tokens]⟩
  | _ => cases hscalar

theorem Draws.scalar {scalar : Scalar α} (hstandard : scalar.Standard) :
    Draws scalar.codec.writer (fun _ => true) (fun _ => True)
      fun value => [scalar.render value] where
  renders := .ofTokens _
  begins _ := List.cons_ne_nil _ _
  rests := nofun
  document {value} _ _ := Token.exists_document (hstandard.isScalar_render value)
  complete _ := trivial

theorem Draws.contramap (hdraws : Draws writer isPresent complete tokens) (f : β → α) :
    Draws (writer.contramap f) (fun value => isPresent (f value))
      (fun value => complete (f value)) fun value => tokens (f value) where
  renders := hdraws.renders.contramap f
  begins := hdraws.begins
  rests := hdraws.rests
  document := hdraws.document
  complete := hdraws.complete

theorem Draws.optional (hdraws : Draws writer (fun _ => true) complete tokens) :
    Draws writer.optional Option.isSome (fun value => ∀ found ∈ value, complete found)
      fun value => (value.map tokens).getD [] where
  renders := hdraws.renders.optional
  begins {value} hpresent := by
    obtain ⟨found, rfl⟩ := Option.isSome_iff_exists.mp hpresent
    exact hdraws.begins rfl
  rests {value} habsent := by
    cases value with
    | none => rfl
    | some found => cases habsent
  document {value} hpresent hcomplete := by
    obtain ⟨found, rfl⟩ := Option.isSome_iff_exists.mp hpresent
    exact hdraws.document rfl (hcomplete found rfl)
  complete := by
    rintro value hnamed found hfound
    cases hfound
    exact hdraws.complete hnamed

theorem Draws.tokens_absent (hdraws : Draws writer isPresent complete tokens) {value : α}
    (habsent : isPresent value = false) : tokens value = [] := by
  have hemits := hdraws.renders.emits value
  rw [writeClosed_eq (hdraws.rests habsent) hdraws.renders.rests] at hemits
  exact (congrArg Prod.fst hemits).symm

/-- An absent value is no element. -/
theorem Draws.exists_elements (hdraws : Draws writer isPresent complete tokens)
    {values : List α} (hcomplete : ∀ value ∈ values, complete value) :
    ∃ documents, values.flatMap tokens = elementTokens documents := by
  induction values with
  | nil => exact ⟨[], rfl⟩
  | cons value values ih =>
      obtain ⟨hfirst, hrest⟩ := List.forall_mem_cons.mp hcomplete
      obtain ⟨documents, hdocuments⟩ := ih hrest
      rw [List.flatMap_cons, hdocuments]
      cases hpresent : isPresent value with
      | false => exact ⟨documents, by rw [hdraws.tokens_absent hpresent, List.nil_append]⟩
      | true =>
          obtain ⟨document, hdocument⟩ := hdraws.document hpresent hfirst
          exact ⟨document :: documents, by rw [hdocument, elementTokens]⟩

theorem Draws.array (hdraws : Draws writer isPresent complete tokens) :
    Draws (arrayWriter writer.collect) (fun _ => true)
      (fun values => ∀ value ∈ values, complete value)
      fun values => .startArray :: values.flatMap tokens ++ [.endArray] where
  renders := renders_arrayWriter hdraws.renders.collect
  begins _ := begins_arrayWriter _ _
  rests := nofun
  document _ hcomplete := by
    obtain ⟨documents, hdocuments⟩ := hdraws.exists_elements hcomplete
    exact ⟨.array documents, by rw [hdocuments, Document.tokens]⟩
  complete hnamed value hmem := hdraws.complete (hnamed.inside.of_flatMap hmem)

/-- A member without a value is left out. -/
theorem Draws.member (hdraws : Draws writer isPresent complete tokens) (name : String) :
    Fills (memberWriter name writer) complete
      fun value => if isPresent value then .name name :: tokens value else [] where
  renders := by
    refine ⟨fun value => ?_, rests_memberWriter hdraws.renders name⟩
    cases hpresent : isPresent value with
    | true => exact writeClosed_memberWriter hdraws.renders (hdraws.begins hpresent) name
    | false =>
        have habsent : (memberWriter name writer).write (writer.start, false) value =
            ([], (writer.start, false)) := by
          simp [memberWriter, hdraws.rests hpresent]
        exact writeClosed_eq habsent (by simp [memberWriter, hdraws.renders.rests])
  members {value} hcomplete := by
    cases hpresent : isPresent value with
    | true =>
        obtain ⟨document, hdocument⟩ := hdraws.document hpresent hcomplete
        exact ⟨[(name, document)], by simp [memberTokens, hdocument]⟩
    | false => exact ⟨[], rfl⟩
  complete {value} hnamed := by
    cases hpresent : isPresent value with
    | true =>
        rw [if_pos hpresent] at hnamed
        exact hdraws.complete (hnamed.within ⟨[.name name], [], by simp⟩)
    | false =>
        apply hdraws.complete
        rw [hdraws.tokens_absent hpresent]
        exact .nil

theorem Fills.optional (hfills : Fills writer complete tokens) :
    Fills writer.optional (fun value => ∀ found ∈ value, complete found)
      fun value => (value.map tokens).getD [] where
  renders := hfills.renders.optional
  members {value} hcomplete := by
    cases value with
    | none => exact ⟨[], rfl⟩
    | some found => exact hfills.members (hcomplete found rfl)
  complete := by
    rintro value hnamed found hfound
    cases hfound
    exact hfills.complete hnamed

/-- A list that is left out when it is empty, in whatever way. -/
theorem Fills.of_nonempty {writer : Writer Token (List α)} {complete : List α → Prop}
    {tokens : List α → List Token} (hfills : Fills writer complete tokens)
    (hempty : complete []) {skipping : Writer Token (List α)}
    (hskipping : skipping.Renders fun values => if values.isEmpty then [] else tokens values) :
    Fills skipping complete fun values => if values.isEmpty then [] else tokens values where
  renders := hskipping
  members {values} hcomplete := by
    cases values with
    | nil => exact ⟨[], rfl⟩
    | cons value values => exact hfills.members hcomplete
  complete {values} hnamed := by
    cases values with
    | nil => exact hempty
    | cons value values => exact hfills.complete hnamed

/-- Every condition writes a member. -/
theorem exists_written {conditions : List (Condition Token)}
    (hconditions : ∀ condition ∈ conditions, BindsMember condition) :
    ∃ members, Condition.written conditions = memberTokens members := by
  induction conditions with
  | nil => exact ⟨[], rfl⟩
  | cons condition conditions ih =>
      obtain ⟨hfirst, hrest⟩ := List.forall_mem_cons.mp hconditions
      obtain ⟨members, hmembers⟩ := ih hrest
      obtain ⟨hstandard, name, value⟩ := hfirst
      obtain ⟨document, hdocument⟩ := Token.exists_document (hstandard.isScalar_render value)
      refine ⟨(name, document) :: members, ?_⟩
      rw [Condition.written] at hmembers
      rw [Condition.written, List.flatMap_cons, hmembers, memberTokens, ← hdocument]
      rfl

theorem Fills.object {parts : Writer Token α} (hfills : Fills parts complete tokens)
    {conditions : List (Condition Token)}
    (hconditions : ∀ condition ∈ conditions, BindsMember condition) :
    Draws (objectWriter parts (Condition.written conditions)) (fun _ => true) complete
      fun value => .startObject :: (tokens value ++ Condition.written conditions) ++
        [.endObject] where
  renders := renders_objectWriter hfills.renders _
  begins _ := begins_objectWriter _ _ _
  rests := nofun
  document _ hcomplete := by
    obtain ⟨members, hmembers⟩ := hfills.members hcomplete
    obtain ⟨others, hothers⟩ := exists_written hconditions
    exact ⟨.object (members ++ others), by
      rw [hmembers, hothers, ← memberTokens_append, Document.tokens]⟩
  complete hnamed := hfills.complete (hnamed.inside.within ⟨[], _, rfl⟩)

/-- The pairs of a map whose values are all there are members. -/
theorem Draws.exists_members (hdraws : Draws writer isPresent complete tokens)
    {pairs : List (String × α)}
    (hpairs : ∀ pair ∈ pairs, isPresent pair.2 = true ∧ complete pair.2) :
    ∃ members, (pairs.flatMap fun pair => .name pair.1 :: tokens pair.2) =
      memberTokens members := by
  induction pairs with
  | nil => exact ⟨[], rfl⟩
  | cons pair pairs ih =>
      obtain ⟨⟨hpresent, hcomplete⟩, hrest⟩ := List.forall_mem_cons.mp hpairs
      obtain ⟨members, hmembers⟩ := ih hrest
      obtain ⟨document, hdocument⟩ := hdraws.document hpresent hcomplete
      exact ⟨(pair.1, document) :: members, by
        rw [List.flatMap_cons, hmembers, hdocument, memberTokens]⟩

/-- Behind a name without a value stands the next name or the closing brace. -/
theorem Draws.isPresent_of_named (hdraws : Draws writer isPresent complete tokens)
    {pairs : List (String × α)} {pair : String × α} (hmem : pair ∈ pairs)
    (hnamed : Named ((pairs.flatMap fun pair => .name pair.1 :: tokens pair.2) ++
      [.endObject])) : isPresent pair.2 = true := by
  by_contra hpresent
  have habsent := hdraws.tokens_absent (Bool.eq_false_iff.mpr hpresent)
  obtain ⟨front, back, rfl⟩ := List.append_of_mem hmem
  rw [List.flatMap_append, List.flatMap_cons, habsent, List.append_assoc] at hnamed
  have hbehind := hnamed.within (List.suffix_append _ _).isInfix
  cases back <;> cases (List.isChain_cons_cons.mp hbehind).1 pair.1 rfl

theorem Draws.entries (hdraws : Draws writer isPresent complete tokens) :
    Draws (entriesWriter writer) (fun _ => true)
      (fun value => ∀ pair ∈ value.1.toList, isPresent pair.2 = true ∧ complete pair.2)
      fun value => .startObject :: (value.1.toList.flatMap fun pair =>
        .name pair.1 :: tokens pair.2) ++ [.endObject] where
  renders := renders_entriesWriter hdraws.renders
  begins _ := begins_objectWriter _ _ _
  rests := nofun
  document _ hcomplete := by
    obtain ⟨members, hmembers⟩ := hdraws.exists_members hcomplete
    exact ⟨.object members, by rw [hmembers, Document.tokens]⟩
  complete {value} hnamed pair hmem := by
    have hpair : Named (.name pair.1 :: tokens pair.2) :=
      hnamed.inside.of_flatMap hmem
    exact ⟨hdraws.isPresent_of_named hmem (hnamed.within (List.suffix_cons _ _).isInfix),
      hdraws.complete (hpair.within (List.suffix_cons _ _).isInfix)⟩

end Combinators

namespace Outline

/-- The writers of the members of an object. -/
def Members.writers (members : Members β) : Parts (Writer Token) β :=
  members.parts.mapParts WriteCodec.writer

/-- What the writers of the members of an object do side by side, and as the parts
of the object. -/
structure Members.Fill (members : Members β) (tokens : β → List Token) : Prop where
  beside : ∀ value,
    (besideAll members.writers).write (besideAll members.writers).start value =
      (tokens value, (besideAll members.writers).start)
  parts : Fills (Writer.parts members.writers) members.Complete tokens

theorem Members.Fill.nil : Members.nil.Fill fun _ => [] where
  beside _ := rfl
  parts := ⟨.ofTokens _, fun _ => ⟨[], rfl⟩, fun _ => trivial⟩

theorem Members.Fill.cons {first : Member α} {rest : Members β} {tokens : α → List Token}
    {others : β → List Token} (hfirst : Fills first.codec.writer first.Complete tokens)
    (hrest : rest.Fill others) :
    (Members.cons first rest).Fill fun value => tokens value.1 ++ others value.2 where
  beside := hfirst.renders.write_besideAll hrest.beside
  parts := by
    refine ⟨hfirst.renders.parts hrest.beside, ?_, ?_⟩
    · rintro value ⟨hcomplete, hothers⟩
      obtain ⟨members, hmembers⟩ := hfirst.members hcomplete
      obtain ⟨later, hlater⟩ := hrest.parts.members hothers
      exact ⟨members ++ later, by rw [hmembers, hlater, memberTokens_append]⟩
    · intro value hnamed
      exact ⟨hfirst.complete (hnamed.within (List.prefix_append _ _).isInfix),
        hrest.parts.complete (hnamed.within (List.suffix_append _ _).isInfix)⟩

mutual

/-- The writer of an outline draws a document for every complete value. -/
theorem draws : ∀ {α : Type} (outline : Outline α),
    ∃ tokens, Draws outline.codec.writer (fun _ => true) outline.Complete tokens
  | _, .scalar _ hstandard => ⟨_, .scalar hstandard⟩
  | _, .list element => by
      obtain ⟨tokens, helement⟩ := element.draws
      exact ⟨_, helement.array⟩
  | _, .object members _ hconditions => by
      obtain ⟨tokens, hmembers⟩ := members.fill
      exact ⟨_, hmembers.parts.object hconditions⟩
  | _, .entries content => by
      obtain ⟨tokens, hcontent⟩ := content.draws
      exact ⟨_, hcontent.entries⟩
  | _, .contramap outline f => by
      obtain ⟨tokens, houtline⟩ := outline.draws
      exact ⟨_, houtline.contramap f⟩

theorem Content.draws : ∀ {α : Type} (content : Content α),
    ∃ tokens, Draws content.codec.writer content.isPresent content.Complete tokens
  | _, .always outline => outline.draws
  | _, .optional outline => by
      obtain ⟨tokens, houtline⟩ := outline.draws
      exact ⟨_, houtline.optional⟩

theorem Member.fills : ∀ {α : Type} (member : Member α),
    ∃ tokens, Fills member.codec.writer member.Complete tokens
  | _, .named name content => by
      obtain ⟨tokens, hcontent⟩ := content.draws
      exact ⟨_, hcontent.member name⟩
  | _, .optional name outline => by
      obtain ⟨tokens, houtline⟩ := outline.draws
      exact ⟨_, (houtline.member name).optional⟩
  | _, .list name outline => by
      obtain ⟨tokens, houtline⟩ := outline.draws
      have harray := houtline.array.member name
      refine ⟨_, harray.of_nonempty (List.forall_mem_nil _) ?_⟩
      apply (harray.renders.optional.contramap _).congr
      intro values
      cases values <;> rfl
  | _, .nonempty name outline => by
      obtain ⟨tokens, houtline⟩ := outline.draws
      have harray := houtline.array.member name
      exact ⟨_, harray.of_nonempty (List.forall_mem_nil _) harray.renders.skipEmpty⟩

theorem Members.fill : ∀ {β : Type} (members : Members β), ∃ tokens, members.Fill tokens
  | _, .nil => ⟨_, .nil⟩
  | _, .cons first rest => by
      obtain ⟨tokens, hfirst⟩ := first.fills
      obtain ⟨others, hrest⟩ := rest.fill
      exact ⟨_, .cons hfirst hrest⟩

end

/-- What is written for a value is the tokens of one document, unless a pair of a
name and a value lacks the value. -/
theorem write_eq_tokens_iff (outline : Outline α) (value : α) :
    (∃ document : Document, outline.codec.write value = document.tokens) ↔
      outline.Complete value := by
  obtain ⟨tokens, hdraws⟩ := outline.draws
  have hwrite : outline.codec.write value = tokens value :=
    congrArg Prod.fst (hdraws.renders.emits value)
  rw [hwrite]
  constructor
  · rintro ⟨document, hdocument⟩
    apply hdraws.complete
    rw [hdocument]
    exact document.named_tokens
  · exact hdraws.document rfl

/-- A map of names to optional texts. -/
def notes : Outline (Entries String (Option String) × Unit) :=
  .entries (.optional (.scalar .string .string))

/-- A name without a value is written, and no document has it. -/
theorem write_nameless :
    notes.codec.write (.ofList [("a", none)], ()) = [.startObject, .name "a", .endObject] ∧
      ¬ ∃ document : Document,
        notes.codec.write (.ofList [("a", none)], ()) = document.tokens := by
  have hwrite : notes.codec.write (.ofList [("a", none)], ()) =
      [.startObject, .name "a", .endObject] := rfl
  refine ⟨hwrite, ?_⟩
  rintro ⟨document, hdocument⟩
  have hnamed := document.named_tokens
  rw [← hdocument, hwrite] at hnamed
  have hbegins := (List.isChain_cons_cons.mp (List.isChain_cons_cons.mp hnamed).2).1 "a" rfl
  cases hbegins

end Outline

end TokenCodec.Json
