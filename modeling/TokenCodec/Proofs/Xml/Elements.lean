import TokenCodec.Proofs.Composition
import TokenCodec.Proofs.Nesting
import TokenCodec.Xml.Codec
import TokenCodec.Xml.Element

/-!
# XML readers over whole elements

What the readers of attributes, text and elements consume from the content of
one element.  Each of them passes over an element that is none of its business,
whatever that element holds.  The reader of an element hands the attributes and
the content to its assembly and takes up what the assembly concludes.
-/

namespace TokenCodec.Xml

open Alphabet

variable {α β : Type}

/-! ## Nesting -/

namespace Node

mutual

theorem nested_tokens : ∀ node : Node, Nested node.tokens
  | element name attributes content => by
      rw [tokens]
      exact .group rfl (nested_contentTokens content) rfl .nil
  | characters text => .flat rfl .nil

theorem nested_contentTokens : ∀ content : List Node, Nested (contentTokens content)
  | [] => .nil
  | node :: rest => by
      rw [contentTokens]
      exact (nested_tokens node).append (nested_contentTokens rest)

end

theorem contentTokens_append (front back : List Node) :
    contentTokens (front ++ back) = contentTokens front ++ contentTokens back := by
  induction front with
  | nil => rfl
  | cons node front ih => simp [contentTokens, ih]

theorem contentTokens_eq_flatMap (content : List Node) :
    contentTokens content = content.flatMap tokens := by
  induction content with
  | nil => rfl
  | cons node rest ih => rw [contentTokens, List.flatMap_cons, ih]

/-- What stands between the start token and the end token of an element, with
every attribute as a token of its own. -/
def innerTokens (attributes : List Attribute) (content : List Node) : List Token :=
  attributes.map Token.loneAttribute ++ contentTokens content

theorem nested_attributes_append (attributes : List Attribute) {tokens : List Token}
    (hnested : Nested tokens) : Nested (attributes.map Token.loneAttribute ++ tokens) := by
  induction attributes with
  | nil => exact hnested
  | cons attr attributes ih => exact .flat rfl ih

theorem nested_innerTokens (attributes : List Attribute) (content : List Node) :
    Nested (innerTokens attributes content) :=
  nested_attributes_append attributes (nested_contentTokens content)

/-- The text of a node that is not an element. -/
def text? : Node → Option String
  | element _ _ _ => none
  | characters text => some text

/-- The text among nodes, without that inside elements. -/
def textOf (content : List Node) : String := String.join (content.filterMap text?)

theorem textOf_append (front back : List Node) :
    textOf (front ++ back) = textOf front ++ textOf back := by
  simp [textOf]

theorem textOf_flatMap {ρ : Type} (content : ρ → List Node) (items : List ρ) :
    textOf (items.flatMap content) = String.join (items.map fun item => textOf (content item)) := by
  induction items with
  | nil => rfl
  | cons item items ih => rw [List.flatMap_cons, textOf_append, ih, List.map_cons, String.join_cons]

/-- The node is an element with a claimed name. -/
def bears (claims : Name → Bool) : Node → Bool
  | element name _ _ => claims name
  | characters _ => false

end Node

/-- The rest of an element behind its start token. -/
theorem endsUnit_inside {inside : List Token} (hnested : Nested inside) (name : Name) :
    EndsUnit 1 (inside ++ [.endElement name]) :=
  hnested.endsUnit_append (.last rfl)

open Node

/-! ## Attributes -/

section Attributes

variable (claim : Attribute → Option α)

theorem consume_attributeReader_attributes (attributes : List Attribute) :
    (attributeReader claim).consume (0 : Nat) (attributes.map Token.loneAttribute) =
      .ok (attributes.filterMap claim, (0 : Nat)) := by
  induction attributes with
  | nil => rfl
  | cons attr attributes ih =>
      rw [List.map_cons, List.filterMap_cons]
      cases hclaim : claim attr with
      | none =>
          have hfeed : (attributeReader claim).feed (0 : Nat) (.loneAttribute attr) =
              (.pending, (0 : Nat)) := by
            simp [attributeReader, hclaim]
          rw [Reader.consume_cons_of_pending _ hfeed, ih]
      | some value =>
          have hfeed : (attributeReader claim).feed (0 : Nat) (.loneAttribute attr) =
              (.produced value, (0 : Nat)) := by
            simp [attributeReader, hclaim]
          rw [Reader.consume_cons_of_produced _ hfeed, ih]
          rfl

/-- Attributes of inner elements are left alone. -/
theorem feed_attributeReader_inside (depth : Nat) (hdepth : depth ≠ 0) (token : Token) :
    (attributeReader claim).feed depth token = (.pending, track depth token) := by
  cases token with
  | loneAttribute attr =>
      have hflat : track depth (Token.loneAttribute attr) = depth := rfl
      simp [attributeReader, hdepth, hflat]
  | _ => rfl

theorem consume_attributeReader_element (name closing : Name) (attributes : List Attribute)
    {inside : List Token} (hnested : Nested inside) :
    (attributeReader claim).consume (0 : Nat)
        (.startElement name attributes :: (inside ++ [.endElement closing])) =
      .ok ([], (0 : Nat)) := by
  have hopening : (attributeReader claim).feed (0 : Nat) (.startElement name attributes) =
      (.pending, (1 : Nat)) := rfl
  have hpassed := Reader.consume_passing (attributeReader claim) (fun depth => depth)
    (feed_attributeReader_inside claim) (endsUnit_inside hnested closing) Nat.one_ne_zero
  exact (Reader.consume_cons_of_pending _ hopening _).trans hpassed

theorem consume_attributeReader_content (content : List Node) :
    (attributeReader claim).consume (0 : Nat) (contentTokens content) =
      .ok ([], (0 : Nat)) := by
  induction content with
  | nil => rfl
  | cons node rest ih =>
      have hnode : (attributeReader claim).consume (0 : Nat) node.tokens = .ok ([], (0 : Nat)) := by
        cases node with
        | characters text => rfl
        | element name attributes content =>
            exact consume_attributeReader_element claim name name attributes
              (nested_contentTokens content)
      rw [contentTokens]
      exact Reader.consume_append_ok hnode ih

/-- An attribute reader gives the attributes of its own element. -/
theorem consume_attributeReader (attributes : List Attribute) (content : List Node) :
    (attributeReader claim).consume (attributeReader claim).start
      (innerTokens attributes content) =
        .ok (attributes.filterMap claim, (attributeReader claim).start) := by
  have hboth := Reader.consume_append_ok (consume_attributeReader_attributes claim attributes)
    (consume_attributeReader_content claim content)
  rwa [List.append_nil] at hboth

end Attributes

/-! ## Text -/

/-- Text of inner elements is left alone. -/
theorem feed_textReader_inside (text : String) (depth : Nat) (hdepth : depth ≠ 0)
    (token : Token) :
    textReader.feed (depth, text) token = (.pending, (track depth token, text)) := by
  cases token with
  | characters more =>
      have hflat : track depth (Token.characters more) = depth := rfl
      simp [textReader, hdepth, hflat]
  | _ => rfl

theorem consume_textReader_element (text : String) (name closing : Name)
    (attributes : List Attribute) {inside : List Token} (hnested : Nested inside) :
    textReader.consume ((0 : Nat), text)
        (.startElement name attributes :: (inside ++ [.endElement closing])) =
      .ok ([], ((0 : Nat), text)) := by
  have hopening : textReader.feed ((0 : Nat), text) (.startElement name attributes) =
      (.pending, ((1 : Nat), text)) := rfl
  have hpassed := Reader.consume_passing textReader (fun depth => (depth, text))
    (feed_textReader_inside text) (endsUnit_inside hnested closing) Nat.one_ne_zero
  exact (Reader.consume_cons_of_pending _ hopening _).trans hpassed

theorem consume_textReader_content (content : List Node) (text : String) :
    textReader.consume ((0 : Nat), text) (contentTokens content) =
      .ok ([], ((0 : Nat), text ++ textOf content)) := by
  induction content generalizing text with
  | nil => simp [contentTokens, textOf, Reader.consume]
  | cons node rest ih =>
      rw [contentTokens]
      cases node with
      | characters more =>
          have hnode : textReader.consume ((0 : Nat), text) (characters more).tokens =
              .ok ([], ((0 : Nat), text ++ more)) := rfl
          have htext : text ++ textOf (characters more :: rest) = text ++ more ++ textOf rest := by
            simp [textOf, text?, String.append_assoc]
          rw [htext]
          exact Reader.consume_append_ok hnode (ih _)
      | element name attributes content =>
          have hnode := consume_textReader_element text name name attributes
            (nested_contentTokens content)
          exact Reader.consume_append_ok hnode (ih text)

theorem consume_textReader_attributes (attributes : List Attribute) :
    textReader.consume textReader.start (attributes.map Token.loneAttribute) =
      .ok ([], textReader.start) := by
  induction attributes with
  | nil => rfl
  | cons attr attributes ih => exact ih

/-- A text reader gathers the text of its own element. -/
theorem consume_textReader (attributes : List Attribute) (content : List Node) :
    textReader.consume textReader.start (innerTokens attributes content) =
      .ok ([], ((0 : Nat), textOf content)) := by
  have hboth := Reader.consume_append_ok (consume_textReader_attributes attributes)
    (consume_textReader_content content "")
  rwa [String.empty_append] at hboth

/-! ## Elements -/

section Elements

variable {assembly : Assembly Token β} {claims : Name → Bool} {name : Name}
  {attributes : List Attribute} {inside : List Token}

theorem feedAttributes_cons_of_produced {state next : assembly.State} {attr : Attribute}
    {value : β} (hfeed : assembly.feed state (.loneAttribute attr) = (.produced value, next))
    (last : Outcome β) (rest : List Attribute) :
    feedAttributes assembly state last (attr :: rest) =
      feedAttributes assembly next (.produced value) rest := by
  rw [feedAttributes, hfeed]

theorem feedAttributes_cons_of_pending {state next : assembly.State} {attr : Attribute}
    (hfeed : assembly.feed state (.loneAttribute attr) = (.pending, next)) (last : Outcome β)
    (rest : List Attribute) :
    feedAttributes assembly state last (attr :: rest) =
      feedAttributes assembly next last rest := by
  rw [feedAttributes, hfeed]

theorem feedAttributes_cons_of_failed {state next : assembly.State} {attr : Attribute}
    {failure : Failure}
    (hfeed : assembly.feed state (.loneAttribute attr) = (.failed failure, next))
    (last : Outcome β) (rest : List Attribute) :
    feedAttributes assembly state last (attr :: rest) = (.failed failure, next) := by
  rw [feedAttributes, hfeed]

/-- A start token answers with the last value that its attributes gave. -/
theorem feedAttributes_of_ok {state next : assembly.interior.State} {values : List β}
    (hattributes : assembly.interior.consume state (attributes.map Token.loneAttribute) =
      .ok (values, next)) (last : Outcome β) :
    feedAttributes assembly state last attributes =
      (values.getLast?.elim last .produced, next) := by
  replace hattributes := Reader.passes_of_consume hattributes
  induction attributes generalizing state values last with
  | nil =>
      cases hattributes
      rfl
  | cons attr attributes ih =>
      rw [List.map_cons] at hattributes
      cases hattributes with
      | @produced _ _ _ _ _ value more hfeed hrest =>
          have hlast : more.getLast?.elim (.produced value) .produced =
              ((value :: more).getLast?.elim last .produced : Outcome β) := by
            rw [List.getLast?_cons]
            cases more.getLast? <;> rfl
          refine (feedAttributes_cons_of_produced hfeed last attributes).trans ?_
          exact (ih _ hrest).trans (congrArg (·, next) hlast)
      | pending hfeed hrest =>
          exact (feedAttributes_cons_of_pending hfeed last attributes).trans (ih last hrest)

theorem feedAttributes_of_error {state : assembly.interior.State} {failure : Failure}
    (hattributes : assembly.interior.consume state (attributes.map Token.loneAttribute) =
      .error failure) (last : Outcome β) :
    (feedAttributes assembly state last attributes).1 = .failed failure := by
  replace hattributes := Reader.breaks_of_consume hattributes
  induction attributes generalizing state last with
  | nil => cases hattributes
  | cons attr attributes ih =>
      rw [List.map_cons] at hattributes
      cases hattributes with
      | failed hfeed =>
          exact congrArg Prod.fst (feedAttributes_cons_of_failed hfeed last attributes)
      | produced hfeed hrest =>
          have hstep := feedAttributes_cons_of_produced hfeed last attributes
          exact (congrArg Prod.fst hstep).trans (ih _ hrest)
      | pending hfeed hrest =>
          have hstep := feedAttributes_cons_of_pending hfeed last attributes
          exact (congrArg Prod.fst hstep).trans (ih last hrest)

/-- Between its start and end tokens an element reader is its assembly. -/
theorem consume_elementReader_inside (claims : Name → Bool) (shownName : String) {depth : Nat}
    (hdepth : depth ≠ 0) {tokens : List Token} (hopen : StaysOpen depth tokens)
    (state : assembly.State) :
    (elementReader claims assembly).consume (state, .inside shownName depth) tokens =
      ((assembly.interior.consume state tokens).mapError (Failure.within shownName)).map
        fun read => (read.1, (read.2, .inside shownName (trackAll depth tokens))) := by
  induction tokens generalizing depth state with
  | nil => rfl
  | cons token tokens ih =>
      obtain ⟨hstep, hrest⟩ := hopen
      have hnot : ¬(depth = 1 ∧ token.nesting = .closes) := by
        rintro ⟨rfl, hcloses⟩
        exact hstep (track_of_closes hcloses 1)
      rcases hfeed : assembly.feed state token with ⟨value | _ | failure, next⟩
      · have helement : (elementReader claims assembly).feed (state, .inside shownName depth)
            token = (.produced value, (next, .inside shownName (track depth token))) := by
          simp [elementReader, hnot, hfeed, Outcome.isFailed, ElementPlace.advance, hstep]
        rw [Reader.consume_cons_of_produced _ helement, ih hstep hrest next]
        refine Eq.trans ?_ (congrArg (fun read => (Except.mapError _ read).map _)
          (Reader.consume_cons_of_produced assembly.interior hfeed tokens)).symm
        cases assembly.interior.consume next tokens <;> rfl
      · have helement : (elementReader claims assembly).feed (state, .inside shownName depth)
            token = (.pending, (next, .inside shownName (track depth token))) := by
          simp [elementReader, hnot, hfeed, Outcome.isFailed, ElementPlace.advance, hstep]
        rw [Reader.consume_cons_of_pending _ helement, ih hstep hrest next]
        exact (congrArg (fun read => (Except.mapError _ read).map _)
          (Reader.consume_cons_of_pending assembly.interior hfeed tokens)).symm
      · have helement : (elementReader claims assembly).feed (state, .inside shownName depth)
            token = (.failed (failure.within shownName), (next, .outside)) := by
          simp [elementReader, hnot, hfeed, Outcome.isFailed]
        rw [Reader.consume_cons_of_failed _ helement]
        exact (congrArg (fun read => (Except.mapError _ read).map _)
          (Reader.consume_cons_of_failed assembly.interior hfeed tokens)).symm

/-- The end token completes the assembly. -/
theorem consume_elementReader_closing (claims : Name → Bool) (shownName : String)
    (name : Name) (state : assembly.State) :
    (elementReader claims assembly).consume (state, .inside shownName 1) [.endElement name] =
      ((assembly.interior.release state).mapError (Failure.within shownName)).map
        fun read => (read.1, (read.2, .outside)) := by
  have hfeed : (elementReader claims assembly).feed (state, .inside shownName 1)
      (.endElement name) =
        ((assembly.complete state).1.within shownName, ((assembly.complete state).2, .outside)) := by
    simp [elementReader, Token.nesting]
  rcases hcomplete : assembly.complete state with ⟨value | _ | failure, next⟩ <;>
    rw [hcomplete] at hfeed
  · rw [Reader.consume_cons_of_produced _ hfeed,
      Reader.release_of_produced assembly.interior hcomplete]
    rfl
  · rw [Reader.consume_cons_of_pending _ hfeed,
      Reader.release_of_pending assembly.interior hcomplete]
    rfl
  · rw [Reader.consume_cons_of_failed _ hfeed,
      Reader.release_of_failed assembly.interior hcomplete]
    rfl

/-- Behind the start token an element gives what its assembly concludes. -/
theorem consume_elementReader_rest (claims : Name → Bool) (shownName : String) (name : Name)
    (hnested : Nested inside) (state : assembly.State) :
    (elementReader claims assembly).consume (state, .inside shownName 1)
        (inside ++ [.endElement name]) =
      ((assembly.interior.conclude state inside).mapError (Failure.within shownName)).map
        fun read => (read.1, (read.2, .outside)) := by
  have hinside := consume_elementReader_inside claims shownName Nat.one_ne_zero
    (hnested.staysOpen 0) state
  rw [hnested.trackAll] at hinside
  rcases hcontent : assembly.interior.consume state inside with failure | ⟨values, next⟩
  · replace hinside := hinside.trans (congrArg (fun read => (Except.mapError _ read).map _) hcontent)
    rw [Reader.consume_append_of_error hinside, Reader.conclude_of_error hcontent]
    rfl
  · have hpassed : (elementReader claims assembly).consume (state, .inside shownName 1) inside =
        .ok (values, (next, .inside shownName 1)) :=
      hinside.trans (congrArg (fun read => (Except.mapError _ read).map _) hcontent)
    rw [Reader.consume_append_of_ok hpassed, Reader.conclude_of_ok hcontent]
    refine (congrArg (Except.map _) (consume_elementReader_closing claims shownName name next)).trans ?_
    cases assembly.interior.release next <;> rfl

/-- A start token whose attributes pass gives the last of their values, and leads into
the element. -/
theorem consume_elementReader_opening (hclaims : claims name = true)
    {state middle : assembly.State} {values : List β}
    (hattributes : assembly.interior.consume state (attributes.map Token.loneAttribute) =
      .ok (values, middle)) (rest : List Token) :
    (elementReader claims assembly).consume (state, .outside)
        (.startElement name attributes :: rest) =
      ((elementReader claims assembly).consume (middle, .inside name.shownText 1) rest).map
        (Reader.prepend values.getLast?.toList) := by
  have hround := feedAttributes_of_ok hattributes .pending
  cases hlast : values.getLast? with
  | none =>
      have hopening : (elementReader claims assembly).feed (state, .outside)
          (.startElement name attributes) =
            (.pending, (middle, .inside name.shownText 1)) := by
        simp [elementReader, hclaims, hround, hlast, Outcome.isFailed]
      rw [Reader.consume_cons_of_pending _ hopening]
      cases (elementReader claims assembly).consume (middle, .inside name.shownText 1) rest <;>
        rfl
  | some value =>
      have hopening : (elementReader claims assembly).feed (state, .outside)
          (.startElement name attributes) =
            (.produced value, (middle, .inside name.shownText 1)) := by
        simp [elementReader, hclaims, hround, hlast, Outcome.isFailed]
      exact Reader.consume_cons_of_produced _ hopening rest

/-- An element whose attributes pass gives the last of their values, and what
the assembly concludes from the content. -/
theorem consume_elementReader_of_ok (hclaims : claims name = true) (hnested : Nested inside)
    {state middle : assembly.State} {values : List β}
    (hattributes : assembly.interior.consume state (attributes.map Token.loneAttribute) =
      .ok (values, middle)) (closing : Name) :
    (elementReader claims assembly).consume (state, .outside)
        (.startElement name attributes :: (inside ++ [.endElement closing])) =
      ((assembly.interior.conclude middle inside).mapError (Failure.within name.shownText)).map
        fun read => (values.getLast?.toList ++ read.1, (read.2, .outside)) := by
  rw [consume_elementReader_opening hclaims hattributes]
  refine (congrArg (Except.map _)
    (consume_elementReader_rest claims name.shownText closing hnested middle)).trans ?_
  cases assembly.interior.conclude middle inside <;> rfl

theorem consume_elementReader_of_error (hclaims : claims name = true) {state : assembly.State}
    {failure : Failure}
    (hattributes : assembly.interior.consume state (attributes.map Token.loneAttribute) =
      .error failure) (rest : List Token) :
    (elementReader claims assembly).consume (state, .outside)
        (.startElement name attributes :: rest) = .error (failure.within name.shownText) := by
  have hround := feedAttributes_of_error hattributes .pending
  have hopening : ((elementReader claims assembly).feed (state, .outside)
      (.startElement name attributes)).1 = .failed (failure.within name.shownText) := by
    simp [elementReader, hclaims, hround]
  exact Reader.consume_cons_of_failed _ (Prod.ext hopening rfl) rest

/-- An element whose start token gives no more than one value is read with what its
assembly concludes from the attributes and the content together. -/
theorem consume_elementReader_of_few (hclaims : claims name = true) (hnested : Nested inside)
    {state next : assembly.State} {values : List β}
    (hconclude : assembly.interior.conclude state
      (attributes.map Token.loneAttribute ++ inside) = .ok (values, next))
    (hfew : ∀ early middle, assembly.interior.consume state
      (attributes.map Token.loneAttribute) = .ok (early, middle) → early.length ≤ 1)
    (closing : Name) :
    (elementReader claims assembly).consume (state, .outside)
        (.startElement name attributes :: (inside ++ [.endElement closing])) =
      .ok (values, (next, .outside)) := by
  rcases hattributes : assembly.interior.consume state (attributes.map Token.loneAttribute) with
    failure | ⟨early, middle⟩
  · rw [Reader.conclude_of_error (Reader.consume_append_of_error hattributes _)] at hconclude
    cases hconclude
  rw [Reader.conclude_append_of_ok hattributes] at hconclude
  obtain ⟨late, hcontent, hread⟩ := Except.exists_of_map hconclude
  obtain ⟨rfl, rfl⟩ := Prod.mk.inj hread
  have hlast : early.getLast?.toList = early := by
    match early, hfew early middle hattributes with
    | [], _ => rfl
    | [_], _ => rfl
  rw [consume_elementReader_of_ok hclaims hnested hattributes, hcontent, hlast]
  rfl

/-- An element is read with the one value that its assembly concludes from the
attributes and the content together. -/
theorem consume_elementReader_of_conclude (hclaims : claims name = true)
    (hnested : Nested inside) {state next : assembly.State} {value : β}
    (hconclude : assembly.interior.conclude state
      (attributes.map Token.loneAttribute ++ inside) = .ok ([value], next)) (closing : Name) :
    (elementReader claims assembly).consume (state, .outside)
        (.startElement name attributes :: (inside ++ [.endElement closing])) =
      .ok ([value], (next, .outside)) := by
  refine consume_elementReader_of_few hclaims hnested hconclude ?_ closing
  -- One value in all, so the start token gives no value that a later one replaces.
  intro early middle hattributes
  rw [Reader.conclude_append_of_ok hattributes] at hconclude
  obtain ⟨late, -, hread⟩ := Except.exists_of_map hconclude
  have hlength := congrArg List.length (congrArg Prod.fst hread)
  simp only [Reader.prepend, List.length_append, List.length_singleton] at hlength
  omega

/-- An element that is read was concluded by its assembly. -/
theorem conclude_of_consume_elementReader (hclaims : claims name = true)
    (hnested : Nested inside) {state : assembly.State} {closing : Name} {values : List β}
    {reached : (elementReader claims assembly).State}
    (hconsume : (elementReader claims assembly).consume (state, .outside)
      (.startElement name attributes :: (inside ++ [.endElement closing])) =
        .ok (values, reached)) :
    ∃ given next, reached = (next, .outside) ∧ assembly.interior.conclude state
      (attributes.map Token.loneAttribute ++ inside) = .ok (given, next) := by
  rcases hattributes : assembly.interior.consume state (attributes.map Token.loneAttribute) with
    failure | ⟨early, middle⟩
  · rw [consume_elementReader_of_error hclaims hattributes] at hconsume
    cases hconsume
  rw [consume_elementReader_of_ok hclaims hnested hattributes] at hconsume
  obtain ⟨read, hconverted, hread⟩ := Except.exists_of_map hconsume
  rcases hcontent : assembly.interior.conclude middle inside with failure | ⟨late, next⟩
  · rw [hcontent] at hconverted
    cases hconverted
  · rw [hcontent] at hconverted
    cases hconverted
    cases hread
    refine ⟨early ++ late, next, rfl, ?_⟩
    rw [Reader.conclude_append_of_ok hattributes, hcontent]
    rfl

theorem consume_elementReader_skipping {depth : Nat} {tokens : List Token}
    (hends : EndsUnit depth tokens) (state : assembly.State) :
    (elementReader claims assembly).consume (state, .skipping depth) tokens =
      .ok ([], (state, .outside)) := by
  induction hends with
  | @last depth token hzero =>
      have hfeed : (elementReader claims assembly).feed (state, .skipping depth) token =
          (.pending, (state, .outside)) := by
        simp [elementReader, ElementPlace.skip, hzero]
      rw [Reader.consume_cons_of_pending _ hfeed]
      rfl
  | @step depth token tokens hopen _ ih =>
      have hfeed : (elementReader claims assembly).feed (state, .skipping depth) token =
          (.pending, (state, .skipping (track depth token))) := by
        simp [elementReader, ElementPlace.skip, hopen]
      rw [Reader.consume_cons_of_pending _ hfeed]
      exact ih

/-- An element whose name is not claimed is passed over. -/
theorem consume_elementReader_other (hclaims : claims name = false) (hnested : Nested inside)
    (state : assembly.State) (closing : Name) :
    (elementReader claims assembly).consume (state, .outside)
        (.startElement name attributes :: (inside ++ [.endElement closing])) =
      .ok ([], (state, .outside)) := by
  have hopening : (elementReader claims assembly).feed (state, .outside)
      (.startElement name attributes) = (.pending, (state, .skipping 1)) := by
    simp [elementReader, hclaims]
  exact (Reader.consume_cons_of_pending _ hopening _).trans
    (consume_elementReader_skipping (endsUnit_inside hnested closing) state)

end Elements

/-! ## Attributes among content -/

/-- Attributes and nodes as tokens, the attributes anywhere among the nodes. -/
inductive Mixed : List Token → List Attribute → List Node → Prop where
  | nil : Mixed [] [] []
  | lone {tokens : List Token} {attributes : List Attribute} {content : List Node}
      (attr : Attribute) (hrest : Mixed tokens attributes content) :
      Mixed (.loneAttribute attr :: tokens) (attr :: attributes) content
  | node {tokens : List Token} {attributes : List Attribute} {content : List Node}
      (node : Node) (hrest : Mixed tokens attributes content) :
      Mixed (node.tokens ++ tokens) attributes (node :: content)

namespace Mixed

variable {tokens : List Token} {attributes : List Attribute} {content : List Node}

theorem append (hfront : Mixed tokens attributes content) {back : List Token}
    {others : List Attribute} {rest : List Node} (hback : Mixed back others rest) :
    Mixed (tokens ++ back) (attributes ++ others) (content ++ rest) := by
  induction hfront with
  | nil => exact hback
  | lone attr _ ih => exact .lone attr ih
  | node node _ ih =>
      rw [List.append_assoc]
      exact .node node ih

theorem ofContent (content : List Node) : Mixed (contentTokens content) [] content := by
  induction content with
  | nil => exact .nil
  | cons node content ih => exact .node node ih

theorem ofInner (attributes : List Attribute) (content : List Node) :
    Mixed (innerTokens attributes content) attributes content := by
  induction attributes with
  | nil => exact .ofContent content
  | cons attr attributes ih => exact .lone attr ih

theorem flatMap {ρ : Type} {tokens : ρ → List Token} {attributes : ρ → List Attribute}
    {content : ρ → List Node}
    (hmixed : ∀ item, Mixed (tokens item) (attributes item) (content item)) (items : List ρ) :
    Mixed (items.flatMap tokens) (items.flatMap attributes) (items.flatMap content) := by
  induction items with
  | nil => exact .nil
  | cons item items ih => exact (hmixed item).append ih

theorem nested (hmixed : Mixed tokens attributes content) : Nested tokens := by
  induction hmixed with
  | nil => exact .nil
  | lone attr _ ih => exact .flat rfl ih
  | node node _ ih => exact (nested_tokens node).append ih

theorem consume_attributeReader (hmixed : Mixed tokens attributes content)
    (claim : Attribute → Option α) :
    (attributeReader claim).consume (attributeReader claim).start tokens =
      .ok (attributes.filterMap claim, (attributeReader claim).start) := by
  induction hmixed with
  | nil => rfl
  | @lone tokens attributes content attr _ ih =>
      have hfirst := consume_attributeReader_attributes claim [attr]
      have hsplit : (attr :: attributes).filterMap claim =
          [attr].filterMap claim ++ attributes.filterMap claim := by
        rw [← List.filterMap_append, List.singleton_append]
      rw [hsplit]
      exact Reader.consume_append_ok hfirst ih
  | node node _ ih =>
      have hnode := consume_attributeReader_content claim [node]
      rw [contentTokens, contentTokens, List.append_nil] at hnode
      exact Reader.consume_append_ok hnode ih

theorem consume_textReader (hmixed : Mixed tokens attributes content) (text : String) :
    textReader.consume ((0 : Nat), text) tokens =
      .ok ([], ((0 : Nat), text ++ textOf content)) := by
  induction hmixed generalizing text with
  | nil => simp [textOf, Reader.consume]
  | lone attr _ ih => exact ih text
  | @node tokens attributes content node _ ih =>
      have hnode := consume_textReader_content [node] text
      rw [contentTokens, contentTokens, List.append_nil] at hnode
      have htext : text ++ textOf (node :: content) = text ++ textOf [node] ++ textOf content := by
        rw [String.append_assoc, ← textOf_append, List.singleton_append]
      rw [htext]
      exact Reader.consume_append_ok hnode (ih _)

end Mixed

/-! ## Elements among other content -/

/-- A reader that stands outside of elements, and at its start passes over
everything but the elements whose names it claims. -/
structure Seeks (reader : Reader Token α) (claims : Name → Bool) : Prop where
  lone : ∀ attr : Attribute,
    reader.feed reader.start (.loneAttribute attr) = (.pending, reader.start)
  other : ∀ node : Node, node.bears claims = false →
    reader.consume reader.start node.tokens = .ok ([], reader.start)

theorem seeks_elementReader (claims : Name → Bool) (assembly : Assembly Token β) :
    Seeks (elementReader claims assembly) claims where
  lone _ := rfl
  other node hnode := by
    cases node with
    | characters text => rfl
    | element name attributes content =>
        exact consume_elementReader_other hnode (nested_contentTokens content) assembly.start name

namespace Seeks

variable {reader : Reader Token α} {claims : Name → Bool}

theorem map (hseeks : Seeks reader claims) (f : α → β) : Seeks (reader.map f) claims where
  lone attr := by
    have hfeed := hseeks.lone attr
    simp only [Reader.map, Reader.refine, hfeed, Outcome.refine_pending]
  other node hnode := by
    refine (Reader.consume_map reader f reader.start node.tokens).trans ?_
    rw [hseeks.other node hnode]
    rfl

/-- Attributes are passed over. -/
theorem consume_attributes (hseeks : Seeks reader claims) (attributes : List Attribute) :
    reader.consume reader.start (attributes.map Token.loneAttribute) = .ok ([], reader.start) := by
  induction attributes with
  | nil => rfl
  | cons attr attributes ih =>
      exact (Reader.consume_cons_of_pending _ (hseeks.lone attr) _).trans ih

/-- The claimed elements among attributes and other content are read in order. -/
theorem consume_mixed (hseeks : Seeks reader claims) {ρ : Type} {node : ρ → Node}
    {value : ρ → α} {items : List ρ} {tokens : List Token} {attributes : List Attribute}
    {content : List Node} (hmixed : Mixed tokens attributes content)
    (hreads : ∀ item ∈ items, reader.consume reader.start (node item).tokens =
      .ok ([value item], reader.start))
    (hfound : content.filter (Node.bears claims) = items.map node) :
    reader.consume reader.start tokens = .ok (items.map value, reader.start) := by
  induction hmixed generalizing items with
  | nil =>
      obtain rfl := List.map_eq_nil_iff.mp hfound.symm
      rfl
  | lone attr _ ih =>
      exact (Reader.consume_cons_of_pending _ (hseeks.lone attr) _).trans (ih hreads hfound)
  | node first _ ih =>
      cases hbears : first.bears claims with
      | false =>
          rw [List.filter_cons_of_neg (by simp [hbears])] at hfound
          exact Reader.consume_append_ok (hseeks.other first hbears) (ih hreads hfound)
      | true =>
          rw [List.filter_cons_of_pos hbears] at hfound
          cases items with
          | nil => cases hfound
          | cons item items =>
              obtain ⟨rfl, hrest⟩ := List.cons.inj hfound
              have hfirst := hreads item List.mem_cons_self
              have hothers := ih (fun other hmem => hreads other (List.mem_cons_of_mem _ hmem))
                hrest
              exact Reader.consume_append_ok hfirst hothers

/-- The claimed elements among the content of an element are read in order. -/
theorem consume_innerTokens (hseeks : Seeks reader claims) {ρ : Type} {node : ρ → Node}
    {value : ρ → α} {items : List ρ} {content : List Node}
    (hreads : ∀ item ∈ items, reader.consume reader.start (node item).tokens =
      .ok ([value item], reader.start))
    (hfound : content.filter (Node.bears claims) = items.map node)
    (attributes : List Attribute) :
    reader.consume reader.start (innerTokens attributes content) =
      .ok (items.map value, reader.start) :=
  hseeks.consume_mixed (.ofInner attributes content) hreads hfound

end Seeks

end TokenCodec.Xml
