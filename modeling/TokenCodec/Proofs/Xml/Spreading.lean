import TokenCodec.Proofs.Streams
import TokenCodec.Proofs.Xml.Plans

/-!
# Attributes behind start tokens

An element may have its attributes in its start token, or behind it as tokens of
their own.  Element readers turn the one form into the other, so that everything
inside an element sees the attributes one by one.  For the readers around the
element the forms are different: one token stands for several, it can give only
one value, and every part of a composition sees it as a whole before the next
part does.  The two forms agree for a machine that goes over whole nodes, from one
state of rest to another.  Combinators keep that up, and element readers with an
assembly that does so are such machines again.
-/

namespace TokenCodec

variable {σ ρ υ : Type}

/-! ## Agreement of two results -/

/-- Both results are the same value, or both are failures.  Strict agreement asks
for the same failure as well. -/
inductive Agrees (strict : Prop) : Except Failure ρ → Except Failure ρ → Prop where
  | ok (value : ρ) : Agrees strict (.ok value) (.ok value)
  | error {failure other : Failure} (hsame : strict → failure = other) :
      Agrees strict (.error failure) (.error other)

namespace Agrees

variable {strict stricter : Prop} {first second : Except Failure ρ}

theorem refl (strict : Prop) (result : Except Failure ρ) : Agrees strict result result := by
  cases result with
  | ok value => exact .ok value
  | error failure => exact .error fun _ => rfl

theorem bind (hagrees : Agrees strict first second) {f g : ρ → Except Failure υ}
    (hnext : ∀ value, first = .ok value → Agrees strict (f value) (g value)) :
    Agrees strict (first.bind f) (second.bind g) := by
  cases hagrees with
  | ok value => exact hnext value rfl
  | error hsame => exact .error hsame

theorem map (hagrees : Agrees strict first second) (f : ρ → υ) :
    Agrees strict (first.map f) (second.map f) := by
  cases hagrees with
  | ok value => exact .ok (f value)
  | error hsame => exact .error hsame

theorem mapError (hagrees : Agrees strict first second) (f : Failure → Failure) :
    Agrees strict (first.mapError f) (second.mapError f) := by
  cases hagrees with
  | ok value => exact .ok value
  | error hsame => exact .error fun hstrict => congrArg f (hsame hstrict)

theorem weaken (hagrees : Agrees strict first second) (hstrict : stricter → strict) :
    Agrees stricter first second := by
  cases hagrees with
  | ok value => exact .ok value
  | error hsame => exact .error fun hstricter => hsame (hstrict hstricter)

theorem eq (hagrees : Agrees strict first second) (hstrict : strict) : first = second := by
  cases hagrees with
  | ok value => rfl
  | error hsame => rw [hsame hstrict]

theorem ok_iff (hagrees : Agrees strict first second) (value : ρ) :
    first = .ok value ↔ second = .ok value := by
  cases hagrees with
  | ok value => rfl
  | error hsame => exact ⟨nofun, nofun⟩

end Agrees

namespace Xml

open Alphabet Node

/-! ## Nodes with spread attributes -/

namespace Node

/-- What stands between the start token and the end token of an element whose
attributes are spread, within content whose attributes are spread. -/
def spreadInnerTokens (attributes : List Attribute) (content : List Node) : List Token :=
  attributes.map Token.loneAttribute ++ contentSpreadTokens content

theorem tokens_element (name : Name) (attributes : List Attribute) (content : List Node) :
    (element name attributes content).tokens =
      .startElement name attributes :: (contentTokens content ++ [.endElement name]) := rfl

theorem spreadTokens_element (name : Name) (attributes : List Attribute) (content : List Node) :
    (element name attributes content).spreadTokens =
      .startElement name [] :: (spreadInnerTokens attributes content ++ [.endElement name]) := by
  simp [spreadTokens, spreadInnerTokens]

mutual

theorem nested_spreadTokens : ∀ node : Node, Nested node.spreadTokens
  | element name attributes content => by
      rw [spreadTokens_element]
      have hcontent := nested_contentSpreadTokens content
      exact .group rfl (nested_attributes_append attributes hcontent) rfl .nil
  | characters text => .flat rfl .nil

theorem nested_contentSpreadTokens : ∀ content : List Node, Nested (contentSpreadTokens content)
  | [] => .nil
  | node :: rest => by
      rw [contentSpreadTokens]
      exact (nested_spreadTokens node).append (nested_contentSpreadTokens rest)

end

theorem nested_spreadInnerTokens (attributes : List Attribute) (content : List Node) :
    Nested (spreadInnerTokens attributes content) :=
  nested_attributes_append attributes (nested_contentSpreadTokens content)

/-- The attributes of every element have different names. -/
inductive WellFormed : Node → Prop where
  | element {name : Name} {attributes : List Attribute} {content : List Node}
      (hdistinct : (attributes.map Attribute.name).Nodup)
      (hcontent : ∀ node ∈ content, node.WellFormed) :
      WellFormed (.element name attributes content)
  | characters (text : String) : WellFormed (.characters text)

end Node

/-! ## Machines over whole nodes -/

/-- The runs of a machine from states of rest, over single attributes and over
whole nodes.  The two forms of a node agree, and a node that is not claimed is
passed over.  `after` is the state in the result of a run. -/
structure Steady (claims : Name → Bool) (strict : Prop) (fits : Node → Prop) (rests : σ → Prop)
    (run : σ → List Token → Except Failure ρ) (after : ρ → σ) : Prop where
  lone : ∀ {state : σ} {attr : Attribute} {read : ρ}, rests state →
    run state [.loneAttribute attr] = .ok read → rests (after read)
  node : ∀ {state : σ} {node : Node}, rests state → fits node →
    Agrees strict (run state node.tokens) (run state node.spreadTokens)
  next : ∀ {state : σ} {node : Node} {read : ρ}, rests state →
    run state node.tokens = .ok read → rests (after read)
  other : ∀ {state : σ} {node : Node}, rests state → node.bears claims = false →
    ∃ read, run state node.tokens = .ok read

namespace Steady

variable {claims : Name → Bool} {strict : Prop} {fits : Node → Prop} {rests : σ → Prop}
  {run : σ → List Token → Except Failure ρ} {after : ρ → σ}

/-- Wider claims, a weaker agreement and fewer nodes ask less of a machine. -/
theorem weaken (hsteady : Steady claims strict fits rests run after) {wider : Name → Bool}
    {stricter : Prop} {fitter : Node → Prop}
    (hwider : ∀ name, wider name = false → claims name = false) (hstrict : stricter → strict)
    (hfits : ∀ node, fitter node → fits node) :
    Steady wider stricter fitter rests run after where
  lone := hsteady.lone
  node hrests hfit := (hsteady.node hrests (hfits _ hfit)).weaken hstrict
  next := hsteady.next
  other {_ node} hrests hbears := hsteady.other hrests <| by
    cases node with
    | element name attributes content => exact hwider name hbears
    | characters text => rfl

/-- A machine whose runs are those of another one, with something to keep beside
the state, is steady if the other one is. -/
theorem along {κ τ υ : Type} (hsteady : Steady claims strict fits rests run after)
    {runs : τ → List Token → Except Failure υ} {afters : υ → τ} (place : κ → σ → τ)
    (give : κ → ρ → υ) (keep : κ → ρ → κ)
    (hruns : ∀ kept state tokens,
      runs (place kept state) tokens = (run state tokens).map (give kept))
    (hafters : ∀ kept read, afters (give kept read) = place (keep kept read) (after read)) :
    Steady claims strict fits (fun state => ∃ kept inner, rests inner ∧ state = place kept inner)
      runs afters where
  lone := by
    rintro _ attr read ⟨kept, inner, hrests, rfl⟩ hread
    rw [hruns] at hread
    obtain ⟨given, hgiven, rfl⟩ := Except.exists_of_map hread
    exact ⟨_, _, hsteady.lone hrests hgiven, hafters kept given⟩
  node := by
    rintro _ node ⟨kept, inner, hrests, rfl⟩ hfit
    rw [hruns, hruns]
    exact (hsteady.node hrests hfit).map _
  next := by
    rintro _ node read ⟨kept, inner, hrests, rfl⟩ hread
    rw [hruns] at hread
    obtain ⟨given, hgiven, rfl⟩ := Except.exists_of_map hread
    exact ⟨_, _, hsteady.next hrests hgiven, hafters kept given⟩
  other := by
    rintro _ node ⟨kept, inner, hrests, rfl⟩ hbears
    obtain ⟨given, hgiven⟩ := hsteady.other hrests hbears
    exact ⟨give kept given, by rw [hruns, hgiven]; rfl⟩

/-- Two machines in turn agree on two runs if both do.  Which failure comes first
in a run does not matter if no more than one of them fails. -/
theorem agrees_inTurn {τ : Type} {first : Watcher Token σ} {second : Watcher Token τ}
    {strictly both : Prop} {state : σ} {other : τ} {tokens spread : List Token}
    (hfirst : Agrees strict (first.follow state tokens) (first.follow state spread))
    (hsecond : Agrees strictly (second.follow other tokens) (second.follow other spread))
    (hboth : both → strict ∧ strictly ∧ ((∃ next, first.follow state tokens = .ok next) ∨
      ∃ next, second.follow other tokens = .ok next)) :
    Agrees both (Watcher.follow (Watcher.inTurn first second) (state, other) tokens)
      (Watcher.follow (Watcher.inTurn first second) (state, other) spread) := by
  rcases hround : Watcher.follow (Watcher.inTurn first second) (state, other) tokens with
    failure | ⟨next, reached⟩
  · rcases hspread : Watcher.follow (Watcher.inTurn first second) (state, other) spread with
      another | ⟨next, reached⟩
    · refine .error fun hstrict => ?_
      obtain ⟨hone, htwo, hpasses⟩ := hboth hstrict
      have hfailed := Watcher.error_of_inTurn hround
      have hfails := Watcher.error_of_inTurn hspread
      rw [← hfirst.eq hone, ← hsecond.eq htwo] at hfails
      rcases hpasses with ⟨next, hpasses⟩ | ⟨next, hpasses⟩
      · have hsecondly := hfailed.resolve_left (by rw [hpasses]; nofun)
        have hsame := hfails.resolve_left (by rw [hpasses]; nofun)
        exact Except.error.inj (hsecondly.symm.trans hsame)
      · have hfirstly := hfailed.resolve_right (by rw [hpasses]; nofun)
        have hsame := hfails.resolve_right (by rw [hpasses]; nofun)
        exact Except.error.inj (hfirstly.symm.trans hsame)
    · obtain ⟨hone, htwo⟩ := Watcher.follow_both_of_inTurn hspread
      have hpassed := Watcher.follow_inTurn_of_ok ((hfirst.ok_iff next).mpr hone)
        ((hsecond.ok_iff reached).mpr htwo)
      cases hround.symm.trans hpassed
  · obtain ⟨hone, htwo⟩ := Watcher.follow_both_of_inTurn hround
    rw [Watcher.follow_inTurn_of_ok ((hfirst.ok_iff next).mp hone)
      ((hsecond.ok_iff reached).mp htwo)]
    exact .ok _

/-- Two machines in turn are steady if both are.  The agreement stays strict if no
element is claimed by both of them. -/
theorem inTurn {τ : Type} {first : Watcher Token σ} {second : Watcher Token τ}
    {others : Name → Bool} {strictly : Prop} {fitting : Node → Prop} {resting : τ → Prop}
    (hfirst : Steady claims strict fits rests first.follow id)
    (hsecond : Steady others strictly fitting resting second.follow id) :
    Steady (fun name => claims name || others name)
      (strict ∧ strictly ∧ ∀ name, claims name = true → others name = false)
      (fun node => fits node ∧ fitting node) (fun state => rests state.1 ∧ resting state.2)
      (Watcher.inTurn first second).follow id where
  lone := by
    rintro ⟨state, other⟩ attr ⟨next, reached⟩ ⟨hrests, hresting⟩ hread
    obtain ⟨hone, htwo⟩ := Watcher.follow_both_of_inTurn hread
    exact ⟨hfirst.lone hrests hone, hsecond.lone hresting htwo⟩
  node := by
    rintro ⟨state, other⟩ node ⟨hrests, hresting⟩ ⟨hfit, hfitting⟩
    refine agrees_inTurn (hfirst.node hrests hfit) (hsecond.node hresting hfitting) ?_
    rintro ⟨hstrict, hstrictly, hapart⟩
    refine ⟨hstrict, hstrictly, ?_⟩
    cases hbears : node.bears claims with
    | false => exact .inl (hfirst.other hrests hbears)
    | true =>
        refine .inr (hsecond.other hresting ?_)
        cases node with
        | element name attributes content => exact hapart name hbears
        | characters text => rfl
  next := by
    rintro ⟨state, other⟩ node ⟨next, reached⟩ ⟨hrests, hresting⟩ hread
    obtain ⟨hone, htwo⟩ := Watcher.follow_both_of_inTurn hread
    exact ⟨hfirst.next hrests hone, hsecond.next hresting htwo⟩
  other := by
    rintro ⟨state, other⟩ node ⟨hrests, hresting⟩ hbears
    have hneither : node.bears claims = false ∧ node.bears others = false := by
      cases node with
      | element name attributes content => exact Bool.or_eq_false_iff.mp hbears
      | characters text => exact ⟨rfl, rfl⟩
    obtain ⟨next, hone⟩ := hfirst.other hrests hneither.1
    obtain ⟨reached, htwo⟩ := hsecond.other hresting hneither.2
    exact ⟨_, Watcher.follow_inTurn_of_ok hone htwo⟩

end Steady

/-! ## Readers over whole nodes -/

variable {α β : Type} {reader : Reader Token α} {claims : Name → Bool} {strict : Prop}
  {fits : Node → Prop}

namespace Steady

variable {rests : reader.State → Prop}

/-- A reader that passes over every element is steady if attributes and text leave
it at rest. -/
theorem of_passing
    (hlone : ∀ {state attr read}, rests state →
      reader.consume state [.loneAttribute attr] = .ok read → rests read.2)
    (hcharacters : ∀ {state} text, rests state →
      ∃ read, reader.consume state [.characters text] = .ok read ∧ rests read.2)
    (helement : ∀ {state inside} (name closing : Name) (attributes : List Attribute),
      rests state → Nested inside →
        reader.consume state (.startElement name attributes :: (inside ++ [.endElement closing])) =
          .ok ([], state)) :
    Steady claims strict fits rests reader.consume Prod.snd where
  lone := hlone
  node {state node} hrests _ := by
    cases node with
    | element name attributes content =>
        rw [tokens_element, spreadTokens_element,
          helement name name attributes hrests (nested_contentTokens content),
          helement name name [] hrests (nested_spreadInnerTokens attributes content)]
        exact .ok _
    | characters text => exact .refl _ _
  next {state node read} hrests hread := by
    cases node with
    | element name attributes content =>
        cases (helement name name attributes hrests (nested_contentTokens content)).symm.trans hread
        exact hrests
    | characters text =>
        obtain ⟨given, hgiven, hnext⟩ := hcharacters text hrests
        cases hgiven.symm.trans hread
        exact hnext
  other {state node} hrests _ := by
    cases node with
    | element name attributes content =>
        exact ⟨_, helement name name attributes hrests (nested_contentTokens content)⟩
    | characters text =>
        obtain ⟨given, hgiven, -⟩ := hcharacters text hrests
        exact ⟨given, hgiven⟩

variable (hsteady : Steady claims strict fits rests reader.consume Prod.snd)

include hsteady

/-- A steady reader is at rest behind the attributes of an element. -/
theorem attributes {state next : reader.State} {attributes : List Attribute} {values : List α}
    (hrests : rests state)
    (hconsume : reader.consume state (attributes.map Token.loneAttribute) = .ok (values, next)) :
    rests next := by
  induction attributes generalizing state values with
  | nil =>
      cases hconsume
      exact hrests
  | cons attr attributes ih =>
      have hsplit : (attr :: attributes).map Token.loneAttribute =
          [.loneAttribute attr] ++ attributes.map Token.loneAttribute := rfl
      rw [hsplit] at hconsume
      obtain ⟨given, middle, more, hfirst, hrest, -⟩ := Reader.exists_of_consume_append hconsume
      exact ih (hsteady.lone hrests hfirst) hrest

/-- The two forms of the content of an element agree. -/
theorem content {state : reader.State} (hrests : rests state) {nodes : List Node}
    (hfits : ∀ node ∈ nodes, fits node) :
    Agrees strict (reader.consume state (contentTokens nodes))
      (reader.consume state (contentSpreadTokens nodes)) := by
  induction nodes generalizing state with
  | nil => exact .refl _ _
  | cons node nodes ih =>
      rw [contentTokens, contentSpreadTokens, Reader.consume_append, Reader.consume_append]
      refine (hsteady.node hrests (hfits node List.mem_cons_self)).bind fun read hread => ?_
      have hnext := hsteady.next hrests hread
      exact (ih hnext fun other hmem => hfits other (List.mem_cons_of_mem node hmem)).map _

end Steady

/-- A reader that is steady, and at rest when it starts. -/
def SteadyReader (claims : Name → Bool) (strict : Prop) (fits : Node → Prop)
    (reader : Reader Token α) : Prop :=
  ∃ rests : reader.State → Prop, rests reader.start ∧
    Steady claims strict fits rests reader.consume Prod.snd

namespace SteadyReader

theorem ofClaim (claim : Attribute → Option α) :
    SteadyReader claims strict fits (attributeReader claim) := by
  refine ⟨(· = (0 : Nat)), rfl, .of_passing ?_ ?_ ?_⟩
  · rintro _ attr read rfl hread
    cases (consume_attributeReader_attributes claim [attr]).symm.trans hread
    rfl
  · rintro _ text rfl
    exact ⟨_, rfl, rfl⟩
  · rintro _ inside name closing attributes rfl hnested
    exact consume_attributeReader_element claim name closing attributes hnested

theorem text : SteadyReader claims strict fits textReader := by
  refine ⟨fun state => state.1 = 0, rfl, .of_passing ?_ ?_ ?_⟩
  · rintro ⟨_, text⟩ attr read rfl hread
    cases hread
    rfl
  · rintro ⟨_, text⟩ more rfl
    exact ⟨_, rfl, rfl⟩
  · rintro ⟨_, text⟩ inside name closing attributes rfl hnested
    exact consume_textReader_element text name closing attributes hnested

/-- A condition on an attribute looks at nothing but the attributes. -/
theorem condition (attr : Attribute) :
    SteadyReader claims strict fits attr.condition.reader := by
  refine ⟨fun state => state.1 = (0 : Nat), rfl, .of_passing ?_ ?_ ?_⟩
  · rintro ⟨_, matched⟩ found read rfl hread
    rw [← Reader.feed_snd_of_consume hread]
    simp only [Attribute.condition, Codec.fixed, Codec.ofHalves, ReadCodec.fixed, Reader.fixed,
      ofAttribute, attributeReader, if_true]
    by_cases hname : found.name = attr.name <;> simp [hname]
  · rintro ⟨_, matched⟩ text rfl
    exact ⟨_, rfl, rfl⟩
  · rintro ⟨_, matched⟩ inside name closing attributes rfl hnested
    have hinner := consume_attributeReader_element
      (fun found => if found.name = attr.name then some found.value else none) name closing
      attributes hnested
    have hsame : ∀ found ∈ ([] : List String), (found == attr.value) = true :=
      List.forall_mem_nil _
    have hfixed := Reader.consume_fixed_of_ok attr.value
      ((ofAttribute attr.name).description ++ "=" ++ Shown.text attr.value) hinner hsame matched
    rw [List.isEmpty_nil, Bool.not_true, Bool.or_false] at hfixed
    exact hfixed

variable (hreader : SteadyReader claims strict fits reader)

include hreader

theorem map (f : α → β) : SteadyReader claims strict fits (reader.map f) := by
  obtain ⟨rests, hstart, hsteady⟩ := hreader
  exact ⟨_, ⟨(), _, hstart, rfl⟩, hsteady.along (fun _ state => state)
    (fun _ read => (read.1.map f, read.2)) (fun _ _ => ())
    (fun _ state tokens => reader.consume_map f state tokens) fun _ _ => rfl⟩

theorem gather (empty : β) (add : β → α → β) :
    SteadyReader claims strict fits (reader.gather empty add) := by
  obtain ⟨rests, hstart, hsteady⟩ := hreader
  exact ⟨_, ⟨empty, _, hstart, rfl⟩, hsteady.along (fun store state => (state, store))
    (fun store read => ([], (read.2, read.1.foldl add store)))
    (fun store read => read.1.foldl add store)
    (fun store state tokens => reader.consume_gather empty add state store tokens)
    fun _ _ => rfl⟩

theorem fold (initial : β) (combine : β → α → β) :
    SteadyReader claims strict fits (reader.fold initial combine) := by
  obtain ⟨rests, hstart, hsteady⟩ := hreader
  exact ⟨_, ⟨initial, _, hstart, rfl⟩, hsteady.along (fun result state => ⟨state, result, none⟩)
    (fun result read => ([], ⟨read.2, read.1.foldl combine result, none⟩))
    (fun result read => read.1.foldl combine result)
    (fun result state tokens => reader.consume_fold initial combine state result tokens)
    fun _ _ => rfl⟩

theorem optional : SteadyReader claims strict fits reader.optional := by
  obtain ⟨rests, hstart, hsteady⟩ := hreader
  exact ⟨_, ⟨false, _, hstart, rfl⟩, hsteady.along (fun present state => (state, present))
    (fun present read => (read.1.map some, (read.2, present || !read.1.isEmpty)))
    (fun present read => present || !read.1.isEmpty)
    (fun present state tokens => reader.consume_optional state present tokens) fun _ _ => rfl⟩

/-- Wider claims, a weaker agreement and fewer nodes ask less of a reader. -/
theorem weaken {wider : Name → Bool} {stricter : Prop} {fitter : Node → Prop}
    (hwider : ∀ name, wider name = false → claims name = false) (hstrict : stricter → strict)
    (hfits : ∀ node, fitter node → fits node) : SteadyReader wider stricter fitter reader := by
  obtain ⟨rests, hstart, hsteady⟩ := hreader
  exact ⟨rests, hstart, hsteady.weaken hwider hstrict hfits⟩

end SteadyReader

/-! ## Compositions over whole nodes -/

/-- A watcher that is steady, and at rest when it starts. -/
def SteadyWatcher (claims : Name → Bool) (strict : Prop) (fits : Node → Prop)
    (watcher : Watcher Token σ) (start : σ) : Prop :=
  ∃ rests : σ → Prop, rests start ∧ Steady claims strict fits rests watcher.follow id

namespace SteadyWatcher

/-- A machine that never answers. -/
theorem idle : SteadyWatcher claims strict fits (fun state _ => (none, state)) () := by
  have hpasses (tokens : List Token) :
      Watcher.follow (fun (state : Unit) (_ : Token) => (none, state)) () tokens = .ok () := by
    induction tokens with
    | nil => rfl
    | cons token tokens ih => exact ih
  refine ⟨fun _ => True, trivial, ⟨fun _ _ => trivial, ?_, fun _ _ => trivial, ?_⟩⟩
  · rintro ⟨⟩ node - -
    rw [hpasses, hpasses]
    exact .ok ()
  · rintro ⟨⟩ node - -
    exact ⟨(), hpasses node.tokens⟩

theorem watch {part : PartReader Token α} (hpart : SteadyReader claims strict fits part.reader) :
    SteadyWatcher claims strict fits part.watch (part.reader.start, none) := by
  obtain ⟨rests, hstart, hsteady⟩ := hpart
  exact ⟨_, ⟨none, _, hstart, rfl⟩, hsteady.along (fun slot state => (state, slot))
    (fun slot read => (read.2, read.1.getLast?.or slot))
    (fun slot read => read.1.getLast?.or slot)
    (fun slot state tokens => part.follow_watch state slot tokens) fun _ _ => rfl⟩

theorem heed (hreader : SteadyReader claims strict fits reader) :
    SteadyWatcher claims strict fits reader.heed reader.start := by
  obtain ⟨rests, hstart, hsteady⟩ := hreader
  exact ⟨_, ⟨(), _, hstart, rfl⟩, hsteady.along (fun _ state => state) (fun _ read => read.2)
    (fun _ _ => ()) (fun _ state tokens => reader.follow_heed state tokens) fun _ _ => rfl⟩

theorem inTurn {τ : Type} {first : Watcher Token σ} {second : Watcher Token τ} {start : σ}
    {other : τ} {others : Name → Bool} {strictly : Prop} {fitting : Node → Prop}
    (hfirst : SteadyWatcher claims strict fits first start)
    (hsecond : SteadyWatcher others strictly fitting second other) :
    SteadyWatcher (fun name => claims name || others name)
      (strict ∧ strictly ∧ ∀ name, claims name = true → others name = false)
      (fun node => fits node ∧ fitting node) (Watcher.inTurn first second) (start, other) := by
  obtain ⟨rests, hstart, hsteady⟩ := hfirst
  obtain ⟨resting, hother, hsteadies⟩ := hsecond
  exact ⟨_, ⟨hstart, hother⟩, hsteady.inTurn hsteadies⟩

theorem weaken {watcher : Watcher Token σ} {start : σ}
    (hwatcher : SteadyWatcher claims strict fits watcher start) {wider : Name → Bool}
    {stricter : Prop} {fitter : Node → Prop}
    (hwider : ∀ name, wider name = false → claims name = false) (hstrict : stricter → strict)
    (hfits : ∀ node, fitter node → fits node) :
    SteadyWatcher wider stricter fitter watcher start := by
  obtain ⟨rests, hstart, hsteady⟩ := hwatcher
  exact ⟨rests, hstart, hsteady.weaken hwider hstrict hfits⟩

/-- A machine that no node concerns changes nothing beside another one. -/
theorem beside {τ : Type} {first : Watcher Token σ} {second : Watcher Token τ} {start : σ}
    {other : τ} (hfirst : SteadyWatcher claims strict fits first start)
    (hsecond : SteadyWatcher (fun _ => false) True (fun _ => True) second other) :
    SteadyWatcher claims strict fits (Watcher.inTurn first second) (start, other) := by
  refine (hfirst.inTurn hsecond).weaken ?_ ?_ fun _ hfit => ⟨hfit, trivial⟩
  · intro name hname
    rw [hname, Bool.false_or]
  · exact fun hstrict => ⟨hstrict, trivial, fun _ _ => rfl⟩

/-- The conditions of an element concern no node inside it. -/
theorem conditions (attributes : List Attribute) :
    SteadyWatcher (fun _ => false) True (fun _ => True)
      (Conditions.ofList (Condition.readers (attributes.map Attribute.condition))).feed
      (Conditions.ofList (Condition.readers (attributes.map Attribute.condition))).start := by
  induction attributes with
  | nil => exact idle
  | cons attr attributes ih =>
      change SteadyWatcher _ _ _ (Conditions.cons attr.condition.reader _).feed _
      rw [Conditions.feed_cons]
      exact (heed (.condition attr)).beside ih

end SteadyWatcher

namespace SteadyReader

/-- An assembly that holds its values back. -/
theorem held {assembly : Assembly Token β} (hheld : assembly.streams = false)
    (hslots : SteadyWatcher claims strict fits assembly.slots.feed assembly.slots.start)
    (hconditions : SteadyWatcher (fun _ => false) True (fun _ => True)
      assembly.conditions.feed assembly.conditions.start) :
    SteadyReader claims strict fits assembly.interior := by
  obtain ⟨rests, hstart, hsteady⟩ := hslots.beside hconditions
  exact ⟨_, ⟨false, _, hstart, rfl⟩, hsteady.along
    (fun emitted state => (⟨state.1, state.2, emitted⟩ : assembly.State))
    (fun emitted next => ([], ⟨next.1, next.2, emitted⟩)) (fun emitted _ => emitted)
    (fun emitted state tokens =>
      Assembly.consume_interior_of_held hheld ⟨state.1, state.2, emitted⟩ tokens)
    fun _ _ => rfl⟩

/-- A lone part without conditions. -/
theorem lone {part : PartReader Token α} (hpart : SteadyReader claims strict fits part.reader) :
    SteadyReader claims strict fits (Assembly.lone part).interior := by
  obtain ⟨rests, hstart, hsteady⟩ := hpart
  exact ⟨_, ⟨false, _, hstart, rfl⟩, hsteady.along
    (fun emitted state => Assembly.loneState part state emitted)
    (fun emitted read =>
      (read.1.map (·, ()), Assembly.loneState part read.2 (emitted || !read.1.isEmpty)))
    (fun emitted read => emitted || !read.1.isEmpty)
    (fun emitted state tokens => Assembly.consume_interior_lone part state emitted tokens)
    fun _ _ => rfl⟩

/-- A claimed element is concluded alike in both forms, if its attributes give no
more than one value before its content. -/
theorem agrees_element {assembly : Assembly Token β} {rests : assembly.State → Prop}
    {others : Name → Bool} (hstart : rests assembly.start)
    (hsteady : Steady others strict fits rests assembly.interior.consume Prod.snd) {name : Name}
    (hclaims : claims name = true) {attributes : List Attribute} {content : List Node}
    (honce : ∀ early middle, assembly.interior.consume assembly.interior.start
      (attributes.map Token.loneAttribute) = .ok (early, middle) → early.length ≤ 1)
    (hcontent : ∀ node ∈ content, fits node) :
    Agrees strict
      ((elementReader claims assembly).consume (assembly.start, .outside)
        (element name attributes content).tokens)
      ((elementReader claims assembly).consume (assembly.start, .outside)
        (element name attributes content).spreadTokens) := by
  have hnothing : assembly.interior.consume assembly.start (([] : List Attribute).map
      Token.loneAttribute) = .ok ([], assembly.start) := rfl
  rw [tokens_element, spreadTokens_element, consume_elementReader_of_ok hclaims
    (nested_spreadInnerTokens attributes content) hnothing]
  rcases hattributes : assembly.interior.consume assembly.start
    (attributes.map Token.loneAttribute) with failure | ⟨early, middle⟩
  · rw [consume_elementReader_of_error hclaims hattributes, spreadInnerTokens,
      Reader.conclude_of_error (Reader.consume_append_of_error hattributes _)]
    exact .refl _ _
  · rw [consume_elementReader_of_ok hclaims (nested_contentTokens content) hattributes,
      spreadInnerTokens, Reader.conclude_append_of_ok hattributes]
    have hlast : early.getLast?.toList = early := by
      match early, honce early middle hattributes with
      | [], _ => rfl
      | [_], _ => rfl
    have hconclude : Agrees strict (assembly.interior.conclude middle (contentTokens content))
        (assembly.interior.conclude middle (contentSpreadTokens content)) :=
      (hsteady.content (hsteady.attributes hstart hattributes) hcontent).bind
        fun _ _ => .refl _ _
    have hspread (result : Except Failure (List β × assembly.State)) :
        (((result.map (Reader.prepend early)).mapError (Failure.within name.shownText)).map
            fun read => (read.1, (read.2, ElementPlace.outside))) =
          (result.mapError (Failure.within name.shownText)).map
            fun read => (early ++ read.1, (read.2, ElementPlace.outside)) := by
      cases result <;> rfl
    have htogether := (hconclude.mapError (Failure.within name.shownText)).map
      fun read => (early ++ read.1, (read.2, ElementPlace.outside))
    have hright := hspread (assembly.interior.conclude middle (contentSpreadTokens content))
    rw [hlast]
    exact (congrArg (Agrees strict _) hright).mpr htogether

/-- The elements with claimed names, read with a steady assembly. -/
theorem elements {assembly : Assembly Token β} (hresets : assembly.Resets)
    {others : Name → Bool} (hinterior : SteadyReader others strict fits assembly.interior)
    {fitting : Node → Prop}
    (hfitting : ∀ {name attributes content}, fitting (.element name attributes content) →
      claims name = true →
        (∀ early middle, assembly.interior.consume assembly.interior.start
          (attributes.map Token.loneAttribute) = .ok (early, middle) → early.length ≤ 1) ∧
          ∀ node ∈ content, fits node) :
    SteadyReader claims strict fitting (elementReader claims assembly) := by
  obtain ⟨rests, hstart, hsteady⟩ := hinterior
  refine ⟨(· = (assembly.start, .outside)), rfl, ⟨?_, ?_, ?_, ?_⟩⟩
  · rintro _ attr read rfl hread
    cases hread
    rfl
  · rintro _ node rfl hfit
    cases node with
    | characters text => exact .refl _ _
    | element name attributes content =>
        cases hclaims : claims name with
        | true =>
            obtain ⟨honce, hcontent⟩ := hfitting hfit hclaims
            exact agrees_element hstart hsteady hclaims honce hcontent
        | false =>
            rw [tokens_element, spreadTokens_element,
              consume_elementReader_other hclaims (nested_contentTokens content),
              consume_elementReader_other hclaims (nested_spreadInnerTokens attributes content)]
            exact .ok _
  · rintro _ node ⟨values, reached⟩ rfl hread
    cases node with
    | characters text =>
        cases hread
        rfl
    | element name attributes content =>
        have hnested := nested_contentTokens content
        cases hclaims : claims name with
        | true =>
            obtain ⟨given, next, rfl, hconclude⟩ :=
              conclude_of_consume_elementReader hclaims hnested hread
            obtain ⟨early, middle, late, -, hrelease, -⟩ := Reader.exists_of_conclude hconclude
            have hnext : assembly.start = next :=
              (hresets.complete_eq middle).symm.trans (Reader.reset_of_release hrelease)
            rw [hnext]
        | false =>
            cases (consume_elementReader_other hclaims hnested assembly.start name).symm.trans hread
            rfl
  · rintro _ node rfl hbears
    cases node with
    | characters text => exact ⟨_, rfl⟩
    | element name attributes content =>
        exact ⟨_, consume_elementReader_other hbears (nested_contentTokens content)
          assembly.start name⟩

end SteadyReader

/-! ## Plans over whole nodes -/

/-- The attributes with one name, of an element whose attributes have different
names. -/
theorem length_filterMap_le_one (name : Name) {attributes : List Attribute}
    (hdistinct : (attributes.map Attribute.name).Nodup) :
    (attributes.filterMap fun attr =>
      if attr.name = name then some attr.value else none).length ≤ 1 := by
  induction attributes with
  | nil => exact Nat.zero_le 1
  | cons attr attributes ih =>
      obtain ⟨hnew, hrest⟩ := List.nodup_cons.mp hdistinct
      by_cases hname : attr.name = name
      · have hnone : attributes.filterMap (fun attr =>
            if attr.name = name then some attr.value else none) = [] := by
          rw [List.filterMap_eq_nil_iff]
          intro other hmem
          have hother : other.name ≠ name := by
            rintro rfl
            exact hnew (hname ▸ List.mem_map_of_mem hmem)
          rw [if_neg hother]
        simp [hname, hnone]
      · simpa [hname] using ih hrest

/-- A plan gives no more than one value at the attributes of an element, unless it
gives each of them. -/
theorem Plan.length_early {attributes : List Attribute}
    (hdistinct : (attributes.map Attribute.name).Nodup) : {α : Type} → (plan : Plan α) →
    (plan.givesEach = true → attributes.length ≤ 1) → ∀ {early : List α} {middle},
      plan.codec.reader.consume plan.codec.reader.start (attributes.map Token.loneAttribute) =
        .ok (early, middle) → early.length ≤ 1
  | _, .ofAttribute name, _, early, middle, hconsume => by
      cases (consume_attributeReader_attributes _ attributes).symm.trans hconsume
      exact length_filterMap_le_one name hdistinct
  | _, .anyAttribute, hfew, early, middle, hconsume => by
      have hlength := Reader.length_le_of_consume hconsume
      rw [List.length_map] at hlength
      exact Nat.le_trans hlength (hfew rfl)
  | _, .text, _, early, middle, hconsume => by
      cases (consume_textReader_attributes attributes).symm.trans hconsume
      exact Nat.zero_le 1
  | _, .elements claims _ members conditions, _, early, middle, hconsume => by
      have hseeks := seeks_elementReader claims (members.assembly conditions)
      cases (hseeks.consume_attributes attributes).symm.trans hconsume
      exact Nat.zero_le 1
  | _, .collect inner, _, early, middle, hconsume => by
      have hcollect := Reader.consume_collect inner.codec.reader inner.codec.reader.start []
        (attributes.map Token.loneAttribute)
      obtain ⟨read, -, hread⟩ := Except.exists_of_map (hcollect.symm.trans hconsume)
      cases hread
      exact Nat.zero_le 1
  | _, @Plan.entries _ _ _ inner, _, early, middle, hconsume => by
      have hgather := Reader.consume_gather inner.codec.reader Entries.empty
        (fun store entry => store.insert entry.1 entry.2) inner.codec.reader.start Entries.empty
        (attributes.map Token.loneAttribute)
      obtain ⟨read, -, hread⟩ := Except.exists_of_map (hgather.symm.trans hconsume)
      cases hread
      exact Nat.zero_le 1
  | _, .fold inner initial combine, _, early, middle, hconsume => by
      have hfold := Reader.consume_fold inner.codec.reader initial combine
        inner.codec.reader.start initial (attributes.map Token.loneAttribute)
      obtain ⟨read, -, hread⟩ := Except.exists_of_map (hfold.symm.trans hconsume)
      cases hread
      exact Nat.zero_le 1
  | _, .optional inner, hfew, early, middle, hconsume => by
      have hoptional := Reader.consume_optional inner.codec.reader inner.codec.reader.start false
        (attributes.map Token.loneAttribute)
      obtain ⟨read, hinner, hread⟩ := Except.exists_of_map (hoptional.symm.trans hconsume)
      cases hread
      rw [List.length_map]
      exact inner.length_early hdistinct hfew hinner
  | _, .map inner f, hfew, early, middle, hconsume => by
      obtain ⟨given, hinner, rfl⟩ := Reader.exists_of_consume_map hconsume
      rw [List.length_map]
      exact inner.length_early hdistinct hfew hinner

/-- The assembly of an element gives no more than one value at the attributes. -/
theorem Plan.Members.length_early {attributes : List Attribute}
    (hdistinct : (attributes.map Attribute.name).Nodup) (members : Plan.Members β)
    (conditions : List Attribute)
    (hfew : members.givesEach = true → conditions = [] → attributes.length ≤ 1)
    {early : List β} {middle : (members.assembly conditions).State}
    (hconsume : (members.assembly conditions).interior.consume
      (members.assembly conditions).interior.start (attributes.map Token.loneAttribute) =
        .ok (early, middle)) : early.length ≤ 1 := by
  induction members, conditions using Plan.Members.held_or_lone with
  | @held β members conditions hheld =>
      have hnone := Assembly.consume_interior_of_held hheld (members.assembly conditions).start
        (attributes.map Token.loneAttribute)
      obtain ⟨read, -, hread⟩ := Except.exists_of_map (hnone.symm.trans hconsume)
      cases hread
      exact Nat.zero_le 1
  | lone first =>
      have hlone := Assembly.consume_interior_lone first.codec.part first.codec.reader.start false
        (attributes.map Token.loneAttribute)
      obtain ⟨read, hfirst, hread⟩ := Except.exists_of_map (hlone.symm.trans hconsume)
      cases hread
      rw [List.length_map]
      exact first.length_early hdistinct (fun heach => hfew heach rfl) hfirst

/-- Every member is steady. -/
def Plan.Members.AreSteady : {β : Type} → Plan.Members β → Prop
  | _, .nil => True
  | _, .cons first rest =>
      SteadyReader first.claims first.Apart (fun node => node.WellFormed ∧ first.Fits node)
        first.codec.reader ∧ rest.AreSteady

namespace Plan.Members.AreSteady

theorem slots : {β : Type} → {members : Plan.Members β} → members.AreSteady →
    SteadyWatcher members.claims members.Apart
      (fun node => node.WellFormed ∧ members.Fits node)
      (Slots.ofParts (members.parts.mapParts ReadCodec.part)).feed
      (Slots.ofParts (members.parts.mapParts ReadCodec.part)).start
  | _, .nil, _ => .idle
  | _, .cons first rest, hmembers => by
      have hwatch : SteadyWatcher first.claims first.Apart
          (fun node => node.WellFormed ∧ first.Fits node) first.codec.part.watch
            (first.codec.reader.start, none) := .watch hmembers.1
      change SteadyWatcher _ _ _
        (Slots.cons first.codec.part (Slots.ofParts (rest.parts.mapParts ReadCodec.part))).feed _
      rw [Slots.feed_cons]
      exact (hwatch.inTurn (slots hmembers.2)).weaken (fun _ hname => hname) id
        fun node hfit => ⟨⟨hfit.1, hfit.2.1⟩, ⟨hfit.1, hfit.2.2⟩⟩

theorem interior {members : Plan.Members β} (hmembers : members.AreSteady)
    (conditions : List Attribute) :
    ∃ claims, SteadyReader claims members.Apart
      (fun node => node.WellFormed ∧ members.Fits node) (members.assembly conditions).interior := by
  induction members, conditions using Plan.Members.held_or_lone with
  | @held β members conditions hheld =>
      exact ⟨_, .held hheld hmembers.slots (.conditions conditions)⟩
  | lone first =>
      have hlone : SteadyReader first.claims first.Apart
          (fun node => node.WellFormed ∧ first.Fits node)
          (Assembly.lone first.codec.part).interior := .lone hmembers.1
      exact ⟨_, hlone.weaken (fun _ => id) And.left fun node hfit => ⟨hfit.1, hfit.2.1⟩⟩

end Plan.Members.AreSteady

mutual

/-- The codec of a plan is steady. -/
theorem Plan.steady : {α : Type} → (plan : Plan α) → SteadyReader plan.claims plan.Apart
    (fun node => node.WellFormed ∧ plan.Fits node) plan.codec.reader
  | _, .ofAttribute name => .ofClaim _
  | _, .anyAttribute => .ofClaim _
  | _, .text => .text
  | _, .elements claims shownName members conditions => by
      obtain ⟨others, hinterior⟩ := members.areSteady.interior conditions
      refine .elements (members.resets_assembly conditions) hinterior fun hfit hclaims => ?_
      obtain ⟨⟨hdistinct, hcontent⟩, hfits⟩ := hfit
      obtain ⟨hfew, hmembers⟩ := hfits hclaims
      exact ⟨fun early middle => members.length_early hdistinct conditions hfew,
        fun node hmem => ⟨hcontent node hmem, hmembers node hmem⟩⟩
  | _, .collect inner => (inner.steady.gather _ _).map _
  | _, @Plan.entries _ _ _ inner => inner.steady.gather _ _
  | _, .fold inner initial combine => inner.steady.fold initial combine
  | _, .optional inner => inner.steady.optional
  | _, .map inner f => inner.steady.map f

theorem Plan.Members.areSteady : {β : Type} → (members : Plan.Members β) → members.AreSteady
  | _, .nil => trivial
  | _, .cons first rest => ⟨first.steady, rest.areSteady⟩

end

theorem Plan.mute : {α : Type} → (plan : Plan α) → plan.isElement = true →
    ∀ state, (plan.codec.reader.reset state).1 = .pending
  | _, .elements _ _ _ _, _, _ => rfl
  | _, .map inner f, helement, state => by
      have hinner := inner.mute helement state
      change ((inner.codec.reader.reset state).1.map f) = .pending
      rw [hinner]
      rfl

/-- Elements read alike with their attributes in the start tokens and behind them:
the same values, or a failure.  The failure is the same as well if no two members
of one element read elements of the same name. -/
theorem Plan.readAll_contentSpreadTokens (plan : Plan α) (helement : plan.isElement = true)
    {nodes : List Node} (hwellFormed : ∀ node ∈ nodes, node.WellFormed)
    (hfits : ∀ node ∈ nodes, plan.Fits node) :
    (∀ values, plan.codec.readAll (contentTokens nodes) = .ok values ↔
      plan.codec.readAll (contentSpreadTokens nodes) = .ok values) ∧
    (plan.Apart → plan.codec.readAll (contentTokens nodes) =
      plan.codec.readAll (contentSpreadTokens nodes)) := by
  have hagrees : Agrees plan.Apart (plan.codec.readAll (contentTokens nodes))
      (plan.codec.readAll (contentSpreadTokens nodes)) := by
    obtain ⟨rests, hstart, hsteady⟩ := plan.steady
    have hconsume := hsteady.content hstart fun node hmem =>
      ⟨hwellFormed node hmem, hfits node hmem⟩
    have hread {tokens : List Token} (hnested : Nested tokens) :
        plan.codec.readAll tokens =
          (plan.codec.reader.consume plan.codec.reader.start tokens).map Prod.fst := by
      rcases hresult : plan.codec.reader.consume plan.codec.reader.start tokens with
        failure | ⟨values, next⟩
      · exact ReadCodec.readAll_of_error hresult
      · rw [ReadCodec.readAll_of_consume hresult (hnested.trackAll 0), plan.mute helement]
        simp [Except.map, Outcome.value?]
    rw [hread (nested_contentTokens nodes), hread (nested_contentSpreadTokens nodes)]
    exact hconsume.map Prod.fst
  exact ⟨hagrees.ok_iff, hagrees.eq⟩

/-- An element with an attribute and a list of marked children. -/
theorem Plan.readAll_contentSpreadTokens_marked :
    let plan : Plan _ := .elements (· = .plain "o") "o"
      (.cons (.ofAttribute (.plain "id")) (.cons (.collect (.elements (· = .plain "i") "i"
        (.cons .text .nil) [⟨.plain "b", "1"⟩])) .nil)) []
    let node := element (.plain "o") [⟨.plain "id", "7"⟩]
      [element (.plain "i") [⟨.plain "a", "x"⟩, ⟨.plain "b", "1"⟩] [characters "hi"]]
    plan.codec.readAll (contentTokens [node]) = .ok [("7", [("hi", ())], ())] ∧
      plan.codec.readAll (contentSpreadTokens [node]) = .ok [("7", [("hi", ())], ())] := by
  intro plan node
  have hwellFormed : ∀ other ∈ [node], other.WellFormed := by
    rintro _ (_ | ⟨_, ⟨⟩⟩)
    refine .element (by decide) ?_
    rintro _ (_ | ⟨_, ⟨⟩⟩)
    refine .element (by decide) ?_
    rintro _ (_ | ⟨_, ⟨⟩⟩)
    exact .characters "hi"
  have hfits : ∀ other ∈ [node], plan.Fits other := by
    rintro _ (_ | ⟨_, ⟨⟩⟩)
    simp [plan, node, Plan.Fits, Plan.Members.Fits, Plan.Members.givesEach]
  have hsame := plan.readAll_contentSpreadTokens rfl hwellFormed hfits
  have hread : plan.codec.readAll (contentTokens [node]) = .ok [("7", [("hi", ())], ())] := rfl
  exact ⟨hread, (hsame.1 _).mp hread⟩

/-- The two forms differ where a start token gives no more than the last of its
attributes, and in the failure that is found first where two members read the same
elements. -/
theorem Plan.readAll_contentSpreadTokens_ne :
    let each : Plan _ := .elements (· = .plain "p") "p" (.cons .anyAttribute .nil) []
    let pair := element (.plain "p") [⟨.plain "a", "1"⟩, ⟨.plain "b", "2"⟩] []
    let marked (name : String) : Plan _ :=
      .elements (· = .plain "i") "i" (.cons .text .nil) [⟨.plain name, "1"⟩]
    let rivals : Plan _ := .elements (· = .plain "o") "o"
      (.cons (marked "b") (.cons (marked "a") .nil)) []
    let nested := element (.plain "o") []
      [element (.plain "i") [⟨.plain "a", "x"⟩, ⟨.plain "b", "x"⟩] []]
    each.codec.readAll (contentTokens [pair]) = .ok [((.plain "b", "2"), ())] ∧
      each.codec.readAll (contentSpreadTokens [pair]) =
        .ok [((.plain "a", "1"), ()), ((.plain "b", "2"), ())] ∧
      rivals.codec.readAll (contentTokens [nested]) =
        .error (.located ["o", "i"] (.unexpected "@b=1" "x")) ∧
      rivals.codec.readAll (contentSpreadTokens [nested]) =
        .error (.located ["o", "i"] (.unexpected "@a=1" "x")) :=
  ⟨rfl, rfl, rfl, rfl⟩

end Xml

end TokenCodec
