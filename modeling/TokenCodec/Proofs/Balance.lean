import TokenCodec.Proofs.Nesting
import TokenCodec.Proofs.Rendering
import TokenCodec.Proofs.Writable

/-!
# Writers keep an account of what they opened

A writer opens a structure in one step and closes it in a later one.  An account
says, for every state that work leads to, which closing tokens are still owed,
the innermost first.  Writing a value turns one account into the next, and
closing pays everything.  Each combinator makes its account from those of its
parts, so that every writer of this library writes balanced runs.
-/

namespace TokenCodec

variable {τ α β : Type} [Bracketed τ]

namespace Writer

/-- The relation `due` is an account of the closing tokens that a writer owes. -/
structure Accounts (writer : Writer τ α) (due : writer.State → List τ → Prop) : Prop where
  start : due writer.start []
  write : ∀ {state : writer.State} {owed : List τ} (value : α), due state owed →
    ∃ after, due (writer.write state value).2 after ∧
      Owes owed (writer.write state value).1 after
  close : ∀ {state : writer.State} {owed : List τ}, due state owed →
    due (writer.close state).2 [] ∧ Owes owed (writer.close state).1 []

/-- Some account can be given. -/
def Accountable (writer : Writer τ α) : Prop :=
  ∃ due, writer.Accounts due

namespace Accounts

variable {writer : Writer τ α} {due : writer.State → List τ → Prop}

theorem writeClosed (hwriter : writer.Accounts due) {state : writer.State} {owed : List τ}
    (hdue : due state owed) (value : α) :
    due (writer.writeClosed state value).2 [] ∧
      Owes owed (writer.writeClosed state value).1 [] := by
  obtain ⟨after, hafter, hwritten⟩ := hwriter.write value hdue
  obtain ⟨hclosed, hclosing⟩ := hwriter.close hafter
  exact ⟨hclosed, hwritten.append hclosing⟩

theorem writeEach (hwriter : writer.Accounts due) {state : writer.State} {owed : List τ}
    (hdue : due state owed) (values : List α) :
    ∃ after, due (writer.writeEach state values).2 after ∧
      Owes owed (writer.writeEach state values).1 after := by
  induction values generalizing state owed with
  | nil => exact ⟨owed, hdue, .nil owed⟩
  | cons value values ih =>
      obtain ⟨hclosed, hwritten⟩ := hwriter.writeClosed hdue value
      obtain ⟨after, hafter, hrest⟩ := ih hclosed
      exact ⟨after, hafter, hwritten.append hrest⟩

theorem writeShared (hwriter : writer.Accounts due) {state : writer.State} {owed : List τ}
    (hdue : due state owed) (values : List α) :
    ∃ after, due (writer.writeShared state values).2 after ∧
      Owes owed (writer.writeShared state values).1 after := by
  induction values generalizing state owed with
  | nil => exact ⟨owed, hdue, .nil owed⟩
  | cons value values ih =>
      obtain ⟨middle, hmiddle, hwritten⟩ := hwriter.write value hdue
      obtain ⟨after, hafter, hrest⟩ := ih hmiddle
      exact ⟨after, hafter, hwritten.append hrest⟩

end Accounts

namespace Accountable

/-- Writing one value and closing gives a balanced run. -/
theorem balanced_writeClosed {writer : Writer τ α} (hwriter : writer.Accountable) (value : α) :
    Balanced (writer.writeClosed writer.start value).1 := by
  obtain ⟨due, hwriter⟩ := hwriter
  exact (hwriter.writeClosed hwriter.start value).2

/-- A writer that never leaves anything open. -/
theorem of_balanced {writer : Writer τ α} (closed : writer.State → Prop)
    (hstart : closed writer.start)
    (hwrite : ∀ {state : writer.State} (value : α), closed state →
      closed (writer.write state value).2 ∧ Balanced (writer.write state value).1)
    (hclose : ∀ {state : writer.State}, closed state →
      closed (writer.close state).2 ∧ Balanced (writer.close state).1) : writer.Accountable := by
  refine ⟨fun state owed => closed state ∧ owed = [], ⟨hstart, rfl⟩, ?_, ?_⟩
  · rintro state owed value ⟨hclosed, rfl⟩
    obtain ⟨hafter, hbalanced⟩ := hwrite value hclosed
    exact ⟨[], ⟨hafter, rfl⟩, hbalanced⟩
  · rintro state owed ⟨hclosed, rfl⟩
    obtain ⟨hafter, hbalanced⟩ := hclose hclosed
    exact ⟨⟨hafter, rfl⟩, hbalanced⟩

theorem ofTokens {tokens : α → List τ} (htokens : ∀ value, Balanced (tokens value)) :
    (Writer.ofTokens tokens).Accountable :=
  of_balanced (fun _ => True) trivial (fun value _ => ⟨trivial, htokens value⟩)
    fun _ => ⟨trivial, .nil⟩

theorem contramap {writer : Writer τ α} (hwriter : writer.Accountable) (f : β → α) :
    (writer.contramap f).Accountable := by
  obtain ⟨due, hwriter⟩ := hwriter
  exact ⟨due, hwriter.start, fun value => hwriter.write (f value), hwriter.close⟩

theorem collect {writer : Writer τ α} (hwriter : writer.Accountable) :
    writer.collect.Accountable := by
  obtain ⟨due, hwriter⟩ := hwriter
  exact ⟨due, hwriter.start, fun values hdue => hwriter.writeEach hdue values, hwriter.close⟩

theorem optional {writer : Writer τ α} (hwriter : writer.Accountable) :
    writer.optional.Accountable := by
  obtain ⟨due, hwriter⟩ := hwriter
  refine ⟨due, hwriter.start, fun value hdue => ?_, hwriter.close⟩
  cases value with
  | none => exact ⟨_, hdue, .nil _⟩
  | some value => exact hwriter.write value hdue

theorem skipEmpty {writer : Writer τ (List α)} (hwriter : writer.Accountable) :
    writer.skipEmpty.Accountable := by
  obtain ⟨due, hwriter⟩ := hwriter
  refine ⟨due, hwriter.start, fun values hdue => ?_, hwriter.close⟩
  cases values with
  | nil => exact ⟨_, hdue, .nil _⟩
  | cons value values => exact hwriter.write (value :: values) hdue

/-- Parts that stand side by side leave nothing open behind a value. -/
theorem exists_closed {parts : Parts (Writer τ) β}
    (hparts : ∀ {γ : Type} {writer : Writer τ γ}, parts.Mem writer → writer.Accountable) :
    ∃ closed : (besideAll parts).State → Prop, closed (besideAll parts).start ∧
      ∀ {state : (besideAll parts).State} (values : β), closed state →
        closed ((besideAll parts).write state values).2 ∧
          Balanced ((besideAll parts).write state values).1 := by
  induction parts with
  | nil => exact ⟨fun _ => True, trivial, fun _ _ => ⟨trivial, .nil⟩⟩
  | cons first rest ih =>
      obtain ⟨due, hfirst⟩ := hparts (Parts.mem_head first rest)
      obtain ⟨closed, hstart, hrest⟩ := ih fun hmem => hparts (Parts.mem_tail hmem first)
      refine ⟨fun state => due state.1 [] ∧ closed state.2, ⟨hfirst.start, hstart⟩, ?_⟩
      rintro state values ⟨hdue, hclosed⟩
      obtain ⟨hfirstDue, hwritten⟩ := hfirst.writeClosed hdue values.1
      obtain ⟨hrestClosed, hothers⟩ := hrest values.2 hclosed
      exact ⟨⟨hfirstDue, hrestClosed⟩, hwritten.append hothers⟩

theorem parts {parts : Parts (Writer τ) β}
    (hparts : ∀ {γ : Type} {writer : Writer τ γ}, parts.Mem writer → writer.Accountable) :
    (Writer.parts parts).Accountable := by
  -- What a lone part has opened is what the composition has opened.
  cases parts with
  | nil => exact .ofTokens fun _ => .nil
  | cons first rest =>
      cases rest with
      | nil => exact (hparts (Parts.mem_head first .nil)).contramap Prod.fst
      | cons second rest =>
          obtain ⟨closed, hstart, hwrite⟩ := exists_closed hparts
          exact .of_balanced closed hstart hwrite fun hclosed => ⟨hclosed, .nil⟩

end Accountable

/-- The account of a writer that notes whether a structure of its own is open:
around what its content owes stands the closing token of that structure. -/
def dueWithin {σ : Type} (due : σ → List τ → Prop) (ending : List τ) :
    σ × Bool → List τ → Prop
  | (state, true), owed => ∃ inner, due state inner ∧ owed = inner ++ ending
  | (state, false), owed => due state [] ∧ owed = []

/-- A structure around the content that another writer gives: it is opened in front
of the first value, goes on from value to value, and is closed at the end. -/
theorem Accountable.enclosing {content : Writer τ α} (hcontent : content.Accountable)
    (ending : List τ) {write : content.State × Bool → α → List τ × (content.State × Bool)}
    {close : content.State × Bool → List τ × (content.State × Bool)}
    (hafter : ∀ state value,
      (write state value).2 = ((content.write state.1 value).2, true))
    (hopens : ∀ {state value after}, Owes [] (content.write state value).1 after →
      Owes [] (write (state, false) value).1 (after ++ ending))
    (hcontinues : ∀ state value, (write (state, true) value).1 = (content.write state value).1)
    (hclosed : ∀ state, (close state).2 = ((content.close state.1).2, false))
    (hends : ∀ {state owed}, Owes owed (content.close state).1 [] →
      Owes (owed ++ ending) (close (state, true)).1 [])
    (hrests : ∀ state, (close (state, false)).1 = (content.close state).1) :
    (Writer.mk (content.State × Bool) (content.start, false) write close).Accountable := by
  obtain ⟨due, hcontent⟩ := hcontent
  refine ⟨dueWithin due ending, ⟨hcontent.start, rfl⟩, ?_, ?_⟩
  · rintro ⟨state, opened⟩ owed value hdue
    cases opened with
    | true =>
        obtain ⟨inner, hinner, rfl⟩ := hdue
        obtain ⟨after, hdue, hwritten⟩ := hcontent.write value hinner
        refine ⟨after ++ ending, ?_, ?_⟩
        · rw [hafter]
          exact ⟨after, hdue, rfl⟩
        · rw [hcontinues]
          exact hwritten.inside ending
    | false =>
        obtain ⟨hinner, rfl⟩ := hdue
        obtain ⟨after, hdue, hwritten⟩ := hcontent.write value hinner
        refine ⟨after ++ ending, ?_, hopens hwritten⟩
        rw [hafter]
        exact ⟨after, hdue, rfl⟩
  · rintro ⟨state, opened⟩ owed hdue
    rw [hclosed]
    cases opened with
    | true =>
        obtain ⟨inner, hinner, rfl⟩ := hdue
        obtain ⟨hdue, hclosing⟩ := hcontent.close hinner
        exact ⟨⟨hdue, rfl⟩, hends hclosing⟩
    | false =>
        obtain ⟨hinner, rfl⟩ := hdue
        obtain ⟨hdue, hclosing⟩ := hcontent.close hinner
        rw [hrests]
        exact ⟨⟨hdue, rfl⟩, hclosing⟩

end Writer

theorem balanced_written {conditions : List (Condition τ)}
    (hconditions : ∀ condition ∈ conditions, condition.writer.Accountable) :
    Balanced (Condition.written conditions) := by
  apply Balanced.flatMap
  intro condition hmem
  exact (hconditions condition hmem).balanced_writeClosed ()

/-! ## JSON writers -/

namespace Json

open Writer

variable {writer : Writer Token α}

/-- A member owes what its value owes.  A value whose writing gave no token owes
nothing, so what closing it gives can be left out with the name. -/
theorem accountable_memberWriter (hwriter : writer.Accountable) (name : String) :
    (memberWriter name writer).Accountable := by
  obtain ⟨due, hwriter⟩ := hwriter
  refine ⟨dueWithin due [], ⟨hwriter.start, rfl⟩, ?_, ?_⟩
  · rintro ⟨state, named⟩ owed value hdue
    cases named with
    | true =>
        obtain ⟨inner, hinner, rfl⟩ := hdue
        obtain ⟨after, hafter, hwritten⟩ := hwriter.write value hinner
        exact ⟨after ++ [], ⟨after, hafter, rfl⟩, hwritten.inside []⟩
    | false =>
        obtain ⟨hinner, rfl⟩ := hdue
        obtain ⟨after, hafter, hwritten⟩ := hwriter.write value hinner
        rcases hwrite : writer.write state value with ⟨_ | ⟨token, tokens⟩, next⟩
        · rw [hwrite] at hafter hwritten
          cases hwritten
          simp only [memberWriter, hwrite]
          exact ⟨[], ⟨hafter, rfl⟩, .nil []⟩
        · rw [hwrite] at hafter hwritten
          simp only [memberWriter, hwrite]
          exact ⟨after ++ [], ⟨after, hafter, rfl⟩, .flat rfl (hwritten.inside [])⟩
  · rintro ⟨state, named⟩ owed hdue
    cases named with
    | true =>
        obtain ⟨inner, hinner, rfl⟩ := hdue
        obtain ⟨hclosed, hclosing⟩ := hwriter.close hinner
        exact ⟨⟨hclosed, rfl⟩, hclosing.inside []⟩
    | false =>
        obtain ⟨hinner, rfl⟩ := hdue
        obtain ⟨hclosed, -⟩ := hwriter.close hinner
        exact ⟨⟨hclosed, rfl⟩, .nil []⟩

theorem accountable_anyMemberWriter (hwriter : writer.Accountable) :
    (anyMemberWriter writer).Accountable := by
  obtain ⟨due, hwriter⟩ := hwriter
  refine .of_balanced (due · []) hwriter.start (fun pair hdue => ?_) fun hdue => ⟨hdue, .nil⟩
  obtain ⟨hclosed, hwritten⟩ := hwriter.writeClosed hdue pair.2
  exact ⟨hclosed, .flat rfl hwritten⟩

theorem accountable_arrayWriter (hwriter : writer.Accountable) :
    (arrayWriter writer).Accountable := by
  -- Every element is closed as it is written, so nothing is open but the array.
  have helements : writer.closingEach.Accountable := by
    obtain ⟨due, hwriter⟩ := hwriter
    exact .of_balanced (due · []) hwriter.start (fun value hdue => hwriter.writeClosed hdue value)
      fun hdue => ⟨hdue, .nil⟩
  refine helements.enclosing [.endArray] (fun _ _ => rfl)
    (fun hwritten => .opens rfl (hwritten.inside _)) (fun _ _ => rfl) (fun _ => rfl)
    (fun {state} {owed} hclosing => ?_) fun _ => rfl
  cases hclosing
  exact .closes rfl (.nil [])

theorem accountable_objectWriter {parts : Writer Token β} (hparts : parts.Accountable)
    {conditions : List Token} (hconditions : Balanced conditions) :
    (objectWriter parts conditions).Accountable := by
  refine hparts.enclosing [.endObject] (fun _ _ => rfl)
    (fun hwritten => .opens rfl (hwritten.inside _)) (fun _ _ => rfl) (fun _ => rfl)
    (fun hclosing => ?_) fun _ => rfl
  have hinside := (hclosing.append hconditions).inside [Token.endObject]
  exact hinside.append (.closes rfl (.nil []))

end Json

/-! ## XML writers -/

/-- Attributes have no brackets, so it makes no difference to the account that they
are moved into the start token. -/
theorem Xml.accountable_elementWriter {parts : Writer Token β} (hparts : parts.Accountable)
    (name : Name) {conditions : List Token} (hconditions : Balanced conditions) :
    (elementWriter name parts conditions).Accountable := by
  refine hparts.enclosing [.endElement name] (fun state value => ?_)
    (fun hwritten => .opens rfl ((hwritten.splitAttributes 0).inside _)) (fun _ _ => rfl)
    (fun _ => rfl) (fun hclosing => ?_) fun _ => rfl
  · obtain ⟨writing, opened⟩ := state
    cases opened <;> rfl
  · have hinside := (hclosing.append (hconditions.splitAttributes 0)).inside
      [Token.endElement name]
    exact hinside.append (.closes rfl (.nil []))

/-! ## The law -/

theorem Writable.accountable {writer : Writer τ α} (hwritable : Writable writer) :
    writer.Accountable := by
  induction hwritable with
  | scalar hstandard =>
      refine .ofTokens fun value => .of_flat fun token hmem => ?_
      cases List.mem_singleton.mp hmem
      exact Json.Token.nesting_of_isScalar (hstandard.isScalar_render value)
  | member name _ ih => exact Json.accountable_memberWriter ih name
  | anyMember _ ih => exact Json.accountable_anyMemberWriter ih
  | array _ ih => exact Json.accountable_arrayWriter ih
  | object _ _ hparts hconditions =>
      exact Json.accountable_objectWriter (.parts hparts) (balanced_written hconditions)
  | ofAttribute name => exact .ofTokens fun _ => .flat rfl (.nil [])
  | anyAttribute => exact .ofTokens fun _ => .flat rfl (.nil [])
  | text =>
      refine .ofTokens fun value => ?_
      split
      · exact .nil
      · exact .flat rfl (.nil [])
  | element name _ _ hparts hconditions =>
      exact Xml.accountable_elementWriter (.parts hparts) name (balanced_written hconditions)
  | contramap _ f ih => exact ih.contramap f
  | collect _ ih => exact ih.collect
  | optional _ ih => exact ih.optional
  | skipEmpty _ ih => exact ih.skipEmpty

/-- Whatever values one writer is given before it is closed, in its tokens every
closing token closes the innermost open structure, and no structure is left
open. -/
theorem Writable.balanced_writeAll {codec : WriteCodec τ α} (hwritable : Writable codec.writer)
    (values : List α) : Balanced (codec.writeAll values) := by
  obtain ⟨due, hwriter⟩ := hwritable.accountable
  obtain ⟨after, hafter, hwritten⟩ := hwriter.writeShared hwriter.start values
  exact hwritten.append (hwriter.close hafter).2

/-- Shelves with a label, the texts of their books, and a condition on an attribute
and one on a child. -/
def Xml.shelfCodec : Codec Xml.Token (Option String × List (String × Unit) × Unit) :=
  .element (.plain "shelf")
    (.cons (ofAttribute (.plain "label")).optional
      (.one (Codec.element (.plain "book") (.one text)).collect))
    [(ofAttribute (.plain "v")).fixed "1",
      ((Codec.element (.plain "kind") (.one text)).imap Prod.fst (·, ())).fixed "open"]

theorem Xml.writable_shelfCodec : Writable shelfCodec.writer := by
  have htexts (name : Name) : Writable (Codec.element name (.one text)).writer := by
    apply Writable.codecElement name _ (List.forall_mem_nil _)
    intro γ codec hmem
    cases Parts.mem_one hmem
    exact .text
  apply Writable.codecElement
  · intro γ codec hmem
    rcases hmem with hlabel | hbooks | hnone
    · cases hlabel
      exact .optional (.ofAttribute _)
    · cases hbooks
      exact .collect (htexts _)
    · exact hnone.elim
  · intro condition hmem
    rcases List.mem_cons.mp hmem with rfl | hkind
    · exact .contramap (.ofAttribute _) _
    · cases List.mem_singleton.mp hkind
      exact .contramap (.contramap (htexts _) _) _

/-- Two shelves share one element; the attribute of the first goes into the start
token, and what the conditions write is shared out to both ends. -/
theorem Writable.balanced_writeAll_shelf :
    Xml.shelfCodec.toWriteCodec.writeAll
        [(some "a", [("x", ()), ("", ())], ()), (none, [("y", ())], ())] =
      [.startElement (.plain "shelf") [⟨.plain "label", "a"⟩, ⟨.plain "v", "1"⟩],
        .startElement (.plain "book") [], .characters "x", .endElement (.plain "book"),
        .startElement (.plain "book") [], .endElement (.plain "book"),
        .startElement (.plain "book") [], .characters "y", .endElement (.plain "book"),
        .startElement (.plain "kind") [], .characters "open", .endElement (.plain "kind"),
        .endElement (.plain "shelf")] ∧
      Balanced (Xml.shelfCodec.toWriteCodec.writeAll
        [(some "a", [("x", ()), ("", ())], ()), (none, [("y", ())], ())]) :=
  ⟨by decide, balanced_writeAll Xml.writable_shelfCodec _⟩

end TokenCodec
