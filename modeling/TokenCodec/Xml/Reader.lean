import TokenCodec.Reader.Parts
import TokenCodec.Xml.Token

/-!
# Readers of XML elements

The machines that read attributes, text and elements from XML tokens.  The
readers of attributes and text stand inside one element and see its content;
they follow the depth of nested elements and leave those alone.
-/

namespace TokenCodec.Xml

variable {α β : Type}

/-- Read the attributes of the enclosing element that `claim` accepts. -/
def attributeReader (claim : Attribute → Option α) : Reader Token α where
  State := Nat
  start := 0
  feed depth token :=
    match token with
    | .loneAttribute attr =>
        if depth = 0 then
          match claim attr with
          | some value => (.produced value, depth)
          | none => (.pending, depth)
        else (.pending, depth)
    | token => (.pending, Alphabet.track depth token)
  reset _ := (.pending, 0)

/-- Gather the text directly inside the enclosing element.  The reset releases
it; an element without text reads as the empty text. -/
def textReader : Reader Token String where
  State := Nat × String
  start := (0, "")
  feed state token :=
    match token with
    | .characters text =>
        if state.1 = 0 then (.pending, (0, state.2 ++ text)) else (.pending, state)
    | token => (.pending, (Alphabet.track state.1 token, state.2))
  reset state := (.produced state.2, (0, ""))

/-- Where an element reader stands: outside of any element, at a depth within an
element that it does not read, or at a depth within one that it reads. -/
inductive ElementPlace where
  | outside
  | skipping (depth : Nat)
  | inside (name : String) (depth : Nat)
  deriving DecidableEq, Repr

def ElementPlace.skip (depth : Nat) (token : Token) : ElementPlace :=
  let depth := Alphabet.track depth token
  if depth = 0 then .outside else .skipping depth

def ElementPlace.advance (name : String) (depth : Nat) (token : Token) : ElementPlace :=
  let depth := Alphabet.track depth token
  if depth = 0 then .outside else .inside name depth

/-- Feed the attributes of a start token one after the other, `last` being the
answer so far.  The first failure ends the round. -/
def feedAttributes (assembly : Assembly Token β) :
    assembly.State → Outcome β → List Attribute → Outcome β × assembly.State
  | state, last, [] => (last, state)
  | state, last, attr :: rest =>
      let (outcome, state) := assembly.feed state (.loneAttribute attr)
      match outcome with
      | .pending => feedAttributes assembly state last rest
      | .failed failure => (.failed failure, state)
      | .produced value => feedAttributes assembly state (.produced value) rest

/-- Read every element whose name `claims` accepts with an assembly, which sees
the attributes and the content.  Other elements and text between elements are
passed over.  A failure ends the element; its path begins with the name of the
element. -/
def elementReader (claims : Name → Bool) (assembly : Assembly Token β) :
    Reader Token β where
  State := assembly.State × ElementPlace
  start := (assembly.start, .outside)
  feed state token :=
    let (reading, place) := state
    match place with
    | .outside =>
        match token with
        | .startElement name attributes =>
            if claims name then
              let (outcome, reading) := feedAttributes assembly reading .pending attributes
              (outcome.within name.shownText,
                (reading,
                  if outcome.isFailed then .outside else .inside name.shownText 1))
            else (.pending, (reading, .skipping 1))
        | _ => (.pending, state)
    | .skipping depth => (.pending, (reading, .skip depth token))
    | .inside name depth =>
        if depth = 1 ∧ token.nesting = .closes then
          let (outcome, reading) := assembly.complete reading
          (outcome.within name, (reading, .outside))
        else
          let (outcome, reading) := assembly.feed reading token
          (outcome.within name,
            (reading, if outcome.isFailed then .outside else .advance name depth token))
  reset state := (.pending, (assembly.discard state.1, .outside))

end TokenCodec.Xml
