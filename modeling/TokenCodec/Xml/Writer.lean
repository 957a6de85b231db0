import TokenCodec.Writer.Parts
import TokenCodec.Xml.Token

/-!
# Writers of XML elements

The machine that writes the parts of an element.  The attributes among the
tokens of the first value go into the start token; everything else follows it.
-/

namespace TokenCodec.Xml

variable {β : Type}

/-- Split the attributes that stand at depth zero from the other tokens, both in
order, beginning at a depth. -/
def splitAttributes : Nat → List Token → List Attribute × List Token
  | _, [] => ([], [])
  | depth, .loneAttribute attr :: rest =>
      let (attributes, content) := splitAttributes depth rest
      if depth = 0 then (attr :: attributes, content)
      else (attributes, .loneAttribute attr :: content)
  | depth, token :: rest =>
      let (attributes, content) := splitAttributes (Alphabet.track depth token) rest
      (attributes, token :: content)

/-- Write the parts of each value into a common element.  The attributes of the
first value and of the conditions go into the start token, attributes of later
values stand by themselves, and the other tokens of the conditions stand at the
end. -/
def elementWriter (name : Name) (parts : Writer Token β) (conditions : List Token) :
    Writer Token β where
  State := parts.State × Bool
  start := (parts.start, false)
  write state value :=
    let (tokens, writing) := parts.write state.1 value
    if state.2 then (tokens, (writing, true))
    else
      let (attributes, content) := splitAttributes 0 tokens
      (.startElement name (attributes ++ (splitAttributes 0 conditions).1) :: content,
        (writing, true))
  close state :=
    let (tokens, writing) := parts.close state.1
    (if state.2 then tokens ++ (splitAttributes 0 conditions).2 ++ [.endElement name]
      else tokens,
      (writing, false))

end TokenCodec.Xml
