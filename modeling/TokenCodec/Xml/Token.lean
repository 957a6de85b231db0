import TokenCodec.Text.Quoted
import TokenCodec.Token

/-!
# Tokens of XML documents

The tokens of an XML document in the order of its text.  Attributes normally
arrive inside the token that starts their element; they may also follow it as
tokens of their own.
-/

namespace TokenCodec.Xml

/-- A name with an optional namespace. -/
structure Name where
  space : Option String
  localPart : String
  deriving DecidableEq, Repr, Inhabited

namespace Name

def plain (localPart : String) : Name := ⟨none, localPart⟩

/-- The namespace in braces, if there is one, and the local part. -/
def shownText (name : Name) : String :=
  match name.space with
  | some space => "\x7b" ++ space ++ "\x7d" ++ name.localPart
  | none => name.localPart

instance : Shown Name := ⟨shownText⟩

end Name

structure Attribute where
  name : Name
  value : String
  deriving DecidableEq, Repr, Inhabited

def Attribute.shownText (attr : Attribute) : String :=
  attr.name.shownText ++ "=" ++ Text.quote attr.value

inductive Token where
  | startElement (name : Name) (attributes : List Attribute)
  | endElement (name : Name)
  /-- An attribute of the innermost open element. -/
  | loneAttribute (attr : Attribute)
  | characters (text : String)
  deriving DecidableEq, Repr, Inhabited

namespace Token

def nesting : Token → Nesting
  | startElement _ _ => .opens
  | endElement _ => .closes
  | loneAttribute _ => .flat
  | characters _ => .flat

/-- The text that messages show for a token. -/
def shownText : Token → String
  | startElement name attributes =>
      "<" ++ name.shownText ++
        String.join (attributes.map fun attr => " " ++ attr.shownText) ++ ">"
  | endElement name => "</" ++ name.shownText ++ ">"
  | loneAttribute attr => "@" ++ attr.shownText
  | characters text => Text.quote text

instance : Alphabet Token where
  nesting := nesting
  text := shownText

end Token

end TokenCodec.Xml
