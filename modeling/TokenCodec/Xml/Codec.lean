import TokenCodec.Codec.Matching
import TokenCodec.Xml.Reader
import TokenCodec.Xml.Writer

/-!
# Codecs of XML elements

Attributes, text and elements as codecs over XML tokens.  The codecs are named
within the namespace of the format, since the combinators of JSON values and of
XML elements have different tokens.
-/

namespace TokenCodec.Xml

variable {α β : Type}

def ofAttribute (name : Name) : Codec Token String where
  description := "@" ++ name.shownText
  reader := attributeReader fun attr => if attr.name = name then some attr.value else none
  writer := .ofTokens fun value => [.loneAttribute ⟨name, value⟩]

/-- Every attribute of the enclosing element, as a pair of name and value. -/
def anyAttribute : Codec Token (Name × String) where
  description := "@*"
  reader := attributeReader fun attr => some (attr.name, attr.value)
  writer := .ofTokens fun pair => [.loneAttribute ⟨pair.1, pair.2⟩]

/-- The text directly inside the enclosing element.  The empty text has no
token. -/
def text : Codec Token String where
  description := "(body)"
  reader := textReader
  writer := .ofTokens fun value => if value.isEmpty then [] else [.characters value]

def describeElement (shownName : String) (parts : List String)
    (conditions : List (Condition Token)) : String :=
  "<" ++ shownName ++ "> " ++ describeParts parts conditions

/-- The reading codec of the elements whose name is accepted. -/
def readElements (claims : Name → Bool) (shownName : String)
    (parts : Parts (ReadCodec Token) β) (conditions : List (Condition Token)) :
    ReadCodec Token β where
  description := describeElement shownName (parts.toList ReadCodec.description) conditions
  reader :=
    elementReader claims
      (.ofParts (parts.mapParts ReadCodec.part) (Condition.readers conditions))
  discriminator :=
    if conditions.isEmpty then none
    else some (elementReader claims (.ofParts .nil (Condition.readers conditions)))

end TokenCodec.Xml

namespace TokenCodec

open Xml

variable {α β : Type}

namespace ReadCodec

/-- The element `name` made of parts, with conditions that have to hold.
Elements with other names are passed over. -/
def element (name : Name) (parts : Parts (ReadCodec Token) β)
    (conditions : List (Condition Token) := []) : ReadCodec Token β :=
  readElements (· = name) name.shownText parts conditions

def anyElement (parts : Parts (ReadCodec Token) β)
    (conditions : List (Condition Token) := []) : ReadCodec Token β :=
  readElements (fun _ => true) "*" parts conditions

end ReadCodec

/-- The element `name` made of parts, with the fixed values of conditions. -/
def WriteCodec.element (name : Name) (parts : Parts (WriteCodec Token) β)
    (conditions : List (Condition Token) := []) : WriteCodec Token β where
  description :=
    describeElement name.shownText (parts.toList WriteCodec.description) conditions
  writer := elementWriter name (.parts (parts.mapParts writer)) (Condition.written conditions)

/-- The element `name` made of parts.  Its conditions have to hold when it is
read, and are written with it. -/
def Codec.element (name : Name) (parts : Parts (Codec Token) β)
    (conditions : List (Condition Token) := []) : Codec Token β :=
  ofHalves (.element name (parts.mapParts toReadCodec) conditions)
    (.element name (parts.mapParts toWriteCodec) conditions)

end TokenCodec
