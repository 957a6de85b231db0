import TokenCodec.Json.Tagged
import TokenCodec.Xml.Token

/-!
# XML tokens as documents

Tokens are exchanged as JSON documents: an object with the name of the kind as
its only member and the content as its value.  Names and attributes may be
given as arrays of their fields in order; unknown fields are ignored, and a
missing namespace is none.
-/

namespace TokenCodec.Xml

open TokenCodec.Json

/-- The field of an object that may be left out; a field that occurs twice makes
the object unreadable. -/
def field? (members : List (String × Document)) (name : String) :
    Option (Option Document) :=
  match members.filter (·.1 == name) with
  | [] => some none
  | [(_, value)] => some (some value)
  | _ => none

def required? (members : List (String × Document)) (name : String) : Option Document :=
  (field? members name).join

/-- A text, or none for null and for a field left out. -/
def optionalText? : Option Document → Option (Option String)
  | none => some none
  | some .null => some none
  | some (.string text) => some (some text)
  | some _ => none

def Name.ofDocument? : Document → Option Name
  | .object members => do
      let space ← (field? members "namespace").bind optionalText?
      let localPart ← (required? members "local").bind Document.text?
      some ⟨space, localPart⟩
  | .array [space, localPart] => do
      let space ← optionalText? (some space)
      let localPart ← localPart.text?
      some ⟨space, localPart⟩
  | _ => none

def Name.toDocument (name : Name) : Document :=
  .object [("namespace", name.space.elim .null .string), ("local", .string name.localPart)]

def Attribute.ofDocument? : Document → Option Attribute
  | .object members => do
      let name ← (required? members "name").bind Name.ofDocument?
      let value ← (required? members "value").bind Document.text?
      some ⟨name, value⟩
  | .array [name, value] => do
      let name ← Name.ofDocument? name
      let value ← value.text?
      some ⟨name, value⟩
  | _ => none

def Attribute.toDocument (attr : Attribute) : Document :=
  .object [("name", attr.name.toDocument), ("value", .string attr.value)]

def attributesOfDocument? : Document → Option (List Attribute)
  | .array elements => elements.mapM Attribute.ofDocument?
  | _ => none

namespace Token

def ofDocument? (document : Document) : Option Token :=
  match document.tagged? with
  | some ("StartElement", some (.object members)) => do
      let name ← (required? members "name").bind Name.ofDocument?
      let attributes ← (required? members "attributes").bind attributesOfDocument?
      some (startElement name attributes)
  | some ("EndElement", some (.object members)) =>
      ((required? members "name").bind Name.ofDocument?).map endElement
  | some ("Attribute", some content) => (Attribute.ofDocument? content).map loneAttribute
  | some ("Characters", some content) => content.text?.map characters
  | _ => none

def toDocument : Token → Document
  | startElement name attributes =>
      .tag "StartElement" (.object [("name", name.toDocument),
        ("attributes", .array (attributes.map Attribute.toDocument))])
  | endElement name => .tag "EndElement" (.object [("name", name.toDocument)])
  | loneAttribute attr => .tag "Attribute" attr.toDocument
  | characters text => .tag "Characters" (.string text)

end Token

end TokenCodec.Xml
