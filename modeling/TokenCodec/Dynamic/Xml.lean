import TokenCodec.Dynamic.Schema
import TokenCodec.Xml.Codec

/-!
# Schemas of XML codecs
-/

namespace TokenCodec.Dynamic.Xml

open TokenCodec.Xml

/-- The codecs without inner ones. -/
inductive Leaf where
  | ofAttribute (name : Name)
  | anyAttribute
  | text
  deriving DecidableEq, Repr

/-- The elements that parts stand in: those of one name, or all of them. -/
inductive Frame where
  | element (name : Name)
  | anyElement
  deriving DecidableEq, Repr

/-- A schema of an XML codec.  No codec wraps a single inner one. -/
abbrev Schema := Dynamic.Schema Leaf Empty Frame

def Leaf.halves : Leaf → Halves Token
  | ofAttribute name => .ofCodec (Xml.ofAttribute name) .ofText Value.toText
  | anyAttribute =>
      .ofCodec Xml.anyAttribute (fun pair => .list [.datum (.name pair.1), .ofText pair.2])
        fun
          | .list [.datum (.name name), value] => (name, value.toText)
          | _ => (.plain "", "")
  | text => .ofCodec Xml.text .ofText Value.toText

/-- The meaning of XML schemas.  An element without a fixed name can be read
only. -/
def dialect : Dialect Token Leaf Empty Frame where
  leaf := Leaf.halves
  wrap kind _ := nomatch kind
  read kind {_} parts conditions :=
    match kind with
    | .element name => .element name parts conditions
    | .anyElement => .anyElement parts conditions
  write kind {_} parts conditions :=
    match kind with
    | .element name => some (.element name parts conditions)
    | .anyElement => none

/-- The codec that an XML schema describes. -/
def codec (schema : Schema) : Halves Token := schema.halves dialect

end TokenCodec.Dynamic.Xml
