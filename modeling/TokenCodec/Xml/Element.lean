import TokenCodec.Xml.Token

/-!
# XML elements

An element as a tree, and its tokens in the two layouts that readers accept:
with the attributes inside the start token, or after it as tokens of their own.
-/

namespace TokenCodec.Xml

inductive Node where
  | element (name : Name) (attributes : List Attribute) (content : List Node)
  | characters (text : String)
  deriving Repr, Inhabited

namespace Node

mutual

/-- The tokens of a node, with attributes inside the start tokens. -/
def tokens : Node → List Token
  | element name attributes content =>
      .startElement name attributes :: contentTokens content ++ [.endElement name]
  | characters text => [.characters text]

def contentTokens : List Node → List Token
  | [] => []
  | node :: rest => node.tokens ++ contentTokens rest

end

mutual

/-- The tokens of a node, with attributes after the start tokens. -/
def spreadTokens : Node → List Token
  | element name attributes content =>
      .startElement name [] :: attributes.map Token.loneAttribute ++
        contentSpreadTokens content ++ [.endElement name]
  | characters text => [.characters text]

def contentSpreadTokens : List Node → List Token
  | [] => []
  | node :: rest => node.spreadTokens ++ contentSpreadTokens rest

end

end Node

end TokenCodec.Xml
