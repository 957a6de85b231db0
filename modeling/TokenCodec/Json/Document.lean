import TokenCodec.Json.Token

/-!
# JSON documents

A document as a tree, and its tokens.  Members keep their order, and a name may
occur more than once.
-/

namespace TokenCodec.Json

/-- A JSON document.  A number is kept as its text. -/
inductive Document where
  | null
  | bool (value : Bool)
  | number (text : String)
  | string (text : String)
  | array (elements : List Document)
  | object (members : List (String × Document))
  deriving Repr, Inhabited

namespace Document

mutual

def tokens : Document → List Token
  | null => [.null]
  | bool value => [.bool value]
  | number text => [.number text]
  | string text => [.string text]
  | array elements => .startArray :: elementTokens elements ++ [.endArray]
  | object members => .startObject :: memberTokens members ++ [.endObject]

def elementTokens : List Document → List Token
  | [] => []
  | element :: rest => element.tokens ++ elementTokens rest

def memberTokens : List (String × Document) → List Token
  | [] => []
  | (name, value) :: rest => .name name :: value.tokens ++ memberTokens rest

end

end Document

end TokenCodec.Json
