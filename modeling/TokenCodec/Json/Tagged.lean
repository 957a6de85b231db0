import TokenCodec.Json.Document

/-!
# JSON tokens as documents

Tokens are exchanged as JSON documents: a token without content is the name of
its kind, and any other is an object with that name as its only member and the
content as its value.  Reading also takes a token without content as such an
object around null.
-/

namespace TokenCodec.Json

namespace Document

/-- The name of a kind, and the content that stands with it. -/
def tagged? : Document → Option (String × Option Document)
  | string kind => some (kind, none)
  | object [(kind, content)] => some (kind, some content)
  | _ => none

def text? : Document → Option String
  | string text => some text
  | _ => none

def bool? : Document → Option Bool
  | bool value => some value
  | _ => none

/-- A token `kind` with its content. -/
def tag (kind : String) (content : Document) : Document := object [(kind, content)]

end Document

namespace Token

/-- The token without content that has the name `kind`. -/
def bare? (kind : String) : Option Token :=
  match kind with
  | "StartObject" => some startObject
  | "EndObject" => some endObject
  | "StartArray" => some startArray
  | "EndArray" => some endArray
  | "Null" => some null
  | _ => none

/-- The token with the name `kind` and a content. -/
def filled? (kind : String) (content : Document) : Option Token :=
  match kind with
  | "FieldName" => content.text?.map name
  | "String" => content.text?.map string
  | "Number" => content.text?.map number
  | "Bool" => content.bool?.map bool
  | _ => none

def ofDocument? (document : Document) : Option Token :=
  document.tagged?.bind fun (kind, content) =>
    match content with
    | none => bare? kind
    | some .null => bare? kind
    | some content => filled? kind content

def toDocument : Token → Document
  | startObject => .string "StartObject"
  | endObject => .string "EndObject"
  | startArray => .string "StartArray"
  | endArray => .string "EndArray"
  | name text => .tag "FieldName" (.string text)
  | string text => .tag "String" (.string text)
  | number text => .tag "Number" (.string text)
  | bool value => .tag "Bool" (.bool value)
  | null => .string "Null"

/-- Every token is read back from the document that stands for it. -/
theorem ofDocument?_toDocument (token : Token) : ofDocument? token.toDocument = some token := by
  cases token <;> rfl

end Token

end TokenCodec.Json
