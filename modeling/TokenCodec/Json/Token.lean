import TokenCodec.Text.Quoted
import TokenCodec.Token

/-!
# Tokens of JSON documents

The tokens of a JSON document in the order of its text.  A number keeps its
text, so that nothing is lost before a codec interprets it; the text is not
checked.
-/

namespace TokenCodec.Json

inductive Token where
  | startObject
  | endObject
  | startArray
  | endArray
  /-- The name of the member that follows. -/
  | name (text : String)
  | string (text : String)
  | number (text : String)
  | bool (value : Bool)
  | null
  deriving DecidableEq, Repr, Inhabited

namespace Token

/-- The token is a whole value by itself. -/
def isScalar : Token → Bool
  | string _ => true
  | number _ => true
  | bool _ => true
  | null => true
  | _ => false

def nesting : Token → Nesting
  | startObject => .opens
  | startArray => .opens
  | endObject => .closes
  | endArray => .closes
  | _ => .flat

/-- The text that messages show for a token. -/
def shownText : Token → String
  | startObject => "\x7b"
  | endObject => "\x7d"
  | startArray => "["
  | endArray => "]"
  | name text => "field " ++ Text.quote text
  | string text => Text.quote text
  | number text => text
  | bool value => Shown.text value
  | null => "null"

instance : Alphabet Token where
  nesting := nesting
  text := shownText

end Token

end TokenCodec.Json
