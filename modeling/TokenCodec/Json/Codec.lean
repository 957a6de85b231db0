import TokenCodec.Calendar.Rfc3339
import TokenCodec.Codec.Matching
import TokenCodec.Json.Reader
import TokenCodec.Json.Writer
import TokenCodec.Numeral.Shortest

/-!
# Codecs of JSON values

Scalars, members, arrays and objects as codecs over JSON tokens.
-/

namespace TokenCodec.Json

open Numeral Calendar

variable {α β : Type}

/-- A kind of scalar: its name in descriptions, and how one token is read and
written. -/
structure Scalar (α : Type) where
  kind : String
  parse : Token → Option α
  render : α → Token

namespace Scalar

def codec (scalar : Scalar α) : Codec Token α where
  description := "(" ++ scalar.kind ++ ")"
  reader := scalarReader ("(" ++ scalar.kind ++ ")") scalar.parse
  writer := .ofTokens fun value => [scalar.render value]

/-- A scalar carried by a number token, by its text. -/
def ofNumber (kind : String) (parse : String → Option α) (render : α → Token) : Scalar α where
  kind := kind
  parse
    | .number text => parse text
    | _ => none
  render := render

/-- A scalar carried by a string token, by its text. -/
def ofString (kind : String) (parse : String → Option α) (render : α → String) :
    Scalar α where
  kind := kind
  parse
    | .string text => parse text
    | _ => none
  render value := .string (render value)

def string : Scalar String := ofString "string" some id

/-- A number that fits into 32 bits. -/
def integer : Scalar Int32 :=
  ofNumber "integer" int32? fun n => .number (integerText n.toInt)

/-- A number that fits into 64 bits. -/
def long : Scalar Int64 :=
  ofNumber "long" int64? fun n => .number (integerText n.toInt)

def bigInteger : Scalar Int :=
  ofNumber "big integer" groupedInteger? fun n => .number (integerText n)

/-- A floating point number.  JSON has no numbers for the values that are not
finite; they are written as null. -/
def double : Scalar Double :=
  ofNumber "double" Binary.ofText? fun x => if x.isFinite then .number x.text else .null

def boolean : Scalar Bool where
  kind := "boolean"
  parse
    | .bool value => some value
    | _ => none
  render := .bool

def timestamp : Scalar Timestamp := ofString "date-time" Timestamp.ofText? Timestamp.text

end Scalar

end TokenCodec.Json

namespace TokenCodec

open Json

variable {α β : Type}

namespace ReadCodec

def member (name : String) (codec : ReadCodec Token α) : ReadCodec Token α where
  description := name ++ ": " ++ codec.description
  reader := memberReader name codec.reader

/-- Every object member, as a pair of name and value. -/
def anyMember (codec : ReadCodec Token α) : ReadCodec Token (String × α) where
  description := "*: " ++ codec.description
  reader := anyMemberReader codec.reader

def array (codec : ReadCodec Token α) : ReadCodec Token α where
  description := "[" ++ codec.description ++ "]"
  reader := arrayReader codec.reader

/-- An object made of parts, with conditions that have to hold. -/
def object (parts : Parts (ReadCodec Token) β) (conditions : List (Condition Token) := []) :
    ReadCodec Token β where
  description := describeParts (parts.toList description) conditions
  reader := objectReader (.ofParts (parts.mapParts part) (Condition.readers conditions))
  discriminator :=
    if conditions.isEmpty then none
    else some (objectReader (.ofParts .nil (Condition.readers conditions)))

/-- An array member that reads as the empty list when it is absent. -/
def listMember (name : String) (codec : ReadCodec Token α) : ReadCodec Token (List α) :=
  (codec.collect.array.member name).optional.map (·.getD [])

end ReadCodec

namespace WriteCodec

def member (name : String) (codec : WriteCodec Token α) : WriteCodec Token α where
  description := name ++ ": " ++ codec.description
  writer := memberWriter name codec.writer

def anyMember (codec : WriteCodec Token α) : WriteCodec Token (String × α) where
  description := "*: " ++ codec.description
  writer := anyMemberWriter codec.writer

def array (codec : WriteCodec Token α) : WriteCodec Token α where
  description := "[" ++ codec.description ++ "]"
  writer := arrayWriter codec.writer

/-- An object made of parts, with the fixed values of conditions behind them. -/
def object (parts : Parts (WriteCodec Token) β) (conditions : List (Condition Token) := []) :
    WriteCodec Token β where
  description := describeParts (parts.toList description) conditions
  writer := objectWriter (.parts (parts.mapParts writer)) (Condition.written conditions)

/-- An array member that is left out when it has no elements. -/
def listMember (name : String) (codec : WriteCodec Token α) : WriteCodec Token (List α) :=
  (codec.collect.array.member name).optional.contramap fun values =>
    if values.isEmpty then none else some values

/-- The same for writing alone: an array member, left out when empty. -/
def nonemptyMember (name : String) (codec : WriteCodec Token α) :
    WriteCodec Token (List α) where
  description := (codec.collect.array.member name).description ++ "?"
  writer := (codec.collect.array.member name).writer.skipEmpty

end WriteCodec

namespace Codec

def member (name : String) (codec : Codec Token α) : Codec Token α :=
  ofHalves (codec.toReadCodec.member name) (codec.toWriteCodec.member name)

/-- Every object member, as a pair of name and value. -/
def anyMember (codec : Codec Token α) : Codec Token (String × α) :=
  ofHalves codec.toReadCodec.anyMember codec.toWriteCodec.anyMember

def array (codec : Codec Token α) : Codec Token α :=
  ofHalves codec.toReadCodec.array codec.toWriteCodec.array

/-- An object made of parts.  Its conditions have to hold when it is read, and
are written behind the parts. -/
def object (parts : Parts (Codec Token) β) (conditions : List (Condition Token) := []) :
    Codec Token β :=
  ofHalves (.object (parts.mapParts toReadCodec) conditions)
    (.object (parts.mapParts toWriteCodec) conditions)

/-- An array member that is left out when it has no elements, and reads as the
empty list when it is absent. -/
def listMember (name : String) (codec : Codec Token α) : Codec Token (List α) :=
  ofHalves (codec.toReadCodec.listMember name) (codec.toWriteCodec.listMember name)

end Codec

end TokenCodec
