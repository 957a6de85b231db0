import TokenCodec.Dynamic.Schema
import TokenCodec.Json.Codec

/-!
# Schemas of JSON codecs
-/

namespace TokenCodec.Dynamic.Json

open TokenCodec.Json

/-- The scalars. -/
inductive Leaf where
  | string
  | integer
  | long
  | double
  | boolean
  | bigInteger
  | timestamp
  deriving DecidableEq, Repr

/-- The codecs around one inner codec. -/
inductive Wrapper where
  | member (name : String)
  | anyMember
  | array
  | listMember (name : String)
  | nonemptyMember (name : String)
  deriving DecidableEq, Repr

/-- A schema of a JSON codec.  Objects are the only frame. -/
abbrev Schema := Dynamic.Schema Leaf Wrapper Unit

def scalar {α : Type} (scalar : Scalar α) (f : α → Datum) (g : Datum → α) : Halves Token :=
  .ofCodec scalar.codec (fun value => .datum (f value)) (fun value => g value.toDatum)

def Leaf.halves : Leaf → Halves Token
  | string => scalar .string .string fun
      | .string text => text
      | _ => ""
  | integer => scalar .integer .integer fun
      | .integer n => n
      | _ => 0
  | long => scalar .long .long fun
      | .long n => n
      | _ => 0
  | double => scalar .double .double fun
      | .double x => x
      | _ => .nan
  | boolean => scalar .boolean .boolean fun
      | .boolean b => b
      | _ => false
  | bigInteger => scalar .bigInteger .bigInteger fun
      | .bigInteger n => n
      | _ => 0
  | timestamp => scalar .timestamp .timestamp fun
      | .timestamp time => time
      | _ => ⟨0, 0, 0, 0, 0, 0, 0, 0⟩

/-- The name and the value of a member as a value, and back. -/
def memberValue (pair : String × Value) : Value := .list [.ofText pair.1, pair.2]

/-- The name and the value in a value. -/
def memberPair : Value → String × Value
  | .list [name, value] => (name.toText, value)
  | _ => ("", default)

def Wrapper.halves (kind : Wrapper) (inner : Halves Token) : Halves Token :=
  match kind with
  | member name => inner.lift (·.member name) (·.member name)
  | anyMember =>
      inner.lift (fun codec => codec.anyMember.map memberValue)
        (fun codec => codec.anyMember.contramap memberPair)
  | array => inner.lift (·.array) (·.array)
  | listMember name =>
      inner.lift (fun codec => (codec.listMember name).map Value.list)
        (fun codec => (codec.listMember name).contramap Value.toList)
  | nonemptyMember name =>
      ⟨none, inner.write?.map fun codec =>
        (codec.nonemptyMember name).contramap Value.toList⟩

/-- The meaning of JSON schemas. -/
def dialect : Dialect Token Leaf Wrapper Unit where
  leaf := Leaf.halves
  wrap := Wrapper.halves
  read _ {_} parts conditions := .object parts conditions
  write _ {_} parts conditions := some (.object parts conditions)

/-- The codec that a JSON schema describes. -/
def codec (schema : Schema) : Halves Token := schema.halves dialect

end TokenCodec.Dynamic.Json
